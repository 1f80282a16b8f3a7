import Sveltify.Text.Case

/-! Case folding: characters that differ only in their case fold to the same character. -/

namespace Sveltify.Text

def CaseRun.pairs (r : CaseRun) : List (Nat × Nat) :=
  (List.range ((r.hi - r.lo) / r.step + 1)).map fun i =>
    let n := r.lo + i * r.step
    (n, ((n : Int) + r.shift).toNat)

def smallFolds : List (Nat × Nat) := [
  (181, 956), (383, 115), (837, 953), (962, 963), (976, 946), (977, 952), (981, 966), (982, 960),
  (1008, 954), (1009, 961), (1013, 949), (7296, 1074), (7297, 1076), (7298, 1086), (7299, 1089),
  (7300, 1090), (7301, 1090), (7302, 1098), (7303, 1123), (7304, 42571), (7835, 7777), (8126, 953),
  (8147, 912), (8163, 944), (64261, 64262)]

/-- Every character that folds, with what it folds to. Characters fold to small ones; only the
Cherokee letters, which had no small forms at first, fold to capitals. -/
def foldPairs : List (Nat × Nat) :=
  (lowerRuns.flatMap (·.pairs)).map
    (fun (n, small) => if 5024 ≤ n && n ≤ 5109 then (small, n) else (n, small)) ++ smallFolds

end Sveltify.Text
