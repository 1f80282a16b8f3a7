import Sveltify.Text.Blank
import Sveltify.Text.Category

/-! Letters and numerals. A letter is a character of Unicode's class `Alphabetic`, a numeral one of
the general categories `Nd`, `Nl` and `No`. -/

namespace Sveltify.Text

def otherAlphabetic : List Stretch := stretchTable 1 [
  "bgFBbDNwEOBBBCBCBBcULbWNBHQBdXHEECCEBbJBbEQdYLdXCDJBDBEeCBcIMDHGUcCCCPBCFDKCbDDcGHCCCCKBKCbDD",
  "cGFECCCEBbECDBLDcGIBDBCVCWDEDcGHCCCCJCKCbEBcHFDDBDKBbOFcFHBDBDICLCbDDcGHBDBDICLCPBMEcGHBDBDKB",
  "KCbDDcXGBBBISCcJBCHSBdVBCGBCQBgHTJLBbKeGMBBCEXEEDBDCHDENMBBKEclOCbECbECbECcOThGCbIBeOMEJiOFcF",
  "KCUcWCLDbXFbWPcIDbEJCCcFLbYTpWbIcoNcAdkGbGbtqAIbICnQBIBXFdKCbYQBBcFBbMFbCMbTEbWMbLBcPOMBICbTD",
  "bYBBDCCFBbSFFBjDIbdzVBdeDFcmGDBCFEbeIEcNBmJCdBBjZDcBObTCLDbTJJBcJDbKMSCcFDbWNOCdOJCBGBCBgBKXE",
  "cGHCCCCKBKCdGJBBCBBEBCdZNBDeCSjDHCHbDCdEPBBeCLdZOjXNjNGBCCCfSHCGEBbCKbQFBESLbUOpRIBHdFWBOeSGD",
  "BBCBDBBDBcOFBCBEnKEJCBBbWHDDyyNRfjCBBcDHEdPCbdaYBnkJHBRCHBCBFdWBdhVBczWbAGbAGbA"] ++
  stretchTable 2 ["ecnGC"]

def isLetter (c : Char) : Bool :=
  let n := c.toNat
  if n < 128 then c.isAlpha
  else inCategories (.letterNumber :: Category.letters) n || inStretches otherAlphabetic n

def isNumeral (c : Char) : Bool :=
  let n := c.toNat
  if n < 128 then c.isDigit else inCategories Category.numerals n

def isLetterOrNumeral (c : Char) : Bool :=
  isLetter c || isNumeral c

def isWordChar (c : Char) : Bool :=
  isLetterOrNumeral c || c == '_' || c == '$'

end Sveltify.Text
