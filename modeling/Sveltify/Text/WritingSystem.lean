import Sveltify.Text.Ranges

/-! Writing systems and the characters that each uses. -/

namespace Sveltify.Text

structure WritingSystem where
  names : List String
  own : List (Nat × Nat)
  shared : List (Nat × Nat)
deriving Inhabited

namespace WritingSystem

def table : List (List String × String × String) := [
  (["adlam", "adlm"], "hdeUcYEKEC", "ciHBbGBjwOBfhHB"),
  (["ahom"], "ebrCbBCPEX", ""),
  (["anatolianhieroglyphs", "hluw"], "essEwL", ""),
  (["arabic", "arab"], "chCFBGBOBDBbGBKLbABeEBbIdCbWjGbFBCFcXBbDdntWeLQnZCdCCcCHBbGQeIFBfFfvN" ++
    "bFcPDcDEdglSEBbBBCBBCBBKBEBBBBGBEBBBBBBDBCBBCBBBBBBBBBBCBBCEBHBEBEBBBKBRFDBFBRcAC",
    "chOBOBDBbGBKLbABjuSBfhHBdakACcdKbC"),
  (["armenian", "armn"], "bzDbMCbYCDdozJF", "bdWB"),
  (["avestan", "avst"], "dxcYcCDH", "hBBrfSC"),
  (["balinese", "bali"], "kfWcZBbY", ""),
  (["bamum", "bamu"], "clcQdKcvcQvX", ""),
  (["bassavah", "bass"], "fhkIbECG", ""),
  (["batak", "batk"], "knGcAIE", ""),
  (["bengali", "beng"], "dpOEBICCCWBHBBDECJCCCEIBECBFCZ", "baYBcmUCRChjEBBBCCBBIBIBCBEBCDcbaFB"),
  (["bhaiksuki", "bhks"], "edoIJBbTBOKbD", ""),
  (["bopomofo", "bopo"], "bcSCrlXbReIbG", "bbJBBDNBrcPDEKBNKECBGBhNBcztHCkWF"),
  (["brahmi", "brah"], "dzaEdAEbKJB", ""),
  (["braille", "brai"], "pdWjW", ""),
  (["buginese", "bugi"], "jwAbCCC", "cmhZB"),
  (["buhid", "buhd"], "iuYU", "iuNC"),
  (["canadianaboriginal", "cans"], "hoYyQvOcSdtpQQ", ""),
  (["carian", "cari"], "dtyMbX", "hBBlzMBCBfgDB"),
  (["caucasianalbanian", "aghb"], "duxScALB", "bdSBbSBbSB"),
  (["chakma", "cakm"], "dzkAcBBS", "dtMKckEK"),
  (["cham"], "cmjWcDJOCKCE", ""),
  (["cherokee", "cher"], "hlGdICGcfjEdC", "bdODBBGCWCLC"),
  (["chorasmian", "chrs"], "dyxCbC", ""),
  (["common", "zyyy"], "AcNbAGbAbVBPBFXBbFBrHbNFFCUeMBJBGBBByNBGBOBDBbGBgABtWBeZCbvTBpPElEBcgL" ++
    "DcTChVCBBbvHBNBHEBGBDCBbdTMCdJBLDLBPRbHcLbMBDCGBbBBRbPDEzQWLVbjSjWyECbGBeBtSdQpMVBBBZPIEE" ++
    "dNCDBdMCfRQbGbMJBbWcMbFdDbVBdKgMjtOcMbhsIbIdYDgJKjKBgEBpFBOCbezQCiAKWbJBTBEfRBBbGbAGbALKB" ++
    "bTCcMHBHKFjYDEbTDJdCNbZbTiUbBcshWEfvGjQGqUgAeMcIjMKbNCcKDRICHbEEcJiFUMUMdJJZfFdHBcTBCCBCCC" ++
    "EBMBBBHBcNBECIBHBbCBEBFBBDHBnCClGCbYhtHcQcYcJbbEbSEdWMPCPBPBbLKgScEbABCNbSEJHCOGfYblWERDND" ++
    "ePEdRGMEBPMEcEIKGbOIbECMECcKnCMOCNDKFcEHPCLGJHfRBdYbsuxBBbEdS", ""),
  (["coptic", "copt", "qaac"], "bmGOpjKeMFH", "hBBwMBDCBBeECqdTBdcpCbC"),
  (["cuneiform", "xsux"], "efbSbjMdYeHBFLhO", ""),
  (["cypriot", "cprt"], "dvzKGCBBbSBCDBCB", "dtiMDEbTDJ"),
  (["cyprominoan", "cpmn"], "ekyYdV", "dtiMC"),
  (["cyrillic", "cyrl"], "bnKfDCgNivOLgEBcYBgfNbGbtoAdSbheCCdhpGcKbHB",
    "baYBcPDBBBBBBCBFBoHCjqNBgeKB"),
  (["deseret", "dsrt"], "dumAdC", ""),
  (["devanagari", "deva"], "dkQdDEPCbAcijGbGbreMK", "baYBcmUCRChjEbNBCbnABbzfRK"),
  (["divesakuru", "diak"], "eckUHCBCIBCBbEBCCMJK", ""),
  (["dogra", "dogr"], "ecaYcI", "doMMcidCK"),
  (["duployan", "dupl"], "gmdSeDFNDJHKCE", "hBBwTCBBYCqiHBfuwPE"),
  (["egyptianhieroglyphs", "egyp"], "eldGbqSKfxR", ""),
  (["elbasan", "elba"], "duvWbO", "hBBwRB"),
  (["elymaic", "elym"], "dyyYX", ""),
  (["ethiopic", "ethi"], "gvGcVBECHBBBECbPBECbHBECHBBBECPBcFBECcPCbGDbAjvAXJHBHBHBHBHBHBHBH" ++
    "bvkCGCGCGJHBHepyFHBEBCBP", "beCB"),
  (["garay", "gara"], "dxzCbMDbDIC", "chOBOBDB"),
  (["georgian", "geor"], "ghSbMBBFBCbRBEejWbRCDgeAbMBBFB", "hBBbvLBeiRBfvIBfgGB"),
  (["glagolitic", "glag"], "qrGdSgizGHBRCHBCBF", "hBBwPBBBoSBCBjXBeiRBfvIBfgYBbtnFB"),
  (["gothic", "goth"], "dueAbB", "hBBwQCCBbOB"),
  (["grantha", "gran"], "eadSEBICCCWBHBCBFCJCCCDCBGBFHCHDF", "dnTCRCyQOgkABBCbEDDCbnABdntQBetWCBB"),
  (["greek", "grek"], "bhWEBDCEBBEBBBBDBBBUBcLOQjnQFbYFEFdGBmIWCGCbMCGCIBBBBBBBbFCcBBPBOCGBTCD" ++
    "BJlJBcajEBbgnIdBRBdaxRcS", "hBBwMCCBBBBBKBbUBCBbUBjyXCzRB"),
  (["gujarati", "gujr"], "dzLDBJBDBWBHBCBFCKBDBDCBPECMHH", "dnTCRCcidMK"),
  (["gunjalagondi", "gong"], "eebWGBCBbLBCBGHK", "hBBdhKC"),
  (["gurmukhi", "guru"], "duNDBGECCWBHBCBCBCCBBFECCDDBHEBBHR", "dnTCRCcidMK"),
  (["gurungkhema", "gukh"], "fdrScG", "doNB"),
  (["han", "hani"], "rpWbABdLMiGbVBBBZJOEblCjtOcMbfbKbhsIoCCeCbsiICMCccoKclfCbGgdUGiOCinQOlbLP" ++
    "xYdqWuWcfYhhZFgfG",
    "hBBrwYQBDCBBKBNKECBGBEEhFBfSQbGbMJBbWbOcEbXPMbZBdKZKFdSbFbroJIbhaZCkWFdchESlrYC"),
  (["hangul", "hang"], "glKjWllECjXdQeJbFcNbFbtaNbDyTqnSMXEbXpaIbFDGCGCGCD",
    "seRDEKBNQBGBhNBcztHCkWF"),
  (["hanifirohingya", "rohg"], "dxwQbOIK", "chOBOBDBbGBfRB"),
  (["hanunoo", "hano"], "itSV", "iuNC"),
  (["hatran", "hatr"], "dwiATBCFF", ""),
  (["hebrew", "hebr"], "ccVcDIbBEGdovWbABFBBBCBCBK", "bdVC"),
  (["hiragana", "hira"], "shDdIGDfpeVlBSBbDDymVB", "seRDEKBNQGBBECdNEDBdMCcztGCkWFKBbTC"),
  (["imperialaramaic", "armi"], "dwbWWBJ", ""),
  (["inherited", "zinh", "qaai"], "bdOeIkRCrKLbABbcIEgoXbFtTDBNBHEBGBDChQcMuEChMbHftXEeDCczuJQ" ++
    "QOblNBiSBgfABctcUbUCXuYDRICHbEEbtlhIjG", ""),
  (["inscriptionalpahlavi", "phli"], "dxgQTFI", ""),
  (["inscriptionalparthian", "prti"], "dxfKWCI", ""),
  (["javanese", "java"], "cmeYdACKEC", "cmhZB"),
  (["kaithi", "kthi"], "dzfCcPKB", "doOKnxXBbufEK"),
  (["kannada", "knda"], "etCNBDBXBKBFCJBDBEHCGCBECKBD", "dnTCRChjEBBCGBXBBBcasXG"),
  (["katakana", "kana"], "skVdMCDjGQiAbVBdKczhEKBbTcouCEBHBCBBlBDbYBOE",
    "bdTBbDBqzTDEKBNQGBBECdNEDBdMCcztGCkWFKBbTC"),
  (["kawi"], "eerWRBbPDbD", ""),
  (["kayahli", "kali"], "cmaAbUBB", "cmbUB"),
  (["kharoshthi", "khar"], "dwtCEBCFIBDBbDCDEKHJ", ""),
  (["khitansmallscript", "kits"], "fjiIBkgXsCbPB", ""),
  (["khmer", "khmr"], "ixKdQCKGKsSbG", ""),
  (["khojki", "khoj"], "dztWSBbV", "edIKchoIK"),
  (["khudawadi", "sind"], "eaaQcHFK", "doMCcidMK"),
  (["kiratrai", "krai"], "fiiIcG", ""),
  (["lao", "laoo"], "fmVCBBBFBYBBBXCFBBBHBKCE", ""),
  (["latin", "latn"], "cNbAGbAbVBPBFXBbFBrHbNFjxBbMGbXFEFNBcScNjWoFBNBQNfLCGBbBBRbPecTbGbulMdY" ++
    "DcPCCBBBIVObfKbRBJBEbedQHboKbAGbAdcFGBbQBJddnPbFGG",
    "hBBtWBKBBDBBJBBBbMPBCBBPDHCBCbMBFBENkRCbvECcxKBexWBvUBhKBezMBbtuMIvEB"),
  (["lepcha", "lepc"], "kpScEDPDD", ""),
  (["limbu", "limb"], "jmEbFBMEMEBDM", "doNB"),
  (["lineara", "lina"], "dvfSlZJWKI", "dtiTbT"),
  (["linearb", "linb"], "dsyQMBbABTBCBPCObIeT", "dtiMDEbTDJ"),
  (["lisu"], "ckkUbWbumAB", "baYBQBrdKC"),
  (["lycian", "lyci"], "dtxGbD", "mgOB"),
  (["lydian", "lydi"], "dwkMbAFB", "hBBrfTB"),
  (["mahajani", "mahj"], "dznCbN", "hBBdhKMcidCK"),
  (["makasar", "maka"], "eeqQZ", ""),
  (["malayalam", "mlym"], "eyANBDBbZBDBGEQCbA", "dnTCRChjOBXBcasZD"),
  (["mandaic", "mand"], "ddGbCCB", "cjOB"),
  (["manichaean", "mani"], "dxaMbNEM", "cjOB"),
  (["marchen", "marc"], "edsQbGCWBO", ""),
  (["masaramgondi", "gonm"], "edyEHBCBbSDBBCBJIK", "doMC"),
  (["medefaidrin", "medf"], "fisEdN", ""),
  (["meeteimayek", "mtei"], "cmsMXhTbUCK", ""),
  (["mendekikakui", "mend"], "hcuYhPCQ", ""),
  (["meroiticcursive", "merc"], "dwpKYEUCbU", ""),
  (["meroitichieroglyphs", "mero"], "dwoEbG", "mgRB"),
  (["miao", "plrd"], "fizOcXEcFHR", ""),
  (["modi"], "ebhGcRLK", "clsAK"),
  (["mongolian", "mong"], "jcICCBBUGdLHbRdscBN", "jcKCBBdcJBfzTCFE"),
  (["mro", "mroo"], "fheUbFBKEC", ""),
  (["multani", "mult"], "dzyUHBBBEBPBL", "dyKK"),
  (["myanmar", "mymr"], "gbOgEcgaYbFdTbGbpaMU", "cmbUB"),
  (["nabataean", "nbat"], "dweIbFIJ", ""),
  (["nagmundari", "nagm"], "hbpObQ", ""),
  (["nandinagari", "nand"], "ecqYICbUCL", "dnTBSCbiMKgbHBIBHBcasRG"),
  (["newtailue", "talu"], "jrCbSEbAGLDC", ""),
  (["newa"], "eanOdOBF", "dnTChkCBBCJBGBBBBB"),
  (["nko", "nkoo"], "cyIcHCD", "chOBOBDBdppEC"),
  (["nushu", "nshu"], "fjiFByvMpG", ""),
  (["nyiakengpuachuehmong", "hmnp"], "haeAbTDOCKEC", ""),
  (["ogham", "ogam"], "inObD", ""),
  (["olchiki", "olck"], "ksUbW", ""),
  (["olonal", "onao"], "hbzKbREB", "doMC"),
  (["oldhungarian", "hung"], "dxrSbZNbZHG", "mgOBCBfgDBPB"),
  (["olditalic", "ital"], "ducEbKJD", ""),
  (["oldnortharabian", "narb"], "dwyAbG", ""),
  (["oldpermic", "perm"], "dufGbR", "hBBwMBFDKBoDB"),
  (["oldpersian", "xpeo"], "duiIbKEO", ""),
  (["oldsogdian", "sogo"], "dyqIbO", ""),
  (["oldsoutharabian", "sarb"], "dwwUbG", ""),
  (["oldturkic", "orkh"], "dxmUcV", "mgOBfgFB"),
  (["olduyghur", "ougr"], "dyuQbA", "cjOBdusVB"),
  (["oriya", "orya"], "eeJDBICCCWBHBCBFCJCCCDHDECBFCS", "dnTCRChjOBXB"),
  (["osage", "osge"], "dusUbKEbK", "bdPBCBGBcYB"),
  (["osmanya", "osma"], "duqYbECK", ""),
  (["pahawhhmong", "hmng"], "fhmEcSKKBHBVFT", ""),
  (["palmyrene", "palm"], "dwdCbG", ""),
  (["paucinhau", "pauc"], "edcAcF", ""),
  (["phagspa", "phag"], "clsQcE", "jcKCBBdcJBfzUB"),
  (["phoenician", "phnx"], "dwjGbCDB", ""),
  (["psalterpahlavi", "phlp"], "dxhWSHEMH", "cjOB"),
  (["rejang", "rjng"], "cmbWbKLB", ""),
  (["runic", "runr"], "ioUcXDL", "irRD"),
  (["samaritan", "samr"], "daUbUCP", "rmVB"),
  (["saurashtra", "saur"], "clvCcSIM", ""),
  (["sharada", "shrd"], "dzoYdS", "dnTBhkFBBBCCCBJBCBcatEGCB"),
  (["shavian", "shaw"], "dupCbW", "hBB"),
  (["siddham", "sidd"], "ebcIcCCbM", ""),
  (["signwriting", "sgnw"], "gwtKzCPFBP", ""),
  (["sinhala", "sinh"], "fcZDBSDYBJBBCHDBEGBBBIGKCDdulGU", "doMChkMB"),
  (["sogdian", "sogd"], "dysEbQ", "cjOB"),
  (["sorasompeng", "sora"], "dziEZHK", ""),
  (["soyombo", "soyo"], "ecxSdF", ""),
  (["sundanese", "sund"], "kkUcMjWI", ""),
  (["sunuwar", "sunu"], "edlWbIOK", "bdOCBBJBCBbCBDB"),
  (["sylotinagri", "sylo"], "clqEbT", "doMCeYK"),
  (["syriac", "syrc"], "cqYOBcICDkML", "bdRCCCBBYDHCBCbcCBOCCBbGBKLbABixRBBB"),
  (["tagalog", "tglg"], "isMWJB", "iuNC"),
  (["tagbanwa", "tagb"], "iwENBDBC", "iuNC"),
  (["taile", "tale"], "jpGbECF", "bdOCFCDBezZK"),
  (["taitham", "lana"], "jxGcLBbDCLGKGO", ""),
  (["taiviet", "tavt"], "cmoUcPYF", ""),
  (["takri", "takr"], "ebmEcGGK", "doMCcidMK"),
  (["tamil", "taml"], "ejICBGDDBEDCBBBCDCDDDMEFDDBECBGBOVealHbYNB", "dnTCRChjOBcbbKBboeFBBBcDC"),
  (["tangsa", "tnsa"], "fhgQdBBK", ""),
  (["tangut", "tang"], "fjiEBbFjcAIbdOtSJ", "seAQtBB"),
  (["telugu", "telu"], "eoENBDBXBQCJBDBEHCBDCBCECKHJ", "dnTCRChjJCBBBBXB"),
  (["thaana", "thaa"], "cvWbY", "chOBOCCBcMKdptGBKB"),
  (["thai"], "fhXcGFbC", "baYBbABbRBbTB"),
  (["tibetan", "tibt"], "frScUBbKEbNBbKBPBHEC", "seYE"),
  (["tifinagh", "tfng"], "rcYcEHCOB", "bdQBBBBEZB"),
  (["tirhuta", "tirh"], "easMcUIK", "dnTCRChjJBMBPBcasZK"),
  (["todhri", "todr"], "dvdGcA", "bdPBCBCBJBBBcWB"),
  (["toto"], "hatKbF", "baYB"),
  (["tulutigalari", "tutg"], "eaiQKBBCBBbMBKBBCBBEBKBCIC", "exAKgbQBBBcasXGhFB"),
  (["ugaritic", "ugar"], "duhCbEBB", ""),
  (["vai", "vaii"], "ckmQlO", ""),
  (["vithkuqi", "vith"], "dvaELBPBHBCBLBPBHBC", ""),
  (["wancho", "wcho"], "havGcGFB", ""),
  (["warangciti", "wara"], "echCdFMB", ""),
  (["yezidi", "yezi"], "dylKbQBDCC", "chOBOBDBcMK"),
  (["yi", "yiii"], "cipKbsVDcD", "seRCFKCIiPBdaeFF"),
  (["zanabazarsquare", "zanb"], "ecuQcU", "")]

def all : List WritingSystem :=
  table.map fun (names, own, shared) => ⟨names, rangeTable own, rangeTable shared⟩

def find? (name : String) : Option WritingSystem :=
  all.find? (·.names.contains name)

def isCommon (w : WritingSystem) : Bool :=
  w.names.contains "common" || w.names.contains "inherited"

def sharedRanges : List (Nat × Nat) :=
  all.flatMap (·.shared)

end WritingSystem

end Sveltify.Text
