import Sveltify.Text.Case

/-! Properties of characters that do not follow from their categories. -/

namespace Sveltify.Text

structure Property where
  names : List String
  stretches : List Stretch
deriving Inhabited

namespace Property

def asciiHexDigit : List Stretch := stretchTable 1 ["bWKHGbAG"]

def bidiControl : List Stretch := stretchTable 1 ["ciEBjvLCbAFcDE"]

def bidiMirrored : List Stretch := stretchTable 1 [
  "bOCeZBPBfmSEcuNCdqQCKCcCCOCgVBhKEDGDBDCDEBEIJFBBSFEJCBBBIBbGCEFBJCCTFCJFCCEYCQIEUCHCbpTOcWBCE",
  "BCBDFEFDDOpNWCGBOIBHGDBEFBCCFEBBDCCKGCCMTBEHBBEFCGDYCLCEEBCCCEbRCIBbOLFFDEBDFBBjWBtVEDCBCOCCK",
  "bRIqLKCIdacRGFCgGCdHCBCddpNBcFBcFBcFBcFB"] ++
  stretchTable 2 ["cICbCCbDCmtICdaRCgZCdcjTCbCCbDC"]

def changed (long : List (Nat × List Nat)) (runs : List CaseRun) : List Stretch :=
  runs.map (fun r => ⟨r.lo, r.hi, r.step⟩) ++ long.map fun entry => ⟨entry.1, entry.1, 1⟩

def changesWhenLowercased : List Stretch := changed lowerLong lowerRuns

def changesWhenUppercased : List Stretch := changed upperLong upperRuns

def changesWhenCasemapped : List Stretch := changesWhenLowercased ++ changesWhenUppercased

/-- Cherokee letters fold to capitals, all others to small letters. -/
def changesWhenCasefolded : List Stretch :=
  changesWhenLowercased.filter (fun s => !(5024 ≤ s.lo && s.lo ≤ 5109)) ++ stretchTable 1 [
  "gZBbPBeBBcBBrLBeUBNCDCZCDBpLBfmEGdfUJuJCiUIIIIIKDCBKDCBbQDCBcavGdCbeaIHMF"]

/-- Georgian letters have no form for titles, and letters in such a form keep it. -/
def changesWhenTitlecased : List Stretch :=
  changesWhenUppercased.filter (fun s => !(4304 ≤ s.lo && s.lo ≤ 4351) &&
    !inStretches (Category.stretches .titlecaseLetter) s.lo) ++ stretchTable 1 ["rKBCBCBbMB"]

def dash : List Stretch := stretchTable 1 [
  "bTBcaUBbZBfkJBbnPBdbDGcJBbNBPBpABeoIBCBbFCEBbCBrEBTBeHBczwACbLBKBgNBflOBmGB"]

def defaultIgnorableCodePoint : List Stretch := stretchTable 1 [
  "gRBzXBbbOBegWCckHCdHFdaPFbAFbXQgkYBczmPQjFBgEBdBJctlNEhwXIbtkzLgbO"]

def deprecated : List Stretch := stretchTable 1 ["mRBbyVBgnFCdiJGbaVCbzryKB"] ++
  stretchTable 2 ["fwHC"]

def diacritic : List Stretch := stretchTable 1 [
  "gMBGBEBCCtJgDBIFGRCEBJCjTFiBBcDbTBBBCBCBBfBIECfECECDDcPbBdNLcGLbICeWIbPKQbCcJBQBDEbCBcWBQBeGB",
  "QBeGBQBbVDcIBQBHBePBeGBQBeGBQBeFCQBeUBeHBMGBBeDBNFcXCbKCcODBCcKBeIBBCbOCEFZHBBKCbbDDbkMCbEBfS",
  "LJBnJDlGBUICBbWPCLeABPBbMJcCCcGBLCcOCcMGdEZEBGBCDbYcLbWbKFMbLLrDBBDLDNDNDNCexKDmFBtMGeBEdRB",
  "bsmKBMCBBbCCdECObIdYDeFCMBbLBfVBbBScFEbKBdRBMBbKBfTDcNEbZBdWFJDeYCbdzSBbdPQmIBbTCcPBbdKBbtNGB",
  "bQBJyNDEBgJCvZGbMBbAFpJDcSLbXEhKBbPBcUCeQCcKBcYBJDeACgWCdCCQBYHDFdLDBCNCdRBDBeTCjRCeWBeOCeLB",
  "kJCjYCEBgABdFBSBdDBqFBjYBBCdDBqJCXBhyAPqzPBdsAFcHHvSCvARdCCygCEBHBCltHbUCXuYDDGIICHbEEfmWcKhM",
  "HoLBcJEbdMCbcIHeFDBD"] ++
  stretchTable 2 ["dQCfqADdmxGC"]

def emoji : List Stretch := stretchTable 1 [
  "bJBGBFKeHBEBlyRBMBiIBWBdMGPCoDCMBgKBZLEDhRBiXCKBJBcGEBFJBCBCCCBEBCBBCCBDBDCIDNMLCCBBCBBSBCCSG",
  "BBBCDCFBCCECLCFCCBFCBBBCUCFGBECBEBCBCGBBNBDBGBKCPBCBLDBBLCbWDJBOBOBoICrVDTCbZBEBbvUBMBgnoWBhU",
  "BgECMCOBCKcXbABCXBUBCJVCgSbICeICCBDCdFCDBkDBcLLGBYHCCIMBCECBECNCCBICJBFDMDIDJBGBDBGdIbWcSFICD",
  "EKDBBCDBCKiTMEBkXbVBKBhDeINDKFcEHPCLGJ"] ++
  stretchTable 2 ["omQChZDcBCehCCgoxJC"]

def emojiComponent : List Stretch := stretchTable 1 ["bJBGBFKmbJBiFBdftRBdoiWbAtNFceAEbsvuQdS"]

def emojiModifier : List Stretch := stretchTable 1 ["hhiXF"]

def emojiModifierBase : List Stretch := stretchTable 1 [
  "olHBiLBQEgsjVBcIDCBCDeNCCLVTDBEDBDbIBhTCEBVBECgSDDFdFBQDJBLBwDBCBIIGBJKCDcEBcJCBCBBRDBNiVDbQJ"] ++
  stretchTable 2 ["hhoPC"]

def emojiPresentation : List Stretch := stretchTable 1 [
  "nhQChXEDBCBuBCVCbYMbRBTBNBICRCFCIBFBVBHCBBEBCBHBECbCBbQDBBcJDYBOBbhBCbZBEBgplEBhUBhIBCKcXbABB",
  "YBUBCFBDVCgSbHMJBcSBWMbREFMRDBDcTBBBhFCcLNEBYSBbACNBdIdHbWcSGBDDCDEELCHJiTMEBkXbVBKBhDeINDKF",
  "cEHPCLGJ"] ++
  stretchTable 2 ["owYC"]

def extendedPictographic : List Stretch := stretchTable 1 [
  "gNBEBlyRBMBiIBWBdMGPCoDCMBdRBcSBZLEDhRBiXCKBJBcGEBGBMBeKKeOCLKBDBGBKCPBCBLDBBLFbTDJBOBOBoICrV",
  "DTCbZBEBbvUBMBgnoSjWNDbFBcIGMCOBCKScFbBPKBUBCJBEJqSFmGIkGbWeYeMMdHbRMEcEIKGbOIbEdEMbVBKBqZjW",
  "bnI"] ++
  stretchTable 2 ["ouUCcBCehCC"]

def extender : List Stretch := stretchTable 1 [
  "hBBuQCbhUBqZByGBfHBdLBbcYBeXBdnFBcEBxNBpIBcQBhkJBbRFdZCdPDbqbUBcgSBblABWBfHBeEBVCbfzVBdbKCcfB",
  "BbBBEBbvBBlHBeMCtEDbvJBbeoFCbtKCBBbqyACbuFBbgUD"]

def hexDigit : List Stretch := stretchTable 1 ["bWKHGbAGdslLKHGbAG"]

def hyphen : List Stretch := stretchTable 1 ["bTBeXBbvWBgzZBdbDCfiBBbcLBczuLBgNBdJB"]

def idsBinaryOperator : List Stretch := stretchTable 1 ["seACCKtDB"]

def idsTrinaryOperator : List Stretch := stretchTable 1 ["seCC"]

def idsUnaryOperator : List Stretch := stretchTable 1 ["seOC"]

def ideographic : List Stretch := stretchTable 1 [
  "seWCZJODblDjtOcMbfbKbhsIoCCeCbsiKBbBjcAIbvQbPKnuLpGbdeIclfCbGgdUGiOCinQOlbLPxYdqWuWcfYhhZFgfG"]

def joinControl : List Stretch := stretchTable 1 ["mdOC"]

def logicalOrderException : List Stretch := stretchTable 1 ["fkIFeTFedSDCBccxMCCBBC"]

def noncharacterCodePoint : List Stretch := stretchTable 1 [
  "dsdCbGuGCdsyOCdsyOCdsyOCdsyOCdsyOCdsyOCdsyOCdsyOCdsyOCdsyOCdsyOCdsyOCdsyOCdsyOCdsyOCdsyOC"]

def patternSyntax : List Stretch := stretchTable 1 [
  "bHPKHbAEBBbAEbIHBBBCBBBCEBEBDBXBbFBluEYIPCTBKlTbbSgEyGbEbnMBeBtSeYoVDEZPBczqZCkBC"]

def patternWhiteSpace : List Stretch := stretchTable 1 ["JFSBdWBlyMCYC"]

def prependedConcatenationMark : List Stretch := stretchTable 1 ["chCGiHBbXBoUCdCBdvxYBPB"]

def quotationMark : List Stretch := stretchTable 1 ["bIBEBfBBPBlwUIZCfiDBrPENDdabPEhHBEBdMC"]

def radical : List Stretch := stretchTable 1 ["rpWbABdLMiG"]

def regionalIndicator : List Stretch := stretchTable 1 ["hgoKbA"]

def sentenceTerminal : List Stretch := stretchTable 1 [
  "bHBMBQBcaBBfRDgYBbRDjMBcPClHCcpWCbeKBECbdTBhQCgBCbTBFBmCCnQEgGCKCCCbDDhFCcNCbjWBXCJDeuXDlUBNB",
  "WCqNBbshWBkKCiTBDBoSCdICdRBfWCfRDfOCjPBbfcWBCCcHBDCgNBMBQBcNBedWCbxDFbSEhHCeNEeXDeZCGBQCdKCBC",
  "eEBlMCeNCoJCFPeBCjPDbdRCdJCqECbaQCcWCbcmBCfDBcNCLBvHClKBbdoGBliMB"] ++
  stretchTable 2 ["dcXCdzkKC"]

def softDotted : List Stretch := stretchTable 1 [
  "eBChOBkVBbEBcABUBmIBjqKBbZBNBDBfCBgBBqFBiGCegGBgelHCbYCbYCbYCbYCbYCbYCbYCbYCbYCbYCbYCbYCdfYB",
  "lTCbAB"] ++
  stretchTable 2 ["bqSC"]

def terminalPunctuation : List Stretch := stretchTable 1 [
  "bHBYCDBbfYBIBtTBcFBcUBOBBDgYBbRLBBjBCcCGBIbFBkBCbwUCgQBEGlZCbeJIbdTBeUDcTCgBDDBbNECCmCCnQEgGC",
  "KCBDbDDhFFcKCbjWBXCJDeuXDlUBNBEBKBBCDCqMCbshVCkJDiTFoSCdICdRBfVDfRDeXBQCjPBbfcWBCCcFDBEgNBYCD",
  "BcNBCBbpQBbWBbsOBhRBlYCfWGcQGdLEbkQFbSEhHHeIEeXDeZCGBQCdKFeEBlMCeNDMCnUEDPeBCjPDbdRCdJCECpYD",
  "bTByVCcWCbyXFbamZCfDBcNDKBvHClJCbdoGBliLE"] ++
  stretchTable 2 ["bSCdsnLCjyBC"]

def unifiedIdeograph : List Stretch := stretchTable 1 [
  "tsAjtOcMbfbKbicSCBBBCOCCDdveCclfCbGgdUGiOCinQOlbLPxYgrQhhZFgfG"] ++
  stretchTable 2 ["dqsTC"]

def variationSelector : List Stretch := stretchTable 1 ["jcTDBBdjcAQbwnkYjG"]

def all : List Property := [
  ⟨["asciihexdigit", "ahex"], asciiHexDigit⟩, ⟨["bidicontrol", "bidic"], bidiControl⟩,
  ⟨["bidimirrored", "bidim"], bidiMirrored⟩,
  ⟨["changeswhencasefolded", "cwcf"], changesWhenCasefolded⟩,
  ⟨["changeswhencasemapped", "cwcm"], changesWhenCasemapped⟩,
  ⟨["changeswhenlowercased", "cwl"], changesWhenLowercased⟩,
  ⟨["changeswhentitlecased", "cwt"], changesWhenTitlecased⟩,
  ⟨["changeswhenuppercased", "cwu"], changesWhenUppercased⟩, ⟨["dash"], dash⟩,
  ⟨["defaultignorablecodepoint", "di"], defaultIgnorableCodePoint⟩,
  ⟨["deprecated", "dep"], deprecated⟩, ⟨["diacritic", "dia"], diacritic⟩, ⟨["emoji"], emoji⟩,
  ⟨["emojicomponent", "ecomp"], emojiComponent⟩, ⟨["emojimodifier", "emod"], emojiModifier⟩,
  ⟨["emojimodifierbase", "ebase"], emojiModifierBase⟩,
  ⟨["emojipresentation", "epres"], emojiPresentation⟩,
  ⟨["extendedpictographic", "extpict"], extendedPictographic⟩, ⟨["extender", "ext"], extender⟩,
  ⟨["hexdigit", "hex"], hexDigit⟩, ⟨["hyphen"], hyphen⟩,
  ⟨["idsbinaryoperator", "idsb"], idsBinaryOperator⟩,
  ⟨["idstrinaryoperator", "idst"], idsTrinaryOperator⟩,
  ⟨["idsunaryoperator", "idsu"], idsUnaryOperator⟩, ⟨["ideographic", "ideo"], ideographic⟩,
  ⟨["joincontrol", "joinc"], joinControl⟩,
  ⟨["logicalorderexception", "loe"], logicalOrderException⟩,
  ⟨["noncharactercodepoint", "nchar"], noncharacterCodePoint⟩,
  ⟨["patternsyntax", "patsyn"], patternSyntax⟩, ⟨["patternwhitespace", "patws"], patternWhiteSpace⟩,
  ⟨["prependedconcatenationmark", "pcm"], prependedConcatenationMark⟩,
  ⟨["quotationmark", "qmark"], quotationMark⟩, ⟨["radical"], radical⟩,
  ⟨["regionalindicator", "ri"], regionalIndicator⟩,
  ⟨["sentenceterminal", "sterm"], sentenceTerminal⟩, ⟨["softdotted", "sd"], softDotted⟩,
  ⟨["terminalpunctuation", "term"], terminalPunctuation⟩,
  ⟨["unifiedideograph", "uideo"], unifiedIdeograph⟩,
  ⟨["variationselector", "vs"], variationSelector⟩]

def find? (name : String) : Option Property :=
  all.find? (·.names.contains name)

def otherMath : List Stretch := stretchTable 1 [
  "dQBbhXDCBbACCCkqYBbBDLBbGEYCOCcNNEBDCEFSBEBCKBBDFGBDCCCBDBGDEFFcXFCEBCBCBBBFCCECESCCBBBHBBGC",
  "lEEgMCBBYBRBrDCMJFFFCCCDFTGYCdLEJCnECbFKpNWcLEbGCdclMBdcxBdHBcTBCCBCCCEBMBBBHBcNBECIBHBbCBEBF",
  "BBDHBnCCZBZBbFBZBbFBZBbFBZBbFBZBICbYiiQEBbBBCBBCBBKBEKBKDBCBBMCBBCEBHBEBEBBBKBRFDBFBR"] ++
  stretchTable 2 ["ojACdNCddvYCiICdmnACLDLF"]

def otherGraphemeExtend : List Stretch := stretchTable 1 [
  "drYBYBnUBYBdYBYBjFCBCJCdZBYBePBPBdmRBbEBbnKBNCdXBcTCboIBgcVCbtwTBeEBbgnLCgwMBeMBkEBOBJBdSBJBC",
  "BBDFBiQBMBjHBkCByJBMBchFBbeoKCbkxNCGGbtlaZdS"] ++
  stretchTable 2 ["evOCfmMC"]

def unstableIdStart : List Stretch := stretchTable 1 ["biGBebOBeXBmvVCczeFGpQCqCC"] ++
  stretchTable 2 ["dsjGI"]

def unstableIdContinue : List Stretch := stretchTable 1 ["biGBrcICczeFGpQC"] ++
  stretchTable 2 ["dsjGI"]

end Property

end Sveltify.Text
