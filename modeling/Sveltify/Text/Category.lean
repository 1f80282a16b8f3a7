import Sveltify.Text.Ranges

/-! The general category of a character, which says what the character is for. -/

namespace Sveltify.Text

inductive Category where
  | uppercaseLetter
  | lowercaseLetter
  | titlecaseLetter
  | modifierLetter
  | otherLetter
  | nonspacingMark
  | spacingMark
  | enclosingMark
  | decimalNumber
  | letterNumber
  | otherNumber
  | connectorPunctuation
  | dashPunctuation
  | openPunctuation
  | closePunctuation
  | initialPunctuation
  | finalPunctuation
  | otherPunctuation
  | mathSymbol
  | currencySymbol
  | modifierSymbol
  | otherSymbol
  | spaceSeparator
  | lineSeparator
  | paragraphSeparator
  | control
  | format
  | privateUse
deriving DecidableEq, Repr, Inhabited

namespace Category

def uppercaseLetters : List Stretch := stretchTable 1 [
  "cNbAdXXBHfXCHCBBBCBDCEBCBDDCBCFCBBCBBCBDBBBCDBHBCBCBbMBCBBDcNCBCCBBElRBIBGBBDBBBCBRBJbJBCDbFB",
  "CBBCCbZfOCeHbMehDbMBBFBbbUdIdgLBGbRCDwMIIGKIIIIGbAIcUEMEMEMFLEkCBEBDDCDCBDFMECEKCFBcJBdzGbWbW",
  "BBDIEBBCBIDeJBbukOCbRFBFPEBBBCDBbKBbhaHbAbuZbOfGbKgALBPBHBCcqCbZgBWegObGbgjWbGbmmQbAbAbAbAbA",
  "bABBCCBCCCEBIbAbAbACBECIBHbBCBEBFBBDHbBbAbAbAbAbAbAbAbAbAbAbAbEZbHZbHZbHZbHZbHBgnLbI"] ++
  stretchTable 2 [
  "jWbCCICXECbKCbOICJLbDVElDCdXMeJRJbBEGCbWjkJcXJbXdMErKDegSDWbXICbtyOXTOfFHDbFKCEEECCCDKNHTE"]

def lowercaseLetters : List Stretch := stretchTable 1 [
  "dTbAcGBbPYBIcDCPCcADHBDCEBCBDDCBJBBCBBCBICCDGBCBSCRCcOHCBCCBBMcRBbBhRBDDSBbBbJBCDDXFBBCBCCbZ",
  "bWeGCfObPehBbRCDbdGGdfUJBBeNbScLNBbIjQJdTJIGKIIIIGKIIIIOCIIIIIIFBCGBDDBCIECCIIKDBCkOBDCDBbBBE",
  "BEBCCIEEBcBBebBbWBBDCKBBCBGdZCOBMbMBBFBbufHDcLIYBBDZBbDBbOBDBbfPbRFJHdCbeaIHMFboZbAbvHbOfGbK",
  "fZLBPBHBCcrBbZeVWegObGbgjWbGbmmKbAbAHBSbAbAbAEBBBHBLbAbAbAbAbAbAbAbAbAbAbAbAbAbAbAbAbAbCbCZBG",
  "bAZBGbAZBGbAZBGbAZBGBBcsYKBUGGduDbI"] ++
  stretchTable 2 [
  "jXbBEHEXCCGCbBDOCVIEIFCDbDVElFCdXLeLRJbBCGEbWjkJcWLbWfcCDUbXKCbtyOXTOfFGFbFKCCFECIKLIECGG"]

def titlecaseLetters : List Stretch := stretchTable 1 ["rLBCBCBbMBlfHIIIIIMBPBbVB"]

def modifierLetters : List Stretch := stretchTable 1 [
  "baMSEMOFfNBFBsKBiWBgICkJCEBbFBJBDBgEBgLBbvOBeXBvTBcpMBeDBxNBrWGgScLNBbIbLbaNBNBQNemXCjHBhJBsB",
  "BbRFFBdTCdPDbqbUBbwCGkKBeKBbCCeRJdCBXBeBDDCsBBWBfHBeEBVCdZEJBbfvIBbTCczOGBbQBJccXBbGBbjnSEtOD",
  "bOCvENcMCBBygQEBHBCsgNcKhTHbkFBbrBB"] ++
  stretchTable 2 ["bcUC"]

def otherLetters : List Stretch := stretchTable 1 [
  "gOBPBjWBEEiABbfVbBEEbTbGBKbJCBdVBBYCKDCBQBBbEbDdLLBYbHVWbQZHLFYBGRbPcHcCDBSBHKQPEICCCWBHBBDED",
  "BQBNCBDOCKBIGECCWBHBCBCBCbFEBBTDQJBDBWBHBCBFDBSBPCXBLICCCWBHBCBFDBbECBDPBRBBGDDBEDCBBBCDCDDDM",
  "WBcAIBDBXBQDBbADCBCCbEBEIBDBXBKBFDBbFCBCPCRJBDBbPCBQBFDIDYGFSDYBJBBCHcGbWBCMGcHCBBBFBYBBBKBCJ",
  "BCFXEbGBcLIBbKbBFeLbRUBQGEEDBDCHDENMBeJmRBECHBBBECbPBECbHBECHBBBECPBcFBECcPbLQeJxWCRBbAFcXGIH",
  "SNTOSONBDPcAbOBcPbJBcBHFCbIBBFcSKbFbXbECFLbSEbAcCXJcBgUbVRIcCbENCKbSbAbKbPDKbEeJEBGBCDBbpQE",
  "enVcEYXJHBHBHBHBHBHBHBHvFBcBBEdIIBBdMEBFbRBdQRbGbWQtSjtOcMbfcFBbrZcPbOIkIEQKCcOBbXcSgNBdZBDHB",
  "DBEBXbDcAObYcKGDBBCLbCKXZbDHbVbTFCJKFBbPXDBIUQBGDBDbYBBDCCFbDCDLHBOGCGCGJHBHfPbJbDqnSMXEbXmnC",
  "oCCeCcPBBKBNBFBBBCBCBeEbHnZScMCcCbOMeMFBfFeBKBbTCbFDGCGCGCDbJMBbABTBCBPCObIeToZbDDbXbVbGNUBIG",
  "bMKbECbKEIeYdAdUbOIcAdOcAMlZJWKIfWGCBBbSBCDBCXKXJbFcNTBCKWKbAcScEGCcMBPEBDBbDbQbDDbDbJIBbCbB",
  "cCKWKTNSeGcVhBbKbMEBBlSbQGCQDcHbDKBIWbQSbUVbBXMcBcFCCBNbTbGZbAbKbDBCBIbJDBMbWOEcHSBZTCcLHBBBE",
  "BPBKHbVbMICCCWBHBCBFDBSBMFbEKBBCBBbMBBcUcBSEUDbEbWUCBBhCbVbPEbKbWUBcHbRNBcTbBbLHhDbSiDICBCIBC",
  "BYeIICbNbVBKbOHBVBLbUTBScVhRbHbFJBbLRBbXbEeIHBCBbMVBZGBCBbGOBmPTPBBNBbIeUBdBbjMiWhOdxKdTPbpGR",
  "GZfxRFwLkdDbEcpUvXHbFRdBRbESbWbZVFTqTbOpPcXFBgTjcAIbvQbPKngHlFPBbDDCBOEIpGdkUeDFNDJHKnbCBtHbT",
  "bHBmJbESbSsQbBiVbECBtBHBEBCBPBhPbzNEBbBBCBBCBBKBEKBKDBCBBMCBBCEBHBEBEBBBKBRFDBFBRgoAclfCbGgdU",
  "GiOCinQOlbLPxYdqWuWcfYhhZFgfG"] ++
  stretchTable 2 ["cmrGCbnbBCtGCcbJCgDCdckRCLDLF"]

def nonspacingMarks : List Stretch := stretchTable 1 [
  "bdOeIkPFkFbTBBBCBCBBcULbWVQBdXHCGCCBEbJBbEbBdNLcGJJBYEBJBDBFbRDcHJbQYBbGcKIEBDHKCbDBcGBEEIBUC",
  "bABCCcFBECECCDDBbECDBLCcFBEFBCEBUCWGBBcGBCBBEIBHCLCbEBcJBMBbYBDBcDBBDFDBEHCLCbDBcGBCBGBFCUCbC",
  "CcFCEEIBUCbDBcUBHDBBdMBCHMIdUBCJLHcVCdJOBFBCFLBbKJBdYEBGBCCCZCEDQENBCCGBPBbbBDbkKDbDCbECbECcM",
  "CBHIBCLJBbTDBBeNCbIBeODECJBGDiLCCBcGBBHGIGKCBbWOBQbXEbWBBFBBFBbOJMCbGECCBDcEBBCDBBDcGICCfWDBN",
  "BHEBGBDChQcMbbSNEBDMeoCDfLBdSbGvIEeDCbsqEBEKbGCdCCkMBDBEBZCFBfVCbASNBbMIZLbUDbWBCECCbNBcPGCCC",
  "CMBIBbVBbZBBDCCFCBBbQCIBjEBCBEBbdzSBbcJQQQblLBiSBfTFcmGDBCFEbODEBgJCwBEcNFmFCdBEcSLbXEeTBcCP",
  "bPBCCKDbXECCHBcJDbKFBIcKBMCcAJKECBdRDCBBCGBCBgBBDIVCcFCDBbLHDFcSGbGCdHICDBBXBdGGBBECBCjEEGCBC",
  "bBCdHICBBCeHGBBeCEBFjZJBCjWCBBEBfOECCEBbGKbOGCEIBJGCDbUNBCpQHBGBBdEWCHBCBCeSGDBBCBHBBcUCnPCLC",
  "cAFbFBhxTBGPqyYMDDdsAFcHHboIBcLEdDBbdbKCgyZbUCXuYDRICHbEEfSDcyDcDEbYIBOBWFBPcaIHBRCHBCBFdWBgE",
  "HoLBcJEtOEjUCbcIHeFHbtciVjG"] ++
  stretchTable 2 ["dmWCcgUDefUCdqlVDbcACeHCclPCqIC"]

def spacingMarks : List Stretch := stretchTable 1 [
  "dkTBcDBCDIEBCbYCcGDGCCCKBbRBcGDcOBcGDIBBCcBCcPCCCKBdYCBCDDBDKBbPDcJEcJCcGBBFCCBCJCbCBOCcGDFDB",
  "DKBbQCcXDGISCmSCcLBgPCEBGBCCZCKDCHVCCGCBKDclSBbEBeZBHIBCnIECDECBGiQCcSBBCIGfPBbWBFBBFBCcJBbEB",
  "ECCBcIBCDBBDCbWIICgPBVBhhECbtlBCCBdKCbYQfMCbVBbWCECCDeGCCCYBgBBCCFBjDCBCBCBBbmcJBbTDECeLBYCcH",
  "BbWDJCNBdPDDCBBgODbFCcGCBECCCDJBKCdGDHBCBBEBCBBdXDICDBeCDGBBECBjDDGECBeJDICBBeFBBCGBdZBBCEBkB",
  "DJBjNGBCEBfRDIEEBdGBbDCcKBpRBOBeCBHBCBiFFECBBnMCMBbWCICBByyYDfjGcDeACbkxNCGG"] ++
  stretchTable 2 ["egSCfsMCccpFCbmlMCdmZC"]

def enclosingMarks : List Stretch := stretchTable 1 ["bsQCikQBciGEBDbyoXD"]

def decimalNumbers : List Stretch := stretchTable 1 [
  "bWKciOKfEKhQKpWKeOKeOKeOKeOKeOKeOKeOKeOKeOKdSKeOKcSKkSKcSKctQKbMKlOKeYKgKKGKhAKdIKfEKGKcaeOK",
  "baCKbMKhQKWKdIKpQKbfmCKccKKdfYKGKbeQKeYKcIKfOKkSKnEKeOKoKKdYKGUcYKqGKdYKzMKdIKjMKcSKqGKyyGK",
  "dmCKdIKfEKuOKbkdYKecQbYdnCKqGKtIKjNKbgVKhbAK"]

def letterNumbers : List Stretch := stretchTable 1 [
  "irUDdyTbJCEfmSBZJODbsyLKbifGcBrSBIBfEFmeSeH"]

def otherNumbers : List Stretch := stretchTable 1 [
  "gWCFBCDdmRGoMGeQDfDHiJHRJqRKbpLUbrVKsMBcmVBDGGKhQQbPBbbYcIdAWyGbEcbHBbtCEfIKbEIBPbGKbNPbsmIG",
  "bhqNbTcNERCnDbBbKEbzGIZHbNJcXFWGgECCQCbUcMJcACbEDcXFeAIYIbPHmSGnObFgCKbQEeIHfEUoPUbzXCqOJbhNT",
  "bgTVbcpQHbeSXblyFUMUeEZibUJbjTcHBDBEcYbTBPblAN"]

def connectors : List Stretch := stretchTable 1 ["dRBmbVCTBdgaOCYDjFB"]

def dashes : List Stretch := stretchTable 1 [
  "bTBcaUBbZBfkJBbnPBdbDGfhXBCBbFCEBbCBrEBTBeHBczwACbLBKBgNBflOBmGB"]

def openMarks : List Stretch := stretchTable 1 [
  "bOBbYBbFBijVBdpMBDBbMBcDBPBzRBbtJBvUBbqBBsGBczrTBiHBbVBhKBbYBbFBDBCB"] ++
  stretchTable 2 ["ftYChmXCbqZHeJFpOLcMCbqDEbSEqMFDEdabIIVD"]

def closeMarks : List Stretch := stretchTable 1 [
  "bPBbZBbFBijUBdrDBcDBPBzRBbtJBvUBciICczrQBiJBbVBhKBbZBbFBCBCB"] ++
  stretchTable 2 ["ftZChmXCbqZHeJFpOLcMCbqDEbSEqMFDEdabIIVD"]

def initialMarks : List Stretch := stretchTable 1 ["gPBlxKBCCCBZBffZBCBPBDB"] ++
  stretchTable 2 ["rlAC"]

def finalMarks : List Stretch := stretchTable 1 ["hFBlwVBDBbCBffZBCBPBDB"] ++
  stretchTable 2 ["rlBC"]

def otherMarks : List Stretch := stretchTable 1 [
  "bHDBDGCKCDCbBBcQBFBOCHBbbABIBrYGbPBcCBCBCBbSCUCBCNBBDcWEdYBbROiZDcCPbFBkBCKBfKBeQBeRBpABMBoDB",
  "dMBKCgMPBBeIBcWFECeHGgPBxOJbdTBeUDcTCgBDBDbLGBEmBCiICeYHBGgECKHbCDeUEcHFcKCcMILBbgCCIIIJCECDD",
  "LBBBKeuCEBCeIBfNCEDCBCJBCBBCCKFBKCEBBBNCDqMDcFBhHBbryGCkJDdVBKBeLGoQEdICbODBBbXCbVBdTNQCeUEeW",
  "CQCjPBbfcUHCBWBUCCEDDBEHDGBBCfTDBDGCKCDCbBBbKBCCpUDzSBbWBpYBbcPBhRBbFBkMJbMBeIHcOHdLEbkQFbSE",
  "hHHeFCBEeWEbWCdBEEBNBBDdKGeDBlMCBCeKFKCBBeABjQXeBDbCNcYBfADjSBkEDfZBdOIdFDBFdPKiHBdRFbQCyVCcW",
  "NgTBbrSFejCCwdVCfDBcNFIBvGDlJEmPBbdbOBliLFeiTBbhEC"] ++
  stretchTable 2 ["bQCdsnLC"]

def mathSymbols : List Stretch := stretchTable 1 [
  "bRBQDeFBEBbLBbFBbdMBuHDjyHBNBbNDNDfJBbNFGBcQFFCEBCBCBHBbFCbKkIbGCdMBbEZbOGsBBJBcCIeHBmYFCbFKQ",
  "jWfBWcLEbGCjYbWVCGdasQBbfSBBDgIBQDhNBGEfeFCcyeZBZBbFBZBbFBZBbFBZBbFBZBiuEC"] ++
  stretchTable 2 ["eUCmqDCdfxFC"]

def currencySymbols : List Stretch := stretchTable 1 [
  "bKBeVEbwJBeTBtECtECHBjLBkDBwJBdqPBdiIbHbzhVBbgmLBeEBfYBiLCDCmcSEcvxEBdrKB"]

def modifierSymbols : List Stretch := stretchTable 1 [
  "gMBGBEBDBuBEMOFHBBBReNBOCbxIBiuMBBDLDNDNDNCghOCbsvRXJCdZCblOBOCbekKRboQBdolJF"] ++
  stretchTable 2 ["dQCdsnLC"]

def otherSymbols : List Stretch := stretchTable 1 [
  "gKBCBblWBkGCeXChYBKBTCjNBtVBoJBfAGBBfCBhZBbPBpBDPBBDCGgCIBGBCFEhPCbcYKbbVBbbUBgBbInPKJJccHCBE",
  "BCKBBCGGKBLCOBBCBBcGCJFCEBCBCBHBbFCCBBBbFkIIEUCHCdDBbEZbOGcUWLdDdAWhBBJBcCIeHBjObSbScMjWtSbWV",
  "CGbNCbGBeBiVGnTCbUbABdLMiGbAQEBNCMBVCGCmYCEKbGbMJBQbFLbEIBPbGKbNPmIjtOcMbguIcDbhHEKCBBwBDbfjA",
  "QeXBbTDsQBDBECNCmBJcFRCDBNDBbVbTclUCwTBesSBdgNIERbcnIEFBbeuWBfvNjGQqUgAeMcIjMKbNCcIFDWCHbEEcJ",
  "VcODBhEdJbtXtScDEbYIBOBCcoUBehWBeZBbbTbSEdWMPCPBPBbLXgFcEbDNbSEJHCOGfYjRFbcAERDNDePEdRGMEBPME",
  "cEIKGbOIbECMECcKnCMOCNDKFcEHPCLGJHfRBdO"] ++
  stretchTable 2 ["gSCfmXDguMD"]

def spaceSeparators : List Stretch := stretchTable 1 ["bGBeXBihJBdpNLbKBbVBfxWB"]

def lineSeparators : List Stretch := stretchTable 1 ["meQB"]

def paragraphSeparators : List Stretch := stretchTable 1 ["meRB"]

def controls : List Stretch := stretchTable 1 ["AbGdRbH"]

def formats : List Stretch := stretchTable 1 [
  "gRBcaKGWBhKBbXBoUCdCBftJBdaQFbAFbXFBKdghJBjPDgiZBPBnkKQbzqUEhwXIbtkzMBbEdS"]

def privateUses : List Stretch := stretchTable 1 ["dgvOjmEcahxOdsyOCdsyO"]

def stretches : Category → List Stretch
  | .uppercaseLetter => uppercaseLetters
  | .lowercaseLetter => lowercaseLetters
  | .titlecaseLetter => titlecaseLetters
  | .modifierLetter => modifierLetters
  | .otherLetter => otherLetters
  | .nonspacingMark => nonspacingMarks
  | .spacingMark => spacingMarks
  | .enclosingMark => enclosingMarks
  | .decimalNumber => decimalNumbers
  | .letterNumber => letterNumbers
  | .otherNumber => otherNumbers
  | .connectorPunctuation => connectors
  | .dashPunctuation => dashes
  | .openPunctuation => openMarks
  | .closePunctuation => closeMarks
  | .initialPunctuation => initialMarks
  | .finalPunctuation => finalMarks
  | .otherPunctuation => otherMarks
  | .mathSymbol => mathSymbols
  | .currencySymbol => currencySymbols
  | .modifierSymbol => modifierSymbols
  | .otherSymbol => otherSymbols
  | .spaceSeparator => spaceSeparators
  | .lineSeparator => lineSeparators
  | .paragraphSeparator => paragraphSeparators
  | .control => controls
  | .format => formats
  | .privateUse => privateUses

def letters : List Category :=
  [.uppercaseLetter, .lowercaseLetter, .titlecaseLetter, .modifierLetter, .otherLetter]

def marks : List Category :=
  [.nonspacingMark, .spacingMark, .enclosingMark]

def numerals : List Category :=
  [.decimalNumber, .letterNumber, .otherNumber]

def punctuation : List Category :=
  [.connectorPunctuation, .dashPunctuation, .openPunctuation, .closePunctuation,
    .initialPunctuation, .finalPunctuation, .otherPunctuation]

def symbols : List Category :=
  [.mathSymbol, .currencySymbol, .modifierSymbol, .otherSymbol]

def separators : List Category :=
  [.spaceSeparator, .lineSeparator, .paragraphSeparator]

def invisibles : List Category :=
  [.control, .format, .privateUse]

def all : List Category :=
  letters ++ marks ++ numerals ++ punctuation ++ symbols ++ separators ++ invisibles

end Category

def inCategories (categories : List Category) (n : Nat) : Bool :=
  categories.any fun category => inStretches category.stretches n

end Sveltify.Text
