import Requirements.Disk.Path
import Requirements.Document.Parse
import Requirements.Report

/-! What ends a composition before it has a result. -/
namespace Requirements

inductive RecordFault
  | fieldCount (found : Nat)
  | unknownRole (text : String)
  | unknownKind (text : String)
  | emptyName
  deriving DecidableEq

def RecordFault.message : RecordFault → String
  | fieldCount found => "expected 4 fields, found " ++ toString found
  | unknownRole text => "unknown record type '" ++ text ++ "'"
  | unknownKind text => "unknown kind '" ++ text ++ "'"
  | emptyName => "empty name"

inductive CycleKind
  | ancestor | layout
  deriving DecidableEq

def CycleKind.text : CycleKind → String
  | ancestor => "ancestor"
  | layout => "layout"

inductive Failure
  /-- A file or folder cannot be read or written. -/
  | disk (path : Path)
  | document (path : Path) (error : ParseError)
  | libraryMissing (path : Path)
  | notConnected
  /-- The chain ends in the name that closes the cycle. -/
  | cycle (kind : CycleKind) (chain : List String)
  /-- Lines count from one. -/
  | record (path : Path) (line : Nat) (fault : RecordFault)
  | invalid (errors : List Report)
  /-- A walk took more steps than there are elements to visit; no run ends so. -/
  | stepsExhausted
  deriving DecidableEq

def Failure.message : Failure → String
  | disk path => "IO error on " ++ path.text
  | document path error => "Parse error in " ++ path.text ++ ": " ++ error.message
  | libraryMissing path => "Standard library not found at " ++ path.text
  | notConnected => "Repository finder is not connected"
  | cycle kind chain => "Cyclic " ++ kind.text ++ " reference: " ++ " -> ".intercalate chain
  | record path line fault =>
    "Invalid index record at " ++ path.text ++ ":" ++ toString line ++ ": " ++ fault.message
  | invalid errors =>
    "Composition failed with " ++ toString errors.length ++ " error(s): " ++
      "; ".intercalate (errors.map (·.message))
  | stepsExhausted => "Too many steps"

end Requirements
