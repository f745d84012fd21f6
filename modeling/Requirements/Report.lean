import Requirements.QualifiedName

/-! Reports that let a composition go on. Errors are gathered rather than thrown, so
that one run tells of every problem. -/
namespace Requirements

inductive Severity
  | error | warning | info
  deriving DecidableEq, Inhabited

def Severity.text : Severity → String
  | error => "error"
  | warning => "warning"
  | info => "info"

structure Report where
  severity : Severity
  message : String
  code : Option String := none
  /-- The name of the element the report is about. -/
  element : Option String := none
  file : Option String := none
  deriving DecidableEq, Inhabited

namespace Report

/-- An element declared in no file has an empty file name, which is not reported. -/
def inFile (file : String) (report : Report) : Report :=
  if file.isEmpty then report else { report with file := some file }

def about (name : QualifiedName) (report : Report) : Report :=
  { report with element := some name.text }

def isError (report : Report) : Bool := report.severity == .error

def isWarning (report : Report) : Bool := report.severity == .warning

def text (report : Report) : String :=
  let code := match report.code with
    | some code => "[" ++ code ++ "]"
    | none => ""
  let file := match report.file with
    | some file => " (" ++ file ++ ")"
    | none => ""
  report.severity.text ++ code ++ ": " ++ report.message ++ file

def errors (reports : List Report) : List Report := reports.filter isError

def warnings (reports : List Report) : List Report := reports.filter isWarning

def hasErrors (reports : List Report) : Bool := reports.any isError

end Report
end Requirements
