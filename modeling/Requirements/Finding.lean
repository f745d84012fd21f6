import Requirements.Report

/-! What resolving and checking may find, each finding with its code and wording. -/
namespace Requirements

inductive Finding
  /-- The project declares no application. -/
  | applicationMissing
  /-- The lead application's id started with a lowercase letter. -/
  | idCapitalized (id capitalized : String)
  /-- The lead application declared no domain. -/
  | domainAssumed (id domain : String)
  /-- The lead application declared no ancestor. -/
  | applicationTypeAssumed (application ancestor : QualifiedName)
  /-- The chain of ancestors that begins at the origin ends in a name without element. -/
  | ancestorMissing (ancestor origin : QualifiedName)
  | parentMissing (parent child : QualifiedName)
  | featureMissing (feature user : QualifiedName)
  /-- An action is named by a binding or a call and declared nowhere. -/
  | actionMissing (action requester : QualifiedName)
  /-- A node below the layout of the view names no view. -/
  | viewMissing (child : String) (view : QualifiedName)
  /-- A binding names an action that was not resolved. -/
  | handlerUnknown (event : String) (binder handler : QualifiedName)
  /-- One module binds the action again. -/
  | actionBoundAgain (owner action : QualifiedName)
  /-- Two modules bind the action. -/
  | ownersConflict (action first second : QualifiedName)
  /-- The file of an action nobody claims declares no module. -/
  | moduleMissing (file : String) (action : QualifiedName)
  /-- The file of an action nobody claims declares several modules. -/
  | ownerAmbiguous (action : QualifiedName) (candidates : List QualifiedName)
  /-- A property neither declares nor inherits a type. -/
  | typeAssumed (path : String) (element : QualifiedName) (typeName : String)
  | ownerMissing (action : QualifiedName)

namespace Finding

def code : Finding → String
  | ownersConflict .. => "E0101"
  | actionBoundAgain .. => "E0102"
  | ownerAmbiguous .. => "E0103"
  | handlerUnknown .. => "E0104"
  | idCapitalized .. | domainAssumed .. | applicationTypeAssumed .. => "W0101"
  | actionMissing .. => "W0102"
  | viewMissing .. => "W0103"
  | typeAssumed .. => "W0104"
  | ownerMissing .. => "W0105"
  | ancestorMissing .. | parentMissing .. | featureMissing .. => "W0106"
  | applicationMissing => "W0107"
  | moduleMissing .. => "W0108"

def severity : Finding → Severity
  | ownersConflict .. | actionBoundAgain .. | ownerAmbiguous .. | handlerUnknown .. => .error
  | _ => .warning

def quoted (text : String) : String := "'" ++ text ++ "'"

def message : Finding → String
  | applicationMissing => "No application declared"
  | idCapitalized id capitalized =>
    "Application name " ++ quoted id ++ " capitalized to " ++ quoted capitalized
  | domainAssumed id domain =>
    "Application " ++ quoted id ++ " has no domain, using " ++ quoted domain
  | applicationTypeAssumed application ancestor =>
    "Application " ++ quoted application.text ++ " has no type, using " ++ quoted ancestor.text
  | ancestorMissing ancestor origin =>
    "Ancestor " ++ quoted ancestor.text ++ " of " ++ quoted origin.text ++ " not found"
  | parentMissing parent child =>
    "Parent " ++ quoted parent.text ++ " of " ++ quoted child.text ++ " not found"
  | featureMissing feature user =>
    "Feature " ++ quoted feature.text ++ " used by " ++ quoted user.text ++ " not found"
  | actionMissing action requester =>
    "Action " ++ quoted action.text ++ " named by " ++ quoted requester.text ++
      " does not exist; using an empty placeholder"
  | viewMissing child view =>
    "Layout child " ++ quoted child ++ " of view " ++ quoted view.text ++ " is not a known view"
  | handlerUnknown event binder handler =>
    "Event " ++ quoted event ++ " of " ++ quoted binder.text ++ " names unknown action " ++
      quoted handler.text
  | actionBoundAgain owner action =>
    "Module " ++ quoted owner.text ++ " binds action " ++ quoted action.text ++
      " more than once"
  | ownersConflict action first second =>
    "Action " ++ quoted action.text ++ " is claimed by both " ++ quoted first.text ++ " and " ++
      quoted second.text
  | moduleMissing file action =>
    "No module declared in " ++ quoted file ++ " to own action " ++ quoted action.text
  | ownerAmbiguous action candidates =>
    "Action " ++ quoted action.text ++ " could belong to any of " ++
      ", ".intercalate (candidates.map QualifiedName.text)
  | typeAssumed path element typeName =>
    "Property " ++ quoted path ++ " of " ++ quoted element.text ++ " has no type, using " ++
      typeName
  | ownerMissing action => "Action " ++ quoted action.text ++ " has no owner"

def report (finding : Finding) : Report :=
  { severity := finding.severity, message := finding.message, code := some finding.code }

def reportOn (finding : Finding) (subject : QualifiedName) (file : String) : Report :=
  finding.report.about subject |>.inFile file

@[simp] theorem code_reportOn (finding : Finding) (subject : QualifiedName) (file : String) :
    (finding.reportOn subject file).code = some finding.code := by
  rw [reportOn, Report.inFile]
  split <;> rfl

@[simp] theorem isError_reportOn (finding : Finding) (subject : QualifiedName) (file : String) :
    (finding.reportOn subject file).isError = (finding.severity == .error) := by
  rw [reportOn, Report.inFile]
  split <;> rfl

@[simp] theorem element_reportOn (finding : Finding) (subject : QualifiedName) (file : String) :
    (finding.reportOn subject file).element = some subject.text := by
  rw [reportOn, Report.inFile]
  split <;> rfl

end Finding
end Requirements
