import Requirements.Check.Completeness
import Requirements.Check.Normalize
import Requirements.Check.Ownership
import Requirements.Resolution

/-! Composing a project: its lead application is normalized, its declarations are indexed,
references are resolved, owners settled and missing types assumed. Errors of a check end
the composition once the check is through. -/
namespace Requirements

structure Composition where
  project : Project
  reports : List Report

namespace Composition

def warnings (composition : Composition) : List Report :=
  composition.reports.filter fun report => !report.isError

def withCode (composition : Composition) (code : String) : List Report :=
  composition.reports.filter (·.code == some code)

/-- Checks a resolved project; `reports` are those made so far. -/
def ofResolved (settings : Settings) (reports : List Report) (project : Project) :
    Except Failure Composition :=
  let ownership := Ownership.settle project
  match Report.errors ownership.reports with
  | [] =>
    let (completed, missing) := ownership.project.completed settings
    let all := reports ++ ownership.reports ++ missing
    if Report.hasErrors all then .error (.invalid (Report.errors all)) else .ok ⟨completed, all⟩
  | errors => .error (.invalid errors)

end Composition

namespace Workspace

/-- Composes an authored document. What the search loaded stays in the workspace, also
when the composition fails. -/
def compose (settings : Settings) (authored : Document) :
    EStateM Failure Workspace Composition := fun workspace =>
  if workspace.catalogue.isConnected then
    let (normal, normalized) := authored.normalized settings
    let catalogue := workspace.catalogue.addProject settings normal
    match normal.resolved settings { workspace with catalogue } with
    | .error failure state => .error failure state.workspace
    | .ok () state =>
      match Composition.ofResolved settings (normalized ++ state.reports) state.project with
      | .ok composition => .ok composition state.workspace
      | .error failure => .error failure state.workspace
  else .error .notConnected workspace

def composeFolder (settings : Settings) (folder : Path) :
    EStateM Failure Workspace Composition := fun workspace =>
  match workspace.disk.parseFolder settings folder with
  | .ok authored => compose settings authored workspace
  | .error failure => .error failure workspace

end Workspace
end Requirements
