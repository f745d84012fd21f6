import Requirements.Resolution.Actions
import Requirements.Resolution.Ancestors
import Requirements.Resolution.Layout

/-! Resolving a project: every reference of its authored elements is followed, and what
they inherit is filled in. -/
namespace Requirements

def Resolving.all (settings : Settings) : Resolving Unit := do
  overAuthored (resolveLineage settings)
  overAuthored (resolveFeatures settings)
  resolveTypes settings
  resolveActions settings
  overAuthored (resolveLayout settings)

/-- Resolves an authored document. A failure comes with the state it left. -/
def Document.resolved (settings : Settings) (authored : Document) (workspace : Workspace) :
    EStateM.Result Failure Resolution Unit :=
  Resolving.all settings { project := { authored }, workspace }

end Requirements
