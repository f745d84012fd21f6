import Requirements.Document
import Requirements.Finding
import Requirements.Settings
import Requirements.Text.Uppercase

/-! The lead application before anything is resolved: its id starts with a capital, and
it has a domain and an ancestor. -/
namespace Requirements

def startsLowercase (text : String) : Bool := text.toList.head?.any isLowercase

def Element.normalized (settings : Settings) (application : Element) : Element × List Finding :=
  let name := application.name
  let id := if startsLowercase name.id then withCapital name.id else name.id
  let domain := name.domain.getD settings.defaultDomain
  let ancestor := application.ancestor.getD settings.applicationType
  let normal : QualifiedName := ⟨id, some domain⟩
  ({ application with name := normal, ancestor := some ancestor },
    (if startsLowercase name.id then [.idCapitalized name.id id] else []) ++
    (if name.domain.isNone then [.domainAssumed id domain] else []) ++
    (if application.ancestor.isNone then [.applicationTypeAssumed normal ancestor] else []))

def Document.normalized (settings : Settings) (authored : Document) : Document × List Report :=
  let lead := do
    let index ← authored.leadIndex?
    some (index, ← authored.elements[index]?)
  match lead with
  | none => (authored, [Finding.applicationMissing.report])
  | some (index, application) =>
    let (normal, findings) := application.normalized settings
    (authored.modify index fun _ => normal,
      findings.map fun finding => finding.reportOn normal.name normal.file)

end Requirements
