import Requirements.Finding
import Requirements.Project
import Requirements.Repository.Catalogue

/-! How references are resolved: first among the authored elements, then among those
resolved before, then in the repositories. What is found in a repository becomes a
dependency of the project. -/
namespace Requirements

/-- No walk meets more elements, and no queue takes in more calls, than this. -/
def Document.weight (document : Document) : Nat :=
  document.elements.foldl (fun weight element => weight + 1 + element.calls.length) 0

structure Resolution where
  project : Project
  /-- The repository documents read so far. -/
  parsed : List (Path × Document) := []
  reports : List Report := []
  workspace : Workspace

namespace Resolution

/-- Elements come from the project, from documents read before, or from texts on the
disk, which hold fewer elements and calls than bytes. -/
def bound (state : Resolution) : Nat :=
  state.project.authored.weight + state.project.dependencies.weight +
    state.parsed.foldl (fun weight (_, document) => weight + document.weight) 0 +
    state.workspace.disk.root.textSize + 1

def modifyAuthored (index : Nat) (change : Element → Element) (state : Resolution) :
    Resolution :=
  { state with project := state.project.modify change (.authored index) }

def report (report : Report) (state : Resolution) : Resolution :=
  { state with reports := state.reports ++ [report] }

def known? (state : Resolution) (kinds : List ElementKind) (reference : QualifiedName)
    (asker : Option Place) : Option (Place × Element) :=
  state.project.placed.find? fun (place, element) =>
    some place != asker && element.isDesignated kinds reference

end Resolution

/-- A step of resolving. One that fails still shows how far it came. -/
abbrev Resolving (α : Type) := EStateM Failure Resolution α

namespace Resolving

def report (finding : Finding) (subject : QualifiedName) (file : String) : Resolving Unit :=
  modify (Resolution.report (finding.reportOn subject file))

def search (search : EStateM Failure Workspace α) : Resolving α := fun state =>
  match search state.workspace with
  | .ok a workspace => .ok a { state with workspace }
  | .error failure workspace => .error failure { state with workspace }

/-- The document of a hit, read at most once. Its elements remember the whole path, so
that files of one name in two folders stay apart. -/
def documentOf (hit : Hit) : Resolving Document := fun state =>
  match state.parsed.find? fun (path, _) => path.same hit.path with
  | some (_, document) => .ok document state
  | none =>
    match state.workspace.disk.parse hit.path (Disk.fileText hit.path.text) with
    | .ok document => .ok document { state with parsed := state.parsed ++ [(hit.path, document)] }
    | .error failure => .error failure state

/-- The first element of the kind that the reference designates in a hit's document.
Hits in the project are skipped: they are the authored elements. -/
def firstDeclared (kind : ElementKind) (reference : QualifiedName) :
    List Hit → Resolving (Option Element)
  | [] => return none
  | hit :: rest =>
    if hit.repository = .project then firstDeclared kind reference rest
    else do
      let document ← documentOf hit
      match document.elements.find? (·.isDesignated [kind] reference) with
      | some element => return some element
      | none => firstDeclared kind reference rest

/-- Looks through all repositories for one kind before the next. -/
def findInRepositories (settings : Settings) (reference : QualifiedName) :
    List ElementKind → Resolving (Option Element)
  | [] => return none
  | kind :: rest => do
    let hits ← search (Workspace.find settings (.element kind) reference.id reference.domain)
    match ← firstDeclared kind reference hits with
    | some element => return some element
    | none => findInRepositories settings reference rest

def depend (element : Element) : Resolving (Place × Element) := fun state =>
  let dependencies := state.project.dependencies
  .ok (.dependency dependencies.elements.length, element)
    { state with project := { state.project with dependencies := dependencies.push element } }

/-- The element that a reference leads to, which is counted as used once more. The
element that asks is never the answer, so it may derive from another of its name. -/
def resolve (settings : Settings) (kinds : List ElementKind) (reference : QualifiedName)
    (asker : Option Place) : Resolving (Option (Place × Element)) := do
  match (← get).known? kinds reference asker with
  | some (place, element) =>
    modify fun state => { state with project := state.project.modify Element.used place }
    return some (place, element.used)
  | none =>
    match ← findInRepositories settings reference kinds with
    | some element => return some (← depend element.used)
    | none => return none

end Resolving
end Requirements
