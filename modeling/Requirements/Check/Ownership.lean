import Requirements.Finding
import Requirements.Project

/-! Who owns an action. A module whose events bind the action claims it; two modules
claiming one action are a conflict, one module binding it twice is an error too. An
unclaimed action belongs to the only module of its file, and failing that to the first
application that binds it. -/
namespace Requirements
namespace Project

/-- The element an ancestor reference leads to, resolved elements before authored ones. -/
def ancestor? (project : Project) (element : Element) : Option Element := do
  let reference ← element.ancestor
  (project.dependencies.elements ++ project.authored.elements).find?
    (·.isDesignated [element.kind] reference)

/-- The ancestors of an element, nearest first, up to the first whose key was visited.
No lineage has more elements than the project. -/
def lineage (project : Project) : Nat → List Element.Key → Element → List Element
  | 0, _, _ => []
  | steps + 1, visited, element =>
    match project.ancestor? element with
    | none => []
    | some ancestor =>
      if visited.contains ancestor.key then []
      else ancestor :: lineage project steps (ancestor.key :: visited) ancestor

def firstBindings (seen : List String) : List Binding → List Binding
  | [] => []
  | binding :: rest =>
    if seen.contains binding.event then firstBindings seen rest
    else binding :: firstBindings (binding.event :: seen) rest

def bindings (project : Project) (element : Element) : List Binding :=
  let lineage := project.lineage project.placed.length [element.key] element
  firstBindings [] ((element :: lineage).flatMap Element.bindings)

def action? (project : Project) (reference : QualifiedName) : Option (Place × Element) :=
  project.placed.find? fun (_, e) => e.isDesignated [.action] reference

def setOwner (project : Project) (owner : QualifiedName) (place : Place) : Project :=
  project.modify ({ · with owner := some owner }) place

end Project

/-- What the bindings of a project say about owners. Of the modules that bind an action
the first is kept, and likewise of the applications. -/
structure Claims where
  modules : List (Place × QualifiedName) := []
  applications : List (Place × QualifiedName) := []
  conflicted : List Place := []
  reports : List Report := []

namespace Claims

def report (claims : Claims) (report : Report) : Claims :=
  { claims with reports := claims.reports ++ [report] }

def byModule (binder action : Element) (place : Place) (claims : Claims) : Claims :=
  match claims.modules.lookup place with
  | none => { claims with modules := claims.modules ++ [(place, binder.name)] }
  | some owner =>
    if owner = binder.name then
      claims.report ((Finding.actionBoundAgain owner action.name).reportOn action.name binder.file)
    else
      { claims.report ((Finding.ownersConflict action.name owner binder.name).reportOn
          action.name action.file) with
        conflicted := claims.conflicted ++ [place] }

def byApplication (binder : Element) (place : Place) (claims : Claims) : Claims :=
  match claims.applications.lookup place with
  | none => { claims with applications := claims.applications ++ [(place, binder.name)] }
  | some _ => claims

def bind (project : Project) (binder : Element) (claims : Claims) (binding : Binding) : Claims :=
  match project.action? binding.handler with
  | none =>
    claims.report ((Finding.handlerUnknown binding.event binder.name binding.handler).reportOn
      binder.name binder.file)
  | some (place, action) =>
    if binder.kind = .application then claims.byApplication binder place
    else claims.byModule binder action place

def ofProject (project : Project) : Claims :=
  let binders := project.authored.elements.filter fun e =>
    e.kind == .application || e.kind == .module
  binders.foldl (fun claims binder =>
    (project.bindings binder).foldl (bind project binder) claims) {}

end Claims

structure Ownership where
  project : Project
  conflicted : List Place
  reports : List Report

namespace Ownership

/-- Modules get the actions that they alone claim. -/
def ofClaims (claims : Claims) (project : Project) : Ownership :=
  { project := claims.modules.foldl (fun project (place, owner) =>
      if claims.conflicted.contains place then project else project.setOwner owner place) project
    conflicted := claims.conflicted
    reports := claims.reports }

def neighbours (project : Project) (place : Place) (action : Element) : List QualifiedName :=
  ((project.documentAt place).ofKind .module).filter (·.file == action.file) |>.map (·.name)

/-- The only module of its file gets an action. -/
def byFile (ownership : Ownership) (place : Place) : Ownership :=
  if ownership.conflicted.contains place then ownership
  else
    match ownership.project.element? place with
    | none => ownership
    | some action =>
      if action.file.isEmpty then ownership
      else
        let reportsWith (finding : Finding) : List Report :=
          ownership.reports ++ [finding.reportOn action.name action.file]
        match neighbours ownership.project place action with
        | [] => { ownership with reports := reportsWith (.moduleMissing action.file action.name) }
        | [owner] => { ownership with project := ownership.project.setOwner owner place }
        | candidates =>
          { ownership with
            reports := reportsWith (.ownerAmbiguous action.name candidates)
            conflicted := ownership.conflicted ++ [place] }

def byApplication (ownership : Ownership) (bound : Place × QualifiedName) : Ownership :=
  let (place, application) := bound
  let isFree := (ownership.project.element? place).any (·.owner.isNone)
  if ownership.conflicted.contains place || !isFree then ownership
  else { ownership with project := ownership.project.setOwner application place }

def settle (project : Project) : Ownership :=
  let claims := Claims.ofProject project
  let claimed := ofClaims claims project
  let filed := claimed.project.ownerless.foldl byFile claimed
  claims.applications.foldl byApplication filed

end Ownership
end Requirements
