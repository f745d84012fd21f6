import Requirements.Document

/-! A project: what its authors wrote, and the elements from elsewhere that it needs. -/
namespace Requirements

structure Project where
  authored : Document := {}
  dependencies : Document := {}
  deriving Inhabited

inductive Place
  | authored (index : Nat)
  | dependency (index : Nat)
  deriving DecidableEq, Inhabited

namespace Project

def documentAt (project : Project) : Place → Document
  | .authored _ => project.authored
  | .dependency _ => project.dependencies

def element? (project : Project) : Place → Option Element
  | .authored index => project.authored.elements[index]?
  | .dependency index => project.dependencies.elements[index]?

def modify (project : Project) (change : Element → Element) : Place → Project
  | .authored index => { project with authored := project.authored.modify index change }
  | .dependency index => { project with dependencies := project.dependencies.modify index change }

/-- Only the element at the place is changed. -/
theorem element?_modify (project : Project) (change : Element → Element) (place other : Place) :
    (project.modify change place).element? other =
      if place = other then (project.element? other).map change
      else project.element? other := by
  cases place <;> cases other <;> simp [modify, element?, Document.getElem?_modify]

def placed (project : Project) : List (Place × Element) :=
  (project.authored.elements.mapIdx fun index element => (.authored index, element)) ++
    project.dependencies.elements.mapIdx fun index element => (.dependency index, element)

/-- Actions without an owner, authored ones first. -/
def ownerless (project : Project) : List Place :=
  (project.placed.filter fun (_, e) => e.kind == .action && e.owner.isNone).map (·.1)

end Project
end Requirements
