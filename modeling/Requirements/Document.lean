import Requirements.Element

/-! Documents: the elements of one file, or of many files in order. -/
namespace Requirements

structure Document where
  domain : Option String := none
  elements : List Element := []
  deriving Inhabited

namespace Document

def push (document : Document) (element : Element) : Document :=
  { document with elements := document.elements ++ [element] }

/-- Appends the elements of the other document; the first declared domain stays. -/
def append (document other : Document) : Document :=
  ⟨document.domain <|> other.domain, document.elements ++ other.elements⟩

def ofKind (document : Document) (kind : ElementKind) : List Element :=
  document.elements.filter (·.kind == kind)

end Document

def Element.isDesignated (kinds : List ElementKind) (reference : QualifiedName)
    (element : Element) : Bool :=
  kinds.contains element.kind && reference.designates element.name

namespace Document

def find? (document : Document) (kinds : List ElementKind) (reference : QualifiedName) :
    Option Nat :=
  document.elements.findIdx? (·.isDesignated kinds reference)

/-- The position of the lead application: the first that is declared. -/
def leadIndex? (document : Document) : Option Nat :=
  document.elements.findIdx? (·.kind == .application)

def modify (document : Document) (index : Nat) (change : Element → Element) : Document :=
  { document with elements := document.elements.modify index change }

theorem getElem?_modify (document : Document) (index : Nat) (change : Element → Element)
    (other : Nat) :
    (document.modify index change).elements[other]? =
      if index = other then document.elements[other]?.map change
      else document.elements[other]? := by
  rw [modify, List.getElem?_modify]
  by_cases same : index = other <;> simp [same]

@[simp] theorem length_modify (document : Document) (index : Nat) (change : Element → Element) :
    (document.modify index change).elements.length = document.elements.length := by
  simp [modify]

end Document
end Requirements
