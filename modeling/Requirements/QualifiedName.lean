import Requirements.Text.Split

/-! Two-part names. A name is written `domain.id`, or `id` alone when no domain is
known; a domain may itself hold dots, an id written as text never does. -/
namespace Requirements

structure QualifiedName where
  id : String
  domain : Option String := none
  deriving DecidableEq, Inhabited

namespace QualifiedName

/-- The last dot ends the domain. An empty domain counts as none. -/
def parse (text : String) : QualifiedName :=
  match splitAtLast '.' text.toList with
  | none => ⟨text, none⟩
  | some ([], id) => ⟨String.ofList id, none⟩
  | some (domain, id) => ⟨String.ofList id, some (String.ofList domain)⟩

def text (name : QualifiedName) : String :=
  match name.domain with
  | some domain => domain ++ "." ++ name.id
  | none => name.id

/-- Used as a reference, a name without a domain designates that id in every domain,
and a name with a domain only the same name. -/
def designates (reference target : QualifiedName) : Bool :=
  reference.id == target.id &&
    match reference.domain with
    | none => true
    | some _ => reference.domain == target.domain

@[simp] theorem designates_self (name : QualifiedName) : name.designates name := by
  cases h : name.domain <;> simp [designates, h]

/-- Keeps a domain that is there and takes the given one otherwise. -/
def within (name : QualifiedName) (domain : Option String) : QualifiedName :=
  { name with domain := name.domain <|> domain }

instance : Ord QualifiedName where
  compare a b := (compare a.id b.id).then (compare a.domain b.domain)

end QualifiedName

def referenceText : Option QualifiedName → String
  | some name => name.text
  | none => "<undefined>"

end Requirements
