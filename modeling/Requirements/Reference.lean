import Requirements.Document
import Requirements.Settings

/-! What a document declares and what it leans on. Each element gives one declaration;
ancestors, parents, calls and features give dependencies, and so do the types of
properties that are neither built in nor declared locally. -/
namespace Requirements

inductive ReferenceKind
  /-- An element of the kind, declared or, for actions and features, used. -/
  | element (kind : ElementKind)
  | ancestor | parent | propertyType
  deriving DecidableEq, Inhabited

namespace ReferenceKind

def all : List ReferenceKind := ElementKind.all.map element ++ [ancestor, parent, propertyType]

def code : ReferenceKind → String
  | element .application => "app"
  | element .module => "mod"
  | element .actor => "act"
  | element .classType => "cls"
  | element .entityType => "ent"
  | element .action => "acn"
  | element .view => "vie"
  | element .feature => "ftr"
  | element .style => "sty"
  | ancestor => "src"
  | parent => "par"
  | propertyType => "typ"

def ofCode? (code : String) : Option ReferenceKind := all.find? (·.code == code)

end ReferenceKind

structure Reference where
  kind : ReferenceKind
  /-- The element that declares or depends. -/
  owner : QualifiedName
  /-- What is depended on; a declaration has none. -/
  referred : Option QualifiedName := none
  file : String
  deriving DecidableEq, Inhabited

structure References where
  declarations : List Reference := []
  /-- Ancestors, parents, calls and features. -/
  edges : List Reference := []
  types : List Reference := []
  deriving Inhabited

namespace References

def dependencies (references : References) : List Reference := references.edges ++ references.types

def isEmpty (references : References) : Bool :=
  references.declarations.isEmpty && references.edges.isEmpty && references.types.isEmpty

def append (first second : References) : References :=
  ⟨first.declarations ++ second.declarations, first.edges ++ second.edges,
    first.types ++ second.types⟩

end References

/-- The classes and entities that are known without leaving the document. -/
abbrev KnownTypes := List QualifiedName

namespace KnownTypes

def ofDocument (document : Document) : KnownTypes :=
  (document.elements.filter (·.kind.declaresType)).map (·.name)

def has (known : KnownTypes) (reference : QualifiedName) : Bool :=
  known.any reference.designates

end KnownTypes

/-- Calls and features count even when they are declared locally. -/
def Element.references (known : KnownTypes) (settings : Settings) (element : Element) :
    References :=
  let edge (kind : ReferenceKind) (referred : QualifiedName) : Reference :=
    ⟨kind, element.name, some referred, element.file⟩
  let outside (names : List QualifiedName) : List QualifiedName :=
    names.filter fun name => !known.has name
  let ancestors := (outside element.ancestor.toList).map (edge .ancestor)
  let parents :=
    if element.kind.declaresType then (outside element.parent.toList).map (edge .parent) else []
  let calls := if element.kind = .action then element.calls.map (edge (.element .action)) else []
  let features := element.features.map (edge (.element .feature))
  let typeNames := element.typeNames.filter fun typeName => !settings.isBuiltin typeName
  { declarations := [⟨.element element.kind, element.name, none, element.file⟩]
    edges := ancestors ++ parents ++ calls ++ features
    types := (outside (typeNames.map QualifiedName.parse)).map (edge .propertyType) }

def Document.references (known : KnownTypes) (settings : Settings) (document : Document) :
    References :=
  document.elements.foldl (fun gathered element =>
    gathered.append (element.references known settings)) {}

end Requirements
