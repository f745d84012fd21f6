import Requirements.Property
import Requirements.QualifiedName

/-! The elements a document declares, and the bindings of events to actions that an
element carries. -/
namespace Requirements

inductive ElementKind
  | application | module | actor | classType | entityType | action | view | feature | style
  deriving DecidableEq, Inhabited

namespace ElementKind

def all : List ElementKind :=
  [application, module, actor, classType, entityType, action, view, feature, style]

def keyword : ElementKind → String
  | application => "application"
  | module => "module"
  | actor => "actor"
  | classType => "class"
  | entityType => "entity"
  | action => "action"
  | view => "view"
  | feature => "feature"
  | style => "style"

def ofKeyword? (text : String) : Option ElementKind := all.find? (·.keyword == text)

def declaresType : ElementKind → Bool
  | classType | entityType => true
  | _ => false

/-- The kinds that an ancestor of an element may have: classes and entities stand in
for each other, any other kind for itself alone. -/
def related : ElementKind → List ElementKind
  | classType | entityType => [classType, entityType]
  | kind => [kind]

end ElementKind

def maxUses : Nat := UInt32.size - 1

structure Element where
  kind : ElementKind
  name : QualifiedName
  /-- The name after `from`. -/
  ancestor : Option QualifiedName := none
  /-- The name after `extends`. -/
  parent : Option QualifiedName := none
  properties : List Property := []
  features : List QualifiedName := []
  calls : List QualifiedName := []
  /-- The module or application an action belongs to. -/
  owner : Option QualifiedName := none
  file : String := ""
  /-- How often a reference was resolved to this element, counted up to `maxUses`. -/
  uses : Nat := 0
  deriving Inhabited

structure Binding where
  event : String
  handler : QualifiedName
  deriving DecidableEq, Inhabited

namespace Element

/-- What tells elements apart while a chain of references is followed. -/
abbrev Key := ElementKind × String

def key (element : Element) : Key := (element.kind, element.name.text)

def used (element : Element) : Element :=
  { element with uses := if element.uses < maxUses then element.uses + 1 else element.uses }

/-- The handler is the value of the attribute, or its type when it has no value. -/
def bindingOf? (entry : Property) : Option Binding :=
  (entry.value <|> entry.typeName).map fun handler =>
    ⟨entry.key, QualifiedName.parse handler⟩

def bindings (element : Element) : List Binding :=
  match Property.find? Property.eventsKey element.properties with
  | some events => events.attributes.filterMap bindingOf?
  | none => []

/-- The types that the properties name, events and layouts left out. -/
def typeNames (element : Element) : List String :=
  Property.typeNamesOf (element.properties.filter fun p => !p.namesNoTypes)

def emptyAction (name : QualifiedName) : Element := { kind := .action, name }

def isEmpty (element : Element) : Bool :=
  element.properties.isEmpty && element.features.isEmpty && element.calls.isEmpty

end Element
end Requirements
