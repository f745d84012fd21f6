/-! Properties of elements. A property without a type is a gap that inheritance may
fill; a property with attributes is compound. -/
namespace Requirements

inductive Presence
  | mandatory | optional
  deriving DecidableEq, Inhabited

def Presence.keyword : Presence → String
  | mandatory => "mandatory"
  | optional => "optional"

structure Property where
  key : String
  typeName : Option String := none
  presence : Option Presence := none
  value : Option String := none
  /-- The type is that of the items of a list. -/
  listOf : Bool := false
  values : List String := []
  attributes : List Property := []
  deriving Inhabited

namespace Property

def eventsKey : String := "events"

def layoutKey : String := "layout"

/-- Names below these two properties are actions and views, never types. -/
def namesNoTypes (property : Property) : Bool :=
  property.key == eventsKey || property.key == layoutKey

def isTypeless (property : Property) : Bool := property.typeName.isNone

def find? (key : String) (properties : List Property) : Option Property :=
  properties.find? (·.key == key)

def modifyFirst (key : String) (change : Property → Property) : List Property → List Property
  | [] => []
  | p :: rest => if p.key = key then change p :: rest else p :: modifyFirst key change rest

mutual

def typeNames : Property → List String
  | ⟨_, typeName, _, _, _, _, attributes⟩ => typeName.toList ++ typeNamesOf attributes

def typeNamesOf : List Property → List String
  | [] => []
  | p :: rest => typeNames p ++ typeNamesOf rest

end

end Property
end Requirements
