import Requirements.Property.Inherit
import Requirements.Resolution.State

/-! Layouts. A node below the layout of an authored view names another view unless it has
a type or a value; it takes in that view's properties and is expanded in turn. A view
below itself is a cycle. When an expansion fails, the nodes expanded so far stay. -/
namespace Requirements

def Property.namesView (node : Property) : Bool :=
  node.isTypeless && node.value.isNone && node.values.isEmpty

/-- What an expansion made, also when it failed, and the state behind it. -/
structure Expansion (α : Type) where
  result : α
  failure : Option Failure := none
  state : Resolution

def Expansion.map (f : α → β) (expansion : Expansion α) : Expansion β :=
  { expansion with result := f expansion.result }

namespace Resolving

section

variable (settings : Settings) (view : Element)
  (deeper : List Element.Key → List Property → Resolution → Expansion (List Property))

mutual

/-- Expands one node below `view`, inside the views of `path`. The properties of the view
that it names are left to `deeper`. -/
def expandNode (path : List Element.Key) : Property → Resolution → Expansion Property
  | ⟨key, typeName, presence, value, listOf, values, attributes⟩, state =>
    let node : Property := ⟨key, typeName, presence, value, listOf, values, attributes⟩
    let hold (nodes : List Property) : Property :=
      ⟨key, typeName, presence, value, listOf, values, nodes⟩
    if key = Property.layoutKey then (expandNodes path attributes state).map hold
    else if !node.namesView then { result := node, state }
    else
      match resolve settings [.view] (QualifiedName.parse key) none state with
      | .error failure state => { result := node, failure := some failure, state }
      | .ok none state =>
        let missing := (Finding.viewMissing key view.name).reportOn view.name view.file
        (expandNodes path attributes (state.report missing)).map hold
      | .ok (some (_, child)) state =>
        if path.contains child.key then
          { result := node
            failure := some (.cycle .layout (path.map (·.2) ++ [child.key.2]))
            state }
        else
          (deeper (path ++ [child.key]) (Property.inherit attributes child.properties) state).map
            hold

def expandNodes (path : List Element.Key) :
    List Property → Resolution → Expansion (List Property)
  | [], state => { result := [], state }
  | node :: rest, state =>
    match expandNode path node state with
    | ⟨node, some failure, state⟩ => { result := node :: rest, failure := some failure, state }
    | ⟨node, none, state⟩ => (expandNodes path rest state).map (node :: ·)

end

end

/-- Expands nodes through as many views as there are steps. -/
def expand (settings : Settings) (view : Element) :
    Nat → List Element.Key → List Property → Resolution → Expansion (List Property)
  | 0, _, nodes, state => { result := nodes, failure := some .stepsExhausted, state }
  | steps + 1, path, nodes, state =>
    expandNodes settings view (expand settings view steps) path nodes state

def expandLayout (settings : Settings) (index : Nat) (view : Element) (layout : Property) :
    Resolving Unit := fun state =>
  let expansion := expand settings view state.bound [view.key] layout.attributes state
  let put (own : Property) : Property := { own with attributes := expansion.result }
  let state := expansion.state.modifyAuthored index fun e =>
    { e with properties := Property.modifyFirst Property.layoutKey put e.properties }
  match expansion.failure with
  | some failure => .error failure state
  | none => .ok () state

def layout? (element : Element) : Option Property :=
  if element.kind = .view then Property.find? Property.layoutKey element.properties else none

def resolveLayout (settings : Settings) (index : Nat) (element : Element) : Resolving Unit :=
  match layout? element with
  | some layout => expandLayout settings index element layout
  | none => return

end Resolving
end Requirements
