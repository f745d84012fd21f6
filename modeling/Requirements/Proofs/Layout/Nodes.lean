import Mathlib.Logic.Relation
import Requirements.Proofs.Order.World

/-! What layouts lay out. A node that names a view stands for that view: in its place stand the
properties of the view, all of them, and the nodes that the node had before. What is walked when a
layout is expanded comes from there, whatever was inherited and expanded in between. -/
namespace Requirements

open Property (layoutKey)

namespace World

variable {world : World}

/-- The nodes are laid out in the view of the key: they stand below the layout of an authored view, or
they are properties of a view that such a node names, or stand below a node that may name it. -/
inductive Laid (world : World) : Element.Key → List Property → Prop
  | layout {view : Element} {layout : Property} (authored : world.authored view)
      (has : Resolving.layout? view = some layout) : Laid world view.key layout.attributes
  | inner {key : Element.Key} {nodes : List Property} {node : Property} (laid : Laid world key nodes)
      (member : node ∈ nodes) (isLayout : node.key = layoutKey) : Laid world key node.attributes
  | view {key : Element.Key} {nodes : List Property} {node : Property} {view : Element}
      (laid : Laid world key nodes) (member : node ∈ nodes) (other : node.key ≠ layoutKey)
      (names : node.namesView) (declared : world.Declares view)
      (designated : view.isDesignated [.view] (.parse node.key)) : Laid world view.key view.properties
  | nested {key : Element.Key} {nodes : List Property} {node : Property} {view : Element}
      (laid : Laid world key nodes) (member : node ∈ nodes) (other : node.key ≠ layoutKey)
      (typeless : node.typeName = none) (declared : world.Declares view)
      (designated : view.isDesignated [.view] (.parse node.key)) : Laid world view.key node.attributes

def Inserts (world : World) (key : Element.Key) (name : String) : Prop :=
  ∃ nodes, world.Laid key nodes ∧ ∃ node ∈ nodes, node.key ≠ layoutKey ∧ node.namesView ∧ node.key = name

def Contains (world : World) (outer inner : Element.Key) : Prop :=
  ∃ name view, world.Inserts outer name ∧ world.Declares view ∧ view.isDesignated [.view] (.parse name) ∧
    view.key = inner

/-- Walked as nodes of the view of the key, the properties insert what the view inserts, and below a
node what the view inserts that the node names. -/
inductive Sound (world : World) : Element.Key → List Property → Prop
  | nil {key : Element.Key} : Sound world key []
  | layout {key : Element.Key} {node : Property} {rest : List Property} (isLayout : node.key = layoutKey)
      (inside : Sound world key node.attributes) (others : Sound world key rest) : Sound world key (node :: rest)
  | node {key : Element.Key} {node : Property} {rest : List Property} (other : node.key ≠ layoutKey)
      (inserts : node.namesView → world.Inserts key node.key)
      (nested : node.typeName = none → ∀ view, world.Declares view →
        view.isDesignated [.view] (.parse node.key) → Sound world view.key node.attributes)
      (others : Sound world key rest) : Sound world key (node :: rest)

theorem Sound.cons {key : Element.Key} {node : Property} {rest : List Property} (first : world.Sound key [node])
    (others : world.Sound key rest) : world.Sound key (node :: rest) := by
  cases first with
  | layout isLayout inside => exact .layout isLayout inside others
  | node other inserts nested => exact .node other inserts nested others

theorem Sound.head {key : Element.Key} {node : Property} {rest : List Property}
    (sound : world.Sound key (node :: rest)) : world.Sound key [node] := by
  cases sound with
  | layout isLayout inside => exact .layout isLayout inside .nil
  | node other inserts nested => exact .node other inserts nested .nil

theorem Sound.tail {key : Element.Key} {node : Property} {rest : List Property}
    (sound : world.Sound key (node :: rest)) : world.Sound key rest := by
  cases sound with
  | layout _ _ others => exact others
  | node _ _ _ others => exact others

theorem Sound.of_mem {key : Element.Key} {nodes : List Property}
    (each : ∀ node ∈ nodes, world.Sound key [node]) : world.Sound key nodes := by
  induction nodes with
  | nil => exact .nil
  | cons node rest ih => exact (each node (by simp)).cons (ih fun other member => each other (by simp [member]))

theorem Sound.mem {key : Element.Key} {nodes : List Property} (sound : world.Sound key nodes) {node : Property}
    (member : node ∈ nodes) : world.Sound key [node] := by
  induction nodes with
  | nil => cases member
  | cons first rest ih =>
    rcases List.mem_cons.mp member with rfl | behind
    · exact sound.head
    · exact ih sound.tail behind

/-- What is laid out is walked as what it is. -/
theorem Sound.of_laid {key : Element.Key} {nodes : List Property} (laid : world.Laid key nodes) :
    world.Sound key nodes := by
  refine .of_mem fun node member => ?_
  have smaller := Property.sizeOf_attributes_of_mem member
  by_cases isLayout : node.key = layoutKey
  · exact .layout isLayout (.of_laid (laid.inner member isLayout)) .nil
  · refine .node isLayout (fun names => ⟨nodes, laid, node, member, isLayout, names, rfl⟩)
      (fun typeless view declared designated => ?_) .nil
    exact .of_laid (laid.nested member isLayout typeless declared designated)
  termination_by sizeOf nodes

section Inherit

open Property (filledFrom inherit upsert)

/-- A gap that is filled inserts what it inserted, and below it is what was below both. -/
theorem Sound.filledFrom {key : Element.Key} {own p : Property} (same : own.key = p.key)
    (ofOwn : world.Sound key [own]) (ofLayer : world.Sound key [p])
    (below : ∀ {key}, world.Sound key own.attributes → world.Sound key p.attributes →
      world.Sound key (inherit own.attributes p.attributes)) : world.Sound key [filledFrom own p] := by
  by_cases typed : own.typeName.isSome
  · rwa [Property.filledFrom_of_typed typed]
  · have typeless : own.typeName = none := by simpa using typed
    cases ofOwn with
    | layout isLayout inside =>
      cases ofLayer with
      | layout _ insideLayer =>
        rw [Property.filledFrom_of_typeless typeless]
        exact .layout isLayout (below inside insideLayer) .nil
      | node other => exact absurd (same ▸ isLayout) other
    | node other inserts nested =>
      cases ofLayer with
      | layout isLayout => exact absurd (same ▸ isLayout) other
      | node _ _ nestedLayer =>
        have filledType : (Property.filledFrom own p).typeName = p.typeName := by
          rw [Property.filledFrom_of_typeless typeless]
        have filledKey : (Property.filledFrom own p).key = own.key := Property.filledFrom_key own p
        refine .node (filledKey ▸ other) (fun names => ?_) (fun stays view declared designated => ?_) .nil
        · have unvalued := (Property.namesView_iff.mp names).2
          rw [Property.isValued_filledFrom] at unvalued
          exact filledKey ▸ inserts (Property.namesView_iff.mpr ⟨typeless, unvalued⟩)
        · rw [filledKey] at designated
          have inside := below (nested typeless view declared designated)
            (nestedLayer (filledType ▸ stays) view declared (same ▸ designated))
          rwa [Property.filledFrom_of_typeless typeless]

theorem sound_upsert {key : Element.Key} {fill : Property → Property} {fresh : Property} {own : List Property}
    (ofOwn : world.Sound key own) (ofFresh : world.Sound key [fresh])
    (filled : ∀ q ∈ own, q.key = fresh.key → world.Sound key [fill q]) :
    world.Sound key (upsert fill fresh own) := by
  induction own with
  | nil => exact ofFresh
  | cons q rest ih =>
    rw [upsert]
    split
    next same => exact (filled q (by simp) same).cons ofOwn.tail
    next => exact ofOwn.head.cons (ih ofOwn.tail fun other member => filled other (by simp [member]))

/-- What is inherited is walked as what both walked. -/
theorem sound_inherit : ∀ {layer own : List Property} {key : Element.Key},
    world.Sound key own → world.Sound key layer → world.Sound key (inherit own layer)
  | [], own, key, ofOwn, _ => by simpa using ofOwn
  | p :: rest, own, key, ofOwn, ofLayer => by
    rw [Property.inherit_cons]
    refine sound_inherit (sound_upsert ofOwn ofLayer.head fun q member same => ?_) ofLayer.tail
    have smaller := Property.sizeOf_attributes_lt p rest
    exact (ofOwn.mem member).filledFrom same ofLayer.head fun own layer => sound_inherit own layer
  termination_by layer => sizeOf layer

end Inherit

/-- A first layout may get other nodes of the view. -/
theorem sound_modifyFirst {key : Element.Key} {properties nodes : List Property}
    (sound : world.Sound key properties) (ofNodes : world.Sound key nodes) :
    world.Sound key (Property.modifyFirst layoutKey ({ · with attributes := nodes }) properties) := by
  induction properties with
  | nil => exact sound
  | cons p rest ih =>
    rw [Property.modifyFirst]
    split
    next isLayout => exact .layout isLayout ofNodes sound.tail
    next => exact sound.head.cons (ih sound.tail)

/-- The first layout has the nodes that it got. -/
theorem attributes_modifyFirst {properties nodes : List Property} {layout : Property}
    (found : Property.find? layoutKey
      (Property.modifyFirst layoutKey ({ · with attributes := nodes }) properties) = some layout) :
    layout.attributes = nodes := by
  induction properties with
  | nil => cases found
  | cons p rest ih =>
    rw [Property.modifyFirst] at found
    split at found
    next isLayout =>
      obtain rfl : { p with attributes := nodes } = layout := by simpa [Property.find?, isLayout] using found
      rfl
    next inner => exact ih (by simpa [Property.find?, inner] using found)

end World
end Requirements
