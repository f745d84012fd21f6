import Requirements.Proofs.Property.Layers
import Requirements.Resolution.Layout

/-! Conditions on every property of a tree. Inheriting keeps those conditions that a gap
keeps when it is filled. -/
namespace Requirements.Property

section

variable (P : Property → Prop)

mutual

def EverywhereBelow : Property → Prop
  | ⟨_, _, _, _, _, _, attributes⟩ => Everywhere attributes

def Everywhere : List Property → Prop
  | [] => True
  | p :: rest => P p ∧ EverywhereBelow p ∧ Everywhere rest

end

variable [DecidablePred P]

mutual

instance decidableEverywhereBelow : (p : Property) → Decidable (EverywhereBelow P p)
  | ⟨_, _, _, _, _, _, attributes⟩ => decidableEverywhere attributes

instance decidableEverywhere : (properties : List Property) → Decidable (Everywhere P properties)
  | [] => .isTrue trivial
  | p :: rest =>
    have := decidableEverywhereBelow p
    have := decidableEverywhere rest
    inferInstanceAs (Decidable (P p ∧ EverywhereBelow P p ∧ Everywhere P rest))

end

end

variable {P Q : Property → Prop}

@[simp] theorem everywhere_nil : Everywhere P [] := by rw [Everywhere]; trivial

@[simp] theorem everywhere_cons {p : Property} {rest : List Property} :
    Everywhere P (p :: rest) ↔ P p ∧ Everywhere P p.attributes ∧ Everywhere P rest := by
  cases p; rw [Everywhere, EverywhereBelow]

theorem everywhere_iff {properties : List Property} :
    Everywhere P properties ↔ ∀ p ∈ properties, P p ∧ Everywhere P p.attributes := by
  induction properties with
  | nil => simp
  | cons p rest ih => simp [ih, and_assoc]

theorem Everywhere.attributes {properties : List Property} (holds : Everywhere P properties)
    {p : Property} (member : p ∈ properties) : Everywhere P p.attributes :=
  (everywhere_iff.mp holds p member).2

/-- A condition that holds wherever another does. -/
theorem Everywhere.imp {properties : List Property} (holds : Everywhere P properties)
    (implies : ∀ p, P p → Everywhere P p.attributes → Q p) : Everywhere Q properties := by
  rw [everywhere_iff]
  intro p member
  obtain ⟨here, below⟩ := everywhere_iff.mp holds p member
  have smaller := sizeOf_attributes_of_mem member
  exact ⟨implies p here below, below.imp implies⟩
  termination_by sizeOf properties

theorem everywhere_upsert {fill : Property → Property} {fresh : Property} {own : List Property}
    (holds : Everywhere P own) (ofFresh : P fresh ∧ Everywhere P fresh.attributes)
    (filled : ∀ q ∈ own, q.key = fresh.key → P (fill q) ∧ Everywhere P (fill q).attributes) :
    Everywhere P (upsert fill fresh own) := by
  induction own with
  | nil => simpa [upsert] using ofFresh
  | cons p rest ih =>
    rw [everywhere_cons] at holds
    obtain ⟨here, below, others⟩ := holds
    rw [upsert]
    split
    next same =>
      obtain ⟨atP, belowP⟩ := filled p (by simp) same
      exact everywhere_cons.mpr ⟨atP, belowP, others⟩
    next =>
      exact everywhere_cons.mpr ⟨here, below, ih others fun q member => filled q (by simp [member])⟩

/-- The condition holds of a filled gap if it holds of the gap and of what fills it. -/
def Fills (P : Property → Prop) : Prop :=
  ∀ own p : Property, own.key = p.key → P own → P p → Everywhere P (inherit own.attributes p.attributes) →
    P (filledFrom own p)

theorem everywhere_inherit (fills : Fills P) : ∀ {layer own : List Property},
    Everywhere P own → Everywhere P layer → Everywhere P (inherit own layer)
  | [], own, ofOwn, _ => by simpa using ofOwn
  | p :: rest, own, ofOwn, ofLayer => by
    rw [everywhere_cons] at ofLayer
    obtain ⟨here, below, others⟩ := ofLayer
    rw [inherit_cons]
    refine everywhere_inherit fills (everywhere_upsert ofOwn ⟨here, below⟩ fun q member same => ?_) others
    obtain ⟨atQ, belowQ⟩ := everywhere_iff.mp ofOwn q member
    have smaller := sizeOf_attributes_lt p rest
    have nested := everywhere_inherit fills belowQ below
    refine ⟨fills q p same atQ here nested, ?_⟩
    by_cases typed : q.typeName.isSome
    · rwa [filledFrom_of_typed typed]
    · rwa [filledFrom_of_typeless (by simpa using typed)]
  termination_by layer => sizeOf layer

def isValued (property : Property) : Bool := property.value.isSome || !property.values.isEmpty

theorem namesView_iff {property : Property} :
    property.namesView ↔ property.typeName = none ∧ ¬property.isValued := by
  simp [namesView, isValued, isTypeless, and_assoc]

/-- What has a value has a type. -/
def Solid : List Property → Prop := Everywhere fun p => p.isValued → p.typeName.isSome

/-- Below a layout what has a value has a type. -/
def Tame : List Property → Prop := Everywhere fun p => p.key = layoutKey → Solid p.attributes

def NamesIn (keys : String → Prop) : List Property → Prop :=
  Everywhere fun p => p.namesView → keys p.key

instance : DecidablePred Solid := fun properties => decidableEverywhere _ properties

instance : DecidablePred Tame := fun properties => decidableEverywhere _ properties

theorem isValued_filledFrom (own p : Property) : (filledFrom own p).isValued = own.isValued := by
  cases p; rw [filledFrom]; split <;> rfl

theorem typeName_filledFrom {own p : Property} (typed : own.typeName.isSome) :
    (filledFrom own p).typeName.isSome := by
  rwa [filledFrom_of_typed typed]

theorem typeless_of_filledFrom {own p : Property} (typeless : (filledFrom own p).typeName = none) :
    own.typeName = none ∧ p.typeName = none := by
  by_cases typed : own.typeName.isSome
  · rw [filledFrom_of_typed typed] at typeless
    simp [typeless] at typed
  · have ownTypeless : own.typeName = none := by simpa using typed
    rw [filledFrom_of_typeless ownTypeless] at typeless
    exact ⟨ownTypeless, typeless⟩

theorem solid_inherit {own layer : List Property} (ofOwn : Solid own) (ofLayer : Solid layer) :
    Solid (inherit own layer) := by
  refine everywhere_inherit ?_ ofOwn ofLayer
  intro o p _ ofO _ _ valued
  rw [isValued_filledFrom] at valued
  exact typeName_filledFrom (ofO valued)

theorem Solid.tame {properties : List Property} (solid : Solid properties) : Tame properties :=
  Everywhere.imp solid fun _ _ below _ => below

theorem tame_inherit {own layer : List Property} (ofOwn : Tame own) (ofLayer : Tame layer) :
    Tame (inherit own layer) := by
  refine everywhere_inherit ?_ ofOwn ofLayer
  intro o p same ofO ofP _ isLayout
  rw [filledFrom_key] at isLayout
  by_cases typed : o.typeName.isSome
  · rw [filledFrom_of_typed typed]
    exact ofO isLayout
  · rw [filledFrom_of_typeless (by simpa using typed)]
    exact solid_inherit (ofO isLayout) (ofP (same ▸ isLayout))

theorem namesIn_inherit {keys : String → Prop} {own layer : List Property} (ofOwn : NamesIn keys own)
    (ofLayer : NamesIn keys layer) : NamesIn keys (inherit own layer) := by
  refine everywhere_inherit ?_ ofOwn ofLayer
  intro o p _ ofO _ _ names
  obtain ⟨typeless, unvalued⟩ := namesView_iff.mp names
  rw [isValued_filledFrom] at unvalued
  rw [filledFrom_key]
  exact ofO (namesView_iff.mpr ⟨(typeless_of_filledFrom typeless).1, unvalued⟩)

end Requirements.Property
