import Requirements.Proofs.Layering
import Requirements.Property.Inherit

/-! Layers of inherited properties. As long as no siblings repeat a key, inheriting is
associative, and a layer that was inherited once adds nothing when it comes again. Hence
layers may be taken one by one or joined beforehand. -/
namespace Requirements.Property

mutual

def DistinctBelow : Property → Prop
  | ⟨_, _, _, _, _, _, attributes⟩ => Distinct attributes

def Distinct : List Property → Prop
  | [] => True
  | p :: rest => (∀ q ∈ rest, q.key ≠ p.key) ∧ DistinctBelow p ∧ Distinct rest

end

mutual

instance decidableDistinctBelow : (p : Property) → Decidable (DistinctBelow p)
  | ⟨_, _, _, _, _, _, attributes⟩ => decidableDistinct attributes

instance decidableDistinct : (properties : List Property) → Decidable (Distinct properties)
  | [] => .isTrue trivial
  | p :: rest =>
    have := decidableDistinctBelow p
    have := decidableDistinct rest
    inferInstanceAs (Decidable ((∀ q ∈ rest, q.key ≠ p.key) ∧ DistinctBelow p ∧ Distinct rest))

end

@[simp] theorem distinct_nil : Distinct [] := by rw [Distinct]; trivial

@[simp] theorem distinct_cons {p : Property} {rest : List Property} :
    Distinct (p :: rest) ↔
      (∀ q ∈ rest, q.key ≠ p.key) ∧ Distinct p.attributes ∧ Distinct rest := by
  cases p; rw [Distinct, DistinctBelow]

def without (key : String) (properties : List Property) : List Property :=
  properties.filter (·.key != key)

@[simp] theorem without_nil (key : String) : without key [] = [] := rfl

@[simp] theorem without_cons_self (p : Property) (rest : List Property) :
    without p.key (p :: rest) = without p.key rest := by simp [without]

theorem without_cons_of_ne {key : String} {p : Property} (other : p.key ≠ key)
    (rest : List Property) : without key (p :: rest) = p :: without key rest := by
  simp [without, other]

theorem mem_without {key : String} {properties : List Property} {p : Property} :
    p ∈ without key properties ↔ p ∈ properties ∧ p.key ≠ key := by
  simp [without]

theorem without_eq_self {key : String} {properties : List Property}
    (absent : ∀ p ∈ properties, p.key ≠ key) : without key properties = properties := by
  simpa [without] using absent

theorem without_comm (first second : String) (properties : List Property) :
    without first (without second properties) = without second (without first properties) := by
  simp only [without, List.filter_filter, Bool.and_comm]

theorem without_without (key : String) (properties : List Property) :
    without key (without key properties) = without key properties := by
  simp [without, List.filter_filter]

theorem find?_without_of_ne {key other : String} (differ : key ≠ other)
    (properties : List Property) : find? key (without other properties) = find? key properties := by
  induction properties with
  | nil => rfl
  | cons p rest ih =>
    by_cases same : p.key = other
    · subst same
      rw [without_cons_self, ih]
      simp [find?, Ne.symm differ]
    · rw [without_cons_of_ne same]
      by_cases found : p.key = key
      · simp [find?, found]
      · simpa [find?, found] using ih

theorem distinct_without {properties : List Property} (distinct : Distinct properties)
    (key : String) : Distinct (without key properties) := by
  induction properties with
  | nil => exact distinct
  | cons p rest ih =>
    rw [distinct_cons] at distinct
    by_cases same : p.key = key
    · subst same
      rw [without_cons_self]
      exact ih distinct.2.2
    · rw [without_cons_of_ne same, distinct_cons]
      exact ⟨fun q member => distinct.1 q (mem_without.mp member).1, distinct.2.1,
        ih distinct.2.2⟩

theorem find?_eq_none {key : String} {properties : List Property} :
    find? key properties = none ↔ ∀ p ∈ properties, p.key ≠ key := by
  simp [find?]

theorem key_of_find? {key : String} {properties : List Property} {p : Property}
    (found : find? key properties = some p) : p.key = key := by
  simpa using List.find?_some found

theorem mem_of_find? {key : String} {properties : List Property} {p : Property}
    (found : find? key properties = some p) : p ∈ properties :=
  List.mem_of_find?_eq_some found

theorem distinct_attributes {properties : List Property} (distinct : Distinct properties)
    {p : Property} (member : p ∈ properties) : Distinct p.attributes := by
  induction properties with
  | nil => cases member
  | cons q rest ih =>
    rw [distinct_cons] at distinct
    rcases List.mem_cons.mp member with rfl | member
    · exact distinct.2.1
    · exact ih distinct.2.2 member

theorem filledFrom_of_typeless {own : Property} (typeless : own.typeName = none) (p : Property) :
    filledFrom own p =
      { own with
        typeName := p.typeName
        presence := own.presence <|> p.presence
        listOf := if p.typeName.isSome then p.listOf else own.listOf
        attributes := inherit own.attributes p.attributes } := by
  cases p
  rw [filledFrom, if_neg (by simp [typeless])]

def filledIn (layer : List Property) (own : Property) : Property :=
  match find? own.key layer with
  | some p => filledFrom own p
  | none => own

@[simp] theorem filledIn_nil (own : Property) : filledIn [] own = own := rfl

theorem filledIn_of_find? {layer : List Property} {own p : Property}
    (found : find? own.key layer = some p) : filledIn layer own = filledFrom own p := by
  rw [filledIn, found]

theorem filledIn_of_absent {layer : List Property} {own : Property}
    (absent : find? own.key layer = none) : filledIn layer own = own := by
  rw [filledIn, absent]

@[simp] theorem filledIn_key (layer : List Property) (own : Property) :
    (filledIn layer own).key = own.key := by
  rw [filledIn]; split <;> simp

theorem filledIn_without_of_ne {key : String} {own : Property} (other : own.key ≠ key)
    (layer : List Property) : filledIn (without key layer) own = filledIn layer own := by
  rw [filledIn, find?_without_of_ne other, filledIn]

/-- The first property takes its part of the layer, and the others take the rest. -/
theorem inherit_cons_own {layer : List Property} (distinct : Distinct layer) (p : Property)
    (own : List Property) :
    inherit (p :: own) layer = filledIn layer p :: inherit own (without p.key layer) := by
  induction layer generalizing p own with
  | nil => simp
  | cons q rest ih =>
    rw [distinct_cons] at distinct
    rw [inherit_cons]
    by_cases same : p.key = q.key
    · have absent : find? (filledFrom p q).key rest = none := by
        rw [filledFrom_key, same, find?_eq_none]
        exact distinct.1
      have found : find? p.key (q :: rest) = some q := by simp [find?, same]
      rw [upsert, if_pos same, ih distinct.2.2, filledIn_of_absent absent,
        filledIn_of_find? found, filledFrom_key, same, without_cons_self]
    · have differ : q.key ≠ p.key := fun h => same h.symm
      have skipped : filledIn (q :: rest) p = filledIn rest p := by
        simp [filledIn, find?, differ]
      rw [upsert, if_neg same, ih distinct.2.2, skipped, without_cons_of_ne differ, inherit_cons]

theorem inherit_of_nil {layer : List Property} (distinct : Distinct layer) :
    inherit [] layer = layer := by
  induction layer with
  | nil => simp
  | cons q rest ih =>
    rw [distinct_cons] at distinct
    have absent : find? q.key rest = none := find?_eq_none.mpr distinct.1
    rw [inherit_cons, upsert, inherit_cons_own distinct.2.2, filledIn_of_absent absent,
      without_eq_self distinct.1, ih distinct.2.2]

theorem find?_inherit {layer : List Property} (distinct : Distinct layer) (key : String)
    (own : List Property) :
    find? key (inherit own layer) =
      match find? key own with
      | some p => some (filledIn layer p)
      | none => find? key layer := by
  induction own generalizing layer with
  | nil => rw [inherit_of_nil distinct]; rfl
  | cons p own ih =>
    rw [inherit_cons_own distinct]
    by_cases same : p.key = key
    · simp [find?, same]
    · have skipOwn : find? key (p :: own) = find? key own := by simp [find?, same]
      have skip : find? key (filledIn layer p :: inherit own (without p.key layer)) =
          find? key (inherit own (without p.key layer)) := by simp [find?, same]
      rw [skip, skipOwn, ih (distinct_without distinct _)]
      cases found : find? key own with
      | none => exact find?_without_of_ne (Ne.symm same) layer
      | some q =>
        have differ : q.key ≠ p.key := by rw [key_of_find? found]; exact Ne.symm same
        simp only [filledIn_without_of_ne differ]

theorem without_inherit {layer : List Property} (distinct : Distinct layer) (key : String)
    (own : List Property) :
    without key (inherit own layer) = inherit (without key own) (without key layer) := by
  induction own generalizing layer with
  | nil => rw [inherit_of_nil distinct, without_nil, inherit_of_nil (distinct_without distinct key)]
  | cons p own ih =>
    rw [inherit_cons_own distinct]
    by_cases same : p.key = key
    · subst same
      have head := without_cons_self (filledIn layer p) (inherit own (without p.key layer))
      rw [filledIn_key] at head
      rw [head, ih (distinct_without distinct _), without_without, without_cons_self]
    · have head : (filledIn layer p).key ≠ key := by rwa [filledIn_key]
      rw [without_cons_of_ne head, ih (distinct_without distinct _), without_cons_of_ne same,
        inherit_cons_own (distinct_without distinct key), filledIn_without_of_ne same, without_comm]

/-- What is inherited brings no key that neither side has. -/
theorem key_of_mem_inherit {layer : List Property} (distinct : Distinct layer)
    {own : List Property} {p : Property} (member : p ∈ inherit own layer) :
    (∃ q ∈ own, q.key = p.key) ∨ ∃ q ∈ layer, q.key = p.key := by
  induction own generalizing layer with
  | nil =>
    rw [inherit_of_nil distinct] at member
    exact .inr ⟨p, member, rfl⟩
  | cons o own ih =>
    rw [inherit_cons_own distinct] at member
    rcases List.mem_cons.mp member with rfl | member
    · exact .inl ⟨o, by simp, by simp⟩
    · rcases ih (distinct_without distinct _) member with ⟨q, inOwn, same⟩ | ⟨q, inLayer, same⟩
      · exact .inl ⟨q, by simp [inOwn], same⟩
      · exact .inr ⟨q, (mem_without.mp inLayer).1, same⟩

theorem sizeOf_attributes_lt (p : Property) (rest : List Property) :
    sizeOf p.attributes < sizeOf (p :: rest) := by
  cases p; simp; omega

theorem sizeOf_attributes_of_mem {p : Property} {properties : List Property} (member : p ∈ properties) :
    sizeOf p.attributes < sizeOf properties := by
  have := List.sizeOf_lt_of_mem member
  cases p
  simp at this ⊢
  omega

/-- Siblings stay distinct when distinct layers are inherited. -/
theorem distinct_inherit : ∀ {own layer : List Property}, Distinct own → Distinct layer →
    Distinct (inherit own layer)
  | [], layer, _, ofLayer => by rwa [inherit_of_nil ofLayer]
  | p :: own, layer, ofOwn, ofLayer => by
    rw [distinct_cons] at ofOwn
    obtain ⟨fresh, below, ofRest⟩ := ofOwn
    rw [inherit_cons_own ofLayer, distinct_cons]
    refine ⟨fun q member => ?_, ?_, distinct_inherit ofRest (distinct_without ofLayer _)⟩
    · rw [filledIn_key]
      rcases key_of_mem_inherit (distinct_without ofLayer _) member with
        ⟨o, inOwn, same⟩ | ⟨o, inLayer, same⟩
      · exact same ▸ fresh o inOwn
      · exact same ▸ (mem_without.mp inLayer).2
    · cases found : find? p.key layer with
      | none => rwa [filledIn_of_absent found]
      | some q =>
        rw [filledIn_of_find? found]
        by_cases typed : p.typeName.isSome
        · rwa [filledFrom_of_typed typed]
        · have smaller := sizeOf_attributes_lt p own
          rw [filledFrom_of_typeless (by simpa using typed)]
          exact distinct_inherit below (distinct_attributes ofLayer (mem_of_find? found))
  termination_by own => sizeOf own

theorem filledFrom_assoc {own p q : Property}
    (nested : inherit (inherit own.attributes p.attributes) q.attributes =
      inherit own.attributes (inherit p.attributes q.attributes)) :
    filledFrom (filledFrom own p) q = filledFrom own (filledFrom p q) := by
  by_cases ownTyped : own.typeName.isSome
  · rw [filledFrom_of_typed ownTyped, filledFrom_of_typed ownTyped, filledFrom_of_typed ownTyped]
  have ownTypeless : own.typeName = none := by simpa using ownTyped
  by_cases typed : p.typeName.isSome
  · have filled : (filledFrom own p).typeName.isSome := by
      rwa [filledFrom_of_typeless ownTypeless]
    rw [filledFrom_of_typed filled, filledFrom_of_typed typed]
  have typeless : p.typeName = none := by simpa using typed
  have filled : (filledFrom own p).typeName = none := by
    rwa [filledFrom_of_typeless ownTypeless]
  rw [filledFrom_of_typeless filled, filledFrom_of_typeless typeless,
    filledFrom_of_typeless ownTypeless, filledFrom_of_typeless ownTypeless]
  cases q.typeName <;> simp [nested, typeless, Option.orElse_eq_orElse] <;>
    cases own.presence <;> rfl

/-- Two layers may be joined before they are inherited. -/
theorem inherit_assoc : ∀ (own : List Property) {first second : List Property},
    Distinct first → Distinct second →
      inherit (inherit own first) second = inherit own (inherit first second)
  | [], first, second, ofFirst, ofSecond => by
    rw [inherit_of_nil ofFirst, inherit_of_nil (distinct_inherit ofFirst ofSecond)]
  | p :: own, first, second, ofFirst, ofSecond => by
    have rest := inherit_assoc own (distinct_without ofFirst p.key) (distinct_without ofSecond p.key)
    have head : filledIn second (filledIn first p) = filledIn (inherit first second) p := by
      have combined := find?_inherit ofSecond p.key first
      cases found : find? p.key first with
      | none =>
        rw [found] at combined
        rw [filledIn_of_absent found, filledIn, filledIn, combined]
      | some q =>
        rw [found] at combined
        rw [filledIn_of_find? found, filledIn_of_find? combined]
        cases later : find? p.key second with
        | none =>
          rw [filledIn_of_absent (by rwa [filledFrom_key]),
            filledIn_of_absent (by rwa [key_of_find? found])]
        | some r =>
          rw [filledIn_of_find? (by rwa [filledFrom_key]),
            filledIn_of_find? (by rwa [key_of_find? found])]
          have smaller := sizeOf_attributes_lt p own
          exact filledFrom_assoc (inherit_assoc p.attributes
            (distinct_attributes ofFirst (mem_of_find? found))
            (distinct_attributes ofSecond (mem_of_find? later)))
    rw [inherit_cons_own ofFirst, inherit_cons_own ofSecond, filledIn_key, rest, head,
      inherit_cons_own (distinct_inherit ofFirst ofSecond), without_inherit ofSecond]
  termination_by own => sizeOf own

theorem filledFrom_self_of_nested {own p : Property}
    (nested : inherit own.attributes p.attributes = own.attributes)
    (presence : own.presence = none → p.presence = none)
    (typeless : own.typeName = none → p.typeName = none) : filledFrom own p = own := by
  by_cases typed : own.typeName.isSome
  · exact filledFrom_of_typed typed p
  have ownTypeless : own.typeName = none := by simpa using typed
  rw [filledFrom_of_typeless ownTypeless, nested, typeless ownTypeless]
  obtain ⟨key, typeName, given, value, listOf, values, attributes⟩ := own
  cases given with
  | none => simp_all
  | some given => simp_all

/-- A layer adds nothing when it comes again behind another one. -/
theorem inherit_inherit_self : ∀ {first second : List Property}, Distinct first → Distinct second →
    inherit (inherit first second) first = inherit first second
  | [], _, _, _ => inherit_nil _
  | p :: rest, second, ofFirst, ofSecond => by
    have ofWhole := ofFirst
    rw [distinct_cons] at ofFirst
    obtain ⟨fresh, below, ofRest⟩ := ofFirst
    have tail := inherit_inherit_self ofRest (distinct_without ofSecond p.key)
    have smaller := sizeOf_attributes_lt p rest
    have head : filledFrom (filledIn second p) p = filledIn second p := by
      cases found : find? p.key second with
      | none =>
        have alone := inherit_inherit_self below distinct_nil
        rw [filledIn_of_absent found]
        exact filledFrom_self_of_nested (by simpa using alone) id id
      | some q =>
        have ofNested := distinct_attributes ofSecond (mem_of_find? found)
        rw [filledIn_of_find? found]
        by_cases typed : p.typeName.isSome
        · rw [filledFrom_of_typed typed, filledFrom_of_typed typed]
        have typeless : p.typeName = none := by simpa using typed
        rw [filledFrom_of_typeless typeless]
        refine filledFrom_self_of_nested (inherit_inherit_self below ofNested) ?_ fun _ => typeless
        cases p.presence <;> simp
    have found : find? (filledIn second p).key (p :: rest) = some p := by simp [find?]
    rw [inherit_cons_own ofSecond, inherit_cons_own ofWhole, filledIn_of_find? found, filledIn_key,
      without_cons_self, without_eq_self fresh, tail, head]
  termination_by first => sizeOf first

/-- What was inherited before adds nothing when it comes again. -/
theorem inherit_again (own : List Property) {first second : List Property}
    (ofFirst : Distinct first) (ofSecond : Distinct second) :
    inherit (inherit (inherit own first) second) first = inherit (inherit own first) second := by
  rw [inherit_assoc own ofFirst ofSecond,
    inherit_assoc own (distinct_inherit ofFirst ofSecond) ofFirst,
    inherit_inherit_self ofFirst ofSecond]

theorem layering : Layering inherit Distinct where
  fit := distinct_inherit
  assoc ofFirst ofSecond := inherit_assoc _ ofFirst ofSecond
  once own _ distinct := by simpa using inherit_again own distinct distinct_nil
  again own _ _ ofFirst ofSecond := inherit_again own ofFirst ofSecond

/-- Layers may be inherited one by one or joined beforehand, and one that comes again behind the others
adds nothing. Only the layers must not repeat a key; whoever inherits them may. -/
theorem inherit_joined_layers (own : List Property) {first second : List Property}
    (ofFirst : Distinct first) (ofSecond : Distinct second) :
    inherit own (inherit first second) = inherit (inherit own first) second ∧
      inherit (inherit (inherit own first) second) first = inherit (inherit own first) second :=
  ⟨(inherit_assoc own ofFirst ofSecond).symm, inherit_again own ofFirst ofSecond⟩

def address : List Property :=
  [{ key := "address", attributes := [{ key := "street" }, { key := "zip", typeName := some "Text" }] }]

def cityAddress : List Property :=
  [{ key := "address"
     attributes := [{ key := "city" }, { key := "street", typeName := some "String", presence := some .optional }] },
    { key := "country" }]

theorem inherit_joined_layers_address : Distinct address ∧ Distinct cityAddress ∧
    inherit (address ++ address) (inherit address cityAddress) =
      inherit (inherit (address ++ address) address) cityAddress ∧
    inherit (inherit (inherit (address ++ address) address) cityAddress) address =
      inherit (inherit (address ++ address) address) cityAddress :=
  have ofFirst : Distinct address := by decide
  have ofSecond : Distinct cityAddress := by decide
  ⟨ofFirst, ofSecond, inherit_joined_layers (address ++ address) ofFirst ofSecond⟩

end Requirements.Property
