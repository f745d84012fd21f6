import Requirements.Element
import Requirements.Proofs.Property.Layers

/-! Properties that are kept. What is inherited comes behind or fills gaps, so the old
properties stay where they were, at every depth, with what they had. -/
namespace Requirements
namespace Property

/-- What a property has of its own stays. Only gaps are filled: a property with a type does
not change, unless it is a layout, whose attributes may. -/
structure Stays (old new : Property) : Prop where
  key : new.key = old.key
  value : new.value = old.value
  values : new.values = old.values
  presence : old.presence.isSome → new.presence = old.presence
  typed : old.typeName.isSome →
    new.typeName = old.typeName ∧ new.listOf = old.listOf ∧ new.presence = old.presence
  closed : old.typeName.isSome → old.key ≠ layoutKey → new = old

/-- Each old property stays at its position, and its attributes are kept in turn. -/
inductive Kept : List Property → List Property → Prop
  | nil (added : List Property) : Kept [] added
  | cons {old new : Property} {olds news : List Property} (stays : Stays old new)
      (attributes : Kept old.attributes new.attributes) (rest : Kept olds news) :
      Kept (old :: olds) (new :: news)

theorem Stays.refl (property : Property) : Stays property property :=
  ⟨rfl, rfl, rfl, fun _ => rfl, fun _ => ⟨rfl, rfl, rfl⟩, fun _ _ => rfl⟩

theorem Stays.trans {a b c : Property} (first : Stays a b) (second : Stays b c) : Stays a c where
  key := second.key.trans first.key
  value := second.value.trans first.value
  values := second.values.trans first.values
  presence set := by
    have before := first.presence set
    rw [second.presence (before ▸ set), before]
  typed typed := by
    obtain ⟨sameType, sameMark, samePresence⟩ := first.typed typed
    obtain ⟨laterType, laterMark, laterPresence⟩ := second.typed (sameType ▸ typed)
    exact ⟨laterType.trans sameType, laterMark.trans sameMark, laterPresence.trans samePresence⟩
  closed typed other := by
    have same := first.closed typed other
    subst same
    exact second.closed typed other

theorem Kept.refl : ∀ properties : List Property, Kept properties properties
  | [] => .nil []
  | p :: rest => by
    have smaller := sizeOf_attributes_lt p rest
    exact .cons (.refl p) (Kept.refl p.attributes) (Kept.refl rest)
  termination_by properties => sizeOf properties

theorem Kept.trans {a b c : List Property} (first : Kept a b) (second : Kept b c) : Kept a c := by
  induction first generalizing c with
  | nil => exact .nil c
  | cons stays _ _ ofAttributes ofRest =>
    cases second with
    | cons staysOn attributes rest =>
      exact .cons (stays.trans staysOn) (ofAttributes attributes) (ofRest rest)

/-- The first property of a key is still the first. -/
theorem Kept.find? {olds news : List Property} (kept : Kept olds news) {key : String} {old : Property}
    (found : Property.find? key olds = some old) :
    ∃ new, Property.find? key news = some new ∧ Stays old new ∧
      Kept old.attributes new.attributes := by
  induction kept with
  | nil => cases found
  | @cons first new _ _ stays attributes _ _ ih =>
    by_cases here : first.key = key
    · obtain rfl : first = old := by simpa [Property.find?, here] using found
      exact ⟨new, by simp [Property.find?, stays.key, here], stays, attributes⟩
    · obtain ⟨later, foundLater, holds⟩ := ih (by simpa [Property.find?, here] using found)
      exact ⟨later, by simpa [Property.find?, stays.key, here] using foundLater, holds⟩

theorem kept_upsert {fill : Property → Property} {fresh : Property}
    (fills : ∀ q, Stays q (fill q) ∧ Kept q.attributes (fill q).attributes) (own : List Property) :
    Kept own (upsert fill fresh own) := by
  induction own with
  | nil => exact .nil _
  | cons p rest ih =>
    rw [upsert]
    split
    · exact .cons (fills p).1 (fills p).2 (.refl rest)
    · exact .cons (.refl p) (.refl p.attributes) ih

theorem stays_filledFrom (own p : Property) : Stays own (filledFrom own p) := by
  by_cases typed : own.typeName.isSome
  · rw [filledFrom_of_typed typed]
    exact .refl own
  · have typeless : own.typeName = none := by simpa using typed
    rw [filledFrom_of_typeless typeless]
    refine ⟨rfl, rfl, rfl, fun set => ?_, fun typed => ?_, fun typed => ?_⟩
    · obtain ⟨presence, own⟩ := Option.isSome_iff_exists.mp set
      simp [own]
    all_goals simp [typeless] at typed

/-- Inheriting keeps what is there, whatever comes in. -/
theorem kept_inherit : ∀ layer own : List Property, Kept own (inherit own layer)
  | [], own => by simpa using Kept.refl own
  | p :: rest, own => by
    have smaller := sizeOf_attributes_lt p rest
    rw [inherit_cons]
    refine (kept_upsert (fun q => ⟨stays_filledFrom q p, ?_⟩) own).trans (kept_inherit rest _)
    by_cases typed : q.typeName.isSome
    · rw [filledFrom_of_typed typed]
      exact .refl _
    · rw [filledFrom_of_typeless (by simpa using typed)]
      exact kept_inherit p.attributes q.attributes
  termination_by layer => sizeOf layer

/-- Only the first property of the key changes. -/
theorem kept_modifyFirst {key : String} {change : Property → Property} {own : List Property}
    (changes : ∀ p, Property.find? key own = some p →
      Stays p (change p) ∧ Kept p.attributes (change p).attributes) :
    Kept own (modifyFirst key change own) := by
  induction own with
  | nil => exact .nil _
  | cons p rest ih =>
    rw [modifyFirst]
    split
    next here =>
      obtain ⟨stays, attributes⟩ := changes p (by simp [Property.find?, here])
      exact .cons stays attributes (.refl rest)
    next other =>
      refine .cons (.refl p) (.refl p.attributes) (ih fun q found => changes q ?_)
      simpa [Property.find?, other] using found

/-- A layout and a property without a type may get other attributes. -/
theorem stays_holding {property : Property} (isOpen : property.key = layoutKey ∨ property.typeName = none)
    (attributes : List Property) : Stays property { property with attributes } := by
  refine ⟨rfl, rfl, rfl, fun _ => rfl, fun _ => ⟨rfl, rfl, rfl⟩, fun typed other => ?_⟩
  rcases isOpen with isLayout | typeless
  · exact absurd isLayout other
  · simp [typeless] at typed

theorem Stays.bindingOf? {old new : Property} (stays : Stays old new) {binding : Binding}
    (binds : Element.bindingOf? old = some binding) : Element.bindingOf? new = some binding := by
  rw [Element.bindingOf?, stays.key, stays.value]
  rw [Element.bindingOf?] at binds
  cases value : old.value with
  | some => simpa [value] using binds
  | none =>
    have typed : old.typeName.isSome := by
      cases typeName : old.typeName <;> simp_all
    rw [(stays.typed typed).1]
    simpa [value] using binds

theorem Kept.mem_bindings {olds news : List Property} (kept : Kept olds news) {binding : Binding}
    (bound : binding ∈ olds.filterMap Element.bindingOf?) :
    binding ∈ news.filterMap Element.bindingOf? := by
  induction kept with
  | nil => cases bound
  | cons stays _ _ _ ih =>
    rw [List.filterMap_cons] at bound
    rw [List.filterMap_cons]
    split at bound
    next =>
      have later := ih bound
      split <;> simp [later]
    next _ binds =>
      rw [stays.bindingOf? binds]
      rcases List.mem_cons.mp bound with rfl | behind
      · simp
      · simp [ih behind]

end Property

/-- An event that is bound to an action stays bound to it. -/
theorem Element.mem_bindings_of_kept {old new : Element}
    (kept : Property.Kept old.properties new.properties) {binding : Binding}
    (bound : binding ∈ old.bindings) : binding ∈ new.bindings := by
  rw [bindings] at bound
  split at bound
  next events found =>
    obtain ⟨later, foundLater, -, attributes⟩ := kept.find? found
    rw [bindings, foundLater]
    exact attributes.mem_bindings bound
  next => cases bound

end Requirements
