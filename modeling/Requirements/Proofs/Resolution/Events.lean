import Requirements.Proofs.Resolution.Passes

/-! Events that an element has heard of. Inheriting passes an event on unless the heir's
`events` property has a type, and never takes one away. So what an ancestor binds is bound
by its heirs, or is held back by a type or by an entry that names no handler. -/
namespace Requirements
namespace Property

theorem find?_upsert {fill : Property → Property} (keeps : ∀ p, (fill p).key = p.key)
    (fresh : Property) (key : String) (own : List Property) :
    find? key (upsert fill fresh own) =
      if fresh.key = key then some (((find? key own).map fill).getD fresh) else find? key own := by
  induction own with
  | nil =>
    rw [upsert]
    split <;> simp_all [find?]
  | cons p rest ih =>
    rw [upsert]
    split
    next same =>
      split
      next atKey => simp [find?, keeps, same, atKey]
      next atOther => simp [find?, keeps, same, atOther]
    next differ =>
      by_cases found : p.key = key
      · have other : fresh.key ≠ key := fun same => differ (found.trans same.symm)
        simp [find?, found, other]
      · have skip : find? key (p :: upsert fill fresh rest) = find? key (upsert fill fresh rest) := by
          simp [find?, found]
        have skipRest : find? key (p :: rest) = find? key rest := by simp [find?, found]
        rw [skip, skipRest, ih]

theorem mem_keys_upsert {fill : Property → Property} (keeps : ∀ p, (fill p).key = p.key)
    {fresh : Property} {key : String} {own : List Property} :
    key ∈ (upsert fill fresh own).map Property.key ↔ key ∈ own.map Property.key ∨ key = fresh.key := by
  induction own with
  | nil => simp [upsert]
  | cons p rest ih =>
    rw [upsert]
    split
    next same => simp [keeps, same, or_comm]
    next => simp only [List.map_cons, List.mem_cons, ih, or_assoc]

theorem mem_keys_inherit {key : String} {own layer : List Property} :
    key ∈ (inherit own layer).map Property.key ↔
      key ∈ own.map Property.key ∨ key ∈ layer.map Property.key := by
  induction layer generalizing own with
  | nil => simp
  | cons p rest ih =>
    rw [inherit_cons, ih, mem_keys_upsert fun q => filledFrom_key q p, List.map_cons, List.mem_cons,
      or_assoc]

def Hears (event : String) (properties : List Property) : Prop :=
  ∃ events, find? eventsKey properties = some events ∧
    (events.typeName.isSome ∨ event ∈ events.attributes.map Property.key)

theorem hears_filledFrom {event : String} {own p : Property}
    (hears : own.typeName.isSome ∨ event ∈ own.attributes.map Property.key ∨
      event ∈ p.attributes.map Property.key) :
    (filledFrom own p).typeName.isSome ∨ event ∈ (filledFrom own p).attributes.map Property.key := by
  by_cases typed : own.typeName.isSome
  · rw [filledFrom_of_typed typed]
    exact .inl typed
  · rw [filledFrom_of_typeless (by simpa using typed)]
    exact .inr (mem_keys_inherit.mpr (hears.resolve_left typed))

theorem hears_upsert {event : String} {own : List Property} (hears : Hears event own) (p : Property) :
    Hears event (upsert (filledFrom · p) p own) := by
  obtain ⟨events, found, has⟩ := hears
  rw [Hears, find?_upsert fun q => filledFrom_key q p, found]
  split
  next =>
    refine ⟨_, rfl, hears_filledFrom ?_⟩
    rcases has with typed | entry
    · exact .inl typed
    · exact .inr (.inl entry)
  next => exact ⟨events, rfl, has⟩

/-- An event once heard of stays. -/
theorem hears_inherit {event : String} {own : List Property} (hears : Hears event own)
    (layer : List Property) : Hears event (inherit own layer) := by
  induction layer generalizing own with
  | nil => simpa using hears
  | cons p rest ih =>
    rw [inherit_cons]
    exact ih (hears_upsert hears p)

/-- An event of a layer is passed on. -/
theorem hears_of_layer {event : String} {layer : List Property} {events : Property}
    (found : find? eventsKey layer = some events) (entry : event ∈ events.attributes.map Property.key)
    (own : List Property) : Hears event (inherit own layer) := by
  induction layer generalizing own with
  | nil => cases found
  | cons p rest ih =>
    rw [inherit_cons]
    by_cases here : p.key = eventsKey
    · obtain rfl : p = events := by simpa [find?, here] using found
      refine hears_inherit ?_ rest
      rw [Hears, find?_upsert fun q => filledFrom_key q p, if_pos here]
      refine ⟨_, rfl, ?_⟩
      cases find? eventsKey own with
      | none => exact .inr entry
      | some o => exact hears_filledFrom (.inr (.inr entry))
    · exact ih (by simpa [find?, here] using found) _

end Property

namespace Element

def Hears (event : String) (element : Element) : Prop := Property.Hears event element.properties

theorem hears_foldl_inherit {event : String} {own : Element} (hears : own.Hears event)
    (layers : List Element) : (layers.foldl Element.inherit own).Hears event := by
  induction layers generalizing own with
  | nil => exact hears
  | cons layer rest ih => exact ih (Property.hears_inherit hears layer.properties)

theorem key_of_bindingOf? {entry : Property} {binding : Binding}
    (binds : bindingOf? entry = some binding) : entry.key = binding.event := by
  obtain ⟨_, _, rfl⟩ := Option.map_eq_some_iff.mp binds
  rfl

/-- What one of its layers binds, an element has heard of. -/
theorem hears_of_mem {layers : List Element} {layer : Element} (member : layer ∈ layers)
    {binding : Binding} (bound : binding ∈ layer.bindings) (own : Element) :
    (layers.foldl Element.inherit own).Hears binding.event := by
  induction layers generalizing own with
  | nil => cases member
  | cons first rest ih =>
    rcases List.mem_cons.mp member with rfl | member
    · rw [List.foldl_cons]
      refine hears_foldl_inherit ?_ rest
      rw [bindings] at bound
      split at bound
      next events found =>
        obtain ⟨entry, inEvents, binds⟩ := List.mem_filterMap.mp bound
        refine Property.hears_of_layer found ?_ own.properties
        exact List.mem_map.mpr ⟨entry, inEvents, key_of_bindingOf? binds⟩
      next => cases bound
    · exact ih member _

/-- Of an event an element has heard of and binds no handler to, it is known what holds the
handler back. -/
theorem heldBack_of_hears {event : String} {element : Element} (hears : element.Hears event)
    (unbound : ∀ binding ∈ element.bindings, binding.event ≠ event) :
    ∃ events, Property.find? Property.eventsKey element.properties = some events ∧
      (events.typeName.isSome ∨ ∃ entry ∈ events.attributes,
        entry.key = event ∧ entry.value = none ∧ entry.typeName = none) := by
  obtain ⟨events, found, typed | member⟩ := hears
  · exact ⟨events, found, .inl typed⟩
  · obtain ⟨entry, inEvents, same⟩ := List.mem_map.mp member
    refine ⟨events, found, .inr ⟨entry, inEvents, same, ?_⟩⟩
    have noHandler : bindingOf? entry = none := by
      cases binds : bindingOf? entry with
      | none => rfl
      | some binding =>
        refine absurd ((key_of_bindingOf? binds).symm.trans same) (unbound binding ?_)
        rw [bindings, found]
        exact List.mem_filterMap.mpr ⟨entry, inEvents, binds⟩
    have neither := Option.map_eq_none_iff.mp noHandler
    cases value : entry.value <;> simp_all

end Element

namespace Resolution

def Retains (start final : Resolution) : Prop :=
  ∀ index element event, start.project.element? (.authored index) = some element →
    element.Hears event → ∃ later, final.project.element? (.authored index) = some later ∧
      later.Hears event

theorem Retains.refl (state : Resolution) : Retains state state :=
  fun _ element _ stands hears => ⟨element, stands, hears⟩

theorem Retains.trans {a b c : Resolution} (first : Retains a b) (second : Retains b c) :
    Retains a c := by
  intro index element event stands hears
  obtain ⟨later, standsLater, hears⟩ := first index element event stands hears
  exact second index later event standsLater hears

theorem Keeps.retains {start final : Resolution} (keeps : Keeps start final) :
    Retains start final := by
  intro index element event stands hears
  have same := Resolving.getElem?_map_uncounted keeps.authored index
  change start.project.authored.elements[index]? = some element at stands
  rw [stands] at same
  obtain ⟨later, standsLater, alike⟩ := Option.map_eq_some_iff.mp same
  refine ⟨later, standsLater, ?_⟩
  have properties : later.properties = element.properties := (congrArg Element.properties alike :)
  rwa [Element.Hears, properties]

theorem retains_modifyAuthored {change : Element → Element}
    (keeps : ∀ element event, element.Hears event → (change element).Hears event) (state : Resolution)
    (index : Nat) : Retains state (state.modifyAuthored index change) := by
  intro other element event stands hears
  rw [modifyAuthored, Project.element?_modify, stands]
  split
  · exact ⟨change element, rfl, keeps element event hears⟩
  · exact ⟨element, rfl, hears⟩

end Resolution

namespace Resolving

open Resolution

variable {settings : Settings} {start final : Resolution}

theorem retains_lineageTurn {index : Nat} {u : Unit}
    (ran : withAuthored (resolveLineage settings) index start = .ok u final) :
    Retains start final := by
  rcases withAuthored_ok.mp ran with ⟨-, rfl⟩ | ⟨element, stands, ran⟩
  · exact .refl _
  · obtain ⟨places, after, climbed, grew⟩ := resolveLineage_ok ran stands
    have took := retains_modifyAuthored (fun own event hears =>
      Element.hears_foldl_inherit hears (places.filterMap after.project.element?)) after index
    exact ((chain_ok climbed stands).1.keeps.retains.trans took).trans grew.keeps.retains

theorem retains_resolveFeatures (ran : overAuthored (resolveFeatures settings) start = .ok () final) :
    Retains start final := by
  refine respects_overAuthored .refl .trans (fun index user s t _ visited => ?_) ran
  refine forM_ok (R := Retains) .refl .trans (fun feature _ s t used => ?_) visited
  rw [resolveFeature] at used
  obtain ⟨answer, middle, resolved, used⟩ := bind_ok.mp used
  obtain ⟨grows, known⟩ := resolve_ok resolved (by simp)
  cases answer with
  | none =>
    obtain rfl := report_ok.mp used
    exact (grows.trans (grows_report _)).keeps.retains
  | some found =>
    obtain ⟨ancestors, after, climbed, took⟩ := bind_ok.mp used
    have onward := (chain_ok climbed (known?_some known).1).1
    apply (grows.trans onward).keeps.retains.trans
    refine forM_ok (R := Retains) .refl .trans (fun place _ s t gave => ?_) took
    have given := modify_ok.mp gave
    split at given
    · exact given ▸ .refl _
    · rw [← given]
      refine retains_modifyAuthored (fun own event hears => ?_) s index
      exact Property.hears_inherit hears _

theorem retains_resolveLayouts (ran : overAuthored (resolveLayout settings) start = .ok () final) :
    Retains start final := by
  refine respects_overAuthored .refl .trans (fun index element s t _ visited => ?_) ran
  obtain ⟨middle, change, grows, keeps, rfl⟩ := resolveLayout_ok visited
  refine grows.keeps.retains.trans (retains_modifyAuthored (fun own event hears => ?_) middle index)
  rw [Element.Hears, Property.Hears, find?_modifyFirst (by decide) keeps]
  exact hears

/-- In the end an authored element has heard of what the dependencies on its chain bind. -/
theorem hears_of_chain (ran : Resolving.all settings start = .ok () final) {index : Nat}
    {binder : Element} (stands : final.project.element? (.authored index) = some binder)
    {places : List Place} (turn : turnChain? settings start index = some places) {lender : Nat}
    (member : .dependency lender ∈ places) {layer : Element}
    (lends : final.project.element? (.dependency lender) = some layer) {binding : Binding}
    (bound : binding ∈ layer.bindings) : binder.Hears binding.event := by
  obtain ⟨lineaged, featured, typed, acted, lineages, features, types, actions, layouts⟩ := all_ok ran
  have behind : Extends lineaged final ∧ Retains lineaged final :=
    ⟨(((extends_resolveFeatures features).trans (grows_resolveTypes types).extends).trans
        (resolveActions_ok actions).1.extended).trans (resolveLayouts_ok layouts).1,
      (((retains_resolveFeatures features).trans (grows_resolveTypes types).keeps.retains).trans
        (resolveActions_ok actions).1.retains).trans (retains_resolveLayouts layouts)⟩
  have whole := (extends_resolveAncestors lineages).trans behind.1
  obtain ⟨former, standsFormer, -⟩ := whole.former stands
  have inside : index < start.project.authored.elements.length :=
    (List.getElem?_eq_some_iff.mp standsFormer).1
  obtain ⟨before, next, rest, first, ran, others, -⟩ := reached_turn (overAuthored_ok.mp lineages) inside
  rcases withAuthored_ok.mp ran with ⟨absent, rfl⟩ | ⟨element, present, ran⟩
  · have begun : Extends start before :=
      forM_ok (R := Extends) .refl .trans (fun _ _ _ _ turn => extends_lineageTurn turn) first
    have standsThere : start.project.element? (.authored index) = some former := standsFormer
    obtain ⟨later, standsLater, -⟩ := begun.element? standsThere
    rw [standsLater] at absent
    cases absent
  · obtain ⟨resolved, after, climbed, grew⟩ := resolveLineage_ok ran present
    obtain rfl := Option.some.inj ((turnChain?_eq_some first present climbed).symm.trans turn)
    obtain ⟨grows, out, -⟩ := chain_ok climbed present
    have took := extends_modifyAuthored (fun own =>
      Element.outline_foldl_inherit own (resolved.filterMap after.project.element?)) after index
    have onward : Extends next lineaged :=
      forM_ok (R := Extends) .refl .trans (fun _ _ _ _ turn => extends_lineageTurn turn) others
    have keptOn : Retains next lineaged :=
      forM_ok (R := Retains) .refl .trans (fun _ _ _ _ turn => retains_lineageTurn turn) others
    obtain ⟨layerThen, stood⟩ := out.climbs.stands member
    obtain ⟨layerNow, standsNow, alike⟩ :=
      (((took.trans grew.extends).trans onward).trans behind.1).dependency stood
    have isLayer : layer = layerNow := Option.some.inj (lends.symm.trans standsNow)
    have sameBindings : layerNow.bindings = layerThen.bindings := (congrArg Element.bindings alike :)
    rw [isLayer, sameBindings] at bound
    obtain ⟨own, ownStands, -⟩ := grows.element? present
    have inLayers : layerThen ∈ resolved.filterMap after.project.element? :=
      List.mem_filterMap.mpr ⟨_, member, stood⟩
    have hears := Element.hears_of_mem inLayers bound own
    have standsModified : (after.modifyAuthored index fun own =>
        (resolved.filterMap after.project.element?).foldl Element.inherit own).project.element?
          (.authored index) =
        some ((resolved.filterMap after.project.element?).foldl Element.inherit own) := by
      rw [modifyAuthored, Project.element?_modify, if_pos rfl, ownStands, Option.map_some]
    obtain ⟨last, standsLast, hears⟩ :=
      ((grew.keeps.retains.trans keptOn).trans behind.2) index _ _ standsModified hears
    obtain rfl := Option.some.inj (standsLast.symm.trans stands)
    exact hears

end Resolving
end Requirements
