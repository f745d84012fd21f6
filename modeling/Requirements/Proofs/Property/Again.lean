import Mathlib.Data.List.Flatten
import Requirements.Proofs.Property.Everywhere
import Requirements.Proofs.Property.Gaps

/-! Inheriting a layer again. It adds nothing where properties are saturated with it: the first of
each key has all that the layer's properties of that key could give it. A new property is taken over
with its attributes as they are. If these repeat a key, then the first of them may be filled from the
others, but only when the layer comes again. -/
namespace Requirements.Property

/-- Each property of the layer adds nothing to the first of its key that is there. -/
def Saturated (own layer : List Property) : Prop :=
  ∀ q ∈ layer, ∃ p, find? q.key own = some p ∧ filledFrom p q = p

def joined : List Property → Option Property
  | [] => none
  | p :: rest => some (filledWith p rest)

def entries (key : String) (own layer : List Property) : List Property :=
  (find? key own).toList ++ ofKey key layer

/-- No property without a type repeats a key among its attributes. -/
def Unrepeated : List Property → Prop :=
  Everywhere fun p => p.typeName = none → (p.attributes.map key).Nodup

instance : DecidablePred Unrepeated := fun properties => decidableEverywhere _ properties

/-! ### What a property is made of -/

theorem find?_cons_self (p : Property) (rest : List Property) : find? p.key (p :: rest) = some p := by
  simp [find?]

theorem find?_cons_of_ne {key : String} {p : Property} (other : p.key ≠ key) (rest : List Property) :
    find? key (p :: rest) = find? key rest := by simp [find?, other]

theorem find?_of_nodup {own : List Property} (nodup : (own.map key).Nodup) {p : Property} (member : p ∈ own) :
    find? p.key own = some p := by
  induction own with
  | nil => cases member
  | cons o rest ih =>
    rw [List.map_cons, List.nodup_cons] at nodup
    rcases List.mem_cons.mp member with rfl | behind
    · exact find?_cons_self p rest
    · have differs : o.key ≠ p.key := fun same => nodup.1 (same ▸ List.mem_map_of_mem behind)
      rw [find?_cons_of_ne differs, ih nodup.2 behind]

theorem find?_inherit_nil_left (key : String) : ∀ layer : List Property,
    find? key (inherit [] layer) = joined (ofKey key layer)
  | [] => rfl
  | p :: rest => by
    have shorter : (without p.key rest).length ≤ rest.length := List.length_filter_le _ _
    rw [inherit_nil_cons]
    by_cases same : p.key = key
    · subst same
      rw [ofKey_cons_self]
      exact find?_cons_self (filledWith p (ofKey p.key rest)) _
    · rw [find?_cons_of_ne (p := filledWith p (ofKey p.key rest)) same,
        find?_inherit_nil_left key (without p.key rest), ofKey_cons_of_ne same,
        ofKey_without_of_ne (Ne.symm same)]
  termination_by layer => layer.length

theorem find?_inherit_eq_joined (key : String) (own layer : List Property) :
    find? key (inherit own layer) = joined (entries key own layer) := by
  induction own generalizing layer with
  | nil => exact find?_inherit_nil_left key layer
  | cons p own ih =>
    rw [inherit_cons_left, entries]
    by_cases same : p.key = key
    · subst same
      rw [find?_cons_self]
      exact find?_cons_self (filledWith p (ofKey p.key layer)) _
    · rw [find?_cons_of_ne (p := filledWith p (ofKey p.key layer)) same, ih, entries, find?_cons_of_ne same,
        ofKey_without_of_ne (Ne.symm same)]

theorem entries_subset (key : String) (own layer : List Property) : entries key own layer ⊆ own ++ layer := by
  intro p member
  rcases List.mem_append.mp member with inOwn | inLayer
  · exact List.mem_append_left layer (mem_of_find? (Option.mem_toList.mp inOwn))
  · exact List.mem_append_right own (mem_ofKey.mp inLayer).1

theorem typeName_filledFrom_eq_none {own p : Property} :
    (filledFrom own p).typeName = none ↔ own.typeName = none ∧ p.typeName = none := by
  refine ⟨typeless_of_filledFrom, fun ⟨typeless, gap⟩ => ?_⟩
  rwa [filledFrom_of_typeless typeless]

theorem typeName_filledWith_eq_none {own : Property} {offered : List Property} :
    (filledWith own offered).typeName = none ↔ ∀ q ∈ own :: offered, q.typeName = none := by
  induction offered generalizing own with
  | nil => simp
  | cons p rest ih =>
    rw [filledWith_cons, ih]
    simp only [List.forall_mem_cons, typeName_filledFrom_eq_none, and_assoc]

/-- Where nothing has a type, all that is offered fills the gap. -/
theorem fillers_of_typeless {own : Property} {offered : List Property}
    (typeless : ∀ q ∈ own :: offered, q.typeName = none) : fillers own offered = offered := by
  rw [List.forall_mem_cons] at typeless
  obtain ⟨ofOwn, ofOffered⟩ := typeless
  rw [fillers, if_neg (by simp [ofOwn])]
  induction offered with
  | nil => rfl
  | cons p rest ih =>
    rw [List.forall_mem_cons] at ofOffered
    rw [upToTyped, if_neg (by simp [ofOffered.1]), ih ofOffered.2]

theorem presence_filledWith_eq_none {own : Property} {offered : List Property}
    (typeless : ∀ q ∈ own :: offered, q.typeName = none) :
    (filledWith own offered).presence = none ↔ ∀ q ∈ own :: offered, q.presence = none := by
  simp only [filledWith, fillers_of_typeless typeless, List.findSome?_eq_none_iff]

theorem attributes_filledWith {own : Property} {offered : List Property}
    (typeless : ∀ q ∈ own :: offered, q.typeName = none) :
    (filledWith own offered).attributes = inherit own.attributes (offered.flatMap attributes) := by
  simp only [filledWith, fillers_of_typeless typeless]

theorem filledFrom_eq_self_iff {own p : Property} : filledFrom own p = own ↔
    own.typeName.isSome ∨ p.typeName = none ∧ (own.presence = none → p.presence = none) ∧
      inherit own.attributes p.attributes = own.attributes := by
  by_cases typed : own.typeName.isSome
  · simp [typed, filledFrom_of_typed typed]
  have typeless : own.typeName = none := by simpa using typed
  constructor
  · intro same
    rw [filledFrom_of_typeless typeless] at same
    have sameType : p.typeName = own.typeName := (congrArg typeName same :)
    have samePresence : (own.presence <|> p.presence) = own.presence := (congrArg presence same :)
    have sameAttributes : inherit own.attributes p.attributes = own.attributes := (congrArg attributes same :)
    exact .inr ⟨sameType.trans typeless, fun unset => by simpa [unset] using samePresence, sameAttributes⟩
  · rintro (isTyped | ⟨gap, presence, nested⟩)
    · exact absurd isTyped typed
    · exact filledFrom_self_of_nested nested presence fun _ => gap

/-- What a property is made of adds nothing to it if it adds nothing to its attributes. -/
theorem filledFrom_of_mem {own q : Property} {offered : List Property} (member : q ∈ own :: offered)
    (nested : (∀ r ∈ own :: offered, r.typeName = none) →
      inherit (filledWith own offered).attributes q.attributes = (filledWith own offered).attributes) :
    filledFrom (filledWith own offered) q = filledWith own offered := by
  rw [filledFrom_eq_self_iff]
  by_cases typed : (filledWith own offered).typeName.isSome
  · exact .inl typed
  have typeless := typeName_filledWith_eq_none.mp (by simpa using typed)
  exact .inr ⟨typeless q member, fun unset => (presence_filledWith_eq_none typeless).mp unset q member,
    nested typeless⟩

/-! ### Absorbing -/

theorem Saturated.subset {own layer less : List Property} (saturated : Saturated own layer) (within : less ⊆ layer) :
    Saturated own less := fun q member => saturated q (within member)

theorem Saturated.attributes {own layer : List Property} {q : Property}
    (saturated : Saturated own (layer.flatMap Property.attributes)) (member : q ∈ layer) :
    Saturated own q.attributes :=
  saturated.subset fun _ inside => List.mem_flatMap.mpr ⟨q, member, inside⟩

theorem upsert_eq_self {fill : Property → Property} {fresh p : Property} {own : List Property}
    (found : find? fresh.key own = some p) (same : fill p = p) : upsert fill fresh own = own := by
  induction own with
  | nil => cases found
  | cons o rest ih =>
    rw [upsert]
    split
    next here =>
      obtain rfl : o = p := by simpa [find?, here] using found
      rw [same]
    next other =>
      rw [find?_cons_of_ne other] at found
      rw [ih found]

theorem Saturated.inherit_eq {own layer : List Property} (saturated : Saturated own layer) :
    inherit own layer = own := by
  induction layer with
  | nil => simp
  | cons q rest ih =>
    obtain ⟨p, found, same⟩ := saturated q List.mem_cons_self
    rw [inherit_cons, upsert_eq_self found same]
    exact ih (saturated.subset (List.subset_cons_self q rest))

/-- What adds nothing as a whole adds nothing in any of its parts. -/
theorem saturated_of_inherit_eq : ∀ {own layer : List Property}, inherit own layer = own → Saturated own layer
  | own, layer, same, q, member => by
    have offered : q ∈ ofKey q.key layer := mem_ofKey.mpr ⟨member, rfl⟩
    have made := find?_inherit_eq_joined q.key own layer
    rw [same, entries] at made
    cases found : find? q.key own with
    | none =>
      rw [found] at made
      cases others : ofKey q.key layer with
      | nil => simp [others] at offered
      | cons => simp [others, joined] at made
    | some p =>
      rw [found] at made
      have filled : filledWith p (ofKey q.key layer) = p := (Option.some.inj made).symm
      have unchanged : filledFrom (filledWith p (ofKey q.key layer)) q = filledWith p (ofKey q.key layer) := by
        refine filledFrom_of_mem (List.mem_cons_of_mem p offered) fun typeless => ?_
        have nested := attributes_filledWith typeless
        rw [filled] at nested ⊢
        have smaller := sizeOf_attributes_of_mem (mem_of_find? found)
        exact ((saturated_of_inherit_eq nested.symm).attributes offered).inherit_eq
      exact ⟨p, rfl, filled ▸ unchanged⟩
  termination_by own => sizeOf own

/-! ### More to inherit -/

/-- What is inherited second contains what is inherited first: all of it is in the second layer, unless
both come to the same properties. -/
def Within (own layer more most : List Property) : Prop :=
  (own ++ layer).Sublist most ∨ own = more ∧ layer.Sublist most

theorem find?_sublist_ofKey (key : String) (properties : List Property) :
    (find? key properties).toList.Sublist (ofKey key properties) := by
  rw [find?, ← List.head?_filter, ofKey]
  cases properties.filter (·.key == key) <;> simp

theorem Within.entries {own layer more most : List Property} (within : Within own layer more most) (key : String) :
    (entries key own layer).Sublist (entries key more most) := by
  rcases within with inMost | ⟨rfl, inMost⟩
  · have all : (ofKey key own ++ ofKey key layer).Sublist (ofKey key most) := by
      rw [ofKey, ofKey, ← List.filter_append]
      exact inMost.filter _
    exact (((find?_sublist_ofKey key own).append_right _).trans all).trans (List.sublist_append_right _ _)
  · exact (inMost.filter _).append_left _

theorem within_attributes {a b : Property} {first second : List Property}
    (sublist : (a :: first).Sublist (b :: second)) :
    Within a.attributes (first.flatMap attributes) b.attributes (second.flatMap attributes) := by
  rcases List.cons_sublist_cons'.mp sublist with inSecond | ⟨rfl, behind⟩
  · exact .inl (inSecond.flatMap attributes)
  · exact .inr ⟨rfl, behind.flatMap attributes⟩

/-- What adds nothing to a property adds nothing to one that is made of more, if this holds of their attributes. -/
theorem filledFrom_of_sublist {a b q : Property} {first second : List Property}
    (sublist : (a :: first).Sublist (b :: second)) (unchanged : filledFrom (filledWith a first) q = filledWith a first)
    (nested : ∀ {own layer more most}, inherit (inherit own layer) q.attributes = inherit own layer →
      Within own layer more most → inherit (inherit more most) q.attributes = inherit more most) :
    filledFrom (filledWith b second) q = filledWith b second := by
  rw [filledFrom_eq_self_iff] at unchanged ⊢
  by_cases typed : (filledWith b second).typeName.isSome
  · exact .inl typed
  have ofMore := typeName_filledWith_eq_none.mp (by simpa using typed)
  have ofLess : ∀ r ∈ a :: first, r.typeName = none := fun r member => ofMore r (sublist.subset member)
  have stays := typeName_filledWith_eq_none.mpr ofLess
  obtain ⟨gap, presence, inside⟩ := unchanged.resolve_left (by simp [stays])
  rw [presence_filledWith_eq_none ofLess] at presence
  rw [attributes_filledWith ofLess] at inside
  rw [presence_filledWith_eq_none ofMore, attributes_filledWith ofMore]
  exact .inr ⟨gap, fun unset => presence fun r member => unset r (sublist.subset member),
    nested inside (within_attributes sublist)⟩

/-- Properties that are made of more stay saturated. -/
theorem Saturated.within : ∀ {taken own layer more most : List Property}, Saturated (inherit own layer) taken →
    Within own layer more most → Saturated (inherit more most) taken
  | taken, own, layer, more, most, saturated, isWithin, q, member => by
    obtain ⟨p, found, unchanged⟩ := saturated q member
    have sublist := isWithin.entries q.key
    rw [find?_inherit_eq_joined] at found ⊢
    cases madeOf : entries q.key own layer with
    | nil => simp [madeOf, joined] at found
    | cons a first =>
      rw [madeOf] at found sublist
      obtain rfl : filledWith a first = p := Option.some.inj found
      cases madeOfMore : entries q.key more most with
      | nil => simp [madeOfMore] at sublist
      | cons b second =>
        rw [madeOfMore] at sublist
        have smaller := sizeOf_attributes_of_mem member
        refine ⟨_, rfl, filledFrom_of_sublist sublist unchanged fun same nestedWithin => ?_⟩
        exact ((saturated_of_inherit_eq same).within nestedWithin).inherit_eq
  termination_by taken => sizeOf taken

/-- Whether a layer adds nothing when it comes again shows where nothing was there before it. -/
theorem saturated_layer_iff {layer : List Property} :
    (∀ own, inherit (inherit own layer) layer = inherit own layer) ↔ Saturated (inherit [] layer) layer := by
  constructor
  · intro again
    exact saturated_of_inherit_eq (again [])
  · intro saturated own
    exact (saturated.within (.inl (List.Sublist.refl layer))).inherit_eq

/-! ### Coming again -/

theorem nodup_firstsBut (seen : List String) (layer : List Property) :
    ((firstsBut seen layer).map key).Nodup := by
  induction layer generalizing seen with
  | nil => exact List.nodup_nil
  | cons p rest ih =>
    rw [firstsBut]
    split
    next => exact ih seen
    next =>
      rw [List.map_cons, List.nodup_cons]
      refine ⟨fun repeated => ?_, ih _⟩
      obtain ⟨q, member, same⟩ := List.mem_map.mp repeated
      exact (mem_firstsBut member).2 (by simp [same])

theorem nodup_inherit_nil_left (layer : List Property) : ((inherit [] layer).map key).Nodup := by
  rw [inherit_nil_left, List.map_map]
  exact nodup_firstsBut [] layer

/-- What a layer brings is saturated with the layer if the attributes of each property that is left
without a type are saturated with all that the layer has below its key. -/
theorem saturated_nil_left_iff {layer : List Property} : Saturated (inherit [] layer) layer ↔
    ∀ p ∈ inherit [] layer, p.typeName = none →
      inherit p.attributes ((ofKey p.key layer).flatMap attributes) = p.attributes := by
  constructor
  · intro saturated p member typeless
    apply Saturated.inherit_eq
    intro inner inside
    obtain ⟨q, offered, below⟩ := List.mem_flatMap.mp inside
    obtain ⟨inLayer, sameKey⟩ := mem_ofKey.mp offered
    obtain ⟨r, found, unchanged⟩ := saturated q inLayer
    rw [sameKey, find?_of_nodup (nodup_inherit_nil_left layer) member] at found
    obtain rfl := Option.some.inj found
    obtain ⟨-, -, nested⟩ := (filledFrom_eq_self_iff.mp unchanged).resolve_left (by simp [typeless])
    exact saturated_of_inherit_eq nested inner below
  · intro unchanged q member
    have offered : q ∈ ofKey q.key layer := mem_ofKey.mpr ⟨member, rfl⟩
    have made := find?_inherit_nil_left q.key layer
    cases madeOf : ofKey q.key layer with
    | nil => simp [madeOf] at offered
    | cons first others =>
      rw [madeOf] at made offered
      have sameKey : (filledWith first others).key = q.key := key_of_find? made
      refine ⟨_, made, filledFrom_of_mem offered fun typeless => ?_⟩
      have whole := unchanged _ (mem_of_find? made) (typeName_filledWith_eq_none.mpr typeless)
      rw [sameKey, madeOf] at whole
      exact ((saturated_of_inherit_eq whole).attributes offered).inherit_eq

theorem Unrepeated.flatMap {layer : List Property} (unrepeated : Unrepeated layer) :
    Unrepeated (layer.flatMap attributes) := by
  refine everywhere_iff.mpr fun inner inside => ?_
  obtain ⟨p, member, below⟩ := List.mem_flatMap.mp inside
  exact everywhere_iff.mp (unrepeated.attributes member) inner below

theorem Unrepeated.subset {layer less : List Property} (unrepeated : Unrepeated layer) (within : less ⊆ layer) :
    Unrepeated less :=
  everywhere_iff.mpr fun p member => everywhere_iff.mp unrepeated p (within member)

/-- Where no property without a type repeats a key, the result is saturated with both sides. -/
theorem saturated_of_unrepeated : ∀ {taken own layer : List Property}, (own.map key).Nodup →
    Unrepeated (own ++ layer) → taken ⊆ own ++ layer → Saturated (inherit own layer) taken
  | taken, own, layer, nodup, unrepeated, within, q, member => by
    have inEntries : q ∈ entries q.key own layer := by
      rcases List.mem_append.mp (within member) with inOwn | inLayer
      · exact List.mem_append_left _ (Option.mem_toList.mpr (find?_of_nodup nodup inOwn))
      · exact List.mem_append_right _ (mem_ofKey.mpr ⟨inLayer, rfl⟩)
    have made := find?_inherit_eq_joined q.key own layer
    have ofEntries := unrepeated.subset (entries_subset q.key own layer)
    cases madeOf : entries q.key own layer with
    | nil => simp [madeOf] at inEntries
    | cons first others =>
      rw [madeOf] at made inEntries ofEntries
      refine ⟨_, made, filledFrom_of_mem inEntries fun typeless => ?_⟩
      have nodupFirst : (first.attributes.map key).Nodup :=
        (everywhere_iff.mp ofEntries first List.mem_cons_self).1 (typeless first List.mem_cons_self)
      have inside : q.attributes ⊆ first.attributes ++ others.flatMap attributes :=
        fun _ below => List.mem_flatMap.mpr ⟨q, inEntries, below⟩
      have smaller := sizeOf_attributes_of_mem member
      rw [attributes_filledWith typeless]
      exact (saturated_of_unrepeated nodupFirst ofEntries.flatMap inside).inherit_eq
  termination_by taken => sizeOf taken

/-- A layer adds nothing when it comes again, whoever inherited it, exactly if all that it has below a
key adds nothing to the attributes of the property of that key that it brings, unless this has a type.
So it is if no property without a type repeats a key among its attributes, however often keys repeat
beside one another, below types and where the layer is inherited. -/
theorem inherit_twice_iff (layer : List Property) :
    ((∀ own, inherit (inherit own layer) layer = inherit own layer) ↔
      ∀ p ∈ inherit [] layer, p.typeName = none →
        inherit p.attributes ((ofKey p.key layer).flatMap attributes) = p.attributes) ∧
    (Unrepeated layer → ∀ own, inherit (inherit own layer) layer = inherit own layer) := by
  refine ⟨saturated_layer_iff.trans saturated_nil_left_iff, fun unrepeated => saturated_layer_iff.mpr ?_⟩
  exact saturated_of_unrepeated List.nodup_nil unrepeated (List.Subset.refl layer)

/-- Keys that repeat beside one another do no harm. -/
def sizes : List Property :=
  [{ key := "size" }, { key := "box", attributes := [{ key := "width" }] },
    { key := "size", typeName := some "Integer" }, { key := "box", attributes := [{ key := "height" }] }]

theorem inherit_twice_sizes : Unrepeated sizes ∧ ∀ own, inherit (inherit own sizes) sizes = inherit own sizes :=
  have unrepeated : Unrepeated sizes := by decide
  ⟨unrepeated, (inherit_twice_iff sizes).2 unrepeated⟩

def twoNames : List Property :=
  [{ key := "person", attributes := [{ key := "name" }, { key := "name", typeName := some "String" }] }]

/-- The first name gets the type of the second only when the layer comes again. -/
theorem inherit_again_twoNames : inherit (inherit [] twoNames) twoNames ≠ inherit [] twoNames := by
  let types (properties : List Property) : List (Option String) :=
    properties.flatMap fun p => p.attributes.map typeName
  intro same
  have differ : types (inherit (inherit [] twoNames) twoNames) ≠ types (inherit [] twoNames) := by decide +kernel
  exact differ (congrArg types same)

end Requirements.Property
