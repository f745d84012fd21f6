import Requirements.Proofs.Resolution.Lineage

/-! The inheritance law of the ancestor pass. The invariant tells what each authored element
has taken in once its turn is over: the declared layers of a climb that is still the
beginning of every complete one. So an ancestor that was merged before brings nothing but
layers that come behind it anyway. -/
namespace Requirements
namespace Resolving

open Resolution

/-- The chain that the pass resolves for the authored element at the index, in its turn. -/
def turnChain? (settings : Settings) (start : Resolution) (index : Nat) : Option (List Place) :=
  match (List.range index).forM (withAuthored (resolveLineage settings)) start with
  | .error _ _ => none
  | .ok _ before =>
    match before.project.element? (.authored index) with
    | none => none
    | some element =>
      match chain settings (.authored index) element before with
      | .error _ _ => none
      | .ok places _ => some places

theorem turnChain?_eq_some {settings : Settings} {start before after : Resolution} {index : Nat}
    {element : Element} {places : List Place}
    (reached : (List.range index).forM (withAuthored (resolveLineage settings)) start = .ok () before)
    (stands : before.project.element? (.authored index) = some element)
    (climbed : chain settings (.authored index) element before = .ok places after) :
    turnChain? settings start index = some places := by
  simp only [turnChain?, reached, stands, climbed]

/-- A pass as it goes up to a turn, through it and on from it. -/
theorem reached_turn {visit : Nat → Resolving Unit} {start state : Resolution} {count index : Nat}
    (reached : (List.range count).forM visit start = .ok () state) (earlier : index < count) :
    ∃ before next, ∃ rest : List Nat, (List.range index).forM visit start = .ok () before ∧
      visit index before = .ok () next ∧ rest.forM visit next = .ok () state ∧
      ∀ later ∈ rest, index < later := by
  obtain ⟨more, rfl⟩ := Nat.exists_eq_add_of_lt earlier
  rw [Nat.add_assoc, List.range_add, forM_append_ok] at reached
  obtain ⟨before, first, last⟩ := reached
  rw [List.range_succ_eq_map, List.map_cons] at last
  obtain ⟨_, next, turn, others⟩ := bind_ok.mp last
  refine ⟨before, next, _, first, turn, others, fun later member => ?_⟩
  obtain ⟨offset, inMore, rfl⟩ := List.mem_map.mp member
  obtain ⟨_, _, rfl⟩ := List.mem_map.mp inMore
  omega

/-- Every authored element whose turn is over has a chain, which is still a climb. -/
theorem turnChain_reached {settings : Settings} {start state : Resolution} {count : Nat}
    (reached : (List.range count).forM (withAuthored (resolveLineage settings)) start = .ok () state)
    {index : Nat} (earlier : index < count) {element : Element}
    (stands : start.project.element? (.authored index) = some element) :
    ∃ places keys, turnChain? settings start index = some places ∧
      state.Climbs (.authored index) places ∧ state.Keyed [element.key] places keys := by
  obtain ⟨before, next, rest, first, ran, others, -⟩ := reached_turn reached earlier
  have begun : Extends start before :=
    forM_ok (R := Extends) .refl .trans (fun _ _ _ _ turn => extends_lineageTurn turn) first
  have onward : Extends next state :=
    forM_ok (R := Extends) .refl .trans (fun _ _ _ _ turn => extends_lineageTurn turn) others
  obtain ⟨own, standsBefore, alike⟩ := begun.element? stands
  rcases withAuthored_ok.mp ran with ⟨absent, -⟩ | ⟨element', present, ran⟩
  · rw [standsBefore] at absent
    cases absent
  · obtain rfl := Option.some.inj (standsBefore.symm.trans present)
    obtain ⟨places, after, climbed, grew⟩ := resolveLineage_ok ran standsBefore
    obtain ⟨-, out, keys, keyed⟩ := chain_ok climbed standsBefore
    rw [Element.key_eq alike] at keyed
    have took := extends_modifyAuthored (fun own => Element.outline_foldl_inherit own
      (places.filterMap after.project.element?)) after index
    have behind := (took.trans grew.extends).trans onward
    exact ⟨places, keys, turnChain?_eq_some first standsBefore climbed,
      behind.climbs out.climbs, behind.keyed keyed⟩

structure Inherited (settings : Settings) (start : Resolution) (count : Nat)
    (state : Resolution) : Prop where
  extended : Extends start state
  declared : ∀ element ∈ state.project.dependencies.elements,
    ∃ declared, state.Read declared ∧ declared.uncounted = element.uncounted
  waiting : ∀ index, count ≤ index →
    (state.project.authored.elements[index]?).map Element.uncounted =
      (start.project.authored.elements[index]?).map Element.uncounted
  merged : ∀ index < count, ∀ element, start.project.authored.elements[index]? = some element →
    ∃ places, turnChain? settings start index = some places ∧ state.Climbs (.authored index) places ∧
      (state.project.authored.elements[index]?).map Element.uncounted =
        some ((state.declaredLayers start.project.authored places).foldl Element.inherit
          element.uncounted)

variable {settings : Settings} {start state next : Resolution} {count : Nat}

theorem getElem?_map_uncounted {first second : Document}
    (same : first.elements.map Element.uncounted = second.elements.map Element.uncounted)
    (index : Nat) :
    first.elements[index]?.map Element.uncounted = second.elements[index]?.map Element.uncounted := by
  rw [← List.getElem?_map, same, List.getElem?_map]

theorem declared_grows {after : Resolution} (grows : Grows state after)
    (declared : ∀ element ∈ state.project.dependencies.elements,
      ∃ declared, state.Read declared ∧ declared.uncounted = element.uncounted) :
    ∀ element ∈ after.project.dependencies.elements,
      ∃ declared, after.Read declared ∧ declared.uncounted = element.uncounted := by
  intro element member
  rcases grows.declared element member with old | new
  · obtain ⟨former, inState, same⟩ := List.mem_map.mp old
    obtain ⟨declared, read, alike⟩ := declared former inState
    exact ⟨declared, read.later grows.parsed, alike.trans same⟩
  · exact new

/-- Resolving more references takes nothing back. -/
theorem Inherited.grows (inherited : Inherited settings start count state) {after : Resolution}
    (grows : Grows state after) : Inherited settings start count after := by
  refine ⟨inherited.extended.trans grows.extends, declared_grows grows inherited.declared, ?_, ?_⟩
  · intro index later
    rw [getElem?_map_uncounted grows.authored index, inherited.waiting index later]
  · intro index earlier element stands
    obtain ⟨places, turn, climbs, holds⟩ := inherited.merged index earlier element stands
    refine ⟨places, turn, grows.extends.climbs climbs, ?_⟩
    rw [getElem?_map_uncounted grows.authored, grows.extends.declaredLayers climbs, holds]

/-- The ancestors on a complete climb are their declared layers, each joined with some of
those behind it. -/
theorem Inherited.joined (inherited : Inherited settings start count state) {place : Place}
    {places : List Place} (out : state.ClimbsOut place places) :
    Layering.Joined Element.inherit (state.declaredLayers start.project.authored places)
      ((places.filterMap state.project.element?).map Element.uncounted) := by
  induction places generalizing place with
  | nil => exact .nil
  | cons above rest ih =>
    obtain ⟨element, stands⟩ := out.climbs.stands List.mem_cons_self
    have behind := ih out.2
    rw [List.filterMap_cons, stands, List.map_cons, declaredLayers, List.filterMap_cons]
    cases above with
    | dependency index =>
      have declared : state.declaredAt? start.project.authored (.dependency index) =
          some element.uncounted := congrArg (Option.map Element.uncounted) stands
      rw [declared]
      exact .cons List.nil_prefix behind
    | authored index =>
      have present : state.project.authored.elements[index]? = some element := stands
      rcases Nat.lt_or_ge index count with earlier | later
      · obtain ⟨former, standsFormer, -⟩ := inherited.extended.former present
        obtain ⟨more, -, climbs, holds⟩ := inherited.merged index earlier former standsFormer
        have declared : state.declaredAt? start.project.authored (.authored index) =
            some former.uncounted := congrArg (Option.map Element.uncounted) standsFormer
        rw [present, Option.map_some] at holds
        rw [declared, Option.some.inj holds]
        exact .cons ((out.2.prefix_of_climbs climbs).filterMap _) behind
      · have same := inherited.waiting index later
        have declared : state.declaredAt? start.project.authored (.authored index) =
            some element.uncounted := by
          rw [present] at same
          exact same.symm
        rw [declared]
        exact .cons List.nil_prefix behind

/-- Every declared layer is distinct when authored elements and those of read documents are. -/
theorem distinct_declaredLayers
    (declared : ∀ element ∈ state.project.dependencies.elements,
      ∃ declared, state.Read declared ∧ declared.uncounted = element.uncounted)
    {authored : Document} (authoredDistinct : ∀ element ∈ authored.elements, element.Distinct)
    (readDistinct : ∀ element, state.Read element → element.Distinct) (places : List Place) :
    ∀ layer ∈ state.declaredLayers authored places, layer.Distinct := by
  intro layer member
  obtain ⟨place, -, holds⟩ := List.mem_filterMap.mp member
  obtain ⟨element, stands, rfl⟩ := Option.map_eq_some_iff.mp holds
  cases place with
  | authored index => exact authoredDistinct element (List.mem_of_getElem? stands)
  | dependency index =>
    obtain ⟨former, read, alike⟩ := declared element (List.mem_of_getElem? stands)
    have same : former.properties = element.properties := (congrArg Element.properties alike :)
    have distinct := readDistinct former read
    rw [Element.Distinct, same] at distinct
    exact distinct

/-- The turn of one authored element. -/
theorem Inherited.turn (inherited : Inherited settings start count state)
    (reached : (List.range count).forM (withAuthored (resolveLineage settings)) start = .ok () state)
    (ran : withAuthored (resolveLineage settings) count state = .ok () next)
    (authoredDistinct : ∀ element ∈ start.project.authored.elements, element.Distinct)
    (readDistinct : ∀ element, next.Read element → element.Distinct) :
    Inherited settings start (count + 1) next := by
  rcases withAuthored_ok.mp ran with ⟨absent, rfl⟩ | ⟨own, present, ran⟩
  · refine ⟨inherited.extended, inherited.declared,
      fun index later => inherited.waiting index (by omega), fun index earlier element stands => ?_⟩
    rcases Nat.lt_succ_iff_lt_or_eq.mp earlier with earlier | rfl
    · exact inherited.merged index earlier element stands
    · have same := inherited.waiting index (by omega)
      change state.project.authored.elements[index]? = none at absent
      rw [absent, stands] at same
      cases same
  · obtain ⟨places, after, climbed, grew⟩ := resolveLineage_ok ran present
    obtain ⟨grows, out, -⟩ := chain_ok climbed present
    have atAfter := inherited.grows grows
    have took := extends_modifyAuthored
      (fun own => Element.outline_foldl_inherit own (places.filterMap after.project.element?)) after count
    have onward := took.trans grew.extends
    have others : ∀ index ≠ count, next.project.authored.elements[index]?.map Element.uncounted =
        after.project.authored.elements[index]?.map Element.uncounted := by
      intro index other
      rw [getElem?_map_uncounted grew.authored, getElem?_modifyAuthored_of_ne other]
    refine ⟨atAfter.extended.trans onward, ?_, fun index later => ?_, fun index earlier element stands => ?_⟩
    · exact declared_grows grew atAfter.declared
    · rw [others index (by omega), atAfter.waiting index (by omega)]
    · rcases Nat.lt_succ_iff_lt_or_eq.mp earlier with earlier | rfl
      · obtain ⟨former, turn, climbs, holds⟩ := atAfter.merged index earlier element stands
        refine ⟨former, turn, onward.climbs climbs, ?_⟩
        rw [others index (by omega), onward.declaredLayers climbs, holds]
      · refine ⟨places, turnChain?_eq_some reached present climbed, onward.climbs out.climbs, ?_⟩
        have same := atAfter.waiting index (Nat.le_refl index)
        obtain ⟨own', standsAfter, uncounted⟩ := Option.map_eq_some_iff.mp
          (same.trans (congrArg (Option.map Element.uncounted) stands))
        have layersFit := distinct_declaredLayers atAfter.declared authoredDistinct
          (fun element read => readDistinct element (read.later grew.parsed)) places
        have merged := Element.layering.foldl_joined (atAfter.joined out) layersFit
          element.uncounted List.nil_prefix
        rw [getElem?_map_uncounted grew.authored, onward.declaredLayers out.climbs,
          getElem?_modifyAuthored_self, standsAfter, Option.map_some, Option.map_some,
          Element.uncounted_foldl_inherit, uncounted]
        exact congrArg some merged

theorem inherited_start (fresh : start.project.dependencies.elements = []) :
    Inherited settings start 0 start :=
  ⟨.refl _, by simp [fresh], fun _ _ => rfl, by omega⟩

/-- The turns of the first authored elements, one after the other. -/
theorem inherited_turns (fresh : start.project.dependencies.elements = [])
    (reached : (List.range count).forM (withAuthored (resolveLineage settings)) start = .ok () state)
    (authoredDistinct : ∀ element ∈ start.project.authored.elements, element.Distinct)
    (readDistinct : ∀ element, state.Read element → element.Distinct) :
    Inherited settings start count state := by
  induction count generalizing state with
  | zero =>
    obtain ⟨-, rfl⟩ := pure_ok.mp reached
    exact inherited_start fresh
  | succ count ih =>
    rw [List.range_succ, forM_append_ok] at reached
    obtain ⟨middle, first, last⟩ := reached
    obtain ⟨_, _, ran, done⟩ := bind_ok.mp last
    obtain ⟨-, rfl⟩ := pure_ok.mp done
    have parsed := (extends_lineageTurn ran).parsed
    have earlier := ih first fun element read => readDistinct element (read.later parsed)
    exact earlier.turn first ran authoredDistinct readDistinct

/-- The places of a climb hold declared elements. -/
theorem Inherited.declaredLayers (inherited : Inherited settings start count state) {place : Place}
    {places : List Place} (climbs : state.Climbs place places) :
    (state.declaredLayers start.project.authored places).map some =
      places.map (state.declaredAt? start.project.authored) := by
  apply map_some_filterMap
  intro above member
  obtain ⟨element, stands⟩ := climbs.stands member
  cases above with
  | dependency index => exact ⟨_, congrArg (Option.map Element.uncounted) stands⟩
  | authored index =>
    obtain ⟨former, standsFormer, -⟩ := inherited.extended.former stands
    exact ⟨_, congrArg (Option.map Element.uncounted) standsFormer⟩

theorem properties_foldl_inherit (own : Element) (layers : List Element) :
    (layers.foldl Element.inherit own).properties =
      (layers.map Element.properties).foldl Property.inherit own.properties := by
  induction layers generalizing own with
  | nil => rfl
  | cons layer rest ih => rw [List.foldl_cons, ih]; rfl

/-- After the pass each authored element has the properties it declared, with those that the
elements of its chain declared taken in, nearest first. Where these elements stand, whether
they were merged before, and what a parent has, makes no difference. -/
theorem properties_of_chain {authored : Document} {workspace : Workspace} {final : Resolution}
    (ran : overAuthored (resolveLineage settings) { project := { authored }, workspace } =
      .ok () final)
    (authoredDistinct : ∀ element ∈ authored.elements, Property.Distinct element.properties)
    (readDistinct : ∀ element, final.Read element → Property.Distinct element.properties) :
    (∀ element ∈ final.project.dependencies.elements,
      ∃ declared, final.Read declared ∧ declared.uncounted = element.uncounted) ∧
    ∀ index element, authored.elements[index]? = some element →
      ∃ places, ∃ layers : List Element, ∃ merged,
        turnChain? settings { project := { authored }, workspace } index = some places ∧
        places.map (final.declaredAt? authored) = layers.map some ∧
        final.project.authored.elements[index]? = some merged ∧
        merged.properties =
          (layers.map Element.properties).foldl Property.inherit element.properties := by
  have inherited := inherited_turns rfl (overAuthored_ok.mp ran) authoredDistinct readDistinct
  refine ⟨inherited.declared, fun index element stands => ?_⟩
  have inside : index < authored.elements.length := (List.getElem?_eq_some_iff.mp stands).1
  obtain ⟨places, turn, climbs, holds⟩ := inherited.merged index inside element stands
  obtain ⟨merged, standsMerged, uncounted⟩ := Option.map_eq_some_iff.mp holds
  refine ⟨places, _, merged, turn, (inherited.declaredLayers climbs).symm, standsMerged, ?_⟩
  have properties := congrArg Element.properties uncounted
  rw [properties_foldl_inherit] at properties
  exact properties

def lineOfThree : Document :=
  { elements :=
    [{ kind := .classType, name := ⟨"Middle", none⟩, ancestor := some ⟨"Last", none⟩
       properties := [{ key := "size" }, { key := "label", typeName := some "Text" }] },
     { kind := .classType, name := ⟨"First", none⟩, ancestor := some ⟨"Middle", none⟩
       parent := some ⟨"Other", none⟩
       properties := [{ key := "label" }] },
     { kind := .classType, name := ⟨"Last", none⟩
       properties := [{ key := "size", typeName := some "Integer" }] },
     { kind := .classType, name := ⟨"Other", none⟩
       properties := [{ key := "colour", typeName := some "Text" }] }] }

theorem properties_of_chain_lineOfThree :
    ∃ final, overAuthored (resolveLineage {})
        { project := { authored := lineOfThree }, workspace := { disk := { now := 0 } } } =
          .ok () final ∧
      (∀ element ∈ lineOfThree.elements, Property.Distinct element.properties) ∧
      (∀ element, final.Read element → Property.Distinct element.properties) ∧
      ∃ places, ∃ layers : List Element, ∃ merged,
        turnChain? {} { project := { authored := lineOfThree }, workspace := { disk := { now := 0 } } }
          1 = some places ∧
        places.map (final.declaredAt? lineOfThree) = layers.map some ∧
        final.project.authored.elements[1]? = some merged ∧
        merged.properties = (layers.map Element.properties).foldl Property.inherit
          [{ key := "label" }] := by
  have distinct : ∀ element ∈ lineOfThree.elements, Property.Distinct element.properties := by
    decide
  refine ⟨_, rfl, distinct, ?_, ?_⟩
  · rintro _ ⟨_, _, member, -⟩
    cases member
  · refine (properties_of_chain rfl distinct ?_).2 1 _ rfl
    rintro _ ⟨_, _, member, -⟩
    cases member

end Resolving
end Requirements
