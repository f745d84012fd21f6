import Requirements.Proofs.Order.Chains

/-! The pass over the features. It meets features whose turn has come and others whose turn has
not; where authored features use none themselves, both are as the ancestors left them. -/
namespace Requirements

def Element.gain (own layer : Element) : Element :=
  { own with properties := Property.inherit own.properties layer.properties }

theorem Element.foldl_gain (own : Element) (layers : List Element) :
    layers.foldl gain own = { own with
      properties := (layers.map properties).foldl Property.inherit own.properties } := by
  induction layers generalizing own with
  | nil => rfl
  | cons layer rest ih => rw [List.foldl_cons, ih]; rfl

theorem Element.uncounted_foldl_gain (own : Element) (layers : List Element) :
    (layers.foldl gain own).uncounted = (layers.map uncounted).foldl gain own.uncounted := by
  rw [foldl_gain, foldl_gain, List.map_map]
  rfl

theorem Element.outline_foldl_gain (own : Element) (layers : List Element) :
    (layers.foldl gain own).outline = own.outline := by
  rw [foldl_gain]
  rfl

/-- Features aside, layers are taken in as they are inherited. -/
theorem Element.foldl_gain_of_inherit {first second : List Element}
    (same : ∀ own : Element, first.foldl inherit own = second.foldl inherit own) (own : Element) :
    first.foldl gain own = second.foldl gain own := by
  have properties := congrArg Element.properties (same own)
  rw [Resolving.properties_foldl_inherit, Resolving.properties_foldl_inherit] at properties
  rw [foldl_gain, foldl_gain, properties]

namespace World

open Resolution

def Plain (world : World) (authored : Document) (state : Resolution) : Prop :=
  ∀ (index : Nat) element merged, authored.elements[index]? = some element →
    world.Merged element.uncounted merged → merged.features = [] →
      state.project.authored.elements[index]?.map Element.uncounted = some merged

variable {world : World} {authored : Document} {reports : List Report} {start final state : Resolution}

theorem Plain.grows (plain : world.Plain authored start) (grows : Grows start final) :
    world.Plain authored final := by
  intro index element merged stood gained none
  rw [Resolving.getElem?_map_uncounted grows.authored]
  exact plain index element merged stood gained none

/-- Authored elements among the layers use no features after the ancestors. -/
def Restful (world : World) (layers : List Element) : Prop :=
  ∀ layer ∈ layers, world.authored layer → ∀ {merged}, world.Merged layer merged → merged.features = []

/-- An element that uses no features is its declared form with a beginning of its chain. -/
theorem Plain.joined_head (plain : world.Plain authored state) (fits : world.Fits authored reports state)
    {place : Place} {element declared : Element} {layers : List Element}
    (stands : state.project.element? place = some element)
    (here : state.declaredAt? authored place = some declared) (chain : world.ChainOf declared layers)
    (restful : world.Restful (declared :: layers)) :
    ∃ more, more <+: layers ∧ element.uncounted = more.foldl Element.inherit declared := by
  cases place with
  | dependency index =>
    have same : state.declaredAt? authored (.dependency index) = some element.uncounted :=
      congrArg (Option.map Element.uncounted) stands
    exact ⟨[], List.nil_prefix, Option.some.inj (same.symm.trans here)⟩
  | authored index =>
    obtain ⟨former, stood, isAuthored, -⟩ := fits.authored_at stands
    have same : state.declaredAt? authored (.authored index) = some former.uncounted :=
      congrArg (Option.map Element.uncounted) stood
    obtain rfl := Option.some.inj (same.symm.trans here)
    have gained : world.Merged former.uncounted _ := ⟨_, chain, rfl⟩
    have rests := plain index former _ stood gained (restful _ (by simp) isAuthored gained)
    change state.project.authored.elements[index]? = some element at stands
    rw [stands, Option.map_some] at rests
    exact ⟨layers, List.prefix_rfl, Option.some.inj rests⟩

/-- Elements on a chain that use no features are their declared layers, each joined with some of
those behind it. -/
theorem Plain.joined (plain : world.Plain authored state) (fits : world.Fits authored reports state)
    {place : Place} {declared : Element} {places : List Place}
    (here : state.declaredAt? authored place = some declared)
    (chain : world.ChainOf declared (state.declaredLayers authored places))
    (stand : ∀ other ∈ place :: places, ∃ element, state.project.element? other = some element)
    (restful : world.Restful (declared :: state.declaredLayers authored places)) :
    Layering.Joined Element.inherit (declared :: state.declaredLayers authored places)
      (((place :: places).filterMap state.project.element?).map Element.uncounted) := by
  obtain ⟨element, stands⟩ := stand place (by simp)
  obtain ⟨more, ahead, form⟩ := plain.joined_head fits stands here chain restful
  rw [List.filterMap_cons, stands, List.map_cons, form]
  refine .cons ahead ?_
  induction places generalizing place declared element more with
  | nil => exact .nil
  | cons next rest ih =>
    obtain ⟨above, standsAbove⟩ := stand next (by simp)
    obtain ⟨former, there, -⟩ := fits.declaredAt? standsAbove
    rw [declaredLayers, List.filterMap_cons, there] at chain restful ⊢
    cases chain with
    | step _ _ _ behind =>
      have restfulBehind : world.Restful (former :: state.declaredLayers authored rest) :=
        fun layer member => restful layer (List.mem_cons_of_mem _ member)
      obtain ⟨furtherMore, furtherAhead, furtherForm⟩ :=
        plain.joined_head fits standsAbove there behind restfulBehind
      rw [List.filterMap_cons, standsAbove, List.map_cons, furtherForm]
      refine .cons furtherAhead ?_
      exact ih there behind (fun other member => stand other (List.mem_cons_of_mem _ member))
        restfulBehind above standsAbove furtherMore furtherAhead furtherForm

/-- What gives for a feature gives the same where it is joined with what is behind it. -/
theorem Gives.foldl_gain (regular : world.Regular reports) {feature : QualifiedName}
    {layers taken : List Element} (gives : world.Gives feature layers)
    (joined : Layering.Joined Element.inherit layers (taken.map Element.uncounted)) (own : Element) :
    (taken.foldl Element.gain own).uncounted = layers.foldl Element.gain own.uncounted := by
  have layersFit : ∀ layer ∈ layers, layer.Distinct :=
    fun layer member => regular.distinct (gives.features layer member).1
  have same : ∀ own : Element, (taken.map Element.uncounted).foldl Element.inherit own =
      layers.foldl Element.inherit own :=
    fun own => Element.layering.foldl_joined joined layersFit own List.nil_prefix
  rw [Element.uncounted_foldl_gain]
  exact Element.foldl_gain_of_inherit same own.uncounted

end World

namespace Resolving

open Resolution World

variable {settings : Settings} {world : World} {authored : Document} {reports : List Report}
  {start final : Resolution}

theorem inheritProperties_ok {index : Nat} {place : Place} {layer : Element} {u : Unit}
    (stands : start.project.element? place = some layer)
    (ran : inheritProperties index place start = .ok u final) :
    final = start.modifyAuthored index (Element.gain · layer) := by
  have gave := modify_ok.mp ran
  rw [stands] at gave
  exact gave.symm

structure Turned (world : World) (authored : Document) (index : Nat) (start final : Resolution) :
    Prop where
  extended : Extends start final
  drawn : world.Drawn final
  plain : world.Plain authored final
  others : ∀ other ≠ index, final.project.authored.elements[other]?.map Element.uncounted =
    start.project.authored.elements[other]?.map Element.uncounted

theorem Turned.trans {index : Nat} {a b c : Resolution} (first : Turned world authored index a b)
    (second : Turned world authored index b c) : Turned world authored index a c :=
  ⟨first.extended.trans second.extended, second.drawn, second.plain,
    fun other differs => (second.others other differs).trans (first.others other differs)⟩

/-- Where the element uses features, it may take in layers. -/
theorem turned_of_taken (regular : world.Regular reports) {index : Nat} {middle : Resolution}
    (grows : Grows start middle) (taken : List Element)
    (fits : world.Fits authored reports (middle.modifyAuthored index (taken.foldl Element.gain ·)))
    (drawn : world.Drawn start) (plain : world.Plain authored start) {element merged : Element}
    (stood : authored.elements[index]? = some element) (gained : world.Merged element.uncounted merged)
    (busy : merged.features ≠ []) :
    Turned world authored index start (middle.modifyAuthored index (taken.foldl Element.gain ·)) := by
  have took := extends_modifyAuthored (fun own => Element.outline_foldl_gain own taken) middle index
  have drawnMiddle : world.Drawn middle := drawn.grows grows (fits.before took)
  refine ⟨grows.extends.trans took, drawnMiddle, ?_, fun other differs => ?_⟩
  · intro other element' merged' stood' gained' none
    by_cases here : other = index
    · subst here
      obtain rfl := Option.some.inj (stood.symm.trans stood')
      have isAuthored : world.authored element.uncounted :=
        (fits.declared _).mpr (List.mem_map_of_mem (List.mem_of_getElem? stood))
      rw [gained.unique regular (.inl isAuthored) gained'] at busy
      exact absurd none busy
    · rw [getElem?_modifyAuthored_of_ne here]
      exact plain.grows grows other element' merged' stood' gained' none
  · rw [getElem?_modifyAuthored_of_ne differs, getElem?_map_uncounted grows.authored]

/-- In its turn a feature gives what the declarations make it give. -/
theorem resolveFeature_gives (regular : world.Regular reports) {index : Nat} {user : Element}
    {feature : QualifiedName} {u : Unit}
    (ran : resolveFeature settings index user feature start = .ok u final)
    (fits : world.Fits authored reports final) (drawn : world.Drawn start)
    (plain : world.Plain authored start) (uses : world.Uses feature) {element merged : Element}
    (stood : authored.elements[index]? = some element) (alike : element.outline = user.outline)
    (gained : world.Merged element.uncounted merged) (busy : merged.features ≠ []) :
    ∃ layers middle, ∃ taken : List Element, world.Gives feature layers ∧ Grows start middle ∧
      final = middle.modifyAuthored index (fun own => taken.foldl Element.gain own) ∧
      ∀ own, (taken.foldl Element.gain own).uncounted = layers.foldl Element.gain own.uncounted := by
  have isAuthored : world.authored element.uncounted :=
    (fits.declared _).mpr (List.mem_map_of_mem (List.mem_of_getElem? stood))
  rw [resolveFeature] at ran
  obtain ⟨answer, middle, resolved, ran⟩ := bind_ok.mp ran
  obtain ⟨grows, known⟩ := resolve_ok resolved (by simp)
  cases answer with
  | none =>
    obtain rfl := report_ok.mp ran
    have missed : world.Missed reports [.feature] feature := by
      apply Missed.feature isAuthored
      apply fits.reported
      exact mem_report (Finding.featureMissing feature) alike middle
    refine ⟨[], _, [], .missing fun other declared designated => ?_, grows.trans (grows_report _),
      (modifyAuthored_id _ index).symm, fun _ => rfl⟩
    obtain ⟨_, same, -⟩ := (fits.before (grows_report _).extends).only_asker regular known missed
      declared designated
    cases same
  | some found =>
    obtain ⟨place, found⟩ := found
    obtain ⟨ancestors, after, climbed, took⟩ := bind_ok.mp ran
    obtain ⟨standsFound, -, designated⟩ := known?_some known
    obtain ⟨onward, out, -⟩ := chain_ok climbed standsFound
    have fitsAfter := fits.before (forM_ok (R := Extends) .refl .trans
      (fun _ _ _ _ gave => extends_inheritProperties gave) took)
    have fitsMiddle := fitsAfter.before onward.extends
    have drawnMiddle := drawn.grows grows fitsMiddle
    have plainAfter := (plain.grows grows).grows onward
    obtain ⟨declared, here, alikeFound⟩ := fitsMiddle.declaredAt? standsFound
    obtain ⟨isDeclared, chain⟩ := chain_chainOf regular climbed fitsAfter drawnMiddle standsFound here
    rw [← Element.isDesignated_of_outline alikeFound] at designated
    have gives : world.Gives feature (declared :: after.declaredLayers authored ancestors) :=
      .found isDeclared designated chain
    have restful : world.Restful (declared :: after.declaredLayers authored ancestors) :=
      regular.flat uses gives
    have hereAfter := declaredAt?_extends onward.extends standsFound here
    have stand : ∀ other ∈ place :: ancestors, ∃ element, after.project.element? other = some element := by
      intro other member
      rcases List.mem_cons.mp member with rfl | member
      · obtain ⟨later, standsLater, -⟩ := onward.element? standsFound
        exact ⟨later, standsLater⟩
      · exact out.climbs.stands member
    have others : ∀ other ∈ place :: ancestors, other ≠ .authored index := by
      rintro _ member rfl
      have itself : after.declaredAt? authored (.authored index) = some element.uncounted :=
        congrArg (Option.map Element.uncounted) stood
      refine busy (restful _ ?_ isAuthored gained)
      rcases List.mem_cons.mp member with rfl | member
      · exact List.mem_cons.mpr (.inl (Option.some.inj (itself.symm.trans hereAfter)))
      · exact List.mem_cons_of_mem _ (List.mem_filterMap.mpr ⟨_, member, itself⟩)
    have taken := takeAll_ok (fun stands _ gave => inheritProperties_ok stands gave) stand others took
    have joined := plainAfter.joined fitsAfter hereAfter chain stand restful
    exact ⟨_, after, _, gives, grows.trans onward, taken, gives.foldl_gain regular joined⟩

/-- The features of one authored element, one after the other. -/
theorem useFeatures_ok (regular : world.Regular reports) {index : Nat} {user own : Element}
    {features : List QualifiedName}
    (ran : features.forM (resolveFeature settings index user) start = .ok () final)
    (fits : world.Fits authored reports final) (drawn : world.Drawn start)
    (plain : world.Plain authored start) {element merged : Element}
    (stood : authored.elements[index]? = some element) (alike : element.outline = user.outline)
    (gained : world.Merged element.uncounted merged) (used : features ⊆ merged.features)
    (stands : start.project.authored.elements[index]? = some own) :
    Turned world authored index start final ∧ ∃ layers, world.GivenBy features layers ∧
      final.project.authored.elements[index]?.map Element.uncounted =
        some (layers.foldl Element.gain own.uncounted) := by
  induction features generalizing start own with
  | nil =>
    obtain ⟨-, rfl⟩ := pure_ok.mp ran
    exact ⟨⟨.refl _, drawn, plain, fun _ _ => rfl⟩, [], .nil, by rw [stands]; rfl⟩
  | cons feature rest ih =>
    obtain ⟨_, next, ranFeature, ranRest⟩ := bind_ok.mp ran
    have isAuthored : world.authored element.uncounted :=
      (fits.declared _).mpr (List.mem_map_of_mem (List.mem_of_getElem? stood))
    have inMerged : feature ∈ merged.features := used (by simp)
    have busy : merged.features ≠ [] := List.ne_nil_of_mem inMerged
    have fitsNext := fits.before (forM_ok (R := Extends) .refl .trans
      (fun _ _ _ _ gave => extends_resolveFeature gave) ranRest)
    obtain ⟨layers, middle, taken, gives, grows, rfl, given⟩ := resolveFeature_gives regular ranFeature
      fitsNext drawn plain (gained.uses isAuthored inMerged) stood alike gained busy
    have turned := turned_of_taken regular grows taken fitsNext drawn plain stood gained busy
    obtain ⟨later, standsLater, same⟩ := grows.later stands
    have standsNext : (middle.modifyAuthored index
        (taken.foldl Element.gain ·)).project.authored.elements[index]? =
          some (taken.foldl Element.gain later) := by
      rw [getElem?_modifyAuthored_self, standsLater, Option.map_some]
    obtain ⟨turnedRest, others, givenRest, form⟩ := ih ranRest turned.drawn turned.plain
      (fun other member => used (by simp [member])) standsNext
    refine ⟨turned.trans turnedRest, layers ++ others, .cons gives givenRest, ?_⟩
    rw [form, given, same, List.foldl_append]

structure Gained (world : World) (authored : Document) (start : Resolution) (count : Nat)
    (state : Resolution) : Prop where
  drawn : world.Drawn state
  plain : world.Plain authored state
  passed : Passed world.Featured authored start count state

variable {state next : Resolution} {count : Nat}

theorem gained_start (regular : world.Regular reports) (fits : world.Fits authored reports start)
    (drawn : world.Drawn start) (merged : Formed world.Merged authored start) :
    Gained world authored start 0 start := by
  refine ⟨drawn, fun index element form stood gained _ => ?_, passed_start⟩
  obtain ⟨other, gainedOther, holds⟩ := merged index element stood
  have isAuthored : world.authored element.uncounted :=
    (fits.declared _).mpr (List.mem_map_of_mem (List.mem_of_getElem? stood))
  rw [holds, gained.unique regular (.inl isAuthored) gainedOther]

/-- The turn of one authored element. -/
theorem Gained.turn (regular : world.Regular reports) (merged : Formed world.Merged authored start)
    (gained : Gained world authored start count state)
    (ran : withAuthored (resolveFeatures settings) count state = .ok () next)
    (fits : world.Fits authored reports next) : Gained world authored start (count + 1) next := by
  rcases withAuthored_ok.mp ran with ⟨absent, rfl⟩ | ⟨own, present, ran⟩
  · refine ⟨gained.drawn, gained.plain, gained.passed.turn (fun _ _ => rfl) fun element stood => ?_⟩
    obtain ⟨standing, stands, -⟩ := gained.passed.present merged (Nat.le_refl count) stood
    exact absurd (absent.symm.trans stands) (by simp)
  · have extended := forM_ok (R := Extends) .refl .trans
      (fun _ _ _ _ used => extends_resolveFeature used) ran
    obtain ⟨element, stood, -, alike⟩ := (fits.before extended).authored_at present
    obtain ⟨standing, stands, ofMerged⟩ := gained.passed.present merged (Nat.le_refl count) stood
    obtain rfl := Option.some.inj (present.symm.trans stands)
    obtain ⟨turned, layers, given, form⟩ := useFeatures_ok regular ran fits gained.drawn gained.plain
      stood alike ofMerged (List.Subset.refl _) stands
    refine ⟨turned.drawn, turned.plain, gained.passed.turn turned.others fun element' stood' => ?_⟩
    obtain rfl := Option.some.inj (stood.symm.trans stood')
    rw [Element.foldl_gain] at form
    exact ⟨_, ⟨_, layers, ofMerged, given, rfl⟩, form⟩

/-- The turns of the first authored elements, one after the other. -/
theorem gained_turns (regular : world.Regular reports) (drawn : world.Drawn start)
    (merged : Formed world.Merged authored start)
    (ran : (List.range count).forM (withAuthored (resolveFeatures settings)) start = .ok () state)
    (fits : world.Fits authored reports state) : Gained world authored start count state := by
  induction count generalizing state with
  | zero =>
    obtain ⟨-, rfl⟩ := pure_ok.mp ran
    exact gained_start regular fits drawn merged
  | succ count ih =>
    rw [List.range_succ, forM_append_ok] at ran
    obtain ⟨middle, first, last⟩ := ran
    obtain ⟨_, _, ran, done⟩ := bind_ok.mp last
    obtain ⟨-, rfl⟩ := pure_ok.mp done
    exact (ih first (fits.before (extends_featuresTurn ran))).turn regular merged ran fits

/-- After the features every authored element is what the declarations make of it. -/
theorem featured_of_features (regular : world.Regular reports) (drawn : world.Drawn start)
    (merged : Formed world.Merged authored start)
    (ran : overAuthored (resolveFeatures settings) start = .ok () final)
    (fits : world.Fits authored reports final) :
    world.Drawn final ∧ Formed world.Featured authored final := by
  have gained := gained_turns regular drawn merged (overAuthored_ok.mp ran) fits
  exact ⟨gained.drawn, gained.passed.formed merged⟩

end Resolving
end Requirements
