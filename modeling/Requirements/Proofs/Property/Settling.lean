import Requirements.Proofs.Property.Expansion

/-! Expansions out of views whose own layouts may be expanded. Such a view gives the same
expansion as it gave before: what it brings expanded would be expanded there anyway. -/
namespace Requirements.Property

variable {table : Table}

def TameBelow (properties : List Property) : Prop := ∀ p ∈ properties, Tame p.attributes

theorem Tame.below {properties : List Property} (tame : Tame properties) : TameBelow properties :=
  fun _ member => tame.attributes member

theorem tameBelow_inherit {own layer : List Property} (distinct : Distinct layer)
    (ofOwn : TameBelow own) (ofLayer : TameBelow layer) : TameBelow (inherit own layer) := by
  induction own generalizing layer with
  | nil => rwa [inherit_of_nil distinct]
  | cons o own ih =>
    rw [inherit_cons_own distinct]
    intro p member
    rcases List.mem_cons.mp member with rfl | member
    · cases found : find? o.key layer with
      | none =>
        rw [filledIn_of_absent found]
        exact ofOwn o (by simp)
      | some x =>
        rw [filledIn_of_find? found]
        by_cases typed : o.typeName.isSome
        · rw [filledFrom_of_typed typed]
          exact ofOwn o (by simp)
        · rw [filledFrom_of_typeless (by simpa using typed)]
          exact tame_inherit (ofOwn o (by simp)) (ofLayer x (mem_of_find? found))
    · exact ih (distinct_without distinct _) (fun q inOwn => ofOwn q (by simp [inOwn]))
        (fun q inLayer => ofLayer q (mem_without.mp inLayer).1) p member

def Shown (table : Table) : List Property → List Property → Prop :=
  List.Forall₂ fun node made => made = node ∨ node.key = layoutKey ∧ Expanded table [node] [made]

theorem Shown.half {own view shown : List Property} (shows : Shown table view shown)
    (tame : Tame own) : Half table own view shown := by
  apply shows.imp
  intro node made either
  rcases either with same | ⟨isLayout, expanded⟩
  · exact .inl same
  · refine .inr ⟨expanded, fun o member same => ?_⟩
    have here := (everywhere_iff.mp tame o member).1
    exact ⟨here (same.trans isLayout), .inl (same.trans isLayout)⟩

structure Table.Advances (table now : Table) : Prop where
  shows : ∀ {key shown}, now key shown → ∃ view, table key view ∧ Shown table view shown
  names : ∀ {key view}, table key view → ∃ shown, now key shown

theorem Table.Advances.unnamed {now : Table} (advances : table.Advances now) {key : String}
    (unnamed : ∀ shown, ¬now key shown) (view : List Property) : ¬table key view := by
  intro named
  obtain ⟨shown, isNow⟩ := advances.names named
  exact unnamed shown isNow

/-- What the nodes hold that were made from shown views, they hold also when made from the views
as they were. -/
def Settles (table : Table) (nodes made : List Property) : Prop :=
  ∀ {own layer front : List Property}, nodes = inherit own front → Distinct own → Distinct layer →
    TameBelow own → TameBelow layer → Half table own layer front →
      Expanded table (inherit own layer) made

theorem Opens.tameBelow (sound : table.Sound) {node : Property} {inside : List Property}
    (opens : Opens table node inside) (tame : Tame node.attributes) : TameBelow inside := by
  cases opens with
  | layout => exact tame.below
  | unknown => exact tame.below
  | view _ _ named => exact tameBelow_inherit (sound.distinct named) tame.below (sound.tame named)

/-- A node that was not made yet. -/
theorem Opens.settled_same (sound : table.Sound) {now : Table} (advances : table.Advances now)
    {node : Property} {inside attributes : List Property} (opens : Opens now node inside)
    (distinct : Distinct node.attributes) (tame : Tame node.attributes)
    (settles : Settles table inside attributes) :
    ∃ before, Opens table node before ∧ Expanded table before attributes := by
  have alone : Settles table node.attributes attributes → Expanded table node.attributes attributes := by
    intro settles
    have empty : TameBelow [] := by simp [TameBelow]
    have expanded := settles (inherit_of_nil distinct).symm distinct_nil distinct empty tame.below
      (.refl _ _)
    rwa [inherit_of_nil distinct] at expanded
  cases opens with
  | layout isLayout => exact ⟨_, .layout isLayout, alone settles⟩
  | unknown inner names unnamed =>
    exact ⟨_, .unknown inner names (advances.unnamed unnamed), alone settles⟩
  | view inner names named =>
    obtain ⟨view, isView, shows⟩ := advances.shows named
    refine ⟨_, .view inner names isView, ?_⟩
    exact settles rfl distinct (sound.distinct isView) tame.below (sound.tame isView) (shows.half tame)

/-- The view of a node that was made brings nothing anew. -/
theorem Opens.inherit_shown (sound : table.Sound) {now : Table} (advances : table.Advances now)
    {node : Property} {inside made shown : List Property} (opens : Opens table node inside)
    (below : Expanded table inside made) (distinct : Distinct node.attributes)
    (tame : Tame node.attributes) (inner : node.key ≠ layoutKey) (named : now node.key shown) :
    inherit made shown = made := by
  obtain ⟨view, isView, shows⟩ := advances.shows named
  obtain rfl := opens.unique sound (.view inner (opens.not_closed inner) isView)
  exact below.absorbs sound rfl distinct (sound.distinct isView) (shows.half tame)

/-- A node that was made by now. -/
theorem Opens.settled_made (sound : table.Sound) {now : Table} (advances : table.Advances now)
    {node : Property} {inside again made attributes : List Property} (opens : Opens table node inside)
    (below : Expanded table inside made) (distinct : Distinct node.attributes)
    (tame : Tame node.attributes) (opensNow : Opens now (node.holding made) again)
    (settles : Settles table again attributes) : Expanded table inside attributes := by
  have ofInside := opens.distinct sound distinct
  have same : again = made := by
    cases opensNow with
    | layout => rfl
    | unknown => rfl
    | view inner _ named => exact opens.inherit_shown sound advances below distinct tame inner named
  have empty : TameBelow [] := by simp [TameBelow]
  have expanded := settles (same.trans (inherit_of_nil (below.distinct sound ofInside)).symm)
    distinct_nil ofInside empty (opens.tameBelow sound tame) (half_of_expanded everywhere_nil below)
  rwa [inherit_of_nil ofInside] at expanded

theorem filledFrom_holding {own : Property} (typeless : own.typeName = none) (p : Property)
    (made : List Property) :
    filledFrom own (p.holding made) = (filledFrom own p).holding (inherit own.attributes made) := by
  rw [filledFrom_of_typeless typeless, filledFrom_of_typeless typeless]
  rfl

/-- A node that takes in one that was made by now. -/
theorem Opens.settled_joined (sound : table.Sound) {now : Table} (advances : table.Advances now)
    {own node : Property} {inside again made attributes : List Property} (same : own.key = node.key)
    (typeless : own.typeName = none) (solid : Solid own.attributes) (ofOwn : Distinct own.attributes)
    (opens : Opens table node inside) (below : Expanded table inside made)
    (distinct : Distinct node.attributes) (tame : Tame node.attributes)
    (opensNow : Opens now (filledFrom own (node.holding made)) again)
    (settles : Settles table again attributes) :
    ∃ before, Opens table (filledFrom own node) before ∧ Expanded table before attributes := by
  have ofInside := opens.distinct sound distinct
  have ofMade := below.distinct sound ofInside
  have holds : (filledFrom own node).attributes = inherit own.attributes node.attributes := by
    rw [filledFrom_of_typeless typeless]
  have settled : again = inherit own.attributes made →
      Expanded table (inherit own.attributes inside) attributes := fun joined =>
    settles joined ofOwn ofInside solid.tame.below (opens.tameBelow sound tame)
      (half_of_expanded solid below)
  have key : (filledFrom own node).key = node.key := by rw [filledFrom_key, same]
  rw [filledFrom_holding typeless] at opensNow
  cases opensNow with
  | layout isLayout =>
    have isLayout' : (filledFrom own node).key = layoutKey := isLayout
    obtain rfl := opens.unique sound (.layout (key.symm.trans isLayout'))
    exact ⟨_, .layout isLayout', holds ▸ settled rfl⟩
  | unknown inner names unnamed =>
    have inner' : (filledFrom own node).key ≠ layoutKey := inner
    have unnamed' := advances.unnamed unnamed
    rw [holding_key, key] at unnamed'
    rw [key] at inner'
    obtain rfl := opens.unique sound (.unknown inner' (opens.not_closed inner') unnamed')
    exact ⟨_, .unknown inner names (key ▸ unnamed'), holds ▸ settled rfl⟩
  | @view shown inner names named =>
    have inner' : (filledFrom own node).key ≠ layoutKey := inner
    rw [holding_key, key] at named
    rw [key] at inner'
    have gains := opens.inherit_shown sound advances below distinct tame inner' named
    obtain ⟨view, isView, shows⟩ := advances.shows named
    have ofView := sound.distinct isView
    have ofShown : Distinct shown := (shows.half everywhere_nil).distinct sound ofView
    obtain rfl := opens.unique sound (.view inner' (opens.not_closed inner') isView)
    have joined : inherit ((filledFrom own node).holding (inherit own.attributes made)).attributes shown =
        inherit own.attributes made := (inherit_assoc _ ofMade ofShown).trans (by rw [gains])
    have expanded := settled joined
    rw [← inherit_assoc _ distinct ofView, ← holds] at expanded
    exact ⟨_, .view inner names (key ▸ isView), expanded⟩

theorem Ready.eq_of_made_closed {own : List Property} {node front : Property}
    (ready : Ready table own node front) (inner : front.key ≠ layoutKey) (plain : ¬front.namesView) :
    front = node := by
  rcases ready with same | ⟨expanded, -⟩
  · exact same
  · rcases expanded_singleton.mp expanded with ⟨same, -⟩ | ⟨_, _, opens, -, rfl⟩
    · exact same
    · exact absurd (opens.not_closed inner) plain

/-- Where the filled gap is not gone through, it does not matter whether what fills it was
expanded. -/
theorem Ready.filledFrom_eq {own : List Property} {o node front : Property} (member : o ∈ own)
    (same : o.key = node.key) (ready : Ready table own node front)
    (inner : (filledFrom o front).key ≠ layoutKey) (plain : ¬(filledFrom o front).namesView) :
    filledFrom o node = filledFrom o front := by
  rcases ready with rfl | ⟨expanded, onto⟩
  · rfl
  · rw [filledFrom_key] at inner
    by_cases typed : o.typeName.isSome
    · rw [filledFrom_of_typed typed, filledFrom_of_typed typed]
    · have typeless : o.typeName = none := by simpa using typed
      have unvalued : ¬o.isValued := by
        rcases (onto o member same).2 with isLayout | ownTyped | unvalued
        · exact absurd isLayout inner
        · exact absurd ownTyped typed
        · exact unvalued
      rcases expanded_singleton.mp expanded with ⟨rfl, -⟩ | ⟨_, _, opens, -, rfl⟩
      · rfl
      · have names := namesView_iff.mp (opens.not_closed (same ▸ inner))
        refine absurd (namesView_iff.mpr ⟨?_, by rwa [isValued_filledFrom]⟩) plain
        rw [filledFrom_of_typeless typeless]
        exact names.1

/-- A node of the layer that nothing took in. -/
theorem Ready.settled_alone (sound : table.Sound) {now : Table} (advances : table.Advances now)
    {own inside attributes : List Property} {node front : Property} (ready : Ready table own node front)
    (distinct : Distinct node.attributes) (tame : Tame node.attributes)
    (opens : Opens now front inside) (settles : Settles table inside attributes) :
    ∃ before, Opens table node before ∧ Expanded table before attributes ∧
      front.holding attributes = node.holding attributes := by
  have same : front = node → ∃ before, Opens table node before ∧ Expanded table before attributes ∧
      front.holding attributes = node.holding attributes := by
    rintro rfl
    obtain ⟨before, opensBefore, expanded⟩ := opens.settled_same sound advances distinct tame settles
    exact ⟨before, opensBefore, expanded, rfl⟩
  rcases ready with isSame | ⟨expanded, -⟩
  · exact same isSame
  · rcases expanded_singleton.mp expanded with ⟨isSame, -⟩ | ⟨_, made, opens', below, rfl⟩
    · exact same isSame
    · have whole := opens'.settled_made sound advances below distinct tame opens settles
      exact ⟨_, opens', whole, rfl⟩

/-- A node that took in one of the layer. -/
theorem Ready.settled_joined (sound : table.Sound) {now : Table} (advances : table.Advances now)
    {own inside attributes : List Property} {o node front : Property} (member : o ∈ own)
    (same : o.key = node.key) (ready : Ready table own node front) (ofOwn : Distinct o.attributes)
    (distinct : Distinct node.attributes) (tame : Tame node.attributes)
    (ofWhole : Distinct (filledFrom o node).attributes) (tameWhole : Tame (filledFrom o node).attributes)
    (opens : Opens now (filledFrom o front) inside) (settles : Settles table inside attributes) :
    ∃ before, Opens table (filledFrom o node) before ∧ Expanded table before attributes ∧
      (filledFrom o front).holding attributes = (filledFrom o node).holding attributes := by
  have alike : filledFrom o front = filledFrom o node →
      ∃ before, Opens table (filledFrom o node) before ∧ Expanded table before attributes ∧
        (filledFrom o front).holding attributes = (filledFrom o node).holding attributes := by
    intro isSame
    rw [isSame] at opens ⊢
    obtain ⟨before, opensBefore, expanded⟩ := opens.settled_same sound advances ofWhole tameWhole settles
    exact ⟨before, opensBefore, expanded, rfl⟩
  rcases ready with rfl | ⟨expanded, onto⟩
  · exact alike rfl
  · by_cases typed : o.typeName.isSome
    · exact alike (by rw [filledFrom_of_typed typed, filledFrom_of_typed typed])
    · have typeless : o.typeName = none := by simpa using typed
      rcases expanded_singleton.mp expanded with ⟨rfl, -⟩ | ⟨_, made, opens', below, rfl⟩
      · exact alike rfl
      · obtain ⟨before, opensBefore, whole⟩ := opens'.settled_joined sound advances same typeless
          (onto o member same).1 ofOwn below distinct tame opens settles
        refine ⟨before, opensBefore, whole, ?_⟩
        rw [filledFrom_holding typeless]
        rfl

/-- Where the first node is not gone through, the layer fills it as it was or expanded. -/
theorem Half.filledIn_eq {own layer front : List Property} {o : Property}
    (half : Half table (o :: own) layer front) (inner : (filledIn front o).key ≠ layoutKey)
    (plain : ¬(filledIn front o).namesView) : filledIn layer o = filledIn front o := by
  rcases half.find? o.key with ⟨absent, absentFront⟩ | ⟨x, y, found, foundFront, ready⟩
  · rw [filledIn_of_absent absent, filledIn_of_absent absentFront]
  · rw [filledIn_of_find? foundFront] at inner plain
    rw [filledIn_of_find? found, filledIn_of_find? foundFront]
    exact ready.filledFrom_eq (by simp) (key_of_find? found).symm inner plain

/-- Where the first node is gone through, it does not matter either. -/
theorem Half.settled_head (sound : table.Sound) {now : Table} (advances : table.Advances now)
    {own layer front inside attributes : List Property} {o : Property}
    (half : Half table (o :: own) layer front) (ofOwn : Distinct o.attributes) (ofLayer : Distinct layer)
    (tameLayer : TameBelow layer) (ofWhole : Distinct (filledIn layer o).attributes)
    (tameWhole : Tame (filledIn layer o).attributes) (opens : Opens now (filledIn front o) inside)
    (settles : Settles table inside attributes) :
    ∃ before, Opens table (filledIn layer o) before ∧ Expanded table before attributes ∧
      (filledIn front o).holding attributes = (filledIn layer o).holding attributes := by
  rcases half.find? o.key with ⟨absent, absentFront⟩ | ⟨x, y, found, foundFront, ready⟩
  · rw [filledIn_of_absent absentFront] at opens ⊢
    rw [filledIn_of_absent absent] at ofWhole tameWhole ⊢
    obtain ⟨before, opensBefore, whole⟩ := opens.settled_same sound advances ofWhole tameWhole settles
    exact ⟨before, opensBefore, whole, rfl⟩
  · have inLayer := mem_of_find? found
    rw [filledIn_of_find? foundFront] at opens ⊢
    rw [filledIn_of_find? found] at ofWhole tameWhole ⊢
    exact ready.settled_joined sound advances List.mem_cons_self (key_of_find? found).symm ofOwn
      (distinct_attributes ofLayer inLayer) (tameLayer x inLayer) ofWhole tameWhole opens settles

/-- Expansions from shown views are expansions from the views as they were. -/
theorem Expanded.settles (sound : table.Sound) {now : Table} (advances : table.Advances now)
    {nodes made : List Property} (expanded : Expanded now nodes made) : Settles table nodes made := by
  induction expanded with
  | nil =>
    intro own layer front joined _ ofLayer _ _ half
    have ofFront := half.distinct sound ofLayer
    cases own with
    | nil =>
      rw [inherit_of_nil ofFront] at joined
      subst joined
      cases half
      rw [inherit_nil]
      exact .nil
    | cons =>
      rw [inherit_cons_own ofFront] at joined
      cases joined
  | @closed node rest more inner plain others ih =>
    intro own layer front joined ofOwn ofLayer tameOwn tameLayer half
    have ofFront := half.distinct sound ofLayer
    cases own with
    | nil =>
      rw [inherit_of_nil ofFront] at joined
      subst joined
      cases half with
      | cons ready half =>
        obtain rfl := ready.eq_of_made_closed inner plain
        rw [inherit_of_nil ofLayer]
        rw [distinct_cons] at ofLayer ofFront
        have behind := ih (inherit_of_nil ofFront.2.2).symm distinct_nil ofLayer.2.2 tameOwn
          (fun q member => tameLayer q (by simp [member])) half
        rw [inherit_of_nil ofLayer.2.2] at behind
        exact .closed inner plain behind
    | cons o own =>
      rw [inherit_cons_own ofFront] at joined
      obtain ⟨rfl, rfl⟩ := List.cons.inj joined
      rw [distinct_cons] at ofOwn
      have behind := ih rfl ofOwn.2.2 (distinct_without ofLayer o.key)
        (fun q member => tameOwn q (by simp [member]))
        (fun q member => tameLayer q (mem_without.mp member).1)
        ((half.of_own (List.subset_cons_self o own)).without o.key)
      rw [inherit_cons_own ofLayer, half.filledIn_eq inner plain]
      exact .closed inner plain behind
  | @opened node inside attributes rest more opens below others ihBelow ihOthers =>
    intro own layer front joined ofOwn ofLayer tameOwn tameLayer half
    have ofFront := half.distinct sound ofLayer
    cases own with
    | nil =>
      rw [inherit_of_nil ofFront] at joined
      subst joined
      cases half with
      | @cons first _ layer _ ready half =>
        rw [inherit_of_nil ofLayer]
        rw [distinct_cons] at ofLayer ofFront
        have behind := ihOthers (inherit_of_nil ofFront.2.2).symm distinct_nil ofLayer.2.2 tameOwn
          (fun q member => tameLayer q (by simp [member])) half
        rw [inherit_of_nil ofLayer.2.2] at behind
        obtain ⟨before, opensBefore, whole, holds⟩ :=
          ready.settled_alone sound advances ofLayer.2.1 (tameLayer first (by simp)) opens ihBelow
        rw [holds]
        exact .opened opensBefore whole behind
    | cons o own =>
      rw [inherit_cons_own ofFront] at joined
      obtain ⟨rfl, rfl⟩ := List.cons.inj joined
      have ofWhole := distinct_inherit ofOwn ofLayer
      have tameWhole := tameBelow_inherit ofLayer tameOwn tameLayer
      rw [inherit_cons_own ofLayer] at ofWhole tameWhole ⊢
      rw [distinct_cons] at ofOwn ofWhole
      have behind := ihOthers rfl ofOwn.2.2 (distinct_without ofLayer o.key)
        (fun q member => tameOwn q (by simp [member]))
        (fun q member => tameLayer q (mem_without.mp member).1)
        ((half.of_own (List.subset_cons_self o own)).without o.key)
      obtain ⟨before, opensBefore, whole, holds⟩ := half.settled_head sound advances ofOwn.2.1 ofLayer
        tameLayer ofWhole.2.1 (tameWhole _ (by simp)) opens ihBelow
      rw [holds]
      exact .opened opensBefore whole behind

/-- Nodes that are expanded from shown views are expanded from the views as they were. -/
theorem Expanded.settled (sound : table.Sound) {now : Table} (advances : table.Advances now)
    {nodes made : List Property} (expanded : Expanded now nodes made) (distinct : Distinct nodes)
    (tame : TameBelow nodes) : Expanded table nodes made := by
  have settles := expanded.settles sound advances (inherit_nil nodes).symm distinct distinct_nil tame
    (by simp [TameBelow]) (.refl nodes [])
  rwa [inherit_nil] at settles

theorem Shown.refl (table : Table) (view : List Property) : Shown table view view :=
  List.forall₂_same.mpr fun _ _ => .inl rfl

/-- A view of which the first layout is expanded is shown. -/
theorem shown_modifyFirst {view nodes : List Property} {layout : Property}
    (found : find? layoutKey view = some layout) (made : Expanded table layout.attributes nodes) :
    Shown table view (modifyFirst layoutKey (·.holding nodes) view) := by
  induction view with
  | nil => cases found
  | cons p rest ih =>
    rw [modifyFirst]
    split
    next isLayout =>
      obtain rfl : p = layout := by simpa [find?, isLayout] using found
      exact .cons (.inr ⟨isLayout, .opened (.layout isLayout) made .nil⟩) (Shown.refl table rest)
    next inner =>
      exact .cons (.inl rfl) (ih (by simpa [find?, inner] using found))

/-- Expanded nodes name no other views than the nodes and the views that they name. -/
theorem Expanded.namesIn {keys : String → Prop} {nodes made : List Property}
    (expanded : Expanded table nodes made) (ofNodes : NamesIn keys nodes)
    (ofViews : ∀ {key view}, table key view → NamesIn keys view) : NamesIn keys made := by
  induction expanded with
  | nil => exact ofNodes
  | closed _ _ _ ih =>
    obtain ⟨here, below, others⟩ := everywhere_cons.mp ofNodes
    exact everywhere_cons.mpr ⟨here, below, ih others⟩
  | opened opens _ _ ihBelow ihOthers =>
    obtain ⟨here, below, others⟩ := everywhere_cons.mp ofNodes
    refine everywhere_cons.mpr ⟨here, ihBelow ?_, ihOthers others⟩
    cases opens with
    | layout => exact below
    | unknown => exact below
    | view _ _ named => exact namesIn_inherit below (ofViews named)

theorem Shown.namesIn {keys : String → Prop} {view shown : List Property} (shows : Shown table view shown)
    (ofView : NamesIn keys view) (ofViews : ∀ {key view}, table key view → NamesIn keys view) :
    NamesIn keys shown := by
  induction shows with
  | nil => exact ofView
  | cons either _ ih =>
    obtain ⟨here, below, others⟩ := everywhere_cons.mp ofView
    rcases either with rfl | ⟨-, expanded⟩
    · exact everywhere_cons.mpr ⟨here, below, ih others⟩
    · have alone := expanded.namesIn (everywhere_cons.mpr ⟨here, below, everywhere_nil⟩) ofViews
      obtain ⟨hereMade, belowMade, -⟩ := everywhere_cons.mp alone
      exact everywhere_cons.mpr ⟨hereMade, belowMade, ih others⟩

end Requirements.Property
