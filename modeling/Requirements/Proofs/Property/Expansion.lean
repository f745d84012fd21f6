import Requirements.Proofs.Property.Everywhere
import Mathlib.Data.List.Forall2

/-! Expanded layouts, as a relation apart from any run. A table tells the properties of the
view that a key names. Nodes that were expanded take in nothing anew when what they were made
of comes again, be it as it was or expanded. -/
namespace Requirements.Property

abbrev Table := String → List Property → Prop

def holding (node : Property) (attributes : List Property) : Property := { node with attributes }

@[simp] theorem holding_key (node : Property) (attributes : List Property) :
    (node.holding attributes).key = node.key := rfl

/-- The nodes that stand for the inside of a node before they are expanded. -/
inductive Opens (table : Table) : Property → List Property → Prop
  | layout {node : Property} (isLayout : node.key = layoutKey) : Opens table node node.attributes
  | unknown {node : Property} (inner : node.key ≠ layoutKey) (names : node.namesView)
      (unnamed : ∀ view, ¬table node.key view) : Opens table node node.attributes
  | view {node : Property} {view : List Property} (inner : node.key ≠ layoutKey)
      (names : node.namesView) (named : table node.key view) :
      Opens table node (inherit node.attributes view)

inductive Expanded (table : Table) : List Property → List Property → Prop
  | nil : Expanded table [] []
  | closed {node : Property} {rest more : List Property} (inner : node.key ≠ layoutKey)
      (plain : ¬node.namesView) (others : Expanded table rest more) :
      Expanded table (node :: rest) (node :: more)
  | opened {node : Property} {inside attributes rest more : List Property}
      (opens : Opens table node inside) (below : Expanded table inside attributes)
      (others : Expanded table rest more) :
      Expanded table (node :: rest) (node.holding attributes :: more)

structure Table.Sound (table : Table) : Prop where
  functional : ∀ {key first second}, table key first → table key second → first = second
  distinct : ∀ {key view}, table key view → Distinct view
  tame : ∀ {key view}, table key view → ∀ p ∈ view, Tame p.attributes

variable {table : Table}

theorem Opens.not_closed {node : Property} {inside : List Property} (opens : Opens table node inside)
    (inner : node.key ≠ layoutKey) : node.namesView := by
  cases opens with
  | layout isLayout => exact absurd isLayout inner
  | unknown _ names _ => exact names
  | view _ names _ => exact names

theorem Opens.unique (sound : table.Sound) {node : Property} {first second : List Property}
    (one : Opens table node first) (two : Opens table node second) : first = second := by
  cases one with
  | layout isLayout =>
    cases two with
    | layout => rfl
    | unknown inner => exact absurd isLayout inner
    | view inner => exact absurd isLayout inner
  | unknown inner _ unnamed =>
    cases two with
    | layout isLayout => exact absurd isLayout inner
    | unknown => rfl
    | view _ _ named => exact absurd named (unnamed _)
  | view inner _ named =>
    cases two with
    | layout isLayout => exact absurd isLayout inner
    | unknown _ _ unnamed => exact absurd named (unnamed _)
    | view _ _ other => rw [sound.functional named other]

/-- Nodes have one expansion at most. -/
theorem Expanded.unique (sound : table.Sound) {nodes first second : List Property}
    (one : Expanded table nodes first) (two : Expanded table nodes second) : first = second := by
  induction one generalizing second with
  | nil => cases two; rfl
  | closed inner plain _ ih =>
    cases two with
    | closed _ _ others => rw [ih others]
    | opened opens => exact absurd (opens.not_closed inner) plain
  | opened opens _ _ ihBelow ihOthers =>
    cases two with
    | closed inner plain => exact absurd (opens.not_closed inner) plain
    | opened opens' below' others' =>
      obtain rfl := opens.unique sound opens'
      rw [ihBelow below', ihOthers others']

theorem Expanded.map_key {nodes made : List Property} (expanded : Expanded table nodes made) :
    made.map key = nodes.map key := by
  induction expanded with
  | nil => rfl
  | closed _ _ _ ih => rw [List.map_cons, List.map_cons, ih]
  | opened _ _ _ _ ih => rw [List.map_cons, List.map_cons, ih, holding_key]

theorem Opens.distinct (sound : table.Sound) {node : Property} {inside : List Property}
    (opens : Opens table node inside) (ofNode : Distinct node.attributes) : Distinct inside := by
  cases opens with
  | layout => exact ofNode
  | unknown => exact ofNode
  | view _ _ named => exact distinct_inherit ofNode (sound.distinct named)

theorem fresh_of_map_key {nodes made : List Property} (same : made.map key = nodes.map key)
    {name : String} (fresh : ∀ q ∈ nodes, q.key ≠ name) : ∀ q ∈ made, q.key ≠ name := by
  intro q member equal
  have inNodes : name ∈ nodes.map key := same ▸ equal ▸ List.mem_map_of_mem member
  obtain ⟨p, inNodes, equal⟩ := List.mem_map.mp inNodes
  exact fresh p inNodes equal

theorem Expanded.distinct (sound : table.Sound) {nodes made : List Property}
    (expanded : Expanded table nodes made) (ofNodes : Distinct nodes) : Distinct made := by
  induction expanded with
  | nil => exact ofNodes
  | closed _ _ others ih =>
    rw [distinct_cons] at ofNodes ⊢
    exact ⟨fresh_of_map_key others.map_key ofNodes.1, ofNodes.2.1, ih ofNodes.2.2⟩
  | opened opens _ others ihBelow ihOthers =>
    rw [distinct_cons] at ofNodes ⊢
    exact ⟨fresh_of_map_key others.map_key ofNodes.1, ihBelow (opens.distinct sound ofNodes.2.1),
      ihOthers ofNodes.2.2⟩

/-- A node alone is expanded. -/
theorem expanded_singleton {node made : Property} :
    Expanded table [node] [made] ↔
      (made = node ∧ node.key ≠ layoutKey ∧ ¬node.namesView) ∨
        ∃ inside attributes, Opens table node inside ∧ Expanded table inside attributes ∧
          made = node.holding attributes := by
  constructor
  · intro expanded
    cases expanded with
    | closed inner plain => exact .inl ⟨rfl, inner, plain⟩
    | opened opens below => exact .inr ⟨_, _, opens, below, rfl⟩
  · rintro (⟨rfl, inner, plain⟩ | ⟨inside, attributes, opens, below, rfl⟩)
    · exact .closed inner plain .nil
    · exact .opened opens below .nil

/-- What is taken in behind the nodes has in part been expanded already, and where it was,
the node that takes it in is one that the expansion goes through. -/
def Ready (table : Table) (own : List Property) (node made : Property) : Prop :=
  made = node ∨ Expanded table [node] [made] ∧ ∀ o ∈ own, o.key = node.key →
    Solid o.attributes ∧ (o.key = layoutKey ∨ o.typeName.isSome ∨ ¬o.isValued)

/-- The layer, expanded in part, as it is taken in by the nodes. -/
def Half (table : Table) (own : List Property) : List Property → List Property → Prop :=
  List.Forall₂ (Ready table own)

theorem Ready.key_eq {own : List Property} {node made : Property} (ready : Ready table own node made) :
    made.key = node.key := by
  rcases ready with rfl | ⟨expanded, -⟩
  · rfl
  · simpa using expanded.map_key

theorem Half.refl (own layer : List Property) : Half table own layer layer :=
  List.forall₂_same.mpr fun _ _ => .inl rfl

theorem Half.of_own {own less layer front : List Property} (half : Half table own layer front)
    (within : less ⊆ own) : Half table less layer front := by
  apply half.imp
  intro node made ready
  rcases ready with same | ⟨expanded, onto⟩
  · exact .inl same
  · exact .inr ⟨expanded, fun o member => onto o (within member)⟩

theorem Half.map_key {own layer front : List Property} (half : Half table own layer front) :
    front.map key = layer.map key := by
  induction half with
  | nil => rfl
  | cons ready _ ih => rw [List.map_cons, List.map_cons, ih, ready.key_eq]

theorem Half.without {own layer front : List Property} (half : Half table own layer front)
    (name : String) : Half table own (without name layer) (without name front) := by
  induction half with
  | nil => exact .nil
  | @cons node made _ _ ready _ ih =>
    by_cases same : node.key = name
    · have sameMade : made.key = name := ready.key_eq.trans same
      subst same
      rw [without_cons_self, ← sameMade, without_cons_self, sameMade]
      exact ih
    · have differs : made.key ≠ name := ready.key_eq ▸ same
      rw [without_cons_of_ne same, without_cons_of_ne differs]
      exact .cons ready ih

theorem Half.find? {own layer front : List Property} (half : Half table own layer front)
    (name : String) :
    (find? name layer = none ∧ find? name front = none) ∨
      ∃ node made, find? name layer = some node ∧ find? name front = some made ∧
        Ready table own node made := by
  induction half with
  | nil => exact .inl ⟨rfl, rfl⟩
  | @cons node made _ _ ready _ ih =>
    have sameKey := ready.key_eq
    by_cases here : node.key = name
    · exact .inr ⟨node, made, by simp [Property.find?, here], by simp [Property.find?, sameKey, here], ready⟩
    · simpa [Property.find?, here, sameKey] using ih

/-- A layer that is expanded throughout may be taken in wherever values have types. -/
theorem half_of_expanded {own layer front : List Property} (solid : Solid own)
    (expanded : Expanded table layer front) : Half table own layer front := by
  have onto : ∀ o ∈ own, Solid o.attributes ∧ (o.typeName.isSome ∨ ¬o.isValued) := by
    intro o member
    obtain ⟨here, below⟩ := everywhere_iff.mp solid o member
    exact ⟨below, by grind⟩
  induction expanded with
  | nil => exact .nil
  | closed _ _ _ ih => exact .cons (.inl rfl) ih
  | opened opens below _ _ ih =>
    refine .cons (.inr ⟨.opened opens below .nil, fun o member _ => ?_⟩) ih
    exact ⟨(onto o member).1, .inr (onto o member).2⟩

theorem Half.distinct (sound : table.Sound) {own layer front : List Property}
    (half : Half table own layer front) (ofLayer : Distinct layer) : Distinct front := by
  induction half with
  | nil => exact ofLayer
  | cons ready others ih =>
    rw [distinct_cons] at ofLayer ⊢
    refine ⟨?_, ?_, ih ofLayer.2.2⟩
    · rw [ready.key_eq]
      exact fresh_of_map_key (Half.map_key others) ofLayer.1
    · rcases ready with rfl | ⟨expanded, -⟩
      · exact ofLayer.2.1
      · have alone : Distinct [_] := distinct_cons.mpr ⟨by simp, ofLayer.2.1, distinct_nil⟩
        exact (distinct_cons.mp (expanded.distinct sound alone)).2.1

theorem inherit_self {properties : List Property} (distinct : Distinct properties) :
    inherit properties properties = properties := by
  have once := layering.once [] distinct
  rwa [inherit_of_nil distinct] at once

/-- What two layers together add nothing to, the first adds nothing to. -/
theorem inherit_left_of_inherit {own first second : List Property} (ofFirst : Distinct first)
    (ofSecond : Distinct second) (covers : inherit own (inherit first second) = own) :
    inherit own first = own := by
  have again := layering.again own ofFirst ofSecond
  rw [layering.assoc ofFirst ofSecond, covers] at again
  exact again

theorem filledFrom_again (own : Property) {p : Property} (distinct : Distinct p.attributes) :
    filledFrom (filledFrom own p) p = filledFrom own p := by
  by_cases typed : (filledFrom own p).typeName.isSome
  · exact filledFrom_of_typed typed p
  · obtain ⟨ownTypeless, typeless⟩ := typeless_of_filledFrom (by simpa using typed)
    have filled := filledFrom_of_typeless ownTypeless p
    refine filledFrom_self_of_nested ?_ ?_ fun _ => typeless
    · rw [filled]
      exact layering.once own.attributes distinct
    · rw [filled]
      cases own.presence <;> simp

/-- What the inside of a node adds nothing to, its attributes add nothing to. -/
theorem Opens.covers (sound : table.Sound) {node : Property} {inside made : List Property}
    (opens : Opens table node inside) (ofNode : Distinct node.attributes)
    (covers : inherit made inside = made) : inherit made node.attributes = made := by
  cases opens with
  | layout => exact covers
  | unknown => exact covers
  | view _ _ named => exact inherit_left_of_inherit ofNode (sound.distinct named) covers

/-- The inside of a filled gap is that of what fills it, taken in. -/
theorem Opens.of_filledFrom (sound : table.Sound) {own p : Property} {inside : List Property}
    (same : own.key = p.key) (typeless : own.typeName = none) (ofP : Distinct p.attributes)
    (opens : Opens table (filledFrom own p) inside) :
    ∃ layer, inside = inherit own.attributes layer ∧ Distinct layer ∧
      (∀ made, inherit made layer = made → inherit made p.attributes = made) ∧
      ∀ other, Opens table p other → other = layer := by
  have attributes : (filledFrom own p).attributes = inherit own.attributes p.attributes := by
    rw [filledFrom_of_typeless typeless]
  cases opens with
  | layout isLayout =>
    rw [filledFrom_key, same] at isLayout
    exact ⟨p.attributes, attributes, ofP, fun _ covers => covers, fun other opens =>
      opens.unique sound (.layout isLayout)⟩
  | unknown inner _ unnamed =>
    rw [filledFrom_key, same] at inner unnamed
    refine ⟨p.attributes, attributes, ofP, fun _ covers => covers, fun other opens => ?_⟩
    exact opens.unique sound (.unknown inner (opens.not_closed inner) unnamed)
  | @view view inner _ named =>
    rw [filledFrom_key, same] at inner named
    have ofView := sound.distinct named
    refine ⟨inherit p.attributes view, ?_, distinct_inherit ofP ofView,
      fun _ covers => inherit_left_of_inherit ofP ofView covers, fun other opens => ?_⟩
    · rw [attributes, inherit_assoc _ ofP ofView]
    · exact opens.unique sound (.view inner (opens.not_closed inner) named)

theorem inherit_cons_cons {own layer : List Property} {o p : Property} (same : o.key = p.key)
    (distinct : Distinct (p :: layer)) :
    inherit (o :: own) (p :: layer) = filledFrom o p :: inherit own layer := by
  have found : find? o.key (p :: layer) = some p := by simp [find?, same]
  have fresh := (distinct_cons.mp distinct).1
  rw [inherit_cons_own distinct, filledIn_of_find? found, same, without_cons_self, without_eq_self fresh]

/-- A node that was made takes in nothing where its attributes do not. -/
theorem filledFrom_made {node : Property} {attributes : List Property} {p : Property}
    (covers : node.typeName = none → p.typeName = none ∧ (node.presence = none → p.presence = none) ∧
      inherit attributes p.attributes = attributes) :
    filledFrom (node.holding attributes) p = node.holding attributes := by
  by_cases typed : node.typeName.isSome
  · have madeTyped : (node.holding attributes).typeName.isSome := typed
    exact filledFrom_of_typed madeTyped p
  · obtain ⟨typeless, presence, covered⟩ := covers (by simpa using typed)
    exact filledFrom_self_of_nested covered presence fun _ => typeless

/-- The nodes that were made lack nothing of what was taken in before they were expanded, be it
as it was or expanded by now. -/
def Absorbs (table : Table) (nodes made : List Property) : Prop :=
  ∀ {own layer front : List Property}, nodes = inherit own layer → Distinct own → Distinct layer →
    Half table own layer front → inherit made front = made

theorem Ready.eq_of_closed {own : List Property} {node front : Property}
    (ready : Ready table own node front) (inner : node.key ≠ layoutKey) (plain : ¬node.namesView) :
    front = node := by
  rcases ready with same | ⟨expanded, -⟩
  · exact same
  · rcases expanded_singleton.mp expanded with ⟨same, -⟩ | ⟨_, _, opens, -⟩
    · exact same
    · exact absurd (opens.not_closed inner) plain

theorem Ready.absorbed_closed {own : List Property} {o node front : Property} (member : o ∈ own)
    (same : o.key = node.key) (ready : Ready table own node front) (ofNode : Distinct node.attributes)
    (inner : (filledFrom o node).key ≠ layoutKey) (plain : ¬(filledFrom o node).namesView) :
    filledFrom (filledFrom o node) front = filledFrom o node := by
  rcases ready with rfl | ⟨-, onto⟩
  · exact filledFrom_again o ofNode
  · rw [filledFrom_key] at inner
    by_cases typed : (filledFrom o node).typeName.isSome
    · exact filledFrom_of_typed typed front
    · have typeless : (filledFrom o node).typeName = none := by simpa using typed
      rcases (onto o member same).2 with isLayout | ownTyped | unvalued
      · exact absurd isLayout inner
      · exact absurd (typeName_filledFrom ownTyped) typed
      · exact absurd (namesView_iff.mpr ⟨typeless, by rwa [isValued_filledFrom]⟩) plain

theorem Ready.absorbed_alone (sound : table.Sound) {own inside attributes : List Property}
    {node front : Property} (ready : Ready table own node front) (ofNode : Distinct node.attributes)
    (opens : Opens table node inside) (below : Expanded table inside attributes)
    (absorbs : Absorbs table inside attributes) :
    filledFrom (node.holding attributes) front = node.holding attributes := by
  have ofInside := opens.distinct sound ofNode
  have whole : front = node → filledFrom (node.holding attributes) front = node.holding attributes := by
    rintro rfl
    refine filledFrom_made fun typeless => ⟨typeless, id, opens.covers sound ofNode ?_⟩
    exact absorbs (inherit_of_nil ofInside).symm distinct_nil ofInside (.refl _ _)
  rcases ready with same | ⟨expanded, -⟩
  · exact whole same
  · rcases expanded_singleton.mp expanded with ⟨same, -⟩ | ⟨_, made, opens', below', rfl⟩
    · exact whole same
    · obtain rfl := opens.unique sound opens'
      obtain rfl := below.unique sound below'
      exact filledFrom_made fun typeless =>
        ⟨typeless, id, inherit_self (below.distinct sound ofInside)⟩

theorem Ready.absorbed_joined (sound : table.Sound) {own inside attributes : List Property}
    {o node front : Property} (member : o ∈ own) (same : o.key = node.key)
    (ready : Ready table own node front) (ofOwn : Distinct o.attributes)
    (ofNode : Distinct node.attributes) (opens : Opens table (filledFrom o node) inside)
    (absorbs : Absorbs table inside attributes) :
    filledFrom ((filledFrom o node).holding attributes) front = (filledFrom o node).holding attributes := by
  apply filledFrom_made
  intro typeless
  obtain ⟨ownTypeless, nodeTypeless⟩ := typeless_of_filledFrom typeless
  obtain ⟨layer, joined, ofLayer, covers, unique⟩ := opens.of_filledFrom sound same ownTypeless ofNode
  have presence : (filledFrom o node).presence = none → node.presence = none := by
    rw [filledFrom_of_typeless ownTypeless]
    cases o.presence <;> simp
  have whole := covers _ (absorbs joined ofOwn ofLayer (.refl _ _))
  rcases ready with rfl | ⟨expanded, onto⟩
  · exact ⟨nodeTypeless, presence, whole⟩
  · rcases expanded_singleton.mp expanded with ⟨rfl, -⟩ | ⟨_, made, opens', below, rfl⟩
    · exact ⟨nodeTypeless, presence, whole⟩
    · obtain rfl := unique _ opens'
      have solid := (onto o member same).1
      exact ⟨nodeTypeless, presence, absorbs joined ofOwn ofLayer (half_of_expanded solid below)⟩

/-- What was expanded takes in nothing anew. -/
theorem Expanded.absorbs (sound : table.Sound) {nodes made : List Property}
    (expanded : Expanded table nodes made) : Absorbs table nodes made := by
  induction expanded with
  | nil =>
    intro own layer front joined _ ofLayer half
    cases own with
    | nil =>
      rw [inherit_of_nil ofLayer] at joined
      subst joined
      cases half
      rfl
    | cons =>
      rw [inherit_cons_own ofLayer] at joined
      cases joined
  | @closed node rest more inner plain others ih =>
    intro own layer front joined ofOwn ofLayer half
    have ofFront := half.distinct sound ofLayer
    cases own with
    | nil =>
      rw [inherit_of_nil ofLayer] at joined
      subst joined
      cases half with
      | cons ready half =>
        obtain rfl := ready.eq_of_closed inner plain
        rw [distinct_cons] at ofLayer
        rw [inherit_cons_cons rfl ofFront, ih (inherit_of_nil ofLayer.2.2).symm distinct_nil ofLayer.2.2 half]
        have alone : Distinct [_] := distinct_cons.mpr ⟨by simp, ofLayer.2.1, distinct_nil⟩
        have self := inherit_self alone
        rw [inherit_cons_cons rfl alone] at self
        rw [(List.cons.inj self).1]
    | cons o own =>
      rw [inherit_cons_own ofLayer] at joined
      obtain ⟨rfl, rfl⟩ := List.cons.inj joined
      rw [distinct_cons] at ofOwn
      rw [inherit_cons_own ofFront, filledIn_key]
      have behind := ih rfl ofOwn.2.2 (distinct_without ofLayer o.key)
        ((half.of_own (List.subset_cons_self o own)).without o.key)
      rw [behind]
      congr 1
      rcases half.find? o.key with ⟨absent, absentFront⟩ | ⟨x, y, found, foundFront, ready⟩
      · exact filledIn_of_absent (by rwa [filledIn_key])
      · rw [filledIn_of_find? found] at inner plain ⊢
        rw [filledIn_of_find? (by rwa [filledFrom_key])]
        exact ready.absorbed_closed (by simp) (key_of_find? found).symm
          (distinct_attributes ofLayer (mem_of_find? found)) inner plain
  | @opened node inside attributes rest more opens below others ihBelow ihOthers =>
    intro own layer front joined ofOwn ofLayer half
    have ofFront := half.distinct sound ofLayer
    cases own with
    | nil =>
      rw [inherit_of_nil ofLayer] at joined
      subst joined
      cases half with
      | cons ready half =>
        rw [distinct_cons] at ofLayer
        have sameKey : (node.holding attributes).key = _ := ready.key_eq.symm
        rw [inherit_cons_cons sameKey ofFront,
          ihOthers (inherit_of_nil ofLayer.2.2).symm distinct_nil ofLayer.2.2 half,
          ready.absorbed_alone sound ofLayer.2.1 opens below ihBelow]
    | cons o own =>
      rw [inherit_cons_own ofLayer] at joined
      obtain ⟨rfl, rfl⟩ := List.cons.inj joined
      rw [distinct_cons] at ofOwn
      rw [inherit_cons_own ofFront]
      have behind := ihOthers rfl ofOwn.2.2 (distinct_without ofLayer o.key)
        ((half.of_own (List.subset_cons_self o own)).without o.key)
      have head : ((filledIn layer o).holding attributes).key = o.key := filledIn_key layer o
      rw [head, behind]
      congr 1
      rcases half.find? o.key with ⟨absent, absentFront⟩ | ⟨x, y, found, foundFront, ready⟩
      · exact filledIn_of_absent (by rwa [head])
      · rw [filledIn_of_find? (by rwa [head])]
        rw [filledIn_of_find? found] at opens ⊢
        exact ready.absorbed_joined sound (by simp) (key_of_find? found).symm ofOwn.2.1
          (distinct_attributes ofLayer (mem_of_find? found)) opens ihBelow

end Requirements.Property
