import Requirements.Proofs.Order.World
import Requirements.Proofs.Resolution.Laws

/-! Which declaration an element derives from, told from the declarations alone: the authored elements
come first, then whatever the repositories declare, and no declaration is its own ancestor. While
every dependency was drawn from a document, a climb from place to place is one from declaration to
declaration, unless an element of the repositories is designated by its own reference. -/
namespace Requirements

open Resolving (parent? namedTypes)

/-- What can be referred to: the authored elements in order, and those that repositories declare. -/
structure Sources where
  authored : Document
  library : Element → Prop

/-- A declaration: an authored one by its position, one of a repository as it was read. -/
inductive Origin
  | authored (index : Nat)
  | library (element : Element)

namespace Sources

def element? (sources : Sources) : Origin → Option Element
  | .authored index => sources.authored.elements[index]?
  | .library element => some element

def keyAt? (sources : Sources) (origin : Origin) : Option Element.Key :=
  (sources.element? origin).map Element.key

def Writes (sources : Sources) (asker : Option Origin) (kinds : List ElementKind) (reference : QualifiedName)
    (index : Nat) : Prop :=
  ∃ element, sources.authored.elements[index]? = some element ∧ some (.authored index) ≠ asker ∧
    element.isDesignated kinds reference

/-- What the reference may lead to: the first authored element that it designates, or, where it
designates none, one that a repository declares. -/
inductive Leads (sources : Sources) (asker : Option Origin) (kinds : List ElementKind) (reference : QualifiedName) :
    Origin → Prop
  | authored {index : Nat} (writes : sources.Writes asker kinds reference index)
      (first : ∀ earlier < index, ¬sources.Writes asker kinds reference earlier) :
      Leads sources asker kinds reference (.authored index)
  | library {element : Element} (unwritten : ∀ index, ¬sources.Writes asker kinds reference index)
      (declares : sources.library element) (other : some (.library element) ≠ asker)
      (designated : element.isDesignated kinds reference) : Leads sources asker kinds reference (.library element)

/-- The first declaration derives from the second. -/
def Succeeds (sources : Sources) (origin above : Origin) : Prop :=
  ∃ element reference, sources.element? origin = some element ∧ element.ancestor = some reference ∧
    sources.Leads (some origin) element.kind.related reference above

/-- The declarations whose ancestors are followed: the authored ones, their parents, the features that
they use and the types from elsewhere that they name, with what they inherited. -/
inductive Followed (sources : Sources) (settings : Settings) (merged : Document) : Origin → Prop
  | authored {index : Nat} {element : Element} (stands : sources.authored.elements[index]? = some element) :
      Followed sources settings merged (.authored index)
  | parent {index : Nat} {element : Element} {parent : QualifiedName} {origin : Origin}
      (stands : sources.authored.elements[index]? = some element) (has : parent? element = some parent)
      (leads : sources.Leads (some (.authored index)) element.kind.related parent origin) :
      Followed sources settings merged origin
  | feature {element : Element} {feature : QualifiedName} {origin : Origin} (member : element ∈ merged.elements)
      (uses : feature ∈ element.features) (leads : sources.Leads none [.feature] feature origin) :
      Followed sources settings merged origin
  | type {typeName : String} {element : Element} (named : typeName ∈ namedTypes settings merged)
      (leads : sources.Leads none ElementKind.classType.related (.parse typeName) (.library element)) :
      Followed sources settings merged (.library element)

inductive Climbs (sources : Sources) (settings : Settings) (merged : Document) : List Origin → Prop
  | begins {origin : Origin} (followed : sources.Followed settings merged origin) :
      Climbs sources settings merged [origin]
  | ascends {origin above : Origin} {passed : List Origin}
      (climbs : Climbs sources settings merged (origin :: passed)) (succeeds : sources.Succeeds origin above) :
      Climbs sources settings merged (above :: origin :: passed)

def Declares (sources : Sources) : Origin → Prop
  | .authored index => index < sources.authored.elements.length
  | .library element => sources.library element

variable {sources : Sources} {settings : Settings} {merged : Document}

theorem Leads.declares {asker : Option Origin} {kinds : List ElementKind} {reference : QualifiedName} {origin : Origin}
    (leads : sources.Leads asker kinds reference origin) : sources.Declares origin := by
  cases leads with
  | authored writes _ =>
    obtain ⟨_, stands, -⟩ := writes
    exact (List.getElem?_eq_some_iff.mp stands).1
  | library _ declares => exact declares

theorem Climbs.declares {origin : Origin} {passed : List Origin}
    (climbs : sources.Climbs settings merged (origin :: passed)) : sources.Declares origin := by
  cases climbs with
  | begins followed =>
    cases followed with
    | authored stands => exact (List.getElem?_eq_some_iff.mp stands).1
    | parent _ _ leads | feature _ _ leads | type _ leads => exact leads.declares
  | ascends _ succeeds =>
    obtain ⟨_, _, -, -, leads⟩ := succeeds
    exact leads.declares

/-- Where every step from a declaration to the one that it derives from leads to a higher rank, nothing
is passed twice. -/
theorem Climbs.nodup_map {β : Type} {f : Origin → β} (rank : β → Nat)
    (rises : ∀ origin above, sources.Declares origin → sources.Succeeds origin above →
      rank (f origin) < rank (f above))
    {passed : List Origin} (climbs : sources.Climbs settings merged passed) : (passed.map f).Nodup := by
  have descends : passed.Pairwise fun above below => rank (f below) < rank (f above) := by
    induction climbs with
    | begins => exact List.pairwise_singleton _ _
    | ascends climbs succeeds ih =>
      have step := rises _ _ climbs.declares succeeds
      refine List.pairwise_cons.mpr ⟨fun below member => ?_, ih⟩
      rcases List.mem_cons.mp member with rfl | earlier
      · exact step
      · exact Nat.lt_trans ((List.pairwise_cons.mp ih).1 below earlier) step
  refine List.pairwise_map.mpr (descends.imp fun lower same => ?_)
  rw [same] at lower
  exact Nat.lt_irrefl _ lower

end Sources

namespace Resolution

def origin? (state : Resolution) : Place → Option Origin
  | .authored index => some (.authored index)
  | .dependency index => state.project.dependencies.elements[index]?.map fun element => .library element.uncounted

structure MadeOf (state : Resolution) (sources : Sources) : Prop where
  authored : state.project.authored.elements.map Element.outline = sources.authored.elements.map Element.outline
  dependencies : ∀ element ∈ state.project.dependencies.elements, sources.library element.uncounted

variable {state : Resolution} {sources : Sources}

theorem origin?_eq_authored {place : Place} {index : Nat} :
    state.origin? place = some (.authored index) ↔ place = .authored index := by
  cases place <;> simp [origin?]

theorem authored_ne_asker {asker : Option Place} {index : Nat} :
    some (.authored index) ≠ asker.bind state.origin? ↔ some (.authored index) ≠ asker := by
  refine not_congr ⟨fun same => ?_, fun same => ?_⟩
  · obtain ⟨place, asks, here⟩ := Option.bind_eq_some_iff.mp same.symm
    rw [asks, origin?_eq_authored.mp here]
  · rw [← same]
    rfl

namespace MadeOf

theorem origin? (made : state.MadeOf sources) {place : Place} {element : Element}
    (stands : state.project.element? place = some element) :
    ∃ origin declared, state.origin? place = some origin ∧ sources.element? origin = some declared ∧
      declared.outline = element.outline := by
  cases place with
  | authored index =>
    obtain ⟨declared, isDeclared, alike⟩ := Element.exists_of_outlines made.authored stands
    exact ⟨.authored index, declared, rfl, isDeclared, alike⟩
  | dependency index =>
    have here : state.project.dependencies.elements[index]? = some element := stands
    refine ⟨.library element.uncounted, element.uncounted, ?_, rfl, element.uncounted_outline⟩
    rw [Resolution.origin?, here, Option.map_some]

theorem declared_of_origin? (made : state.MadeOf sources) {place : Place} {origin : Origin} {element : Element}
    (stands : state.project.element? place = some element) (here : state.origin? place = some origin) :
    ∃ declared, sources.element? origin = some declared ∧ declared.outline = element.outline := by
  obtain ⟨_, declared, there, isDeclared, alike⟩ := made.origin? stands
  obtain rfl := Option.some.inj (there.symm.trans here)
  exact ⟨declared, isDeclared, alike⟩

theorem keyAt? (made : state.MadeOf sources) {place : Place} {origin : Origin} {element : Element}
    (stands : state.project.element? place = some element) (here : state.origin? place = some origin) :
    sources.keyAt? origin = state.keyAt? place := by
  obtain ⟨declared, isDeclared, alike⟩ := made.declared_of_origin? stands here
  rw [Sources.keyAt?, isDeclared, Resolution.keyAt?, stands, Option.map_some, Option.map_some, Element.key_eq alike]

/-- What is known leads where the declarations do, or back to the one that asks. -/
theorem leads (made : state.MadeOf sources) {kinds : List ElementKind} {reference : QualifiedName}
    {asker : Option Place} {place : Place} {element : Element}
    (known : state.known? kinds reference asker = some (place, element)) :
    ∃ origin, state.origin? place = some origin ∧
      (sources.Leads (asker.bind state.origin?) kinds reference origin ∨
        ∃ own, origin = .library own ∧ some origin = asker.bind state.origin? ∧ own.isDesignated kinds reference) := by
  obtain ⟨stands, other, designated⟩ := known?_some known
  cases place with
  | authored index =>
    obtain ⟨declared, isDeclared, alike⟩ := Element.exists_of_outlines made.authored stands
    refine ⟨.authored index, rfl, .inl (.authored ⟨declared, isDeclared, authored_ne_asker.mpr other, ?_⟩ ?_)⟩
    · rwa [Element.isDesignated_of_outline alike]
    · rintro earlier before ⟨own, isWritten, apart, designatedToo⟩
      obtain ⟨standing, standsThere, same⟩ := Element.exists_of_outlines made.authored.symm isWritten
      refine known?_first known before standsThere (authored_ne_asker.mp apart) ?_
      rwa [Element.isDesignated_of_outline same]
  | dependency index =>
    have here : state.project.dependencies.elements[index]? = some element := stands
    refine ⟨.library element.uncounted, by rw [Resolution.origin?, here, Option.map_some], ?_⟩
    by_cases asks : some (.library element.uncounted) = asker.bind state.origin?
    · exact .inr ⟨element.uncounted, rfl, asks, designated⟩
    · refine .inl (.library ?_ (made.dependencies element (List.mem_of_getElem? here)) asks designated)
      rintro position ⟨own, isWritten, apart, designatedToo⟩
      obtain ⟨standing, standsThere, same⟩ := Element.exists_of_outlines made.authored.symm isWritten
      refine known?_unwritten known standsThere (authored_ne_asker.mp apart) ?_
      rwa [Element.isDesignated_of_outline same]

theorem leads_unasked (made : state.MadeOf sources) {kinds : List ElementKind} {reference : QualifiedName}
    {place : Place} {element : Element} (known : state.known? kinds reference none = some (place, element)) :
    ∃ origin, state.origin? place = some origin ∧ sources.Leads none kinds reference origin := by
  obtain ⟨origin, here, leads | ⟨_, _, asks, _⟩⟩ := made.leads known
  · exact ⟨origin, here, leads⟩
  · cases asks

/-- A step of a climb is one between declarations, or the ancestor is a copy of the one below. -/
theorem succeeds (made : state.MadeOf sources) {place above : Place} {origin : Origin}
    (leads : state.next? place = some above) (here : state.origin? place = some origin) :
    ∃ next, state.origin? above = some next ∧
      (sources.Succeeds origin next ∨ ∃ own, origin = .library own ∧ own.PointsAt own) := by
  simp only [next?, Option.bind_eq_bind, Option.bind_eq_some_iff] at leads
  obtain ⟨element, stands, reference, refers, ⟨_, found⟩, known, same⟩ := leads
  obtain rfl := Option.some.inj same
  obtain ⟨declared, isDeclared, alike⟩ := made.declared_of_origin? stands here
  have refersThere := (Element.ancestor_eq alike).trans refers
  rw [← Element.kind_eq alike] at known
  obtain ⟨next, there, leads | ⟨own, rfl, asks, designated⟩⟩ := made.leads known
  · refine ⟨next, there, .inl ⟨declared, reference, isDeclared, refersThere, ?_⟩⟩
    rwa [Option.bind_some, here] at leads
  · rw [Option.bind_some, here] at asks
    obtain rfl := Option.some.inj asks
    obtain rfl := Option.some.inj isDeclared
    exact ⟨_, there, .inr ⟨_, rfl, reference, refersThere, designated⟩⟩

theorem followed (made : state.MadeOf sources) {settings : Settings} {place : Place}
    (begins : state.Begins settings place) :
    ∃ origin, state.origin? place = some origin ∧
      sources.Followed settings state.project.authored origin := by
  cases begins with
  | authored stands =>
    obtain ⟨_, isDeclared, -⟩ := Element.exists_of_outlines made.authored stands
    exact ⟨_, rfl, .authored isDeclared⟩
  | parent stands has leads =>
    obtain ⟨declared, isDeclared, alike⟩ := Element.exists_of_outlines made.authored stands
    have hasThere := (congrArg parent? alike :).trans has
    obtain ⟨origin, here, leads | ⟨_, rfl, asks, _⟩⟩ := made.leads leads
    · exact ⟨origin, here, .parent isDeclared hasThere (Element.kind_eq alike ▸ leads)⟩
    · cases asks
  | feature stands uses leads =>
    obtain ⟨origin, here, leads⟩ := made.leads_unasked leads
    exact ⟨origin, here, .feature (List.mem_of_getElem? stands) uses leads⟩
  | type named leads =>
    obtain ⟨stands, -, -⟩ := known?_some leads
    have here : state.project.dependencies.elements[_]? = some _ := stands
    obtain ⟨origin, there, leads⟩ := made.leads_unasked leads
    rw [Resolution.origin?, here, Option.map_some] at there
    obtain rfl := Option.some.inj there
    exact ⟨_, by rw [Resolution.origin?, here, Option.map_some], .type named leads⟩

/-- A climb in the project goes on as one over the declarations. -/
theorem climbs (made : state.MadeOf sources) {settings : Settings} {merged : Document}
    (apart : ∀ element passed, sources.Climbs settings merged (.library element :: passed) → ¬element.PointsAt element)
    {place : Place} {places : List Place} (climbs : state.Climbs place places) {origin : Origin}
    {passed : List Origin} (here : state.origin? place = some origin)
    (below : sources.Climbs settings merged (origin :: passed)) :
    ∃ above, sources.Climbs settings merged (above ++ origin :: passed) ∧
      above.map sources.keyAt? = (places.map state.keyAt?).reverse := by
  induction places generalizing place origin passed with
  | nil => exact ⟨[], below, rfl⟩
  | cons next rest ih =>
    obtain ⟨leads, onward⟩ := climbs
    obtain ⟨origin', there, succeeds | ⟨own, rfl, points⟩⟩ := made.succeeds leads here
    · obtain ⟨above, whole, keyed⟩ := ih onward there (below.ascends succeeds)
      obtain ⟨element, stands⟩ := next?_stands leads
      refine ⟨above ++ [origin'], by simpa using whole, ?_⟩
      rw [List.map_append, keyed, List.map_singleton, made.keyAt? stands there, List.map_cons, List.reverse_cons]
    · exact absurd points (apart own passed below)

end MadeOf
end Resolution
end Requirements
