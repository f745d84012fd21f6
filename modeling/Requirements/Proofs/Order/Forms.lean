import Requirements.Proofs.Order.Determined
import Requirements.Proofs.Resolution.Passes

/-! States of a resolution against the declarations: which elements stand where, and how far a
pass has brought them. -/
namespace Requirements
namespace World

open Resolution

/-- The state is one of a resolution of elements of the world: the authored elements are those
of the document but for what they inherited, and what was read is in the library. -/
structure Fits (world : World) (authored : Document) (reports : List Report) (state : Resolution) :
    Prop where
  declared : ∀ element, world.authored element ↔ element ∈ authored.elements.map Element.uncounted
  outlines : state.project.authored.elements.map Element.outline = authored.elements.map Element.outline
  read : ∀ element, state.Read element → world.library element.uncounted
  reported : state.reports ⊆ reports

def Drawn (world : World) (state : Resolution) : Prop :=
  ∀ element ∈ state.project.dependencies.elements, world.library element.uncounted

variable {world : World} {authored : Document} {reports : List Report} {start final state : Resolution}

theorem Fits.before (fits : world.Fits authored reports final) (extended : Extends start final) :
    world.Fits authored reports start :=
  ⟨fits.declared, extended.authored ▸ fits.outlines,
    fun element read => fits.read element (read.later extended.parsed),
    fun _ member => fits.reported (extended.reports.subset member)⟩

theorem Drawn.grows (drawn : world.Drawn start) (grows : Grows start final)
    (fits : world.Fits authored reports final) : world.Drawn final := by
  intro element member
  rcases grows.declared element member with old | ⟨declared, read, same⟩
  · obtain ⟨former, inStart, same⟩ := List.mem_map.mp old
    exact same ▸ drawn former inStart
  · exact same ▸ fits.read declared read

theorem Fits.authoredDistinct (fits : world.Fits authored reports state) (regular : world.Regular reports) :
    ∀ element ∈ authored.elements, element.Distinct := by
  intro element member
  have declared : world.Declares element.uncounted :=
    .inl ((fits.declared _).mpr (List.mem_map_of_mem member))
  have distinct := regular.distinct declared
  exact distinct

theorem Fits.readDistinct (fits : world.Fits authored reports state) (regular : world.Regular reports) :
    ∀ element, state.Read element → element.Distinct := by
  intro element read
  have declared : world.Declares element.uncounted := .inr (fits.read element read)
  have distinct := regular.distinct declared
  exact distinct

/-- An authored element stands where its declared form stood. -/
theorem Fits.authored_at (fits : world.Fits authored reports state) {index : Nat} {element : Element}
    (stands : state.project.authored.elements[index]? = some element) :
    ∃ declared, authored.elements[index]? = some declared ∧ world.authored declared.uncounted ∧
      declared.outline = element.outline := by
  have outlined := congrArg (·[index]?) fits.outlines
  simp only [List.getElem?_map, stands, Option.map_some] at outlined
  obtain ⟨declared, stood, same⟩ := Option.map_eq_some_iff.mp outlined.symm
  refine ⟨declared, stood, (fits.declared _).mpr ?_, same⟩
  exact List.mem_map_of_mem (List.mem_of_getElem? stood)

/-- Every authored element of the world stands somewhere. -/
theorem Fits.stands (fits : world.Fits authored reports state) {element : Element}
    (declared : world.authored element) :
    ∃ index : Nat, ∃ standing, state.project.authored.elements[index]? = some standing ∧
      authored.elements[index]?.map Element.uncounted = some element ∧
      standing.outline = element.outline := by
  obtain ⟨former, member, rfl⟩ := List.mem_map.mp ((fits.declared element).mp declared)
  obtain ⟨index, inside, stood⟩ := List.mem_iff_getElem.mp member
  have outlined := congrArg (·[index]?) fits.outlines
  rw [List.getElem?_map, List.getElem?_map, List.getElem?_eq_getElem inside, stood] at outlined
  obtain ⟨standing, stands, same⟩ := Option.map_eq_some_iff.mp outlined
  exact ⟨index, standing, stands, by simp [List.getElem?_eq_getElem inside, stood], same⟩

/-- The element at a place has the outline of its declared form. -/
theorem Fits.declaredAt? (fits : world.Fits authored reports state) {place : Place} {element : Element}
    (stands : state.project.element? place = some element) :
    ∃ declared, state.declaredAt? authored place = some declared ∧ declared.outline = element.outline := by
  cases place with
  | authored index =>
    obtain ⟨declared, stood, -, same⟩ := fits.authored_at stands
    exact ⟨declared.uncounted, congrArg (Option.map Element.uncounted) stood, same⟩
  | dependency index => exact ⟨element.uncounted, congrArg (Option.map Element.uncounted) stands, rfl⟩

theorem Fits.declares (fits : world.Fits authored reports state) (drawn : world.Drawn state)
    {place : Place} {declared : Element} (here : state.declaredAt? authored place = some declared) :
    world.Declares declared := by
  obtain ⟨element, stands, rfl⟩ := Option.map_eq_some_iff.mp here
  cases place with
  | authored index =>
    exact .inl ((fits.declared _).mpr (List.mem_map_of_mem (List.mem_of_getElem? stands)))
  | dependency index => exact .inr (drawn element (List.mem_of_getElem? stands))

/-- What a reference that leads nowhere might have designated: the asker alone. -/
theorem Fits.only_asker (regular : world.Regular reports) (fits : world.Fits authored reports state)
    {kinds : List ElementKind} {reference : QualifiedName} {asker : Option Place}
    (unknown : state.known? kinds reference asker = none)
    (missed : world.Missed reports kinds reference) {element : Element}
    (declared : world.Declares element) (designated : element.isDesignated kinds reference) :
    ∃ place, asker = some place ∧ state.declaredAt? authored place = some element := by
  rcases declared with isAuthored | isLibrary
  · obtain ⟨index, standing, stands, stood, same⟩ := fits.stands isAuthored
    refine ⟨.authored index, ?_, stood⟩
    by_contra other
    refine known?_none.mp unknown (.authored index) standing stands (fun same => other same.symm) ?_
    rwa [Element.isDesignated_of_outline same]
  · exact absurd designated (regular.served missed isLibrary)

/-- A finding about an element is reported under its declared name and file. -/
theorem mem_report (finding : QualifiedName → Finding) {declared element : Element}
    (alike : declared.outline = element.outline) (state : Resolution) :
    (finding declared.name).reportOn declared.name declared.file ∈
      (state.report ((finding element.name).reportOn element.name element.file)).reports := by
  have name : declared.name = element.name := (congrArg Element.name alike :)
  have file : declared.file = element.file := (congrArg Element.file alike :)
  simp [Resolution.report, name, file]

/-- An element of which the ancestor is missing ends its chain. -/
theorem Fits.last (regular : world.Regular reports) (fits : world.Fits authored reports state)
    {current : Place} {declared : Element} {reference : QualifiedName}
    (here : state.declaredAt? authored current = some declared)
    (refers : declared.ancestor = some reference)
    (unknown : state.known? declared.kind.related reference (some current) = none)
    (missed : world.Missed reports declared.kind.related reference) : world.ChainOf declared [] := by
  apply ChainOf.last
  intro other declaredOther points
  obtain ⟨reference', refers', designated⟩ := points
  obtain rfl := Option.some.inj (refers.symm.trans refers')
  obtain ⟨place, same, there⟩ := fits.only_asker regular unknown missed declaredOther designated
  obtain rfl := Option.some.inj same
  exact Option.some.inj (there.symm.trans here)

theorem declaredAt?_extends (extended : Extends start final) {place : Place} {element declared : Element}
    (stands : start.project.element? place = some element)
    (declaredHere : start.declaredAt? authored place = some declared) :
    final.declaredAt? authored place = some declared := by
  cases place with
  | authored index => exact declaredHere
  | dependency index =>
    obtain ⟨later, standsLater, same⟩ := extended.dependency stands
    have here : start.declaredAt? authored (.dependency index) = some element.uncounted :=
      congrArg (Option.map Element.uncounted) stands
    rw [here] at declaredHere
    rw [← declaredHere, ← same]
    exact congrArg (Option.map Element.uncounted) standsLater

end World

namespace Resolving

open Resolution

def Formed (P : Element → Element → Prop) (authored : Document) (state : Resolution) : Prop :=
  ∀ (index : Nat) element, authored.elements[index]? = some element →
    ∃ form, P element.uncounted form ∧
      state.project.authored.elements[index]?.map Element.uncounted = some form

/-- A pass at the turn of the authored element at `count`: the elements before have their new
forms, and those from there on are as they were. -/
structure Passed (P : Element → Element → Prop) (authored : Document) (start : Resolution)
    (count : Nat) (state : Resolution) : Prop where
  waiting : ∀ index, count ≤ index →
    state.project.authored.elements[index]?.map Element.uncounted =
      start.project.authored.elements[index]?.map Element.uncounted
  behind : ∀ index < count, ∀ element, authored.elements[index]? = some element →
    ∃ form, P element.uncounted form ∧
      state.project.authored.elements[index]?.map Element.uncounted = some form

variable {P Q : Element → Element → Prop} {authored : Document} {start state next : Resolution} {count : Nat}

theorem passed_start : Passed P authored start 0 start := by
  refine ⟨fun _ _ => rfl, fun index earlier => ?_⟩
  omega

/-- The element whose turn it is has its old form still. -/
theorem Passed.present (passed : Passed P authored start count state) (formed : Formed Q authored start)
    {index : Nat} (later : count ≤ index) {element : Element}
    (stood : authored.elements[index]? = some element) :
    ∃ standing, state.project.authored.elements[index]? = some standing ∧
      Q element.uncounted standing.uncounted := by
  obtain ⟨form, ofForm, holds⟩ := formed index element stood
  rw [← passed.waiting index later] at holds
  obtain ⟨standing, stands, rfl⟩ := Option.map_eq_some_iff.mp holds
  exact ⟨standing, stands, ofForm⟩

/-- A turn changes the form of one element. -/
theorem Passed.turn (passed : Passed P authored start count state)
    (others : ∀ index ≠ count, next.project.authored.elements[index]?.map Element.uncounted =
      state.project.authored.elements[index]?.map Element.uncounted)
    (own : ∀ element, authored.elements[count]? = some element →
      ∃ form, P element.uncounted form ∧
        next.project.authored.elements[count]?.map Element.uncounted = some form) :
    Passed P authored start (count + 1) next := by
  constructor
  · intro index later
    rw [others index (by omega), passed.waiting index (by omega)]
  · intro index earlier element stood
    rcases Nat.lt_succ_iff_lt_or_eq.mp earlier with earlier | rfl
    · rw [others index (by omega)]
      exact passed.behind index earlier element stood
    · exact own element stood

/-- A pass that is over has brought all elements to their new forms. -/
theorem Passed.formed (formed : Formed Q authored start)
    (passed : Passed P authored start start.project.authored.elements.length state) :
    Formed P authored state := by
  intro index element stood
  obtain ⟨form, -, holds⟩ := formed index element stood
  obtain ⟨standing, stands, -⟩ := Option.map_eq_some_iff.mp holds
  exact passed.behind index (List.getElem?_eq_some_iff.mp stands).1 element stood

theorem Formed.keeps (formed : Formed P authored state)
    (same : next.project.authored.elements.map Element.uncounted =
      state.project.authored.elements.map Element.uncounted) : Formed P authored next := by
  intro index element stood
  rw [getElem?_map_uncounted same]
  exact formed index element stood

end Resolving
end Requirements
