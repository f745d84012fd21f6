import Requirements.Check.Ownership
import Requirements.Proofs.Resolution.Growth

/-! Where a reference leads. What is known beats what a search finds, and what a search
finds is known from then on: the place a reference was resolved to is the place it leads to
in every later state. -/
namespace Requirements
namespace Resolution

theorem known?_map_outline (state : Resolution) (kinds : List ElementKind)
    (reference : QualifiedName) (asker : Option Place) :
    (state.known? kinds reference asker).map (fun (place, element) => (place, element.outline)) =
      state.project.outlines.find? fun (place, element) =>
        some place != asker && element.isDesignated kinds reference := by
  rw [Project.outlines, List.find?_map]
  rfl

theorem known?_some {state : Resolution} {kinds : List ElementKind} {reference : QualifiedName}
    {asker : Option Place} {place : Place} {element : Element}
    (known : state.known? kinds reference asker = some (place, element)) :
    state.project.element? place = some element ∧ some place ≠ asker ∧
      element.isDesignated kinds reference := by
  have meets := List.find?_some known
  have member := List.mem_of_find?_eq_some known
  simp only [Bool.and_eq_true, bne_iff_ne] at meets
  exact ⟨Project.mem_placed.mp member, meets.1, meets.2⟩

theorem known?_none {state : Resolution} {kinds : List ElementKind} {reference : QualifiedName}
    {asker : Option Place} :
    state.known? kinds reference asker = none ↔
      ∀ place element, state.project.element? place = some element → some place ≠ asker →
        ¬element.isDesignated kinds reference := by
  simp only [known?, List.find?_eq_none, Prod.forall, Project.mem_placed, Bool.and_eq_true,
    bne_iff_ne, not_and]

/-- A reference leads to a dependency only where no authored element but the asker is designated. -/
theorem known?_unwritten {state : Resolution} {kinds : List ElementKind} {reference : QualifiedName}
    {asker : Option Place} {index : Nat} {element : Element}
    (known : state.known? kinds reference asker = some (.dependency index, element)) {position : Nat}
    {own : Element} (stands : state.project.authored.elements[position]? = some own)
    (other : some (.authored position) ≠ asker) : ¬own.isDesignated kinds reference := by
  intro designated
  rw [known?, Project.placed, List.find?_append] at known
  rcases Option.or_eq_some_iff.mp known with inAuthored | ⟨notAuthored, -⟩
  · have among := List.mem_of_find?_eq_some inAuthored
    simp [List.mem_mapIdx] at among
  · obtain ⟨inside, rfl⟩ := List.getElem?_eq_some_iff.mp stands
    have here := List.find?_eq_none.mp notAuthored (.authored position, state.project.authored.elements[position])
      (List.mem_mapIdx.mpr ⟨position, inside, rfl⟩)
    simp [designated, other] at here

theorem known?_dependency {state : Resolution} {kinds : List ElementKind} {reference : QualifiedName}
    {index : Nat} {element : Element}
    (known : state.known? kinds reference none = some (.dependency index, element)) :
    ∀ other ∈ state.project.authored.elements, ¬other.isDesignated kinds reference := by
  intro other member
  obtain ⟨position, stands⟩ := List.mem_iff_getElem?.mp member
  exact known?_unwritten known stands (by simp)

/-- A reference leads to an authored element only where none before it is designated but the asker. -/
theorem known?_first {state : Resolution} {kinds : List ElementKind} {reference : QualifiedName}
    {asker : Option Place} {index : Nat} {element : Element}
    (known : state.known? kinds reference asker = some (.authored index, element)) {position : Nat}
    (before : position < index) {own : Element} (stands : state.project.authored.elements[position]? = some own)
    (other : some (.authored position) ≠ asker) : ¬own.isDesignated kinds reference := by
  intro designated
  rw [known?, Project.placed, List.find?_append] at known
  rcases Option.or_eq_some_iff.mp known with inAuthored | ⟨-, inDependencies⟩
  · obtain ⟨-, at?, inside, there, earlier⟩ := List.find?_eq_some_iff_getElem.mp inAuthored
    rw [List.getElem_mapIdx] at there
    obtain rfl := Place.authored.inj (congrArg Prod.fst there)
    obtain ⟨_, rfl⟩ := List.getElem?_eq_some_iff.mp stands
    have missed := earlier position before
    simp [designated, other] at missed
  · have among := List.mem_of_find?_eq_some inDependencies
    simp [List.mem_mapIdx] at among

theorem known?_eq_action? (state : Resolution) (reference : QualifiedName) :
    state.known? [.action] reference none = state.project.action? reference := by
  rw [Resolution.known?, Project.action?]
  congr

/-- A reference leads on to where it led. -/
theorem Extends.known? {start final : Resolution} (extended : Extends start final)
    {kinds : List ElementKind} {reference : QualifiedName} {asker : Option Place} {place : Place}
    {element : Element} (known : start.known? kinds reference asker = some (place, element)) :
    ∃ later, final.known? kinds reference asker = some (place, later) ∧
      later.outline = element.outline := by
  obtain ⟨more, added⟩ := extended.outlines_prefix
  have before := known?_map_outline start kinds reference asker
  have after := known?_map_outline final kinds reference asker
  rw [known, Option.map_some] at before
  rw [← added, List.find?_append, ← before, Option.some_or] at after
  obtain ⟨⟨_, later⟩, found, same⟩ := Option.map_eq_some_iff.mp after
  obtain ⟨rfl, outlined⟩ := Prod.mk.inj same
  exact ⟨later, found, outlined⟩

structure Searches (start final : Resolution) : Prop where
  project : final.project = start.project
  reports : final.reports = start.reports
  parsed : start.parsed <+: final.parsed

theorem Searches.refl (state : Resolution) : Searches state state := ⟨rfl, rfl, List.prefix_rfl⟩

theorem Searches.trans {a b c : Resolution} (first : Searches a b) (second : Searches b c) :
    Searches a c :=
  ⟨second.project.trans first.project, second.reports.trans first.reports,
    first.parsed.trans second.parsed⟩

theorem Searches.grows {start final : Resolution} (searches : Searches start final) :
    Grows start final :=
  ⟨by rw [searches.project], by simp [searches.project], searches.parsed, by simp [searches.reports],
    fun _ member => .inl (List.mem_map_of_mem (searches.project ▸ member))⟩

end Resolution

namespace Resolving

open Resolution

variable {settings : Settings} {start final : Resolution}

theorem search_ok {α : Type} {x : EStateM Failure Workspace α} {a : α} :
    search x start = .ok a final ↔
      ∃ workspace, x start.workspace = .ok a workspace ∧ { start with workspace } = final := by
  rw [search]
  cases x start.workspace <;> simp

theorem documentOf_ok {hit : Hit} {document : Document}
    (ran : documentOf hit start = .ok document final) :
    Searches start final ∧ ∃ path, (path, document) ∈ final.parsed := by
  rw [documentOf] at ran
  split at ran
  next path _ found =>
    obtain ⟨rfl, rfl⟩ := EStateM.Result.ok.inj ran
    exact ⟨.refl _, path, List.mem_of_find?_eq_some found⟩
  next =>
    split at ran
    next parsed =>
      obtain ⟨rfl, rfl⟩ := EStateM.Result.ok.inj ran
      exact ⟨⟨rfl, rfl, List.prefix_append _ _⟩, hit.path, by simp⟩
    next => cases ran

theorem firstDeclared_ok {kind : ElementKind} {reference : QualifiedName} {hits : List Hit}
    {answer : Option Element} (ran : firstDeclared kind reference hits start = .ok answer final) :
    Searches start final ∧ ∀ element, answer = some element →
      element.isDesignated [kind] reference ∧ final.Read element := by
  induction hits generalizing start with
  | nil =>
    obtain ⟨rfl, rfl⟩ := pure_ok.mp ran
    exact ⟨.refl _, by simp⟩
  | cons hit rest ih =>
    rw [firstDeclared] at ran
    split at ran
    · exact ih ran
    · obtain ⟨document, middle, opened, ran⟩ := bind_ok.mp ran
      obtain ⟨searches, path, member⟩ := documentOf_ok opened
      cases found : document.elements.find? (·.isDesignated [kind] reference) with
      | some element =>
        rw [found] at ran
        obtain ⟨rfl, rfl⟩ := pure_ok.mp ran
        refine ⟨searches, fun other same => ?_⟩
        obtain rfl := Option.some.inj same
        exact ⟨List.find?_some found, path, document, member, List.mem_of_find?_eq_some found⟩
      | none =>
        rw [found] at ran
        obtain ⟨searchesRest, answered⟩ := ih ran
        exact ⟨searches.trans searchesRest, answered⟩

/-- What a search finds is designated by the reference, and it was read from a document. -/
theorem findInRepositories_ok {reference : QualifiedName} {kinds : List ElementKind}
    {answer : Option Element}
    (ran : findInRepositories settings reference kinds start = .ok answer final) :
    Searches start final ∧ ∀ element, answer = some element →
      element.isDesignated kinds reference ∧ final.Read element := by
  induction kinds generalizing start with
  | nil =>
    obtain ⟨rfl, rfl⟩ := pure_ok.mp ran
    exact ⟨.refl _, by simp⟩
  | cons kind rest ih =>
    rw [findInRepositories] at ran
    obtain ⟨hits, searched, sought, ran⟩ := bind_ok.mp ran
    obtain ⟨workspace, _, rfl⟩ := search_ok.mp sought
    obtain ⟨first, middle, looked, ran⟩ := bind_ok.mp ran
    obtain ⟨searches, declared⟩ := firstDeclared_ok looked
    have searches : Searches start middle := ⟨searches.project, searches.reports, searches.parsed⟩
    cases first with
    | some element =>
      obtain ⟨rfl, rfl⟩ := pure_ok.mp ran
      refine ⟨searches, fun other same => ?_⟩
      obtain rfl := Option.some.inj same
      obtain ⟨designated, read⟩ := declared element rfl
      simp only [Element.isDesignated, List.contains_cons, List.contains_nil, Bool.or_false,
        Bool.and_eq_true, beq_iff_eq] at designated
      exact ⟨by simp [Element.isDesignated, designated], read⟩
    | none =>
      obtain ⟨searchesRest, answered⟩ := ih ran
      refine ⟨searches.trans searchesRest, fun element same => ?_⟩
      obtain ⟨designated, read⟩ := answered element same
      simp only [Element.isDesignated, Bool.and_eq_true] at designated
      exact ⟨by simp_all [Element.isDesignated], read⟩

theorem map_modify_of_same {α β : Type} {f : α → β} {change : α → α} (same : ∀ a, f (change a) = f a)
    (items : List α) (index : Nat) : (items.modify index change).map f = items.map f := by
  apply List.ext_getElem?
  intro other
  rw [List.getElem?_map, List.getElem?_map, List.getElem?_modify]
  split <;> cases items[other]? <;> simp [same]

theorem map_uncounted_modify (elements : List Element) (index : Nat) :
    (elements.modify index Element.used).map Element.uncounted =
      elements.map Element.uncounted :=
  map_modify_of_same Element.used_uncounted elements index

theorem grows_used (state : Resolution) (place : Place) :
    Grows state { state with project := state.project.modify Element.used place } := by
  cases place with
  | authored index =>
    exact ⟨map_uncounted_modify _ index, List.prefix_rfl, List.prefix_rfl, List.prefix_rfl,
      fun _ member => .inl (List.mem_map_of_mem member)⟩
  | dependency index =>
    have same := map_uncounted_modify state.project.dependencies.elements index
    exact ⟨rfl, same ▸ List.prefix_rfl, List.prefix_rfl, List.prefix_rfl,
      fun _ member => .inl (same ▸ List.mem_map_of_mem member)⟩

theorem depend_ok {element : Element} {answer : Place × Element} :
    depend element start = .ok answer final ↔
      answer = (.dependency start.project.dependencies.elements.length, element) ∧
        final = { start with project :=
          { start.project with dependencies := start.project.dependencies.push element } } := by
  rw [depend]
  constructor
  · intro ran
    obtain ⟨rfl, rfl⟩ := EStateM.Result.ok.inj ran
    exact ⟨rfl, rfl⟩
  · rintro ⟨rfl, rfl⟩
    rfl

theorem grows_depend {element : Element} {answer : Place × Element}
    (ran : depend element start = .ok answer final)
    (declared : ∃ declared, start.Read declared ∧ declared.uncounted = element.uncounted) :
    Grows start final := by
  obtain ⟨-, rfl⟩ := depend_ok.mp ran
  refine ⟨rfl, ?_, List.prefix_rfl, List.prefix_rfl, fun other member => ?_⟩
  · change _ <+: (start.project.dependencies.elements ++ [element]).map _
    rw [List.map_append]
    exact List.prefix_append _ _
  · rcases List.mem_append.mp member with old | new
    · exact .inl (List.mem_map_of_mem old)
    · obtain rfl := List.mem_singleton.mp new
      exact .inr declared

/-- A dependency that no earlier element stands before is where the reference leads. -/
theorem known?_depend {kinds : List ElementKind} {reference : QualifiedName}
    {asker : Option Place} {element : Element} {answer : Place × Element}
    (unknown : start.known? kinds reference asker = none)
    (ran : depend element start = .ok answer final)
    (present : ∀ place, asker = some place → (start.project.element? place).isSome)
    (designated : element.isDesignated kinds reference) :
    final.known? kinds reference asker = some answer := by
  obtain ⟨rfl, rfl⟩ := depend_ok.mp ran
  have fresh : some (Place.dependency start.project.dependencies.elements.length) ≠ asker := by
    rintro rfl
    simpa [Project.element?] using present _ rfl
  rw [Resolution.known?, Project.placed, List.find?_append, Option.or_eq_none_iff] at unknown
  obtain ⟨notAuthored, notDependency⟩ := unknown
  rw [Resolution.known?, Project.placed, List.find?_append, notAuthored, Option.none_or,
    Document.push, List.mapIdx_append, List.find?_append, notDependency, Option.none_or]
  simp [fresh, designated]

/-- What is resolved stands where the reference leads from then on. Of the project only
counts of uses change, unless the element was found by a search and becomes a dependency. -/
theorem resolve_ok {kinds : List ElementKind} {reference : QualifiedName} {asker : Option Place}
    {answer : Option (Place × Element)}
    (ran : resolve settings kinds reference asker start = .ok answer final)
    (present : ∀ place, asker = some place → (start.project.element? place).isSome) :
    Grows start final ∧ final.known? kinds reference asker = answer := by
  rw [resolve] at ran
  obtain ⟨_, _, got, ran⟩ := bind_ok.mp ran
  obtain ⟨rfl, rfl⟩ := get_ok.mp got
  cases known : start.known? kinds reference asker with
  | some found =>
    obtain ⟨place, element⟩ := found
    rw [known] at ran
    obtain ⟨_, _, modified, ran⟩ := bind_ok.mp ran
    obtain rfl := modify_ok.mp modified
    obtain ⟨rfl, rfl⟩ := pure_ok.mp ran
    have grows := grows_used start place
    refine ⟨grows, ?_⟩
    obtain ⟨later, knownLater, -⟩ := grows.extends.known? known
    have standsLater := (known?_some knownLater).1
    rw [Project.element?_modify, if_pos rfl, (known?_some known).1] at standsLater
    rw [knownLater, ← Option.some.inj standsLater]
  | none =>
    rw [known] at ran
    obtain ⟨found, middle, searched, ran⟩ := bind_ok.mp ran
    obtain ⟨searches, declared⟩ := findInRepositories_ok searched
    have unknown : middle.known? kinds reference asker = none := by
      rw [Resolution.known?, searches.project]
      exact known
    cases found with
    | none =>
      obtain ⟨rfl, rfl⟩ := pure_ok.mp ran
      exact ⟨searches.grows, unknown⟩
    | some element =>
      obtain ⟨placed, _, depended, ran⟩ := bind_ok.mp ran
      obtain ⟨rfl, rfl⟩ := pure_ok.mp ran
      obtain ⟨designated, read⟩ := declared element rfl
      refine ⟨searches.grows.trans (grows_depend depended ⟨element, read, rfl⟩), ?_⟩
      exact known?_depend unknown depended (by rwa [searches.project]) designated

end Resolving
end Requirements
