import Requirements.Resolution.State
import Mathlib.Data.List.Basic

/-! What resolving a reference does to a project. Authored elements only count uses, and
dependencies come behind those that are there. So a reference that led somewhere leads
there ever after. -/
namespace Requirements

def Element.uncounted (element : Element) : Element := { element with uses := 0 }

def Element.outline (element : Element) : Element :=
  { element with properties := [], features := [], uses := 0 }

@[simp] theorem Element.used_uncounted (element : Element) :
    element.used.uncounted = element.uncounted := rfl

@[simp] theorem Element.uncounted_outline (element : Element) :
    element.uncounted.outline = element.outline := rfl

theorem Element.outline_comp_uncounted : outline ∘ uncounted = outline := rfl

theorem Element.outline_of_uncounted {a b : Element} (same : a.uncounted = b.uncounted) :
    a.outline = b.outline := by
  rw [← uncounted_outline, same, uncounted_outline]

theorem Element.kind_eq {a b : Element} (alike : a.outline = b.outline) : a.kind = b.kind :=
  (congrArg Element.kind alike :)

theorem Element.ancestor_eq {a b : Element} (alike : a.outline = b.outline) :
    a.ancestor = b.ancestor :=
  (congrArg Element.ancestor alike :)

theorem Element.key_eq {a b : Element} (alike : a.outline = b.outline) : a.key = b.key :=
  (congrArg Element.key alike :)

theorem Element.isDesignated_outline (kinds : List ElementKind) (reference : QualifiedName)
    (element : Element) : element.outline.isDesignated kinds reference =
      element.isDesignated kinds reference := rfl

theorem Element.isDesignated_of_outline {a b : Element} (alike : a.outline = b.outline)
    (kinds : List ElementKind) (reference : QualifiedName) :
    a.isDesignated kinds reference = b.isDesignated kinds reference := by
  rw [← isDesignated_outline, alike, isDesignated_outline]

/-- Elements of the same outlines stand at the same places. -/
theorem Element.exists_of_outlines {first second : List Element}
    (same : first.map outline = second.map outline) {index : Nat} {element : Element}
    (stands : first[index]? = some element) :
    ∃ other, second[index]? = some other ∧ other.outline = element.outline := by
  have outlined := congrArg (·[index]?) same
  simp only [List.getElem?_map, stands, Option.map_some] at outlined
  exact Option.map_eq_some_iff.mp outlined.symm

theorem Element.kind_of_designated {kind : ElementKind} {reference : QualifiedName} {element : Element}
    (designated : element.isDesignated [kind] reference) : element.kind = kind := by
  simp only [isDesignated, List.contains_cons, List.contains_nil, Bool.or_false, Bool.and_eq_true,
    beq_iff_eq] at designated
  exact designated.1

section Steps

variable {ε σ α β : Type}

theorem bind_ok {x : EStateM ε σ α} {f : α → EStateM ε σ β} {start final : σ} {b : β} :
    (x >>= f) start = .ok b final ↔
      ∃ a middle, x start = .ok a middle ∧ f a middle = .ok b final := by
  change EStateM.bind x f start = _ ↔ _
  cases ran : x start <;> simp [EStateM.bind, ran]

theorem bind_error {x : EStateM ε σ α} {f : α → EStateM ε σ β} {start final : σ} {failure : ε} :
    (x >>= f) start = .error failure final ↔ x start = .error failure final ∨
      ∃ a middle, x start = .ok a middle ∧ f a middle = .error failure final := by
  change EStateM.bind x f start = _ ↔ _
  cases ran : x start <;> simp [EStateM.bind, ran]

@[simp] theorem pure_ok {a b : α} {start final : σ} :
    (pure a : EStateM ε σ α) start = .ok b final ↔ a = b ∧ start = final := by
  change EStateM.Result.ok a start = _ ↔ _
  simp

@[simp] theorem throw_ok {failure : ε} {start final : σ} {b : β} :
    ¬(throw failure : EStateM ε σ β) start = .ok b final := by
  change ¬EStateM.Result.error failure start = _
  simp

@[simp] theorem get_ok {start final read : σ} :
    (get : EStateM ε σ σ) start = .ok read final ↔ start = read ∧ start = final := by
  change EStateM.Result.ok start start = _ ↔ _
  simp

@[simp] theorem modify_ok {f : σ → σ} {start final : σ} {u : Unit} :
    (modify f : EStateM ε σ Unit) start = .ok u final ↔ f start = final := by
  change EStateM.Result.ok () (f start) = _ ↔ _
  simp

def ends (meets : α → σ → Bool) : EStateM.Result ε σ α → Bool
  | .ok a final => meets a final
  | .error _ _ => false

theorem ok_of_ends {meets : α → σ → Bool} {result : EStateM.Result ε σ α} (holds : ends meets result) :
    ∃ a final, result = .ok a final ∧ meets a final := by
  cases result with
  | ok a final => exact ⟨a, final, rfl, holds⟩
  | error => cases holds

/-- A relation that each visit respects is respected by visiting all. -/
theorem forM_ok {R : σ → σ → Prop} (refl : ∀ s, R s s)
    (trans : ∀ {a b c}, R a b → R b c → R a c) {visit : α → EStateM ε σ Unit} {items : List α}
    (respects : ∀ item ∈ items, ∀ s t, visit item s = .ok () t → R s t) {start final : σ}
    (ran : items.forM visit start = .ok () final) : R start final := by
  induction items generalizing start with
  | nil =>
    obtain ⟨-, rfl⟩ := pure_ok.mp ran
    exact refl _
  | cons item rest ih =>
    obtain ⟨_, middle, first, others⟩ := bind_ok.mp ran
    exact trans (respects item (by simp) _ _ first)
      (ih (fun other member => respects other (by simp [member])) others)

/-- Visiting some items and then the others is visiting all. -/
theorem forM_append_ok {visit : α → EStateM ε σ Unit} {first second : List α} {start final : σ} :
    (first ++ second).forM visit start = .ok () final ↔
      ∃ middle, first.forM visit start = .ok () middle ∧ second.forM visit middle = .ok () final := by
  induction first generalizing start with
  | nil => simp [List.forM, pure_ok]
  | cons item rest ih =>
    simp only [List.cons_append, List.forM, bind_ok, ih]
    constructor
    · rintro ⟨_, middle, ranItem, later, ranRest, ranSecond⟩
      exact ⟨later, ⟨(), middle, ranItem, ranRest⟩, ranSecond⟩
    · rintro ⟨later, ⟨_, middle, ranItem, ranRest⟩, ranSecond⟩
      exact ⟨(), middle, ranItem, later, ranRest, ranSecond⟩

end Steps

namespace Project

theorem mem_placed {project : Project} {place : Place} {element : Element} :
    (place, element) ∈ project.placed ↔ project.element? place = some element := by
  cases place <;>
    simp [placed, element?, List.mem_mapIdx, List.getElem?_eq_some_iff]

def outlines (project : Project) : List (Place × Element) :=
  project.placed.map fun (place, element) => (place, element.outline)

theorem map_outline_mapIdx (place : Nat → Place) (elements : List Element) :
    (elements.mapIdx fun index element => (place index, element)).map
        (fun (place, element) => (place, element.outline)) =
      (elements.map Element.outline).mapIdx fun index element => (place index, element) := by
  apply List.ext_getElem?
  intro index
  cases at? : elements[index]? <;> simp [at?]

theorem outlines_eq (project : Project) :
    project.outlines =
      ((project.authored.elements.map Element.outline).mapIdx
        fun index element => (Place.authored index, element)) ++
      (project.dependencies.elements.map Element.outline).mapIdx
        fun index element => (Place.dependency index, element) := by
  rw [outlines, placed, List.map_append, map_outline_mapIdx, map_outline_mapIdx]

end Project

namespace Resolution

/-- The elements of a resolution keep their outlines, and dependencies do not change but
for the count of their uses; new ones come behind them, as do documents and reports. -/
structure Extends (start final : Resolution) : Prop where
  authored : final.project.authored.elements.map Element.outline =
    start.project.authored.elements.map Element.outline
  dependencies : start.project.dependencies.elements.map Element.uncounted <+:
    final.project.dependencies.elements.map Element.uncounted
  parsed : start.parsed <+: final.parsed
  reports : start.reports <+: final.reports

def Read (state : Resolution) (element : Element) : Prop :=
  ∃ path document, (path, document) ∈ state.parsed ∧ element ∈ document.elements

/-- Moreover the authored elements do not change but for the count of their uses, and new
dependencies were read from documents. -/
structure Grows (start final : Resolution) : Prop where
  authored : final.project.authored.elements.map Element.uncounted =
    start.project.authored.elements.map Element.uncounted
  dependencies : start.project.dependencies.elements.map Element.uncounted <+:
    final.project.dependencies.elements.map Element.uncounted
  parsed : start.parsed <+: final.parsed
  reports : start.reports <+: final.reports
  declared : ∀ element ∈ final.project.dependencies.elements,
    element.uncounted ∈ start.project.dependencies.elements.map Element.uncounted ∨
      ∃ declared, final.Read declared ∧ declared.uncounted = element.uncounted

theorem Read.later {start final : Resolution} {element : Element} (read : start.Read element)
    (parsed : start.parsed <+: final.parsed) : final.Read element := by
  obtain ⟨path, document, member, declared⟩ := read
  exact ⟨path, document, parsed.subset member, declared⟩

theorem Extends.refl (state : Resolution) : Extends state state :=
  ⟨rfl, List.prefix_rfl, List.prefix_rfl, List.prefix_rfl⟩

theorem Extends.trans {a b c : Resolution} (first : Extends a b) (second : Extends b c) :
    Extends a c :=
  ⟨second.authored.trans first.authored, first.dependencies.trans second.dependencies,
    first.parsed.trans second.parsed, first.reports.trans second.reports⟩

theorem Grows.refl (state : Resolution) : Grows state state :=
  ⟨rfl, List.prefix_rfl, List.prefix_rfl, List.prefix_rfl, fun _ member => .inl (List.mem_map_of_mem member)⟩

theorem Grows.trans {a b c : Resolution} (first : Grows a b) (second : Grows b c) : Grows a c := by
  refine ⟨second.authored.trans first.authored, first.dependencies.trans second.dependencies,
    first.parsed.trans second.parsed, first.reports.trans second.reports, fun element member => ?_⟩
  rcases second.declared element member with old | new
  · obtain ⟨former, inMiddle, same⟩ := List.mem_map.mp old
    rcases first.declared former inMiddle with older | ⟨declared, read, alike⟩
    · exact .inl (same ▸ older)
    · exact .inr ⟨declared, read.later second.parsed, alike.trans same⟩
  · exact .inr new

theorem Grows.extends {start final : Resolution} (grows : Grows start final) :
    Extends start final := by
  refine ⟨?_, grows.dependencies, grows.parsed, grows.reports⟩
  have outlined := congrArg (List.map Element.outline) grows.authored
  rwa [List.map_map, List.map_map, Element.outline_comp_uncounted] at outlined

theorem Extends.outlines_prefix {start final : Resolution} (extended : Extends start final) :
    start.project.outlines <+: final.project.outlines := by
  obtain ⟨more, added⟩ := extended.dependencies
  have outlined := congrArg (List.map Element.outline) added
  rw [List.map_append, List.map_map, List.map_map, Element.outline_comp_uncounted] at outlined
  rw [Project.outlines_eq, Project.outlines_eq, extended.authored, ← outlined, List.mapIdx_append,
    ← List.append_assoc]
  exact List.prefix_append _ _

/-- An element stays at its place. -/
theorem Extends.element? {start final : Resolution} (extended : Extends start final)
    {place : Place} {element : Element} (stands : start.project.element? place = some element) :
    ∃ later, final.project.element? place = some later ∧ later.outline = element.outline := by
  have member : (place, element.outline) ∈ start.project.outlines :=
    List.mem_map.mpr ⟨(place, element), Project.mem_placed.mpr stands, rfl⟩
  obtain ⟨⟨_, later⟩, inPlaced, same⟩ := List.mem_map.mp (extended.outlines_prefix.subset member)
  obtain ⟨rfl, outlined⟩ := Prod.mk.inj same
  exact ⟨later, Project.mem_placed.mp inPlaced, outlined⟩

/-- An authored element stood there before. -/
theorem Extends.former {start final : Resolution} (extended : Extends start final) {index : Nat}
    {element : Element} (stands : final.project.authored.elements[index]? = some element) :
    ∃ former, start.project.authored.elements[index]? = some former ∧
      former.outline = element.outline :=
  Element.exists_of_outlines extended.authored stands

/-- An authored element stays at its place. -/
theorem Extends.later {start final : Resolution} (extended : Extends start final) {index : Nat}
    {element : Element} (stands : start.project.authored.elements[index]? = some element) :
    ∃ later, final.project.authored.elements[index]? = some later ∧ later.outline = element.outline :=
  Element.exists_of_outlines extended.authored.symm stands

/-- A dependency stays what it is. -/
theorem Extends.dependency {start final : Resolution} (extended : Extends start final)
    {index : Nat} {element : Element}
    (stands : start.project.dependencies.elements[index]? = some element) :
    ∃ later, final.project.dependencies.elements[index]? = some later ∧
      later.uncounted = element.uncounted := by
  obtain ⟨more, added⟩ := extended.dependencies
  have read := congrArg (·[index]?) added
  have inside : index < (start.project.dependencies.elements.map Element.uncounted).length := by
    simpa using (List.getElem?_eq_some_iff.mp stands).1
  simp only [List.getElem?_append_left inside, List.getElem?_map, stands, Option.map_some] at read
  exact Option.map_eq_some_iff.mp read.symm

theorem Grows.later {start final : Resolution} (grows : Grows start final) {index : Nat}
    {element : Element} (stands : start.project.authored.elements[index]? = some element) :
    ∃ later, final.project.authored.elements[index]? = some later ∧ later.uncounted = element.uncounted := by
  have read := congrArg (·[index]?) grows.authored
  simp only [List.getElem?_map, stands, Option.map_some] at read
  exact Option.map_eq_some_iff.mp read

theorem Grows.element? {start final : Resolution} (grows : Grows start final) {place : Place}
    {element : Element} (stands : start.project.element? place = some element) :
    ∃ later, final.project.element? place = some later ∧ later.uncounted = element.uncounted := by
  cases place with
  | authored index => exact grows.later stands
  | dependency index => exact grows.extends.dependency stands

end Resolution
end Requirements
