import Requirements.Proofs.Check.Lineage
import Requirements.Proofs.Resolution.Events

/-! Handlers that the check does not know. Resolving makes every handler known that an
authored element binds in the end. The check also counts what dependencies bind, and they
bind for an element also those events that it could not inherit from them. -/
namespace Requirements
namespace Project

theorem event_unseen {binding : Binding} {bindings : List Binding} {seen : List String}
    (member : binding ∈ firstBindings seen bindings) : binding.event ∉ seen := by
  induction bindings generalizing seen with
  | nil => cases member
  | cons first rest ih =>
    rw [firstBindings] at member
    split at member
    · exact ih member
    next fresh =>
      rcases List.mem_cons.mp member with rfl | member
      · simpa using fresh
      · exact fun isSeen => ih member (by simp [isSeen])

theorem mem_of_firstBindings {binding : Binding} {bindings : List Binding} {seen : List String}
    (member : binding ∈ firstBindings seen bindings) : binding ∈ bindings := by
  induction bindings generalizing seen with
  | nil => cases member
  | cons first rest ih =>
    rw [firstBindings] at member
    split at member
    · exact List.mem_cons_of_mem _ (ih member)
    · rcases List.mem_cons.mp member with rfl | member
      · simp
      · exact List.mem_cons_of_mem _ (ih member)

/-- What was seen only keeps out bindings for these events. -/
theorem mem_firstBindings_cons {event : String} {binding : Binding} {bindings : List Binding}
    {seen : List String} : binding ∈ firstBindings (event :: seen) bindings ↔
      binding ∈ firstBindings seen bindings ∧ event ≠ binding.event := by
  induction bindings generalizing event seen with
  | nil => simp [firstBindings]
  | cons first rest ih =>
    rw [firstBindings, firstBindings]
    by_cases before : first.event ∈ seen
    · simp [before, ih]
    · by_cases same : first.event = event
      · subst same
        simp [before, ih]
        intro differ
        constructor
        · exact fun member => .inr ⟨member, differ⟩
        · rintro (rfl | ⟨member, -⟩)
          · exact absurd rfl differ
          · exact member
      · have differs : ¬event = first.event := fun h => same h.symm
        simp [before, same, ih]
        grind

theorem mem_firstBindings_append {binding : Binding} {first second : List Binding}
    {seen : List String} : binding ∈ firstBindings seen (first ++ second) ↔
      binding ∈ firstBindings seen first ∨
        (binding ∈ firstBindings seen second ∧ ∀ other ∈ first, other.event ≠ binding.event) := by
  induction first generalizing seen with
  | nil => simp [firstBindings]
  | cons head rest ih =>
    rw [List.cons_append, firstBindings, firstBindings]
    split
    next before =>
      rw [ih]
      have skipped : binding ∈ firstBindings seen second → head.event ≠ binding.event := by
        rintro member same
        exact event_unseen member (same ▸ by simpa using before)
      grind
    next =>
      simp only [List.mem_cons, ih, mem_firstBindings_cons]
      grind

/-- The first binding of an event among several elements belongs to the first that binds it. -/
theorem mem_firstBindings_flatMap {binding : Binding} {elements : List Element} :
    binding ∈ firstBindings [] (elements.flatMap Element.bindings) ↔
      ∃ nearer element behind, elements = nearer ++ element :: behind ∧
        binding ∈ firstBindings [] element.bindings ∧
        ∀ other ∈ nearer.flatMap Element.bindings, other.event ≠ binding.event := by
  induction elements with
  | nil => simp [firstBindings]
  | cons first rest ih =>
    rw [List.flatMap_cons, mem_firstBindings_append, ih]
    constructor
    · rintro (own | ⟨⟨nearer, element, behind, rfl, binds, unbound⟩, notOwn⟩)
      · exact ⟨[], first, rest, rfl, own, by simp⟩
      · refine ⟨first :: nearer, element, behind, rfl, binds, fun other member => ?_⟩
        rw [List.flatMap_cons] at member
        rcases List.mem_append.mp member with inFirst | inNearer
        · exact notOwn other inFirst
        · exact unbound other inNearer
    · rintro ⟨nearer, element, behind, split, binds, unbound⟩
      cases nearer with
      | nil =>
        obtain ⟨rfl, rfl⟩ := List.cons.inj split
        exact .inl binds
      | cons head nearer =>
        obtain ⟨rfl, rfl⟩ := List.cons.inj split
        rw [List.flatMap_cons] at unbound
        exact .inr ⟨⟨nearer, element, behind, rfl, binds, fun other member =>
          unbound other (List.mem_append_right _ member)⟩, fun other member =>
          unbound other (List.mem_append_left _ member)⟩

/-- The check counts what the dependency binds as a binding of the authored element: on the
walk from the element nothing nearer binds the event. -/
def Lends (project : Project) (index : Nat) (binder : Element) (lender : Nat) (binding : Binding) :
    Prop :=
  ∃ nearer behind element,
    project.lineagePlaces project.placed.length [binder.key] (.authored index) =
      nearer ++ .dependency lender :: behind ∧
    project.element? (.dependency lender) = some element ∧
    binding ∈ firstBindings [] element.bindings ∧
    ∀ other ∈ (binder :: nearer.filterMap project.element?).flatMap Element.bindings,
      other.event ≠ binding.event

theorem filterMap_of_map_some {α β : Type} {f : α → Option β} {items : List α} {results : List β}
    (same : items.map f = results.map some) : items.filterMap f = results := by
  have mapped := congrArg (List.filterMap id) same
  simpa [List.filterMap_map] using mapped

/-- The bindings of an authored element are bindings of authored elements, but for those that
dependencies lend. -/
theorem mem_bindings {project : Project} {index : Nat} {binder : Element}
    (stands : project.element? (.authored index) = some binder) {binding : Binding}
    (bound : binding ∈ project.bindings binder) :
    (∃ element ∈ project.authored.elements, binding ∈ element.bindings) ∨
      ∃ lender, project.Lends index binder lender binding := by
  obtain ⟨nearer, element, behind, split, binds, unbound⟩ := mem_firstBindings_flatMap.mp bound
  cases nearer with
  | nil =>
    obtain ⟨rfl, -⟩ := List.cons.inj split
    exact .inl ⟨binder, List.mem_of_getElem? stands, mem_of_firstBindings binds⟩
  | cons head nearer =>
    rw [List.cons_append] at split
    obtain ⟨rfl, walk⟩ := List.cons.inj split
    have places := map_lineagePlaces stands project.placed.length [binder.key]
    rw [walk, List.map_append, List.map_cons] at places
    obtain ⟨near, rest, isSplit, nearMap, restMap⟩ := List.map_eq_append_iff.mp places
    obtain ⟨place, far, rfl, standsThere, -⟩ := List.map_eq_cons_iff.mp restMap
    cases place with
    | authored other =>
      exact .inl ⟨element, List.mem_of_getElem? standsThere, mem_of_firstBindings binds⟩
    | dependency lender =>
      refine .inr ⟨lender, near, far, element, isSplit, standsThere, binds, ?_⟩
      rw [filterMap_of_map_some nearMap]
      exact unbound

theorem Lends.mem_bindings {project : Project} {index : Nat} {binder : Element}
    (stands : project.element? (.authored index) = some binder) {lender : Nat} {binding : Binding}
    (lends : project.Lends index binder lender binding) : binding ∈ project.bindings binder := by
  obtain ⟨nearer, behind, element, walk, standsThere, binds, unbound⟩ := lends
  have places := map_lineagePlaces stands project.placed.length [binder.key]
  rw [walk, List.map_append, List.map_cons, standsThere] at places
  have lineage := filterMap_of_map_some (f := id) (by simpa using places)
  refine mem_firstBindings_flatMap.mpr
    ⟨binder :: nearer.filterMap project.element?, element, behind.filterMap project.element?, ?_,
      binds, unbound⟩
  rw [← lineage]
  simp [List.filterMap_append, List.filterMap_map]

end Project

def Report.nameUnknown (reports : List Report) : Bool := reports.any (·.code == some "E0104")

theorem Report.nameUnknown_reportOn (finding : Finding) (subject : QualifiedName) (file : String) :
    nameUnknown [finding.reportOn subject file] = (finding.code == "E0104") := by
  simp [nameUnknown]

@[simp] theorem Report.nameUnknown_append (first second : List Report) :
    nameUnknown (first ++ second) = (nameUnknown first || nameUnknown second) :=
  List.any_append

/-- What is noted on the way is noted in the end if it was before or at one of the steps. -/
theorem foldl_flag {σ α : Type} (flag : σ → Bool) (raises : α → Bool) {step : σ → α → σ}
    (each : ∀ s a, flag (step s a) = (flag s || raises a)) (items : List α) (start : σ) :
    flag (items.foldl step start) = (flag start || items.any raises) := by
  induction items generalizing start with
  | nil => simp
  | cons item rest ih => rw [List.foldl_cons, ih, each, List.any_cons, Bool.or_assoc]

namespace Claims

theorem nameUnknown_bind (project : Project) (binder : Element) (claims : Claims) (binding : Binding) :
    Report.nameUnknown (bind project binder claims binding).reports =
      (Report.nameUnknown claims.reports || (project.action? binding.handler).isNone) := by
  rw [bind]
  cases project.action? binding.handler with
  | none => simp [report, Report.nameUnknown_reportOn, Finding.code]
  | some found =>
    simp only [Option.isNone_some, Bool.or_false]
    split
    · rw [byApplication]
      split <;> rfl
    · rw [byModule]
      split
      · rfl
      · split <;> simp [report, Report.nameUnknown_reportOn, Finding.code]

theorem nameUnknown_ofProject (project : Project) :
    Report.nameUnknown (ofProject project).reports =
      (project.authored.elements.filter fun e => e.kind == .application || e.kind == .module).any
        fun binder => (project.bindings binder).any fun binding =>
          (project.action? binding.handler).isNone := by
  let flag (claims : Claims) : Bool := Report.nameUnknown claims.reports
  have each : ∀ claims binder, flag ((project.bindings binder).foldl (bind project binder) claims) =
      (flag claims || (project.bindings binder).any fun binding =>
        (project.action? binding.handler).isNone) :=
    fun claims binder => foldl_flag flag _ (nameUnknown_bind project binder) _ claims
  exact foldl_flag flag _ each _ _

end Claims

namespace Ownership

theorem nameUnknown_byFile (ownership : Ownership) (place : Place) :
    Report.nameUnknown (byFile ownership place).reports = Report.nameUnknown ownership.reports := by
  rw [byFile]
  split
  · rfl
  · split
    · rfl
    · split
      · rfl
      · dsimp only
        split <;> simp [Report.nameUnknown_reportOn, Finding.code]

theorem nameUnknown_byApplication (ownership : Ownership) (bound : Place × QualifiedName) :
    Report.nameUnknown (byApplication ownership bound).reports =
      Report.nameUnknown ownership.reports := by
  rw [byApplication]
  split <;> rfl

/-- Whether a handler is unknown shows where the bindings are claimed. -/
theorem nameUnknown_settle (project : Project) :
    Report.nameUnknown (settle project).reports =
      Report.nameUnknown (Claims.ofProject project).reports := by
  let flag (ownership : Ownership) : Bool := Report.nameUnknown ownership.reports
  have filed : ∀ (places : List Place) ownership, flag (places.foldl byFile ownership) = flag ownership := by
    intro places ownership
    rw [foldl_flag flag (fun _ => false) fun o p => by simpa using nameUnknown_byFile o p]
    simp
  have applied : ∀ (bound : List (Place × QualifiedName)) ownership,
      flag (bound.foldl byApplication ownership) = flag ownership := by
    intro bound ownership
    rw [foldl_flag flag (fun _ => false) fun o p => by simpa using nameUnknown_byApplication o p]
    simp
  exact (applied _ _).trans (filed _ _)

end Ownership

open Resolution Resolving

/-- After a resolution the check misses a handler exactly if a dependency lends a binding
whose handler is not resolved. A dependency on the resolved chain lends only what is held
back: the binder's `events` property has a type, or an entry that names no handler. -/
theorem handlerUnknown_iff_lent {settings : Settings} {authored : Document} {workspace : Workspace}
    {final : Resolution} (ran : authored.resolved settings workspace = .ok () final) :
    ((∃ report ∈ (Ownership.settle final.project).reports, report.code = some "E0104") ↔
      ∃ index binder lender binding,
        final.project.element? (.authored index) = some binder ∧
        (binder.kind = .application ∨ binder.kind = .module) ∧
        final.project.Lends index binder lender binding ∧
        final.project.action? binding.handler = none) ∧
    ∀ index binder lender binding,
      final.project.element? (.authored index) = some binder →
      final.project.Lends index binder lender binding →
      ∀ places, turnChain? settings { project := { authored }, workspace } index = some places →
      .dependency lender ∈ places →
      ∃ events, Property.find? Property.eventsKey binder.properties = some events ∧
        (events.typeName.isSome ∨ ∃ entry ∈ events.attributes,
          entry.key = binding.event ∧ entry.value = none ∧ entry.typeName = none) := by
  refine ⟨?_, fun index binder lender binding stands lends places turn member => ?_⟩
  · have flagged := (Ownership.nameUnknown_settle final.project).trans
      (Claims.nameUnknown_ofProject final.project)
    have reported : (∃ report ∈ (Ownership.settle final.project).reports,
        report.code = some "E0104") ↔ Report.nameUnknown (Ownership.settle final.project).reports := by
      simp [Report.nameUnknown]
    rw [reported, flagged, List.any_eq_true]
    simp only [List.mem_filter, List.any_eq_true, Bool.or_eq_true, beq_iff_eq, Option.isNone_iff_eq_none]
    constructor
    · rintro ⟨binder, ⟨member, binds⟩, binding, bound, unknown⟩
      obtain ⟨index, at?⟩ := List.mem_iff_getElem?.mp member
      have stands : final.project.element? (.authored index) = some binder := at?
      rcases Project.mem_bindings stands bound with ⟨owner, inAuthored, own⟩ | ⟨lender, lends⟩
      · have known := known?_of_binding ran inAuthored own
        rw [known?_eq_action?, unknown] at known
        cases known
      · exact ⟨index, binder, lender, binding, stands, binds, lends, unknown⟩
    · rintro ⟨index, binder, lender, binding, stands, binds, lends, unknown⟩
      exact ⟨binder, ⟨List.mem_of_getElem? stands, binds⟩, binding, lends.mem_bindings stands, unknown⟩
  · obtain ⟨nearer, behind, element, -, standsThere, binds, unbound⟩ := lends
    have hears := hears_of_chain ran stands turn member standsThere (Project.mem_of_firstBindings binds)
    apply Element.heldBack_of_hears hears
    intro other own
    apply unbound other
    exact List.mem_flatMap.mpr ⟨binder, by simp, own⟩

/-- A module that names the event its ancestor binds, and no handler. -/
def unnamedHandler : Document :=
  { elements :=
    [{ kind := .module, name := ⟨"Shop", some "acme"⟩, ancestor := some ⟨"Base", some "lib"⟩
       properties := [{ key := "events", attributes := [{ key := "onStop" }] }] }] }

theorem handlerUnknown_unnamedHandler :
    ∃ final index binder lender binding, unnamedHandler.resolved {} stoppingLibrary = .ok () final ∧
      final.project.element? (.authored index) = some binder ∧
      final.project.Lends index binder lender binding ∧
      final.project.action? binding.handler = none := by
  have ends : ends (fun _ final => Report.nameUnknown (Ownership.settle final.project).reports)
      (unnamedHandler.resolved {} stoppingLibrary) := by decide +kernel
  obtain ⟨_, final, ran, flagged⟩ := ok_of_ends ends
  have reported : ∃ report ∈ (Ownership.settle final.project).reports, report.code = some "E0104" := by
    simpa [Report.nameUnknown] using flagged
  obtain ⟨index, binder, lender, binding, stands, -, lends, unknown⟩ :=
    (handlerUnknown_iff_lent ran).1.mp reported
  exact ⟨final, index, binder, lender, binding, ran, stands, lends, unknown⟩

/-- The library's binding is not inherited, so its action is not resolved, and the check asks
for it all the same. -/
theorem unnamedHandler_reported :
    ∃ final, unnamedHandler.resolved {} stoppingLibrary = .ok () final ∧
      ∃ report ∈ (Ownership.settle final.project).reports, report.code = some "E0104" := by
  have ends : ends (fun _ final => Report.nameUnknown (Ownership.settle final.project).reports)
      (unnamedHandler.resolved {} stoppingLibrary) := by decide +kernel
  obtain ⟨_, final, ran, flagged⟩ := ok_of_ends ends
  exact ⟨final, ran, by simpa [Report.nameUnknown] using flagged⟩

end Requirements
