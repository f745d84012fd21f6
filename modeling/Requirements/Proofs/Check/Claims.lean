import Mathlib.Data.List.Perm.Basic
import Requirements.Proofs.Check.Lineage

/-! Claims to actions. Every binding of a module that leads to an action is a claim to it. Of
the claims to one action the first is kept and each later one is reported, whether it comes from
the same module or from another. -/
namespace Requirements
namespace Project

/-- The authored applications and modules in order, each with all that it binds or inherits. -/
def bound (project : Project) : List (Element × Binding) :=
  (project.authored.elements.filter fun e => e.kind == .application || e.kind == .module).flatMap
    fun binder => (project.bindings binder).map fun binding => (binder, binding)

def leadsTo (project : Project) (place : Place) (binding : Binding) : Bool :=
  (project.action? binding.handler).any fun (found, _) => found = place

/-- The binders of the kind, once for each binding that leads to the place. -/
def claimants (project : Project) (bound : List (Element × Binding)) (kind : ElementKind)
    (place : Place) : List Element :=
  (bound.filter fun (binder, binding) => binder.kind == kind && project.leadsTo place binding).map (·.1)

def unknownHandlers (project : Project) (bound : List (Element × Binding)) : List Report :=
  bound.filterMap fun (binder, binding) =>
    match project.action? binding.handler with
    | none => some ((Finding.handlerUnknown binding.event binder.name binding.handler).reportOn
        binder.name binder.file)
    | some _ => none

theorem nodup_placed (project : Project) : project.placed.Nodup :=
  project.pairwise_placed.imp fun before => by
    rintro rfl
    exact Place.PlacedBefore.asymm before before

theorem placed_action? {project : Project} {reference : QualifiedName} {place : Place} {action : Element}
    (leads : project.action? reference = some (place, action)) :
    project.element? place = some action ∧ action.kind = .action := by
  rw [action?] at leads
  have designated := List.find?_some leads
  exact ⟨mem_placed.mp (List.mem_of_find?_eq_some leads), Element.kind_of_designated designated⟩

theorem claimants_append (project : Project) (bound more : List (Element × Binding)) (kind : ElementKind)
    (place : Place) : project.claimants (bound ++ more) kind place =
      project.claimants bound kind place ++ project.claimants more kind place := by
  simp [claimants]

/-- A binding that leads to a place is one claim more to it. -/
theorem claimants_bind {project : Project} {bound : List (Element × Binding)} {binder action : Element}
    {binding : Binding} {place : Place} (leads : project.action? binding.handler = some (place, action))
    (kind : ElementKind) (other : Place) :
    project.claimants (bound ++ [(binder, binding)]) kind other =
      project.claimants bound kind other ++ if binder.kind = kind ∧ place = other then [binder] else [] := by
  rw [claimants_append]
  congr 1
  by_cases claims : binder.kind = kind ∧ place = other <;>
    simp_all [claimants, leadsTo]

/-- Only to actions there are claims. -/
theorem kind_of_claimants {project : Project} {bound : List (Element × Binding)} {kind : ElementKind}
    {place : Place} {claimant : Element} (member : claimant ∈ project.claimants bound kind place) :
    ∃ action, project.element? place = some action ∧ action.kind = .action := by
  obtain ⟨⟨binder, binding⟩, claims, -⟩ := List.mem_map.mp member
  obtain ⟨-, meets⟩ := List.mem_filter.mp claims
  simp only [leadsTo, Bool.and_eq_true, Option.any_eq_true, decide_eq_true_eq] at meets
  obtain ⟨-, ⟨found, action⟩, leads, rfl⟩ := meets
  exact ⟨action, placed_action? leads⟩

end Project

namespace Claims

def lateClaim (action first other : Element) : Report :=
  if first.name = other.name then
    (Finding.actionBoundAgain first.name action.name).reportOn action.name other.file
  else (Finding.ownersConflict action.name first.name other.name).reportOn action.name action.file

def lateClaims (action : Element) : List Element → List Report
  | [] => []
  | first :: others => others.map (lateClaim action first)

def contested : List Element → Bool
  | [] => false
  | first :: others => others.any (·.name != first.name)

/-- For each place that somebody claims, the first who does is listed once. -/
structure ListsFirst (kept : List (Place × QualifiedName)) (claimants : Place → List Element) : Prop where
  lookup : ∀ place, kept.lookup place = (claimants place).head?.map Element.name
  once : (kept.map Prod.fst).Nodup

section ListsFirst

variable {kept : List (Place × QualifiedName)} {former claimants : Place → List Element} {place : Place}
  {binder : Element}

theorem ListsFirst.congr (lists : ListsFirst kept former) (same : ∀ other, claimants other = former other) :
    ListsFirst kept claimants :=
  ⟨fun other => same other ▸ lists.lookup other, lists.once⟩

/-- The first claim is listed. -/
theorem ListsFirst.first (lists : ListsFirst kept former) (unclaimed : kept.lookup place = none)
    (here : claimants place = former place ++ [binder])
    (elsewhere : ∀ other, other ≠ place → claimants other = former other) :
    ListsFirst (kept ++ [(place, binder.name)]) claimants := by
  have nobody : former place = [] := by simpa [lists.lookup place] using unclaimed
  constructor
  · intro other
    rw [List.lookup_append, lists.lookup other]
    by_cases same : other = place
    · subst same
      simp [here, nobody]
    · have differs : (other == place) = false := by simpa using same
      simp [elsewhere other same, List.lookup_cons, differs]
  · rw [List.map_append, List.nodup_append]
    refine ⟨lists.once, by simp, fun listed member added isAdded => ?_⟩
    rintro rfl
    obtain rfl : listed = place := by simpa using isAdded
    obtain ⟨⟨_, owner⟩, inKept, rfl⟩ := List.mem_map.mp member
    have absent := List.lookup_eq_none_iff.mp unclaimed _ inKept
    simp at absent

/-- A later claim changes nothing of the list. -/
theorem ListsFirst.later (lists : ListsFirst kept former) {owner : QualifiedName}
    (claimed : kept.lookup place = some owner) (here : claimants place = former place ++ [binder])
    (elsewhere : ∀ other, other ≠ place → claimants other = former other) :
    ListsFirst kept claimants := by
  refine ⟨fun other => ?_, lists.once⟩
  by_cases same : other = place
  · subst same
    rw [lists.lookup other] at claimed
    obtain ⟨first, isFirst, -⟩ := Option.map_eq_some_iff.mp claimed
    rw [lists.lookup other, here, List.head?_append, isFirst, Option.some_or]
  · rw [lists.lookup other, elsewhere other same]

end ListsFirst

/-- The claims say what the bindings in turn amount to. -/
structure Reflects (project : Project) (bound : List (Element × Binding)) (claims : Claims) : Prop where
  modules : ListsFirst claims.modules (project.claimants bound .module)
  applications : ListsFirst claims.applications (project.claimants bound .application)
  conflicted : ∀ place, claims.conflicted.contains place = contested (project.claimants bound .module place)
  reports : claims.reports.Perm (project.unknownHandlers bound ++
    project.placed.flatMap fun (place, action) => lateClaims action (project.claimants bound .module place))

theorem reflects_none (project : Project) : Reflects project [] {} :=
  ⟨⟨fun _ => rfl, .nil⟩, ⟨fun _ => rfl, .nil⟩, fun _ => rfl,
    by simp [Project.claimants, lateClaims, Project.unknownHandlers]⟩

/-- Where one claim is added, nobody gets or loses a contest but who claims there. -/
theorem contains_of_claim {conflicted now : List Place} {former claimants : Place → List Element}
    {place : Place} (before : ∀ other, conflicted.contains other = contested (former other))
    (here : now.contains place = contested (claimants place))
    (elsewhere : ∀ other, other ≠ place → claimants other = former other)
    (kept : ∀ other, other ≠ place → now.contains other = conflicted.contains other) (other : Place) :
    now.contains other = contested (claimants other) := by
  by_cases same : other = place
  · rw [same]
    exact here
  · rw [kept other same, elsewhere other same]
    exact before other

/-- What is added at one of several distinct items comes behind, but for the order. -/
theorem flatMap_perm_append {α β : Type} {items : List α} (distinct : items.Nodup) {item : α}
    (member : item ∈ items) {former now : α → List β} {added : List β}
    (here : now item = former item ++ added)
    (elsewhere : ∀ other ∈ items, other ≠ item → now other = former other) :
    (items.flatMap now).Perm (items.flatMap former ++ added) := by
  obtain ⟨before, behind, rfl⟩ := List.append_of_mem member
  have apart := List.perm_middle.nodup_iff.mp distinct
  have same : ∀ part, part ⊆ before ++ behind → part.flatMap now = part.flatMap former := by
    intro part inside
    refine List.flatMap_congr fun other inPart => elsewhere other ?_ ?_
    · simpa [or_left_comm] using Or.inr (List.mem_append.mp (inside inPart))
    · rintro rfl
      exact (List.nodup_cons.mp apart).1 (inside inPart)
  rw [List.flatMap_append, List.flatMap_cons, List.flatMap_append, List.flatMap_cons, here,
    same before (List.subset_append_left _ _), same behind (List.subset_append_right _ _)]
  simp only [List.append_assoc]
  exact (List.perm_append_comm.append_left _).append_left _

section Bind

variable {project : Project} {bound : List (Element × Binding)} {claims : Claims} {binder : Element}
  {binding : Binding}

theorem Reflects.bindUnknown (reflects : Reflects project bound claims)
    (unknown : project.action? binding.handler = none) :
    Reflects project (bound ++ [(binder, binding)]) (claims.report
      ((Finding.handlerUnknown binding.event binder.name binding.handler).reportOn binder.name binder.file)) := by
  have same : ∀ kind place, project.claimants (bound ++ [(binder, binding)]) kind place =
      project.claimants bound kind place := by
    intro kind place
    simp [Project.claimants, Project.leadsTo, unknown]
  refine ⟨reflects.modules.congr (same _), reflects.applications.congr (same _), ?_, ?_⟩
  · intro place
    rw [same]
    exact reflects.conflicted place
  · simp only [same, Project.unknownHandlers, List.filterMap_append, List.filterMap_cons, unknown,
      List.filterMap_nil, List.append_assoc]
    refine (reflects.reports.append_right _).trans ?_
    rw [List.append_assoc]
    exact List.perm_append_comm.append_left _

theorem Reflects.bindApplication (reflects : Reflects project bound claims) {place : Place}
    {action : Element} (leads : project.action? binding.handler = some (place, action))
    (binds : binder.kind = .application) :
    Reflects project (bound ++ [(binder, binding)]) (claims.byApplication binder place) := by
  have sameModules : ∀ other, project.claimants (bound ++ [(binder, binding)]) .module other =
      project.claimants bound .module other := by
    simp [Project.claimants_bind leads, binds]
  have here : project.claimants (bound ++ [(binder, binding)]) .application place =
      project.claimants bound .application place ++ [binder] := by
    simp [Project.claimants_bind leads, binds]
  have elsewhere : ∀ other, other ≠ place →
      project.claimants (bound ++ [(binder, binding)]) .application other =
        project.claimants bound .application other := by
    intro other differ
    simp [Project.claimants_bind leads, Ne.symm differ]
  have reports : claims.reports.Perm (project.unknownHandlers (bound ++ [(binder, binding)]) ++
      project.placed.flatMap fun (place, action) =>
        lateClaims action (project.claimants (bound ++ [(binder, binding)]) .module place)) := by
    simpa [sameModules, Project.unknownHandlers, leads] using reflects.reports
  rw [byApplication]
  cases listed : claims.applications.lookup place with
  | none =>
    exact ⟨reflects.modules.congr sameModules, reflects.applications.first listed here elsewhere,
      fun other => by rw [sameModules]; exact reflects.conflicted other, reports⟩
  | some owner =>
    exact ⟨reflects.modules.congr sameModules, reflects.applications.later listed here elsewhere,
      fun other => by rw [sameModules]; exact reflects.conflicted other, reports⟩

/-- What the claim of a module adds at the action's place it adds to the reports. -/
theorem Reflects.reports_bindModule (reflects : Reflects project bound claims) {place : Place}
    {action : Element} (leads : project.action? binding.handler = some (place, action))
    (binds : binder.kind = .module) {added : List Report}
    (late : lateClaims action (project.claimants bound .module place ++ [binder]) =
      lateClaims action (project.claimants bound .module place) ++ added) :
    (claims.reports ++ added).Perm (project.unknownHandlers (bound ++ [(binder, binding)]) ++
      project.placed.flatMap fun (place, action) =>
        lateClaims action (project.claimants (bound ++ [(binder, binding)]) .module place)) := by
  have sameUnknown : project.unknownHandlers (bound ++ [(binder, binding)]) =
      project.unknownHandlers bound := by
    simp [Project.unknownHandlers, leads]
  obtain ⟨stands, -⟩ := Project.placed_action? leads
  rw [sameUnknown]
  refine (reflects.reports.append_right _).trans ?_
  rw [List.append_assoc]
  refine (List.Perm.symm ?_).append_left _
  refine flatMap_perm_append project.nodup_placed (Project.mem_placed.mpr stands) ?_ ?_
  · simpa [Project.claimants_bind leads, binds] using late
  · rintro ⟨other, element⟩ member differ
    have otherPlace : place ≠ other := by
      rintro rfl
      have sameElement := (Project.mem_placed.mp member).symm.trans stands
      exact differ (by rw [Option.some.inj sameElement])
    simp [Project.claimants_bind leads, otherPlace]

theorem Reflects.bindModule (reflects : Reflects project bound claims) {place : Place}
    {action : Element} (leads : project.action? binding.handler = some (place, action))
    (binds : binder.kind = .module) :
    Reflects project (bound ++ [(binder, binding)]) (claims.byModule binder action place) := by
  have applications : ListsFirst claims.applications
      (project.claimants (bound ++ [(binder, binding)]) .application) :=
    reflects.applications.congr fun other => by simp [Project.claimants_bind leads, binds]
  have here : project.claimants (bound ++ [(binder, binding)]) .module place =
      project.claimants bound .module place ++ [binder] := by
    simp [Project.claimants_bind leads, binds]
  have elsewhere : ∀ other, other ≠ place →
      project.claimants (bound ++ [(binder, binding)]) .module other =
        project.claimants bound .module other := by
    intro other differ
    simp [Project.claimants_bind leads, Ne.symm differ]
  rw [byModule]
  cases listed : claims.modules.lookup place with
  | none =>
    have nobody : project.claimants bound .module place = [] := by
      simpa [reflects.modules.lookup place] using listed
    have quiet := reflects.conflicted place
    rw [nobody] at quiet
    refine ⟨reflects.modules.first listed here elsewhere, applications,
      contains_of_claim reflects.conflicted ?_ elsewhere fun _ _ => rfl, ?_⟩
    · rw [here, nobody]
      exact quiet
    · have nothingLate : lateClaims action (project.claimants bound .module place ++ [binder]) =
          lateClaims action (project.claimants bound .module place) ++ [] := by simp [nobody, lateClaims]
      simpa using reflects.reports_bindModule leads binds nothingLate
  | some owner =>
    have claimed := reflects.modules.lookup place
    rw [listed] at claimed
    obtain ⟨first, isFirst, rfl⟩ := Option.map_eq_some_iff.mp claimed.symm
    obtain ⟨others, split⟩ := List.head?_eq_some_iff.mp isFirst
    have late : lateClaims action (project.claimants bound .module place ++ [binder]) =
        lateClaims action (project.claimants bound .module place) ++ [lateClaim action first binder] := by
      simp [split, lateClaims]
    have reports := reflects.reports_bindModule leads binds late
    have modules := reflects.modules.later listed here elsewhere
    have before := reflects.conflicted place
    rw [split] at here before
    dsimp only
    split
    next sameName =>
      refine ⟨modules, applications, contains_of_claim reflects.conflicted ?_ elsewhere fun _ _ => rfl,
        by simpa [lateClaim, sameName, report] using reports⟩
      rw [here]
      simpa [contested, sameName, report] using before
    next otherName =>
      have differs : (binder.name != first.name) = true := by simpa using Ne.symm otherName
      refine ⟨modules, applications, contains_of_claim reflects.conflicted ?_ elsewhere ?_,
        by simpa [lateClaim, otherName, report] using reports⟩
      · simp [here, contested, differs]
      · intro other differ
        simp [differ]

/-- One binding more is reflected. -/
theorem Reflects.bind (reflects : Reflects project bound claims)
    (binds : binder.kind = .application ∨ binder.kind = .module) :
    Reflects project (bound ++ [(binder, binding)]) (Claims.bind project binder claims binding) := by
  rw [Claims.bind]
  cases leads : project.action? binding.handler with
  | none => exact reflects.bindUnknown leads
  | some found =>
    rcases binds with application | module
    · simpa [application] using reflects.bindApplication leads application
    · simpa [module] using reflects.bindModule leads module

end Bind

/-- All bindings in turn are reflected. -/
theorem reflects_ofProject (project : Project) : Reflects project project.bound (ofProject project) := by
  let visit := fun claims (claim : Element × Binding) => Claims.bind project claim.1 claims claim.2
  have flat : ofProject project = project.bound.foldl visit {} := by
    rw [ofProject, Project.bound, List.foldl_flatMap]
    simp only [List.foldl_map, visit]
  have binders : ∀ claim ∈ project.bound, claim.1.kind = .application ∨ claim.1.kind = .module := by
    intro claim member
    obtain ⟨binder, isBinder, paired⟩ := List.mem_flatMap.mp member
    obtain ⟨_, -, rfl⟩ := List.mem_map.mp paired
    simpa using (List.mem_filter.mp isBinder).2
  have run : ∀ rest done claims, (∀ claim ∈ rest, claim.1.kind = .application ∨ claim.1.kind = .module) →
      Reflects project done claims → Reflects project (done ++ rest) (rest.foldl visit claims) := by
    intro rest
    induction rest with
    | nil => exact fun done claims _ reflects => by simpa using reflects
    | cons claim rest ih =>
      intro done claims binders reflects
      have onward := ih (done ++ [claim]) _ (fun other member => binders other (by simp [member]))
        (reflects.bind (binders claim (by simp)))
      simpa [visit] using onward
  rw [flat]
  exact run project.bound [] {} binders (reflects_none project)

end Claims
end Requirements
