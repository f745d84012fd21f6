import Requirements.Proofs.Check.Deciding

/-! Who owns an action in the end. Three passes give owners away: to modules that claim actions,
to the only module of a file, and to applications. Together they decide each action by a table. -/
namespace Requirements
namespace Project

/-- Who owns an action when the modules that claim actions have got them. -/
def claimedOwner (project : Project) (place : Place) (action : Element) : Option QualifiedName :=
  match project.claimants project.bound .module place with
  | first :: others => if Claims.contested (first :: others) then action.owner else some first.name
  | [] => action.owner

def claimed (project : Project) (place : Place) (element : Element) : Element :=
  { element with owner := project.claimedOwner place element }

/-- Who owns the action: the module that alone claims it, and if modules of different names do,
who owned it before. An action that no module claims stays with its owner. If it has none, it
goes to the only module of its file, or to none if there are several, or else to the first
application that binds it. -/
def decidedOwner (project : Project) (place : Place) (action : Element) : Option QualifiedName :=
  match project.claimants project.bound .module place with
  | first :: others =>
    if Claims.contested (first :: others) then action.owner else some first.name
  | [] =>
    match action.owner, project.homes place action with
    | some owner, _ => some owner
    | none, [home] => some home
    | none, _ :: _ :: _ => none
    | none, [] => (project.claimants project.bound .application place).head?.map Element.name

/-- The errors about the action: one for every claim but the first, and one if nobody claims or
owns it and several modules of its file could. -/
def complaints (project : Project) (place : Place) (action : Element) : List Report :=
  match project.claimants project.bound .module place with
  | first :: others => others.map (Claims.lateClaim action first)
  | [] => if action.owner.isNone then project.ambiguities place action else []

def decided (project : Project) (place : Place) (element : Element) : Element :=
  if element.kind = .action then { element with owner := project.decidedOwner place element } else element

end Project

/-- Where the elements are changed place by place, so are they all. -/
theorem Project.placed_of_element? {project other : Project} {change : Place → Element → Element}
    (changed : ∀ place, other.element? place = (project.element? place).map (change place)) :
    other.placed = project.placed.map fun (place, element) => (place, change place element) := by
  rw [placed, placed, List.map_append]
  congr 1
  · apply List.ext_getElem?
    intro index
    have here : other.authored.elements[index]? = project.authored.elements[index]?.map _ :=
      changed (.authored index)
    simp [here, Function.comp_def]
  · apply List.ext_getElem?
    intro index
    have here : other.dependencies.elements[index]? = project.dependencies.elements[index]?.map _ :=
      changed (.dependency index)
    simp [here, Function.comp_def]

namespace Ownership

open Claims

def ofModules (project : Project) : Ownership := ofClaims (Claims.ofProject project) project

def ofFiles (project : Project) : Ownership :=
  (ofModules project).project.ownerless.foldl byFile (ofModules project)

theorem settle_eq (project : Project) :
    settle project = (Claims.ofProject project).applications.foldl byApplication (ofFiles project) := rfl

/-- The project as the modules have claimed their actions in it. -/
theorem element?_ofModules (project : Project) (place : Place) :
    (ofModules project).project.element? place =
      (project.element? place).map (project.claimed place) := by
  obtain ⟨modules, -, conflicted, -⟩ := reflects_ofProject project
  have acted := (actsAt_claims (Claims.ofProject project) project).look_foldl modules.once ⟨rfl, rfl⟩ place
  refine Eq.trans acted ?_
  have listed := modules.lookup place
  have contests := conflicted place
  rw [lookup_eq_find?] at listed
  cases found : (Claims.ofProject project).modules.find? (·.1 = place) with
  | none =>
    have nobody : project.claimants project.bound .module place = [] := by
      simpa [found] using listed.symm
    have stays : project.claimed place = id := by
      funext element
      rw [Project.claimed, Project.claimedOwner, nobody]
      rfl
    rw [stays, Option.map_id_fun]
    rfl
  | some claim =>
    obtain ⟨claimedPlace, owner⟩ := claim
    obtain rfl : claimedPlace = place := by simpa using List.find?_some found
    rw [found] at listed
    obtain ⟨first, isFirst, rfl⟩ := Option.map_eq_some_iff.mp listed.symm
    obtain ⟨others, split⟩ := List.head?_eq_some_iff.mp isFirst
    dsimp only
    rw [contests, split]
    cases contest : contested (first :: others) with
    | true =>
      have stays : project.claimed claimedPlace = id := by
        funext element
        rw [Project.claimed, Project.claimedOwner, split]
        simp [contest]
      rw [stays, Option.map_id_fun]
      rfl
    | false =>
      have given : project.claimed claimedPlace = ({ · with owner := some first.name }) := by
        funext element
        rw [Project.claimed, Project.claimedOwner, split]
        simp [contest]
      rw [given]
      rfl

theorem sameButOwners_ofModules (project : Project) :
    project.SameButOwners (ofModules project).project :=
  (actsAt_claims (Claims.ofProject project) project).invariant_foldl _ ⟨rfl, rfl⟩

/-- The actions that wait for an owner when modules have claimed theirs. -/
theorem ownerless_ofModules (project : Project) :
    (ofModules project).project.ownerless =
      (project.placed.filter fun (place, element) =>
        element.kind == .action && (project.claimedOwner place element).isNone).map (·.1) := by
  rw [Project.ownerless, Project.placed_of_element? (element?_ofModules project), List.filter_map,
    List.map_map]
  rfl

theorem nodup_ownerless (project : Project) : project.ownerless.Nodup := by
  have places : (project.placed.map (·.1)).Nodup := by
    refine List.pairwise_map.mpr (project.pairwise_placed.imp fun before same => ?_)
    exact Place.PlacedBefore.asymm before (same ▸ before)
  exact places.sublist (List.filter_sublist.map _)

theorem at?_ofModules (project : Project) {place : Place} {element : Element}
    (stands : project.element? place = some element) :
    (ofModules project).at? place =
      (some (project.claimed place element), contested (project.claimants project.bound .module place)) := by
  rw [at?, element?_ofModules, stands, Option.map_some]
  exact congrArg _ ((reflects_ofProject project).conflicted place)

theorem mem_ownerless {project : Project} {place : Place} :
    place ∈ (ofModules project).project.ownerless ↔ ∃ element, project.element? place = some element ∧
      element.kind = .action ∧ project.claimedOwner place element = none := by
  simp only [ownerless_ofModules, List.mem_map, List.mem_filter, Bool.and_eq_true, beq_iff_eq,
    Option.isNone_iff_eq_none, Prod.exists, Project.mem_placed]
  constructor
  · rintro ⟨_, element, ⟨stands, isAction, unclaimed⟩, rfl⟩
    exact ⟨element, stands, isAction, unclaimed⟩
  · rintro ⟨element, stands, isAction, unclaimed⟩
    exact ⟨place, element, ⟨stands, isAction, unclaimed⟩, rfl⟩

/-- The files decide on the actions that wait for an owner. -/
theorem at?_ofFiles (project : Project) (place : Place) : (ofFiles project).at? place =
    if place ∈ (ofModules project).project.ownerless then
      decideByFile project place ((ofModules project).at? place)
    else (ofModules project).at? place := by
  have distinct : ((ofModules project).project.ownerless.map id).Nodup := by
    simpa using nodup_ownerless _
  refine ((actsAt_byFile project).look_foldl distinct (sameButOwners_ofModules project) place).trans ?_
  cases found : (ofModules project).project.ownerless.find? (id · = place) with
  | none =>
    have absent : place ∉ (ofModules project).project.ownerless :=
      fun member => by simpa using List.find?_eq_none.mp found place member
    rw [if_neg absent]
  | some item =>
    obtain rfl : item = place := by simpa using List.find?_some found
    rw [if_pos (List.mem_of_find?_eq_some found)]

/-- In the end the applications decide on the actions that they bind. -/
theorem at?_settle (project : Project) (place : Place) : (settle project).at? place =
    match (project.claimants project.bound .application place).head? with
    | some first => decideByApplication (place, first.name) ((ofFiles project).at? place)
    | none => (ofFiles project).at? place := by
  obtain ⟨-, applications, -, -⟩ := reflects_ofProject project
  refine (actsAt_byApplication.look_foldl applications.once trivial place).trans ?_
  have listed := applications.lookup place
  rw [lookup_eq_find?] at listed
  cases isFirst : (project.claimants project.bound .application place).head? with
  | none =>
    rw [isFirst] at listed
    rw [Option.map_eq_none_iff.mp listed]
    rfl
  | some first =>
    rw [isFirst] at listed
    obtain ⟨⟨claimedPlace, _⟩, found, rfl⟩ := Option.map_eq_some_iff.mp listed
    obtain rfl : claimedPlace = place := by simpa using List.find?_some found
    rw [found]
    rfl

theorem claimants_of_kind {project : Project} {place : Place} {element : Element}
    (stands : project.element? place = some element) (other : element.kind ≠ .action) (kind : ElementKind) :
    project.claimants project.bound kind place = [] := by
  refine List.eq_nil_iff_forall_not_mem.mpr fun claimant member => ?_
  obtain ⟨action, standsThere, isAction⟩ := Project.kind_of_claimants member
  obtain rfl := Option.some.inj (stands.symm.trans standsThere)
  exact other isAction

/-- An action that no module claims and nobody owns is decided by its file and by applications. -/
theorem settle_unclaimed {project : Project} {place : Place} {action : Element}
    (stands : project.element? place = some action) (isAction : action.kind = .action)
    (unclaimed : project.claimants project.bound .module place = []) (unowned : action.owner = none) :
    (settle project).project.element? place =
      some { action with owner := project.decidedOwner place action } := by
  change ((settle project).at? place).1 = _
  have waits : project.claimedOwner place action = none := by
    rw [Project.claimedOwner, unclaimed]
    exact unowned
  have asBefore : project.claimed place action = action := by
    rw [Project.claimed, waits, ← unowned]
  rw [at?_settle, at?_ofFiles, if_pos (mem_ownerless.mpr ⟨action, stands, isAction, waits⟩),
    at?_ofModules project stands, unclaimed, asBefore, Project.decidedOwner, unclaimed, unowned]
  cases homes : project.homes place action with
  | nil =>
    have byFile : decideByFile project place (some action, contested []) = (some action, false) := by
      simp [decideByFile, contested, homes]
    rw [byFile]
    cases (project.claimants project.bound .application place).head? with
    | none => simp [← unowned]
    | some first => simp [decideByApplication, unowned]
  | cons home more =>
    cases more with
    | nil =>
      cases (project.claimants project.bound .application place).head? <;>
        simp [decideByFile, decideByApplication, contested, homes]
    | cons second more =>
      cases (project.claimants project.bound .application place).head? <;>
        simp [decideByFile, decideByApplication, contested, homes, ← unowned]

/-- Who is owned or contested, or no action, is left as it is by files and applications. -/
theorem settle_claimed {project : Project} {place : Place} {element : Element}
    (stands : project.element? place = some element)
    (closed : element.kind ≠ .action ∨ contested (project.claimants project.bound .module place) ∨
      (project.claimedOwner place element).isSome) :
    (settle project).project.element? place = some (project.claimed place element) := by
  change ((settle project).at? place).1 = _
  have filed : (ofFiles project).at? place = (ofModules project).at? place := by
    rw [at?_ofFiles]
    split
    next waits =>
      obtain ⟨same, standsThere, isAction, unclaimed⟩ := mem_ownerless.mp waits
      obtain rfl := Option.some.inj (stands.symm.trans standsThere)
      obtain other | contest | owned := closed
      · exact absurd isAction other
      · rw [at?_ofModules project stands, contest]
        rfl
      · simp [unclaimed] at owned
    next => rfl
  rw [at?_settle, filed, at?_ofModules project stands]
  obtain other | contest | owned := closed
  · rw [claimants_of_kind stands other]
    rfl
  · rw [contest]
    cases (project.claimants project.bound .application place).head? <;> rfl
  · have keeps : ∀ first conflict,
        (decideByApplication (place, first) (some (project.claimed place element), conflict)).1 =
          some (project.claimed place element) := by
      intro first conflict
      have notNone : (project.claimed place element).owner ≠ none := Option.isSome_iff_ne_none.mp owned
      cases conflict <;> simp [decideByApplication, notNone]
    cases (project.claimants project.bound .application place).head? with
    | none => rfl
    | some first => exact keeps first.name _

theorem settle_absent {project : Project} {place : Place} (absent : project.element? place = none) :
    (settle project).project.element? place = none := by
  change ((settle project).at? place).1 = none
  have claimed : ((ofModules project).at? place).1 = none := by
    rw [at?, element?_ofModules, absent]
    rfl
  have byFile : ∀ known : Option Element × Bool, known.1 = none →
      (decideByFile project place known).1 = none := by
    rintro ⟨_, _⟩ rfl
    rfl
  have byApplication : ∀ first (known : Option Element × Bool), known.1 = none →
      (decideByApplication (place, first) known).1 = none := by
    rintro first ⟨_, _⟩ rfl
    rfl
  have filed : ((ofFiles project).at? place).1 = none := by
    rw [at?_ofFiles]
    split
    · exact byFile _ claimed
    · exact claimed
  rw [at?_settle]
  split
  · exact byApplication _ _ filed
  · exact filed

/-- What the passes leave at a place is what the table decides. -/
theorem element?_settle (project : Project) (place : Place) :
    (settle project).project.element? place = (project.element? place).map (project.decided place) := by
  cases stands : project.element? place with
  | none => exact settle_absent stands
  | some element =>
    rw [Option.map_some, Project.decided]
    by_cases isAction : element.kind = .action
    · rw [if_pos isAction]
      cases claims : project.claimants project.bound .module place with
      | cons first others =>
        have sameOwner : project.decidedOwner place element = project.claimedOwner place element := by
          rw [Project.decidedOwner, Project.claimedOwner, claims]
        rw [sameOwner]
        refine settle_claimed stands (.inr ?_)
        rw [claims, Project.claimedOwner, claims]
        cases contest : contested (first :: others) <;> simp [contest]
      | nil =>
        cases owned : element.owner with
        | none => exact settle_unclaimed stands isAction claims owned
        | some owner =>
          have stays : project.claimedOwner place element = some owner := by
            rw [Project.claimedOwner, claims]
            exact owned
          have decides : project.decidedOwner place element = some owner := by
            rw [Project.decidedOwner, claims, owned]
          rw [settle_claimed stands (.inr (.inr (by simp [stays]))), Project.claimed, stays, decides]
    · rw [if_neg isAction, settle_claimed stands (.inl isAction), Project.claimed, Project.claimedOwner,
        claimants_of_kind stands isAction]

/-- The errors of the first pass: those of late claims, and of bindings that lead nowhere. -/
theorem errors_ofModules (project : Project) : (Report.errors (ofModules project).reports).Perm
    (project.unknownHandlers project.bound ++ project.placed.flatMap fun (place, action) =>
      lateClaims action (project.claimants project.bound .module place)) := by
  have allErrors : ∀ report ∈ project.unknownHandlers project.bound ++
      (project.placed.flatMap fun (place, action) =>
        lateClaims action (project.claimants project.bound .module place)), report.isError := by
    intro report member
    rcases List.mem_append.mp member with unknown | late
    · obtain ⟨⟨binder, binding⟩, -, reported⟩ := List.mem_filterMap.mp unknown
      dsimp only at reported
      split at reported
      next =>
        obtain rfl := Option.some.inj reported
        simp [Finding.severity]
      next => cases reported
    · obtain ⟨⟨place, action⟩, -, isLate⟩ := List.mem_flatMap.mp late
      dsimp only at isLate
      cases claims : project.claimants project.bound .module place with
      | nil => simp [claims, lateClaims] at isLate
      | cons first others =>
        rw [claims, lateClaims] at isLate
        obtain ⟨other, -, rfl⟩ := List.mem_map.mp isLate
        rw [lateClaim]
        split <;> simp [Finding.severity]
  have errors := (reflects_ofProject project).reports.filter Report.isError
  rwa [List.filter_eq_self.mpr allErrors] at errors

theorem flatMap_filter_eq {α β : Type} (items : List α) (p : α → Bool) (f : α → List β) :
    (items.filter p).flatMap f = items.flatMap fun item => if p item then f item else [] := by
  induction items with
  | nil => rfl
  | cons item rest ih =>
    rw [List.filter_cons, List.flatMap_cons, ← ih]
    split <;> simp

/-- The errors of the second pass come behind those of the first. -/
theorem errors_ofFiles (project : Project) : Report.errors (ofFiles project).reports =
    Report.errors (ofModules project).reports ++ project.placed.flatMap fun (place, element) =>
      if element.kind == .action && (project.claimedOwner place element).isNone then
        errorsByFile project place (some (project.claimed place element),
          contested (project.claimants project.bound .module place))
      else [] := by
  have distinct : ((ofModules project).project.ownerless.map id).Nodup := by
    simpa using nodup_ownerless _
  have emitted := (actsAt_byFile project).reports_foldl distinct (sameButOwners_ofModules project)
    (fun ownership => Report.errors ownership.reports) (errorsByFile project)
    fun ownership place same => errors_byFile same place
  refine Eq.trans emitted (congrArg _ ?_)
  rw [ownerless_ofModules, List.flatMap_map, flatMap_filter_eq]
  refine List.flatMap_congr fun (place, element) member => ?_
  rw [id, at?_ofModules project (Project.mem_placed.mp member)]

/-- What is reported on an element comes from late claims or from its file. -/
theorem complaints_eq {project : Project} {place : Place} {element : Element}
    (stands : project.element? place = some element) :
    (lateClaims element (project.claimants project.bound .module place) ++
      if element.kind == .action && (project.claimedOwner place element).isNone then
        errorsByFile project place (some (project.claimed place element),
          contested (project.claimants project.bound .module place))
      else []) = if element.kind = .action then project.complaints place element else [] := by
  by_cases isAction : element.kind = .action
  · cases claims : project.claimants project.bound .module place with
    | nil =>
      have stays : project.claimedOwner place element = element.owner := by
        rw [Project.claimedOwner, claims]
      have same : project.claimed place element = element := by rw [Project.claimed, stays]
      simp [isAction, stays, same, lateClaims, contested, errorsByFile, Project.complaints, claims]
    | cons first others =>
      have late : project.complaints place element = lateClaims element (first :: others) := by
        rw [Project.complaints, claims]
        rfl
      have nothing : project.claimedOwner place element = none → contested (first :: others) := by
        rw [Project.claimedOwner, claims]
        cases contest : contested (first :: others) <;> simp [contest]
      rw [if_pos isAction, late]
      split
      next waits =>
        simp only [Bool.and_eq_true, Option.isNone_iff_eq_none] at waits
        rw [nothing waits.2]
        exact List.append_nil _
      next => rw [List.append_nil]
  · rw [if_neg isAction, claimants_of_kind stands isAction]
    simp [lateClaims, isAction]

/-- The errors of all passes, but for their order. -/
theorem errors_settle (project : Project) : (Report.errors (settle project).reports).Perm
    (project.unknownHandlers project.bound ++ project.placed.flatMap fun (place, element) =>
      if element.kind = .action then project.complaints place element else []) := by
  rw [settle_eq, reports_byApplication, errors_ofFiles]
  refine ((errors_ofModules project).append_right _).trans ?_
  rw [List.append_assoc]
  refine ((List.flatMap_append_perm _ _ _).trans ?_).append_left _
  refine List.Perm.of_eq (List.flatMap_congr fun (place, element) member => ?_)
  exact complaints_eq (Project.mem_placed.mp member)

theorem element_of_complaints {project : Project} {place : Place} {action : Element} {report : Report}
    (member : report ∈ project.complaints place action) : report.element = some action.name.text := by
  rw [Project.complaints] at member
  split at member
  next =>
    obtain ⟨other, -, rfl⟩ := List.mem_map.mp member
    rw [lateClaim]
    split <;> rw [Finding.element_reportOn]
  next =>
    split at member
    next =>
      rw [Project.ambiguities] at member
      split at member
      next =>
        obtain rfl := List.mem_singleton.mp member
        rw [Finding.element_reportOn]
      next => cases member
    next => cases member

/-- The table leaves an action that is bound without an owner only where it complains. -/
theorem complaints_ne_nil {project : Project} {place : Place} {action : Element}
    (unowned : project.decidedOwner place action = none)
    (isBound : project.claimants project.bound .module place ≠ [] ∨
      project.claimants project.bound .application place ≠ []) : project.complaints place action ≠ [] := by
  rw [Project.decidedOwner] at unowned
  rw [Project.complaints]
  cases claims : project.claimants project.bound .module place with
  | cons first others =>
    cases others with
    | nil => simp [claims, contested] at unowned
    | cons => simp
  | nil =>
    rw [claims] at unowned
    obtain ⟨first, more, applications⟩ := List.exists_cons_of_ne_nil (isBound.resolve_left (by simp [claims]))
    cases owned : action.owner with
    | some => simp [owned] at unowned
    | none =>
      rw [owned, applications] at unowned
      cases homes : project.homes place action with
      | nil => simp [homes] at unowned
      | cons home others =>
        cases others with
        | nil => simp [homes] at unowned
        | cons => simp [Project.ambiguities, homes]

/-- No action is passed over: one that is bound has an owner in the end, or an error is about it. -/
theorem owned_or_reported {project : Project} {place : Place} {action : Element}
    (stands : project.element? place = some action) (isAction : action.kind = .action)
    (isBound : project.claimants project.bound .module place ≠ [] ∨
      project.claimants project.bound .application place ≠ []) :
    (∃ owner, (settle project).project.element? place = some { action with owner := some owner }) ∨
      ∃ report ∈ Report.errors (settle project).reports, report.element = some action.name.text := by
  have decided := element?_settle project place
  rw [stands, Option.map_some, Project.decided, if_pos isAction] at decided
  cases decision : project.decidedOwner place action with
  | some owner =>
    rw [decision] at decided
    exact .inl ⟨owner, decided⟩
  | none =>
    obtain ⟨report, member⟩ := List.exists_mem_of_ne_nil _ (complaints_ne_nil decision isBound)
    refine .inr ⟨report, (errors_settle project).mem_iff.mpr (List.mem_append_right _ ?_),
      element_of_complaints member⟩
    exact List.mem_flatMap.mpr ⟨(place, action), Project.mem_placed.mpr stands, by simpa [isAction] using member⟩

/-- Each action ends with the owner that the table decides and nothing else of the project
changes. The errors are those that the table has about each action, besides one for each binding
that leads nowhere. -/
theorem settle_decides (project : Project) :
    (∀ place, (settle project).project.element? place =
      (project.element? place).map fun element =>
        if element.kind = .action then { element with owner := project.decidedOwner place element }
        else element) ∧
    (Report.errors (settle project).reports).Perm
      (project.unknownHandlers project.bound ++ project.placed.flatMap fun (place, element) =>
        if element.kind = .action then project.complaints place element else []) :=
  ⟨element?_settle project, errors_settle project⟩

end Ownership

end Requirements
