import Requirements.Proofs.Check.Claims

/-! What each pass over the owners does to one action. It depends on what stands at the action's
place and on what nobody changes, so a whole pass acts on each action by itself. -/
namespace Requirements

section

variable {σ κ δ state report : Type} [DecidableEq κ]

/-- Each step changes what stands at its key, by what stands there, and leaves the others. -/
structure ActsAt (look : σ → κ → state) (key : δ → κ) (effect : δ → state → state)
    (invariant : σ → Prop) (step : σ → δ → σ) : Prop where
  keeps : ∀ s item, invariant s → invariant (step s item)
  effect : ∀ s item other, invariant s →
    look (step s item) other = if key item = other then effect item (look s other) else look s other

variable {look : σ → κ → state} {key : δ → κ} {effect : δ → state → state} {invariant : σ → Prop}
  {step : σ → δ → σ} {items : List δ}

theorem ActsAt.invariant_foldl (acts : ActsAt look key effect invariant step) (items : List δ) {s : σ}
    (holds : invariant s) : invariant (items.foldl step s) := by
  induction items generalizing s with
  | nil => exact holds
  | cons item rest ih => exact ih (acts.keeps s item holds)

/-- Steps at distinct keys act at each key once at most. -/
theorem ActsAt.look_foldl (acts : ActsAt look key effect invariant step)
    (distinct : (items.map key).Nodup) {s : σ} (holds : invariant s) (other : κ) :
    look (items.foldl step s) other =
      match items.find? (key · = other) with
      | some item => effect item (look s other)
      | none => look s other := by
  induction items generalizing s with
  | nil => rfl
  | cons item rest ih =>
    obtain ⟨fresh, distinctRest⟩ := List.nodup_cons.mp distinct
    rw [List.foldl_cons, ih distinctRest (acts.keeps s item holds), acts.effect s item other holds]
    by_cases here : key item = other
    · have notBehind : rest.find? (key · = other) = none := by
        refine List.find?_eq_none.mpr fun behind member same => fresh ?_
        exact List.mem_map.mpr ⟨behind, member, by simpa [here] using same⟩
      simp [here, notBehind]
    · simp [here]

/-- So what the steps report can be told from the start. -/
theorem ActsAt.reports_foldl (acts : ActsAt look key effect invariant step)
    (distinct : (items.map key).Nodup) {s : σ} (holds : invariant s) (reports : σ → List report)
    (emits : δ → state → List report)
    (each : ∀ s item, invariant s → reports (step s item) = reports s ++ emits item (look s (key item))) :
    reports (items.foldl step s) = reports s ++ items.flatMap fun item => emits item (look s (key item)) := by
  induction items generalizing s with
  | nil => simp
  | cons item rest ih =>
    obtain ⟨fresh, distinctRest⟩ := List.nodup_cons.mp distinct
    have same : rest.flatMap (fun later => emits later (look (step s item) (key later))) =
        rest.flatMap fun later => emits later (look s (key later)) := by
      refine List.flatMap_congr fun later member => ?_
      have differ : key item ≠ key later := fun same => fresh (same ▸ List.mem_map_of_mem member)
      rw [acts.effect s item _ holds, if_neg differ]
    rw [List.foldl_cons, ih distinctRest (acts.keeps s item holds), each s item holds, same,
      List.flatMap_cons, List.append_assoc]

end

theorem lookup_eq_find? {κ β : Type} [DecidableEq κ] (items : List (κ × β)) (key : κ) :
    items.lookup key = (items.find? (·.1 = key)).map (·.2) := by
  induction items with
  | nil => rfl
  | cons item rest ih =>
    obtain ⟨first, value⟩ := item
    by_cases same : first = key
    · simp [same]
    · have differs : (key == first) = false := by simpa using Ne.symm same
      simp [List.lookup_cons, differs, same, ih]

namespace Project

/-- The modules that stand in the action's own document and have its file. -/
def beside (project : Project) (place : Place) (action : Element) : List Element :=
  let elements := match place with
    | .authored _ => project.authored.elements
    | .dependency _ => project.dependencies.elements
  elements.filter fun element => element.kind = .module ∧ element.file = action.file

def homes (project : Project) (place : Place) (action : Element) : List QualifiedName :=
  if action.file = "" then [] else (project.beside place action).map Element.name

theorem beside_eq (project : Project) (place : Place) (action : Element) :
    project.beside place action =
      ((project.documentAt place).ofKind .module).filter (·.file == action.file) := by
  have bothTests : ∀ elements : List Element,
      elements.filter (fun element => element.kind = .module ∧ element.file = action.file) =
        (elements.filter (·.kind == .module)).filter (·.file == action.file) := by
    intro elements
    rw [List.filter_filter]
    refine List.filter_congr fun element _ => ?_
    rw [Bool.decide_and, Bool.and_comm]
    rfl
  cases place with
  | authored => exact bothTests _
  | dependency => exact bothTests _

theorem neighbours_eq (project : Project) (place : Place) (action : Element) :
    Ownership.neighbours project place action = (project.beside place action).map Element.name := by
  rw [beside_eq]
  rfl

def ambiguities (project : Project) (place : Place) (action : Element) : List Report :=
  match project.homes place action with
  | home :: other :: more =>
    [(Finding.ownerAmbiguous action.name (home :: other :: more)).reportOn action.name action.file]
  | _ => []

end Project

def Element.disowned (element : Element) : Element := { element with owner := none }

namespace Project

structure SameButOwners (project other : Project) : Prop where
  authored : other.authored.elements.map Element.disowned = project.authored.elements.map Element.disowned
  dependencies :
    other.dependencies.elements.map Element.disowned = project.dependencies.elements.map Element.disowned

variable {project other : Project} {place : Place}

theorem SameButOwners.setOwner (same : SameButOwners project other) (owner : QualifiedName) (place : Place) :
    SameButOwners project (other.setOwner owner place) := by
  have keeps : ∀ (elements : List Element) (index : Nat),
      (elements.modify index ({ · with owner := some owner })).map Element.disowned =
        elements.map Element.disowned := Resolving.map_modify_of_same fun _ => rfl
  cases place with
  | authored index => exact ⟨(keeps _ index).trans same.authored, same.dependencies⟩
  | dependency index => exact ⟨same.authored, (keeps _ index).trans same.dependencies⟩

theorem SameButOwners.documentAt (same : SameButOwners project other) (place : Place) :
    (other.documentAt place).elements.map Element.disowned =
      (project.documentAt place).elements.map Element.disowned := by
  cases place with
  | authored => exact same.authored
  | dependency => exact same.dependencies

theorem SameButOwners.neighbours (same : SameButOwners project other) (place : Place) (action : Element) :
    Ownership.neighbours other place action = Ownership.neighbours project place action := by
  have ofDisowned : ∀ elements : List Element,
      ((elements.filter (·.kind == .module)).filter (·.file == action.file)).map Element.name =
        (((elements.map Element.disowned).filter (·.kind == .module)).filter
          (·.file == action.file)).map Element.name := by
    intro elements
    simp only [List.filter_map, List.map_map, Function.comp_def, Element.disowned]
  calc Ownership.neighbours other place action
      _ = _ := ofDisowned (other.documentAt place).elements
      _ = _ := by rw [same.documentAt]
      _ = Ownership.neighbours project place action := (ofDisowned _).symm

end Project

namespace Ownership

variable {project : Project}

def at? (ownership : Ownership) (place : Place) : Option Element × Bool :=
  (ownership.project.element? place, ownership.conflicted.contains place)

def decideByFile (project : Project) (place : Place) : Option Element × Bool → Option Element × Bool
  | (some action, false) =>
    match project.homes place action with
    | [] => (some action, false)
    | [home] => (some { action with owner := some home }, false)
    | _ => (some action, true)
  | decided => decided

def decideByApplication (bound : Place × QualifiedName) : Option Element × Bool → Option Element × Bool
  | (some action, false) =>
    (some (if action.owner.isNone then { action with owner := some bound.2 } else action), false)
  | decided => decided

def errorsByFile (project : Project) (place : Place) : Option Element × Bool → List Report
  | (some action, false) => project.ambiguities place action
  | _ => []

theorem element?_setOwner (project : Project) (owner : QualifiedName) (place other : Place) :
    (project.setOwner owner place).element? other =
      if place = other then (project.element? other).map ({ · with owner := some owner })
      else project.element? other :=
  Project.element?_modify project _ place other

theorem actsAt_claims (claims : Claims) (project : Project) :
    ActsAt Project.element? Prod.fst
      (fun (place, owner) element => if claims.conflicted.contains place then element
        else element.map ({ · with owner := some owner }))
      (Project.SameButOwners project)
      (fun project (place, owner) =>
        if claims.conflicted.contains place then project else project.setOwner owner place) := by
  constructor
  · rintro other ⟨place, owner⟩ same
    dsimp only
    split
    · exact same
    · exact same.setOwner owner place
  · rintro current ⟨place, owner⟩ other -
    dsimp only
    split
    next => split <;> rfl
    next => rw [element?_setOwner]

/-- What the file of an action may bring about. -/
theorem byFile_cases {ownership : Ownership} (same : project.SameButOwners ownership.project)
    (place : Place) :
    (∃ warnings, Report.errors warnings = [] ∧
      decideByFile project place (ownership.at? place) = ownership.at? place ∧
      errorsByFile project place (ownership.at? place) = [] ∧
      byFile ownership place = { ownership with reports := ownership.reports ++ warnings }) ∨
    ∃ action, ownership.at? place = (some action, false) ∧
      ((∃ home, project.homes place action = [home] ∧
        byFile ownership place = { ownership with project := ownership.project.setOwner home place }) ∨
      (2 ≤ (project.homes place action).length ∧ byFile ownership place =
        { ownership with
          reports := ownership.reports ++ project.ambiguities place action
          conflicted := ownership.conflicted ++ [place] })) := by
  have unchanged : ownership = { ownership with reports := ownership.reports ++ [] } := by simp
  cases conflicted : ownership.conflicted.contains place with
  | true =>
    refine .inl ⟨[], rfl, ?_, ?_, ?_⟩
    · rw [at?, conflicted]
      cases ownership.project.element? place <;> rfl
    · rw [at?, conflicted]
      cases ownership.project.element? place <;> rfl
    · rw [byFile, if_pos conflicted]
      exact unchanged
  | false =>
    cases stands : ownership.project.element? place with
    | none =>
      refine .inl ⟨[], rfl, by simp [at?, stands, decideByFile], by simp [at?, stands, errorsByFile], ?_⟩
      rw [byFile, if_neg (by simpa using conflicted), stands]
      exact unchanged
    | some action =>
      have here : ownership.at? place = (some action, false) := by rw [at?, stands, conflicted]
      rw [byFile, if_neg (by simpa using conflicted), stands]
      by_cases fileless : action.file.isEmpty
      · have homeless : project.homes place action = [] :=
          if_pos (String.isEmpty_iff.mp fileless)
        refine .inl ⟨[], rfl, by simp [here, decideByFile, homeless],
          by simp [here, errorsByFile, Project.ambiguities, homeless], ?_⟩
        dsimp only
        rw [if_pos fileless]
        exact unchanged
      · have homes : project.homes place action = neighbours ownership.project place action := by
          rw [same.neighbours, Project.neighbours_eq]
          exact if_neg fun empty => fileless (String.isEmpty_iff.mpr empty)
        dsimp only
        rw [if_neg fileless, ← homes]
        cases isHomes : project.homes place action with
        | nil =>
          refine .inl ⟨_, ?_, by simp [here, decideByFile, isHomes],
            by simp [here, errorsByFile, Project.ambiguities, isHomes], rfl⟩
          simp [Report.errors, Finding.severity]
        | cons home more =>
          cases more with
          | nil => exact .inr ⟨action, here, .inl ⟨home, isHomes, rfl⟩⟩
          | cons second more =>
            refine .inr ⟨action, here, .inr ⟨by simp [isHomes], ?_⟩⟩
            simp [Project.ambiguities, isHomes]

theorem actsAt_byFile (project : Project) :
    ActsAt at? id (decideByFile project) (fun ownership => project.SameButOwners ownership.project)
      byFile := by
  constructor
  · intro ownership place same
    obtain ⟨_, -, -, -, stays⟩ | ⟨_, -, ⟨home, -, given⟩ | ⟨-, contended⟩⟩ := byFile_cases same place
    · rwa [stays]
    · rw [given]
      exact same.setOwner home place
    · rwa [contended]
  · intro ownership place other same
    obtain ⟨_, -, decided, -, stays⟩ |
      ⟨action, here, ⟨home, isHome, given⟩ | ⟨several, contended⟩⟩ := byFile_cases same place
    · rw [stays]
      split
      next isHere =>
        obtain rfl : place = other := isHere
        exact decided.symm
      next => rfl
    · rw [given]
      split
      next isHere =>
        obtain rfl : place = other := isHere
        obtain ⟨stands, free⟩ := Prod.mk.inj here
        rw [here, decideByFile, isHome]
        simpa [at?, element?_setOwner, stands] using free
      next differ =>
        have apart : place ≠ other := differ
        simp [at?, element?_setOwner, apart]
    · rw [contended]
      split
      next isHere =>
        obtain rfl : place = other := isHere
        obtain ⟨stands, free⟩ := Prod.mk.inj here
        rw [here, decideByFile]
        split
        next none => simp [none] at several
        next one => simp [one] at several
        next => simp [at?, stands]
      next differ =>
        have apart : other ≠ place := Ne.symm differ
        simp [at?, apart]

theorem errors_byFile {ownership : Ownership} (same : project.SameButOwners ownership.project)
    (place : Place) : Report.errors (byFile ownership place).reports =
      Report.errors ownership.reports ++ errorsByFile project place (ownership.at? place) := by
  obtain ⟨warnings, noErrors, -, unambiguous, stays⟩ |
    ⟨action, here, ⟨home, isHome, given⟩ | ⟨-, contended⟩⟩ := byFile_cases same place
  · rw [stays, unambiguous, ← noErrors]
    exact List.filter_append _ _
  · rw [given, here, errorsByFile]
    simp [Project.ambiguities, isHome]
  · rw [contended, here, errorsByFile]
    simp only [Report.errors, List.filter_append]
    congr 1
    refine List.filter_eq_self.mpr fun report member => ?_
    rw [Project.ambiguities] at member
    split at member
    next =>
      obtain rfl := List.mem_singleton.mp member
      simp [Finding.severity]
    next => cases member

/-- An application gets an action that is free, or nothing happens. -/
theorem byApplication_cases (ownership : Ownership) (place : Place) (application : QualifiedName) :
    (decideByApplication (place, application) (ownership.at? place) = ownership.at? place ∧
      byApplication ownership (place, application) = ownership) ∨
    ∃ action, ownership.at? place = (some action, false) ∧ action.owner = none ∧
      byApplication ownership (place, application) =
        { ownership with project := ownership.project.setOwner application place } := by
  cases conflicted : ownership.conflicted.contains place with
  | true =>
    refine .inl ⟨?_, by simp [byApplication, List.contains_iff_mem.mp conflicted]⟩
    rw [at?, conflicted]
    cases ownership.project.element? place <;> rfl
  | false =>
    cases stands : ownership.project.element? place with
    | none =>
      refine .inl ⟨?_, by simp [byApplication, stands]⟩
      rw [at?, stands]
      rfl
    | some action =>
      have here : ownership.at? place = (some action, false) := by rw [at?, stands, conflicted]
      have free : place ∉ ownership.conflicted := by simpa using conflicted
      cases owned : action.owner with
      | none => exact .inr ⟨action, here, owned, by simp [byApplication, stands, free, owned]⟩
      | some owner =>
        refine .inl ⟨?_, by simp [byApplication, stands, owned]⟩
        rw [here, decideByApplication]
        simp [owned]

theorem actsAt_byApplication :
    ActsAt at? Prod.fst decideByApplication (fun _ => True) byApplication := by
  refine ⟨fun _ _ _ => trivial, ?_⟩
  rintro ownership ⟨place, application⟩ other -
  rcases byApplication_cases ownership place application with ⟨decided, stays⟩ | ⟨action, here, unowned, given⟩
  · rw [stays]
    split
    next isHere =>
      obtain rfl : place = other := isHere
      exact decided.symm
    next => rfl
  · rw [given]
    split
    next isHere =>
      obtain rfl : place = other := isHere
      obtain ⟨stands, free⟩ := Prod.mk.inj here
      rw [here, decideByApplication]
      simpa [at?, element?_setOwner, stands, unowned] using free
    next differ =>
      have apart : place ≠ other := differ
      simp [at?, element?_setOwner, apart]

theorem reports_byApplication (bound : List (Place × QualifiedName)) (ownership : Ownership) :
    (bound.foldl byApplication ownership).reports = ownership.reports := by
  induction bound generalizing ownership with
  | nil => rfl
  | cons first rest ih =>
    rw [List.foldl_cons, ih]
    rcases byApplication_cases ownership first.1 first.2 with ⟨-, stays⟩ | ⟨_, -, -, given⟩
    · rw [stays]
    · rw [given]

end Ownership

end Requirements
