import Requirements.Proofs.Resolution.Lookup

/-! Searches that find nothing. The first search loads every repository, and later ones
change nothing of what is loaded. Documents that were read are not read again. So a search
that was in vain stays in vain. -/
namespace Requirements

structure Workspace.IsLoaded (workspace : Workspace) : Prop where
  connected : workspace.catalogue.isConnected
  folders : ∀ repository ∈ workspace.catalogue.repositories, repository.folders.isSome

namespace Repository

variable {settings : Settings}

theorem folders_of_load {repository loaded : Repository} {disk after : Disk}
    (ran : repository.load settings disk = .ok loaded after) : loaded.folders.isSome := by
  rw [load] at ran
  cases present : repository.folders with
  | some =>
    rw [present] at ran
    obtain ⟨rfl, -⟩ := pure_ok.mp ran
    simp [present]
  | none =>
    rw [present] at ran
    obtain ⟨_, _, -, ran⟩ := bind_ok.mp ran
    obtain ⟨_, _, -, ran⟩ := bind_ok.mp ran
    obtain ⟨rfl, -⟩ := pure_ok.mp ran
    rfl

theorem folders_of_loadEach {repositories loaded : List Repository} {disk after : Disk}
    (ran : loadEach settings repositories disk = (loaded, after, none)) :
    ∀ repository ∈ loaded, repository.folders.isSome := by
  induction repositories generalizing loaded disk with
  | nil =>
    obtain ⟨rfl, -⟩ := Prod.mk.inj ran
    simp
  | cons first rest ih =>
    rw [loadEach] at ran
    split at ran
    next => cases ran
    next head middle isHead =>
      cases others : loadEach settings rest middle with
      | mk tail state =>
        obtain ⟨finalDisk, failure⟩ := state
        rw [others] at ran
        obtain ⟨rfl, -, rfl⟩ := ran
        intro repository member
        rcases List.mem_cons.mp member with rfl | behind
        · exact folders_of_load isHead
        · exact ih others repository behind

theorem load_of_folders {repository : Repository} (loaded : repository.folders.isSome) (disk : Disk) :
    repository.load settings disk = .ok repository disk := by
  obtain ⟨folders, present⟩ := Option.isSome_iff_exists.mp loaded
  rw [load, present]
  rfl

theorem loadEach_of_folders {repositories : List Repository}
    (loaded : ∀ repository ∈ repositories, repository.folders.isSome) (disk : Disk) :
    loadEach settings repositories disk = (repositories, disk, none) := by
  induction repositories with
  | nil => rfl
  | cons first rest ih =>
    rw [loadEach, load_of_folders (loaded first (by simp))]
    simp [ih fun other member => loaded other (by simp [member])]

end Repository

namespace Workspace

variable {settings : Settings}

def after (workspace : Workspace) (repositories : List Repository) (disk : Disk) : Workspace :=
  ⟨{ workspace.catalogue with repositories }, disk⟩

/-- A search loads the repositories and answers from them. -/
theorem find_eq_ok {kind : ReferenceKind} {id : String} {domain : Option String} {start final : Workspace}
    {hits : List Hit} : find settings kind id domain start = .ok hits final ↔
      start.catalogue.isConnected ∧ ∃ repositories disk,
        Repository.loadEach settings start.catalogue.repositories start.disk = (repositories, disk, none) ∧
        final = start.after repositories disk ∧ hits = final.catalogue.hits kind (soughtName id domain) := by
  constructor
  · intro ran
    rw [find] at ran
    obtain ⟨_, _, got, ran⟩ := bind_ok.mp ran
    obtain ⟨rfl, rfl⟩ := get_ok.mp got
    split at ran
    next connected =>
      obtain ⟨_, loaded, loads, ran⟩ := bind_ok.mp ran
      obtain ⟨_, _, got, ran⟩ := bind_ok.mp ran
      obtain ⟨rfl, rfl⟩ := get_ok.mp got
      obtain ⟨rfl, rfl⟩ := pure_ok.mp ran
      rw [loadAll] at loads
      cases each : Repository.loadEach settings start.catalogue.repositories start.disk with
      | mk repositories state =>
        obtain ⟨disk, failure⟩ := state
        simp only [each] at loads
        cases failure with
        | some => cases loads
        | none =>
          obtain ⟨-, rfl⟩ := EStateM.Result.ok.inj loads
          exact ⟨connected, repositories, disk, rfl, rfl, rfl⟩
    next => exact absurd ran throw_ok
  · rintro ⟨connected, repositories, disk, loads, rfl, rfl⟩
    have ran : loadAll settings start = .ok () (start.after repositories disk) := by
      rw [loadAll, loads]
      rfl
    refine bind_ok.mpr ⟨start, start, rfl, ?_⟩
    rw [if_pos connected]
    exact bind_ok.mpr ⟨(), _, ran, rfl⟩

/-- A search that comes to its end has loaded everything, and answers from that. -/
theorem find_ok {kind : ReferenceKind} {id : String} {domain : Option String}
    {start final : Workspace} {hits : List Hit}
    (ran : find settings kind id domain start = .ok hits final) :
    final.IsLoaded ∧ hits = final.catalogue.hits kind (soughtName id domain) := by
  obtain ⟨connected, repositories, disk, loads, rfl, rfl⟩ := find_eq_ok.mp ran
  exact ⟨⟨connected, Repository.folders_of_loadEach loads⟩, rfl⟩

/-- A search among what is loaded leaves everything as it is. -/
theorem find_of_loaded {workspace : Workspace} (loaded : workspace.IsLoaded) (kind : ReferenceKind)
    (id : String) (domain : Option String) : find settings kind id domain workspace =
      .ok (workspace.catalogue.hits kind (soughtName id domain)) workspace :=
  find_eq_ok.mpr ⟨loaded.connected, _, _, Repository.loadEach_of_folders loaded.folders _, rfl, rfl⟩

end Workspace

namespace Resolution

/-- All repositories are loaded, and no hit for the reference is in a document with an element
of the kind that it designates. -/
structure Searched (state : Resolution) (kind : ElementKind) (reference : QualifiedName) : Prop where
  loaded : state.workspace.IsLoaded
  nothing : ∀ hit ∈ state.workspace.catalogue.hits (.element kind)
      (Workspace.soughtName reference.id reference.domain), hit.repository ≠ .project →
    ∃ path document, (state.parsed.find? fun (path, _) => path.same hit.path) = some (path, document) ∧
      ∀ element ∈ document.elements, ¬element.isDesignated [kind] reference

/-- A search in vain stays in vain while nothing is loaded anew and no document is forgotten. -/
theorem Searched.later {start final : Resolution} {kind : ElementKind} {reference : QualifiedName}
    (searched : start.Searched kind reference) (workspace : final.workspace = start.workspace)
    (parsed : start.parsed <+: final.parsed) : final.Searched kind reference := by
  refine ⟨workspace ▸ searched.loaded, fun hit member other => ?_⟩
  rw [workspace] at member
  obtain ⟨path, document, read, nothing⟩ := searched.nothing hit member other
  exact ⟨path, document, parsed.find?_eq_some read, nothing⟩

end Resolution

namespace Resolving

variable {settings : Settings} {start final : Resolution}

theorem documentOf_found {hit : Hit} {document : Document}
    (ran : documentOf hit start = .ok document final) : ∃ path,
      (final.parsed.find? fun (path, _) => path.same hit.path) = some (path, document) := by
  rw [documentOf] at ran
  split at ran
  next path read found =>
    obtain ⟨rfl, rfl⟩ := EStateM.Result.ok.inj ran
    exact ⟨path, found⟩
  next absent =>
    split at ran
    next =>
      obtain ⟨rfl, rfl⟩ := EStateM.Result.ok.inj ran
      refine ⟨hit.path, ?_⟩
      rw [List.find?_append, absent]
      simp [Path.same]
    next => cases ran

theorem workspace_documentOf {hit : Hit} {document : Document}
    (ran : documentOf hit start = .ok document final) : final.workspace = start.workspace := by
  rw [documentOf] at ran
  split at ran
  next =>
    obtain ⟨-, rfl⟩ := EStateM.Result.ok.inj ran
    rfl
  next =>
    split at ran
    next =>
      obtain ⟨-, rfl⟩ := EStateM.Result.ok.inj ran
      rfl
    next => cases ran

/-- Where no element is found, the documents of all hits were looked through. -/
theorem firstDeclared_none {kind : ElementKind} {reference : QualifiedName} {hits : List Hit}
    (ran : firstDeclared kind reference hits start = .ok none final) :
    final.workspace = start.workspace ∧ ∀ hit ∈ hits, hit.repository ≠ .project →
      ∃ path document, (final.parsed.find? fun (path, _) => path.same hit.path) = some (path, document) ∧
        ∀ element ∈ document.elements, ¬element.isDesignated [kind] reference := by
  induction hits generalizing start with
  | nil =>
    obtain ⟨-, rfl⟩ := pure_ok.mp ran
    exact ⟨rfl, by simp⟩
  | cons hit rest ih =>
    rw [firstDeclared] at ran
    split at ran
    next inside =>
      obtain ⟨same, nothing⟩ := ih ran
      refine ⟨same, fun other member outside => ?_⟩
      rcases List.mem_cons.mp member with rfl | behind
      · exact absurd inside outside
      · exact nothing other behind outside
    next =>
      obtain ⟨document, middle, opened, behind⟩ := bind_ok.mp ran
      cases found : document.elements.find? (·.isDesignated [kind] reference) with
      | some element =>
        simp only [found] at behind
        cases (pure_ok.mp behind).1
      | none =>
        simp only [found] at behind
        have parsed := (firstDeclared_ok behind).1.parsed
        obtain ⟨same, nothing⟩ := ih behind
        refine ⟨same.trans (workspace_documentOf opened), fun other member outside => ?_⟩
        rcases List.mem_cons.mp member with rfl | later
        · obtain ⟨path, read⟩ := documentOf_found opened
          exact ⟨path, document, parsed.find?_eq_some read, List.find?_eq_none.mp found⟩
        · exact nothing other later outside

/-- What was not found in the repositories was searched for in all of them. -/
theorem searched_of_none {kind : ElementKind} {reference : QualifiedName}
    (ran : findInRepositories settings reference [kind] start = .ok none final) :
    final.Searched kind reference := by
  rw [findInRepositories] at ran
  obtain ⟨hits, _, sought, ran⟩ := bind_ok.mp ran
  obtain ⟨workspace, found, rfl⟩ := search_ok.mp sought
  obtain ⟨loaded, rfl⟩ := Workspace.find_ok found
  obtain ⟨first, middle, looked, ran⟩ := bind_ok.mp ran
  cases first with
  | some => cases (pure_ok.mp ran).1
  | none =>
    obtain ⟨-, rfl⟩ := pure_ok.mp ran
    obtain ⟨same, nothing⟩ := firstDeclared_none looked
    exact ⟨same ▸ loaded, same ▸ nothing⟩

/-- A reference that leads nowhere was searched for. -/
theorem searched_of_resolve {kind : ElementKind} {reference : QualifiedName} {asker : Option Place}
    (ran : resolve settings [kind] reference asker start = .ok none final) :
    final.Searched kind reference := by
  rw [resolve] at ran
  obtain ⟨_, _, got, ran⟩ := bind_ok.mp ran
  obtain ⟨rfl, rfl⟩ := get_ok.mp got
  cases known : start.known? [kind] reference asker with
  | some found =>
    rw [known] at ran
    obtain ⟨_, _, -, ran⟩ := bind_ok.mp ran
    cases (pure_ok.mp ran).1
  | none =>
    rw [known] at ran
    obtain ⟨found, middle, searched, ran⟩ := bind_ok.mp ran
    cases found with
    | some =>
      obtain ⟨_, _, -, ran⟩ := bind_ok.mp ran
      cases (pure_ok.mp ran).1
    | none =>
      obtain ⟨-, rfl⟩ := pure_ok.mp ran
      exact searched_of_none searched

end Resolving
end Requirements
