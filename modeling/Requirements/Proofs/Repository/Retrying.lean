import Requirements.Proofs.Repository.Rewriting
import Requirements.Proofs.Repository.Standing
import Requirements.Proofs.Resolution.Changes

/-! Loading a repository again. A folder fails for its documents, which the index files written on
the way to it leave as they are. So a repository that could not be loaded cannot be loaded later. -/
namespace Requirements

variable {settings : Settings} {start middle final : Disk} {root : Path} {failure : Failure}

namespace Disk

theorem SameDocuments.refl (settings : Settings) (folder : Path) (disk : Disk) :
    SameDocuments settings folder disk disk :=
  ⟨rfl, rfl, fun _ _ => rfl⟩

theorem SameDocuments.trans {folder : Path} (first : SameDocuments settings folder start middle)
    (second : SameDocuments settings folder middle final) : SameDocuments settings folder start final where
  listed := second.listed.trans first.listed
  documents := second.documents.trans first.documents
  files path member := (second.files path (first.documents ▸ member)).trans (first.files path member)

theorem IndexApart.symm {first second : Path} (apart : IndexApart settings start first second) :
    IndexApart settings start second first :=
  fun place leads same => apart place same leads

/-- Index files of folders below the root were written, and nothing else happened. -/
structure Reindexed (settings : Settings) (root : Path) (start final : Disk) : Prop where
  sound : final.root.Sound
  locations : ∀ path, final.location? path = start.location? path
  documents : ∀ folder, SameDocuments settings folder start final
  folders : final.repositoryFolders settings root = start.repositoryFolders settings root

theorem Reindexed.refl (sound : start.root.Sound) : Reindexed settings root start start :=
  ⟨sound, fun _ => rfl, fun _ => .refl settings _ start, rfl⟩

theorem Reindexed.trans (first : Reindexed settings root start middle) (second : Reindexed settings root middle final) :
    Reindexed settings root start final where
  sound := second.sound
  locations path := (second.locations path).trans (first.locations path)
  documents folder := (first.documents folder).trans (second.documents folder)
  folders := second.folders.trans first.folders

theorem Reindexed.indexApart (reindexed : Reindexed settings root start final) {first second : Path}
    (apart : IndexApart settings start first second) : IndexApart settings final first second := by
  intro place leads
  rw [reindexed.locations] at leads ⊢
  exact apart place leads

end Disk

namespace FolderIndex

open Disk (IndexApart Reindexed SameDocuments)

variable {folder : Path}

theorem load_error : load settings folder start = .error failure final ↔
    cached? start settings folder (settings.indexPath folder) = none ∧
      build start settings folder = .error failure ∧ final = start := by
  rw [Settings.indexPath]
  unfold load
  dsimp only
  split
  next isCached => simp [isCached]
  next stale =>
    split
    next isBuilt => simp [isBuilt]
    next unbuilt => simp [stale, unbuilt, eq_comm]

def Loads (settings : Settings) (disk : Disk) (folder : Path) : Prop :=
  cached? disk settings folder (settings.indexPath folder) = none → ∃ index, build disk settings folder = .ok index

theorem Loads.load {folder : Path} (loads : Loads settings start folder) :
    ∃ index final, load settings folder start = .ok index final := by
  cases isCached : cached? start settings folder (settings.indexPath folder) with
  | some index => exact ⟨index, start, load_ok.mpr (.inl ⟨isCached, rfl⟩)⟩
  | none =>
    obtain ⟨index, isBuilt⟩ := loads isCached
    exact ⟨index, _, load_ok.mpr (.inr ⟨isCached, isBuilt, rfl⟩)⟩

/-- Loading the index of one folder touches the index file of no other. -/
theorem reindexed_of_load (below : settings.IndexBelow) (sound : start.root.Sound) (written : root.parts ≠ [])
    (found : folder ∈ start.repositoryFolders settings root) {index : FolderIndex}
    (ran : FolderIndex.load settings folder start = .ok index final) :
    Reindexed settings root start final ∧ Loads settings final folder ∧
      ∀ other, IndexApart settings start folder other →
        final.file? (settings.indexPath other) = start.file? (settings.indexPath other) := by
  rcases load_ok.mp ran with ⟨isCached, rfl⟩ | ⟨stale, isBuilt, rfl⟩
  · refine ⟨.refl sound, fun stale => ?_, fun _ _ => rfl⟩
    cases isCached.symm.trans stale
  · cases isWritten : start.write? (settings.indexPath folder) index.text with
    | none => exact ⟨.refl sound, fun _ => ⟨index, isBuilt⟩, fun _ _ => rfl⟩
    | some final =>
      obtain ⟨names, name, indexed⟩ := Disk.indexWritten_of_write? below isWritten
      refine ⟨⟨indexed.stored.sound sound, indexed.stored.changed.location?, indexed.documents,
        indexed.repositoryFolders below sound written found⟩, fun _ => ⟨index, ?_⟩, fun _ => indexed.file?_indexPath⟩
      exact (build_congr (indexed.documents folder)).trans isBuilt

end FolderIndex

namespace Repository

open Disk (IndexApart Reindexed SameDocuments)
open FolderIndex (cached? build Loads)

/-- Loading the folders comes as far as one without a current index file that cannot be indexed. -/
inductive Blocked (settings : Settings) (failure : Failure) (disk : Disk) : List Path → Prop
  | here {folder : Path} {rest : List Path} (stale : cached? disk settings folder (settings.indexPath folder) = none)
      (unbuilt : build disk settings folder = .error failure) : Blocked settings failure disk (folder :: rest)
  | behind {folder : Path} {rest : List Path} (loads : Loads settings disk folder)
      (blocked : Blocked settings failure disk rest) : Blocked settings failure disk (folder :: rest)

theorem Blocked.elsewhere {folders : List Path} (blocked : Blocked settings failure start folders)
    (documents : ∀ folder, SameDocuments settings folder start final)
    (files : ∀ folder ∈ folders, final.file? (settings.indexPath folder) = start.file? (settings.indexPath folder)) :
    Blocked settings failure final folders := by
  induction blocked with
  | @here folder rest stale unbuilt =>
    have sameFile := files folder (by simp)
    exact .here ((FolderIndex.cached?_congr (documents folder) sameFile).trans stale)
      ((FolderIndex.build_congr (documents folder)).trans unbuilt)
  | @behind folder rest loads _ ih =>
    have sameFile := files folder (by simp)
    refine .behind (fun stale => ?_) (ih fun other member => files other (by simp [member]))
    rw [FolderIndex.build_congr (documents folder)]
    exact loads ((FolderIndex.cached?_congr (documents folder) sameFile).symm.trans stale)

/-- Where loading the folders fails, it is blocked on the disk that is left. -/
theorem blocked_of_loadFolders (below : settings.IndexBelow) (sound : start.root.Sound) (written : root.parts ≠ [])
    {folders : List Path} (found : ∀ folder ∈ folders, folder ∈ start.repositoryFolders settings root)
    (apart : folders.Pairwise (IndexApart settings start))
    (ran : loadFolders settings folders start = .error failure final) :
    Reindexed settings root start final ∧ Blocked settings failure final folders ∧
      ∀ other, (∀ folder ∈ folders, IndexApart settings start folder other) →
        final.file? (settings.indexPath other) = start.file? (settings.indexPath other) := by
  induction folders generalizing start with
  | nil => cases ran
  | cons folder rest ih =>
    obtain ⟨apartHere, apartBehind⟩ := List.pairwise_cons.mp apart
    rw [loadFolders] at ran
    rcases bind_error.mp ran with fails | ⟨index, middle, loaded, ran⟩
    · obtain ⟨stale, unbuilt, rfl⟩ := FolderIndex.load_error.mp fails
      exact ⟨.refl sound, .here stale unbuilt, fun _ _ => rfl⟩
    · rcases bind_error.mp ran with behind | ⟨_, _, -, ends⟩
      · obtain ⟨first, loads, others⟩ :=
          FolderIndex.reindexed_of_load below sound written (found folder (by simp)) loaded
        have foundThen : ∀ other ∈ rest, other ∈ middle.repositoryFolders settings root :=
          fun other member => first.folders ▸ found other (by simp [member])
        obtain ⟨second, blocked, untouched⟩ :=
          ih first.sound foundThen (apartBehind.imp first.indexApart) behind
        refine ⟨first.trans second, .behind (fun stale => ?_) blocked, fun other apartOther => ?_⟩
        · have sameFile := untouched folder fun other member => first.indexApart (apartHere other member).symm
          rw [FolderIndex.build_congr (second.documents folder)]
          exact loads ((FolderIndex.cached?_congr (second.documents folder) sameFile).symm.trans stale)
        · have apartThen : ∀ earlier ∈ rest, IndexApart settings middle earlier other :=
            fun earlier member => first.indexApart (apartOther earlier (by simp [member]))
          exact (untouched other apartThen).trans (others other (apartOther folder (by simp)))
      · cases ends

theorem loadFolders_of_blocked (below : settings.IndexBelow) (sound : start.root.Sound) (written : root.parts ≠ [])
    {folders : List Path} (found : ∀ folder ∈ folders, folder ∈ start.repositoryFolders settings root)
    (apart : folders.Pairwise (IndexApart settings start)) (blocked : Blocked settings failure start folders) :
    ∃ final, loadFolders settings folders start = .error failure final := by
  induction folders generalizing start with
  | nil => cases blocked
  | cons folder rest ih =>
    cases blocked with
    | here stale unbuilt =>
      exact ⟨start, bind_error.mpr (.inl (FolderIndex.load_error.mpr ⟨stale, unbuilt, rfl⟩))⟩
    | behind loads blocked =>
      obtain ⟨apartHere, apartBehind⟩ := List.pairwise_cons.mp apart
      obtain ⟨index, middle, loaded⟩ := loads.load
      obtain ⟨first, -, others⟩ :=
        FolderIndex.reindexed_of_load below sound written (found folder (by simp)) loaded
      have foundThen : ∀ other ∈ rest, other ∈ middle.repositoryFolders settings root :=
        fun other member => first.folders ▸ found other (by simp [member])
      have blockedThen : Blocked settings failure middle rest :=
        blocked.elsewhere first.documents fun other member => others other (apartHere other member)
      obtain ⟨final, behind⟩ := ih first.sound foundThen (apartBehind.imp first.indexApart) blockedThen
      exact ⟨final, bind_error.mpr (.inr ⟨index, middle, loaded, bind_error.mpr (.inl behind)⟩)⟩

theorem load_error {repository : Repository} : repository.load settings start = .error failure final ↔
    repository.folders = none ∧
      loadFolders settings (start.repositoryFolders settings repository.root) start = .error failure final := by
  rw [load]
  cases repository.folders with
  | some => exact ⟨fun ran => (by cases ran), fun fails => (by cases fails.1)⟩
  | none =>
    refine ⟨fun ran => ⟨rfl, ?_⟩, fun fails => bind_error.mpr (.inr ⟨start, start, rfl, bind_error.mpr (.inl fails.2)⟩)⟩
    rcases bind_error.mp ran with ends | ⟨_, _, got, ran⟩
    · cases ends
    · obtain ⟨rfl, rfl⟩ := get_ok.mp got
      rcases bind_error.mp ran with fails | ⟨_, _, -, ends⟩
      · exact fails
      · cases ends

/-- A repository that cannot be loaded cannot be loaded again. -/
theorem load_fails_again (below : settings.IndexBelow) (sound : start.root.Sound) {repository : Repository}
    (written : repository.root.parts ≠ []) (ran : repository.load settings start = .error failure final) :
    final.root.Sound ∧ ∃ later, repository.load settings final = .error failure later := by
  obtain ⟨unloaded, ran⟩ := load_error.mp ran
  have apart := Disk.pairwise_indexApart below sound written
  obtain ⟨reindexed, blocked, -⟩ := blocked_of_loadFolders below sound written (fun _ found => found) apart ran
  have apartThen := Disk.pairwise_indexApart below reindexed.sound written
  rw [← reindexed.folders] at blocked
  obtain ⟨later, again⟩ :=
    loadFolders_of_blocked below reindexed.sound written (fun _ found => found) apartThen blocked
  exact ⟨reindexed.sound, later, load_error.mpr ⟨unloaded, again⟩⟩

def offered (settings : Settings) (repositories : List Repository) (disk : Disk) :
    Except Failure (List Repository × Disk) :=
  match loadEach settings repositories disk with
  | (loaded, disk, none) => .ok (loaded, disk)
  | (_, _, some failure) => .error failure

theorem offered_of_error {repository : Repository} {rest : List Repository}
    (ran : repository.load settings start = .error failure final) :
    offered settings (repository :: rest) start = .error failure := by
  rw [offered, loadEach, ran]

theorem offered_of_ok {repository loaded : Repository} {rest : List Repository}
    (ran : repository.load settings start = .ok loaded middle) : offered settings (repository :: rest) start =
      (offered settings rest middle).map fun (others, final) => (loaded :: others, final) := by
  rw [offered, loadEach, ran, offered]
  dsimp only
  obtain ⟨others, final, failed⟩ := loadEach settings rest middle
  cases failed <;> rfl

/-- Loading the repositories again, with those that are loaded by now, comes to the same. -/
theorem offered_again (below : settings.IndexBelow) {repositories : List Repository} (sound : start.root.Sound)
    (written : ∀ repository ∈ repositories, repository.root.parts ≠ []) {loaded : List Repository}
    {failed : Option Failure} (ran : loadEach settings repositories start = (loaded, final, failed)) :
    final.root.Sound ∧ (∀ repository ∈ loaded, repository.root.parts ≠ []) ∧
      offered settings loaded final = offered settings repositories start := by
  induction repositories generalizing start loaded with
  | nil =>
    cases ran
    exact ⟨sound, by simp, rfl⟩
  | cons repository rest ih =>
    have writtenHere := written repository (by simp)
    have writtenBehind : ∀ other ∈ rest, other.root.parts ≠ [] := fun other member => written other (by simp [member])
    rw [loadEach] at ran
    split at ran
    next failure disk fails =>
      cases ran
      obtain ⟨soundThen, later, again⟩ := load_fails_again below sound writtenHere fails
      exact ⟨soundThen, written, (offered_of_error again).trans (offered_of_error fails).symm⟩
    next first middle loads =>
      cases others : loadEach settings rest middle with
      | mk tail state =>
        rw [others] at ran
        cases ran
        obtain ⟨keeps, sameRoot⟩ := keeps_of_load sound writtenHere loads
        obtain ⟨soundThen, writtenThen, again⟩ := ih keeps.sound writtenBehind others
        have stays : first.load settings state.1 = .ok first state.1 := load_of_folders (folders_of_load loads) state.1
        refine ⟨soundThen, ?_, ?_⟩
        · exact List.forall_mem_cons.mpr ⟨sameRoot ▸ writtenHere, writtenThen⟩
        · rw [offered_of_ok stays, offered_of_ok loads, again]

end Repository

/-- Besides a project's own hits there are those in the repositories. -/
theorem Catalogue.filter_hits_congr {first second : Catalogue} (same : first.repositories = second.repositories)
    {kind : ReferenceKind} {reference : QualifiedName} :
    (first.hits kind reference).filter (·.repository ≠ .project) =
      (second.hits kind reference).filter (·.repository ≠ .project) := by
  have noneOwn (catalogue : Catalogue) :
      (Repository.hitsIn .project kind reference catalogue.project).filter (·.repository ≠ .project) = [] := by
    simp [Repository.hitsIn]
  rw [hits, hits, List.filter_append, List.filter_append, noneOwn, noneOwn, same]

namespace Workspace

variable {first second : Workspace}

structure Settled (workspace : Workspace) : Prop where
  sound : workspace.disk.root.Sound
  written : ∀ repository ∈ workspace.catalogue.repositories, repository.root.parts ≠ []

/-- Loading comes to the same, although more may be loaded by now in one workspace than in the other.
What the projects declare is left out. -/
structure Alike (settings : Settings) (first second : Workspace) : Prop where
  connected : first.catalogue.isConnected = second.catalogue.isConnected
  offered : Repository.offered settings first.catalogue.repositories first.disk =
    Repository.offered settings second.catalogue.repositories second.disk

/-- The same is loaded, and the disks are the same. -/
structure Together (first second : Workspace) : Prop where
  connected : first.catalogue.isConnected = second.catalogue.isConnected
  repositories : first.catalogue.repositories = second.catalogue.repositories
  disk : first.disk = second.disk

theorem Alike.refl (settings : Settings) (workspace : Workspace) : Alike settings workspace workspace := ⟨rfl, rfl⟩

theorem Alike.trans {third : Workspace} (one : Alike settings first second) (two : Alike settings second third) :
    Alike settings first third :=
  ⟨one.connected.trans two.connected, one.offered.trans two.offered⟩

theorem Together.alike (together : Together first second) : Alike settings first second :=
  ⟨together.connected, by rw [together.repositories, together.disk]⟩

theorem connect_ok {applicationHome userHome : Path} {start connected : Workspace} :
    connect settings applicationHome userHome start = .ok () connected ↔
      start.disk.isFolder (applicationHome.join (.ofText settings.libraryFolder)) ∧
        connected = ⟨start.catalogue.connected (applicationHome.join (.ofText settings.libraryFolder))
            (if (start.disk.makeFolder (userHome.join (.ofText settings.cacheFolder))).2 then
              some (userHome.join (.ofText settings.cacheFolder)) else none),
          (start.disk.makeFolder (userHome.join (.ofText settings.cacheFolder))).1⟩ := by
  rw [connect]
  dsimp only
  split
  next found => exact ⟨fun ran => ⟨found, (EStateM.Result.ok.inj ran).2.symm⟩, fun connects => connects.2 ▸ rfl⟩
  next absent => exact ⟨fun ran => (by cases ran), fun connects => absurd connects.1 absent⟩

/-- Where connecting fails, nothing is changed. -/
theorem connect_error {applicationHome userHome : Path} {start after : Workspace} {failure : Failure}
    (ran : connect settings applicationHome userHome start = .error failure after) : after = start := by
  rw [connect] at ran
  dsimp only at ran
  split at ran
  next => cases ran
  next => exact (EStateM.Result.error.inj ran).2.symm

/-- A search fails as loading does. -/
theorem find_of_load_fails {workspace : Workspace} (isConnected : workspace.catalogue.isConnected)
    {repositories : List Repository} {disk : Disk} {failure : Failure}
    (loads : Repository.loadEach settings workspace.catalogue.repositories workspace.disk =
      (repositories, disk, some failure)) (kind : ReferenceKind) (id : String) (domain : Option String) :
    find settings kind id domain workspace = .error failure (workspace.after repositories disk) := by
  have ran : loadAll settings workspace = .error failure (workspace.after repositories disk) := by
    rw [loadAll, loads]
    rfl
  refine bind_error.mpr (.inr ⟨workspace, workspace, rfl, ?_⟩)
  rw [if_pos isConnected]
  exact bind_error.mpr (.inl ran)

theorem find_of_not_connected {workspace : Workspace} (apart : ¬workspace.catalogue.isConnected)
    (kind : ReferenceKind) (id : String) (domain : Option String) :
    find settings kind id domain workspace = .error .notConnected workspace := by
  refine bind_error.mpr (.inr ⟨workspace, workspace, rfl, ?_⟩)
  rw [if_neg apart]
  rfl

/-- After a search, whatever came of it, loading comes to what it came to before. -/
theorem Settled.find (below : settings.IndexBelow) {workspace : Workspace} (settled : workspace.Settled)
    (kind : ReferenceKind) (id : String) (domain : Option String) :
    (stateAfter (find settings kind id domain workspace)).Settled ∧
      Alike settings (stateAfter (find settings kind id domain workspace)) workspace := by
  by_cases isConnected : workspace.catalogue.isConnected
  · cases loads : Repository.loadEach settings workspace.catalogue.repositories workspace.disk with
    | mk repositories state =>
      obtain ⟨disk, failed⟩ := state
      obtain ⟨sound, written, again⟩ := Repository.offered_again below settled.sound settled.written loads
      have settledThen : (workspace.after repositories disk).Settled := ⟨sound, written⟩
      have alikeThen : Alike settings (workspace.after repositories disk) workspace := ⟨rfl, again⟩
      cases failed with
      | none =>
        rw [find_eq_ok.mpr ⟨isConnected, _, _, loads, rfl, rfl⟩]
        exact ⟨settledThen, alikeThen⟩
      | some =>
        rw [find_of_load_fails isConnected loads]
        exact ⟨settledThen, alikeThen⟩
  · rw [find_of_not_connected isConnected]
    exact ⟨settled, .refl settings workspace⟩

/-- Two searches for the same fail alike, or load the same and find the same outside of the projects. -/
theorem Alike.find (alike : Alike settings first second) (kind : ReferenceKind) (id : String)
    (domain : Option String) :
    (∃ failure one two, Workspace.find settings kind id domain first = .error failure one ∧
        Workspace.find settings kind id domain second = .error failure two) ∨
      ∃ hits others one two, Workspace.find settings kind id domain first = .ok hits one ∧
        Workspace.find settings kind id domain second = .ok others two ∧ Together one two ∧
        hits.filter (·.repository ≠ .project) = others.filter (·.repository ≠ .project) := by
  by_cases isConnected : first.catalogue.isConnected
  · have isConnectedToo : second.catalogue.isConnected := alike.connected ▸ isConnected
    have offered := alike.offered
    cases loads : Repository.loadEach settings first.catalogue.repositories first.disk with
    | mk repositories state =>
      cases loadsToo : Repository.loadEach settings second.catalogue.repositories second.disk with
      | mk repositoriesToo stateToo =>
        obtain ⟨disk, failed⟩ := state
        obtain ⟨diskToo, failedToo⟩ := stateToo
        rw [Repository.offered, Repository.offered, loads, loadsToo] at offered
        cases failed with
        | some failure =>
          cases failedToo with
          | none => cases offered
          | some =>
            cases offered
            have fails := find_of_load_fails isConnected loads kind id domain
            exact .inl ⟨failure, _, _, fails, find_of_load_fails isConnectedToo loadsToo kind id domain⟩
        | none =>
          cases failedToo with
          | some => cases offered
          | none =>
            cases offered
            have together : Together (first.after repositories disk) (second.after repositories disk) :=
              ⟨alike.connected, rfl, rfl⟩
            exact .inr ⟨_, _, _, _, find_eq_ok.mpr ⟨isConnected, _, _, loads, rfl, rfl⟩,
              find_eq_ok.mpr ⟨isConnectedToo, _, _, loadsToo, rfl, rfl⟩, together,
              Catalogue.filter_hits_congr together.repositories⟩
  · have apart : ¬second.catalogue.isConnected := alike.connected ▸ isConnected
    exact .inl ⟨.notConnected, first, second, find_of_not_connected isConnected .., find_of_not_connected apart ..⟩

end Workspace
end Requirements
