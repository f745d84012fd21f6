import Requirements.Proofs.Disk.Storing
import Requirements.Proofs.Repository.Loading
import Requirements.Proofs.Resolution.Searches

/-! Workspaces in order: every loaded index is that of a folder of its repository, and every record
in it names a document there. Searching keeps the order, whatever index files it writes. -/
namespace Requirements

namespace Disk

/-- Of what is found on the first disk nothing is lost on the second. -/
structure Keeps (settings : Settings) (start final : Disk) : Prop where
  sound : final.root.Sound
  folders : ∀ root : Path, root.parts ≠ [] → ∀ folder ∈ start.repositoryFolders settings root,
    folder ∈ final.repositoryFolders settings root
  documents : ∀ folder, ∀ path ∈ start.documents settings folder, path ∈ final.documents settings folder

variable {settings : Settings} {start middle final : Disk}

theorem Keeps.refl (sound : start.root.Sound) : Keeps settings start start :=
  ⟨sound, fun _ _ _ found => found, fun _ _ member => member⟩

theorem Keeps.trans (first : Keeps settings start middle) (second : Keeps settings middle final) :
    Keeps settings start final where
  sound := second.sound
  folders root written folder found := second.folders root written folder (first.folders root written folder found)
  documents folder path member := second.documents folder path (first.documents folder path member)

/-- Writing an index file loses nothing, whether it can be written or not. -/
theorem keeps_write (sound : start.root.Sound) (folder : Path) (text : String) :
    Keeps settings start ((start.write? (settings.indexPath folder) text).getD start) := by
  cases written : start.write? (settings.indexPath folder) text with
  | none => exact .refl sound
  | some final =>
    obtain ⟨_, _, -, -, stored⟩ := stored_of_store? written fun _ => Path.not_mem_getLast?_join
    exact ⟨stored.sound sound, fun _ written _ => stored.repositoryFolders_subset sound written,
      fun _ _ => stored.documents_subset⟩

end Disk

namespace FolderIndex

variable {settings : Settings} {start final : Disk} {root folder : Path} {index : FolderIndex}

/-- The index is of a folder of the root, and its records name documents there. -/
structure Stands (settings : Settings) (disk : Disk) (root : Path) (index : FolderIndex) : Prop where
  found : index.folder ∈ disk.repositoryFolders settings root
  named : ∀ record ∈ index.records, ∃ document ∈ disk.documents settings index.folder,
    document.fileName? = some record.file

theorem Stands.keeps (stands : Stands settings start root index) (written : root.parts ≠ [])
    (keeps : Disk.Keeps settings start final) : Stands settings final root index where
  found := keeps.folders root written _ stands.found
  named record member := by
    obtain ⟨document, isDocument, named⟩ := stands.named record member
    exact ⟨document, keeps.documents _ document isDocument, named⟩

theorem folder_of_build (isBuilt : build start settings folder = .ok index) : index.folder = folder := by
  obtain ⟨-, -, rfl⟩ := build_ok.mp isBuilt
  exact folder_foldl_insert _ _

/-- An index that was loaded, from its file or from the documents, stands on the disk that is left. -/
theorem stands_of_load (sound : start.root.Sound) (written : root.parts ≠ [])
    (found : folder ∈ start.repositoryFolders settings root) (ran : load settings folder start = .ok index final) :
    Disk.Keeps settings start final ∧ index.Stands settings final root := by
  rcases load_ok.mp ran with ⟨isCached, rfl⟩ | ⟨-, isBuilt, rfl⟩
  · obtain ⟨isRead, current⟩ := cached?_some.mp isCached
    obtain ⟨_, -, -, -, named⟩ := isCurrent_iff.mp current
    exact ⟨.refl sound, (folder_of_read isRead).symm ▸ found, named⟩
  · have keeps : Disk.Keeps settings start _ := Disk.keeps_write sound folder index.text
    have sameFolder := folder_of_build isBuilt
    have stands : index.Stands settings start root := by
      refine ⟨sameFolder.symm ▸ found, fun record member => ?_⟩
      obtain ⟨path, isDocument, given⟩ := mem_records_of_build isBuilt member
      obtain ⟨name, named, -⟩ := Settings.isDocument_iff.mp (Disk.mem_documents.mp isDocument).2.2
      have file := (mem_recordsAt given).2
      rw [named, Option.getD_some] at file
      exact ⟨path, sameFolder.symm ▸ isDocument, file ▸ named⟩
    exact ⟨keeps, stands.keeps written keeps⟩

end FolderIndex

namespace Repository

variable {settings : Settings} {start final : Disk}

def InOrder (settings : Settings) (disk : Disk) (repository : Repository) : Prop :=
  ∀ indices, repository.folders = some indices → ∀ index ∈ indices, index.Stands settings disk repository.root

theorem InOrder.keeps {repository : Repository} (inOrder : repository.InOrder settings start)
    (written : repository.root.parts ≠ []) (keeps : Disk.Keeps settings start final) :
    repository.InOrder settings final :=
  fun indices loaded index member => (inOrder indices loaded index member).keeps written keeps

theorem stands_of_loadFolders {root : Path} (written : root.parts ≠ []) {folders : List Path}
    {indices : List FolderIndex} (sound : start.root.Sound)
    (found : ∀ folder ∈ folders, folder ∈ start.repositoryFolders settings root)
    (ran : loadFolders settings folders start = .ok indices final) :
    Disk.Keeps settings start final ∧ ∀ index ∈ indices, index.Stands settings final root := by
  induction folders generalizing start indices with
  | nil =>
    obtain ⟨rfl, rfl⟩ := pure_ok.mp ran
    exact ⟨.refl sound, by simp⟩
  | cons folder rest ih =>
    rw [loadFolders] at ran
    obtain ⟨index, middle, first, ran⟩ := bind_ok.mp ran
    obtain ⟨others, _, behind, ran⟩ := bind_ok.mp ran
    obtain ⟨rfl, rfl⟩ := pure_ok.mp ran
    obtain ⟨keeps, stands⟩ := FolderIndex.stands_of_load sound written (found folder (by simp)) first
    have foundThen : ∀ other ∈ rest, other ∈ middle.repositoryFolders settings root :=
      fun other member => keeps.folders root written other (found other (by simp [member]))
    obtain ⟨keepsOn, standsBehind⟩ := ih keeps.sound foundThen behind
    refine ⟨keeps.trans keepsOn, fun other member => ?_⟩
    rcases List.mem_cons.mp member with rfl | inRest
    · exact stands.keeps written keepsOn
    · exact standsBehind other inRest

/-- What a loaded repository has was there, or its folders were loaded one after another. -/
theorem load_ok {repository loaded : Repository} (ran : repository.load settings start = .ok loaded final) :
    loaded = repository ∧ final = start ∧ repository.folders.isSome ∨
      repository.folders = none ∧ ∃ indices,
        loadFolders settings (start.repositoryFolders settings repository.root) start = .ok indices final ∧
        loaded = { repository with folders := some indices } := by
  rw [load] at ran
  cases present : repository.folders with
  | some =>
    rw [present] at ran
    obtain ⟨rfl, rfl⟩ := pure_ok.mp ran
    exact .inl ⟨rfl, rfl, rfl⟩
  | none =>
    rw [present] at ran
    obtain ⟨_, _, got, ran⟩ := bind_ok.mp ran
    obtain ⟨rfl, rfl⟩ := get_ok.mp got
    obtain ⟨indices, _, loads, ran⟩ := bind_ok.mp ran
    obtain ⟨rfl, rfl⟩ := pure_ok.mp ran
    exact .inr ⟨rfl, indices, loads, rfl⟩

theorem keeps_of_load {repository loaded : Repository} (sound : start.root.Sound)
    (written : repository.root.parts ≠ []) (ran : repository.load settings start = .ok loaded final) :
    Disk.Keeps settings start final ∧ loaded.root = repository.root := by
  rcases load_ok ran with ⟨rfl, rfl, -⟩ | ⟨-, indices, loads, rfl⟩
  · exact ⟨.refl sound, rfl⟩
  · exact ⟨(stands_of_loadFolders written sound (fun _ found => found) loads).1, rfl⟩

theorem inOrder_of_load {repository loaded : Repository} (sound : start.root.Sound)
    (written : repository.root.parts ≠ []) (inOrder : repository.InOrder settings start)
    (ran : repository.load settings start = .ok loaded final) : loaded.InOrder settings final := by
  rcases load_ok ran with ⟨rfl, rfl, -⟩ | ⟨-, indices, loads, rfl⟩
  · exact inOrder
  · intro others loaded index member
    obtain rfl := Option.some.inj loaded
    exact (stands_of_loadFolders written sound (fun _ found => found) loads).2 index member

theorem inOrder_of_loadEach {repositories loaded : List Repository} (sound : start.root.Sound)
    (written : ∀ repository ∈ repositories, repository.root.parts ≠ [])
    (inOrder : ∀ repository ∈ repositories, repository.InOrder settings start)
    (ran : loadEach settings repositories start = (loaded, final, none)) :
    Disk.Keeps settings start final ∧
      ∀ repository ∈ loaded, repository.root.parts ≠ [] ∧ repository.InOrder settings final := by
  induction repositories generalizing start loaded with
  | nil =>
    obtain ⟨rfl, same⟩ := Prod.mk.inj ran
    obtain ⟨rfl, -⟩ := Prod.mk.inj same
    exact ⟨.refl sound, by simp⟩
  | cons first rest ih =>
    rw [loadEach] at ran
    split at ran
    next => cases ran
    next isFirst middle head =>
      cases others : loadEach settings rest middle with
      | mk tail state =>
        obtain ⟨finalDisk, failure⟩ := state
        rw [others] at ran
        obtain ⟨rfl, rfl, rfl⟩ := ran
        have writtenFirst := written first (by simp)
        obtain ⟨keeps, sameRoot⟩ := keeps_of_load sound writtenFirst head
        have inOrderFirst := inOrder_of_load sound writtenFirst (inOrder first (by simp)) head
        have inOrderThen : ∀ repository ∈ rest, repository.InOrder settings middle := fun repository member =>
          (inOrder repository (by simp [member])).keeps (written repository (by simp [member])) keeps
        obtain ⟨keepsOn, inOrderRest⟩ :=
          ih keeps.sound (fun repository member => written repository (by simp [member])) inOrderThen others
        refine ⟨keeps.trans keepsOn, fun repository member => ?_⟩
        rcases List.mem_cons.mp member with rfl | behind
        · have writtenLoaded : repository.root.parts ≠ [] := sameRoot ▸ writtenFirst
          exact ⟨writtenLoaded, inOrderFirst.keeps writtenLoaded keepsOn⟩
        · exact inOrderRest repository behind

end Repository

namespace Workspace

variable {settings : Settings} {start final : Workspace}

structure InOrder (settings : Settings) (workspace : Workspace) : Prop where
  sound : workspace.disk.root.Sound
  written : ∀ repository ∈ workspace.catalogue.repositories, repository.root.parts ≠ []
  loaded : ∀ repository ∈ workspace.catalogue.repositories, repository.InOrder settings workspace.disk

/-- A workspace in which nothing is loaded is in order. -/
theorem inOrder_of_unloaded (sound : start.disk.root.Sound)
    (written : ∀ repository ∈ start.catalogue.repositories, repository.root.parts ≠ [])
    (unloaded : ∀ repository ∈ start.catalogue.repositories, repository.folders = none) :
    start.InOrder settings :=
  ⟨sound, written, fun repository member _ loaded => nomatch loaded.symm.trans (unloaded repository member)⟩

def Holds (settings : Settings) (workspace : Workspace) (path : Path) : Prop :=
  ∃ repository ∈ workspace.catalogue.repositories,
    ∃ folder ∈ workspace.disk.repositoryFolders settings repository.root,
      path ∈ workspace.disk.documents settings folder

theorem InOrder.find (inOrder : start.InOrder settings) {kind : ReferenceKind} {id : String}
    {domain : Option String} {hits : List Hit} (ran : find settings kind id domain start = .ok hits final) :
    final.InOrder settings := by
  obtain ⟨-, repositories, disk, loads, rfl, -⟩ := find_eq_ok.mp ran
  obtain ⟨keeps, standing⟩ := Repository.inOrder_of_loadEach inOrder.sound inOrder.written inOrder.loaded loads
  exact ⟨keeps.sound, fun repository member => (standing repository member).1,
    fun repository member => (standing repository member).2⟩

/-- Where a hit outside the project leads, a repository has a document. -/
theorem InOrder.holds_of_hit (inOrder : start.InOrder settings) {kind : ReferenceKind}
    {reference : QualifiedName} {hit : Hit} (member : hit ∈ start.catalogue.hits kind reference)
    (outside : hit.repository ≠ .project) : start.Holds settings hit.path := by
  rcases List.mem_append.mp member with inProject | elsewhere
  · obtain ⟨_, -, rfl⟩ := List.mem_map.mp inProject
    exact absurd rfl outside
  · obtain ⟨repository, isRepository, among⟩ := List.mem_flatMap.mp elsewhere
    cases folders : repository.folders with
    | none => simp [Repository.hits, folders] at among
    | some indices =>
      rw [Repository.hits, folders, Option.getD_some] at among
      obtain ⟨index, isIndex, isHit⟩ := List.mem_flatMap.mp among
      obtain ⟨record, isDeclared, rfl⟩ := List.mem_map.mp isHit
      have stands := inOrder.loaded repository isRepository indices folders index isIndex
      obtain ⟨document, isDocument, named⟩ := stands.named record (List.mem_of_mem_filter isDeclared)
      refine ⟨repository, isRepository, index.folder, stands.found, ?_⟩
      rw [Hit.path, Disk.child_of_mem_documents inOrder.sound isDocument named]
      exact isDocument

end Workspace
end Requirements
