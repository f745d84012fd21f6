import Requirements.Proofs.Repository.Reloading
import Requirements.Proofs.Repository.Retrying
import Requirements.Proofs.Repository.Unindexed

/-! Workspaces whose index files are absent or hold what a build writes. Each folder gets the index of its
documents, whether its file is read or written anew, since what is written for one folder leaves the
documents and the index files of the others as they are. -/
namespace Requirements

open Disk (IndexApart Reindexed SameDocuments Apart Rooted)

variable {settings : Settings} {origin start final : Disk} {root other folder : Path}

namespace Disk

/-- The index file of a folder lies below the folder's root. -/
theorem below_of_indexPath (below : settings.IndexBelow) (sound : start.root.Sound) (written : root.parts ≠ [])
    (noFile : ¬start.isFile root) (found : folder ∈ start.repositoryFolders settings root) {reached : Location}
    (leads : start.location? (settings.indexPath folder) = some reached) :
    ∃ place more, start.location? root = some (.within place) ∧ reached = .within (place ++ more) := by
  by_cases onDisk : ∃ place, start.location? root = some (.within place)
  · obtain ⟨place, rootLeads⟩ := onDisk
    have rooted : Rooted start root place := ⟨written, rootLeads⟩
    obtain ⟨names, name, visited, -, rfl⟩ := (mem_repositoryFolders rooted sound noFile).mp found
    have reaches := rooted.location?_indexPath (rooted.holds_of_visits sound visited) below leads
    exact ⟨place, names ++ settings.indexNames, rootLeads, List.append_assoc .. ▸ reaches⟩
  · rw [repositoryFolders_of_not_within fun place leads => onDisk ⟨place, leads⟩] at found
    cases found

theorem indexApart_of_apart (below : settings.IndexBelow) (sound : start.root.Sound) (written : root.parts ≠ [])
    (writtenToo : other.parts ≠ []) (noFile : ¬start.isFile root) (noFileToo : ¬start.isFile other)
    (apart : start.Apart root other) {first second : Path} (found : first ∈ start.repositoryFolders settings root)
    (foundToo : second ∈ start.repositoryFolders settings other) : IndexApart settings start first second := by
  intro reached leads leadsToo
  obtain ⟨place, more, rootLeads, same⟩ := below_of_indexPath below sound written noFile found leads
  obtain ⟨otherPlace, others, otherLeads, sameToo⟩ :=
    below_of_indexPath below sound writtenToo noFileToo foundToo leadsToo
  have upFirst : place <+: reached := Location.within.inj same ▸ List.prefix_append ..
  have upSecond : otherPlace <+: reached := Location.within.inj sameToo ▸ List.prefix_append ..
  exact (apart.away rootLeads otherLeads upFirst).1 upSecond

theorem Apart.symm {first second : Path} (apart : start.Apart first second) : start.Apart second first :=
  fun x y leads leadsToo => (apart y x leadsToo leads).symm

end Disk

namespace FolderIndex

variable {index : FolderIndex}

/-- The folder has no index file, or one that holds what a build writes, whose files can all be named. -/
def Maintained (settings : Settings) (disk : Disk) (folder : Path) : Prop :=
  disk.file? (settings.indexPath folder) = none ∨
    ∃ built time, build disk settings folder = .ok built ∧ (∀ record ∈ built.records, Record.fitsField record.file) ∧
      disk.file? (settings.indexPath folder) = some (.text built.text, time)

theorem Maintained.congr (maintained : Maintained settings start folder)
    (same : SameDocuments settings folder start final)
    (file : final.file? (settings.indexPath folder) = start.file? (settings.indexPath folder)) :
    Maintained settings final folder := by
  rw [Maintained, file, build_congr same]
  exact maintained

theorem Maintained.eq_of_load (maintained : Maintained settings start folder)
    (ran : load settings folder start = .ok index final) : index = ofDocuments start settings folder := by
  rcases load_ok.mp ran with ⟨isCached, -⟩ | ⟨-, isBuilt, -⟩
  · have isRead := (cached?_some.mp isCached).1
    rcases maintained with absent | ⟨built, time, isBuilt, fit, held⟩
    · rw [read, Disk.read, Disk.read?_eq, absent] at isRead
      cases isRead
    · have records := records_of_cached? isBuilt held isCached
      rw [List.filter_eq_self.mpr fit] at records
      have sameFolder := (folder_of_read isRead).trans (folder_of_build isBuilt).symm
      exact (ext_records sameFolder records).trans (build_ok.mp isBuilt).2.2
  · exact (build_ok.mp isBuilt).2.2

theorem ofDocuments_congr (same : SameDocuments settings folder start final) :
    ofDocuments final settings folder = ofDocuments start settings folder := by
  have alike : (sortedBy Path.before (start.documents settings folder)).flatMap (recordsAt final settings) =
      (sortedBy Path.before (start.documents settings folder)).flatMap (recordsAt start settings) := by
    refine List.flatMap_congr fun path member => ?_
    rw [recordsAt, recordsAt, Disk.parse_congr (same.files path (mem_sortedBy.mp member))]
  rw [ofDocuments, ofDocuments, same.documents, alike]

/-- A root that lies apart from the folder's looks as it did when the folder's index was loaded. -/
theorem reindexed_elsewhere (below : settings.IndexBelow) (sound : origin.root.Sound) (written : root.parts ≠ [])
    (noFile : ¬origin.isFile root) (before : Reindexed settings root origin start)
    (found : folder ∈ start.repositoryFolders settings root) (apart : origin.Apart root other)
    (ran : load settings folder start = .ok index final) : Reindexed settings other start final := by
  obtain ⟨reindexed, -, -⟩ := reindexed_of_load below before.sound written found ran
  refine ⟨reindexed.sound, reindexed.locations, reindexed.documents, ?_⟩
  rcases load_ok.mp ran with ⟨-, rfl⟩ | ⟨-, -, rfl⟩
  · rfl
  · cases isWritten : start.write? (settings.indexPath folder) index.text with
    | none => rfl
    | some final =>
      obtain ⟨names, name, indexed⟩ := Disk.indexWritten_of_write? below isWritten
      have changed := indexed.stored.changed
      have leads := indexed.leads
      rw [before.locations] at leads
      rw [before.folders] at found
      obtain ⟨place, more, rootLeads, same⟩ := Disk.below_of_indexPath below sound written noFile found leads
      have isBelow : place <+: names ++ [name] := Location.within.inj same ▸ List.prefix_append ..
      refine Disk.repositoryFolders_congr (changed.location? other) fun otherPlace otherLeads => ?_
      rw [before.locations] at otherLeads
      have ⟨notBelow, notAbove⟩ := apart.away rootLeads otherLeads isBelow
      exact changed.entries otherPlace (fun above => notBelow (above.trans (List.prefix_append names [name]))) notAbove

end FolderIndex

namespace Repository

open FolderIndex (ofDocuments)

/-- The folders get the indices of their documents, and what lies apart from the root stays as it was. -/
theorem loadFolders_of_maintained (below : settings.IndexBelow) (sound : origin.root.Sound)
    (written : root.parts ≠ []) (noFile : ¬origin.isFile root) {folders : List Path} {indices : List FolderIndex}
    (before : Reindexed settings root origin start)
    (found : ∀ folder ∈ folders, folder ∈ start.repositoryFolders settings root)
    (apart : folders.Pairwise (IndexApart settings start))
    (maintained : ∀ folder ∈ folders, FolderIndex.Maintained settings start folder)
    (ran : loadFolders settings folders start = .ok indices final) :
    indices = folders.map (ofDocuments start settings) ∧ Reindexed settings root start final ∧
      (∀ other, origin.Apart root other → Reindexed settings other start final) ∧
      ∀ other, (∀ folder ∈ folders, IndexApart settings start folder other) →
        final.file? (settings.indexPath other) = start.file? (settings.indexPath other) := by
  induction folders generalizing start indices with
  | nil =>
    obtain ⟨rfl, rfl⟩ := pure_ok.mp ran
    exact ⟨rfl, .refl before.sound, fun _ _ => .refl before.sound, fun _ _ => rfl⟩
  | cons folder rest ih =>
    obtain ⟨apartHere, apartBehind⟩ := List.pairwise_cons.mp apart
    rw [loadFolders] at ran
    obtain ⟨index, middle, loaded, ran⟩ := bind_ok.mp ran
    obtain ⟨others, _, behind, ran⟩ := bind_ok.mp ran
    obtain ⟨rfl, rfl⟩ := pure_ok.mp ran
    have isHere := found folder (by simp)
    obtain ⟨first, -, untouched⟩ := FolderIndex.reindexed_of_load below before.sound written isHere loaded
    have foundThen : ∀ other ∈ rest, other ∈ middle.repositoryFolders settings root :=
      fun other member => first.folders ▸ found other (by simp [member])
    have maintainedThen : ∀ other ∈ rest, FolderIndex.Maintained settings middle other := fun other member =>
      (maintained other (by simp [member])).congr (first.documents other) (untouched other (apartHere other member))
    obtain ⟨gives, second, elsewhere, untouchedToo⟩ :=
      ih (before.trans first) foundThen (apartBehind.imp first.indexApart) maintainedThen behind
    refine ⟨?_, first.trans second, fun other apartOther => ?_, fun other apartOther => ?_⟩
    · have same : ∀ other ∈ rest, ofDocuments middle settings other = ofDocuments start settings other :=
        fun other _ => FolderIndex.ofDocuments_congr (first.documents other)
      rw [gives, (maintained folder (by simp)).eq_of_load loaded, List.map_cons, List.map_congr_left same]
    · refine .trans ?_ (elsewhere other apartOther)
      exact FolderIndex.reindexed_elsewhere below sound written noFile before isHere apartOther loaded
    · have apartThen : ∀ earlier ∈ rest, IndexApart settings middle earlier other :=
        fun earlier member => first.indexApart (apartOther earlier (by simp [member]))
      exact (untouchedToo other apartThen).trans (untouched other (apartOther folder (by simp)))

/-- A root that is told by a path, is no file, and whose folders' index files are absent or hold what a build
writes. -/
structure Maintained (settings : Settings) (disk : Disk) (repository : Repository) : Prop where
  unloaded : repository.folders = none
  written : repository.root.parts ≠ []
  noFile : ¬disk.isFile repository.root
  indices : ∀ folder ∈ disk.repositoryFolders settings repository.root,
    FolderIndex.Maintained settings disk folder

theorem Maintained.folders {repository : Repository} (maintained : repository.Maintained settings origin)
    (before : Reindexed settings repository.root origin start)
    (files : ∀ folder ∈ origin.repositoryFolders settings repository.root,
      start.file? (settings.indexPath folder) = origin.file? (settings.indexPath folder)) :
    ∀ folder ∈ start.repositoryFolders settings repository.root, FolderIndex.Maintained settings start folder := by
  intro folder found
  rw [before.folders] at found
  exact (maintained.indices folder found).congr (before.documents folder) (files folder found)

theorem indexed_congr {repository : Repository} (reindexed : Reindexed settings repository.root start final) :
    repository.indexed settings final = repository.indexed settings start := by
  rw [indexed, indexed, reindexed.folders, List.map_congr_left fun folder _ =>
    FolderIndex.ofDocuments_congr (reindexed.documents folder)]

/-- A repository gets the indices of its documents, and neither what lies apart from its root nor any other
index file is touched. -/
theorem load_of_maintained (below : settings.IndexBelow) (sound : origin.root.Sound) {repository loaded : Repository}
    (maintained : repository.Maintained settings origin) (before : Reindexed settings repository.root origin start)
    (files : ∀ folder ∈ origin.repositoryFolders settings repository.root,
      start.file? (settings.indexPath folder) = origin.file? (settings.indexPath folder))
    (ran : repository.load settings start = .ok loaded final) :
    loaded = repository.indexed settings origin ∧ Reindexed settings repository.root start final ∧
      (∀ other, origin.Apart repository.root other → Reindexed settings other start final) ∧
      ∀ other, (∀ folder ∈ origin.repositoryFolders settings repository.root,
        IndexApart settings origin folder other) →
          final.file? (settings.indexPath other) = start.file? (settings.indexPath other) := by
  obtain ⟨-, -, isLoaded⟩ | ⟨-, given, loads, rfl⟩ := load_ok ran
  · simp [maintained.unloaded] at isLoaded
  obtain ⟨rfl, own, elsewhere, untouched⟩ := loadFolders_of_maintained below sound maintained.written
    maintained.noFile before (fun _ found => found) (Disk.pairwise_indexApart below before.sound maintained.written)
    (maintained.folders before files) loads
  refine ⟨?_, own, elsewhere, fun other apart => untouched other fun folder found => ?_⟩
  · rw [← indexed_congr before]
    rfl
  · rw [before.folders] at found
    exact before.indexApart (apart folder found)

theorem loadEach_of_maintained (below : settings.IndexBelow) (sound : origin.root.Sound)
    {repositories loaded : List Repository}
    (maintained : ∀ repository ∈ repositories, repository.Maintained settings origin)
    (apart : repositories.Pairwise fun first second => origin.Apart first.root second.root)
    (before : ∀ repository ∈ repositories, Reindexed settings repository.root origin start)
    (files : ∀ repository ∈ repositories, ∀ folder ∈ origin.repositoryFolders settings repository.root,
      start.file? (settings.indexPath folder) = origin.file? (settings.indexPath folder))
    (ran : loadEach settings repositories start = (loaded, final, none)) :
    loaded = repositories.map (Repository.indexed settings origin) ∧
      (∀ repository ∈ repositories, Reindexed settings repository.root origin final) ∧
      ∀ other, Reindexed settings other origin start →
        (∀ repository ∈ repositories, origin.Apart repository.root other) → Reindexed settings other origin final := by
  induction repositories generalizing start loaded with
  | nil =>
    obtain ⟨rfl, same⟩ := Prod.mk.inj ran
    obtain ⟨rfl, -⟩ := Prod.mk.inj same
    exact ⟨rfl, by simp, fun _ before _ => before⟩
  | cons repository rest ih =>
    obtain ⟨apartHere, apartBehind⟩ := List.pairwise_cons.mp apart
    have maintainedHere := maintained repository (by simp)
    have beforeHere := before repository (by simp)
    rw [loadEach] at ran
    split at ran
    next => cases ran
    next isFirst middle head =>
      cases others : loadEach settings rest middle with
      | mk tail state =>
        obtain ⟨finalDisk, failure⟩ := state
        rw [others] at ran
        obtain ⟨rfl, rfl, rfl⟩ := ran
        obtain ⟨rfl, own, elsewhere, untouched⟩ :=
          load_of_maintained below sound maintainedHere beforeHere (files repository (by simp)) head
        have beforeThen : ∀ other ∈ rest, Reindexed settings other.root origin middle := fun other member =>
          (before other (by simp [member])).trans (elsewhere other.root (apartHere other member))
        have filesThen : ∀ other ∈ rest, ∀ folder ∈ origin.repositoryFolders settings other.root,
            middle.file? (settings.indexPath folder) = origin.file? (settings.indexPath folder) := by
          intro other member folder found
          have maintainedToo := maintained other (by simp [member])
          refine (untouched folder fun first isFirst => ?_).trans (files other (by simp [member]) folder found)
          exact Disk.indexApart_of_apart below sound maintainedHere.written maintainedToo.written
            maintainedHere.noFile maintainedToo.noFile (apartHere other member) isFirst found
        obtain ⟨rfl, behind, onward⟩ := ih (fun other member => maintained other (by simp [member])) apartBehind
          beforeThen filesThen others
        refine ⟨rfl, fun other member => ?_, fun other beforeOther apartOther => ?_⟩
        · rcases List.mem_cons.mp member with rfl | inRest
          · exact onward _ (beforeHere.trans own) fun later isLater => (apartHere later isLater).symm
          · exact behind other inRest
        · exact onward other (beforeOther.trans (elsewhere other (apartOther repository (by simp))))
            fun later isLater => apartOther later (by simp [isLater])

end Repository

/-- The workspace is in order, and loading its repositories, if that succeeds, gives each folder the
index of its documents: index files are absent or say what is in the documents. -/
structure Workspace.Faithful (settings : Settings) (workspace : Workspace) : Prop where
  inOrder : workspace.InOrder settings
  outside : ∀ repository ∈ workspace.catalogue.repositories, repository.kind ≠ .project
  agrees : ∀ repositories disk,
    Repository.loadEach settings workspace.catalogue.repositories workspace.disk = (repositories, disk, none) →
      repositories = workspace.catalogue.repositories.map (Repository.indexed settings disk)

/-- So it is where the roots lie apart and index files are absent or hold what a build writes. -/
theorem Workspace.faithful_of_maintained {workspace : Workspace} (below : settings.IndexBelow)
    (sound : workspace.disk.root.Sound)
    (outside : ∀ repository ∈ workspace.catalogue.repositories, repository.kind ≠ .project)
    (maintained : ∀ repository ∈ workspace.catalogue.repositories, repository.Maintained settings workspace.disk)
    (apart : workspace.catalogue.repositories.Pairwise fun first second =>
      workspace.disk.Apart first.root second.root) : workspace.Faithful settings where
  inOrder := inOrder_of_unloaded sound (fun repository member => (maintained repository member).written)
    fun repository member => (maintained repository member).unloaded
  outside := outside
  agrees repositories disk loads := by
    obtain ⟨rfl, reindexed, -⟩ := Repository.loadEach_of_maintained below sound maintained apart
      (fun _ _ => .refl sound) (fun _ _ _ _ => rfl) loads
    exact List.map_congr_left fun repository member => (Repository.indexed_congr (reindexed repository member)).symm

end Requirements
