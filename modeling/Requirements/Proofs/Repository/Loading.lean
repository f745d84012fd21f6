import Requirements.Proofs.Disk.Documents
import Requirements.Proofs.Repository.Indexing

/-! What loading the index of a folder gives, and what of the disk it depends on: the folder's
documents and the index file. -/
namespace Requirements

def Settings.indexPath (settings : Settings) (folder : Path) : Path := folder.join (.ofText settings.indexFile)

namespace Disk

/-- The folder has the same documents on both disks, of the same content and time. -/
structure SameDocuments (settings : Settings) (folder : Path) (first second : Disk) : Prop where
  listed : (second.fileNames? folder).isSome = (first.fileNames? folder).isSome
  documents : second.documents settings folder = first.documents settings folder
  files : ∀ path ∈ first.documents settings folder, second.file? path = first.file? path

theorem isSome_fileNames? (disk : Disk) (folder : Path) : (disk.fileNames? folder).isSome = disk.isFolder folder := by
  rw [fileNames?, isFolder]
  cases disk.entry? folder with
  | none => rfl
  | some entry => cases entry <;> rfl

/-- Storing a file that is no document leaves the documents of every folder as they are. -/
theorem sameDocuments_of_store? {settings : Settings} {start final : Disk} {path : Path} {content : Content}
    {modified : Nat} (noDocument : ¬settings.isDocument path)
    (stored : start.store? path content modified = some final) (folder : Path) :
    SameDocuments settings folder start final := by
  obtain ⟨-, -, names, name, -, last, -, -, changed⟩ := store?_ok stored
  obtain ⟨part, -, step⟩ := Option.bind_eq_some_iff.mp last
  obtain rfl := Path.eq_of_stepOf? step
  have other : ∀ member, settings.isDocument (folder.child member) → member ≠ part := by
    rintro _ isDocument rfl
    obtain ⟨own, named, naming⟩ := Settings.isDocument_iff.mp isDocument
    obtain rfl := Option.some.inj (named.symm.trans (Path.fileName?_child folder step))
    exact noDocument (Settings.isDocument_iff.mpr ⟨own, Path.fileName?_of_last last, naming⟩)
  have whole (disk : Disk) : (disk.documents settings folder).filter (· ≠ folder.child part) =
      disk.documents settings folder := by
    refine List.filter_eq_self.mpr fun path member => ?_
    obtain ⟨⟨name, -, rfl⟩, -, isDocument⟩ := mem_documents.mp member
    simpa using fun same => other name isDocument (Path.child_injective same)
  refine ⟨?_, ?_, fun path member => ?_⟩
  · rw [isSome_fileNames?, isSome_fileNames?, changed.isFolder]
  · rw [← whole, changed.documents, whole]
  · obtain ⟨⟨name, -, rfl⟩, -, isDocument⟩ := mem_documents.mp member
    exact changed.file?_document isDocument (other name isDocument)

theorem parse_congr {first second : Disk} {path : Path} (same : second.file? path = first.file? path)
    (file : String) : second.parse path file = first.parse path file := by
  rw [parse, parse, read, read, read?_eq, read?_eq, same]

end Disk

namespace FolderIndex

variable {settings : Settings} {folder path : Path}

theorem insertFiles_congr {first second : Disk} {paths : List Path}
    (same : ∀ path ∈ paths, second.file? path = first.file? path) (index : FolderIndex) :
    insertFiles second settings index paths = insertFiles first settings index paths := by
  induction paths generalizing index with
  | nil => rfl
  | cons path rest ih =>
    rw [insertFiles, insertFiles, Disk.parse_congr (same path (by simp))]
    split
    · exact ih (fun other member => same other (by simp [member])) _
    · rfl

theorem build_eq (disk : Disk) (settings : Settings) (folder : Path) : build disk settings folder =
    if (disk.fileNames? folder).isSome then
      insertFiles disk settings (empty folder) (sortedBy Path.before (disk.documents settings folder))
    else .error (.disk folder) := by
  rw [build, Disk.documentPaths_eq]
  by_cases isFolder : (disk.fileNames? folder).isSome
  · rw [if_pos isFolder, if_pos isFolder]
    rfl
  · rw [if_neg isFolder, if_neg isFolder]

theorem build_ok {disk : Disk} {built : FolderIndex} : build disk settings folder = .ok built ↔
    (disk.fileNames? folder).isSome ∧ (∀ path ∈ disk.documents settings folder, Parses disk path) ∧
      built = ((sortedBy Path.before (disk.documents settings folder)).flatMap (recordsAt disk settings)).foldl
        insert (empty folder) := by
  rw [build_eq]
  by_cases isFolder : (disk.fileNames? folder).isSome
  · simp [isFolder, insertFiles_ok]
  · simp [isFolder]

theorem build_congr {first second : Disk} (same : Disk.SameDocuments settings folder first second) :
    build second settings folder = build first settings folder := by
  rw [build_eq, build_eq, same.listed, same.documents,
    insertFiles_congr fun path member => same.files path (mem_sortedBy.mp member)]

/-- What a document gives bears names and the document's own name. -/
theorem mem_recordsAt {disk : Disk} {record : Record} (member : record ∈ recordsAt disk settings path) :
    IsName record.name ∧ record.file = path.fileName?.getD "" := by
  rw [recordsAt] at member
  split at member
  next parsed => exact Document.isName_of_mem_records (Disk.wellFormed_parse parsed) member
  next => simp at member

/-- Every record of an index that was built is of a document in the folder. -/
theorem mem_records_of_build {disk : Disk} {built : FolderIndex} (isBuilt : build disk settings folder = .ok built)
    {record : Record} (member : record ∈ built.records) :
    ∃ path ∈ disk.documents settings folder, record ∈ recordsAt disk settings path := by
  obtain ⟨-, -, rfl⟩ := build_ok.mp isBuilt
  obtain old | ⟨-, found⟩ := mem_foldl_insert.mp member
  · simp [empty] at old
  · obtain ⟨path, isDocument, given⟩ := List.mem_flatMap.mp (List.mem_of_find?_eq_some found)
    exact ⟨path, mem_sortedBy.mp isDocument, given⟩

theorem folder_of_insertLines {number : Nat} {index read : FolderIndex} {lines : List String}
    (isRead : insertLines path number index lines = .ok read) : read.folder = index.folder := by
  induction lines generalizing number index with
  | nil => rw [← Except.ok.inj isRead]
  | cons line rest ih =>
    rw [insertLines] at isRead
    split at isRead
    · exact ih isRead
    · split at isRead
      · cases isRead
      · exact (ih isRead).trans (folder_insert ..)

theorem folder_of_read {disk : Disk} {index : FolderIndex} (isRead : read disk folder path = .ok index) :
    index.folder = folder := by
  rw [read] at isRead
  split at isRead
  · exact folder_of_insertLines isRead
  · cases isRead

theorem isCurrent_iff {disk : Disk} {index : FolderIndex} : index.isCurrent disk settings path ↔
    ∃ written, disk.modified? path = some written ∧ (disk.fileNames? index.folder).isSome ∧
      (∀ document ∈ disk.documents settings index.folder, (disk.modified? document).any (· ≤ written)) ∧
      ∀ record ∈ index.records, ∃ document ∈ disk.documents settings index.folder,
        document.fileName? = some record.file := by
  rw [isCurrent, Disk.documentPaths_eq]
  cases disk.modified? path with
  | none => simp
  | some written =>
    by_cases isFolder : (disk.fileNames? index.folder).isSome
    · simp [isFolder]
    · simp [isFolder]

theorem cached?_some {disk : Disk} {index : FolderIndex} : cached? disk settings folder path = some index ↔
    read disk folder path = .ok index ∧ index.isCurrent disk settings path := by
  rw [cached?]
  cases read disk folder path with
  | error => simp
  | ok found =>
    by_cases current : found.isCurrent disk settings path
    · simp only [current, if_true, Option.some.injEq, Except.ok.injEq]
      exact ⟨fun same => ⟨same, same ▸ current⟩, fun ⟨same, _⟩ => same⟩
    · simp only [current, Bool.false_eq_true, if_false, reduceCtorEq, Except.ok.injEq, false_iff]
      exact fun ⟨same, isCurrent⟩ => current (same ▸ isCurrent)

theorem cached?_congr {first second : Disk} (same : Disk.SameDocuments settings folder first second)
    (file : second.file? path = first.file? path) :
    cached? second settings folder path = cached? first settings folder path := by
  have sameRead : read second folder path = read first folder path := by
    rw [read, read, Disk.read, Disk.read, Disk.read?_eq, Disk.read?_eq, file]
  refine Option.ext fun index => ?_
  rw [cached?_some, cached?_some, sameRead]
  refine and_congr_right fun isRead => ?_
  rw [isCurrent_iff, isCurrent_iff, folder_of_read isRead, same.documents, same.listed, Disk.modified?_eq,
    Disk.modified?_eq, file]
  refine exists_congr fun written => and_congr_right fun _ => and_congr_right fun _ => and_congr_left fun _ => ?_
  refine forall₂_congr fun document member => ?_
  rw [Disk.modified?_eq, Disk.modified?_eq, same.files document member]

theorem load_ok {start final : Disk} {index : FolderIndex} : load settings folder start = .ok index final ↔
    cached? start settings folder (settings.indexPath folder) = some index ∧ final = start ∨
      cached? start settings folder (settings.indexPath folder) = none ∧
        build start settings folder = .ok index ∧
        final = (start.write? (settings.indexPath folder) index.text).getD start := by
  rw [Settings.indexPath]
  unfold load
  dsimp only
  split
  next found isCached => simp [isCached, eq_comm]
  next stale =>
    split
    next built isBuilt =>
      simp only [stale, isBuilt, EStateM.Result.ok.injEq, reduceCtorEq, false_and, true_and, Except.ok.injEq,
        false_or]
      constructor
      all_goals exact fun ⟨same, after⟩ => ⟨same, same ▸ after.symm⟩
    next failed => simp [stale, failed]

end FolderIndex
end Requirements
