import Mathlib.Logic.Relation
import Requirements.Proofs.Repository.Loading
import Requirements.Proofs.Resolution.Growth

/-! Loading an index again. While no document changes, every later load answers too. It has the
records of the first load if it builds the index anew, and it lacks those of documents that the
index file cannot name if it reads that file. -/
namespace Requirements
namespace FolderIndex

variable {settings : Settings} {folder : Path}

theorem namesDocument_of_mem {disk : Disk} {path : Path} (member : path ∈ disk.documents settings folder)
    {name : String} (named : path.fileName? = some name) : settings.NamesDocument name := by
  obtain ⟨own, isOwn, naming⟩ := Settings.isDocument_iff.mp (Disk.mem_documents.mp member).2.2
  exact Option.some.inj (isOwn.symm.trans named) ▸ naming

/-- A record of a built index has a name that fits a line, and its file is named as a document. -/
theorem of_mem_records_of_build {disk : Disk} {built : FolderIndex} (isBuilt : build disk settings folder = .ok built)
    {record : Record} (member : record ∈ built.records) :
    IsName record.name ∧ settings.NamesDocument record.file := by
  obtain ⟨path, isDocument, given⟩ := mem_records_of_build isBuilt member
  obtain ⟨isName, file⟩ := mem_recordsAt given
  obtain ⟨name, named, naming⟩ := Settings.isDocument_iff.mp (Disk.mem_documents.mp isDocument).2.2
  rw [named, Option.getD_some] at file
  exact ⟨isName, file ▸ naming⟩

/-- A current index file that was written after a build gives the records that were built, but
for those whose files it cannot name. -/
theorem records_of_cached? {start disk : Disk} {path : Path} {built index : FolderIndex} {time : Nat}
    (isBuilt : build start settings folder = .ok built) (held : disk.file? path = some (.text built.text, time))
    (isCached : cached? disk settings folder path = some index) :
    index.records = built.records.filter fun record => Record.fitsField record.file := by
  obtain ⟨isRead, current⟩ := cached?_some.mp isCached
  obtain ⟨_, -, -, -, present⟩ := isCurrent_iff.mp current
  have named : ∀ record ∈ built.records, record.fitsLine → record.name ≠ "" :=
    fun record member _ => (of_mem_records_of_build isBuilt member).1.ne_empty
  obtain ⟨read, given, -, records⟩ := ofText_text_of_named named folder path
  obtain rfl : read = index := by
    rw [FolderIndex.read, Disk.read, Disk.read?_eq, held] at isRead
    exact Except.ok.inj (given.symm.trans isRead)
  have fits : built.records.filter (·.fitsLine) = built.records.filter fun record => Record.fitsField record.file := by
    refine List.filter_congr fun record member => ?_
    rw [Record.fitsLine, Record.fitsField_of_isName (of_mem_records_of_build isBuilt member).1, Bool.true_and]
  rw [records, rereadable, fits]
  refine (List.map_congr_left fun record member => ?_).trans (List.map_id' _)
  -- A file name that loses its carriage return has another extension and names no document.
  refine Record.reread_eq_self.mpr fun ends => ?_
  obtain ⟨document, isDocument, named⟩ := present record.reread (by
    rw [records, rereadable, fits]
    exact List.mem_map_of_mem member)
  have shorter := namesDocument_of_mem isDocument named
  rw [Record.reread, dropReturn, if_pos ends] at shorter
  exact (of_mem_records_of_build isBuilt (List.mem_filter.mp member).1).2.dropLast ends (by decide) shorter

/-- What happens between two loads of a folder's index: another load, or something that leaves
the folder's documents and its index file as they are. -/
inductive Use (settings : Settings) (folder : Path) (before after : Disk) : Prop
  | load (index : FolderIndex) (ran : load settings folder before = .ok index after)
  | elsewhere (documents : Disk.SameDocuments settings folder before after)
      (file : after.file? (settings.indexPath folder) = before.file? (settings.indexPath folder))

/-- Loading gives the first index again, from the index file or from the documents. -/
structure Reloads (settings : Settings) (folder : Path) (first : FolderIndex) (disk : Disk) : Prop where
  cached : ∀ index, cached? disk settings folder (settings.indexPath folder) = some index →
    index.records = first.records.filter fun record => Record.fitsField record.file
  stale : cached? disk settings folder (settings.indexPath folder) = none →
    build disk settings folder = .ok first

theorem reloads_of_load (noDocument : ¬settings.isDocument (settings.indexPath folder)) {start final : Disk}
    {first : FolderIndex} (ran : load settings folder start = .ok first final) :
    Reloads settings folder first final := by
  obtain ⟨isCached, rfl⟩ | ⟨stale, isBuilt, rfl⟩ := load_ok.mp ran
  · have fit := fitsField_of_read (cached?_some.mp isCached).1
    refine ⟨fun index again => ?_, fun stale => by cases isCached.symm.trans stale⟩
    obtain rfl := Option.some.inj (isCached.symm.trans again)
    exact (List.filter_eq_self.mpr fit).symm
  · cases written : start.write? (settings.indexPath folder) first.text with
    | none => exact ⟨fun index isCached => (by cases stale.symm.trans isCached), fun _ => isBuilt⟩
    | some final =>
      have same := Disk.sameDocuments_of_store? noDocument written folder
      have held := (Disk.store?_ok written).1
      exact ⟨fun index => records_of_cached? isBuilt held, fun _ => (build_congr same).trans isBuilt⟩

theorem Reloads.use (noDocument : ¬settings.isDocument (settings.indexPath folder)) {before after : Disk}
    {first : FolderIndex} (reloads : Reloads settings folder first before) (use : Use settings folder before after) :
    Reloads settings folder first after := by
  cases use with
  | load index ran =>
    obtain ⟨-, rfl⟩ | ⟨stale, isBuilt, -⟩ := load_ok.mp ran
    · exact reloads
    · obtain rfl := Except.ok.inj (isBuilt.symm.trans (reloads.stale stale))
      exact reloads_of_load noDocument ran
  | elsewhere documents file =>
    refine ⟨fun index isCached => ?_, fun stale => ?_⟩
    · exact reloads.cached index ((cached?_congr documents file).symm.trans isCached)
    · exact (build_congr documents).trans (reloads.stale ((cached?_congr documents file).symm.trans stale))

/-- After a load of a folder's index, as long as no document changes, every load succeeds. It
gives the same records in the same order if it builds the index, and those of them whose
documents' names fit a line of the index file if it reads that. -/
theorem load_again (noDocument : ¬settings.isDocument (settings.indexPath folder)) {start middle later : Disk}
    {first : FolderIndex} (ran : load settings folder start = .ok first middle)
    (uses : Relation.ReflTransGen (Use settings folder) middle later) :
    ∃ again final, load settings folder later = .ok again final ∧ again.records =
      if (cached? later settings folder (settings.indexPath folder)).isSome then
        first.records.filter fun record => Record.fitsField record.file
      else first.records := by
  have reloads : Reloads settings folder first later := by
    induction uses with
    | refl => exact reloads_of_load noDocument ran
    | tail _ use ih => exact ih.use noDocument use
  cases isCached : cached? later settings folder (settings.indexPath folder) with
  | some index => exact ⟨index, later, load_ok.mpr (.inl ⟨isCached, rfl⟩), reloads.cached index isCached⟩
  | none => exact ⟨first, _, load_ok.mpr (.inr ⟨isCached, reloads.stale isCached, rfl⟩), rfl⟩

def markedFolder : Disk where
  root := .folder "" [.file "a;b.reqm" (.text "class Marked;") 1, .file "c.reqm" (.text "class Plain;") 1]
  now := 5

/-- The second load, after the index was written, has the records of the plain document only. -/
theorem load_again_markedFolder :
    ∃ first middle, load {} ⟨["."]⟩ markedFolder = .ok first middle ∧
      first.records = [⟨.declares, .element .classType, "Marked", "a;b.reqm"⟩,
        ⟨.declares, .element .classType, "Plain", "c.reqm"⟩] ∧
      ∃ again final, load {} ⟨["."]⟩ middle = .ok again final ∧
        again.records = [⟨.declares, .element .classType, "Plain", "c.reqm"⟩] := by
  have ends : ends (fun first middle => first.records == [⟨.declares, .element .classType, "Marked", "a;b.reqm"⟩,
      ⟨.declares, .element .classType, "Plain", "c.reqm"⟩] &&
      (cached? middle {} ⟨["."]⟩ (Settings.indexPath {} ⟨["."]⟩)).isSome) (load {} ⟨["."]⟩ markedFolder) := by
    decide +kernel
  obtain ⟨first, middle, ran, meets⟩ := ok_of_ends ends
  simp only [Bool.and_eq_true, beq_iff_eq] at meets
  refine ⟨first, middle, ran, meets.1, ?_⟩
  obtain ⟨again, final, ranAgain, records⟩ := load_again (by decide) ran .refl
  rw [if_pos meets.2, meets.1] at records
  exact ⟨again, final, ranAgain, records⟩

def newerFolder : Disk where
  root := .folder "" [.file "a.reqm" (.text "class Plain;") 9]
  now := 5

/-- A record of the first load is lost on the second, and where the index file is named as a
document the second load fails. -/
theorem lost_markedFolder_failed_newerFolder :
    (∃ first middle again final, load {} ⟨["."]⟩ markedFolder = .ok first middle ∧
      load {} ⟨["."]⟩ middle = .ok again final ∧
      ⟨.declares, .element .classType, "Marked", "a;b.reqm"⟩ ∈ first.records ∧
      ⟨.declares, .element .classType, "Marked", "a;b.reqm"⟩ ∉ again.records) ∧
    ∃ first middle, load { indexFile := "x.reqm" } ⟨["."]⟩ newerFolder = .ok first middle ∧
      ∀ again final, load { indexFile := "x.reqm" } ⟨["."]⟩ middle ≠ .ok again final := by
  constructor
  · have ends : ends (fun first middle => first.records.contains
        ⟨.declares, .element .classType, "Marked", "a;b.reqm"⟩ &&
        ends (fun again _ => !again.records.contains ⟨.declares, .element .classType, "Marked", "a;b.reqm"⟩)
          (load {} ⟨["."]⟩ middle)) (load {} ⟨["."]⟩ markedFolder) := by
      decide +kernel
    obtain ⟨first, middle, ran, meets⟩ := ok_of_ends ends
    simp only [Bool.and_eq_true, List.contains_iff_mem] at meets
    obtain ⟨again, final, ranAgain, lost⟩ := ok_of_ends meets.2
    exact ⟨first, middle, again, final, ran, ranAgain, meets.1, by simpa using lost⟩
  · have ends : ends (fun _ middle => !ends (fun _ _ => true) (load { indexFile := "x.reqm" } ⟨["."]⟩ middle))
        (load { indexFile := "x.reqm" } ⟨["."]⟩ newerFolder) := by
      decide +kernel
    obtain ⟨first, middle, ran, fails⟩ := ok_of_ends ends
    refine ⟨first, middle, ran, fun again final ranAgain => ?_⟩
    rw [ranAgain] at fails
    cases fails

end FolderIndex
end Requirements
