import Requirements.Proofs.Disk.PathOrder
import Requirements.Proofs.Repository.Reloading

/-! Index files of changing folders. Where documents were removed or written later than the index
file, loading gives what a build gives: an index file that is still current knows every document
that is left, and the documents that are gone gave none of its records. -/
namespace Requirements

def outcome {ε σ α : Type} : EStateM.Result ε σ α → Except ε α
  | .ok a _ => .ok a
  | .error failure _ => .error failure

namespace Disk

def isOld (disk : Disk) (time : Nat) (path : Path) : Bool := (disk.modified? path).any (· ≤ time)

theorem isOld_congr {first second : Disk} {path : Path} (same : second.file? path = first.file? path) (time : Nat) :
    second.isOld time path = first.isOld time path := by
  rw [isOld, isOld, modified?_eq, modified?_eq, same]

end Disk

namespace FolderIndex

variable {settings : Settings} {folder : Path} {time : Nat}

/-- How a folder changes when its index file is of the time: a document is removed or is written
later than that, or the documents and the index file stay as they are. -/
inductive Change (settings : Settings) (folder : Path) (time : Nat) (before after : Disk) : Prop
  | removed (name : String) (isDocument : settings.isDocument (folder.child name))
      (isFile : before.isFile (folder.child name)) (result : after = before.remove (folder.child name))
  | written (name : String) (content : Content) (modified : Nat)
      (isDocument : settings.isDocument (folder.child name)) (later : time < modified)
      (stored : before.store? (folder.child name) content modified = some after)
  | elsewhere (documents : Disk.SameDocuments settings folder before after)
      (file : after.file? (settings.indexPath folder) = before.file? (settings.indexPath folder))

/-- The changes since the index file was written: of the documents that are not newer, some are
gone and the others are as they were. -/
structure Outlasts (settings : Settings) (folder : Path) (time : Nat) (first current : Disk) : Prop where
  listed : (current.fileNames? folder).isSome
  file : current.file? (settings.indexPath folder) = first.file? (settings.indexPath folder)
  kept : ∃ keep : Path → Bool, (current.documents settings folder).filter (current.isOld time) =
    (first.documents settings folder).filter keep
  unchanged : ∀ path ∈ current.documents settings folder, current.isOld time path →
    current.file? path = first.file? path

namespace Outlasts

variable {first before after : Disk}

theorem refl (listed : (first.fileNames? folder).isSome) : Outlasts settings folder time first first :=
  ⟨listed, rfl, ⟨first.isOld time, rfl⟩, fun _ _ _ => rfl⟩

/-- One document may come, go or change that is not old afterwards. -/
theorem fileChanged (outlasts : Outlasts settings folder time first before) {names : List String} {name : String}
    (changed : Disk.FileChanged before after names name) (notOld : ¬after.isOld time (folder.child name))
    (file : after.file? (settings.indexPath folder) = before.file? (settings.indexPath folder)) :
    Outlasts settings folder time first after := by
  obtain ⟨keep, kept⟩ := outlasts.kept
  have others : ∀ path ∈ after.documents settings folder, path ≠ folder.child name →
      after.file? path = before.file? path := by
    intro path member differ
    obtain ⟨⟨other, -, rfl⟩, -, isDocument⟩ := Disk.mem_documents.mp member
    exact changed.file?_document isDocument fun same => differ (congrArg folder.child same)
  refine ⟨?_, file.trans outlasts.file, ⟨fun path => keep path && decide (path ≠ folder.child name), ?_⟩, ?_⟩
  · rw [Disk.isSome_fileNames?, changed.isFolder, ← Disk.isSome_fileNames?]
    exact outlasts.listed
  · calc (after.documents settings folder).filter (after.isOld time)
        = ((after.documents settings folder).filter (· ≠ folder.child name)).filter (before.isOld time) := by
          rw [List.filter_filter]
          refine List.filter_congr fun path member => ?_
          by_cases same : path = folder.child name
          · simpa [same] using notOld
          · simp [same, Disk.isOld_congr (others path member same)]
      _ = ((before.documents settings folder).filter (before.isOld time)).filter (· ≠ folder.child name) := by
          rw [changed.documents, List.filter_filter, List.filter_filter]
          exact List.filter_congr fun path _ => Bool.and_comm ..
      _ = (first.documents settings folder).filter fun path => keep path && decide (path ≠ folder.child name) := by
          rw [kept, List.filter_filter]
          exact List.filter_congr fun path _ => Bool.and_comm ..
  · intro path member isOld
    have differ : path ≠ folder.child name := fun same => notOld (same ▸ isOld)
    have same := others path member differ
    have wasThere : path ∈ (before.documents settings folder).filter (· ≠ folder.child name) :=
      changed.documents ▸ List.mem_filter.mpr ⟨member, by simpa using differ⟩
    refine same.trans (outlasts.unchanged path (List.mem_filter.mp wasThere).1 ?_)
    rwa [← Disk.isOld_congr same]

theorem change (outlasts : Outlasts settings folder time first before)
    (noDocument : ¬settings.isDocument (settings.indexPath folder))
    {indexName : String} (named : (settings.indexPath folder).fileName? = some indexName)
    (change : Change settings folder time before after) : Outlasts settings folder time first after := by
  cases change with
  | removed name isDocument isFile result =>
    obtain ⟨step, names, leads, noFolder⟩ := Disk.location?_of_document isDocument isFile
    obtain ⟨gone, -, changed⟩ := Disk.remove_ok leads noFolder
    rw [← result] at gone changed
    refine outlasts.fileChanged changed ?_ (changed.file?_of_not_document isDocument step named noDocument)
    simp [Disk.isOld, Disk.modified?_eq, gone]
  | written name content modified isDocument later stored =>
    obtain ⟨held, -, names, own, -, last, -, -, changed⟩ := Disk.store?_ok stored
    have step : Path.stepOf? name = some (.into own) := by simpa [Path.parts_child] using last
    obtain rfl := Path.eq_of_stepOf? step
    refine outlasts.fileChanged changed ?_ (changed.file?_of_not_document isDocument step named noDocument)
    simpa [Disk.isOld, Disk.modified?_eq, held] using later
  | elsewhere documents file =>
    have old : ∀ path ∈ before.documents settings folder, after.isOld time path = before.isOld time path :=
      fun path member => Disk.isOld_congr (documents.files path member) time
    refine ⟨documents.listed ▸ outlasts.listed, file.trans outlasts.file, ?_, fun path member isOld => ?_⟩
    · obtain ⟨keep, kept⟩ := outlasts.kept
      exact ⟨keep, by rw [documents.documents, List.filter_congr old, kept]⟩
    · rw [documents.documents] at member
      exact (documents.files path member).trans (outlasts.unchanged path member (old path member ▸ isOld))

end Outlasts

theorem recordsAt_congr {first second : Disk} {path : Path} (same : second.file? path = first.file? path) :
    recordsAt second settings path = recordsAt first settings path := by
  rw [recordsAt, recordsAt, Disk.parse_congr same]

theorem flatMap_filter {α β : Type} {keep : α → Bool} {keepGiven : β → Bool} {give : α → List β}
    {items : List α} (agree : ∀ item ∈ items, ∀ given ∈ give item, keepGiven given = keep item) :
    (items.filter keep).flatMap give = (items.flatMap give).filter keepGiven := by
  induction items with
  | nil => rfl
  | cons item rest ih =>
    have behind := ih fun other member => agree other (by simp [member])
    have here := agree item (by simp)
    by_cases kept : keep item
    · have all : (give item).filter keepGiven = give item :=
        List.filter_eq_self.mpr fun given member => (here given member).trans kept
      rw [List.filter_cons_of_pos kept, List.flatMap_cons, List.flatMap_cons, List.filter_append, all, behind]
    · have none : (give item).filter keepGiven = [] :=
        List.filter_eq_nil_iff.mpr fun given member => by rwa [here given member]
      rw [List.filter_cons_of_neg kept, List.flatMap_cons, List.filter_append, none, behind, List.nil_append]

/-- A record's file is among the documents that are left exactly if the record's document is left. -/
theorem any_fileName?_of_mem_recordsAt {first current : Disk} {keep : Path → Bool}
    (parse : ∀ path ∈ first.documents settings folder, Parses first path)
    (left : current.documents settings folder = (first.documents settings folder).filter keep) {path : Path}
    (member : path ∈ first.documents settings folder) {record : Record}
    (given : record ∈ recordsAt first settings path) :
    ((current.documents settings folder).any fun document => document.fileName? == some record.file) =
      keep path := by
  obtain ⟨name, named, -⟩ := Settings.isDocument_iff.mp (Disk.mem_documents.mp member).2.2
  have file : some record.file = path.fileName? := by rw [(mem_recordsAt given).2, named, Option.getD_some]
  rw [Bool.eq_iff_iff, List.any_eq_true, left]
  constructor
  · rintro ⟨document, isLeft, same⟩
    have ⟨wasThere, kept⟩ := List.mem_filter.mp isLeft
    rw [beq_iff_eq, file] at same
    rwa [← Disk.eq_of_fileName? wasThere member (isSome_file?_of_parses (parse document wasThere))
      (isSome_file?_of_parses (parse path member)) same]
  · intro kept
    exact ⟨path, List.mem_filter.mpr ⟨member, kept⟩, by rw [file, beq_self_eq_true]⟩

/-- Without documents that give none of its records an index is built as before. -/
theorem build_of_filter {first current : Disk} {built : FolderIndex} {keep : Path → Bool}
    (isBuilt : build first settings folder = .ok built) (listed : (current.fileNames? folder).isSome)
    (left : current.documents settings folder = (first.documents settings folder).filter keep)
    (unchanged : ∀ path ∈ current.documents settings folder, current.file? path = first.file? path)
    (present : ∀ record ∈ built.records, ∃ document ∈ current.documents settings folder,
      document.fileName? = some record.file) : build current settings folder = .ok built := by
  obtain ⟨-, parse, rfl⟩ := build_ok.mp isBuilt
  have wasThere : ∀ path ∈ current.documents settings folder, path ∈ first.documents settings folder := by
    rw [left]
    exact fun path member => (List.mem_filter.mp member).1
  refine build_ok.mpr ⟨listed, fun path member => ?_, ?_⟩
  · obtain ⟨document, parsed⟩ := parse path (wasThere path member)
    exact ⟨document, (Disk.parse_congr (unchanged path member) _).trans parsed⟩
  · have agree : ∀ path ∈ sortedBy Path.before (first.documents settings folder),
        ∀ record ∈ recordsAt first settings path,
        ((current.documents settings folder).any fun document => document.fileName? == some record.file) =
          keep path :=
      fun path member record given => any_fileName?_of_mem_recordsAt parse left (mem_sortedBy.mp member) given
    have given : (sortedBy Path.before (current.documents settings folder)).flatMap (recordsAt current settings) =
        ((sortedBy Path.before (first.documents settings folder)).flatMap (recordsAt first settings)).filter
          fun record => (current.documents settings folder).any fun document =>
            document.fileName? == some record.file := by
      rw [← flatMap_filter agree, filter_sortedBy Path.before_iff, ← left]
      exact List.flatMap_congr fun path member => recordsAt_congr (unchanged path (mem_sortedBy.mp member))
    rw [given]
    refine (foldl_insert_filter fun record member => ?_).symm
    obtain ⟨document, isLeft, named⟩ := present record member
    exact List.any_eq_true.mpr ⟨document, isLeft, beq_iff_eq.mpr named⟩

/-- An index file that is still current after the changes gives what a build gives. -/
theorem Outlasts.build_of_cached? {first current : Disk} {built index : FolderIndex}
    (outlasts : Outlasts settings folder time first current) (isBuilt : build first settings folder = .ok built)
    (fit : ∀ path ∈ first.documents settings folder, ∀ name ∈ path.fileName?, Record.fitsField name)
    (held : first.file? (settings.indexPath folder) = some (.text built.text, time))
    (isCached : cached? current settings folder (settings.indexPath folder) = some index) :
    build current settings folder = .ok index := by
  obtain ⟨isRead, current'⟩ := cached?_some.mp isCached
  obtain ⟨written, isWritten, listed, old, present⟩ := isCurrent_iff.mp current'
  have heldStill := outlasts.file.trans held
  rw [Disk.modified?_eq, heldStill] at isWritten
  obtain rfl : time = written := Option.some.inj isWritten
  have ownFolder := folder_of_read isRead
  rw [ownFolder] at listed old present
  have records : index.records = built.records := by
    rw [records_of_cached? isBuilt heldStill isCached]
    refine List.filter_eq_self.mpr fun record member => ?_
    obtain ⟨path, isDocument, given⟩ := mem_records_of_build isBuilt member
    obtain ⟨name, named, -⟩ := Settings.isDocument_iff.mp (Disk.mem_documents.mp isDocument).2.2
    rw [(mem_recordsAt given).2, named]
    exact fit path isDocument name named
  have same : index = built := by
    obtain ⟨-, -, rfl⟩ := build_ok.mp isBuilt
    exact ext_records (by simpa [empty] using ownFolder) records
  subst same
  obtain ⟨keep, kept⟩ := outlasts.kept
  have left : current.documents settings folder = (first.documents settings folder).filter keep :=
    kept ▸ (List.filter_eq_self.mpr old).symm
  exact build_of_filter isBuilt listed left (fun path member => outlasts.unchanged path member (old path member))
    present

theorem outcome_load_of_stale {disk : Disk}
    (stale : cached? disk settings folder (settings.indexPath folder) = none) :
    outcome (load settings folder disk) = build disk settings folder := by
  rw [Settings.indexPath] at stale
  unfold load
  dsimp only
  rw [stale]
  dsimp only
  split
  next isBuilt => exact isBuilt.symm
  next failed => exact failed.symm

/-- When a folder's index was built and written to its file, and since then documents were only
removed or written later than that file, then loading gives exactly what a build gives, the same
records in the same order or the same failure. -/
theorem outcome_load_after_changes {start first current : Disk} {built : FolderIndex}
    (noDocument : ¬settings.isDocument (settings.indexPath folder))
    (fit : ∀ path ∈ start.documents settings folder, ∀ name ∈ path.fileName?, Record.fitsField name)
    (stale : cached? start settings folder (settings.indexPath folder) = none)
    (ran : load settings folder start = .ok built first)
    (written : start.write? (settings.indexPath folder) built.text = some first)
    (changes : Relation.ReflTransGen (Change settings folder start.now) first current) :
    outcome (load settings folder current) = build current settings folder := by
  obtain ⟨isCached, -⟩ | ⟨-, isBuilt, -⟩ := load_ok.mp ran
  · cases stale.symm.trans isCached
  have same := Disk.sameDocuments_of_store? noDocument written folder
  obtain ⟨held, -, _, _, -, last, -⟩ := Disk.store?_ok written
  have outlasts : Outlasts settings folder start.now first current := by
    induction changes with
    | refl => exact .refl (same.listed ▸ (build_ok.mp isBuilt).1)
    | tail _ change ih => exact ih.change noDocument (Path.fileName?_of_last last) change
  cases isCached : cached? current settings folder (settings.indexPath folder) with
  | some index =>
    rw [load_ok.mpr (.inl ⟨isCached, rfl⟩), outcome]
    exact (outlasts.build_of_cached? ((build_congr same).trans isBuilt) (same.documents ▸ fit) held isCached).symm
  | none => exact outcome_load_of_stale isCached

def twinFolder : Disk where
  root := .folder "" [.file "a.reqm" (.text "class Same;") 1, .file "b.reqm" (.text "class Same;") 1]
  now := 5

/-- After the second document is removed, the index file is still current and gives what a build
gives. -/
theorem outcome_load_twinFolder :
    ∃ built first, load {} ⟨["."]⟩ twinFolder = .ok built first ∧
      (cached? (first.remove ⟨[".", "b.reqm"]⟩) {} ⟨["."]⟩ (Settings.indexPath {} ⟨["."]⟩)).isSome ∧
      outcome (load {} ⟨["."]⟩ (first.remove ⟨[".", "b.reqm"]⟩)) =
        build (first.remove ⟨[".", "b.reqm"]⟩) {} ⟨["."]⟩ := by
  have ends : ends (fun built first =>
      (twinFolder.write? (Settings.indexPath {} ⟨["."]⟩) built.text).isSome &&
        first.isFile ⟨[".", "b.reqm"]⟩ &&
        (cached? (first.remove ⟨[".", "b.reqm"]⟩) {} ⟨["."]⟩ (Settings.indexPath {} ⟨["."]⟩)).isSome)
      (load {} ⟨["."]⟩ twinFolder) := by
    decide +kernel
  obtain ⟨built, first, ran, meets⟩ := ok_of_ends ends
  simp only [Bool.and_eq_true] at meets
  obtain ⟨⟨isWritten, isFile⟩, isCurrent⟩ := meets
  refine ⟨built, first, ran, isCurrent, ?_⟩
  have stale : cached? twinFolder {} ⟨["."]⟩ (Settings.indexPath {} ⟨["."]⟩) = none := by decide +kernel
  obtain ⟨written, wrote⟩ := Option.isSome_iff_exists.mp isWritten
  obtain ⟨isCached, -⟩ | ⟨-, -, rfl⟩ := load_ok.mp ran
  · cases stale.symm.trans isCached
  rw [wrote, Option.getD_some] at ran isFile ⊢
  exact outcome_load_after_changes (by decide) (by decide +kernel) stale ran wrote
    (.single (.removed "b.reqm" (by decide) isFile rfl))

end FolderIndex
end Requirements
