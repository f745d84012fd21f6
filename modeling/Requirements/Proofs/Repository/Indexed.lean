import Requirements.Proofs.Repository.Declared
import Requirements.Proofs.Resolution.Growth

/-! Loading folders one after another. Each load writes at most the index file of its folder. If
that is neither the index file nor a document of another folder, the others are loaded as if each
were the first. -/
namespace Requirements

namespace Disk

variable {settings : Settings} {written : List String → Prop} {start middle final : Disk} {folder : Path}
  {place : List String}

/-- The disks differ at most in the files at these places, where there was none before. -/
structure Indexed (written : List String → Prop) (start final : Disk) : Prop where
  fresh : ∀ names, written names → (start.root.at? names).bind Entry.file? = none
  folders : ∀ other, (final.root.at? other).any Entry.isFolder = (start.root.at? other).any Entry.isFolder
  files : ∀ other, ¬written other →
    (final.root.at? other).bind Entry.file? = (start.root.at? other).bind Entry.file?
  listings : ∀ other (keep : String → Bool), (∀ name, written (other ++ [name]) → keep name = false) →
    ((final.root.at? other).bind Entry.fileNames?).map (·.filter keep) =
      ((start.root.at? other).bind Entry.fileNames?).map (·.filter keep)
  entries : ∀ other, (∀ names, written names → ¬other <+: names ∧ ¬names <+: other) →
    final.root.at? other = start.root.at? other

/-- Where a folder's index file may be written: its path leads there and to no folder. -/
def IndexAt (settings : Settings) (disk : Disk) (folder : Path) (names : List String) : Prop :=
  disk.location? (settings.indexPath folder) = some (.within names) ∧ ¬(disk.root.at? names).any Entry.isFolder

/-- What is written at these places is neither a document nor the index file of the folder. -/
structure Spared (settings : Settings) (written : List String → Prop) (disk : Disk) (folder : Path) : Prop where
  documents : ∀ place name, disk.location? folder = some (.within place) → written (place ++ [name]) →
    ¬settings.isDocument (folder.child name)
  index : ∀ names, written names → ¬IndexAt settings disk folder names

theorem Spared.or {more : List String → Prop} (spared : Spared settings written start folder)
    (sparedToo : Spared settings more start folder) :
    Spared settings (fun names => written names ∨ more names) start folder where
  documents place name leads isWritten :=
    isWritten.elim (spared.documents place name leads) (sparedToo.documents place name leads)
  index names isWritten := isWritten.elim (spared.index names) (sparedToo.index names)

namespace Indexed

theorem refl (disk : Disk) : Indexed (fun _ => False) disk disk :=
  ⟨fun _ => False.elim, fun _ => rfl, fun _ _ => rfl, fun _ _ _ => rfl, fun _ _ => rfl⟩

/-- More places may count as written, as long as there was no file. -/
theorem mono (indexed : Indexed written start final) {more : List String → Prop}
    (included : ∀ names, written names → more names)
    (fresh : ∀ names, more names → (start.root.at? names).bind Entry.file? = none) : Indexed more start final where
  fresh := fresh
  folders := indexed.folders
  files other unwritten := indexed.files other fun old => unwritten (included other old)
  listings other keep dropped := indexed.listings other keep fun name old => dropped name (included _ old)
  entries other apart := indexed.entries other fun names old => apart names (included names old)

theorem fileChanged (indexed : Indexed written start middle) {name : String}
    (changed : FileChanged middle final place name)
    (fresh : (start.root.at? (place ++ [name])).bind Entry.file? = none) :
    Indexed (fun names => written names ∨ names = place ++ [name]) start final where
  fresh names := by
    rintro (old | rfl)
    · exact indexed.fresh names old
    · exact fresh
  folders other := (changed.folders other).trans (indexed.folders other)
  files other unwritten :=
    (changed.files other fun same => unwritten (.inr same)).trans
      (indexed.files other fun old => unwritten (.inl old))
  listings other keep dropped := by
    refine Eq.trans ?_ (indexed.listings other keep fun name old => dropped name (.inl old))
    by_cases here : other = place
    · subst here
      have anyway (names : List String) : names.filter keep = (names.filter (· != name)).filter keep := by
        rw [List.filter_filter]
        refine List.filter_congr fun listed _ => ?_
        by_cases same : listed = name
        · simp [same, dropped name (.inr rfl)]
        · simp [same]
      have both := congrArg (Option.map (List.filter keep)) changed.listing
      simpa only [Option.map_map, Function.comp_def, ← anyway] using both
    · rw [changed.listings other here]
  entries other apart := by
    have ⟨notAbove, notBelow⟩ := apart (place ++ [name]) (.inr rfl)
    refine (changed.entries other (fun above => notAbove (above.trans (List.prefix_append ..))) notBelow).trans ?_
    exact indexed.entries other fun names old => apart names (.inl old)

theorem location? (indexed : Indexed written start final) (path : Path) :
    final.location? path = start.location? path := by
  rw [Disk.location?, Disk.location?, follow_congr indexed.folders]

/-- A file stays as it was. -/
theorem file? (indexed : Indexed written start final) {path : Path} (isFile : (start.file? path).isSome) :
    final.file? path = start.file? path := by
  rw [Disk.file?, entry?] at isFile ⊢
  rw [Disk.file?, entry?, indexed.location?]
  cases leads : start.location? path with
  | none => rfl
  | some location =>
    cases location with
    | above => rfl
    | within names =>
      rw [leads] at isFile
      refine indexed.files names fun isWritten => ?_
      simp [indexed.fresh names isWritten] at isFile

/-- A folder has the documents that it had if no written file is one of them. -/
theorem documents (indexed : Indexed written start final) (spared : Spared settings written start folder)
    (leads : start.location? folder = some (.within place)) :
    final.documents settings folder = start.documents settings folder := by
  let keep := fun name => (folder.child name).isUsable && settings.isDocument (folder.child name)
  have listed (disk : Disk) (same : disk.location? folder = start.location? folder) :
      disk.documents settings folder =
        ((((disk.root.at? place).bind Entry.fileNames?).map (·.filter keep)).getD []).map folder.child := by
    rw [Disk.documents, Disk.fileNames?, entry?, same, leads, List.filter_map]
    dsimp only
    cases (disk.root.at? place).bind Entry.fileNames? <;> rfl
  have dropped : ∀ name, written (place ++ [name]) → keep name = false := by
    intro name isWritten
    simp [keep, spared.documents place name leads isWritten]
  rw [listed start rfl, listed final (indexed.location? folder), indexed.listings place keep dropped]

end Indexed
end Disk

namespace FolderIndex

variable {settings : Settings} {written : List String → Prop} {start disk : Disk} {folder : Path}
  {place : List String}

structure Ready (settings : Settings) (start : Disk) (folder : Path) (place : List String) : Prop where
  leads : start.location? folder = some (.within place)
  isFolder : (start.root.at? place).any Entry.isFolder
  documents : ∀ path ∈ start.documents settings folder, ∃ name, IsProper name ∧ folder.child name = path ∧
    Parses start path
  index : ∀ names, Disk.IndexAt settings start folder names → (start.root.at? names).bind Entry.file? = none

namespace Ready

theorem listed (ready : Ready settings start folder place) : (start.fileNames? folder).isSome := by
  rw [Disk.isSome_fileNames?, Disk.isFolder, Disk.entry?, ready.leads]
  exact ready.isFolder

theorem parses (ready : Ready settings start folder place) {path : Path}
    (member : path ∈ start.documents settings folder) : Parses start path := by
  obtain ⟨_, -, -, parses⟩ := ready.documents path member
  exact parses

theorem build (ready : Ready settings start folder place) :
    build start settings folder = .ok (ofDocuments start settings folder) :=
  build_ok.mpr ⟨ready.listed, fun _ => ready.parses, rfl⟩

/-- What else was loaded before does not matter for the folder. -/
theorem sameDocuments (ready : Ready settings start folder place) (indexed : Disk.Indexed written start disk)
    (spared : Disk.Spared settings written start folder) : Disk.SameDocuments settings folder start disk where
  listed := by
    rw [Disk.isSome_fileNames?, Disk.isSome_fileNames?, Disk.isFolder, Disk.isFolder, Disk.entry?, Disk.entry?,
      indexed.location?, ready.leads]
    exact indexed.folders place
  documents := indexed.documents spared ready.leads
  files path member := indexed.file? (isSome_file?_of_parses (ready.parses member))

theorem cached?_none (ready : Ready settings start folder place) (indexed : Disk.Indexed written start disk)
    (spared : Disk.Spared settings written start folder) :
    cached? disk settings folder (settings.indexPath folder) = none := by
  have absent : disk.file? (settings.indexPath folder) = none := by
    rw [Disk.file?, Disk.entry?, indexed.location?]
    cases leads : start.location? (settings.indexPath folder) with
    | none => rfl
    | some location =>
      cases location with
      | above => rfl
      | within names =>
        dsimp only
        by_cases isFolder : (start.root.at? names).any Entry.isFolder
        · rw [← indexed.folders] at isFolder
          cases found : disk.root.at? names with
          | none => rfl
          | some entry => cases entry <;> simp_all [Entry.isFolder, Entry.file?]
        · have indexAt : Disk.IndexAt settings start folder names := ⟨leads, isFolder⟩
          rw [indexed.files names fun isWritten => spared.index names isWritten indexAt]
          exact ready.index names indexAt
  rw [cached?, read, Disk.read, Disk.read?_eq, absent]
  rfl

theorem load (ready : Ready settings start folder place) (indexed : Disk.Indexed written start disk)
    (spared : Disk.Spared settings written start folder) :
    ∃ final, load settings folder disk = .ok (ofDocuments start settings folder) final ∧
      Disk.Indexed (fun names => written names ∨ Disk.IndexAt settings start folder names) start final := by
  have built := (build_congr (ready.sameDocuments indexed spared)).trans ready.build
  have fresh : ∀ names, written names ∨ Disk.IndexAt settings start folder names →
      (start.root.at? names).bind Entry.file? = none :=
    fun names isWritten => isWritten.elim (indexed.fresh names) (ready.index names)
  refine ⟨_, load_ok.mpr (.inr ⟨ready.cached?_none indexed spared, built, rfl⟩), ?_⟩
  cases stored : disk.write? (settings.indexPath folder) (ofDocuments start settings folder).text with
  | none => exact indexed.mono (fun _ => .inl) fresh
  | some final =>
    obtain ⟨-, -, names, name, leads, -, -, noFolder, changed⟩ := Disk.store?_ok stored
    rw [indexed.location?] at leads
    rw [indexed.folders] at noFolder
    have indexAt : Disk.IndexAt settings start folder (names ++ [name]) := ⟨leads, noFolder⟩
    refine (indexed.fileChanged changed (ready.index _ indexAt)).mono ?_ fresh
    rintro other (old | rfl)
    · exact .inl old
    · exact .inr indexAt

end Ready

/-- Folders none of which has its index file in the way of a later one are all loaded, and only
their index files are written. -/
theorem loadFolders_of_ready {folders : List Path}
    (ready : ∀ folder ∈ folders, ∃ place, Ready settings start folder place)
    (apart : folders.Pairwise fun a b => Disk.Spared settings (Disk.IndexAt settings start a) start b)
    (indexed : Disk.Indexed written start disk)
    (spared : ∀ folder ∈ folders, Disk.Spared settings written start folder) :
    ∃ final, Repository.loadFolders settings folders disk = .ok (folders.map (ofDocuments start settings)) final ∧
      Disk.Indexed (fun names => written names ∨ ∃ folder ∈ folders, Disk.IndexAt settings start folder names)
        start final := by
  induction folders generalizing disk written with
  | nil => exact ⟨disk, rfl, by simpa using indexed⟩
  | cons first rest ih =>
    have ⟨sparedByFirst, behind⟩ := List.pairwise_cons.mp apart
    obtain ⟨place, isReady⟩ := ready first (by simp)
    obtain ⟨middle, loaded, indexed⟩ := isReady.load indexed (spared first (by simp))
    obtain ⟨final, restLoaded, indexed⟩ := ih (fun folder member => ready folder (by simp [member])) behind indexed
      fun folder member => (spared folder (by simp [member])).or (sparedByFirst folder member)
    refine ⟨final, bind_ok.mpr ⟨_, middle, loaded, bind_ok.mpr ⟨_, final, restLoaded, rfl⟩⟩, ?_⟩
    simpa [or_assoc] using indexed

end FolderIndex
end Requirements
