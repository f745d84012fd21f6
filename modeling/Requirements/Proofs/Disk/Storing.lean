import Requirements.Proofs.Disk.Folders

/-! What storing a file does to what is found on a disk. Names stay distinct and can stand in paths,
and of the folders and documents that were found before none is lost. -/
namespace Requirements

theorem Path.parts_ofText_ne_nil (text : String) : (ofText text).parts ≠ [] := by
  simpa [ofText, pieces] using splitAtEach_ne_nil '/' text.toList

theorem Path.slashless_ofText {text part : String} (member : part ∈ (ofText text).parts) : '/' ∉ part.toList := by
  obtain ⟨piece, isPiece, rfl⟩ := List.mem_map.mp member
  rw [String.toList_ofList]
  exact (subset_of_mem_splitAtEach isPiece).2

theorem Path.mem_parts_join {base path : Path} {part : String} (member : part ∈ (base.join path).parts) :
    part ∈ base.parts ∨ part ∈ path.parts := by
  rw [join] at member
  split at member
  · exact .inr member
  · split at member
    · exact (List.mem_append.mp member).imp_left List.mem_of_mem_dropLast
    · exact List.mem_append.mp member

theorem Path.getLast?_join (base : Path) {path : Path} (written : path.parts ≠ []) :
    (base.join path).parts.getLast? = path.parts.getLast? := by
  rw [join]
  split
  · rfl
  · split
    all_goals exact List.getLast?_append_of_ne_nil _ written

theorem Path.parts_join_ne_nil (base : Path) {path : Path} (written : path.parts ≠ []) :
    (base.join path).parts ≠ [] := by
  intro none
  have last := getLast?_join base written
  rw [none, List.getLast?_nil, eq_comm, List.getLast?_eq_none_iff] at last
  exact written last

/-- The last part of a path that is made with a text has no slash. -/
theorem Path.not_mem_getLast?_join {folder : Path} {text part : String}
    (last : (folder.join (.ofText text)).parts.getLast? = some part) : '/' ∉ part.toList := by
  rw [getLast?_join folder (parts_ofText_ne_nil text)] at last
  exact slashless_ofText (List.mem_of_getLast? last)

namespace Entry

theorem isSome_bind_file? (entry : Option Entry) :
    (entry.bind file?).isSome = entry.any fun found => !found.isFolder := by
  cases entry with
  | none => rfl
  | some entry => cases entry <;> rfl

theorem mem_put {entry held : Entry} {entries : List Entry} (member : held ∈ put entry entries) :
    held = entry ∨ held ∈ entries := by
  rw [put] at member
  split at member
  · obtain ⟨old, isOld, rfl⟩ := List.mem_map.mp member
    split
    · exact .inl rfl
    · exact .inr isOld
  · exact (List.mem_append.mp member).symm.imp_left List.mem_singleton.mp

theorem names_put (entry : Entry) (entries : List Entry) : (put entry entries).map name =
    if entries.any (·.name == entry.name) then entries.map name else entries.map name ++ [entry.name] := by
  rw [put]
  split
  · rw [List.map_map]
    refine List.map_congr_left fun old _ => ?_
    rw [Function.comp_apply]
    split
    next same => exact same.symm
    next => rfl
  · exact List.map_append

theorem Sound.put {own : String} {entries : List Entry} (sound : Sound (folder own entries)) {entry : Entry}
    (isProper : IsProper entry.name) (soundToo : entry.Sound) : Sound (folder own (put entry entries)) := by
  have ⟨distinct, proper⟩ := sound [] own entries rfl
  apply sound_folder
  · rw [names_put]
    split
    next => exact distinct
    next absent =>
      have fresh : entry.name ∉ entries.map Entry.name := by simpa using absent
      refine List.nodup_append.mpr ⟨distinct, by simp, fun old isOld new isNew => ?_⟩
      obtain rfl := List.mem_singleton.mp isNew
      rintro rfl
      exact fresh isOld
  · intro held member
    rcases mem_put member with rfl | old
    · exact isProper
    · exact proper held old
  · intro held member
    rcases mem_put member with rfl | old
    · exact soundToo
    · exact (sound.held old).2

/-- What is sound stays so when something sound is put into one of its folders. -/
theorem Sound.alter_put {root entry : Entry} (sound : root.Sound) (isProper : IsProper entry.name)
    (soundToo : entry.Sound) (names : List String) : (root.alter (Entry.put entry) names).Sound := by
  induction names generalizing root with
  | nil =>
    cases root with
    | file => exact sound_file _ _ _
    | folder own entries => exact sound.put isProper soundToo
  | cons first rest ih =>
    cases root with
    | file => exact sound_file _ _ _
    | folder own entries =>
      have ⟨distinct, proper⟩ := sound [] own entries rfl
      rw [alter]
      have sameNames : (entries.map fun old => if old.name = first then
          alter (Entry.put entry) rest old else old).map Entry.name = entries.map Entry.name := by
        rw [List.map_map]
        refine List.map_congr_left fun old _ => ?_
        rw [Function.comp_apply]
        split
        · exact name_alter rest old
        · rfl
      apply sound_folder
      · rwa [sameNames]
      · intro held member
        have isName : held.name ∈ entries.map Entry.name := sameNames ▸ List.mem_map_of_mem member
        obtain ⟨old, isOld, same⟩ := List.mem_map.mp isName
        exact same ▸ proper old isOld
      · intro held member
        obtain ⟨old, isOld, rfl⟩ := List.mem_map.mp member
        split
        · exact ih (sound.held isOld).2
        · exact (sound.held isOld).2

end Entry

namespace Disk

variable {settings : Settings} {start final : Disk}

/-- Making folders whose names have no slashes keeps a disk sound, also when not all can be made. -/
theorem sound_makeFolders {root : Entry} (sound : root.Sound) {parts : List String}
    (slashless : ∀ part ∈ parts, '/' ∉ part.toList) (location : Location) :
    (makeFolders root location parts).1.Sound := by
  induction parts generalizing root location with
  | nil => simpa [makeFolders] using sound
  | cons part rest ih =>
    have slashlessBehind : ∀ other ∈ rest, '/' ∉ other.toList := fun other member => slashless other (by simp [member])
    cases location with
    | above =>
      rw [makeFolders]
      split
      next => exact sound
      next => exact ih sound slashlessBehind _
    | within names =>
      rw [makeFolders]
      split
      next name step =>
        obtain rfl := Path.eq_of_stepOf? step
        have isProper : IsProper (Entry.folder part []).name := ⟨step, slashless part (by simp)⟩
        have soundNew : (Entry.folder part []).Sound := Entry.sound_folder (by simp) (by simp) (by simp)
        split
        next => exact ih sound slashlessBehind _
        next => exact sound
        next =>
          split
          next => exact ih (sound.alter_put isProper soundNew names) slashlessBehind _
          next => exact sound
      next => exact ih sound slashlessBehind _
      next => exact ih sound slashlessBehind _

theorem sound_makeFolder {disk : Disk} (sound : disk.root.Sound) {path : Path}
    (slashless : ∀ part ∈ path.parts, '/' ∉ part.toList) : (disk.makeFolder path).1.root.Sound := by
  rw [makeFolder]
  split
  next => exact sound_makeFolders sound slashless _
  next => exact sound

structure Stored (start final : Disk) (names : List String) (name : String) : Prop where
  changed : FileChanged start final names name
  isFile : (final.root.at? (names ++ [name])).any fun found => !found.isFolder
  sound : start.root.Sound → final.root.Sound

theorem stored_of_store? {path : Path} {content : Content} {modified : Nat}
    (stored : start.store? path content modified = some final)
    (noSlash : ∀ part, path.parts.getLast? = some part → '/' ∉ part.toList) :
    ∃ names name, start.location? path = some (.within (names ++ [name])) ∧
      path.parts.getLast?.bind Path.stepOf? = some (.into name) ∧ Stored start final names name := by
  obtain ⟨held, -, names, name, leads, last, -, -, changed⟩ := store?_ok stored
  obtain ⟨part, isLast, step⟩ := Option.bind_eq_some_iff.mp last
  obtain rfl := Path.eq_of_stepOf? step
  refine ⟨names, part, leads, last, changed, ?_, fun sound => ?_⟩
  · rw [← Entry.isSome_bind_file?]
    rw [Disk.file?, entry?, changed.location?, leads] at held
    exact Option.isSome_of_eq_some held
  · obtain ⟨⟨place, own⟩, placed, isFinal⟩ := Option.bind_eq_some_iff.mp stored
    obtain ⟨-, lastToo, -⟩ := place?_some placed
    obtain rfl : part = own := by simpa [last] using lastToo
    dsimp only at isFinal
    split at isFinal
    · cases isFinal
    · obtain rfl := Option.some.inj isFinal
      have isProper : IsProper (Entry.file part content modified).name := ⟨step, noSlash part isLast⟩
      exact sound.alter_put isProper (Entry.sound_file part content modified) place

namespace Stored

variable {names : List String} {name : String}

theorem any_file (stored : Stored start final names name) (other : List String) :
    ((final.root.at? other).any fun found => !found.isFolder) ↔
      ((start.root.at? other).any fun found => !found.isFolder) ∨ other = names ++ [name] := by
  by_cases here : other = names ++ [name]
  · subst here
    exact iff_of_true stored.isFile (.inr rfl)
  · rw [← Entry.isSome_bind_file?, ← Entry.isSome_bind_file?, stored.changed.files other here]
    exact (or_iff_left here).symm

theorem rooted (stored : Stored start final names name) {root : Path} {place : List String}
    (rooted : Rooted start root place) : Rooted final root place :=
  ⟨rooted.written, (stored.changed.location? root).trans rooted.leads⟩

/-- A walk meets what it met, and the new file if that is on its way. -/
theorem mem_visits (stored : Stored start final names name) (sound : start.root.Sound) {root : Path}
    {place : List String} (rooted : Rooted start root place) {other : List String} :
    .file other ∈ final.visits root ↔ .file other ∈ start.visits root ∨ place ++ other = names ++ [name] ∧
      ∀ front back, other = front ++ back → back ≠ [] → (root.descend front).isUsable := by
  rw [(stored.rooted rooted).mem_visits (stored.sound sound), rooted.mem_visits sound, stored.any_file,
    or_and_right]

/-- Where a root is a file, a walk meets that and nothing else. -/
theorem visits_of_file {disk : Disk} {root : Path} (isFile : disk.isFile root) : disk.visits root = [.file []] := by
  rw [Disk.isFile] at isFile
  rw [visits]
  cases found : disk.entry? root with
  | none => simp [found] at isFile
  | some entry =>
    cases entry with
    | folder => simp [found, Entry.isFolder] at isFile
    | file => rfl

theorem isFile_root (stored : Stored start final names name) {root : Path} (isFile : start.isFile root) :
    final.isFile root := by
  rw [Disk.isFile, entry?] at isFile ⊢
  rw [stored.changed.location?]
  cases leads : start.location? root with
  | none => simp [leads] at isFile
  | some location =>
    cases location with
    | above => simp [leads, Entry.isFolder] at isFile
    | within place =>
      rw [leads] at isFile
      exact (stored.any_file place).mpr (.inl isFile)

/-- A root that something lies below does not become a file. -/
theorem not_isFile_root (stored : Stored start final names name) (sound : start.root.Sound) {root : Path}
    {place inner : List String} {last : String} (rooted : Rooted start root place)
    (visited : .file (inner ++ [last]) ∈ start.visits root) : ¬final.isFile root := by
  rw [Disk.isFile, entry?, (stored.rooted rooted).leads]
  intro isFileNow
  have below := ((rooted.mem_visits sound).mp visited).1
  have isFolder : (start.root.at? place).any Entry.isFolder := by
    by_contra notFolder
    obtain ⟨first, rest, split⟩ : ∃ first rest, inner ++ [last] = first :: rest := by
      cases inner <;> simp
    rw [split, Entry.at?_of_not_folder notFolder] at below
    cases below
  rw [← stored.changed.folders] at isFolder
  cases entry : final.root.at? place with
  | none => simp [entry] at isFolder
  | some there => simp_all

/-- No folder of a repository is lost. -/
theorem repositoryFolders_subset (stored : Stored start final names name) (sound : start.root.Sound) {root : Path}
    (written : root.parts ≠ []) {folder : Path} (found : folder ∈ start.repositoryFolders settings root) :
    folder ∈ final.repositoryFolders settings root := by
  by_cases isFile : start.isFile root
  · rw [repositoryFolders, visits_of_file (stored.isFile_root isFile)]
    rwa [repositoryFolders, visits_of_file isFile] at found
  · by_cases onDisk : ∃ place, start.location? root = some (.within place)
    · obtain ⟨place, leads⟩ := onDisk
      have rooted : Rooted start root place := ⟨written, leads⟩
      obtain ⟨inner, last, visited, held, rfl⟩ := (mem_repositoryFolders rooted sound isFile).mp found
      have stillNone := stored.not_isFile_root sound rooted visited
      exact (mem_repositoryFolders (stored.rooted rooted) (stored.sound sound) stillNone).mpr
        ⟨inner, last, (stored.mem_visits sound rooted).mpr (.inl visited), held, rfl⟩
    · rw [repositoryFolders_of_not_within fun place leads => onDisk ⟨place, leads⟩] at found
      cases found

/-- The file that was put into a folder is on its list. -/
theorem mem_fileNames (stored : Stored start final names name) :
    name ∈ ((final.root.at? names).bind Entry.fileNames?).getD [] := by
  have isFile := stored.isFile
  rw [Entry.at?_append] at isFile
  cases found : final.root.at? names with
  | none => simp [found] at isFile
  | some entry =>
    rw [found, Option.bind_some] at isFile
    cases entry with
    | file => simp [Entry.at?] at isFile
    | folder own entries =>
      obtain ⟨held, isHeld, rfl, same⟩ := Entry.exists_held_of_at? (Option.isSome_of_any isFile)
      rw [same] at isFile
      exact List.mem_map_of_mem (List.mem_filter.mpr ⟨isHeld, isFile⟩)

/-- No document of a folder is lost. -/
theorem documents_subset (stored : Stored start final names name) {folder path : Path}
    (member : path ∈ start.documents settings folder) : path ∈ final.documents settings folder := by
  obtain ⟨⟨other, listed, rfl⟩, usable, isDocument⟩ := mem_documents.mp member
  refine mem_documents.mpr ⟨⟨other, ?_, rfl⟩, usable, isDocument⟩
  by_cases here : start.location? folder = some (.within names)
  · by_cases same : other = name
    · subst same
      rw [Disk.fileNames?, entry?, stored.changed.location?, here]
      exact stored.mem_fileNames
    · have filtered := stored.changed.filter_fileNames? folder
      cases before : start.fileNames? folder with
      | none => simp [before] at listed
      | some old =>
        rw [before, Option.map_some] at filtered
        obtain ⟨new, after, kept⟩ := Option.map_eq_some_iff.mp filtered
        have isOld : other ∈ old.filter (· != name) :=
          List.mem_filter.mpr ⟨by simpa [before] using listed, by simpa using same⟩
        rw [← kept] at isOld
        rw [after, Option.getD_some]
        exact List.mem_of_mem_filter isOld
  · rwa [stored.changed.fileNames? here]

end Stored

/-- On a sound disk a listed file has a name that can stand in a path. -/
theorem isProper_of_mem_fileNames {disk : Disk} (sound : disk.root.Sound) {folder : Path} {name : String}
    (listed : name ∈ (disk.fileNames? folder).getD []) : IsProper name := by
  rw [fileNames?, entry?] at listed
  cases leads : disk.location? folder with
  | none => simp [leads] at listed
  | some location =>
    cases location with
    | above => simp [leads, Entry.fileNames?] at listed
    | within names =>
      rw [leads] at listed
      dsimp only at listed
      cases found : disk.root.at? names with
      | none => simp [found] at listed
      | some entry =>
        cases entry with
        | file => simp [found, Entry.fileNames?] at listed
        | folder own entries =>
          rw [found, Option.bind_some, Entry.fileNames?, Option.getD_some] at listed
          obtain ⟨held, isHeld, rfl⟩ := List.mem_map.mp listed
          exact (sound names own entries found).2 held (List.mem_of_mem_filter isHeld)

/-- The path of a document is that of its folder and its file name. -/
theorem child_of_mem_documents {disk : Disk} (sound : disk.root.Sound) {folder path : Path}
    (member : path ∈ disk.documents settings folder) {name : String} (named : path.fileName? = some name) :
    folder.join (.ofText name) = path := by
  obtain ⟨⟨other, listed, rfl⟩, -, -⟩ := mem_documents.mp member
  have isProper := isProper_of_mem_fileNames sound listed
  obtain rfl : other = name := Option.some.inj ((Path.fileName?_child folder isProper.1).symm.trans named)
  rw [Path.ofText_of_name isProper.2]
  rfl

end Disk
end Requirements
