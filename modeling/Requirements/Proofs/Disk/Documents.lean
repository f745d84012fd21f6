import Requirements.Proofs.Disk.Places

/-! The documents right in a folder, and which of them a change of one file concerns: no other
document comes or goes, and no other document's content or time is another one. -/
namespace Requirements

theorem Path.eq_of_stepOf? {part name : String} (step : stepOf? part = some (.into name)) : part = name := by
  unfold stepOf? at step
  split at step <;> simp_all

theorem Path.fileName?_of_last {path : Path} {name : String}
    (last : path.parts.getLast?.bind stepOf? = some (.into name)) : path.fileName? = some name := by
  obtain ⟨part, isLast, step⟩ := Option.bind_eq_some_iff.mp last
  have split := List.dropLast_append_getLast? part isLast
  have ends : path.steps.getLast? = some (.into name) := by
    rw [steps, ← split, List.filterMap_append]
    simp [step]
  rw [fileName?, ends]

/-- A file name of something in a folder is the name it has there, unless that is no step. -/
theorem Path.step_of_fileName?_child {folder : Path} {name own : String}
    (named : (folder.child name).fileName? = some own) :
    stepOf? name = none ∨ stepOf? name = some (.into name) ∧ own = name := by
  cases step : stepOf? name with
  | none => exact .inl rfl
  | some step' =>
    have last := getLast?_steps named
    rw [parts_child, List.filterMap_append] at last
    obtain rfl : step' = .into own := by simpa [step] using last
    obtain rfl := eq_of_stepOf? step
    exact .inr ⟨rfl, rfl⟩

def Settings.NamesDocument (settings : Settings) (name : String) : Prop :=
  ∃ c front, splitAtLast '.' name.toList = some (c :: front, settings.extension.toList)

theorem Settings.isDocument_iff {settings : Settings} {path : Path} :
    settings.isDocument path ↔ ∃ name, path.fileName? = some name ∧ settings.NamesDocument name := by
  rw [isDocument, Path.extension?]
  cases path.fileName? with
  | none => simp
  | some name =>
    cases cut : splitAtLast '.' name.toList with
    | none => simp [NamesDocument, cut]
    | some halves =>
      obtain ⟨front, back⟩ := halves
      cases front with
      | nil => simp [NamesDocument, cut]
      | cons c front =>
        have same : String.ofList back = settings.extension ↔ back = settings.extension.toList := by
          rw [← String.toList_inj, String.toList_ofList]
        simp [NamesDocument, cut, same]

/-- A name without its last character has another extension. -/
theorem Settings.NamesDocument.dropLast {settings : Settings} {name : String} {c : Char}
    (named : settings.NamesDocument name) (ends : name.toList.getLast? = some c) (noDot : c ≠ '.') :
    ¬settings.NamesDocument (String.ofList name.toList.dropLast) := by
  rintro ⟨_, _, shorter⟩
  obtain ⟨d, front, cut⟩ := named
  obtain ⟨whole, outside⟩ := splitAtLast_eq_some.mp cut
  rw [String.toList_ofList, whole, List.dropLast_append_of_ne_nil (by simp)] at shorter
  cases extension : settings.extension.toList with
  | nil =>
    rw [whole, extension, List.getLast?_append] at ends
    exact noDot (by simpa using ends.symm)
  | cons first rest =>
    rw [extension] at shorter outside
    rw [List.dropLast_cons_of_ne_nil (by simp), splitAtLast_append] at shorter
    · have lengths := congrArg List.length (Prod.mk.inj (Option.some.inj shorter)).2
      simp at lengths
    · exact fun inside => outside (List.dropLast_subset _ inside)

namespace Disk

variable {settings : Settings} {folder : Path}

theorem mem_documents {disk : Disk} {path : Path} : path ∈ disk.documents settings folder ↔
    (∃ name ∈ (disk.fileNames? folder).getD [], folder.child name = path) ∧
      path.isUsable ∧ settings.isDocument path := by
  rw [documents, List.mem_filter, List.mem_map, Bool.and_eq_true]

/-- A document that is a file goes by the name that the folder lists. -/
theorem stepOf?_of_document {disk : Disk} {name : String} (isDocument : settings.isDocument (folder.child name))
    (isFile : (disk.file? (folder.child name)).isSome) : Path.stepOf? name = some (.into name) := by
  obtain ⟨own, named, -⟩ := Settings.isDocument_iff.mp isDocument
  rcases Path.step_of_fileName?_child named with none | ⟨step, -⟩
  · simp [file?_child_of_no_step disk folder none] at isFile
  · exact step

/-- Where a document lies that is a file. -/
theorem location?_of_document {disk : Disk} {name : String} (isDocument : settings.isDocument (folder.child name))
    (isFile : disk.isFile (folder.child name)) : Path.stepOf? name = some (.into name) ∧ ∃ names,
      disk.location? (folder.child name) = some (.within (names ++ [name])) ∧
        ¬(disk.root.at? (names ++ [name])).any Entry.isFolder := by
  have held : (disk.file? (folder.child name)).isSome := by
    rw [Disk.isFile] at isFile
    rw [file?]
    cases found : disk.entry? (folder.child name) with
    | none => simp [found] at isFile
    | some entry => cases entry <;> simp_all [Entry.isFolder, Entry.file?]
  have step := stepOf?_of_document isDocument held
  refine ⟨step, ?_⟩
  rw [Disk.isFile, entry?] at isFile
  cases leads : disk.location? (folder.child name) with
  | none => simp [leads] at isFile
  | some location =>
    cases location with
    | above => simp [leads, Entry.isFolder] at isFile
    | within other =>
      obtain ⟨names, rfl⟩ := getLast_of_location? (Path.fileName?_child folder step) leads
      refine ⟨names, rfl, fun isFolder => ?_⟩
      rw [leads] at isFile
      cases found : disk.root.at? (names ++ [name]) with
      | none => simp [found] at isFolder
      | some entry => simp_all

/-- Two documents of one folder that have one name are one. -/
theorem eq_of_fileName? {disk : Disk} {first second : Path} (isFirst : first ∈ disk.documents settings folder)
    (isSecond : second ∈ disk.documents settings folder) (firstFile : (disk.file? first).isSome)
    (secondFile : (disk.file? second).isSome) (same : first.fileName? = second.fileName?) : first = second := by
  obtain ⟨⟨name, -, rfl⟩, -, firstDocument⟩ := mem_documents.mp isFirst
  obtain ⟨⟨other, -, rfl⟩, -, secondDocument⟩ := mem_documents.mp isSecond
  rw [Path.fileName?_child folder (stepOf?_of_document firstDocument firstFile),
    Path.fileName?_child folder (stepOf?_of_document secondDocument secondFile)] at same
  rw [Option.some.inj same]

namespace FileChanged

variable {start final : Disk} {names : List String} {name : String}

/-- Only the document of the changed name may come or go. -/
theorem documents (changed : FileChanged start final names name) :
    (final.documents settings folder).filter (· ≠ folder.child name) =
      (start.documents settings folder).filter (· ≠ folder.child name) := by
  have listed (disk : Disk) : (disk.documents settings folder).filter (· ≠ folder.child name) =
      ((((disk.fileNames? folder).map (·.filter (· != name))).getD []).map folder.child).filter
        fun path => path.isUsable && settings.isDocument path := by
    rw [Disk.documents, List.filter_filter]
    cases disk.fileNames? folder with
    | none => rfl
    | some listing =>
      simp only [Option.getD_some, Option.map_some, List.filter_map, List.filter_filter]
      congr 1
      refine List.filter_congr fun other _ => ?_
      by_cases same : other = name
      · simp [same]
      · have differ : folder.child other ≠ folder.child name := fun isChild => same (Path.child_injective isChild)
        simp [same, differ]
  rw [listed, listed, changed.filter_fileNames?]

/-- Another document keeps its content and its time. -/
theorem file?_document (changed : FileChanged start final names name) {other : String}
    (isDocument : settings.isDocument (folder.child other)) (differ : other ≠ name) :
    final.file? (folder.child other) = start.file? (folder.child other) := by
  obtain ⟨own, named, -⟩ := Settings.isDocument_iff.mp isDocument
  rcases Path.step_of_fileName?_child named with none | ⟨-, rfl⟩
  · rw [file?_child_of_no_step _ _ none, file?_child_of_no_step _ _ none]
  · refine changed.file? fun leads => ?_
    obtain ⟨front, split⟩ := getLast_of_location? named leads
    exact differ ((List.append_singleton_inj.mp split).2).symm

/-- A change of a document leaves a file as it is whose name is no document's. -/
theorem file?_of_not_document (changed : FileChanged start final names name)
    (isDocument : settings.isDocument (folder.child name)) (step : Path.stepOf? name = some (.into name))
    {path : Path} {other : String} (named : path.fileName? = some other) (noDocument : ¬settings.isDocument path) :
    final.file? path = start.file? path := by
  refine changed.file? fun leads => ?_
  obtain ⟨front, split⟩ := getLast_of_location? named leads
  obtain rfl := (List.append_singleton_inj.mp split).2
  obtain ⟨own, isOwn, naming⟩ := Settings.isDocument_iff.mp isDocument
  obtain rfl := Option.some.inj (isOwn.symm.trans (Path.fileName?_child folder step))
  exact noDocument (Settings.isDocument_iff.mpr ⟨own, named, naming⟩)

end FileChanged
end Disk
end Requirements
