import Requirements.Proofs.Disk.Places
import Requirements.Repository.FolderIndex

/-! What an index file gives back. Of the records that fit a line each comes back, its file
without a carriage return at the end, unless one of them has no name: then the file cannot be
read. -/
namespace Requirements

@[simp] theorem RecordRole.ofCode?_code (role : RecordRole) : ofCode? role.code = some role := by
  cases role <;> decide

@[simp] theorem ReferenceKind.ofCode?_code (kind : ReferenceKind) : ofCode? kind.code = some kind := by
  cases kind with
  | element kind => cases kind <;> decide
  | _ => decide

namespace Record

theorem not_mem_code_role (role : RecordRole) {c : Char} (mark : c = ';' ∨ c = '\n') :
    c ∉ role.code.toList := by
  rcases mark with rfl | rfl <;> cases role <;> decide

theorem not_mem_code_kind (kind : ReferenceKind) {c : Char} (mark : c = ';' ∨ c = '\n') :
    c ∉ kind.code.toList := by
  rcases mark with rfl | rfl <;>
    cases kind with
    | element kind => cases kind <;> decide
    | _ => decide

theorem fitsField_iff {text : String} : fitsField text ↔ ';' ∉ text.toList ∧ '\n' ∉ text.toList := by
  simp only [fitsField, List.all_eq_true, Bool.and_eq_true, bne_iff_ne]
  constructor
  · exact fun fits => ⟨fun inside => (fits _ inside).1 rfl, fun inside => (fits _ inside).2 rfl⟩
  · rintro ⟨noDelimiter, noNewline⟩ c inside
    exact ⟨fun same => noDelimiter (same ▸ inside), fun same => noNewline (same ▸ inside)⟩

theorem fitsLine_iff {record : Record} :
    record.fitsLine ↔ fitsField record.name ∧ fitsField record.file := by
  simp [fitsLine]

theorem toList_line (record : Record) : record.line.toList = record.role.code.toList ++
    ';' :: (record.kind.code.toList ++ ';' :: (record.name.toList ++ ';' :: record.file.toList)) := by
  simp [line]

theorem pieces_line {record : Record} (fits : record.fitsLine) :
    pieces ';' record.line = [record.role.code, record.kind.code, record.name, record.file] := by
  obtain ⟨name, file⟩ := fitsLine_iff.mp fits
  rw [pieces, toList_line, splitAtEach_append (not_mem_code_role _ (.inl rfl)),
    splitAtEach_append (not_mem_code_kind _ (.inl rfl)), splitAtEach_append (fitsField_iff.mp name).1,
    splitAtEach_of_not_mem (fitsField_iff.mp file).1]
  simp

/-- A line is read back as its record, unless that has no name. -/
theorem ofLine_line {record : Record} (fits : record.fitsLine) :
    ofLine record.line = if record.name.isEmpty then .error .emptyName else .ok record := by
  rw [ofLine, pieces_line fits]
  simp

/-- The file that a line gives fits a field. -/
theorem fitsField_of_ofLine {line : String} {record : Record} (noNewline : '\n' ∉ line.toList)
    (isRead : ofLine line = .ok record) : fitsField record.file := by
  rw [ofLine] at isRead
  split at isRead
  next role kind name file cut =>
    obtain ⟨piece, isPiece, same⟩ := List.mem_map.mp (show file ∈ pieces ';' line by simp [cut])
    obtain ⟨inside, outside⟩ := subset_of_mem_splitAtEach isPiece
    have fits : fitsField file := by
      rw [fitsField_iff, ← same, String.toList_ofList]
      exact ⟨outside, fun newline => noNewline (inside newline)⟩
    split at isRead
    next => cases isRead
    next => cases isRead
    next =>
      split at isRead
      · cases isRead
      · rwa [← Except.ok.inj isRead]
  next => cases isRead

theorem not_blank_line (record : Record) : isBlankText record.line = false := by
  rw [isBlankText, toList_line, List.all_append]
  have word : record.role.code.toList.all isWhitespace = false := by cases record.role <;> decide
  rw [word, Bool.false_and]

theorem newline_not_mem_line {record : Record} (fits : record.fitsLine) : '\n' ∉ record.line.toList := by
  obtain ⟨name, file⟩ := fitsLine_iff.mp fits
  rw [toList_line]
  simp only [List.mem_append, List.mem_cons, not_or]
  exact ⟨not_mem_code_role _ (.inr rfl), by decide, not_mem_code_kind _ (.inr rfl), by decide,
    (fitsField_iff.mp name).2, by decide, (fitsField_iff.mp file).2⟩

/-- The record as its line gives it back: a carriage return that its file ends in is taken for
a part of the line's end. -/
def reread (record : Record) : Record :=
  { record with file := String.ofList (dropReturn record.file.toList) }

@[simp] theorem name_reread (record : Record) : record.reread.name = record.name := rfl

theorem dropReturn_line (record : Record) :
    String.ofList (dropReturn record.line.toList) = record.reread.line := by
  rw [← String.toList_inj, String.toList_ofList, toList_line, toList_line]
  have ended (front : List Char) : dropReturn (front ++ ';' :: record.file.toList) =
      front ++ ';' :: dropReturn record.file.toList := by
    rw [dropReturn_append (by simp)]
    cases record.file.toList with
    | nil => rfl
    | cons c rest => exact congrArg (front ++ ·) (@dropReturn_append [';'] _ (by simp))
  simpa [reread] using ended (record.role.code.toList ++
    ';' :: (record.kind.code.toList ++ ';' :: record.name.toList))

theorem fitsLine_reread {record : Record} (fits : record.fitsLine) : record.reread.fitsLine := by
  obtain ⟨name, file⟩ := fitsLine_iff.mp fits
  rw [fitsField_iff] at file
  refine fitsLine_iff.mpr ⟨name, fitsField_iff.mpr ?_⟩
  simp only [reread, String.toList_ofList]
  exact ⟨fun inside => file.1 (dropReturn_subset _ inside), fun inside => file.2 (dropReturn_subset _ inside)⟩

theorem reread_eq_self {record : Record} : record.reread = record ↔ record.file.toList.getLast? ≠ some '\r' := by
  have sameFile : record.reread = record ↔ dropReturn record.file.toList = record.file.toList := by
    constructor
    · intro same
      simpa [reread] using congrArg (fun r => r.file.toList) same
    · intro same
      simp [reread, same]
  rw [sameFile, dropReturn]
  split
  next ends =>
    have notEmpty : record.file.toList ≠ [] := by
      intro empty
      simp [empty] at ends
    have shorter : record.file.toList.dropLast.length = record.file.toList.length - 1 := List.length_dropLast
    have positive := List.length_pos_iff.mpr notEmpty
    refine ⟨fun same => ?_, fun differ => absurd ends differ⟩
    rw [same] at shorter
    omega
  next differ => simp [differ]

end Record

namespace FolderIndex

theorem ext_records {first second : FolderIndex} (folder : first.folder = second.folder)
    (records : first.records = second.records) : first = second := by
  cases first
  cases second
  simp_all

theorem hasKey_iff {index : FolderIndex} {key : Record.Key} :
    index.hasKey key ↔ ∃ record ∈ index.records, record.key = key := by
  simp [hasKey]

@[simp] theorem folder_foldl_insert (index : FolderIndex) (records : List Record) :
    (records.foldl insert index).folder = index.folder := by
  induction records generalizing index with
  | nil => rfl
  | cons record rest ih => rw [List.foldl_cons, ih, folder_insert]

/-- Records of keys that all differ are all taken in. -/
theorem records_foldl_insert {index : FolderIndex} {records : List Record}
    (differ : ((index.records ++ records).map Record.key).Nodup) :
    (records.foldl insert index).records = index.records ++ records := by
  induction records generalizing index with
  | nil => simp
  | cons record rest ih =>
    have absent : ¬index.hasKey record.key := by
      rw [hasKey_iff]
      rintro ⟨old, member, same⟩
      rw [List.map_append, List.nodup_append] at differ
      exact differ.2.2 old.key (List.mem_map_of_mem member) record.key (by simp) same
    have inserted := records_insert_of_not_hasKey absent
    rw [List.foldl_cons, ih (by rw [inserted]; simpa using differ), inserted]
    simp

section

variable {path : Path} {records : List Record}

theorem insertLines_of_named (fit : ∀ record ∈ records, record.fitsLine)
    (named : ∀ record ∈ records, record.name ≠ "") (number : Nat) (index : FolderIndex) :
    insertLines path number index (records.map Record.line) = .ok (records.foldl insert index) := by
  induction records generalizing number index with
  | nil => rfl
  | cons record rest ih =>
    have isNamed : record.name.isEmpty = false := by simpa using named record (by simp)
    rw [List.map_cons, insertLines, record.not_blank_line, Record.ofLine_line (fit record (by simp)), isNamed]
    exact ih (fun other member => fit other (by simp [member]))
      (fun other member => named other (by simp [member])) _ _

/-- The first line without a name is where reading stops. -/
theorem insertLines_of_unnamed (fit : ∀ record ∈ records, record.fitsLine) {position : Nat}
    (unnamed : records.findIdx? (·.name.isEmpty) = some position) (number : Nat) (index : FolderIndex) :
    insertLines path number index (records.map Record.line) =
      .error (.record path (number + position) .emptyName) := by
  induction records generalizing number index position with
  | nil => simp at unnamed
  | cons record rest ih =>
    rw [List.map_cons, insertLines, record.not_blank_line, Record.ofLine_line (fit record (by simp))]
    rw [List.findIdx?_cons] at unnamed
    by_cases empty : record.name.isEmpty
    · rw [if_pos empty] at unnamed
      obtain rfl := Option.some.inj unnamed
      simp [empty]
    · rw [if_neg empty] at unnamed
      obtain ⟨behind, later, rfl⟩ := Option.map_eq_some_iff.mp unnamed
      rw [if_neg empty]
      exact (ih (fun other member => fit other (by simp [member])) later _ _).trans
        (by rw [Nat.add_right_comm, Nat.add_assoc])

theorem fitsField_of_insertLines {lines : List String} (whole : ∀ line ∈ lines, '\n' ∉ line.toList) {number : Nat}
    {index read : FolderIndex} (fit : ∀ record ∈ index.records, Record.fitsField record.file)
    (isRead : insertLines path number index lines = .ok read) :
    ∀ record ∈ read.records, Record.fitsField record.file := by
  induction lines generalizing number index with
  | nil => exact Except.ok.inj isRead ▸ fit
  | cons line rest ih =>
    have others : ∀ line ∈ rest, '\n' ∉ line.toList := fun other member => whole other (by simp [member])
    rw [insertLines] at isRead
    split at isRead
    · exact ih others fit isRead
    · split at isRead
      next => cases isRead
      next record given =>
        refine ih others (fun other member => ?_) isRead
        by_cases present : index.hasKey record.key
        · exact fit other (records_insert_of_hasKey present ▸ member)
        · rw [records_insert_of_not_hasKey present, List.mem_append, List.mem_singleton] at member
          rcases member with old | rfl
          · exact fit other old
          · exact Record.fitsField_of_ofLine (whole line (by simp)) given

/-- The files that an index file names all fit a field. -/
theorem fitsField_of_read {disk : Disk} {folder : Path} {index : FolderIndex}
    (isRead : read disk folder path = .ok index) : ∀ record ∈ index.records, Record.fitsField record.file := by
  rw [read] at isRead
  split at isRead
  next => exact fitsField_of_insertLines (fun _ => newline_not_mem_of_mem_lines) (by simp) isRead
  next => cases isRead

end

variable {index : FolderIndex}

def rereadable (index : FolderIndex) : List Record := (index.records.filter (·.fitsLine)).map Record.reread

theorem fitsLine_of_rereadable : ∀ record ∈ index.rereadable, record.fitsLine := by
  intro record member
  obtain ⟨held, isHeld, rfl⟩ := List.mem_map.mp member
  exact Record.fitsLine_reread (List.mem_filter.mp isHeld).2

theorem lines_text (index : FolderIndex) : lines index.text = index.rereadable.map Record.line := by
  have joined : index.text =
      String.join (((index.records.filter (·.fitsLine)).map Record.line).map (· ++ "\n")) := by
    rw [text, List.map_map]
    rfl
  rw [joined, lines_join, rereadable, List.map_map, List.map_map]
  · exact List.map_congr_left fun record _ => record.dropReturn_line
  · intro line member
    obtain ⟨record, held, rfl⟩ := List.mem_map.mp member
    exact Record.newline_not_mem_line (List.mem_filter.mp held).2

/-- Where every record that fits a line has a name, the file can be read. -/
theorem ofText_text_of_named (named : ∀ record ∈ index.records, record.fitsLine → record.name ≠ "")
    (folder path : Path) : ∃ read, ofText folder path index.text = .ok read ∧ read.folder = folder ∧
      read.records = index.rereadable := by
  refine ⟨index.rereadable.foldl insert (empty folder), ?_, by simp [empty], ?_⟩
  · rw [ofText, lines_text]
    refine insertLines_of_named fitsLine_of_rereadable (fun record member => ?_) 1 _
    obtain ⟨held, isHeld, rfl⟩ := List.mem_map.mp member
    exact named held (List.mem_filter.mp isHeld).1 (List.mem_filter.mp isHeld).2
  · refine (records_foldl_insert ?_).trans (by simp [empty])
    have keys : index.rereadable.map Record.key = (index.records.filter (·.fitsLine)).map Record.key := by
      rw [rereadable, List.map_map]
      rfl
    simpa [empty, keys] using index.distinct.sublist (List.filter_sublist.map Record.key)

/-- One record without a name makes the file unreadable. -/
theorem ofText_text_of_unnamed {record : Record} (member : record ∈ index.records) (fits : record.fitsLine)
    (unnamed : record.name = "") (folder path : Path) :
    ∃ number, ofText folder path index.text = .error (.record path number .emptyName) := by
  have present : record.reread ∈ index.rereadable := List.mem_map_of_mem (List.mem_filter.mpr ⟨member, fits⟩)
  obtain ⟨position, found⟩ : ∃ position, index.rereadable.findIdx? (·.name.isEmpty) = some position := by
    rw [← Option.isSome_iff_exists, List.findIdx?_isSome, List.any_eq_true]
    exact ⟨record.reread, present, by simp [unnamed]⟩
  exact ⟨1 + position, by rw [ofText, lines_text]; exact insertLines_of_unnamed fitsLine_of_rereadable found 1 _⟩

theorem read_of_write {disk written : Disk} {path : Path} (wrote : index.write disk path = .ok written)
    (folder : Path) : read written folder path = ofText folder path index.text := by
  rw [write] at wrote
  split at wrote
  next stored =>
    obtain rfl := Except.ok.inj wrote
    have held := (Disk.store?_ok stored).1
    rw [read, Disk.read, Disk.read?_eq, held]
    rfl
  next => cases wrote

/-- An index that is written and read again has exactly its records that fit a line, unchanged
and in order, if and only if none of these lacks a name or has a file that ends in a carriage
return. -/
theorem read_of_write_iff {disk written : Disk} {path : Path} (wrote : index.write disk path = .ok written)
    (folder : Path) :
    (∃ again, read written folder path = .ok again ∧ again.records = index.records.filter (·.fitsLine)) ↔
      ∀ record ∈ index.records, record.fitsLine →
        record.name ≠ "" ∧ record.file.toList.getLast? ≠ some '\r' := by
  rw [read_of_write wrote]
  constructor
  · rintro ⟨again, isRead, same⟩ record member fits
    have named : ∀ record ∈ index.records, record.fitsLine → record.name ≠ "" := by
      intro other isOther otherFits unnamed
      obtain ⟨number, failed⟩ := ofText_text_of_unnamed isOther otherFits unnamed folder path
      cases isRead.symm.trans failed
    refine ⟨named record member fits, Record.reread_eq_self.mp ?_⟩
    obtain ⟨_, isAgain, -, records⟩ := ofText_text_of_named named folder path
    obtain rfl := Except.ok.inj (isRead.symm.trans isAgain)
    have unchanged := List.map_inj_left.mp ((records.symm.trans same).trans (List.map_id _).symm)
    exact unchanged record (List.mem_filter.mpr ⟨member, fits⟩)
  · intro plain
    obtain ⟨again, isRead, -, records⟩ :=
      ofText_text_of_named (fun record member fits => (plain record member fits).1) folder path
    refine ⟨again, isRead, records.trans ?_⟩
    refine (List.map_congr_left fun record held => ?_).trans (List.map_id' _)
    have ⟨member, fits⟩ := List.mem_filter.mp held
    exact Record.reread_eq_self.mpr (plain record member fits).2

def emptyDisk : Disk := { now := 100 }

theorem write_emptyDisk (index : FolderIndex) (allowed : (index.write emptyDisk ⟨["index"]⟩).isOk) :
    ∃ written, index.write emptyDisk ⟨["index"]⟩ = .ok written := by
  cases wrote : index.write emptyDisk ⟨["index"]⟩ with
  | ok written => exact ⟨written, rfl⟩
  | error => simp [wrote, Except.isOk, Except.toBool] at allowed

def mixedIndex : FolderIndex where
  folder := ⟨["."]⟩
  records :=
    [⟨.declares, .element .classType, "std.Base", "base.reqm"⟩, ⟨.declares, .element .action, "run", "a;b.reqm"⟩,
      ⟨.uses, .ancestor, "std.Root", "base.reqm"⟩]
  distinct := by decide

theorem read_of_write_mixedIndex :
    ∃ written, mixedIndex.write emptyDisk ⟨["index"]⟩ = .ok written ∧
      ∃ again, read written ⟨["."]⟩ ⟨["index"]⟩ = .ok again ∧ again.records =
        [⟨.declares, .element .classType, "std.Base", "base.reqm"⟩,
          ⟨.uses, .ancestor, "std.Root", "base.reqm"⟩] := by
  obtain ⟨written, wrote⟩ := write_emptyDisk mixedIndex (by decide +kernel)
  obtain ⟨again, isRead, records⟩ := (read_of_write_iff wrote ⟨["."]⟩).mpr (by decide)
  exact ⟨written, wrote, again, isRead, records.trans (by decide)⟩

def returnIndex : FolderIndex where
  folder := ⟨["."]⟩
  records := [⟨.declares, .element .classType, "Base", "base\r"⟩]
  distinct := by decide

def namelessIndex : FolderIndex where
  folder := ⟨["."]⟩
  records :=
    [⟨.declares, .element .classType, "Base", "base.reqm"⟩, ⟨.declares, .element .classType, "", "base.reqm"⟩]
  distinct := by decide

/-- All records fit a line, and yet the first index comes back with another file and the second
does not come back. -/
theorem changed_returnIndex_namelessIndex :
    ∃ first second, returnIndex.write emptyDisk ⟨["index"]⟩ = .ok first ∧
      namelessIndex.write emptyDisk ⟨["index"]⟩ = .ok second ∧
      (∃ again, read first ⟨["."]⟩ ⟨["index"]⟩ = .ok again ∧
        again.records = [⟨.declares, .element .classType, "Base", "base"⟩] ∧
        returnIndex.records.filter (·.fitsLine) = [⟨.declares, .element .classType, "Base", "base\r"⟩]) ∧
      read second ⟨["."]⟩ ⟨["index"]⟩ = .error (.record ⟨["index"]⟩ 2 .emptyName) := by
  obtain ⟨first, wroteFirst⟩ := write_emptyDisk returnIndex (by decide +kernel)
  obtain ⟨second, wroteSecond⟩ := write_emptyDisk namelessIndex (by decide +kernel)
  refine ⟨first, second, wroteFirst, wroteSecond, ?_, ?_⟩
  · have named : ∀ record ∈ returnIndex.records, record.fitsLine → record.name ≠ "" := by decide
    obtain ⟨again, isRead, -, records⟩ := ofText_text_of_named named ⟨["."]⟩ ⟨["index"]⟩
    exact ⟨again, (read_of_write wroteFirst _).trans isRead, records.trans (by decide), by decide⟩
  · rw [read_of_write wroteSecond, ofText, lines_text]
    have unnamed : namelessIndex.rereadable.findIdx? (·.name.isEmpty) = some 1 := by decide
    exact insertLines_of_unnamed fitsLine_of_rereadable unnamed 1 _

end FolderIndex
end Requirements
