import Requirements.Proofs.Disk.Texts
import Requirements.Proofs.Document.Acceptance
import Requirements.Proofs.Outcome
import Requirements.Proofs.Repository.Lines

/-! What loading repositories leaves on the disk. Texts of indices are all that is written, and no
such text declares an element, should it be read as a document. -/
namespace Requirements

namespace Failure

/-- The failure is that of a disk, a document or a repository. -/
def isOutside : Failure → Bool
  | cycle .. | invalid _ | stepsExhausted => false
  | _ => true

def isOnDisk : Failure → Bool
  | disk _ | document .. => true
  | _ => false

theorem isOutside_of_isOnDisk {failure : Failure} (onDisk : failure.isOnDisk) : failure.isOutside := by
  cases failure <;> first | rfl | cases onDisk

end Failure

/-! ### Texts of indices -/

/-- A word that ends before a mark is the first token. -/
theorem ofText_word {c : Char} {word : List Char} {behind text : String} (start : isWordStart c)
    (isWord : ∀ d ∈ word, isWordChar d) (begins : text.toList = c :: word ++ ';' :: behind.toList) :
    ∃ tokens, Token.ofText text = ⟨.identifier, String.ofList (c :: word), 0⟩ :: tokens := by
  have blank : isBlankChar c = false := by
    simp only [isBlankChar, Bool.or_eq_false_iff, beq_eq_false_iff_ne, ne_eq]
    refine ⟨⟨⟨?_, ?_⟩, ?_⟩, ?_⟩ <;> rintro rfl <;> cases start
  have taken : (word ++ ';' :: behind.toList).takeWhile isWordChar = word := by
    rw [List.takeWhile_append_of_pos isWord]
    simp [isWordChar, isWordStart, isDigitChar]
  have next : nextLexeme c (word ++ ';' :: behind.toList) = (.token .identifier, word.length) := by
    simp [nextLexeme, blank, start, taken]
  rw [Token.ofText, begins, List.cons_append, lexemes_cons, next, List.take_left]
  exact ⟨_, rfl⟩

namespace FolderIndex

theorem text_eq_empty_or (index : FolderIndex) :
    index.text = "" ∨ ∃ (role : RecordRole) (behind : String),
      index.text.toList = role.code.toList ++ ';' :: behind.toList := by
  rw [text]
  cases index.records.filter (·.fitsLine) with
  | nil => exact .inl rfl
  | cons record rest =>
    refine .inr ⟨record.role, record.kind.code ++ ";" ++ record.name ++ ";" ++ record.file ++ "\n" ++
      String.join (rest.map fun record => record.line ++ "\n"), ?_⟩
    simp [Record.line, String.join_cons]

/-- The text of an index is no document, or one without elements. -/
theorem elements_of_parse_text {index : FolderIndex} {file : String} {document : Document}
    (parsed : Document.parse index.text file = .ok document) : document.elements = [] := by
  obtain ⟨⟨domain, declarations⟩, written, rfl⟩ := Grammar.parse_eq_ok.mp parsed
  rcases index.text_eq_empty_or with empty | ⟨role, behind, begins⟩
  · rw [empty] at written
    cases declarations with
    | nil => rfl
    | cons first others =>
      have none : (Token.ofText "") = [] := rfl
      simp [none, Grammar.terminalsOf, Grammar.Source.terminals, Grammar.Declaration.terminals] at written
  · obtain ⟨c, word, code, start, isWord⟩ : ∃ c word, role.code.toList = c :: word ∧ isWordStart c ∧
        ∀ d ∈ word, isWordChar d := by
      cases role
      · exact ⟨'c', "ontent".toList, rfl, rfl, List.all_eq_true.mp rfl⟩
      · exact ⟨'d', "ependency".toList, rfl, rfl, List.all_eq_true.mp rfl⟩
    rw [code] at begins
    obtain ⟨tokens, first⟩ := ofText_word start isWord begins
    have isCode : String.ofList (c :: word) = role.code := by rw [← code, String.ofList_toList]
    rw [first, isCode] at written
    cases domain with
    | some name =>
      have words := (List.cons.inj written).1
      cases role <;> simp [Grammar.Terminal.ofToken, RecordRole.code] at words
    | none =>
      cases declarations with
      | nil => rfl
      | cons declaration others =>
        have words := (List.cons.inj written).1
        cases kind : declaration.kind <;> cases role <;>
          simp [kind, Grammar.Terminal.ofToken, RecordRole.code, ElementKind.keyword] at words

end FolderIndex

/-! ### Loading -/

namespace Disk

/-- All texts were there at the start, but for those of indices. -/
def AddsIndices (start final : Disk) : Prop :=
  ∀ text ∈ final.root.texts, text ∈ start.root.texts ∨ ∃ index : FolderIndex, text = index.text

theorem AddsIndices.refl (disk : Disk) : AddsIndices disk disk := fun _ => .inl

/-- That an index cannot be written is no failure. -/
theorem AddsIndices.wrote {start disk : Disk} (adds : AddsIndices start disk) (path : Path) (index : FolderIndex) :
    AddsIndices start ((disk.write? path index.text).getD disk) := by
  cases wrote : disk.write? path index.text with
  | none => exact adds
  | some after =>
    intro text held
    rcases texts_write? wrote held with old | rfl
    · exact adds text old
    · exact .inr ⟨index, rfl⟩

theorem isOnDisk_of_parse {disk : Disk} {path : Path} {file : String} {failure : Failure}
    (failed : disk.parse path file = .error failure) : failure.isOnDisk := by
  rw [parse] at failed
  cases opened : disk.read path with
  | error other =>
    rw [opened] at failed
    obtain rfl := Except.error.inj failed
    rw [read] at opened
    split at opened
    next => cases opened
    next =>
      obtain rfl := Except.error.inj opened
      rfl
  | ok text =>
    rw [opened] at failed
    dsimp only at failed
    cases parsed : Document.parse text file with
    | ok =>
      rw [parsed] at failed
      cases failed
    | error =>
      rw [parsed] at failed
      obtain rfl := Except.error.inj failed
      rfl

end Disk

open Disk (AddsIndices)

variable {settings : Settings} {start : Disk}

theorem FolderIndex.isOnDisk_of_insertFiles {disk : Disk} {paths : List Path} {index : FolderIndex}
    {failure : Failure} (failed : insertFiles disk settings index paths = .error failure) : failure.isOnDisk := by
  induction paths generalizing index with
  | nil => cases failed
  | cons path rest ih =>
    rw [insertFiles] at failed
    split at failed
    next => exact ih failed
    next parsed =>
      obtain rfl := Except.error.inj failed
      exact Disk.isOnDisk_of_parse parsed

theorem FolderIndex.isOnDisk_of_build {disk : Disk} {folder : Path} {failure : Failure}
    (failed : build disk settings folder = .error failure) : failure.isOnDisk := by
  rw [build] at failed
  split at failed
  next => exact isOnDisk_of_insertFiles failed
  next unlisted =>
    obtain rfl := Except.error.inj failed
    rw [Disk.documentPaths] at unlisted
    split at unlisted
    next => cases unlisted
    next =>
      obtain rfl := Except.error.inj unlisted
      rfl

theorem FolderIndex.outcome_load (folder : Path) {disk : Disk} (adds : AddsIndices start disk) :
    Outcome (fun _ => AddsIndices start) (fun failure final => failure.isOnDisk ∧ AddsIndices start final)
      (FolderIndex.load settings folder disk) := by
  unfold FolderIndex.load
  dsimp only
  split
  next => exact adds
  next =>
    generalize folder.join (.ofText settings.indexFile) = path
    cases built : build disk settings folder with
    | ok index => exact adds.wrote path index
    | error => exact ⟨isOnDisk_of_build built, adds⟩

namespace Repository

theorem outcome_loadFolders (folders : List Path) {disk : Disk} (adds : AddsIndices start disk) :
    Outcome (fun _ => AddsIndices start) (fun failure final => failure.isOnDisk ∧ AddsIndices start final)
      (loadFolders settings folders disk) := by
  induction folders generalizing disk with
  | nil => exact adds
  | cons folder rest ih =>
    refine outcome_bind (FolderIndex.outcome_load folder adds) fun _ middle _ addsThen => ?_
    exact outcome_bind (ih addsThen) fun _ _ _ addsLast => addsLast

theorem outcome_load (repository : Repository) {disk : Disk} (adds : AddsIndices start disk) :
    Outcome (fun _ => AddsIndices start) (fun failure final => failure.isOnDisk ∧ AddsIndices start final)
      (repository.load settings disk) := by
  rw [load]
  cases repository.folders with
  | some => exact adds
  | none =>
    exact outcome_get (outcome_bind (outcome_loadFolders _ adds) fun _ _ _ addsLast => addsLast)

theorem adds_loadEach (repositories : List Repository) {disk : Disk} (adds : AddsIndices start disk) :
    AddsIndices start (loadEach settings repositories disk).2.1 ∧
      ∀ failure ∈ (loadEach settings repositories disk).2.2, failure.isOnDisk := by
  induction repositories generalizing disk with
  | nil => exact ⟨adds, by simp [loadEach]⟩
  | cons first rest ih =>
    have outcome : Outcome _ _ (first.load settings disk) := outcome_load first adds
    rw [loadEach]
    split
    next failure after failed =>
      rw [failed] at outcome
      exact ⟨outcome.2, by simpa using outcome.1⟩
    next loaded after isLoaded =>
      rw [isLoaded] at outcome
      exact ih outcome

end Repository

/-- A search leaves the texts as they are, but for those of indices. -/
theorem Workspace.outcome_find (kind : ReferenceKind) (id : String) (domain : Option String) (workspace : Workspace) :
    Outcome (fun _ final => AddsIndices workspace.disk final.disk)
      (fun failure final => failure.isOutside ∧ AddsIndices workspace.disk final.disk)
      (find settings kind id domain workspace) := by
  refine outcome_get ?_
  split
  next =>
    obtain ⟨adds, onDisk⟩ := Repository.adds_loadEach workspace.catalogue.repositories (.refl workspace.disk)
    have loads : Outcome (fun _ final => AddsIndices workspace.disk final.disk)
        (fun failure final => failure.isOutside ∧ AddsIndices workspace.disk final.disk)
        (loadAll settings workspace) := by
      rw [loadAll]
      dsimp only
      split
      next failure failed => exact ⟨Failure.isOutside_of_isOnDisk (onDisk failure failed), adds⟩
      next => exact adds
    exact outcome_bind loads fun _ _ _ addsLast => addsLast
  next => exact ⟨rfl, .refl workspace.disk⟩

end Requirements
