import Requirements.Proofs.Document.Acceptance
import Requirements.Resolution.State

/-! How much a text can declare. Elements and calls are written with terminals of their own, a
terminal takes a byte at least, and the name of the file makes no difference. So a document
weighs no more than its text. -/
namespace Requirements

/-- The elements and the calls of those whose keys are not among the ones met. -/
def weightBut (met : List Element.Key) : List Element → Nat
  | [] => 0
  | element :: rest => (if element.key ∈ met then 0 else 1 + element.calls.length) + weightBut met rest

theorem weightBut_append (met : List Element.Key) (first second : List Element) :
    weightBut met (first ++ second) = weightBut met first + weightBut met second := by
  induction first with
  | nil => simp [weightBut]
  | cons element rest ih =>
    rw [List.cons_append, weightBut, weightBut, ih]
    omega

theorem Document.weight_eq (document : Document) : document.weight = weightBut [] document.elements := by
  have counted : ∀ (elements : List Element) (weight : Nat),
      elements.foldl (fun weight element => weight + 1 + element.calls.length) weight =
        weight + weightBut [] elements := by
    intro elements
    induction elements with
    | nil => simp [weightBut]
    | cons element rest ih =>
      intro weight
      rw [List.foldl_cons, ih, weightBut, if_neg (by simp)]
      omega
  rw [weight, counted, Nat.zero_add]

/-! ### Texts and their tokens -/

theorem length_le_utf8ByteSize (text : String) : text.toList.length ≤ text.utf8ByteSize := by
  have counted : ∀ characters : List Char, characters.length ≤ (String.ofList characters).utf8ByteSize := by
    intro characters
    induction characters with
    | nil => simp
    | cons c rest ih =>
      have one := c.utf8Size_pos
      rw [String.ofList_cons, String.utf8ByteSize_append, String.utf8ByteSize_singleton, List.length_cons]
      omega
  simpa using counted text.toList

theorem length_lexemesAfter_le (taken : Nat) (text : List Char) :
    (lexemesAfter taken text).length ≤ text.length := by
  induction text generalizing taken with
  | nil => cases taken <;> simp [lexemesAfter]
  | cons c rest ih =>
    cases taken with
    | zero => simpa [lexemesAfter] using ih _
    | succ taken => exact Nat.le_succ_of_le (ih taken)

theorem length_tokensFrom_le (offset : Nat) (found : List Lexeme) :
    (tokensFrom offset found).length ≤ found.length := by
  induction found generalizing offset with
  | nil => exact Nat.le_refl 0
  | cons lexeme rest ih =>
    rw [tokensFrom]
    split
    · exact Nat.succ_le_succ (ih _)
    · exact Nat.le_succ_of_le (ih _)

theorem Token.length_ofText_le (text : String) : (ofText text).length ≤ text.utf8ByteSize :=
  calc (ofText text).length
    _ ≤ (lexemes text.toList).length := length_tokensFrom_le 0 _
    _ ≤ text.toList.length := length_lexemesAfter_le 0 _
    _ ≤ text.utf8ByteSize := length_le_utf8ByteSize text

/-! ### Trees and their terminals -/

namespace Grammar

theorem length_calls_le (members : List Member) :
    (members.filterMap Member.call?).length ≤ (members.flatMap Member.terminals).length :=
  (List.length_filterMap_le _ _).trans (length_le_flatMap Member.length_pos members)

theorem Declaration.weight_le (file : String) (domain : Option String) (declaration : Declaration) :
    1 + (declaration.element file domain).calls.length ≤ declaration.terminals.length := by
  have calls : (declaration.members.filterMap Member.call?).length ≤ (bodyTerminals declaration.body).length := by
    rw [members]
    cases declaration.body with
    | none => simp
    | some members =>
      have listed := length_calls_le members
      simp only [bodyTerminals, Option.getD_some, List.length_cons, List.length_append]
      omega
  simp only [terminals, element, List.length_cons, List.length_append]
  omega

theorem Source.weight_le (file : String) (source : Source) :
    (source.document file).weight ≤ source.terminals.length := by
  have each : ∀ (domain : Option String) (declarations : List Declaration),
      weightBut [] (declarations.map (Declaration.element file domain)) ≤
        (declarations.flatMap Declaration.terminals).length := by
    intro domain declarations
    induction declarations with
    | nil => exact Nat.le_refl 0
    | cons first others ih =>
      have one := first.weight_le file domain
      rw [List.map_cons, weightBut, if_neg (by simp), List.flatMap_cons, List.length_append]
      omega
  rw [Document.weight_eq, terminals, List.length_append]
  exact (each _ _).trans (Nat.le_add_left _ _)

end Grammar

namespace Document

variable {text file : String} {document : Document}

theorem weight_parse_le (parsed : Document.parse text file = .ok document) :
    document.weight ≤ text.utf8ByteSize := by
  obtain ⟨tree, written, rfl⟩ := Grammar.parse_eq_ok.mp parsed
  calc (tree.document file).weight
    _ ≤ tree.terminals.length := tree.weight_le file
    _ = (Token.ofText text).length := by rw [written, Grammar.terminalsOf, List.length_map]
    _ ≤ text.utf8ByteSize := Token.length_ofText_le text

/-- Under any other file's name the text declares the same, but for that name. -/
theorem parse_file (parsed : Document.parse text file = .ok document) (other : String) :
    ∃ renamed, Document.parse text other = .ok renamed ∧
      ∀ element ∈ document.elements, { element with file := other } ∈ renamed.elements := by
  obtain ⟨tree, written, rfl⟩ := Grammar.parse_eq_ok.mp parsed
  refine ⟨tree.document other, Grammar.parse_eq_ok.mpr ⟨tree, written, rfl⟩, fun element member => ?_⟩
  obtain ⟨declaration, declared, rfl⟩ := List.mem_map.mp member
  exact List.mem_map_of_mem declared

end Document
end Requirements
