import Mathlib.Order.Bounds.Defs
import Requirements.Proofs.Document.Predictive
import Requirements.Proofs.Document.Respacing
import Requirements.Proofs.Text.Position

/-! Where complaints point. The tokens before the one that a complaint points at begin some text that is
read, and together with that one they begin none. So it is the first that is impossible there, and its
line and column are counted in the text. -/
namespace Requirements

/-- The tokens begin those of a text that is read. -/
def Token.Viable (file : String) (front : List Token) : Prop :=
  ∃ accepted document, Document.parse accepted file = .ok document ∧
    front.map Token.word <+: (Token.ofText accepted).map Token.word

theorem Token.Viable.take {file : String} {tokens : List Token} (viable : Viable file tokens) (count : Nat) :
    Viable file (tokens.take count) := by
  obtain ⟨accepted, document, read, begins⟩ := viable
  exact ⟨accepted, document, read, ((List.take_prefix count tokens).map word).trans begins⟩

namespace Grammar

/-- The fillers can be written. -/
theorem exists_scans_of_mem_fillers {terminal : Terminal} (filler : terminal ∈ fillers) :
    ∃ word, Scans word ∧ Terminal.ofWord word = terminal := by
  have written : ∀ terminal ∈ fillers, ∃ token ∈ Token.ofText "view x ; \x7d ]",
      token.kind ≠ .invalid ∧ Terminal.ofToken token = terminal := by decide +kernel
  obtain ⟨token, member, valid, same⟩ := written terminal filler
  exact ⟨token.word, Token.scans member valid, same⟩

theorem exists_words {more : List Terminal} (filling : more ⊆ fillers) :
    ∃ words : List (TokenKind × String), (∀ word ∈ words, Scans word) ∧ words.map Terminal.ofWord = more := by
  induction more with
  | nil => exact ⟨[], by simp, rfl⟩
  | cons terminal rest ih =>
    obtain ⟨words, each, same⟩ := ih fun _ member => filling (List.mem_cons_of_mem _ member)
    obtain ⟨word, scans, isWord⟩ := exists_scans_of_mem_fillers (filling List.mem_cons_self)
    exact ⟨word :: words, List.forall_mem_cons.mpr ⟨scans, each⟩, congrArg₂ List.cons isWord same⟩

end Grammar

open Grammar

/-- Tokens that lead into what a tree writes begin a text that is read. -/
theorem Token.viable_of_leads {text file : String} {front rest : List Token} {tree : Source}
    (split : Token.ofText text = front ++ rest) (valid : ∀ token ∈ front, token.kind ≠ .invalid)
    (leads : Leads (Token.ofText text) tree.terminals rest) : Viable file front := by
  obtain ⟨own, more, splitToo, written, filling⟩ := leads
  obtain rfl : own = front := List.append_cancel_right (splitToo.symm.trans split)
  obtain ⟨words, each, fills⟩ := exists_words filling
  have scans : ∀ word ∈ own.map Token.word ++ words, Scans word := by
    intro word member
    rcases List.mem_append.mp member with inFront | added
    · obtain ⟨token, inside, rfl⟩ := List.mem_map.mp inFront
      exact Token.scans (splitToo ▸ List.mem_append_left _ inside) (valid token inside)
    · exact each word added
  have same := words_spaced scans
  refine ⟨String.ofList (spaced (own.map Token.word ++ words)), tree.document file, parse_eq_ok.mpr ⟨tree, ?_, rfl⟩, ?_⟩
  · rw [terminalsOf_eq_words, same, List.map_append, ← terminalsOf_eq_words, fills, written]
  · rw [same]
    exact List.prefix_append _ _

/-- Where reading gets stuck at a token, no text that is read begins with the tokens before and that one. -/
theorem Token.not_viable_of_stuck {file : String} {front : List Token} {token : Token} {expected : Expected}
    (again : ∀ more, Read.document file (front ++ token :: more) = .error ⟨expected, token :: more⟩) :
    ¬Viable file (front ++ [token]) := by
  rintro ⟨accepted, document, read, begins⟩
  obtain ⟨tree, written, -⟩ := parse_eq_ok.mp read
  obtain ⟨others, same⟩ := begins
  obtain ⟨first, more, split, sameFirst, rfl⟩ := List.map_eq_append_iff.mp same.symm
  have writes : tree.terminals = terminalsOf (front ++ token :: more) := by
    rw [written, split, terminalsOf_eq_words, terminalsOf_eq_words, List.map_append, sameFirst]
    simp
  cases (again more).symm.trans (Read.document_of_terminals writes)

/-! ### Places in the text -/

/-- The bytes of a token stand at its offset. -/
theorem Token.bytesOf_split {text : String} {token : Token} (member : token ∈ Token.ofText text) :
    ∃ before behind, bytesOf text = before ++ (bytesOf token.text ++ behind) ∧ token.offset = before.length := by
  obtain ⟨before, behind, split, place, -⟩ := (tiles_text text).stands member
  refine ⟨bytesOf before, bytesOf behind, ?_, place.trans (Nat.zero_add _)⟩
  simp only [split, bytesOf_eq, String.toList_append, List.flatMap_append, List.append_assoc]

theorem Token.offset_le {text : String} {token : Token} (member : token ∈ Token.ofText text) :
    token.offset ≤ (bytesOf text).length := by
  obtain ⟨before, behind, split, place⟩ := Token.bytesOf_split member
  rw [place, split, List.length_append]
  exact Nat.le_add_right _ _

theorem Token.bytesOf_at_offset {text : String} {token : Token} (member : token ∈ Token.ofText text) :
    bytesOf token.text <+: (bytesOf text).drop token.offset := by
  obtain ⟨before, behind, split, place⟩ := Token.bytesOf_split member
  rw [place, split, List.drop_left]
  exact List.prefix_append _ _

theorem Stuck.position_toError (text : String) (stuck : Stuck) : (stuck.toError text).position =
    (LineStarts.ofText text).position (stuck.rest.head?.elim text.utf8ByteSize Token.offset) := by
  rw [toError]
  cases stuck.rest with
  | nil => exact congrArg (LineStarts.ofText text).position (utf8Length_toList text)
  | cons => rfl

/-- A complaint points at the first token that is impossible where it stands: the tokens before it begin a
text that is read, and no more of them do. Where all tokens begin such a text, the complaint points behind
the text. Its line is the number of newlines before that place, and its column the number of bytes since
the last of them. -/
theorem Document.parse_error_position {text file : String} {error : ParseError}
    (rejected : Document.parse text file = .error error) :
    ∃ count offset,
      IsGreatest {n | n ≤ (Token.ofText text).length ∧ Token.Viable file ((Token.ofText text).take n)} count ∧
      offset = (Token.ofText text)[count]?.elim text.utf8ByteSize Token.offset ∧
      (∀ token, (Token.ofText text)[count]? = some token → bytesOf token.text <+: (bytesOf text).drop offset) ∧
      error.position.line = ((bytesOf text).take offset).count newline ∧
      error.position.column = (((bytesOf text).take offset).reverse.takeWhile (· ≠ newline)).length := by
  obtain ⟨stuck, failed, rfl⟩ := mapError_error.mp rejected
  obtain ⟨front, split, valid, again⟩ := Read.document_stuck failed
  obtain ⟨tree, leads⟩ := Read.leads_document failed
  have viable : Token.Viable file front := Token.viable_of_leads split valid leads
  refine ⟨front.length, _, ⟨⟨?_, ?_⟩, ?_⟩, rfl, fun token isNext => ?_, ?_⟩
  · rw [split, List.length_append]
    exact Nat.le_add_right _ _
  · rwa [split, List.take_left]
  · rintro count ⟨inside, viableToo⟩
    by_contra more
    cases rest : stuck.rest with
    | nil =>
      rw [split, rest, List.append_nil] at inside
      exact more inside
    | cons token behind =>
      rw [rest] at again split
      have begins : Token.Viable file ((Token.ofText text).take (front.length + 1)) := by
        have shorter := viableToo.take (front.length + 1)
        rwa [List.take_take, Nat.min_eq_left (Nat.lt_of_not_le more)] at shorter
      rw [split, List.take_length_add_append] at begins
      exact Token.not_viable_of_stuck (fun more => again (token :: more) rfl) begins
  · rw [isNext]
    exact Token.bytesOf_at_offset (List.mem_of_getElem? isNext)
  · have here : (Token.ofText text)[front.length]? = stuck.rest.head? := by
      rw [split, List.getElem?_append_right (Nat.le_refl _), Nat.sub_self, List.head?_eq_getElem?]
    have inside : stuck.rest.head?.elim text.utf8ByteSize Token.offset ≤ (bytesOf text).length := by
      cases rest : stuck.rest with
      | nil => exact Nat.le_refl _
      | cons token behind => exact Token.offset_le (split ▸ rest ▸ by simp)
    rw [here, Stuck.position_toError, LineStarts.position_ofText text inside]
    exact ⟨rfl, rfl⟩

def missingValue : String := "domain shop;\nview Home \x7b title = ; \x7d"

theorem Document.parse_error_position_missingValue :
    ∃ error, Document.parse missingValue "home" = .error error ∧ error.position = ⟨1, 20⟩ ∧ ∃ count offset,
      IsGreatest {n | n ≤ (Token.ofText missingValue).length ∧
        Token.Viable "home" ((Token.ofText missingValue).take n)} count ∧
      offset = (Token.ofText missingValue)[count]?.elim missingValue.utf8ByteSize Token.offset ∧
      (∀ token, (Token.ofText missingValue)[count]? = some token →
        bytesOf token.text <+: (bytesOf missingValue).drop offset) ∧
      error.position.line = ((bytesOf missingValue).take offset).count newline ∧
      error.position.column = (((bytesOf missingValue).take offset).reverse.takeWhile (· ≠ newline)).length := by
  have fails : (match Document.parse missingValue "home" with
      | .ok _ => none
      | .error error => some error.position) = some ⟨1, 20⟩ := by decide +kernel
  cases rejected : Document.parse missingValue "home" with
  | ok =>
    rw [rejected] at fails
    cases fails
  | error error =>
    rw [rejected] at fails
    exact ⟨error, rfl, Option.some.inj fails, Document.parse_error_position rejected⟩

end Requirements
