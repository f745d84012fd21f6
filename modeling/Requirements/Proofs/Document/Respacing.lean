import Requirements.Proofs.Document.Acceptance
import Requirements.Proofs.Token.Spacing

/-! Texts with the same words. Reading sees the words of a text alone, so that blanks and comments between them
make no difference: where the words of a text are written with other blanks between them, that text is read as
the same document, or neither is read. -/
namespace Requirements

namespace Grammar

def Terminal.ofWord (word : TokenKind × String) : Terminal := .ofToken ⟨word.1, word.2, 0⟩

theorem terminalsOf_eq_words (tokens : List Token) :
    terminalsOf tokens = (tokens.map Token.word).map Terminal.ofWord := by
  rw [terminalsOf, List.map_map]
  rfl

/-- Texts with the same words are read alike. -/
theorem parse_of_words {text other : String}
    (same : (Token.ofText other).map Token.word = (Token.ofText text).map Token.word) (file : String)
    (document : Document) : Document.parse other file = .ok document ↔ Document.parse text file = .ok document := by
  simp only [parse_eq_ok, terminalsOf_eq_words, same]

end Grammar

/-- The words of a text without invalid tokens, written with any blanks around them and some at least between
two, are the words of what is written, and it is read as the text is. -/
theorem Document.parse_respaced {text : String} (valid : ∀ token ∈ Token.ofText text, token.kind ≠ .invalid)
    {lead body : List Char} (blank : ∀ c ∈ lead, isBlankChar c)
    (written : Written ((Token.ofText text).map Token.word) body) :
    (Token.ofText (String.ofList (lead ++ body))).map Token.word = (Token.ofText text).map Token.word ∧
    ∀ file document, Document.parse (String.ofList (lead ++ body)) file = .ok document ↔
      Document.parse text file = .ok document := by
  have each : ∀ word ∈ (Token.ofText text).map Token.word, Scans word := by
    intro word member
    obtain ⟨token, inside, rfl⟩ := List.mem_map.mp member
    exact Token.scans inside (valid token inside)
  have same := words_written written each lead blank
  exact ⟨same, Grammar.parse_of_words same⟩

/-- A text with no blanks but the one it needs. -/
def denseItem : String := "class Item\x7bprice=-1.5;note=\"a b\";\x7d"

def spreadItem : String := "class\tItem \x7b\r\n\tprice = -1.5 ;\n\tnote = \"a b\" ;\n\x7d"

theorem Document.parse_respaced_denseItem : (∀ token ∈ Token.ofText denseItem, token.kind ≠ .invalid) ∧
    (∀ c ∈ ['\n'], isBlankChar c) ∧ Written ((Token.ofText denseItem).map Token.word) spreadItem.toList ∧
    (Token.ofText (String.ofList (['\n'] ++ spreadItem.toList))).map Token.word =
      (Token.ofText denseItem).map Token.word ∧
    ∀ file document, Document.parse (String.ofList (['\n'] ++ spreadItem.toList)) file = .ok document ↔
      Document.parse denseItem file = .ok document := by
  have valid : ∀ token ∈ Token.ofText denseItem, token.kind ≠ .invalid := by decide +kernel
  have blank : ∀ c ∈ ['\n'], isBlankChar c := by simp [isBlankChar]
  have words : (Token.ofText denseItem).map Token.word = [(.identifier, "class"), (.identifier, "Item"),
      (.openBrace, "\x7b"), (.identifier, "price"), (.equals, "="), (.number, "-1.5"), (.semicolon, ";"),
      (.identifier, "note"), (.equals, "="), (.quoted, "\"a b\""), (.semicolon, ";"), (.closeBrace, "\x7d")] := by
    decide +kernel
  have parts : spreadItem.toList =
      "class".toList ++ (['\t'] ++ ("Item".toList ++ ([' '] ++ ("\x7b".toList ++ (['\r', '\n', '\t'] ++
      ("price".toList ++ ([' '] ++ ("=".toList ++ ([' '] ++ ("-1.5".toList ++ ([' '] ++ (";".toList ++ (['\n', '\t'] ++
      ("note".toList ++ ([' '] ++ ("=".toList ++ ([' '] ++ ("\"a b\"".toList ++ ([' '] ++ (";".toList ++ (['\n'] ++
      ("\x7d".toList ++ ([] ++ []))))))))))))))))))))))) := by
    decide +kernel
  have written : Written ((Token.ofText denseItem).map Token.word) spreadItem.toList := by
    rw [words, parts]
    iterate 12 refine .cons (by simp [isBlankChar]) (by simp) ?_
    exact .nil
  exact ⟨valid, blank, written, Document.parse_respaced valid blank written⟩

end Requirements
