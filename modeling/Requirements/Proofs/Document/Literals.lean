import Requirements.Proofs.Document.Respacing

/-! Values as string literals. Every value can be written as a literal, by a backslash before each quote and
each backslash; it is scanned as one token, and the value is read from it. In the other direction, no string
token ends in the middle of an escape, so that each backslash in it has the character that it escapes. -/
namespace Requirements

open scoped Computability

def escaped (text : List Char) : List Char := text.flatMap fun c => if c = '"' ∨ c = '\\' then ['\\', c] else [c]

def literal (value : String) : String := String.ofList ('"' :: (escaped value.toList ++ ['"']))

/-! ### Literals are tokens -/

theorem escaped_mem_steps (text : List Char) : escaped text ∈ quotedStep∗ := by
  induction text with
  | nil => exact Language.nil_mem_kstar _
  | cons c rest ih =>
    rw [escaped, List.flatMap_cons]
    refine append_mem_star ?_ ih
    split_ifs with special
    · have sameLine : c ≠ '\n' := by rcases special with rfl | rfl <;> decide
      exact mem_quotedStep.mpr (.inr ⟨c, sameLine, rfl⟩)
    · exact mem_quotedStep.mpr (.inl ⟨c, not_or.mp special, rfl⟩)

theorem literal_mem_pattern (value : String) : (literal value).toList ∈ (LexemeKind.token .quoted).pattern := by
  rw [literal, String.toList_ofList]
  exact mem_mark_mul.mpr ⟨_, mem_mul_mark.mpr ⟨_, escaped_mem_steps _, rfl⟩, rfl⟩

/-- A literal is one token, whatever comes behind. -/
theorem Token.ofText_literal (value behind : String) : Token.ofText (literal value ++ behind) =
    ⟨.quoted, literal value, 0⟩ :: (Token.ofText behind).map (Token.shifted (literal value).utf8ByteSize) := by
  have closed : escaped value.toList ++ ['"'] ∈ quotedStep∗ * {['"']} :=
    mem_mul_mark.mpr ⟨_, escaped_mem_steps _, rfl⟩
  have next : nextLexeme '"' (escaped value.toList ++ ['"'] ++ behind.toList) =
      (.token .quoted, (escaped value.toList ++ ['"']).length) := by
    rw [nextLexeme_quote, repeats_quotedBody.closed closed]
    rfl
  rw [literal, Token.ofText_append (congrArg Prod.snd next), next]
  rfl

namespace Read

theorem unescape_plain {c : Char} (noEscape : c ≠ '\\') (rest : List Char) :
    unescape (c :: rest) = c :: unescape rest := by
  rw [unescape] <;> simp [noEscape]

theorem unescape_escaped (text : List Char) : unescape (escaped text) = text := by
  induction text with
  | nil => rfl
  | cons c rest ih =>
    rw [escaped, List.flatMap_cons]
    split_ifs with special
    · rcases special with rfl | rfl <;> exact congrArg _ ih
    · rw [List.singleton_append, unescape_plain (not_or.mp special).2]
      exact congrArg _ ih

theorem quotedText_ofList (inside : List Char) :
    quotedText (String.ofList ('"' :: (inside ++ ['"']))) = String.ofList (unescape inside) := by
  simp [quotedText]

theorem quotedText_literal (value : String) : quotedText (literal value) = value := by
  rw [literal, quotedText_ofList, unescape_escaped, String.ofList_toList]

/-! ### Escapes of a token -/

/-- What is left of a text each time that its reading comes to a character or an escape. -/
inductive ComesTo : List Char → List Char → Prop
  | here {text : List Char} : ComesTo text text
  | escape {c : Char} {rest left : List Char} (later : ComesTo rest left) : ComesTo ('\\' :: c :: rest) left
  | plain {c : Char} {rest left : List Char} (noEscape : c ≠ '\\') (later : ComesTo rest left) :
    ComesTo (c :: rest) left

/-- An escape is read as one character, which it alone decides. -/
theorem unescape_escape (c : Char) : ∃ d, ∀ rest, unescape ('\\' :: c :: rest) = d :: unescape rest := by
  by_cases newline : c = 'n'
  · exact ⟨'\n', fun rest => by rw [newline, unescape]⟩
  by_cases tab : c = 't'
  · exact ⟨'\t', fun rest => by rw [tab, unescape]⟩
  · exact ⟨c, fun rest => by rw [unescape] <;> simp [newline, tab]⟩

/-- Whole steps of a string are read without regard to what is behind them. -/
theorem unescape_append {inside : List Char} (steps : inside ∈ quotedStep∗) (behind : List Char) :
    unescape (inside ++ behind) = unescape inside ++ unescape behind := by
  refine star_induction (P := fun inside => unescape (inside ++ behind) = unescape inside ++ unescape behind)
    rfl ?_ inside steps
  intro first isStep rest _ ih
  obtain ⟨c, ⟨-, noEscape⟩, rfl⟩ | ⟨c, -, rfl⟩ := mem_quotedStep.mp isStep
  · rw [List.singleton_append, List.cons_append, unescape_plain noEscape, unescape_plain noEscape, ih]
    rfl
  · obtain ⟨d, read⟩ := unescape_escape c
    have before : ['\\', c] ++ rest ++ behind = '\\' :: c :: (rest ++ behind) := rfl
    have alone : ['\\', c] ++ rest = '\\' :: c :: rest := rfl
    rw [before, alone, read, read, ih]
    rfl

theorem not_comesTo_escape {inside : List Char} (steps : inside ∈ quotedStep∗) : ¬ComesTo inside ['\\'] := by
  refine star_induction (P := fun inside => ¬ComesTo inside ['\\']) (fun comes => by cases comes) ?_ inside steps
  intro first isStep rest _ ih comes
  obtain ⟨c, ⟨-, noEscape⟩, rfl⟩ | ⟨c, -, rfl⟩ := mem_quotedStep.mp isStep
  · cases comes with
    | here => exact noEscape rfl
    | escape later => exact noEscape rfl
    | plain _ later => exact ih later
  · cases comes with
    | escape later => exact ih later
    | plain noEscape later => exact noEscape rfl

end Read

/-! ### A literal in a document -/

def noteText (value : String) : String := "class Note \x7b text = " ++ literal value ++ " ; \x7d "

def note (value file : String) : Document :=
  { elements := [{ kind := .classType, name := ⟨"Note", none⟩, properties := [{ key := "text", value := some value }],
                   file }] }

def noteWords (value : String) : List (TokenKind × String) :=
  (Token.ofText "class Note \x7b text =").map Token.word ++
    (.quoted, literal value) :: (Token.ofText "; \x7d").map Token.word

theorem noteText_eq (value : String) : noteText value = String.ofList (spaced (noteWords value)) := by
  have before : spaced ((Token.ofText "class Note \x7b text =").map Token.word) = "class Note \x7b text = ".toList := by
    decide +kernel
  have behind : spaced ((Token.ofText "; \x7d").map Token.word) = "; \x7d ".toList := by decide +kernel
  rw [noteWords, spaced_append, spaced_cons, before, behind]
  unfold noteText
  simp only [String.ofList_append, String.ofList_toList, String.append_assoc]
  rfl

theorem words_noteText (value : String) : (Token.ofText (noteText value)).map Token.word = noteWords value := by
  have valid : ∀ text ∈ ["class Note \x7b text =", "; \x7d"], ∀ token ∈ Token.ofText text, token.kind ≠ .invalid := by
    decide +kernel
  rw [noteText_eq]
  refine words_spaced fun word member => ?_
  rcases List.mem_append.mp member with inFront | inRest
  · obtain ⟨token, inside, rfl⟩ := List.mem_map.mp inFront
    exact Token.scans inside (valid _ (by simp) token inside)
  rcases List.mem_cons.mp inRest with rfl | inBehind
  · exact scans_of_pattern (literal_mem_pattern value)
  · obtain ⟨token, inside, rfl⟩ := List.mem_map.mp inBehind
    exact Token.scans inside (valid _ (by simp) token inside)

open Grammar in
theorem parse_noteText (value file : String) : Document.parse (noteText value) file = .ok (note value file) := by
  have before : ((Token.ofText "class Note \x7b text =").map Token.word).map Terminal.ofWord =
      [.identifier "class", .identifier "Note", .mark .openBrace, .identifier "text", .mark .equals] := by
    decide +kernel
  have behind : ((Token.ofText "; \x7d").map Token.word).map Terminal.ofWord =
      [.mark .semicolon, .mark .closeBrace] := by decide +kernel
  have name : QualifiedName.parse "Note" = ⟨"Note", none⟩ := by decide +kernel
  refine parse_eq_ok.mpr ⟨⟨none, [⟨.classType, ⟨"Note", []⟩, none, none,
    some [.property (.plain ⟨"text", .absent, none, .single (.quoted (literal value))⟩) rfl]⟩]⟩, ?_, ?_⟩
  · rw [terminalsOf_eq_words, words_noteText, noteWords, List.map_append, List.map_cons, before, behind]
    rfl
  · simp [Source.document, Declaration.element, Declaration.members, Member.property?, Member.feature?, Member.call?,
      Node.property, Head.property, Typing.typeName, Typing.isList, Assignment.value, Assignment.values, Value.text,
      stringText_eq, Read.quotedText_literal, Name.reference, Name.text, name, Declaration.completed, note]

/-! ### String tokens -/

/-- Every value is expressible: its literal is one string token and nothing else, and the value is what is read
from the token, wherever a value is read, and what a property has that is set to it. And no string token of a
text ends in the middle of an escape: between its quotes, reading never comes to a backslash that is the last
character, and what is read there does not depend on what is behind. -/
theorem Token.values_of_literals :
    (∀ value : String, Token.ofText (literal value) = [⟨.quoted, literal value, 0⟩] ∧
      (∀ offset rest, Read.value (⟨.quoted, literal value, offset⟩ :: rest) = .ok (value, rest)) ∧
      ∀ file, Document.parse (noteText value) file = .ok (note value file)) ∧
    ∀ text, ∀ token ∈ Token.ofText text, token.kind = .quoted → ∃ inside : List Char,
      token.text.toList = '"' :: (inside ++ ['"']) ∧
      Read.quotedText token.text = String.ofList (Read.unescape inside) ∧
      ¬Read.ComesTo inside ['\\'] ∧
      ∀ behind, Read.unescape (inside ++ behind) = Read.unescape inside ++ Read.unescape behind := by
  constructor
  · intro value
    refine ⟨?_, fun offset rest => ?_, parse_noteText value⟩
    · have alone := Token.ofText_literal value ""
      rwa [String.append_empty] at alone
    · exact congrArg (fun text => Except.ok (text, rest)) (Read.quotedText_literal value)
  · intro text token member isQuoted
    obtain ⟨before, behind, -, -, isNext⟩ := (tiles_text text).stands member
    have allowed := isNext.mem_pattern (by rw [isQuoted]; decide)
    rw [isQuoted] at allowed
    obtain ⟨_, closed, opens⟩ := mem_mark_mul.mp allowed
    obtain ⟨inside, steps, rfl⟩ := mem_mul_mark.mp closed
    refine ⟨inside, opens.symm, ?_, Read.not_comesTo_escape steps, Read.unescape_append steps⟩
    rw [← Read.quotedText_ofList, ← List.singleton_append, opens, String.ofList_toList]

end Requirements
