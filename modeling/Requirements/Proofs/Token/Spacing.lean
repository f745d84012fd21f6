import Requirements.Proofs.Token.Tiling

/-! Tokens with blanks between them. The text of a valid token is scanned again as that token wherever it stands
before a blank or at the end. So the words of a text, written with any blanks between them, are scanned as the
same words. -/
namespace Requirements

def Token.word (token : Token) : TokenKind × String := (token.kind, token.text)

/-- The text before a blank or at the end is one token of the kind, whatever comes behind. -/
def Scans (word : TokenKind × String) : Prop :=
  ∃ c rest, word.2.toList = c :: rest ∧ ∀ more : List Char, (∀ b ∈ more.head?, isBlankChar b) →
    nextLexeme c (rest ++ more) = (.token word.1, rest.length)

/-! ### What is taken before a blank -/

theorem char_of_number {text : List Char} (member : text ∈ (LexemeKind.token .number).pattern) :
    ∀ c ∈ text, isDigitChar c ∨ c = '-' ∨ c = '.' := by
  obtain ⟨sign, isSign, _, number, rfl⟩ := Language.mem_mul.mp member
  obtain ⟨whole, isDigits, decimals, isFraction, rfl⟩ := Language.mem_mul.mp number
  intro c inside
  rcases List.mem_append.mp inside with inSign | inside
  · obtain rfl | rfl : sign = [] ∨ sign = ['-'] := isSign
    · cases inSign
    · exact .inr (.inl (List.mem_singleton.mp inSign))
  rcases List.mem_append.mp inside with inWhole | inDecimals
  · exact .inl ((mem_digits.mp isDigits).2 c inWhole)
  obtain rfl | ⟨others, areDigits, rfl⟩ := mem_fraction.mp isFraction
  · cases inDecimals
  rcases List.mem_cons.mp inDecimals with rfl | inOthers
  · exact .inr (.inr rfl)
  · exact .inl ((mem_digits.mp areDigits).2 c inOthers)

/-- A token does not go on with a blank behind what is a token of its kind already. -/
theorem not_isBlankChar_behind {kind : TokenKind} {front others : List Char} {b : Char}
    (member : front ∈ (LexemeKind.token kind).pattern)
    (longer : front ++ b :: others ∈ (LexemeKind.token kind).pattern) : ¬isBlankChar b := by
  have inside : b ∈ front ++ b :: others := by simp
  cases kind with
  | identifier =>
    obtain ⟨c, rest, split, start, each⟩ := mem_oneOf_mul_star.mp longer
    rw [split] at inside
    rcases List.mem_cons.mp inside with rfl | behind
    · exact not_isBlankChar (by decide) start
    · exact not_isBlankChar (by decide) (each b behind)
  | number =>
    rcases char_of_number longer b inside with digit | rfl | rfl
    · exact not_isBlankChar (by decide) digit
    · decide
    · decide
  | quoted =>
    -- A string is closed by its first quote that is not escaped, so that it has no longer one.
    obtain ⟨body, isBody, rfl⟩ := mem_mark_mul.mp member
    obtain ⟨more, isMore, split⟩ := mem_mark_mul.mp longer
    obtain rfl := (List.cons.inj split).2
    have shorter := repeats_quotedBody.closed isBody (b :: others)
    have whole := repeats_quotedBody.closed isMore []
    rw [List.append_nil] at whole
    have same := congrArg Body.length (shorter.symm.trans whole)
    simp at same
  | invalid => exact absurd member (Language.notMem_zero front)
  | _ =>
    obtain rfl := mem_mark.mp member
    cases longer

theorem scans_of_pattern {word : TokenKind × String} (member : word.2.toList ∈ (LexemeKind.token word.1).pattern) :
    Scans word := by
  obtain ⟨c, rest, isText, -⟩ := nextLexeme_of_pattern member []
  refine ⟨c, rest, isText, fun more apart => ?_⟩
  rw [isText] at member
  obtain ⟨_, _, same, isKind, least⟩ := nextLexeme_of_pattern member more
  obtain ⟨rfl, rfl⟩ := List.cons.inj same
  obtain ⟨front, behind, split, length, taken⟩ := taken_nextLexeme c (rest ++ more)
  rw [isKind] at taken
  refine Prod.ext isKind (length.trans (congrArg List.length ?_))
  rcases List.append_eq_append_iff.mp split with ⟨extra, rfl, rfl⟩ | ⟨lost, rfl, rfl⟩
  · cases extra with
    | nil => rw [List.append_nil]
    | cons b others =>
      rcases taken with longer | ⟨invalid, -⟩
      · exact absurd (apart b rfl) (not_isBlankChar_behind member longer)
      · rw [LexemeKind.token.inj invalid] at member
        exact absurd member (Language.notMem_zero _)
  · rw [length, List.length_append] at least
    obtain rfl : lost = [] := List.length_eq_zero_iff.mp (by omega)
    rw [List.append_nil]

/-- A token of a text is scanned again before a blank. -/
theorem Token.scans {text : String} {token : Token} (member : token ∈ Token.ofText text)
    (valid : token.kind ≠ .invalid) : Scans token.word := by
  obtain ⟨before, behind, -, -, isNext⟩ := (tiles_text text).stands member
  exact scans_of_pattern (isNext.mem_pattern valid)

/-! ### Texts of words -/

def Lexeme.word? (lexeme : Lexeme) : Option (TokenKind × String) :=
  match lexeme.kind with
  | .token kind => some (kind, String.ofList lexeme.characters)
  | _ => none

theorem words_tokensFrom (offset : Nat) (found : List Lexeme) :
    (tokensFrom offset found).map Token.word = found.filterMap Lexeme.word? := by
  induction found generalizing offset with
  | nil => rfl
  | cons lexeme rest ih =>
    cases isKind : lexeme.kind <;> simp [tokensFrom, Lexeme.word?, isKind, ih, Token.word]

theorem words_ofText (text : String) :
    (Token.ofText text).map Token.word = (lexemes text.toList).filterMap Lexeme.word? :=
  words_tokensFrom 0 (lexemes text.toList)

/-- The text is the words in order, with blanks behind each, some at least between two. -/
inductive Written : List (TokenKind × String) → List Char → Prop
  | nil : Written [] []
  | cons {word : TokenKind × String} {words : List (TokenKind × String)} {gap behind : List Char}
    (blank : ∀ c ∈ gap, isBlankChar c) (apart : words ≠ [] → gap ≠ []) (others : Written words behind) :
    Written (word :: words) (word.2.toList ++ (gap ++ behind))

theorem Scans.not_blank {word : TokenKind × String} (scans : Scans word) (more : List Char) :
    ∀ c ∈ (word.2.toList ++ more).head?, ¬isBlankChar c := by
  obtain ⟨c, rest, isText, again⟩ := scans
  rw [isText]
  rintro c ⟨⟩ blank
  have next := again [] (by simp)
  rw [nextLexeme_blank blank] at next
  cases next

theorem words_behind_blanks {lead text : List Char} (blank : ∀ c ∈ lead, isBlankChar c)
    (starts : ∀ c ∈ text.head?, ¬isBlankChar c) :
    (lexemes (lead ++ text)).filterMap Lexeme.word? = (lexemes text).filterMap Lexeme.word? := by
  cases lead with
  | nil => rfl
  | cons b rest =>
    obtain ⟨first, others⟩ := List.forall_mem_cons.mp blank
    have stops : text.takeWhile isBlankChar = [] := by
      cases text with
      | nil => rfl
      | cons c behind => exact List.takeWhile_cons_of_neg (starts c rfl)
    have length : (nextLexeme b (rest ++ text)).2 = rest.length := by
      rw [nextLexeme_blank first, List.takeWhile_append_of_pos others, stops, List.append_nil]
    rw [List.cons_append, lexemes_append length, nextLexeme_blank first]
    rfl

/-- Words that are written with blanks between them are scanned again. -/
theorem words_written {words : List (TokenKind × String)} {body : List Char} (written : Written words body)
    (each : ∀ word ∈ words, Scans word) (lead : List Char) (blank : ∀ c ∈ lead, isBlankChar c) :
    (Token.ofText (String.ofList (lead ++ body))).map Token.word = words := by
  rw [words_ofText, String.toList_ofList]
  induction written generalizing lead with
  | nil => rw [words_behind_blanks blank (by simp)]; rfl
  | @cons word words gap behind gapBlank apart others ih =>
    obtain ⟨scans, eachOther⟩ := List.forall_mem_cons.mp each
    rw [words_behind_blanks blank (scans.not_blank _)]
    have atGap : ∀ b ∈ (gap ++ behind).head?, isBlankChar b := by
      intro b isHead
      cases gap with
      | cons first rest =>
        cases isHead
        exact gapBlank b List.mem_cons_self
      | nil =>
        obtain rfl : words = [] := by_contra fun some => apart some rfl
        cases others
        cases isHead
    obtain ⟨c, rest, isText, again⟩ := scans
    have next := again _ atGap
    have isWord : (word.1, String.ofList (c :: rest)) = word := by rw [← isText, String.ofList_toList]
    rw [isText, List.cons_append, lexemes_append (congrArg Prod.snd next), next, List.filterMap_cons]
    exact congrArg₂ List.cons isWord (ih eachOther gap gapBlank)

def spaced (words : List (TokenKind × String)) : List Char := words.flatMap fun word => word.2.toList ++ [' ']

theorem spaced_cons (word : TokenKind × String) (rest : List (TokenKind × String)) :
    spaced (word :: rest) = word.2.toList ++ [' '] ++ spaced rest := List.flatMap_cons

theorem spaced_append (front rest : List (TokenKind × String)) : spaced (front ++ rest) = spaced front ++ spaced rest :=
  List.flatMap_append

theorem written_spaced (words : List (TokenKind × String)) : Written words (spaced words) := by
  induction words with
  | nil => exact .nil
  | cons word rest ih =>
    rw [spaced_cons, List.append_assoc]
    exact .cons (by simp [isBlankChar]) (by simp) ih

theorem words_spaced {words : List (TokenKind × String)} (each : ∀ word ∈ words, Scans word) :
    (Token.ofText (String.ofList (spaced words))).map Token.word = words :=
  words_written (written_spaced words) each [] (by simp)

end Requirements
