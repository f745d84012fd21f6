import Mathlib.Computability.Language
import Mathlib.Data.List.TakeWhile
import Requirements.Token.Scan

/-! The pattern of each kind of lexeme, as a language. What is scanned at the front of a text is the longest
stretch there that some pattern has. Where no pattern has any, it is the longest unfinished one: a single
character, or a string or a block comment that is not closed, up to the last whole step of its repetition. -/
namespace Requirements

open scoped Computability

def oneOf (allowed : Char → Bool) : Language Char := {text | ∃ c, allowed c ∧ text = [c]}

def digits : Language Char := oneOf isDigitChar * (oneOf isDigitChar)∗

def fraction : Language Char := 1 + {['.']} * digits

/-- A star in a block comment takes the character behind it along, a second star too. -/
def commentStep : Language Char := oneOf (· ≠ '*') + {['*']} * oneOf (· ≠ '/')

def quotedStep : Language Char := oneOf (fun c => c ≠ '"' && c ≠ '\\') + {['\\']} * oneOf (· ≠ '\n')

def LexemeKind.pattern : LexemeKind → Language Char
  | blank => oneOf isBlankChar * (oneOf isBlankChar)∗
  | lineComment => {['/', '/']} * (oneOf (· ≠ '\n'))∗
  | blockComment => {['/', '*']} * (commentStep∗ * {['*', '/']})
  | token .identifier => oneOf isWordStart * (oneOf isWordChar)∗
  | token .number => (1 + {['-']}) * (digits * fraction)
  | token .quoted => {['"']} * (quotedStep∗ * {['"']})
  | token .openBrace => {['{']}
  | token .closeBrace => {['}']}
  | token .openBracket => {['[']}
  | token .closeBracket => {[']']}
  | token .colon => {[':']}
  | token .semicolon => {[';']}
  | token .equals => {['=']}
  | token .comma => {[',']}
  | token .dot => {['.']}
  | token .invalid => 0

/-- What an invalid token can be. -/
def unfinished : Language Char := oneOf (fun _ => true) + {['"']} * quotedStep∗ + {['/', '*']} * commentStep∗

/-! ### Languages -/

section

variable {p q : Char → Bool} {step : Language Char} {text front rest : List Char}

theorem mem_mark {mark : List Char} : text ∈ ({mark} : Language Char) ↔ text = mark := Iff.rfl

theorem append_mem_star (first : front ∈ step) (others : rest ∈ step∗) : front ++ rest ∈ step∗ := by
  obtain ⟨parts, rfl, each⟩ := others
  exact ⟨front :: parts, rfl, List.forall_mem_cons.mpr ⟨first, each⟩⟩

/-- A text of steps is empty, or it starts with a step. -/
theorem star_induction {P : List Char → Prop} (nil : P [])
    (append : ∀ front ∈ step, ∀ rest ∈ step∗, P rest → P (front ++ rest)) : ∀ text ∈ step∗, P text := by
  rintro text ⟨parts, rfl, each⟩
  induction parts with
  | nil => exact nil
  | cons front parts ih =>
    obtain ⟨first, others⟩ := List.forall_mem_cons.mp each
    exact append front first parts.flatten (Language.join_mem_kstar others) (ih others)

theorem append_star_mem_star (first : front ∈ step∗) (others : rest ∈ step∗) : front ++ rest ∈ step∗ := by
  refine star_induction (P := fun front => front ++ rest ∈ step∗) others ?_ front first
  intro part isPart more _ ih
  rw [List.append_assoc]
  exact append_mem_star isPart ih

theorem mem_star_oneOf : text ∈ (oneOf p)∗ ↔ ∀ c ∈ text, p c := by
  constructor
  · refine star_induction (P := fun text => ∀ c ∈ text, p c) (List.forall_mem_nil _) ?_ text
    rintro front ⟨c, allowed, rfl⟩ rest - others
    exact List.forall_mem_cons.mpr ⟨allowed, others⟩
  · intro allowed
    induction text with
    | nil => exact Language.nil_mem_kstar _
    | cons c rest ih =>
      obtain ⟨first, others⟩ := List.forall_mem_cons.mp allowed
      have single : [c] ∈ oneOf p := ⟨c, first, rfl⟩
      exact append_mem_star single (ih others)

/-- A first character and others. -/
theorem mem_oneOf_mul_star : text ∈ oneOf p * (oneOf q)∗ ↔ ∃ c rest, text = c :: rest ∧ p c ∧ ∀ d ∈ rest, q d := by
  rw [Language.mem_mul]
  constructor
  · rintro ⟨_, ⟨c, first, rfl⟩, rest, others, rfl⟩
    exact ⟨c, rest, rfl, first, mem_star_oneOf.mp others⟩
  · rintro ⟨c, rest, rfl, first, others⟩
    exact ⟨[c], ⟨c, first, rfl⟩, rest, mem_star_oneOf.mpr others, rfl⟩

theorem mem_digits : text ∈ digits ↔ text ≠ [] ∧ ∀ c ∈ text, isDigitChar c := by
  rw [digits, mem_oneOf_mul_star]
  constructor
  · rintro ⟨c, rest, rfl, first, others⟩
    exact ⟨by simp, List.forall_mem_cons.mpr ⟨first, others⟩⟩
  · rintro ⟨some, each⟩
    obtain ⟨c, rest, rfl⟩ := List.exists_cons_of_ne_nil some
    exact ⟨c, rest, rfl, List.forall_mem_cons.mp each⟩

theorem mem_mark_mul {mark : List Char} : text ∈ {mark} * step ↔ ∃ rest ∈ step, mark ++ rest = text := by
  simp [Language.mem_mul, mem_mark]

theorem mem_mul_mark {mark : List Char} : text ∈ step * {mark} ↔ ∃ front ∈ step, front ++ mark = text := by
  simp [Language.mem_mul, mem_mark]

/-- A single character, or a mark with the character behind it. -/
theorem mem_oneOf_add_pair {mark : Char} : text ∈ oneOf p + {[mark]} * oneOf q ↔
    (∃ c, p c ∧ text = [c]) ∨ ∃ c, q c ∧ text = [mark, c] := by
  rw [Language.mem_add, mem_mark_mul]
  refine or_congr Iff.rfl ⟨?_, ?_⟩
  · rintro ⟨_, ⟨c, behind, rfl⟩, rfl⟩
    exact ⟨c, behind, rfl⟩
  · rintro ⟨c, behind, rfl⟩
    exact ⟨[c], ⟨c, behind, rfl⟩, rfl⟩

theorem mem_commentStep : text ∈ commentStep ↔ (∃ c, c ≠ '*' ∧ text = [c]) ∨ ∃ c, c ≠ '/' ∧ text = ['*', c] := by
  rw [commentStep, mem_oneOf_add_pair]
  simp

theorem mem_quotedStep : text ∈ quotedStep ↔
    (∃ c, (c ≠ '"' ∧ c ≠ '\\') ∧ text = [c]) ∨ ∃ c, c ≠ '\n' ∧ text = ['\\', c] := by
  rw [quotedStep, mem_oneOf_add_pair]
  simp

/-- What is allowed at the front is taken. -/
theorem length_le_takeWhile (allowed : ∀ c ∈ front, p c) (rest : List Char) :
    front.length ≤ ((front ++ rest).takeWhile p).length := by
  simp [List.takeWhile_append_of_pos allowed]

theorem takeWhile_taken (p : Char → Bool) (text : List Char) : ∃ front behind,
    text = front ++ behind ∧ (text.takeWhile p).length = front.length ∧ ∀ c ∈ front, p c :=
  ⟨text.takeWhile p, text.dropWhile p, by simp, rfl, fun _ => List.mem_takeWhile_imp⟩

end

/-! ### Repetitions with a closing mark -/

/-- The scan goes over the steps of a repetition, up to the mark that closes it or as far as there are whole
steps. -/
structure Repeats (step : Language Char) (mark : List Char) (scan : List Char → Body) : Prop where
  goesOn : ∀ first ∈ step, first ≠ [] ∧ ∀ rest, scan (first ++ rest) = (scan rest).shift first.length
  closes : ∀ rest, scan (mark ++ rest) = ⟨true, mark.length⟩
  stops : ∀ text, (∃ first ∈ step, first <+: text) ∨ mark <+: text ∨ scan text = ⟨false, 0⟩

namespace Repeats

variable {step : Language Char} {mark : List Char} {scan : List Char → Body}

theorem steps (repeats : Repeats step mark scan) {steps : List Char} (member : steps ∈ step∗) (rest : List Char) :
    scan (steps ++ rest) = (scan rest).shift steps.length := by
  refine star_induction (P := fun steps => scan (steps ++ rest) = (scan rest).shift steps.length) rfl ?_ steps member
  intro first isStep others _ ih
  rw [List.append_assoc, (repeats.goesOn first isStep).2, ih]
  simp only [Body.shift, List.length_append, Body.mk.injEq, true_and]
  omega

theorem closed (repeats : Repeats step mark scan) {front : List Char} (member : front ∈ step∗ * {mark})
    (rest : List Char) : scan (front ++ rest) = ⟨true, front.length⟩ := by
  obtain ⟨steps, isSteps, rfl⟩ := mem_mul_mark.mp member
  simp [repeats.steps isSteps, repeats.closes, Body.shift, Nat.add_comm]

theorem length_le (repeats : Repeats step mark scan) {steps : List Char} (member : steps ∈ step∗)
    (rest : List Char) : steps.length ≤ (scan (steps ++ rest)).length := by
  simp [repeats.steps member, Body.shift]

/-- What the scan takes are whole steps, and the mark where it is closed. -/
theorem taken (repeats : Repeats step mark scan) (text : List Char) :
    ∃ front behind, text = front ++ behind ∧ (scan text).length = front.length ∧
      if (scan text).closed then front ∈ step∗ * {mark} else front ∈ step∗ := by
  induction size : text.length using Nat.strong_induction_on generalizing text with
  | _ count ih =>
    rcases repeats.stops text with ⟨first, isStep, rest, rfl⟩ | ⟨rest, rfl⟩ | stopped
    · obtain ⟨some, next⟩ := repeats.goesOn first isStep
      have shorter : rest.length < count := by
        have := List.length_pos_iff.mpr some
        simp only [List.length_append] at size
        omega
      obtain ⟨front, behind, split, length, member⟩ := ih _ shorter rest rfl
      refine ⟨first ++ front, behind, by rw [split, List.append_assoc], ?_, ?_⟩
      · simp [next, length, Body.shift, Nat.add_comm]
      · rw [next]
        by_cases closed : (scan rest).closed
        · rw [if_pos closed] at member
          obtain ⟨steps, isSteps, rfl⟩ := mem_mul_mark.mp member
          rw [Body.shift, if_pos closed]
          exact mem_mul_mark.mpr ⟨first ++ steps, append_mem_star isStep isSteps, List.append_assoc ..⟩
        · rw [if_neg closed] at member
          rw [Body.shift, if_neg closed]
          exact append_mem_star isStep member
    · refine ⟨mark, rest, rfl, by rw [repeats.closes], ?_⟩
      simp only [repeats.closes, if_true]
      exact mem_mul_mark.mpr ⟨[], Language.nil_mem_kstar _, rfl⟩
    · exact ⟨[], text, rfl, by rw [stopped, List.length_nil], by simp [stopped, Language.nil_mem_kstar]⟩

end Repeats

theorem commentBody_plain {c : Char} (noStar : c ≠ '*') (rest : List Char) :
    commentBody (c :: rest) = (commentBody rest).shift 1 := by
  rw [commentBody] <;> simp [noStar]

theorem commentBody_star {c : Char} (noSlash : c ≠ '/') (rest : List Char) :
    commentBody ('*' :: c :: rest) = (commentBody rest).shift 2 := by
  rw [commentBody]
  simp [noSlash]

theorem repeats_commentBody : Repeats commentStep ['*', '/'] commentBody where
  goesOn := by
    intro first isStep
    obtain ⟨c, noStar, rfl⟩ | ⟨c, noSlash, rfl⟩ := mem_commentStep.mp isStep
    · exact ⟨by simp, commentBody_plain noStar⟩
    · exact ⟨by simp, commentBody_star noSlash⟩
  closes rest := rfl
  stops text := by
    rcases text with _ | ⟨c, rest⟩
    · exact .inr (.inr rfl)
    · by_cases star : c = '*'
      · subst star
        rcases rest with _ | ⟨d, rest⟩
        · exact .inr (.inr rfl)
        · by_cases slash : d = '/'
          · exact .inr (.inl ⟨rest, by simp [slash]⟩)
          · exact .inl ⟨['*', d], mem_commentStep.mpr (.inr ⟨d, slash, rfl⟩), rest, rfl⟩
      · exact .inl ⟨[c], mem_commentStep.mpr (.inl ⟨c, star, rfl⟩), rest, rfl⟩

theorem quotedBody_plain {c : Char} (noQuote : c ≠ '"') (noEscape : c ≠ '\\') (rest : List Char) :
    quotedBody (c :: rest) = (quotedBody rest).shift 1 := by
  rw [quotedBody] <;> simp [noQuote, noEscape]

theorem quotedBody_escape {c : Char} (sameLine : c ≠ '\n') (rest : List Char) :
    quotedBody ('\\' :: c :: rest) = (quotedBody rest).shift 2 := by
  rw [quotedBody, if_neg sameLine]

theorem repeats_quotedBody : Repeats quotedStep ['"'] quotedBody where
  goesOn := by
    intro first isStep
    obtain ⟨c, ⟨noQuote, noEscape⟩, rfl⟩ | ⟨c, sameLine, rfl⟩ := mem_quotedStep.mp isStep
    · exact ⟨by simp, quotedBody_plain noQuote noEscape⟩
    · exact ⟨by simp, quotedBody_escape sameLine⟩
  closes rest := rfl
  stops text := by
    rcases text with _ | ⟨c, rest⟩
    · exact .inr (.inr rfl)
    · by_cases quote : c = '"'
      · exact .inr (.inl ⟨rest, by simp [quote]⟩)
      · by_cases escape : c = '\\'
        · subst escape
          rcases rest with _ | ⟨d, rest⟩
          · exact .inr (.inr rfl)
          · by_cases newLine : d = '\n'
            · exact .inr (.inr (by rw [quotedBody, if_pos newLine]))
            · exact .inl ⟨['\\', d], mem_quotedStep.mpr (.inr ⟨d, newLine, rfl⟩), rest, rfl⟩
        · exact .inl ⟨[c], mem_quotedStep.mpr (.inl ⟨c, ⟨quote, escape⟩, rfl⟩), rest, rfl⟩

/-! ### Numbers -/

theorem fractionLength_dot (rest : List Char) : fractionLength ('.' :: rest) =
    if rest.takeWhile isDigitChar = [] then 0 else 1 + (rest.takeWhile isDigitChar).length := by
  rw [fractionLength]
  split
  next none => rw [if_pos (List.length_eq_zero_iff.mp none)]
  next some => rw [if_neg fun none => some (List.length_eq_zero_iff.mpr none)]

theorem numberLength_eq (text : List Char) : numberLength text =
    if text.takeWhile isDigitChar = [] then 0
    else (text.takeWhile isDigitChar).length + fractionLength (text.dropWhile isDigitChar) := by
  have behind : text.drop (text.takeWhile isDigitChar).length = text.dropWhile isDigitChar := by
    conv => enter [1, 2]; rw [← List.takeWhile_append_dropWhile (p := isDigitChar) (l := text)]
    exact List.drop_left
  rw [numberLength]
  split
  next none => rw [if_pos (List.length_eq_zero_iff.mp none)]
  next some => rw [if_neg fun none => some (List.length_eq_zero_iff.mpr none), behind]

theorem mem_fraction {text : List Char} : text ∈ fraction ↔ text = [] ∨ ∃ rest ∈ digits, '.' :: rest = text :=
  or_congr Iff.rfl mem_mark_mul

theorem fractionLength_taken (text : List Char) : ∃ front behind,
    text = front ++ behind ∧ fractionLength text = front.length ∧ front ∈ fraction := by
  by_cases point : ∃ rest, text = '.' :: rest ∧ rest.takeWhile isDigitChar ≠ []
  · obtain ⟨rest, rfl, some⟩ := point
    refine ⟨'.' :: rest.takeWhile isDigitChar, rest.dropWhile isDigitChar, by simp, ?_, ?_⟩
    · simp [fractionLength_dot, some, Nat.add_comm]
    · exact mem_fraction.mpr (.inr ⟨_, mem_digits.mpr ⟨some, fun _ => List.mem_takeWhile_imp⟩, rfl⟩)
  · refine ⟨[], text, rfl, ?_, mem_fraction.mpr (.inl rfl)⟩
    by_cases starts : text.head? = some '.'
    · obtain ⟨rest, rfl⟩ := List.head?_eq_some_iff.mp starts
      rw [fractionLength_dot, if_pos (by_contra fun some => point ⟨rest, rfl, some⟩), List.length_nil]
    · rw [fractionLength, List.length_nil]
      rintro rest rfl
      exact starts rfl

theorem length_le_fractionLength {front : List Char} (member : front ∈ fraction) (rest : List Char) :
    front.length ≤ fractionLength (front ++ rest) := by
  obtain rfl | ⟨decimals, isDigits, rfl⟩ := mem_fraction.mp member
  · exact Nat.zero_le _
  · obtain ⟨some, each⟩ := mem_digits.mp isDigits
    have taken := length_le_takeWhile each rest
    have first := List.length_pos_iff.mpr some
    have any : (decimals ++ rest).takeWhile isDigitChar ≠ [] := List.length_pos_iff.mp (by omega)
    rw [List.cons_append, fractionLength_dot, if_neg any, List.length_cons]
    omega

/-- Where no digit is next, no number is. -/
theorem numberLength_taken (text : List Char) : ∃ front behind,
    text = front ++ behind ∧ numberLength text = front.length ∧ (front = [] ∨ front ∈ digits * fraction) := by
  rw [numberLength_eq]
  by_cases none : text.takeWhile isDigitChar = []
  · exact ⟨[], text, rfl, by simp [none], .inl rfl⟩
  · obtain ⟨front, behind, split, length, isFraction⟩ := fractionLength_taken (text.dropWhile isDigitChar)
    refine ⟨text.takeWhile isDigitChar ++ front, behind, ?_, by simp [none, length], .inr ?_⟩
    · rw [List.append_assoc, ← split, List.takeWhile_append_dropWhile]
    · exact Language.append_mem_mul (mem_digits.mpr ⟨none, fun _ => List.mem_takeWhile_imp⟩) isFraction

theorem length_le_numberLength {front : List Char} (member : front ∈ digits * fraction) (rest : List Char) :
    front.length ≤ numberLength (front ++ rest) := by
  obtain ⟨whole, isDigits, decimals, isFraction, rfl⟩ := Language.mem_mul.mp member
  obtain ⟨some, each⟩ := mem_digits.mp isDigits
  have taken := length_le_takeWhile each (decimals ++ rest)
  have first := List.length_pos_iff.mpr some
  have any : (whole ++ (decimals ++ rest)).takeWhile isDigitChar ≠ [] := List.length_pos_iff.mp (by omega)
  rw [List.append_assoc, numberLength_eq, if_neg any, List.length_append]
  obtain rfl | ⟨others, -, rfl⟩ := mem_fraction.mp isFraction
  · simp only [List.length_nil]
    omega
  · -- The point ends the digits before it, so that the fraction is read from there.
    have stops : ('.' :: others ++ rest).takeWhile isDigitChar = [] := rfl
    have behind : ('.' :: others ++ rest).dropWhile isDigitChar = '.' :: others ++ rest := rfl
    rw [List.takeWhile_append_of_pos each, List.dropWhile_append_of_pos each, stops, behind, List.append_nil]
    have := length_le_fractionLength isFraction rest
    omega

/-! ### Lexemes by their first character -/

section

variable {c : Char}

/-- A test that no blank passes tells that a character is none. -/
theorem not_isBlankChar {p : Char → Bool} (none : [' ', '\t', '\r', '\n'].any p = false) (passes : p c) :
    ¬isBlankChar c := by
  intro blank
  simp only [isBlankChar, Bool.or_eq_true, beq_iff_eq] at blank
  exact List.any_eq_false.mp none c (by simp; tauto) passes

theorem not_isWordStart_of_isDigitChar (digit : isDigitChar c) : ¬isWordStart c := by
  simp only [isDigitChar, isWordStart, Bool.and_eq_true, Bool.or_eq_true, decide_eq_true_eq, beq_iff_eq,
    Char.le_def, UInt32.le_iff_toNat_le] at digit ⊢
  rintro ((⟨low, -⟩ | ⟨low, -⟩) | rfl)
  · exact absurd (low.trans digit.2) (by decide)
  · exact absurd (low.trans digit.2) (by decide)
  · exact absurd digit (by decide)

theorem nextLexeme_blank (blank : isBlankChar c) (text : List Char) :
    nextLexeme c text = (.blank, (text.takeWhile isBlankChar).length) := by
  rw [nextLexeme.eq_def, if_pos blank]

theorem nextLexeme_word (start : isWordStart c) (text : List Char) :
    nextLexeme c text = (.token .identifier, (text.takeWhile isWordChar).length) := by
  rw [nextLexeme.eq_def, if_neg (not_isBlankChar (by decide) start), if_pos start]

theorem nextLexeme_digit (digit : isDigitChar c) (text : List Char) :
    nextLexeme c text = (.token .number, numberLength (c :: text) - 1) := by
  rw [nextLexeme.eq_def, if_neg (not_isBlankChar (by decide) digit), if_neg (not_isWordStart_of_isDigitChar digit),
    if_pos digit]

theorem nextLexeme_minus (text : List Char) : nextLexeme '-' text =
    if numberLength text = 0 then (.token .invalid, 0) else (.token .number, numberLength text) := by
  rw [nextLexeme.eq_def, if_neg (by decide), if_neg (by decide), if_neg (by decide), if_pos rfl]
  cases numberLength text <;> rfl

theorem nextLexeme_quote (text : List Char) : nextLexeme '"' text =
    (.token (if (quotedBody text).closed then .quoted else .invalid), (quotedBody text).length) := rfl

theorem nextLexeme_lineComment (text : List Char) :
    nextLexeme '/' ('/' :: text) = (.lineComment, 1 + (text.takeWhile (· ≠ '\n')).length) := rfl

theorem nextLexeme_blockComment (text : List Char) : nextLexeme '/' ('*' :: text) =
    (if (commentBody text).closed then .blockComment else .token .invalid, 1 + (commentBody text).length) := rfl

theorem nextLexeme_slash {text : List Char} (noLine : text.head? ≠ some '/') (noBlock : text.head? ≠ some '*') :
    nextLexeme '/' text = (.token .invalid, 0) := by
  rw [nextLexeme.eq_def, if_neg (by decide), if_neg (by decide), if_neg (by decide), if_neg (by decide),
    if_neg (by decide), if_pos rfl]
  split
  next => exact absurd rfl noLine
  next => exact absurd rfl noBlock
  next => rfl

theorem nextLexeme_mark (noBlank : ¬isBlankChar c) (noStart : ¬isWordStart c) (noDigit : ¬isDigitChar c)
    (noMinus : c ≠ '-') (noQuote : c ≠ '"') (noSlash : c ≠ '/') (text : List Char) :
    nextLexeme c text = (.token ((punctuation? c).getD .invalid), 0) := by
  rw [nextLexeme.eq_def, if_neg noBlank, if_neg noStart, if_neg noDigit, if_neg noMinus, if_neg noQuote,
    if_neg noSlash]
  cases punctuation? c <;> rfl

end

/-! ### The longest match -/

/-- Where a pattern has a front of the text, a lexeme of its kind is scanned that is no shorter. -/
theorem nextLexeme_of_pattern {kind : LexemeKind} {front : List Char} (member : front ∈ kind.pattern)
    (behind : List Char) : ∃ c rest, front = c :: rest ∧ (nextLexeme c (rest ++ behind)).1 = kind ∧
      rest.length ≤ (nextLexeme c (rest ++ behind)).2 := by
  cases kind with
  | blank =>
    obtain ⟨c, rest, rfl, first, others⟩ := mem_oneOf_mul_star.mp member
    refine ⟨c, rest, rfl, ?_⟩
    rw [nextLexeme_blank first]
    exact ⟨rfl, length_le_takeWhile others behind⟩
  | lineComment =>
    obtain ⟨line, inLine, rfl⟩ := mem_mark_mul.mp member
    refine ⟨'/', '/' :: line, rfl, rfl, ?_⟩
    have taken := length_le_takeWhile (mem_star_oneOf.mp inLine) behind
    simp only [List.cons_append, nextLexeme_lineComment, List.length_cons]
    omega
  | blockComment =>
    obtain ⟨body, isBody, rfl⟩ := mem_mark_mul.mp member
    refine ⟨'/', '*' :: body, rfl, ?_⟩
    rw [List.cons_append, nextLexeme_blockComment, repeats_commentBody.closed isBody]
    exact ⟨rfl, Nat.le_of_eq (Nat.add_comm ..)⟩
  | token kind =>
    cases kind with
    | identifier =>
      obtain ⟨c, rest, rfl, first, others⟩ := mem_oneOf_mul_star.mp member
      refine ⟨c, rest, rfl, ?_⟩
      rw [nextLexeme_word first]
      exact ⟨rfl, length_le_takeWhile others behind⟩
    | number =>
      obtain ⟨sign, isSign, number, isNumber, rfl⟩ := Language.mem_mul.mp member
      have taken := length_le_numberLength isNumber behind
      obtain ⟨whole, isDigits, decimals, -, rfl⟩ := Language.mem_mul.mp isNumber
      obtain ⟨some, each⟩ := mem_digits.mp isDigits
      obtain ⟨c, rest, rfl⟩ := List.exists_cons_of_ne_nil some
      simp only [List.cons_append, List.length_cons] at taken
      obtain rfl | rfl : sign = [] ∨ sign = ['-'] := isSign
      · refine ⟨c, rest ++ decimals, rfl, ?_⟩
        rw [nextLexeme_digit (each c List.mem_cons_self)]
        exact ⟨rfl, Nat.le_sub_of_add_le taken⟩
      · refine ⟨'-', c :: rest ++ decimals, rfl, ?_⟩
        have found : numberLength (c :: rest ++ decimals ++ behind) ≠ 0 := Nat.ne_of_gt (Nat.zero_lt_of_lt taken)
        rw [nextLexeme_minus, if_neg found]
        exact ⟨rfl, taken⟩
    | quoted =>
      obtain ⟨body, isBody, rfl⟩ := mem_mark_mul.mp member
      refine ⟨'"', body, rfl, ?_⟩
      rw [nextLexeme_quote, repeats_quotedBody.closed isBody]
      exact ⟨rfl, Nat.le_refl _⟩
    | invalid => exact absurd member (Language.notMem_zero front)
    | _ =>
      obtain rfl := mem_mark.mp member
      exact ⟨_, [], rfl, rfl, Nat.zero_le _⟩

/-- What is taken behind the first character is, with it, in the pattern of the kind, or it is invalid and
unfinished. -/
def Taken (next : LexemeKind × Nat) (c : Char) (text : List Char) : Prop :=
  ∃ front behind, text = front ++ behind ∧ next.2 = front.length ∧
    (c :: front ∈ next.1.pattern ∨ next.1 = .token .invalid ∧ c :: front ∈ unfinished)

theorem taken_alone (c : Char) (text : List Char) : Taken (.token .invalid, 0) c text :=
  ⟨[], text, rfl, rfl, .inr ⟨rfl, .inl (.inl ⟨c, rfl, rfl⟩)⟩⟩

theorem taken_digit {c : Char} (digit : isDigitChar c) (text : List Char) : Taken (nextLexeme c text) c text := by
  obtain ⟨front, behind, split, length, isNumber⟩ := numberLength_taken (c :: text)
  have first : [c] ∈ digits * fraction :=
    Language.mem_mul.mpr ⟨[c], mem_digits.mpr ⟨by simp, by simpa using digit⟩, [], .inl rfl, rfl⟩
  have some : front ≠ [] := by
    have := length_le_numberLength first text
    rintro rfl
    simp [length] at this
  obtain ⟨_, others, rfl⟩ := List.exists_cons_of_ne_nil some
  obtain ⟨rfl, rfl⟩ := List.cons.inj split
  rw [nextLexeme_digit digit]
  refine ⟨others, behind, rfl, ?_, .inl ?_⟩
  · exact Nat.sub_eq_of_eq_add length
  · exact Language.mem_mul.mpr ⟨[], .inl rfl, _, isNumber.resolve_left some, rfl⟩

theorem taken_minus (text : List Char) : Taken (nextLexeme '-' text) '-' text := by
  obtain ⟨front, behind, split, length, isNumber⟩ := numberLength_taken text
  rw [nextLexeme_minus]
  split_ifs with none
  · exact taken_alone '-' text
  · have some : front ≠ [] := fun empty => none (length.trans (congrArg List.length empty))
    exact ⟨front, behind, split, length,
      .inl (Language.mem_mul.mpr ⟨['-'], .inr rfl, front, isNumber.resolve_left some, rfl⟩)⟩

theorem taken_quote (text : List Char) : Taken (nextLexeme '"' text) '"' text := by
  obtain ⟨front, behind, split, length, member⟩ := repeats_quotedBody.taken text
  rw [nextLexeme_quote]
  split_ifs at member ⊢
  · exact ⟨front, behind, split, length, .inl (mem_mark_mul.mpr ⟨front, member, rfl⟩)⟩
  · exact ⟨front, behind, split, length, .inr ⟨rfl, .inl (.inr (mem_mark_mul.mpr ⟨front, member, rfl⟩))⟩⟩

theorem taken_slash (text : List Char) : Taken (nextLexeme '/' text) '/' text := by
  by_cases line : text.head? = some '/'
  · obtain ⟨rest, rfl⟩ := List.head?_eq_some_iff.mp line
    obtain ⟨front, behind, rfl, length, each⟩ := takeWhile_taken (· ≠ '\n') rest
    rw [nextLexeme_lineComment, length]
    exact ⟨'/' :: front, behind, rfl, Nat.add_comm ..,
      .inl (mem_mark_mul.mpr ⟨front, mem_star_oneOf.mpr each, rfl⟩)⟩
  by_cases block : text.head? = some '*'
  · obtain ⟨rest, rfl⟩ := List.head?_eq_some_iff.mp block
    obtain ⟨front, behind, split, length, member⟩ := repeats_commentBody.taken rest
    refine ⟨'*' :: front, behind, congrArg ('*' :: ·) split, ?_, ?_⟩
    · rw [nextLexeme_blockComment, length, List.length_cons, Nat.add_comm]
    · rw [nextLexeme_blockComment]
      split_ifs at member ⊢
      · exact .inl (mem_mark_mul.mpr ⟨front, member, rfl⟩)
      · exact .inr ⟨rfl, .inr (mem_mark_mul.mpr ⟨front, member, rfl⟩)⟩
  · rw [nextLexeme_slash line block]
    exact taken_alone '/' text

theorem taken_nextLexeme (c : Char) (text : List Char) : Taken (nextLexeme c text) c text := by
  by_cases blank : isBlankChar c
  · obtain ⟨front, behind, split, length, each⟩ := takeWhile_taken isBlankChar text
    rw [nextLexeme_blank blank]
    exact ⟨front, behind, split, length, .inl (mem_oneOf_mul_star.mpr ⟨c, front, rfl, blank, each⟩)⟩
  by_cases start : isWordStart c
  · obtain ⟨front, behind, split, length, each⟩ := takeWhile_taken isWordChar text
    rw [nextLexeme_word start]
    exact ⟨front, behind, split, length, .inl (mem_oneOf_mul_star.mpr ⟨c, front, rfl, start, each⟩)⟩
  by_cases digit : isDigitChar c
  · exact taken_digit digit text
  by_cases minus : c = '-'
  · exact minus ▸ taken_minus text
  by_cases quote : c = '"'
  · exact quote ▸ taken_quote text
  by_cases slash : c = '/'
  · exact slash ▸ taken_slash text
  · rw [nextLexeme_mark blank start digit minus quote slash]
    unfold punctuation?
    split
    case h_10 => exact taken_alone c text
    all_goals exact ⟨[], text, rfl, rfl, .inl rfl⟩

/-- What is unfinished at the front of the text is scanned, and may be more. -/
theorem length_le_of_unfinished {front : List Char} (member : front ∈ unfinished) (behind : List Char) :
    ∃ c rest, front = c :: rest ∧ rest.length ≤ (nextLexeme c (rest ++ behind)).2 := by
  rcases member with (⟨c, -, rfl⟩ | quote) | comment
  · exact ⟨c, [], rfl, Nat.zero_le _⟩
  · obtain ⟨body, isBody, rfl⟩ := mem_mark_mul.mp quote
    exact ⟨'"', body, rfl, repeats_quotedBody.length_le isBody behind⟩
  · obtain ⟨body, isBody, rfl⟩ := mem_mark_mul.mp comment
    have taken := repeats_commentBody.length_le isBody behind
    refine ⟨'/', '*' :: body, rfl, ?_⟩
    simp only [List.cons_append, nextLexeme_blockComment, List.length_cons]
    omega

/-- What the patterns say of the front of a text: the longest stretch that one of them has is taken. Where none
has any, the longest unfinished one is, and is invalid. -/
inductive IsNext : LexemeKind → List Char → List Char → Prop
  | matched {kind : LexemeKind} {lexeme behind : List Char} (member : lexeme ∈ kind.pattern)
    (longest : ∀ other : LexemeKind, ∀ longer ∈ other.pattern, longer <+: lexeme ++ behind →
      longer.length ≤ lexeme.length) : IsNext kind lexeme behind
  | unmatched {lexeme behind : List Char}
    (none : ∀ other : LexemeKind, ∀ front ∈ other.pattern, ¬front <+: lexeme ++ behind)
    (member : lexeme ∈ unfinished)
    (longest : ∀ longer ∈ unfinished, longer <+: lexeme ++ behind → longer.length ≤ lexeme.length) :
    IsNext (.token .invalid) lexeme behind

/-- The scanner takes what the patterns say. -/
theorem isNext_nextLexeme (c : Char) (text : List Char) : ∃ front behind, text = front ++ behind ∧
    (nextLexeme c text).2 = front.length ∧ IsNext (nextLexeme c text).1 (c :: front) behind := by
  obtain ⟨front, behind, split, length, member⟩ := taken_nextLexeme c text
  have ofPattern : ∀ other : LexemeKind, ∀ longer ∈ other.pattern, longer <+: c :: front ++ behind →
      (nextLexeme c text).1 = other ∧ longer.length ≤ (c :: front).length := by
    rintro other longer isOther ⟨more, same⟩
    obtain ⟨first, rest, rfl, kind, least⟩ := nextLexeme_of_pattern isOther more
    rw [List.cons_append, List.cons_append, ← split] at same
    obtain ⟨rfl, rfl⟩ := List.cons.inj same
    rw [length] at least
    exact ⟨kind, Nat.succ_le_succ least⟩
  refine ⟨front, behind, split, length, ?_⟩
  rcases member with matched | ⟨invalid, member⟩
  · exact .matched matched fun other longer isOther within => (ofPattern other longer isOther within).2
  · rw [invalid]
    refine .unmatched (fun other longer isOther within => ?_) member ?_
    · obtain rfl := invalid.symm.trans (ofPattern other longer isOther within).1
      exact Language.notMem_zero longer isOther
    · rintro longer isUnfinished ⟨more, same⟩
      obtain ⟨first, rest, rfl, least⟩ := length_le_of_unfinished isUnfinished more
      rw [List.cons_append, List.cons_append, ← split] at same
      obtain ⟨rfl, rfl⟩ := List.cons.inj same
      rw [length] at least
      exact Nat.succ_le_succ least

end Requirements
