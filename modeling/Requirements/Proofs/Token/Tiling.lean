import Requirements.Proofs.Text.Position
import Requirements.Proofs.Token.Patterns

/-! How tokens lie in their text. Each stands at its offset, none overlaps another, and all that is between
them, before the first and behind the last are blanks and comments. -/
namespace Requirements

open scoped Computability

def spacer : Language Char :=
  LexemeKind.blank.pattern + LexemeKind.lineComment.pattern + LexemeKind.blockComment.pattern

def trivia : Language Char := spacer∗

/-- The text from the byte `offset` on is the tokens with trivia around them. Each token is what comes next
where it stands. -/
inductive Tiles : Nat → List Token → String → Prop
  | last {offset : Nat} {skipped : String} (isTrivia : skipped.toList ∈ trivia) : Tiles offset [] skipped
  | next {offset : Nat} {token : Token} {tokens : List Token} {skipped behind : String}
    (isTrivia : skipped.toList ∈ trivia) (place : token.offset = offset + skipped.utf8ByteSize)
    (isNext : IsNext (.token token.kind) token.text.toList behind.toList)
    (others : Tiles (token.offset + token.text.utf8ByteSize) tokens behind) :
    Tiles offset (token :: tokens) (skipped ++ token.text ++ behind)

/-! ### Bytes -/

theorem utf8Length_eq (text : List Char) : utf8Length text = (text.flatMap String.utf8EncodeChar).length := by
  have counted : ∀ length, text.foldl (fun length c => length + c.utf8Size) length =
      length + (text.flatMap String.utf8EncodeChar).length := by
    induction text with
    | nil => simp
    | cons c rest ih =>
      intro length
      rw [List.foldl_cons, ih, List.flatMap_cons, List.length_append, String.length_utf8EncodeChar]
      omega
  rw [utf8Length, counted, Nat.zero_add]

theorem utf8Length_toList (text : String) : utf8Length text.toList = text.utf8ByteSize := by
  rw [utf8Length_eq, ← bytesOf_eq]
  rfl

theorem utf8Length_eq_utf8ByteSize (text : List Char) : utf8Length text = (String.ofList text).utf8ByteSize := by
  rw [← utf8Length_toList, String.toList_ofList]

/-! ### From lexeme to lexeme -/

theorem IsNext.ne_nil {kind : LexemeKind} {lexeme behind : List Char} (isNext : IsNext kind lexeme behind) :
    lexeme ≠ [] := by
  cases isNext with
  | matched member =>
    obtain ⟨c, rest, rfl, -⟩ := nextLexeme_of_pattern member behind
    exact List.cons_ne_nil c rest
  | unmatched _ member =>
    obtain ⟨c, rest, rfl, -⟩ := length_le_of_unfinished member behind
    exact List.cons_ne_nil c rest

/-- A valid token is in the pattern of its kind. -/
theorem IsNext.mem_pattern {kind : TokenKind} {lexeme behind : List Char}
    (isNext : IsNext (.token kind) lexeme behind) (valid : kind ≠ .invalid) :
    lexeme ∈ (LexemeKind.token kind).pattern := by
  cases isNext with
  | matched member => exact member
  | unmatched => exact absurd rfl valid

/-- Induction from lexeme to lexeme. -/
theorem lexemes_induction {P : List Char → Prop} (nil : P [])
    (lexeme : ∀ c front behind, (nextLexeme c (front ++ behind)).2 = front.length →
      IsNext (nextLexeme c (front ++ behind)).1 (c :: front) behind → P behind → P (c :: (front ++ behind)))
    (text : List Char) : P text := by
  induction size : text.length using Nat.strong_induction_on generalizing text with
  | _ count ih =>
    cases text with
    | nil => exact nil
    | cons c rest =>
      obtain ⟨front, behind, rfl, length, isNext⟩ := isNext_nextLexeme c rest
      have shorter : behind.length < count := by
        simp only [List.length_cons, List.length_append] at size
        omega
      exact lexeme c front behind length isNext (ih _ shorter behind rfl)

theorem lexemes_append {c : Char} {front behind : List Char}
    (length : (nextLexeme c (front ++ behind)).2 = front.length) :
    lexemes (c :: (front ++ behind)) = ⟨(nextLexeme c (front ++ behind)).1, c :: front⟩ :: lexemes behind := by
  rw [lexemes_cons, length, List.take_left, List.drop_left]

/-- What comes next is no token, but sets tokens apart. -/
theorem IsNext.mem_spacer {kind : LexemeKind} {lexeme behind : List Char} (isNext : IsNext kind lexeme behind)
    (noToken : ∀ tokenKind, kind ≠ .token tokenKind) : lexeme ∈ spacer := by
  cases isNext with
  | unmatched => exact absurd rfl (noToken .invalid)
  | matched member =>
    cases kind with
    | blank => exact .inl (.inl member)
    | lineComment => exact .inl (.inr member)
    | blockComment => exact .inr member
    | token tokenKind => exact absurd rfl (noToken tokenKind)

/-! ### Tokens further behind -/

def Token.shifted (bytes : Nat) (token : Token) : Token := { token with offset := token.offset + bytes }

theorem tokensFrom_add (offset bytes : Nat) (found : List Lexeme) :
    tokensFrom (offset + bytes) found = (tokensFrom offset found).map (Token.shifted bytes) := by
  induction found generalizing offset with
  | nil => rfl
  | cons lexeme rest ih =>
    have behind := ih (offset + utf8Length lexeme.characters)
    rw [Nat.add_right_comm] at behind
    cases isKind : lexeme.kind <;> simp [tokensFrom, isKind, behind, Token.shifted]

/-- The tokens behind a lexeme at the start of a text are those of what is behind it. -/
theorem Token.ofText_append {c : Char} {front : List Char} {behind : String}
    (length : (nextLexeme c (front ++ behind.toList)).2 = front.length) :
    Token.ofText (String.ofList (c :: front) ++ behind) =
      tokensFrom 0 [⟨(nextLexeme c (front ++ behind.toList)).1, c :: front⟩] ++
        (Token.ofText behind).map (Token.shifted (String.ofList (c :: front)).utf8ByteSize) := by
  rw [ofText, String.toList_append, String.toList_ofList, List.cons_append, lexemes_append length, ofText,
    ← tokensFrom_add, ← utf8Length_eq_utf8ByteSize]
  generalize nextLexeme c (front ++ behind.toList) = next
  obtain ⟨kind, length⟩ := next
  cases kind <;> rfl

/-! ### Tiles -/

theorem Tiles.skip {offset : Nat} {tokens : List Token} {skipped text : String} (isSpacer : skipped.toList ∈ spacer)
    (tiles : Tiles (offset + skipped.utf8ByteSize) tokens text) : Tiles offset tokens (skipped ++ text) := by
  have front {more : String} (isTrivia : more.toList ∈ trivia) : (skipped ++ more).toList ∈ trivia := by
    rw [String.toList_append]
    exact append_mem_star isSpacer isTrivia
  cases tiles with
  | last isTrivia => exact .last (front isTrivia)
  | next isTrivia place isNext others =>
    rw [← String.append_assoc, ← String.append_assoc]
    refine .next (front isTrivia) ?_ isNext others
    rw [place, String.utf8ByteSize_append, Nat.add_assoc]

theorem tiles_tokensFrom (text : List Char) :
    ∀ offset, Tiles offset (tokensFrom offset (lexemes text)) (String.ofList text) := by
  refine lexemes_induction (P := fun text => ∀ offset, Tiles offset (tokensFrom offset (lexemes text))
    (String.ofList text)) (fun offset => .last (Language.nil_mem_kstar _)) ?_ text
  intro c front behind length isNext ih offset
  have whole : String.ofList (c :: (front ++ behind)) = String.ofList (c :: front) ++ String.ofList behind := by
    rw [← String.ofList_append, List.cons_append]
  have isNext : IsNext (nextLexeme c (front ++ behind)).1 (String.ofList (c :: front)).toList
      (String.ofList behind).toList := by
    simpa only [String.toList_ofList] using isNext
  rw [lexemes_append length, tokensFrom, whole]
  simp only [utf8Length_eq_utf8ByteSize]
  split
  next kind isToken =>
    rw [isToken] at isNext
    rw [← String.empty_append (s := String.ofList (c :: front))]
    exact .next (Language.nil_mem_kstar _) rfl isNext (ih _)
  next noToken => exact .skip (isNext.mem_spacer noToken) (ih _)

namespace Tiles

variable {offset : Nat} {tokens : List Token} {text : String}

/-- Each token stands at its offset, counted from where the tiling starts. -/
theorem stands (tiles : Tiles offset tokens text) {token : Token} (member : token ∈ tokens) :
    ∃ before behind, text = before ++ token.text ++ behind ∧ token.offset = offset + before.utf8ByteSize ∧
      IsNext (.token token.kind) token.text.toList behind.toList := by
  induction tiles with
  | last => cases member
  | @next offset first tokens skipped behind _ place isNext _ ih =>
    rcases List.mem_cons.mp member with rfl | later
    · exact ⟨skipped, behind, rfl, place, isNext⟩
    · obtain ⟨before, more, rfl, placed, isNextThere⟩ := ih later
      refine ⟨skipped ++ first.text ++ before, more, by simp only [String.append_assoc], ?_, isNextThere⟩
      simp only [placed, place, String.utf8ByteSize_append]
      omega

/-- No token starts before the one in front of it ends. -/
theorem pairwise (tiles : Tiles offset tokens text) : tokens.Pairwise fun token later =>
    token.offset < later.offset ∧ token.offset + token.text.utf8ByteSize ≤ later.offset := by
  induction tiles with
  | last => exact .nil
  | @next offset first tokens skipped behind _ place isNext others ih =>
    refine .cons (fun later member => ?_) ih
    obtain ⟨before, -, -, placed, -⟩ := others.stands member
    have some : first.text.utf8ByteSize ≠ 0 := by
      rw [ne_eq, String.utf8ByteSize_eq_zero_iff, ← String.toList_eq_nil_iff]
      exact isNext.ne_nil
    omega

end Tiles

theorem tiles_text (text : String) : Tiles 0 (Token.ofText text) text := by
  have fromStart := tiles_tokensFrom text.toList 0
  rwa [String.ofList_toList] at fromStart

/-- The tokens of a text and the trivia between them are the text, and nothing is lost or added. Each token is
not empty, and stands in the text at its offset; there it is the longest stretch that a pattern has, and
invalid only where no pattern has any. No token starts before the one in front of it ends, and all between
them, before the first and behind the last is trivia. -/
theorem Token.tiles_ofText (text : String) :
    Tiles 0 (Token.ofText text) text ∧
    (∀ token ∈ Token.ofText text, token.text ≠ "" ∧ ∃ before behind, text = before ++ token.text ++ behind ∧
      token.offset = before.utf8ByteSize ∧ IsNext (.token token.kind) token.text.toList behind.toList) ∧
    (Token.ofText text).Pairwise fun token later =>
      token.offset < later.offset ∧ token.offset + token.text.utf8ByteSize ≤ later.offset := by
  refine ⟨tiles_text text, fun token member => ?_, (tiles_text text).pairwise⟩
  obtain ⟨before, behind, split, place, isNext⟩ := (tiles_text text).stands member
  refine ⟨?_, before, behind, split, by rw [place, Nat.zero_add], isNext⟩
  rw [ne_eq, ← String.toList_eq_nil_iff]
  exact isNext.ne_nil

end Requirements
