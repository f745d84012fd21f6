import Mathlib.Algebra.Group.Nat.Even
import Mathlib.Data.List.DropRight
import Requirements.Proofs.Token.Tiling

/-! Where block comments end. A star in a comment takes the character behind it along, and two stars are taken
together. So the first `*/` ends the comment if an even number of stars stands before it, and otherwise its star
is taken along with the last of them, and the comment goes on. -/
namespace Requirements

open scoped Computability

/-- What a block comment holds, with the mark that closes it, sets what is around it apart and no more. -/
theorem Token.ofText_comment {inside : List Char} (closed : inside ∈ commentStep∗ * {['*', '/']}) (text : String) :
    Token.ofText ("/*" ++ String.ofList inside ++ text) =
      (Token.ofText text).map (Token.shifted ("/*" ++ String.ofList inside).utf8ByteSize) := by
  have opens : "/*" ++ String.ofList inside = String.ofList ('/' :: '*' :: inside) := by
    rw [show "/*" = String.ofList ['/', '*'] from rfl, ← String.ofList_append]
    rfl
  have next : nextLexeme '/' ('*' :: inside ++ text.toList) = (.blockComment, ('*' :: inside).length) := by
    rw [List.cons_append, nextLexeme_blockComment, repeats_commentBody.closed closed, List.length_cons, Nat.add_comm]
    rfl
  rw [opens, Token.ofText_append (congrArg Prod.snd next), next]
  rfl

/-! ### Stars at the end -/

def starsAtEnd (text : List Char) : Nat := (text.rtakeWhile (· == '*')).length

theorem starsAtEnd_cons (c : Char) (rest : List Char) : starsAtEnd (c :: rest) =
    if c = '*' ∧ starsAtEnd rest = rest.length then starsAtEnd rest + 1 else starsAtEnd rest := by
  simp only [starsAtEnd, List.rtakeWhile, List.reverse_cons, List.length_reverse, List.takeWhile_append]
  by_cases all : (rest.reverse.takeWhile (· == '*')).length = rest.length
  · by_cases star : c = '*' <;> simp [all, star]
  · simp [all]

theorem starsAtEnd_le (text : List Char) : starsAtEnd text ≤ text.length := by
  simpa [starsAtEnd, List.rtakeWhile] using (List.takeWhile_prefix (l := text.reverse) _).length_le

theorem starsAtEnd_of_plain {c : Char} (noStar : c ≠ '*') (rest : List Char) :
    starsAtEnd (c :: rest) = starsAtEnd rest := by
  rw [starsAtEnd_cons, if_neg fun both => noStar both.1]

/-- A star with the character behind it leaves the number even or odd. -/
theorem even_starsAtEnd_star (c : Char) (rest : List Char) :
    Even (starsAtEnd ('*' :: c :: rest)) ↔ Even (starsAtEnd rest) := by
  have most := starsAtEnd_le rest
  rw [starsAtEnd_cons '*', starsAtEnd_cons c, List.length_cons]
  by_cases both : c = '*' ∧ starsAtEnd rest = rest.length
  · rw [if_pos both, if_pos ⟨rfl, congrArg (· + 1) both.2⟩]
    simp [Nat.even_add_one]
  · rw [if_neg both, if_neg (by omega)]

/-- The text is whole steps of a comment, or these and one star more, as the number of stars at its end tells. -/
def StepsByStars (text : List Char) : Prop :=
  if Even (starsAtEnd text) then text ∈ commentStep∗ else ∃ steps ∈ commentStep∗, text = steps ++ ['*']

theorem StepsByStars.append {first rest : List Char} (isStep : first ∈ commentStep)
    (same : Even (starsAtEnd (first ++ rest)) ↔ Even (starsAtEnd rest)) (steps : StepsByStars rest) :
    StepsByStars (first ++ rest) := by
  unfold StepsByStars at steps ⊢
  by_cases even : Even (starsAtEnd rest)
  · rw [if_pos even] at steps
    rw [if_pos (same.mpr even)]
    exact append_mem_star isStep steps
  · rw [if_neg even] at steps
    rw [if_neg (mt same.mp even)]
    obtain ⟨front, isFront, rfl⟩ := steps
    exact ⟨first ++ front, append_mem_star isStep isFront, (List.append_assoc ..).symm⟩

/-- What holds no `*/` is steps, but for a star that is left over from an odd number at its end. -/
theorem stepsByStars_of_unterminated {body : List Char} (unterminated : ¬['*', '/'] <:+: body) :
    StepsByStars body := by
  fun_induction commentBody body with
  | case1 rest => exact absurd ⟨[], rest, rfl⟩ unterminated
  | case2 c rest noSlash ih =>
    have isStep : ['*', c] ∈ commentStep := mem_commentStep.mpr (.inr ⟨c, noSlash, rfl⟩)
    have behind : ¬['*', '/'] <:+: rest := fun inside => unterminated (inside.trans ⟨['*', c], [], by simp⟩)
    exact .append isStep (even_starsAtEnd_star c rest) (ih behind)
  | case3 => exact ⟨[], Language.nil_mem_kstar _, rfl⟩
  | case4 => exact Language.nil_mem_kstar _
  | case5 c rest _ noPair noLast ih =>
    have noStar : c ≠ '*' := by
      intro star
      cases rest with
      | nil => exact noLast star rfl
      | cons d more => exact noPair d more star rfl
    have isStep : [c] ∈ commentStep := mem_commentStep.mpr (.inl ⟨c, noStar, rfl⟩)
    have behind : ¬['*', '/'] <:+: rest := fun inside => unterminated (inside.trans ⟨[c], [], by simp⟩)
    exact .append isStep (by rw [List.singleton_append, starsAtEnd_of_plain noStar]) (ih behind)

/-! ### Comments with a terminator -/

theorem Token.ofText_even {body : List Char} (unterminated : ¬['*', '/'] <:+: body)
    (even : Even (starsAtEnd body)) (text : String) :
    Token.ofText ("/*" ++ String.ofList body ++ "*/" ++ text) =
      (Token.ofText text).map (Token.shifted ("/*" ++ String.ofList body ++ "*/").utf8ByteSize) := by
  have steps := stepsByStars_of_unterminated unterminated
  rw [StepsByStars, if_pos even] at steps
  have whole : "/*" ++ String.ofList body ++ "*/" = "/*" ++ String.ofList (body ++ ['*', '/']) := by
    rw [String.ofList_append, String.append_assoc]
  rw [whole, Token.ofText_comment (mem_mul_mark.mpr ⟨body, steps, rfl⟩)]

/-- Behind an odd number of stars the terminator is part of the comment, and what follows is, up to the
terminator that ends the comment. -/
theorem Token.ofText_odd {body : List Char} (unterminated : ¬['*', '/'] <:+: body)
    (odd : ¬Even (starsAtEnd body)) {swallowed : List Char} (closed : swallowed ∈ commentStep∗ * {['*', '/']})
    (text : String) :
    Token.ofText ("/*" ++ String.ofList body ++ "*/" ++ (String.ofList swallowed ++ text)) =
      (Token.ofText text).map
        (Token.shifted ("/*" ++ String.ofList body ++ "*/" ++ String.ofList swallowed).utf8ByteSize) := by
  have steps := stepsByStars_of_unterminated unterminated
  rw [StepsByStars, if_neg odd] at steps
  obtain ⟨front, isFront, rfl⟩ := steps
  obtain ⟨more, isMore, rfl⟩ := mem_mul_mark.mp closed
  -- The star that is left over takes the star of the terminator along, and the slash stands alone.
  have pair : ['*', '*'] ∈ commentStep := mem_commentStep.mpr (.inr ⟨'*', by decide, rfl⟩)
  have slash : ['/'] ∈ commentStep := mem_commentStep.mpr (.inl ⟨'/', by decide, rfl⟩)
  have inside : front ++ (['*', '*'] ++ (['/'] ++ more)) ∈ commentStep∗ :=
    append_star_mem_star isFront (append_mem_star pair (append_mem_star slash isMore))
  have whole : "/*" ++ String.ofList (front ++ ['*']) ++ "*/" ++ String.ofList (more ++ ['*', '/']) =
      "/*" ++ String.ofList (front ++ (['*', '*'] ++ (['/'] ++ more)) ++ ['*', '/']) := by
    rw [show "*/" = String.ofList ['*', '/'] from rfl]
    simp only [String.append_assoc, ← String.ofList_append, List.append_assoc, List.cons_append, List.nil_append]
  rw [← String.append_assoc, whole, Token.ofText_comment (mem_mul_mark.mpr ⟨_, inside, rfl⟩)]

/-- A block comment whose body holds no `*/` ends at its terminator, and the tokens behind it are those of the
text there, if and only if an even number of stars stands at the end of the body. -/
theorem Token.ofText_behind_comment_iff {body : String} (unterminated : ¬['*', '/'] <:+: body.toList) :
    (∀ text : String, Token.ofText ("/*" ++ body ++ "*/" ++ text) =
      (Token.ofText text).map (Token.shifted ("/*" ++ body ++ "*/").utf8ByteSize)) ↔
    Even (starsAtEnd body.toList) := by
  constructor
  · intro ends
    by_contra odd
    have closed : ['*', '/'] ∈ commentStep∗ * {['*', '/']} := mem_mul_mark.mpr ⟨[], Language.nil_mem_kstar _, rfl⟩
    have swallowed := Token.ofText_odd unterminated odd closed ""
    rw [String.ofList_toList, String.append_empty, ends] at swallowed
    exact absurd (congrArg List.length swallowed) (by rw [List.length_map, List.length_map]; decide)
  · intro even text
    have ends := Token.ofText_even unterminated even text
    rwa [String.ofList_toList] at ends

theorem Token.ofText_behind_comment_iff_banner : ¬['*', '/'] <:+: " a * b **".toList ∧
    ((∀ text : String, Token.ofText ("/*" ++ " a * b **" ++ "*/" ++ text) =
      (Token.ofText text).map (Token.shifted ("/*" ++ " a * b **" ++ "*/").utf8ByteSize)) ↔
    Even (starsAtEnd " a * b **".toList)) := by
  have unterminated : ¬['*', '/'] <:+: " a * b **".toList := by decide +kernel
  exact ⟨unterminated, Token.ofText_behind_comment_iff unterminated⟩

/-- The class behind a comment of three stars is taken for a part of it, up to the end of the next comment. -/
theorem Token.swallowed_threeStars : ¬['*', '/'] <:+: "*".toList ∧
    Token.ofText ("/*" ++ "*" ++ "*/" ++ " class A; /* x */ class B;") ≠
      (Token.ofText " class A; /* x */ class B;").map (Token.shifted ("/*" ++ "*" ++ "*/").utf8ByteSize) := by
  decide +kernel

end Requirements
