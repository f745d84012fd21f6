import Requirements.Text.Split

/-! The lines of a file. -/
namespace Requirements

def isWhitespace (c : Char) : Bool :=
  let code := c.toNat
  (0x9 ≤ code && code ≤ 0xD) || (0x2000 ≤ code && code ≤ 0x200A) ||
    [0x20, 0x85, 0xA0, 0x1680, 0x2028, 0x2029, 0x202F, 0x205F, 0x3000].contains code

def isBlankText (text : String) : Bool := text.toList.all isWhitespace

/-- A newline may be written as a carriage return and a newline. -/
def dropReturn (line : List Char) : List Char :=
  if line.getLast? = some '\r' then line.dropLast else line

/-- Every piece but the last ends in a newline; an empty last piece is no line. -/
def linesOf : List (List Char) → List (List Char)
  | [] => []
  | [last] => if last.isEmpty then [] else [last]
  | line :: rest => dropReturn line :: linesOf rest

def lines (text : String) : List String :=
  (linesOf (splitAtEach '\n' text.toList)).map String.ofList

theorem dropReturn_append {front back : List Char} (inside : back ≠ []) :
    dropReturn (front ++ back) = front ++ dropReturn back := by
  have last : (front ++ back).getLast? = back.getLast? := by
    simp [List.getLast?_append, List.getLast?_eq_some_getLast inside]
  rw [dropReturn, dropReturn, last]
  split
  · rw [List.dropLast_append_of_ne_nil inside]
  · rfl

theorem dropReturn_subset (line : List Char) : dropReturn line ⊆ line := by
  rw [dropReturn]
  split
  · exact List.dropLast_subset line
  · exact List.Subset.refl line

/-- Every line is a piece, or one without its carriage return. -/
theorem mem_linesOf {pieces : List (List Char)} {line : List Char} (isLine : line ∈ linesOf pieces) :
    ∃ piece ∈ pieces, line ⊆ piece := by
  induction pieces with
  | nil => simp [linesOf] at isLine
  | cons piece rest ih =>
    cases rest with
    | nil =>
      rw [linesOf] at isLine
      split at isLine
      · simp at isLine
      · exact ⟨piece, by simp, by simp [List.mem_singleton.mp isLine]⟩
    | cons second others =>
      rcases List.mem_cons.mp isLine with rfl | behind
      · exact ⟨piece, by simp, dropReturn_subset piece⟩
      · obtain ⟨found, isPiece, inside⟩ := ih behind
        exact ⟨found, List.mem_cons_of_mem _ isPiece, inside⟩

theorem newline_not_mem_of_mem_lines {text line : String} (isLine : line ∈ lines text) : '\n' ∉ line.toList := by
  obtain ⟨_, given, rfl⟩ := List.mem_map.mp isLine
  obtain ⟨piece, isPiece, inside⟩ := mem_linesOf given
  rw [String.toList_ofList]
  exact fun newline => (subset_of_mem_splitAtEach isPiece).2 (inside newline)

theorem linesOf_append_empty (pieces : List (List Char)) :
    linesOf (pieces ++ [[]]) = pieces.map dropReturn := by
  induction pieces with
  | nil => rfl
  | cons piece rest ih =>
    cases rest with
    | nil => rfl
    | cons second rest => simpa [linesOf] using ih

/-- Texts that are each ended by a newline are the lines again, but for a carriage return at
the end of one. -/
theorem lines_join {texts : List String} (whole : ∀ text ∈ texts, '\n' ∉ text.toList) :
    lines (String.join (texts.map (· ++ "\n"))) =
      texts.map fun text => String.ofList (dropReturn text.toList) := by
  have split : splitAtEach '\n' (String.join (texts.map (· ++ "\n"))).toList =
      texts.map String.toList ++ [[]] := by
    induction texts with
    | nil => rfl
    | cons text rest ih =>
      have front : (String.join ((text :: rest).map (· ++ "\n"))).toList =
          text.toList ++ '\n' :: (String.join (rest.map (· ++ "\n"))).toList := by simp
      rw [front, splitAtEach_append (whole text (by simp)), ih fun other member =>
        whole other (by simp [member])]
      simp
  rw [lines, split, linesOf_append_empty]
  simp

end Requirements
