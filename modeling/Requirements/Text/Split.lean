/-! Cutting text at marks. The last mark cuts a text in two, so that no mark is left
behind it; cutting at each mark leaves none in the pieces. -/
namespace Requirements

def splitAtLast (mark : Char) : List Char → Option (List Char × List Char)
  | [] => none
  | c :: rest =>
    match splitAtLast mark rest with
    | some (before, after) => some (c :: before, after)
    | none => if c = mark then some ([], rest) else none

theorem splitAtLast_eq_none {mark : Char} {text : List Char} :
    splitAtLast mark text = none ↔ mark ∉ text := by
  induction text with
  | nil => simp [splitAtLast]
  | cons c rest ih =>
    cases h : splitAtLast mark rest with
    | some halves =>
      have inside : mark ∈ rest := Classical.byContradiction fun outside => by
        rw [ih.mpr outside] at h; cases h
      simp [splitAtLast, h, inside]
    | none =>
      by_cases same : c = mark
      · simp [splitAtLast, h, same]
      · simp [splitAtLast, h, same, ih.mp h, Ne.symm same]

theorem splitAtLast_append {mark : Char} (before : List Char) {after : List Char}
    (outside : mark ∉ after) :
    splitAtLast mark (before ++ mark :: after) = some (before, after) := by
  induction before with
  | nil => simp [splitAtLast, splitAtLast_eq_none.mpr outside]
  | cons c before ih => simp [splitAtLast, ih]

theorem splitAtLast_eq_some {mark : Char} {text before after : List Char} :
    splitAtLast mark text = some (before, after) ↔
      text = before ++ mark :: after ∧ mark ∉ after := by
  constructor
  · intro split
    induction text generalizing before with
    | nil => simp [splitAtLast] at split
    | cons c rest ih =>
      cases h : splitAtLast mark rest with
      | some halves =>
        obtain ⟨front, back⟩ := halves
        simp only [splitAtLast, h, Option.some.injEq, Prod.mk.injEq] at split
        obtain ⟨rfl, rfl⟩ := split
        have := ih h
        exact ⟨by rw [this.1, List.cons_append], this.2⟩
      | none =>
        by_cases same : c = mark
        · simp only [splitAtLast, h, same, if_true, Option.some.injEq, Prod.mk.injEq] at split
          obtain ⟨rfl, rfl⟩ := split
          exact ⟨by rw [same]; rfl, splitAtLast_eq_none.mp h⟩
        · simp [splitAtLast, h, same] at split
  · rintro ⟨rfl, outside⟩
    exact splitAtLast_append before outside

def splitAtEach (mark : Char) : List Char → List (List Char)
  | [] => [[]]
  | c :: rest =>
    match splitAtEach mark rest with
    | piece :: pieces => if c = mark then [] :: piece :: pieces else (c :: piece) :: pieces
    | [] => [[c]]

theorem splitAtEach_ne_nil (mark : Char) (text : List Char) : splitAtEach mark text ≠ [] := by
  cases text with
  | nil => simp [splitAtEach]
  | cons c rest => rw [splitAtEach]; split <;> (try split) <;> simp

theorem splitAtEach_of_not_mem {mark : Char} {text : List Char} (outside : mark ∉ text) :
    splitAtEach mark text = [text] := by
  induction text with
  | nil => rfl
  | cons c rest ih =>
    rw [List.mem_cons, not_or] at outside
    simp [splitAtEach, ih outside.2, Ne.symm outside.1]

theorem splitAtEach_append {mark : Char} {before : List Char} (outside : mark ∉ before)
    (after : List Char) :
    splitAtEach mark (before ++ mark :: after) = before :: splitAtEach mark after := by
  induction before with
  | nil =>
    cases h : splitAtEach mark after with
    | nil => exact absurd h (splitAtEach_ne_nil mark after)
    | cons => simp [splitAtEach, h]
  | cons c before ih =>
    rw [List.mem_cons, not_or] at outside
    simp [splitAtEach, ih outside.2, Ne.symm outside.1]

/-- A piece is made of the text's characters, and no mark is left in it. -/
theorem subset_of_mem_splitAtEach {mark : Char} {text piece : List Char}
    (isPiece : piece ∈ splitAtEach mark text) : piece ⊆ text ∧ mark ∉ piece := by
  induction text generalizing piece with
  | nil => simp_all [splitAtEach]
  | cons c rest ih =>
    cases h : splitAtEach mark rest with
    | nil => exact absurd h (splitAtEach_ne_nil mark rest)
    | cons first others =>
      rw [h] at ih
      have behind (isLater : piece ∈ others) : piece ⊆ c :: rest ∧ mark ∉ piece :=
        (ih (List.mem_cons_of_mem _ isLater)).imp_left (List.subset_cons_of_subset c)
      by_cases same : c = mark
      · simp only [splitAtEach, h, same, if_true, List.mem_cons] at isPiece
        rcases isPiece with rfl | rfl | isLater
        · simp
        · exact (ih List.mem_cons_self).imp_left (List.subset_cons_of_subset c)
        · exact behind isLater
      · simp only [splitAtEach, h, same, if_false, List.mem_cons] at isPiece
        rcases isPiece with rfl | isLater
        · obtain ⟨inside, outside⟩ := ih List.mem_cons_self
          exact ⟨List.cons_subset_cons c inside, by simpa [Ne.symm same] using outside⟩
        · exact behind isLater

def pieces (mark : Char) (text : String) : List String :=
  (splitAtEach mark text.toList).map String.ofList

def replaceChar (old new : Char) (text : String) : String :=
  String.ofList (text.toList.map fun c => if c = old then new else c)

end Requirements
