/-! Sorting by a strict order. Sorting rearranges a list and nothing else. -/
namespace Requirements

def insertOrdered (before : α → α → Bool) (item : α) : List α → List α
  | [] => [item]
  | first :: rest =>
    if before first item then first :: insertOrdered before item rest
    else item :: first :: rest

/-- Items of which neither comes before the other keep their order. -/
def sortedBy (before : α → α → Bool) : List α → List α
  | [] => []
  | item :: rest => insertOrdered before item (sortedBy before rest)

theorem insertOrdered_perm (before : α → α → Bool) (item : α) (items : List α) :
    (insertOrdered before item items).Perm (item :: items) := by
  induction items with
  | nil => exact .refl _
  | cons first rest ih =>
    rw [insertOrdered]
    split
    · exact (ih.cons first).trans (.swap item first rest)
    · exact .refl _

theorem sortedBy_perm (before : α → α → Bool) (items : List α) :
    (sortedBy before items).Perm items := by
  induction items with
  | nil => exact .refl _
  | cons item rest ih => exact (insertOrdered_perm before item _).trans (ih.cons item)

@[simp] theorem mem_sortedBy {before : α → α → Bool} {items : List α} {item : α} :
    item ∈ sortedBy before items ↔ item ∈ items :=
  (sortedBy_perm before items).mem_iff

def dropRepeats (same : α → α → Bool) : List α → List α
  | [] => []
  | [item] => [item]
  | first :: second :: rest =>
    if same first second then
      match dropRepeats same (second :: rest) with
      | _ :: kept => first :: kept
      | [] => [first]
    else first :: dropRepeats same (second :: rest)

end Requirements
