import Mathlib.Data.List.Lex
import Mathlib.Data.List.Sort
import Mathlib.Data.Prod.Lex
import Mathlib.Data.String.Basic
import Requirements.Disk.Path
import Requirements.Sorted

/-! Sorting by keys of a linear order, and the keys by which paths are sorted. Leaving out items
and sorting the rest is sorting all and leaving out then. -/
namespace Requirements

section Keys

variable {α β : Type} [LinearOrder β] {before : α → α → Bool} {key : α → β}

theorem pairwise_insertOrdered (ordered : ∀ a b, before a b ↔ key a < key b) {item : α} {items : List α}
    (sorted : items.Pairwise fun a b => key a ≤ key b) :
    (insertOrdered before item items).Pairwise fun a b => key a ≤ key b := by
  induction items with
  | nil => simp [insertOrdered]
  | cons first rest ih =>
    obtain ⟨least, behind⟩ := List.pairwise_cons.mp sorted
    rw [insertOrdered]
    split
    next precedes =>
      refine List.pairwise_cons.mpr ⟨fun other member => ?_, ih behind⟩
      rcases List.mem_cons.mp ((insertOrdered_perm before item rest).mem_iff.mp member) with rfl | inRest
      · exact ((ordered first other).mp precedes).le
      · exact least other inRest
    next follows =>
      have smallest : key item ≤ key first := not_lt.mp fun less => follows ((ordered first item).mpr less)
      refine List.pairwise_cons.mpr ⟨fun other member => ?_, sorted⟩
      rcases List.mem_cons.mp member with rfl | inRest
      · exact smallest
      · exact smallest.trans (least other inRest)

theorem pairwise_sortedBy (ordered : ∀ a b, before a b ↔ key a < key b) (items : List α) :
    (sortedBy before items).Pairwise fun a b => key a ≤ key b := by
  induction items with
  | nil => exact .nil
  | cons item rest ih => exact pairwise_insertOrdered ordered ih

/-- Before items that are none of them less, an item stays in front. -/
theorem insertOrdered_of_le (ordered : ∀ a b, before a b ↔ key a < key b) {item : α} {items : List α}
    (least : ∀ other ∈ items, key item ≤ key other) : insertOrdered before item items = item :: items := by
  cases items with
  | nil => rfl
  | cons first rest =>
    have follows : ¬before first item := fun precedes =>
      (least first (by simp)).not_gt ((ordered first item).mp precedes)
    rw [insertOrdered, if_neg follows]

theorem filter_insertOrdered (ordered : ∀ a b, before a b ↔ key a < key b) (keep : α → Bool) {item : α}
    {items : List α} (sorted : items.Pairwise fun a b => key a ≤ key b) :
    (insertOrdered before item items).filter keep =
      if keep item then insertOrdered before item (items.filter keep) else items.filter keep := by
  induction items with
  | nil => cases isKept : keep item <;> simp [insertOrdered, isKept]
  | cons first rest ih =>
    obtain ⟨least, behind⟩ := List.pairwise_cons.mp sorted
    by_cases precedes : before first item
    · rw [insertOrdered, if_pos precedes]
      cases keptFirst : keep first <;> cases keptItem : keep item <;>
        simp [keptFirst, keptItem, ih behind, insertOrdered, precedes]
    · have smallest : key item ≤ key first := not_lt.mp fun less => precedes ((ordered first item).mpr less)
      have front : insertOrdered before item ((first :: rest).filter keep) = item :: (first :: rest).filter keep := by
        refine insertOrdered_of_le ordered fun other member => ?_
        rcases List.mem_cons.mp (List.mem_filter.mp member).1 with rfl | inRest
        · exact smallest
        · exact smallest.trans (least other inRest)
      rw [insertOrdered, if_neg precedes, front, List.filter_cons]

theorem filter_sortedBy (ordered : ∀ a b, before a b ↔ key a < key b) (keep : α → Bool) (items : List α) :
    (sortedBy before items).filter keep = sortedBy before (items.filter keep) := by
  induction items with
  | nil => rfl
  | cons item rest ih =>
    rw [sortedBy, filter_insertOrdered ordered keep (pairwise_sortedBy ordered rest), ih]
    cases isKept : keep item <;> simp [isKept, sortedBy]

/-- Of sorted items those that are left are strictly sorted, and one of each key is left. -/
theorem dropRepeats_cons {same : α → α → Bool} (equal : ∀ a b, same a b ↔ key a = key b) {first : α}
    {rest : List α} (sorted : (first :: rest).Pairwise fun a b => key a ≤ key b) :
    ∃ kept, dropRepeats same (first :: rest) = first :: kept ∧ kept.Sublist rest ∧
      (first :: kept).Pairwise (fun a b => key a < key b) ∧
      ∀ item ∈ first :: rest, ∃ left ∈ first :: kept, key left = key item := by
  induction rest generalizing first with
  | nil => exact ⟨[], rfl, .slnil, by simp, fun item member => ⟨item, member, rfl⟩⟩
  | cons second rest ih =>
    obtain ⟨least, behind⟩ := List.pairwise_cons.mp sorted
    obtain ⟨kept, dropped, fewer, strict, covers⟩ := ih behind
    obtain ⟨above, others⟩ := List.pairwise_cons.mp strict
    rw [dropRepeats, dropped]
    by_cases isSame : same first second
    · have sameKey := (equal first second).mp isSame
      refine ⟨kept, by rw [if_pos isSame], fewer.cons second, List.pairwise_cons.mpr ⟨?_, others⟩,
        fun item member => ?_⟩
      · exact fun other member => sameKey ▸ above other member
      · rcases List.mem_cons.mp member with rfl | member
        · exact ⟨item, List.mem_cons_self, rfl⟩
        · obtain ⟨left, isLeft, found⟩ := covers item member
          rcases List.mem_cons.mp isLeft with rfl | isLeft
          · exact ⟨first, List.mem_cons_self, sameKey.trans found⟩
          · exact ⟨left, List.mem_cons_of_mem _ isLeft, found⟩
    · have less : key first < key second :=
        lt_of_le_of_ne (least second (by simp)) fun sameKey => isSame ((equal first second).mpr sameKey)
      refine ⟨second :: kept, by rw [if_neg isSame], fewer.cons_cons second, List.pairwise_cons.mpr ⟨?_, strict⟩,
        fun item member => ?_⟩
      · intro other member
        rcases List.mem_cons.mp member with rfl | member
        · exact less
        · exact less.trans (above other member)
      · rcases List.mem_cons.mp member with rfl | member
        · exact ⟨item, List.mem_cons_self, rfl⟩
        · obtain ⟨left, isLeft, found⟩ := covers item member
          exact ⟨left, List.mem_cons_of_mem _ isLeft, found⟩

variable {same : α → α → Bool} {items : List α}

theorem pairwise_dropRepeats (equal : ∀ a b, same a b ↔ key a = key b)
    (sorted : items.Pairwise fun a b => key a ≤ key b) :
    (dropRepeats same items).Pairwise fun a b => key a < key b := by
  cases items with
  | nil => exact .nil
  | cons first rest =>
    obtain ⟨kept, dropped, -, strict, -⟩ := dropRepeats_cons equal sorted
    exact dropped ▸ strict

/-- Where items of one key are one item, none is lost. -/
theorem mem_dropRepeats (equal : ∀ a b, same a b ↔ key a = key b)
    (sorted : items.Pairwise fun a b => key a ≤ key b) (one : ∀ a ∈ items, ∀ b ∈ items, key a = key b → a = b)
    {item : α} : item ∈ dropRepeats same items ↔ item ∈ items := by
  cases items with
  | nil => simp [dropRepeats]
  | cons first rest =>
    obtain ⟨kept, dropped, fewer, -, covers⟩ := dropRepeats_cons equal sorted
    have inside := (fewer.cons_cons first).subset
    rw [dropped]
    refine ⟨fun isLeft => inside isLeft, fun member => ?_⟩
    obtain ⟨left, isLeft, sameKey⟩ := covers item member
    exact one left (inside isLeft) item member sameKey ▸ isLeft

end Keys

namespace Path

def Step.code : Step → ℕ ×ₗ String
  | into name => toLex (3, name)
  | step => toLex (step.rank, "")

theorem Step.before_iff {a b : Step} : a.before b ↔ a.code < b.code := by
  cases a <;> cases b <;> simp [before, code, rank, Prod.Lex.toLex_lt_toLex]

theorem Step.code_injective : Function.Injective Step.code := by
  intro a b same
  cases a <;> cases b <;> simp_all [code, rank]

def key (path : Path) : List (ℕ ×ₗ String) := path.steps.map Step.code

theorem stepsBefore_iff {a b : List Step} : stepsBefore a b ↔ a.map Step.code < b.map Step.code := by
  induction a generalizing b with
  | nil => cases b <;> simp [stepsBefore]
  | cons first rest ih =>
    cases b with
    | nil => simp [stepsBefore]
    | cons second others =>
      rw [stepsBefore, Bool.or_eq_true, Bool.and_eq_true, Step.before_iff, ih, beq_iff_eq, List.map_cons,
        List.map_cons, List.cons_lt_cons_iff, Step.code_injective.eq_iff]

theorem before_iff (a b : Path) : a.before b ↔ a.key < b.key := stepsBefore_iff

/-- Paths come in this order in one way only. -/
theorem eq_of_pairwise_before {first second : List Path} (ordered : first.Pairwise fun a b => a.before b)
    (orderedToo : second.Pairwise fun a b => a.before b) (same : ∀ path, path ∈ first ↔ path ∈ second) :
    first = second := by
  have : Std.Irrefl fun a b : Path => (a.before b : Prop) := ⟨fun a less => lt_irrefl _ ((before_iff a a).mp less)⟩
  have : Std.Antisymm fun a b : Path => (a.before b : Prop) :=
    ⟨fun a b less more => absurd ((before_iff b a).mp more) ((before_iff a b).mp less).not_gt⟩
  exact ordered.eq_of_mem_iff orderedToo same

theorem same_iff (a b : Path) : a.same b ↔ a.key = b.key := by
  rw [same, beq_iff_eq, key, key, (List.map_injective_iff.mpr Step.code_injective).eq_iff]

end Path
end Requirements
