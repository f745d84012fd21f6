import Mathlib.Data.List.Induction
import Mathlib.Data.List.TakeWhile
import Requirements.Text.Position

/-! What lines and columns count. A line is the number of newlines before the offset, a column the number
of bytes since the last of them. The starts of lines are told by characters, the counts by the bytes of
the text, where a newline is a byte of its own and part of no other character. Whether a line has started at
an offset is told by the newlines before it, so the lookup by halving ends behind that many starts. -/
namespace Requirements

def bytesOf (text : String) : List UInt8 := text.toUTF8.data.toList

def newline : UInt8 := 10

theorem bytesOf_eq (text : String) : bytesOf text = text.toList.flatMap String.utf8EncodeChar := by
  conv => lhs; rw [← String.ofList_toList (s := text)]
  simp [bytesOf, String.toUTF8, String.ofList, List.utf8Encode, List.data_toByteArray]

theorem newline_ne {n : Nat} (less : n < 256) (other : n ≠ 10) : newline ≠ UInt8.ofNat n := by
  intro same
  have value := congrArg UInt8.toNat same
  rw [UInt8.toNat_ofNat_of_lt' less] at value
  exact other value.symm

/-- The bytes of other characters are themselves or from the upper half. -/
theorem newline_notMem {c : Char} (other : c ≠ '\n') : newline ∉ String.utf8EncodeChar c := by
  have value : c.val.toNat ≠ 10 := fun same => other (Char.ext (UInt32.toNat_inj.mp same))
  have upper : ∀ {n}, 128 ≤ n → n < 256 → newline ≠ UInt8.ofNat n := fun big less => newline_ne less (by omega)
  rw [String.utf8EncodeChar]
  split
  next => simpa using newline_ne (by omega) value
  next =>
    split
    next =>
      simp only [List.mem_cons, List.not_mem_nil, or_false, not_or]
      exact ⟨upper (by omega) (by omega), upper (by omega) (by omega)⟩
    next =>
      split
      next =>
        simp only [List.mem_cons, List.not_mem_nil, or_false, not_or]
        exact ⟨upper (by omega) (by omega), upper (by omega) (by omega), upper (by omega) (by omega)⟩
      next =>
        simp only [List.mem_cons, List.not_mem_nil, or_false, not_or]
        exact ⟨upper (by omega) (by omega), upper (by omega) (by omega), upper (by omega) (by omega),
          upper (by omega) (by omega)⟩

/-! ### Halving -/

theorem difference?_eq_some {whole part rest : Nat} : difference? whole part = some rest ↔ rest + part = whole := by
  rw [difference?]
  split <;> simp <;> omega

structure Parts (items : Array α) (passes : α → Bool) (low high place : Nat) : Prop where
  low_le : low ≤ place
  le_high : place ≤ high
  before : low < place → ∃ item, items[place - 1]? = some item ∧ passes item
  behind : place < high → ∃ item, items[place]? = some item ∧ ¬passes item

/-- This needs no order among the items: each probe moves an end next to the item that it has seen. -/
theorem parts_partitionPoint (items : Array α) (passes : α → Bool) {low high : Nat} (inside : high ≤ items.size)
    (ordered : low ≤ high) : Parts items passes low high (partitionPoint items passes low high inside) := by
  fun_induction partitionPoint items passes low high inside with
  | case1 low high inside more middle within passed ih =>
    have half : low ≤ middle := by omega
    obtain ⟨low_le, le_high, before, behind⟩ := ih within
    refine ⟨by omega, le_high, fun _ => ?_, behind⟩
    by_cases seen : middle + 1 < partitionPoint items passes (middle + 1) high inside
    · exact before seen
    · have place : partitionPoint items passes (middle + 1) high inside - 1 = middle := by omega
      rw [place]
      exact ⟨_, Array.getElem?_eq_getElem _, passed⟩
  | case2 low high inside more middle within failed ih =>
    have half : low ≤ middle := by omega
    obtain ⟨low_le, le_high, before, behind⟩ := ih half
    refine ⟨low_le, by omega, before, fun _ => ?_⟩
    by_cases seen : partitionPoint items passes low middle (by omega) < middle
    · exact behind seen
    · have place : partitionPoint items passes low middle (by omega) = middle := by omega
      rw [place]
      exact ⟨_, Array.getElem?_eq_getElem _, failed⟩
  | case3 low high inside done => exact ⟨Nat.le_refl _, ordered, by omega, by omega⟩

namespace LineStarts

def startsAmong (offset : Nat) : List UInt8 → List Nat
  | [] => []
  | b :: rest => if b = newline then (offset + 1) :: startsAmong (offset + 1) rest else startsAmong (offset + 1) rest

theorem startsAmong_append (offset : Nat) (first second : List UInt8) :
    startsAmong offset (first ++ second) = startsAmong offset first ++ startsAmong (offset + first.length) second := by
  induction first generalizing offset with
  | nil => rfl
  | cons b rest ih =>
    have place : offset + (b :: rest).length = offset + 1 + rest.length := by
      rw [List.length_cons]
      omega
    rw [List.cons_append, startsAmong, startsAmong, ih, place]
    split <;> rfl

theorem startsAmong_eq_nil {bytes : List UInt8} (none : newline ∉ bytes) (offset : Nat) :
    startsAmong offset bytes = [] := by
  induction bytes generalizing offset with
  | nil => rfl
  | cons b rest ih =>
    rw [startsAmong, if_neg fun same : b = newline => none (same ▸ List.mem_cons_self)]
    exact ih (fun member => none (List.mem_cons_of_mem _ member)) _

theorem startsAfter_eq (offset : Nat) (text : List Char) :
    startsAfter offset text = startsAmong offset (text.flatMap String.utf8EncodeChar) := by
  induction text generalizing offset with
  | nil => rfl
  | cons c rest ih =>
    rw [startsAfter, List.flatMap_cons, startsAmong_append, String.length_utf8EncodeChar, ih]
    split
    next isNewline =>
      obtain rfl := isNewline
      rfl
    next other => rw [startsAmong_eq_nil (newline_notMem other), List.nil_append]

/-- Every start is behind the place of the first byte and not behind the end. -/
theorem bounds_of_mem_startsAmong {offset start : Nat} {bytes : List UInt8}
    (member : start ∈ startsAmong offset bytes) : offset < start ∧ start ≤ offset + bytes.length := by
  induction bytes generalizing offset with
  | nil => cases member
  | cons b rest ih =>
    rw [startsAmong] at member
    rw [List.length_cons]
    split at member
    next =>
      rcases List.mem_cons.mp member with rfl | behind
      · omega
      · have bounds := ih behind
        omega
    next =>
      have bounds := ih member
      omega

theorem length_startsAmong (offset : Nat) (bytes : List UInt8) :
    (startsAmong offset bytes).length = bytes.count newline := by
  induction bytes generalizing offset with
  | nil => rfl
  | cons b rest ih =>
    rw [startsAmong, List.count_cons]
    split
    next same => simp [same, ih]
    next other => simp [other, ih]

/-- The starts up to a place are those of the bytes before it. -/
theorem startsAmong_split (bytes : List UInt8) (count : Nat) : startsAmong 0 bytes =
    startsAmong 0 (bytes.take count) ++ startsAmong (bytes.take count).length (bytes.drop count) := by
  conv => lhs; rw [← List.take_append_drop count bytes]
  rw [startsAmong_append, Nat.zero_add]

/-- Behind the last start there are the bytes since the last newline. -/
theorem getLastD_startsAmong (bytes : List UInt8) :
    (startsAmong 0 bytes).getLastD 0 + (bytes.reverse.takeWhile (· ≠ newline)).length = bytes.length := by
  induction bytes using List.reverseRecOn with
  | nil => rfl
  | append_singleton front b ih =>
    rw [startsAmong_append, startsAmong, List.reverse_append, List.reverse_singleton, List.singleton_append,
      List.length_append, List.length_singleton]
    split
    next isNewline => simp [isNewline, startsAmong]
    next other =>
      rw [List.takeWhile_cons_of_pos (by simpa using other), List.length_cons, startsAmong, List.append_nil]
      omega

/-! ### The table of starts -/

theorem starts_ofText (text : String) : (ofText text).starts = (0 :: startsAmong 0 (bytesOf text)).toArray := by
  rw [ofText, startsAfter_eq, bytesOf_eq]

theorem size_starts (text : String) : (ofText text).starts.size = (bytesOf text).count newline + 1 := by
  rw [starts_ofText, List.size_toArray, List.length_cons, length_startsAmong]

/-- A line starts at or before an offset if there are as many newlines before the offset. -/
theorem start_le_iff {text : String} {line start : Nat} (entry : (ofText text).starts[line]? = some start)
    (offset : Nat) : start ≤ offset ↔ line ≤ ((bytesOf text).take offset).count newline := by
  rw [starts_ofText, List.getElem?_toArray] at entry
  cases line with
  | zero =>
    obtain rfl : 0 = start := Option.some.inj entry
    exact iff_of_true (Nat.zero_le _) (Nat.zero_le _)
  | succ line =>
    rw [List.getElem?_cons_succ, startsAmong_split _ offset] at entry
    have count := length_startsAmong 0 ((bytesOf text).take offset)
    have taken := List.length_take (i := offset) (l := bytesOf text)
    have dropped := List.length_drop (i := offset) (l := bytesOf text)
    by_cases before : line < (startsAmong 0 ((bytesOf text).take offset)).length
    · rw [List.getElem?_append_left before] at entry
      have bounds := bounds_of_mem_startsAmong (List.mem_of_getElem? entry)
      omega
    · rw [List.getElem?_append_right (Nat.le_of_not_lt before)] at entry
      have bounds := bounds_of_mem_startsAmong (List.mem_of_getElem? entry)
      omega

/-- The line of an offset starts behind the last newline before it. -/
theorem start_of_line (text : String) (offset : Nat) :
    (ofText text).starts[((bytesOf text).take offset).count newline]? =
      some ((startsAmong 0 ((bytesOf text).take offset)).getLastD 0) := by
  have length := length_startsAmong 0 ((bytesOf text).take offset)
  have inside : ((bytesOf text).take offset).count newline <
      (0 :: startsAmong 0 ((bytesOf text).take offset)).length := by
    rw [List.length_cons]
    omega
  rw [starts_ofText, List.getElem?_toArray, startsAmong_split _ offset, ← List.cons_append,
    List.getElem?_append_left inside, ← length]
  generalize startsAmong 0 ((bytesOf text).take offset) = starts
  have last : (0 :: starts).getLast? = (0 :: starts)[starts.length]? := List.getLast?_eq_getElem?
  rw [← last, List.getLast?_cons, List.getLastD_eq_getLast?]

/-! ### Lookup -/

/-- As many starts are at or before an offset as there are newlines before it, and that of the first line. -/
theorem partitionPoint_starts (text : String) (offset : Nat) :
    partitionPoint (ofText text).starts (· ≤ offset) 0 (ofText text).starts.size (Nat.le_refl _) =
      ((bytesOf text).take offset).count newline + 1 := by
  obtain ⟨-, le_size, before, behind⟩ := parts_partitionPoint (ofText text).starts (· ≤ offset) (Nat.le_refl _)
    (Nat.zero_le _)
  generalize partitionPoint (ofText text).starts (· ≤ offset) 0 _ _ = place at le_size before behind ⊢
  have size := size_starts text
  have fewer := (List.take_sublist offset (bytesOf text)).count_le newline
  have reached : 0 < place → place - 1 ≤ ((bytesOf text).take offset).count newline := by
    intro positive
    obtain ⟨start, entry, passed⟩ := before positive
    exact (start_le_iff entry offset).mp (of_decide_eq_true passed)
  have left : place < (ofText text).starts.size → ((bytesOf text).take offset).count newline < place := by
    intro inside
    obtain ⟨start, entry, failed⟩ := behind inside
    apply Nat.lt_of_not_le
    intro enough
    exact failed (decide_eq_true ((start_le_iff entry offset).mpr enough))
  omega

/-- Every offset is on a line: no step of the lookup fails. -/
theorem position?_ofText (text : String) (offset : Nat) :
    ∃ start, (ofText text).starts[((bytesOf text).take offset).count newline]? = some start ∧ start ≤ offset ∧
      (ofText text).position? offset = some ⟨((bytesOf text).take offset).count newline, offset - start⟩ := by
  have entry := start_of_line text offset
  have reached := (start_le_iff entry offset).mpr (Nat.le_refl _)
  refine ⟨_, entry, reached, ?_⟩
  have line := difference?_eq_some.mpr (partitionPoint_starts text offset).symm
  have column := difference?_eq_some.mpr (Nat.sub_add_cancel reached)
  simp only [position?, line, entry, column, Option.bind_eq_bind, Option.bind_some, Option.pure_def]

/-- The line of an offset is the number of newlines before it, and its column the number of bytes since
the last of them. -/
theorem position_ofText (text : String) {offset : Nat} (inside : offset ≤ (bytesOf text).length) :
    (ofText text).position offset = ⟨((bytesOf text).take offset).count newline,
      (((bytesOf text).take offset).reverse.takeWhile (· ≠ newline)).length⟩ := by
  obtain ⟨start, entry, reached, found⟩ := position?_ofText text offset
  obtain rfl := Option.some.inj (entry.symm.trans (start_of_line text offset))
  have column := getLastD_startsAmong ((bytesOf text).take offset)
  rw [List.length_take, Nat.min_eq_left inside] at column
  have since : offset - (startsAmong 0 ((bytesOf text).take offset)).getLastD 0 =
      (((bytesOf text).take offset).reverse.takeWhile (· ≠ newline)).length := by omega
  rw [position, found, since]
  rfl

end LineStarts
end Requirements
