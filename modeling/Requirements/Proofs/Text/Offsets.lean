import Mathlib.Data.Prod.Lex
import Mathlib.Order.Bounds.Basic
import Requirements.Proofs.Text.Position

/-! Offsets and their places, in order. The table holds the first place of every line, so a later offset is
on a later line or further along the same one, whether inside the text or behind its end. For a text
shorter than 4 GiB all the numbers on the way are words of 32 bits. -/
namespace Requirements

def Position.key (place : Position) : ℕ ×ₗ ℕ := toLex (place.line, place.column)

/-- A line starts at the first place with as many newlines before it as there are lines before that one. -/
def IsLineStart (bytes : List UInt8) (line start : Nat) : Prop :=
  IsLeast {place | (bytes.take place).count newline = line} start

theorem count_take_le (bytes : List UInt8) {first second : Nat} (ordered : first ≤ second) :
    (bytes.take first).count newline ≤ (bytes.take second).count newline :=
  (List.take_prefix_take_left ordered).sublist.count_le newline

/-- One byte adds one newline at most. -/
theorem count_take_succ_le (bytes : List UInt8) (place : Nat) :
    (bytes.take (place + 1)).count newline ≤ (bytes.take place).count newline + 1 := by
  rw [List.take_add_one, List.count_append]
  apply Nat.add_le_add_left
  apply List.count_le_length.trans
  cases bytes[place]? <;> simp

namespace LineStarts

theorem isLineStart {text : String} {line start : Nat} (entry : (ofText text).starts[line]? = some start) :
    IsLineStart (bytesOf text) line start := by
  have enough := (start_le_iff entry start).mp (Nat.le_refl start)
  refine ⟨Nat.le_antisymm ?_ enough, ?_⟩
  · cases start with
    | zero => exact Nat.zero_le line
    | succ before =>
      have fewer : ¬line ≤ ((bytesOf text).take before).count newline := by
        intro reached
        exact Nat.not_succ_le_self before ((start_le_iff entry before).mpr reached)
      have step := count_take_succ_le (bytesOf text) before
      omega
  · intro place same
    exact (start_le_iff entry place).mpr same.ge

theorem start_le_length {text : String} {start : Nat} (member : start ∈ (ofText text).starts) :
    start ≤ (bytesOf text).length := by
  rw [starts_ofText, List.mem_toArray] at member
  rcases List.mem_cons.mp member with rfl | behind
  · exact Nat.zero_le _
  · have bounds := bounds_of_mem_startsAmong behind
    omega

/-- What the lookup finds: the newlines before the offset, and how far it is behind the start of the line. -/
theorem exists_place (text : String) (offset : Nat) :
    ∃ start, IsLineStart (bytesOf text) (((bytesOf text).take offset).count newline) start ∧ start ≤ offset ∧
      (ofText text).position? offset = some ⟨((bytesOf text).take offset).count newline, offset - start⟩ := by
  obtain ⟨start, entry, reached, found⟩ := position?_ofText text offset
  exact ⟨start, isLineStart entry, reached, found⟩

theorem position_of_found {index : LineStarts} {offset : Nat} {place : Position}
    (found : index.position? offset = some place) : index.position offset = place := by
  rw [position, found, Option.getD_some]

theorem strictMono_key (text : String) : StrictMono fun offset => ((ofText text).position offset).key := by
  intro first second before
  obtain ⟨start, isStart, reached, found⟩ := exists_place text first
  obtain ⟨laterStart, isLaterStart, laterReached, laterFound⟩ := exists_place text second
  simp only [position_of_found found, position_of_found laterFound, Position.key, Prod.Lex.toLex_lt_toLex]
  rcases Nat.lt_or_eq_of_le (count_take_le (bytesOf text) (Nat.le_of_lt before)) with later | same
  · exact .inl later
  · rw [← same] at isLaterStart
    obtain rfl := isStart.unique isLaterStart
    exact .inr ⟨same, by omega⟩

theorem exists_word {number : Nat} (short : number < UInt32.size) : ∃ word : UInt32, word.toNat = number :=
  ⟨UInt32.ofNatLT number short, UInt32.toNat_ofNatLT⟩

/-- In a text shorter than 4 GiB every word is an offset with a place, behind the end too: no step of the
lookup fails, and all the numbers in it are words. The line is the number of newlines before the offset,
and the column is how far the offset is behind the start of the line. A later offset has a later place, so
no two offsets share one. -/
theorem places_of_words {text : String} (short : text.utf8ByteSize < UInt32.size) :
    (∀ start ∈ (ofText text).starts, start < UInt32.size) ∧
    (∀ offset : UInt32, ∃ (line column : UInt32) (start : Nat),
      (ofText text).position? offset.toNat = some ⟨line.toNat, column.toNat⟩ ∧
      (ofText text).position offset.toNat = ⟨line.toNat, column.toNat⟩ ∧
      line.toNat = ((bytesOf text).take offset.toNat).count newline ∧
      IsLineStart (bytesOf text) line.toNat start ∧ start + column.toNat = offset.toNat) ∧
    (∀ first second : UInt32, first < second →
      ((ofText text).position first.toNat).key < ((ofText text).position second.toNat).key) ∧
    Function.Injective fun offset : UInt32 => (ofText text).position offset.toNat := by
  have length : (bytesOf text).length < UInt32.size := short
  refine ⟨fun start member => (start_le_length member).trans_lt length, fun offset => ?_,
    fun first second before => strictMono_key text (UInt32.lt_iff_toNat_lt.mp before), fun first second same => ?_⟩
  · obtain ⟨start, isStart, reached, found⟩ := exists_place text offset.toNat
    have fewer : ((bytesOf text).take offset.toNat).count newline ≤ (bytesOf text).length :=
      ((List.take_sublist _ _).count_le newline).trans List.count_le_length
    obtain ⟨line, sameLine⟩ := exists_word (fewer.trans_lt length)
    obtain ⟨column, sameColumn⟩ := exists_word ((Nat.sub_le _ start).trans_lt offset.toNat_lt_size)
    rw [← sameLine, ← sameColumn] at found
    refine ⟨line, column, start, found, position_of_found found, sameLine, sameLine ▸ isStart, ?_⟩
    omega
  · have sameKey := congrArg Position.key same
    exact UInt32.toNat_inj.mp ((strictMono_key text).injective sameKey)

/-- A text of four lines, of which the third is empty and the second ends with two bytes for one character. -/
def fourLines : String := "ab\ncé\n\nx"

theorem places_of_words_fourLines :
    fourLines.utf8ByteSize < UInt32.size ∧ (ofText fourLines).position? 6 = some ⟨1, 3⟩ ∧
    (ofText fourLines).position? 12 = some ⟨3, 4⟩ ∧
    (∀ start ∈ (ofText fourLines).starts, start < UInt32.size) ∧
    (∀ offset : UInt32, ∃ (line column : UInt32) (start : Nat),
      (ofText fourLines).position? offset.toNat = some ⟨line.toNat, column.toNat⟩ ∧
      (ofText fourLines).position offset.toNat = ⟨line.toNat, column.toNat⟩ ∧
      line.toNat = ((bytesOf fourLines).take offset.toNat).count newline ∧
      IsLineStart (bytesOf fourLines) line.toNat start ∧ start + column.toNat = offset.toNat) ∧
    (∀ first second : UInt32, first < second →
      ((ofText fourLines).position first.toNat).key < ((ofText fourLines).position second.toNat).key) ∧
    Function.Injective fun offset : UInt32 => (ofText fourLines).position offset.toNat := by
  have short : fourLines.utf8ByteSize < UInt32.size := by decide +kernel
  exact ⟨short, by decide +kernel, by decide +kernel, places_of_words short⟩

end LineStarts
end Requirements
