/-! Lines and columns of byte offsets. Both count from zero, columns in UTF-8 bytes. -/
namespace Requirements

structure Position where
  line : Nat
  column : Nat
  deriving DecidableEq, Inhabited

def difference? (whole part : Nat) : Option Nat := if part ≤ whole then some (whole - part) else none

/-- The first place from `low` to `high` whose item does not pass, where all that pass come first. Every
probe in the middle leaves half of the places. -/
def partitionPoint (items : Array α) (passes : α → Bool) (low high : Nat) (inside : high ≤ items.size) : Nat :=
  if more : low < high then
    let middle := (low + high) / 2
    have within : middle < high := by omega
    if passes items[middle] then partitionPoint items passes (middle + 1) high inside
    else partitionPoint items passes low middle (Nat.le_trans (Nat.le_of_lt within) inside)
  else low
termination_by high - low

/-- The offsets at which the lines of a text start, in ascending order. -/
structure LineStarts where
  starts : Array Nat

namespace LineStarts

def startsAfter (offset : Nat) : List Char → List Nat
  | [] => []
  | c :: rest =>
    let next := offset + c.utf8Size
    if c = '\n' then next :: startsAfter next rest else startsAfter next rest

def ofText (text : String) : LineStarts := ⟨(0 :: startsAfter 0 text.toList).toArray⟩

/-- The last line that starts at or before the offset, which may lie past the end, and how far the offset is
behind its start. There is none where no line starts so early. -/
def position? (index : LineStarts) (offset : Nat) : Option Position := do
  let line ← difference? (partitionPoint index.starts (· ≤ offset) 0 index.starts.size (Nat.le_refl _)) 1
  let start ← index.starts[line]?
  let column ← difference? offset start
  return ⟨line, column⟩

/-- The first line of a text starts at its first byte, so that every offset is on a line. -/
def position (index : LineStarts) (offset : Nat) : Position := (index.position? offset).getD default

end LineStarts
end Requirements
