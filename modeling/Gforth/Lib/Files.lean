import Mathlib.Tactic.Common
import Mathlib.Data.List.Basic

/-!
# Files as lists

Reading and writing in the middle of a file.  Writing behind the end of a file fills the gap.

Main results:

- Theorem {lit}`readAt_writeAt_self`: reading what was written.
- Theorem {lit}`readAt_writeAt_of_disjoint`: the rest of the file does not change.
-/

namespace Gforth
namespace Lib

variable {β : Type}

/-- At most {lit}`n` items from position {lit}`pos` -/
def readAt (content : List β) (pos n : Nat) : List β :=
  (content.drop pos).take n

/-- Replace the items from position {lit}`pos`. -/
def writeAt (gap : β) (content : List β) (pos : Nat) (data : List β) : List β :=
  (content ++ List.replicate (pos - content.length) gap).take pos ++ data ++
    content.drop (pos + data.length)

variable {gap : β} {content data : List β} {pos : Nat}

theorem length_readAt_le {p n : Nat} : (readAt content p n).length ≤ n :=
  List.length_take_le _ _

/-- All is read that is in the file. -/
theorem length_readAt {p n : Nat} (hin : p + n ≤ content.length) :
    (readAt content p n).length = n := by
  rw [readAt, List.length_take, List.length_drop]
  omega

theorem length_writeAt_front :
    ((content ++ List.replicate (pos - content.length) gap).take pos).length = pos := by
  simp only [List.length_take, List.length_append, List.length_replicate]
  omega

theorem length_writeAt :
    (writeAt gap content pos data).length = max content.length (pos + data.length) := by
  simp only [writeAt, List.length_append, length_writeAt_front, List.length_drop]
  omega

theorem readAt_writeAt_self :
    readAt (writeAt gap content pos data) pos data.length = data := by
  rw [readAt, writeAt, List.append_assoc, List.drop_left' length_writeAt_front, List.take_left]

/-- A part of the file before or behind the written part -/
theorem readAt_writeAt_of_disjoint {p n : Nat} (hin : p + n ≤ content.length)
    (hdisj : p + n ≤ pos ∨ pos + data.length ≤ p) :
    readAt (writeAt gap content pos data) p n = readAt content p n := by
  refine List.ext_getElem? fun i => ?_
  by_cases hi : i < n
  · simp only [readAt, List.getElem?_take_of_lt hi, List.getElem?_drop]
    rcases hdisj with hbefore | hbehind
    · rw [writeAt, List.append_assoc, List.getElem?_append_left (by rw [length_writeAt_front]; omega),
        List.getElem?_take_of_lt (by omega), List.getElem?_append_left (by omega)]
    · have hfront : ((content ++ List.replicate (pos - content.length) gap).take pos ++
          data).length = pos + data.length := by
        rw [List.length_append, length_writeAt_front]
      rw [writeAt, List.getElem?_append_right (by omega), hfront, List.getElem?_drop]
      congr 1
      omega
  · simp only [readAt, List.getElem?_take, if_neg hi]

end Lib
end Gforth
