import Mathlib.Data.List.Basic
import Mathlib.Tactic

/-!
# Blocks on a heap

A heap has blocks at some of the addresses.  A block is a list of values, and every access is within
one block.  An allocator finds a place for a new block; it may have no place at any time.

Main results:

- Theorems {lit}`overwrite_append_left`, {lit}`overwrite_append_right`: the part of a list that is
  replaced.
- Theorems {lit}`read_of_block`, {lit}`write_of_block`: accesses within a block.
- Theorems {lit}`malloc_spec`, {lit}`realloc_spec`: a new block is at an address that was free, and
  the other blocks stay.
-/

namespace Gforth
namespace Lib

variable {α β : Type}

/-! ## Parts of a list -/

/-- The values from an offset on are replaced. -/
def overwrite (b : List β) (off : Nat) (t : List β) : List β :=
  b.take off ++ t ++ b.drop (off + t.length)

/-- A block keeps its size. -/
theorem length_overwrite {b t : List β} {off : Nat} (h : off + t.length ≤ b.length) :
    (overwrite b off t).length = b.length := by
  rw [overwrite, List.length_append, List.length_append, List.length_take, List.length_drop]
  omega

@[simp]
theorem overwrite_nil (b : List β) (off : Nat) : overwrite b off [] = b := by
  rw [overwrite, List.append_nil, List.length_nil, Nat.add_zero, List.take_append_drop]

/-- A part of a block is replaced. -/
theorem overwrite_append (x z : List β) {y t : List β} (h : t.length = y.length) :
    overwrite (x ++ y ++ z) x.length t = x ++ t ++ z := by
  have hdrop : (x ++ y ++ z).drop (x.length + t.length) = z := by
    rw [h, ← List.length_append, List.drop_left]
  rw [overwrite, hdrop, List.append_assoc x y z, List.take_left]

/-- The first values are replaced. -/
theorem overwrite_front (z : List β) {y t : List β} (h : t.length = y.length) :
    overwrite (y ++ z) 0 t = t ++ z := by
  have hover := overwrite_append [] z h
  rwa [List.nil_append, List.nil_append] at hover

theorem overwrite_all {b t : List β} (h : t.length = b.length) : overwrite b 0 t = t := by
  have hover := overwrite_front [] h
  rwa [List.append_nil, List.append_nil] at hover

/-- The last values are replaced. -/
theorem overwrite_end (x : List β) {y t : List β} (h : t.length = y.length) :
    overwrite (x ++ y) x.length t = x ++ t := by
  have hover := overwrite_append x [] h
  rwa [List.append_nil, List.append_nil] at hover

theorem overwrite_append_right (x s t : List β) (off : Nat) :
    overwrite (x ++ s) (x.length + off) t = x ++ overwrite s off t := by
  rw [overwrite, overwrite, Nat.add_assoc, List.take_length_add_append, List.drop_length_add_append,
    List.append_assoc x, List.append_assoc x]

theorem overwrite_append_left {s t : List β} (z : List β) {off : Nat}
    (h : off + t.length ≤ s.length) : overwrite (s ++ z) off t = overwrite s off t ++ z := by
  rw [overwrite, overwrite, List.take_append_of_le_length (by omega),
    List.drop_append_of_le_length h, List.append_assoc (s.take off ++ t)]

/-- What was written is in the block. -/
theorem drop_take_overwrite {b t : List β} {off : Nat} (h : off + t.length ≤ b.length) :
    ((overwrite b off t).drop off).take t.length = t := by
  have hfront : (b.take off).length = off := by
    rw [List.length_take]
    omega
  rw [overwrite, List.append_assoc, List.drop_left' hfront, List.take_left]

/-- Room is made in a list with room behind it, and is filled. -/
theorem overwrite_insert {s y t : List β} (hy : y.length = t.length) {off : Nat}
    (hoff : off ≤ s.length) :
    overwrite (overwrite (s ++ y) (off + t.length) (s.drop off)) off t =
      s.take off ++ t ++ s.drop off := by
  have hlens : (s ++ y).length = s.length + t.length := by rw [List.length_append, hy]
  have hfront : ((s ++ y).take (off + t.length)).length = off + t.length := by
    rw [List.length_take]
    omega
  have hfirst : overwrite (s ++ y) (off + t.length) (s.drop off) =
      (s ++ y).take (off + t.length) ++ s.drop off := by
    have hend := overwrite_end ((s ++ y).take (off + t.length))
      (y := (s ++ y).drop (off + t.length)) (t := s.drop off)
      (by rw [List.length_drop, List.length_drop]; omega)
    rwa [List.take_append_drop, hfront] at hend
  have hsplit : (s ++ y).take (off + t.length) =
      s.take off ++ ((s ++ y).take (off + t.length)).drop off := by
    have htake : s.take off = ((s ++ y).take (off + t.length)).take off := by
      rw [List.take_take, Nat.min_eq_left (Nat.le_add_right _ _),
        List.take_append_of_le_length hoff]
    rw [htake, List.take_append_drop]
  have hsecond := overwrite_append (s.take off) (s.drop off) (t := t)
    (y := ((s ++ y).take (off + t.length)).drop off) (by rw [List.length_drop]; omega)
  rwa [← hsplit, List.length_take, Nat.min_eq_left hoff, ← hfirst] at hsecond

/-! ## Blocks -/

/-- The blocks at their addresses -/
abbrev Heap (α β : Type) : Type :=
  α → Option (List β)

namespace Heap

variable (h : Heap α β)

/-- The values from an offset in a block on; no values are everywhere. -/
def read (a : α) (off n : Nat) : Option (List β) :=
  if n = 0 then some []
  else (h a).bind fun b => if off + n ≤ b.length then some ((b.drop off).take n) else none

variable [DecidableEq α]

/-- Replace the values from an offset in a block on. -/
def write (a : α) (off : Nat) (t : List β) : Option (Heap α β) :=
  if t.length = 0 then some h
  else (h a).bind fun b =>
    if off + t.length ≤ b.length then some (Function.update h a (some (overwrite b off t))) else none

variable {h}

omit [DecidableEq α] in
@[simp]
theorem read_zero (a : α) (off : Nat) : h.read a off 0 = some [] :=
  rfl

@[simp]
theorem write_nil (a : α) (off : Nat) : h.write a off [] = some h :=
  rfl

omit [DecidableEq α] in
/-- Reading within a block gives its bytes. -/
theorem read_of_block {a : α} {b : List β} (hb : h a = some b) {off n : Nat}
    (hle : off + n ≤ b.length) : h.read a off n = some ((b.drop off).take n) := by
  rw [read]
  by_cases hn : n = 0
  · rw [if_pos hn, hn, List.take_zero]
  · rw [if_neg hn, hb, Option.bind_some, if_pos hle]

/-- Writing within a block changes this block only. -/
theorem write_of_block {a : α} {b : List β} (hb : h a = some b) {off : Nat} {t : List β}
    (hle : off + t.length ≤ b.length) :
    h.write a off t = some (Function.update h a (some (overwrite b off t))) := by
  rw [write]
  by_cases ht : t.length = 0
  · rw [if_pos ht, List.length_eq_zero_iff.mp ht, overwrite_nil, ← hb, Function.update_eq_self]
  · rw [if_neg ht, hb, Option.bind_some, if_pos hle]

/-- What has been written is read. -/
theorem read_write {h' : Heap α β} {a : α} {off : Nat} {t : List β} (hwrite : h.write a off t = some h') :
    h'.read a off t.length = some t := by
  rw [write] at hwrite
  by_cases ht : t.length = 0
  · rw [ht, List.length_eq_zero_iff.mp ht]
    rfl
  · rw [if_neg ht] at hwrite
    obtain ⟨b, hb, hrest⟩ := Option.bind_eq_some_iff.mp hwrite
    obtain ⟨hle, hh⟩ := Option.ite_none_right_eq_some.mp hrest
    cases hh
    rw [read_of_block (Function.update_self _ _ _) (by rw [length_overwrite hle]; exact hle),
      drop_take_overwrite hle]

omit [DecidableEq α] in
/-- What is read in a block is there in every heap with this block. -/
theorem read_mono {h' : Heap α β} {a : α} (hsame : ∀ b, h a = some b → h' a = some b) {off n : Nat}
    {t : List β} (hread : h.read a off n = some t) : h'.read a off n = some t := by
  rw [read] at hread ⊢
  by_cases hn : n = 0
  · rwa [if_pos hn] at hread ⊢
  · rw [if_neg hn] at hread ⊢
    obtain ⟨b, hb, ht⟩ := Option.bind_eq_some_iff.mp hread
    rw [hsame b hb, Option.bind_some]
    exact ht

omit [DecidableEq α] in
/-- As many bytes are read as asked for. -/
theorem length_of_read {a : α} {off n : Nat} {t : List β} (hread : h.read a off n = some t) :
    t.length = n := by
  rw [read] at hread
  by_cases hn : n = 0
  · rw [if_pos hn, Option.some_inj] at hread
    rw [← hread, hn, List.length_nil]
  · rw [if_neg hn] at hread
    obtain ⟨b, -, ht⟩ := Option.bind_eq_some_iff.mp hread
    by_cases hle : off + n ≤ b.length
    · rw [if_pos hle, Option.some_inj] at ht
      rw [← ht, List.length_take, List.length_drop]
      omega
    · rw [if_neg hle] at ht
      cases ht

end Heap

/-! ## Allocation -/

/-- Where the next block of a size is put, if there is memory for it, and what happens to be in it -/
structure Allocator (α β : Type) (null : α) where
  place : Heap α β → Nat → Option (α × List β)
  ne_null : ∀ {h n a t}, place h n = some (a, t) → a ≠ null
  fresh : ∀ {h n a t}, place h n = some (a, t) → h a = none
  length_eq : ∀ {h n a t}, place h n = some (a, t) → t.length = n

namespace Allocator

/-- An allocator with one place for the blocks of a size, filled with some value -/
def fixed {null : α} (place : Nat → α) (hne : ∀ n, place n ≠ null) (b : β) : Allocator α β null where
  place h n := if h (place n) = none then some (place n, List.replicate n b) else none
  ne_null heq := by
    obtain ⟨-, hplace⟩ := Option.ite_none_right_eq_some.mp heq
    cases hplace
    exact hne _
  fresh heq := by
    obtain ⟨hfresh, hplace⟩ := Option.ite_none_right_eq_some.mp heq
    cases hplace
    exact hfresh
  length_eq heq := by
    obtain ⟨-, hplace⟩ := Option.ite_none_right_eq_some.mp heq
    cases hplace
    exact List.length_replicate

variable {null : α} [DecidableEq α] (alloc : Allocator α β null)

/-- A new block -/
def malloc (h : Heap α β) (n : Nat) : Option (α × Heap α β) :=
  (alloc.place h n).map fun r => (r.1, Function.update h r.1 (some r.2))

/-- The block {lit}`b` at an address gets another size, and perhaps another place. -/
def realloc (h : Heap α β) (a : α) (b : List β) (n : Nat) : Option (α × Heap α β) :=
  (alloc.place (Function.update h a none) n).map fun r =>
    (r.1, Function.update (Function.update h a none) r.1 (some (b.take n ++ r.2.drop b.length)))

variable {alloc} {h h' : Heap α β} {n : Nat} {a a' : α}

/-- A new block is at an unused address. -/
theorem malloc_spec (heq : alloc.malloc h n = some (a', h')) :
    a' ≠ null ∧ h a' = none ∧ ∃ b, b.length = n ∧ h' = Function.update h a' (some b) := by
  rw [malloc] at heq
  obtain ⟨⟨a, t⟩, hplace, hr⟩ := Option.map_eq_some_iff.mp heq
  cases hr
  exact ⟨alloc.ne_null hplace, alloc.fresh hplace, t, alloc.length_eq hplace, rfl⟩

/-- A resized block keeps its bytes, and is at its address or at an unused one. -/
theorem realloc_spec {b : List β} (heq : alloc.realloc h a b n = some (a', h')) :
    a' ≠ null ∧ (a' ≠ a → h a' = none) ∧
      ∃ t, (b.take n ++ t).length = n ∧
        h' = Function.update (Function.update h a none) a' (some (b.take n ++ t)) := by
  rw [realloc] at heq
  obtain ⟨⟨a'', t⟩, hplace, hr⟩ := Option.map_eq_some_iff.mp heq
  cases hr
  have hlen := alloc.length_eq hplace
  refine ⟨alloc.ne_null hplace, ?_, t.drop b.length, ?_, rfl⟩
  · intro hne
    have hfresh := alloc.fresh hplace
    rwa [Function.update_of_ne hne] at hfresh
  · rw [List.length_append, List.length_take, List.length_drop, hlen]
    omega

section Fixed

variable (place : Nat → α) (hne : ∀ n, place n ≠ null) (b : β)

/-- A new block in the one place -/
theorem malloc_fixed (hfree : h (place n) = none) :
    ∃ h', (fixed place hne b).malloc h n = some (place n, h') := by
  have hplace : (fixed place hne b).place h n = some (place n, List.replicate n b) := if_pos hfree
  rw [malloc, hplace]
  exact ⟨_, rfl⟩

/-- A block that stays in the one place -/
theorem realloc_fixed (h : Heap α β) (t : List β) :
    ∃ h', (fixed place hne b).realloc h (place n) t n = some (place n, h') := by
  have hplace : (fixed place hne b).place (Function.update h (place n) none) n =
      some (place n, List.replicate n b) := if_pos (Function.update_self _ _ _)
  rw [realloc, hplace]
  exact ⟨_, rfl⟩

end Fixed

end Allocator
end Lib
end Gforth
