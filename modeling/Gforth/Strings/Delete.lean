import Gforth.Strings.Lists

/-!
# Deleting a range of a string

{lit}`$del` clips the range for the move, but it subtracts the count that has not been clipped from
the length.

Main results:

- Theorem {lit}`delete_spec`: the move of the characters.
- Theorem {lit}`stringDel_iff`: the ranges that are deleted.
- Theorem {lit}`backFrom_spec`: the first cell of a stack is taken off.
-/

namespace Gforth
namespace Strings

open Lib
open Numbers
open Hash.Keys (CellSize)

variable {V : Type} {c : CellSize} {order : ByteOrder} {st st' : Store V c} {v : V} {s : List Byte}

/-! ## The move -/

/-- The characters behind the range are moved, and blanks are behind them. -/
def deleted (s : List Byte) (off u : Nat) : List Byte :=
  s.take off ++ s.drop (off + u) ++ List.replicate u 0x20#8

theorem length_deleted {off u : Nat} (h : off + u ≤ s.length) : (deleted s off u).length = s.length := by
  rw [deleted, List.length_append, List.length_append, List.length_take, List.length_drop,
    List.length_replicate]
  omega

/-- Without the last bytes it is the string without the deleted part. -/
theorem take_deleted {off u : Nat} (h : off + u ≤ s.length) :
    (deleted s off u).take (s.length - u) = s.take off ++ s.drop (off + u) := by
  have hlen : (s.take off ++ s.drop (off + u)).length = s.length - u := by
    rw [List.length_append, List.length_take, List.length_drop]
    omega
  rw [deleted, List.take_left' hlen]

/-- {lit}`delete` moves the bytes behind the deleted part. -/
theorem delete_spec {off : Nat} {u : BitVec c.bits} (h : Holds order st v s) (hoff : off ≤ s.length) :
    ∃ st', delete ⟨⟨st.vars v, cell c + BitVec.ofNat _ off⟩, BitVec.ofNat _ (s.length - off)⟩ u st =
        .ok () st' ∧
      Holds order st' v (deleted s off (min u.toNat (s.length - off))) ∧ Only v st st' := by
  have hmax := h.length_le
  generalize hk : min u.toNat (s.length - off) = k
  have hcount := umin_ofNat (c := c) (n := s.length - off) (by omega) u
  rw [hk] at hcount
  have hread := h.load (show off + k + (s.length - off - k) ≤ s.length by omega)
  rw [List.take_of_length_le (by rw [List.length_drop]; omega), BitVec.ofNat_add,
    ← BitVec.add_assoc] at hread
  obtain ⟨st1, hstore, hvar, hholds, honly⟩ := h.store (t := s.drop (off + k))
    (show off + (s.drop (off + k)).length ≤ s.length by rw [List.length_drop]; omega)
  rw [overwrite] at hholds
  obtain ⟨st2, hfill, hholds2, honly2⟩ := hholds.storeEnd (t := List.replicate k 0x20#8)
    (by rw [List.length_replicate, List.length_drop, List.length_drop]; omega)
  have hend : (s.take off ++ s.drop (off + k)).length = off + (s.length - off - k) := by
    rw [List.length_append, List.length_take, List.length_drop]
    omega
  rw [hend, BitVec.ofNat_add, ← BitVec.add_assoc, hvar] at hfill
  refine ⟨st2, ?_, hholds2, honly.trans honly2⟩
  rw [delete]
  dsimp only
  rw [hcount, sub_ofNat (by omega) (by omega), Ptr.plus, bind_ok ((move_ok hread).trans hstore), fill,
    toNat_ofNat_of_le (by omega)]
  exact hfill

/-! ## The new length -/

/-- The length that {lit}`$del` stores -/
def newLength (n : Nat) (u : BitVec c.bits) : BitVec c.bits :=
  let rest := BitVec.ofNat c.bits n - u
  if rest.slt 0#_ then 0#_ else rest

/-- The new length by the number of characters that are deleted. -/
theorem toNat_newLength {n : Nat} (hn : n ≤ maxLength c) (u : BitVec c.bits) :
    (newLength n u).toNat = if u.toNat ≤ n then n - u.toNat
      else if u.toNat ≤ n + 2 ^ (c.bits - 1) then 0 else n + 2 ^ c.bits - u.toNat := by
  have hnat : (BitVec.ofNat c.bits n).toNat = n := toNat_ofNat_of_le (by omega)
  have hlt := u.isLt
  obtain ⟨htwice, hlarge, -⟩ := two_pow_bits c
  have hpos := c.bytes_pos
  rw [maxLength] at hn
  have hrest : (BitVec.ofNat c.bits n - u).toNat =
      if u.toNat ≤ n then n - u.toNat else n + 2 ^ c.bits - u.toNat := by
    rw [BitVec.toNat_sub, hnat]
    split
    · rw [Nat.mod_eq_sub_mod (by omega), Nat.mod_eq_of_lt (by omega)]
      omega
    · rw [Nat.mod_eq_of_lt (by omega)]
      omega
  have hneg : (BitVec.ofNat c.bits n - u).slt 0#_ = true ↔ 2 ^ c.bits ≤ 2 * (BitVec.ofNat c.bits n - u).toNat :=
    (slt_zero_iff _).trans (toInt_neg_iff _)
  rw [newLength]
  by_cases hle : u.toNat ≤ n
  · rw [if_pos hle] at hrest ⊢
    rw [if_neg (by rw [hneg, hrest]; omega), hrest]
  · rw [if_neg hle] at hrest ⊢
    by_cases hhalf : u.toNat ≤ n + 2 ^ (c.bits - 1)
    · rw [if_pos (by rw [hneg, hrest]; omega), if_pos hhalf, BitVec.toNat_zero]
    · rw [if_neg (by rw [hneg, hrest]; omega), if_neg hhalf, hrest]

/-- {lit}`delete` in an empty text does nothing. -/
theorem delete_none (p : Ptr c) (u : BitVec c.bits) : delete ⟨p, 0#_⟩ u st = .ok () st := by
  have hcount := umin_ofNat (c := c) (n := 0) (by omega) u
  rw [Nat.min_zero] at hcount
  rw [delete]
  dsimp only
  rw [hcount, BitVec.sub_self, bind_ok (move_none _ _), fill, BitVec.toNat_zero, List.replicate_zero]
  rfl

/-! ## A place for the buffer -/

/-- The word does not run out of memory, and afterwards the variable has the length {lit}`u`. -/
def Counts (order : ByteOrder) (v : V) (u : BitVec c.bits)
    (r : EStateM.Result Fault (Store V c) Unit) : Prop :=
  (∀ st', r ≠ .error .outOfMemory st') ∧
    ∀ st', r = .ok () st' → stringFetchLen order v st' = .ok u st'

/-- The length that is stored is the length. -/
theorem storeCell_counts (hne : st.vars v ≠ 0#_) (u : BitVec c.bits) :
    Counts order v u (storeCell order u ⟨st.vars v, 0#_⟩ st) := by
  rw [storeCell, storeBytes, bind_get]
  cases hwrite : st.heap.write (st.vars v) (0#c.bits).toNat (order.store c.bytes u) with
  | none => exact ⟨fun st' heq => (by cases heq), fun st' heq => (by cases heq)⟩
  | some h =>
      refine ⟨fun st' heq => (by cases heq), fun st' heq => ?_⟩
      cases heq
      have hread := Heap.read_write hwrite
      rw [order.length_store] at hread
      have hload : loadBytes ⟨st.vars v, 0#_⟩ (cell c) { st with heap := h } =
          .ok (order.store c.bytes u) { st with heap := h } :=
        loadBytes_ok (by rw [cell, c.toNat_bytes]; exact hread)
      rw [stringFetchLen, bind_ok (rfl : fetchVar v _ = .ok (st.vars v) { st with heap := h }), if_pos hne,
        loadCell, bind_ok hload]
      exact congrArg (EStateM.Result.ok · _) (order.load_store rfl u)

variable {a : BitVec c.bits}

/-- An allocator with one place -/
def onePlace (ha : a ≠ 0#_) : Allocator (BitVec c.bits) Byte 0#c.bits :=
  .fixed (fun _ => a) (fun _ => ha) 0#8

/-- The allocator with one place resizes the block in its place. -/
theorem resize_onePlace (h : Contains order st v s) (ha : a ≠ 0#_)
    (hplace : st.vars v = a ∨ st.vars v = 0#_ ∧ st.heap a = none) (n : BitVec c.bits) :
    ∃ h', resize (onePlace ha) (st.vars v) n st = .ok a { st with heap := h' } := by
  rw [resize, bind_get]
  rcases hplace with rfl | ⟨hnull, hfree⟩
  · obtain ⟨rest, hblock, -⟩ := (h.resolve_left fun hnull => ha hnull.1).block
    obtain ⟨h', hrealloc⟩ := Allocator.realloc_fixed (fun _ => st.vars v) (fun _ => ha) 0#8 st.heap
      (header order c s.length ++ (s ++ rest)) (n := if n = 0#_ then 1 else n.toNat)
    rw [if_neg ha, hblock]
    dsimp only
    rw [onePlace, hrealloc]
    exact ⟨h', rfl⟩
  · obtain ⟨h', hmalloc⟩ := Allocator.malloc_fixed (fun _ => a) (fun _ => ha) 0#8 (n := n.toNat) hfree
    rw [if_pos hnull, onePlace, hmalloc]
    exact ⟨h', rfl⟩

variable [DecidableEq V]

/-- With one place the block gets its new length. -/
theorem resizeTo_counts (h : Contains order st v s) (ha : a ≠ 0#_)
    (hplace : st.vars v = a ∨ st.vars v = 0#_ ∧ st.heap a = none) (n u : BitVec c.bits) :
    Counts order v u (resizeTo order (onePlace ha) n u v st) := by
  obtain ⟨h', hok⟩ := resize_onePlace h ha hplace n
  let st' : Store V c := ⟨Function.update st.vars v a, h'⟩
  have hvar : st'.vars v = a := Function.update_self _ _ _
  rw [resizeTo, bind_ok (rfl : fetchVar v st = .ok (st.vars v) st), bind_ok hok,
    bind_ok (rfl : storeVar a v _ = .ok () st'), bind_ok (rfl : fetchVar v st' = .ok _ st')]
  exact storeCell_counts (hvar ▸ ha) u

/-- A variable that has a buffer, or an address that is free, is enough for the new length. -/
theorem stringStoreLen_counts (h : Contains order st v s) (ha : a ≠ 0#_)
    (hplace : st.vars v = a ∨ st.vars v = 0#_ ∧ st.heap a = none) (u : BitVec c.bits) :
    Counts order v u (stringStoreLen order (onePlace ha) u v st) := by
  have hresize := resizeTo_counts h ha hplace (padding c u) u
  rw [stringStoreLen, bind_ok (rfl : fetchVar v st = .ok (st.vars v) st)]
  rcases h with ⟨hnull, rfl⟩ | hholds
  · rwa [if_neg (not_not.mpr hnull)]
  · rw [if_pos hholds.ne_null, bind_ok hholds.loadLen]
    split
    · exact storeCell_counts hholds.ne_null u
    · exact hresize

/-! ## The word -/

/-- The range is removed, and then the length is stored. -/
theorem stringDel_cut (h : Contains order st v s) (off u : BitVec c.bits) :
    ∃ st1, (∀ alloc, stringDel order alloc v off u st =
        stringStoreLen order alloc (newLength s.length u) v st1) ∧
      Contains order st1 v (deleted s (safeOffset s.length off)
        (min u.toNat (s.length - safeOffset s.length off))) ∧
      (st.vars v = 0#_ → st1 = st) ∧ (st.vars v ≠ 0#_ → st1.vars v ≠ 0#_) := by
  have hoff := safeOffset_le s.length off
  have hlen : (deleted s (safeOffset s.length off)
      (min u.toNat (s.length - safeOffset s.length off))).length = s.length :=
    length_deleted (by omega)
  rcases h with ⟨hnull, rfl⟩ | hholds
  · have hnil := List.length_eq_zero_iff.mp hlen
    have hcontains : Contains order st v [] := Or.inl ⟨hnull, rfl⟩
    obtain ⟨p, hfetch, -⟩ := stringFetch_text hcontains
    refine ⟨st, fun alloc => ?_, hnil.symm ▸ hcontains, fun _ => rfl, id⟩
    rw [stringDel, bind_ok hfetch, safeSlashString_eq hcontains.length_le, List.length_nil,
      Nat.zero_sub, bind_ok (delete_none _ _), bind_ok (stringFetchLen_ok hcontains)]
    rfl
  · obtain ⟨st1, hdelete, hholds1, -⟩ := delete_spec (u := u) hholds hoff
    refine ⟨st1, fun alloc => ?_, hholds1.contains, fun hnull => absurd hnull hholds.ne_null,
      fun _ => hholds1.ne_null⟩
    rw [stringDel, bind_ok (stringFetch_ok hholds), safeSlashString_eq hholds.length_le, Ptr.plus,
      bind_ok hdelete, bind_ok (stringFetchLen_ok hholds1.contains), hlen]
    rfl

/-- The string without a range of it -/
def withoutRange (s : List Byte) (off u : BitVec c.bits) : List Byte :=
  s.take off.toNat ++ s.drop (off.toNat + u.toNat)

/-- The range is deleted, unless there is no memory. -/
def Deletes (order : ByteOrder) (st : Store V c) (v : V) (off u : BitVec c.bits) (s' : List Byte) : Prop :=
  ∀ alloc, (∃ st', stringDel order alloc v off u st = .error .outOfMemory st') ∨
    ∃ st', stringDel order alloc v off u st = .ok () st' ∧ contents order v st' = .ok s' st'

omit [DecidableEq V] in
/-- The number of bytes of a variable -/
theorem length_contents {u : BitVec c.bits} (h : contents order v st = .ok s st)
    (hlen : stringFetchLen order v st = .ok u st) : s.length = u.toNat := by
  obtain ⟨p, hfetch⟩ : ∃ p, stringFetch order v st = .ok ⟨p, u⟩ st := by
    rw [stringFetchLen, bind_ok (rfl : fetchVar v st = .ok (st.vars v) st)] at hlen
    rw [stringFetch, bind_ok (rfl : fetchVar v st = .ok (st.vars v) st)]
    by_cases hz : st.vars v = 0#_
    · rw [if_neg (not_not.mpr hz)] at hlen ⊢
      cases hlen
      exact ⟨_, rfl⟩
    · rw [if_pos hz] at hlen ⊢
      rw [bind_ok hlen]
      exact ⟨_, rfl⟩
  rw [contents, bind_ok hfetch, loadBytes, bind_get] at h
  cases hread : st.heap.read p.block p.offset.toNat u.toNat with
  | none =>
      rw [hread] at h
      cases h
  | some t =>
      rw [hread] at h
      cases h
      exact Heap.length_of_read hread

/-- The characters that are left, where the range is within the string, is empty, or is all of the
string -/
theorem take_newLength {off u : BitVec c.bits} (hn : s.length ≤ maxLength c)
    (h : off.toNat + u.toNat ≤ s.length ∨ u = 0#_ ∨
      (min off.toNat s.length = 0 ∧ u.toNat ≤ s.length + 2 ^ (c.bits - 1))) :
    (newLength s.length u).toNat ≤ s.length ∧
      (deleted s (safeOffset s.length off) (min u.toNat (s.length - safeOffset s.length off))).take
        (newLength s.length u).toNat = withoutRange s off u := by
  have hzero : u = 0#_ ↔ u.toNat = 0 := by rw [← BitVec.toNat_inj, BitVec.toNat_zero]
  rw [toNat_newLength hn, withoutRange]
  by_cases hinside : off.toNat + u.toNat ≤ s.length
  · rw [if_pos (by omega), safeOffset_of_le hn (by omega), Nat.min_eq_left (by omega),
      take_deleted hinside]
    exact ⟨Nat.sub_le _ _, rfl⟩
  · by_cases hnone : u.toNat = 0
    · have hoff := safeOffset_le s.length off
      have htake := take_deleted (show safeOffset s.length off + 0 ≤ s.length from hoff)
      rw [Nat.sub_zero, Nat.add_zero, List.take_append_drop] at htake
      rw [hnone, if_pos (Nat.zero_le _), Nat.zero_min, Nat.sub_zero, htake, Nat.add_zero,
        List.take_append_drop]
      exact ⟨le_rfl, rfl⟩
    · -- all of the string is deleted
      rw [hzero] at h
      obtain ⟨hall, hhalf⟩ := (h.resolve_left hinside).resolve_left hnone
      have hlong : ¬u.toNat ≤ s.length := by
        rcases Nat.min_eq_zero_iff.mp hall with hoff | hlen <;> omega
      have htake : s.take off.toNat = [] := by
        rw [← List.length_eq_zero_iff, List.length_take, hall]
      have hdrop : s.drop (off.toNat + u.toNat) = [] := List.drop_eq_nil_of_le (by omega)
      rw [if_neg hlong, if_pos hhalf, List.take_zero, htake, hdrop]
      exact ⟨Nat.zero_le _, rfl⟩

/-- A range that is deleted -/
theorem stringDel_spec {off u : BitVec c.bits} (h : Contains order st v s)
    (hrange : off.toNat + u.toNat ≤ s.length ∨ u = 0#_ ∨
      (min off.toNat s.length = 0 ∧ u.toNat ≤ s.length + 2 ^ (c.bits - 1)))
    (alloc : Allocator (BitVec c.bits) Byte 0#c.bits) :
    (∃ st', stringDel order alloc v off u st = .error .outOfMemory st') ∨
      ∃ st', stringDel order alloc v off u st = .ok () st' ∧
        Contains order st' v (withoutRange s off u) := by
  obtain ⟨st1, hcut, hcontains, -, -⟩ := stringDel_cut h off u
  obtain ⟨hle, htake⟩ := take_newLength h.length_le hrange
  have hspec := shrink_spec alloc hcontains (m := (newLength s.length u).toNat) (by
    rw [length_deleted (by have := safeOffset_le s.length off; omega)]
    exact hle)
  rw [BitVec.ofNat_toNat, BitVec.setWidth_eq, htake, ← hcut alloc] at hspec
  rcases hspec with hfail | ⟨st2, hok, hholds, -⟩
  · exact Or.inl ⟨st1, hfail⟩
  · exact Or.inr ⟨st2, hok, hholds.contains⟩

/-- {lit}`$del` deletes a range if and only if the range is within the string, or is empty, or is all
of the string and not longer than it by more than half of the address space. -/
theorem stringDel_iff (h : Contains order st v s)
    (hplace : st.vars v ≠ 0#_ ∨ ∃ a, a ≠ 0#_ ∧ st.heap a = none) (off u : BitVec c.bits) :
    Deletes order st v off u (withoutRange s off u) ↔
      off.toNat + u.toNat ≤ s.length ∨ u = 0#_ ∨
        (min off.toNat s.length = 0 ∧ u.toNat ≤ s.length + 2 ^ (c.bits - 1)) := by
  obtain ⟨st1, hcut, hcontains, hnull, hnonnull⟩ := stringDel_cut h off u
  constructor
  · intro hdeletes
    obtain ⟨a, ha, hplace1⟩ : ∃ a, a ≠ 0#_ ∧
        (st1.vars v = a ∨ st1.vars v = 0#_ ∧ st1.heap a = none) := by
      by_cases hz : st.vars v = 0#_
      · obtain ⟨a, ha, hfree⟩ := hplace.resolve_left (not_not.mpr hz)
        rw [hnull hz]
        exact ⟨a, ha, Or.inr ⟨hz, hfree⟩⟩
      · exact ⟨_, hnonnull hz, Or.inl rfl⟩
    obtain ⟨hmemory, hcount⟩ := stringStoreLen_counts hcontains ha hplace1 (newLength s.length u)
    rw [← hcut] at hmemory
    rcases hdeletes (onePlace ha) with ⟨st', hfail⟩ | ⟨st', hok, hread⟩
    · exact absurd hfail (hmemory st')
    · have hlen := length_contents hread (hcount st' (hcut (onePlace ha) ▸ hok))
      have hzero : u = 0#_ ↔ u.toNat = 0 := by rw [← BitVec.toNat_inj, BitVec.toNat_zero]
      have hlt := u.isLt
      rw [toNat_newLength h.length_le, withoutRange, List.length_append, List.length_take,
        List.length_drop] at hlen
      rw [hzero]
      by_cases hle : u.toNat ≤ s.length
      · rw [if_pos hle] at hlen
        omega
      · rw [if_neg hle] at hlen
        split at hlen <;> omega
  · intro hrange alloc
    rcases stringDel_spec h hrange alloc with hfail | ⟨st', hok, hcontains'⟩
    · exact Or.inl hfail
    · exact Or.inr ⟨st', hok, contents_ok hcontains'⟩

/-- {lit}`back>` -/
def backFrom (order : ByteOrder) (alloc : Allocator (BitVec c.bits) Byte 0#c.bits) (v : V) :
    Word V c (BitVec c.bits) := do
  let s ← stringFetch order v
  if s.len ≠ 0#_ then
    let x ← loadCell order s.addr
    stringDel order alloc v 0#_ (cell c)
    return x
  else return 0#_

/-- The range that {lit}`back>` deletes is within the stack. -/
theorem backFrom_spec {x : BitVec c.bits} {xs : List (BitVec c.bits)}
    (h : Contains order st v (encode order (x :: xs)))
    (alloc : Allocator (BitVec c.bits) Byte 0#c.bits) :
    (∃ st', backFrom order alloc v st = .error .outOfMemory st') ∨
      ∃ st', backFrom order alloc v st = .ok x st' ∧ Contains order st' v (encode order xs) := by
  have hlen : (encode order (x :: xs)).length = c.bytes + (encode order xs).length := by
    rw [encode_cons, List.length_append, order.length_store]
  have hpos := c.bytes_pos
  have hmax := h.length_le
  have hholds := h.holds (by omega)
  have hcell : (cell c).toNat = c.bytes := c.toNat_bytes
  have hne : BitVec.ofNat c.bits (encode order (x :: xs)).length ≠ 0#_ :=
    (BitVec.ne_of_lt (zero_lt_ofNat (by omega) (by omega))).symm
  have hload := hholds.loadCell (show 0 + c.bytes ≤ (encode order (x :: xs)).length by omega)
  rw [BitVec.add_zero, List.drop_zero, encode_cons, List.take_left' (order.length_store _ _),
    order.load_store rfl] at hload
  have hrest : withoutRange (encode order (x :: xs)) 0#_ (cell c) = encode order xs := by
    rw [withoutRange, hcell, BitVec.toNat_zero, List.take_zero, Nat.zero_add, encode_cons,
      List.drop_left' (order.length_store _ _), List.nil_append]
  have hinside : (0#c.bits).toNat + (cell c).toNat ≤ (encode order (x :: xs)).length := by
    rw [hcell, BitVec.toNat_zero]
    omega
  have hdel := stringDel_spec h (Or.inl hinside) alloc
  rw [hrest] at hdel
  rw [backFrom, bind_ok (stringFetch_ok hholds), if_pos hne, bind_ok hload]
  rcases hdel with ⟨st', hfail⟩ | ⟨st', hok, hcontains⟩
  · exact Or.inl ⟨st', bind_error hfail⟩
  · exact Or.inr ⟨st', bind_ok hok, hcontains⟩

/-! ## Two ranges -/

/-- Six characters -/
def six : List Byte :=
  [0x61#8, 0x62#8, 0x63#8, 0x64#8, 0x65#8, 0x66#8]

/-- A variable with six characters in its buffer -/
def sixStore : Store Unit .four where
  vars _ := 0x1000#_
  heap a :=
    if a = 0x1000#_ then some ([6#8, 0#8, 0#8, 0#8] ++ (six ++ List.replicate 6 0#8)) else none

/-- A range of two characters is deleted. -/
theorem stringDel_iff_six :
    Deletes .little sixStore () 1#_ 2#_ [0x61#8, 0x64#8, 0x65#8, 0x66#8] := by
  have hcontains : Contains .little sixStore () six :=
    Or.inr ⟨by decide, by decide, List.replicate 6 0#8, rfl, by decide⟩
  exact (stringDel_iff hcontains (Or.inl (by decide)) 1#_ 2#_).mpr (Or.inl (by decide))

/-- The last two of six characters are deleted with two others if the count is four. -/
theorem stringDel_short : ∃ st, (do
    stringDel .little twoPlaces () 4#_ 4#_
    contents .little () : Word Unit .four (List Byte)) sixStore = .ok [0x61#8, 0x62#8] st ∧
      withoutRange (c := .four) six 4#_ 4#_ = [0x61#8, 0x62#8, 0x63#8, 0x64#8] :=
  ⟨_, rfl, rfl⟩

end Strings
end Gforth
