import Gforth.Strings.Buffers

/-!
# What the words for strings and stacks do

Every word changes one variable only, or there is no memory for the new buffer and everything stays
as it is.

Main results:

- Theorems {lit}`stringStore_spec`, {lit}`stringPlusStore_spec`, {lit}`stringIns_spec`: strings.
- Theorems {lit}`toStack_spec`, {lit}`stackFrom_spec`, {lit}`toBack_spec`, {lit}`setStack_spec`,
  {lit}`getStack_spec`: stacks.
-/

namespace Gforth
namespace Strings

open Lib
open Numbers
open Hash.Keys (CellSize)

variable {V : Type} {c : CellSize} {order : ByteOrder} {st : Store V c} {v : V} {s t : List Byte}

/-- A word with the result {lit}`a`, after which the variable contains {lit}`s'` -/
def Ends {α : Type} (order : ByteOrder) (st : Store V c) (v : V) (a : α) (s' : List Byte)
    (r : EStateM.Result Fault (Store V c) α) : Prop :=
  r = .error .outOfMemory st ∨ ∃ st', r = .ok a st' ∧ Contains order st' v s' ∧ Only v st st'

/-! ## Moves -/

theorem move_ok {p q : Ptr c} {n : BitVec c.bits} (h : loadBytes p n st = .ok t st) :
    move p q n st = storeBytes t q st := by
  rw [move, bind_ok h]

/-- The whole string is replaced. -/
theorem Holds.storeAll (h : Holds order st v s) (hlen : t.length = s.length) :
    ∃ st', storeBytes t ⟨st.vars v, cell c⟩ st = .ok () st' ∧ Holds order st' v t ∧ Only v st st' := by
  obtain ⟨st', hok, -, hholds, honly⟩ := h.store (t := t) (show 0 + t.length ≤ s.length by omega)
  rw [BitVec.add_zero] at hok
  rw [overwrite_all hlen] at hholds
  exact ⟨st', hok, hholds, honly⟩

/-- The characters behind {lit}`s` are replaced. -/
theorem Holds.storeEnd {y : List Byte} (h : Holds order st v (s ++ y)) (hlen : t.length = y.length) :
    ∃ st', storeBytes t ⟨st.vars v, cell c + BitVec.ofNat _ s.length⟩ st = .ok () st' ∧
      Holds order st' v (s ++ t) ∧ Only v st st' := by
  obtain ⟨st', hok, -, hholds, honly⟩ := h.store (t := t)
    (show s.length + t.length ≤ (s ++ y).length by rw [List.length_append]; omega)
  rw [overwrite_end s hlen] at hholds
  exact ⟨st', hok, hholds, honly⟩

/-! ## Offsets -/

/-- The offset that {lit}`safe/string` takes in a text of {lit}`n` characters -/
def safeOffset (n : Nat) (off : BitVec c.bits) : Nat :=
  if off.slt 0#_ then 0 else min off.toNat n

/-- The offset stays within the text. -/
theorem safeOffset_le (n : Nat) (off : BitVec c.bits) : safeOffset n off ≤ n := by
  rw [safeOffset]
  split
  · exact Nat.zero_le n
  · exact min_le_right _ _

/-- {lit}`safe/string` takes the offset off. -/
theorem safeSlashString_eq {p : Ptr c} {n : Nat} (hn : n ≤ maxLength c) (off : BitVec c.bits) :
    (⟨p, BitVec.ofNat _ n⟩ : Text c).safeSlashString off =
      ⟨p.plus (BitVec.ofNat _ (safeOffset n off)), BitVec.ofNat _ (n - safeOffset n off)⟩ := by
  have hle := safeOffset_le n off
  have hoff : (let off := if off.slt 0#_ then 0#_ else off
      if BitVec.ofNat c.bits n < off then BitVec.ofNat c.bits n else off) =
        BitVec.ofNat c.bits (safeOffset n off) := by
    dsimp only
    rw [umin_ofNat (by omega), safeOffset]
    split
    · rw [BitVec.toNat_zero, Nat.zero_min]
    · rfl
  rw [Text.safeSlashString, Characters.safeSlashString]
  dsimp only at hoff ⊢
  rw [hoff, sub_ofNat hle (by omega)]
  rfl

/-- An offset within the string -/
theorem safeOffset_of_le {n : Nat} (hn : n ≤ maxLength c) {off : BitVec c.bits} (hoff : off.toNat ≤ n) :
    safeOffset n off = off.toNat := by
  rw [safeOffset, if_neg, Nat.min_eq_left hoff]
  obtain ⟨htwice, hlarge, -⟩ := two_pow_bits c
  have hpos := c.bytes_pos
  rw [maxLength] at hn
  rw [slt_zero_iff, toInt_neg_iff]
  omega

/-! ## Strings -/

section Strings

variable [DecidableEq V] (alloc : Allocator (BitVec c.bits) Byte 0#c.bits) {text : Text c}

/-- The text is stored into the resized string. -/
theorem storeResized_spec (h : Contains order st v s) (ht : Elsewhere st v text t)
    (hm : t.length ≤ maxLength c) : Ends order st v () t (storeResized order alloc text v st) := by
  rw [storeResized, ht.len_eq]
  rcases stringStoreLen_spec alloc h hm with hfail | ⟨st1, s1, hok, hholds, hlen, -, honly⟩
  · exact Or.inl (bind_error hfail)
  · obtain ⟨st2, hstore, hholds', honly'⟩ := hholds.storeAll hlen.symm
    refine Or.inr ⟨st2, ?_, hholds'.contains, honly.trans honly'⟩
    rw [bind_ok hok, bind_ok (rfl : fetchVar v st1 = .ok _ st1), ← ht.len_eq,
      move_ok (ht.load honly)]
    exact hstore

/-- {lit}`$!` -/
theorem stringStore_spec (h : Contains order st v s) (ht : Elsewhere st v text t)
    (hm : t.length ≤ maxLength c) : Ends order st v () t (stringStore order alloc text v st) := by
  have hresized := storeResized_spec alloc h ht hm
  rw [stringStore, bind_ok (rfl : fetchVar v st = .ok (st.vars v) st)]
  rcases h with ⟨hnull, rfl⟩ | hholds
  · rwa [if_neg (not_not.mpr hnull)]
  · rw [if_pos hholds.ne_null, bind_ok hholds.loadLen]
    by_cases hsame : padding c text.len = padding c (BitVec.ofNat c.bits s.length)
    · -- the buffer stays
      rw [if_pos hsame, ht.len_eq]
      obtain ⟨rest, hblock, hsize⟩ := hholds.block
      rw [← hsame, ht.len_eq] at hsize
      obtain ⟨st1, hstore, hvar, hholds1, honly⟩ := storeCell_header order hholds.ne_null hm hblock
        (length_header order c _) hsize
      have hnat : (BitVec.ofNat c.bits t.length).toNat = t.length := toNat_ofNat_of_le (by omega)
      have hfits := (padding_fits_iff c (BitVec.ofNat c.bits t.length)).mpr (by rwa [hnat])
      obtain ⟨st2, hstore', hholds2, honly'⟩ := hholds1.storeAll (t := t)
        (by rw [List.length_take]; omega)
      refine Or.inr ⟨st2, ?_, hholds2.contains, honly.trans honly'⟩
      rw [bind_ok hstore, ← ht.len_eq, move_ok (ht.load honly), ← hvar]
      exact hstore'
    · rwa [if_neg hsame]

/-- {lit}`$+!len` appends room. -/
theorem stringPlusStoreLen_spec {k : Nat} (h : Contains order st v s)
    (hm : s.length + k ≤ maxLength c) :
    stringPlusStoreLen order alloc (BitVec.ofNat _ k) v st = .error .outOfMemory st ∨
      ∃ st' t, stringPlusStoreLen order alloc (BitVec.ofNat _ k) v st =
        .ok ⟨st'.vars v, cell c + BitVec.ofNat _ s.length⟩ st' ∧ t.length = k ∧
        Holds order st' v (s ++ t) ∧ Only v st st' := by
  rw [stringPlusStoreLen, bind_ok (stringFetchLen_ok h), ← BitVec.ofNat_add]
  rcases grow_spec alloc h hm with hfail | ⟨st', t, hok, hlen, hholds, honly⟩
  · exact Or.inl (bind_error hfail)
  · exact Or.inr ⟨st', t, bind_ok hok, hlen, hholds, honly⟩

/-- {lit}`$+!` -/
theorem stringPlusStore_spec (h : Contains order st v s) (ht : Elsewhere st v text t)
    (hm : s.length + t.length ≤ maxLength c) :
    Ends order st v () (s ++ t) (stringPlusStore order alloc text v st) := by
  rw [stringPlusStore, ht.len_eq]
  rcases stringPlusStoreLen_spec alloc h hm with hfail | ⟨st1, y, hok, hlen, hholds, honly⟩
  · exact Or.inl (bind_error hfail)
  · obtain ⟨st2, hstore, hholds', honly'⟩ := hholds.storeEnd hlen.symm
    refine Or.inr ⟨st2, ?_, hholds'.contains, honly.trans honly'⟩
    rw [bind_ok hok, ← ht.len_eq, move_ok (ht.load honly)]
    exact hstore

/-- What is behind the old end after a string has grown -/
theorem plus_grown {y : List Byte} (hm : (s ++ y).length ≤ maxLength c) (a : BitVec c.bits) :
    (⟨a, cell c⟩ : Ptr c).plus (BitVec.ofNat _ (s ++ y).length - BitVec.ofNat _ y.length) =
      ⟨a, cell c + BitVec.ofNat _ s.length⟩ := by
  rw [List.length_append] at hm ⊢
  rw [sub_ofNat (by omega) (by omega), Nat.add_sub_cancel, Ptr.plus]

/-- {lit}`c$+!` -/
theorem cStringPlusStore_spec (char : BitVec c.bits) (h : Contains order st v s)
    (hm : s.length + 1 ≤ maxLength c) :
    Ends order st v () (s ++ [char.setWidth 8]) (cStringPlusStore order alloc char v st) := by
  rw [cStringPlusStore, bind_ok (stringFetchLen_ok h), ← BitVec.ofNat_add]
  rcases grow_spec alloc h hm with hfail | ⟨st1, y, hok, hlen, hholds, honly⟩
  · exact Or.inl (bind_error hfail)
  · obtain ⟨st2, hstore, hholds', honly'⟩ := hholds.storeEnd (t := [char.setWidth 8]) hlen.symm
    refine Or.inr ⟨st2, ?_, hholds'.contains, honly.trans honly'⟩
    rw [bind_ok hok, bind_ok (stringFetch_ok hholds), ← hlen, plus_grown hholds.length_le]
    exact hstore

/-- {lit}`$!len` -/
theorem stringStoreLen_shrinks {u : BitVec c.bits} (h : Contains order st v s)
    (hu : u.toNat ≤ s.length) :
    Ends order st v () (s.take u.toNat) (stringStoreLen order alloc u v st) := by
  have hspec := shrink_spec alloc h hu
  rw [BitVec.ofNat_toNat, BitVec.setWidth_eq] at hspec
  rcases hspec with hfail | ⟨st1, hok, hholds, honly⟩
  · exact Or.inl hfail
  · exact Or.inr ⟨st1, hok, hholds.contains, honly⟩

omit [DecidableEq V] in
/-- A text is inserted in a string with room behind it. -/
theorem insert_spec {y : List Byte} {off : BitVec c.bits} (h : Holds order st v (s ++ y))
    (hy : y.length = t.length) (hlen : text.len = BitVec.ofNat _ t.length)
    (hload : ∀ st', Only v st st' → loadBytes text.addr text.len st' = .ok t st')
    (hoff : off.toNat ≤ s.length) :
    ∃ st', insert text ⟨⟨st.vars v, cell c + off⟩, BitVec.ofNat _ ((s ++ y).length - off.toNat)⟩ st =
        .ok () st' ∧
      Holds order st' v (s.take off.toNat ++ t ++ s.drop off.toNat) ∧ Only v st st' := by
  have hmax := h.length_le
  have hlens : (s ++ y).length = s.length + t.length := by rw [List.length_append, hy]
  rw [hlens] at hmax ⊢
  have hshort : ¬BitVec.ofNat c.bits (s.length + t.length - off.toNat) < text.len := by
    rw [BitVec.lt_def, hlen, toNat_ofNat_of_le (by omega), toNat_ofNat_of_le (by omega)]
    omega
  have hoffset : BitVec.ofNat c.bits off.toNat = off := by
    rw [BitVec.ofNat_toNat, BitVec.setWidth_eq]
  have hrest : BitVec.ofNat c.bits (s.length + t.length - off.toNat) - text.len =
      BitVec.ofNat c.bits (s.length - off.toNat) := by
    rw [hlen, sub_ofNat (by omega) (by omega)]
    congr 1
    omega
  have hread := h.load (show off.toNat + (s.length - off.toNat) ≤ (s ++ y).length by omega)
  rw [List.drop_append_of_le_length hoff, List.take_left' (List.length_drop), hoffset] at hread
  obtain ⟨st1, hstore, hvar, hholds, honly⟩ := h.store (t := s.drop off.toNat)
    (show off.toNat + t.length + (s.drop off.toNat).length ≤ (s ++ y).length by
      rw [List.length_drop]
      omega)
  rw [BitVec.ofNat_add, hoffset, ← BitVec.add_assoc, ← hlen] at hstore
  obtain ⟨st2, hstore', -, hholds', honly'⟩ := hholds.store (t := t)
    (show off.toNat + t.length ≤ _ by rw [length_overwrite (by rw [List.length_drop]; omega)]; omega)
  rw [overwrite_insert hy hoff] at hholds'
  rw [hoffset, hvar] at hstore'
  refine ⟨st2, ?_, hholds', honly.trans honly'⟩
  rw [insert]
  dsimp only
  rw [if_neg hshort, hrest, Ptr.plus, bind_ok ((move_ok hread).trans hstore),
    move_ok (hload st1 honly)]
  exact hstore'

/-- {lit}`$ins` -/
theorem stringIns_spec {off : BitVec c.bits} (h : Contains order st v s)
    (ht : Elsewhere st v text t) (hoff : off.toNat ≤ s.length)
    (hm : s.length + t.length ≤ maxLength c) :
    Ends order st v () (s.take off.toNat ++ t ++ s.drop off.toNat)
      (stringIns order alloc text v off st) := by
  rw [stringIns, bind_ok (stringFetchLen_ok h), ht.len_eq, ← BitVec.ofNat_add, Nat.add_comm]
  rcases grow_spec alloc h hm with hfail | ⟨st1, y, hok, hlen, hholds, honly⟩
  · exact Or.inl (bind_error hfail)
  · have hlens : (s ++ y).length = s.length + t.length := by rw [List.length_append, hlen]
    rw [bind_ok hok, bind_ok (stringFetch_ok hholds),
      safeSlashString_eq hholds.length_le,
      safeOffset_of_le hholds.length_le (by rw [hlens]; omega), BitVec.ofNat_toNat, BitVec.setWidth_eq]
    obtain ⟨st2, hinsert, hholds', honly'⟩ := insert_spec hholds hlen ht.len_eq
      (fun st' honly' => ht.load (honly.trans honly')) hoff
    exact Or.inr ⟨st2, hinsert, hholds'.contains, honly.trans honly'⟩

/-- Zeros are appended to a string that is too short. -/
def roomed (s : List Byte) (n : Nat) : List Byte :=
  s ++ List.replicate (n - s.length) 0#8

/-- {lit}`$room` -/
theorem stringRoom_spec {u : BitVec c.bits} (h : Contains order st v s)
    (hm : u.toNat ≤ maxLength c) :
    Ends order st v () (roomed s u.toNat) (stringRoom order alloc u v st) := by
  have hlen := h.length_le
  have hnat : (BitVec.ofNat c.bits s.length).toNat = s.length := toNat_ofNat_of_le (by omega)
  rw [stringRoom, bind_ok (stringFetchLen_ok h)]
  by_cases hle : u ≤ BitVec.ofNat c.bits s.length
  · have hroom : roomed s u.toNat = s := by
      rw [BitVec.le_def, hnat] at hle
      rw [roomed, Nat.sub_eq_zero_of_le hle, List.replicate_zero, List.append_nil]
    rw [if_pos hle, hroom]
    exact Or.inr ⟨st, rfl, h, Only.refl v st⟩
  · rw [BitVec.le_def, hnat] at hle
    have hdiff : u - BitVec.ofNat c.bits s.length = BitVec.ofNat c.bits (u.toNat - s.length) := by
      have hsub := sub_ofNat (c := c) (not_le.mp hle).le (by omega)
      rwa [BitVec.ofNat_toNat, BitVec.setWidth_eq] at hsub
    have hdiffNat : (BitVec.ofNat c.bits (u.toNat - s.length)).toNat = u.toNat - s.length :=
      toNat_ofNat_of_le (by omega)
    rw [if_neg (by rwa [BitVec.le_def, hnat]), hdiff]
    rcases stringPlusStoreLen_spec alloc h
      (show s.length + (u.toNat - s.length) ≤ maxLength c by omega) with
      hfail | ⟨st1, y, hok, hy, hholds, honly⟩
    · exact Or.inl (bind_error hfail)
    · obtain ⟨st2, hstore, hholds', honly'⟩ :=
        hholds.storeEnd (t := List.replicate (u.toNat - s.length) 0#8)
          (by rw [List.length_replicate, hy])
      refine Or.inr ⟨st2, ?_, hholds'.contains, honly.trans honly'⟩
      rw [bind_ok hok, fill, hdiffNat]
      exact hstore

/-- {lit}`$[]`: the address of an element -/
theorem stringArray_spec {u : BitVec c.bits} (h : Contains order st v s)
    (hm : (u.toNat + 1) * c.bytes ≤ maxLength c) :
    stringArray order alloc u v st = .error .outOfMemory st ∨
      ∃ st', stringArray order alloc u v st =
          .ok ⟨st'.vars v, cell c + BitVec.ofNat _ (u.toNat * c.bytes)⟩ st' ∧
        Holds order st' v (roomed s ((u.toNat + 1) * c.bytes)) ∧ Only v st st' := by
  have hpos := c.bytes_pos
  rw [Nat.add_mul, Nat.one_mul] at hm ⊢
  have hoff : u * cell c = BitVec.ofNat _ (u.toNat * c.bytes) := by
    rw [BitVec.ofNat_mul, BitVec.ofNat_toNat, BitVec.setWidth_eq, cell]
  have hsize : (u * cell c + cell c).toNat = u.toNat * c.bytes + c.bytes := by
    rw [hoff, cell, ← BitVec.ofNat_add, toNat_ofNat_of_le (by omega)]
  have hroom := stringRoom_spec alloc h (u := u * cell c + cell c) (by rwa [hsize])
  rw [hsize] at hroom
  rw [stringArray]
  rcases hroom with hfail | ⟨st1, hok, hcontains, honly⟩
  · exact Or.inl (bind_error hfail)
  · have hholds : Holds order st1 v (roomed s (u.toNat * c.bytes + c.bytes)) := by
      rcases hcontains with ⟨-, hnil⟩ | hholds
      · have hzero := congrArg List.length hnil
        rw [roomed, List.length_append, List.length_replicate, List.length_nil] at hzero
        omega
      · exact hholds
    refine Or.inr ⟨st1, ?_, hholds, honly⟩
    rw [bind_ok hok, bind_ok (stringFetch_ok hholds), hoff]
    rfl

omit alloc in
/-- {lit}`$free` -/
theorem stringFree_spec (h : Contains order st v s) (hnull : st.heap 0#_ = none) :
    Ends order st v () [] (stringFree v st) := by
  let st1 : Store V c := { st with vars := Function.update st.vars v 0#_ }
  have hvar : st1.vars v = 0#_ := Function.update_self _ _ _
  have hne_null : ∀ a b, st.heap a = some b → a ≠ 0#_ := by
    rintro a b hb rfl
    rw [hnull] at hb
    cases hb
  rw [stringFree, bind_ok (rfl : fetchVar v st = .ok (st.vars v) st),
    bind_ok (rfl : storeVar 0#_ v st = .ok () st1)]
  rcases h with ⟨hzero, -⟩ | hholds
  · rw [if_neg (not_not.mpr hzero)]
    refine Or.inr ⟨st1, rfl, Or.inl ⟨hvar, rfl⟩, fun u hu => Function.update_of_ne hu _ _, ?_, id⟩
    intro a b _ hb
    exact ⟨hb, fun heq => hne_null a b hb (heq.trans hvar)⟩
  · obtain ⟨rest, hblock, -⟩ := hholds.block
    rw [if_pos hholds.ne_null, free, bind_get, hblock]
    refine Or.inr ⟨_, rfl, Or.inl ⟨hvar, rfl⟩, fun u hu => Function.update_of_ne hu _ _, ?_, ?_⟩
    · intro a b hne hb
      exact ⟨(Function.update_of_ne hne _ _).trans hb, fun heq => hne_null a b hb (heq.trans hvar)⟩
    · intro _
      exact (Function.update_of_ne hholds.ne_null.symm _ _).trans hnull

omit alloc [DecidableEq V] in
theorem move_none (p q : Ptr c) : move p q 0#_ st = .ok () st := by
  have hload : loadBytes p 0#_ st = .ok [] st := loadBytes_ok (Heap.read_zero _ _)
  rw [move_ok hload]
  rfl

omit [DecidableEq V] in
/-- A buffer with the empty string -/
theorem stringMake_spec (order : ByteOrder) (st : Store V c) :
    stringMake order alloc ⟨⟨0#_, 0#_⟩, 0#_⟩ st = .error .outOfMemory st ∨
      ∃ a h' rest, stringMake order alloc ⟨⟨0#_, 0#_⟩, 0#_⟩ st = .ok a { st with heap := h' } ∧
        a ≠ 0#_ ∧ h' a = some (header order c 0 ++ rest) ∧
        c.bytes + rest.length = (padding c 0#_).toNat ∧
        (∀ a' b', a' ≠ 0#_ → st.heap a' = some b' → h' a' = some b' ∧ a' ≠ a) ∧
        (st.heap 0#_ = none → h' 0#_ = none) := by
  obtain ⟨k, hk, hle, -⟩ := padding_spec c (n := 0#_) (by simp)
  have hpos := c.bytes_pos
  rw [BitVec.toNat_zero] at hle
  have hne : padding c 0#_ ≠ 0#_ := by
    intro hzero
    rw [hzero, BitVec.toNat_zero] at hk
    omega
  have hallocate : allocate alloc (padding c 0#_) st = resize alloc 0#_ (padding c 0#_) st := by
    rw [allocate, resize, bind_get, bind_get, if_pos rfl, if_neg hne]
  rcases resize_spec alloc hne (Or.inl ⟨rfl, rfl⟩) with
    hfail | ⟨a, h', b, hok, ha, hnew, hlen, hother, hzero⟩
  · exact Or.inl (bind_error (hallocate.trans hfail))
  · rw [List.take_nil, List.nil_append] at hnew hlen
    let st1 : Store V c := { st with heap := h' }
    have hnew1 : st1.heap (⟨a, 0#_⟩ : Ptr c).block = some b := hnew
    have hstore := storeBytes_ok (t := header order c 0) hnew1 (by
      rw [BitVec.toNat_zero, length_header]
      omega)
    have hhead : overwrite b 0 (header order c 0) = header order c 0 ++ b.drop c.bytes := by
      have hover := overwrite_front (b.drop c.bytes) (y := b.take c.bytes) (t := header order c 0)
        (by rw [length_header, List.length_take]; omega)
      rwa [List.take_append_drop] at hover
    rw [BitVec.toNat_zero, hhead] at hstore
    refine Or.inr ⟨a, (st1.setBlock a (header order c 0 ++ b.drop c.bytes)).heap, b.drop c.bytes, ?_, ha,
      setBlock_heap_self _ _, ?_, ?_, ?_⟩
    · rw [stringMake, bind_ok (hallocate.trans hok)]
      exact (bind_ok hstore).trans (bind_ok (move_none _ _))
    · rw [List.length_drop]
      omega
    · intro a' b' hne' hb'
      obtain ⟨hb'', hother'⟩ := hother a' b' hne' hb'
      exact ⟨(setBlock_heap_of_ne _ hother').trans hb'', hother'⟩
    · intro hnull
      exact (setBlock_heap_of_ne _ ha.symm).trans (hzero hnull)

/-- {lit}`$init` -/
theorem stringInit_spec (hnull : st.heap 0#_ = none) :
    Ends order st v () [] (stringInit order alloc v st) := by
  rw [stringInit]
  rcases stringMake_spec alloc order st with
    hfail | ⟨a, h', rest, hok, ha, hblock, hsize, hother, hzero⟩
  · exact Or.inl (bind_error hfail)
  · let st' : Store V c := ⟨Function.update st.vars v a, h'⟩
    have hvar : st'.vars v = a := Function.update_self _ _ _
    refine Or.inr ⟨st', bind_ok hok, Or.inr ⟨hvar ▸ ha, Nat.zero_le _, rest, ?_, hsize⟩,
      fun u hu => Function.update_of_ne hu _ _, ?_, hzero⟩
    · rw [hvar]
      exact hblock
    · intro a' b' _ hb'
      have hne' : a' ≠ 0#_ := by
        rintro rfl
        rw [hnull] at hb'
        cases hb'
      obtain ⟨hb'', hother'⟩ := hother a' b' hne' hb'
      exact ⟨hb'', fun heq => hother' (heq.trans hvar)⟩

end Strings

/-! ## Stacks -/

section Stacks

/-- The bytes of some cells -/
def encode (order : ByteOrder) (xs : List (BitVec c.bits)) : List Byte :=
  xs.flatMap (order.store c.bytes)

/-- Every item of the list takes a cell. -/
theorem length_encode (xs : List (BitVec c.bits)) :
    (encode order xs).length = xs.length * c.bytes := by
  induction xs with
  | nil => simp [encode]
  | cons x xs ih =>
      rw [encode, List.flatMap_cons, List.length_append, ByteOrder.length_store, List.length_cons,
        Nat.succ_mul, Nat.add_comm]
      exact congrArg (· + c.bytes) ih

theorem encode_cons (x : BitVec c.bits) (xs : List (BitVec c.bits)) :
    encode order (x :: xs) = order.store c.bytes x ++ encode order xs :=
  rfl

theorem encode_append (xs ys : List (BitVec c.bits)) :
    encode order (xs ++ ys) = encode order xs ++ encode order ys :=
  List.flatMap_append

theorem encode_singleton (x : BitVec c.bits) : encode order [x] = order.store c.bytes x := by
  rw [encode_cons, encode, List.flatMap_nil, List.append_nil]

/-- A cell of the string -/
theorem Holds.loadCell (h : Holds order st v s) {off : Nat} (hle : off + c.bytes ≤ s.length) :
    loadCell order ⟨st.vars v, cell c + BitVec.ofNat _ off⟩ st =
      .ok (order.load c.bits ((s.drop off).take c.bytes)) st := by
  have hload : loadBytes ⟨st.vars v, cell c + BitVec.ofNat _ off⟩ (cell c) st = _ := h.load hle
  rw [Strings.loadCell, bind_ok hload]
  rfl

/-- A cell is replaced. -/
theorem Holds.storeCell {p q r : List Byte} (h : Holds order st v (p ++ q ++ r))
    (hq : q.length = c.bytes) (x : BitVec c.bits) :
    ∃ st', storeCell order x ⟨st.vars v, cell c + BitVec.ofNat _ p.length⟩ st = .ok () st' ∧
      st'.vars v = st.vars v ∧ Holds order st' v (p ++ order.store c.bytes x ++ r) ∧
      Only v st st' := by
  obtain ⟨st', hok, hvar, hholds, honly⟩ := h.store (t := order.store c.bytes x)
    (show p.length + (order.store c.bytes x).length ≤ (p ++ q ++ r).length by
      rw [ByteOrder.length_store, List.length_append, List.length_append]
      omega)
  rw [overwrite_append p r (by rw [ByteOrder.length_store, hq])] at hholds
  exact ⟨st', hok, hvar, hholds, honly⟩

variable [DecidableEq V] (alloc : Allocator (BitVec c.bits) Byte 0#c.bits)

/-- {lit}`>stack` -/
theorem toStack_spec (x : BitVec c.bits) (h : Contains order st v s)
    (hm : s.length + c.bytes ≤ maxLength c) :
    Ends order st v () (s ++ order.store c.bytes x) (toStack order alloc x v st) := by
  rw [toStack, bind_ok (stringFetchLen_ok h), add_cell]
  rcases grow_spec alloc h hm with hfail | ⟨st1, y, hok, hlen, hholds, honly⟩
  · exact Or.inl (bind_error hfail)
  · obtain ⟨st2, hstore, hholds', honly'⟩ := hholds.storeEnd (t := order.store c.bytes x)
      (by rw [ByteOrder.length_store, hlen])
    refine Or.inr ⟨st2, ?_, hholds'.contains, honly.trans honly'⟩
    have hplus := plus_grown hholds.length_le (st1.vars v)
    rw [hlen] at hplus
    rw [bind_ok hok, bind_ok (stringFetch_ok hholds)]
    exact (congrArg (storeCell order x · st1) hplus).trans hstore

/-- {lit}`stack>` -/
theorem stackFrom_spec (h : Contains order st v s) (hlen : c.bytes ≤ s.length) :
    Ends order st v [order.load c.bits (s.drop (s.length - c.bytes))] (s.take (s.length - c.bytes))
      (stackFrom order alloc v st) := by
  have hpos := c.bytes_pos
  have hmax := h.length_le
  have hholds := h.holds (by omega)
  have hne : BitVec.ofNat c.bits s.length ≠ 0#_ := by
    intro hzero
    have hnat := toNat_ofNat_of_le (c := c) (show s.length ≤ c.bytes + maxLength c by omega)
    rw [hzero, BitVec.toNat_zero] at hnat
    omega
  have hload := hholds.loadCell (show s.length - c.bytes + c.bytes ≤ s.length by omega)
  rw [List.take_of_length_le (by rw [List.length_drop]; omega)] at hload
  rw [stackFrom, bind_ok (stringFetch_ok hholds)]
  dsimp only
  rw [if_pos hne, sub_cell hlen, Ptr.plus, bind_ok hload, bind_ok (stringFetchLen_ok h),
    sub_cell hlen]
  rcases shrink_spec alloc h (Nat.sub_le s.length c.bytes) with hfail | ⟨st1, hok, hholds', honly⟩
  · exact Or.inl (bind_error hfail)
  · exact Or.inr ⟨st1, bind_ok hok, hholds'.contains, honly⟩

/-- {lit}`>back` -/
theorem toBack_spec (x : BitVec c.bits) (h : Contains order st v s)
    (hm : s.length + c.bytes ≤ maxLength c) :
    Ends order st v () (order.store c.bytes x ++ s) (toBack order alloc x v st) := by
  rw [toBack, bind_ok (stringFetchLen_ok h), add_cell]
  rcases grow_spec alloc h hm with hfail | ⟨st1, y, hok, hlen, hholds, honly⟩
  · exact Or.inl (bind_error hfail)
  · have hlens : (s ++ y).length = s.length + c.bytes := by rw [List.length_append, hlen]
    have hread := hholds.load (show 0 + s.length ≤ (s ++ y).length by omega)
    rw [List.drop_zero, List.take_left, BitVec.add_zero] at hread
    obtain ⟨st2, hstore, hvar, hholds2, honly2⟩ := hholds.store (t := s)
      (show c.bytes + s.length ≤ (s ++ y).length by omega)
    have hmoved : overwrite (s ++ y) c.bytes s = (s ++ y).take c.bytes ++ s := by
      have hend := overwrite_end ((s ++ y).take c.bytes) (y := (s ++ y).drop c.bytes) (t := s)
        (by rw [List.length_drop]; omega)
      rwa [List.take_append_drop, List.length_take, Nat.min_eq_left (by omega)] at hend
    rw [hmoved] at hholds2
    obtain ⟨st3, hstore', -, hholds3, honly3⟩ := hholds2.store (t := order.store c.bytes x)
      (show 0 + (order.store c.bytes x).length ≤ _ by
        rw [ByteOrder.length_store, List.length_append, List.length_take]
        omega)
    rw [overwrite_front s (by rw [ByteOrder.length_store, List.length_take]; omega)] at hholds3
    rw [BitVec.add_zero] at hstore'
    have hmove : move ⟨st1.vars v, cell c⟩ ((⟨st1.vars v, cell c⟩ : Ptr c).plus (cell c))
        (BitVec.ofNat _ s.length) st1 = .ok () st2 := (move_ok hread).trans hstore
    refine Or.inr ⟨st3, ?_, hholds3.contains, honly.trans (honly2.trans honly3)⟩
    rw [bind_ok hok, bind_ok (stringFetch_ok hholds)]
    dsimp only
    rw [hlens, ← add_cell, BitVec.add_sub_cancel, bind_ok hmove, bind_ok (stringFetch_ok hholds2)]
    exact hstore'

omit [DecidableEq V] in
/-- The loop goes down from the end of {lit}`pre`. -/
theorem setLoop_spec {xs : List (BitVec c.bits)} {pre post : List Byte} (hne : xs ≠ [])
    (h : Holds order st v (pre ++ post)) (hpre : pre.length = xs.length * c.bytes) :
    ∃ st', setLoop order (st.vars v) 0#_ xs (BitVec.ofNat _ pre.length) st = .ok () st' ∧
      Holds order st' v (encode order xs.reverse ++ post) ∧ Only v st st' := by
  induction xs generalizing st pre post with
  | nil => exact absurd rfl hne
  | cons x xs ih =>
      rw [List.length_cons, Nat.succ_mul] at hpre
      obtain ⟨p, q, rfl, hp, hq⟩ : ∃ p q, pre = p ++ q ∧ p.length = xs.length * c.bytes ∧
          q.length = c.bytes := by
        refine ⟨_, _, (List.take_append_drop (xs.length * c.bytes) pre).symm, ?_, ?_⟩
        · rw [List.length_take]
          omega
        · rw [List.length_drop]
          omega
      obtain ⟨st1, hstore, hvar, hholds, honly⟩ := h.storeCell hq x
      rw [BitVec.add_comm, add_cell, hp, ← hpre] at hstore
      rw [List.append_assoc] at hholds
      have hindex : BitVec.ofNat c.bits (p ++ q).length - cell c = BitVec.ofNat c.bits p.length := by
        rw [hpre, ← add_cell, BitVec.add_sub_cancel, hp]
      have hencode : encode order (x :: xs).reverse ++ post =
          encode order xs.reverse ++ (order.store c.bytes x ++ post) := by
        rw [List.reverse_cons, encode_append, encode_singleton, List.append_assoc]
      rw [setLoop, bind_ok hstore, hindex, hencode]
      cases xs with
      | nil =>
          rw [List.length_nil, Nat.zero_mul, List.length_eq_zero_iff] at hp
          rw [hp, List.length_nil, if_neg (BitVec.lt_irrefl _)]
          rw [hp, List.nil_append] at hholds
          exact ⟨st1, rfl, hholds, honly⟩
      | cons y ys =>
          have hmax := hholds.length_le
          have hpos : 0 < p.length := by
            rw [hp]
            exact Nat.mul_pos (Nat.succ_pos _) c.bytes_pos
          obtain ⟨st2, hloop, hholds2, honly2⟩ := ih (List.cons_ne_nil y ys) hholds hp
          rw [hvar] at hloop
          rw [if_pos]
          · exact ⟨st2, hloop, hholds2, honly.trans honly2⟩
          · rw [List.length_append] at hmax
            exact zero_lt_ofNat hpos (by omega)

/-- {lit}`set-stack` -/
theorem setStack_spec (xs : List (BitVec c.bits)) (h : Contains order st v s)
    (hm : xs.length * c.bytes ≤ maxLength c) :
    Ends order st v () (encode order xs) (setStack order alloc xs v st) := by
  have hcells : BitVec.ofNat c.bits xs.length * cell c = BitVec.ofNat c.bits (xs.length * c.bytes) :=
    (BitVec.ofNat_mul _ _).symm
  rw [setStack, hcells]
  rcases stringStoreLen_spec alloc h hm with hfail | ⟨st1, s1, hok, hholds, hlen, -, honly⟩
  · exact Or.inl (bind_error hfail)
  · rw [bind_ok hok, bind_ok (stringFetch_ok hholds)]
    dsimp only
    rw [BitVec.sub_self, BitVec.add_comm (cell c), BitVec.add_sub_cancel]
    have hmax := hholds.length_le
    by_cases hnil : xs = []
    · rw [hnil, List.length_nil, Nat.zero_mul, List.length_eq_zero_iff] at hlen
      rw [hlen] at hholds ⊢
      rw [List.length_nil, if_neg (BitVec.lt_irrefl _), hnil]
      exact Or.inr ⟨st1, rfl, hholds.contains, honly⟩
    · have hpos : 0 < s1.length := by
        rw [hlen]
        exact Nat.mul_pos (List.length_pos_iff.mpr hnil) c.bytes_pos
      have hreverse : xs.reverse ≠ [] := by rwa [Ne, List.reverse_eq_nil_iff]
      have hall : Holds order st1 v (s1 ++ []) := by rwa [List.append_nil]
      obtain ⟨st2, hloop, hholds2, honly2⟩ :=
        setLoop_spec hreverse hall (by rw [hlen, List.length_reverse])
      rw [List.reverse_reverse, List.append_nil] at hholds2
      rw [if_pos (zero_lt_ofNat hpos (by omega))]
      exact Or.inr ⟨st2, hloop, hholds2.contains, honly.trans honly2⟩

/-- The first of the cells that are at the beginning of {lit}`l` -/
theorem encode_eq_take {l : List Byte} {n : Nat} {ys : List (BitVec c.bits)} (hpos : 0 < n)
    (hn : n ≤ l.length) (h : l.take n = encode order ys) :
    ∃ y zs, ys = y :: zs ∧ order.load c.bits (l.take c.bytes) = y ∧
      (l.drop c.bytes).take (n - c.bytes) = encode order zs ∧ n = c.bytes + zs.length * c.bytes := by
  have hlen : n = ys.length * c.bytes := by
    rw [← length_encode, ← h, List.length_take, Nat.min_eq_left hn]
  cases ys with
  | nil =>
      rw [List.length_nil, Nat.zero_mul] at hlen
      omega
  | cons y zs =>
      rw [List.length_cons, Nat.succ_mul, Nat.add_comm] at hlen
      have hle : c.bytes ≤ n := by omega
      refine ⟨y, zs, rfl, ?_, ?_, hlen⟩
      · have hhead := congrArg (List.take c.bytes) h
        rw [List.take_take, Nat.min_eq_left hle, encode_cons,
          List.take_left' (order.length_store _ _)] at hhead
        rw [hhead, order.load_store rfl]
      · have htail := congrArg (List.drop c.bytes) h
        rwa [List.drop_take, encode_cons, List.drop_left' (order.length_store _ _)] at htail

omit [DecidableEq V] in
/-- The loop reads the cells that begin before the limit. -/
theorem getLoop_spec (order : ByteOrder) {a : BitVec c.bits} {b : List Byte} (hb : st.heap a = some b)
    (hsize : b.length < 2 ^ c.bits) (hcells : c.bytes ∣ b.length) {limit : Nat}
    (hlimit : limit ≤ b.length) {n i : Nat} (hi : i < limit) (hdvd : c.bytes ∣ i)
    (hn : limit ≤ i + n) :
    ∃ xs, getLoop order a (BitVec.ofNat _ limit) n (BitVec.ofNat _ i) st = .ok xs st ∧
      ∀ ys, (b.drop i).take (limit - i) = encode order ys → xs = ys := by
  induction n generalizing i with
  | zero => omega
  | succ n ih =>
      have hpos := c.bytes_pos
      have hnext : i + c.bytes ≤ b.length := by
        obtain ⟨j, rfl⟩ := hdvd
        obtain ⟨k, hk⟩ := hcells
        rw [hk, ← Nat.mul_succ]
        exact Nat.mul_le_mul_left _ (Nat.lt_of_mul_lt_mul_left (hk ▸ lt_of_lt_of_le hi hlimit))
      have hnat : ∀ m, m ≤ b.length → (BitVec.ofNat c.bits m).toNat = m := by
        intro m hm
        rw [BitVec.toNat_ofNat, Nat.mod_eq_of_lt (by omega)]
      have hload : loadCell order ⟨a, BitVec.ofNat _ i⟩ st =
          .ok (order.load c.bits ((b.drop i).take c.bytes)) st := by
        have hbytes : loadBytes ⟨a, BitVec.ofNat _ i⟩ (cell c) st =
            .ok ((b.drop i).take c.bytes) st := by
          refine loadBytes_ok ?_
          rw [cell, c.toNat_bytes, hnat i (by omega), Heap.read_of_block hb hnext]
        rw [loadCell, bind_ok hbytes]
        rfl
      have hlength : limit - i ≤ (b.drop i).length := by
        rw [List.length_drop]
        omega
      generalize hx : order.load c.bits ((b.drop i).take c.bytes) = x at hload
      rw [getLoop, bind_ok hload, add_cell]
      by_cases hlast : limit ≤ i + c.bytes
      · have hstop : ¬BitVec.ofNat c.bits (i + c.bytes) < BitVec.ofNat c.bits limit := by
          rw [BitVec.lt_def, hnat _ hnext, hnat _ hlimit]
          omega
        rw [if_neg hstop]
        refine ⟨[x], rfl, fun ys hys => ?_⟩
        obtain ⟨y, zs, rfl, hy, -, hlen⟩ := encode_eq_take (by omega) hlength hys
        have hnil : zs.length * c.bytes = 0 := by omega
        rw [List.length_eq_zero_iff.mp ((Nat.mul_eq_zero.mp hnil).resolve_right hpos.ne'), ← hx, hy]
      · have hgo : BitVec.ofNat c.bits (i + c.bytes) < BitVec.ofNat c.bits limit := by
          rw [BitVec.lt_def, hnat _ hnext, hnat _ hlimit]
          omega
        rw [if_pos hgo]
        obtain ⟨xs, hok, hxs⟩ := ih (not_le.mp hlast) (dvd_add hdvd (dvd_refl _)) (by omega)
        refine ⟨x :: xs, ?_, fun ys hys => ?_⟩
        · rw [bind_ok hok]
          rfl
        · obtain ⟨y, zs, rfl, hy, hrest, -⟩ := encode_eq_take (by omega) hlength hys
          rw [List.drop_drop, Nat.sub_sub] at hrest
          rw [← hx, hy, hxs zs hrest]

/-- {lit}`cell/` is the number of items. -/
theorem cellSlash_ofNat {n : Nat} (hn : n * c.bytes ≤ maxLength c) :
    cellSlash (BitVec.ofNat c.bits (n * c.bytes)) = BitVec.ofNat c.bits n := by
  obtain ⟨k, hk, hbytes⟩ : ∃ k, (if c.bytes = 8 then 3 else 2) = k ∧ c.bytes = 2 ^ k := by
    cases c with
    | four => exact ⟨2, rfl, rfl⟩
    | eight => exact ⟨3, rfl, rfl⟩
  have hpos := c.bytes_pos
  have hle : n ≤ n * c.bytes := Nat.le_mul_of_pos_right n hpos
  have hnat := toNat_ofNat_of_le (c := c) (show n * c.bytes ≤ c.bytes + maxLength c by omega)
  have hmsb : (BitVec.ofNat c.bits (n * c.bytes)).msb = false := by
    rw [BitVec.msb_eq_false_iff_two_mul_lt, hnat]
    obtain ⟨htwice, hlarge, -⟩ := two_pow_bits c
    rw [maxLength] at hn
    omega
  refine BitVec.eq_of_toNat_eq ?_
  rw [cellSlash, hk, BitVec.sshiftRight_eq_of_msb_false hmsb, BitVec.toNat_ushiftRight, hnat,
    toNat_ofNat_of_le (by omega), Nat.shiftRight_eq_div_pow, ← hbytes, Nat.mul_div_cancel _ hpos]

omit [DecidableEq V] in
/-- {lit}`get-stack` -/
theorem getStack_spec (h : Contains order st v s) :
    ∃ xs, getStack order v st = .ok xs st ∧
      ∀ ys : List (BitVec c.bits), s = encode order ys → xs = ys ++ [BitVec.ofNat _ ys.length] := by
  have hmax := h.length_le
  have hcount : ∀ ys : List (BitVec c.bits), s = encode order ys →
      cellSlash (BitVec.ofNat c.bits s.length) = BitVec.ofNat _ ys.length := by
    rintro ys rfl
    rw [length_encode] at hmax ⊢
    exact cellSlash_ofNat hmax
  obtain ⟨p, hfetch, hp⟩ := stringFetch_text h
  rw [getStack, bind_ok hfetch]
  by_cases hnil : s = []
  · have hzero : BitVec.ofNat c.bits s.length = 0#_ := by rw [hnil, List.length_nil]
    rw [if_pos hzero]
    refine ⟨_, rfl, fun ys hys => ?_⟩
    have hlen := congrArg List.length hys
    rw [hnil, length_encode, List.length_nil, eq_comm, Nat.mul_eq_zero] at hlen
    rw [hcount ys hys, List.length_eq_zero_iff.mp (hlen.resolve_right c.bytes_pos.ne')]
    rfl
  · have hpos : 0 < s.length := List.length_pos_iff.mpr hnil
    have hholds := h.holds hpos
    have hlt := zero_lt_ofNat (c := c) hpos (by omega)
    have hne : BitVec.ofNat c.bits s.length ≠ 0#_ := (BitVec.ne_of_lt hlt).symm
    have hnat := toNat_ofNat_of_le (c := c) (show s.length ≤ c.bytes + maxLength c by omega)
    obtain ⟨rest, hblock, hsize⟩ := hholds.block
    generalize hb : header order c s.length ++ (s ++ rest) = b at hblock
    have hblen : b.length = (padding c (BitVec.ofNat c.bits s.length)).toNat := by
      rw [← hb, List.length_append, length_header, hsize]
    have hlimit : c.bytes + s.length ≤ b.length := by
      rw [← hb, List.length_append, length_header, List.length_append]
      omega
    obtain ⟨xs, hok, hxs⟩ := getLoop_spec order hblock (hblen ▸ BitVec.isLt _)
      (hblen ▸ bytes_dvd_padding c (by rwa [hnat])) hlimit (i := c.bytes)
      (n := (BitVec.ofNat c.bits s.length).toNat) (by omega) (dvd_refl _) (by rw [hnat])
    rw [BitVec.ofNat_add] at hok
    refine ⟨xs ++ [cellSlash (BitVec.ofNat c.bits s.length)], ?_, fun ys hys => ?_⟩
    · rw [if_neg hne, hp hholds]
      exact bind_ok hok
    · have htake : (b.drop c.bytes).take (c.bytes + s.length - c.bytes) = s := by
        rw [← hb, List.drop_left' (length_header order c _), Nat.add_sub_cancel_left, List.take_left]
      rw [hxs ys (htake.trans hys), hcount ys hys]

end Stacks

end Strings
end Gforth
