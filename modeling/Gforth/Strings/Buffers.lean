import Gforth.Strings.Words

/-!
# Buffers of strings

What the accesses and {lit}`$!len` do to a variable that holds a string.

Main results:

- Theorems {lit}`Holds.load`, {lit}`Holds.store`: accesses to the characters.
- Theorem {lit}`stringStoreLen_spec`: a buffer of another length, which has the size for this length
  again.
-/

namespace Gforth
namespace Strings

open Lib
open Numbers
open Hash.Keys (CellSize)

/-! ## Sequences -/

section Sequences

variable {ε σ α β : Type} {x : EStateM ε σ α} {f : α → EStateM ε σ β} {a : α} {e : ε} {st st' : σ}

theorem bind_ok (h : x st = .ok a st') : (x >>= f) st = f a st' := by
  change EStateM.bind x f st = _
  rw [EStateM.bind, h]

theorem bind_error (h : x st = .error e st') : (x >>= f) st = .error e st' := by
  change EStateM.bind x f st = _
  rw [EStateM.bind, h]

theorem bind_get {f : σ → EStateM ε σ β} : ((get : EStateM ε σ σ) >>= f) st = f st st :=
  rfl

end Sequences

variable {V : Type} {c : CellSize} {order : ByteOrder}
variable {st st' st'' : Store V c} {v : V}

/-! ## Accesses -/

theorem loadBytes_ok {p : Ptr c} {n : BitVec c.bits} {t : List Byte}
    (h : st.heap.read p.block p.offset.toNat n.toNat = some t) : loadBytes p n st = .ok t st := by
  rw [loadBytes, bind_get, h]
  rfl

/-- The block at an address is another one. -/
def Store.setBlock (st : Store V c) (a : BitVec c.bits) (b : List Byte) : Store V c :=
  { st with heap := Function.update st.heap a (some b) }

@[simp]
theorem setBlock_heap_self (a : BitVec c.bits) (b : List Byte) : (st.setBlock a b).heap a = some b :=
  Function.update_self _ _ _

theorem setBlock_heap_of_ne {a a' : BitVec c.bits} (b : List Byte) (hne : a' ≠ a) :
    (st.setBlock a b).heap a' = st.heap a' :=
  Function.update_of_ne hne _ _

/-- Bytes are stored into a block that has room for them. -/
theorem storeBytes_ok {p : Ptr c} {b t : List Byte} (hb : st.heap p.block = some b)
    (hle : p.offset.toNat + t.length ≤ b.length) :
    storeBytes t p st = .ok () (st.setBlock p.block (overwrite b p.offset.toNat t)) := by
  rw [storeBytes, bind_get, Heap.write_of_block hb hle]
  rfl

variable {n : Nat} {s : List Byte}

/-- The lengths and offsets are small. -/
theorem toNat_ofNat_of_le (hn : n ≤ c.bytes + maxLength c) : (BitVec.ofNat c.bits n).toNat = n := by
  obtain ⟨htwice, hlarge, -⟩ := two_pow_bits c
  have hbytes := c.bytes_le
  rw [maxLength] at hn
  rw [BitVec.toNat_ofNat, Nat.mod_eq_of_lt (by omega)]

/-- {lit}`umin` with a length. -/
theorem umin_ofNat (hn : n ≤ c.bytes + maxLength c) (u : BitVec c.bits) :
    (if BitVec.ofNat c.bits n < u then BitVec.ofNat c.bits n else u) =
      BitVec.ofNat c.bits (min u.toNat n) := by
  by_cases hlt : BitVec.ofNat c.bits n < u
  · rw [if_pos hlt, Nat.min_eq_right]
    rw [BitVec.lt_def, toNat_ofNat_of_le hn] at hlt
    exact hlt.le
  · rw [if_neg hlt, Nat.min_eq_left, BitVec.ofNat_toNat, BitVec.setWidth_eq]
    rw [BitVec.lt_def, toNat_ofNat_of_le hn] at hlt
    exact not_lt.mp hlt

/-- The difference of two lengths. -/
theorem sub_ofNat {m n : Nat} (hle : n ≤ m) (hn : n ≤ c.bytes + maxLength c) :
    BitVec.ofNat c.bits m - BitVec.ofNat c.bits n = BitVec.ofNat c.bits (m - n) := by
  have hlt := (BitVec.ofNat c.bits n).isLt
  rw [toNat_ofNat_of_le hn] at hlt
  exact BitVec.ofNat_sub_ofNat_of_le m n hlt hle

theorem zero_lt_ofNat (hpos : 0 < n) (hn : n ≤ c.bytes + maxLength c) :
    0#c.bits < BitVec.ofNat c.bits n := by
  rwa [BitVec.lt_def, BitVec.toNat_zero, toNat_ofNat_of_le hn]

theorem add_cell (n : Nat) : BitVec.ofNat c.bits n + cell c = BitVec.ofNat c.bits (n + c.bytes) :=
  (BitVec.ofNat_add n c.bytes).symm

theorem sub_cell (h : c.bytes ≤ n) :
    BitVec.ofNat c.bits n - cell c = BitVec.ofNat c.bits (n - c.bytes) :=
  sub_ofNat h (Nat.le_add_right _ _)

/-! ## Strings in buffers -/

/-- The length of a string as a cell -/
def header (order : ByteOrder) (c : CellSize) (n : Nat) : List Byte :=
  order.store c.bytes (BitVec.ofNat c.bits n)

theorem length_header (order : ByteOrder) (c : CellSize) (n : Nat) :
    (header order c n).length = c.bytes :=
  order.length_store _ _

/-- A variable has a buffer of the right size for the string that is in it. -/
structure Holds (order : ByteOrder) (st : Store V c) (v : V) (s : List Byte) : Prop where
  ne_null : st.vars v ≠ 0#_
  length_le : s.length ≤ maxLength c
  block : ∃ rest, st.heap (st.vars v) = some (header order c s.length ++ (s ++ rest)) ∧
    c.bytes + (s ++ rest).length = (padding c (BitVec.ofNat c.bits s.length)).toNat

/-- A variable holds a string, or is null instead of the empty string. -/
def Contains (order : ByteOrder) (st : Store V c) (v : V) (s : List Byte) : Prop :=
  (st.vars v = 0#_ ∧ s = []) ∨ Holds order st v s

/-- Only one variable, and what is in its buffers, changes. -/
structure Only (v : V) (st st' : Store V c) : Prop where
  vars : ∀ u, u ≠ v → st'.vars u = st.vars u
  heap : ∀ a b, a ≠ st.vars v → st.heap a = some b → st'.heap a = some b ∧ a ≠ st'.vars v
  null : st.heap 0#_ = none → st'.heap 0#_ = none

theorem Only.refl (v : V) (st : Store V c) : Only v st st :=
  ⟨fun _ _ => rfl, fun _ _ hne hb => ⟨hb, hne⟩, id⟩

/-- Changes of one variable go on. -/
theorem Only.trans (h : Only v st st') (h' : Only v st' st'') : Only v st st'' where
  vars u hne := (h'.vars u hne).trans (h.vars u hne)
  heap a b hne hb :=
    let ⟨hb', hne'⟩ := h.heap a b hne hb
    h'.heap a b hne' hb'
  null hnull := h'.null (h.null hnull)

/-- A text that is not in the buffer of the variable -/
def Elsewhere (st : Store V c) (v : V) (t : Text c) (s : List Byte) : Prop :=
  (t.len = 0#_ ∨ t.addr.block ≠ st.vars v) ∧
    st.heap.read t.addr.block t.addr.offset.toNat t.len.toNat = some s

theorem Elsewhere.len_eq {t : Text c} (h : Elsewhere st v t s) :
    t.len = BitVec.ofNat _ s.length := by
  rw [Heap.length_of_read h.2, BitVec.ofNat_toNat, BitVec.setWidth_eq]

/-- The text stays while the variable changes. -/
theorem Elsewhere.load {t : Text c} (h : Elsewhere st v t s) (honly : Only v st st') :
    loadBytes t.addr t.len st' = .ok s st' := by
  refine loadBytes_ok ?_
  rcases h.1 with hzero | hne
  · rw [hzero, BitVec.toNat_zero, Heap.read_zero, ← h.2, hzero, BitVec.toNat_zero, Heap.read_zero]
  · exact Heap.read_mono (fun b hb => (honly.heap _ b hne hb).1) h.2

namespace Holds

variable {s : List Byte}

theorem contains (h : Holds order st v s) : Contains order st v s :=
  Or.inr h

/-- The count -/
theorem loadLen (h : Holds order st v s) :
    loadCell order ⟨st.vars v, 0#_⟩ st = .ok (BitVec.ofNat c.bits s.length) st := by
  obtain ⟨rest, hblock, -⟩ := h.block
  have hread : loadBytes ⟨st.vars v, 0#_⟩ (cell c) st = .ok (header order c s.length) st := by
    refine loadBytes_ok ?_
    rw [cell, c.toNat_bytes, BitVec.toNat_zero, Heap.read_of_block hblock, List.drop_zero,
      List.take_left' (length_header order c _)]
    rw [List.length_append, length_header]
    omega
  rw [loadCell, bind_ok hread]
  exact congrArg (EStateM.Result.ok · st) (order.load_store rfl _)

/-- Characters of the string -/
theorem load (h : Holds order st v s) {off n : Nat} (hle : off + n ≤ s.length) :
    loadBytes ⟨st.vars v, cell c + BitVec.ofNat _ off⟩ (BitVec.ofNat _ n) st =
      .ok ((s.drop off).take n) st := by
  obtain ⟨rest, hblock, -⟩ := h.block
  have hlen := h.length_le
  refine loadBytes_ok ?_
  rw [cell, ← BitVec.ofNat_add, toNat_ofNat_of_le (by omega), toNat_ofNat_of_le (by omega),
    Heap.read_of_block hblock]
  · rw [← length_header order c s.length, List.drop_length_add_append,
      List.drop_append_of_le_length (by omega), List.take_append_of_le_length]
    rw [List.length_drop]
    omega
  · rw [List.length_append, length_header, List.length_append]
    omega

/-- Characters of the string are replaced. -/
theorem store (h : Holds order st v s) {off : Nat} {t : List Byte}
    (hle : off + t.length ≤ s.length) :
    ∃ st', storeBytes t ⟨st.vars v, cell c + BitVec.ofNat _ off⟩ st = .ok () st' ∧
      st'.vars v = st.vars v ∧ Holds order st' v (overwrite s off t) ∧ Only v st st' := by
  obtain ⟨rest, hblock, hsize⟩ := h.block
  have hlen := h.length_le
  have hover := length_overwrite hle
  have hoff : (cell c + BitVec.ofNat _ off).toNat = c.bytes + off := by
    rw [cell, ← BitVec.ofNat_add, toNat_ofNat_of_le (by omega)]
  have hok := storeBytes_ok (p := ⟨st.vars v, cell c + BitVec.ofNat _ off⟩) (t := t) hblock (by
    rw [hoff, List.length_append, length_header, List.length_append]
    omega)
  rw [hoff, ← length_header order c s.length, overwrite_append_right,
    overwrite_append_left rest hle] at hok
  refine ⟨_, hok, rfl, ⟨h.ne_null, hover.le.trans hlen, rest, ?_, ?_⟩,
    fun _ _ => rfl, fun a b hne hb => ⟨?_, hne⟩, ?_⟩
  · rw [hover]
    exact setBlock_heap_self _ _
  · rw [hover, List.length_append, hover, ← List.length_append]
    exact hsize
  · exact (setBlock_heap_of_ne _ hne).trans hb
  · intro hnull
    exact (setBlock_heap_of_ne _ h.ne_null.symm).trans hnull

end Holds

/-! ## Lengths -/

/-- A count is stored in front of enough characters. -/
theorem storeCell_header (order : ByteOrder) {hd y : List Byte} (hne : st.vars v ≠ 0#_)
    (hn : n ≤ maxLength c) (hblock : st.heap (st.vars v) = some (hd ++ y))
    (hhd : hd.length = c.bytes)
    (hsize : c.bytes + y.length = (padding c (BitVec.ofNat c.bits n)).toNat) :
    ∃ st', storeCell order (BitVec.ofNat c.bits n) ⟨st.vars v, 0#_⟩ st = .ok () st' ∧
      st'.vars v = st.vars v ∧ Holds order st' v (y.take n) ∧ Only v st st' := by
  have hnat : (BitVec.ofNat c.bits n).toNat = n := toNat_ofNat_of_le (by omega)
  have hfits := (padding_fits_iff c (BitVec.ofNat c.bits n)).mpr (by rwa [hnat])
  have htake : (y.take n).length = n := by
    rw [List.length_take]
    omega
  have hok := storeBytes_ok (p := ⟨st.vars v, 0#_⟩) (t := header order c n) hblock (by
    rw [BitVec.toNat_zero, length_header, List.length_append]
    omega)
  rw [BitVec.toNat_zero, overwrite_front y (by rw [length_header, hhd])] at hok
  refine ⟨_, hok, rfl, ⟨hne, htake.le.trans hn, y.drop n, ?_, ?_⟩, fun _ _ => rfl,
    fun a b hne' hb => ⟨?_, hne'⟩, ?_⟩
  · rw [htake, List.take_append_drop]
    exact setBlock_heap_self _ _
  · rw [htake, List.take_append_drop, hsize]
  · exact (setBlock_heap_of_ne _ hne').trans hb
  · intro hnull
    exact (setBlock_heap_of_ne _ hne.symm).trans hnull

section Allocation

variable (alloc : Allocator (BitVec c.bits) Byte 0#c.bits) {n : BitVec c.bits}

/-- A block of another size, for null or for the block {lit}`b` -/
theorem resize_spec {a : BitVec c.bits} {b : List Byte} (hn : n ≠ 0#_)
    (hb : a = 0#_ ∧ b = [] ∨ a ≠ 0#_ ∧ st.heap a = some b) :
    resize alloc a n st = .error .outOfMemory st ∨
      ∃ a' h' t, resize alloc a n st = .ok a' { st with heap := h' } ∧ a' ≠ 0#_ ∧
        h' a' = some (b.take n.toNat ++ t) ∧ (b.take n.toNat ++ t).length = n.toNat ∧
        (∀ a'' b'', a'' ≠ a → st.heap a'' = some b'' → h' a'' = some b'' ∧ a'' ≠ a') ∧
        (st.heap 0#_ = none → h' 0#_ = none) := by
  rw [resize, bind_get]
  rcases hb with ⟨hnull, hnil⟩ | ⟨hne, hb⟩
  · rw [if_pos hnull, hnil, List.take_nil]
    cases hmalloc : alloc.malloc st.heap n.toNat with
    | none => exact Or.inl rfl
    | some r =>
        obtain ⟨hne, hfresh, t, hlen, hh⟩ := Allocator.malloc_spec hmalloc
        refine Or.inr ⟨r.1, r.2, t, rfl, hne, ?_, hlen, ?_, ?_⟩
        · rw [hh, Function.update_self, List.nil_append]
        · intro a'' b'' _ hb''
          have hne'' : a'' ≠ r.1 := fun heq => by simp [← heq, hb''] at hfresh
          exact ⟨by rw [hh, Function.update_of_ne hne'', hb''], hne''⟩
        · intro hzero
          rw [hh, Function.update_of_ne hne.symm, hzero]
  · rw [if_neg hne, hb, if_neg hn]
    dsimp only
    cases hrealloc : alloc.realloc st.heap a b n.toNat with
    | none => exact Or.inl rfl
    | some r =>
        obtain ⟨hne', hfresh, t, hlen, hh⟩ := Allocator.realloc_spec hrealloc
        refine Or.inr ⟨r.1, r.2, t, rfl, hne', ?_, hlen, ?_, ?_⟩
        · rw [hh, Function.update_self]
        · intro a'' b'' hne'' hb''
          have hother : a'' ≠ r.1 := by
            intro heq
            have := hfresh (heq ▸ hne'')
            simp [← heq, hb''] at this
          exact ⟨by rw [hh, Function.update_of_ne hother, Function.update_of_ne hne'', hb''], hother⟩
        · intro hzero
          rw [hh, Function.update_of_ne hne'.symm, Function.update_of_ne hne.symm, hzero]

/-- The block of a variable, for {lit}`resize` -/
theorem Contains.block {s : List Byte} (h : Contains order st v s) :
    ∃ b, (st.vars v = 0#_ ∧ b = [] ∨ st.vars v ≠ 0#_ ∧ st.heap (st.vars v) = some b) ∧
      s <+: b.drop c.bytes := by
  rcases h with ⟨hnull, rfl⟩ | hholds
  · exact ⟨[], Or.inl ⟨hnull, rfl⟩, List.nil_prefix⟩
  · obtain ⟨rest, hblock, -⟩ := hholds.block
    refine ⟨_, Or.inr ⟨hholds.ne_null, hblock⟩, ?_⟩
    rw [List.drop_left' (length_header order c _)]
    exact List.prefix_append s rest

/-- The string has a length. -/
theorem Contains.length_le {s : List Byte} (h : Contains order st v s) : s.length ≤ maxLength c := by
  rcases h with ⟨-, rfl⟩ | hholds
  · exact Nat.zero_le _
  · exact hholds.length_le

theorem Contains.holds {s : List Byte} (h : Contains order st v s) (hpos : 0 < s.length) : Holds order st v s := by
  rcases h with ⟨-, rfl⟩ | hholds
  · cases hpos
  · exact hholds

variable [DecidableEq V]

/-- What a word does that gives a string another length -/
def StoresLen (order : ByteOrder) (st : Store V c) (v : V) (s : List Byte) (n : Nat)
    (r : EStateM.Result Fault (Store V c) Unit) : Prop :=
  r = .error .outOfMemory st ∨ ∃ st' s', r = .ok () st' ∧ Holds order st' v s' ∧ s'.length = n ∧
    s.take n <+: s' ∧ Only v st st'

variable {s : List Byte} {m : Nat}

/-- The block has a new length. -/
theorem resizeTo_spec (h : Contains order st v s) (hm : m ≤ maxLength c) :
    StoresLen order st v s m (resizeTo order alloc (padding c (BitVec.ofNat _ m)) (BitVec.ofNat _ m) v st) := by
  have hnat : (BitVec.ofNat c.bits m).toNat = m := toNat_ofNat_of_le (by omega)
  have hfits := (padding_fits_iff c (BitVec.ofNat c.bits m)).mpr (by rwa [hnat])
  have hpos := c.bytes_pos
  have hne : padding c (BitVec.ofNat c.bits m) ≠ 0#_ := by
    intro hzero
    rw [hzero, BitVec.toNat_zero] at hfits
    omega
  obtain ⟨b, hb, hs⟩ := h.block
  rw [resizeTo, bind_ok (rfl : fetchVar v st = .ok (st.vars v) st)]
  rcases resize_spec alloc hne hb with hfail | ⟨a, h', t, hok, ha, hnew, hlen, hother, hnull⟩
  · exact Or.inl (bind_error hfail)
  · generalize hblock : b.take (padding c (BitVec.ofNat c.bits m)).toNat ++ t = b' at hnew hlen
    have hkept : s.take m <+: b'.drop c.bytes := by
      have hlen' : (s.take m).length ≤ (padding c (BitVec.ofNat c.bits m)).toNat - c.bytes := by
        rw [List.length_take]
        omega
      rw [← hblock, List.drop_append, List.drop_take]
      exact (List.prefix_take_iff.mpr ⟨(List.take_prefix m s).trans hs, hlen'⟩).trans
        (List.prefix_append _ _)
    let st1 : Store V c := ⟨Function.update st.vars v a, h'⟩
    have hvar : st1.vars v = a := Function.update_self _ _ _
    have hparts : st1.heap (st1.vars v) = some (b'.take c.bytes ++ b'.drop c.bytes) := by
      rw [hvar, List.take_append_drop]
      exact hnew
    obtain ⟨st', hstore, -, hholds, honly⟩ := storeCell_header order (by rwa [hvar]) hm hparts
      (by rw [List.length_take]; omega) (by rw [List.length_drop]; omega)
    have honly1 : Only v st st1 := by
      refine ⟨fun u hu => Function.update_of_ne hu _ _, fun a'' b'' hne'' hb'' => ?_, hnull⟩
      rw [hvar]
      exact hother a'' b'' hne'' hb''
    refine Or.inr ⟨st', _, ?_, hholds, ?_, ?_, honly1.trans honly⟩
    · rw [bind_ok hok, bind_ok (rfl : storeVar a v _ = .ok () st1), bind_ok (rfl : fetchVar v st1 = .ok _ st1)]
      exact hstore
    · rw [List.length_take, List.length_drop]
      omega
    · rw [List.prefix_take_iff]
      exact ⟨hkept, (List.length_take_le _ _)⟩

/-- {lit}`$!len` gives the string a new length. -/
theorem stringStoreLen_spec (h : Contains order st v s) (hm : m ≤ maxLength c) :
    StoresLen order st v s m (stringStoreLen order alloc (BitVec.ofNat _ m) v st) := by
  have hresize := resizeTo_spec alloc h hm
  rw [stringStoreLen, bind_ok (rfl : fetchVar v st = .ok (st.vars v) st)]
  rcases h with ⟨hnull, rfl⟩ | hholds
  · rwa [if_neg (not_not.mpr hnull)]
  · rw [if_pos hholds.ne_null, bind_ok hholds.loadLen]
    by_cases hsame : padding c (BitVec.ofNat c.bits s.length) = padding c (BitVec.ofNat c.bits m)
    · -- the size of the buffer does not change
      rw [if_pos hsame]
      obtain ⟨rest, hblock, hsize⟩ := hholds.block
      obtain ⟨st', hstore, -, hholds', honly⟩ := storeCell_header order hholds.ne_null hm hblock
        (length_header order c _) (hsame ▸ hsize)
      have hnat : (BitVec.ofNat c.bits m).toNat = m := toNat_ofNat_of_le (by omega)
      have hfits := (padding_fits_iff c (BitVec.ofNat c.bits m)).mpr (by rwa [hnat])
      rw [← hsame] at hfits
      refine Or.inr ⟨st', _, hstore, hholds', ?_, ?_, honly⟩
      · rw [List.length_take]
        omega
      · rw [List.prefix_take_iff]
        exact ⟨(List.take_prefix m s).trans (List.prefix_append s rest), List.length_take_le _ _⟩
    · rwa [if_neg hsame]

/-- Characters are appended, which are not known yet. -/
theorem grow_spec {k : Nat} (h : Contains order st v s) (hm : s.length + k ≤ maxLength c) :
    stringStoreLen order alloc (BitVec.ofNat _ (s.length + k)) v st = .error .outOfMemory st ∨
      ∃ st' t, stringStoreLen order alloc (BitVec.ofNat _ (s.length + k)) v st = .ok () st' ∧
        t.length = k ∧ Holds order st' v (s ++ t) ∧ Only v st st' := by
  rcases stringStoreLen_spec alloc h hm with hfail | ⟨st', s', hok, hholds, hlen, hkept, honly⟩
  · exact Or.inl hfail
  · rw [List.take_of_length_le (Nat.le_add_right _ _)] at hkept
    obtain ⟨t, rfl⟩ := hkept
    rw [List.length_append] at hlen
    exact Or.inr ⟨st', t, hok, by omega, hholds, honly⟩

/-- The string is cut. -/
theorem shrink_spec (h : Contains order st v s) (hm : m ≤ s.length) :
    stringStoreLen order alloc (BitVec.ofNat _ m) v st = .error .outOfMemory st ∨
      ∃ st', stringStoreLen order alloc (BitVec.ofNat _ m) v st = .ok () st' ∧
        Holds order st' v (s.take m) ∧ Only v st st' := by
  rcases stringStoreLen_spec alloc h (hm.trans h.length_le) with
    hfail | ⟨st', s', hok, hholds, hlen, hkept, honly⟩
  · exact Or.inl hfail
  · have heq : s.take m = s' := hkept.eq_of_length (by rw [List.length_take, hlen]; omega)
    exact Or.inr ⟨st', hok, heq ▸ hholds, honly⟩

end Allocation

/-! ## Reading a variable -/

/-- {lit}`$@len` is the length of the string. -/
theorem stringFetchLen_ok (h : Contains order st v s) :
    stringFetchLen order v st = .ok (BitVec.ofNat _ s.length) st := by
  rw [stringFetchLen, bind_ok (rfl : fetchVar v st = .ok (st.vars v) st)]
  rcases h with ⟨hnull, rfl⟩ | hholds
  · rw [if_neg (not_not.mpr hnull)]
    rfl
  · rw [if_pos hholds.ne_null]
    exact hholds.loadLen

/-- {lit}`$@` is the string. -/
theorem stringFetch_ok (h : Holds order st v s) :
    stringFetch order v st = .ok ⟨⟨st.vars v, cell c⟩, BitVec.ofNat _ s.length⟩ st := by
  rw [stringFetch, bind_ok (rfl : fetchVar v st = .ok (st.vars v) st), if_pos h.ne_null,
    bind_ok h.loadLen]
  rfl

/-- The text of a variable, which may be null -/
theorem stringFetch_text (h : Contains order st v s) :
    ∃ p : Ptr c, stringFetch order v st = .ok ⟨p, BitVec.ofNat _ s.length⟩ st ∧
      (Holds order st v s → p = ⟨st.vars v, cell c⟩) := by
  rcases h with ⟨hnull, rfl⟩ | hholds
  · refine ⟨⟨0#_, 0#_⟩, ?_, fun hholds => absurd hnull hholds.ne_null⟩
    rw [stringFetch, bind_ok (rfl : fetchVar v st = .ok (st.vars v) st), if_neg (not_not.mpr hnull)]
    rfl
  · exact ⟨_, stringFetch_ok hholds, fun _ => rfl⟩

end Strings
end Gforth
