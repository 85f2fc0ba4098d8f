import Gforth.Strings.Effects

/-!
# Strings and stacks as lists

The words for string variables follow lists of bytes, and those for stacks lists of cells, in every
run on any number of variables.

Main results:

- Theorem {lit}`exec_spec`: a word does to the variable what it does to the list.
- Theorem {lit}`onCells_spec`: the words for stacks work on lists of cells.
- Theorem {lit}`dynamic_strings`: after every run the variables have the contents of their lists, in
  buffers of the right size.
-/

namespace Gforth
namespace Strings

open Lib
open Numbers
open Hash.Keys (CellSize)

/-- Words for a string variable, with the arguments in front of the variable -/
inductive Op (τ : Type) (c : CellSize) where
  /-- {lit}`$!` -/
  | store (t : τ)
  /-- {lit}`$+!` -/
  | plusStore (t : τ)
  /-- {lit}`c$+!` -/
  | cPlusStore (char : BitVec c.bits)
  /-- {lit}`$!len` -/
  | storeLen (u : BitVec c.bits)
  /-- {lit}`$ins` -/
  | ins (t : τ) (off : BitVec c.bits)
  /-- {lit}`$room` -/
  | room (u : BitVec c.bits)
  /-- {lit}`$[] @` -/
  | arrayFetch (u : BitVec c.bits)
  /-- {lit}`$[] !` -/
  | arrayStore (x u : BitVec c.bits)
  /-- {lit}`$free` -/
  | free
  /-- {lit}`$init` -/
  | init
  /-- {lit}`>stack` -/
  | toStack (x : BitVec c.bits)
  /-- {lit}`stack>` -/
  | stackFrom
  /-- {lit}`>back` -/
  | toBack (x : BitVec c.bits)
  /-- {lit}`set-stack` -/
  | setStack (xs : List (BitVec c.bits))
  /-- {lit}`get-stack` -/
  | getStack

variable {V τ : Type} {c : CellSize}

/-- The characters of a text -/
def Text.chars (st : Store V c) (t : Text c) : List Byte :=
  (st.heap.read t.addr.block t.addr.offset.toNat t.len.toNat).getD []

/-- The bytes of a variable, as {lit}`$@` gives them -/
def contents (order : ByteOrder) (v : V) : Word V c (List Byte) := do
  let s ← stringFetch order v
  loadBytes s.addr s.len

namespace Op

/-- What the words leave on the data stack -/
def exec [DecidableEq V] (order : ByteOrder) (alloc : Allocator (BitVec c.bits) Byte 0#c.bits) (v : V) :
    Op (Text c) c → Word V c (List (BitVec c.bits))
  | .store t => do stringStore order alloc t v; return []
  | .plusStore t => do stringPlusStore order alloc t v; return []
  | .cPlusStore char => do cStringPlusStore order alloc char v; return []
  | .storeLen u => do stringStoreLen order alloc u v; return []
  | .ins t off => do stringIns order alloc t v off; return []
  | .room u => do stringRoom order alloc u v; return []
  | .arrayFetch u => do
      let p ← stringArray order alloc u v
      return [← loadCell order p]
  | .arrayStore x u => do
      let p ← stringArray order alloc u v
      storeCell order x p
      return []
  | .free => do stringFree v; return []
  | .init => do stringInit order alloc v; return []
  | .toStack x => do Strings.toStack order alloc x v; return []
  | .stackFrom => Strings.stackFrom order alloc v
  | .toBack x => do Strings.toBack order alloc x v; return []
  | .setStack xs => do Strings.setStack order alloc xs v; return []
  | .getStack => Strings.getStack order v

/-! ## Lists of bytes -/

/-- The texts among the arguments -/
def texts : Op τ c → List τ
  | .store t | .plusStore t | .ins t _ => [t]
  | _ => []

/-- The list of bytes after a word -/
def after (order : ByteOrder) (chars : τ → List Byte) (s : List Byte) : Op τ c → List Byte
  | .store t => chars t
  | .plusStore t => s ++ chars t
  | .cPlusStore char => s ++ [char.setWidth 8]
  | .storeLen u => s.take u.toNat
  | .ins t off => s.take off.toNat ++ chars t ++ s.drop off.toNat
  | .room u => roomed s u.toNat
  | .arrayFetch u => roomed s ((u.toNat + 1) * c.bytes)
  | .arrayStore x u =>
      overwrite (roomed s ((u.toNat + 1) * c.bytes)) (u.toNat * c.bytes) (order.store c.bytes x)
  | .free | .init => []
  | .toStack x => s ++ order.store c.bytes x
  | .stackFrom => s.take (s.length - c.bytes)
  | .toBack x => order.store c.bytes x ++ s
  | .setStack xs => encode order xs
  | .getStack => s

/-- The results of a word; those of {lit}`get-stack` are cells if the bytes are those of cells. -/
def Results (order : ByteOrder) (s : List Byte) : Op τ c → List (BitVec c.bits) → Prop
  | .arrayFetch u, r =>
      r = [order.load c.bits
        (((roomed s ((u.toNat + 1) * c.bytes)).drop (u.toNat * c.bytes)).take c.bytes)]
  | .stackFrom, r => r = [order.load c.bits (s.drop (s.length - c.bytes))]
  | .getStack, r => ∀ xs, s = encode order xs → r = xs ++ [BitVec.ofNat _ xs.length]
  | _, r => r = []

/-- {lit}`$!len` does not go beyond the length, and {lit}`$ins` inserts within the string; {lit}`stack>`
finds a cell. -/
def InRange (s : List Byte) : Op τ c → Prop
  | .storeLen u => u.toNat ≤ s.length
  | .ins _ off => off.toNat ≤ s.length
  | .stackFrom => c.bytes ≤ s.length
  | _ => True

/-- The texts are not in the buffer of the variable itself, and there is a size of buffers for the
string. -/
structure Permitted (order : ByteOrder) (st : Store V c) (v : V) (s : List Byte) (op : Op (Text c) c) :
    Prop where
  texts : ∀ t ∈ op.texts, Elsewhere st v t (t.chars st)
  inRange : op.InRange s
  fits : (op.after order (Text.chars st) s).length ≤ maxLength c

end Op

theorem length_roomed (s : List Byte) (n : Nat) : (roomed s n).length = max s.length n := by
  rw [roomed, List.length_append, List.length_replicate]
  omega

section Step

variable {order : ByteOrder} {st : Store V c} {v : V} {s : List Byte}

/-- A word that leaves nothing on the data stack -/
theorem Ends.andReturn {x : Word V c Unit} {s' : List Byte} (h : Ends order st v () s' (x st)) :
    Ends order st v ([] : List (BitVec c.bits)) s' ((do x; return [] : Word V c (List (BitVec c.bits))) st) := by
  rcases h with hfail | ⟨st', hok, hcontains, honly⟩
  · exact Or.inl (bind_error hfail)
  · exact Or.inr ⟨st', bind_ok hok, hcontains, honly⟩

variable [DecidableEq V] (alloc : Allocator (BitVec c.bits) Byte 0#c.bits)

/-- {lit}`$[] @` -/
theorem arrayFetch_spec {u : BitVec c.bits} (h : Contains order st v s)
    (hm : (u.toNat + 1) * c.bytes ≤ maxLength c) :
    Ends order st v
      [order.load c.bits (((roomed s ((u.toNat + 1) * c.bytes)).drop (u.toNat * c.bytes)).take c.bytes)]
      (roomed s ((u.toNat + 1) * c.bytes)) ((Op.arrayFetch u).exec order alloc v st) := by
  rw [Op.exec]
  rcases stringArray_spec alloc h hm with hfail | ⟨st1, hok, hholds, honly⟩
  · exact Or.inl (bind_error hfail)
  · have hload := hholds.loadCell
      (show u.toNat * c.bytes + c.bytes ≤ (roomed s ((u.toNat + 1) * c.bytes)).length by
        rw [length_roomed, Nat.succ_mul]
        exact le_max_right _ _)
    refine Or.inr ⟨st1, ?_, hholds.contains, honly⟩
    rw [bind_ok hok, bind_ok hload]
    rfl

/-- {lit}`$[] !` -/
theorem arrayStore_spec {x u : BitVec c.bits} (h : Contains order st v s)
    (hm : (u.toNat + 1) * c.bytes ≤ maxLength c) :
    Ends order st v []
      (overwrite (roomed s ((u.toNat + 1) * c.bytes)) (u.toNat * c.bytes) (order.store c.bytes x))
      ((Op.arrayStore x u).exec order alloc v st) := by
  rw [Op.exec]
  rcases stringArray_spec alloc h hm with hfail | ⟨st1, hok, hholds, honly⟩
  · exact Or.inl (bind_error hfail)
  · obtain ⟨st2, hstore, -, hholds', honly'⟩ := hholds.store (t := order.store c.bytes x)
      (show u.toNat * c.bytes + (order.store c.bytes x).length ≤ _ by
        rw [length_roomed, ByteOrder.length_store, Nat.succ_mul]
        exact le_max_right _ _)
    refine Or.inr ⟨st2, ?_, hholds'.contains, honly.trans honly'⟩
    rw [bind_ok hok]
    exact bind_ok hstore

/-- A word does to the variable what it does to the list. -/
theorem exec_spec {op : Op (Text c) c} (h : Contains order st v s) (hnull : st.heap 0#_ = none)
    (hp : op.Permitted order st v s) :
    ∃ r, Ends order st v r (op.after order (Text.chars st) s) (op.exec order alloc v st) ∧
      op.Results order s r := by
  obtain ⟨htexts, hrange, hfits⟩ := hp
  cases op with
  | store t =>
      exact ⟨[], (stringStore_spec alloc h (htexts t (by simp [Op.texts])) hfits).andReturn, rfl⟩
  | plusStore t =>
      rw [Op.after, List.length_append] at hfits
      exact ⟨[], (stringPlusStore_spec alloc h (htexts t (by simp [Op.texts])) hfits).andReturn, rfl⟩
  | cPlusStore char =>
      rw [Op.after, List.length_append] at hfits
      exact ⟨[], (cStringPlusStore_spec alloc char h hfits).andReturn, rfl⟩
  | storeLen u => exact ⟨[], (stringStoreLen_shrinks alloc h hrange).andReturn, rfl⟩
  | ins t off =>
      have hoff : off.toNat ≤ s.length := hrange
      have hlen : s.length + (t.chars st).length ≤ maxLength c := by
        rw [Op.after, List.length_append, List.length_append, List.length_take, List.length_drop] at hfits
        omega
      exact ⟨[], (stringIns_spec alloc h (htexts t (by simp [Op.texts])) hrange hlen).andReturn, rfl⟩
  | room u =>
      rw [Op.after, length_roomed] at hfits
      exact ⟨[], (stringRoom_spec alloc h (le_trans (le_max_right _ _) hfits)).andReturn, rfl⟩
  | arrayFetch u =>
      rw [Op.after, length_roomed] at hfits
      exact ⟨_, arrayFetch_spec alloc h (le_trans (le_max_right _ _) hfits), rfl⟩
  | arrayStore x u =>
      rw [Op.after, length_overwrite, length_roomed] at hfits
      · exact ⟨[], arrayStore_spec alloc h (le_trans (le_max_right _ _) hfits), rfl⟩
      · rw [length_roomed, ByteOrder.length_store, Nat.succ_mul]
        exact le_max_right _ _
  | free => exact ⟨[], (stringFree_spec h hnull).andReturn, rfl⟩
  | init => exact ⟨[], (stringInit_spec alloc hnull).andReturn, rfl⟩
  | toStack x =>
      rw [Op.after, List.length_append, ByteOrder.length_store] at hfits
      exact ⟨[], (toStack_spec alloc x h hfits).andReturn, rfl⟩
  | stackFrom => exact ⟨_, stackFrom_spec alloc h hrange, rfl⟩
  | toBack x =>
      rw [Op.after, List.length_append, ByteOrder.length_store, Nat.add_comm] at hfits
      exact ⟨[], (toBack_spec alloc x h hfits).andReturn, rfl⟩
  | setStack xs =>
      rw [Op.after, length_encode] at hfits
      exact ⟨[], (setStack_spec alloc xs h hfits).andReturn, rfl⟩
  | getStack =>
      obtain ⟨xs, hok, hxs⟩ := getStack_spec h
      exact ⟨xs, Or.inr ⟨st, hok, h, Only.refl v st⟩, hxs⟩

end Step

/-! ## Lists of cells -/

/-- Zeros are appended to a list that is too short. -/
def roomedCells (xs : List (BitVec c.bits)) (n : Nat) : List (BitVec c.bits) :=
  xs ++ List.replicate (n - xs.length) 0#_

/-- The list of cells after a word for stacks, and the results of the word -/
def Op.onCells : Op τ c → List (BitVec c.bits) → Option (List (BitVec c.bits) × List (BitVec c.bits))
  | .arrayFetch u, xs =>
      some (roomedCells xs (u.toNat + 1), [(roomedCells xs (u.toNat + 1)).getD u.toNat 0#_])
  | .arrayStore x u, xs => some ((roomedCells xs (u.toNat + 1)).set u.toNat x, [])
  | .free, _ | .init, _ => some ([], [])
  | .toStack x, xs => some (xs ++ [x], [])
  | .stackFrom, xs => xs.getLast?.map fun x => (xs.dropLast, [x])
  | .toBack x, xs => some (x :: xs, [])
  | .setStack ys, _ => some (ys, [])
  | .getStack, xs => some (xs, xs ++ [BitVec.ofNat _ xs.length])
  | _, _ => none

section Cells

variable {order : ByteOrder} {xs ys : List (BitVec c.bits)}

/-- Zeros are encoded as zeros. -/
theorem encode_replicate (n : Nat) :
    encode order (List.replicate n 0#c.bits) = List.replicate (n * c.bytes) 0#8 := by
  induction n with
  | zero => simp [encode]
  | succ n ih =>
      rw [List.replicate_succ, encode_cons, ih, order.store_zero, ← List.replicate_add, Nat.succ_mul,
        Nat.add_comm]

theorem roomed_encode (n : Nat) : roomed (encode order xs) (n * c.bytes) = encode order (roomedCells xs n) := by
  rw [roomed, roomedCells, encode_append, encode_replicate, length_encode, Nat.sub_mul]

/-- The cell at an index -/
theorem encode_split (order : ByteOrder) {i : Nat} (hi : i < xs.length) :
    encode order xs = encode order (xs.take i) ++ order.store c.bytes xs[i] ++ encode order (xs.drop (i + 1)) ∧
      (encode order (xs.take i)).length = i * c.bytes := by
  constructor
  · rw [← encode_singleton, ← encode_append, ← encode_append, List.append_assoc,
      List.singleton_append, List.getElem_cons_drop, List.take_append_drop]
  · rw [length_encode, List.length_take, Nat.min_eq_left hi.le]

/-- An item is loaded. -/
theorem load_encode {i : Nat} (hi : i < xs.length) :
    order.load c.bits (((encode order xs).drop (i * c.bytes)).take c.bytes) = xs.getD i 0#_ := by
  obtain ⟨hsplit, hlen⟩ := encode_split order hi
  rw [hsplit, List.append_assoc, List.drop_left' hlen, List.take_left' (order.length_store _ _),
    order.load_store rfl, List.getD_eq_getElem?_getD, List.getElem?_eq_getElem hi]
  rfl

/-- An item is stored. -/
theorem overwrite_encode {i : Nat} (hi : i < xs.length) (x : BitVec c.bits) :
    overwrite (encode order xs) (i * c.bytes) (order.store c.bytes x) = encode order (xs.set i x) := by
  obtain ⟨hsplit, hlen⟩ := encode_split order hi
  rw [hsplit, ← hlen, overwrite_append _ _ (by rw [order.length_store, order.length_store]),
    List.set_eq_take_append_cons_drop, if_pos hi, encode_append, encode_cons, List.append_assoc]

/-- The length of a list with room -/
theorem length_roomedCells (xs : List (BitVec c.bits)) (n : Nat) :
    (roomedCells xs n).length = max xs.length n := by
  rw [roomedCells, List.length_append, List.length_replicate]
  omega

/-- The words for stacks work on lists of cells. -/
theorem onCells_spec {op : Op τ c} {chars : τ → List Byte} {r : List (BitVec c.bits)}
    (h : op.onCells xs = some (ys, r)) :
    op.after order chars (encode order xs) = encode order ys ∧
      ∀ r', op.Results order (encode order xs) r' → r' = r := by
  cases op with
  | arrayFetch u =>
      obtain ⟨rfl, rfl⟩ := Prod.mk.inj (Option.some.inj h)
      refine ⟨roomed_encode _, fun r' hr => ?_⟩
      have hindex : u.toNat < (roomedCells xs (u.toNat + 1)).length := by
        rw [length_roomedCells]
        omega
      rw [Op.Results, roomed_encode, load_encode hindex] at hr
      exact hr
  | arrayStore x u =>
      obtain ⟨rfl, rfl⟩ := Prod.mk.inj (Option.some.inj h)
      refine ⟨?_, fun r' hr => hr⟩
      rw [Op.after, roomed_encode, overwrite_encode]
      rw [length_roomedCells]
      omega
  | free | init =>
      obtain ⟨rfl, rfl⟩ := Prod.mk.inj (Option.some.inj h)
      exact ⟨rfl, fun r' hr => hr⟩
  | toStack x =>
      obtain ⟨rfl, rfl⟩ := Prod.mk.inj (Option.some.inj h)
      refine ⟨?_, fun r' hr => hr⟩
      rw [Op.after, encode_append, encode_singleton]
  | stackFrom =>
      obtain ⟨x, hx, hr⟩ := Option.map_eq_some_iff.mp h
      obtain ⟨rfl, rfl⟩ := Prod.mk.inj hr
      have hlast : encode order xs = encode order xs.dropLast ++ order.store c.bytes x := by
        rw [← encode_singleton, ← encode_append, List.dropLast_append_getLast? x hx]
      have hlen : (encode order xs).length - c.bytes = (encode order xs.dropLast).length := by
        rw [hlast, List.length_append, order.length_store, Nat.add_sub_cancel]
      refine ⟨?_, fun r' hr => ?_⟩
      · rw [Op.after, hlen, hlast, List.take_left]
      · rw [Op.Results, hlen, hlast, List.drop_left, order.load_store rfl] at hr
        exact hr
  | toBack _ | setStack _ =>
      obtain ⟨rfl, rfl⟩ := Prod.mk.inj (Option.some.inj h)
      exact ⟨rfl, fun r' hr => hr⟩
  | getStack =>
      obtain ⟨rfl, rfl⟩ := Prod.mk.inj (Option.some.inj h)
      exact ⟨rfl, fun r' hr => hr _ rfl⟩
  | _ => cases h

end Cells

/-! ## Runs -/

/-- The variables and their buffers are the same. -/
structure SameBuffers (st st' : Store V c) : Prop where
  vars : st'.vars = st.vars
  heap : ∀ v b, st.vars v ≠ 0#_ → st.heap (st.vars v) = some b → st'.heap (st.vars v) = some b
  null : st'.heap 0#_ = none

/-- The states after the words of a run, with the lists that follow it.  Other parts of the system may
change other blocks at any time, and every word has its own allocator. -/
inductive Reached [DecidableEq V] (order : ByteOrder) : Store V c → (V → List Byte) → Prop
  | start {st : Store V c} : (∀ v, st.vars v = 0#_) → st.heap 0#_ = none → Reached order st fun _ => []
  | elsewhere {st st' : Store V c} {σ : V → List Byte} :
      Reached order st σ → SameBuffers st st' → Reached order st' σ
  | word {st st' : Store V c} {σ : V → List Byte} {v : V} {op : Op (Text c) c}
      {r : List (BitVec c.bits)} (alloc : Allocator (BitVec c.bits) Byte 0#c.bits) :
      Reached order st σ → op.Permitted order st v (σ v) → op.exec order alloc v st = .ok r st' →
      Reached order st' (Function.update σ v (op.after order (Text.chars st) (σ v)))
  | outOfMemory {st st' : Store V c} {σ : V → List Byte} {v : V} {op : Op (Text c) c}
      (alloc : Allocator (BitVec c.bits) Byte 0#c.bits) :
      Reached order st σ → op.Permitted order st v (σ v) →
      op.exec order alloc v st = .error .outOfMemory st' → Reached order st' σ

/-- Every variable contains its list, and no two variables have the same buffer. -/
structure Follows (order : ByteOrder) (st : Store V c) (σ : V → List Byte) : Prop where
  contains : ∀ v, Contains order st v (σ v)
  apart : ∀ u v, u ≠ v → st.vars u = st.vars v → st.vars u = 0#_
  null : st.heap 0#_ = none

section Runs

variable [DecidableEq V] {order : ByteOrder} {st st' : Store V c} {σ : V → List Byte} {v : V}

omit [DecidableEq V] in
/-- A variable contains its string as long as its block stays. -/
theorem Contains.of_sameBlock {s : List Byte} (h : Contains order st v s)
    (hvar : st'.vars v = st.vars v)
    (hheap : ∀ b, st.vars v ≠ 0#_ → st.heap (st.vars v) = some b → st'.heap (st.vars v) = some b) :
    Contains order st' v s := by
  rcases h with ⟨hnull, hs⟩ | ⟨hne, hlen, rest, hblock, hsize⟩
  · exact Or.inl ⟨hvar.trans hnull, hs⟩
  · exact Or.inr ⟨hvar ▸ hne, hlen, rest, hvar ▸ hheap _ hne hblock, hsize⟩

omit [DecidableEq V] in
/-- A variable that is not null has a block. -/
theorem Follows.block_ne_null (h : Follows order st σ) (hne : st.vars v ≠ 0#_) :
    ∃ b, st.heap (st.vars v) = some b := by
  rcases h.contains v with ⟨hnull, -⟩ | hholds
  · exact absurd hnull hne
  · obtain ⟨rest, hblock, -⟩ := hholds.block
    exact ⟨_, hblock⟩

/-- A word that changes one variable -/
theorem Follows.only {s : List Byte} (h : Follows order st σ) (honly : Only v st st')
    (hs : Contains order st' v s) : Follows order st' (Function.update σ v s) where
  contains u := by
    by_cases hu : u = v
    · subst hu
      rwa [Function.update_self]
    · rw [Function.update_of_ne hu]
      refine (h.contains u).of_sameBlock (honly.vars u hu) fun b hne hb => ?_
      have hblock : st.vars u ≠ st.vars v := fun heq => hne (h.apart u v hu heq)
      exact (honly.heap _ b hblock hb).1
  apart := by
    -- a buffer of another variable is not the new one
    have hother : ∀ u, u ≠ v → st'.vars u = st'.vars v → st'.vars u = 0#_ := by
      intro u hu heq
      by_contra hne
      rw [honly.vars u hu] at heq hne
      obtain ⟨b, hb⟩ := h.block_ne_null hne
      exact (honly.heap _ b (fun hsame => hne (h.apart u v hu hsame)) hb).2 heq
    intro u w huw heq
    by_cases hu : u = v
    · subst hu
      rw [heq]
      exact hother w huw.symm heq.symm
    · by_cases hw : w = v
      · subst hw
        exact hother u hu heq
      · rw [honly.vars u hu] at heq ⊢
        rw [honly.vars w hw] at heq
        exact h.apart u w huw heq
  null := honly.null h.null

/-- In every state that is reached the variables contain their lists. -/
theorem Reached.follows (h : Reached order st σ) : Follows order st σ := by
  induction h with
  | start hvars hnull =>
      exact ⟨fun v => Or.inl ⟨hvars v, rfl⟩, fun u _ _ _ => hvars u, hnull⟩
  | elsewhere _ hsame ih =>
      refine ⟨fun v => (ih.contains v).of_sameBlock (congrFun hsame.vars v) (hsame.heap v),
        fun u v huv heq => ?_, hsame.null⟩
      rw [hsame.vars] at heq ⊢
      exact ih.apart u v huv heq
  | word alloc _ hp hexec ih =>
      obtain ⟨r, hends, -⟩ := exec_spec alloc (ih.contains _) ih.null hp
      rcases hends with hfail | ⟨st', hok, hcontains, honly⟩
      · rw [hexec] at hfail
        cases hfail
      · rw [hexec] at hok
        cases hok
        exact ih.only honly hcontains
  | outOfMemory alloc _ hp hexec ih =>
      obtain ⟨r, hends, -⟩ := exec_spec alloc (ih.contains _) ih.null hp
      rcases hends with hfail | ⟨st', hok, -⟩
      · rw [hexec] at hfail
        cases hfail
        exact ih
      · rw [hexec] at hok
        cases hok

omit [DecidableEq V] in
/-- The contents are the string. -/
theorem contents_ok {s : List Byte} (h : Contains order st v s) :
    contents order v st = .ok s st := by
  obtain ⟨p, hfetch, hp⟩ := stringFetch_text h
  rw [contents, bind_ok hfetch]
  by_cases hnil : s = []
  · rw [hnil]
    exact loadBytes_ok (Heap.read_zero _ _)
  · have hholds := h.holds (List.length_pos_iff.mpr hnil)
    have hread := hholds.load (show 0 + s.length ≤ s.length by omega)
    rw [List.drop_zero, List.take_length, BitVec.add_zero] at hread
    rw [hp hholds]
    exact hread

end Runs

/-- Strings and stacks follow their lists in every run: {lit}`$padding` gives a power of two with room
for the string and a cell, unless the string is longer than any for which there is one; after every
run a variable has the contents of its list, in a buffer of this size; no word has a fault, and each
leaves the results of its list. -/
theorem dynamic_strings [DecidableEq V] {order : ByteOrder} {st : Store V c} {σ : V → List Byte}
    (h : Reached order st σ) :
    (∀ n : BitVec c.bits, n.toNat ≤ maxLength c →
      ∃ k, (padding c n).toNat = 2 ^ k ∧ n.toNat + c.bytes ≤ 2 ^ k) ∧
    (∀ n : BitVec c.bits, toPow2Colon c n = Compile.toPow2 n) ∧
    (∀ v, contents order v st = .ok (σ v) st) ∧
    (∀ v, st.vars v ≠ 0#_ → ∃ b, st.heap (st.vars v) = some b ∧
      b.length = (padding c (BitVec.ofNat _ (σ v).length)).toNat) ∧
    (∀ alloc v (op : Op (Text c) c), op.Permitted order st v (σ v) →
      op.exec order alloc v st = .error .outOfMemory st ∨
        ∃ r st', op.exec order alloc v st = .ok r st' ∧ op.Results order (σ v) r) ∧
    (∀ (op : Op (Text c) c) chars xs ys r, op.onCells xs = some (ys, r) →
      op.after order chars (encode order xs) = encode order ys ∧
        ∀ r', op.Results order (encode order xs) r' → r' = r) := by
  have hfollows := h.follows
  refine ⟨fun n hn => ?_, toPow2Colon_eq c, fun v => contents_ok (hfollows.contains v),
    fun v hne => ?_, fun alloc v op hp => ?_, fun op chars xs ys r => onCells_spec⟩
  · obtain ⟨k, hk, hle, -⟩ := padding_spec c hn
    exact ⟨k, hk, by omega⟩
  · obtain ⟨rest, hblock, hsize⟩ := (hfollows.contains v).resolve_left (fun hnull => hne hnull.1) |>.block
    refine ⟨_, hblock, ?_⟩
    rw [List.length_append, length_header, hsize]
  · obtain ⟨r, hends, hr⟩ := exec_spec alloc (hfollows.contains v) hfollows.null hp
    rcases hends with hfail | ⟨st', hok, -⟩
    · exact Or.inl hfail
    · exact Or.inr ⟨r, st', hok, hr⟩

/-! ## Two runs -/

/-- An allocator with a place for small blocks and one for large blocks -/
def twoPlaces : Allocator (BitVec CellSize.four.bits) Byte 0#_ :=
  .fixed (fun n => if n < 64 then 0x1000#_ else 0x2000#_) (fun n => by split <;> decide) 0#8

/-- All variables are null, and there is a text of 16 characters elsewhere. -/
def textStore : Store Unit .four where
  vars _ := 0#_
  heap a := if a = 0x100#_ then some (List.replicate 16 0x61#8) else none

/-- A run of {lit}`$!` and {lit}`>stack` -/
theorem dynamic_strings_run : ∃ st : Store Unit .four, ∃ σ : Unit → List Byte,
    Reached .little st σ ∧
      σ () = List.replicate 16 0x61#8 ++ [5#8, 0#8, 0#8, 0#8] ∧ contents .little () st = .ok (σ ()) st := by
  have hstart : Reached .little textStore fun _ => [] := .start (fun _ => rfl) rfl
  have htext : (Op.store ⟨⟨0x100#_, 0#_⟩, 16#_⟩).Permitted .little textStore () [] := by
    refine ⟨fun t ht => ?_, trivial, by decide⟩
    cases List.mem_singleton.mp ht
    exact ⟨Or.inr (by decide), rfl⟩
  have hstore := hstart.word twoPlaces htext rfl
  have hpush := hstore.word twoPlaces (show (Op.toStack 5#_).Permitted .little _ () _ from
    ⟨fun t ht => (List.not_mem_nil ht).elim, trivial, by decide⟩) rfl
  exact ⟨_, _, hpush, rfl, (dynamic_strings hpush).2.2.1 ()⟩

/-- A string is appended to itself. -/
def appendItself : Word Unit .four Unit := do
  stringStore .little twoPlaces ⟨⟨0x100#_, 0#_⟩, 16#_⟩ ()
  stringPlusStore .little twoPlaces (← stringFetch .little ()) ()

/-- There is no size of a buffer for a string of half of the address space, and a string that is
appended to itself is read where its buffer was. -/
theorem padding_overflow :
    ¬(∀ n : BitVec CellSize.eight.bits, n.toNat + CellSize.eight.bytes ≤ (padding .eight n).toNat) ∧
      ∃ st, appendItself textStore = .error .outside st := by
  constructor
  · intro h
    exact absurd (h (BitVec.ofNat _ (2 ^ 63))) (by decide)
  · exact ⟨_, rfl⟩

end Strings
end Gforth
