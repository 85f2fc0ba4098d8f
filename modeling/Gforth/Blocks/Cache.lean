import Gforth.Blocks.Buffers

/-!
# The block buffers as a cache

What a program may expect of blocks is described by the last contents of each block of each
file.  The buffers keep this description as long as only assigned buffers are changed: after
{lit}`flush`, and after {lit}`open-blocks` has flushed, {lit}`update` marks a buffer that is not
assigned to a block, and writing it fails.

Main results:

- Theorem {lit}`step_cached`: the invariant of the buffers.
- Theorem {lit}`run_transparent`: programs that change assigned buffers only.
-/

namespace Gforth
namespace Blocks

open Lib

variable {File : Type}

/-! ## What is expected of blocks -/

/-- The current blocks file, the contents that blocks must have, and the block of the buffer
that was returned last, if it still is assigned -/
structure Spec (File : Type) where
  current : Option File
  contents : File → Nat → Option (List Chr)
  last : Option Nat

/-- A block that is completely in a file -/
def diskBlock (cfg : Config File) (disk : File → Option (List Chr)) (f : File) (k : Nat) :
    Option (List Chr) :=
  match disk f with
  | none => none
  | some content =>
      if (k + 1) * cfg.charsPerBlock ≤ content.length then
        some (readAt content (k * cfg.charsPerBlock) cfg.charsPerBlock)
      else none

/-- The blocks that are in the files have the contents that they have there. -/
def Spec.initial (cfg : Config File) (disk : File → Option (List Chr)) : Spec File where
  current := none
  contents := diskBlock cfg disk
  last := none

/-- The block number {lit}`u` of a file has new contents. -/
def Spec.write [DecidableEq File] (cfg : Config File) (a : Spec File) (f : File) (u : Nat)
    (data : List Chr) : Spec File :=
  { a with contents :=
      Function.update a.contents f (Function.update (a.contents f) (u - cfg.offset) (some data)) }

/-- What the operations do -/
def Spec.step [DecidableEq File] (cfg : Config File) (a : Spec File) : Op File → Spec File
  | .block u => { a with current := some (a.current.getD cfg.defaultFile), last := some u }
  | .change data =>
      match a.current, a.last with
      | some f, some u => a.write cfg f u data
      | _, _ => a
  | .saveBuffers => a
  | .flush => { a with last := none }
  | .openBlocks f => { a with current := some f, last := none }

/-- Block numbers are in the range of blocks, and data fit a buffer. -/
def Op.Valid (cfg : Config File) : Op File → Prop
  | .block u => cfg.offset ≤ u ∧ u < cfg.blockLimit
  | .change data => data.length = cfg.charsPerBlock
  | _ => True

instance (cfg : Config File) (op : Op File) : Decidable (op.Valid cfg) :=
  match op with
  | .block u => inferInstanceAs (Decidable (cfg.offset ≤ u ∧ u < cfg.blockLimit))
  | .change data => inferInstanceAs (Decidable (data.length = cfg.charsPerBlock))
  | .saveBuffers | .flush | .openBlocks _ => inferInstanceAs (Decidable True)

/-- A change is made to a buffer that is assigned to a block. -/
def State.Assigned (cfg : Config File) (s : State File) : Op File → Prop
  | .change _ => ∀ i, s.lastBlock = some i → (s.buffer i).block ≠ cfg.maxU
  | _ => True

/-! ## The invariant -/

/-- A buffer that is assigned to a block of the current file -/
structure Holds (cfg : Config File) (s : State File) (a : Spec File) (i : Nat) (f : File) :
    Prop where
  current : a.current = some f
  fid : (s.buffer i).fid = s.blockFid
  offset_le : cfg.offset ≤ (s.buffer i).block
  lt_blockLimit : (s.buffer i).block < cfg.blockLimit
  index : (s.buffer i).block % cfg.buffers = i
  length : (s.buffer i).data.length = cfg.charsPerBlock
  data : ∀ d, a.contents f ((s.buffer i).block - cfg.offset) = some d → (s.buffer i).data = d
  dirty : (s.buffer i).dirty = true →
    a.contents f ((s.buffer i).block - cfg.offset) = some (s.buffer i).data

/-- A buffer that is not assigned -/
def Free (cfg : Config File) (s : State File) (i : Nat) : Prop :=
  (s.buffer i).block = cfg.maxU ∧ (s.buffer i).dirty = false

/-- The current file is open. -/
structure FileOpen (s : State File) (f : File) : Prop where
  ne_zero : s.blockFid ≠ 0
  handle : ∃ pos, s.handle s.blockFid = some ⟨f, pos⟩
  disk : ∃ content, s.disk f = some content

/-- The buffers and the files have the expected contents. -/
structure Cached (cfg : Config File) (s : State File) (a : Spec File) : Prop where
  file : ∀ f, a.current = some f → FileOpen s f
  noFile : a.current = none → s.blockFid = 0
  buffer : ∀ i, i < cfg.buffers → Free cfg s i ∨ ∃ f, Holds cfg s a i f
  disk : ∀ f k d, a.contents f k = some d → diskBlock cfg s.disk f k = some d ∨
    ∃ i, i < cfg.buffers ∧ (s.buffer i).dirty = true ∧ (s.buffer i).block = k + cfg.offset ∧
      Holds cfg s a i f
  last : ∀ u, a.last = some u → ∃ i, i < cfg.buffers ∧ s.lastBlock = some i ∧
    (s.buffer i).block = u ∧ ∃ f, Holds cfg s a i f
  noLast : a.last = none → ∀ i, s.lastBlock = some i → (s.buffer i).block = cfg.maxU
  lastLt : ∀ i, s.lastBlock = some i → i < cfg.buffers

/-- Every new write is of the contents of a block of the current file, and to its place. -/
def NewWrites (cfg : Config File) (a : Spec File) (s s' : State File) : Prop :=
  ∀ wr ∈ s'.writes, wr ∈ s.writes ∨ ∃ k, a.current = some wr.file ∧
    wr.pos = k * cfg.charsPerBlock ∧ a.contents wr.file k = some wr.data

variable {cfg : Config File} {s s' : State File} {a a' : Spec File} {i : Nat} {f : File}

/-- What an assigned buffer depends on -/
theorem Holds.congr (h : Holds cfg s a i f) (hcurrent : a'.current = some f)
    (hblock : (s'.buffer i).block = (s.buffer i).block) (hbfid : (s'.buffer i).fid = (s.buffer i).fid)
    (hdata : (s'.buffer i).data = (s.buffer i).data)
    (hdirty : (s'.buffer i).dirty = true → (s.buffer i).dirty = true)
    (hfid : s'.blockFid = s.blockFid)
    (hcontents : a'.contents f ((s.buffer i).block - cfg.offset) =
      a.contents f ((s.buffer i).block - cfg.offset)) : Holds cfg s' a' i f where
  current := hcurrent
  fid := by rw [hbfid, hfid, h.fid]
  offset_le := by rw [hblock]; exact h.offset_le
  lt_blockLimit := by rw [hblock]; exact h.lt_blockLimit
  index := by rw [hblock]; exact h.index
  length := by rw [hdata]; exact h.length
  data := by rw [hblock, hdata, hcontents]; exact h.data
  dirty := by rw [hblock, hdata, hcontents]; exact fun hd => h.dirty (hdirty hd)

/-- An assigned buffer stays assigned if it is not changed. -/
theorem Holds.of_buffer_eq (h : Holds cfg s a i f) (hcurrent : a'.current = some f)
    (hbuffer : s'.buffer i = s.buffer i) (hfid : s'.blockFid = s.blockFid)
    (hcontents : a'.contents f ((s.buffer i).block - cfg.offset) =
      a.contents f ((s.buffer i).block - cfg.offset)) : Holds cfg s' a' i f :=
  h.congr hcurrent (by rw [hbuffer]) (by rw [hbuffer]) (by rw [hbuffer]) (by rw [hbuffer]; exact id)
    hfid hcontents

/-- A dirty buffer is assigned. -/
theorem Cached.holds_of_dirty (h : Cached cfg s a) (hi : i < cfg.buffers)
    (hdirty : (s.buffer i).dirty = true) : ∃ f, Holds cfg s a i f := by
  rcases h.buffer i hi with hfree | hholds
  · rw [hfree.2] at hdirty
    cases hdirty
  · exact hholds

theorem NewWrites.refl (cfg : Config File) (a : Spec File) (s : State File) :
    NewWrites cfg a s s :=
  fun _ hwr => Or.inl hwr

/-- Writes of two runs -/
theorem NewWrites.trans {t : State File} (h : NewWrites cfg a s s') (h' : NewWrites cfg a s' t) :
    NewWrites cfg a s t := by
  intro wr hwr
  rcases h' wr hwr with hold | hnew
  · exact h wr hold
  · exact Or.inr hnew

/-- What saving does not change -/
structure Saving (cfg : Config File) (a : Spec File) (s s' : State File) : Prop where
  writes : NewWrites cfg a s s'
  blockFid : s'.blockFid = s.blockFid
  lastBlock : s'.lastBlock = s.lastBlock
  handle : ∀ fid, fid ≠ s.blockFid → s'.handle fid = s.handle fid
  disk : ∀ f content, s.disk f = some content → ∃ content', s'.disk f = some content'
  block : ∀ j, (s'.buffer j).block = (s.buffer j).block
  fid : ∀ j, (s'.buffer j).fid = (s.buffer j).fid
  data : ∀ j, (s'.buffer j).data = (s.buffer j).data
  dirty : ∀ j, (s'.buffer j).dirty = true → (s.buffer j).dirty = true

/-- Nothing is saved at first. -/
theorem Saving.refl (cfg : Config File) (a : Spec File) (s : State File) : Saving cfg a s s where
  writes := .refl cfg a s
  blockFid := rfl
  lastBlock := rfl
  handle := fun _ _ => rfl
  disk := fun _ content h => ⟨content, h⟩
  block := fun _ => rfl
  fid := fun _ => rfl
  data := fun _ => rfl
  dirty := fun _ h => h

/-- Saving in two runs -/
theorem Saving.trans {t : State File} (h : Saving cfg a s s') (h' : Saving cfg a s' t) :
    Saving cfg a s t where
  writes := h.writes.trans h'.writes
  blockFid := h'.blockFid.trans h.blockFid
  lastBlock := h'.lastBlock.trans h.lastBlock
  handle := fun fid hne => (h'.handle fid (by rwa [h.blockFid])).trans (h.handle fid hne)
  disk := by
    intro f content hdisk
    obtain ⟨content', hdisk'⟩ := h.disk f content hdisk
    exact h'.disk f content' hdisk'
  block := fun j => (h'.block j).trans (h.block j)
  fid := fun j => (h'.fid j).trans (h.fid j)
  data := fun j => (h'.data j).trans (h.data j)
  dirty := fun j hdirty => h.dirty j (h'.dirty j hdirty)

variable {j : Nat} {disk : File → Option (List Chr)} {content : List Chr} {u : Nat}
  {data : List Chr}

theorem Saving.holds {g : File} (h : Saving cfg a s s') (hholds : Holds cfg s a j g) :
    Holds cfg s' a j g :=
  hholds.congr hholds.current (h.block j) (h.fid j) (h.data j) (h.dirty j) h.blockFid rfl

/-- Free buffers stay free. -/
theorem Saving.free (h : Saving cfg a s s') (hfree : Free cfg s j) : Free cfg s' j := by
  refine ⟨(h.block j).trans hfree.1, ?_⟩
  by_contra hdirty
  have := h.dirty j (by simpa using hdirty)
  rw [hfree.2] at this
  cases this

/-! ## Blocks of files -/

/-- A block on the disk is a part of its file. -/
theorem diskBlock_eq_some {k : Nat} {d : List Chr} :
    diskBlock cfg disk f k = some d ↔ ∃ content, disk f = some content ∧
      (k + 1) * cfg.charsPerBlock ≤ content.length ∧
      readAt content (k * cfg.charsPerBlock) cfg.charsPerBlock = d := by
  rw [diskBlock]
  cases hdisk : disk f with
  | none => simp
  | some content =>
    simp only [Option.some.injEq, exists_eq_left']
    split
    · simp [*]
    · simp [*]

variable [DecidableEq File]

theorem diskBlock_update_of_ne {f f' : File} (hne : f' ≠ f) (content : Option (List Chr))
    (k : Nat) : diskBlock cfg (Function.update disk f content) f' k = diskBlock cfg disk f' k := by
  rw [diskBlock, Function.update_of_ne hne, diskBlock]

/-- Writing a block -/
theorem diskBlock_write_self {content data : List Chr} (hlen : data.length = cfg.charsPerBlock)
    (k : Nat) :
    diskBlock cfg (Function.update disk f
      (some (writeAt 0#8 content (k * cfg.charsPerBlock) data))) f k = some data := by
  refine diskBlock_eq_some.mpr ⟨_, Function.update_self _ _ _, ?_, ?_⟩
  · rw [length_writeAt, hlen, Nat.succ_mul]
    exact Nat.le_max_right _ _
  · rw [← hlen]
    exact readAt_writeAt_self

/-- Writing a block keeps the others. -/
theorem diskBlock_write_of_ne {content data d : List Chr} (hdisk : disk f = some content)
    (hlen : data.length = cfg.charsPerBlock) {k j : Nat} (hne : j ≠ k)
    (h : diskBlock cfg disk f j = some d) :
    diskBlock cfg (Function.update disk f
      (some (writeAt 0#8 content (k * cfg.charsPerBlock) data))) f j = some d := by
  obtain ⟨content', hcontent', hin, hread⟩ := diskBlock_eq_some.mp h
  rw [hdisk] at hcontent'
  obtain rfl := Option.some.inj hcontent'
  refine diskBlock_eq_some.mpr ⟨_, Function.update_self _ _ _, ?_, ?_⟩
  · rw [length_writeAt]
    exact Nat.le_trans hin (Nat.le_max_left _ _)
  · rw [← hread]
    refine readAt_writeAt_of_disjoint (by rwa [Nat.succ_mul] at hin) ?_
    rw [hlen, ← Nat.succ_mul, ← Nat.succ_mul]
    rcases Nat.lt_or_gt_of_ne hne with hlt | hgt
    · exact Or.inl (Nat.mul_le_mul_right _ hlt)
    · exact Or.inr (Nat.mul_le_mul_right _ hgt)

/-! ## Saving buffers -/

/-- The state after writing a dirty buffer -/
def savedState (cfg : Config File) (s : State File) (i : Nat) (f : File) (content : List Chr) :
    State File :=
  let pos := ((s.buffer i).block - cfg.offset) * cfg.charsPerBlock
  { s with
    disk := Function.update s.disk f (some (writeAt 0#8 content pos (s.buffer i).data))
    handle := Function.update s.handle s.blockFid (some ⟨f, pos + (s.buffer i).data.length⟩)
    writes := ⟨f, pos, (s.buffer i).data⟩ :: s.writes
    buffer := Function.update s.buffer i { s.buffer i with dirty := false } }

/-- A dirty buffer is written to its file. -/
theorem saveBuffer_eq (hholds : Holds cfg s a i f) (hopen : FileOpen s f)
    (hdisk : s.disk f = some content) (hdirty : (s.buffer i).dirty = true) :
    saveBuffer cfg s i = .ok (savedState cfg s i f content) := by
  obtain ⟨pos, hhandle⟩ := hopen.handle
  have hfid : (s.buffer i).fid ≠ 0 := by
    rw [hholds.fid]
    exact hopen.ne_zero
  have hassign : assignFid cfg s i = s := if_neg hfid
  have hlimit : ¬cfg.blockLimit ≤ (s.buffer i).block := Nat.not_le.mpr hholds.lt_blockLimit
  have hcurrent : getBlockFid cfg s = s := if_neg hopen.ne_zero
  simp only [saveBuffer, if_pos hdirty, hassign, blockPosition, if_neg hlimit, hcurrent,
    repositionFile, hhandle, writeFile, hholds.fid, Function.update_self, hdisk, State.setBuffer,
    Function.update_idem, savedState]

theorem savedState_buffer_self (content : List Chr) :
    (savedState cfg s i f content).buffer i = { s.buffer i with dirty := false } :=
  Function.update_self _ _ _

theorem savedState_buffer_of_ne (content : List Chr) (hj : j ≠ i) :
    (savedState cfg s i f content).buffer j = s.buffer j :=
  Function.update_of_ne hj _ _

/-- Writing a dirty buffer is saving. -/
theorem savedState_saving (content : List Chr) (hholds : Holds cfg s a i f)
    (hdirty : (s.buffer i).dirty = true) :
    Saving cfg a s (savedState cfg s i f content) where
  writes := by
    intro wr hwr
    rcases List.mem_cons.mp hwr with rfl | hold
    · exact Or.inr ⟨_, hholds.current, rfl, hholds.dirty hdirty⟩
    · exact Or.inl hold
  blockFid := rfl
  lastBlock := rfl
  handle := fun fid hne => Function.update_of_ne hne _ _
  disk := by
    intro g content' hg
    by_cases hgf : g = f
    · exact ⟨_, by rw [hgf]; exact Function.update_self _ _ _⟩
    · exact ⟨content', (Function.update_of_ne hgf _ _).trans hg⟩
  block := by
    intro j
    by_cases hj : j = i
    · rw [hj, savedState_buffer_self]
    · rw [savedState_buffer_of_ne _ hj]
  fid := by
    intro j
    by_cases hj : j = i
    · rw [hj, savedState_buffer_self]
    · rw [savedState_buffer_of_ne _ hj]
  data := by
    intro j
    by_cases hj : j = i
    · rw [hj, savedState_buffer_self]
    · rw [savedState_buffer_of_ne _ hj]
  dirty := by
    intro j
    by_cases hj : j = i
    · rw [hj]
      exact fun _ => hdirty
    · rw [savedState_buffer_of_ne _ hj]
      exact id

/-- Writing a dirty buffer puts the expected contents on the disk. -/
theorem Cached.savedState (h : Cached cfg s a) (hholds : Holds cfg s a i f)
    (hdisk : s.disk f = some content) (hdirty : (s.buffer i).dirty = true) :
    Cached cfg (savedState cfg s i f content) a := by
  have hsaving := savedState_saving content hholds hdirty
  have hcontents := hholds.dirty hdirty
  refine ⟨?_, h.noFile, ?_, ?_, ?_, ?_, h.lastLt⟩
  · intro g hg
    rw [hholds.current] at hg
    obtain rfl := Option.some.inj hg
    exact ⟨(h.file f hholds.current).ne_zero, ⟨_, Function.update_self _ _ _⟩,
      ⟨_, Function.update_self _ _ _⟩⟩
  · intro j hj
    rcases h.buffer j hj with hfree | ⟨g, hg⟩
    · exact Or.inl (hsaving.free hfree)
    · exact Or.inr ⟨g, hsaving.holds hg⟩
  · intro g k d hd
    rcases h.disk g k d hd with hblock | ⟨j, hj, hjdirty, hjblock, hjholds⟩
    · left
      by_cases hgf : g = f
      · subst hgf
        by_cases hk : k = (s.buffer i).block - cfg.offset
        · subst hk
          rw [hcontents] at hd
          rw [← Option.some.inj hd]
          exact diskBlock_write_self hholds.length _
        · exact diskBlock_write_of_ne hdisk hholds.length hk hblock
      · rw [← hblock]
        exact diskBlock_update_of_ne hgf _ _
    · by_cases hji : j = i
      · left
        subst hji
        have hgf : g = f := by
          have := hjholds.current
          rw [hholds.current] at this
          exact (Option.some.inj this).symm
        subst hgf
        have hk : k = (s.buffer j).block - cfg.offset := by omega
        subst hk
        rw [hcontents] at hd
        rw [← Option.some.inj hd]
        exact diskBlock_write_self hholds.length _
      · refine Or.inr ⟨j, hj, ?_, (hsaving.block j).trans hjblock, hsaving.holds hjholds⟩
        rw [savedState_buffer_of_ne _ hji]
        exact hjdirty
  · intro u hu
    obtain ⟨j, hj, hlast, hblock, g, hg⟩ := h.last u hu
    exact ⟨j, hj, hlast, (hsaving.block j).trans hblock, g, hsaving.holds hg⟩
  · intro hnone j hj
    exact (hsaving.block j).trans (h.noLast hnone j hj)

/-- Saving a buffer -/
theorem saveBuffer_spec (h : Cached cfg s a) (hi : i < cfg.buffers) :
    ∃ s', saveBuffer cfg s i = .ok s' ∧ Cached cfg s' a ∧ Saving cfg a s s' ∧
      (s'.buffer i).dirty = false := by
  by_cases hdirty : (s.buffer i).dirty = true
  · obtain ⟨f, hholds⟩ := h.holds_of_dirty hi hdirty
    have hopen := h.file f hholds.current
    obtain ⟨content, hdisk⟩ := hopen.disk
    refine ⟨_, saveBuffer_eq hholds hopen hdisk hdirty, h.savedState hholds hdisk hdirty,
      savedState_saving content hholds hdirty, ?_⟩
    rw [savedState_buffer_self]
  · exact ⟨s, if_neg hdirty, h, .refl cfg a s, by simpa using hdirty⟩

/-- Saving the first buffers -/
theorem saveBuffers_range (h : Cached cfg s a) {n : Nat} (hn : n ≤ cfg.buffers) :
    ∃ s', (List.range n).foldlM (saveBuffer cfg) s = .ok s' ∧ Cached cfg s' a ∧
      Saving cfg a s s' ∧ ∀ j, j < n → (s'.buffer j).dirty = false := by
  induction n with
  | zero => exact ⟨s, rfl, h, .refl cfg a s, fun j hj => absurd hj (Nat.not_lt_zero j)⟩
  | succ n ih =>
    obtain ⟨s₁, hs₁, hcached₁, hsaving₁, hclean₁⟩ := ih (Nat.le_of_succ_le hn)
    obtain ⟨s₂, hs₂, hcached₂, hsaving₂, hclean₂⟩ := saveBuffer_spec hcached₁ (i := n) hn
    refine ⟨s₂, ?_, hcached₂, hsaving₁.trans hsaving₂, ?_⟩
    · rw [List.range_succ, List.foldlM_append, hs₁]
      simp only [List.foldlM_cons, List.foldlM_nil]
      change (saveBuffer cfg s₁ n >>= pure) = .ok s₂
      rw [hs₂]
      rfl
    · intro j hj
      rcases Nat.lt_succ_iff_lt_or_eq.mp hj with hlt | rfl
      · by_contra hdirty
        have := hsaving₂.dirty j (by simpa using hdirty)
        rw [hclean₁ j hlt] at this
        cases this
      · exact hclean₂

/-! ## Emptying buffers -/

omit [DecidableEq File] in
/-- {lit}`empty-buffers` forgets the blocks of all buffers. -/
theorem emptyBuffers_eq (s : State File) :
    emptyBuffers cfg s =
      { s with buffer := fun j =>
          if j < cfg.buffers then { s.buffer j with block := cfg.maxU, dirty := false }
          else s.buffer j } := by
  rw [emptyBuffers]
  induction cfg.buffers with
  | zero => simp
  | succ n ih =>
    rw [List.range_succ, List.foldl_append, ih]
    simp only [List.foldl_cons, List.foldl_nil, emptyBuffer, State.setBuffer, State.mk.injEq,
      true_and, and_true]
    funext j
    by_cases hj : j = n
    · subst hj
      simp
    · rw [Function.update_of_ne hj]
      by_cases hlt : j < n
      · rw [if_pos hlt, if_pos (Nat.lt_succ_of_lt hlt)]
      · rw [if_neg hlt, if_neg (by omega)]

/-- All buffers are free. -/
def AllFree (cfg : Config File) (s : State File) : Prop :=
  ∀ j, j < cfg.buffers → Free cfg s j

/-- The files have the expected contents. -/
def OnDisk (cfg : Config File) (s : State File) (a : Spec File) : Prop :=
  ∀ f k d, a.contents f k = some d → diskBlock cfg s.disk f k = some d

omit [DecidableEq File] in
/-- Without dirty buffers, the files have the expected contents. -/
theorem Cached.onDisk (h : Cached cfg s a)
    (hclean : ∀ j, j < cfg.buffers → (s.buffer j).dirty = false) : OnDisk cfg s a := by
  intro f k d hd
  rcases h.disk f k d hd with hblock | ⟨j, hj, hdirty, -⟩
  · exact hblock
  · rw [hclean j hj] at hdirty
    cases hdirty

omit [DecidableEq File] in
/-- The invariant holds when all buffers are free. -/
theorem Cached.of_allFree (hfree : AllFree cfg s) (hdisk : OnDisk cfg s a)
    (hfile : ∀ f, a.current = some f → FileOpen s f) (hnoFile : a.current = none → s.blockFid = 0)
    (hlast : a.last = none) (hlastLt : ∀ i, s.lastBlock = some i → i < cfg.buffers) :
    Cached cfg s a where
  file := hfile
  noFile := hnoFile
  buffer := fun j hj => Or.inl (hfree j hj)
  disk := fun f k d hd => Or.inl (hdisk f k d hd)
  last := by
    intro u hu
    rw [hlast] at hu
    cases hu
  noLast := fun _ i hi => (hfree i (hlastLt i hi)).1
  lastLt := hlastLt

/-- What {lit}`flush` does not change -/
structure Flushed (cfg : Config File) (a : Spec File) (s s' : State File) : Prop where
  cached : Cached cfg s' { a with last := none }
  writes : NewWrites cfg a s s'
  free : AllFree cfg s'
  onDisk : OnDisk cfg s' a
  blockFid : s'.blockFid = s.blockFid
  lastBlock : s'.lastBlock = s.lastBlock
  handle : ∀ fid, fid ≠ s.blockFid → s'.handle fid = s.handle fid
  disk : ∀ f content, s.disk f = some content → ∃ content', s'.disk f = some content'

/-- {lit}`flush` puts all contents on the disk and frees the buffers. -/
theorem flush_spec (h : Cached cfg s a) : ∃ s', flush cfg s = .ok s' ∧ Flushed cfg a s s' := by
  obtain ⟨s₁, hs₁, hcached, hsaving, hclean⟩ := saveBuffers_range h (Nat.le_refl cfg.buffers)
  have hfree : AllFree cfg (emptyBuffers cfg s₁) := by
    intro j hj
    rw [emptyBuffers_eq]
    simp [Free, hj]
  have hdisk : OnDisk cfg (emptyBuffers cfg s₁) a := by
    rw [emptyBuffers_eq]
    exact hcached.onDisk hclean
  refine ⟨emptyBuffers cfg s₁, by rw [flush, saveBuffers, hs₁], ?_, ?_, hfree, hdisk, ?_, ?_, ?_, ?_⟩
  · refine .of_allFree hfree hdisk ?_ ?_ rfl ?_
    · intro f hf
      obtain ⟨hne, hhandle, hcontent⟩ := hcached.file f hf
      rw [emptyBuffers_eq]
      exact ⟨hne, hhandle, hcontent⟩
    · intro hnone
      rw [emptyBuffers_eq]
      exact hcached.noFile hnone
    · rw [emptyBuffers_eq]
      exact hcached.lastLt
  all_goals rw [emptyBuffers_eq]
  · exact hsaving.writes
  · exact hsaving.blockFid
  · exact hsaving.lastBlock
  · exact hsaving.handle
  · exact hsaving.disk

/-! ## Opening files -/

/-- Opening a file keeps the blocks on the disk. -/
theorem diskBlock_openFile {g : File} {k : Nat} {d : List Chr}
    (h : diskBlock cfg s.disk g k = some d) :
    diskBlock cfg (openFile cfg s f).2.disk g k = some d := by
  obtain ⟨content, hcontent, hin, hread⟩ := diskBlock_eq_some.mp h
  refine diskBlock_eq_some.mpr ⟨content, ?_, hin, hread⟩
  by_cases hgf : g = f
  · subst hgf
    exact (Function.update_self _ _ _).trans (by rw [hcontent]; rfl)
  · exact (Function.update_of_ne hgf _ _).trans hcontent

omit [DecidableEq File] in
/-- Buffers are only used while a file is open. -/
theorem Cached.allFree (h : Cached cfg s a) (hnone : a.current = none) : AllFree cfg s := by
  intro j hj
  rcases h.buffer j hj with hfree | ⟨f, hholds⟩
  · exact hfree
  · have := hholds.current
    rw [hnone] at this
    cases this

omit [DecidableEq File] in
/-- Without a current block there is no last one. -/
theorem Cached.last_eq_none (h : Cached cfg s a) (hnone : a.current = none) : a.last = none := by
  cases hlast : a.last with
  | none => rfl
  | some u =>
    obtain ⟨i, -, -, -, f, hholds⟩ := h.last u hlast
    have := hholds.current
    rw [hnone] at this
    cases this

omit [DecidableEq File] in
/-- A file that is used for blocks after no other, or after a flush -/
theorem Cached.use {t : State File} {fid pos : Nat} (hfree : AllFree cfg t) (hdisk : OnDisk cfg t a)
    (hlastLt : ∀ i, t.lastBlock = some i → i < cfg.buffers) (hfid : fid ≠ 0)
    (hhandle : t.handle fid = some ⟨f, pos⟩) (hcontent : t.disk f = some content) :
    Cached cfg { t with blockFid := fid } { a with current := some f, last := none } := by
  refine .of_allFree hfree hdisk ?_ ?_ rfl hlastLt
  · intro g hg
    cases hg
    exact ⟨hfid, ⟨pos, hhandle⟩, ⟨content, hcontent⟩⟩
  · intro hnone
    cases hnone

/-- The first file -/
theorem openFile_first (h : Cached cfg s a) (hnone : a.current = none) (f : File) :
    Cached cfg { (openFile cfg s f).2 with blockFid := (openFile cfg s f).1 }
      { a with current := some f, last := none } := by
  refine .use (h.allFree hnone) ?_ h.lastLt (cfg.newFid_ne_zero _ _) (Function.update_self _ _ _)
    (Function.update_self _ _ _)
  intro g k d hd
  refine diskBlock_openFile (h.onDisk ?_ g k d hd)
  exact fun j hj => (h.allFree hnone j hj).2

/-- {lit}`get-block-fid` -/
theorem getBlockFid_spec (h : Cached cfg s a) :
    Cached cfg (getBlockFid cfg s) { a with current := some (a.current.getD cfg.defaultFile) } ∧
      (getBlockFid cfg s).writes = s.writes ∧ (getBlockFid cfg s).buffer = s.buffer := by
  cases hcurrent : a.current with
  | none =>
    have hlast := h.last_eq_none hcurrent
    have hfirst := openFile_first h hcurrent cfg.defaultFile
    rw [← hlast] at hfirst
    rw [getBlockFid, if_pos (h.noFile hcurrent)]
    exact ⟨hfirst, rfl, rfl⟩
  | some f =>
    rw [getBlockFid, if_neg (h.file f hcurrent).ne_zero]
    refine ⟨?_, rfl, rfl⟩
    have : { a with current := some ((some f).getD cfg.defaultFile) } = a := by
      rw [Option.getD_some, ← hcurrent]
    rw [this]
    exact h

/-- Opening another file does not disturb the current one. -/
theorem Cached.openFile (h : Cached cfg s a) (f : File) : Cached cfg (openFile cfg s f).2 a where
  file := by
    intro g hg
    obtain ⟨hne, ⟨pos, hhandle⟩, ⟨content, hcontent⟩⟩ := h.file g hg
    refine ⟨hne, ⟨pos, ?_⟩, ?_⟩
    · exact (Function.update_of_ne (cfg.newFid_ne _ _).symm _ _).trans hhandle
    · by_cases hgf : g = f
      · exact ⟨_, by rw [hgf]; exact Function.update_self _ _ _⟩
      · exact ⟨content, (Function.update_of_ne hgf _ _).trans hcontent⟩
  noFile := h.noFile
  buffer := by
    intro j hj
    rcases h.buffer j hj with hfree | ⟨g, hg⟩
    · exact Or.inl hfree
    · exact Or.inr ⟨g, hg.of_buffer_eq hg.current rfl rfl rfl⟩
  disk := by
    intro g k d hd
    rcases h.disk g k d hd with hblock | ⟨j, hj, hdirty, hblock, hg⟩
    · exact Or.inl (diskBlock_openFile hblock)
    · exact Or.inr ⟨j, hj, hdirty, hblock, hg.of_buffer_eq hg.current rfl rfl rfl⟩
  last := by
    intro u hu
    obtain ⟨j, hj, hlast, hblock, g, hg⟩ := h.last u hu
    exact ⟨j, hj, hlast, hblock, g, hg.of_buffer_eq hg.current rfl rfl rfl⟩
  noLast := h.noLast
  lastLt := h.lastLt

/-- {lit}`open-blocks` -/
theorem openBlocks_spec (h : Cached cfg s a) (f : File) :
    ∃ s', openBlocks cfg s f = .ok s' ∧
      Cached cfg s' { a with current := some f, last := none } ∧ NewWrites cfg a s s' := by
  cases hcurrent : a.current with
  | none =>
    have hzero : (openFile cfg s f).2.blockFid = 0 := h.noFile hcurrent
    refine ⟨_, ?_, openFile_first h hcurrent f, .refl cfg a s⟩
    simp only [openBlocks, if_pos hzero]
  | some g =>
    have hopened := h.openFile f
    have hzero : (openFile cfg s f).2.blockFid ≠ 0 := (h.file g hcurrent).ne_zero
    obtain ⟨s₁, hs₁, hflushed⟩ := flush_spec hopened
    obtain ⟨pos, hhandle⟩ := (hflushed.cached.file g hcurrent).handle
    obtain ⟨content, hcontent⟩ := hflushed.disk f _ (Function.update_self _ _ _)
    -- The new file id is not the one that is closed.
    have hne : (openFile cfg s f).1 ≠ (openFile cfg s f).2.blockFid := cfg.newFid_ne _ _
    have hnew := (hflushed.handle _ hne).trans (Function.update_self _ _ _)
    refine ⟨{ s₁ with
      handle := Function.update s₁.handle s₁.blockFid none
      blockFid := (openFile cfg s f).1 }, ?_, ?_, ?_⟩
    · simp only [openBlocks, if_neg hzero, hs₁, closeFile, hhandle]
    · rw [← hflushed.blockFid] at hne
      exact .use (t := { s₁ with handle := Function.update s₁.handle s₁.blockFid none })
        hflushed.free hflushed.onDisk hflushed.cached.lastLt (cfg.newFid_ne_zero _ _)
        ((Function.update_of_ne hne _ _).trans hnew) hcontent
    · exact hflushed.writes

/-! ## Loading blocks -/

/-- The contents of a buffer after reading a block: the rest of the buffer is blank. -/
def blockData (cfg : Config File) (content : List Chr) (u : Nat) : List Chr :=
  let data := readAt content ((u - cfg.offset) * cfg.charsPerBlock) cfg.charsPerBlock
  data ++ List.replicate (cfg.charsPerBlock - data.length) 32#8

/-- The state after reading a block into a buffer -/
def loadedState (cfg : Config File) (s : State File) (u : Nat) (f : File) (content : List Chr) :
    State File :=
  let pos := (u - cfg.offset) * cfg.charsPerBlock
  let data := readAt content pos cfg.charsPerBlock
  let i := u % cfg.buffers
  { s with
    handle := Function.update s.handle s.blockFid (some ⟨f, pos + data.length⟩)
    buffer := Function.update s.buffer i
      { s.buffer i with block := u, fid := s.blockFid, data := blockData cfg content u }
    lastBlock := some i }

theorem getBlockFid_eq (hopen : s.blockFid ≠ 0) : getBlockFid cfg s = s :=
  if_neg hopen

/-- The current file, positioned at a block -/
def positionedState (cfg : Config File) (s : State File) (u : Nat) (f : File) : State File :=
  { s with
    handle := Function.update s.handle s.blockFid
      (some ⟨f, (u - cfg.offset) * cfg.charsPerBlock⟩) }

/-- The position of a block in an open file -/
theorem blockPosition_eq (hopen : FileOpen s f) (hlimit : u < cfg.blockLimit) :
    blockPosition cfg s u = .ok (positionedState cfg s u f) := by
  obtain ⟨pos, hhandle⟩ := hopen.handle
  simp only [blockPosition, if_neg (Nat.not_le.mpr hlimit), getBlockFid_eq hopen.ne_zero,
    repositionFile, hhandle, positionedState]

/-- A block is loaded into its buffer. -/
theorem loadBuffer_eq (hopen : FileOpen s f) (hdisk : s.disk f = some content) :
    loadBuffer cfg (positionedState cfg s u f) u (u % cfg.buffers) =
      .ok { loadedState cfg s u f content with lastBlock := s.lastBlock } := by
  have hposition : getBlockFid cfg (positionedState cfg s u f) = positionedState cfg s u f :=
    getBlockFid_eq hopen.ne_zero
  rw [loadBuffer, hposition]
  simp only [positionedState, readFile, Function.update_self, hdisk, Function.update_idem]
  rw [getBlockFid_eq (by exact hopen.ne_zero)]
  rfl

omit [DecidableEq File] in
/-- The buffer has the block that was loaded. -/
theorem loadedState_buffer_self (content : List Chr) (u : Nat) :
    (loadedState cfg s u f content).buffer (u % cfg.buffers) =
      { s.buffer (u % cfg.buffers) with
        block := u, fid := s.blockFid, data := blockData cfg content u } :=
  Function.update_self _ _ _

omit [DecidableEq File] in
theorem loadedState_buffer_of_ne (content : List Chr) {u j : Nat} (hj : j ≠ u % cfg.buffers) :
    (loadedState cfg s u f content).buffer j = s.buffer j :=
  Function.update_of_ne hj _ _

omit [DecidableEq File] in
/-- A loaded block has the size of a block. -/
theorem length_blockData (cfg : Config File) (content : List Chr) (u : Nat) :
    (blockData cfg content u).length = cfg.charsPerBlock := by
  rw [blockData, List.length_append, List.length_replicate]
  have : (readAt content ((u - cfg.offset) * cfg.charsPerBlock) cfg.charsPerBlock).length ≤
      cfg.charsPerBlock := length_readAt_le
  omega

omit [DecidableEq File] in
/-- A block that is completely in the file is read as it is. -/
theorem blockData_of_diskBlock {content d : List Chr} (hdisk : disk f = some content)
    (h : diskBlock cfg disk f (u - cfg.offset) = some d) : blockData cfg content u = d := by
  obtain ⟨content', hcontent', hin, hread⟩ := diskBlock_eq_some.mp h
  rw [hdisk] at hcontent'
  obtain rfl := Option.some.inj hcontent'
  have hlen : d.length = cfg.charsPerBlock := by
    rw [← hread]
    exact length_readAt (by rwa [Nat.succ_mul] at hin)
  rw [blockData, hread, hlen, Nat.sub_self, List.replicate_zero, List.append_nil]

omit [DecidableEq File] in
/-- The expected contents of a block that is in no dirty buffer are in the file. -/
theorem Cached.diskBlock_of_clean (h : Cached cfg s a) {d : List Chr} (hoffset : cfg.offset ≤ u)
    (hclean : (s.buffer (u % cfg.buffers)).dirty = false)
    (hd : a.contents f (u - cfg.offset) = some d) :
    diskBlock cfg s.disk f (u - cfg.offset) = some d := by
  rcases h.disk f _ d hd with hblock | ⟨j, hj, hdirty, hblock, hholds⟩
  · exact hblock
  · rw [Nat.sub_add_cancel hoffset] at hblock
    have hindex := hholds.index
    rw [hblock] at hindex
    rw [← hindex, hclean] at hdirty
    cases hdirty

omit [DecidableEq File] in
/-- The buffer that a block is read into -/
theorem loadedState_holds (h : Cached cfg s a) (hcurrent : a.current = some f)
    (hdisk : s.disk f = some content) (hoffset : cfg.offset ≤ u) (hlimit : u < cfg.blockLimit)
    (hclean : (s.buffer (u % cfg.buffers)).dirty = false) :
    Holds cfg (loadedState cfg s u f content) { a with last := some u } (u % cfg.buffers) f := by
  have hbuffer : (loadedState cfg s u f content).buffer (u % cfg.buffers) = _ :=
    loadedState_buffer_self content u
  refine ⟨hcurrent, ?_, ?_, ?_, ?_, ?_, ?_, ?_⟩
  all_goals rw [hbuffer]
  · rfl
  · exact hoffset
  · exact hlimit
  · exact length_blockData cfg content u
  · intro d hd
    exact blockData_of_diskBlock hdisk (h.diskBlock_of_clean hoffset hclean hd)
  · intro hdirty
    rw [hclean] at hdirty
    cases hdirty

omit [DecidableEq File] in
/-- Reading a block into a clean buffer -/
theorem Cached.loadedState (h : Cached cfg s a) (hcurrent : a.current = some f)
    (hdisk : s.disk f = some content) (hoffset : cfg.offset ≤ u) (hlimit : u < cfg.blockLimit)
    (hclean : (s.buffer (u % cfg.buffers)).dirty = false) :
    Cached cfg (loadedState cfg s u f content) { a with last := some u } := by
  have hlt : u % cfg.buffers < cfg.buffers := Nat.mod_lt _ cfg.buffers_pos
  have hholds := loadedState_holds h hcurrent hdisk hoffset hlimit hclean
  have hother : ∀ j g, j ≠ u % cfg.buffers → Holds cfg s a j g →
      Holds cfg (Blocks.loadedState cfg s u f content) { a with last := some u } j g :=
    fun j g hj hg => hg.of_buffer_eq hg.current (loadedState_buffer_of_ne content hj) rfl rfl
  refine ⟨?_, ?_, ?_, ?_, ?_, ?_, ?_⟩
  · intro g hg
    obtain rfl := Option.some.inj (hcurrent.symm.trans hg)
    exact ⟨(h.file f hcurrent).ne_zero, ⟨_, Function.update_self _ _ _⟩, ⟨content, hdisk⟩⟩
  · intro hnone
    cases hcurrent.symm.trans hnone
  · intro j hj
    by_cases hji : j = u % cfg.buffers
    · subst hji
      exact Or.inr ⟨f, hholds⟩
    · rcases h.buffer j hj with hfree | ⟨g, hg⟩
      · refine Or.inl ?_
        rw [Free, loadedState_buffer_of_ne content hji]
        exact hfree
      · exact Or.inr ⟨g, hother j g hji hg⟩
  · intro g k d hd
    rcases h.disk g k d hd with hblock | ⟨j, hj, hdirty, hblock, hg⟩
    · exact Or.inl hblock
    · have hji : j ≠ u % cfg.buffers := by
        rintro rfl
        rw [hclean] at hdirty
        cases hdirty
      refine Or.inr ⟨j, hj, ?_, ?_, hother j g hji hg⟩
      · rw [loadedState_buffer_of_ne content hji]
        exact hdirty
      · rw [loadedState_buffer_of_ne content hji]
        exact hblock
  · rintro v ⟨⟩
    refine ⟨_, hlt, rfl, ?_, f, hholds⟩
    rw [loadedState_buffer_self]
  · rintro ⟨⟩
  · rintro j ⟨⟩
    exact hlt

omit [DecidableEq File] in
/-- A block that already is in its buffer -/
theorem Cached.hit (h : Cached cfg s a) (hlimit : u < cfg.blockLimit)
    (hblock : (s.buffer (u % cfg.buffers)).block = u) :
    (∃ f, Holds cfg s a (u % cfg.buffers) f) ∧
      Cached cfg { s with lastBlock := some (u % cfg.buffers) } { a with last := some u } := by
  have hlt : u % cfg.buffers < cfg.buffers := Nat.mod_lt _ cfg.buffers_pos
  have hholds : ∃ f, Holds cfg s a (u % cfg.buffers) f := by
    rcases h.buffer _ hlt with hfree | hholds
    · have := hfree.1
      have := cfg.blockLimit_le
      omega
    · exact hholds
  have hkeep : ∀ j g, Holds cfg s a j g →
      Holds cfg { s with lastBlock := some (u % cfg.buffers) } { a with last := some u } j g :=
    fun j g hg => hg.of_buffer_eq hg.current rfl rfl rfl
  obtain ⟨f, hf⟩ := hholds
  refine ⟨⟨f, hf⟩, ?_, h.noFile, ?_, ?_, ?_, ?_, ?_⟩
  · intro g hg
    obtain ⟨hne, hhandle, hcontent⟩ := h.file g hg
    exact ⟨hne, hhandle, hcontent⟩
  · intro j hj
    rcases h.buffer j hj with hfree | ⟨g, hg⟩
    · exact Or.inl hfree
    · exact Or.inr ⟨g, hkeep j g hg⟩
  · intro g k d hd
    rcases h.disk g k d hd with hdisk | ⟨j, hj, hdirty, hblock, hg⟩
    · exact Or.inl hdisk
    · exact Or.inr ⟨j, hj, hdirty, hblock, hkeep j g hg⟩
  · rintro v ⟨⟩
    exact ⟨_, hlt, rfl, hblock, f, hkeep _ f hf⟩
  · rintro ⟨⟩
  · rintro j ⟨⟩
    exact hlt

/-- {lit}`block` -/
theorem block_spec (h : Cached cfg s a) (hoffset : cfg.offset ≤ u) (hlimit : u < cfg.blockLimit) :
    ∃ s', block cfg s u = .ok s' ∧ Cached cfg s' (a.step cfg (.block u)) ∧ NewWrites cfg a s s' := by
  by_cases hmiss : (s.buffer (u % cfg.buffers)).block ≠ u ∨
      (s.buffer (u % cfg.buffers)).fid ≠ s.blockFid
  · have hlt : u % cfg.buffers < cfg.buffers := Nat.mod_lt _ cfg.buffers_pos
    obtain ⟨s₁, hs₁, hcached₁, hsaving, hclean⟩ := saveBuffer_spec h hlt
    obtain ⟨hcached₂, hwrites₂, hbuffer₂⟩ := getBlockFid_spec hcached₁
    have hopen := hcached₂.file _ rfl
    obtain ⟨content, hdisk⟩ := hopen.disk
    rw [← hbuffer₂] at hclean
    -- The first file may be opened while the position is set.
    have hposition : blockPosition cfg s₁ u = blockPosition cfg (getBlockFid cfg s₁) u := by
      have hcurrent : getBlockFid cfg (getBlockFid cfg s₁) = getBlockFid cfg s₁ :=
        if_neg hopen.ne_zero
      simp only [blockPosition, hcurrent]
    refine ⟨_, ?_, hcached₂.loadedState rfl hdisk hoffset hlimit hclean, ?_⟩
    · simp only [block, if_neg (Nat.not_lt.mpr hoffset), if_pos hmiss, hs₁, hposition,
        blockPosition_eq hopen hlimit, loadBuffer_eq hopen hdisk]
      rfl
    · intro wr hwr
      have hwr' : wr ∈ (getBlockFid cfg s₁).writes := hwr
      rw [hwrites₂] at hwr'
      exact hsaving.writes wr hwr'
  · have hhit := hmiss
    push Not at hhit
    obtain ⟨⟨f, hf⟩, hcached⟩ := h.hit hlimit hhit.1
    refine ⟨{ s with lastBlock := some (u % cfg.buffers) }, ?_, ?_, .refl cfg a s⟩
    · simp only [block, if_neg (Nat.not_lt.mpr hoffset), if_neg hmiss]
    · have hstep : a.step cfg (.block u) = { a with last := some u } := by
        rw [Spec.step, hf.current, Option.getD_some, ← hf.current]
      rw [hstep]
      exact hcached

/-! ## Changing buffers -/

/-- The state after changing an assigned buffer -/
def changedState (s : State File) (i : Nat) (data : List Chr) : State File :=
  { s with buffer := Function.update s.buffer i { s.buffer i with data := data, dirty := true } }

omit [DecidableEq File] in
theorem change_eq (data : List Chr) (hlast : s.lastBlock = some i) :
    change s data = changedState s i data := by
  simp only [change, hlast, update, State.setBuffer, Function.update_self, Function.update_idem,
    changedState]

omit [DecidableEq File] in
theorem changedState_buffer_self (data : List Chr) :
    (changedState s i data).buffer i = { s.buffer i with data := data, dirty := true } :=
  Function.update_self _ _ _

omit [DecidableEq File] in
theorem changedState_buffer_of_ne (data : List Chr) (hj : j ≠ i) :
    (changedState s i data).buffer j = s.buffer j :=
  Function.update_of_ne hj _ _

/-- A written block has its new text. -/
theorem Spec.write_contents_self (a : Spec File) (f : File) (u : Nat) (data : List Chr) :
    (a.write cfg f u data).contents f (u - cfg.offset) = some data := by
  rw [Spec.write]
  simp only [Function.update_self]

/-- Other blocks are left as they are. -/
theorem Spec.write_contents_of_ne (a : Spec File) {f g : File} {u k : Nat} (data : List Chr)
    (hne : g ≠ f ∨ k ≠ u - cfg.offset) :
    (a.write cfg f u data).contents g k = a.contents g k := by
  rw [Spec.write]
  by_cases hgf : g = f
  · subst hgf
    simp only [Function.update_self]
    exact Function.update_of_ne (hne.resolve_left (fun h => h rfl)) _ _
  · simp only [Function.update_of_ne hgf]

/-- The changed buffer -/
theorem changedState_holds (hholds : Holds cfg s a i f) (hlen : data.length = cfg.charsPerBlock) :
    Holds cfg (changedState s i data) (a.write cfg f (s.buffer i).block data) i f := by
  have hbuffer : (changedState s i data).buffer i = _ := changedState_buffer_self data
  have hcontents : (a.write cfg f (s.buffer i).block data).contents f
      ((s.buffer i).block - cfg.offset) = some data := a.write_contents_self f _ data
  refine ⟨hholds.current, ?_, ?_, ?_, ?_, ?_, ?_, ?_⟩
  all_goals rw [hbuffer]
  · exact hholds.fid
  · exact hholds.offset_le
  · exact hholds.lt_blockLimit
  · exact hholds.index
  · exact hlen
  · intro d hd
    exact Option.some.inj (hcontents.symm.trans hd)
  · exact fun _ => hcontents

/-- The other buffers are assigned to other blocks. -/
theorem changedState_holds_of_ne {g : File} (hholds : Holds cfg s a i f) (hj : Holds cfg s a j g)
    (hne : j ≠ i) :
    Holds cfg (changedState s i data) (a.write cfg f (s.buffer i).block data) j g := by
  refine hj.of_buffer_eq hj.current (changedState_buffer_of_ne data hne) rfl ?_
  refine Spec.write_contents_of_ne a data (Or.inr ?_)
  intro hblock
  have hblocks : (s.buffer j).block = (s.buffer i).block := by
    have := hj.offset_le
    have := hholds.offset_le
    omega
  apply hne
  rw [← hj.index, hblocks, hholds.index]

/-- Changing an assigned buffer -/
theorem Cached.changedState (h : Cached cfg s a) (hi : i < cfg.buffers) (hholds : Holds cfg s a i f)
    (hlast : s.lastBlock = some i) (halast : a.last = some (s.buffer i).block)
    (hlen : data.length = cfg.charsPerBlock) :
    Cached cfg (changedState s i data) (a.write cfg f (s.buffer i).block data) := by
  have hself := changedState_holds hholds hlen
  refine ⟨?_, ?_, ?_, ?_, ?_, ?_, h.lastLt⟩
  · intro g hg
    obtain ⟨hne, hhandle, hcontent⟩ := h.file g hg
    exact ⟨hne, hhandle, hcontent⟩
  · exact h.noFile
  · intro j hj
    by_cases hji : j = i
    · subst hji
      exact Or.inr ⟨f, hself⟩
    · rcases h.buffer j hj with hfree | ⟨g, hg⟩
      · refine Or.inl ?_
        rw [Free, changedState_buffer_of_ne data hji]
        exact hfree
      · exact Or.inr ⟨g, changedState_holds_of_ne hholds hg hji⟩
  · intro g k d hd
    by_cases hk : g = f ∧ k = (s.buffer i).block - cfg.offset
    · obtain ⟨rfl, rfl⟩ := hk
      refine Or.inr ⟨i, hi, ?_, ?_, hself⟩
      · rw [changedState_buffer_self]
      · rw [changedState_buffer_self, Nat.sub_add_cancel hholds.offset_le]
    · rw [Spec.write_contents_of_ne a data (not_and_or.mp hk)] at hd
      rcases h.disk g k d hd with hdisk | ⟨j, hj, hdirty, hblock, hg⟩
      · exact Or.inl hdisk
      · have hji : j ≠ i := by
          rintro rfl
          apply hk
          exact ⟨Option.some.inj (hg.current.symm.trans hholds.current), by omega⟩
        refine Or.inr ⟨j, hj, ?_, ?_, changedState_holds_of_ne hholds hg hji⟩
        · rw [changedState_buffer_of_ne data hji]
          exact hdirty
        · rw [changedState_buffer_of_ne data hji]
          exact hblock
  · intro u hu
    obtain rfl := Option.some.inj (halast.symm.trans hu)
    exact ⟨i, hi, hlast, by rw [changedState_buffer_self], f, hself⟩
  · intro hnone
    cases halast.symm.trans hnone

/-- Changing the buffer that was returned last -/
theorem change_spec (h : Cached cfg s a) (hlen : data.length = cfg.charsPerBlock)
    (hassigned : s.Assigned cfg (.change data)) :
    Cached cfg (change s data) (a.step cfg (.change data)) ∧ (change s data).writes = s.writes := by
  cases hlast : a.last with
  | none =>
    -- No buffer was returned: the buffer returned last would be assigned.
    have hnone : s.lastBlock = none := by
      cases hs : s.lastBlock with
      | none => rfl
      | some i => exact absurd (h.noLast hlast i hs) (hassigned i hs)
    have hstep : a.step cfg (.change data) = a := by
      rw [Spec.step, hlast]
      cases a.current <;> rfl
    rw [hstep, change, hnone]
    exact ⟨h, rfl⟩
  | some u =>
    obtain ⟨i, hi, hs, rfl, f, hholds⟩ := h.last u hlast
    have hstep : a.step cfg (.change data) = a.write cfg f (s.buffer i).block data := by
      rw [Spec.step, hlast, hholds.current]
    rw [hstep, change_eq data hs]
    exact ⟨h.changedState hi hholds hs hlast hlen, rfl⟩

/-! ## Whole runs -/

/-- Every operation keeps the invariant. -/
theorem step_cached (h : Cached cfg s a) {op : Op File} (hvalid : op.Valid cfg)
    (hassigned : s.Assigned cfg op) :
    ∃ s', step cfg s op = .ok s' ∧ Cached cfg s' (a.step cfg op) ∧ NewWrites cfg a s s' := by
  cases op with
  | block u => exact block_spec h hvalid.1 hvalid.2
  | change data =>
    obtain ⟨hcached, hwrites⟩ := change_spec h hvalid hassigned
    refine ⟨change s data, rfl, hcached, ?_⟩
    intro wr hwr
    rw [hwrites] at hwr
    exact Or.inl hwr
  | saveBuffers =>
    obtain ⟨s', hs', hcached, hsaving, -⟩ := saveBuffers_range h (Nat.le_refl cfg.buffers)
    exact ⟨s', hs', hcached, hsaving.writes⟩
  | flush =>
    obtain ⟨s', hs', hflushed⟩ := flush_spec h
    exact ⟨s', hs', hflushed.cached, hflushed.writes⟩
  | openBlocks f => exact openBlocks_spec h f

/-- Every operation of a run is valid, and changes assigned buffers only. -/
def Meets (cfg : Config File) (s : State File) : List (Op File) → Prop
  | [] => True
  | op :: ops => op.Valid cfg ∧ s.Assigned cfg op ∧ ∀ s', step cfg s op = .ok s' → Meets cfg s' ops

/-- A run keeps the invariant. -/
theorem run_cached (h : Cached cfg s a) {ops : List (Op File)} (hmeets : Meets cfg s ops) :
    ∃ s', run cfg s ops = .ok s' ∧ Cached cfg s' (ops.foldl (Spec.step cfg) a) := by
  induction ops generalizing s a with
  | nil => exact ⟨s, rfl, h⟩
  | cons op ops ih =>
    obtain ⟨hvalid, hassigned, hrest⟩ := hmeets
    obtain ⟨s₁, hs₁, hcached, -⟩ := step_cached h hvalid hassigned
    obtain ⟨s₂, hs₂, hcached₂⟩ := ih hcached (hrest s₁ hs₁)
    refine ⟨s₂, ?_, hcached₂⟩
    rw [run, hs₁]
    exact hs₂

omit [DecidableEq File] in
/-- The invariant holds at the start. -/
theorem blockCold_cached (cfg : Config File) (disk : File → Option (List Chr)) :
    Cached cfg (blockCold cfg disk) (Spec.initial cfg disk) := by
  refine .of_allFree ?_ ?_ ?_ ?_ rfl ?_
  · exact fun j _ => ⟨rfl, rfl⟩
  · exact fun f k d hd => hd
  · intro f hf
    cases hf
  · exact fun _ => rfl
  · intro i hi
    cases hi

/-- The operations are possible, and only write what is expected of a block of the current file to
its place; {lit}`block` returns the expected contents; and {lit}`flush` puts all of them into the
files. -/
structure Transparent (cfg : Config File) (s : State File) (a : Spec File) : Prop where
  step : ∀ op : Op File, op.Valid cfg → s.Assigned cfg op →
    ∃ s', step cfg s op = .ok s' ∧ NewWrites cfg a s s'
  block : ∀ u, cfg.offset ≤ u → u < cfg.blockLimit → ∃ s' i, block cfg s u = .ok s' ∧
    s'.lastBlock = some i ∧ (s'.buffer i).data.length = cfg.charsPerBlock ∧
    ∀ d, a.contents (a.current.getD cfg.defaultFile) (u - cfg.offset) = some d →
      (s'.buffer i).data = d
  flush : ∃ s', flush cfg s = .ok s' ∧ OnDisk cfg s' a

/-- A cache that holds its invariant is transparent. -/
theorem Cached.transparent (h : Cached cfg s a) : Transparent cfg s a where
  step := by
    intro op hvalid hassigned
    obtain ⟨s', hs', -, hwrites⟩ := step_cached h hvalid hassigned
    exact ⟨s', hs', hwrites⟩
  block := by
    intro u hoffset hlimit
    obtain ⟨s', hs', hcached, -⟩ := block_spec h hoffset hlimit
    obtain ⟨i, -, hlast, hblock, f, hholds⟩ := hcached.last u rfl
    refine ⟨s', i, hs', hlast, hholds.length, ?_⟩
    intro d hd
    apply hholds.data d
    rw [hblock, ← Option.some.inj hholds.current]
    exact hd
  flush := by
    obtain ⟨s', hs', hflushed⟩ := flush_spec h
    exact ⟨s', hs', hflushed.onDisk⟩

/-- In all runs where {lit}`update` is not used after {lit}`flush` before the next
{lit}`block`, the buffers cannot be told from the files. -/
theorem run_transparent (cfg : Config File) (disk : File → Option (List Chr))
    (ops : List (Op File)) (hmeets : Meets cfg (blockCold cfg disk) ops) :
    ∃ s, run cfg (blockCold cfg disk) ops = .ok s ∧
      Transparent cfg s (ops.foldl (Spec.step cfg) (Spec.initial cfg disk)) := by
  obtain ⟨s, hs, hcached⟩ := run_cached (blockCold_cached cfg disk) hmeets
  exact ⟨s, hs, hcached.transparent⟩

/-- Two buffers of four characters, with numbers for the names of files -/
def smallConfig : Config Nat where
  charsPerBlock := 4
  buffers := 2
  offset := 0
  blockLimit := 100
  maxU := 18446744073709551615
  defaultFile := 0
  newFid := fun k fid => if k + 1 = fid then k + 2 else k + 1
  buffers_pos := Nat.succ_pos 1
  blockLimit_le := by decide
  newFid_ne_zero := by
    intro k fid
    split <;> omega
  newFid_ne := by
    intro k fid
    split <;> omega

/-- Two blocks that share a buffer, changed in two files -/
theorem run_transparent_small :
    ∃ s, run smallConfig (blockCold smallConfig fun _ => none)
        [.openBlocks 7, .block 1, .change [1#8, 2#8, 3#8, 4#8], .block 3, .flush,
          .openBlocks 8] = .ok s ∧
      Transparent smallConfig s
        ([.openBlocks 7, .block 1, .change [1#8, 2#8, 3#8, 4#8], .block 3, .flush,
          .openBlocks 8].foldl (Spec.step smallConfig)
            (Spec.initial smallConfig fun _ => none)) := by
  apply run_transparent
  refine ⟨trivial, trivial, ?_⟩
  rintro s ⟨⟩
  refine ⟨by decide, trivial, ?_⟩
  rintro s ⟨⟩
  refine ⟨by decide, ?_, ?_⟩
  · rintro i ⟨⟩
    decide
  rintro s ⟨⟩
  refine ⟨by decide, trivial, ?_⟩
  rintro s ⟨⟩
  refine ⟨trivial, trivial, ?_⟩
  rintro s ⟨⟩
  refine ⟨trivial, trivial, ?_⟩
  rintro s ⟨⟩
  trivial

/-- {lit}`1 block drop flush update 1 block`: the buffer that {lit}`update` marks is not assigned to
a block any more, and cannot be written. -/
theorem update_after_flush_throws :
    (∀ op ∈ ([.openBlocks 7, .block 1, .flush, .change [1#8, 2#8, 3#8, 4#8]] : List (Op Nat)),
      op.Valid smallConfig) ∧
    ∃ s, run smallConfig (blockCold smallConfig fun _ => none)
        [.openBlocks 7, .block 1, .flush, .change [1#8, 2#8, 3#8, 4#8]] = .ok s ∧
      block smallConfig s 1 = .error invalidBlock := by
  exact ⟨by decide, _, rfl, rfl⟩

end Blocks
end Gforth
