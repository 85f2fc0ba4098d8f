import Gforth.Blocks.Following

/-!
# Blocks files in blocks files

{lit}`block-included` makes another blocks file the current one without {lit}`flush`, and after the
load it closes the file first and uses {lit}`flush` then.  As {lit}`save-buffer` positions the
current file only, dirty buffers of the caller are written to wrong places during the load, and
dirty buffers that remain after the load cannot be written at all.

Main results:

- Theorem {lit}`Sim.run`: loaded code does not notice the clean buffers of the caller.
- Theorem {lit}`blockIncluded_iff`: a call without dirty buffers works if the load leaves none.
-/

namespace Gforth
namespace Blocks

open Lib

variable {File : Type} [DecidableEq File] (cfg : Config File)

/-! ## The word -/

/-- {lit}`1 load`: the interpreter asks for block 1, and {lit}`ops` is what the loaded code does,
with the interpreter asking for its block again. -/
def load (s : State File) (ops : List (Op File)) : Except Int (State File) :=
  run cfg s (.block 1 :: ops)

/-- {lit}`block-included` -/
def blockIncluded (s : State File) (f : File) (ops : List (Op File)) : Except Int (State File) :=
  let fid := s.blockFid
  match openBlocks cfg { s with blockFid := 0 } f with
  | .error ball => .error ball
  | .ok s =>
      match load cfg s ops with
      | .error ball => .error ball
      | .ok s =>
          match closeFile s s.blockFid with
          | .error ball => .error ball
          | .ok s =>
              match flush cfg s with
              | .error ball => .error ball
              | .ok s => .ok { s with blockFid := fid }

/-- Loading, changing and saving blocks of the current file -/
def Op.InFile : Op File → Prop
  | .openBlocks _ => False
  | _ => True

/-! ## Operations on files -/

variable {cfg} {s s' s'' t t' t'' : State File} {a : Spec File} {i : Nat} {f : File}

/-- The state with other buffers -/
def State.withBuffers (s : State File) (b : Nat → Buffer) : State File :=
  { s with buffer := b }

/-- What operations on files keep -/
structure Outside (s s' : State File) : Prop where
  buffer : s'.buffer = s.buffer
  blockFid : s'.blockFid = s.blockFid
  lastBlock : s'.lastBlock = s.lastBlock
  handle : ∀ fid, (s'.handle fid).map (·.file) = (s.handle fid).map (·.file)
  disk : ∀ g, (s.disk g).isSome → (s'.disk g).isSome

omit [DecidableEq File] in
/-- The position of a handle does not change its file. -/
theorem map_update_handle {handle : Nat → Option (Handle File)} {fid pos : Nat}
    {h : Handle File} (hh : handle fid = some h) (fid' : Nat) :
    (Function.update handle fid (some { h with pos }) fid').map (·.file) =
      (handle fid').map (·.file) := by
  by_cases heq : fid' = fid
  · rw [heq, Function.update_self, hh]
    rfl
  · rw [Function.update_of_ne heq]

omit [DecidableEq File] in
/-- {lit}`reposition-file` does not look at the buffers. -/
theorem repositionFile_outside {fid pos : Nat} (hok : repositionFile s fid pos = .ok s')
    (b : Nat → Buffer) :
    repositionFile (s.withBuffers b) fid pos = .ok (s'.withBuffers b) ∧ Outside s s' := by
  have hsame : (s.withBuffers b).handle = s.handle := rfl
  rw [repositionFile] at hok ⊢
  rw [hsame]
  cases hhandle : s.handle fid with
  | none =>
    rw [hhandle] at hok
    cases hok
  | some hd =>
    rw [hhandle] at hok
    cases hok
    exact ⟨rfl, rfl, rfl, rfl, map_update_handle hhandle, fun _ => id⟩

/-- {lit}`block-position` does not look at the buffers. -/
theorem blockPosition_outside (hfid : s.blockFid ≠ 0) {u : Nat}
    (hok : blockPosition cfg s u = .ok s') (b : Nat → Buffer) :
    blockPosition cfg (s.withBuffers b) u = .ok (s'.withBuffers b) ∧ Outside s s' := by
  have hfid' : (s.withBuffers b).blockFid ≠ 0 := hfid
  rw [blockPosition, getBlockFid_eq hfid] at hok
  rw [blockPosition, getBlockFid_eq hfid']
  split at hok
  · cases hok
  · rename_i hlimit
    rw [if_neg hlimit]
    exact repositionFile_outside hok b

/-- {lit}`write-file` does not look at the buffers. -/
theorem writeFile_outside {fid : Nat} {data : List Chr} (hok : writeFile s fid data = .ok s')
    (b : Nat → Buffer) :
    writeFile (s.withBuffers b) fid data = .ok (s'.withBuffers b) ∧ Outside s s' := by
  have hsame : (s.withBuffers b).handle = s.handle ∧ (s.withBuffers b).disk = s.disk := ⟨rfl, rfl⟩
  rw [writeFile] at hok ⊢
  rw [hsame.1, hsame.2]
  cases hhandle : s.handle fid with
  | none =>
    rw [hhandle] at hok
    cases hok
  | some hd =>
    rw [hhandle] at hok
    dsimp only at hok ⊢
    cases hdisk : s.disk hd.file with
    | none =>
      rw [hdisk] at hok
      cases hok
    | some content =>
      rw [hdisk] at hok
      cases hok
      refine ⟨rfl, rfl, rfl, rfl, map_update_handle hhandle, ?_⟩
      intro g hg
      by_cases heq : g = hd.file
      · subst heq
        simp
      · simpa [Function.update_of_ne heq] using hg

omit [DecidableEq File] in
/-- {lit}`read-file` does not look at the buffers. -/
theorem readFile_outside {fid n : Nat} {data : List Chr}
    (hok : readFile s fid n = .ok (data, s')) (b : Nat → Buffer) :
    readFile (s.withBuffers b) fid n = .ok (data, s'.withBuffers b) ∧ Outside s s' := by
  have hsame : (s.withBuffers b).handle = s.handle ∧ (s.withBuffers b).disk = s.disk := ⟨rfl, rfl⟩
  rw [readFile] at hok ⊢
  rw [hsame.1, hsame.2]
  split at hok
  · cases hok
  · rename_i hd hhandle
    split at hok
    · cases hok
    · rename_i content hdisk
      cases hok
      exact ⟨rfl, rfl, rfl, rfl, map_update_handle hhandle, fun _ => id⟩

/-! ## Clean buffers of another file -/

section Foreign

omit [DecidableEq File]

/-- A clean buffer that is assigned to a block of another file -/
def Foreign (s : State File) (i : Nat) : Prop :=
  (s.buffer i).dirty = false ∧ (s.buffer i).fid ≠ s.blockFid

/-- States that only differ in the block numbers of clean buffers of another file, which are not
assigned in the second state -/
structure Sim (cfg : Config File) (s t : State File) : Prop where
  eq : t = s.withBuffers t.buffer
  buffer : ∀ j, t.buffer j = s.buffer j ∨
    Foreign s j ∧ t.buffer j = { s.buffer j with block := cfg.maxU }

/-- The buffer that was returned last is the same. -/
def LastSame (s t : State File) : Prop :=
  ∀ i, s.lastBlock = some i → t.buffer i = s.buffer i

/-- What operations keep in such states -/
structure Keeps (cfg : Config File) (s t s' t' : State File) : Prop where
  sim : Sim cfg s' t'
  blockFid : s'.blockFid = s.blockFid
  last : LastSame s t → LastSame s' t'
  handle : ∀ fid, (s'.handle fid).map (·.file) = (s.handle fid).map (·.file)
  disk : ∀ g, (s.disk g).isSome → (s'.disk g).isSome
  same : ∀ j, t.buffer j = s.buffer j → t'.buffer j = s'.buffer j

theorem Keeps.refl (h : Sim cfg s t) : Keeps cfg s t s t :=
  ⟨h, rfl, id, fun _ => rfl, fun _ => id, fun _ => id⟩

/-- Two runs one behind the other -/
theorem Keeps.trans (h : Keeps cfg s t s' t') (h' : Keeps cfg s' t' s'' t'') :
    Keeps cfg s t s'' t'' where
  sim := h'.sim
  blockFid := h'.blockFid.trans h.blockFid
  last := h'.last ∘ h.last
  handle fid := (h'.handle fid).trans (h.handle fid)
  disk g hg := h'.disk g (h.disk g hg)
  same j hj := h'.same j (h.same j hj)

theorem Sim.blockFid (h : Sim cfg s t) : t.blockFid = s.blockFid := by
  rw [h.eq]
  rfl

theorem Sim.dirty (h : Sim cfg s t) (j : Nat) : (t.buffer j).dirty = (s.buffer j).dirty := by
  rcases h.buffer j with heq | ⟨-, heq⟩ <;> rw [heq]

/-- A buffer that is dirty is the same in both states. -/
theorem Sim.buffer_of_dirty (h : Sim cfg s t) (hdirty : (s.buffer i).dirty = true) :
    t.buffer i = s.buffer i := by
  rcases h.buffer i with heq | ⟨⟨hclean, -⟩, -⟩
  · exact heq
  · rw [hclean] at hdirty
    cases hdirty

/-- Words that do not look at the buffers -/
theorem Sim.outside (h : Sim cfg s t) (houtside : Outside s s') :
    Keeps cfg s t s' (s'.withBuffers t.buffer) where
  sim := by
    refine ⟨rfl, fun j => ?_⟩
    rw [Foreign, houtside.buffer, houtside.blockFid]
    exact h.buffer j
  blockFid := houtside.blockFid
  last hlast i hi := by
    rw [houtside.buffer]
    exact hlast i (houtside.lastBlock ▸ hi)
  handle := houtside.handle
  disk := houtside.disk
  same j hj := by
    rw [houtside.buffer]
    exact hj

theorem setBuffer_same {j : Nat} (b : Buffer) (h : t.buffer j = s.buffer j) :
    (t.setBuffer i b).buffer j = (s.setBuffer i b).buffer j := by
  by_cases hji : j = i
  · rw [hji]
    simp [State.setBuffer]
  · simpa [State.setBuffer, Function.update_of_ne hji] using h

/-- A buffer gets the same contents in both states. -/
theorem Sim.setBuffer (h : Sim cfg s t) (i : Nat) (b : Buffer) :
    Keeps cfg s t (s.setBuffer i b) (t.setBuffer i b) where
  sim := by
    refine ⟨?_, fun j => ?_⟩
    · conv_lhs => rw [h.eq]
      rfl
    · by_cases hj : j = i
      · left
        rw [hj]
        simp [State.setBuffer]
      · simpa [Foreign, State.setBuffer, Function.update_of_ne hj] using h.buffer j
  blockFid := rfl
  last hlast j hj := setBuffer_same b (hlast j hj)
  handle _ := rfl
  disk _ := id
  same _ := setBuffer_same b

end Foreign

/-- Assigning a buffer to the block file -/
theorem Sim.assignFid (h : Sim cfg s t) (hfid : s.blockFid ≠ 0)
    (hsame : t.buffer i = s.buffer i) :
    Keeps cfg s t (assignFid cfg s i) (assignFid cfg t i) := by
  have hfid' : t.blockFid ≠ 0 := h.blockFid ▸ hfid
  rw [Blocks.assignFid, Blocks.assignFid, getBlockFid_eq hfid, getBlockFid_eq hfid']
  dsimp only
  rw [hsame, h.blockFid]
  split
  · exact h.setBuffer i _
  · exact .refl h

/-- {lit}`save-buffer` of the same buffer in both states -/
theorem Sim.saveBuffer (h : Sim cfg s t) (hfid : s.blockFid ≠ 0)
    (hok : saveBuffer cfg s i = .ok s') :
    ∃ t', saveBuffer cfg t i = .ok t' ∧ Keeps cfg s t s' t' := by
  rcases saveBuffer_cases hok with ⟨hclean, rfl⟩ | ⟨hdirty, s₁, s₂, hposition, hwrite, rfl⟩
  · exact ⟨t, saveBuffer_clean ((h.dirty i).trans hclean), .refl h⟩
  · have hassign := h.assignFid hfid (h.buffer_of_dirty hdirty)
    have hsame := hassign.same i (h.buffer_of_dirty hdirty)
    obtain ⟨hposition', houtside₁⟩ := blockPosition_outside (hassign.blockFid ▸ hfid) hposition
      (Blocks.assignFid cfg t i).buffer
    obtain ⟨hwrite', houtside₂⟩ := writeFile_outside hwrite (Blocks.assignFid cfg t i).buffer
    rw [← hassign.sim.eq, ← hsame] at hposition'
    rw [houtside₁.buffer, ← hsame] at hwrite'
    have hkeeps₁ := hassign.trans (hassign.sim.outside houtside₁)
    have hkeeps₂ := hkeeps₁.trans (hkeeps₁.sim.outside houtside₂)
    refine ⟨_, ?_, hkeeps₂.trans (hkeeps₂.sim.setBuffer i _)⟩
    rw [Blocks.saveBuffer, if_pos ((h.dirty i).trans hdirty)]
    dsimp only
    rw [hposition']
    dsimp only [State.withBuffers] at hwrite' ⊢
    rw [hwrite']
    dsimp only
    rw [houtside₂.buffer, houtside₁.buffer, ← hsame]

/-- Saving some buffers -/
theorem Sim.saveBuffer_foldlM (h : Sim cfg s t) (hfid : s.blockFid ≠ 0) {l : List Nat}
    (hok : l.foldlM (Blocks.saveBuffer cfg) s = .ok s') :
    ∃ t', l.foldlM (Blocks.saveBuffer cfg) t = .ok t' ∧ Keeps cfg s t s' t' := by
  induction l generalizing s t with
  | nil =>
      cases hok
      exact ⟨t, rfl, .refl h⟩
  | cons i l ih =>
      rw [List.foldlM_cons] at hok ⊢
      cases hsave : Blocks.saveBuffer cfg s i with
      | error ball =>
          rw [hsave] at hok
          cases hok
      | ok s₁ =>
          rw [hsave] at hok
          obtain ⟨t₁, hsave', hkeeps₁⟩ := h.saveBuffer hfid hsave
          obtain ⟨t', hok', hkeeps'⟩ := ih hkeeps₁.sim (hkeeps₁.blockFid ▸ hfid) hok
          refine ⟨t', ?_, hkeeps₁.trans hkeeps'⟩
          rw [hsave']
          exact hok'

omit [DecidableEq File] in
/-- {lit}`empty-buffers` in both states -/
theorem Sim.emptyBuffers (h : Sim cfg s t) :
    Keeps cfg s t (emptyBuffers cfg s) (emptyBuffers cfg t) := by
  rw [emptyBuffers_eq, emptyBuffers_eq]
  refine ⟨⟨?_, fun j => ?_⟩, rfl, fun hlast j hj => ?_, fun _ => rfl, fun _ => id,
    fun j hj => ?_⟩
  · conv_lhs => rw [h.eq]
    rfl
  · dsimp only [Foreign]
    split
    · left
      rcases h.buffer j with heq | ⟨-, heq⟩ <;> rw [heq]
    · exact h.buffer j
  · dsimp only
    rw [hlast j hj]
  · dsimp only
    rw [hj]

/-- {lit}`flush` in both states -/
theorem Sim.flush (h : Sim cfg s t) (hfid : s.blockFid ≠ 0) (hok : flush cfg s = .ok s') :
    ∃ t', flush cfg t = .ok t' ∧ Keeps cfg s t s' t' := by
  rw [Blocks.flush, saveBuffers] at hok
  split at hok
  · cases hok
  · rename_i s₁ hsave
    cases hok
    obtain ⟨t₁, hsave', hkeeps⟩ := h.saveBuffer_foldlM hfid hsave
    refine ⟨Blocks.emptyBuffers cfg t₁, ?_, hkeeps.trans hkeeps.sim.emptyBuffers⟩
    rw [Blocks.flush, saveBuffers, hsave']

/-- A block is read into the same buffer in both states. -/
theorem Sim.loadBuffer (h : Sim cfg s t) (hfid : s.blockFid ≠ 0) {u : Nat}
    (hok : loadBuffer cfg s u i = .ok s') :
    ∃ t', loadBuffer cfg t u i = .ok t' ∧ Keeps cfg s t s' t' ∧ t'.buffer i = s'.buffer i := by
  have hfid' : t.blockFid ≠ 0 := h.blockFid ▸ hfid
  rw [Blocks.loadBuffer, getBlockFid_eq hfid] at hok
  rw [Blocks.loadBuffer, getBlockFid_eq hfid']
  dsimp only at hok ⊢
  split at hok
  · cases hok
  · rename_i data s₁ hread
    obtain ⟨hread', houtside⟩ := readFile_outside hread t.buffer
    have hfid₁ : s₁.blockFid ≠ 0 := houtside.blockFid ▸ hfid
    have hkeeps := h.outside houtside
    rw [← h.eq, ← h.blockFid] at hread'
    cases hok
    rw [hread']
    have hdirty := hkeeps.sim.dirty i
    dsimp only
    rw [getBlockFid_eq hfid₁, getBlockFid_eq (show (s₁.withBuffers t.buffer).blockFid ≠ 0 from hfid₁),
      hdirty]
    exact ⟨_, rfl, hkeeps.trans (hkeeps.sim.setBuffer i _), by simp [State.setBuffer]; rfl⟩

/-- {lit}`block` in both states; the buffer that it returns is the same afterwards. -/
theorem Sim.block (h : Sim cfg s t) (hfid : s.blockFid ≠ 0) {u : Nat}
    (hok : block cfg s u = .ok s') :
    ∃ t', block cfg t u = .ok t' ∧ Keeps cfg s t s' t' ∧ LastSame s' t' := by
  have hreturn : ∀ {s₁ t₁ : State File} (k : Nat), Sim cfg s₁ t₁ → t₁.buffer k = s₁.buffer k →
      Keeps cfg s₁ t₁ { s₁ with lastBlock := some k } { t₁ with lastBlock := some k } ∧
        LastSame { s₁ with lastBlock := some k } { t₁ with lastBlock := some k } := by
    intro s₁ t₁ k hsim hsame
    have hlast : LastSame { s₁ with lastBlock := some k } { t₁ with lastBlock := some k } := by
      rintro i ⟨⟩
      exact hsame
    refine ⟨⟨⟨?_, hsim.buffer⟩, rfl, fun _ => hlast, fun _ => rfl, fun _ => id, fun _ => id⟩, hlast⟩
    conv_lhs => rw [hsim.eq]
    rfl
  obtain ⟨hoffset, ⟨hblock, hbfid, rfl⟩ | ⟨hmiss, s₁, s₂, s₃, hsave, hposition, hload, rfl⟩⟩ :=
    block_cases hok
  · -- the buffer belongs to the current file
    have hsame : t.buffer (u % cfg.buffers) = s.buffer (u % cfg.buffers) := by
      rcases h.buffer (u % cfg.buffers) with heq | ⟨⟨-, hforeign⟩, -⟩
      · exact heq
      · exact absurd hbfid hforeign
    refine ⟨_, ?_, hreturn _ h hsame⟩
    rw [Blocks.block, if_neg (Nat.not_lt.mpr hoffset)]
    dsimp only
    rw [if_neg]
    rw [hsame, h.blockFid]
    exact not_or.mpr ⟨not_not.mpr hblock, not_not.mpr hbfid⟩
  · have hmiss' : (t.buffer (u % cfg.buffers)).block ≠ u ∨
        (t.buffer (u % cfg.buffers)).fid ≠ t.blockFid := by
      rw [h.blockFid]
      rcases h.buffer (u % cfg.buffers) with heq | ⟨⟨-, hforeign⟩, heq⟩
      · rw [heq]
        exact hmiss
      · rw [heq]
        exact .inr hforeign
    obtain ⟨t₁, hsave', hkeeps₁⟩ := h.saveBuffer hfid hsave
    have hfid₁ : s₁.blockFid ≠ 0 := hkeeps₁.blockFid ▸ hfid
    obtain ⟨hposition', houtside⟩ := blockPosition_outside hfid₁ hposition t₁.buffer
    rw [← hkeeps₁.sim.eq] at hposition'
    have hkeeps₂ := hkeeps₁.trans (hkeeps₁.sim.outside houtside)
    obtain ⟨t₃, hload', hkeeps₃, hsame⟩ :=
      hkeeps₂.sim.loadBuffer (hkeeps₂.blockFid ▸ hfid) hload
    obtain ⟨hkeeps', hlast⟩ := hreturn (u % cfg.buffers) hkeeps₃.sim hsame
    refine ⟨_, ?_, (hkeeps₂.trans hkeeps₃).trans hkeeps', hlast⟩
    rw [Blocks.block, if_neg (Nat.not_lt.mpr hoffset)]
    dsimp only
    rw [if_pos hmiss', hsave']
    dsimp only
    rw [hposition']
    dsimp only
    rw [hload']

omit [DecidableEq File] in
/-- Changing the last block in both states -/
theorem Sim.change (h : Sim cfg s t) (hlast : LastSame s t) (data : List Chr) :
    Keeps cfg s t (change s data) (change t data) := by
  have hsame : t.lastBlock = s.lastBlock := by
    rw [h.eq]
    rfl
  cases hl : s.lastBlock with
  | none =>
      rw [Blocks.change, Blocks.change, hsame, hl]
      exact .refl h
  | some i =>
      rw [change_eq data hl, change_eq data (hsame.trans hl), changedState, changedState,
        hlast i hl]
      exact h.setBuffer i _

/-- Operations on the current file do not notice the buffers of another file. -/
theorem Sim.step (h : Sim cfg s t) (hlast : LastSame s t) (hfid : s.blockFid ≠ 0) {op : Op File}
    (hop : op.InFile) (hok : step cfg s op = .ok s') :
    ∃ t', step cfg t op = .ok t' ∧ Keeps cfg s t s' t' := by
  cases op with
  | block u =>
      obtain ⟨t', hok', hkeeps, -⟩ := h.block hfid hok
      exact ⟨t', hok', hkeeps⟩
  | change data =>
      cases hok
      exact ⟨_, rfl, h.change hlast data⟩
  | saveBuffers => exact h.saveBuffer_foldlM hfid hok
  | flush => exact h.flush hfid hok
  | openBlocks f => cases hop

variable {ops : List (Op File)}

/-- A run of the included file in both states -/
theorem Sim.run (h : Sim cfg s t) (hlast : LastSame s t) (hfid : s.blockFid ≠ 0)
    (hops : ∀ op ∈ ops, op.InFile) (hok : run cfg s ops = .ok s') :
    ∃ t', run cfg t ops = .ok t' ∧ Keeps cfg s t s' t' := by
  induction ops generalizing s t with
  | nil =>
      cases hok
      exact ⟨t, rfl, .refl h⟩
  | cons op ops ih =>
      rw [Blocks.run] at hok ⊢
      split at hok
      · cases hok
      · rename_i s₁ hstep
        obtain ⟨t₁, hstep', hkeeps₁⟩ := h.step hlast hfid (hops op List.mem_cons_self) hstep
        obtain ⟨t', hok', hkeeps'⟩ := ih hkeeps₁.sim (hkeeps₁.last hlast) (hkeeps₁.blockFid ▸ hfid)
          (fun op' hop' => hops op' (List.mem_cons_of_mem _ hop')) hok
        rw [hstep']
        exact ⟨t', hok', hkeeps₁.trans hkeeps'⟩

/-- The interpreter asks for block 1 before the loaded code changes a buffer. -/
theorem Sim.load (h : Sim cfg s t) (hfid : s.blockFid ≠ 0) (hops : ∀ op ∈ ops, op.InFile)
    (hok : load cfg s ops = .ok s') : ∃ t', load cfg t ops = .ok t' ∧ Keeps cfg s t s' t' := by
  rw [Blocks.load, Blocks.run] at hok
  split at hok
  · cases hok
  · rename_i s₁ hstep
    obtain ⟨t₁, hstep', hkeeps₁, hlast⟩ := h.block hfid hstep
    obtain ⟨t', hok', hkeeps'⟩ := hkeeps₁.sim.run hlast (hkeeps₁.blockFid ▸ hfid) hops hok
    refine ⟨t', ?_, hkeeps₁.trans hkeeps'⟩
    rw [Blocks.load, Blocks.run]
    rw [show Blocks.step cfg t (.block 1) = .ok t₁ from hstep']
    exact hok'

/-! ## Closed files -/

omit [DecidableEq File] in
theorem repositionFile_closed {fid pos : Nat} (hclosed : s.handle fid = none) :
    repositionFile s fid pos = .error ioError := by
  rw [repositionFile, hclosed]

/-- The position of a closed file cannot be set. -/
theorem blockPosition_closed (hfid : s.blockFid ≠ 0) (hclosed : s.handle s.blockFid = none)
    (u : Nat) : blockPosition cfg s u ≠ .ok s' := by
  rw [blockPosition, getBlockFid_eq hfid]
  split
  · simp
  · rw [repositionFile_closed hclosed]
    simp

/-- A dirty buffer of a closed file cannot be saved. -/
theorem saveBuffer_closed (hfid : s.blockFid ≠ 0) (hclosed : s.handle s.blockFid = none)
    (hdirty : (s.buffer i).dirty = true) : saveBuffer cfg s i ≠ .ok s' := by
  intro hok
  rcases saveBuffer_cases hok with ⟨hclean, -⟩ | ⟨-, s₁, -, hposition, -⟩
  · rw [hclean] at hdirty
    cases hdirty
  · refine blockPosition_closed ?_ ?_ _ hposition
    all_goals
      rw [assignFid, getBlockFid_eq hfid]
      split
    all_goals assumption

/-- Clean buffers are saved without a write. -/
theorem saveBuffer_foldlM_clean {l : List Nat} (hclean : ∀ i ∈ l, (s.buffer i).dirty = false) :
    l.foldlM (saveBuffer cfg) s = .ok s := by
  induction l with
  | nil => rfl
  | cons i l ih =>
      rw [List.foldlM_cons, saveBuffer_clean (hclean i List.mem_cons_self)]
      exact ih fun j hj => hclean j (List.mem_cons_of_mem _ hj)

theorem flush_clean (hclean : s.Clean cfg) : flush cfg s = .ok (emptyBuffers cfg s) := by
  rw [flush, saveBuffers, saveBuffer_foldlM_clean fun i hi => hclean i (List.mem_range.mp hi)]

/-- Dirty buffers cannot be flushed after the file has been closed. -/
theorem flush_closed (hfid : s.blockFid ≠ 0) (hclosed : s.handle s.blockFid = none)
    (hdirty : ¬s.Clean cfg) : flush cfg s ≠ .ok s' := by
  have hfold : ∀ l : List Nat, (∃ i ∈ l, (s.buffer i).dirty = true) → ∀ s₁,
      l.foldlM (saveBuffer cfg) s ≠ .ok s₁ := by
    intro l
    induction l with
    | nil => simp
    | cons j l ih =>
        rintro ⟨i, hi, hdirty⟩ s₁
        rw [List.foldlM_cons]
        by_cases hj : (s.buffer j).dirty = true
        · cases hsave : saveBuffer cfg s j with
          | error ball => simp [bind, Except.bind]
          | ok s₂ => exact absurd hsave (saveBuffer_closed hfid hclosed hj)
        · rw [saveBuffer_clean (by simpa using hj)]
          have hne : i ≠ j := by
            rintro rfl
            exact hj hdirty
          exact ih ⟨i, (List.mem_cons.mp hi).resolve_left hne, hdirty⟩ s₁
  rw [State.Clean] at hdirty
  push Not at hdirty
  obtain ⟨i, hi, hne⟩ := hdirty
  rw [flush, saveBuffers]
  split
  · simp
  · rename_i s₁ hsave
    exact absurd hsave (hfold _ ⟨i, List.mem_range.mpr hi, by simpa using hne⟩ s₁)

/-! ## Calls -/

/-- What is expected of blocks after the load -/
def Spec.included (cfg : Config File) (a : Spec File) (f : File) (ops : List (Op File)) :
    Spec File :=
  (.block 1 :: ops).foldl (Spec.follow cfg) { a with current := some f, last := none }

/-- The blocks of the caller's file and of the included file after a call: the current file is the
caller's again, which is open, and the expected blocks are in the files, are returned by
{lit}`block`, and are kept by {lit}`flush`.  Operations on closed files throw. -/
structure Restored (cfg : Config File) (s : State File) (a : Spec File) (f : File)
    (ops : List (Op File)) (s' : State File) : Prop where
  blockFid : s'.blockFid = s.blockFid
  file : ∀ g, a.current = some g → FileOpen s' g
  stored : OnDisk cfg s' (a.included cfg f ops)
  caller : ∀ g, g ≠ f → (a.included cfg f ops).contents g = a.contents g
  transparent : Transparent cfg s'
    { current := a.current, contents := (a.included cfg f ops).contents, last := none }

/-- A call that works -/
def Restores (cfg : Config File) (s : State File) (a : Spec File) (f : File)
    (ops : List (Op File)) : Prop :=
  ∃ s', blockIncluded cfg s f ops = .ok s' ∧ Restored cfg s a f ops s'

/-- Loaded code changes blocks of the included file. -/
theorem follow_inFile (cfg : Config File) (hcurrent : a.current = some f) {op : Op File}
    (hop : op.InFile) :
    (a.follow cfg op).current = some f ∧
      ∀ g, g ≠ f → (a.follow cfg op).contents g = a.contents g := by
  cases op with
  | block u =>
      rw [Spec.follow]
      split
      · exact ⟨by rw [Spec.step, hcurrent]; rfl, fun _ _ => rfl⟩
      · exact ⟨hcurrent, fun _ _ => rfl⟩
  | change data =>
      rw [show a.follow cfg (.change data) = a.step cfg (.change data) from rfl, Spec.step, hcurrent]
      cases a.last with
      | none => exact ⟨hcurrent, fun _ _ => rfl⟩
      | some u => exact ⟨hcurrent, fun g hg => Function.update_of_ne hg _ _⟩
  | saveBuffers | flush => exact ⟨hcurrent, fun _ _ => rfl⟩
  | openBlocks f => cases hop

/-- The included file writes its own blocks only. -/
theorem foldl_follow_inFile (hcurrent : a.current = some f) (hops : ∀ op ∈ ops, op.InFile) :
    ∀ g, g ≠ f → (ops.foldl (Spec.follow cfg) a).contents g = a.contents g := by
  induction ops generalizing a with
  | nil => exact fun _ _ => rfl
  | cons op ops ih =>
      intro g hg
      obtain ⟨hcurrent', hcontents⟩ := follow_inFile cfg hcurrent (hops op List.mem_cons_self)
      rw [List.foldl_cons, ih hcurrent' (fun op' hop' => hops op' (List.mem_cons_of_mem _ hop')) g hg,
        hcontents g hg]

/-- The state in which {lit}`block-included` loads -/
def opened (cfg : Config File) (s : State File) (f : File) : State File :=
  { (openFile cfg { s with blockFid := 0 } f).2 with blockFid := cfg.newFid s.opens 0 }

theorem openBlocks_eq_opened (s : State File) (f : File) :
    openBlocks cfg { s with blockFid := 0 } f = .ok (opened cfg s f) :=
  rfl

/-- The included file with empty buffers -/
theorem opened_cached (h : Cached cfg s a) (hclean : s.Clean cfg) (f : File) :
    Cached cfg (emptyBuffers cfg (opened cfg s f)) { a with current := some f, last := none } := by
  rw [emptyBuffers_eq]
  refine .of_allFree ?_ ?_ ?_ ?_ rfl h.lastLt
  · intro j hj
    simp [Free, hj]
  · exact fun g k d hd => diskBlock_openFile (h.onDisk hclean g k d hd)
  · rintro _ ⟨⟩
    exact ⟨cfg.newFid_ne_zero _ _, ⟨0, Function.update_self _ _ _⟩, ⟨_, Function.update_self _ _ _⟩⟩
  · rintro ⟨⟩

/-- The loaded code does not notice the buffers of the caller. -/
theorem opened_sim (h : Cached cfg s a) (hclean : s.Clean cfg) (f : File)
    (hfid : cfg.newFid s.opens 0 ≠ s.blockFid) :
    Sim cfg (opened cfg s f) (emptyBuffers cfg (opened cfg s f)) := by
  rw [emptyBuffers_eq]
  refine ⟨rfl, fun j => ?_⟩
  dsimp only
  split
  · rename_i hj
    have hdirty : ((opened cfg s f).buffer j).dirty = false := hclean j hj
    rw [← hdirty]
    rcases h.buffer j hj with hfree | ⟨g, hholds⟩
    · left
      have hblock : ((opened cfg s f).buffer j).block = cfg.maxU := hfree.1
      rw [← hblock]
    · refine .inr ⟨⟨hdirty, ?_⟩, rfl⟩
      change (s.buffer j).fid ≠ cfg.newFid s.opens 0
      rw [hholds.fid]
      exact hfid.symm
  · exact .inl rfl

/-- The current file is closed. -/
def State.closed (s : State File) : State File :=
  { s with handle := Function.update s.handle s.blockFid none }

/-- The included file is closed after the load. -/
theorem blockIncluded_eq {h : Handle File} (hload : load cfg (opened cfg s f) ops = .ok s')
    (hhandle : s'.handle s'.blockFid = some h) :
    blockIncluded cfg s f ops =
      match flush cfg s'.closed with
      | .error ball => .error ball
      | .ok s₁ => .ok { s₁ with blockFid := s.blockFid } := by
  rw [blockIncluded, openBlocks_eq_opened]
  dsimp only
  rw [hload]
  dsimp only
  rw [closeFile, hhandle]
  rfl

/-- The state after a call that works -/
def returned (cfg : Config File) (s' : State File) (fid : Nat) : State File :=
  { emptyBuffers cfg s'.closed with blockFid := fid }

omit [DecidableEq File] in
theorem returned_disk (fid : Nat) : (returned cfg s' fid).disk = s'.disk := by
  rw [returned, emptyBuffers_eq]
  rfl

omit [DecidableEq File] in
theorem returned_handle (fid : Nat) :
    (returned cfg s' fid).handle = Function.update s'.handle s'.blockFid none := by
  rw [returned, emptyBuffers_eq]
  rfl

omit [DecidableEq File] in
theorem returned_lastBlock (fid : Nat) : (returned cfg s' fid).lastBlock = s'.lastBlock := by
  rw [returned, emptyBuffers_eq]
  rfl

/-- The block file is restored behind the included file. -/
theorem returned_restored (hcached : Cached cfg s a) (hfid : cfg.newFid s.opens 0 ≠ s.blockFid)
    (hops : ∀ op ∈ ops, op.InFile) (hkeeps : Keeps cfg (opened cfg s f) t s' t')
    (ht' : Cached cfg t' (a.included cfg f ops)) (hclean : t'.Clean cfg) :
    Restored cfg s a f ops (returned cfg s' s.blockFid) := by
  have hdisk : t'.disk = s'.disk := by
    rw [hkeeps.sim.eq]
    rfl
  have hlastBlock : t'.lastBlock = s'.lastBlock := by
    rw [hkeeps.sim.eq]
    rfl
  have hstored : OnDisk cfg (returned cfg s' s.blockFid) (a.included cfg f ops) := by
    intro g k d hd
    rw [returned_disk, ← hdisk]
    exact ht'.onDisk hclean g k d hd
  have hfile : ∀ g, a.current = some g → FileOpen (returned cfg s' s.blockFid) g := by
    intro g hg
    obtain ⟨hne, ⟨pos, hhandle⟩, ⟨content, hcontent⟩⟩ := hcached.file g hg
    refine ⟨hne, ?_, ?_⟩
    · have hcaller : (opened cfg s f).handle s.blockFid = some ⟨g, pos⟩ :=
        (Function.update_of_ne hfid.symm _ _).trans hhandle
      have hkept := hkeeps.handle s.blockFid
      rw [hcaller] at hkept
      obtain ⟨⟨_, pos'⟩, hs', rfl⟩ := Option.map_eq_some_iff.mp hkept
      refine ⟨pos', ?_⟩
      rw [returned_handle, hkeeps.blockFid]
      exact (Function.update_of_ne hfid.symm _ _).trans hs'
    · have hsome : ((opened cfg s f).disk g).isSome := by
        change (Function.update s.disk f _ g).isSome
        by_cases hgf : g = f
        · simp [hgf]
        · simp [Function.update_of_ne hgf, hcontent]
      rw [returned_disk]
      exact Option.isSome_iff_exists.mp (hkeeps.disk g hsome)
  refine ⟨rfl, hfile, hstored, ?_, Cached.transparent (.of_allFree ?_ hstored hfile ?_ rfl ?_)⟩
  · refine foldl_follow_inFile rfl fun op hop => ?_
    rcases List.mem_cons.mp hop with rfl | hop
    · trivial
    · exact hops op hop
  · intro j hj
    rw [returned, emptyBuffers_eq]
    simp [Free, hj]
  · exact hcached.noFile
  · rw [returned_lastBlock, ← hlastBlock]
    exact ht'.lastLt

/-- A call without dirty buffers works exactly if the load leaves no dirty buffers. -/
theorem blockIncluded_iff (cfg : Config File) (disk : File → Option (List Chr))
    (before : List (Op File)) (s : State File) (hs : run cfg (blockCold cfg disk) before = .ok s)
    (hbefore : ∀ op ∈ before, op.Fits cfg) (hclean : s.Clean cfg) (f : File)
    (hfid : cfg.newFid s.opens 0 ≠ s.blockFid) (ops : List (Op File))
    (hfits : ∀ op ∈ ops, op.Fits cfg) (hops : ∀ op ∈ ops, op.InFile) (s' : State File)
    (hload : load cfg (opened cfg s f) ops = .ok s') :
    Restores cfg s (before.foldl (Spec.follow cfg) (Spec.initial cfg disk)) f ops ↔
      s'.Clean cfg := by
  have hcached := run_follows (blockCold_cached cfg disk) hbefore hs hclean
  generalize before.foldl (Spec.follow cfg) (Spec.initial cfg disk) = a at hcached ⊢
  have hsim := opened_sim hcached hclean f hfid
  have hne : (opened cfg s f).blockFid ≠ 0 := cfg.newFid_ne_zero _ _
  obtain ⟨t', hload', hkeeps⟩ := hsim.load hne hops hload
  -- the included file is still open
  have hopen := hkeeps.handle (opened cfg s f).blockFid
  rw [show (opened cfg s f).handle (opened cfg s f).blockFid = some ⟨f, 0⟩ from
    Function.update_self _ _ _, ← hkeeps.blockFid] at hopen
  obtain ⟨h, hhandle, -⟩ := Option.map_eq_some_iff.mp hopen
  rw [Restores, blockIncluded_eq hload hhandle]
  constructor
  · rintro ⟨s'', hok, -⟩
    by_contra hdirty
    split at hok
    · cases hok
    · rename_i s₁ hflush
      have hne' : s'.closed.blockFid ≠ 0 := hkeeps.blockFid ▸ hne
      have hclosed : s'.closed.handle s'.closed.blockFid = none := Function.update_self _ _ _
      exact flush_closed hne' hclosed hdirty hflush
  · intro hclean'
    have hclean_t : t'.Clean cfg := fun i hi => (hkeeps.sim.dirty i).trans (hclean' i hi)
    have ht' : Cached cfg t' (a.included cfg f ops) := by
      refine run_follows (opened_cached hcached hclean f) (fun op hop => ?_) hload' hclean_t
      rcases List.mem_cons.mp hop with rfl | hop
      · trivial
      · exact hfits op hop
    have hclosed : s'.closed.Clean cfg := hclean'
    rw [flush_clean hclosed]
    exact ⟨_, rfl, returned_restored hcached hfid hops hkeeps ht' hclean_t⟩

/-- A block of the caller's file and one of the included file, both saved -/
theorem blockIncluded_saved :
    ∃ s s', run smallConfig (blockCold smallConfig fun _ => none)
        [.openBlocks 7, .block 1, .change [1#8, 2#8, 3#8, 4#8], .saveBuffers] = .ok s ∧
      load smallConfig (opened smallConfig s 8) [.change [5#8, 6#8, 7#8, 8#8], .flush] = .ok s' ∧
      (Restores smallConfig s
        ([.openBlocks 7, .block 1, .change [1#8, 2#8, 3#8, 4#8], .saveBuffers].foldl
          (Spec.follow smallConfig) (Spec.initial smallConfig fun _ => none))
        8 [.change [5#8, 6#8, 7#8, 8#8], .flush] ↔ s'.Clean smallConfig) := by
  refine ⟨_, _, rfl, rfl, blockIncluded_iff smallConfig _ _ _ rfl ?_ ?_ 8 ?_ _ ?_ ?_ _ rfl⟩
  · simp [Op.Fits, smallConfig]
  · unfold State.Clean
    decide
  · decide
  · simp [Op.Fits, smallConfig]
  · simp [Op.InFile]

/-- A dirty buffer of the caller is written to the place of block 2 instead of block 1, and a dirty
buffer of the included file cannot be written. -/
theorem not_restores :
    (∃ s s', run smallConfig (blockCold smallConfig fun _ => none)
        [.openBlocks 7, .block 1, .change [1#8, 2#8, 3#8, 4#8], .block 2] = .ok s ∧
      load smallConfig (opened smallConfig s 8) [] = .ok s' ∧
      ¬Restores smallConfig s
        ([.openBlocks 7, .block 1, .change [1#8, 2#8, 3#8, 4#8], .block 2].foldl
          (Spec.follow smallConfig) (Spec.initial smallConfig fun _ => none)) 8 []) ∧
    ∃ s s', run smallConfig (blockCold smallConfig fun _ => none) [.openBlocks 7] = .ok s ∧
      load smallConfig (opened smallConfig s 8) [.change [5#8, 6#8, 7#8, 8#8]] = .ok s' ∧
      blockIncluded smallConfig s 8 [.change [5#8, 6#8, 7#8, 8#8]] = .error ioError := by
  refine ⟨⟨_, _, rfl, rfl, ?_⟩, _, _, rfl, rfl, rfl⟩
  rintro ⟨s', hok, hrestored⟩
  have hstored := hrestored.stored 7 1 [1#8, 2#8, 3#8, 4#8] rfl
  cases hok
  exact absurd hstored (by decide)

end Blocks
end Gforth
