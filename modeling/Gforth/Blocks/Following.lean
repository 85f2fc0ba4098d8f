import Gforth.Blocks.Cache

/-!
# Runs that end without dirty buffers

A buffer that {lit}`update` marks while it is not assigned can never be saved.  So all changes are
made to assigned buffers in a run that ends without dirty buffers, and the buffers are a cache.

Main results:

- Theorem {lit}`StuckAt.run`: a changed buffer that is not assigned stays.
- Theorem {lit}`run_follows`: the invariant of the buffers after such runs.
-/

namespace Gforth
namespace Blocks

open Lib

variable {File : Type} [DecidableEq File] (cfg : Config File)

/-- Data fit a buffer. -/
def Op.Fits : Op File → Prop
  | .change data => data.length = cfg.charsPerBlock
  | _ => True

/-- No buffer has to be written. -/
def State.Clean (s : State File) : Prop :=
  ∀ i, i < cfg.buffers → (s.buffer i).dirty = false

/-- What an operation that does not throw does: {lit}`block` can also return a buffer that is not
assigned, for the number in such buffers. -/
def Spec.follow (a : Spec File) : Op File → Spec File
  | .block u =>
      if cfg.offset ≤ u ∧ u < cfg.blockLimit then a.step cfg (.block u) else { a with last := none }
  | op => a.step cfg op

/-- A buffer that is changed, but not assigned -/
def StuckAt (s : State File) (i : Nat) : Prop :=
  (s.buffer i).dirty = true ∧ (s.buffer i).block = cfg.maxU

variable {cfg} {s s' t t' : State File} {a a' : Spec File} {i j : Nat} {f : File}

theorem getBlockFid_buffer (s : State File) : (getBlockFid cfg s).buffer = s.buffer := by
  rw [getBlockFid]
  split <;> rfl

/-- A block is in the range of its file, and no buffer changes. -/
theorem blockPosition_buffer {u : Nat} (h : blockPosition cfg s u = .ok s') :
    s'.buffer = s.buffer ∧ u < cfg.blockLimit := by
  rw [blockPosition] at h
  split at h
  · cases h
  · rename_i hlimit
    rw [repositionFile] at h
    split at h
    · cases h
    · cases h
      exact ⟨getBlockFid_buffer s, by omega⟩

theorem writeFile_buffer {fid : Nat} {data : List Chr} (h : writeFile s fid data = .ok s') :
    s'.buffer = s.buffer := by
  rw [writeFile] at h
  split at h
  · cases h
  · split at h
    · cases h
    · cases h
      rfl

theorem assignFid_buffer (s : State File) (i : Nat) :
    (assignFid cfg s i).buffer = Function.update s.buffer i
      { s.buffer i with fid := ((assignFid cfg s i).buffer i).fid } := by
  rw [assignFid]
  split
  · simp [State.setBuffer, getBlockFid_buffer]
  · simp

theorem saveBuffer_clean (hclean : (s.buffer i).dirty = false) : saveBuffer cfg s i = .ok s := by
  rw [saveBuffer, hclean]
  rfl

/-- {lit}`save-buffer` does nothing, or positions the current file and writes. -/
theorem saveBuffer_cases (h : saveBuffer cfg s i = .ok s') :
    ((s.buffer i).dirty = false ∧ s' = s) ∨
    (s.buffer i).dirty = true ∧ ∃ s₁ s₂,
      blockPosition cfg (assignFid cfg s i) ((assignFid cfg s i).buffer i).block = .ok s₁ ∧
      writeFile s₁ (s₁.buffer i).fid (s₁.buffer i).data = .ok s₂ ∧
      s' = s₂.setBuffer i { s₂.buffer i with dirty := false } := by
  cases hdirty : (s.buffer i).dirty with
  | false =>
      rw [saveBuffer_clean hdirty] at h
      cases h
      exact .inl ⟨rfl, rfl⟩
  | true =>
      rw [saveBuffer, if_pos hdirty] at h
      dsimp only at h
      split at h
      · cases h
      · rename_i s₁ hposition
        split at h
        · cases h
        · rename_i s₂ hwrite
          cases h
          exact .inr ⟨rfl, s₁, s₂, hposition, hwrite, rfl⟩

/-- What saving a dirty buffer does to the buffers -/
theorem saveBuffer_dirty (h : saveBuffer cfg s i = .ok s') (hdirty : (s.buffer i).dirty = true) :
    (s.buffer i).block < cfg.blockLimit ∧
      ∃ fid, s'.buffer = Function.update s.buffer i { s.buffer i with fid, dirty := false } := by
  have hassign : (assignFid cfg s i).buffer = _ := assignFid_buffer s i
  rcases saveBuffer_cases h with ⟨hclean, -⟩ | ⟨-, s₁, s₂, hposition, hwrite, rfl⟩
  · rw [hclean] at hdirty
    cases hdirty
  · obtain ⟨hbuffer, hlimit⟩ := blockPosition_buffer hposition
    have hsame := (writeFile_buffer hwrite).trans (hbuffer.trans hassign)
    refine ⟨?_, ((assignFid cfg s i).buffer i).fid, ?_⟩
    · rwa [hassign, Function.update_self] at hlimit
    · rw [State.setBuffer, hsame, Function.update_self, Function.update_idem]

/-- A stuck buffer is never saved. -/
theorem StuckAt.saveBuffer (hstuck : StuckAt cfg s i) (h : saveBuffer cfg s j = .ok s') :
    StuckAt cfg s' i ∧ j ≠ i := by
  by_cases hdirty : (s.buffer j).dirty = true
  · obtain ⟨hlimit, fid, hbuffer⟩ := saveBuffer_dirty h hdirty
    have hne : j ≠ i := by
      rintro rfl
      have := cfg.blockLimit_le
      have := hstuck.2
      omega
    rw [StuckAt, hbuffer, Function.update_of_ne hne.symm]
    exact ⟨hstuck, hne⟩
  · rw [saveBuffer_clean (by simpa using hdirty)] at h
    cases h
    refine ⟨hstuck, ?_⟩
    rintro rfl
    exact hdirty hstuck.1

/-- A buffer that cannot be written is not among those that are saved. -/
theorem StuckAt.saveBuffer_foldlM (hstuck : StuckAt cfg s i) {l : List Nat}
    (h : l.foldlM (Blocks.saveBuffer cfg) s = .ok s') : StuckAt cfg s' i ∧ i ∉ l := by
  induction l generalizing s with
  | nil =>
      cases h
      exact ⟨hstuck, List.not_mem_nil⟩
  | cons j l ih =>
      rw [List.foldlM_cons] at h
      cases hsave : Blocks.saveBuffer cfg s j with
      | error ball =>
          rw [hsave] at h
          cases h
      | ok s₁ =>
          rw [hsave] at h
          obtain ⟨hstuck₁, hne⟩ := hstuck.saveBuffer hsave
          obtain ⟨hstuck', hnot⟩ := ih hstuck₁ h
          exact ⟨hstuck', List.not_mem_cons_of_ne_of_not_mem hne.symm hnot⟩

theorem StuckAt.not_saveBuffers (hstuck : StuckAt cfg s i) (hi : i < cfg.buffers) :
    saveBuffers cfg s ≠ .ok s' := fun h =>
  (hstuck.saveBuffer_foldlM h).2 (List.mem_range.mpr hi)

/-- {lit}`flush` fails while a buffer cannot be written. -/
theorem StuckAt.not_flush (hstuck : StuckAt cfg s i) (hi : i < cfg.buffers) :
    flush cfg s ≠ .ok s' := by
  rw [flush]
  split
  · simp
  · rename_i hsave
    exact absurd hsave (hstuck.not_saveBuffers hi)

theorem getBlockFid_ne_zero (cfg : Config File) (s : State File) :
    (getBlockFid cfg s).blockFid ≠ 0 := by
  rw [getBlockFid]
  split
  · exact cfg.newFid_ne_zero _ _
  · assumption

omit [DecidableEq File] in
theorem readFile_buffer {fid n : Nat} {data : List Chr} (h : readFile s fid n = .ok (data, s')) :
    s'.buffer = s.buffer ∧ s'.blockFid = s.blockFid := by
  rw [readFile] at h
  split at h
  · cases h
  · split at h
    · cases h
    · cases h
      exact ⟨rfl, rfl⟩

/-- Loading a block changes its buffer only. -/
theorem loadBuffer_buffer {u : Nat} (h : loadBuffer cfg s u i = .ok s') :
    ∃ data, s'.buffer = Function.update s.buffer i
      { s.buffer i with block := u, fid := s'.blockFid, data } := by
  rw [loadBuffer] at h
  dsimp only at h
  split at h
  · cases h
  · rename_i data s₁ hread
    obtain ⟨hbuffer, hfid⟩ := readFile_buffer hread
    rw [getBlockFid_buffer] at hbuffer
    have hne : s₁.blockFid ≠ 0 := hfid ▸ getBlockFid_ne_zero cfg s
    cases h
    refine ⟨data ++ List.replicate (cfg.charsPerBlock - data.length) 32#8, ?_⟩
    rw [getBlockFid_eq hne, State.setBuffer, hbuffer]

/-- {lit}`block` returns a buffer, or replaces its contents. -/
theorem block_cases {u : Nat} (h : block cfg s u = .ok s') : cfg.offset ≤ u ∧
    (((s.buffer (u % cfg.buffers)).block = u ∧ (s.buffer (u % cfg.buffers)).fid = s.blockFid ∧
      s' = { s with lastBlock := some (u % cfg.buffers) }) ∨
    ((s.buffer (u % cfg.buffers)).block ≠ u ∨ (s.buffer (u % cfg.buffers)).fid ≠ s.blockFid) ∧
      ∃ s₁ s₂ s₃, saveBuffer cfg s (u % cfg.buffers) = .ok s₁ ∧ blockPosition cfg s₁ u = .ok s₂ ∧
      loadBuffer cfg s₂ u (u % cfg.buffers) = .ok s₃ ∧
      s' = { s₃ with lastBlock := some (u % cfg.buffers) }) := by
  rw [block] at h
  split at h
  · cases h
  · rename_i hoffset
    refine ⟨Nat.not_lt.mp hoffset, ?_⟩
    dsimp only at h
    split at h
    · rename_i hmiss
      refine .inr ⟨hmiss, ?_⟩
      split at h
      · cases h
      · rename_i s₁ hsave
        split at h
        · cases h
        · rename_i s₂ hposition
          split at h
          · cases h
          · rename_i s₃ hload
            cases h
            exact ⟨s₁, s₂, s₃, hsave, hposition, hload, rfl⟩
    · rename_i hhit
      cases h
      obtain ⟨hblock, hfid⟩ := not_or.mp hhit
      exact .inl ⟨not_not.mp hblock, not_not.mp hfid, rfl⟩

/-- A buffer that cannot be written stays so. -/
theorem StuckAt.step (hstuck : StuckAt cfg s i) (hi : i < cfg.buffers) {op : Op File}
    (h : step cfg s op = .ok s') : StuckAt cfg s' i := by
  cases op with
  | block u =>
      rcases block_cases h with ⟨-, ⟨-, -, rfl⟩ | ⟨-, s₁, s₂, s₃, hsave, hposition, hload, rfl⟩⟩
      · exact hstuck
      · obtain ⟨hstuck₁, hne⟩ := hstuck.saveBuffer hsave
        obtain ⟨data, hbuffer⟩ := loadBuffer_buffer hload
        change (s₃.buffer i).dirty = true ∧ (s₃.buffer i).block = cfg.maxU
        rw [hbuffer, Function.update_of_ne hne.symm, (blockPosition_buffer hposition).1]
        exact hstuck₁
  | change data =>
      cases h
      rw [change]
      cases hlast : s.lastBlock with
      | none => exact hstuck
      | some k =>
          dsimp only
          rw [update]
          by_cases hk : i = k
          · subst hk
            simp [StuckAt, State.setBuffer, hlast, hstuck.2]
          · simpa [StuckAt, State.setBuffer, hlast, Function.update_of_ne hk] using hstuck
  | saveBuffers => exact absurd h (hstuck.not_saveBuffers hi)
  | flush => exact absurd h (hstuck.not_flush hi)
  | openBlocks f =>
      rw [Blocks.step, openBlocks] at h
      dsimp only at h
      split at h
      · cases h
        exact hstuck
      · have hstuck' : StuckAt cfg (openFile cfg s f).2 i := hstuck
        split at h
        · cases h
        · rename_i hflush
          exact absurd hflush (hstuck'.not_flush hi)

/-- A buffer that cannot be written stays so in every run. -/
theorem StuckAt.run (hstuck : StuckAt cfg s i) (hi : i < cfg.buffers) {ops : List (Op File)}
    (h : run cfg s ops = .ok s') : StuckAt cfg s' i := by
  induction ops generalizing s with
  | nil =>
      cases h
      exact hstuck
  | cons op ops ih =>
      rw [Blocks.run] at h
      split at h
      · cases h
      · rename_i s₁ hstep
        exact ih (hstuck.step hi hstep) h

omit [DecidableEq File] in
/-- A buffer that is not assigned is returned. -/
theorem Cached.returnFree (h : Cached cfg s a) (hi : i < cfg.buffers) (hfree : Free cfg s i) :
    Cached cfg { s with lastBlock := some i } { a with last := none } where
  file := by
    intro g hg
    obtain ⟨hne, hhandle, hcontent⟩ := h.file g hg
    exact ⟨hne, hhandle, hcontent⟩
  noFile := h.noFile
  buffer := by
    intro j hj
    rcases h.buffer j hj with hfree | ⟨g, hg⟩
    · exact .inl hfree
    · exact .inr ⟨g, hg.of_buffer_eq hg.current rfl rfl rfl⟩
  disk := by
    intro g k d hd
    rcases h.disk g k d hd with hblock | ⟨j, hj, hdirty, hblock, hg⟩
    · exact .inl hblock
    · exact .inr ⟨j, hj, hdirty, hblock, hg.of_buffer_eq hg.current rfl rfl rfl⟩
  last := by
    intro u hu
    cases hu
  noLast := by
    intro _ k hk
    cases hk
    exact hfree.1
  lastLt := by
    intro k hk
    cases hk
    exact hi

/-- The cache after an operation that leaves no buffer stuck -/
theorem step_follows (h : Cached cfg s a) {op : Op File} (hfits : op.Fits cfg)
    (hok : step cfg s op = .ok s') (hnot : ∀ i < cfg.buffers, ¬StuckAt cfg s' i) :
    Cached cfg s' (a.follow cfg op) := by
  have hcached : op.Valid cfg → s.Assigned cfg op → Cached cfg s' (a.step cfg op) := by
    intro hvalid hassigned
    obtain ⟨s₁, hs₁, hcached, -⟩ := step_cached h hvalid hassigned
    cases hs₁.symm.trans hok
    exact hcached
  cases op with
  | block u =>
      rw [Spec.follow]
      split
      · rename_i hvalid
        exact hcached hvalid trivial
      · rename_i hinvalid
        rcases block_cases hok with ⟨hoffset, ⟨hblock, -, rfl⟩ | ⟨-, s₁, s₂, s₃, -, hposition, -, -⟩⟩
        · -- the buffer is not assigned, and has the number of such buffers
          have hi := Nat.mod_lt u cfg.buffers_pos
          have hfree : Free cfg s (u % cfg.buffers) := by
            rcases h.buffer _ hi with hfree | ⟨f, hholds⟩
            · exact hfree
            · have hge := hholds.offset_le
              have hlt := hholds.lt_blockLimit
              rw [hblock] at hge hlt
              exact absurd ⟨hge, hlt⟩ hinvalid
          exact h.returnFree hi hfree
        · exact absurd ⟨hoffset, (blockPosition_buffer hposition).2⟩ hinvalid
  | change data =>
      refine hcached hfits ?_
      rintro i hlast hblock
      refine hnot i (h.lastLt i hlast) ?_
      cases hok
      simp [StuckAt, change, update, State.setBuffer, hlast, hblock]
  | saveBuffers | flush | openBlocks _ => exact hcached trivial trivial

/-- The cache after a run that leaves no dirty buffers -/
theorem run_follows (h : Cached cfg s a) {ops : List (Op File)} (hfits : ∀ op ∈ ops, op.Fits cfg)
    (hok : run cfg s ops = .ok s') (hclean : s'.Clean cfg) :
    Cached cfg s' (ops.foldl (Spec.follow cfg) a) := by
  induction ops generalizing s a with
  | nil =>
      cases hok
      exact h
  | cons op ops ih =>
      rw [run] at hok
      split at hok
      · cases hok
      · rename_i s₁ hstep
        have hnot : ∀ i < cfg.buffers, ¬StuckAt cfg s₁ i := by
          intro i hi hstuck
          have hdirty := (hstuck.run hi hok).1
          rw [hclean i hi] at hdirty
          cases hdirty
        refine ih (step_follows h (hfits op List.mem_cons_self) hstep hnot)
          (fun op' hop' => hfits op' (List.mem_cons_of_mem _ hop')) hok

end Blocks
end Gforth
