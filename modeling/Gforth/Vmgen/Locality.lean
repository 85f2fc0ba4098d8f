import Gforth.Vmgen.Machine

/-!
# The parts of the stacks

In a simple stack cache every register belongs to one stack.  Most of the generated statements belong
to one stack as well: they read and write its registers, its memory and its pointer only.  What such
statements do for one stack can be seen without those for the others.

Main results:

- Theorem {lit}`run_mapStacks1`: for a stack, the statements for all stacks do what its own statements
  do.
- Theorem {lit}`run_mapStacks1_outside`: what belongs to no stack stays as it is.
-/

namespace Gforth
namespace Vmgen

open Lib

variable {V W : Type*}

/-- The registers of a simple stack cache: the {lit}`i`-th cached item of a stack, counted from the
bottom, is in the same register in all states. -/
structure SimpleCache where
  reg : Nat → Nat → Reg
  reg_injective : ∀ {k i k' i'}, reg k i = reg k' i' → k = k' ∧ i = i'

/-- A state of a simple stack cache, by the numbers of cached items -/
structure CacheState where
  items : Nat → Nat
  offset : Nat → Int

namespace SimpleCache

variable (cache : SimpleCache)

/-- The registers and offsets of a state -/
def state (q : CacheState) : State := fun k =>
  ⟨((List.range (q.items k)).map (cache.reg k)).reverse, q.offset k⟩

/-- A place belongs to a stack. -/
def Owns (k : Nat) : Loc → Prop
  | .reg r => ∃ i, r = cache.reg k i
  | .cell k' _ => k' = k
  | .var _ _ => False
  | .temp _ _ => False

/-- The places of a statement belong to a stack. -/
def OwnsPlace (k : Nat) : Place → Prop
  | .reg r => ∃ i, r = cache.reg k i
  | .cell k' _ => k' = k
  | .var _ _ => False
  | .temp _ _ => False

/-- A statement is about one stack only. -/
def IsLocal (k : Nat) : Stmt → Prop
  | .assign target source => cache.OwnsPlace k target ∧ cache.OwnsPlace k source
  | .update k' _ => k' = k
  | .code => False

/-- Two machines are the same as far as a stack goes. -/
structure Agree (k : Nat) (m m' : Machine V W) : Prop where
  pointer : m.pointer k = m'.pointer k
  cells : ∀ l, cache.Owns k l → m.cells l = m'.cells l

/-- Two machines are the same except for a stack. -/
structure Frame (k : Nat) (m m' : Machine V W) : Prop where
  pointer : ∀ k', k' ≠ k → m'.pointer k' = m.pointer k'
  cells : ∀ l, ¬ cache.Owns k l → m'.cells l = m.cells l
  world : m'.world = m.world

variable {cache} {k k' : Nat} {m m' m'' : Machine V W}

theorem Agree.refl (m : Machine V W) : cache.Agree k m m :=
  ⟨rfl, fun _ _ => rfl⟩

theorem Agree.trans (h : cache.Agree k m m') (h' : cache.Agree k m' m'') : cache.Agree k m m'' :=
  ⟨h.pointer.trans h'.pointer, fun l hl => (h.cells l hl).trans (h'.cells l hl)⟩

theorem Frame.refl (m : Machine V W) : cache.Frame k m m :=
  ⟨fun _ _ => rfl, fun _ _ => rfl, rfl⟩

/-- Frames go on. -/
theorem Frame.trans (h : cache.Frame k m m') (h' : cache.Frame k m' m'') : cache.Frame k m m'' where
  pointer k' hk' := (h'.pointer k' hk').trans (h.pointer k' hk')
  cells l hl := (h'.cells l hl).trans (h.cells l hl)
  world := h'.world.trans h.world

/-- No place belongs to two stacks. -/
theorem Owns.unique {l : Loc} (h : cache.Owns k l) (h' : cache.Owns k' l) : k = k' := by
  cases l with
  | reg r =>
      rcases h with ⟨i, rfl⟩
      rcases h' with ⟨i', heq⟩
      exact (cache.reg_injective heq).1
  | cell k'' a => exact h.symm.trans h'
  | var name part => exact h.elim
  | temp k'' n => exact h.elim

theorem Frame.agree (h : cache.Frame k m m') (hne : k' ≠ k) : cache.Agree k' m m' where
  pointer := (h.pointer k' hne).symm
  cells l hl := (h.cells l fun hl' => hne (hl.unique hl')).symm

theorem OwnsPlace.owns {place : Place} (h : cache.OwnsPlace k place) (pointer : Nat → Int) :
    cache.Owns k (place.loc pointer) := by
  cases place <;> exact h

/-- Places of a stack are found with its own pointer. -/
theorem OwnsPlace.loc_eq {place : Place} (h : cache.OwnsPlace k place)
    {pointer pointer' : Nat → Int} (hpointer : pointer k = pointer' k) :
    place.loc pointer = place.loc pointer' := by
  cases place with
  | reg r => rfl
  | cell k' index =>
      have hk : k' = k := h
      subst hk
      simp [Place.loc, hpointer]
  | var name part => rfl
  | temp k' n => rfl

/-! ## Statements about one stack -/

variable (code : Machine V W → Machine V W)

/-- A statement of one stack leaves the others alone. -/
theorem IsLocal.frame {stmt : Stmt} (h : cache.IsLocal k stmt) (m : Machine V W) :
    cache.Frame k m (stmt.run code m) := by
  cases stmt with
  | assign target source =>
      refine ⟨fun _ _ => rfl, fun l hl => ?_, rfl⟩
      apply Function.update_of_ne
      intro heq
      apply hl
      rw [heq]
      exact h.1.owns m.pointer
  | update k' n =>
      have hk : k' = k := h
      subst hk
      exact ⟨fun k'' hne => Function.update_of_ne hne _ _, fun _ _ => rfl, rfl⟩
  | code => exact h.elim

/-- A statement of one stack reads only what belongs to the stack. -/
theorem IsLocal.agree {stmt : Stmt} (h : cache.IsLocal k stmt) (hm : cache.Agree k m m') :
    cache.Agree k (stmt.run code m) (stmt.run code m') := by
  cases stmt with
  | assign target source =>
      refine ⟨hm.pointer, fun l hl => ?_⟩
      simp only [Stmt.run, Lib.assign]
      rw [h.1.loc_eq hm.pointer, h.2.loc_eq hm.pointer]
      by_cases heq : l = target.loc m'.pointer
      · rw [heq, Function.update_self, Function.update_self]
        exact hm.cells _ (h.2.owns m'.pointer)
      · rw [Function.update_of_ne heq, Function.update_of_ne heq]
        exact hm.cells l hl
  | update k' n =>
      have hk : k' = k := h
      subst hk
      refine ⟨?_, hm.cells⟩
      simp [Stmt.run, hm.pointer]
  | code => exact h.elim

/-- The statements of one stack leave the others alone. -/
theorem frame_run {l : List Stmt} (h : ∀ stmt ∈ l, cache.IsLocal k stmt) (m : Machine V W) :
    cache.Frame k m (run code m l) := by
  induction l generalizing m with
  | nil => exact Frame.refl m
  | cons stmt l ih =>
      have hfirst := (h stmt List.mem_cons_self).frame code m
      exact hfirst.trans (ih (fun stmt' hmem => h stmt' (List.mem_cons_of_mem stmt hmem)) _)

/-- The statements of one stack read only what belongs to the stack. -/
theorem agree_run {l : List Stmt} (h : ∀ stmt ∈ l, cache.IsLocal k stmt)
    (hm : cache.Agree k m m') : cache.Agree k (run code m l) (run code m' l) := by
  induction l generalizing m m' with
  | nil => exact hm
  | cons stmt l ih =>
      have hfirst := (h stmt List.mem_cons_self).agree code hm
      exact ih (fun stmt' hmem => h stmt' (List.mem_cons_of_mem stmt hmem)) hfirst

/-! ## Statements for all stacks -/

variable {f : Nat → List Stmt}

/-- Statements for some stacks leave the other ones alone. -/
theorem agree_run_flatMap {l : List Nat} (hlocal : ∀ k ∈ l, ∀ stmt ∈ f k, cache.IsLocal k stmt)
    (hk : k ∉ l) (m : Machine V W) : cache.Agree k m (run code m (l.flatMap f)) := by
  induction l generalizing m with
  | nil => exact Agree.refl m
  | cons k' l ih =>
      rw [List.flatMap_cons, run_append]
      simp only [List.mem_cons, not_or] at hk
      have hfirst := frame_run code (hlocal k' List.mem_cons_self) m
      have hrest := ih (fun k'' hmem => hlocal k'' (List.mem_cons_of_mem k' hmem)) hk.2
        (run code m (f k'))
      exact (hfirst.agree hk.1).trans hrest

/-- The statements of the other stacks do not matter for a stack. -/
theorem agree_run_flatMap_of_mem {l : List Nat} (hnodup : l.Nodup)
    (hlocal : ∀ k ∈ l, ∀ stmt ∈ f k, cache.IsLocal k stmt) (hk : k ∈ l) (m : Machine V W) :
    cache.Agree k (run code m (f k)) (run code m (l.flatMap f)) := by
  induction l generalizing m with
  | nil => cases hk
  | cons k' l ih =>
      rw [List.nodup_cons] at hnodup
      rw [List.flatMap_cons, run_append]
      have hrest : ∀ k ∈ l, ∀ stmt ∈ f k, cache.IsLocal k stmt :=
        fun k'' hmem => hlocal k'' (List.mem_cons_of_mem k' hmem)
      rcases List.mem_cons.mp hk with rfl | hk
      · exact agree_run_flatMap code hrest hnodup.1 (run code m (f k))
      · have hne : k ≠ k' := fun heq => hnodup.1 (heq ▸ hk)
        have hfirst := frame_run code (hlocal k' List.mem_cons_self) m
        exact (agree_run code (hrest k hk) (hfirst.agree hne)).trans
          (ih hnodup.2 hrest hk (run code m (f k')))

/-- The stacks are those that are not the instruction stream. -/
theorem mem_stacks {vm : Vm} {k : Nat} :
    k ∈ (List.range vm.nextStackNumber).filter (1 ≤ ·) ↔ k ≠ instStream ∧ k < vm.nextStackNumber := by
  rw [List.mem_filter, List.mem_range, decide_eq_true_iff]
  unfold instStream
  omega

/-- For a stack, the statements for all stacks do what its own statements do. -/
theorem run_mapStacks1 (vm : Vm) (hlocal : ∀ k, k ≠ instStream → ∀ stmt ∈ f k, cache.IsLocal k stmt)
    (hk : k ≠ instStream) (hlt : k < vm.nextStackNumber) (m : Machine V W) :
    cache.Agree k (run code m (f k)) (run code m (vm.mapStacks1 f)) := by
  unfold Vm.mapStacks1
  apply agree_run_flatMap_of_mem code
  · exact List.nodup_range.filter _
  · intro k' hk'
    exact hlocal k' (mem_stacks.mp hk').1
  · exact mem_stacks.mpr ⟨hk, hlt⟩

/-- The statements for all stacks change nothing that belongs to no stack, nor the instruction
stream. -/
structure Outside (m m' : Machine V W) : Prop where
  pointer : m'.pointer instStream = m.pointer instStream
  cell : ∀ a, m'.cells (.cell instStream a) = m.cells (.cell instStream a)
  var : ∀ name part, m'.cells (.var name part) = m.cells (.var name part)
  temp : ∀ k n, m'.cells (.temp k n) = m.cells (.temp k n)
  world : m'.world = m.world

theorem Outside.refl (m : Machine V W) : Outside m m :=
  ⟨rfl, fun _ => rfl, fun _ _ => rfl, fun _ _ => rfl, rfl⟩

/-- Changes within the stacks go on. -/
theorem Outside.trans (h : Outside m m') (h' : Outside m' m'') : Outside m m'' where
  pointer := h'.pointer.trans h.pointer
  cell a := (h'.cell a).trans (h.cell a)
  var name part := (h'.var name part).trans (h.var name part)
  temp k n := (h'.temp k n).trans (h.temp k n)
  world := h'.world.trans h.world

/-- A frame leaves everything outside alone. -/
theorem Frame.outside (h : cache.Frame k m m') (hk : k ≠ instStream) : Outside m m' where
  pointer := h.pointer instStream (Ne.symm hk)
  cell _ := h.cells _ fun howns => hk howns.symm
  var _ _ := h.cells _ fun howns => howns.elim
  temp _ _ := h.cells _ fun howns => howns.elim
  world := h.world

/-- The statements of all stacks leave everything outside alone. -/
theorem run_mapStacks1_outside (vm : Vm)
    (hlocal : ∀ k, k ≠ instStream → ∀ stmt ∈ f k, cache.IsLocal k stmt) (m : Machine V W) :
    Outside m (run code m (vm.mapStacks1 f)) := by
  unfold Vm.mapStacks1
  have hstacks : ∀ k ∈ (List.range vm.nextStackNumber).filter (1 ≤ ·), k ≠ instStream :=
    fun k hk => (mem_stacks.mp hk).1
  generalize (List.range vm.nextStackNumber).filter (1 ≤ ·) = l at hstacks
  induction l generalizing m with
  | nil => exact Outside.refl m
  | cons k l ih =>
      rw [List.flatMap_cons, run_append]
      have hk := hstacks k List.mem_cons_self
      have hfirst := (frame_run code (hlocal k hk) m).outside hk
      exact hfirst.trans (ih _ fun k' hmem => hstacks k' (List.mem_cons_of_mem k hmem))

end SimpleCache

end Vmgen
end Gforth
