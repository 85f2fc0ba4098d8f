import Gforth.Exceptions.Semantics

/-!
# Exceptions restore the state

The virtual machine does what source code means.  The exception frame of the innermost
{lit}`catch` or {lit}`try` is below the part of the return stack that code is allowed to change, so
a throw finds the depths that were saved there.

Main results:

- Theorem {lit}`eval_ends`: the virtual machine follows the meaning of source code.
- Theorem {lit}`catch_throw_restore`: what is restored by {lit}`catch` and {lit}`try`.
-/

namespace Gforth
namespace Exceptions

variable {code : List Instr} {entry : Nat → Option Nat} {words : List Prog}
variable {m m' : Machine} {r : Regs} {u : List Cell} {a b base : Nat}

/-! ## The return stack -/

/-- Cells on the return stack, the top first -/
def Cells (rs : Nat → Cell) (base : Nat) : List Cell → Prop
  | [] => True
  | x :: u => rs (base + u.length) = x ∧ Cells rs base u

/-- The cells do not depend on what is above them. -/
theorem Cells.congr {rs rs' : Nat → Cell} (h : Cells rs base u)
    (heq : ∀ i, i < base + u.length → rs' i = rs i) : Cells rs' base u := by
  induction u with
  | nil => trivial
  | cons x u ih =>
    simp only [List.length_cons] at heq
    refine ⟨?_, ih h.2 fun i hi => heq i (by omega)⟩
    rw [heq _ (by omega)]
    exact h.1

/-- The exception frame that ends at {lit}`h` -/
structure Frame (rs : Nat → Cell) (h recovery : Nat) (saved : Regs) (oldhandler : Nat) : Prop where
  le : 6 ≤ h
  recovery : rs (h - 6) = recovery
  sp : rs (h - 5) = saved.sp
  op : rs (h - 4) = saved.op
  fp : rs (h - 3) = saved.fp
  lp : rs (h - 2) = saved.lp
  oldhandler : rs (h - 1) = oldhandler

/-- A frame does not depend on what is above it. -/
theorem Frame.congr {rs rs' : Nat → Cell} {h recovery oldhandler : Nat} {saved : Regs}
    (hframe : Frame rs h recovery saved oldhandler) (heq : ∀ i, i < h → rs' i = rs i) :
    Frame rs' h recovery saved oldhandler := by
  have hle := hframe.le
  refine ⟨hle, ?_, ?_, ?_, ?_, ?_, ?_⟩
  · rw [heq _ (by omega), hframe.recovery]
  · rw [heq _ (by omega), hframe.sp]
  · rw [heq _ (by omega), hframe.op]
  · rw [heq _ (by omega), hframe.fp]
  · rw [heq _ (by omega), hframe.lp]
  · rw [heq _ (by omega), hframe.oldhandler]

/-- Code at {lit}`a`, where the cells {lit}`u` are above {lit}`base` on the return stack and the
exception frame is below it -/
structure At (m : Machine) (a base : Nat) (r : Regs) (u : List Cell) : Prop where
  ip : m.ip = a
  regs : m.toRegs = r
  rp : m.rp = base + u.length
  cells : Cells m.rs base u
  handler : m.handler ≤ base

/-- What code does not change -/
structure Kept (base : Nat) (m m' : Machine) : Prop where
  handler : m'.handler = m.handler
  rs : ∀ i, i < base → m'.rs i = m.rs i

theorem Kept.refl (base : Nat) (m : Machine) : Kept base m m :=
  ⟨rfl, fun _ _ => rfl⟩

theorem Kept.trans {m₁ m₂ m₃ : Machine} (h : Kept base m₁ m₂) (h' : Kept base m₂ m₃) :
    Kept base m₁ m₃ :=
  ⟨h'.handler.trans h.handler, fun i hi => (h'.rs i hi).trans (h.rs i hi)⟩

theorem Kept.mono (h : Kept base m m') (hle : b ≤ base) : Kept b m m' :=
  ⟨h.handler, fun i hi => h.rs i (by omega)⟩

/-- The state after a throw to the frame that {lit}`handler` points to -/
structure Recovered (m m' : Machine) (ball : Cell) (r : Regs) : Prop where
  rp : m'.rp = m.handler
  regs : ∀ recovery saved oldhandler, Frame m.rs m.handler recovery saved oldhandler →
    m'.ip = recovery ∧ m'.toRegs = saved.recover ball r

/-- How the virtual machine ends what it does from a state, if it should continue at {lit}`b` -/
def Ends (code : List Instr) (entry : Nat → Option Nat) (m : Machine) (base b : Nat) :
    Outcome → Prop
  | .ok r u => ∃ m', Steps code entry m m' ∧ At m' b base r u ∧ Kept base m m'
  | .threw ball r => 6 ≤ m.handler →
      ∃ m', Steps code entry m m' ∧ Recovered m m' ball r ∧ Kept base m m'
  | .stuck => True
  | .timeout => True

variable {o : Outcome} {x : Cell} {r' : Regs} {m₀ : Machine} {n : Nat}

/-- Steps in front of the end -/
theorem Ends.of_steps {m₁ : Machine} (hsteps : Steps code entry m m₁) (hkept : Kept base m m₁)
    (hle : m.handler ≤ base) (h : Ends code entry m₁ base b o) : Ends code entry m base b o := by
  cases o with
  | ok r u =>
    obtain ⟨m', hm', hat, hkept'⟩ := h
    exact ⟨m', hsteps.trans hm', hat, hkept.trans hkept'⟩
  | threw ball r =>
    intro hframe
    obtain ⟨m', hm', hrec, hkept'⟩ := h (by rwa [hkept.handler])
    refine ⟨m', hsteps.trans hm', ⟨by rw [hrec.rp, hkept.handler], ?_⟩, hkept.trans hkept'⟩
    intro recovery saved oldhandler hsaved
    apply hrec.regs recovery saved oldhandler
    rw [hkept.handler]
    exact hsaved.congr fun i hi => hkept.rs i (by omega)
  | stuck => trivial
  | timeout => trivial

theorem Ends.of_step {m₁ : Machine} (hstep : step code entry m = some m₁) (hkept : Kept base m m₁)
    (hle : m.handler ≤ base) (h : Ends code entry m₁ base b o) : Ends code entry m base b o :=
  h.of_steps (.single hstep) hkept hle

theorem Ends.refl (hat : At m b base r u) : Ends code entry m base b (.ok r u) :=
  ⟨m, .refl, hat, .refl base m⟩

/-- Two pieces of code, one behind the other -/
theorem Ends.bind {c : Nat} {f : Regs → List Cell → Outcome} (hle : m.handler ≤ base)
    (h : Ends code entry m base b o)
    (hf : ∀ m' r u, At m' b base r u → Ends code entry m' base c (f r u)) :
    Ends code entry m base c (o.bind f) := by
  cases o with
  | ok r u =>
    obtain ⟨m', hm', hat, hkept⟩ := h
    exact (hf m' r u hat).of_steps hm' hkept hle
  | threw ball r => exact h
  | stuck => trivial
  | timeout => trivial

/-! ## Instructions -/

/-- A cell on the return stack -/
theorem At.rpush (h : At m a base r u) (r' : Regs) :
    At ((m.next.setRegs r').rpush x) (a + 1) base r' (x :: u) ∧
      Kept base m ((m.next.setRegs r').rpush x) := by
  have hrp : m.rp = base + u.length := h.rp
  refine ⟨⟨congrArg (· + 1) h.ip, rfl, ?_, ⟨?_, ?_⟩, h.handler⟩, rfl, ?_⟩
  · exact congrArg (· + 1) hrp
  · rw [← hrp]
    exact Function.update_self _ _ _
  · refine h.cells.congr fun i hi => ?_
    rw [← hrp] at hi
    exact Function.update_of_ne (Nat.ne_of_lt hi) _ _
  · intro i hi
    have : i ≠ m.rp := by omega
    exact Function.update_of_ne this _ _

/-- The top cell of the return stack -/
theorem At.rpop (h : At m a base r (x :: u)) :
    m.rpop = some (x, { m with rp := base + u.length }) := by
  have hrp : m.rp = base + u.length + 1 := h.rp
  rw [Machine.rpop, hrp]
  simp only [h.cells.1]

theorem At.next (h : At m a base r u) (r' : Regs) :
    At (m.next.setRegs r') (a + 1) base r' u ∧ Kept base m (m.next.setRegs r') :=
  ⟨⟨congrArg (· + 1) h.ip, rfl, h.rp, h.cells, h.handler⟩, rfl, fun _ _ => rfl⟩

theorem At.goto (h : At m a base r u) (r' : Regs) (target : Nat) :
    At { m.setRegs r' with ip := target } target base r' u ∧
      Kept base m { m.setRegs r' with ip := target } :=
  ⟨⟨rfl, rfl, h.rp, h.cells, h.handler⟩, rfl, fun _ _ => rfl⟩

variable (entry) in
/-- A primitive -/
theorem prim_ends {f : Regs → Option Regs} (hat : At m a base r u)
    (hcode : code[a]? = some (.prim f)) (hf : f r = some r') :
    ∃ m', step code entry m = some m' ∧ At m' (a + 1) base r' u ∧ Kept base m m' := by
  refine ⟨m.next.setRegs r', ?_, hat.next r'⟩
  simp only [step, hat.ip, hcode, hat.regs, hf]

/-- {lit}`>r` -/
theorem toR_ends (hat : At m a base r u) (hcode : code[a]? = some .toR)
    (hpop : r.pop = some (x, r')) :
    ∃ m', step code entry m = some m' ∧ At m' (a + 1) base r' (x :: u) ∧ Kept base m m' := by
  refine ⟨(m.next.setRegs r').rpush x, ?_, hat.rpush r'⟩
  simp only [step, hat.ip, hcode, hat.regs, hpop]

/-- {lit}`>o` -/
theorem toO_ends (hat : At m a base r u) (hcode : code[a]? = some .toO)
    (hpop : r.pop = some (x, r')) :
    ∃ m', step code entry m = some m' ∧ At m' (a + 1) base { r' with op := x } (r.op :: u) ∧
      Kept base m m' := by
  refine ⟨(m.next.setRegs { r' with op := x }).rpush r.op, ?_, hat.rpush _⟩
  simp only [step, hat.ip, hcode, hat.regs, hpop]

/-- {lit}`r>` -/
theorem rFrom_ends (hat : At m a base r (x :: u)) (hcode : code[a]? = some .rFrom) :
    ∃ m', step code entry m = some m' ∧ At m' (a + 1) base (r.push x) u ∧ Kept base m m' := by
  refine ⟨({ m with rp := base + u.length } : Machine).next.setRegs (r.push x), ?_, ?_, ?_⟩
  · simp only [step, hat.ip, hcode, hat.rpop, hat.regs]
  · exact ⟨congrArg (· + 1) hat.ip, rfl, rfl, hat.cells.2, hat.handler⟩
  · exact ⟨rfl, fun _ _ => rfl⟩

/-- {lit}`o>` -/
theorem oFrom_ends (hat : At m a base r (x :: u)) (hcode : code[a]? = some .oFrom) :
    ∃ m', step code entry m = some m' ∧ At m' (a + 1) base { r with op := x } u ∧
      Kept base m m' := by
  refine ⟨({ m with rp := base + u.length } : Machine).next.setRegs { r with op := x }, ?_, ?_, ?_⟩
  · simp only [step, hat.ip, hcode, hat.rpop, hat.regs]
  · exact ⟨congrArg (· + 1) hat.ip, rfl, rfl, hat.cells.2, hat.handler⟩
  · exact ⟨rfl, fun _ _ => rfl⟩

variable (entry) in
/-- {lit}`branch` -/
theorem branch_ends {target : Nat} (hat : At m a base r u)
    (hcode : code[a]? = some (.branch target)) :
    ∃ m', step code entry m = some m' ∧ At m' target base r u ∧ Kept base m m' := by
  refine ⟨{ m.setRegs m.toRegs with ip := target }, ?_, ?_⟩
  · simp only [step, hat.ip, hcode]
    rfl
  · rw [← hat.regs]
    exact (hat.regs ▸ hat).goto m.toRegs target

variable (entry) in
/-- {lit}`?branch` -/
theorem qBranch_ends {target : Nat} (hat : At m a base r u)
    (hcode : code[a]? = some (.qBranch target)) (hpop : r.pop = some (x, r')) :
    ∃ m', step code entry m = some m' ∧
      At m' (if x = 0 then target else a + 1) base r' u ∧ Kept base m m' := by
  by_cases hx : x = 0
  · refine ⟨{ m.setRegs r' with ip := target }, ?_, ?_⟩
    · simp only [step, hat.ip, hcode, hat.regs, hpop, if_pos hx]
    · rw [if_pos hx]
      exact hat.goto r' target
  · refine ⟨m.next.setRegs r', ?_, ?_⟩
    · simp only [step, hat.ip, hcode, hat.regs, hpop, if_neg hx]
    · rw [if_neg hx]
      exact hat.next r'

/-! ## Words -/

/-- A word that was called and returns to {lit}`b` -/
structure Entered (m : Machine) (e b base : Nat) (r : Regs) (u : List Cell) : Prop where
  ip : m.ip = e
  regs : m.toRegs = r
  rp : m.rp = base + u.length + 1
  ret : m.rs (base + u.length) = b
  cells : Cells m.rs base u
  handler : m.handler ≤ base

/-- The word does not see the return address. -/
theorem Entered.toAt {e : Nat} (h : Entered m e b base r u) :
    At m e (base + u.length + 1) r [] where
  ip := h.ip
  regs := h.regs
  rp := h.rp
  cells := trivial
  handler := by
    have := h.handler
    omega

/-- The entry of a word, with its return address -/
theorem At.enter (h : At m a base r u) (e : Nat) :
    Entered { (m.setRegs r').rpush (a + 1 : Nat) with ip := e } e (a + 1) base r' u ∧
      Kept base m { (m.setRegs r').rpush (a + 1 : Nat) with ip := e } := by
  have hrp : m.rp = base + u.length := h.rp
  have hold : ∀ i, i < base + u.length →
      Function.update m.rs m.rp ((a + 1 : Nat) : Cell) i = m.rs i := by
    intro i hi
    exact Function.update_of_ne (by omega) _ _
  refine ⟨⟨rfl, rfl, ?_, ?_, ?_, h.handler⟩, rfl, ?_⟩
  · exact congrArg (· + 1) hrp
  · rw [← hrp]
    exact Function.update_self _ _ _
  · exact h.cells.congr hold
  · exact fun i hi => hold i (by omega)

variable (entry) in
/-- The call of a word -/
theorem call_ends {w e : Nat} (hat : At m a base r u) (hcode : code[a]? = some (.call w))
    (hentry : entry w = some e) :
    ∃ m', step code entry m = some m' ∧ Entered m' e (a + 1) base r u ∧ Kept base m m' := by
  refine ⟨{ (m.setRegs r).rpush (a + 1 : Nat) with ip := e }, ?_, hat.enter e⟩
  simp only [step, hat.ip, hcode, hentry]
  rw [← hat.regs]
  rfl

/-- {lit}`execute` -/
theorem execute_ends {xt : Cell} {e : Nat} (hat : At m a base r u)
    (hcode : code[a]? = some .execute) (hpop : r.pop = some (xt, r'))
    (hentry : entry xt.toNat = some e) :
    ∃ m', step code entry m = some m' ∧ Entered m' e (a + 1) base r' u ∧ Kept base m m' := by
  refine ⟨{ (m.setRegs r').rpush (a + 1 : Nat) with ip := e }, ?_, hat.enter e⟩
  simp only [step, hat.ip, hcode, hat.regs, hpop, hentry]

variable (entry) in
/-- Returning from a word -/
theorem exit_ends {c e : Nat} (hentered : Entered m₀ e b base r u)
    (hkept : Kept (base + u.length + 1) m₀ m) (hat : At m c (base + u.length + 1) r' [])
    (hcode : code[c]? = some .exit) :
    ∃ m', step code entry m = some m' ∧ At m' b base r' u ∧ Kept base m₀ m' := by
  have hrp : m.rp = base + u.length + 1 := hat.rp
  have hret : m.rs (base + u.length) = b := by
    rw [hkept.rs _ (Nat.lt_succ_self _), hentered.ret]
  refine ⟨{ m with rp := base + u.length, ip := b }, ?_, ?_, ?_⟩
  · simp only [step, hat.ip, hcode, Machine.rpop, hrp, hret, Int.toNat_natCast]
  · refine ⟨rfl, hat.regs, rfl, ?_, ?_⟩
    · exact hentered.cells.congr fun i hi => hkept.rs i (by omega)
    · exact Nat.le_trans (Nat.le_of_eq hkept.handler) hentered.handler
  · exact ⟨hkept.handler, fun i hi => hkept.rs i (by omega)⟩

/-- The code of a word -/
theorem Ends.leave {c e : Nat} (hentered : Entered m e b base r u) (hcode : code[c]? = some .exit)
    (h : Ends code entry m (base + u.length + 1) c o) : Ends code entry m base b (o.leave u) := by
  match o, h with
  | .ok r' [], ⟨m₁, hm₁, hat, hkept⟩ =>
    obtain ⟨m₂, hm₂, hat₂, hkept₂⟩ := exit_ends entry hentered hkept hat hcode
    exact ⟨m₂, hm₁.tail hm₂, hat₂, hkept₂⟩
  | .ok _ (_ :: _), _ => trivial
  | .threw ball r', h =>
    intro hframe
    obtain ⟨m₁, hm₁, hrec, hkept⟩ := h hframe
    exact ⟨m₁, hm₁, hrec, hkept.mono (by omega)⟩
  | .stuck, _ => trivial
  | .timeout, _ => trivial

/-! ## Exception frames -/

/-- The state {lit}`m` belongs to a {lit}`try` that was entered in {lit}`m₀`. -/
structure Inside (m₀ m : Machine) (recovery top : Nat) : Prop where
  handler : m.handler = top + 6
  frame : Frame m.rs (top + 6) recovery m₀.toRegs m₀.handler
  rs : ∀ i, i < top → m.rs i = m₀.rs i

/-- Changes above the frame of a {lit}`try` -/
theorem Inside.of_kept {recovery top : Nat} (h : Inside m₀ m recovery top)
    (hkept : Kept (top + 6) m m') : Inside m₀ m' recovery top where
  handler := hkept.handler.trans h.handler
  frame := h.frame.congr hkept.rs
  rs := fun i hi => (hkept.rs i (by omega)).trans (h.rs i hi)

/-- The cells that {lit}`(try)` pushes -/
theorem parenTry_frame (m : Machine) (recovery : Nat) :
    Frame (m.parenTry recovery).rs (m.rp + 6) recovery m.toRegs m.handler where
  le := by omega
  recovery := by simp [Machine.parenTry, Machine.rpush, Function.update, Nat.add_assoc]
  sp := by simp [Machine.parenTry, Machine.rpush, Function.update]
  op := by simp [Machine.parenTry, Machine.rpush, Function.update]
  fp := by simp [Machine.parenTry, Machine.rpush, Function.update]
  lp := by simp [Machine.parenTry, Machine.rpush, Function.update]
  oldhandler := by simp [Machine.parenTry, Machine.rpush, Function.update]

theorem parenTry_rs (m : Machine) (recovery : Nat) {i : Nat} (hi : i < m.rp) :
    (m.parenTry recovery).rs i = m.rs i := by
  simp only [Machine.parenTry, Machine.rpush]
  repeat rw [Function.update_of_ne (by omega)]

variable (entry) in
/-- Entering a {lit}`try` -/
theorem parenTry_ends {recovery : Nat} (hat : At m a base r u)
    (hcode : code[a]? = some (.parenTry recovery)) :
    ∃ m', step code entry m = some m' ∧ At m' (a + 1) (base + u.length + 6) r.enter [] ∧
      Inside m m' recovery (base + u.length) := by
  refine ⟨m.next.parenTry recovery, ?_, ?_, ?_⟩
  · simp only [step, hat.ip, hcode]
  · refine ⟨congrArg (· + 1) hat.ip, ?_, congrArg (· + 6) hat.rp, trivial, ?_⟩
    · rw [← hat.regs]
      rfl
    · exact Nat.le_of_eq (congrArg (· + 6) hat.rp)
  · refine ⟨congrArg (· + 6) hat.rp, ?_, ?_⟩
    · rw [← hat.rp]
      exact parenTry_frame m.next recovery
    · intro i hi
      rw [← hat.rp] at hi
      exact parenTry_rs m.next recovery hi

variable (entry) in
/-- Leaving a {lit}`try` -/
theorem uncatch_ends {a₀ c recovery : Nat} (hat₀ : At m₀ a₀ base r u)
    (hinside : Inside m₀ m recovery (base + u.length)) (hat : At m c (base + u.length + 6) r' [])
    (hcode : code[c]? = some .uncatch) :
    ∃ m', step code entry m = some m' ∧ At m' (c + 1) base r' u ∧ Kept base m₀ m' := by
  have hrp : m.rp = base + u.length + 6 := hat.rp
  have hold : m.rs (base + u.length + 6 - 1) = m₀.handler := hinside.frame.oldhandler
  refine ⟨{ m.next with handler := m₀.handler, rp := base + u.length }, ?_, ?_, ?_⟩
  · have hle : 6 ≤ base + u.length + 6 := by omega
    simp only [step, hat.ip, hcode, Machine.uncatch, Machine.next, hrp, if_pos hle, hold,
      Int.toNat_natCast, Nat.add_sub_cancel]
  · refine ⟨congrArg (· + 1) hat.ip, hat.regs, rfl, ?_, hat₀.handler⟩
    exact hat₀.cells.congr hinside.rs
  · exact ⟨rfl, fun i hi => hinside.rs i (by omega)⟩

/-- A throw inside a {lit}`try` -/
theorem Recovered.toAt {recovery top : Nat} {ball : Cell} (hinside : Inside m₀ m recovery top)
    (hrec : Recovered m m' ball r') (hkept : Kept (top + 6) m m') :
    At m' recovery (top + 6) (m₀.toRegs.recover ball r') [] ∧ Inside m₀ m' recovery top := by
  have hframe := hinside.frame
  rw [← hinside.handler] at hframe
  obtain ⟨hip, hregs⟩ := hrec.regs _ _ _ hframe
  refine ⟨⟨hip, hregs, ?_, trivial, ?_⟩, hinside.of_kept hkept⟩
  · rw [hrec.rp, hinside.handler]
    rfl
  · exact Nat.le_of_eq (hkept.handler.trans hinside.handler)

/-- How the virtual machine ends a {lit}`try` that was entered in {lit}`m₀` and continues at
{lit}`b`: exceptions do not leave it. -/
def Left (code : List Instr) (entry : Nat → Option Nat) (m₀ m : Machine) (base b : Nat) :
    Outcome → Prop
  | .ok r u => ∃ m', Steps code entry m m' ∧ At m' b base r u ∧ Kept base m₀ m'
  | .threw _ _ => False
  | .stuck => True
  | .timeout => True

/-- Steps before a {lit}`try` is left -/
theorem Left.of_steps {m₀ m₁ : Machine} (hsteps : Steps code entry m m₁)
    (h : Left code entry m₀ m₁ base b o) : Left code entry m₀ m base b o := by
  cases o with
  | ok r u =>
    obtain ⟨m', hm', hat, hkept⟩ := h
    exact ⟨m', hsteps.trans hm', hat, hkept⟩
  | threw ball r => exact h
  | stuck => trivial
  | timeout => trivial

/-- The end of what leaves a {lit}`try` -/
theorem Left.ends (hsteps : Steps code entry m₀ m) (h : Left code entry m₀ m base b o) :
    Ends code entry m₀ base b o := by
  cases o with
  | ok r u =>
    obtain ⟨m', hm', hat, hkept⟩ := h
    exact ⟨m', hsteps.trans hm', hat, hkept⟩
  | threw ball r => exact h.elim
  | stuck => trivial
  | timeout => trivial

section Region

variable {m₀ : Machine} {a₀ c rec : Nat} {o : Outcome}

/-- The end of a {lit}`try` without an exception -/
theorem Ends.endtry (hat₀ : At m₀ a₀ base r u) (hinside : Inside m₀ m rec (base + u.length))
    (hcode : code[c]? = some .uncatch) (ho : Ends code entry m (base + u.length + 6) c o)
    (hne : ∀ ball r', o ≠ .threw ball r') : Left code entry m₀ m base (c + 1) (o.leave u) := by
  match o, ho with
  | .ok r' [], ⟨m₁, hm₁, hat, hkept⟩ =>
    obtain ⟨m₂, hm₂, hat₂, hkept₂⟩ :=
      uncatch_ends entry hat₀ (hinside.of_kept hkept) hat hcode
    exact ⟨m₂, hm₁.tail hm₂, hat₂, hkept₂⟩
  | .ok _ (_ :: _), _ => trivial
  | .threw ball r', _ => exact hne ball r' rfl
  | .stuck, _ => trivial
  | .timeout, _ => trivial

/-- From {lit}`try` to {lit}`endtry` -/
theorem region_ends {k : Nat} {recovery : Regs → Outcome} (hat₀ : At m₀ a₀ base r u)
    (hinside : Inside m₀ m rec (base + u.length)) (hcode : code[c]? = some .uncatch)
    (ho : Ends code entry m (base + u.length + 6) c o)
    (hrecovery : ∀ m₁ r₁, At m₁ rec (base + u.length + 6) r₁ [] →
      Ends code entry m₁ (base + u.length + 6) c (recovery r₁)) :
    Left code entry m₀ m base (c + 1) (region recovery r u k o) := by
  -- The induction is on the number of exceptions that may still happen.
  induction k generalizing m o with
  | zero =>
    cases o with
    | threw ball r' => trivial
    | ok r' u' => exact ho.endtry hat₀ hinside hcode (by simp)
    | stuck => trivial
    | timeout => trivial
  | succ k ih =>
    cases o with
    | threw ball r' =>
      obtain ⟨m₁, hm₁, hrec, hkept⟩ := ho (by rw [hinside.handler]; omega)
      obtain ⟨hat, hinside₁⟩ := Recovered.toAt hinside hrec hkept
      rw [hat₀.regs] at hat
      exact .of_steps hm₁ (ih hinside₁ (hrecovery m₁ _ hat))
    | ok r' u' => exact ho.endtry hat₀ hinside hcode (by simp)
    | stuck => trivial
    | timeout => trivial

end Region

/-! ## Calls -/

/-- The virtual machine follows the meaning of words, up to a bound. -/
def CallsOk (code : List Instr) (entry : Nat → Option Nat) (words : List Prog) (n : Nat) : Prop :=
  ∀ ⦃w e m b base r u⦄, entry w = some e → Entered m e b base r u →
    Ends code entry m base b (eval words n (.call w) r u)

/-- The virtual machine follows the meaning of source code, up to a bound. -/
def PiecesOk (code : List Instr) (entry : Nat → Option Nat) (words : List Prog) (n : Nat) : Prop :=
  ∀ ⦃p : Prog⦄ ⦃m a base r u⦄, CodeAt code a (p.layout a) → At m a base r u →
    Ends code entry m base (a + p.size) (eval words n p r u)

/-- Calling what is not a word is not allowed. -/
theorem eval_call_none (hload : Loaded code entry words) {w n : Nat} (hentry : entry w = none)
    (r : Regs) (u : List Cell) :
    eval words n (.call w) r u = .stuck ∨ eval words n (.call w) r u = .timeout := by
  match n, w with
  | 0, _ => exact Or.inr rfl
  | n + 1, 0 =>
    obtain ⟨a, ha, -⟩ := hload.catch'
    cases ha.symm.trans hentry
  | n + 1, 1 =>
    obtain ⟨a, ha, -⟩ := hload.throw
    cases ha.symm.trans hentry
  | n + 1, k + 2 =>
    cases hword : words[k]? with
    | none =>
      left
      simp only [eval, hword]
    | some p =>
      obtain ⟨a, ha, -⟩ := hload.word k p hword
      cases ha.symm.trans hentry

variable (entry) in
/-- The common end of {lit}`catch` -/
theorem catch_end {e c rec : Nat} (hentered : Entered m₀ e b base r u)
    (hinside : Inside m₀ m rec (base + u.length + 1)) (hat : At m c (base + u.length + 1 + 6) r' [])
    (huncatch : code[c]? = some .uncatch) (hexit : code[c + 1]? = some .exit) :
    ∃ m', Steps code entry m m' ∧ At m' b base r' u ∧ Kept base m₀ m' := by
  obtain ⟨m₁, hm₁, hat₁, hkept₁⟩ :=
    uncatch_ends entry hentered.toAt hinside hat huncatch
  obtain ⟨m₂, hm₂, hat₂, hkept₂⟩ := exit_ends entry hentered hkept₁ hat₁ hexit
  exact ⟨m₂, .tail (.single hm₁) hm₂, hat₂, hkept₂⟩

/-- {lit}`catch` does what it means. -/
theorem catch_ends (hload : Loaded code entry words) {n e : Nat} (ih : CallsOk code entry words n)
    (hcode : CodeAt code e (catchCode e)) (hentered : Entered m e b base r u) :
    Ends code entry m base b (eval words (n + 1) (.call 0) r u) := by
  obtain ⟨h0, h1, h2, h3, h4, h5, h6, h7, h8, -⟩ := hcode
  obtain ⟨m₁, hm₁, hat₁, hinside₁⟩ := parenTry_ends entry hentered.toAt h0
  rw [eval, Outcome.pop]
  cases hpop : r.enter.pop with
  | none => trivial
  | some popped =>
    obtain ⟨xt, r'⟩ := popped
    cases hentry : entry xt.toNat with
    | none =>
      rcases eval_call_none hload (n := n) hentry r' [] with hstuck | htimeout
      · simp only [hstuck]
        trivial
      · simp only [htimeout]
        trivial
    | some e' =>
      obtain ⟨m₂, hm₂, hentered₂, hkept₂⟩ := execute_ends hat₁ h1 hpop hentry
      have hends := ih hentry hentered₂
      have hsteps₂ : Steps code entry m m₂ := .tail (.single hm₁) hm₂
      have hinside₂ := hinside₁.of_kept hkept₂
      simp only
      generalize eval words n (.call xt.toNat) r' [] = o at hends
      match o, hends with
      | .ok r₃ [], ⟨m₃, hm₃, hat₃, hkept₃⟩ =>
        obtain ⟨m₄, hm₄, hat₄, hkept₄⟩ := prim_ends entry hat₃ h2 rfl
        obtain ⟨m₅, hm₅, hat₅, hkept₅⟩ := catch_end entry hentered
          ((hinside₂.of_kept hkept₃).of_kept hkept₄) hat₄ h3 h4
        exact ⟨m₅, ((hsteps₂.trans hm₃).tail hm₄).trans hm₅, hat₅, hkept₅⟩
      | .ok _ (_ :: _), _ => trivial
      | .threw ball r₃, hends =>
        obtain ⟨m₃, hm₃, hrec, hkept₃⟩ := hends (by rw [hinside₂.handler]; omega)
        obtain ⟨hat₃, hinside₃⟩ := Recovered.toAt hinside₂ hrec hkept₃
        rw [hentered.regs] at hat₃
        simp only [Outcome.leave]
        cases hnip : (r.recover ball r₃).nip with
        | none => trivial
        | some r₄ =>
          obtain ⟨m₄, hm₄, hat₄, hkept₄⟩ := prim_ends entry hat₃ h6 hnip
          obtain ⟨m₅, hm₅, hat₅, hkept₅⟩ := catch_end entry hentered
            (hinside₃.of_kept hkept₄) hat₄ h7 h8
          exact ⟨m₅, ((hsteps₂.trans hm₃).tail hm₄).trans hm₅, hat₅, hkept₅⟩
      | .stuck, _ => trivial
      | .timeout, _ => trivial

/-! ## Throwing -/

variable (entry) in
/-- {lit}`fast-throw` -/
theorem fastThrow_ends {ball : Cell} (hip : code[m.ip]? = some .fastThrow)
    (hpop : m.toRegs.pop = some (ball, r')) : Ends code entry m base b (.threw ball r') := by
  intro hframe
  have hstep : step code entry m = some { m with
      toRegs := { r' with
        lp := (m.rs (m.handler - 2)).toNat
        fp := (m.rs (m.handler - 3)).toNat
        op := m.rs (m.handler - 4)
        sp := (m.rs (m.handler - 5)).toNat }.push ball
      rp := m.handler
      ip := (m.rs (m.handler - 6)).toNat } := by
    simp only [step, hip, Machine.fastThrow, hpop, if_pos hframe]
  refine ⟨_, .single hstep, ⟨rfl, ?_⟩, rfl, fun _ _ => rfl⟩
  intro recovery saved oldhandler hsaved
  simp [hsaved.recovery, hsaved.sp, hsaved.op, hsaved.fp, hsaved.lp, Regs.recover]

/-- {lit}`throw` does not change the ball. -/
theorem pop_thrown (hpop : r.pop = some (x, r')) : r.thrown.pop = some (x, r'.thrown) := by
  rw [Regs.pop] at hpop
  split at hpop
  · cases hpop
  · rename_i sp hsp
    cases hpop
    rw [Regs.thrown, Regs.thrown]
    split
    · simp [Regs.pop, hsp]
    · simp [Regs.pop, hsp]

variable (entry) in
/-- Recording a backtrace -/
theorem backtrace_ends {e : Nat} (hat : At m (e + 1) base r u)
    (h1 : code[e + 1]? = some (.firstThrowQBranch (e + 3)))
    (h2 : code[e + 2]? = some (.prim Regs.storeBacktrace)) :
    ∃ m', Steps code entry m m' ∧ At m' (e + 3) base r.thrown u ∧ Kept base m m' := by
  by_cases hfirst : r.firstThrow < 0
  · have hstep : step code entry m = some (m.next.setRegs r) := by
      have hm : m.firstThrow < 0 := by rwa [hat.regs]
      simp only [step, hat.ip, h1, if_pos hm]
      rw [← hat.regs]
      rfl
    obtain ⟨hat₁, hkept₁⟩ := hat.next r
    obtain ⟨m₂, hm₂, hat₂, hkept₂⟩ := prim_ends entry hat₁ h2 rfl
    rw [Regs.thrown, if_pos hfirst]
    exact ⟨m₂, .tail (.single hstep) hm₂, hat₂, hkept₁.trans hkept₂⟩
  · have hstep : step code entry m = some { m.setRegs r with ip := e + 3 } := by
      have hm : ¬m.firstThrow < 0 := by rwa [hat.regs]
      simp only [step, hat.ip, h1, if_neg hm]
      rw [← hat.regs]
      rfl
    rw [Regs.thrown, if_neg hfirst]
    exact ⟨_, .single hstep, hat.goto r (e + 3)⟩

/-- {lit}`throw` does what it means. -/
theorem throw_ends {n e : Nat} (hcode : CodeAt code e (throwCode e))
    (hentered : Entered m e b base r u) :
    Ends code entry m base b (eval words (n + 1) (.call 1) r u) := by
  obtain ⟨h0, h1, h2, h3, h4, -, h6, -⟩ := hcode
  have hat := hentered.toAt
  rw [eval, Outcome.pop]
  cases hpop : r.pop with
  | none => trivial
  | some popped =>
    obtain ⟨ball, r'⟩ := popped
    by_cases hball : ball = 0
    · -- There is nothing to throw.
      have hstep : step code entry m = some { m.setRegs r' with ip := e + 6 } := by
        simp only [step, hat.ip, h0, hat.regs, hpop, if_pos hball]
      obtain ⟨hat₁, hkept₁⟩ := hat.goto r' (e + 6)
      obtain ⟨m₂, hm₂, hat₂, hkept₂⟩ := exit_ends entry hentered hkept₁ hat₁ h6
      simp only [if_pos hball]
      exact ⟨m₂, .tail (.single hstep) hm₂, hat₂, hkept₂⟩
    · simp only [if_neg hball]
      intro hframe
      have hstep : step code entry m = some (m.next.setRegs r) := by
        simp only [step, hat.ip, h0, hat.regs, hpop, if_neg hball]
        rw [← hat.regs]
        rfl
      obtain ⟨hat₁, hkept₁⟩ := hat.next r
      obtain ⟨m₂, hm₂, hat₂, hkept₂⟩ := backtrace_ends entry hat₁ h1 h2
      have hkept := hkept₁.trans hkept₂
      have hhandler : m₂.handler ≠ 0 := by
        have := hkept.handler
        omega
      have hstep₂ : step code entry m₂ = some m₂.next := by
        simp only [step, hat₂.ip, h3, if_neg hhandler]
      have hip : code[m₂.next.ip]? = some .fastThrow := by
        rw [Machine.next, hat₂.ip]
        exact h4
      have hpop₂ : m₂.next.toRegs.pop = some (ball, r'.thrown) := by
        rw [Machine.next, hat₂.regs]
        exact pop_thrown hpop
      have hsteps₁ : Steps code entry m (m.next.setRegs r) := .single hstep
      have hsteps : Steps code entry m m₂.next := (hsteps₁.trans hm₂).tail hstep₂
      have hkept' : Kept base m m₂.next :=
        (hkept.mono (by omega)).trans ⟨rfl, fun _ _ => rfl⟩
      exact (fastThrow_ends entry (b := b) hip hpop₂).of_steps hsteps hkept'
        hentered.handler hframe

/-- Calls follow the meaning of words. -/
theorem CallsOk.succ (hload : Loaded code entry words) (hcalls : CallsOk code entry words n)
    (hpieces : PiecesOk code entry words n) : CallsOk code entry words (n + 1) := by
  intro w e m b base r u hentry hentered
  match w with
  | 0 =>
    obtain ⟨e', he', hcode⟩ := hload.catch'
    obtain rfl := Option.some.inj (he'.symm.trans hentry)
    exact catch_ends hload hcalls hcode hentered
  | 1 =>
    obtain ⟨e', he', hcode⟩ := hload.throw
    obtain rfl := Option.some.inj (he'.symm.trans hentry)
    exact throw_ends hcode hentered
  | k + 2 =>
    rw [eval]
    cases hword : words[k]? with
    | none => trivial
    | some p =>
      obtain ⟨e', he', hcode⟩ := hload.word k p hword
      obtain rfl := Option.some.inj (he'.symm.trans hentry)
      obtain ⟨hbody, hexit⟩ := codeAt_append.mp hcode
      rw [p.length_layout] at hexit
      exact .leave hentered hexit.1 (hpieces hbody hentered.toAt)

/-! ## Source code -/

/-- One step is the end. -/
theorem Ends.ok_of_step {u' : List Cell}
    (h : ∃ m', step code entry m = some m' ∧ At m' b base r' u' ∧ Kept base m m') :
    Ends code entry m base b (.ok r' u') := by
  obtain ⟨m', hm', hat, hkept⟩ := h
  exact ⟨m', .single hm', hat, hkept⟩

theorem Ends.cast {c : Nat} (h : Ends code entry m base b o) (heq : b = c) :
    Ends code entry m base c o :=
  heq ▸ h

/-- Code that is followed by a branch -/
theorem Ends.branch {c : Nat} (h : Ends code entry m base b o)
    (hcode : code[b]? = some (.branch c)) : Ends code entry m base c o := by
  cases o with
  | ok r u =>
    obtain ⟨m₁, hm₁, hat₁, hkept₁⟩ := h
    obtain ⟨m₂, hm₂, hat₂, hkept₂⟩ := branch_ends entry hat₁ hcode
    exact ⟨m₂, hm₁.tail hm₂, hat₂, hkept₁.trans hkept₂⟩
  | threw ball r => exact h
  | stuck => trivial
  | timeout => trivial

/-- A conditional does what it means. -/
theorem ifElse_ends (ih : PiecesOk code entry words n) {p q : Prog}
    (hcode : CodeAt code a ((Prog.ifElse p q).layout a)) (hat : At m a base r u) :
    Ends code entry m base (a + (Prog.ifElse p q).size) (eval words (n + 1) (.ifElse p q) r u) := by
  obtain ⟨⟨hif, hp⟩, helse, hq⟩ := codeAt_append.mp hcode
  simp only [List.length_cons, p.length_layout] at helse hq
  have hend : a + (Prog.ifElse p q).size = a + p.size + q.size + 2 := by
    rw [Prog.size]
    omega
  rw [eval, Outcome.pop, hend]
  cases hpop : r.pop with
  | none => trivial
  | some popped =>
    obtain ⟨x, r'⟩ := popped
    obtain ⟨m₁, hm₁, hat₁, hkept₁⟩ := qBranch_ends entry hat hif hpop
    refine .of_step hm₁ hkept₁ hat.handler ?_
    by_cases hx : x = 0
    · simp only [if_pos hx] at hat₁ ⊢
      exact (ih hq hat₁).cast (by omega)
    · simp only [if_neg hx] at hat₁ ⊢
      exact ((ih hp hat₁).cast (by omega)).branch helse

/-- A loop does what it means. -/
theorem whileRepeat_ends (ih : PiecesOk code entry words n) {p q : Prog}
    (hcode : CodeAt code a ((Prog.whileRepeat p q).layout a)) (hat : At m a base r u) :
    Ends code entry m base (a + (Prog.whileRepeat p q).size)
      (eval words (n + 1) (.whileRepeat p q) r u) := by
  obtain ⟨hhead, hrepeat, -⟩ := codeAt_append.mp hcode
  obtain ⟨hp, hwhile, hq⟩ := codeAt_append.mp hhead
  simp only [List.length_append, List.length_cons, p.length_layout, q.length_layout]
    at hwhile hq hrepeat
  have hend : a + (Prog.whileRepeat p q).size = a + p.size + q.size + 2 := by
    rw [Prog.size]
    omega
  rw [eval]
  refine .bind hat.handler (ih hp hat) ?_
  intro m₁ r₁ u₁ hat₁
  rw [Outcome.pop, hend]
  cases hpop : r₁.pop with
  | none => trivial
  | some popped =>
    obtain ⟨x, r₂⟩ := popped
    obtain ⟨m₂, hm₂, hat₂, hkept₂⟩ := qBranch_ends entry hat₁ hwhile hpop
    refine .of_step hm₂ hkept₂ hat₁.handler ?_
    by_cases hx : x = 0
    · simp only [if_pos hx] at hat₂ ⊢
      exact .refl hat₂
    · simp only [if_neg hx] at hat₂ ⊢
      refine (((ih hq hat₂).cast (by omega)).branch hrepeat).bind hat₂.handler ?_
      intro m₃ r₃ u₃ hat₃
      rw [← hend]
      exact ih hcode hat₃

/-- {lit}`try` with {lit}`iferror` does what it means. -/
theorem tryIferror_ends (ih : PiecesOk code entry words n) {body handler rest : Prog}
    (hcode : CodeAt code a ((Prog.tryIferror body handler rest).layout a)) (hat : At m a base r u) :
    Ends code entry m base (a + (Prog.tryIferror body handler rest).size)
      (eval words (n + 1) (.tryIferror body handler rest) r u) := by
  obtain ⟨hhead, huncatch, -⟩ := codeAt_append.mp hcode
  obtain ⟨hhead, hrest⟩ := codeAt_append.mp hhead
  obtain ⟨⟨htry, hbody⟩, hbranch, hhandler⟩ := codeAt_append.mp hhead
  simp only [List.length_append, List.length_cons, body.length_layout, handler.length_layout,
    rest.length_layout] at hbranch hhandler hrest huncatch
  have hrest' : a + (body.size + 1 + (handler.size + 1)) = a + body.size + handler.size + 2 := by
    omega
  have huncatch' : a + (body.size + 1 + (handler.size + 1) + rest.size) =
      a + body.size + handler.size + 2 + rest.size := by
    omega
  have hend : a + (Prog.tryIferror body handler rest).size =
      a + body.size + handler.size + 2 + rest.size + 1 := by
    rw [Prog.size]
    omega
  rw [hrest'] at hrest
  rw [huncatch'] at huncatch
  obtain ⟨m₁, hm₁, hat₁, hinside₁⟩ := parenTry_ends entry hat htry
  have hthen : ∀ m₂ r₂ u₂, At m₂ (a + body.size + handler.size + 2) (base + u.length + 6) r₂ u₂ →
      Ends code entry m₂ (base + u.length + 6) (a + body.size + handler.size + 2 + rest.size)
        (eval words n rest r₂ u₂) :=
    fun m₂ r₂ u₂ hat₂ => ih hrest hat₂
  rw [eval, hend]
  refine Left.ends (.single hm₁) (region_ends hat hinside₁ huncatch ?_ ?_)
  · exact (((ih hbody hat₁).cast (by omega)).branch hbranch).bind hat₁.handler hthen
  · intro m₂ r₂ hat₂
    exact ((ih hhandler hat₂).cast (by omega)).bind hat₂.handler hthen

/-- {lit}`endtry-iferror` does what it means. -/
theorem tryEndtryIferror_ends (ih : PiecesOk code entry words n) {body handler : Prog}
    (hcode : CodeAt code a ((Prog.tryEndtryIferror body handler).layout a))
    (hat : At m a base r u) :
    Ends code entry m base (a + (Prog.tryEndtryIferror body handler).size)
      (eval words (n + 1) (.tryEndtryIferror body handler) r u) := by
  obtain ⟨⟨htry, hbody⟩, hendtry, hbranch, huncatch, hhandler⟩ := codeAt_append.mp hcode
  simp only [List.length_cons, body.length_layout] at hendtry hbranch huncatch hhandler
  have hend : a + (Prog.tryEndtryIferror body handler).size =
      a + body.size + handler.size + 4 := by
    rw [Prog.size]
    omega
  obtain ⟨m₁, hm₁, hat₁, hinside₁⟩ := parenTry_ends entry hat htry
  have hends := (ih hbody hat₁).cast (c := a + (body.size + 1)) (by omega)
  rw [eval, hend]
  generalize eval words n body r.enter [] = o at hends
  cases o with
  | ok r' u' =>
    cases u' with
    | nil =>
      have hleft := hends.endtry hat hinside₁ hendtry (by simp)
      exact (Left.ends (.single hm₁) hleft).branch hbranch
    | cons x u' => trivial
  | threw ball r' =>
    obtain ⟨m₂, hm₂, hrec, hkept₂⟩ := hends (by rw [hinside₁.handler]; omega)
    obtain ⟨hat₂, hinside₂⟩ := Recovered.toAt hinside₁ hrec hkept₂
    obtain ⟨m₃, hm₃, hat₃, hkept₃⟩ := uncatch_ends entry hat hinside₂ hat₂ huncatch
    rw [hat.regs] at hat₃
    have hsteps₁ : Steps code entry m m₁ := .single hm₁
    refine .of_steps (hsteps₁.trans (hm₂.tail hm₃)) hkept₃ hat.handler ?_
    exact (ih hhandler hat₃).cast (by omega)
  | stuck => trivial
  | timeout => trivial

/-- Source code is followed if words are. -/
theorem PiecesOk.succ (hload : Loaded code entry words) (hcalls : CallsOk code entry words n)
    (hcalls' : CallsOk code entry words (n + 1)) (ih : PiecesOk code entry words n) :
    PiecesOk code entry words (n + 1) := by
  intro p m a base r u hcode hat
  cases p with
  | skip =>
    rw [eval]
    exact .refl hat
  | prim f =>
    rw [eval]
    cases hf : f r with
    | none => trivial
    | some r' => exact .ok_of_step (prim_ends entry hat hcode.1 hf)
  | toR =>
    rw [eval, Outcome.pop]
    cases hpop : r.pop with
    | none => trivial
    | some popped => exact .ok_of_step (toR_ends hat hcode.1 hpop)
  | rFrom =>
    cases u with
    | nil => trivial
    | cons x u => exact .ok_of_step (rFrom_ends hat hcode.1)
  | toO =>
    rw [eval, Outcome.pop]
    cases hpop : r.pop with
    | none => trivial
    | some popped => exact .ok_of_step (toO_ends hat hcode.1 hpop)
  | oFrom =>
    cases u with
    | nil => trivial
    | cons x u => exact .ok_of_step (oFrom_ends hat hcode.1)
  | call w =>
    cases hentry : entry w with
    | none =>
      rcases eval_call_none hload (n := n + 1) hentry r u with hstuck | htimeout
      · rw [hstuck]
        trivial
      · rw [htimeout]
        trivial
    | some e =>
      obtain ⟨m₁, hm₁, hentered, hkept⟩ := call_ends entry hat hcode.1 hentry
      exact .of_step hm₁ hkept hat.handler (hcalls' hentry hentered)
  | execute =>
    rw [eval, Outcome.pop]
    cases hpop : r.pop with
    | none => trivial
    | some popped =>
      obtain ⟨xt, r'⟩ := popped
      simp only
      cases hentry : entry xt.toNat with
      | none =>
        rcases eval_call_none hload (n := n) hentry r' u with hstuck | htimeout
        · rw [hstuck]
          trivial
        · rw [htimeout]
          trivial
      | some e =>
        obtain ⟨m₁, hm₁, hentered, hkept⟩ := execute_ends hat hcode.1 hpop hentry
        exact .of_step hm₁ hkept hat.handler (hcalls hentry hentered)
  | fastThrow =>
    rw [eval, Outcome.pop]
    cases hpop : r.pop with
    | none => trivial
    | some popped =>
      rw [← hat.regs] at hpop
      exact fastThrow_ends entry (by rw [hat.ip]; exact hcode.1) hpop
  | seq p q =>
    obtain ⟨hp, hq⟩ := codeAt_append.mp hcode
    rw [p.length_layout] at hq
    rw [eval]
    refine .bind hat.handler (ih hp hat) fun m₁ r₁ u₁ hat₁ => ?_
    exact (ih hq hat₁).cast (Nat.add_assoc _ _ _)
  | ifElse p q => exact ifElse_ends ih hcode hat
  | whileRepeat p q => exact whileRepeat_ends ih hcode hat
  | tryIferror body handler rest => exact tryIferror_ends ih hcode hat
  | tryEndtryIferror body handler => exact tryEndtryIferror_ends ih hcode hat

/-- The virtual machine follows the meaning of source code. -/
theorem eval_ends (hload : Loaded code entry words) (n : Nat) :
    CallsOk code entry words n ∧ PiecesOk code entry words n := by
  induction n with
  | zero =>
    constructor
    · intro w e m b base r u _ _
      trivial
    · intro p m a base r u _ _
      trivial
  | succ n ih =>
    have hcalls : CallsOk code entry words (n + 1) := .succ hload ih.1 ih.2
    exact ⟨hcalls, .succ hload ih.1 hcalls ih.2⟩

/-! ## Restoring -/

/-- The depths are those of {lit}`m`, and the ball is on {lit}`depth` other cells. -/
structure Restored (m m' : Machine) (depth : Nat) (ball : Cell) : Prop where
  sp : m'.sp = depth + 1
  ball : m'.ds depth = ball
  fp : m'.fp = m.fp
  lp : m'.lp = m.lp
  op : m'.op = m.op

/-- The depths behind an exception -/
theorem restored_recover {ball : Cell} (hregs : m'.toRegs = m.toRegs.recover ball r') :
    Restored m m' m.sp ball := by
  refine ⟨?_, ?_, ?_, ?_, ?_⟩
  all_goals rw [hregs]
  · rfl
  · exact Function.update_self _ _ _
  · rfl
  · rfl
  · rfl

theorem nip_recover (ball : Cell) (r' : Regs) (hsp : r.sp = n + 1) :
    ∃ r₄, (r.recover ball r').nip = some r₄ ∧ r₄.sp = n + 1 ∧ r₄.ds n = ball ∧ r₄.fp = r.fp ∧
      r₄.lp = r.lp ∧ r₄.op = r.op := by
  simp [Regs.nip, Regs.pop, Regs.recover, Regs.push, hsp]

/-- What {lit}`catch` and {lit}`try` guarantee in a program: {lit}`catch` continues behind its call
with the same depths and the same handler after an exception in the word that it executes, and with
0 on the stack if the word returns.  An exception in any code inside a {lit}`try` that was entered
in {lit}`m` continues with the recovery code of this {lit}`try`, still inside it, and code that
returns is still inside it; {lit}`endtry` sets the handler and the depth of the return stack to
those of {lit}`m`. -/
structure Restores (code : List Instr) (entry : Nat → Option Nat) (words : List Prog) : Prop where
  catch_threw : ∀ {m a base r u xt r₁ n ball r₂}, At m a base r u →
    CodeAt code a [.call 0] → r.enter.pop = some (xt, r₁) →
    eval words n (.call xt.toNat) r₁ [] = .threw ball r₂ →
    ∃ m', Steps code entry m m' ∧ m'.ip = a + 1 ∧ Restored m m' (m.sp - 1) ball ∧
      m'.rp = m.rp ∧ Cells m'.rs base u ∧ Kept base m m'
  catch_ok : ∀ {m a base r u xt r₁ n r₂}, At m a base r u →
    CodeAt code a [.call 0] → r.enter.pop = some (xt, r₁) →
    eval words n (.call xt.toNat) r₁ [] = .ok r₂ [] →
    ∃ m', Steps code entry m m' ∧ m'.ip = a + 1 ∧ m'.toRegs = r₂.push 0 ∧
      m'.rp = m.rp ∧ Cells m'.rs base u ∧ Kept base m m'
  try_enter : ∀ {m a base r u recovery}, At m a base r u →
    CodeAt code a [.parenTry recovery] →
    ∃ m', step code entry m = some m' ∧ At m' (a + 1) (m.rp + 6) r.enter [] ∧
      Inside m m' recovery m.rp
  try_threw : ∀ {m m₂ recovery c r₂ u₂ n ball r₃} {p : Prog}, Inside m m₂ recovery m.rp →
    At m₂ c (m.rp + 6) r₂ u₂ → CodeAt code c (p.layout c) →
    eval words n p r₂ u₂ = .threw ball r₃ →
    ∃ m', Steps code entry m₂ m' ∧ m'.ip = recovery ∧ Restored m m' m.sp ball ∧
      m'.rp = m.rp + 6 ∧ Inside m m' recovery m.rp
  try_ok : ∀ {m m₂ recovery c r₂ u₂ n r₃ u₃} {p : Prog}, Inside m m₂ recovery m.rp →
    At m₂ c (m.rp + 6) r₂ u₂ → CodeAt code c (p.layout c) →
    eval words n p r₂ u₂ = .ok r₃ u₃ →
    ∃ m', Steps code entry m₂ m' ∧ At m' (c + p.size) (m.rp + 6) r₃ u₃ ∧
      Inside m m' recovery m.rp
  endtry : ∀ {m a base r u m₂ recovery c r₂}, At m a base r u → Inside m m₂ recovery m.rp →
    At m₂ c (m.rp + 6) r₂ [] → CodeAt code c [.uncatch] →
    ∃ m', step code entry m₂ = some m' ∧ At m' (c + 1) base r₂ u ∧ m'.rp = m.rp ∧ Kept base m m'

/-- Code that follows the meaning restores the state. -/
theorem restores_of_loaded (hload : Loaded code entry words) : Restores code entry words where
  catch_threw := by
    intro m a base r u xt r₁ n ball r₂ hat hcode hpop heval
    have hsp : r.sp = r.sp - 1 + 1 := by
      rw [Regs.pop] at hpop
      split at hpop
      · cases hpop
      · rename_i k hk
        have : r.sp = k + 1 := hk
        omega
    obtain ⟨r₄, hnip, hsp₄, hball, hfp, hlp, hop⟩ := nip_recover ball r₂ hsp
    have hends := (eval_ends hload (n + 1)).2 (p := .call 0) hcode hat
    simp only [eval, Outcome.pop, hpop, heval, Outcome.leave, hnip] at hends
    obtain ⟨m', hm', hat', hkept⟩ := hends
    refine ⟨m', hm', hat'.ip, ?_, by rw [hat'.rp, hat.rp], hat'.cells, hkept⟩
    rw [← hat.regs] at hsp₄ hball hfp hlp hop
    refine ⟨?_, ?_, ?_, ?_, ?_⟩
    all_goals rw [hat'.regs]
    · exact hsp₄
    · exact hball
    · exact hfp
    · exact hlp
    · exact hop
  catch_ok := by
    intro m a base r u xt r₁ n r₂ hat hcode hpop heval
    have hends := (eval_ends hload (n + 1)).2 (p := .call 0) hcode hat
    simp only [eval, Outcome.pop, hpop, heval, Outcome.leave] at hends
    obtain ⟨m', hm', hat', hkept⟩ := hends
    exact ⟨m', hm', hat'.ip, hat'.regs, by rw [hat'.rp, hat.rp], hat'.cells, hkept⟩
  try_enter := by
    intro m a base r u recovery hat hcode
    rw [hat.rp]
    exact parenTry_ends entry hat hcode.1
  try_threw := by
    intro m m₂ recovery c r₂ u₂ n ball r₃ p hinside hat hcode heval
    have hends := (eval_ends hload n).2 hcode hat
    rw [heval] at hends
    obtain ⟨m', hm', hrec, hkept⟩ := hends (by rw [hinside.handler]; omega)
    obtain ⟨hat', hinside'⟩ := Recovered.toAt hinside hrec hkept
    exact ⟨m', hm', hat'.ip, restored_recover hat'.regs, hat'.rp, hinside'⟩
  try_ok := by
    intro m m₂ recovery c r₂ u₂ n r₃ u₃ p hinside hat hcode heval
    have hends := (eval_ends hload n).2 hcode hat
    rw [heval] at hends
    obtain ⟨m', hm', hat', hkept⟩ := hends
    exact ⟨m', hm', hat', hinside.of_kept hkept⟩
  endtry := by
    intro m a base r u m₂ recovery c r₂ hat₀ hinside hat hcode
    rw [hat₀.rp] at hinside hat ⊢
    obtain ⟨m', hm', hat', hkept⟩ := uncatch_ends entry hat₀ hinside hat hcode.1
    exact ⟨m', hm', hat', hat'.rp, hkept⟩

/-- In every program, exceptions restore the state. -/
theorem catch_throw_restore (words : List Prog) :
    Restores (image words).code (fun w => (image words).entries[w]?) words :=
  restores_of_loaded (image_loaded words).1

/-- {lit}`: foo 7 throw ;`, {lit}`: bar 5 ;`, and a word that uses {lit}`catch` and {lit}`try` -/
def throwing : List Prog :=
  [.seq (.prim (Regs.lit 7)) (.call 1), .prim (Regs.lit 5),
    .seq (.call 0) (.tryIferror (.seq (.call 3) (.call 2)) .skip .skip)]

/-- At an address, with one cell on the data stack -/
def startAt (ip : Nat) (x : Cell) : Machine where
  ds _ := x
  sp := 1
  fs _ := 0
  fp := 0
  ls _ := 0
  lp := 0
  op := 0
  firstThrow := -1
  ip := ip
  rs _ := 0
  rp := 0
  handler := 0

theorem startAt_at (ip : Nat) (x : Cell) : At (startAt ip x) ip 0 (startAt ip x).toRegs [] where
  ip := rfl
  regs := rfl
  rp := rfl
  cells := trivial
  handler := Nat.le_refl 0

/-- {lit}`catch` of {lit}`foo` and of {lit}`bar`, and {lit}`try bar foo restore endtry` -/
theorem catch_throw_restore_throwing :
    let code := (image throwing).code
    let entry := fun w => (image throwing).entries[w]?
    (∃ m', Steps code entry (startAt 21 2) m' ∧ m'.ip = 22 ∧ Restored (startAt 21 2) m' 0 7) ∧
      (∃ m', Steps code entry (startAt 21 3) m' ∧ m'.ip = 22 ∧ m'.sp = 2 ∧ m'.ds 0 = 5 ∧
        m'.ds 1 = 0) ∧
      ∃ m', Steps code entry (startAt 22 9) m' ∧ m'.ip = 27 ∧ m'.handler = 0 ∧ m'.rp = 0 ∧
        Restored (startAt 22 9) m' 1 7 := by
  have hrestores := catch_throw_restore throwing
  refine ⟨?_, ?_, ?_⟩
  · obtain ⟨m', hsteps, hip, hrestored, -⟩ :=
      hrestores.catch_threw (n := 5) (startAt_at 21 2) ⟨rfl, trivial⟩ rfl rfl
    exact ⟨m', hsteps, hip, hrestored⟩
  · obtain ⟨m', hsteps, hip, hregs, -⟩ :=
      hrestores.catch_ok (n := 5) (startAt_at 21 3) ⟨rfl, trivial⟩ rfl rfl
    refine ⟨m', hsteps, hip, ?_, ?_, ?_⟩
    all_goals
      rw [hregs]
      rfl
  · obtain ⟨m₁, hstep, hat₁, hinside₁⟩ := hrestores.try_enter (startAt_at 22 9) ⟨rfl, trivial⟩
    obtain ⟨m₂, hsteps₂, hat₂, hinside₂⟩ :=
      hrestores.try_ok (p := .call 3) (n := 5) hinside₁ hat₁ ⟨rfl, trivial⟩ rfl
    obtain ⟨m₃, hsteps₃, hip₃, hrestored, hrp₃, hinside₃⟩ :=
      hrestores.try_threw (p := .call 2) (n := 5) hinside₂ hat₂ ⟨rfl, trivial⟩ rfl
    have hat₃ : At m₃ 26 6 m₃.toRegs [] := ⟨hip₃, rfl, hrp₃, trivial, Nat.le_of_eq hinside₃.handler⟩
    obtain ⟨m₄, hstep₄, hat₄, hrp₄, hkept⟩ :=
      hrestores.endtry (startAt_at 22 9) hinside₃ hat₃ ⟨rfl, trivial⟩
    have hsteps₁ : Steps (image throwing).code (fun w => (image throwing).entries[w]?)
        (startAt 22 9) m₁ := .single hstep
    refine ⟨m₄, ((hsteps₁.trans hsteps₂).trans hsteps₃).tail hstep₄, hat₄.ip, hkept.handler, hrp₄,
      ?_⟩
    obtain ⟨hsp, hball, hfp, hlp, hop⟩ := hrestored
    refine ⟨?_, ?_, ?_, ?_, ?_⟩
    all_goals rw [hat₄.regs]
    all_goals assumption

end Exceptions
end Gforth
