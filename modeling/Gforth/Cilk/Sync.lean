import Gforth.Cilk.Tasks
import Mathlib.Algebra.BigOperators.Group.Finset.Basic
import Mathlib.Order.Interval.Finset.Nat

/-!
# Syncing waits for what was spawned

Every worker either is free, or some task is owed an event for what it has spawned there, and
{lit}`sync#` counts the workers for which a task is owed an event.  This only holds if a program
that is executed by a worker syncs after it has spawned something: otherwise the worker gets an
event while it waits for the next program, and then sends a second event to its invoker.

Main results:

- Theorem {lit}`step_inv`: the invariant of the tasks.
- Theorem {lit}`cilkSync_waits`: what holds in all runs.
-/

namespace Gforth
namespace Cilk

variable {σ : Type}

/-! ## Programs that sync -/

section Programs

variable (next : σ → Act σ)

/-- What a program becomes, and whether it has synced since it has spawned something -/
inductive Follows : Bool → σ → Bool → σ → Prop where
  | refl (b : Bool) (p : σ) : Follows b p b p
  | work {b b' : Bool} {p q q' : σ} : Follows b p b' q → next q = .work q' → Follows b p b' q'
  | spawn {b b' : Bool} {p q child q' : σ} :
      Follows b p b' q → next q = .spawn child q' → Follows b p false q'
  | sync {b b' : Bool} {p q q' : σ} : Follows b p b' q → next q = .sync q' → Follows b p true q'

/-- The programs that are spawned in the end by {lit}`main` -/
inductive Spawned (main : σ) : σ → Prop where
  | main {b : Bool} {q child q' : σ} :
      Follows next true main b q → next q = .spawn child q' → Spawned main child
  | nested {b : Bool} {p q child q' : σ} :
      Spawned main p → Follows next true p b q → next q = .spawn child q' → Spawned main child

/-- Every spawned program has synced since it has spawned something when it ends. -/
def SyncsLast (main : σ) : Prop :=
  ∀ p, Spawned next main p → ∀ b q, Follows next true p b q → next q = .done → b = true

end Programs

/-! ## The state of workers -/

/-- The state of a worker, with the task that is owed an event: in the list of workers; taken from
it by a task; with a program in its pipe; executing a program; before {lit}`+worker`; and with the
event of {lit}`+worker` in the pipe of its invoker -/
inductive Status (σ : Type) where
  | free
  | held (task : Nat)
  | queued (id : Nat) (p : σ) (owner : Nat)
  | running (id owner : Nat)
  | finishing (owner : Nat)
  | done (owner : Nat)

namespace Status

/-- The task that is owed an event -/
def owner : Status σ → Option Nat
  | free | held _ => none
  | queued _ _ owner | running _ owner | finishing owner | done owner => some owner

/-- The worker waits in the loop of {lit}`worker-thread`. -/
def Waiting : Status σ → Prop
  | free | held _ | queued _ _ _ | done _ => True
  | running _ _ | finishing _ => False

end Status

/-- The workers -/
def IsWorker (cores t : Nat) : Prop :=
  1 ≤ t ∧ t ≤ cores

section Owed

variable {cores : Nat} {st : Nat → Status σ} {w t : Nat}

/-- The number of workers for which a task is owed an event -/
def owed (cores : Nat) (st : Nat → Status σ) (t : Nat) : Nat :=
  ∑ w ∈ Finset.Icc 1 cores, if (st w).owner = some t then 1 else 0

/-- A change of one worker changes what is owed to a task by one at most. -/
theorem owed_update (hw : IsWorker cores w) (x : Status σ) (t : Nat) :
    owed cores (Function.update st w x) t + (if (st w).owner = some t then 1 else 0) =
      owed cores st t + (if x.owner = some t then 1 else 0) := by
  have hmem : w ∈ Finset.Icc 1 cores := Finset.mem_Icc.mpr hw
  rw [owed, owed, ← Finset.sum_erase_add _ _ hmem, ← Finset.sum_erase_add _ _ hmem]
  have hsum : ∑ v ∈ (Finset.Icc 1 cores).erase w,
        (if ((Function.update st w x) v).owner = some t then 1 else 0) =
      ∑ v ∈ (Finset.Icc 1 cores).erase w, if (st v).owner = some t then 1 else 0 := by
    refine Finset.sum_congr rfl fun v hv => ?_
    rw [Function.update_of_ne (Finset.ne_of_mem_erase hv)]
  rw [hsum, Function.update_self]
  omega

/-- Another state of a worker that owes an event to the same task -/
theorem owed_update_of_owner_eq (hw : IsWorker cores w) {x : Status σ}
    (hx : x.owner = (st w).owner) (t : Nat) :
    owed cores (Function.update st w x) t = owed cores st t := by
  have hupdate : owed cores (Function.update st w x) t + _ = owed cores st t + _ :=
    owed_update hw x t
  rw [hx] at hupdate
  omega

/-- Nothing is owed to a task that owns no worker. -/
theorem owed_eq_zero : owed cores st t = 0 ↔ ∀ w, IsWorker cores w → (st w).owner ≠ some t := by
  rw [owed, Finset.sum_eq_zero_iff]
  constructor
  · intro h w hw howner
    have := h w (Finset.mem_Icc.mpr hw)
    rw [if_pos howner] at this
    cases this
  · intro h w hw
    exact if_neg (h w (Finset.mem_Icc.mp hw))

end Owed

/-! ## The invariant -/

/-- What a task does in a program -/
inductive Phase (σ : Type) where
  | plain
  | spawning (child : σ)
  | sending (child : σ) (w : Nat)
  | syncing

/-- The frames above the program -/
inductive Above : Phase σ → List (Frame σ) → Prop where
  | plain : Above .plain []
  | spawning (child : σ) : Above (.spawning child) [.take child]
  | spawningStop (child : σ) : Above (.spawning child) [.stop, .take child]
  | spawningEvents (child : σ) : Above (.spawning child) [.events, .take child]
  | sending (child : σ) (w : Nat) : Above (.sending child w) [.send child w]
  | syncing : Above .syncing [.sync]
  | syncingStop : Above .syncing [.stop, .sync]
  | syncingEvents : Above .syncing [.events, .sync]

section Invariant

variable (next : σ → Act σ) (main : σ) (cores : Nat)

/-- The programs that a task may execute -/
def Executes (t : Nat) (b : Bool) (q : σ) : Prop :=
  if t = 0 then ∃ b', Follows next true main b' q
  else ∃ p, Spawned next main p ∧ Follows next true p b q

/-- What is known about the program that a task executes -/
def PhaseOk (st : Nat → Status σ) (t : Nat) (p : σ) : Phase σ → Prop
  | .plain => ∃ b, Executes next main t b p ∧ (b = true → owed cores st t = 0)
  | .spawning child => Spawned next main child ∧ Executes next main t false p
  | .sending child w =>
      Spawned next main child ∧ Executes next main t false p ∧ IsWorker cores w ∧ st w = .held t
  | .syncing => Executes next main t true p

/-- The frames below the program of a task -/
inductive Base (st : Nat → Status σ) (invoker : Nat) : Nat → Nat → List (Frame σ) → Prop where
  | main : Base st invoker 0 0 []
  | worker {t id : Nat} (hworker : IsWorker cores t) (hstatus : st t = .running id invoker) :
      Base st invoker t id [.events, .announce]

/-- What a task does -/
inductive TaskOk (st : Nat → Status σ) (t invoker : Nat) (stack : List (Frame σ)) : Prop where
  | active {id : Nat} {p : σ} {phase : Phase σ} {above base : List (Frame σ)}
      (hstack : stack = above ++ .xt id p :: base) (habove : Above phase above)
      (hphase : PhaseOk next main cores st t p phase) (hbase : Base cores st invoker t id base)
  | waiting (hworker : IsWorker cores t) (hstatus : (st t).Waiting) (howed : owed cores st t = 0)
      (hstack : stack = [.stop, .announce])
  | finishing (hworker : IsWorker cores t) (hstatus : st t = .finishing invoker)
      (howed : owed cores st t = 0) (hstack : stack = [.announce] ∨ stack = [.events, .announce])
  | ended (hworker : ¬IsWorker cores t) (hstack : stack = [])

/-- The state and what the workers do -/
structure Inv (s : State σ) (st : Nat → Status σ) : Prop where
  listed : ∀ w, w ∈ s.workers ↔ IsWorker cores w ∧ st w = .free
  nodup : s.workers.Nodup
  queue_nodup : ∀ t, (s.task t).queue.Nodup
  run : ∀ t id p f, .run id p f ∈ (s.task t).queue ↔ IsWorker cores t ∧ st t = .queued id p f
  done : ∀ t w, .done w ∈ (s.task t).queue ↔ IsWorker cores w ∧ st w = .done t
  queued : ∀ w id p f, IsWorker cores w → st w = .queued id p f → Spawned next main p
  task : ∀ t, TaskOk next main cores st t (s.task t).invoker (s.task t).stack
  sync : ∀ t, ∃ k : Nat, (s.task t).sync = k + owed cores st t
  fresh : ∀ id, s.nextId ≤ id → s.parent id = none
  unfinished : ∀ id f, s.parent id = some f → s.finished id = false →
    ∃ w, IsWorker cores w ∧ ((∃ p, st w = .queued id p f) ∨ st w = .running id f)

end Invariant

variable {next : σ → Act σ} {main : σ} {cores : Nat} {s : State σ} {st : Nat → Status σ}
variable {t w : Nat} {stack : List (Frame σ)}

/-! ## Changes of one worker -/

/-- A phase that does not depend on the change -/
theorem PhaseOk.congr {st' : Nat → Status σ} {p : σ} {phase : Phase σ}
    (h : PhaseOk next main cores st t p phase) (howed : owed cores st' t = owed cores st t)
    (hheld : ∀ v, st v = .held t → st' v = .held t) : PhaseOk next main cores st' t p phase := by
  cases phase with
  | plain =>
    obtain ⟨b, hb, hzero⟩ := h
    exact ⟨b, hb, fun htrue => howed.trans (hzero htrue)⟩
  | spawning child => exact h
  | sending child v => exact ⟨h.1, h.2.1, h.2.2.1, hheld v h.2.2.2⟩
  | syncing => exact h

/-- The tasks do not see the change of another worker. -/
theorem TaskOk.update {x : Status σ} {invoker : Nat} (h : TaskOk next main cores st t invoker stack)
    (hne : t ≠ w) (hheld : st w ≠ .held t)
    (howed : owed cores (Function.update st w x) t = owed cores st t) :
    TaskOk next main cores (Function.update st w x) t invoker stack := by
  have hst : Function.update st w x t = st t := Function.update_of_ne hne _ _
  have hheld' : ∀ v, st v = .held t → Function.update st w x v = .held t := by
    intro v hv
    have hvw : v ≠ w := by
      rintro rfl
      exact hheld hv
    rw [Function.update_of_ne hvw]
    exact hv
  cases h with
  | active hstack habove hphase hbase =>
    refine .active hstack habove (hphase.congr howed hheld') ?_
    cases hbase with
    | main => exact .main
    | worker hworker hstatus => exact .worker hworker (hst.trans hstatus)
  | waiting hworker hstatus hzero hstack =>
    exact .waiting hworker (by rwa [hst]) (howed.trans hzero) hstack
  | finishing hworker hstatus hzero hstack =>
    exact .finishing hworker (hst.trans hstatus) (howed.trans hzero) hstack
  | ended hworker hstack => exact .ended hworker hstack

/-- A waiting worker -/
theorem TaskOk.of_waiting {invoker : Nat} (h : TaskOk next main cores st t invoker stack)
    (hworker : IsWorker cores t) (hstatus : (st t).Waiting) :
    owed cores st t = 0 ∧ stack = [.stop, .announce] := by
  cases h with
  | active _ _ _ hbase =>
    cases hbase with
    | main => exact absurd hworker.1 (by decide)
    | worker _ hrunning =>
      rw [hrunning] at hstatus
      exact hstatus.elim
  | waiting _ _ hzero hstack => exact ⟨hzero, hstack⟩
  | finishing _ hfinishing =>
    rw [hfinishing] at hstatus
    exact hstatus.elim
  | ended hno => exact absurd hworker hno

section Change

variable {s' : State σ} {x : Status σ}

/-- The worker is not in the list of workers before and after the change. -/
theorem Inv.listed_of_ne (h : Inv next main cores s st) (hold : st w ≠ .free) (hnew : x ≠ .free)
    (v : Nat) : v ∈ s.workers ↔ if v = w then x = .free else v ∈ s.workers := by
  split
  · next hv =>
    subst hv
    rw [h.listed]
    exact ⟨fun hfree => absurd hfree.2 hold, fun hfree => absurd hfree hnew⟩
  · rfl

/-- The worker has no program in its pipe before and after the change. -/
theorem Inv.run_of_ne (h : Inv next main cores s st) (hold : ∀ id p f, st w ≠ .queued id p f)
    (hnew : ∀ id p f, x ≠ .queued id p f) (u id : Nat) (p : σ) (f : Nat) :
    .run id p f ∈ (s.task u).queue ↔
      if u = w then x = .queued id p f else .run id p f ∈ (s.task u).queue := by
  split
  · next hu =>
    subst hu
    rw [h.run]
    exact ⟨fun hrun => absurd hrun.2 (hold id p f), fun hrun => absurd hrun (hnew id p f)⟩
  · rfl

/-- The event of the worker is not in a pipe before and after the change. -/
theorem Inv.done_of_ne (h : Inv next main cores s st) (hold : ∀ f, st w ≠ .done f)
    (hnew : ∀ f, x ≠ .done f) (u v : Nat) :
    .done v ∈ (s.task u).queue ↔ if v = w then x = .done u else .done v ∈ (s.task u).queue := by
  split
  · next hv =>
    subst hv
    rw [h.done]
    exact ⟨fun hdone => absurd hdone.2 (hold u), fun hdone => absurd hdone (hnew u)⟩
  · rfl

/-- The status of a worker changes. -/
theorem Inv.change (h : Inv next main cores s st) (hw : IsWorker cores w)
    (hlisted : ∀ v, v ∈ s'.workers ↔ if v = w then x = .free else v ∈ s.workers)
    (hnodup : s'.workers.Nodup) (hqueue : ∀ u, (s'.task u).queue.Nodup)
    (hrun : ∀ u id p f, .run id p f ∈ (s'.task u).queue ↔
      if u = w then x = .queued id p f else .run id p f ∈ (s.task u).queue)
    (hdone : ∀ u v, .done v ∈ (s'.task u).queue ↔
      if v = w then x = .done u else .done v ∈ (s.task u).queue)
    (hqueued : ∀ id p f, x = .queued id p f → Spawned next main p)
    (htask : ∀ u, TaskOk next main cores (Function.update st w x) u (s'.task u).invoker
      (s'.task u).stack)
    (hsync : ∀ u, ∃ k : Nat, (s'.task u).sync = k + owed cores (Function.update st w x) u)
    (hfresh : ∀ id, s'.nextId ≤ id → s'.parent id = none)
    (hunfinished : ∀ id f, s'.parent id = some f → s'.finished id = false →
      ∃ v, IsWorker cores v ∧ ((∃ p, Function.update st w x v = .queued id p f) ∨
        Function.update st w x v = .running id f)) :
    Inv next main cores s' (Function.update st w x) := by
  refine ⟨?_, hnodup, hqueue, ?_, ?_, ?_, htask, hsync, hfresh, hunfinished⟩
  · intro v
    rw [hlisted]
    by_cases hv : v = w
    · rw [if_pos hv, hv, Function.update_self]
      exact ⟨fun hx => ⟨hw, hx⟩, fun hx => hx.2⟩
    · rw [if_neg hv, Function.update_of_ne hv, h.listed]
  · intro u id p f
    rw [hrun]
    by_cases hu : u = w
    · rw [if_pos hu, hu, Function.update_self]
      exact ⟨fun hx => ⟨hw, hx⟩, fun hx => hx.2⟩
    · rw [if_neg hu, Function.update_of_ne hu, h.run]
  · intro u v
    rw [hdone]
    by_cases hv : v = w
    · rw [if_pos hv, hv, Function.update_self]
      exact ⟨fun hx => ⟨hw, hx⟩, fun hx => hx.2⟩
    · rw [if_neg hv, Function.update_of_ne hv, h.done]
  · intro v id p f hv hst
    by_cases hvw : v = w
    · rw [hvw, Function.update_self] at hst
      exact hqueued id p f hst
    · rw [Function.update_of_ne hvw] at hst
      exact h.queued v id p f hv hst

/-- Programs that are not affected by the change -/
theorem Inv.unfinished_update (h : Inv next main cores s st) {id f : Nat}
    (hparent : s.parent id = some f) (hfinished : s.finished id = false)
    (hqueued : ∀ p, st w ≠ .queued id p f) (hrunning : st w ≠ .running id f) :
    ∃ v, IsWorker cores v ∧ ((∃ p, Function.update st w x v = .queued id p f) ∨
      Function.update st w x v = .running id f) := by
  obtain ⟨v, hv, hst⟩ := h.unfinished id f hparent hfinished
  have hvw : v ≠ w := by
    rintro rfl
    rcases hst with ⟨p, hp⟩ | hrun
    · exact hqueued p hp
    · exact hrunning hrun
  refine ⟨v, hv, ?_⟩
  rw [Function.update_of_ne hvw]
  exact hst

end Change

/-! ## Steps of one task -/

theorem setTask_self (s : State σ) (t : Nat) (task : Task σ) : (s.setTask t task).task t = task :=
  Function.update_self _ _ _

theorem setTask_of_ne (s : State σ) (task : Task σ) {u : Nat} (hu : u ≠ t) :
    (s.setTask t task).task u = s.task u :=
  Function.update_of_ne hu _ _

theorem setStack_queue (s : State σ) (t u : Nat) (stack : List (Frame σ)) :
    ((s.setStack t stack).task u).queue = (s.task u).queue := by
  by_cases hu : u = t
  · rw [hu, State.setStack, setTask_self]
  · rw [State.setStack, setTask_of_ne _ _ hu]

theorem setStack_sync (s : State σ) (t u : Nat) (stack : List (Frame σ)) :
    ((s.setStack t stack).task u).sync = (s.task u).sync := by
  by_cases hu : u = t
  · rw [hu, State.setStack, setTask_self]
  · rw [State.setStack, setTask_of_ne _ _ hu]

/-- Sending a message changes the queue of the receiver only. -/
theorem sendEvent_stack (s : State σ) (t u : Nat) (msg : Msg σ) :
    ((s.sendEvent t msg).task u).stack = (s.task u).stack ∧
      ((s.sendEvent t msg).task u).invoker = (s.task u).invoker ∧
      ((s.sendEvent t msg).task u).sync = (s.task u).sync := by
  by_cases hu : u = t
  · rw [hu, State.sendEvent, setTask_self]
    exact ⟨rfl, rfl, rfl⟩
  · rw [State.sendEvent, setTask_of_ne _ _ hu]
    exact ⟨rfl, rfl, rfl⟩

/-- The tasks after a change of what one of them does -/
theorem TaskOk.setStack {st' : Nat → Status σ}
    (htask : TaskOk next main cores st' t (s.task t).invoker stack)
    (hother : ∀ u, u ≠ t → TaskOk next main cores st' u (s.task u).invoker (s.task u).stack)
    (u : Nat) : TaskOk next main cores st' u ((s.setStack t stack).task u).invoker
      ((s.setStack t stack).task u).stack := by
  by_cases hu : u = t
  · rw [hu, State.setStack, setTask_self]
    exact htask
  · rw [State.setStack, setTask_of_ne _ _ hu]
    exact hother u hu

/-- Only what a task does has changed. -/
theorem Inv.setStack (h : Inv next main cores s st)
    (htask : TaskOk next main cores st t (s.task t).invoker stack) :
    Inv next main cores (s.setStack t stack) st := by
  refine ⟨h.listed, h.nodup, ?_, ?_, ?_, h.queued, ?_, ?_, h.fresh, h.unfinished⟩
  · intro u
    rw [setStack_queue]
    exact h.queue_nodup u
  · intro u
    rw [setStack_queue]
    exact h.run u
  · intro u
    rw [setStack_queue]
    exact h.done u
  · exact htask.setStack fun u _ => h.task u
  · intro u
    rw [setStack_sync]
    exact h.sync u

/-- A program has ended. -/
theorem Inv.setFinished (h : Inv next main cores s st) (id : Nat) :
    Inv next main cores { s with finished := Function.update s.finished id true } st := by
  refine ⟨h.listed, h.nodup, h.queue_nodup, h.run, h.done, h.queued, h.task, h.sync, h.fresh, ?_⟩
  intro id' f hparent hfinished
  by_cases hid : id' = id
  · simp [hid] at hfinished
  · simp only [Function.update_of_ne hid] at hfinished
    exact h.unfinished id' f hparent hfinished

/-- A worker has ended the program that it executes. -/
theorem Inv.finish {id f : Nat} (h : Inv next main cores s st) (hworker : IsWorker cores t)
    (hstatus : st t = .running id f) (hinvoker : (s.task t).invoker = f)
    (howed : owed cores st t = 0) (hfinished : s.finished id = true) :
    Inv next main cores (s.setStack t [.events, .announce])
      (Function.update st t (.finishing f)) := by
  have howed' : ∀ u, owed cores (Function.update st t (.finishing f)) u = owed cores st u :=
    owed_update_of_owner_eq hworker (by rw [hstatus]; rfl)
  refine h.change hworker ?_ h.nodup ?_ ?_ ?_ ?_ ?_ ?_ h.fresh ?_
  · exact h.listed_of_ne (by simp [hstatus]) (by simp)
  · intro u
    rw [setStack_queue]
    exact h.queue_nodup u
  · intro u
    rw [setStack_queue]
    exact h.run_of_ne (by simp [hstatus]) (by simp) u
  · intro u
    rw [setStack_queue]
    exact h.done_of_ne (by simp [hstatus]) (by simp) u
  · intro id p f hx
    cases hx
  · refine TaskOk.setStack ?_ ?_
    · refine .finishing hworker ?_ ((howed' t).trans howed) (Or.inr rfl)
      rw [Function.update_self, hinvoker]
    · exact fun u hu => (h.task u).update hu (by simp [hstatus]) (howed' u)
  · intro u
    rw [setStack_sync, howed']
    exact h.sync u
  · intro id' f' hparent hfin
    refine h.unfinished_update hparent hfin (by simp [hstatus]) ?_
    rintro hrun
    rw [hstatus] at hrun
    cases hrun
    cases hfinished.symm.trans hfin

/-- The new message is in the queue of the receiver. -/
theorem mem_sendEvent_queue {msg msg' : Msg σ} {u : Nat} :
    msg' ∈ ((s.sendEvent w msg).task u).queue ↔ msg' ∈ (s.task u).queue ∨ (u = w ∧ msg' = msg) := by
  by_cases hu : u = w
  · rw [hu, State.sendEvent, setTask_self]
    simp
  · rw [State.sendEvent, setTask_of_ne _ _ hu]
    simp [hu]

/-- A new message keeps the queues free of duplicates. -/
theorem nodup_sendEvent_queue {msg : Msg σ} (hnodup : ∀ u, (s.task u).queue.Nodup)
    (hnew : msg ∉ (s.task w).queue) (u : Nat) : ((s.sendEvent w msg).task u).queue.Nodup := by
  by_cases hu : u = w
  · rw [hu, State.sendEvent, setTask_self]
    exact List.nodup_append.mpr ⟨hnodup w, List.nodup_singleton _, by
      intro a ha b hb hab
      rw [List.mem_singleton.mp hb] at hab
      exact hnew (hab ▸ ha)⟩
  · rw [State.sendEvent, setTask_of_ne _ _ hu]
    exact hnodup u

/-- {lit}`+worker` -/
theorem Inv.announce {f : Nat} (h : Inv next main cores s st) (hworker : IsWorker cores t)
    (hstatus : st t = .finishing f) (howed : owed cores st t = 0) :
    Inv next main cores ((s.setStack t [.stop, .announce]).sendEvent f (.done t))
      (Function.update st t (.done f)) := by
  have howed' : ∀ u, owed cores (Function.update st t (.done f)) u = owed cores st u :=
    owed_update_of_owner_eq hworker (by rw [hstatus]; rfl)
  refine h.change hworker ?_ h.nodup ?_ ?_ ?_ ?_ ?_ ?_ h.fresh ?_
  · exact h.listed_of_ne (by simp [hstatus]) (by simp)
  · refine nodup_sendEvent_queue ?_ ?_
    · intro u
      rw [setStack_queue]
      exact h.queue_nodup u
    · rw [setStack_queue, h.done]
      simp [hstatus]
  · intro u id p f'
    rw [mem_sendEvent_queue, setStack_queue, h.run_of_ne (w := t) (x := .done f) (by simp [hstatus])
      (by simp)]
    simp
  · intro u v
    rw [mem_sendEvent_queue, setStack_queue]
    by_cases hv : v = t
    · rw [if_pos hv, hv, h.done]
      simp [hstatus, eq_comm]
    · simp [hv]
  · intro id p f hx
    cases hx
  · intro u
    obtain ⟨hstack, hinvoker, -⟩ :=
      sendEvent_stack (s.setStack t [.stop, .announce]) f u (.done t)
    rw [hstack, hinvoker]
    refine TaskOk.setStack ?_ ?_ u
    · refine .waiting hworker ?_ ((howed' t).trans howed) rfl
      rw [Function.update_self]
      trivial
    · exact fun u hu => (h.task u).update hu (by simp [hstatus]) (howed' u)
  · intro u
    rw [(sendEvent_stack _ f u _).2.2, setStack_sync, howed']
    exact h.sync u
  · exact fun id' f' hparent hfin =>
      h.unfinished_update hparent hfin (by simp [hstatus]) (by simp [hstatus])

/-- Receiving an event -/
theorem receive_perform_queue (s : State σ) (t u : Nat) (queue : List (Msg σ))
    (rest : List (Frame σ)) (msg : Msg σ) :
    (((s.receive t queue).perform t rest msg).task u).queue =
      if u = t then queue else (s.task u).queue := by
  by_cases hu : u = t
  · rw [if_pos hu, hu]
    cases msg with
    | run _ _ _ | done _ => simp only [State.perform, State.receive, setTask_self]
  · rw [if_neg hu]
    cases msg with
    | run _ _ _ | done _ => simp only [State.perform, State.receive, setTask_of_ne _ _ hu]

/-- A worker starts to execute a program. -/
theorem Inv.receive_run {id f : Nat} {p : σ} {queue : List (Msg σ)}
    (h : Inv next main cores s st) (hqueue : (s.task t).queue = .run id p f :: queue) :
    Inv next main cores ((s.receive t queue).perform t [.announce] (.run id p f))
      (Function.update st t (.running id f)) := by
  obtain ⟨hworker, hstatus⟩ := (h.run t id p f).mp (by rw [hqueue]; exact List.mem_cons_self)
  obtain ⟨howed, -⟩ := (h.task t).of_waiting hworker (by rw [hstatus]; trivial)
  have howed' : ∀ u, owed cores (Function.update st t (.running id f)) u = owed cores st u :=
    owed_update_of_owner_eq hworker (by rw [hstatus]; rfl)
  have hnodup := h.queue_nodup t
  rw [hqueue, List.nodup_cons] at hnodup
  refine h.change hworker ?_ h.nodup ?_ ?_ ?_ ?_ ?_ ?_ h.fresh ?_
  · exact h.listed_of_ne (by simp [hstatus]) (by simp)
  · intro u
    rw [receive_perform_queue]
    split
    · exact hnodup.2
    · exact h.queue_nodup u
  · intro u id' p' f'
    rw [receive_perform_queue]
    by_cases hu : u = t
    · rw [if_pos hu, if_pos hu]
      constructor
      · intro hmem
        have hold := (h.run t id' p' f').mp (by rw [hqueue]; exact List.mem_cons_of_mem _ hmem)
        rw [hstatus] at hold
        cases hold.2
        exact absurd hmem hnodup.1
      · intro hx
        cases hx
    · rw [if_neg hu, if_neg hu]
  · intro u v
    rw [receive_perform_queue]
    have hdone := h.done_of_ne (w := t) (x := .running id f) (by simp [hstatus]) (by simp) u v
    by_cases hu : u = t
    · rw [if_pos hu, ← hdone, hu, hqueue]
      simp
    · rw [if_neg hu]
      exact hdone
  · intro id p f hx
    cases hx
  · intro u
    by_cases hu : u = t
    · subst hu
      simp only [State.perform, setTask_self]
      have hstack : (Frame.xt id p :: [.events, .announce] : List (Frame σ)) =
          [] ++ Frame.xt id p :: [.events, .announce] := rfl
      refine .active hstack .plain ⟨true, ?_, fun _ => (howed' u).trans howed⟩ ?_
      · have hne : u ≠ 0 := by
          have := hworker.1
          omega
        rw [Executes, if_neg hne]
        exact ⟨p, h.queued u id p f hworker hstatus, .refl true p⟩
      · exact .worker hworker (Function.update_self _ _ _)
    · simp only [State.perform, State.receive, setTask_of_ne _ _ hu]
      exact (h.task u).update hu (by simp [hstatus]) (howed' u)
  · intro u
    rw [howed']
    by_cases hu : u = t
    · subst hu
      simp only [State.perform, State.receive, setTask_self]
      exact h.sync u
    · simp only [State.perform, State.receive, setTask_of_ne _ _ hu]
      exact h.sync u
  · intro id' f' hparent hfin
    by_cases hid : id' = id ∧ f' = f
    · refine ⟨t, hworker, Or.inr ?_⟩
      rw [Function.update_self, hid.1, hid.2]
    · refine h.unfinished_update hparent hfin ?_ (by simp [hstatus])
      intro p' hp'
      rw [hstatus] at hp'
      cases hp'
      exact hid ⟨rfl, rfl⟩

/-- A worker that is taken from or put into the list of workers -/
theorem TaskOk.update_waiting {x : Status σ} {invoker u : Nat}
    (h : TaskOk next main cores st u invoker stack) (hw : IsWorker cores w) (hold : (st w).Waiting)
    (hnew : x.Waiting) (hheld : st w ≠ .held u)
    (howed : owed cores (Function.update st w x) u = owed cores st u) :
    TaskOk next main cores (Function.update st w x) u invoker stack := by
  by_cases hu : u = w
  · subst hu
    obtain ⟨hzero, hstack⟩ := h.of_waiting hw hold
    exact .waiting hw (by rwa [Function.update_self]) (howed.trans hzero) hstack
  · exact h.update hu hheld howed

/-- A task executes the event of {lit}`+worker`. -/
theorem Inv.receive_done {queue : List (Msg σ)} {rest : List (Frame σ)}
    (h : Inv next main cores s st) (hqueue : (s.task t).queue = .done w :: queue)
    (htask : TaskOk next main cores (Function.update st w .free) t (s.task t).invoker
      (.events :: rest)) :
    Inv next main cores ((s.receive t queue).perform t rest (.done w))
      (Function.update st w .free) := by
  obtain ⟨hw, hstatus⟩ := (h.done t w).mp (by rw [hqueue]; exact List.mem_cons_self)
  have howed : ∀ u, owed cores (Function.update st w .free) u + (if t = u then 1 else 0) =
      owed cores st u := by
    intro u
    have hupdate : owed cores (Function.update st w .free) u + _ = owed cores st u + _ :=
      owed_update hw .free u
    rw [hstatus] at hupdate
    simpa [Status.owner] using hupdate
  have hnodup := h.queue_nodup t
  rw [hqueue, List.nodup_cons] at hnodup
  refine h.change hw ?_ ?_ ?_ ?_ ?_ ?_ ?_ ?_ h.fresh ?_
  · intro v
    change v ∈ s.workers ++ [w] ↔ _
    by_cases hv : v = w
    · simp [hv]
    · simp [hv]
  · change (s.workers ++ [w]).Nodup
    refine List.nodup_append.mpr ⟨h.nodup, List.nodup_singleton _, ?_⟩
    intro a ha b hb hab
    rw [hab, List.mem_singleton.mp hb, h.listed, hstatus] at ha
    cases ha.2
  · intro u
    rw [receive_perform_queue]
    split
    · exact hnodup.2
    · exact h.queue_nodup u
  · intro u id p f
    rw [receive_perform_queue]
    have hrun := h.run_of_ne (w := w) (x := .free) (by simp [hstatus]) (by simp) u id p f
    by_cases hu : u = t
    · rw [if_pos hu, ← hrun, hu, hqueue]
      simp
    · rw [if_neg hu]
      exact hrun
  · intro u v
    rw [receive_perform_queue]
    by_cases hv : v = w
    · rw [if_pos hv, hv]
      constructor
      · intro hmem
        by_cases hu : u = t
        · rw [if_pos hu] at hmem
          exact absurd hmem hnodup.1
        · rw [if_neg hu, h.done, hstatus] at hmem
          cases hmem.2
          exact absurd rfl hu
      · intro hx
        cases hx
    · rw [if_neg hv]
      by_cases hu : u = t
      · rw [if_pos hu, hu, hqueue]
        simp [hv]
      · rw [if_neg hu]
  · intro id p f hx
    cases hx
  · intro u
    by_cases hu : u = t
    · subst hu
      simp only [State.perform, setTask_self]
      simpa only [State.receive, setTask_self] using htask
    · simp only [State.perform, State.receive, setTask_of_ne _ _ hu]
      refine (h.task u).update_waiting hw (by rw [hstatus]; trivial) trivial (by simp [hstatus]) ?_
      have := howed u
      rw [if_neg (Ne.symm hu)] at this
      exact this
  · intro u
    obtain ⟨k, hk⟩ := h.sync u
    refine ⟨k, ?_⟩
    have := howed u
    by_cases hu : u = t
    · subst hu
      simp only [State.perform, State.receive, setTask_self, if_true] at this ⊢
      omega
    · simp only [State.perform, State.receive, setTask_of_ne _ _ hu]
      rw [if_neg (Ne.symm hu)] at this
      omega
  · exact fun id' f' hparent hfin =>
      h.unfinished_update hparent hfin (by simp [hstatus]) (by simp [hstatus])

/-- {lit}`worker@` takes a worker. -/
theorem Inv.take {workers : List Nat} (h : Inv next main cores s st)
    (hworkers : s.workers = w :: workers)
    (htask : TaskOk next main cores (Function.update st w (.held t)) t (s.task t).invoker stack) :
    Inv next main cores { s.setStack t stack with workers := workers }
      (Function.update st w (.held t)) := by
  obtain ⟨hw, hstatus⟩ := (h.listed w).mp (by rw [hworkers]; exact List.mem_cons_self)
  have howed : ∀ u, owed cores (Function.update st w (.held t)) u = owed cores st u :=
    owed_update_of_owner_eq hw (by rw [hstatus]; rfl)
  have hnodup := h.nodup
  rw [hworkers, List.nodup_cons] at hnodup
  refine h.change hw ?_ hnodup.2 ?_ ?_ ?_ ?_ ?_ ?_ h.fresh ?_
  · intro v
    by_cases hv : v = w
    · simp [hv, hnodup.1]
    · simp [hv, hworkers]
  · intro u
    rw [setStack_queue]
    exact h.queue_nodup u
  · intro u
    rw [setStack_queue]
    exact h.run_of_ne (by simp [hstatus]) (by simp) u
  · intro u
    rw [setStack_queue]
    exact h.done_of_ne (by simp [hstatus]) (by simp) u
  · intro id p f hx
    cases hx
  · refine TaskOk.setStack htask ?_
    intro u _
    exact (h.task u).update_waiting hw (by rw [hstatus]; trivial) trivial (by simp [hstatus])
      (howed u)
  · intro u
    rw [setStack_sync, howed]
    exact h.sync u
  · exact fun id' f' hparent hfin =>
      h.unfinished_update hparent hfin (by simp [hstatus]) (by simp [hstatus])

/-- The state after {lit}`send-event` and {lit}`1 sync# +!` in {lit}`spawn` -/
def sentState (s : State σ) (t w : Nat) (child : σ) (rest : List (Frame σ)) : State σ :=
  let s' := s.sendEvent w (.run s.nextId child t)
  { s'.setTask t { s'.task t with sync := (s'.task t).sync + 1, stack := rest } with
    nextId := s.nextId + 1
    parent := Function.update s.parent s.nextId (some t) }

/-- The queues behind a spawn -/
theorem sentState_queue (s : State σ) (t w u : Nat) (child : σ) (rest : List (Frame σ)) :
    ((sentState s t w child rest).task u).queue =
      ((s.sendEvent w (.run s.nextId child t)).task u).queue := by
  by_cases hu : u = t
  · rw [hu]
    simp only [sentState, setTask_self]
  · simp only [sentState, setTask_of_ne _ _ hu]

/-- Sending work to an idle worker keeps the invariant. -/
theorem Inv.send {child : σ} {rest : List (Frame σ)} (h : Inv next main cores s st)
    (hw : IsWorker cores w) (hstatus : st w = .held t) (hchild : Spawned next main child)
    (htask : TaskOk next main cores (Function.update st w (.queued s.nextId child t)) t
      (s.task t).invoker rest) :
    Inv next main cores (sentState s t w child rest)
      (Function.update st w (.queued s.nextId child t)) := by
  have howed : ∀ u, owed cores (Function.update st w (.queued s.nextId child t)) u =
      owed cores st u + (if t = u then 1 else 0) := by
    intro u
    have hupdate : owed cores (Function.update st w (.queued s.nextId child t)) u + _ =
        owed cores st u + _ := owed_update hw (.queued s.nextId child t) u
    rw [hstatus] at hupdate
    simpa [Status.owner] using hupdate
  refine h.change hw ?_ h.nodup ?_ ?_ ?_ ?_ ?_ ?_ ?_ ?_
  · exact h.listed_of_ne (by simp [hstatus]) (by simp)
  · intro u
    rw [sentState_queue]
    refine nodup_sendEvent_queue h.queue_nodup ?_ u
    rw [h.run]
    simp [hstatus]
  · intro u id p f
    rw [sentState_queue, mem_sendEvent_queue]
    by_cases hu : u = w
    · rw [if_pos hu, hu, h.run]
      simp only [hstatus, reduceCtorEq, and_false, true_and, false_or, Msg.run.injEq,
        Status.queued.injEq]
      exact ⟨fun ⟨h₁, h₂, h₃⟩ => ⟨h₁.symm, h₂.symm, h₃.symm⟩,
        fun ⟨h₁, h₂, h₃⟩ => ⟨h₁.symm, h₂.symm, h₃.symm⟩⟩
    · simp [hu]
  · intro u v
    rw [sentState_queue, mem_sendEvent_queue,
      ← h.done_of_ne (w := w) (x := .queued s.nextId child t) (by simp [hstatus]) (by simp) u v]
    simp
  · intro id p f hx
    cases hx
    exact hchild
  · intro u
    obtain ⟨hstack, hinvoker, -⟩ := sendEvent_stack s w u (.run s.nextId child t)
    by_cases hu : u = t
    · subst hu
      simp only [sentState, setTask_self]
      rw [hinvoker]
      exact htask
    · simp only [sentState, setTask_of_ne _ _ hu]
      rw [hstack, hinvoker]
      refine (h.task u).update_waiting hw (by rw [hstatus]; trivial) trivial ?_ ?_
      · rw [hstatus]
        intro heq
        cases heq
        exact hu rfl
      · rw [howed, if_neg (Ne.symm hu), Nat.add_zero]
  · intro u
    obtain ⟨k, hk⟩ := h.sync u
    have hsync := (sendEvent_stack s w u (.run s.nextId child t)).2.2
    refine ⟨k, ?_⟩
    rw [howed]
    by_cases hu : u = t
    · subst hu
      simp only [sentState, setTask_self, if_true]
      omega
    · simp only [sentState, setTask_of_ne _ _ hu, if_neg (Ne.symm hu)]
      omega
  · intro id hid
    have hid' : s.nextId + 1 ≤ id := hid
    exact (Function.update_of_ne (by omega) _ _).trans (h.fresh id (by omega))
  · intro id f hparent hfinished
    change Function.update s.parent s.nextId (some t) id = some f at hparent
    by_cases hid : id = s.nextId
    · subst hid
      rw [Function.update_self] at hparent
      refine ⟨w, hw, Or.inl ⟨child, ?_⟩⟩
      rw [Function.update_self, Option.some.inj hparent]
    · rw [Function.update_of_ne hid] at hparent
      exact h.unfinished_update hparent hfinished (by simp [hstatus]) (by simp [hstatus])

/-! ## Steps of programs -/

/-- Work goes on in the same task. -/
theorem Executes.work {b : Bool} {p q : σ} (h : Executes next main t b p)
    (hnext : next p = .work q) : Executes next main t b q := by
  unfold Executes at h ⊢
  split
  · next ht =>
    rw [if_pos ht] at h
    obtain ⟨b', hb'⟩ := h
    exact ⟨b', hb'.work hnext⟩
  · next ht =>
    rw [if_neg ht] at h
    obtain ⟨r, hr, hb⟩ := h
    exact ⟨r, hr, hb.work hnext⟩

/-- A sync goes on behind its children. -/
theorem Executes.sync {b : Bool} {p q : σ} (h : Executes next main t b p)
    (hnext : next p = .sync q) : Executes next main t true q := by
  unfold Executes at h ⊢
  split
  · next ht =>
    rw [if_pos ht] at h
    obtain ⟨b', hb'⟩ := h
    exact ⟨true, hb'.sync hnext⟩
  · next ht =>
    rw [if_neg ht] at h
    obtain ⟨r, hr, hb⟩ := h
    exact ⟨r, hr, hb.sync hnext⟩

/-- A spawned program is one of the programs that run. -/
theorem Executes.spawn {b : Bool} {p child q : σ} (h : Executes next main t b p)
    (hnext : next p = .spawn child q) :
    Spawned next main child ∧ Executes next main t false q := by
  unfold Executes at h ⊢
  split
  · next ht =>
    rw [if_pos ht] at h
    obtain ⟨b', hb'⟩ := h
    exact ⟨.main hb' hnext, false, hb'.spawn hnext⟩
  · next ht =>
    rw [if_neg ht] at h
    obtain ⟨r, hr, hb⟩ := h
    exact ⟨.nested hr hb hnext, r, hr, hb.spawn hnext⟩

/-- A program that a worker executes ends synced. -/
theorem Executes.synced {b : Bool} {p : σ} (hsyncs : SyncsLast next main)
    (h : Executes next main t b p) (hworker : IsWorker cores t) (hnext : next p = .done) :
    b = true := by
  have hne : t ≠ 0 := by
    have := hworker.1
    omega
  rw [Executes, if_neg hne] at h
  obtain ⟨r, hr, hb⟩ := h
  exact hsyncs r hr b p hb hnext

section Steps

variable {s' : State σ} {id : Nat} {p : σ} {base : List (Frame σ)}

/-- A step of a program -/
theorem step_program (hsyncs : SyncsLast next main) (h : Inv next main cores s st)
    (hstack : (s.task t).stack = .xt id p :: base)
    (hphase : PhaseOk next main cores st t p .plain)
    (hbase : Base cores st (s.task t).invoker t id base) (hstep : step next t s = some s') :
    ∃ st', Inv next main cores s' st' := by
  obtain ⟨b, hexec, hzero⟩ := hphase
  rw [step, hstack] at hstep
  cases hnext : next p with
  | done =>
    simp only [hnext, Option.some.injEq] at hstep
    subst hstep
    cases hbase with
    | main =>
      refine ⟨st, (h.setStack (.ended ?_ rfl)).setFinished 0⟩
      intro hworker
      exact absurd hworker.1 (by decide)
    | worker hworker hstatus =>
      have howed := hzero (hexec.synced hsyncs hworker hnext)
      exact ⟨_, (h.setFinished id).finish hworker hstatus rfl howed (Function.update_self _ _ _)⟩
  | work q =>
    simp only [hnext, Option.some.injEq] at hstep
    subst hstep
    have hframes : (Frame.xt id q :: base : List (Frame σ)) = [] ++ Frame.xt id q :: base := rfl
    exact ⟨st, h.setStack (.active hframes .plain ⟨b, hexec.work hnext, hzero⟩ hbase)⟩
  | spawn child q =>
    simp only [hnext, Option.some.injEq] at hstep
    subst hstep
    have hframes : (.take child :: Frame.xt id q :: base : List (Frame σ)) =
      [Frame.take child] ++ Frame.xt id q :: base := rfl
    exact ⟨st, h.setStack (.active hframes (.spawning child) (hexec.spawn hnext) hbase)⟩
  | sync q =>
    simp only [hnext, Option.some.injEq] at hstep
    subst hstep
    have hframes : (.sync :: Frame.xt id q :: base : List (Frame σ)) =
      [Frame.sync] ++ Frame.xt id q :: base := rfl
    exact ⟨st, h.setStack (.active hframes .syncing (hexec.sync hnext) hbase)⟩

/-- A task that executes a program is not a waiting worker. -/
theorem Base.ne_waiting {invoker : Nat} (hbase : Base cores st invoker t id base)
    (hw : IsWorker cores w) (hwaiting : (st w).Waiting) : t ≠ w := by
  rintro rfl
  cases hbase with
  | main => exact absurd hw.1 (by decide)
  | worker _ hstatus =>
    rw [hstatus] at hwaiting
    exact hwaiting

/-- Other workers do not change what a task waits for. -/
theorem Base.update {invoker : Nat} {x : Status σ} (hbase : Base cores st invoker t id base)
    (hne : t ≠ w) : Base cores (Function.update st w x) invoker t id base := by
  cases hbase with
  | main => exact .main
  | worker hworker hstatus =>
    exact .worker hworker ((Function.update_of_ne hne _ _).trans hstatus)

/-- An event in a program -/
theorem step_event {msg : Msg σ} {queue : List (Msg σ)} {above rest : List (Frame σ)}
    {phase : Phase σ} (h : Inv next main cores s st) (hqueue : (s.task t).queue = msg :: queue)
    (hbase : Base cores st (s.task t).invoker t id base)
    (hrest : .events :: rest = above ++ .xt id p :: base) (habove : Above phase above)
    (hphase : ∀ st', PhaseOk next main cores st' t p phase) :
    ∃ st', Inv next main cores ((s.receive t queue).perform t rest msg) st' := by
  have hmem : msg ∈ (s.task t).queue := by
    rw [hqueue]
    exact List.mem_cons_self
  cases msg with
  | run id' p' f =>
    obtain ⟨hworker, hstatus⟩ := (h.run t id' p' f).mp hmem
    exact absurd rfl (hbase.ne_waiting hworker (by rw [hstatus]; trivial))
  | done w =>
    obtain ⟨hw, hstatus⟩ := (h.done t w).mp hmem
    have hne := hbase.ne_waiting hw (by rw [hstatus]; trivial)
    exact ⟨_, h.receive_done hqueue (.active hrest habove (hphase _) (hbase.update hne))⟩

/-- A worker that waits for a program, or has just ended one, gets no event of {lit}`+worker`. -/
theorem Inv.not_done_of_owed (h : Inv next main cores s st) (howed : owed cores st t = 0) :
    .done w ∉ (s.task t).queue := by
  intro hmem
  obtain ⟨hw, hstatus⟩ := (h.done t w).mp hmem
  refine owed_eq_zero.mp howed w hw ?_
  rw [hstatus]
  rfl

/-- Every step keeps the invariant. -/
theorem step_inv (hsyncs : SyncsLast next main) (h : Inv next main cores s st)
    (hstep : step next t s = some s') : ∃ st', Inv next main cores s' st' := by
  have htask := h.task t
  generalize hstack : (s.task t).stack = stack at htask
  cases htask with
  | active hframes habove hphase hbase =>
    subst hframes
    cases habove with
    | plain => exact step_program hsyncs h hstack hphase hbase hstep
    | spawning child =>
      rw [step, hstack] at hstep
      cases hworkers : s.workers with
      | nil =>
        simp only [List.cons_append, List.nil_append, hworkers, Option.some.injEq] at hstep
        subst hstep
        exact ⟨st, h.setStack (.active rfl (.spawningStop child) hphase hbase)⟩
      | cons w workers =>
        simp only [List.cons_append, List.nil_append, hworkers, Option.some.injEq] at hstep
        subst hstep
        obtain ⟨hw, hstatus⟩ := (h.listed w).mp (by rw [hworkers]; exact List.mem_cons_self)
        have hne := hbase.ne_waiting hw (by rw [hstatus]; trivial)
        refine ⟨_, h.take hworkers (.active rfl (.sending child w) ?_ (hbase.update hne))⟩
        exact ⟨hphase.1, hphase.2, hw, Function.update_self _ _ _⟩
    | spawningStop child =>
      rw [step, hstack] at hstep
      cases hqueue : (s.task t).queue with
      | nil => simp [hqueue] at hstep
      | cons msg queue =>
        simp only [List.cons_append, List.nil_append, hqueue, Option.some.injEq] at hstep
        subst hstep
        exact step_event h hqueue hbase rfl (.spawningEvents child) fun _ => hphase
    | spawningEvents child =>
      rw [step, hstack] at hstep
      cases hqueue : (s.task t).queue with
      | nil =>
        simp only [List.cons_append, List.nil_append, hqueue, Option.some.injEq] at hstep
        subst hstep
        exact ⟨st, h.setStack (.active rfl (.spawning child) hphase hbase)⟩
      | cons msg queue =>
        simp only [List.cons_append, List.nil_append, hqueue, Option.some.injEq] at hstep
        subst hstep
        exact step_event h hqueue hbase rfl (.spawningEvents child) fun _ => hphase
    | sending child w =>
      rw [step, hstack] at hstep
      simp only [List.cons_append, List.nil_append, Option.some.injEq] at hstep
      subst hstep
      obtain ⟨hchild, hexec, hw, hstatus⟩ := hphase
      have hne := hbase.ne_waiting hw (by rw [hstatus]; trivial)
      refine ⟨_, h.send hw hstatus hchild (.active rfl .plain ?_ (hbase.update hne))⟩
      exact ⟨false, hexec, by simp⟩
    | syncing =>
      rw [step, hstack] at hstep
      simp only [List.cons_append, List.nil_append] at hstep
      split at hstep
      · cases hstep
        exact ⟨st, h.setStack (.active rfl .syncingStop hphase hbase)⟩
      · next hsync =>
        cases hstep
        refine ⟨st, h.setStack (.active rfl .plain ⟨true, hphase, fun _ => ?_⟩ hbase)⟩
        obtain ⟨k, hk⟩ := h.sync t
        omega
    | syncingStop =>
      rw [step, hstack] at hstep
      cases hqueue : (s.task t).queue with
      | nil => simp [hqueue] at hstep
      | cons msg queue =>
        simp only [List.cons_append, List.nil_append, hqueue, Option.some.injEq] at hstep
        subst hstep
        exact step_event h hqueue hbase rfl .syncingEvents fun _ => hphase
    | syncingEvents =>
      rw [step, hstack] at hstep
      cases hqueue : (s.task t).queue with
      | nil =>
        simp only [List.cons_append, List.nil_append, hqueue, Option.some.injEq] at hstep
        subst hstep
        exact ⟨st, h.setStack (.active rfl .syncing hphase hbase)⟩
      | cons msg queue =>
        simp only [List.cons_append, List.nil_append, hqueue, Option.some.injEq] at hstep
        subst hstep
        exact step_event h hqueue hbase rfl .syncingEvents fun _ => hphase
  | waiting hworker hstatus howed hframes =>
    subst hframes
    rw [step, hstack] at hstep
    cases hqueue : (s.task t).queue with
    | nil => simp [hqueue] at hstep
    | cons msg queue =>
      simp only [hqueue, Option.some.injEq] at hstep
      subst hstep
      cases msg with
      | run id p f => exact ⟨_, h.receive_run hqueue⟩
      | done w =>
        refine absurd ?_ (h.not_done_of_owed (w := w) howed)
        rw [hqueue]
        exact List.mem_cons_self
  | finishing hworker hstatus howed hframes =>
    rw [step, hstack] at hstep
    rcases hframes with rfl | rfl
    · simp only [Option.some.injEq] at hstep
      subst hstep
      exact ⟨_, h.announce hworker hstatus howed⟩
    · cases hqueue : (s.task t).queue with
      | nil =>
        simp only [hqueue, Option.some.injEq] at hstep
        subst hstep
        exact ⟨st, h.setStack (.finishing hworker hstatus howed (Or.inl rfl))⟩
      | cons msg queue =>
        have hmem : msg ∈ (s.task t).queue := by
          rw [hqueue]
          exact List.mem_cons_self
        cases msg with
        | run id p f =>
          obtain ⟨-, hqueued⟩ := (h.run t id p f).mp hmem
          rw [hstatus] at hqueued
          cases hqueued
        | done w => exact absurd hmem (h.not_done_of_owed howed)
  | ended hworker hframes =>
    subst hframes
    simp [step, hstack] at hstep

end Steps

/-! ## Whole runs -/

/-- All workers announce themselves to the main task. -/
theorem startWorkers_inv (next : σ → Act σ) (main : σ) (cores : Nat) :
    Inv next main cores (startWorkers cores main) fun _ => .finishing 0 := by
  have howed : ∀ t, t ≠ 0 → owed cores (fun _ => (.finishing 0 : Status σ)) t = 0 := by
    intro t ht
    rw [owed_eq_zero]
    intro w _ howner
    exact ht (Option.some.inj howner).symm
  have howed₀ : owed cores (fun _ => (.finishing 0 : Status σ)) 0 = cores := by
    simp [owed, Status.owner]
  have hqueue : ∀ t, ((startWorkers cores main).task t).queue = [] := by
    intro t
    rw [startWorkers]
    simp only
    split
    · rfl
    · split <;> rfl
  refine ⟨?_, List.nodup_nil, ?_, ?_, ?_, ?_, ?_, ?_, fun _ _ => rfl, ?_⟩
  · intro w
    simp [startWorkers]
  · intro t
    rw [hqueue]
    exact List.nodup_nil
  · intro t id p f
    simp [hqueue]
  · intro t w
    simp [hqueue]
  · intro w id p f _ hst
    cases hst
  · intro t
    by_cases ht : t = 0
    · subst ht
      have hframes : ([.sync, .xt 0 main] : List (Frame σ)) =
        [Frame.sync] ++ Frame.xt 0 main :: [] := rfl
      refine .active hframes .syncing ?_ .main
      exact ⟨true, .refl true main⟩
    · by_cases hcores : t ≤ cores
      · refine .finishing ⟨by omega, hcores⟩ ?_ (howed t ht) (Or.inl ?_)
        · simp [startWorkers, ht, hcores]
        · simp [startWorkers, ht, hcores]
      · refine .ended (fun hworker => hcores hworker.2) ?_
        simp [startWorkers, ht, hcores]
  · intro t
    by_cases ht : t = 0
    · subst ht
      exact ⟨0, by simp [howed₀, startWorkers]⟩
    · rw [howed t ht]
      by_cases hcores : t ≤ cores
      · exact ⟨t - 1, by simp [startWorkers, ht, hcores]⟩
      · exact ⟨0, by simp [startWorkers, ht, hcores]⟩
  · intro id f hparent
    cases hparent

/-- Every step of a run keeps the invariant. -/
theorem run_inv (hsyncs : SyncsLast next main) {schedule : List Nat} {s' : State σ}
    (h : Inv next main cores s st) (hrun : run next s schedule = some s') :
    ∃ st', Inv next main cores s' st' := by
  induction schedule generalizing s st with
  | nil =>
    cases hrun
    exact ⟨st, h⟩
  | cons t schedule ih =>
    rw [run] at hrun
    cases hstep : step next t s with
    | none => simp [hstep] at hrun
    | some s₁ =>
      simp only [hstep] at hrun
      obtain ⟨st₁, h₁⟩ := step_inv hsyncs h hstep
      exact ih h₁ hrun

/-- A task executes a program that was spawned, or has one in its pipe. -/
def State.Busy (s : State σ) (w : Nat) : Prop :=
  (∃ id p, .xt id p ∈ (s.task w).stack) ∨ ∃ id p f, .run id p f ∈ (s.task w).queue

/-- A worker that waits without a message is not busy. -/
theorem Inv.not_busy (h : Inv next main cores s st) (hw : IsWorker cores w)
    (hwaiting : (st w).Waiting) (hqueued : ∀ id p f, st w ≠ .queued id p f) : ¬s.Busy w := by
  rintro (⟨id, p, hmem⟩ | ⟨id, p, f, hmem⟩)
  · rw [((h.task w).of_waiting hw hwaiting).2] at hmem
    simp at hmem
  · exact hqueued id p f ((h.run w id p f).mp hmem).2

/-- What a task has spawned has ended when it is owed no event. -/
theorem Inv.finished_of_owed (h : Inv next main cores s st) (howed : owed cores st t = 0)
    {id : Nat} (hparent : s.parent id = some t) : s.finished id = true := by
  by_contra hfinished
  obtain ⟨w, hw, hst⟩ := h.unfinished id t hparent (by simpa using hfinished)
  refine owed_eq_zero.mp howed w hw ?_
  rcases hst with ⟨p, hp⟩ | hrunning
  · rw [hp]
    rfl
  · rw [hrunning]
    rfl

/-- What holds in a state: everything that a task has spawned has been executed completely when
{lit}`cilk-sync` returns; and the workers in the list are different and idle, and a program is only
sent to an idle worker. -/
structure Synced (s : State σ) : Prop where
  finished : ∀ t rest, (s.task t).stack = .sync :: rest → ¬0 < (s.task t).sync →
    ∀ id, s.parent id = some t → s.finished id = true
  nodup : s.workers.Nodup
  idle : ∀ w ∈ s.workers, ¬s.Busy w
  send : ∀ t child w rest, (s.task t).stack = .send child w :: rest → ¬s.Busy w

/-- The invariant says that all children have ended at a sync. -/
theorem Inv.synced (h : Inv next main cores s st) : Synced s where
  finished := by
    intro t rest _ hsync id hparent
    refine h.finished_of_owed ?_ hparent
    obtain ⟨k, hk⟩ := h.sync t
    omega
  nodup := h.nodup
  idle := by
    intro w hw
    obtain ⟨hworker, hstatus⟩ := (h.listed w).mp hw
    exact h.not_busy hworker (by rw [hstatus]; trivial) (by simp [hstatus])
  send := by
    intro t child w rest hstack
    have htask := h.task t
    rw [hstack] at htask
    cases htask with
    | active hframes habove hphase _ =>
      cases habove with
      | sending child' w' =>
        simp only [List.cons_append, List.cons.injEq, Frame.send.injEq] at hframes
        obtain ⟨⟨rfl, rfl⟩, -⟩ := hframes
        obtain ⟨-, -, hworker, hstatus⟩ := hphase
        exact h.not_busy hworker (by rw [hstatus]; trivial) (by simp [hstatus])
      | _ => simp at hframes
    | waiting _ _ _ hframes => simp at hframes
    | finishing _ _ _ hframes => simp at hframes
    | ended _ hframes => simp at hframes

/-- If spawned programs sync after they have spawned something, {lit}`cilk-sync` waits for
everything that was spawned, in every order of the steps of the tasks. -/
theorem cilkSync_waits (next : σ → Act σ) (main : σ) (hsyncs : SyncsLast next main) (cores : Nat)
    (schedule : List Nat) (s : State σ)
    (hrun : run next (startWorkers cores main) schedule = some s) : Synced s := by
  obtain ⟨st, h⟩ := run_inv hsyncs (startWorkers_inv next main cores) hrun
  exact h.synced

/-- The program 3 spawns the program 2 and syncs; this spawns a program that does nothing, and
syncs. -/
def nestedSync : Nat → Act Nat
  | 1 => .sync 0
  | 2 => .spawn 0 1
  | 3 => .spawn 2 1
  | _ => .done

/-- What follows in a program with a nested sync -/
theorem nestedSync_follows {p q : Nat} {b : Bool} (h : Follows nestedSync true p b q) :
    b = true ∨ q = 1 := by
  induction h with
  | refl => exact Or.inl rfl
  | work _ hnext ih =>
    unfold nestedSync at hnext
    split at hnext <;> cases hnext
  | spawn _ hnext ih =>
    unfold nestedSync at hnext
    split at hnext <;> cases hnext
    · exact Or.inr rfl
    · exact Or.inr rfl
  | sync => exact Or.inl rfl

/-- A program that ends with a sync -/
theorem nestedSync_syncsLast : SyncsLast nestedSync 3 := by
  intro p _ b q hfollows hdone
  rcases nestedSync_follows hfollows with hb | rfl
  · exact hb
  · cases hdone

/-- A run with two workers where both programs are executed -/
theorem cilkSync_waits_nested :
    ∃ s, run nestedSync (startWorkers 2 3)
        [1, 2, 0, 0, 0, 0, 0, 0, 0, 0, 0, 0, 1, 1, 1, 1, 1, 1, 2, 2, 2, 2, 1, 1, 1, 1, 1, 1, 0, 0] =
          some s ∧ s.finished 1 = true ∧ s.finished 2 = true ∧ Synced s :=
  ⟨_, rfl, rfl, rfl, cilkSync_waits nestedSync 3 nestedSync_syncsLast 2
    [1, 2, 0, 0, 0, 0, 0, 0, 0, 0, 0, 0, 1, 1, 1, 1, 1, 1, 2, 2, 2, 2, 1, 1, 1, 1, 1, 1, 0, 0] _
    rfl⟩

/-- The program 4 spawns the program 1 and one that does nothing, and syncs; the program 1 spawns
another program that does nothing, and does not sync. -/
def nestedSpawn : Nat → Act Nat
  | 1 => .spawn 0 0
  | 2 => .sync 0
  | 3 => .spawn 0 2
  | 4 => .spawn 1 3
  | _ => .done

/-- The worker 1 sends two events to the main task, which returns from {lit}`cilk-sync` although the
worker 2 has not executed its program yet. -/
theorem cilkSync_returns_early :
    ∃ s, run nestedSpawn (startWorkers 3 4)
        [1, 2, 3, 0, 0, 0, 0, 0, 0, 0, 0, 0, 0, 0, 0, 0, 1, 1, 1, 1, 1, 1, 1, 3, 3, 3, 3, 1, 1, 1,
          0, 0, 0, 0] = some s ∧
      (s.task 0).stack = [.sync, .xt 0 0] ∧ ¬0 < (s.task 0).sync ∧ s.parent 2 = some 0 ∧
      s.finished 2 = false ∧ s.workers = [3, 1, 1] :=
  ⟨_, rfl, rfl, by decide, rfl, rfl, rfl⟩

end Cilk
end Gforth
