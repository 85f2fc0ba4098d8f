import Mathlib.Logic.Function.Basic

/-!
# Spawning and syncing

Worker tasks execute what other tasks spawn.  A task sends an event to another task through a pipe,
and executes the events that it gets in {lit}`stop`, which may be inside {lit}`spawn` and
{lit}`cilk-sync`.  A worker sends an event to its invoker each time its {lit}`stop` returns; this
event puts the worker in the list of workers and decrements {lit}`sync#` of the invoker.
-/

namespace Gforth
namespace Cilk

/-- What a program does next; {lit}`spawn1` and {lit}`spawn2` spawn a closure. -/
inductive Act (σ : Type) where
  | done
  | work (p : σ)
  | spawn (child p : σ)
  | sync (p : σ)

/-- An event: the closure that {lit}`spawn` sends to a worker, with a number for the execution of
the program, or the one that {lit}`+worker` sends -/
inductive Msg (σ : Type) where
  | run (id : Nat) (p : σ) (invoker : Nat)
  | done (worker : Nat)

/-- What a task is in the middle of: the loop of {lit}`worker-thread` before {lit}`+worker`;
{lit}`(stop)`; {lit}`?events`; a program; {lit}`worker@` and {lit}`send-event` in {lit}`spawn`; and
{lit}`cilk-sync` -/
inductive Frame (σ : Type) where
  | announce
  | stop
  | events
  | xt (id : Nat) (p : σ)
  | take (child : σ)
  | send (child : σ) (worker : Nat)
  | sync

/-- The pipe, {lit}`sync#` and {lit}`invoker` of a task, and what it does, the innermost first -/
structure Task (σ : Type) where
  queue : List (Msg σ)
  sync : Int
  invoker : Nat
  stack : List (Frame σ)

/-- All tasks, the list of workers, the number of the next execution, the tasks that have spawned
the executions, and which of them have ended -/
structure State (σ : Type) where
  task : Nat → Task σ
  workers : List Nat
  nextId : Nat
  parent : Nat → Option Nat
  finished : Nat → Bool

variable {σ : Type}

namespace State

/-- Change a task. -/
def setTask (s : State σ) (t : Nat) (task : Task σ) : State σ :=
  { s with task := Function.update s.task t task }

/-- {lit}`send-event` -/
def sendEvent (s : State σ) (t : Nat) (msg : Msg σ) : State σ :=
  s.setTask t { s.task t with queue := (s.task t).queue ++ [msg] }

/-- Change what a task does. -/
def setStack (s : State σ) (t : Nat) (stack : List (Frame σ)) : State σ :=
  s.setTask t { s.task t with stack := stack }

/-- Execute an event in {lit}`?events`. -/
def perform (s : State σ) (t : Nat) (stack : List (Frame σ)) : Msg σ → State σ
  | .run id p invoker =>
      s.setTask t { s.task t with invoker := invoker, stack := .xt id p :: .events :: stack }
  | .done w =>
      { s with workers := s.workers ++ [w] }.setTask t
        { s.task t with sync := (s.task t).sync - 1, stack := .events :: stack }

/-- Remove the first event. -/
def receive (s : State σ) (t : Nat) (queue : List (Msg σ)) : State σ :=
  s.setTask t { s.task t with queue := queue }

end State

/-- One step of a task, if it does not wait -/
def step (next : σ → Act σ) (t : Nat) (s : State σ) : Option (State σ) :=
  match (s.task t).stack with
  | [] => none
  | .announce :: rest =>
      some ((s.setStack t (.stop :: .announce :: rest)).sendEvent (s.task t).invoker (.done t))
  | .stop :: rest =>
      match (s.task t).queue with
      | [] => none
      | msg :: queue => some ((s.receive t queue).perform t rest msg)
  | .events :: rest =>
      match (s.task t).queue with
      | [] => some (s.setStack t rest)
      | msg :: queue => some ((s.receive t queue).perform t rest msg)
  | .xt id p :: rest =>
      match next p with
      | .done => some { s.setStack t rest with finished := Function.update s.finished id true }
      | .work p => some (s.setStack t (.xt id p :: rest))
      | .spawn child p => some (s.setStack t (.take child :: .xt id p :: rest))
      | .sync p => some (s.setStack t (.sync :: .xt id p :: rest))
  | .take child :: rest =>
      match s.workers with
      | [] => some (s.setStack t (.stop :: .take child :: rest))
      | w :: workers => some { s.setStack t (.send child w :: rest) with workers := workers }
  | .send child w :: rest =>
      let s := s.sendEvent w (.run s.nextId child t)
      some { s.setTask t { s.task t with sync := (s.task t).sync + 1, stack := rest } with
        nextId := s.nextId + 1
        parent := Function.update s.parent s.nextId (some t) }
  | .sync :: rest =>
      if 0 < (s.task t).sync then some (s.setStack t (.stop :: .sync :: rest))
      else some (s.setStack t rest)

/-- The steps of the tasks in some order -/
def run (next : σ → Act σ) (s : State σ) : List Nat → Option (State σ)
  | [] => some s
  | t :: schedule =>
      match step next t s with
      | none => none
      | some s => run next s schedule

/-- The end of {lit}`start-workers`, before {lit}`cilk-sync`: the task 0 executes the main program
after it, and the tasks up to {lit}`cores` are the workers.  A new task starts with the user
variables of the task that creates it, so {lit}`sync#` of a worker is the number of workers that
were created before it. -/
def startWorkers (cores : Nat) (main : σ) : State σ where
  task := fun t =>
    if t = 0 then ⟨[], cores, 0, [.sync, .xt 0 main]⟩
    else if t ≤ cores then ⟨[], (t - 1 : Nat), 0, [.announce]⟩
    else ⟨[], 0, 0, []⟩
  workers := []
  nextId := 1
  parent := fun _ => none
  finished := fun _ => false

end Cilk
end Gforth
