import Mathlib.Data.List.Basic
import Mathlib.Logic.Function.Basic

/-!
# Events between tasks

A task sends an event to another task through a pipe, and executes the events that it gets in
{lit}`stop` and {lit}`?events`.  {lit}`event-block` sends an event that answers with another event,
and executes {lit}`stop` until {lit}`wake#` has the number that it has sent.

The program of a task does these operations in any order; events of other kinds do so, too.  The
events have numbers in the order in which they are sent, and the system remembers which ones have
been sent and executed and which calls of {lit}`event-block` have returned.
-/

namespace Gforth
namespace Pthreads

/-- A call of {lit}`event-block`: the number of its event, the task that calls it, the task that
gets the event, and the value of {lit}`wake#` that it waits for -/
structure Call where
  id : Nat
  caller : Nat
  target : Nat
  wake : BitVec 64
deriving DecidableEq

/-- What an event does: the closure of {lit}`event-block`; the closure of {lit}`(restart)`, for
{lit}`restart` or as an answer to a call; and everything else -/
inductive Msg where
  | block (wake : BitVec 64)
  | wake (call : Option Call)
  | user
deriving DecidableEq

/-- An event, with the tasks that send it and get it -/
structure Event where
  id : Nat
  sender : Nat
  target : Nat
  msg : Msg
deriving DecidableEq

/-- The event of a call -/
def Call.event (c : Call) : Event :=
  ⟨c.id, c.caller, c.target, .block c.wake⟩

/-- The value for {lit}`wake#` -/
def wakeNumber : Option Call → BitVec 64
  | none => 0#64
  | some c => c.wake

/-- What a task is in the middle of: its program, or an event of it; the closure of
{lit}`event-block`; {lit}`(stop)`, and {lit}`?events` behind it; and the loop of
{lit}`event-block` -/
inductive Frame where
  | code (event : Option Event)
  | answer (call : Call)
  | stop
  | events
  | wait (call : Call)
deriving DecidableEq

/-- The pipe and {lit}`wake#` of a task, and what it does, the innermost first -/
structure Task where
  pipe : List Event
  wake : BitVec 64
  frames : List Frame

/-- All tasks, the number of the next event, and what has happened -/
structure State where
  task : Nat → Task
  next : Nat
  sent : List Event
  finished : List Event
  returned : List Call

namespace State

/-- Change a task. -/
def setTask (s : State) (t : Nat) (task : Task) : State :=
  { s with task := Function.update s.task t task }

/-- Change what a task does. -/
def setFrames (s : State) (t : Nat) (frames : List Frame) : State :=
  s.setTask t { s.task t with frames := frames }

/-- {lit}`send-event` -/
def sendEvent (s : State) (t b : Nat) (msg : Msg) : State :=
  let e := ⟨s.next, t, b, msg⟩
  { s.setTask b { s.task b with pipe := (s.task b).pipe ++ [e] } with
    next := s.next + 1
    sent := e :: s.sent }

/-- Events have been executed. -/
def finish (s : State) (events : List Event) : State :=
  { s with finished := events ++ s.finished }

/-- Take the first event from the pipe and execute it. -/
def perform (s : State) (t : Nat) (e : Event) (pipe : List Event) (frames : List Frame) : State :=
  match e.msg with
  | .user => s.setTask t { s.task t with pipe := pipe, frames := .code (some e) :: frames }
  | .wake call => (s.setTask t ⟨pipe, wakeNumber call, frames⟩).finish [e]
  | .block wake =>
      s.setTask t
        { s.task t with pipe := pipe, frames := .answer ⟨e.id, e.sender, e.target, wake⟩ :: frames }

variable (s : State) (t b x : Nat) (msg : Msg) (frames : List Frame)

@[simp]
theorem setTask_self (task : Task) : (s.setTask t task).task t = task :=
  Function.update_self ..

@[simp]
theorem setTask_of_ne {x : Nat} (task : Task) (h : x ≠ t) : (s.setTask t task).task x = s.task x :=
  Function.update_of_ne h ..

/-- The frames of one task are replaced. -/
theorem setFrames_frames :
    ((s.setFrames t frames).task x).frames = if x = t then frames else (s.task x).frames := by
  by_cases h : x = t
  · subst h
    simp [setFrames]
  · simp [setFrames, h]

/-- The pipes stay. -/
@[simp]
theorem setFrames_pipe : ((s.setFrames t frames).task x).pipe = (s.task x).pipe := by
  by_cases h : x = t
  · subst h
    simp [setFrames]
  · simp [setFrames, h]

/-- The wake values stay. -/
@[simp]
theorem setFrames_wake : ((s.setFrames t frames).task x).wake = (s.task x).wake := by
  by_cases h : x = t
  · subst h
    simp [setFrames]
  · simp [setFrames, h]

/-- The event is at the end of the pipe of the receiver. -/
theorem sendEvent_pipe : ((s.sendEvent t b msg).task x).pipe =
    if x = b then (s.task x).pipe ++ [⟨s.next, t, b, msg⟩] else (s.task x).pipe := by
  by_cases h : x = b
  · subst h
    simp [sendEvent]
  · simp [sendEvent, h]

/-- Sending leaves the wake values alone. -/
@[simp]
theorem sendEvent_wake : ((s.sendEvent t b msg).task x).wake = (s.task x).wake := by
  by_cases h : x = b
  · subst h
    simp [sendEvent]
  · simp [sendEvent, h]

/-- Sending leaves the frames alone. -/
@[simp]
theorem sendEvent_frames : ((s.sendEvent t b msg).task x).frames = (s.task x).frames := by
  by_cases h : x = b
  · subst h
    simp [sendEvent]
  · simp [sendEvent, h]

/-- A task can send an event before or after it changes what it does. -/
theorem setFrames_sendEvent :
    (s.setFrames t frames).sendEvent t b msg = (s.sendEvent t b msg).setFrames t frames := by
  have htask : ((s.setFrames t frames).sendEvent t b msg).task =
      ((s.sendEvent t b msg).setFrames t frames).task := by
    funext x
    simp only [setFrames, sendEvent, setTask]
    by_cases ht : x = t
    · subst ht
      by_cases hb : x = b
      · subst hb
        simp
      · simp [hb]
    · by_cases hb : x = b
      · subst hb
        simp [ht]
      · simp [ht, hb]
  rw [State.mk.injEq]
  exact ⟨htask, rfl, rfl, rfl, rfl⟩

end State

/-- The event that is executed in a frame -/
def Frame.event : Frame → Option Event
  | .code event => event
  | .answer c => some c.event
  | _ => none

/-- What a program does next.  {lit}`throw` drops what the task is in the middle of. -/
inductive Op where
  | send (b : Nat)
  | restart (b : Nat)
  | eventBlock (b : Nat)
  | activate (b : Nat)
  | stop
  | events
  | done
  | throw (n : Nat)

/-- An exception ends at a program, or ends the task. -/
def caught : List Frame → Bool
  | [] => true
  | .code _ :: _ => true
  | _ => false

/-- A step of a program -/
def stepCode (s : State) (t : Nat) (event : Option Event) (rest : List Frame) : Op → Option State
  | .send b => some (s.sendEvent t b .user)
  | .restart b => some (s.sendEvent t b (.wake none))
  | .eventBlock b =>
      if b = t then some (s.setFrames t (.events :: .code event :: rest))
      else
        let call := ⟨s.next, t, b, (s.task t).wake + 1#64⟩
        some ((s.setFrames t (.stop :: .wait call :: .code event :: rest)).sendEvent t b
          (.block call.wake))
  | .activate b =>
      if (s.task b).frames = [] then some (s.setFrames b [.code none]) else none
  | .stop => some (s.setFrames t (.stop :: .code event :: rest))
  | .events => some (s.setFrames t (.events :: .code event :: rest))
  | .done => some ((s.setFrames t rest).finish event.toList)
  | .throw n =>
      if caught (rest.drop n) then
        some ((s.setFrames t (rest.drop n)).finish
          (event.toList ++ (rest.take n).filterMap Frame.event))
      else none

/-- One step of a task, if it does not wait; the operation is that of its program. -/
def step (s : State) (t : Nat) (op : Op) : Option State :=
  match (s.task t).frames with
  | [] => none
  | .code event :: rest => stepCode s t event rest op
  | .answer c :: rest =>
      some (((s.setFrames t rest).sendEvent t c.caller (.wake (some c))).finish [c.event])
  | .stop :: rest =>
      match (s.task t).pipe with
      | [] => none
      | e :: pipe => some (s.perform t e pipe (.events :: rest))
  | .events :: rest =>
      match (s.task t).pipe with
      | [] => some (s.setFrames t rest)
      | e :: pipe => some (s.perform t e pipe (.events :: rest))
  | .wait c :: rest =>
      if (s.task t).wake = c.wake then
        some { s.setFrames t rest with returned := c :: s.returned }
      else some (s.setFrames t (.stop :: .wait c :: rest))

/-- The steps of the tasks in some order -/
def run (s : State) : List (Nat × Op) → Option State
  | [] => some s
  | (t, op) :: steps =>
      match step s t op with
      | none => none
      | some s => run s steps

/-- The main task executes its program.  The value of {lit}`wake#` of a task is the one that the task
which has created it had then. -/
def start (wake : Nat → BitVec 64) : State where
  task := fun t => ⟨[], wake t, if t = 0 then [.code none] else []⟩
  next := 0
  sent := []
  finished := []
  returned := []

/-- The event of the call, and all events that its task had sent there before, have been executed. -/
def Done (s : State) (c : Call) : Prop :=
  c.event ∈ s.finished ∧
    ∀ e ∈ s.sent, e.sender = c.caller → e.target = c.target → e.id < c.id → e ∈ s.finished

/-- {lit}`event-block` is a barrier. -/
def Barrier (s : State) : Prop :=
  ∀ c ∈ s.returned, Done s c

instance (s : State) (c : Call) : Decidable (Done s c) :=
  inferInstanceAs (Decidable (_ ∧ _))

instance (s : State) : Decidable (Barrier s) :=
  inferInstanceAs (Decidable (∀ c ∈ s.returned, Done s c))

end Pthreads
end Gforth
