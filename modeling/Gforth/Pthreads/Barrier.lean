import Gforth.Pthreads.Events
import Mathlib.Tactic

/-!
# Waiting for an answer

{lit}`event-block` waits for a number that only changes when an answer arrives.  While it waits, the
task may execute an event that calls {lit}`event-block` again with the same number; then the first
answer ends both calls.

Main results:

- Theorem {lit}`step_inv`: the invariant of the tasks.
- Theorem {lit}`not_barrier`: a call returns before its event has been executed.
- Theorem {lit}`eventBlock_barrier`: calls return in time if their numbers differ from those of the
  calls without an answer.
-/

namespace Gforth
namespace Pthreads

/-- The task 0 waits for the task 1, and executes an event of the task 2 that waits for the task
3. -/
def nestedCall : List (Nat × Op) :=
  [(0, .activate 1), (0, .activate 2), (0, .activate 3), (2, .send 0),
    (0, .eventBlock 1), (0, .done), (0, .eventBlock 3),
    (3, .stop), (3, .done), (3, .done),
    (0, .done), (0, .done), (0, .done), (0, .done), (0, .done), (0, .done)]

/-- Calls are not barriers in every run. -/
theorem not_barrier :
    ¬ ∀ wake steps s, run (start wake) steps = some s → Barrier s := by
  intro h
  have hrun : ((run (start fun _ => 0#64) nestedCall).map fun s => decide (Barrier s)) = some false := by
    decide
  cases hs : run (start fun _ => 0#64) nestedCall with
  | none =>
      rw [hs] at hrun
      cases hrun
  | some s =>
      rw [hs] at hrun
      exact of_decide_eq_false (Option.some.inj hrun) (h _ _ s hs)

/-! ## Calls and their answers -/

/-- The event of a call has not been executed yet. -/
def Asked (s : State) (c : Call) : Prop :=
  c.event ∈ (s.task c.target).pipe ∨ .answer c ∈ (s.task c.target).frames

/-- The answer to a call has not arrived yet. -/
def Outstanding (s : State) (c : Call) : Prop :=
  Asked s c ∨ ∃ e ∈ (s.task c.caller).pipe, e.msg = .wake (some c)

/-- A call waits for its answer, and no other answer has its number. -/
structure Waiting (s : State) (c : Call) : Prop where
  wake_ne : (s.task c.caller).wake ≠ c.wake
  ne_zero : c.wake ≠ 0#64
  asked : Asked s c
  unique : ∀ c', c'.caller = c.caller → c'.wake = c.wake → Outstanding s c' → c' = c

/-- The invariant of the tasks -/
structure Inv (s : State) : Prop where
  sorted : ∀ b, (s.task b).pipe.Pairwise (·.id < ·.id)
  sent_lt : ∀ e ∈ s.sent, e.id < s.next
  pipe_sent : ∀ b, ∀ e ∈ (s.task b).pipe, e ∈ s.sent ∧ e.target = b
  held_sent : ∀ b, ∀ f ∈ (s.task b).frames, ∀ e, f.event = some e → e ∈ s.sent ∧ e.target = b
  finished_sent : ∀ e ∈ s.finished, e ∈ s.sent
  sent_cases : ∀ e ∈ s.sent, e ∈ s.finished ∨ e ∈ (s.task e.target).pipe ∨
    ∃ f ∈ (s.task e.target).frames, f.event = some e
  tail : ∀ b c, .answer c ∉ (s.task b).frames.tail
  answering : ∀ b c, (s.task b).frames.head? = some (.answer c) →
    (∀ e ∈ (s.task b).pipe, c.id < e.id) ∧
      ∀ e, .code (some e) ∈ (s.task b).frames → e.sender ≠ c.caller
  waits : ∀ t c, .wait c ∈ (s.task t).frames → c.caller = t ∧ (Done s c ∨ Waiting s c)
  answered : ∀ t, ∀ e ∈ (s.task t).pipe, ∀ c, e.msg = .wake (some c) → Done s c ∧ c.caller = t
  returned : ∀ c ∈ s.returned, Done s c

/-- The invariant holds at the start. -/
theorem Inv.start (wake : Nat → BitVec 64) : Inv (start wake) := by
  have hframes : ∀ t, ∀ f ∈ ((Pthreads.start wake).task t).frames, f = .code none := by
    intro t f hf
    simp only [Pthreads.start] at hf
    split at hf
    · exact List.mem_singleton.1 hf
    · cases hf
  refine ⟨fun b => List.Pairwise.nil, ?_, ?_, ?_, ?_, ?_, ?_, ?_, ?_, ?_, ?_⟩
  · exact fun e he => absurd he List.not_mem_nil
  · exact fun b e he => absurd he List.not_mem_nil
  · intro b f hf e he
    rw [hframes b f hf] at he
    cases he
  · exact fun e he => absurd he List.not_mem_nil
  · exact fun e he => absurd he List.not_mem_nil
  · intro b c hc
    cases hframes b _ (List.mem_of_mem_tail hc)
  · intro b c hc
    cases hframes b _ (List.mem_of_mem_head? hc)
  · intro t c hc
    cases hframes t _ hc
  · exact fun t e he => absurd he List.not_mem_nil
  · exact fun c hc => absurd hc List.not_mem_nil

/-! ## What stays -/

variable {s s' : State} {t b : Nat} {c : Call}

/-- Events that have been executed remain so, and new events have new numbers. -/
structure Later (s s' : State) : Prop where
  finished : ∀ e ∈ s.finished, e ∈ s'.finished
  sent : ∀ e ∈ s'.sent, e ∈ s.sent ∨ s.next ≤ e.id

/-- What has been done stays done. -/
theorem Inv.done_later (h : Inv s) (hlater : Later s s') (hdone : Done s c) : Done s' c := by
  refine ⟨hlater.finished _ hdone.1, fun e he hsender htarget hlt => ?_⟩
  rcases hlater.sent e he with hsent | hge
  · exact hlater.finished e (hdone.2 e hsent hsender htarget hlt)
  · have hid := h.sent_lt _ (h.finished_sent _ hdone.1)
    exact absurd (hlt.trans hid) (not_lt.2 hge)

/-- Finished events have been sent. -/
theorem Inv.finish (h : Inv s) {events : List Event} (hsent : ∀ e ∈ events, e ∈ s.sent) :
    Inv (s.finish events) := by
  have hlater : Later s (s.finish events) :=
    ⟨fun e he => List.mem_append_right _ he, fun e he => Or.inl he⟩
  refine { h with finished_sent := ?_, sent_cases := ?_, waits := ?_, answered := ?_, returned := ?_ }
  · intro e he
    rcases List.mem_append.1 he with hnew | hold
    · exact hsent e hnew
    · exact h.finished_sent e hold
  · intro e he
    exact (h.sent_cases e he).imp_left (hlater.finished e)
  · intro t c hc
    obtain ⟨hcaller, hcall⟩ := h.waits t c hc
    exact ⟨hcaller, hcall.imp (h.done_later hlater) fun hw => ⟨hw.1, hw.2, hw.3, hw.4⟩⟩
  · intro t e he c hmsg
    obtain ⟨hdone, hcaller⟩ := h.answered t e he c hmsg
    exact ⟨h.done_later hlater hdone, hcaller⟩
  · exact fun c hc => h.done_later hlater (h.returned c hc)

/-- What a task may do instead of what it was in the middle of -/
structure Replaces (s : State) (t : Nat) (frames : List Frame) : Prop where
  no_answer : ∀ c, .answer c ∉ frames
  new : ∀ f ∈ frames, f ∈ (s.task t).frames ∨ f.event = none ∧
    ∀ c, f = .wait c → c.caller = t ∧ (Done s c ∨ Waiting s c)
  held : ∀ f ∈ (s.task t).frames, f ∈ frames ∨ ∀ e, f.event = some e → e ∈ s.finished
  answered : ∀ c, .answer c ∈ (s.task t).frames → Done s c

variable {frames : List Frame} {pipe : List Event} {rest : List Frame} {event : Option Event}

/-- Replacing the frames of a task keeps the invariant. -/
theorem Inv.setFrames (h : Inv s) (hr : Replaces s t frames) : Inv (s.setFrames t frames) := by
  have hlater : Later s (s.setFrames t frames) := ⟨fun e he => he, fun e he => Or.inl he⟩
  have hasked : ∀ c, Asked s c → Done s c ∨ Asked (s.setFrames t frames) c := by
    rintro c (hpipe | hframe)
    · exact Or.inr (Or.inl (by rwa [State.setFrames_pipe]))
    · by_cases ht : c.target = t
      · exact Or.inl (hr.answered c (ht ▸ hframe))
      · exact Or.inr (Or.inr (by rwa [State.setFrames_frames, if_neg ht]))
  have houtstanding : ∀ c, Outstanding (s.setFrames t frames) c → Outstanding s c := by
    rintro c ((hpipe | hframe) | hanswer)
    · exact Or.inl (Or.inl (by rwa [State.setFrames_pipe] at hpipe))
    · rw [State.setFrames_frames] at hframe
      split at hframe
      · exact absurd hframe (hr.no_answer c)
      · exact Or.inl (Or.inr hframe)
    · exact Or.inr (by rwa [State.setFrames_pipe] at hanswer)
  have hcall : ∀ c, Done s c ∨ Waiting s c →
      Done (s.setFrames t frames) c ∨ Waiting (s.setFrames t frames) c := by
    rintro c (hdone | hwaiting)
    · exact Or.inl (h.done_later hlater hdone)
    · rcases hasked c hwaiting.asked with hdone | hask
      · exact Or.inl (h.done_later hlater hdone)
      · exact Or.inr ⟨by rw [State.setFrames_wake]; exact hwaiting.wake_ne, hwaiting.ne_zero, hask,
          fun c' hc hw ho => hwaiting.unique c' hc hw (houtstanding c' ho)⟩
  refine ⟨?_, h.sent_lt, ?_, ?_, h.finished_sent, ?_, ?_, ?_, ?_, ?_, ?_⟩
  · intro b
    rw [State.setFrames_pipe]
    exact h.sorted b
  · intro b
    rw [State.setFrames_pipe]
    exact h.pipe_sent b
  · intro b f hf e he
    rw [State.setFrames_frames] at hf
    split at hf
    · rename_i hb
      subst hb
      rcases hr.new f hf with hold | ⟨hnone, -⟩
      · exact h.held_sent _ f hold e he
      · rw [hnone] at he
        cases he
    · exact h.held_sent b f hf e he
  · intro e he
    rcases h.sent_cases e he with hfinished | hpipe | ⟨f, hf, hheld⟩
    · exact Or.inl hfinished
    · exact Or.inr (Or.inl (by rwa [State.setFrames_pipe]))
    · rw [State.setFrames_frames]
      split
      · rename_i ht
        rcases hr.held f (ht ▸ hf) with hnew | hdone
        · exact Or.inr (Or.inr ⟨f, hnew, hheld⟩)
        · exact Or.inl (hdone e hheld)
      · exact Or.inr (Or.inr ⟨f, hf, hheld⟩)
  · intro b c hmem
    rw [State.setFrames_frames] at hmem
    split at hmem
    · exact hr.no_answer c (List.mem_of_mem_tail hmem)
    · exact h.tail b c hmem
  · intro b c hhead
    rw [State.setFrames_frames] at hhead ⊢
    rw [State.setFrames_pipe]
    split at hhead
    · exact absurd (List.mem_of_mem_head? hhead) (hr.no_answer c)
    · rename_i hb
      rw [if_neg hb]
      exact h.answering b c hhead
  · intro b c hmem
    rw [State.setFrames_frames] at hmem
    split at hmem
    · rename_i hb
      subst hb
      rcases hr.new _ hmem with hold | ⟨-, hnew⟩
      · exact ⟨(h.waits _ c hold).1, hcall c (h.waits _ c hold).2⟩
      · exact ⟨(hnew c rfl).1, hcall c (hnew c rfl).2⟩
    · exact ⟨(h.waits b c hmem).1, hcall c (h.waits b c hmem).2⟩
  · intro b e he c hmsg
    rw [State.setFrames_pipe] at he
    exact ⟨h.done_later hlater (h.answered b e he c hmsg).1, (h.answered b e he c hmsg).2⟩
  · exact fun c hc => h.done_later hlater (h.returned c hc)

/-- An event that a task may send: an answer to a call comes after its event, and the number of a
call is not that of a call without an answer. -/
structure MaySend (s : State) (t b : Nat) (msg : Msg) : Prop where
  answer : ∀ c, msg = .wake (some c) → Done s c ∧ c.caller = b ∧ Outstanding s c
  block : ∀ c, msg = .block c.wake → .wait c ∈ (s.task t).frames → Done s c

theorem later_sendEvent (s : State) (t b : Nat) (msg : Msg) : Later s (s.sendEvent t b msg) := by
  refine ⟨fun e he => he, fun e he => ?_⟩
  rcases List.mem_cons.1 he with rfl | hold
  · exact Or.inr le_rfl
  · exact Or.inl hold

/-- Sending an event keeps the invariant. -/
theorem Inv.sendEvent (h : Inv s) {msg : Msg} (hmay : MaySend s t b msg) :
    Inv (s.sendEvent t b msg) := by
  obtain ⟨e, hnew⟩ : ∃ e : Event, e = ⟨s.next, t, b, msg⟩ := ⟨_, rfl⟩
  have hpipe : ∀ x, ((s.sendEvent t b msg).task x).pipe =
      if x = b then (s.task x).pipe ++ [e] else (s.task x).pipe := by
    intro x
    rw [State.sendEvent_pipe, hnew]
  have hmem : ∀ {x : Nat} {e' : Event}, e' ∈ ((s.sendEvent t b msg).task x).pipe →
      e' ∈ (s.task x).pipe ∨ e' = e ∧ x = b := by
    intro x e' he'
    rw [hpipe] at he'
    split at he'
    · rename_i hx
      rcases List.mem_append.1 he' with hold | hlast
      · exact Or.inl hold
      · exact Or.inr ⟨List.mem_singleton.1 hlast, hx⟩
    · exact Or.inl he'
  have hkept : ∀ {x : Nat} {e' : Event}, e' ∈ (s.task x).pipe →
      e' ∈ ((s.sendEvent t b msg).task x).pipe := by
    intro x e' he'
    rw [hpipe]
    split
    · exact List.mem_append_left _ he'
    · exact he'
  have hsent : (s.sendEvent t b msg).sent = e :: s.sent := by
    rw [hnew]
    rfl
  have hid : e.id = s.next := by rw [hnew]
  have hlater : Later s (s.sendEvent t b msg) := later_sendEvent ..
  have hcall : ∀ c, .wait c ∈ (s.task c.caller).frames → Done s c ∨ Waiting s c →
      Done (s.sendEvent t b msg) c ∨ Waiting (s.sendEvent t b msg) c := by
    intro c hc hold
    by_cases hdone : Done s c
    · exact Or.inl (h.done_later hlater hdone)
    have hwaiting := hold.resolve_left hdone
    refine Or.inr ⟨?_, hwaiting.ne_zero, ?_, ?_⟩
    · rw [State.sendEvent_wake]
      exact hwaiting.wake_ne
    · refine hwaiting.asked.imp hkept fun hframe => ?_
      rwa [State.sendEvent_frames]
    · rintro c' hcaller hwake ((hpipe' | hframe) | ⟨e', he', hmsg⟩)
      · rcases hmem hpipe' with hp | ⟨heq, -⟩
        · exact hwaiting.unique c' hcaller hwake (Or.inl (Or.inl hp))
        · rw [hnew] at heq
          obtain ⟨-, rfl, -, hblock⟩ := Event.mk.inj heq
          rw [hwake] at hblock
          exact absurd (hmay.block c hblock.symm (hcaller ▸ hc)) hdone
      · rw [State.sendEvent_frames] at hframe
        exact hwaiting.unique c' hcaller hwake (Or.inl (Or.inr hframe))
      · rcases hmem he' with hp | ⟨heq, -⟩
        · exact hwaiting.unique c' hcaller hwake (Or.inr ⟨e', hp, hmsg⟩)
        · rw [heq, hnew] at hmsg
          exact hwaiting.unique c' hcaller hwake (hmay.answer c' hmsg).2.2
  refine ⟨?_, ?_, ?_, ?_, ?_, ?_, ?_, ?_, ?_, ?_, ?_⟩
  · intro x
    rw [hpipe]
    split
    · rename_i hx
      rw [List.pairwise_append]
      refine ⟨h.sorted x, List.pairwise_singleton _ _, fun e1 he1 e2 he2 => ?_⟩
      rw [List.mem_singleton.1 he2, hid]
      exact h.sent_lt e1 (h.pipe_sent x e1 he1).1
    · exact h.sorted x
  · intro e' he'
    rw [hsent] at he'
    change e'.id < s.next + 1
    rcases List.mem_cons.1 he' with rfl | hold
    · rw [hid]
      exact Nat.lt_succ_self _
    · exact (h.sent_lt e' hold).trans (Nat.lt_succ_self _)
  · intro x e' he'
    rw [hsent]
    rcases hmem he' with hold | ⟨rfl, rfl⟩
    · exact ⟨List.mem_cons_of_mem _ (h.pipe_sent x e' hold).1, (h.pipe_sent x e' hold).2⟩
    · exact ⟨List.mem_cons_self, by rw [hnew]⟩
  · intro x f hf e' he'
    rw [State.sendEvent_frames] at hf
    rw [hsent]
    exact ⟨List.mem_cons_of_mem _ (h.held_sent x f hf e' he').1, (h.held_sent x f hf e' he').2⟩
  · intro e' he'
    rw [hsent]
    exact List.mem_cons_of_mem _ (h.finished_sent e' he')
  · intro e' he'
    rw [hsent] at he'
    rw [State.sendEvent_frames]
    rcases List.mem_cons.1 he' with rfl | hold
    · refine Or.inr (Or.inl ?_)
      rw [hpipe, if_pos (by rw [hnew])]
      exact List.mem_append_right _ (List.mem_singleton_self _)
    · exact (h.sent_cases e' hold).imp_right (Or.imp_left hkept)
  · intro x c hc
    rw [State.sendEvent_frames] at hc
    exact h.tail x c hc
  · intro x c hc
    rw [State.sendEvent_frames] at hc ⊢
    obtain ⟨hlt, hsender⟩ := h.answering x c hc
    refine ⟨fun e' he' => ?_, hsender⟩
    rcases hmem he' with hold | ⟨rfl, -⟩
    · exact hlt e' hold
    · rw [hid]
      exact h.sent_lt c.event (h.held_sent x _ (List.mem_of_mem_head? hc) c.event rfl).1
  · intro x c hc
    rw [State.sendEvent_frames] at hc
    obtain ⟨rfl, hold⟩ := h.waits x c hc
    exact ⟨rfl, hcall c hc hold⟩
  · intro x e' he' c hmsg
    rcases hmem he' with hold | ⟨rfl, rfl⟩
    · exact ⟨h.done_later hlater (h.answered x e' hold c hmsg).1, (h.answered x e' hold c hmsg).2⟩
    · rw [hnew] at hmsg
      obtain ⟨hdone, hcaller, -⟩ := hmay.answer c hmsg
      exact ⟨h.done_later hlater hdone, hcaller⟩
  · exact fun c hc => h.done_later hlater (h.returned c hc)

/-- The event of a call is only taken up by a task that is not in the middle of another event of the
caller. -/
def MayTake (s : State) (t : Nat) (e : Event) : Prop :=
  ∀ wake, e.msg = .block wake → ∀ e', .code (some e') ∈ (s.task t).frames → e'.sender ≠ e.sender

/-- What a task does after it has taken up an event -/
structure Takes (s : State) (t : Nat) (e : Event) (wake : BitVec 64) (frames : List Frame) : Prop where
  taken : e ∈ s.finished ∨ ∃ f ∈ frames, f.event = some e
  new : ∀ f ∈ frames, f ∈ (s.task t).frames ∨ f = .events ∨ f.event = some e
  held : ∀ f ∈ (s.task t).frames, f ∈ frames ∨ f.event = none
  tail : ∀ c, .answer c ∉ frames.tail
  answer : ∀ c, .answer c ∈ frames → c.event = e ∧
    ∀ e', .code (some e') ∈ frames → e'.sender ≠ c.caller
  asked : ∀ c, c.event = e → .answer c ∈ frames
  wake : ∀ c, .wait c ∈ (s.task t).frames → Done s c ∨ wake ≠ c.wake

/-- Taking an event keeps the invariant. -/
theorem Inv.take (h : Inv s) {e : Event} {wake : BitVec 64} (hpipe : (s.task t).pipe = e :: pipe)
    (hanswer : ∀ c, .answer c ∉ (s.task t).frames) (htakes : Takes s t e wake frames) :
    Inv (s.setTask t ⟨pipe, wake, frames⟩) := by
  obtain ⟨s', hs'⟩ : ∃ s', s' = s.setTask t ⟨pipe, wake, frames⟩ := ⟨_, rfl⟩
  have hself : s'.task t = ⟨pipe, wake, frames⟩ := by rw [hs', State.setTask_self]
  have hother : ∀ x, x ≠ t → s'.task x = s.task x := by
    intro x hx
    rw [hs', State.setTask_of_ne _ _ _ hx]
  have hlater : Later s s' := by
    rw [hs']
    exact ⟨fun e' he' => he', fun e' he' => Or.inl he'⟩
  have hsub : ∀ x, ∀ e' ∈ (s'.task x).pipe, e' ∈ (s.task x).pipe := by
    intro x e' he'
    by_cases hx : x = t
    · subst hx
      rw [hself] at he'
      rw [hpipe]
      exact List.mem_cons_of_mem _ he'
    · rwa [hother x hx] at he'
  have hasked : ∀ c, Asked s c → Asked s' c := by
    intro c hc
    by_cases hx : c.target = t
    · rw [Asked, hx, hself]
      rw [Asked, hx, hpipe] at hc
      rcases hc with hmem | hframe
      · rcases List.mem_cons.1 hmem with heq | hmem
        · exact Or.inr (htakes.asked c heq)
        · exact Or.inl hmem
      · exact absurd hframe (hanswer c)
    · rwa [Asked, hother _ hx]
  have houtstanding : ∀ c, Outstanding s' c → Outstanding s c := by
    rintro c ((hmem | hframe) | ⟨e', he', hmsg⟩)
    · exact Or.inl (Or.inl (hsub _ _ hmem))
    · by_cases hx : c.target = t
      · rw [hx, hself] at hframe
        refine Or.inl (Or.inl ?_)
        rw [hx, hpipe, (htakes.answer c hframe).1]
        exact List.mem_cons_self
      · rw [hother _ hx] at hframe
        exact Or.inl (Or.inr hframe)
    · exact Or.inr ⟨e', hsub _ _ he', hmsg⟩
  have hsorted : (e :: pipe).Pairwise (·.id < ·.id) := hpipe ▸ h.sorted t
  have hcall : ∀ c, .wait c ∈ (s.task c.caller).frames → Done s c ∨ Waiting s c →
      Done s' c ∨ Waiting s' c := by
    intro c hc hold
    by_cases hdone : Done s c
    · exact Or.inl (h.done_later hlater hdone)
    have hwaiting := hold.resolve_left hdone
    refine Or.inr ⟨?_, hwaiting.ne_zero, hasked c hwaiting.asked,
      fun c' hc hw ho => hwaiting.unique c' hc hw (houtstanding c' ho)⟩
    by_cases hx : c.caller = t
    · rw [hx, hself]
      exact (htakes.wake c (hx ▸ hc)).resolve_left hdone
    · rw [hother _ hx]
      exact hwaiting.wake_ne
  have hsent : s'.sent = s.sent := by rw [hs']; rfl
  have hfinished : s'.finished = s.finished := by rw [hs']; rfl
  rw [← hs']
  refine ⟨?_, ?_, ?_, ?_, ?_, ?_, ?_, ?_, ?_, ?_, ?_⟩
  · intro x
    by_cases hx : x = t
    · rw [hx, hself]
      exact (List.pairwise_cons.1 hsorted).2
    · rw [hother x hx]
      exact h.sorted x
  · rw [hs']
    exact h.sent_lt
  · intro x e' he'
    rw [hsent]
    exact h.pipe_sent x e' (hsub x e' he')
  · intro x f hf e' he'
    rw [hsent]
    by_cases hx : x = t
    · rw [hx, hself] at hf
      rcases htakes.new f hf with hmem | rfl | hnew
      · exact hx ▸ h.held_sent t f hmem e' he'
      · cases he'
      · rw [hnew, Option.some.injEq] at he'
        subst he'
        exact hx ▸ h.pipe_sent t e (hpipe ▸ List.mem_cons_self)
    · rw [hother x hx] at hf
      exact h.held_sent x f hf e' he'
  · rw [hfinished, hsent]
    exact h.finished_sent
  · intro e' he'
    rw [hsent] at he'
    rw [hfinished]
    by_cases hx : e'.target = t
    · rw [hx, hself]
      rcases h.sent_cases e' he' with hdone | hmem | ⟨f, hf, hheld⟩
      · exact Or.inl hdone
      · rw [hx, hpipe] at hmem
        rcases List.mem_cons.1 hmem with rfl | hmem
        · exact htakes.taken.imp_right Or.inr
        · exact Or.inr (Or.inl hmem)
      · rw [hx] at hf
        rcases htakes.held f hf with hmem | hnone
        · exact Or.inr (Or.inr ⟨f, hmem, hheld⟩)
        · rw [hnone] at hheld
          cases hheld
    · rw [hother _ hx]
      exact h.sent_cases e' he'
  · intro x c hmem
    by_cases hx : x = t
    · rw [hx, hself] at hmem
      exact htakes.tail c hmem
    · rw [hother x hx] at hmem
      exact h.tail x c hmem
  · intro x c hhead
    by_cases hx : x = t
    · rw [hx, hself] at hhead ⊢
      obtain ⟨heq, hsender⟩ := htakes.answer c (List.mem_of_mem_head? hhead)
      refine ⟨fun e' he' => ?_, hsender⟩
      have hlt := (List.pairwise_cons.1 hsorted).1 e' he'
      rwa [← heq] at hlt
    · rw [hother x hx] at hhead ⊢
      exact h.answering x c hhead
  · intro x c hc
    have hmem : .wait c ∈ (s.task x).frames := by
      by_cases hx : x = t
      · rw [hx, hself] at hc
        rcases htakes.new _ hc with hmem | heq | hheld
        · exact hx ▸ hmem
        · cases heq
        · cases hheld
      · rwa [hother x hx] at hc
    obtain ⟨rfl, hold⟩ := h.waits x c hmem
    exact ⟨rfl, hcall c hmem hold⟩
  · intro x e' he' c hmsg
    obtain ⟨hdone, hcaller⟩ := h.answered x e' (hsub x e' he') c hmsg
    exact ⟨h.done_later hlater hdone, hcaller⟩
  · rw [hs']
    exact fun c hc => h.done_later (hs' ▸ hlater) (h.returned c hc)

/-- Handling an event keeps the invariant. -/
theorem Inv.perform (h : Inv s) {e : Event} (hpipe : (s.task t).pipe = e :: pipe)
    (htake : MayTake s t e) (hanswer : ∀ c, .answer c ∉ (s.task t).frames)
    (hold : ∀ f ∈ frames, f ∈ (s.task t).frames ∨ f = .events)
    (hheld : ∀ f ∈ (s.task t).frames, f ∈ frames ∨ f.event = none) :
    Inv (s.perform t e pipe frames) := by
  have hno : ∀ c, .answer c ∉ frames := by
    intro c hc
    rcases hold _ hc with hmem | heq
    · exact hanswer c hmem
    · cases heq
  have hwake : ∀ c, .wait c ∈ (s.task t).frames → Done s c ∨ (s.task t).wake ≠ c.wake := by
    intro c hc
    obtain ⟨hcaller, hcall⟩ := h.waits t c hc
    exact hcall.imp_right fun hw => hcaller ▸ hw.wake_ne
  cases hmsg : e.msg with
  | user =>
      simp only [State.perform, hmsg]
      refine h.take hpipe hanswer ⟨Or.inr ⟨_, List.mem_cons_self, rfl⟩, ?_, ?_, hno, ?_, ?_, hwake⟩
      · intro f hf
        rcases List.mem_cons.1 hf with rfl | hmem
        · exact Or.inr (Or.inr rfl)
        · exact (hold f hmem).imp_right Or.inl
      · exact fun f hf => (hheld f hf).imp_left (List.mem_cons_of_mem _)
      · intro c hc
        rcases List.mem_cons.1 hc with heq | hmem
        · cases heq
        · exact absurd hmem (hno c)
      · rintro c rfl
        cases hmsg
  | wake call =>
      simp only [State.perform, hmsg]
      have hsent : e ∈ s.sent := (h.pipe_sent t e (hpipe ▸ List.mem_cons_self)).1
      have hfinish : Inv (s.finish [e]) := h.finish fun e' he' => (List.mem_singleton.1 he') ▸ hsent
      refine hfinish.take (t := t) (e := e) hpipe hanswer
        ⟨Or.inl List.mem_cons_self, fun f hf => (hold f hf).imp_right Or.inl, hheld,
          fun c hc => hno c (List.mem_of_mem_tail hc), fun c hc => absurd hc (hno c), ?_, ?_⟩
      · rintro c rfl
        cases hmsg
      · intro c hc
        obtain ⟨hcaller, hdone | hwaiting⟩ := hfinish.waits t c hc
        · exact Or.inl hdone
        cases call with
        | none => exact Or.inr hwaiting.ne_zero.symm
        | some c' =>
            by_cases heq : c'.wake = c.wake
            · obtain ⟨hdone, hcaller'⟩ := hfinish.answered t e (hpipe ▸ List.mem_cons_self) c' hmsg
              refine Or.inl ?_
              rw [← hwaiting.unique c' (hcaller'.trans hcaller.symm) heq
                (Or.inr ⟨e, hcaller' ▸ hpipe ▸ List.mem_cons_self, hmsg⟩)]
              exact hdone
            · exact Or.inr heq
  | block wake =>
      have hevent : Call.event ⟨e.id, e.sender, e.target, wake⟩ = e := by
        rw [Call.event, ← hmsg]
      simp only [State.perform, hmsg]
      refine h.take hpipe hanswer
        ⟨Or.inr ⟨_, List.mem_cons_self, congrArg some hevent⟩, ?_, ?_, hno, ?_, ?_, hwake⟩
      · intro f hf
        rcases List.mem_cons.1 hf with rfl | hmem
        · exact Or.inr (Or.inr (congrArg some hevent))
        · exact (hold f hmem).imp_right Or.inl
      · exact fun f hf => (hheld f hf).imp_left (List.mem_cons_of_mem _)
      · intro c hc
        rcases List.mem_cons.1 hc with heq | hmem
        · rw [Frame.answer.injEq] at heq
          subst heq
          refine ⟨hevent, fun e' he' => ?_⟩
          rcases List.mem_cons.1 he' with heq | hmem
          · cases heq
          · rcases hold _ hmem with hmem | heq
            · exact htake wake hmsg e' hmem
            · cases heq
        · exact absurd hmem (hno c)
      · rintro c rfl
        rw [Call.event, Msg.block.injEq] at hmsg
        subst hmsg
        exact List.mem_cons_self

/-! ## The steps -/

/-- The calls that are safe: the number of the call is not that of a call without an answer, and it
is not the one of {lit}`restart`. -/
def MayCall (s : State) (t : Nat) : Prop :=
  (s.task t).wake + 1#64 ≠ 0#64 ∧
    ∀ c, c.caller = t → c.wake = (s.task t).wake + 1#64 → ¬ Outstanding s c

/-- A step in which the calls and the events that are taken up are safe -/
def Allowed (s : State) (t : Nat) (op : Op) : Prop :=
  match (s.task t).frames with
  | .code _ :: _ => ∀ b, op = .eventBlock b → b ≠ t → MayCall s t
  | .stop :: _ => ∀ e ∈ (s.task t).pipe.head?, MayTake s t e
  | .events :: _ => ∀ e ∈ (s.task t).pipe.head?, MayTake s t e
  | _ => True

/-- A task that is not in the middle of {lit}`event-block`'s closure -/
theorem Inv.no_answer (h : Inv s) {f : Frame} (hframes : (s.task t).frames = f :: rest)
    (hf : ∀ c, f ≠ .answer c) : ∀ c, .answer c ∉ (s.task t).frames := by
  intro c hc
  rw [hframes] at hc
  rcases List.mem_cons.1 hc with heq | hmem
  · exact hf c heq.symm
  · refine h.tail t c ?_
    rwa [hframes]

/-- A task starts to wait for events. -/
theorem Inv.push (h : Inv s) {f : Frame} (hno : ∀ c, .answer c ∉ (s.task t).frames)
    (hf : f = .stop ∨ f = .events) : Inv (s.setFrames t (f :: (s.task t).frames)) := by
  have hnone : f.event = none ∧ (∀ c, f ≠ .answer c) ∧ ∀ c, f ≠ .wait c := by
    rcases hf with rfl | rfl
    · exact ⟨rfl, nofun, nofun⟩
    · exact ⟨rfl, nofun, nofun⟩
  refine h.setFrames ⟨?_, ?_, ?_, fun c hc => absurd hc (hno c)⟩
  · intro c hc
    rcases List.mem_cons.1 hc with heq | hmem
    · exact hnone.2.1 c heq.symm
    · exact hno c hmem
  · intro f' hf'
    rcases List.mem_cons.1 hf' with rfl | hmem
    · exact Or.inr ⟨hnone.1, fun c hc => absurd hc (hnone.2.2 c)⟩
    · exact Or.inl hmem
  · exact fun f' hf' => Or.inl (List.mem_cons_of_mem _ hf')

/-- A program ends, also by an exception. -/
theorem Inv.drop (h : Inv s) (hframes : (s.task t).frames = .code event :: rest) (n : Nat) :
    Inv ((s.setFrames t (rest.drop n)).finish
      (event.toList ++ (rest.take n).filterMap Frame.event)) := by
  have hno := h.no_answer hframes nofun
  have hsent : ∀ e ∈ event.toList ++ (rest.take n).filterMap Frame.event, e ∈ s.sent := by
    intro e he
    rcases List.mem_append.1 he with hevent | hrest
    · refine (h.held_sent t (.code event) (hframes ▸ List.mem_cons_self) e ?_).1
      exact Option.mem_toList.1 hevent
    · obtain ⟨f, hf, hheld⟩ := List.mem_filterMap.1 hrest
      refine (h.held_sent t f ?_ e hheld).1
      rw [hframes]
      exact List.mem_cons_of_mem _ (List.mem_of_mem_take hf)
  refine (h.finish hsent).setFrames ⟨?_, ?_, ?_, fun c hc => absurd hc (hno c)⟩
  · intro c hc
    refine hno c ?_
    rw [hframes]
    exact List.mem_cons_of_mem _ (List.mem_of_mem_drop hc)
  · intro f hf
    refine Or.inl (hframes ▸ List.mem_cons_of_mem _ (List.mem_of_mem_drop hf))
  · intro f hf
    change f ∈ (s.task t).frames at hf
    rw [hframes] at hf
    rcases List.mem_cons.1 hf with rfl | hmem
    · exact Or.inr fun e he => List.mem_append_left _
        (List.mem_append_left _ (Option.mem_toList.2 he))
    · rw [← List.take_append_drop n rest] at hmem
      rcases List.mem_append.1 hmem with htake | hdrop
      · exact Or.inr fun e he => List.mem_append_left _
          (List.mem_append_right _ (List.mem_filterMap.2 ⟨f, htake, he⟩))
      · exact Or.inl hdrop

/-- A call sends its event and waits. -/
theorem Inv.call (h : Inv s) (hframes : (s.task t).frames = .code event :: rest)
    (hmay : MayCall s t) :
    Inv ((s.setFrames t (.stop :: .wait ⟨s.next, t, b, (s.task t).wake + 1#64⟩ ::
      .code event :: rest)).sendEvent t b (.block ((s.task t).wake + 1#64))) := by
  have hno := h.no_answer hframes nofun
  obtain ⟨hzero, hnot⟩ := hmay
  have hsend : Inv (s.sendEvent t b (.block ((s.task t).wake + 1#64))) := by
    refine h.sendEvent ⟨nofun, fun c hc hwait => ?_⟩
    obtain ⟨hcaller, hdone | hwaiting⟩ := h.waits t c hwait
    · exact hdone
    · exact absurd (Or.inl hwaiting.asked) (hnot c hcaller (Msg.block.inj hc).symm)
  rw [State.setFrames_sendEvent]
  have hmem : ∀ {x : Nat} {e : Event},
      e ∈ ((s.sendEvent t b (.block ((s.task t).wake + 1#64))).task x).pipe →
      e ∈ (s.task x).pipe ∨ e = ⟨s.next, t, b, .block ((s.task t).wake + 1#64)⟩ := by
    intro x e he
    rw [State.sendEvent_pipe] at he
    split at he
    · exact (List.mem_append.1 he).imp_right List.mem_singleton.1
    · exact Or.inl he
  have hwaiting : Waiting (s.sendEvent t b (.block ((s.task t).wake + 1#64)))
      ⟨s.next, t, b, (s.task t).wake + 1#64⟩ := by
    refine ⟨?_, hzero, Or.inl ?_, ?_⟩
    · rw [State.sendEvent_wake]
      simp
    · rw [State.sendEvent_pipe, if_pos rfl]
      exact List.mem_append_right _ (List.mem_singleton_self _)
    · rintro c' hcaller hwake ((hpipe | hframe) | ⟨e, he, hmsg⟩)
      · rcases hmem hpipe with hold | heq
        · exact absurd (Or.inl (Or.inl hold)) (hnot c' hcaller hwake)
        · obtain ⟨hid, -, htarget, -⟩ := Event.mk.inj heq
          cases c'
          simp only at hid hcaller htarget hwake
          rw [hid, hcaller, htarget, hwake]
      · rw [State.sendEvent_frames] at hframe
        exact absurd (Or.inl (Or.inr hframe)) (hnot c' hcaller hwake)
      · rcases hmem he with hold | rfl
        · exact absurd (Or.inr ⟨e, hold, hmsg⟩) (hnot c' hcaller hwake)
        · cases hmsg
  refine hsend.setFrames ⟨?_, ?_, ?_, ?_⟩
  · intro c hc
    rcases List.mem_cons.1 hc with heq | hmem
    · cases heq
    rcases List.mem_cons.1 hmem with heq | hmem
    · cases heq
    exact hno c (hframes ▸ hmem)
  · intro f hf
    rw [State.sendEvent_frames, hframes]
    rcases List.mem_cons.1 hf with rfl | hmem
    · exact Or.inr ⟨rfl, nofun⟩
    rcases List.mem_cons.1 hmem with rfl | hmem
    · refine Or.inr ⟨rfl, fun c hc => ?_⟩
      rw [← Frame.wait.inj hc]
      exact ⟨rfl, Or.inr hwaiting⟩
    exact Or.inl hmem
  · intro f hf
    rw [State.sendEvent_frames, hframes] at hf
    exact Or.inl (List.mem_cons_of_mem _ (List.mem_cons_of_mem _ hf))
  · intro c hc
    rw [State.sendEvent_frames] at hc
    exact absurd hc (hno c)

/-- When its event has been executed, everything that was sent before has been executed, too. -/
theorem Inv.done_answer (h : Inv s) (hframes : (s.task t).frames = .answer c :: rest) :
    Done (s.finish [c.event]) c := by
  have htarget : c.target = t := (h.held_sent t (.answer c) (hframes ▸ List.mem_cons_self) _ rfl).2
  obtain ⟨hpipe, hsender⟩ := h.answering t c (by rw [hframes]; rfl)
  refine ⟨List.mem_cons_self, fun e he hcaller htarget' hlt => List.mem_cons_of_mem _ ?_⟩
  have hcases := h.sent_cases e he
  rw [htarget', htarget] at hcases
  rcases hcases with hdone | hmem | ⟨f, hf, hevent⟩
  · exact hdone
  · exact absurd (hpipe e hmem) (not_lt.2 hlt.le)
  · rw [hframes] at hf
    rcases List.mem_cons.1 hf with rfl | hmem
    · rw [← Option.some.inj hevent] at hlt
      exact absurd hlt (lt_irrefl _)
    cases f with
    | code event =>
        obtain rfl : event = some e := hevent
        exact absurd hcaller (hsender e (hframes ▸ hf))
    | answer c' => exact absurd (by rwa [hframes]) (h.tail t c')
    | stop => cases hevent
    | events => cases hevent
    | wait c' => cases hevent

/-- The answer to a call -/
theorem Inv.answer (h : Inv s) (hframes : (s.task t).frames = .answer c :: rest) :
    Inv (((s.setFrames t rest).sendEvent t c.caller (.wake (some c))).finish [c.event]) := by
  obtain ⟨hsent, htarget⟩ := h.held_sent t (.answer c) (hframes ▸ List.mem_cons_self) _ rfl
  have hdone := h.done_answer hframes
  have hfinish : Inv (s.finish [c.event]) := h.finish fun e he => (List.mem_singleton.1 he) ▸ hsent
  have htail : ∀ c', .answer c' ∉ rest := by
    intro c' hc'
    refine h.tail t c' ?_
    rwa [hframes]
  have hsend : Inv ((s.finish [c.event]).sendEvent t c.caller (.wake (some c))) := by
    refine hfinish.sendEvent ⟨fun c' hc' => ?_, nofun⟩
    obtain rfl := Option.some.inj (Msg.wake.inj hc')
    refine ⟨hdone, rfl, Or.inl (Or.inr ?_)⟩
    change .answer c ∈ (s.task c.target).frames
    rw [show c.target = t from htarget, hframes]
    exact List.mem_cons_self
  rw [State.setFrames_sendEvent]
  refine hsend.setFrames (t := t) ⟨htail, ?_, ?_, ?_⟩
  · intro f hf
    rw [State.sendEvent_frames]
    refine Or.inl ?_
    change f ∈ (s.task t).frames
    rw [hframes]
    exact List.mem_cons_of_mem _ hf
  · intro f hf
    rw [State.sendEvent_frames] at hf
    change f ∈ (s.task t).frames at hf
    rw [hframes] at hf
    rcases List.mem_cons.1 hf with rfl | hmem
    · refine Or.inr fun e he => ?_
      rw [← Option.some.inj he]
      exact List.mem_cons_self
    · exact Or.inl hmem
  · intro c' hc'
    rw [State.sendEvent_frames] at hc'
    change .answer c' ∈ (s.task t).frames at hc'
    rw [hframes] at hc'
    rcases List.mem_cons.1 hc' with heq | hmem
    · rw [Frame.answer.inj heq]
      exact hfinish.done_later (later_sendEvent ..) hdone
    · exact absurd hmem (htail c')

/-- A call that returns has been done. -/
theorem Inv.return (h : Inv s) (hdone : Done s c) : Inv { s with returned := c :: s.returned } := by
  refine { h with waits := ?_, answered := h.answered, returned := ?_ }
  · intro t c' hc'
    obtain ⟨hcaller, hcall⟩ := h.waits t c' hc'
    exact ⟨hcaller, hcall.imp_right fun hw => ⟨hw.1, hw.2, hw.3, hw.4⟩⟩
  · intro c' hc'
    rcases List.mem_cons.1 hc' with rfl | hold
    · exact hdone
    · exact h.returned c' hold

/-- An operation of the code keeps the invariant. -/
theorem stepCode_inv (h : Inv s) {op : Op} (hframes : (s.task t).frames = .code event :: rest)
    (hmay : ∀ b, op = .eventBlock b → b ≠ t → MayCall s t)
    (hstep : stepCode s t event rest op = some s') : Inv s' := by
  have hno := h.no_answer hframes nofun
  cases op with
  | send _ | restart _ =>
      obtain rfl := Option.some.inj hstep
      exact h.sendEvent ⟨nofun, nofun⟩
  | eventBlock b =>
      rw [stepCode] at hstep
      split at hstep
      · obtain rfl := Option.some.inj hstep
        rw [← hframes]
        exact h.push hno (Or.inr rfl)
      · rename_i hne
        obtain rfl := Option.some.inj hstep
        exact h.call hframes (hmay b rfl hne)
  | activate b =>
      rw [stepCode] at hstep
      split at hstep
      · rename_i hempty
        obtain rfl := Option.some.inj hstep
        refine h.setFrames ⟨?_, ?_, ?_, ?_⟩
        · intro c hc
          cases List.mem_singleton.1 hc
        · intro f hf
          rw [List.mem_singleton.1 hf]
          exact Or.inr ⟨rfl, nofun⟩
        · intro f hf
          rw [hempty] at hf
          cases hf
        · intro c hc
          rw [hempty] at hc
          cases hc
      · cases hstep
  | stop =>
      obtain rfl := Option.some.inj hstep
      rw [← hframes]
      exact h.push hno (Or.inl rfl)
  | events =>
      obtain rfl := Option.some.inj hstep
      rw [← hframes]
      exact h.push hno (Or.inr rfl)
  | done =>
      obtain rfl := Option.some.inj hstep
      have hdrop := h.drop hframes 0
      rwa [List.drop_zero, List.take_zero, List.filterMap_nil, List.append_nil] at hdrop
  | throw n =>
      rw [stepCode] at hstep
      split at hstep
      · obtain rfl := Option.some.inj hstep
        exact h.drop hframes n
      · cases hstep

/-- An event that interrupts a task keeps the invariant. -/
theorem perform_inv (h : Inv s) {f : Frame} {e : Event} (hframes : (s.task t).frames = f :: rest)
    (hf : f = .stop ∨ f = .events) (hpipe : (s.task t).pipe = e :: pipe) (htake : MayTake s t e) :
    Inv (s.perform t e pipe (.events :: rest)) := by
  have hnone : f.event = none ∧ ∀ c, f ≠ .answer c := by
    rcases hf with rfl | rfl
    · exact ⟨rfl, nofun⟩
    · exact ⟨rfl, nofun⟩
  refine h.perform hpipe htake (h.no_answer hframes hnone.2) ?_ ?_
  · intro f' hf'
    rcases List.mem_cons.1 hf' with rfl | hmem
    · exact Or.inr rfl
    · exact Or.inl (hframes ▸ List.mem_cons_of_mem _ hmem)
  · intro f' hf'
    rw [hframes] at hf'
    rcases List.mem_cons.1 hf' with rfl | hmem
    · exact Or.inr hnone.1
    · exact Or.inl (List.mem_cons_of_mem _ hmem)

/-- A task ends what it was in the middle of. -/
theorem pop_inv (h : Inv s) {f : Frame} (hframes : (s.task t).frames = f :: rest)
    (hf : f.event = none) (hno : ∀ c, f ≠ .answer c) : Inv (s.setFrames t rest) := by
  have hanswer := h.no_answer hframes hno
  refine h.setFrames ⟨?_, ?_, ?_, fun c hc => absurd hc (hanswer c)⟩
  · exact fun c hc => hanswer c (hframes ▸ List.mem_cons_of_mem _ hc)
  · exact fun f' hf' => Or.inl (hframes ▸ List.mem_cons_of_mem _ hf')
  · intro f' hf'
    rw [hframes] at hf'
    rcases List.mem_cons.1 hf' with rfl | hmem
    · refine Or.inr fun e he => ?_
      rw [hf] at he
      cases he
    · exact Or.inl hmem

/-- An allowed step keeps the invariant. -/
theorem step_inv (h : Inv s) {op : Op} (hallowed : Allowed s t op) (hstep : step s t op = some s') :
    Inv s' := by
  cases hframes : (s.task t).frames with
  | nil => simp [step, hframes] at hstep
  | cons f rest =>
      simp only [step, hframes] at hstep
      simp only [Allowed, hframes] at hallowed
      cases f with
      | code event => exact stepCode_inv h hframes hallowed hstep
      | answer c =>
          obtain rfl := Option.some.inj hstep
          exact h.answer hframes
      | stop =>
          cases hpipe : (s.task t).pipe with
          | nil => simp [hpipe] at hstep
          | cons e pipe =>
              simp only [hpipe] at hstep hallowed
              obtain rfl := Option.some.inj hstep
              exact perform_inv h hframes (Or.inl rfl) hpipe (hallowed e rfl)
      | events =>
          cases hpipe : (s.task t).pipe with
          | nil =>
              simp only [hpipe] at hstep
              obtain rfl := Option.some.inj hstep
              exact pop_inv h hframes rfl nofun
          | cons e pipe =>
              simp only [hpipe] at hstep hallowed
              obtain rfl := Option.some.inj hstep
              exact perform_inv h hframes (Or.inr rfl) hpipe (hallowed e rfl)
      | wait c =>
          simp only at hstep
          split at hstep
          · rename_i hwake
            obtain rfl := Option.some.inj hstep
            obtain ⟨rfl, hdone | hwaiting⟩ := h.waits t c (hframes ▸ List.mem_cons_self)
            · have hlater : Later s (s.setFrames c.caller rest) := ⟨fun e he => he, fun e he => Or.inl he⟩
              exact (pop_inv h hframes rfl nofun).return (h.done_later hlater hdone)
            · exact absurd hwake hwaiting.wake_ne
          · obtain rfl := Option.some.inj hstep
            rw [← hframes]
            exact h.push (h.no_answer hframes nofun) (Or.inl rfl)

/-- All steps are allowed. -/
def AllowedRun (s : State) : List (Nat × Op) → Prop
  | [] => True
  | (t, op) :: steps => Allowed s t op ∧ ∀ s', step s t op = some s' → AllowedRun s' steps

/-- An allowed run keeps the invariant. -/
theorem run_inv {steps : List (Nat × Op)} (h : Inv s) (hallowed : AllowedRun s steps)
    (hrun : run s steps = some s') : Inv s' := by
  induction steps generalizing s with
  | nil =>
      obtain rfl := Option.some.inj hrun
      exact h
  | cons step' steps ih =>
      obtain ⟨t, op⟩ := step'
      rw [run] at hrun
      split at hrun
      · cases hrun
      · rename_i s1 hstep
        exact ih (step_inv h hallowed.1 hstep) (hallowed.2 s1 hstep) hrun

/-- In a run in which no task calls {lit}`event-block` with the number of a call that has no answer
yet, and no task takes up the event of a call while it executes another event of the same sender, the
events have been executed when a call returns. -/
theorem eventBlock_barrier (wake : Nat → BitVec 64) (steps : List (Nat × Op))
    (hallowed : AllowedRun (start wake) steps) (s : State)
    (hrun : run (start wake) steps = some s) : Barrier s :=
  (run_inv (Inv.start wake) hallowed hrun).returned

/-- The task 0 waits for the task 1. -/
def singleCall : List (Nat × Op) :=
  [(0, .activate 1), (0, .eventBlock 1), (1, .stop), (1, .done), (1, .done), (0, .done), (0, .done),
    (0, .done)]

/-- A run with one call -/
theorem eventBlock_barrier_singleCall :
    ∃ s, run (start fun _ => 0#64) singleCall = some s ∧ s.returned.length = 1 ∧ Barrier s := by
  have hallowed : AllowedRun (start fun _ => 0#64) singleCall := by
    refine ⟨fun _ hop => (by cases hop), fun s1 h1 => ?_⟩
    obtain rfl := Option.some.inj h1
    refine ⟨fun b _ _ => ⟨by decide, ?_⟩, fun s2 h2 => ?_⟩
    · -- there are no events
      rintro c - - ((hpipe | hframe) | ⟨e, he, -⟩)
      · rw [State.setFrames_pipe] at hpipe
        cases hpipe
      · rw [State.setFrames_frames] at hframe
        split at hframe
        · cases List.mem_singleton.1 hframe
        · simp only [start] at hframe
          split at hframe
          · cases List.mem_singleton.1 hframe
          · cases hframe
      · rw [State.setFrames_pipe] at he
        cases he
    obtain rfl := Option.some.inj h2
    refine ⟨fun _ hop => (by cases hop), fun s3 h3 => ?_⟩
    obtain rfl := Option.some.inj h3
    refine ⟨fun e he wake _ e' he' => ?_, fun s4 h4 => ?_⟩
    · cases he' with
      | tail _ he' => cases List.mem_singleton.1 he'
    obtain rfl := Option.some.inj h4
    refine ⟨trivial, fun s5 h5 => ?_⟩
    obtain rfl := Option.some.inj h5
    refine ⟨fun e he wake hmsg => ?_, fun s6 h6 => ?_⟩
    · obtain rfl := Option.some.inj he
      cases hmsg
    obtain rfl := Option.some.inj h6
    refine ⟨fun _ he => (by cases he), fun s7 h7 => ?_⟩
    obtain rfl := Option.some.inj h7
    exact ⟨trivial, fun _ _ => trivial⟩
  obtain ⟨s, hs⟩ : ∃ s, run (start fun _ => 0#64) singleCall = some s := ⟨_, rfl⟩
  refine ⟨s, hs, ?_, eventBlock_barrier _ _ hallowed s hs⟩
  obtain rfl := Option.some.inj hs
  rfl

end Pthreads
end Gforth
