import Gforth.Gray.LookAhead
import Gforth.Lib.Words

/-!
# First sets and follow sets

What {lit}`compute` stores are the first sets.  {lit}`propagate` stops where nothing would change;
still, whatever may follow a syntax-expr is passed on to its operands in the end.

Main results:

- Theorem {lit}`compute_spec`: the stored first sets follow the rules.
- Theorem {lit}`propagate_spec`: after a call, every marked syntax-expr has passed on its follow
  set, or is as it was before.
-/

namespace Gforth
namespace Gray

open Lib

variable (g : Grammar)

/-! ## First sets -/

/-- The stored first sets follow the rules. -/
def FirstsOk (s : State) : Prop :=
  ∀ ⦃e F m⦄, s.first e = some (F, m) → Value g (g e) F m

/-- Only first sets have been stored. -/
structure FirstsOnly (s s' : State) : Prop where
  markPropagate : s'.markPropagate = s.markPropagate
  markPass2 : s'.markPass2 = s.markPass2
  follow : s'.follow = s.follow
  exec : s'.exec = s.exec
  conflicts : s'.conflicts = s.conflicts

instance : IsPreorder State FirstsOnly where
  refl _ := ⟨rfl, rfl, rfl, rfl, rfl⟩
  trans _ _ _ h h' := ⟨h'.markPropagate.trans h.markPropagate, h'.markPass2.trans h.markPass2,
    h'.follow.trans h.follow, h'.exec.trans h.exec, h'.conflicts.trans h.conflicts⟩

/-- The word stores nothing but first sets, and its result fulfils {lit}`Q`. -/
abbrev Computes {α : Type} (word : Generator α) (Q : α → Prop) : Prop :=
  Keeps (FirstsOk g) FirstsOnly word fun a _ => Q a

variable {g}

theorem getBody_spec (ruleBody : Option Nat) :
    Computes g (getBody ruleBody) fun body => ruleBody = some body := by
  cases ruleBody with
  | none => exact .throw _
  | some body => exact .pure fun _ => rfl

theorem setMarkCompute_spec (e : Nat) :
    Computes g (modify (State.setMarkCompute e)) fun _ => True := by
  intro s a s' hs hok
  cases hok
  exact ⟨hs, ⟨rfl, rfl, rfl, rfl, rfl⟩, trivial⟩

/-- A first set that is stored is right. -/
theorem setFirst_spec {e : Nat} {v : Finset Nat × Bool} (hv : Value g (g e) v.1 v.2) :
    Computes g (modify (State.setFirst e v)) fun _ => True := by
  intro s a s' hs hok
  cases hok
  refine ⟨fun e' F m h => ?_, ⟨rfl, rfl, rfl, rfl, rfl⟩, trivial⟩
  change Function.update s.first e (some v) e' = some (F, m) at h
  rcases eq_or_ne e' e with rfl | hne
  · rw [Function.update_self] at h
    cases h
    exact hv
  · rw [Function.update_of_ne hne] at h
    exact hs h

/-- What {lit}`compute` does for a syntax-expr -/
abbrev ComputeSpec (g : Grammar) (compute : Nat → Generator (Finset Nat × Bool)) : Prop :=
  ∀ e, Computes g (compute e) fun v => Value g (g e) v.1 v.2

section Methods

variable {compute : Nat → Generator (Finset Nat × Bool)}

theorem getFirst_spec (hc : ComputeSpec g compute) (e : Nat) :
    Computes g (getFirst compute e) fun F => ∃ m, Value g (g e) F m :=
  (hc e).bindResult fun v hv => .pure fun _ => ⟨v.2, hv⟩

/-- The first set of an element is computed from those of its parts. -/
theorem computeMethod_spec (hc : ComputeSpec g compute) (e : Nat) (n : Node) :
    Computes g (computeMethod compute e n) fun v => Value g n v.1 v.2 := by
  cases n with
  | eps => exact .throw _
  | terminal set => exact .throw _
  | concat a b =>
    refine (hc a).bindResult fun ⟨F, m⟩ va => ?_
    cases m with
    | false => exact .pure fun _ => .concatStop va
    | true => exact (hc b).bindResult fun ⟨F', m'⟩ vb => .pure fun _ => .concat va vb
  | alt a b =>
    refine (hc a).bindResult fun ⟨F, m⟩ va => ?_
    exact (hc b).bindResult fun ⟨F', m'⟩ vb => .pure fun _ => .alt va vb
  | option a => exact (hc a).bindResult fun ⟨F, m⟩ va => .pure fun _ => .option va
  | star a => exact (hc a).bindResult fun ⟨F, m⟩ va => .pure fun _ => .star va
  | plus a => exact (hc a).mono fun v _ va => .plus va
  | nt ruleBody =>
    refine Keeps.get.bindResult fun s _ => ?_
    split
    · exact .throw _
    · refine (setMarkCompute_spec e).bindResult fun _ _ => ?_
      refine (getBody_spec ruleBody).bindResult fun body hbody => ?_
      rw [hbody]
      exact (hc body).mono fun v _ vbody => .nt vbody

end Methods

/-- {lit}`compute` returns the first set, also where it has been stored before. -/
theorem compute_spec (depth : Nat) : ComputeSpec g (compute g depth) := by
  induction depth with
  | zero => exact fun _ => .throw _
  | succ depth ih =>
    intro e
    refine Keeps.get.bindResult fun s hs => ?_
    cases hfirst : s.first e with
    | some v => exact .pure fun _ => hs hfirst
    | none =>
      refine (computeMethod_spec ih e (g e)).bindResult fun v hv => ?_
      exact (setFirst_spec hv).bindResult fun _ _ => .pure fun _ => hv

/-! ## Follow sets -/

/-- {lit}`propagate` has been at the syntax-expr with this follow set, or more. -/
def Reached (s : State) (followSet : Finset Nat) (e : Nat) : Prop :=
  s.markPropagate e = true ∧ followSet ⊆ s.follow e

variable (g) in
/-- A follow set has been passed on to the operands of a syntax-expr. -/
def PassedOn (s : State) (followSet : Finset Nat) : Node → Prop
  | .eps => True
  | .terminal _ => True
  | .concat a b => (∃ F m, Value g (g b) F m ∧
      Reached s (if m then F ∪ followSet else F) a) ∧ Reached s followSet b
  | .alt a b => Reached s followSet a ∧ Reached s followSet b
  | .option a => Reached s followSet a
  | .star a => ∃ F, (∃ m, Value g (g a) F m) ∧ Reached s (followSet ∪ F) a
  | .plus a => ∃ F, (∃ m, Value g (g a) F m) ∧ Reached s (followSet ∪ F) a
  | .nt none => False
  | .nt (some body) => Reached s followSet body

variable (g) in
/-- What a call of {lit}`propagate` may do: the follow sets grow, and every syntax-expr that is
marked has passed on its follow set, or nothing has changed for it. -/
structure Propagated (s s' : State) : Prop where
  markPass2 : s'.markPass2 = s.markPass2
  exec : s'.exec = s.exec
  conflicts : s'.conflicts = s.conflicts
  mark : ∀ e, s.markPropagate e = true → s'.markPropagate e = true
  follow : ∀ e, s.follow e ⊆ s'.follow e
  passedOn : ∀ e, s'.markPropagate e = true → PassedOn g s' (s'.follow e) (g e) ∨
    s.markPropagate e = true ∧ s'.follow e = s.follow e

variable {s s' : State} {followSet : Finset Nat}

theorem Reached.mono (h : Propagated g s s') {e : Nat} (hr : Reached s followSet e) :
    Reached s' followSet e :=
  ⟨h.mark e hr.1, hr.2.trans (h.follow e)⟩

/-- What has been passed on stays so. -/
theorem PassedOn.mono (h : Propagated g s s') {n : Node} (hp : PassedOn g s followSet n) :
    PassedOn g s' followSet n := by
  cases n with
  | eps => trivial
  | terminal => trivial
  | concat a b =>
    obtain ⟨⟨F, m, hv, ha⟩, hb⟩ := hp
    exact ⟨⟨F, m, hv, ha.mono h⟩, hb.mono h⟩
  | alt a b => exact ⟨hp.1.mono h, hp.2.mono h⟩
  | option a => exact Reached.mono h hp
  | star _ | plus _ =>
    obtain ⟨F, hv, ha⟩ := hp
    exact ⟨F, hv, ha.mono h⟩
  | nt ruleBody =>
    cases ruleBody with
    | none => exact hp
    | some body => exact Reached.mono h hp

instance : IsPreorder State (Propagated g) where
  refl _ := ⟨rfl, rfl, rfl, fun _ => id, fun _ => Finset.Subset.refl _, fun _ h => .inr ⟨h, rfl⟩⟩
  trans _ _ _ h h' := by
    refine ⟨h'.markPass2.trans h.markPass2, h'.exec.trans h.exec, h'.conflicts.trans h.conflicts,
      fun e he => h'.mark e (h.mark e he), fun e => (h.follow e).trans (h'.follow e),
      fun e he => ?_⟩
    rcases h'.passedOn e he with hp | ⟨hmark, hsame⟩
    · exact .inl hp
    · rw [hsame]
      exact (h.passedOn e hmark).imp_left (PassedOn.mono h')

/-- Changes of the first sets do not matter for what is passed on. -/
theorem FirstsOnly.propagated (h : FirstsOnly s s') : Propagated g s s' where
  markPass2 := h.markPass2
  exec := h.exec
  conflicts := h.conflicts
  mark e he := by rw [h.markPropagate]; exact he
  follow e := by rw [h.follow]
  passedOn e he := by
    rw [h.markPropagate] at he
    exact .inr ⟨he, by rw [h.follow]⟩

/-- What {lit}`propagate` does for a syntax-expr -/
abbrev PropagateSpec (g : Grammar) (propagate : Finset Nat → Nat → Generator Unit) : Prop :=
  ∀ followSet e, Keeps (FirstsOk g) (Propagated g) (propagate followSet e)
    fun _ s => Reached s followSet e

/-- Follow sets are passed on to the parts of an element. -/
theorem propagateMethod_spec {compute : Nat → Generator (Finset Nat × Bool)}
    (hc : ComputeSpec g compute) {propagate : Finset Nat → Nat → Generator Unit}
    (hp : PropagateSpec g propagate) (followSet : Finset Nat) (n : Node) :
    Keeps (FirstsOk g) (Propagated g) (propagateMethod compute propagate followSet n)
      fun _ s => PassedOn g s followSet n := by
  have hrepetition : ∀ a, Keeps (FirstsOk g) (Propagated g)
      (propagateRepetition compute propagate followSet a)
      fun _ s => ∃ F, (∃ m, Value g (g a) F m) ∧ Reached s (followSet ∪ F) a := by
    intro a
    refine ((getFirst_spec hc a).weaken fun _ _ => FirstsOnly.propagated).bindResult fun F hv => ?_
    exact (hp _ a).mono fun _ s hr => ⟨F, hv, hr⟩
  cases n with
  | eps | terminal => exact .pure fun _ => trivial
  | concat a b =>
    refine ((hc b).weaken fun _ _ => FirstsOnly.propagated).bindResult fun ⟨F, m⟩ hv => ?_
    refine (hp _ a).bind (fun _ _ _ h => Reached.mono h) fun _ => ?_
    exact (hp followSet b).mono fun _ s hb ha => ⟨⟨F, m, hv, ha⟩, hb⟩
  | alt a b =>
    refine (hp _ a).bind (fun _ _ _ h => Reached.mono h) fun _ => ?_
    exact (hp followSet b).mono fun _ s hb ha => ⟨ha, hb⟩
  | option a => exact hp followSet a
  | star a => exact hrepetition a
  | plus a => exact hrepetition a
  | nt ruleBody =>
    refine ((getBody_spec ruleBody).weaken fun _ _ => FirstsOnly.propagated).bindResult
      fun body hbody => ?_
    rw [hbody]
    exact hp followSet body

theorem setFollow_follow_self (s : State) (e : Nat) (followSet : Finset Nat) :
    (s.setFollow e followSet).follow e = followSet :=
  Function.update_self ..

/-- A call that first sets the follow set of a syntax-expr, and passes it on -/
theorem Propagated.of_set {e : Nat} (hsub : s.follow e ⊆ followSet)
    (h : Propagated g ((s.setMarkPropagate e).setFollow e followSet) s')
    (hpassed : PassedOn g s' followSet (g e)) : Propagated g s s' where
  markPass2 := h.markPass2
  exec := h.exec
  conflicts := h.conflicts
  mark x hx := by
    refine h.mark x ?_
    rcases eq_or_ne x e with rfl | hne
    · exact Function.update_self ..
    · exact (Function.update_of_ne hne ..).trans hx
  follow x := by
    refine Finset.Subset.trans ?_ (h.follow x)
    rcases eq_or_ne x e with rfl | hne
    · rw [setFollow_follow_self]
      exact hsub
    · exact (Function.update_of_ne hne followSet s.follow).symm.subset
  passedOn x hx := by
    rcases h.passedOn x hx with hp | ⟨hmark, hsame⟩
    · exact .inl hp
    · rcases eq_or_ne x e with rfl | hne
      · rw [setFollow_follow_self] at hsame
        rw [hsame]
        exact .inl hpassed
      · exact .inr ⟨(Function.update_of_ne hne ..).symm.trans hmark,
          hsame.trans (Function.update_of_ne hne ..)⟩

/-- {lit}`propagate` passes on the follow set, although it stops where nothing would change. -/
theorem propagate_spec (depth : Nat) : PropagateSpec g (propagate g depth) := by
  induction depth with
  | zero => exact fun _ _ => .throw _
  | succ depth ih =>
    intro followSet e s a s' hs hok
    obtain ⟨s₀, s₁, hget, hok⟩ := bind_ok hok
    cases hget
    split at hok
    · change propagateMethod (compute g depth) (propagate g depth) (followSet ∪ s.follow e) (g e)
        ((s.setMarkPropagate e).setFollow e (followSet ∪ s.follow e)) = .ok (a, s') at hok
      have hset : FirstsOk g ((s.setMarkPropagate e).setFollow e (followSet ∪ s.follow e)) := hs
      obtain ⟨hs', hrel, hpassed⟩ :=
        propagateMethod_spec (compute_spec depth) ih (followSet ∪ s.follow e) (g e) hset hok
      have hmark := hrel.mark e (Function.update_self ..)
      have hgrows := hrel.follow e
      rw [setFollow_follow_self] at hgrows
      exact ⟨hs', hrel.of_set Finset.subset_union_right hpassed, hmark,
        Finset.subset_union_left.trans hgrows⟩
    · next hstop =>
      cases hok
      rw [not_or, not_not, Bool.not_eq_false] at hstop
      exact ⟨hs, refl s, hstop.2, hstop.1⟩

end Gray
end Gforth
