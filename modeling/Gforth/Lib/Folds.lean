import Mathlib.Data.List.Basic
import Mathlib.Tactic

/-!
# Invariants of loops over lists

Loops of the modelled programs are left folds, with {lean}`Option` where the
body can fail.  The rules here turn a statement about one iteration into a
statement about the whole loop.

Main results:

- Theorem {lit}`foldlM_option_invariant`: what every iteration preserves holds
  after a loop that ran to its end.
- Theorem {lit}`foldlM_option_establish`: what one iteration establishes and
  every iteration preserves holds after the loop.
- Theorem {lit}`foldlM_option_run`: a loop whose iterations all succeed runs to its end.
-/

namespace Gforth
namespace Lib

variable {α β : Type}

variable {f : β → α → Option β} {l : List α}

/-- An invariant of every iteration is an invariant of the loop. -/
theorem foldlM_option_invariant {P : β → Prop} {b b' : β} (hrun : l.foldlM f b = some b') (hb : P b)
    (hstep : ∀ a ∈ l, ∀ b b', P b → f b a = some b' → P b') : P b' := by
  induction l generalizing b with
  | nil =>
      rw [List.foldlM_nil] at hrun
      exact Option.some.inj hrun ▸ hb
  | cons a rest ih =>
      rw [List.foldlM_cons] at hrun
      obtain ⟨b₁, hfirst, hrest⟩ := Option.bind_eq_some_iff.mp hrun
      exact ih hrest (hstep a List.mem_cons_self b b₁ hb hfirst)
        fun a' ha' => hstep a' (List.mem_cons_of_mem a ha')

/-- What the iteration for one list element establishes and all iterations
preserve holds after the loop. -/
theorem foldlM_option_establish {Q : β → Prop} {a : α} {b b' : β} (hrun : l.foldlM f b = some b')
    (ha : a ∈ l) (hmake : ∀ b b', f b a = some b' → Q b')
    (hstep : ∀ a ∈ l, ∀ b b', Q b → f b a = some b' → Q b') : Q b' := by
  obtain ⟨front, back, rfl⟩ := List.append_of_mem ha
  rw [List.foldlM_append] at hrun
  obtain ⟨b₁, -, hback⟩ := Option.bind_eq_some_iff.mp hrun
  rw [List.foldlM_cons] at hback
  obtain ⟨b₂, hfirst, hrest⟩ := Option.bind_eq_some_iff.mp hback
  refine foldlM_option_invariant hrest (hmake b₁ b₂ hfirst) ?_
  intro a' ha'
  exact hstep a' (List.mem_append_right front (List.mem_cons_of_mem a ha'))

/-- A fold whose steps all succeed succeeds; the invariant may speak of the elements
that were folded in already. -/
theorem foldlM_option_run {P : List α → β → Prop} {b : β} (hb : P [] b)
    (hstep : ∀ front a back b, l = front ++ a :: back → P front b →
      ∃ b', f b a = some b' ∧ P (front ++ [a]) b') : ∃ b', l.foldlM f b = some b' ∧ P l b' := by
  suffices h : ∀ (back front : List α) (b : β), l = front ++ back → P front b →
      ∃ b', back.foldlM f b = some b' ∧ P l b' from h l [] b rfl hb
  intro back
  induction back with
  | nil =>
      intro front b hl hfront
      rw [List.append_nil] at hl
      exact ⟨b, rfl, hl ▸ hfront⟩
  | cons a back ih =>
      intro front b hl hfront
      obtain ⟨b₁, hfirst, hfront₁⟩ := hstep front a back b hl hfront
      obtain ⟨b₂, hrest, hend⟩ := ih (front ++ [a]) b₁ (by simpa using hl) hfront₁
      refine ⟨b₂, ?_, hend⟩
      rw [List.foldlM_cons, hfirst]
      exact hrest

/-- An element after a replacement was there before or is the new one. -/
theorem mem_of_mem_replace [DecidableEq α] {a b x : α} (hx : x ∈ l.replace a b) :
    x = b ∨ x ∈ l := by
  induction l with
  | nil => simp at hx
  | cons y rest ih =>
      by_cases hy : a = y
      · subst hy
        rw [List.replace_cons_self] at hx
        rcases List.mem_cons.mp hx with hb | hrest
        · exact Or.inl hb
        · exact Or.inr (List.mem_cons_of_mem a hrest)
      · have hbeq : (a == y) = false := by simpa using hy
        rw [List.replace_cons, hbeq] at hx
        rcases List.mem_cons.mp hx with rfl | hrest
        · exact Or.inr List.mem_cons_self
        · exact (ih hrest).imp_right (List.mem_cons_of_mem y)

/-- Replacing an element that is there puts the new one in. -/
theorem mem_replace_self [DecidableEq α] {a b : α} (ha : a ∈ l) : b ∈ l.replace a b := by
  induction l with
  | nil => simp at ha
  | cons y rest ih =>
      by_cases hy : a = y
      · subst hy
        simp
      · have hbeq : (a == y) = false := by simpa using hy
        rw [List.replace_cons, hbeq]
        exact List.mem_cons_of_mem y (ih (List.mem_of_ne_of_mem hy ha))

/-- Mapping after a map with indices. -/
theorem map_mapIdx {γ : Type} (f : Nat → α → β) (g : β → γ) (l : List α) :
    (l.mapIdx f).map g = l.mapIdx fun k a => g (f k a) := by
  rw [List.mapIdx_eq_zipIdx_map, List.mapIdx_eq_zipIdx_map, List.map_map]
  rfl

end Lib
end Gforth
