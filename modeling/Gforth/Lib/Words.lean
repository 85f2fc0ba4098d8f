import Mathlib.Order.Defs.Unbundled
import Mathlib.Tactic.Common

/-!
# Words that keep an invariant

A word changes a state, returns a result, or fails.  If it ends well, it keeps an invariant, relates
the states before and after it by a preorder, and establishes a condition on its result.  A condition
that the preorder preserves still holds after the words that follow.

Main results:

- Theorem {lit}`Keeps.bind`: what a sequence of words keeps and establishes.
- Theorems {lit}`Keeps.weaken` and {lit}`Keeps.and`: another preorder, and one more invariant.
-/

namespace Gforth
namespace Lib

variable {σ ε α β : Type}

variable {word : StateT σ (Except ε) α} {f : α → StateT σ (Except ε) β} {Q : α → σ → Prop}

/-- A sequence of two words that ends well -/
theorem bind_ok {s s' : σ} {b : β} (h : (word >>= f) s = .ok (b, s')) :
    ∃ a s₁, word s = .ok (a, s₁) ∧ f a s₁ = .ok (b, s') := by
  change (word s >>= fun r => f r.1 r.2) = .ok (b, s') at h
  cases hw : word s with
  | error err =>
    rw [hw] at h
    cases h
  | ok r =>
    rw [hw] at h
    exact ⟨r.1, r.2, rfl, h⟩

/-- Where the word ends well, it keeps {lit}`inv`, goes along {lit}`rel` and establishes
{lit}`Q`. -/
def Keeps (inv : σ → Prop) (rel : σ → σ → Prop) (word : StateT σ (Except ε) α)
    (Q : α → σ → Prop) : Prop :=
  ∀ ⦃s a s'⦄, inv s → word s = .ok (a, s') → inv s' ∧ rel s s' ∧ Q a s'

variable {inv : σ → Prop} {rel : σ → σ → Prop}

theorem Keeps.throw (err : ε) : Keeps inv rel (throw err : StateT σ (Except ε) α) Q := by
  intro s a s' _ hok
  cases hok

/-- A weaker result -/
theorem Keeps.mono {Q R : α → σ → Prop} (h : Keeps inv rel word Q) (hQR : ∀ a s, Q a s → R a s) :
    Keeps inv rel word R := by
  intro s a s' hs hok
  obtain ⟨hs', hrel, ha⟩ := h hs hok
  exact ⟨hs', hrel, hQR a s' ha⟩

/-- A larger preorder -/
theorem Keeps.weaken {rel' : σ → σ → Prop} (h : Keeps inv rel word Q)
    (hrel : ∀ ⦃s s'⦄, rel s s' → rel' s s') : Keeps inv rel' word Q := by
  intro s a s' hs hok
  obtain ⟨hs', hss', ha⟩ := h hs hok
  exact ⟨hs', hrel hss', ha⟩

/-- One more invariant, which the preorder preserves -/
theorem Keeps.and {inv' : σ → Prop} (h : Keeps inv rel word Q)
    (hinv : ∀ ⦃s s'⦄, rel s s' → inv' s → inv' s') :
    Keeps (fun s => inv s ∧ inv' s) rel word Q := by
  intro s a s' hs hok
  obtain ⟨hs', hss', ha⟩ := h hs.1 hok
  exact ⟨⟨hs', hinv hss' hs.2⟩, hss', ha⟩

variable [IsPreorder σ rel]

/-- A word that returns a value and changes nothing -/
theorem Keeps.pure {a : α} (h : ∀ s, Q a s) :
    Keeps inv rel (Pure.pure a : StateT σ (Except ε) α) Q := by
  intro s a' s' hs hok
  cases hok
  exact ⟨hs, refl s, h s⟩

/-- A word that reads the state -/
theorem Keeps.get : Keeps inv rel (get : StateT σ (Except ε) σ) fun a _ => inv a := by
  intro s a s' hs hok
  cases hok
  exact ⟨hs, refl s, hs⟩

/-- The state that is read is the state that there is. -/
theorem Keeps.getState :
    Keeps inv rel (MonadState.get : StateT σ (Except ε) σ) fun a s => s = a := by
  intro s a s' hs hok
  cases hok
  exact ⟨hs, refl s, rfl⟩

/-- A word and its continuation, which may use what the word has established. -/
theorem Keeps.bind (h : Keeps inv rel word Q) (hpers : ∀ ⦃a s s'⦄, rel s s' → Q a s → Q a s')
    {R : β → σ → Prop} (hf : ∀ a, Keeps inv rel (f a) fun b s => Q a s → R b s) :
    Keeps inv rel (word >>= f) R := by
  intro s b s' hs hok
  obtain ⟨a, s₁, hword, hrest⟩ := bind_ok hok
  obtain ⟨hs₁, hrel, ha⟩ := h hs hword
  obtain ⟨hs', hrel', hb⟩ := hf a hs₁ hrest
  exact ⟨hs', IsTrans.trans _ _ _ hrel hrel', hb (hpers hrel' ha)⟩

/-- A word with a condition on the result alone, and its continuation -/
theorem Keeps.bindResult {Q : α → Prop} (h : Keeps inv rel word fun a _ => Q a) {R : β → σ → Prop}
    (hf : ∀ a, Q a → Keeps inv rel (f a) R) : Keeps inv rel (word >>= f) R := by
  intro s b s' hs hok
  obtain ⟨a, s₁, hword, hrest⟩ := bind_ok hok
  obtain ⟨hs₁, hrel, ha⟩ := h hs hword
  obtain ⟨hs', hrel', hb⟩ := hf a ha hs₁ hrest
  exact ⟨hs', IsTrans.trans _ _ _ hrel hrel', hb⟩

end Lib
end Gforth
