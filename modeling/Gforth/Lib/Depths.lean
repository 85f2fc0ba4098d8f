import Gforth.Lib.Stacks

/-!
# Counting stack items

How many items more a word leaves on the data stack than it takes.  The counts of the words of a
program add up, whatever the items are.

Main results:

- Theorems {lit}`leaves_lit` to {lit}`leaves_rFetch`: the counts of single words.
- Theorem {lit}`Leaves.colon_cons`: the counts of a program.
- Class {lit}`Counted`: words whose counts are known.
-/

namespace Gforth
namespace Lib
namespace Stacks

variable {α : Type} {f : Effect α} {fs : List (Effect α)} {m n : Int}

/-- Where the word has a result, there are {lit}`n` items more on the data stack than before. -/
def Leaves (f : Effect α) (n : Int) : Prop :=
  ∀ s s', f s = some s' → (s'.data.length : Int) = s.data.length + n

/-! ## Words -/

theorem leaves_lit (x : α) : Leaves (lit x) 1 := by
  rintro ⟨d, r⟩ s' ⟨⟩
  simp

theorem leaves_unary (g : α → α) : Leaves (unary g) 0 := by
  rintro ⟨d, r⟩ s' h
  match d, h with
  | x :: d, rfl => simp

theorem leaves_binary (g : α → α → α) : Leaves (binary g) (-1) := by
  rintro ⟨d, r⟩ s' h
  match d, h with
  | y :: x :: d, rfl => simp

/-- A copy is one item more. -/
theorem leaves_dup : Leaves (@dup α) 1 := by
  rintro ⟨d, r⟩ s' h
  match d, h with
  | x :: d, rfl => simp

theorem leaves_swap : Leaves (@swap α) 0 := by
  rintro ⟨d, r⟩ s' h
  match d, h with
  | y :: x :: d, rfl => simp

theorem leaves_over : Leaves (@over' α) 1 := by
  rintro ⟨d, r⟩ s' h
  match d, h with
  | y :: x :: d, rfl => simp

theorem leaves_toR : Leaves (@toR α) (-1) := by
  rintro ⟨d, r⟩ s' h
  match d, h with
  | x :: d, rfl => simp

theorem leaves_fromR : Leaves (@fromR α) 1 := by
  rintro ⟨d, r⟩ s' h
  match r, h with
  | x :: r, rfl => simp

theorem leaves_rFetch : Leaves (@rFetch α) 1 := by
  rintro ⟨d, r⟩ s' h
  match r, h with
  | x :: r, rfl => simp

/-! ## Programs -/

namespace Leaves

theorem colon_nil : Leaves (colon ([] : List (Effect α))) 0 := by
  rintro s s' ⟨⟩
  simp

/-- The counts of a word and of the words behind it add up. -/
theorem colon_cons (hf : Leaves f m) (hfs : Leaves (colon fs) n) :
    Leaves (colon (f :: fs)) (m + n) := by
  intro s s' h
  rw [Lib.colon_cons, Option.bind_eq_some_iff] at h
  obtain ⟨t, ht, hs'⟩ := h
  have hfirst := hf s t ht
  have hrest := hfs t s' hs'
  omega

end Leaves

/-! ## Counting by instances -/

/-- A word with its count; the count of a program is found from the ones of its words. -/
class Counted (f : Effect α) where
  count : Int
  leaves : Leaves f count

instance (x : α) : Counted (lit x) := ⟨1, leaves_lit x⟩

instance (g : α → α) : Counted (unary g) := ⟨0, leaves_unary g⟩

instance (g : α → α → α) : Counted (binary g) := ⟨-1, leaves_binary g⟩

instance : Counted (@dup α) := ⟨1, leaves_dup⟩

instance : Counted (@swap α) := ⟨0, leaves_swap⟩

instance : Counted (@over' α) := ⟨1, leaves_over⟩

instance : Counted (@toR α) := ⟨-1, leaves_toR⟩

instance : Counted (@fromR α) := ⟨1, leaves_fromR⟩

instance : Counted (@rFetch α) := ⟨1, leaves_rFetch⟩

instance : Counted (colon ([] : List (Effect α))) := ⟨0, .colon_nil⟩

instance (f : Effect α) (fs : List (Effect α)) [hf : Counted f] [hfs : Counted (colon fs)] :
    Counted (colon (f :: fs)) :=
  ⟨hf.count + hfs.count, hf.leaves.colon_cons hfs.leaves⟩

theorem Counted.exists_leaves [hf : Counted f] {k : Nat} (h : hf.count = k) :
    ∃ k : Nat, Leaves f k :=
  ⟨k, h ▸ hf.leaves⟩

end Stacks
end Lib
end Gforth
