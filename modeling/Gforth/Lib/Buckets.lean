import Mathlib.Logic.Function.Basic
import Mathlib.Data.List.Basic

/-!
# Chained hash tables

A hash table with separate chaining: every bucket is a list of key-value pairs,
new pairs are linked in at the front of their bucket, and a lookup walks the
bucket of its key and takes the first match.  The hash function is a parameter,
so the same lemmas serve every table of this shape.

Main results:

- Theorems {lit}`lookup_link_self` and {lit}`lookup_link_ne`: linking a pair in
  changes the lookup of its own key only, whatever collides.
- Theorem {lit}`lookup_modify`: updating the value of a key in place changes
  the lookup of that key only.
-/

namespace Gforth
namespace Lib

/-- Buckets of key-value pairs, indexed by hash value. -/
abbrev Buckets (K V : Type) := Nat → List (K × V)

namespace Buckets

variable {K V : Type} [DecidableEq K]

/-- The table without entries. -/
def empty : Buckets K V := fun _ => []

/-- Walk the bucket of a key up to the first pair with that key. -/
def lookup (hash : K → Nat) (b : Buckets K V) (k : K) : Option V :=
  (b (hash k)).lookup k

/-- Link a pair in at the front of its bucket. -/
def link (hash : K → Nat) (b : Buckets K V) (k : K) (v : V) : Buckets K V :=
  Function.update b (hash k) ((k, v) :: b (hash k))

/-- Apply a function to the first value stored for a key in one chain. -/
def modifyChain (k : K) (f : V → V) : List (K × V) → List (K × V)
  | [] => []
  | (k', v) :: rest =>
      if k = k' then (k', f v) :: rest else (k', v) :: modifyChain k f rest

/-- Apply a function in place to the value that a lookup of the key finds. -/
def modify (hash : K → Nat) (b : Buckets K V) (k : K) (f : V → V) : Buckets K V :=
  Function.update b (hash k) (modifyChain k f (b (hash k)))

@[simp]
theorem lookup_empty (hash : K → Nat) (k : K) :
    lookup hash (empty : Buckets K V) k = none :=
  rfl

@[simp]
theorem lookup_link_self (hash : K → Nat) (b : Buckets K V) (k : K) (v : V) :
    lookup hash (link hash b k v) k = some v := by
  simp [lookup, link]

/-- A linked pair is invisible to the lookup of any other key, also when both
keys share a bucket. -/
theorem lookup_link_ne (hash : K → Nat) (b : Buckets K V) {k k' : K} (v : V)
    (hne : k' ≠ k) : lookup hash (link hash b k v) k' = lookup hash b k' := by
  unfold lookup link
  by_cases hh : hash k' = hash k
  · have hbeq : (k' == k) = false := by simpa using hne
    rw [hh, Function.update_self, List.lookup_cons, hbeq]
  · rw [Function.update_of_ne hh]

/-- Changing a chain changes the value of the key. -/
theorem lookup_modifyChain_self (k : K) (f : V → V) (chain : List (K × V)) :
    (modifyChain k f chain).lookup k = (chain.lookup k).map f := by
  induction chain with
  | nil => rfl
  | cons pair rest ih =>
      obtain ⟨k', v⟩ := pair
      by_cases hk : k = k'
      · simp [modifyChain, hk]
      · have hbeq : (k == k') = false := by simpa using hk
        simp [modifyChain, hk, List.lookup_cons, hbeq, ih]

/-- Changing a chain does not change the values of other keys. -/
theorem lookup_modifyChain_ne {k k' : K} (f : V → V) (chain : List (K × V))
    (hne : k' ≠ k) : (modifyChain k f chain).lookup k' = chain.lookup k' := by
  induction chain with
  | nil => rfl
  | cons pair rest ih =>
      obtain ⟨k₀, v⟩ := pair
      by_cases hk : k = k₀
      · subst hk
        have hbeq : (k' == k) = false := by simpa using hne
        simp [modifyChain, List.lookup_cons, hbeq]
      · simp only [modifyChain, if_neg hk, List.lookup_cons, ih]

/-- Updating in place changes the lookup of the updated key only. -/
theorem lookup_modify (hash : K → Nat) (b : Buckets K V) (k k' : K) (f : V → V) :
    lookup hash (modify hash b k f) k' =
      if k' = k then (lookup hash b k).map f else lookup hash b k' := by
  unfold lookup modify
  by_cases hk : k' = k
  · subst hk
    simp [lookup_modifyChain_self]
  · by_cases hh : hash k' = hash k
    · rw [hh, Function.update_self, lookup_modifyChain_ne f _ hk, if_neg hk]
    · rw [Function.update_of_ne hh, if_neg hk]

end Buckets

end Lib
end Gforth
