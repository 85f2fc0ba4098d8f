import Mathlib.Data.List.Basic
import Mathlib.Order.Lattice
import Mathlib.Tactic

/-!
# Searching an ascending list

The least element that is not below a key is searched in one half of an ascending list.

Main results:

- Theorem {lit}`IsNext.of_take`: the key is not above an element, and the search goes on in front of it.
- Theorem {lit}`IsNext.of_drop`: the key is above an element, and the search goes on behind it.
- Theorem {lit}`index_lt_of_lt` and {lit}`index_eq_of_eq`: the order of the indices.
-/

namespace Gforth
namespace Lib

variable {α : Type} [LinearOrder α] {l : List α} {key x : α} {r : Option α} {i : Nat}

/-- The least element that is not below the key, if there is one -/
def IsNext (l : List α) (key : α) : Option α → Prop
  | some x => x ∈ l ∧ key ≤ x ∧ ∀ y ∈ l, key ≤ y → x ≤ y
  | none => ∀ y ∈ l, y < key

theorem isNext_nil (key : α) : IsNext [] key none :=
  fun _ hy => absurd hy List.not_mem_nil

/-- The only element follows if it is not less than the key. -/
theorem isNext_singleton (x key : α) : IsNext [x] key (if x < key then none else some x) := by
  by_cases hx : x < key
  · rw [if_pos hx]
    intro y hy
    rwa [List.mem_singleton.1 hy]
  · rw [if_neg hx]
    refine ⟨List.mem_singleton_self x, not_lt.1 hx, fun y hy _ => ?_⟩
    rw [List.mem_singleton.1 hy]

/-- What is in front of an element of an ascending list -/
theorem le_of_mem_take (h : l.Pairwise (· ≤ ·)) (hx : l[i]? = some x) {y : α}
    (hy : y ∈ l.take (i + 1)) : y ≤ x := by
  obtain ⟨hi, rfl⟩ := List.getElem?_eq_some_iff.1 hx
  obtain ⟨j, hj, rfl⟩ := List.mem_take_iff_getElem.1 hy
  rcases Nat.lt_or_eq_of_le (show j ≤ i by omega) with hlt | rfl
  · exact List.pairwise_iff_getElem.1 h j i (by omega) hi hlt
  · exact le_rfl

/-- What is behind an element of an ascending list -/
theorem le_of_mem_drop (h : l.Pairwise (· ≤ ·)) (hx : l[i]? = some x) {y : α}
    (hy : y ∈ l.drop (i + 1)) : x ≤ y := by
  obtain ⟨hi, rfl⟩ := List.getElem?_eq_some_iff.1 hx
  obtain ⟨j, hj, rfl⟩ := List.mem_drop_iff_getElem.1 hy
  exact List.pairwise_iff_getElem.1 h i (i + 1 + j) hi (by omega) (by omega)

theorem mem_take_or_mem_drop {α : Type} {l : List α} {y : α} (i : Nat) (hy : y ∈ l) :
    y ∈ l.take i ∨ y ∈ l.drop i := by
  rwa [← List.take_append_drop i l, List.mem_append] at hy

/-- The front part with an element that is not below the key -/
theorem IsNext.of_take (h : l.Pairwise (· ≤ ·)) (hx : l[i]? = some x) (hkey : ¬x < key)
    (hr : IsNext (l.take (i + 1)) key r) : IsNext l key r := by
  have hmem : x ∈ l.take (i + 1) := by
    obtain ⟨hi, rfl⟩ := List.getElem?_eq_some_iff.1 hx
    exact List.mem_take_iff_getElem.2 ⟨i, by omega, rfl⟩
  cases r with
  | none => exact absurd (hr x hmem) hkey
  | some z =>
    obtain ⟨hz, hle, hleast⟩ := hr
    refine ⟨List.mem_of_mem_take hz, hle, fun y hy hkeyy => ?_⟩
    rcases mem_take_or_mem_drop (i + 1) hy with hy | hy
    · exact hleast y hy hkeyy
    · exact (hleast x hmem (not_lt.1 hkey)).trans (le_of_mem_drop h hx hy)

/-- The rest behind an element that is below the key -/
theorem IsNext.of_drop (h : l.Pairwise (· ≤ ·)) (hx : l[i]? = some x) (hkey : x < key)
    (hr : IsNext (l.drop (i + 1)) key r) : IsNext l key r := by
  cases r with
  | none =>
    intro y hy
    rcases mem_take_or_mem_drop (i + 1) hy with hy | hy
    · exact (le_of_mem_take h hx hy).trans_lt hkey
    · exact hr y hy
  | some z =>
    obtain ⟨hz, hle, hleast⟩ := hr
    refine ⟨List.mem_of_mem_drop hz, hle, fun y hy hkeyy => ?_⟩
    rcases mem_take_or_mem_drop (i + 1) hy with hy | hy
    · exact absurd ((le_of_mem_take h hx hy).trans_lt hkey) (not_lt.2 hkeyy)
    · exact hleast y hy hkeyy

/-! ## Strictly ascending lists -/

variable {j : Nat} {y : α}

/-- Smaller elements are in front. -/
theorem index_lt_of_lt (h : l.Pairwise (· < ·)) (hx : l[i]? = some x) (hy : l[j]? = some y)
    (hxy : x < y) : i < j := by
  obtain ⟨hi, rfl⟩ := List.getElem?_eq_some_iff.1 hx
  obtain ⟨hj, rfl⟩ := List.getElem?_eq_some_iff.1 hy
  rcases Nat.lt_trichotomy i j with hlt | rfl | hlt
  · exact hlt
  · exact absurd hxy (lt_irrefl _)
  · exact absurd (List.pairwise_iff_getElem.1 h j i hj hi hlt) hxy.not_gt

/-- An element is at one index only. -/
theorem index_eq_of_eq (h : l.Pairwise (· < ·)) (hx : l[i]? = some x) (hy : l[j]? = some x) :
    i = j := by
  obtain ⟨hi, rfl⟩ := List.getElem?_eq_some_iff.1 hx
  obtain ⟨hj, heq⟩ := List.getElem?_eq_some_iff.1 hy
  rcases Nat.lt_trichotomy i j with hlt | rfl | hlt
  · exact absurd heq (List.pairwise_iff_getElem.1 h i j hi hj hlt).ne'
  · rfl
  · exact absurd heq (List.pairwise_iff_getElem.1 h j i hj hi hlt).ne

end Lib
end Gforth
