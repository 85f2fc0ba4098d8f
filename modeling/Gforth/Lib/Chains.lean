import Mathlib.Logic.Function.Basic
import Mathlib.Data.List.Basic
import Mathlib.Tactic

/-!
# Linked chains of cells

A store of link cells, some of them roots of linked lists and the others inside
the nodes of these lists.  The address 0 ends a list.  The chains of different
roots share no node, so that a store into one of them leaves the others alone.

Main results:

- Theorem {lit}`Chains.push`: a new node at the front of a chain.
- Theorem {lit}`Chains.append`: a new node at the end of a chain.
- Theorem {lit}`Chains.pop`: the first node of a chain unlinked.
- Theorem {lit}`Chains.drain`: all nodes of a chain moved to the front of another one.
-/

namespace Gforth
namespace Lib

/-- A link cell: the root of a list or the link field of a node. -/
inductive Loc (ρ : Type)
  | root (r : ρ)
  | node (a : Nat)
deriving DecidableEq

/-- The contents of all link cells. -/
abbrev Links (ρ : Type) := Loc ρ → Nat

variable {ρ : Type}

/-! ## Single lists -/

/-- The nodes {lit}`as` are the list that starts with the node {lit}`a`. -/
def IsList (c : Links ρ) : Nat → List Nat → Prop
  | a, [] => a = 0
  | a, b :: bs => a = b ∧ b ≠ 0 ∧ IsList c (c (Loc.node b)) bs

variable {as : List Nat}

/-- A list only depends on the cells of its nodes. -/
theorem IsList.congr {c c' : Links ρ} :
    ∀ {a : Nat}, IsList c a as → (∀ b ∈ as, c' (Loc.node b) = c (Loc.node b)) →
      IsList c' a as := by
  induction as with
  | nil =>
      intro a h _
      exact h
  | cons b bs ih =>
      intro a h heq
      refine ⟨h.1, h.2.1, ?_⟩
      rw [heq b List.mem_cons_self]
      exact ih h.2.2 fun d hd => heq d (List.mem_cons_of_mem b hd)

/-- No node of a list is at the address 0. -/
theorem IsList.ne_zero {c : Links ρ} : ∀ {a : Nat}, IsList c a as → ∀ b ∈ as, b ≠ 0 := by
  induction as with
  | nil => simp
  | cons b bs ih =>
      intro a h d hd
      rcases List.mem_cons.mp hd with rfl | hd
      · exact h.2.1
      · exact ih h.2.2 d hd

/-- The cell that holds the end of the list of the cell {lit}`l`. -/
def lastLoc (l : Loc ρ) : List Nat → Loc ρ
  | [] => l
  | a :: as => lastLoc (Loc.node a) as

/-- The last link is in the root or in a node. -/
theorem lastLoc_cases (l : Loc ρ) (as : List Nat) :
    lastLoc l as = l ∨ ∃ a ∈ as, lastLoc l as = Loc.node a := by
  induction as generalizing l with
  | nil => exact Or.inl rfl
  | cons a as ih =>
      rcases ih (Loc.node a) with heq | ⟨b, hb, heq⟩
      · exact Or.inr ⟨a, List.mem_cons_self, heq⟩
      · exact Or.inr ⟨b, List.mem_cons_of_mem a hb, heq⟩

/-- Walk to the cell that holds the end of the list. -/
def lastLink (c : Links ρ) : Nat → Loc ρ → Option (Loc ρ)
  | 0, _ => none
  | fuel + 1, l => if c l = 0 then some l else lastLink c fuel (Loc.node (c l))

/-- With enough fuel the walk arrives. -/
theorem lastLink_eq {c : Links ρ} :
    ∀ {l : Loc ρ} {fuel : Nat}, IsList c (c l) as → as.length < fuel →
      lastLink c fuel l = some (lastLoc l as) := by
  induction as with
  | nil =>
      intro l fuel h hfuel
      obtain ⟨fuel, rfl⟩ := Nat.exists_eq_succ_of_ne_zero (Nat.ne_of_gt hfuel)
      exact if_pos h
  | cons a as ih =>
      intro l fuel h hfuel
      obtain ⟨fuel, rfl⟩ := Nat.exists_eq_succ_of_ne_zero (Nat.ne_of_gt (Nat.zero_lt_of_lt hfuel))
      obtain ⟨hl, ha, has⟩ := h
      rw [lastLink, if_neg (by rw [hl]; exact ha), hl]
      exact ih has (by simpa using hfuel)

section

variable [DecidableEq ρ]

theorem IsList.update {c : Links ρ} {a : Nat} {as : List Nat} (h : IsList c a as)
    {l : Loc ρ} (hl : ∀ b ∈ as, Loc.node b ≠ l) (v : Nat) :
    IsList (Function.update c l v) a as :=
  h.congr fun b hb => Function.update_of_ne (hl b hb) _ _

/-- A node linked in at the end of a list. -/
theorem IsList.append {c : Links ρ} {as : List Nat} {x : Nat} (hx : x ≠ 0)
    (hnil : c (Loc.node x) = 0) :
    ∀ {l : Loc ρ}, IsList c (c l) as → as.Nodup → (∀ a ∈ as, Loc.node a ≠ l) → x ∉ as →
      Loc.node x ≠ l →
      IsList (Function.update c (lastLoc l as) x)
        (Function.update c (lastLoc l as) x l) (as ++ [x]) := by
  induction as with
  | nil =>
      intro l _ _ _ _ hxl
      exact ⟨Function.update_self _ _ _, hx, (Function.update_of_ne hxl _ _).trans hnil⟩
  | cons a as ih =>
      intro l h hnodup hl hxas hxl
      obtain ⟨ha, hnodup⟩ := List.nodup_cons.mp hnodup
      have hne : ∀ b ∈ as, Loc.node b ≠ (Loc.node a : Loc ρ) := by
        rintro b hb heq
        cases heq
        exact ha hb
      have hxa : Loc.node x ≠ (Loc.node a : Loc ρ) := by
        rintro heq
        cases heq
        exact hxas List.mem_cons_self
      -- the end of the list is in one of its nodes, not in the cell in front of it
      have hlast : l ≠ lastLoc (Loc.node a) as := by
        rcases lastLoc_cases (Loc.node a : Loc ρ) as with heq | ⟨b, hb, heq⟩
        · rw [heq]
          exact (hl a List.mem_cons_self).symm
        · rw [heq]
          exact (hl b (List.mem_cons_of_mem a hb)).symm
      refine ⟨?_, h.2.1, ih h.2.2 hnodup hne (fun hmem => hxas (List.mem_cons_of_mem a hmem)) hxa⟩
      exact (Function.update_of_ne hlast _ _).trans h.1

end

/-! ## Disjoint chains -/

/-- Every root has its chain, and no node is in a chain twice or in two of them. -/
structure Chains (c : Links ρ) (chain : ρ → List Nat) : Prop where
  isList : ∀ r, IsList c (c (Loc.root r)) (chain r)
  nodup : ∀ r, (chain r).Nodup
  disjoint : ∀ {r r' a}, a ∈ chain r → a ∈ chain r' → r = r'

theorem chains_empty {c : Links ρ} (h : ∀ r, c (Loc.root r) = 0) : Chains c fun _ => [] :=
  ⟨h, fun _ => List.nodup_nil, fun ha => absurd ha List.not_mem_nil⟩

variable [DecidableEq ρ] {c : Links ρ} {chain : ρ → List Nat}

/-- Link a node in at the front of the list of a root. -/
def pushLink (c : Links ρ) (r : ρ) (a : Nat) : Links ρ :=
  Function.update (Function.update c (Loc.node a) (c (Loc.root r))) (Loc.root r) a

/-- Other roots keep what a change of one chain does not take from them. -/
theorem Chains.modify {c' : Links ρ} (h : Chains c chain) {r : ρ}
    (hself : IsList c' (c' (Loc.root r)) as) (hnodup : as.Nodup)
    (hother : ∀ r' ≠ r, IsList c' (c' (Loc.root r')) (chain r'))
    (hdisj : ∀ r' ≠ r, ∀ a ∈ as, a ∉ chain r') : Chains c' (Function.update chain r as) := by
  refine ⟨?_, ?_, ?_⟩
  · intro r'
    by_cases hr : r' = r
    · subst hr
      rwa [Function.update_self]
    · rw [Function.update_of_ne hr]
      exact hother r' hr
  · intro r'
    by_cases hr : r' = r
    · subst hr
      rwa [Function.update_self]
    · rw [Function.update_of_ne hr]
      exact h.nodup r'
  · intro r₁ r₂ a h₁ h₂
    by_cases hr₁ : r₁ = r <;> by_cases hr₂ : r₂ = r
    · rw [hr₁, hr₂]
    · subst hr₁
      rw [Function.update_self] at h₁
      rw [Function.update_of_ne hr₂] at h₂
      exact absurd h₂ (hdisj r₂ hr₂ a h₁)
    · subst hr₂
      rw [Function.update_self] at h₂
      rw [Function.update_of_ne hr₁] at h₁
      exact absurd h₁ (hdisj r₁ hr₁ a h₂)
    · rw [Function.update_of_ne hr₁] at h₁
      rw [Function.update_of_ne hr₂] at h₂
      exact h.disjoint h₁ h₂

theorem pushLink_root_of_ne {r r' : ρ} (hr : r' ≠ r) (a : Nat) :
    pushLink c r a (Loc.root r') = c (Loc.root r') := by
  rw [pushLink, Function.update_of_ne (by simpa using hr), Function.update_of_ne (by simp)]

theorem pushLink_node_of_ne {r : ρ} {a b : Nat} (hb : b ≠ a) :
    pushLink c r a (Loc.node b) = c (Loc.node b) := by
  rw [pushLink, Function.update_of_ne (by simp), Function.update_of_ne (by simpa using hb)]

/-- A new node at the front of a chain. -/
theorem Chains.push (h : Chains c chain) (r : ρ) {a : Nat} (ha : a ≠ 0)
    (hnew : ∀ r, a ∉ chain r) :
    Chains (pushLink c r a) (Function.update chain r (a :: chain r)) := by
  have hkeep : ∀ r' b, b ∈ chain r' → pushLink c r a (Loc.node b) = c (Loc.node b) :=
    fun r' b hb => pushLink_node_of_ne fun heq => hnew r' (heq ▸ hb)
  refine h.modify ?_ (List.nodup_cons.mpr ⟨hnew r, h.nodup r⟩) ?_ ?_
  · refine ⟨Function.update_self _ _ _, ha, ?_⟩
    have hnode : pushLink c r a (Loc.node a) = c (Loc.root r) := by
      rw [pushLink, Function.update_of_ne (by simp), Function.update_self]
    rw [hnode]
    exact (h.isList r).congr (hkeep r)
  · intro r' hr
    rw [pushLink_root_of_ne hr]
    exact (h.isList r').congr (hkeep r')
  · intro r' hr b hb hmem
    rcases List.mem_cons.mp hb with rfl | hb
    · exact hnew r' hmem
    · exact hr (h.disjoint hmem hb)

/-- The first node of a chain unlinked. -/
theorem Chains.pop (h : Chains c chain) {r : ρ} {a : Nat} (hr : chain r = a :: as) :
    Chains (Function.update c (Loc.root r) (c (Loc.node a))) (Function.update chain r as) := by
  have hlist := h.isList r
  have hnodup := h.nodup r
  rw [hr] at hlist hnodup
  refine h.modify ?_ (List.nodup_cons.mp hnodup).2 ?_ ?_
  · rw [Function.update_self]
    exact hlist.2.2.update (by simp) _
  · intro r' hne
    rw [Function.update_of_ne (by simpa using hne)]
    exact (h.isList r').update (by simp) _
  · intro r' hne b hb hmem
    exact hne (h.disjoint hmem (hr ▸ List.mem_cons_of_mem a hb))

/-- A new node at the end of a chain. -/
theorem Chains.append (h : Chains c chain) (r : ρ) {a : Nat} (ha : a ≠ 0)
    (hnew : ∀ r, a ∉ chain r) (hnil : c (Loc.node a) = 0) :
    Chains (Function.update c (lastLoc (Loc.root r) (chain r)) a)
      (Function.update chain r (chain r ++ [a])) := by
  have hlast := lastLoc_cases (Loc.root r) (chain r)
  refine h.modify ?_ ?_ ?_ ?_
  · exact (h.isList r).append ha hnil (h.nodup r) (by simp) (hnew r) (by simp)
  · rw [List.nodup_append]
    refine ⟨h.nodup r, List.nodup_singleton a, ?_⟩
    rintro b hb d hd rfl
    exact hnew r (List.mem_singleton.mp hd ▸ hb)
  · intro r' hr
    have hroot : Loc.root r' ≠ lastLoc (Loc.root r) (chain r) := by
      rcases hlast with heq | ⟨b, -, heq⟩
      · rw [heq]
        simpa using hr
      · rw [heq]
        simp
    rw [Function.update_of_ne hroot]
    refine (h.isList r').update (fun b hb => ?_) _
    rcases hlast with heq | ⟨d, hd, heq⟩
    · rw [heq]
      simp
    · rw [heq]
      rintro hbd
      cases hbd
      exact hr (h.disjoint hb hd)
  · intro r' hr b hb hmem
    rcases List.mem_append.mp hb with hb | hb
    · exact hr (h.disjoint hmem hb)
    · exact hnew r' (List.mem_singleton.mp hb ▸ hmem)

/-- A store into a node that is in no chain. -/
theorem Chains.update_node (h : Chains c chain) {a : Nat} (ha : ∀ r, a ∉ chain r) (v : Nat) :
    Chains (Function.update c (Loc.node a) v) chain := by
  refine ⟨fun r => ?_, h.nodup, h.disjoint⟩
  rw [Function.update_of_ne (by simp)]
  refine (h.isList r).update (fun b hb => ?_) v
  rintro heq
  cases heq
  exact ha r hb

/-- Walk a list and link each of its nodes in at the front of the list of a root. -/
def drain (r : ρ) : Nat → Nat → Links ρ → Option (Links ρ)
  | 0, _, _ => none
  | fuel + 1, a, c =>
      if a = 0 then some c else drain r fuel (c (Loc.node a)) (pushLink c r a)

/-- A list of nodes outside of all chains, moved to the front of a chain; the cell of
another root is not looked at. -/
theorem Chains.drain_list {r r' : ρ} (hr : r' ≠ r) :
    ∀ {c : Links ρ} {chain : ρ → List Nat} {fuel : Nat} {a : Nat},
      Chains (Function.update c (Loc.root r') 0) chain →
      IsList c a as → as.Nodup → (∀ r, ∀ b ∈ as, b ∉ chain r) → as.length < fuel →
      ∃ c', drain r fuel a c = some c' ∧
        Chains (Function.update c' (Loc.root r') 0)
          (Function.update chain r (as.reverse ++ chain r)) := by
  induction as with
  | nil =>
      intro c chain fuel a h hlist _ _ hfuel
      obtain ⟨fuel, rfl⟩ := Nat.exists_eq_succ_of_ne_zero (Nat.ne_of_gt hfuel)
      refine ⟨c, if_pos hlist, ?_⟩
      rwa [List.reverse_nil, List.nil_append, Function.update_eq_self]
  | cons b bs ih =>
      intro c chain fuel a h hlist hnodup hnew hfuel
      obtain ⟨fuel, rfl⟩ := Nat.exists_eq_succ_of_ne_zero (Nat.ne_of_gt (Nat.zero_lt_of_lt hfuel))
      obtain ⟨rfl, ha, hrest⟩ := hlist
      obtain ⟨hbs, hnodup⟩ := List.nodup_cons.mp hnodup
      have hpush := h.push r ha fun r => hnew r a List.mem_cons_self
      have hcomm : pushLink (Function.update c (Loc.root r') 0) r a =
          Function.update (pushLink c r a) (Loc.root r') 0 := by
        have hne : Loc.root r ≠ Loc.root r' := by simpa using hr.symm
        rw [pushLink, pushLink, Function.update_of_ne hne, Function.update_comm hne,
          Function.update_comm (by simp : Loc.node a ≠ Loc.root r')]
      rw [hcomm] at hpush
      obtain ⟨c', hc', hchains⟩ := ih hpush
        (hrest.congr fun d hd => pushLink_node_of_ne fun heq => hbs (heq ▸ hd)) hnodup
        (by
          intro r₁ d hd hmem
          by_cases hr₁ : r₁ = r
          · subst hr₁
            rw [Function.update_self] at hmem
            rcases List.mem_cons.mp hmem with rfl | hmem
            · exact hbs hd
            · exact hnew r₁ d (List.mem_cons_of_mem a hd) hmem
          · rw [Function.update_of_ne hr₁] at hmem
            exact hnew r₁ d (List.mem_cons_of_mem a hd) hmem)
        (by simpa using hfuel)
      refine ⟨c', ?_, ?_⟩
      · rw [Lib.drain, if_neg ha]
        exact hc'
      · rw [Function.update_self, Function.update_idem] at hchains
        rwa [List.reverse_cons, List.append_assoc, List.singleton_append]

/-- All nodes of a chain moved to the front of another one. -/
theorem Chains.drain (h : Chains c chain) {r r' : ρ} (hr : r' ≠ r) {fuel : Nat}
    (hfuel : (chain r').length < fuel) :
    ∃ c', Lib.drain r fuel (c (Loc.root r')) c = some c' ∧
      Chains (Function.update c' (Loc.root r') 0)
        (Function.update (Function.update chain r' []) r ((chain r').reverse ++ chain r)) := by
  have hempty : Chains (Function.update c (Loc.root r') 0) (Function.update chain r' []) := by
    refine h.modify (Function.update_self _ _ _) List.nodup_nil ?_ (by simp)
    intro r₁ hr₁
    rw [Function.update_of_ne (by simpa using hr₁)]
    exact (h.isList r₁).update (by simp) _
  obtain ⟨c', hc', hchains⟩ := Chains.drain_list hr hempty (h.isList r') (h.nodup r')
    (by
      intro r₁ b hb hmem
      by_cases hr₁ : r₁ = r'
      · subst hr₁
        rw [Function.update_self] at hmem
        exact absurd hmem List.not_mem_nil
      · rw [Function.update_of_ne hr₁] at hmem
        exact hr₁ (h.disjoint hmem hb)) hfuel
  refine ⟨c', hc', ?_⟩
  rwa [Function.update_of_ne hr.symm] at hchains

end Lib
end Gforth
