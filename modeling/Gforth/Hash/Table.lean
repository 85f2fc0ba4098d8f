import Gforth.Hash.Dictionary

/-!
# Buckets of the hash table

The nodes of the table and of the free list form disjoint chains, so every bucket
has its list of words.  The lemmas of this module say what the operations on nodes
do to these lists; nothing above it looks at nodes.

Main results:

- Theorem {lit}`enter_spec`: entering a word changes the list of its bucket only.
- Theorem {lit}`clearhash_spec`: clearing empties all buckets.
- Theorem {lit}`hashFind_eq`: searching a bucket is searching its list.
-/

namespace Gforth
namespace Hash

open Lib

/-- The chains of nodes in a state. -/
structure NodesOk (s : State) (chain : Root → List Nat) : Prop where
  chains : Chains s.links chain
  lt_heapTop : ∀ {r a}, a ∈ chain r → a < s.heapTop
  heapTop_pos : 0 < s.heapTop

/-- Bucket {lit}`b` of the table holds the words {lit}`B b`. -/
def Represents (s : State) (B : Nat → List Nt) : Prop :=
  ∃ chain, NodesOk s chain ∧ ∀ b, B b = (chain (Root.bucket b)).map s.entry

/-- The states differ in their nodes only. -/
structure SameButNodes (s s' : State) : Prop where
  hashbits : s'.hashbits = s.hashbits
  hashTable : s'.hashTable = s.hashTable
  hashIndex : s'.hashIndex = s.hashIndex
  hashPop : s'.hashPop = s.hashPop
  insRule : s'.insRule = s.insRule
  revealed : s'.revealed = s.revealed
  voclink : s'.voclink = s.voclink
  wordlist : s'.wordlist = s.wordlist

variable {s : State} {B : Nat → List Nt} {chain : Root → List Nat}

theorem SameButNodes.rfl : SameButNodes s s :=
  ⟨Eq.refl _, Eq.refl _, Eq.refl _, Eq.refl _, Eq.refl _, Eq.refl _, Eq.refl _, Eq.refl _⟩

theorem SameButNodes.trans {s s' s'' : State} (h : SameButNodes s s') (h' : SameButNodes s' s'') :
    SameButNodes s s'' :=
  ⟨h'.hashbits.trans h.hashbits, h'.hashTable.trans h.hashTable, h'.hashIndex.trans h.hashIndex,
    h'.hashPop.trans h.hashPop, h'.insRule.trans h.insRule, h'.revealed.trans h.revealed,
    h'.voclink.trans h.voclink, h'.wordlist.trans h.wordlist⟩

theorem SameButNodes.of_nodes {s s' : State} (h : SameButNodes s s') (links : Links Root)
    (entry : Nat → Nt) (heapTop : Nat) :
    SameButNodes s { s' with links := links, entry := entry, heapTop := heapTop } :=
  ⟨h.hashbits, h.hashTable, h.hashIndex, h.hashPop, h.insRule, h.revealed, h.voclink, h.wordlist⟩

/-- The words in the buckets depend on the nodes only. -/
theorem Represents.of_nodes {s s' : State} (h : Represents s B) (hlinks : s'.links = s.links)
    (hentry : s'.entry = s.entry) (hheapTop : s'.heapTop = s.heapTop) : Represents s' B := by
  obtain ⟨chain, hnodes, hB⟩ := h
  refine ⟨chain, ⟨hlinks ▸ hnodes.chains, ?_, hheapTop ▸ hnodes.heapTop_pos⟩, hentry ▸ hB⟩
  intro r a ha
  rw [hheapTop]
  exact hnodes.lt_heapTop ha

/-- A table whose cells are erased has empty buckets. -/
theorem Represents.erase {s s' : State} (h : Represents s B)
    (hnode : ∀ a, s'.links (Loc.node a) = s.links (Loc.node a))
    (hfree : s'.links (Loc.root Root.hashPointer) = s.links (Loc.root Root.hashPointer) ∨
      s'.links (Loc.root Root.hashPointer) = 0)
    (hbucket : ∀ b, s'.links (Loc.root (Root.bucket b)) = 0) (hheapTop : s'.heapTop = s.heapTop) :
    Represents s' fun _ => [] := by
  obtain ⟨chain, hnodes, -⟩ := h
  have hpos : 0 < s'.heapTop := hheapTop ▸ hnodes.heapTop_pos
  rcases hfree with hfree | hfree
  · have hchains : Chains s'.links
        (Function.update (fun _ => []) Root.hashPointer (chain Root.hashPointer)) := by
      have hempty : Chains (Function.update s'.links (Loc.root Root.hashPointer) 0)
          fun _ => [] := by
        refine chains_empty fun r => ?_
        cases r with
        | hashPointer => exact Function.update_self _ _ _
        | bucket b => exact (Function.update_of_ne (by simp) _ _).trans (hbucket b)
      refine hempty.modify ?_ (hnodes.chains.nodup _) ?_ (by simp)
      · rw [hfree]
        exact (hnodes.chains.isList _).congr fun a _ => hnode a
      · intro r hr
        cases r with
        | hashPointer => exact absurd rfl hr
        | bucket b => exact hbucket b
    refine ⟨_, ⟨hchains, ?_, hpos⟩, ?_⟩
    · intro r a ha
      rw [hheapTop]
      by_cases hr : r = Root.hashPointer
      · subst hr
        rw [Function.update_self] at ha
        exact hnodes.lt_heapTop ha
      · rw [Function.update_of_ne hr] at ha
        exact absurd ha List.not_mem_nil
    · intro b
      rw [Function.update_of_ne (by simp), List.map_nil]
  · refine ⟨fun _ => [], ⟨chains_empty fun r => ?_, by simp, hpos⟩, by simp⟩
    cases r with
    | hashPointer => exact hfree
    | bucket b => exact hbucket b

/-- Distinct addresses below a bound are fewer than the bound. -/
theorem length_lt_of_nodup {as : List Nat} {n : Nat} (hnodup : as.Nodup) (hn : 0 < n)
    (hpos : ∀ a ∈ as, a ≠ 0) (hlt : ∀ a ∈ as, a < n) : as.length < n := by
  have hsub : as.toFinset ⊆ Finset.Ico 1 n := by
    intro a ha
    rw [List.mem_toFinset] at ha
    rw [Finset.mem_Ico]
    exact ⟨Nat.pos_of_ne_zero (hpos a ha), hlt a ha⟩
  have hcard := Finset.card_le_card hsub
  rw [List.toFinset_card_of_nodup hnodup, Nat.card_Ico] at hcard
  omega

theorem NodesOk.length_lt (h : NodesOk s chain) (r : Root) : (chain r).length < s.heapTop :=
  length_lt_of_nodup (h.chains.nodup r) h.heapTop_pos (h.chains.isList r).ne_zero
    fun _ ha => h.lt_heapTop ha

/-! ## New nodes -/

/-- Reserved nodes are free. -/
theorem foldl_delFix_chains {links : Links Root} {top : Nat} (h : Chains links chain)
    (htop : 0 < top) (hlt : ∀ {r a}, a ∈ chain r → a < top) (n : Nat) :
    Chains ((List.range n).foldl (fun links i => delFix links (top + i)) links)
      (Function.update chain Root.hashPointer
        (((List.range n).map (top + ·)).reverse ++ chain Root.hashPointer)) := by
  induction n with
  | zero =>
      rw [List.range_zero, List.map_nil, List.reverse_nil, List.nil_append,
        Function.update_eq_self]
      exact h
  | succ n ih =>
      rw [List.range_succ, List.foldl_append, List.map_append, List.reverse_append]
      have hnew : ∀ r, top + n ∉ Function.update chain Root.hashPointer
          (((List.range n).map (top + ·)).reverse ++ chain Root.hashPointer) r := by
        intro r hmem
        by_cases hr : r = Root.hashPointer
        · subst hr
          rw [Function.update_self, List.mem_append] at hmem
          rcases hmem with hmem | hmem
          · simp at hmem
          · have := hlt hmem
            omega
        · rw [Function.update_of_ne hr] at hmem
          have := hlt hmem
          omega
      have hpush := ih.push Root.hashPointer (a := top + n) (by omega) hnew
      rw [Function.update_self, Function.update_idem] at hpush
      exact hpush

/-- The free list is not empty after nodes were reserved. -/
theorem moreFix_spec (h : NodesOk s chain) {n : Nat} (hn : 0 < n) :
    ∃ free, free ≠ [] ∧
      NodesOk (moreFix n s) (Function.update chain Root.hashPointer free) := by
  refine ⟨_, ?_, ⟨foldl_delFix_chains h.chains h.heapTop_pos h.lt_heapTop n, ?_, ?_⟩⟩
  · exact List.append_ne_nil_of_left_ne_nil (by simpa using Nat.ne_of_gt hn) _
  · intro r a ha
    change a < s.heapTop + n
    by_cases hr : r = Root.hashPointer
    · subst hr
      rw [Function.update_self, List.mem_append] at ha
      rcases ha with ha | ha
      · simp only [List.mem_reverse, List.mem_map, List.mem_range] at ha
        obtain ⟨i, hi, rfl⟩ := ha
        omega
      · have := h.lt_heapTop ha
        omega
    · rw [Function.update_of_ne hr] at ha
      have := h.lt_heapTop ha
      omega
  · exact Nat.add_pos_left h.heapTop_pos _

/-- A node to use: it is in no chain any more, its link is 0, and the buckets are as
before. -/
structure NewNode (s : State) (chain : Root → List Nat) (a : Nat) (s' : State)
    (chain' : Root → List Nat) : Prop where
  ok : NodesOk s' chain'
  bucket_eq : ∀ b, chain' (Root.bucket b) = chain (Root.bucket b)
  ne_zero : a ≠ 0
  lt_heapTop : a < s'.heapTop
  not_mem : ∀ r, a ∉ chain' r
  link_eq : s'.links (Loc.node a) = 0
  entry_eq : ∀ b ≠ a, s'.entry b = s.entry b
  same : SameButNodes s s'

/-- A free list that is not empty has a node to use. -/
theorem takeFix_spec (h : NodesOk s chain) (hfree : chain Root.hashPointer ≠ []) :
    ∃ chain', NewNode s chain (takeFix s).1 (takeFix s).2 chain' := by
  obtain ⟨a, as, hchain⟩ := List.exists_cons_of_ne_nil hfree
  have hlist := h.chains.isList Root.hashPointer
  have hnodup := h.chains.nodup Root.hashPointer
  rw [hchain] at hlist hnodup
  obtain ⟨hroot, ha, -⟩ := hlist
  have hmem : a ∈ chain Root.hashPointer := hchain ▸ List.mem_cons_self
  have hnot : ∀ r, a ∉ Function.update chain Root.hashPointer as r := by
    intro r hr
    by_cases hne : r = Root.hashPointer
    · subst hne
      rw [Function.update_self] at hr
      exact (List.nodup_cons.mp hnodup).1 hr
    · rw [Function.update_of_ne hne] at hr
      exact hne (h.chains.disjoint hr hmem)
  unfold takeFix
  rw [hroot]
  refine ⟨Function.update chain Root.hashPointer as,
    ⟨(h.chains.pop hchain).update_node hnot 0, ?_, h.heapTop_pos⟩, ?_, ha,
    h.lt_heapTop hmem, hnot, Function.update_self _ _ _, ?_, SameButNodes.rfl.of_nodes _ _ _⟩
  · intro r b hb
    by_cases hne : r = Root.hashPointer
    · subst hne
      rw [Function.update_self] at hb
      exact h.lt_heapTop (hchain ▸ List.mem_cons_of_mem a hb)
    · rw [Function.update_of_ne hne] at hb
      exact h.lt_heapTop hb
  · intro b
    rw [Function.update_of_ne (by simp)]
  · intro b hb
    exact Function.update_of_ne hb _ _

/-- A node is allocated. -/
theorem newFix_spec (h : NodesOk s chain) {n : Nat} (hn : 0 < n) :
    ∃ chain', NewNode s chain (newFix n s).1 (newFix n s).2 chain' := by
  unfold newFix
  split
  · obtain ⟨free, hfree, hmore⟩ := moreFix_spec h hn
    obtain ⟨chain', hnew⟩ := takeFix_spec hmore (by rwa [Function.update_self])
    refine ⟨chain', hnew.ok, ?_, hnew.ne_zero, hnew.lt_heapTop, hnew.not_mem, hnew.link_eq,
      hnew.entry_eq, (SameButNodes.rfl.of_nodes _ _ _).trans hnew.same⟩
    intro b
    rw [hnew.bucket_eq, Function.update_of_ne (by simp)]
  · rename_i hroot
    refine takeFix_spec h fun hnil => hroot ?_
    have hlist := h.chains.isList Root.hashPointer
    rwa [hnil] at hlist

/-! ## Entries -/

/-- The bucket of a name -/
theorem bucket_eq (htable : s.hashTable = some s.hashlen) {w : Wid}
    (hw : (s.wordlist w).extend < s.hashlen) (name : List Byte) :
    bucket s name w =
      some (Root.bucket ((s.wordlist w).extend ^^^ hash s.hashbits name)) := by
  have hlt := Nat.xor_lt_two_pow hw (hash_lt s.hashbits name)
  rw [bucket, htable]
  exact if_pos (by simpa [State.hashlen] using hlt)

/-- A word entered into a bucket in front of the others or behind them. -/
def insertWord (insRule : Bool) (nt : Nt) (words : List Nt) : List Nt :=
  if insRule then nt :: words else words ++ [nt]

/-- The words of old nodes are not touched by a new one. -/
theorem NewNode.map_entry {s s' : State} {chain chain' : Root → List Nat} {a : Nat}
    (hnew : NewNode s chain a s' chain') (nt : Nt) (b : Nat) :
    (chain' (Root.bucket b)).map (Function.update s'.entry a nt) =
      (chain (Root.bucket b)).map s.entry := by
  rw [← hnew.bucket_eq]
  refine List.map_congr_left fun x hx => ?_
  have hne : x ≠ a := fun heq => hnew.not_mem _ (heq ▸ hx)
  rw [Function.update_of_ne hne, hnew.entry_eq x hne]

/-- A new node with its word, linked into a bucket. -/
theorem NewNode.represents {s s' : State} {chain chain' : Root → List Nat} {a : Nat}
    (hnew : NewNode s chain a s' chain') (hB : ∀ b, B b = (chain (Root.bucket b)).map s.entry)
    (nt : Nt) {b : Nat} {links : Links Root} {as : List Nat}
    (hchains : Chains links (Function.update chain' (Root.bucket b) as))
    (has : ∀ x ∈ as, x = a ∨ x ∈ chain' (Root.bucket b)) :
    Represents { s' with entry := Function.update s'.entry a nt, links := links }
      (Function.update B b (as.map (Function.update s'.entry a nt))) := by
  refine ⟨_, ⟨hchains, ?_, hnew.ok.heapTop_pos⟩, ?_⟩
  · intro r x hx
    by_cases hr : r = Root.bucket b
    · subst hr
      rw [Function.update_self] at hx
      rcases has x hx with rfl | hx
      · exact hnew.lt_heapTop
      · exact hnew.ok.lt_heapTop hx
    · rw [Function.update_of_ne hr] at hx
      exact hnew.ok.lt_heapTop hx
  · intro b'
    by_cases hb' : b' = b
    · subst hb'
      rw [Function.update_self, Function.update_self]
    · rw [Function.update_of_ne hb', Function.update_of_ne (by simpa using hb'), hB]
      exact (hnew.map_entry nt b').symm

/-- Entering a word changes the list of its bucket only. -/
theorem enter_spec (h : Represents s B) {nt : Nt} {w : Wid} {b : Nat}
    (hb : bucket s nt.name w = some (Root.bucket b)) :
    ∃ s', enter s nt w = some s' ∧ SameButNodes s s' ∧
      Represents s' (Function.update B b (insertWord s.insRule nt (B b))) := by
  obtain ⟨chain, hnodes, hB⟩ := h
  obtain ⟨chain', hnew⟩ := newFix_spec hnodes (n := 0x400) (by decide)
  simp only [enter, hb, Option.bind_eq_bind, Option.bind_some]
  revert hnew
  generalize newFix 0x400 s = new
  obtain ⟨a, s₁⟩ := new
  intro hnew
  change NewNode s chain a s₁ chain' at hnew
  simp only
  cases hins : s.insRule with
  | true =>
      refine ⟨_, if_pos (hnew.same.insRule.trans hins), hnew.same.of_nodes _ _ _, ?_⟩
      have hpush := hnew.ok.chains.push (Root.bucket b) hnew.ne_zero hnew.not_mem
      have hrep := hnew.represents hB nt hpush fun x hx => List.mem_cons.mp hx
      rwa [List.map_cons, Function.update_self, hnew.map_entry, ← hB] at hrep
  | false =>
      have hlast : lastLink s₁.links s₁.heapTop (Loc.root (Root.bucket b)) =
          some (lastLoc (Loc.root (Root.bucket b)) (chain' (Root.bucket b))) :=
        lastLink_eq (hnew.ok.chains.isList _) (hnew.ok.length_lt _)
      refine ⟨{ s₁ with
        entry := Function.update s₁.entry a nt
        links := Function.update s₁.links
          (lastLoc (Loc.root (Root.bucket b)) (chain' (Root.bucket b))) a }, ?_,
        hnew.same.of_nodes _ _ _, ?_⟩
      · rw [if_neg (by rw [hnew.same.insRule, hins]; decide)]
        simp only [hlast, Option.bind_some]
      · have happend := hnew.ok.chains.append (Root.bucket b) hnew.ne_zero hnew.not_mem
          hnew.link_eq
        have hrep := hnew.represents hB nt happend (by
          intro x hx
          rcases List.mem_append.mp hx with hx | hx
          · exact Or.inr hx
          · exact Or.inl (List.mem_singleton.mp hx))
        rwa [List.map_append, List.map_singleton, Function.update_self, hnew.map_entry,
          ← hB] at hrep

/-- Searching a list of nodes is searching their words. -/
theorem hashlfind_eq (name : List Byte) {as : List Nat} :
    ∀ {a fuel : Nat}, IsList s.links a as → as.length < fuel →
      hashlfind s name fuel a = some (listlfind name (as.map s.entry)) := by
  induction as with
  | nil =>
      intro a fuel h hfuel
      obtain ⟨fuel, rfl⟩ := Nat.exists_eq_succ_of_ne_zero (Nat.ne_of_gt hfuel)
      exact if_pos h
  | cons b bs ih =>
      intro a fuel h hfuel
      obtain ⟨fuel, rfl⟩ := Nat.exists_eq_succ_of_ne_zero (Nat.ne_of_gt (Nat.zero_lt_of_lt hfuel))
      obtain ⟨rfl, ha, hrest⟩ := h
      rw [hashlfind, if_neg ha, List.map_cons, listlfind]
      split
      · rfl
      · exact ih hrest (by simpa using hfuel)

/-- Searching a bucket is searching its list. -/
theorem hashFind_eq (h : Represents s B) (htable : s.hashTable = some s.hashlen) {w : Wid}
    (hw : (s.wordlist w).extend < s.hashlen) (name : List Byte) :
    hashFind s name w =
      some (listlfind name (B ((s.wordlist w).extend ^^^ hash s.hashbits name))) := by
  obtain ⟨chain, hnodes, hB⟩ := h
  rw [hashFind, bucket_eq htable hw]
  simp only [Option.bind_eq_bind, Option.bind_some]
  rw [hashlfind_eq name (hnodes.chains.isList _) (hnodes.length_lt _), hB]

/-! ## Clearing the table -/

/-- {lit}`clearhash` for one bucket -/
theorem clearBucket_spec (h : Represents s B) {n : Nat} (htable : s.hashTable = some n) {b : Nat}
    (hb : b < n) :
    ∃ s', clearBucket s b = some s' ∧ SameButNodes s s' ∧
      Represents s' (Function.update B b []) := by
  obtain ⟨chain, hnodes, hB⟩ := h
  have hne : Root.bucket b ≠ Root.hashPointer := by simp
  obtain ⟨links, hdrain, hchains⟩ :=
    hnodes.chains.drain hne (hnodes.length_lt (Root.bucket b))
  refine ⟨{ s with links := Function.update links (Loc.root (Root.bucket b)) 0 }, ?_,
    SameButNodes.rfl.of_nodes _ _ _, _, ⟨hchains, ?_, hnodes.heapTop_pos⟩, ?_⟩
  · simp [clearBucket, htable, hb, hdrain]
  · intro r a ha
    by_cases hr : r = Root.hashPointer
    · subst hr
      rw [Function.update_self, List.mem_append, List.mem_reverse] at ha
      rcases ha with ha | ha
      · exact hnodes.lt_heapTop ha
      · exact hnodes.lt_heapTop ha
    · rw [Function.update_of_ne hr] at ha
      by_cases hr' : r = Root.bucket b
      · subst hr'
        rw [Function.update_self] at ha
        exact absurd ha List.not_mem_nil
      · rw [Function.update_of_ne hr'] at ha
        exact hnodes.lt_heapTop ha
  · intro b'
    rw [Function.update_of_ne (by simp : Root.bucket b' ≠ Root.hashPointer)]
    by_cases hb' : b' = b
    · subst hb'
      rw [Function.update_self, Function.update_self, List.map_nil]
    · rw [Function.update_of_ne hb', Function.update_of_ne (by simpa using hb'), hB]

/-- {lit}`clearhash` for all buckets -/
theorem clearBuckets_spec (h : Represents s B) (htable : s.hashTable = some s.hashlen) :
    ∃ s' B', (List.range s.hashlen).foldlM clearBucket s = some s' ∧ SameButNodes s s' ∧
      Represents s' B' ∧ ∀ b < s.hashlen, B' b = [] := by
  obtain ⟨s', hs', hsame, B', hrep, hempty⟩ := foldlM_option_run
    (f := clearBucket) (l := List.range s.hashlen) (b := s)
    (P := fun done s' => SameButNodes s s' ∧ ∃ B', Represents s' B' ∧ ∀ b ∈ done, B' b = [])
    ⟨SameButNodes.rfl, B, h, by simp⟩
    (by
      rintro front b back s₁ hl ⟨hsame, B₁, hrep, hempty⟩
      have hb : b < s.hashlen := by
        have : b ∈ List.range s.hashlen := by simp [hl]
        exact List.mem_range.mp this
      obtain ⟨s₂, hs₂, hsame₂, hrep₂⟩ :=
        clearBucket_spec hrep (hsame.hashTable.trans htable) hb
      refine ⟨s₂, hs₂, hsame.trans hsame₂, _, hrep₂, ?_⟩
      intro b' hb'
      by_cases heq : b' = b
      · rw [heq, Function.update_self]
      · rw [Function.update_of_ne heq]
        refine hempty b' ?_
        simpa [heq] using hb')
  exact ⟨s', B', hs', hsame, hrep, fun b hb => hempty b (List.mem_range.mpr hb)⟩

end Hash
end Gforth
