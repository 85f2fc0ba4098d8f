import Gforth.Lib.Bytes
import Gforth.Lib.Cancel

/-!
# Components of paths

A path is a list of components between slashes.  All components but the last one are directories.

Main results:

- Theorem {lit}`normalForm_compacted`: a compacted path has the same normal form.
- Theorem {lit}`compacted_isCompact`: it has no superfluous parts.
- Theorem {lit}`compacted_compacted`: it is not compacted any further.
-/

namespace Gforth
namespace Texts

open Lib

/-- {lit}`'/'` -/
def slash : Byte := 0x2F#8

/-- {lit}`'.'` -/
def dot : Byte := 0x2E#8

/-- The component {lit}`..` -/
def up : List Byte :=
  [dot, dot]

/-- The components but the empty ones and {lit}`.` -/
def proper (l : List (List Byte)) : List (List Byte) :=
  l.filter fun w => w ≠ [] ∧ w ≠ [dot]

/-- The directories of a path -/
def directories (s : List Byte) : List (List Byte) :=
  (s.splitOn slash).dropLast

/-- What is behind the last slash of a path -/
def lastComponent (s : List Byte) : List Byte :=
  (s.splitOn slash).getLast (List.splitOn_ne_nil slash s)

/-- A leading slash -/
def root (s : List Byte) : List Byte :=
  if s.head? = some slash then [slash] else []

/-- The normal form: whether the path has a leading slash, and its components, from which
{lit}`x/..` is cancelled repeatedly -/
def normalForm (s : List Byte) : Bool × List (List Byte) :=
  (s.head? = some slash, cancel up (proper (s.splitOn slash)))

/-- The path has neither {lit}`//`, nor {lit}`./` and {lit}`x/../`, where {lit}`x` is another
component than {lit}`..`. -/
structure IsCompact (s : List Byte) : Prop where
  no_slashes : ¬ [slash, slash] <:+: s
  no_dot : [dot] ∉ directories s
  no_up : ∀ a x b, directories s = a ++ x :: up :: b → x = up ∨ a = [] ∧ x = []

/-- The path with these components -/
def render (ds : List (List Byte)) (w : List Byte) : List Byte :=
  ds.flatMap (· ++ [slash]) ++ w

/-- The path without superfluous parts, except for a leading slash -/
def compactPath (s : List Byte) : List Byte :=
  render (cancel up (proper (directories s))) (lastComponent s)

/-- The path without superfluous parts -/
def compacted (s : List Byte) : List Byte :=
  root s ++ compactPath s

/-! ## Splitting -/

theorem splitOn_slash (s : List Byte) : (slash :: s).splitOn slash = [] :: s.splitOn slash :=
  List.splitOn_append_cons_self_of_not_mem (List.not_mem_nil) s

variable {w : List Byte}

theorem splitOn_cons (h : slash ∉ w) (s : List Byte) :
    (w ++ slash :: s).splitOn slash = w :: s.splitOn slash :=
  List.splitOn_append_cons_self_of_not_mem h s

theorem directories_cons (h : slash ∉ w) (s : List Byte) :
    directories (w ++ slash :: s) = w :: directories s := by
  rw [directories, splitOn_cons h, List.dropLast_cons_of_ne_nil (List.splitOn_ne_nil _ _)]
  rfl

theorem splitOn_eq (s : List Byte) : s.splitOn slash = directories s ++ [lastComponent s] :=
  (List.dropLast_append_getLast _).symm

theorem lastComponent_cons (h : slash ∉ w) (s : List Byte) :
    lastComponent (w ++ slash :: s) = lastComponent s := by
  simp only [lastComponent, splitOn_cons h]
  exact List.getLast_cons _

theorem directories_of_not_mem (h : slash ∉ w) : directories w = [] := by
  rw [directories, List.splitOn_eq_singleton h]
  rfl

theorem lastComponent_of_not_mem (h : slash ∉ w) : lastComponent w = w := by
  simp only [lastComponent, List.splitOn_eq_singleton h]
  rfl

/-- No component has a slash. -/
theorem not_mem_of_mem_splitOn {s w : List Byte} (h : w ∈ s.splitOn slash) : slash ∉ w := by
  induction s generalizing w with
  | nil =>
      rw [List.splitOn_nil, List.mem_singleton] at h
      rw [h]
      exact List.not_mem_nil
  | cons c s ih =>
      rw [List.splitOn_cons_eq_if_modifyHead] at h
      split at h
      · rcases List.mem_cons.1 h with rfl | hmem
        · exact List.not_mem_nil
        · exact ih hmem
      · rename_i hc
        cases hsplit : s.splitOn slash with
        | nil => exact absurd hsplit (List.splitOn_ne_nil _ _)
        | cons w' l =>
            rw [hsplit] at h ih
            rcases List.mem_cons.1 h with rfl | hmem
            · rw [List.mem_cons, not_or]
              exact ⟨fun heq => hc (by rw [heq]; exact beq_self_eq_true _), ih List.mem_cons_self⟩
            · exact ih (List.mem_cons_of_mem _ hmem)

theorem lastComponent_not_mem (s : List Byte) : slash ∉ lastComponent s :=
  not_mem_of_mem_splitOn (List.getLast_mem _)

/-- The directories that are left are proper components of the path. -/
theorem mem_cancel {s w : List Byte} (h : w ∈ cancel up (proper (directories s))) :
    slash ∉ w ∧ w ≠ [] ∧ w ≠ [dot] := by
  have hmem := (cancel_sublist _).subset h
  rw [proper, List.mem_filter] at hmem
  exact ⟨not_mem_of_mem_splitOn (List.mem_of_mem_dropLast hmem.1), of_decide_eq_true hmem.2⟩

theorem render_cons (w : List Byte) (ds : List (List Byte)) (v : List Byte) :
    render (w :: ds) v = w ++ slash :: render ds v := by
  rw [render, render, List.flatMap_cons, List.append_assoc, List.append_assoc]
  rfl

/-- The components of what is rendered. -/
theorem splitOn_render {ds : List (List Byte)} (hds : ∀ d ∈ ds, slash ∉ d) (hw : slash ∉ w) :
    (render ds w).splitOn slash = ds ++ [w] := by
  induction ds with
  | nil => exact List.splitOn_eq_singleton hw
  | cons d ds ih =>
      rw [render_cons, splitOn_cons (hds d List.mem_cons_self),
        ih fun d' hd' => hds d' (List.mem_cons_of_mem _ hd')]
      rfl

/-! ## Compacting -/

/-- Empty components and {lit}`.` are dropped. -/
theorem compactPath_drop (h : w = [] ∨ w = [dot]) (s : List Byte) :
    compactPath (w ++ slash :: s) = compactPath s := by
  have hw : slash ∉ w := by
    rcases h with rfl | rfl
    · exact List.not_mem_nil
    · decide
  have hproper : proper (w :: directories s) = proper (directories s) := by
    rw [proper, List.filter_cons_of_neg, proper]
    rcases h with rfl | rfl
    · simp
    · simp
  rw [compactPath, directories_cons hw, lastComponent_cons hw, hproper, compactPath]

theorem proper_cons (h : w ≠ [] ∧ w ≠ [dot]) (l : List (List Byte)) :
    proper (w :: l) = w :: proper l :=
  List.filter_cons_of_pos (decide_eq_true h)

/-- {lit}`..` stays at the start of the path. -/
theorem compactPath_up (s : List Byte) :
    compactPath (up ++ slash :: s) = up ++ slash :: compactPath s := by
  have hup : slash ∉ up := by decide
  rw [compactPath, directories_cons hup, lastComponent_cons hup, proper_cons (by decide), cancel_up,
    render_cons, compactPath]

theorem compactPath_last (h : slash ∉ w) : compactPath w = w := by
  rw [compactPath, directories_of_not_mem h, lastComponent_of_not_mem h]
  rfl

/-- A path begins with its first component and a slash. -/
theorem isPrefix_render {ds : List (List Byte)} {v w : List Byte} (hds : ∀ d ∈ ds, slash ∉ d)
    (hv : slash ∉ v) (hw : slash ∉ w) : w ++ [slash] <+: render ds v ↔ ds.head? = some w := by
  constructor
  · rintro ⟨r, hr⟩
    have hsplit := splitOn_render hds hv
    rw [← hr, List.append_assoc, List.singleton_append, splitOn_cons hw] at hsplit
    cases ds with
    | nil =>
        rw [List.nil_append, List.cons_eq_cons] at hsplit
        exact absurd hsplit.2 (List.splitOn_ne_nil _ _)
    | cons d ds =>
        rw [List.cons_append, List.cons_eq_cons] at hsplit
        rw [hsplit.1]
        rfl
  · intro hhead
    obtain ⟨ds', rfl⟩ := List.head?_eq_some_iff.1 hhead
    rw [render_cons]
    exact ⟨render ds' v, by rw [List.append_assoc]; rfl⟩

theorem isPrefix_compactPath (s : List Byte) : up ++ [slash] <+: compactPath s ↔
    (cancel up (proper (directories s))).head? = some up :=
  isPrefix_render (fun _ hd => (mem_cancel hd).1) (lastComponent_not_mem s) (by decide)

/-- A component cancels with {lit}`..` behind it. -/
theorem compactPath_cancel {w s : List Byte} (h : slash ∉ w) (hproper : w ≠ [] ∧ w ≠ [dot])
    (hne : w ≠ up) (hpre : up ++ [slash] <+: compactPath s) :
    compactPath (w ++ slash :: s) = (compactPath s).drop 3 := by
  obtain ⟨r, hr⟩ := List.head?_eq_some_iff.1 ((isPrefix_compactPath s).1 hpre)
  rw [compactPath, directories_cons h, lastComponent_cons h, proper_cons hproper,
    cancel_pair hne hr, compactPath, hr, render_cons]
  rfl

/-- Other components stay. -/
theorem compactPath_keep {w s : List Byte} (h : slash ∉ w) (hproper : w ≠ [] ∧ w ≠ [dot])
    (hpre : ¬ up ++ [slash] <+: compactPath s) :
    compactPath (w ++ slash :: s) = w ++ slash :: compactPath s := by
  rw [isPrefix_compactPath] at hpre
  rw [compactPath, directories_cons h, lastComponent_cons h, proper_cons hproper, cancel_keep hpre,
    render_cons, compactPath]

/-! ## Compacted paths -/

/-- The result does not begin with a slash. -/
theorem head_compactPath (s : List Byte) : (compactPath s).head? ≠ some slash := by
  have hhead : ∀ w : List Byte, slash ∉ w → w.head? ≠ some slash :=
    fun w hw heq => hw (List.mem_of_mem_head? heq)
  rw [compactPath]
  cases hds : cancel up (proper (directories s)) with
  | nil => exact hhead _ (lastComponent_not_mem s)
  | cons d ds =>
      obtain ⟨hd, hne, -⟩ := mem_cancel (hds ▸ List.mem_cons_self)
      obtain ⟨c, d, rfl⟩ := List.exists_cons_of_ne_nil hne
      rw [render_cons]
      exact hhead (c :: d) hd

/-- A leading slash stays. -/
theorem head_compacted (s : List Byte) :
    (compacted s).head? = some slash ↔ s.head? = some slash := by
  rw [compacted, root]
  split
  · rename_i hroot
    exact iff_of_true rfl hroot
  · rename_i hroot
    exact iff_of_false (head_compactPath s) hroot

theorem root_compacted (s : List Byte) : root (compacted s) = root s := by
  simp only [root, head_compacted]

/-- The components of a compacted path; in front of a leading slash is an empty one. -/
theorem splitOn_compacted (s : List Byte) : (compacted s).splitOn slash =
    (root s).map (fun _ => []) ++ cancel up (proper (directories s)) ++ [lastComponent s] := by
  have hpath : (compactPath s).splitOn slash = _ :=
    splitOn_render (fun d hd => (mem_cancel hd).1) (lastComponent_not_mem s)
  rw [compacted, root]
  split
  · rw [List.singleton_append, splitOn_slash, hpath]
    rfl
  · rw [List.nil_append, hpath]
    rfl

theorem directories_compacted (s : List Byte) : directories (compacted s) =
    (root s).map (fun _ => []) ++ cancel up (proper (directories s)) := by
  rw [directories, splitOn_compacted, List.dropLast_concat]

theorem lastComponent_compacted (s : List Byte) : lastComponent (compacted s) = lastComponent s := by
  simp only [lastComponent, splitOn_compacted, List.getLast_concat]

theorem proper_append (l l' : List (List Byte)) : proper (l ++ l') = proper l ++ proper l' :=
  List.filter_append ..

/-- The root is no proper component. -/
theorem proper_root (s : List Byte) : proper ((root s).map fun _ => []) = [] := by
  rw [root]
  split
  · rfl
  · rfl

theorem proper_cancel (s : List Byte) :
    proper (cancel up (proper (directories s))) = cancel up (proper (directories s)) :=
  List.filter_eq_self.2 fun _ hd => decide_eq_true (mem_cancel hd).2

theorem normalForm_compacted (s : List Byte) : normalForm (compacted s) = normalForm s := by
  rw [normalForm, normalForm, splitOn_compacted, splitOn_eq s]
  simp only [head_compacted, proper_append, proper_root, proper_cancel, List.nil_append, cancel_append]

theorem normalForm_eq_iff {s : List Byte} {b : Bool} {l : List (List Byte)} :
    normalForm s = (b, l) ↔ decide (s.head? = some slash) = b ∧
      Relation.ReflTransGen (Cancels up) (proper (s.splitOn slash)) l ∧ Reduced up l := by
  rw [normalForm, Prod.mk.injEq, cancel_eq_iff]

/-- A compacted path has no superfluous parts. -/
theorem compacted_isCompact (s : List Byte) : IsCompact (compacted s) := by
  refine ⟨?_, ?_, ?_⟩
  · rintro ⟨a, b, heq⟩
    have hdirs : directories (compacted s) = a.splitOn slash ++ [] :: directories b := by
      rw [← heq, List.append_assoc, List.cons_append, List.singleton_append, directories,
        List.splitOn_append_cons_self, splitOn_slash, List.dropLast_append_of_ne_nil (by simp),
        List.dropLast_cons_of_ne_nil (List.splitOn_ne_nil _ _)]
      rfl
    have hnil : [] ∉ cancel up (proper (directories s)) := fun hmem => (mem_cancel hmem).2.1 rfl
    rw [directories_compacted, root] at hdirs
    obtain ⟨w, l, hsplit⟩ := List.exists_cons_of_ne_nil (List.splitOn_ne_nil slash a)
    rw [hsplit] at hdirs
    -- the first component of {lit}`a` may be the empty one in front of a leading slash
    split at hdirs
    · have htail : cancel up (proper (directories s)) = l ++ [] :: directories b :=
        (List.cons.inj hdirs).2
      rw [htail] at hnil
      exact hnil (List.mem_append_right _ List.mem_cons_self)
    · rw [List.map_nil, List.nil_append] at hdirs
      rw [hdirs] at hnil
      exact hnil (List.mem_append_right _ List.mem_cons_self)
  · rw [directories_compacted]
    intro hmem
    rcases List.mem_append.1 hmem with hroot | hdir
    · rw [List.mem_map] at hroot
      obtain ⟨-, -, h⟩ := hroot
      cases h
    · exact (mem_cancel hdir).2.2 rfl
  · intro a x b heq
    rw [directories_compacted, root] at heq
    have hreduced : Reduced up (cancel up (proper (directories s))) := reduced_cancel _
    have hpair : ∀ a' : List (List Byte),
        cancel up (proper (directories s)) = a' ++ x :: up :: b → x = up := by
      intro a' heq'
      rw [heq', Reduced, List.isChain_append_cons_cons] at hreduced
      exact hreduced.2.1 rfl
    split at heq
    · cases a with
      | nil => exact Or.inr ⟨rfl, ((List.cons.inj heq).1).symm⟩
      | cons a l => exact Or.inl (hpair l (List.cons.inj heq).2)
    · exact Or.inl (hpair a heq)

theorem compacted_compacted (s : List Byte) : compacted (compacted s) = compacted s := by
  rw [compacted, root_compacted, compactPath, directories_compacted, lastComponent_compacted,
    proper_append, proper_root, proper_cancel, List.nil_append, cancel_idem, compacted, compactPath]

end Texts
end Gforth
