import Mathlib.Data.List.Nodup
import Mathlib.Tactic.Ring
import Gforth.Vmgen.Machine

/-!
# Offsets and stack effects

The generator counts the items of a stack effect from the deepest one, and finds them on the stacks
by these offsets.  Here the offsets are related to the items that are popped and pushed.

Main results:

- Theorem {lit}`foldr_pop_vars`: an item of the input side has its value from its offset.
- Theorem {lit}`foldl_push_item`: an item of the output side is at its offset.
- Theorem {lit}`exists_item`: every place that is pushed belongs to an item.
-/

namespace Gforth
namespace Vmgen

variable {V W : Type*}

/-- The number of cells that some items take on a stack -/
def itemCount : List Decl → Nat → Nat
  | [], _ => 0
  | d :: ds, k => (if d.stack = k then d.type.size else 0) + itemCount ds k

/-- The names of items are different. -/
def DistinctNames (ds : List Decl) : Prop :=
  (ds.map Decl.name).Nodup

@[simp]
theorem itemCount_nil (k : Nat) : itemCount [] k = 0 :=
  rfl

theorem itemCount_cons_self (d : Decl) (ds : List Decl) :
    itemCount (d :: ds) d.stack = d.type.size + itemCount ds d.stack := by
  simp [itemCount]

variable {d : Decl} {counts : Nat → Nat} {ds : List Decl} {item : Item} {name : String} {part : Nat}

theorem itemCount_cons_of_ne {k : Nat} (h : d.stack ≠ k) (ds : List Decl) :
    itemCount (d :: ds) k = itemCount ds k := by
  simp [itemCount, h]

/-- The counts behind {lit}`compute-offsets` are those of the declarations. -/
theorem computeOffsets_counts (counts : Nat → Nat) (ds : List Decl) (k : Nat) :
    (computeOffsets counts ds).1 k = counts k + itemCount ds k := by
  induction ds generalizing counts with
  | nil => rfl
  | cons d ds ih =>
      simp only [computeOffsets, ih]
      by_cases h : d.stack = k
      · subst h
        simp [itemCount_cons_self]
        omega
      · simp [itemCount_cons_of_ne h, Function.update_of_ne (Ne.symm h)]

theorem ItemType.size_pos (t : ItemType) : 0 < t.size := by
  cases t <;> simp [ItemType.size]

theorem ItemType.part_cases {type : ItemType} {part : Nat} (h : part < type.size) :
    type = .single ∧ part = 0 ∨ type = .double ∧ (part = 0 ∨ part = 1) := by
  cases type <;> simp only [ItemType.size] at h <;> simp <;> omega

/-- The offsets are in order: an item is one of those that were declared, behind the items so far. -/
theorem mem_computeOffsets (h : item ∈ (computeOffsets counts ds).2) :
    item.toDecl ∈ ds ∧ counts item.stack ≤ item.offset ∧
      item.offset + item.type.size ≤ counts item.stack + itemCount ds item.stack := by
  induction ds generalizing counts with
  | nil => cases h
  | cons d ds ih =>
      simp only [computeOffsets] at h
      rcases List.mem_cons.mp h with rfl | h
      · simp [itemCount_cons_self]
      · rcases ih h with ⟨hmem, hlow, hhigh⟩
        refine ⟨List.mem_cons_of_mem d hmem, ?_⟩
        by_cases hstack : d.stack = item.stack
        · simp only [← hstack, Function.update_self, itemCount_cons_self] at hlow hhigh ⊢
          omega
        · rw [itemCount_cons_of_ne hstack]
          rw [Function.update_of_ne (Ne.symm hstack)] at hlow hhigh
          exact ⟨hlow, hhigh⟩

/-- Two items on one stack have different places. -/
theorem computeOffsets_pairwise (counts : Nat → Nat) (ds : List Decl) :
    (computeOffsets counts ds).2.Pairwise fun item item' =>
      item.stack = item'.stack → item.offset + item.type.size ≤ item'.offset := by
  induction ds generalizing counts with
  | nil => exact List.Pairwise.nil
  | cons d ds ih =>
      simp only [computeOffsets]
      apply List.Pairwise.cons
      · intro item hitem hstack
        have hlow := (mem_computeOffsets hitem).2.1
        simp only at hstack
        rw [← hstack, Function.update_self] at hlow
        exact hlow
      · exact ih _

/-- Items with a common place are the same. -/
theorem computeOffsets_unique {item item' : Item} (h : item ∈ (computeOffsets counts ds).2)
    (h' : item' ∈ (computeOffsets counts ds).2) (hstack : item.stack = item'.stack)
    {part part' : Nat} (hpart : part < item.type.size) (hpart' : part' < item'.type.size)
    (hplace : item.offset + part = item'.offset + part') : item = item' := by
  by_contra hne
  have hapart : (computeOffsets counts ds).2.Pairwise fun a b => a.stack = b.stack →
      a.offset + a.type.size ≤ b.offset ∨ b.offset + b.type.size ≤ a.offset :=
    (computeOffsets_pairwise counts ds).imp fun hab hs => Or.inl (hab hs)
  have hsymm : Std.Symm fun a b : Item => a.stack = b.stack →
      a.offset + a.type.size ≤ b.offset ∨ b.offset + b.type.size ≤ a.offset :=
    ⟨fun a b hab hs => (hab hs.symm).symm⟩
  have := hapart.forall h h' hne hstack
  omega

/-- The items of different names have different names. -/
theorem computeOffsets_distinct (hnames : DistinctNames ds) (counts : Nat → Nat) :
    (computeOffsets counts ds).2.Pairwise fun item item' => item.name ≠ item'.name := by
  induction ds generalizing counts with
  | nil => exact List.Pairwise.nil
  | cons d ds ih =>
      unfold DistinctNames at hnames ih
      rw [List.map_cons, List.nodup_cons] at hnames
      simp only [computeOffsets]
      apply List.Pairwise.cons
      · intro item hitem heq
        apply hnames.1
        simp only at heq
        rw [heq]
        exact List.mem_map_of_mem (mem_computeOffsets hitem).1
      · exact ih hnames.2 _

/-- An item that was declared has an offset. -/
theorem exists_mem_computeOffsets (counts : Nat → Nat) (h : d ∈ ds) :
    ∃ item ∈ (computeOffsets counts ds).2, item.toDecl = d := by
  induction ds generalizing counts with
  | nil => cases h
  | cons d' ds ih =>
      simp only [computeOffsets, List.mem_cons]
      rcases List.mem_cons.mp h with rfl | h
      · exact ⟨_, Or.inl rfl, rfl⟩
      · rcases ih (Function.update counts d'.stack (counts d'.stack + d'.type.size)) h with
          ⟨item, hitem, hdecl⟩
        exact ⟨item, Or.inr hitem, hdecl⟩

/-- Every place belongs to an item. -/
theorem exists_item {k n : Nat} (counts : Nat → Nat) (h : n < itemCount ds k) :
    ∃ item ∈ (computeOffsets counts ds).2, ∃ part < item.type.size, item.stack = k ∧
      n = counts k + itemCount ds k - 1 - (item.offset + part) := by
  induction ds generalizing counts with
  | nil => cases h
  | cons d ds ih =>
      simp only [computeOffsets, List.mem_cons]
      by_cases hstack : d.stack = k
      · subst hstack
        rw [itemCount_cons_self] at h ⊢
        by_cases hlt : n < itemCount ds d.stack
        · rcases ih (Function.update counts d.stack (counts d.stack + d.type.size)) hlt with
            ⟨item, hitem, part, hpart, hk, hn⟩
          refine ⟨item, Or.inr hitem, part, hpart, hk, ?_⟩
          rw [hn, Function.update_self]
          omega
        · refine ⟨_, Or.inl rfl, d.type.size - 1 - (n - itemCount ds d.stack), ?_, rfl, ?_⟩
          · have := d.type.size_pos
            simp only
            omega
          · simp only
            omega
      · rw [itemCount_cons_of_ne hstack] at h ⊢
        rcases ih (Function.update counts d.stack (counts d.stack + d.type.size)) h with
          ⟨item, hitem, part, hpart, hk, hn⟩
        refine ⟨item, Or.inr hitem, part, hpart, hk, ?_⟩
        rw [hn, Function.update_of_ne (Ne.symm hstack)]

/-! ## Variables -/

@[simp]
theorem setVar_self (vars : String → Nat → V) (name : String) (part : Nat) (v : V) :
    setVar vars name part v name part = v := by
  simp [setVar]

theorem setVar_of_name_ne (vars : String → Nat → V) {name name' : String} (h : name' ≠ name)
    (part : Nat) (v : V) : setVar vars name part v name' = vars name' := by
  simp [setVar, h]

theorem setVar_of_part_ne (vars : String → Nat → V) (name : String) {part part' : Nat}
    (h : part' ≠ part) (v : V) : setVar vars name part v name part' = vars name part' := by
  simp [setVar, h]

/-! ## Operands -/

/-- An operand is not taken from a stack. -/
theorem takeOperand_stack (s : Scene V W) (d : Decl) : (d.takeOperand s).stack = s.stack := by
  unfold Decl.takeOperand
  split
  · split <;> rfl
  · rfl

/-- Taking an operand does not change the world. -/
theorem takeOperand_world (s : Scene V W) (d : Decl) : (d.takeOperand s).world = s.world := by
  unfold Decl.takeOperand
  split
  · split <;> rfl
  · rfl

/-- Taking an operand sets only its own variable. -/
theorem takeOperand_vars_of_ne (s : Scene V W) (h : name ≠ d.name) :
    (d.takeOperand s).vars name = s.vars name := by
  unfold Decl.takeOperand
  split
  · split <;> simp [setVar_of_name_ne _ h]
  · rfl

/-- The operand is gone from the instruction stream. -/
theorem takeOperand_operands (s : Scene V W) (d : Decl) (n : Nat) :
    (d.takeOperand s).operands n =
      s.operands ((if d.stack = instStream then d.type.size else 0) + n) := by
  unfold Decl.takeOperand
  split
  · split <;> rename_i htype <;> simp [htype, ItemType.size, Nat.add_comm]
  · simp

/-- The variable gets the operand. -/
theorem takeOperand_vars_part (s : Scene V W) (hd : d.stack = instStream)
    (hpart : part < d.type.size) :
    (d.takeOperand s).vars d.name part = s.operands (d.type.size - 1 - part) := by
  unfold Decl.takeOperand
  rw [if_pos hd]
  rcases ItemType.part_cases hpart with ⟨htype, rfl⟩ | ⟨htype, rfl | rfl⟩ <;>
    simp [htype, ItemType.size, setVar_of_part_ne]

/-- Operands are not taken from a stack. -/
theorem foldl_takeOperand_stack (ds : List Decl) (s : Scene V W) :
    (ds.foldl Decl.takeOperand s).stack = s.stack := by
  induction ds generalizing s with
  | nil => rfl
  | cons d ds ih => rw [List.foldl_cons, ih, takeOperand_stack]

/-- Taking operands does not change the world. -/
theorem foldl_takeOperand_world (ds : List Decl) (s : Scene V W) :
    (ds.foldl Decl.takeOperand s).world = s.world := by
  induction ds generalizing s with
  | nil => rfl
  | cons d ds ih => rw [List.foldl_cons, ih, takeOperand_world]

/-- The operands are gone from the instruction stream. -/
theorem foldl_takeOperand_operands (ds : List Decl) (s : Scene V W) (n : Nat) :
    (ds.foldl Decl.takeOperand s).operands n = s.operands (itemCount ds instStream + n) := by
  induction ds generalizing s with
  | nil => simp
  | cons d ds ih =>
      rw [List.foldl_cons, ih, takeOperand_operands]
      simp only [itemCount]
      rw [Nat.add_assoc]

/-- Taking an operand leaves the parts alone that it does not have. -/
theorem takeOperand_vars_of_other (s : Scene V W)
    (h : d.name = name → d.type.size ≤ part ∨ d.stack ≠ instStream) :
    (d.takeOperand s).vars name part = s.vars name part := by
  by_cases hname : d.name = name
  · unfold Decl.takeOperand
    split
    · rename_i hd
      have hpart := (h hname).resolve_right fun hne => hne hd
      subst hname
      cases htype : d.type <;> rw [htype] at hpart <;> simp only [ItemType.size] at hpart
      · exact setVar_of_part_ne _ _ (by omega) _
      · exact (setVar_of_part_ne _ _ (by omega) _).trans (setVar_of_part_ne _ _ (by omega) _)
    · rfl
  · rw [takeOperand_vars_of_ne s (Ne.symm hname)]

/-- Variables that are no operands keep their values. -/
theorem foldl_takeOperand_vars_of_other (s : Scene V W)
    (h : ∀ d ∈ ds, d.name = name → d.type.size ≤ part ∨ d.stack ≠ instStream) :
    (ds.foldl Decl.takeOperand s).vars name part = s.vars name part := by
  induction ds generalizing s with
  | nil => rfl
  | cons d ds ih =>
      rw [List.foldl_cons, ih _ fun d' hd' => h d' (List.mem_cons_of_mem d hd'),
        takeOperand_vars_of_other s (h d List.mem_cons_self)]

theorem not_name_eq_of_not_mem (h : name ∉ ds.map Decl.name) {P : Decl → Prop} :
    ∀ d ∈ ds, d.name = name → P d := by
  intro d hd hname
  exact absurd (hname ▸ List.mem_map_of_mem hd) h

/-- An operand has its value from its place in the instruction. -/
theorem foldl_takeOperand_vars (hnames : DistinctNames ds) (s : Scene V W)
    (hitem : item ∈ (computeOffsets counts ds).2) (hstack : item.stack = instStream)
    (hpart : part < item.type.size) :
    (ds.foldl Decl.takeOperand s).vars item.name part =
      s.operands (item.offset - counts instStream + item.type.size - 1 - part) := by
  induction ds generalizing s counts with
  | nil => cases hitem
  | cons d ds ih =>
      unfold DistinctNames at hnames ih
      rw [List.map_cons, List.nodup_cons] at hnames
      simp only [computeOffsets] at hitem
      rcases List.mem_cons.mp hitem with rfl | hitem
      · simp only at hstack hpart ⊢
        rw [List.foldl_cons, foldl_takeOperand_vars_of_other _ (not_name_eq_of_not_mem hnames.1),
          takeOperand_vars_part s hstack hpart, hstack, Nat.sub_self, Nat.zero_add]
      · rw [List.foldl_cons, ih hnames.2 _ hitem, takeOperand_operands]
        have hlow := (mem_computeOffsets hitem).2.1
        rw [hstack] at hlow
        congr 1
        by_cases hd : d.stack = instStream
        · rw [hd, Function.update_self] at hlow ⊢
          have := item.type.size_pos
          rw [if_pos rfl]
          omega
        · rw [Function.update_of_ne (Ne.symm hd), if_neg hd, Nat.zero_add]

/-! ## Pops -/

/-- Popping an item does not change the world. -/
theorem pop_world (s : Scene V W) (d : Decl) : (d.pop s).world = s.world := by
  unfold Decl.pop
  split
  · rfl
  · split <;> rfl

/-- Popping an item sets only its own variable. -/
theorem pop_vars_of_ne (s : Scene V W) (h : name ≠ d.name) : (d.pop s).vars name = s.vars name := by
  unfold Decl.pop
  split
  · rfl
  · split <;> simp [setVar_of_name_ne _ h]

/-- The item is gone from its stack. -/
theorem pop_stack (s : Scene V W) (d : Decl) {k : Nat} (hk : k ≠ instStream) (n : Nat) :
    (d.pop s).stack k n = s.stack k (n + if d.stack = k then d.type.size else 0) := by
  unfold Decl.pop
  by_cases hd : d.stack = k
  · subst hd
    rw [if_neg hk]
    split <;> rename_i htype <;> simp [htype, ItemType.size]
  · rw [if_neg hd]
    split
    · rfl
    · split <;> simp [Function.update_of_ne (Ne.symm hd)]

/-- The variable gets the item. -/
theorem pop_vars_part (s : Scene V W) (hd : d.stack ≠ instStream) (hpart : part < d.type.size) :
    (d.pop s).vars d.name part = s.stack d.stack (d.type.size - 1 - part) := by
  unfold Decl.pop
  rw [if_neg hd]
  rcases ItemType.part_cases hpart with ⟨htype, rfl⟩ | ⟨htype, rfl | rfl⟩ <;>
    simp [htype, ItemType.size, setVar_of_part_ne]

/-- Popping items does not change the world. -/
theorem foldr_pop_world (ds : List Decl) (s : Scene V W) :
    (ds.foldr Decl.pop s).world = s.world := by
  induction ds with
  | nil => rfl
  | cons d ds ih => rw [List.foldr_cons, pop_world, ih]

/-- Popping an item takes no operand. -/
theorem pop_operands (s : Scene V W) (d : Decl) : (d.pop s).operands = s.operands := by
  unfold Decl.pop
  split
  · rfl
  · split <;> rfl

/-- Popping items takes no operands. -/
theorem foldr_pop_operands (ds : List Decl) (s : Scene V W) :
    (ds.foldr Decl.pop s).operands = s.operands := by
  induction ds with
  | nil => rfl
  | cons d ds ih => rw [List.foldr_cons, pop_operands, ih]

/-- Popping an item leaves the parts alone that it does not have. -/
theorem pop_vars_of_other (s : Scene V W)
    (h : d.name = name → d.type.size ≤ part ∨ d.stack = instStream) :
    (d.pop s).vars name part = s.vars name part := by
  by_cases hname : d.name = name
  · unfold Decl.pop
    split
    · rfl
    · rename_i hd
      have hpart := (h hname).resolve_right hd
      subst hname
      cases htype : d.type <;> rw [htype] at hpart <;> simp only [ItemType.size] at hpart
      · exact setVar_of_part_ne _ _ (by omega) _
      · exact (setVar_of_part_ne _ _ (by omega) _).trans (setVar_of_part_ne _ _ (by omega) _)
  · rw [pop_vars_of_ne s (Ne.symm hname)]

/-- Variables that are not popped keep their values. -/
theorem foldr_pop_vars_of_other (s : Scene V W)
    (h : ∀ d ∈ ds, d.name = name → d.type.size ≤ part ∨ d.stack = instStream) :
    (ds.foldr Decl.pop s).vars name part = s.vars name part := by
  induction ds with
  | nil => rfl
  | cons d ds ih =>
      rw [List.foldr_cons, pop_vars_of_other _ (h d List.mem_cons_self),
        ih fun d' hd' => h d' (List.mem_cons_of_mem d hd')]

/-- The items are gone from their stacks. -/
theorem foldr_pop_stack (ds : List Decl) (s : Scene V W) {k : Nat} (hk : k ≠ instStream) (n : Nat) :
    (ds.foldr Decl.pop s).stack k n = s.stack k (n + itemCount ds k) := by
  induction ds generalizing n with
  | nil => rfl
  | cons d ds ih =>
      rw [List.foldr_cons, pop_stack _ _ hk, ih]
      simp only [itemCount]
      rw [Nat.add_assoc]

/-- An item that is not an operand has its value from its offset. -/
theorem foldr_pop_vars (hnames : DistinctNames ds) (s : Scene V W)
    (hitem : item ∈ (computeOffsets counts ds).2) (hstack : item.stack ≠ instStream)
    (hpart : part < item.type.size) :
    (ds.foldr Decl.pop s).vars item.name part =
      s.stack item.stack
        (counts item.stack + itemCount ds item.stack - 1 - (item.offset + part)) := by
  induction ds generalizing counts with
  | nil => cases hitem
  | cons d ds ih =>
      unfold DistinctNames at hnames ih
      rw [List.map_cons, List.nodup_cons] at hnames
      simp only [computeOffsets] at hitem
      rw [List.foldr_cons]
      rcases List.mem_cons.mp hitem with rfl | hitem
      · simp only at hstack hpart ⊢
        rw [pop_vars_part _ hstack hpart, foldr_pop_stack _ _ hstack, itemCount_cons_self]
        congr 1
        omega
      · have hname : item.name ≠ d.name := by
          intro heq
          apply hnames.1
          rw [← heq]
          exact List.mem_map_of_mem (mem_computeOffsets hitem).1
        rw [pop_vars_of_ne _ hname, ih hnames.2 hitem]
        congr 1
        by_cases hd : d.stack = item.stack
        · rw [← hd, Function.update_self, itemCount_cons_self]
          omega
        · rw [Function.update_of_ne (Ne.symm hd), itemCount_cons_of_ne hd]

/-! ## Pushes -/

theorem push_stack_of_ne (vars : String → Nat → V) (stack : Nat → Nat → V) {k : Nat}
    (h : d.stack ≠ k) : d.push vars stack k = stack k := by
  unfold Decl.push
  cases d.type <;> simp [Function.update_of_ne (Ne.symm h)]

theorem push_stack_add (vars : String → Nat → V) (stack : Nat → Nat → V) (d : Decl) (n : Nat) :
    d.push vars stack d.stack (n + d.type.size) = stack d.stack n := by
  unfold Decl.push
  cases d.type <;> simp [ItemType.size]

/-- The item is on top of its stack. -/
theorem push_stack_part (vars : String → Nat → V) (stack : Nat → Nat → V) (d : Decl)
    (hpart : part < d.type.size) :
    d.push vars stack d.stack (d.type.size - 1 - part) = vars d.name part := by
  unfold Decl.push
  rcases ItemType.part_cases hpart with ⟨htype, rfl⟩ | ⟨htype, rfl | rfl⟩ <;>
    simp [htype, ItemType.size]

/-- What was on the stack is below the items. -/
theorem foldl_push_add (vars : String → Nat → V) (ds : List Decl) (stack : Nat → Nat → V)
    (k n : Nat) : ds.foldl (Decl.push vars) stack k (n + itemCount ds k) = stack k n := by
  induction ds generalizing stack n with
  | nil => rfl
  | cons d ds ih =>
      rw [List.foldl_cons]
      by_cases hd : d.stack = k
      · subst hd
        rw [itemCount_cons_self, ← Nat.add_assoc, ih, push_stack_add]
      · rw [itemCount_cons_of_ne hd, ih, push_stack_of_ne _ _ hd]

/-- An item is pushed to the place of its offset. -/
theorem foldl_push_item (vars : String → Nat → V) (stack : Nat → Nat → V)
    (hitem : item ∈ (computeOffsets counts ds).2) (hpart : part < item.type.size) :
    ds.foldl (Decl.push vars) stack item.stack
        (counts item.stack + itemCount ds item.stack - 1 - (item.offset + part)) =
      vars item.name part := by
  induction ds generalizing stack counts with
  | nil => cases hitem
  | cons d ds ih =>
      simp only [computeOffsets] at hitem
      rw [List.foldl_cons]
      rcases List.mem_cons.mp hitem with rfl | hitem
      · simp only at hpart ⊢
        have hplace := foldl_push_add vars ds (d.push vars stack) d.stack (d.type.size - 1 - part)
        rw [push_stack_part vars stack d hpart] at hplace
        rw [itemCount_cons_self, ← hplace]
        apply congrArg
        omega
      · rw [← ih (d.push vars stack) hitem]
        apply congrArg
        by_cases hd : d.stack = item.stack
        · rw [← hd, Function.update_self, itemCount_cons_self]
          omega
        · rw [Function.update_of_ne (Ne.symm hd), itemCount_cons_of_ne hd]

end Vmgen
end Gforth
