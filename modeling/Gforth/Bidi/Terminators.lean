import Gforth.Bidi.Regions
import Gforth.Bidi.Weak
import Mathlib.Data.List.Flatten

/-!
# European terminators

{lit}`w5` leaves an item on the data stack for each character that it reads behind a European
terminator.  The regions have no character in common, so that it gets the classes of a region as they
were at its start, whatever it has stored in the regions before.

Main results:

- Theorem {lit}`Covers.events`: the lists of regions.
- Theorem {lit}`x10_eq_iff`: when the rules leave the data stack as it was.
-/

namespace Gforth
namespace Bidi

variable {num : BidiClass → Nat} {w : Weak BidiClass} {es es' : List Event} {i j k : Nat}

/-! ## Classes -/

/-- Stores at other positions -/
theorem getD_foldl_set (c : BidiClass) (is : List Nat) (buffer : List BidiClass) (h : j ∉ is) :
    (is.foldl (fun buffer k => buffer.set k c) buffer).getD j .ON = buffer.getD j .ON := by
  induction is generalizing buffer with
  | nil => rfl
  | cons i is ih =>
    have hi : i ≠ j := fun hij => h (hij ▸ List.mem_cons_self)
    rw [List.foldl_cons, ih _ fun hj => h (List.mem_cons_of_mem i hj),
      List.getD_eq_getElem?_getD, List.getElem?_set_ne hi,
      ← List.getD_eq_getElem?_getD]

/-- The classes outside of the range of {lit}`fill` -/
theorem getD_fill (c : BidiClass) (buffer : List BidiClass) (h : j < i ∨ k ≤ j) :
    (fill i k c buffer).getD j .ON = buffer.getD j .ON := by
  refine getD_foldl_set c _ buffer fun hj => ?_
  obtain ⟨hle, hlt⟩ := List.mem_range'_1.1 hj
  omega

/-! ## Characters -/

theorem w5_buffer_of_none (h : w.etStart = none) : (w5 num i w).buffer = w.buffer := by
  rw [w5, h]
  dsimp only
  split <;> rfl

/-- A terminator starts a sequence. -/
theorem w5_etStart_of_none (num : BidiClass → Nat) (i : Nat) (h : w.etStart = none) :
    (w5 num i w).etStart = if w.classAt i = .ET then some i else none := by
  rw [w5, h]
  dsimp only
  split
  · rfl
  · exact h

/-- A terminator that starts a sequence is not in front of the region, and one character does not
change classes in front of the region or behind itself. -/
theorem w5_outside (num : BidiClass → Nat) {lo : Nat} (hlo : lo ≤ i) (hstart : ∀ et ∈ w.etStart, lo ≤ et)
    (hj : j < lo ∨ i ≤ j) :
    (∀ et ∈ (w5 num i w).etStart, lo ≤ et) ∧ (w5 num i w).classAt j = w.classAt j := by
  cases het : w.etStart with
  | none =>
    refine ⟨fun et hmem => ?_, congrArg (fun buffer => buffer.getD j .ON) (w5_buffer_of_none het)⟩
    rw [w5_etStart_of_none num i het] at hmem
    split at hmem
    · cases hmem
      exact hlo
    · cases hmem
  | some et =>
    have hle : lo ≤ et := hstart et het
    rw [w5, het]
    dsimp only
    refine ⟨fun et' hmem => ?_, ?_⟩
    · rw [Option.mem_def, ite_eq_iff] at hmem
      rcases hmem with ⟨-, hmem⟩ | ⟨-, hmem⟩
      · cases hmem
      · exact Option.some.inj hmem ▸ hle
    · split
      · exact getD_fill .EN w.buffer (hj.imp_left fun hj => hj.trans_le hle)
      · rfl

/-- The characters of a region that are read from some position on -/
theorem runIsolated_w5_outside (num : BidiClass → Nat) {lo : Nat} (n : Nat) (hlo : lo ≤ i)
    (hstart : ∀ et ∈ w.etStart, lo ≤ et) (hj : j < lo ∨ i + n ≤ j) :
    let w' := runIsolated id (w5 num) ((List.range' i n).map .char) w
    (∀ et ∈ w'.etStart, lo ≤ et) ∧ w'.classAt j = w.classAt j := by
  induction n generalizing i w with
  | zero => exact ⟨hstart, rfl⟩
  | succ n ih =>
    obtain ⟨hstart', hclass⟩ := w5_outside num hlo hstart (j := j)
      (hj.imp_right fun hj => (Nat.le_add_right i (n + 1)).trans hj)
    have hrest := ih (i := i + 1) (w := w5 num i w) (hlo.trans (Nat.le_succ i)) hstart'
      (hj.imp_right fun hj => by omega)
    exact ⟨hrest.1, hrest.2.trans hclass⟩

/-- Characters leave nothing on the data stack if and only if none but the last one is a
terminator. -/
theorem runIsolated_w5_data_iff (n : Nat) (hnone : w.etStart = none) :
    (runIsolated id (w5 num) ((List.range' i n).map .char) w).data = w.data ↔
      ∀ k, i ≤ k → k + 1 < i + n → w.classAt k ≠ .ET := by
  induction n generalizing i w with
  | zero => exact iff_of_true rfl fun k hle hlt => by omega
  | succ n ih =>
    have hdata : (w5 num i w).data = w.data := w5_data_of_none hnone
    have hclass : ∀ k, (w5 num i w).classAt k = w.classAt k := fun k =>
      congrArg (fun buffer => buffer.getD k .ON) (w5_buffer_of_none hnone)
    have hstart := w5_etStart_of_none num i hnone
    show (runIsolated id (w5 num) ((List.range' (i + 1) n).map .char) (w5 num i w)).data = w.data ↔ _
    by_cases het : w.classAt i = .ET
    · rw [if_pos het] at hstart
      cases n with
      | zero => exact iff_of_true hdata fun k hle hlt => by omega
      | succ n =>
        -- the character behind the terminator leaves an item
        refine iff_of_false (fun hsame => ?_) fun hquiet => hquiet i (Nat.le_refl i) (by omega) het
        have hle := (data_suffix_w5 num ((List.range' (i + 1 + 1) n).map .char)
          (w5 num (i + 1) (w5 num i w))).length_le
        rw [w5_data_of_some hstart, hdata] at hle
        exact absurd (hle.trans (congrArg List.length hsame).le) (Nat.not_succ_le_self _)
    · rw [if_neg het] at hstart
      rw [← hdata, ih hstart]
      refine ⟨fun hquiet k hle hlt => ?_, fun hquiet k hle hlt => ?_⟩
      · rcases hle.eq_or_lt with rfl | hlt'
        · exact het
        · exact hclass k ▸ hquiet k hlt' (by omega)
      · exact (hclass k).symm ▸ hquiet k (by omega) (by omega)

/-! ## Regions -/

theorem runIsolated_append (es es' : List Event) (w : Weak BidiClass) :
    runIsolated id (w5 num) (es ++ es') w =
      runIsolated id (w5 num) es' (runIsolated id (w5 num) es w) :=
  List.foldl_append

/-- Nothing is left on the data stack behind two parts if and only if none of them leaves
anything. -/
theorem data_append_iff (es es' : List Event) (w : Weak BidiClass) :
    (runIsolated id (w5 num) (es ++ es') w).data = w.data ↔
      (runIsolated id (w5 num) es w).data = w.data ∧
        (runIsolated id (w5 num) es' (runIsolated id (w5 num) es w)).data =
          (runIsolated id (w5 num) es w).data := by
  rw [runIsolated_append]
  have hfirst := data_suffix_w5 num es w
  have hsecond := data_suffix_w5 num es' (runIsolated id (w5 num) es w)
  constructor
  · intro hsame
    rw [hsame] at hsecond ⊢
    have heq := hsecond.eq_of_length_le hfirst.length_le
    exact ⟨heq, heq.symm⟩
  · exact fun ⟨hsame, hsame'⟩ => hsame'.trans hsame

/-- Events of some regions: they leave nothing on the data stack if and only if the regions are
quiet, and do not change classes outside of the regions. -/
structure Covers (num : BidiClass → Nat) (len : Nat) (es : List Event) (rs : List Region) : Prop where
  data_iff : ∀ w, (runIsolated id (w5 num) es w).data = w.data ↔ ∀ r ∈ rs, r.QuietIn len w
  outside : ∀ w j, (∀ r ∈ rs, j < r.start ∨ r.stop ≤ j) →
    (runIsolated id (w5 num) es w).classAt j = w.classAt j

namespace Covers

variable {len : Nat} {rs rs' : List Region}

theorem nil (num : BidiClass → Nat) (len : Nat) : Covers num len [] [] where
  data_iff _ := iff_of_true rfl fun _ hr => absurd hr List.not_mem_nil
  outside _ _ _ := rfl

/-- The start of a list of regions -/
theorem enterList (num : BidiClass → Nat) (len : Nat) (sos : BidiClass) :
    Covers num len [.enterList sos] [] where
  data_iff _ := iff_of_true rfl fun _ hr => absurd hr List.not_mem_nil
  outside _ _ _ := rfl

/-- One region -/
theorem region (num : BidiClass → Nat) (len : Nat) (r : Region) :
    Covers num len (regionEvents len r) [r] := by
  let lo := min r.start (min len r.stop)
  let n := min len r.stop - r.start
  let inside (w : Weak BidiClass) : Weak BidiClass :=
    runIsolated id (w5 num) ((List.range' lo n).map .char) { w with etStart := none }
  have hrun : ∀ w, runIsolated id (w5 num) (regionEvents len r) w =
      (inside w).step id (w5 num) (.leaveRegion (min len r.stop)) := fun w => by
    rw [regionEvents, runIsolated_append]
    rfl
  constructor
  · intro w
    have hleave : ((inside w).step id (w5 num) (.leaveRegion (min len r.stop))).data =
        (inside w).data := Weak.step_data id fun _ => nofun
    rw [hrun, hleave, List.forall_mem_singleton]
    refine (runIsolated_w5_data_iff n rfl).trans ?_
    refine forall_congr' fun k => ⟨fun h hle hlt => ?_, fun h hle hlt => ?_⟩
    · exact h (by omega) (by omega)
    · exact h (by omega) (by omega)
  · intro w j hj
    have hout : j < lo ∨ lo + n ≤ j := by
      have := hj r (List.mem_singleton_self r)
      omega
    obtain ⟨hstart, hclass⟩ := runIsolated_w5_outside num n (Nat.le_refl lo)
      (w := { w with etStart := none }) nofun hout
    rw [hrun]
    refine Eq.trans ?_ hclass
    rw [Weak.step]
    cases het : (inside w).etStart with
    | none => rfl
    | some et =>
      have hle : lo ≤ et := hstart et het
      exact getD_fill .EN (inside w).buffer (by omega)

/-- Regions that are apart -/
theorem append (h : Covers num len es rs) (h' : Covers num len es' rs')
    (hapart : ∀ r ∈ rs, ∀ r' ∈ rs', r.Apart r') : Covers num len (es ++ es') (rs ++ rs') where
  data_iff w := by
    rw [data_append_iff, h.data_iff, h'.data_iff, List.forall_mem_append]
    refine and_congr_right fun _ => forall₂_congr fun r' hr' => ?_
    refine forall_congr' fun i => forall₂_congr fun hle hlt => ?_
    rw [h.outside w i fun r hr => ?_]
    have := hapart r hr r' hr'
    rw [Region.Apart] at this
    omega
  outside w j hj := by
    rw [List.forall_mem_append] at hj
    rw [runIsolated_append, h'.outside _ j hj.2, h.outside w j hj.1]

/-- One list of regions -/
theorem flatMap (num : BidiClass → Nat) (len : Nat) (h : rs.Pairwise Region.Apart) :
    Covers num len (rs.flatMap (regionEvents len)) rs := by
  induction rs with
  | nil => exact nil num len
  | cons r rs ih =>
    obtain ⟨hr, hrs⟩ := List.pairwise_cons.1 h
    refine (region num len r).append (ih hrs) fun r₁ hr₁ r' hr' => ?_
    rw [List.mem_singleton.1 hr₁]
    exact hr r' hr'

/-- All lists of regions -/
theorem events (num : BidiClass → Nat) (len : Nat) (soss : List BidiClass)
    (lists : List (List Region)) (h : lists.flatten.Pairwise Region.Apart) :
    Covers num len (Bidi.events len soss lists) lists.flatten := by
  have hzip : ∀ k, Covers num len ((lists.zipIdx k).flatMap fun l =>
      .enterList (soss.getD l.2 .L) :: l.1.flatMap (regionEvents len)) lists.flatten := by
    induction lists with
    | nil => exact fun _ => nil num len
    | cons rs lists ih =>
      intro k
      obtain ⟨hrs, hlists, hapart⟩ := List.pairwise_append.1 h
      exact ((enterList num len (soss.getD k .L)).append (flatMap num len hrs) (by simp)).append
        (ih hlists (k + 1)) hapart
  exact hzip 0

end Covers

/-- The rules leave the data stack as it was if and only if each terminator is the last character of
its region. -/
theorem State.x10_eq_iff (num : BidiClass → Nat) (embedded : Nat) (b : State)
    (h : b.isoList.flatten.Pairwise Region.Apart) :
    b.x10 num embedded = b.data ↔ b.Quiet embedded := by
  rw [x10, keepsData_w7.runIsolated, keepsData_w6.runIsolated, ← b.w5Start_data embedded]
  exact (Covers.events num b.buffer.length (b.sosList embedded) b.isoList h).data_iff _

end Bidi
end Gforth
