import Gforth.Texts.Components
import Gforth.Texts.Words

/-!
# Compacting file names

{lit}`compact-filename` takes the superfluous parts out of a path.  It works in place: what is behind
a part that is deleted is moved to the front.

Main results:

- Theorem {lit}`compactFilename_compacted`: the text in memory afterwards.
- Theorem {lit}`compactFilename_spec`: it is compact, has the same normal form, and is not changed any
  further.
-/

namespace Gforth
namespace Texts

open Lib

/-! ## The words -/

/-- {lit}`safe/string`, for a count that is not negative -/
def Text.safeSlashString (t : Text) (n : Nat) : Text :=
  t.slashString (min n t.len)

/-- {lit}`string-prefix?` -/
def stringPrefix (mem : Memory 64 Byte) (t : Text) (s : List Byte) : Prop :=
  s <+: t.chars mem

instance (mem : Memory 64 Byte) (t : Text) (s : List Byte) : Decidable (stringPrefix mem t s) :=
  inferInstanceAs (Decidable (_ <+: _))

/-- {lit}`del-string` -/
def delString (mem : Memory 64 Byte) (t : Text) (u1 : Nat) : Memory 64 Byte × Text :=
  let rest := t.safeSlashString u1
  (mem.store t.addr (rest.chars mem), ⟨t.addr, rest.len⟩)

/-- The characters {lit}`./` -/
def dotSlash : List Byte :=
  [dot, slash]

/-- The characters {lit}`../` -/
def dotDotSlash : List Byte :=
  up ++ [slash]

theorem stringPrefix_length {mem : Memory 64 Byte} {t : Text} {s : List Byte}
    (h : stringPrefix mem t s) : s.length ≤ t.len := by
  have hle := h.length_le
  rwa [Text.chars, Memory.length_text] at hle

/-- Deleting makes the text shorter. -/
theorem delString_len (mem : Memory 64 Byte) (t : Text) (u1 : Nat) :
    (delString mem t u1).2.len = t.len - u1 := by
  simp only [delString, Text.safeSlashString, Text.slashString]
  omega

/-- {lit}`del-./s`; the inner loop deletes the slashes. -/
def delDotSlashes (mem : Memory 64 Byte) (t : Text) : Memory 64 Byte × Text :=
  if t.len ≠ 0 ∧ mem t.addr = slash then
    delDotSlashes (delString mem t 1).1 (delString mem t 1).2
  else if stringPrefix mem t dotSlash then
    delDotSlashes (delString mem t 2).1 (delString mem t 2).2
  else (mem, t)
termination_by t.len
decreasing_by
  · rename_i h
    rw [delString_len]
    omega
  · rename_i h
    have hle := stringPrefix_length h
    rw [delString_len]
    simp only [dotSlash, List.length_cons] at hle
    omega

/-- {lit}`preserve-root` -/
def preserveRoot (mem : Memory 64 Byte) (t : Text) : Text :=
  if t.len ≠ 0 then
    if mem t.addr = slash then t.safeSlashString 1 else t
  else t

/-- {lit}`del-./s` does not make the text longer. -/
theorem delDotSlashes_len_le (mem : Memory 64 Byte) (t : Text) :
    (delDotSlashes mem t).2.len ≤ t.len := by
  induction mem, t using delDotSlashes.induct with
  | case1 mem t hslash ih =>
      rw [delDotSlashes, if_pos hslash]
      rw [delString_len] at ih
      omega
  | case2 mem t hslash hdot ih =>
      rw [delDotSlashes, if_neg hslash, if_pos hdot]
      rw [delString_len] at ih
      omega
  | case3 mem t hslash hdot => rw [delDotSlashes, if_neg hslash, if_neg hdot]

/-- {lit}`skip-..-prefixes` -/
def skipDotDotPrefixes (mem : Memory 64 Byte) (t : Text) : Memory 64 Byte × Text :=
  let r := delDotSlashes mem t
  if stringPrefix r.1 r.2 dotDotSlash then skipDotDotPrefixes r.1 (r.2.slashString 3) else r
termination_by t.len
decreasing_by
  rename_i h
  have hle : 3 ≤ (delDotSlashes mem t).2.len := stringPrefix_length h
  have hdel := delDotSlashes_len_le mem t
  simp only [Text.slashString]
  omega

/-- Skipping {lit}`../` does not make the text longer. -/
theorem skipDotDotPrefixes_len_le (mem : Memory 64 Byte) (t : Text) :
    (skipDotDotPrefixes mem t).2.len ≤ t.len := by
  induction mem, t using skipDotDotPrefixes.induct with
  | case1 mem t r hup ih =>
      rw [skipDotDotPrefixes, if_pos hup]
      have hle : _ ≤ (delDotSlashes mem t).2.len - 3 := ih
      exact hle.trans ((Nat.sub_le _ _).trans (delDotSlashes_len_le mem t))
  | case2 mem t r hup =>
      rw [skipDotDotPrefixes, if_neg hup]
      exact delDotSlashes_len_le mem t

/-- {lit}`preserve-root` does not make the text longer. -/
theorem preserveRoot_len_le (mem : Memory 64 Byte) (t : Text) : (preserveRoot mem t).len ≤ t.len := by
  rw [preserveRoot]
  split
  · split
    · exact Nat.sub_le _ _
    · exact le_rfl
  · exact le_rfl

/-- {lit}`scan` does not make the text longer. -/
theorem scan_len_le (mem : Memory 64 Byte) (c : Byte) (a : BitVec 64) (n : Nat) :
    (scan mem c a n).len ≤ n := by
  rcases scan_cases mem c a n with ⟨-, heq⟩ | ⟨k, hk, -, -, heq⟩
  · rw [heq]
    exact Nat.zero_le _
  · rw [heq]
    exact Nat.sub_le _ _

/-- {lit}`compact-filename` -/
def compactFilename (mem : Memory 64 Byte) (t : Text) : Memory 64 Byte × Text :=
  let r := skipDotDotPrefixes mem (preserveRoot mem t)
  let current := r.2
  let rest := scan r.1 slash current.addr current.len
  if rest.len ≠ 0 then
    let r := delDotSlashes r.1 (rest.safeSlashString 1)
    let r := compactFilename r.1 r.2
    if stringPrefix r.1 r.2 dotDotSlash then
      let source := r.2.safeSlashString 3
      (r.1.store current.addr (source.chars r.1),
        ⟨t.addr, (current.addr + BitVec.ofNat 64 source.len - t.addr).toNat⟩)
    else (r.1, ⟨t.addr, (r.2.addr + BitVec.ofNat 64 r.2.len - t.addr).toNat⟩)
  else (r.1, ⟨t.addr, (rest.addr + BitVec.ofNat 64 rest.len - t.addr).toNat⟩)
termination_by t.len
decreasing_by
  rename_i h
  have hne : (scan (skipDotDotPrefixes mem (preserveRoot mem t)).1 slash
      (skipDotDotPrefixes mem (preserveRoot mem t)).2.addr
      (skipDotDotPrefixes mem (preserveRoot mem t)).2.len).len ≠ 0 := h
  have hroot := preserveRoot_len_le mem t
  have hskip := skipDotDotPrefixes_len_le mem (preserveRoot mem t)
  generalize skipDotDotPrefixes mem (preserveRoot mem t) = r at hne hskip ⊢
  have hscan := scan_len_le r.1 slash r.2.addr r.2.len
  have hdel := delDotSlashes_len_le r.1 ((scan r.1 slash r.2.addr r.2.len).safeSlashString 1)
  have hone : ((scan r.1 slash r.2.addr r.2.len).safeSlashString 1).len =
      (scan r.1 slash r.2.addr r.2.len).len - min 1 (scan r.1 slash r.2.addr r.2.len).len := rfl
  omega

/-! ## Changes within a text -/

/-- Only bytes of the text change. -/
def Keeps (t : Text) (mem mem' : Memory 64 Byte) : Prop :=
  ∀ b, (∀ i < t.len, b ≠ t.addr + BitVec.ofNat 64 i) → mem' b = mem b

variable {mem mem' mem'' : Memory 64 Byte} {t : Text} {a : BitVec 64} {j m n : Nat}

theorem Keeps.refl (t : Text) (mem : Memory 64 Byte) : Keeps t mem mem :=
  fun _ _ => rfl

theorem Keeps.trans (h : Keeps t mem mem') (h' : Keeps t mem' mem'') : Keeps t mem mem'' :=
  fun b hb => (h' b hb).trans (h b hb)

/-- A change within a part of the text -/
theorem Keeps.part (h : Keeps ⟨a + BitVec.ofNat 64 j, m⟩ mem mem') (hle : j + m ≤ n) :
    Keeps ⟨a, n⟩ mem mem' := by
  intro b hb
  refine h b fun i hi => ?_
  rw [Memory.add_ofNat_ofNat]
  exact hb (j + i) (by simp only at hi ⊢; omega)

/-- What is in front of the text stays. -/
theorem Keeps.front (h : Keeps ⟨a + BitVec.ofNat 64 j, m⟩ mem mem') (hle : j + m ≤ 2 ^ 64) {i k : Nat}
    (hfront : i + k ≤ j) :
    mem'.text (a + BitVec.ofNat 64 i) k = mem.text (a + BitVec.ofNat 64 i) k := by
  refine Memory.text_congr _ fun l hl => h _ fun i' hi' => ?_
  rw [Memory.add_ofNat_ofNat, Memory.add_ofNat_ofNat]
  simp only at hi'
  exact Memory.add_ofNat_ne (by omega) (by omega) (by omega)

theorem Keeps.front_zero (h : Keeps ⟨a + BitVec.ofNat 64 j, m⟩ mem mem') (hle : j + m ≤ 2 ^ 64) {k : Nat}
    (hfront : k ≤ j) : mem'.text a k = mem.text a k := by
  have hzero := h.front hle (i := 0) (k := k) (by omega)
  rwa [BitVec.add_zero] at hzero

theorem keeps_store {s : List Byte} (h : s.length ≤ n) : Keeps ⟨a, n⟩ mem (mem.store a s) :=
  fun _ hb => Memory.store_of_ne _ fun i hi => hb i (by simp only; omega)

/-- {lit}`delstring` moves the rest to the front. -/
theorem delString_spec (mem : Memory 64 Byte) (h : t.len ≤ 2 ^ 64) {u1 : Nat} (hle : u1 ≤ t.len) :
    (delString mem t u1).2 = ⟨t.addr, t.len - u1⟩ ∧ Keeps t mem (delString mem t u1).1 ∧
      (delString mem t u1).2.chars (delString mem t u1).1 = (t.chars mem).drop u1 := by
  have hrest : t.safeSlashString u1 = ⟨t.addr + BitVec.ofNat 64 u1, t.len - u1⟩ := by
    rw [Text.safeSlashString, Nat.min_eq_left hle, Text.slashString]
  have hlen : (Text.chars mem ⟨t.addr + BitVec.ofNat 64 u1, t.len - u1⟩).length = t.len - u1 :=
    Memory.length_text _ _ _
  simp only [delString, hrest]
  refine ⟨trivial, keeps_store (by rw [hlen]; exact Nat.sub_le _ _), ?_⟩
  have hstore := Memory.text_store_self mem (a := t.addr)
    (t := Text.chars mem ⟨t.addr + BitVec.ofNat 64 u1, t.len - u1⟩) (by omega)
  rw [hlen] at hstore
  rw [Text.chars, hstore, Text.chars, Text.chars, Memory.drop_text _ _ hle]

/-- {lit}`del-./s` drops slashes and {lit}`./` at the start of the text. -/
structure Stripped (mem : Memory 64 Byte) (t : Text) (mem' : Memory 64 Byte) (t' : Text) : Prop where
  addr : t'.addr = t.addr
  len_le : t'.len ≤ t.len
  keeps : Keeps t mem mem'
  compactPath_eq : compactPath (t'.chars mem') = compactPath (t.chars mem)
  no_slash : (t'.chars mem').head? ≠ some slash
  no_dot : ¬ dotSlash <+: t'.chars mem'

/-- Deleting one more part in front -/
theorem Stripped.delString {u1 : Nat} {t' : Text} (h : t.len ≤ 2 ^ 64) (hle : u1 ≤ t.len)
    (hpath : compactPath ((t.chars mem).drop u1) = compactPath (t.chars mem))
    (hstripped : Stripped (delString mem t u1).1 (delString mem t u1).2 mem' t') :
    Stripped mem t mem' t' := by
  obtain ⟨heq, hkeeps, hchars⟩ := delString_spec mem h hle
  obtain ⟨haddr, hlen, hkeeps', hpath', hslash, hdot⟩ := hstripped
  rw [hchars, hpath] at hpath'
  rw [heq] at haddr hlen hkeeps'
  have hpart : Keeps ⟨t.addr, t.len⟩ _ mem' := fun b hb =>
    hkeeps' b fun i hi => hb i (by simp only at hi ⊢; omega)
  exact ⟨haddr, hlen.trans (Nat.sub_le _ _), hkeeps.trans hpart, hpath', hslash, hdot⟩

/-- {lit}`del-./s` strips the text. -/
theorem delDotSlashes_spec (mem : Memory 64 Byte) (h : t.len ≤ 2 ^ 64) :
    Stripped mem t (delDotSlashes mem t).1 (delDotSlashes mem t).2 := by
  induction mem, t using delDotSlashes.induct with
  | case1 mem t hslash ih =>
      rw [delDotSlashes, if_pos hslash]
      refine Stripped.delString h (Nat.one_le_iff_ne_zero.2 hslash.1) ?_ (ih ?_)
      · rw [chars_of_len_ne_zero hslash.1, hslash.2]
        exact (compactPath_drop (Or.inl rfl) _).symm
      · rw [delString_len]
        omega
  | case2 mem t hslash hdot ih =>
      rw [delDotSlashes, if_neg hslash, if_pos hdot]
      refine Stripped.delString h (stringPrefix_length hdot) ?_ (ih ?_)
      · obtain ⟨r, hr⟩ := hdot
        rw [← hr]
        exact (compactPath_drop (Or.inr rfl) _).symm
      · rw [delString_len]
        omega
  | case3 mem t hslash hdot =>
      rw [delDotSlashes, if_neg hslash, if_neg hdot]
      refine ⟨rfl, le_rfl, Keeps.refl t mem, rfl, ?_, hdot⟩
      intro hhead
      by_cases hlen : t.len = 0
      · rw [chars_of_len_eq_zero hlen] at hhead
        cases hhead
      · rw [chars_of_len_ne_zero hlen, List.head?_cons, Option.some.injEq] at hhead
        exact hslash ⟨hlen, hhead⟩

/-- {lit}`skip-..-prefixes` goes on behind {lit}`../`. -/
structure Skipped (mem : Memory 64 Byte) (t : Text) (mem' : Memory 64 Byte) (t' : Text) (n : Nat) :
    Prop where
  addr : t'.addr = t.addr + BitVec.ofNat 64 n
  len_le : n + t'.len ≤ t.len
  keeps : Keeps t mem mem'
  compactPath_eq : compactPath (t.chars mem) = mem'.text t.addr n ++ compactPath (t'.chars mem')
  no_slash : (t'.chars mem').head? ≠ some slash
  no_dot : ¬ dotSlash <+: t'.chars mem'
  no_up : ¬ dotDotSlash <+: t'.chars mem'

/-- One more {lit}`../` is skipped. -/
theorem Stripped.skipped {t' t'' : Text} (hstripped : Stripped mem t mem' t') (h : t.len ≤ 2 ^ 64)
    (hup : dotDotSlash <+: t'.chars mem') (hskipped : Skipped mem' (t'.slashString 3) mem'' t'' n) :
    Skipped mem t mem'' t'' (3 + n) := by
  obtain ⟨haddr, hlen, hkeeps, hpath, -, -⟩ := hstripped
  obtain ⟨haddr', hlen', hkeeps', hpath', hslash, hdot, hdotdot⟩ := hskipped
  have hthree : 3 ≤ t'.len := stringPrefix_length hup
  simp only [Text.slashString, haddr, Memory.add_ofNat_ofNat] at haddr' hlen' hkeeps' hpath'
  -- the characters {lit}`../` and what is behind them
  have hchars : t'.chars mem' = up ++ slash :: mem'.text (t.addr + BitVec.ofNat 64 3) (t'.len - 3) := by
    obtain ⟨r, hr⟩ := hup
    have hdrop := Memory.drop_text mem' t'.addr hthree
    rw [← Text.chars.eq_1, ← hr] at hdrop
    rw [← haddr, ← hdrop, ← hr]
    rfl
  have hfront : mem''.text t.addr 3 = up ++ [slash] := by
    have htake := Memory.take_text mem' t'.addr hthree
    rw [← Text.chars.eq_1, hchars, haddr] at htake
    rw [hkeeps'.front_zero (by omega) le_rfl, ← htake]
    rfl
  refine ⟨haddr', by omega, hkeeps.trans (hkeeps'.part (by omega)), ?_, hslash, hdot, hdotdot⟩
  rw [Text.chars] at hpath'
  rw [← hpath, hchars, compactPath_up, hpath', Memory.text_add, hfront, List.append_assoc,
    List.append_assoc]
  rfl

/-- {lit}`skip-..-prefixes` skips every {lit}`../` in front. -/
theorem skipDotDotPrefixes_spec (mem : Memory 64 Byte) (h : t.len ≤ 2 ^ 64) :
    ∃ n, Skipped mem t (skipDotDotPrefixes mem t).1 (skipDotDotPrefixes mem t).2 n := by
  induction mem, t using skipDotDotPrefixes.induct with
  | case1 mem t r hup ih =>
      have hstripped := delDotSlashes_spec mem h
      have hle : (r.2.slashString 3).len ≤ t.len := (Nat.sub_le _ _).trans hstripped.len_le
      obtain ⟨n, hn⟩ := ih (hle.trans h)
      rw [skipDotDotPrefixes, if_pos hup]
      exact ⟨3 + n, hstripped.skipped h hup hn⟩
  | case2 mem t r hup =>
      obtain ⟨haddr, hlen, hkeeps, hpath, hslash, hdot⟩ := delDotSlashes_spec mem h
      rw [skipDotDotPrefixes, if_neg hup]
      exact ⟨0, by rw [BitVec.add_zero, haddr], by rwa [Nat.zero_add], hkeeps, hpath.symm, hslash, hdot,
        hup⟩

/-! ## The recursion -/

/-- The text in memory was compacted. -/
structure Compacted (mem : Memory 64 Byte) (t : Text) (mem' : Memory 64 Byte) (t' : Text) : Prop where
  addr : t'.addr = t.addr
  len_le : t'.len ≤ t.len
  keeps : Keeps t mem mem'
  chars_eq : t'.chars mem' = compacted (t.chars mem)

/-- {lit}`preserve-root` skips the root. -/
theorem preserveRoot_spec (mem : Memory 64 Byte) (t : Text) :
    ∃ j, preserveRoot mem t = ⟨t.addr + BitVec.ofNat 64 j, t.len - j⟩ ∧ j ≤ t.len ∧
      compacted (t.chars mem) = mem.text t.addr j ++ compactPath ((preserveRoot mem t).chars mem) := by
  have hnone : ∀ s : List Byte, s.head? ≠ some slash → compacted s = compactPath s := by
    intro s hs
    rw [compacted, root, if_neg hs, List.nil_append]
  have hzero : t = ⟨t.addr + BitVec.ofNat 64 0, t.len - 0⟩ := by
    rw [BitVec.add_zero, Nat.sub_zero]
  rw [preserveRoot]
  split
  · rename_i hlen
    split
    · rename_i hslash
      have hone : 1 ≤ t.len := Nat.one_le_iff_ne_zero.2 hlen
      refine ⟨1, by rw [Text.safeSlashString, Nat.min_eq_left hone, Text.slashString], hone, ?_⟩
      rw [Text.safeSlashString, Nat.min_eq_left hone, chars_of_len_ne_zero hlen, hslash, compacted,
        root, List.head?_cons, if_pos rfl, Memory.text_succ, hslash, Memory.text_zero]
      exact congrArg (slash :: ·) (compactPath_drop (Or.inl rfl) _)
    · rename_i hslash
      refine ⟨0, hzero, Nat.zero_le _, hnone _ ?_⟩
      rw [chars_of_len_ne_zero hlen, List.head?_cons]
      exact fun heq => hslash (Option.some.inj heq)
  · rename_i hlen
    refine ⟨0, hzero, Nat.zero_le _, hnone _ ?_⟩
    rw [chars_of_len_eq_zero (not_not.1 hlen)]
    intro hhead
    cases hhead

/-- The leading slash and {lit}`../` at the start stay. -/
theorem start_spec (mem : Memory 64 Byte) (h : t.len ≤ 2 ^ 64) :
    ∃ n mem' t', skipDotDotPrefixes mem (preserveRoot mem t) = (mem', t') ∧
      t'.addr = t.addr + BitVec.ofNat 64 n ∧ n + t'.len ≤ t.len ∧ Keeps t mem mem' ∧
      compacted (t.chars mem) = mem'.text t.addr n ++ compactPath (t'.chars mem') ∧
      (t'.chars mem').head? ≠ some slash ∧ ¬ dotSlash <+: t'.chars mem' ∧
      ¬ dotDotSlash <+: t'.chars mem' := by
  obtain ⟨j, hroot, hj, hchars⟩ := preserveRoot_spec mem t
  rw [hroot] at hchars ⊢
  obtain ⟨n, haddr, hlen, hkeeps, hpath, hslash, hdot, hup⟩ :=
    skipDotDotPrefixes_spec (t := ⟨t.addr + BitVec.ofNat 64 j, t.len - j⟩) mem
      ((Nat.sub_le _ _).trans h)
  simp only at haddr hlen hpath
  rw [Memory.add_ofNat_ofNat] at haddr
  refine ⟨j + n, _, _, rfl, haddr, by omega, hkeeps.part (by omega), ?_, hslash, hdot, hup⟩
  rw [hchars, hpath, Memory.text_add, hkeeps.front_zero (by omega) le_rfl, List.append_assoc]

/-- The first component of the text behind the start -/
theorem component_spec {x s : List Byte} (hslash : (x ++ slash :: s).head? ≠ some slash)
    (hdot : ¬ dotSlash <+: x ++ slash :: s) (hup : ¬ dotDotSlash <+: x ++ slash :: s) :
    (x ≠ [] ∧ x ≠ [dot]) ∧ x ≠ up := by
  have hpre : ∀ w : List Byte, x = w → w ++ [slash] <+: x ++ slash :: s := by
    rintro w rfl
    exact ⟨s, by rw [List.append_assoc]; rfl⟩
  refine ⟨⟨?_, fun heq => hdot (hpre _ heq)⟩, fun heq => hup (hpre _ heq)⟩
  rintro rfl
  exact hslash rfl

theorem toNat_distance (a : BitVec 64) (h : n < 2 ^ 64) : (a + BitVec.ofNat 64 n - a).toNat = n := by
  rw [BitVec.add_comm, BitVec.add_sub_cancel, BitVec.toNat_ofNat, Nat.mod_eq_of_lt h]

/-- What is behind the first component was compacted. -/
theorem Compacted.rest {c d e : Text} {mem1 mem2 mem3 : Memory 64 Byte} {k : Nat}
    (hk : k < c.len)
    (hstripped : Stripped mem1 ⟨c.addr + BitVec.ofNat 64 (k + 1), c.len - k - 1⟩ mem2 d)
    (hrest : Compacted mem2 d mem3 e) :
    e.addr = c.addr + BitVec.ofNat 64 (k + 1) ∧ k + 1 + e.len ≤ c.len ∧
      Keeps ⟨c.addr + BitVec.ofNat 64 (k + 1), c.len - k - 1⟩ mem1 mem3 ∧
      e.chars mem3 = compactPath (mem1.text (c.addr + BitVec.ofNat 64 (k + 1)) (c.len - k - 1)) := by
  obtain ⟨haddr, hlen, hkeeps, hpath, hslash, -⟩ := hstripped
  obtain ⟨haddr', hlen', hkeeps', hchars⟩ := hrest
  simp only at haddr hlen hpath
  refine ⟨haddr'.trans haddr, by omega, hkeeps.trans fun b hb => hkeeps' b fun i hi => ?_, ?_⟩
  · rw [haddr]
    exact hb i (by simp only; omega)
  · rw [hchars, compacted, root, if_neg hslash, List.nil_append, hpath]
    rfl

/-- {lit}`compact-filename` compacts the text in memory. -/
theorem compactFilename_compacted (mem : Memory 64 Byte) (t : Text) (h : t.len < 2 ^ 64) :
    Compacted mem t (compactFilename mem t).1 (compactFilename mem t).2 := by
  induction hlen : t.len using Nat.strongRecOn generalizing mem t with
  | ind l ih =>
      obtain ⟨n, mem1, c, heq, haddr, hle, hkeeps, hchars, hslash, hdot, hup⟩ := start_spec mem h.le
      rw [compactFilename, heq]
      simp only
      rcases scan_cases mem1 slash c.addr c.len with ⟨hnone, hscan⟩ | ⟨k, hk, hnone, hfound, hscan⟩
      · -- the last component
        have hlast : slash ∉ c.chars mem1 := by
          intro hmem
          obtain ⟨i, hi, heqi⟩ := (Memory.mem_text mem1).1 hmem
          exact hnone i hi heqi
        rw [hscan, if_neg (by simp)]
        simp only
        rw [BitVec.add_zero, haddr, Memory.add_ofNat_ofNat, toNat_distance _ (by omega)]
        refine ⟨rfl, hle, hkeeps, ?_⟩
        rw [hchars, compactPath_last hlast, Text.chars, Memory.text_add, Text.chars, haddr]
      · -- a component with a slash
        have hcomponent : slash ∉ mem1.text c.addr k := by
          intro hmem
          obtain ⟨i, hi, heqi⟩ := (Memory.mem_text mem1).1 hmem
          exact hnone i hi heqi
        have hsafe : Text.safeSlashString ⟨c.addr + BitVec.ofNat 64 k, c.len - k⟩ 1 =
            ⟨c.addr + BitVec.ofNat 64 (k + 1), c.len - k - 1⟩ := by
          rw [Text.safeSlashString, Nat.min_eq_left (by simp only; omega), Text.slashString,
            Memory.add_ofNat_ofNat]
        rw [hscan, if_pos (by simp only; omega), hsafe]
        have hstripped := delDotSlashes_spec (t := ⟨c.addr + BitVec.ofNat 64 (k + 1), c.len - k - 1⟩)
          mem1 (by simp only; omega)
        generalize delDotSlashes mem1 _ = d at hstripped ⊢
        have hlend := hstripped.len_le
        simp only at hlend
        have hrest := ih d.2.len (by omega) d.1 d.2 (by omega) rfl
        generalize compactFilename d.1 d.2 = e at hrest ⊢
        obtain ⟨haddre, hlene, hkeepse, hcharse⟩ := hrest.rest hk hstripped
        have hsplit : c.chars mem1 = _ := text_found hk hfound
        rw [hsplit] at hslash hdot hup hchars
        obtain ⟨hproper, hne⟩ := component_spec hslash hdot hup
        rw [haddr, Memory.add_ofNat_ofNat] at haddre hkeepse
        split
        · -- the component is overwritten
          rename_i hpre
          have hthree : 3 ≤ e.2.len := stringPrefix_length hpre
          have hdrop : Text.chars e.1 (e.2.safeSlashString 3) = (e.2.chars e.1).drop 3 := by
            rw [Text.safeSlashString, Nat.min_eq_left hthree]
            exact (Memory.drop_text _ _ hthree).symm
          have hlength : (Text.chars e.1 (e.2.safeSlashString 3)).length = e.2.len - 3 := by
            rw [hdrop, List.length_drop, Text.chars, Memory.length_text]
          have hlensource : (e.2.safeSlashString 3).len = e.2.len - 3 := by
            rw [Text.safeSlashString, Nat.min_eq_left hthree, Text.slashString]
          rw [stringPrefix, hcharse] at hpre
          rw [compactPath_cancel hcomponent hproper hne hpre, ← hcharse, ← hdrop] at hchars
          have hstore : Keeps ⟨t.addr + BitVec.ofNat 64 n, e.2.len - 3⟩ e.1
              (e.1.store (t.addr + BitVec.ofNat 64 n) (Text.chars e.1 (e.2.safeSlashString 3))) :=
            keeps_store hlength.le
          simp only
          rw [hlensource, haddr, Memory.add_ofNat_ofNat, toNat_distance _ (by omega)]
          refine ⟨rfl, by simp only; omega, ?_, ?_⟩
          · exact hkeeps.trans ((hkeepse.part (by omega)).trans (hstore.part (by omega)))
          · have hself := Memory.text_store_self e.1 (a := t.addr + BitVec.ofNat 64 n)
              (t := Text.chars e.1 (e.2.safeSlashString 3)) (by omega)
            rw [hlength] at hself
            rw [hchars, Text.chars, Memory.text_add, hself, hstore.front_zero (by omega) le_rfl,
              hkeepse.front_zero (by omega) (by omega)]
        · -- the component stays
          rename_i hpre
          rw [stringPrefix, hcharse] at hpre
          rw [compactPath_keep hcomponent hproper hpre, ← hcharse] at hchars
          simp only
          rw [haddre, Memory.add_ofNat_ofNat, toNat_distance _ (by omega)]
          refine ⟨rfl, by simp only; omega, hkeeps.trans (hkeepse.part (by omega)), ?_⟩
          have hfront : e.1.text t.addr (n + (k + 1)) =
              mem1.text t.addr n ++ (mem1.text c.addr k ++ [slash]) := by
            rw [hkeepse.front_zero (by omega) le_rfl, Memory.text_add, ← haddr, Memory.text_add,
              Memory.text_succ, hfound, Memory.text_zero]
          rw [hchars, Text.chars, Memory.text_add, hfront, ← haddre, List.append_assoc,
            List.append_assoc]
          rfl

/-- A text that is the same afterwards -/
theorem Compacted.eq_of_chars_eq {r : Memory 64 Byte × Text} (h : Compacted mem t r.1 r.2)
    (heq : compacted (t.chars mem) = t.chars mem) : r = (mem, t) := by
  obtain ⟨mem', t'⟩ := r
  obtain ⟨haddr, -, hkeeps, hchars⟩ := h
  simp only at haddr hkeeps hchars
  rw [heq] at hchars
  have hlen : t'.len = t.len := by
    have hlength := congrArg List.length hchars
    rwa [Text.chars, Text.chars, Memory.length_text, Memory.length_text] at hlength
  have htext : t' = t := by
    cases t'
    cases t
    simp only at haddr hlen
    rw [haddr, hlen]
  subst htext
  refine Prod.ext (funext fun b => ?_) rfl
  by_cases hb : ∀ i < t'.len, b ≠ t'.addr + BitVec.ofNat 64 i
  · exact hkeeps b hb
  · push Not at hb
    obtain ⟨i, hi, rfl⟩ := hb
    exact Memory.eq_of_text_eq mem' hchars hi

/-- {lit}`compact-filename` stays within its text and compacts it: the normal form stays, nothing
superfluous is left, and the result is not changed any further. -/
theorem compactFilename_spec (mem : Memory 64 Byte) (t : Text) (h : t.len < 2 ^ 64) :
    let r := compactFilename mem t
    r.2.addr = t.addr ∧ r.2.len ≤ t.len ∧ Keeps t mem r.1 ∧
      normalForm (r.2.chars r.1) = normalForm (t.chars mem) ∧ IsCompact (r.2.chars r.1) ∧
      compactFilename r.1 r.2 = r := by
  obtain ⟨haddr, hlen, hkeeps, hchars⟩ := compactFilename_compacted mem t h
  refine ⟨haddr, hlen, hkeeps, by rw [hchars, normalForm_compacted], ?_, ?_⟩
  · rw [hchars]
    exact compacted_isCompact _
  · refine (compactFilename_compacted _ _ (hlen.trans_lt h)).eq_of_chars_eq ?_
    rw [hchars, compacted_compacted]

/-- The path {lit}`a/../b` -/
theorem compactFilename_spec_six :
    let mem := Memory.store (fun _ => 0#8) 0#64 [0x61#8, slash, dot, dot, slash, 0x62#8]
    let r := compactFilename mem ⟨0#64, 6⟩
    6 < 2 ^ 64 ∧ r.2.addr = 0#64 ∧ r.2.len ≤ 6 ∧
      normalForm (r.2.chars r.1) = (false, [[0x62#8]]) ∧ IsCompact (r.2.chars r.1) := by
  intro mem r
  obtain ⟨haddr, hlen, -, hnormal, hcompact, -⟩ := compactFilename_spec mem ⟨0#64, 6⟩ (by decide)
  exact ⟨by decide, haddr, hlen, hnormal.trans (by decide), hcompact⟩

end Texts
end Gforth
