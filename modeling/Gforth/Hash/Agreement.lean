import Gforth.Hash.Table

/-!
# Agreement of buckets and linked lists

An entry in a bucket belongs to one wordlist index: the bucket number exclusive-or
the key of its name.  Seen per index, entering a word changes one index only, so the
agreement of a wordlist with its linked list is a statement about its own index, and
indices that were not allocated yet have no entries.  A table that doubles while
wordlists are being filled comes back with all wordlists filled; entering further
words then repeats entries behind those that are found first.

Main results:

- Theorem {lit}`inithash_spec`: a new index for a wordlist, and its words entered.
- Theorem {lit}`addall_spec`: all wordlists entered into an empty table.
- Theorem {lit}`hashdouble_spec`: the doubled table agrees with all wordlists.
-/

namespace Gforth
namespace Hash

open Lib

/-! ## Searching lists -/

/-- A new word at the end of a list is found last. -/
theorem listlfind_append (name : List Byte) (l : List Nt) (nt : Nt) :
    listlfind name (l ++ [nt]) =
      (listlfind name l).or (if nameMatches name nt.name then some nt else none) := by
  induction l with
  | nil => rfl
  | cons x l ih =>
      rw [List.cons_append, listlfind, listlfind]
      split
      · rfl
      · exact ih

/-- A word with the name is found. -/
theorem listlfind_ne_none {name : List Byte} {l : List Nt} {nt : Nt} (hnt : nt ∈ l)
    (hname : nameMatches name nt.name = true) : listlfind name l ≠ none := by
  induction l with
  | nil => cases hnt
  | cons x l ih =>
      rw [listlfind]
      split
      · simp
      · rename_i hx
        rcases List.mem_cons.mp hnt with rfl | hnt
        · exact absurd hname hx
        · exact ih hnt

/-- The latest word with the name, up to ASCII case. -/
theorem listlfind_eq_find (name : List Byte) (l : List Nt) :
    listlfind name l = l.find? fun nt => SameName name nt.name := by
  induction l with
  | nil => rfl
  | cons x l ih =>
      rw [listlfind, List.find?_cons, ih]
      by_cases hx : nameMatches name x.name = true
      · rw [if_pos hx, decide_eq_true (nameMatches_iff.mp hx)]
      · rw [if_neg hx, decide_eq_false fun h => hx (nameMatches_iff.mpr h)]

/-! ## Entries per index -/

/-- What a search for the name finds in a wordlist with index {lit}`i`. -/
def view (hashbits : Nat) (B : Nat → List Nt) (i : Nat) (name : List Byte) : Option Nt :=
  listlfind name (B (i ^^^ hash hashbits name))

/-- A word entered for the index {lit}`e` is seen under that index only. -/
theorem view_insert (hashbits : Nat) (B : Nat → List Nt) (insRule : Bool) (nt : Nt)
    (e i : Nat) (name : List Byte) :
    view hashbits (Function.update B (e ^^^ hash hashbits nt.name)
        (insertWord insRule nt (B (e ^^^ hash hashbits nt.name)))) i name =
      if i = e ∧ nameMatches name nt.name = true then
        if insRule then some nt else (view hashbits B i name).or (some nt)
      else view hashbits B i name := by
  unfold view
  by_cases hname : nameMatches name nt.name = true
  · have hhash := hash_congr (nameMatches_iff.mp hname) hashbits
    by_cases hi : i = e
    · rw [if_pos ⟨hi, hname⟩, hi, hhash, Function.update_self, insertWord]
      split
      · rw [listlfind, if_pos hname]
      · rw [listlfind_append, if_pos hname]
    · rw [if_neg fun h => hi h.1, hhash, Function.update_of_ne]
      exact fun heq => hi (Nat.xor_left_injective heq)
  · rw [if_neg fun h => hname h.2]
    by_cases hb : i ^^^ hash hashbits name = e ^^^ hash hashbits nt.name
    · rw [hb, Function.update_self, insertWord]
      split
      · rw [listlfind, if_neg hname]
      · rw [listlfind_append, if_neg hname, Option.or_none]
    · rw [Function.update_of_ne hb]

/-! ## Agreement -/

/-- The words found in the table for the wordlists in {lit}`D` are those of their linked
lists; their indices are distinct, and no others have entries. -/
structure Agree (D : List Wid) (s : State) (B : Nat → List Nt) : Prop where
  represents : Represents s B
  table : s.hashTable = some s.hashlen ∨ (s.hashTable = none ∧ s.hashIndex = 0)
  index_lt : s.hashIndex < s.hashlen
  pop_lt : s.hashPop < 2 * s.hashlen
  fresh : ∀ i, s.hashIndex ≤ i → i < s.hashlen → ∀ name, view s.hashbits B i name = none
  extend_lt : ∀ w ∈ D, (s.wordlist w).extend < s.hashIndex
  extend_inj : ∀ w ∈ D, ∀ w' ∈ D, (s.wordlist w).extend = (s.wordlist w').extend → w = w'
  find_eq : ∀ w ∈ D, ∀ name,
    view s.hashbits B (s.wordlist w).extend name = listlfind name (s.wordlist w).id

variable {s : State} {B : Nat → List Nt} {double : State → Option State} {D : List Wid}

/-- Fewer wordlists -/
theorem Agree.mono {D D' : List Wid} (h : Agree D s B) (hD : ∀ w ∈ D', w ∈ D) : Agree D' s B :=
  ⟨h.represents, h.table, h.index_lt, h.pop_lt, h.fresh, fun w hw => h.extend_lt w (hD w hw),
    fun w hw w' hw' => h.extend_inj w (hD w hw) w' (hD w' hw'),
    fun w hw => h.find_eq w (hD w hw)⟩

/-- The wordlists have the same maps and words; only their indices may differ. -/
structure SameDict (s s' : State) : Prop where
  voclink : s'.voclink = s.voclink
  map : ∀ w, (s'.wordlist w).map = (s.wordlist w).map
  id : ∀ w, (s'.wordlist w).id = (s.wordlist w).id

theorem SameDict.rfl : SameDict s s :=
  ⟨Eq.refl _, fun _ => Eq.refl _, fun _ => Eq.refl _⟩

theorem SameDict.trans {s s' s'' : State} (h : SameDict s s') (h' : SameDict s' s'') :
    SameDict s s'' :=
  ⟨h'.voclink.trans h.voclink, fun w => (h'.map w).trans (h.map w),
    fun w => (h'.id w).trans (h.id w)⟩

/-- The same wordlists are hashed. -/
theorem SameDict.hashedAmong {s s' : State} (h : SameDict s s') (ws : List Wid) :
    s'.hashedAmong ws = s.hashedAmong ws := by
  unfold State.hashedAmong
  simp only [h.map]

theorem SameDict.hashedVocs {s s' : State} (h : SameDict s s') :
    s'.hashedVocs = s.hashedVocs := by
  rw [State.hashedVocs, State.hashedVocs, h.voclink, h.hashedAmong]

/-- The same words are counted. -/
theorem SameDict.wordsOf {s s' : State} (h : SameDict s s') (ws : List Wid) :
    s'.wordsOf ws = s.wordsOf ws := by
  unfold State.wordsOf
  simp only [h.id]

theorem SameDict.words {s s' : State} (h : SameDict s s') : s'.words = s.words := by
  rw [State.words, State.words, h.hashedVocs, h.wordsOf]

theorem SameButNodes.sameDict {s s' : State} (h : SameButNodes s s') : SameDict s s' :=
  ⟨h.voclink, fun w => by rw [h.wordlist], fun w => by rw [h.wordlist]⟩

/-! ## Counters -/

/-- Bounds on the counters of a table that had {lit}`b` bits, {lit}`i` indices and
{lit}`p` words at some earlier time, in a dictionary with {lit}`n` hashed wordlists and
{lit}`m` words: every doubling since then may have repeated all of them. -/
structure Counts (n m b i p : Nat) (s : State) : Prop where
  bits_le : b ≤ s.hashbits
  index_le : s.hashIndex ≤ i + n * (2 ^ (s.hashbits - b) - 1)
  pop_le : s.hashPop ≤ p + m * (s.hashbits - b)

/-- After a doubling the bounds for the time before it hold, too. -/
theorem Counts.of_double {n m b i p b₁ : Nat} (h : Counts n m (b₁ + 1) n m s) (hb : b ≤ b₁) :
    Counts n m b i p s := by
  have hbits := h.bits_le
  refine ⟨by omega, le_trans h.index_le ?_, le_trans h.pop_le ?_⟩
  · obtain ⟨d, hd⟩ : ∃ d, s.hashbits - b = s.hashbits - (b₁ + 1) + 1 + d :=
      ⟨b₁ - b, by omega⟩
    rw [hd]
    have hpos : 1 ≤ 2 ^ (s.hashbits - (b₁ + 1)) := Nat.one_le_two_pow
    have hle : 2 ^ (s.hashbits - (b₁ + 1)) ≤
        2 ^ (s.hashbits - (b₁ + 1) + 1 + d) - 1 := by
      have hstep : 2 ^ (s.hashbits - (b₁ + 1) + 1) ≤ 2 ^ (s.hashbits - (b₁ + 1) + 1 + d) :=
        Nat.pow_le_pow_right (by decide) (by omega)
      rw [pow_succ] at hstep
      omega
    calc n + n * (2 ^ (s.hashbits - (b₁ + 1)) - 1)
        = n * 2 ^ (s.hashbits - (b₁ + 1)) := by
          rw [Nat.mul_sub_one, Nat.add_sub_cancel' (Nat.le_mul_of_pos_right n hpos)]
      _ ≤ n * (2 ^ (s.hashbits - (b₁ + 1) + 1 + d) - 1) := Nat.mul_le_mul_left n hle
      _ ≤ i + n * (2 ^ (s.hashbits - (b₁ + 1) + 1 + d) - 1) := Nat.le_add_left _ _
  · calc m + m * (s.hashbits - (b₁ + 1))
        = m * (s.hashbits - (b₁ + 1) + 1) := by ring
      _ ≤ m * (s.hashbits - b) := Nat.mul_le_mul_left m (by omega)
      _ ≤ p + m * (s.hashbits - b) := Nat.le_add_left _ _

/-- From four on, squares are below powers of two. -/
theorem mul_self_le_two_pow {n : Nat} (hn : 4 ≤ n) : n * n ≤ 2 ^ n := by
  induction n, hn using Nat.le_induction with
  | base => decide
  | succ n hn ih =>
      rw [pow_succ]
      nlinarith

/-- A table with that many words is not large compared to the number of words. -/
theorem bits_le_of_pop {M n : Nat} (h : 2 ^ n ≤ M * n) : n ≤ 4 * M := by
  by_contra hlt
  by_cases hn : 4 ≤ n
  · have hsq := mul_self_le_two_pow hn
    have hM : M * n < n * n := Nat.mul_lt_mul_of_pos_right (by omega) (by omega)
    omega
  · obtain rfl : M = 0 := by omega
    have := Nat.two_pow_pos n
    omega

/-! ## Doubling as an assumption

The specifications of the operations below assume that a doubling inside of them does
what {lit}`hashdouble_spec` says at the end, which is proved from them by induction on the
number of further doublings.
-/

/-- A doubled table: it agrees with all hashed wordlists. -/
structure Doubled (s s' : State) (B' : Nat → List Nt) : Prop where
  sameDict : SameDict s s'
  insRule : s'.insRule = s.insRule
  agree : Agree s.hashedVocs s' B'
  counts : Counts s.hashedVocs.length s.words (s.hashbits + 1) s.hashedVocs.length s.words s'

/-- Doubling works on every table for the dictionary of {lit}`s₀` that has at least
{lit}`b` bits and is not large compared to {lit}`M` words. -/
def DoubleOk (double : State → Option State) (s₀ : State) (b M : Nat) : Prop :=
  ∀ s B, SameDict s₀ s → b ≤ s.hashbits → s.hashbits + 1 ≤ 4 * M → Represents s B →
    s.hashTable = some s.hashlen → ∃ s' B', double s = some s' ∧ Doubled s s' B'

theorem DoubleOk.of_sameDict {s₀ s : State} {b M : Nat} (h : DoubleOk double s₀ b M)
    (hs : SameDict s₀ s) : DoubleOk double s b M :=
  fun s' B hs' => h s' B (hs.trans hs')

/-! ## Filling one wordlist -/

/-- The wordlists in {lit}`D` agree with their linked lists, and the wordlist {lit}`w`,
with an index of its own, agrees with the words {lit}`l`. -/
structure Filling (D : List Wid) (w : Wid) (l : List Nt) (s : State) (B : Nat → List Nt) :
    Prop where
  agree : Agree D s B
  extend_lt : (s.wordlist w).extend < s.hashIndex
  extend_ne : ∀ w' ∈ D, (s.wordlist w').extend ≠ (s.wordlist w).extend
  find_eq : ∀ name, view s.hashbits B (s.wordlist w).extend name = listlfind name l

/-- A filled wordlist is one of those that agree. -/
theorem Filling.agree_cons {w : Wid} (h : Filling D w (s.wordlist w).id s B) :
    Agree (w :: D) s B := by
  refine ⟨h.agree.represents, h.agree.table, h.agree.index_lt, h.agree.pop_lt, h.agree.fresh,
    ?_, ?_, ?_⟩
  · intro w' hw'
    rcases List.mem_cons.mp hw' with rfl | hw'
    · exact h.extend_lt
    · exact h.agree.extend_lt w' hw'
  · intro w₁ hw₁ w₂ hw₂ heq
    rcases List.mem_cons.mp hw₁ with h₁ | h₁ <;> rcases List.mem_cons.mp hw₂ with h₂ | h₂
    · rw [h₁, h₂]
    · subst h₁
      exact absurd heq.symm (h.extend_ne w₂ h₂)
    · subst h₂
      exact absurd heq (h.extend_ne w₁ h₁)
    · exact h.agree.extend_inj w₁ h₁ w₂ h₂ heq
  · intro w' hw'
    rcases List.mem_cons.mp hw' with rfl | hw'
    · exact h.find_eq
    · exact h.agree.find_eq w' hw'

/-- A table that agrees with all wordlists has every one of them filled. -/
theorem Agree.filling {D D' : List Wid} {w : Wid} (h : Agree D' s B) (hw : w ∈ D')
    (hD : ∀ w' ∈ D, w' ∈ D') (hwD : w ∉ D) : Filling D w (s.wordlist w).id s B := by
  refine ⟨h.mono hD, h.extend_lt w hw, ?_, h.find_eq w hw⟩
  intro w' hw' heq
  exact hwD (h.extend_inj w' (hD w' hw') w hw heq ▸ hw')

/-- A hashed wordlist has a table. -/
theorem Agree.table_of_extend (h : Agree D s B) {i : Nat} (hi : i < s.hashIndex) :
    s.hashTable = some s.hashlen := by
  rcases h.table with htable | ⟨-, hzero⟩
  · exact htable
  · omega

/-- Entries of an index outside of {lit}`D` do not matter for {lit}`D`. -/
theorem Agree.of_view {s s' : State} {B B' : Nat → List Nt} (h : Agree D s B)
    (hsame : SameButNodes s s') (hrep : Represents s' B') {e : Nat} (he : e < s.hashIndex)
    (hne : ∀ w ∈ D, (s.wordlist w).extend ≠ e)
    (hview : ∀ i ≠ e, ∀ name, view s.hashbits B' i name = view s.hashbits B i name) :
    Agree D s' B' := by
  have hlen : s'.hashlen = s.hashlen := by rw [State.hashlen, State.hashlen, hsame.hashbits]
  refine ⟨hrep, ?_, ?_, ?_, ?_, ?_, ?_, ?_⟩
  · rw [hsame.hashTable, hlen, hsame.hashIndex]
    exact h.table
  · rw [hsame.hashIndex, hlen]
    exact h.index_lt
  · rw [hsame.hashPop, hlen]
    exact h.pop_lt
  · intro i hi hlt name
    rw [hsame.hashIndex] at hi
    rw [hlen] at hlt
    rw [hsame.hashbits, hview i (by omega) name, h.fresh i hi hlt name]
  · intro w hw
    rw [hsame.wordlist, hsame.hashIndex]
    exact h.extend_lt w hw
  · rw [hsame.wordlist]
    exact h.extend_inj
  · intro w hw name
    rw [hsame.wordlist, hsame.hashbits, hview _ (hne w hw) name, h.find_eq w hw name]

/-- Flags and the number of words do not matter, as long as the table is not full. -/
theorem Agree.of_flags (h : Agree D s B) (insRule revealed : Bool) {hashPop : Nat}
    (hpop : hashPop < 2 * s.hashlen) :
    Agree D { s with insRule := insRule, revealed := revealed, hashPop := hashPop } B :=
  ⟨h.represents.of_nodes rfl rfl rfl, h.table, h.index_lt, hpop, h.fresh, h.extend_lt,
    h.extend_inj, h.find_eq⟩

/-- {lit}`hash-alloc` of no index: nothing happens, or the table doubles. -/
theorem hashAlloc_zero (htable : s.hashTable = some s.hashlen) (hindex : s.hashIndex < s.hashlen) :
    hashAlloc double 0 s =
      if 2 * s.hashlen ≤ s.hashPop then (double s).map fun s' => (s.hashIndex, s')
      else some (s.hashIndex, s) := by
  have hcond : (s.hashlen ≤ s.hashIndex ∨ 2 * s.hashlen ≤ s.hashPop) ↔
      2 * s.hashlen ≤ s.hashPop := or_iff_right (Nat.not_le.mpr hindex)
  have halloc : allocTable s = s := if_neg (by simp [htable])
  rw [hashAlloc, halloc]
  exact ite_congr (propext hcond) (fun _ => rfl) fun _ => rfl

section

variable {double : State → Option State} {D : List Wid} {w : Wid}

variable {B : Nat → List Nt}

/-- The words of {lit}`w` that were found before the next one is entered, and after. -/
theorem Filling.enter {s s' : State} {front back l : List Nt} {nt : Nt} (h : Filling D w l s B)
    (hid : (s.wordlist w).id = front ++ nt :: back) (hfront : front <+: l)
    (hl : l <+: (s.wordlist w).id) (hrule : s.insRule = false) (hsame : SameButNodes s s')
    (hrep : Represents s' (Function.update B
      ((s.wordlist w).extend ^^^ hash s.hashbits nt.name)
      (insertWord s.insRule nt (B ((s.wordlist w).extend ^^^ hash s.hashbits nt.name))))) :
    ∃ B' l', Filling D w l' s' B' ∧ front ++ [nt] <+: l' ∧ l' <+: (s.wordlist w).id := by
  have hview := view_insert s.hashbits B s.insRule nt (s.wordlist w).extend
  have hagree := h.agree.of_view hsame hrep h.extend_lt h.extend_ne fun i hi name => by
    rw [hview, if_neg fun hand => hi hand.1]
  have hfill : ∀ l', (∀ name, (if nameMatches name nt.name = true then
        (listlfind name l).or (some nt) else listlfind name l) = listlfind name l') →
      ∃ B', Filling D w l' s' B' := by
    intro l' hl'
    refine ⟨_, hagree, ?_, ?_, ?_⟩
    · rw [hsame.wordlist, hsame.hashIndex]
      exact h.extend_lt
    · rw [hsame.wordlist]
      exact h.extend_ne
    · intro name
      rw [hsame.hashbits, hsame.wordlist, hview, hrule, h.find_eq, ← hl']
      simp
  obtain ⟨more, rfl⟩ := hfront
  cases more with
  | nil =>
      rw [List.append_nil] at hfill
      obtain ⟨B', hB'⟩ := hfill (front ++ [nt]) fun name => by
        rw [listlfind_append]
        split
        · rfl
        · rw [Option.or_none]
      exact ⟨B', _, hB', List.prefix_rfl, hid ▸ ⟨back, by simp⟩⟩
  | cons x more =>
      -- the word was entered by a doubling before
      have hx : x = nt := by
        rw [hid, List.prefix_append_right_inj, List.cons_prefix_cons] at hl
        exact hl.1
      subst hx
      obtain ⟨B', hB'⟩ := hfill (front ++ x :: more) fun name => by
        split
        · rename_i hname
          have hne := listlfind_ne_none (l := front ++ x :: more) (by simp) hname
          obtain ⟨y, hy⟩ := Option.ne_none_iff_exists'.mp hne
          rw [hy, Option.some_or]
        · rfl
      exact ⟨B', _, hB', ⟨more, by simp⟩, hl⟩

/-- What filling a wordlist keeps track of besides its entries. -/
structure Progress (s₀ : State) (b i p : Nat) (s : State) : Prop where
  sameDict : SameDict s₀ s
  insRule : s.insRule = false
  counts : Counts s₀.hashedVocs.length s₀.words b i p s

/-- One iteration of the loop of {lit}`inithash`: the next word is entered, or the table
doubles and all words are. -/
theorem revealHash_spec {s₀ s : State} {b i p M : Nat} {nt : Nt} {front back l : List Nt}
    (hdouble : DoubleOk double s₀ b M) (hw : w ∈ s₀.hashedVocs) (hD : ∀ w' ∈ D, w' ∈ s₀.hashedVocs)
    (hwD : w ∉ D) (hid : (s₀.wordlist w).id = front ++ nt :: back)
    (hprogress : Progress s₀ b i (p + front.length) s) (hfill : Filling D w l s B)
    (hfront : front <+: l) (hl : l <+: (s₀.wordlist w).id) (hwords : s₀.words ≤ M)
    (hp : p + (s₀.wordlist w).id.length ≤ M) :
    ∃ s' B' l', revealHash double w s nt = some s' ∧
      Progress s₀ b i (p + (front ++ [nt]).length) s' ∧ Filling D w l' s' B' ∧
      front ++ [nt] <+: l' ∧ l' <+: (s₀.wordlist w).id := by
  have hdict := hprogress.sameDict
  have htable := hfill.agree.table_of_extend hfill.extend_lt
  obtain ⟨s₁, hs₁, hsame, hrep⟩ := enter_spec hfill.agree.represents
    (bucket_eq htable (lt_trans hfill.extend_lt hfill.agree.index_lt) nt.name)
  rw [← hdict.id] at hl hid
  obtain ⟨B₁, l₁, hfill₁, hfront₁, hl₁⟩ :=
    hfill.enter hid hfront hl hprogress.insRule hsame hrep
  rw [hdict.id] at hl₁ hid
  have hlen₁ : s₁.hashlen = s.hashlen := by rw [State.hashlen, State.hashlen, hsame.hashbits]
  -- the state in front of the check for doubling
  let s₂ : State := { s₁ with revealed := true, hashPop := s₁.hashPop + 1 }
  have hdict₁ := hdict.trans hsame.sameDict
  have hdict₂ : SameDict s₀ s₂ := ⟨hdict₁.voclink, hdict₁.map, hdict₁.id⟩
  have hcounts₂ : Counts s₀.hashedVocs.length s₀.words b i (p + (front ++ [nt]).length) s₂ := by
    have hcounts := hprogress.counts
    refine ⟨?_, ?_, ?_⟩
    · exact hsame.hashbits ▸ hcounts.bits_le
    · change s₁.hashIndex ≤ _ + _ * (2 ^ (s₁.hashbits - b) - 1)
      rw [hsame.hashIndex, hsame.hashbits]
      exact hcounts.index_le
    · change s₁.hashPop + 1 ≤ _ + _ * (s₁.hashbits - b)
      rw [hsame.hashPop, hsame.hashbits, List.length_append, List.length_singleton]
      have := hcounts.pop_le
      omega
  have htable₂ : s₂.hashTable = some s₂.hashlen := by
    change s₁.hashTable = some s₁.hashlen
    rw [hsame.hashTable, hlen₁, htable]
  have hreveal : revealHash double w s nt = (hashAlloc double 0 s₂).map (·.2) := by
    simp only [revealHash, hs₁, Option.bind_eq_bind, Option.bind_some]
    rfl
  rw [hreveal, hashAlloc_zero htable₂ hfill₁.agree.index_lt]
  by_cases hfull : 2 * s₂.hashlen ≤ s₂.hashPop
  · have hbits : s₂.hashbits + 1 ≤ 4 * M := by
      refine bits_le_of_pop ?_
      have hlength : (front ++ [nt]).length ≤ (s₀.wordlist w).id.length := by
        rw [hid]
        simp
      calc 2 ^ (s₂.hashbits + 1) = 2 * s₂.hashlen := by rw [State.hashlen, pow_succ']
        _ ≤ p + (front ++ [nt]).length + s₀.words * (s₂.hashbits - b) :=
          le_trans hfull hcounts₂.pop_le
        _ ≤ M + M * s₂.hashbits := by
          have hmul : s₀.words * (s₂.hashbits - b) ≤ M * s₂.hashbits :=
            Nat.mul_le_mul hwords (Nat.sub_le _ _)
          omega
        _ = M * (s₂.hashbits + 1) := by ring
    obtain ⟨s₃, B₃, hs₃, hdoubled⟩ := hdouble s₂ B₁ hdict₂ hcounts₂.bits_le hbits
      (hfill₁.agree.represents.of_nodes rfl rfl rfl) htable₂
    have hdict₃ := hdict₂.trans hdoubled.sameDict
    rw [if_pos hfull, hs₃]
    refine ⟨s₃, B₃, (s₃.wordlist w).id, rfl, ⟨hdict₃, ?_, ?_⟩, ?_, ?_, ?_⟩
    · rw [hdoubled.insRule]
      exact hsame.insRule.trans hprogress.insRule
    · have hcounts := hdoubled.counts
      rw [hdict₂.hashedVocs, hdict₂.words] at hcounts
      exact hcounts.of_double hcounts₂.bits_le
    · have hagree := hdoubled.agree
      rw [hdict₂.hashedVocs] at hagree
      exact hagree.filling hw hD hwD
    · rw [hdict₃.id, hid]
      exact ⟨back, by simp⟩
    · rw [hdict₃.id]
  · rw [if_neg hfull]
    refine ⟨s₂, B₁, l₁, rfl, ⟨hdict₂, hsame.insRule.trans hprogress.insRule, hcounts₂⟩,
      ⟨?_, hfill₁.extend_lt, hfill₁.extend_ne, hfill₁.find_eq⟩, hfront₁, hl₁⟩
    exact hfill₁.agree.of_flags _ _ (Nat.not_le.mp hfull)

/-- Reserving a table changes nothing for the wordlists that have an index. -/
theorem Agree.allocTable {s : State} (h : Agree D s B) :
    ∃ B', Agree D (allocTable s) B' ∧ (allocTable s).hashTable = some s.hashlen := by
  rcases h.table with htable | ⟨htable, hzero⟩
  · have halloc : Hash.allocTable s = s := if_neg (by simp [htable])
    rw [halloc]
    exact ⟨B, h, htable⟩
  · have hnone : ∀ w ∈ D, False := fun w hw => by
      have := h.extend_lt w hw
      omega
    rw [Hash.allocTable, if_pos htable]
    refine ⟨fun _ => [], ⟨?_, Or.inl rfl, h.index_lt, h.pop_lt, fun _ _ _ _ => rfl,
      h.extend_lt, h.extend_inj, fun w hw => (hnone w hw).elim⟩, rfl⟩
    exact h.represents.erase (fun _ => rfl) (Or.inl rfl) (fun _ => rfl) rfl

/-- A new index has no entries. -/
theorem Agree.newIndex {s : State} (h : Agree D s B) (hw : w ∉ D)
    (htable : s.hashTable = some s.hashlen) (hlt : s.hashIndex + 1 < s.hashlen) :
    Filling D w [] (setExtend { s with hashIndex := s.hashIndex + 1 } w s.hashIndex) B := by
  have hother : ∀ w' ∈ D, (setExtend { s with hashIndex := s.hashIndex + 1 } w
      s.hashIndex).wordlist w' = s.wordlist w' := by
    intro w' hw'
    have hne : w' ≠ w := fun heq => hw (heq ▸ hw')
    exact Function.update_of_ne hne _ _
  have hself : ((setExtend { s with hashIndex := s.hashIndex + 1 } w
      s.hashIndex).wordlist w).extend = s.hashIndex := by
    simp [setExtend]
  refine ⟨⟨h.represents.of_nodes rfl rfl rfl, Or.inl htable, hlt, h.pop_lt, ?_, ?_, ?_, ?_⟩,
    ?_, ?_, ?_⟩
  · intro i hi
    exact h.fresh i (Nat.le_of_succ_le hi)
  · intro w' hw'
    rw [hother w' hw']
    exact Nat.lt_succ_of_lt (h.extend_lt w' hw')
  · intro w₁ h₁ w₂ h₂
    rw [hother w₁ h₁, hother w₂ h₂]
    exact h.extend_inj w₁ h₁ w₂ h₂
  · intro w' hw'
    rw [hother w' hw']
    exact h.find_eq w' hw'
  · rw [hself]
    exact Nat.lt_succ_self _
  · intro w' hw'
    rw [hself, hother w' hw']
    exact Nat.ne_of_lt (h.extend_lt w' hw')
  · intro name
    rw [hself]
    exact h.fresh _ le_rfl h.index_lt name

/-- A new table keeps the fields of the dictionary. -/
theorem allocTable_fields (s : State) :
    (allocTable s).hashbits = s.hashbits ∧ (allocTable s).hashIndex = s.hashIndex ∧
      (allocTable s).hashPop = s.hashPop ∧ (allocTable s).insRule = s.insRule ∧
      (allocTable s).voclink = s.voclink ∧ (allocTable s).wordlist = s.wordlist := by
  unfold Hash.allocTable
  split <;> exact ⟨rfl, rfl, rfl, rfl, rfl, rfl⟩

/-- A new index for a wordlist, and all of its words entered. -/
theorem inithash_spec {s : State} {b i p M : Nat} (hdouble : DoubleOk double s b M)
    (h : Agree D s B) (hw : w ∈ s.hashedVocs) (hD : ∀ w' ∈ D, w' ∈ s.hashedVocs) (hwD : w ∉ D)
    (hcounts : Counts s.hashedVocs.length s.words b i p s) (hlt : s.hashIndex + 1 < s.hashlen)
    (hwords : s.words ≤ M) (hp : p + (s.wordlist w).id.length ≤ M) :
    ∃ s' B', inithash double s w = some s' ∧ SameDict s s' ∧ s'.insRule = s.insRule ∧
      Agree (w :: D) s' B' ∧
      Counts s.hashedVocs.length s.words b (i + 1) (p + (s.wordlist w).id.length) s' := by
  obtain ⟨B₁, hagree₁, htable₁⟩ := (h.of_flags false s.revealed h.pop_lt).allocTable
  obtain ⟨hbits, hindex, hpop, hrule, hvoc, hwl⟩ :=
    allocTable_fields { s with insRule := false, revealed := s.revealed, hashPop := s.hashPop }
  revert hagree₁ htable₁ hbits hindex hpop hrule hvoc hwl
  generalize hs₁ : allocTable
    { s with insRule := false, revealed := s.revealed, hashPop := s.hashPop } = s₁
  intro hagree₁ htable₁ hbits hindex hpop hrule hvoc hwl
  dsimp only at hbits hindex hpop hrule hvoc hwl
  have hlen₁ : s₁.hashlen = s.hashlen := by rw [State.hashlen, State.hashlen, hbits]
  have hfill := hagree₁.newIndex hwD (htable₁.trans (congrArg some hlen₁.symm))
    (by rw [hindex, hlen₁]; exact hlt)
  -- the state in front of the loop
  let s₂ := setExtend { s₁ with hashIndex := s₁.hashIndex + 1 } w s₁.hashIndex
  have halloc : hashAlloc double 1 { s with insRule := false } =
      some (s₁.hashIndex, { s₁ with hashIndex := s₁.hashIndex + 1 }) := by
    rw [hashAlloc, hs₁]
    refine if_neg ?_
    rintro (hge | hge)
    · have : s₁.hashlen ≤ s₁.hashIndex + 1 := hge
      rw [hlen₁, hindex] at this
      exact absurd hlt (Nat.not_lt.mpr this)
    · exact absurd hagree₁.pop_lt (Nat.not_lt.mpr hge)
  have hdict₂ : SameDict s s₂ := by
    refine ⟨hvoc, fun w' => ?_, fun w' => ?_⟩
    · by_cases hw' : w' = w
      · subst hw'
        simp [s₂, setExtend, hwl]
      · simp [s₂, setExtend, hwl, hw']
    · by_cases hw' : w' = w
      · subst hw'
        simp [s₂, setExtend, hwl]
      · simp [s₂, setExtend, hwl, hw']
  have hprogress : Progress s b (i + 1) (p + ([] : List Nt).length) s₂ := by
    refine ⟨hdict₂, hrule, ?_, ?_, ?_⟩
    · change b ≤ s₁.hashbits
      rw [hbits]
      exact hcounts.bits_le
    · change s₁.hashIndex + 1 ≤ _ + _ * (2 ^ (s₁.hashbits - b) - 1)
      rw [hindex, hbits]
      have := hcounts.index_le
      omega
    · change s₁.hashPop ≤ _ + _ * (s₁.hashbits - b)
      rw [hpop, hbits]
      exact hcounts.pop_le
  obtain ⟨s₃, hs₃, hprogress₃, B₃, l₃, hfill₃, hfront₃, hl₃⟩ := foldlM_option_run
    (f := revealHash double w) (l := (s.wordlist w).id) (b := s₂)
    (P := fun front s' => Progress s b (i + 1) (p + front.length) s' ∧ ∃ B' l,
      Filling D w l s' B' ∧ front <+: l ∧ l <+: (s.wordlist w).id)
    ⟨hprogress, B₁, [], hfill, List.prefix_rfl, List.nil_prefix⟩
    (by
      rintro front nt back s' hid ⟨hprogress', B', l, hfill', hfront, hl⟩
      obtain ⟨s'', B'', l', hs'', hprogress'', hfill'', hfront', hl'⟩ :=
        revealHash_spec hdouble hw hD hwD hid hprogress' hfill' hfront hl hwords hp
      exact ⟨s'', hs'', hprogress'', B'', l', hfill'', hfront', hl'⟩)
  have hl : l₃ = (s₃.wordlist w).id := by
    rw [hprogress₃.sameDict.id]
    exact (hl₃.eq_of_length_le hfront₃.length_le)
  subst hl
  refine ⟨{ s₃ with insRule := s.insRule }, B₃, ?_, ?_, rfl, ?_, ?_⟩
  · have hid₂ : ((setExtend { s₁ with hashIndex := s₁.hashIndex + 1 } w
        s₁.hashIndex).wordlist w).id = (s.wordlist w).id := hdict₂.id w
    simp only [inithash, halloc, Option.bind_eq_bind, Option.bind_some, hid₂]
    rw [hs₃]
    rfl
  · exact ⟨hprogress₃.sameDict.voclink, hprogress₃.sameDict.map, hprogress₃.sameDict.id⟩
  · exact hfill₃.agree_cons.of_flags s.insRule s₃.revealed hfill₃.agree.pop_lt
  · exact ⟨hprogress₃.counts.bits_le, hprogress₃.counts.index_le, hprogress₃.counts.pop_le⟩

end

/-! ## Filling all wordlists -/

/-- A table without entries and without allocated indices. -/
structure Cleared (s : State) (B : Nat → List Nt) : Prop where
  represents : Represents s B
  table : s.hashTable = some s.hashlen ∨ s.hashTable = none
  index_eq : s.hashIndex = 0
  empty : ∀ b < s.hashlen, B b = []

/-- Without entries there is nothing to agree with. -/
theorem Cleared.agree (h : Cleared s B) : Agree [] { s with hashPop := 0 } B := by
  have hpos : 0 < s.hashlen := Nat.two_pow_pos _
  refine ⟨h.represents.of_nodes rfl rfl rfl, ?_, ?_, Nat.mul_pos (by decide) hpos, ?_, ?_, ?_, ?_⟩
  · exact h.table.imp id fun hnone => ⟨hnone, h.index_eq⟩
  · exact lt_of_eq_of_lt h.index_eq hpos
  · intro i _ hi name
    have hlt := Nat.xor_lt_two_pow hi (hash_lt s.hashbits name)
    simp only [view]
    rw [h.empty _ hlt]
    rfl
  · simp
  · simp
  · simp

theorem hashedAmong_append (s : State) (ws ws' : List Wid) :
    s.hashedAmong (ws ++ ws') = s.hashedAmong ws ++ s.hashedAmong ws' :=
  List.filter_append ws ws'

theorem wordsOf_append (s : State) (ws ws' : List Wid) :
    s.wordsOf (ws ++ ws') = s.wordsOf ws + s.wordsOf ws' := by
  simp [State.wordsOf]

/-- Where the filling of all wordlists stands after those in {lit}`front`. -/
structure Added (s₀ : State) (front : List Wid) (s : State) : Prop where
  sameDict : SameDict s₀ s
  insRule : s.insRule = s₀.insRule
  agree : ∃ B, Agree (s₀.hashedAmong front) s B
  counts : Counts s₀.hashedVocs.length s₀.words s₀.hashbits (s₀.hashedAmong front).length
    (s₀.wordsOf (s₀.hashedAmong front)) s

/-- One iteration of the loop of {lit}`addall`, for a hashed wordlist. -/
theorem Added.inithash {s₀ s : State} {M : Nat} {front back : List Wid} {w : Wid}
    (hdouble : DoubleOk double s₀ s₀.hashbits M) (hn : s₀.hashedVocs.length < s₀.hashlen)
    (hwords : s₀.words ≤ M) (hnodup : s₀.voclink.Nodup) (hvoc : s₀.voclink = front ++ w :: back)
    (hw : (s₀.wordlist w).map.hashed = true) (h : Added s₀ front s) :
    ∃ s', Hash.inithash double s w = some s' ∧ Added s₀ (front ++ [w]) s' := by
  obtain ⟨B, hagree⟩ := h.agree
  have hamong : s₀.hashedAmong (front ++ [w]) = s₀.hashedAmong front ++ [w] := by
    rw [hashedAmong_append]
    simp [State.hashedAmong, hw]
  have hvocs : s₀.hashedVocs = s₀.hashedAmong front ++ w :: s₀.hashedAmong back := by
    rw [State.hashedVocs, hvoc, List.append_cons, hashedAmong_append, hamong, List.append_assoc,
      List.singleton_append]
  have hlength : (s₀.hashedAmong front).length + 1 ≤ s₀.hashedVocs.length := by
    rw [hvocs]
    simp
  have hsum : s₀.wordsOf (s₀.hashedAmong front) + (s₀.wordlist w).id.length ≤ s₀.words := by
    rw [State.words, hvocs, wordsOf_append]
    simp [State.wordsOf]
  have hlt : s.hashIndex + 1 < s.hashlen := by
    have hindex := h.counts.index_le
    have hbits := h.counts.bits_le
    have hsplit : s.hashlen = s₀.hashlen * 2 ^ (s.hashbits - s₀.hashbits) := by
      rw [State.hashlen, State.hashlen, ← pow_add, Nat.add_sub_cancel' hbits]
    have hpos : 0 < 2 ^ (s.hashbits - s₀.hashbits) := Nat.two_pow_pos _
    calc s.hashIndex + 1
        ≤ s₀.hashedVocs.length +
            s₀.hashedVocs.length * (2 ^ (s.hashbits - s₀.hashbits) - 1) := by omega
      _ = s₀.hashedVocs.length * 2 ^ (s.hashbits - s₀.hashbits) := by
          rw [Nat.mul_sub_one, Nat.add_sub_cancel' (Nat.le_mul_of_pos_right _ hpos)]
      _ < s₀.hashlen * 2 ^ (s.hashbits - s₀.hashbits) := Nat.mul_lt_mul_of_pos_right hn hpos
      _ = s.hashlen := hsplit.symm
  have hdict := h.sameDict
  have hcounts := h.counts
  rw [← hdict.hashedVocs, ← hdict.words] at hcounts
  have hsub : ∀ w' ∈ s₀.hashedAmong front, w' ∈ s.hashedVocs := by
    intro w' hw'
    rw [hdict.hashedVocs, hvocs]
    exact List.mem_append_left _ hw'
  have hnot : w ∉ s₀.hashedAmong front := by
    intro hmem
    rw [hvoc] at hnodup
    exact (List.nodup_middle.mp hnodup).notMem
      (List.mem_append_left _ (List.mem_of_mem_filter hmem))
  obtain ⟨s', B', hs', hdict', hrule', hagree', hcounts'⟩ :=
    inithash_spec (hdouble.of_sameDict hdict) hagree
      (by rw [hdict.hashedVocs, hvocs]; simp) hsub hnot hcounts hlt
      (by rwa [hdict.words]) (by rw [hdict.id]; exact le_trans hsum hwords)
  refine ⟨s', hs', hdict.trans hdict', hrule'.trans h.insRule, ⟨B', hagree'.mono ?_⟩, ?_⟩
  · intro w' hw'
    rw [hamong] at hw'
    simpa [or_comm] using hw'
  · rw [hdict.hashedVocs, hdict.words, hdict.id] at hcounts'
    rw [hamong, List.length_append, wordsOf_append]
    simpa [State.wordsOf] using hcounts'

/-- All wordlists are entered into an empty table. -/
theorem addall_spec {M : Nat} (hdouble : DoubleOk double s s.hashbits M) (hclear : Cleared s B)
    (hn : s.hashedVocs.length < s.hashlen) (hwords : s.words ≤ M) (hnodup : s.voclink.Nodup) :
    ∃ s', addall double s = some s' ∧ Added s s.voclink s' := by
  have hstart : Added s [] { s with hashPop := 0 } := by
    refine ⟨⟨rfl, fun _ => rfl, fun _ => rfl⟩, rfl, ⟨B, hclear.agree⟩, le_rfl, ?_, ?_⟩
    · change s.hashIndex ≤ _
      rw [hclear.index_eq]
      exact Nat.zero_le _
    · exact Nat.zero_le _
  refine foldlM_option_run hstart ?_
  intro front w back s' hvoc hadded
  by_cases hw : (s.wordlist w).map.hashed = true
  · simp only [hadded.sameDict.map, hw, if_true]
    exact hadded.inithash hdouble hn hwords hnodup hvoc hw
  · have hamong : s.hashedAmong (front ++ [w]) = s.hashedAmong front := by
      rw [hashedAmong_append]
      simp [State.hashedAmong, hw]
    refine ⟨s', by simp only [hadded.sameDict.map, hw]; rfl, hadded.sameDict, hadded.insRule,
      ?_, ?_⟩
    · rw [hamong]
      exact hadded.agree
    · rw [hamong]
      exact hadded.counts

/-! ## Clearing and doubling -/

/-- Clearing the table. -/
theorem clearhash_spec (h : Represents s B) (htable : s.hashTable = some s.hashlen) :
    ∃ s' B', clearhash s = some s' ∧ SameDict s s' ∧ s'.hashbits = s.hashbits ∧
      s'.insRule = s.insRule ∧ Cleared s' B' := by
  obtain ⟨s₁, B₁, hs₁, hsame, hrep, hempty⟩ := clearBuckets_spec h htable
  have hlen : s₁.hashlen = s.hashlen := by rw [State.hashlen, State.hashlen, hsame.hashbits]
  refine ⟨{ s₁ with hashIndex := 0, wordlist := resetExtends s₁ }, B₁, ?_, ?_, hsame.hashbits,
    hsame.insRule, hrep.of_nodes rfl rfl rfl, ?_, rfl, ?_⟩
  · simp only [clearhash, hs₁, Option.bind_eq_bind, Option.bind_some]
  · refine ⟨hsame.voclink, fun w => ?_, fun w => ?_⟩
    · simp only [resetExtends]
      rw [← hsame.wordlist]
      split <;> rfl
    · simp only [resetExtends]
      rw [← hsame.wordlist]
      split <;> rfl
  · left
    change s₁.hashTable = some s₁.hashlen
    rw [hsame.hashTable, hlen, htable]
  · intro b hb
    exact hempty b (hlen ▸ hb)

theorem dropTable_cleared (h : Represents s B) (hindex : s.hashIndex = 0) :
    Cleared (dropTable s) fun _ => [] :=
  ⟨h.erase (fun _ => rfl) (Or.inl rfl) (fun _ => rfl) rfl, Or.inr rfl, hindex, fun _ _ => rfl⟩

/-- With enough fuel for a dictionary of {lit}`M` words, a doubling and all doublings
inside of it succeed, and the new table agrees with all wordlists. -/
theorem hashdouble_spec {s₀ : State} {M : Nat} (hnodup : s₀.voclink.Nodup)
    (hwords : s₀.words ≤ M) (fuel : Nat) :
    ∀ b, s₀.hashedVocs.length < 2 ^ b → 4 * M ≤ fuel + b →
      DoubleOk (hashdouble fuel) s₀ b M := by
  induction fuel with
  | zero =>
      intro b _ hfuel s B _ hb hbits _ _
      omega
  | succ fuel ih =>
      intro b hn hfuel s B hdict hb hbits hrep htable
      obtain ⟨s₁, B₁, hs₁, hdict₁, hbits₁, hrule₁, hclear₁⟩ := clearhash_spec hrep htable
      -- the dictionary with an empty table of twice the size
      let s₂ := dropTable { s₁ with hashbits := s₁.hashbits + 1 }
      have hdict₂ : SameDict s s₂ := ⟨hdict₁.voclink, hdict₁.map, hdict₁.id⟩
      have hbits₂ : s₂.hashbits = s.hashbits + 1 := congrArg (· + 1) hbits₁
      have hclear₂ : Cleared s₂ fun _ => [] :=
        dropTable_cleared (hclear₁.represents.of_nodes rfl rfl rfl) hclear₁.index_eq
      have hall := hdict.trans hdict₂
      have hn₂ : s₀.hashedVocs.length < 2 ^ s₂.hashbits :=
        lt_of_lt_of_le hn (Nat.pow_le_pow_right (by decide) (by omega))
      have hdouble := (ih s₂.hashbits hn₂ (by omega)).of_sameDict hall
      obtain ⟨s₃, hs₃, hadded⟩ := addall_spec hdouble hclear₂
        (by rw [hall.hashedVocs]; exact hn₂) (by rw [hall.words]; exact hwords)
        (by rw [hall.voclink]; exact hnodup)
      obtain ⟨B₃, hagree⟩ := hadded.agree
      refine ⟨s₃, B₃, ?_, hdict₂.trans hadded.sameDict, hadded.insRule.trans hrule₁, ?_, ?_⟩
      · simp only [hashdouble, hs₁, Option.bind_eq_bind, Option.bind_some]
        exact hs₃
      · rw [← hdict₂.hashedVocs]
        exact hagree
      · have hcounts := hadded.counts
        rw [hbits₂] at hcounts
        rw [← hdict₂.hashedVocs, ← hdict₂.words]
        exact hcounts

end Hash
end Gforth
