import Gforth.Objects.Steps

/-!
# Method dispatch

What a selector executes on an object, and what {lit}`<bind>` returns, is what the history of the
program selects.

Main results:

- Theorem {lit}`dispatch_correct`: this holds for all programs.
-/

namespace Gforth
namespace Objects

variable {X : Type} {h : History X} {st : State X} (around : Nat → Map X)

/-! ## Overriding -/

/-- An overriding word gives a selector that the class has another execution token. -/
theorem History.lookup_overrides (hwf : h.WellFormed) (s s' : Nat) (xt : X) :
    (h.say (.overrides s xt)).lookup s' h.latest =
      if s = s' then some xt else h.lookup s' h.latest := by
  have hsay := lookup_say hwf (fun i hi => (by cases hi)) s' (e := .overrides s xt)
  refine hsay.trans ?_
  simp only [given, Event.said?]
  split <;> rfl

/-- An overridden method belongs to the class. -/
theorem History.has_of_overrides (hwf : h.WellFormed) {s : Nat} {xt : X} (hs : h.Has h.latest s)
    {s' : Nat} (hs' : (h.say (.overrides s xt)).Has h.latest s') : h.Has h.latest s' := by
  rw [Has, lookup_overrides hwf] at hs'
  by_cases heq : s = s'
  · exact heq ▸ hs
  · rwa [if_neg heq] at hs'

/-- A method in the map of the current class is replaced. -/
def State.withOwn (st : State X) (offset : Int) (xt : X) : State X :=
  st.set { st.currentDef with map := Function.update st.currentDef.map offset (.xt xt) }

/-- Only an own cell changes. -/
theorem CellsOnly.withOwn (st : State X) (offset : Int) (xt : X) :
    CellsOnly st (st.withOwn offset xt) where
  defCount := rfl
  current := rfl
  selectorCount := rfl
  selectors := rfl
  lastInterfaceOffset := rfl
  next := le_rfl
  other d hd := Function.update_of_ne hd _ _
  defs d := by
    rcases eq_or_ne d st.current with rfl | hd
    · exact ⟨_, Function.update_self _ _ _⟩
    · exact ⟨_, Function.update_of_ne hd _ _⟩

theorem withOwn_map (st : State X) (offset : Int) (xt : X) :
    ((st.withOwn offset xt).defs st.current).map =
      Function.update (st.defs st.current).map offset (.xt xt) := by
  simp [State.withOwn, State.set, State.currentDef]

/-- Everything agrees after a selector of a class has been overridden. -/
theorem Agrees.withOwn (ha : Agrees h st) (hclass : (h.entries h.latest).isClass = true) {s : Nat}
    (hs : h.Has h.latest s) (hzero : (st.selectors s).interface = 0) (xt : X)
    (hwf : (h.say (.overrides s xt)).WellFormed) :
    Agrees (h.say (.overrides s xt)) (st.withOwn (st.selectors s).offset xt) := by
  have hcells := CellsOnly.withOwn st (st.selectors s).offset xt
  have hmap := withOwn_map st (st.selectors s).offset xt
  rw [ha.current] at hmap
  have hpos : 1 ≤ (st.selectors s).offset ∧ (st.selectors s).offset < (st.defs h.latest).stop := by
    obtain ⟨xt', hs'⟩ := hs
    cases (ha.lookup _ le_rfl hclass s xt' hs').2 with
    | own _ hlo hhi => exact ⟨hlo, hhi⟩
    | shared k a _ _ hneg => omega
  have hhas : ∀ {s'}, (h.say (.overrides s xt)).Has h.latest s' → h.Has h.latest s' := fun hs' =>
    History.has_of_overrides ha.wellFormed hs hs'
  have hslot : ∀ s', h.Has h.latest s' → (st.selectors s').interface ≠ 0 →
      ((st.withOwn (st.selectors s).offset xt).defs h.latest).map (st.selectors s').interface =
        (st.defs h.latest).map (st.selectors s').interface := by
    intro s' hs' hne
    obtain ⟨hneg, -⟩ := ha.slot le_rfl hclass hs' hne
    rw [hmap]
    exact Function.update_of_ne (by omega) _ _
  refine ha.changed hclass (.say hclass _) hwf hcells ?_ ?_ ?_ ?_ ?_
  · rw [hmap, Function.update_of_ne (by omega)]
    exact ha.self _ le_rfl
  · intro c hc hcc s' xt' hs'
    have hother := hcells.other c (by rw [ha.current]; omega)
    exact hcells.holds (ha.lookup c (Nat.le_of_lt hc) hcc s' xt' hs').2 (fun _ => by rw [hother])
      (fun _ => by rw [hother]) fun _ _ _ _ => ⟨rfl, rfl⟩
  · intro s' xt' hs'
    rw [History.lookup_overrides ha.wellFormed] at hs'
    obtain ⟨xt'', hs''⟩ := hs
    by_cases heq : s = s'
    · subst heq
      rw [if_pos rfl] at hs'
      refine ⟨(ha.lookup _ le_rfl hclass s xt'' hs'').1, .own hzero hpos.1 ?_ ?_⟩
      · obtain ⟨hoffset, hsize, -⟩ := hcells.fields h.latest
        rw [Definition.stop, hoffset, hsize]
        exact hpos.2
      · rw [hmap, ← Option.some.inj hs']
        exact Function.update_self _ _ _
    · rw [if_neg heq] at hs'
      obtain ⟨hlt, hholds⟩ := ha.lookup _ le_rfl hclass s' xt' hs'
      refine ⟨hlt, hcells.holds hholds (fun hzero' => ?_)
        (hslot s' ⟨xt', hs'⟩) fun _ _ _ _ => ⟨rfl, rfl⟩⟩
      rw [hmap]
      refine Function.update_of_ne (fun hoffset => heq ?_) _ _
      exact ha.ownApart _ le_rfl hclass s s' ⟨xt'', hs''⟩ ⟨xt', hs'⟩ hzero hzero' hoffset.symm
  · intro s₁ s₂ h₁ h₂
    exact ha.ownApart _ le_rfl hclass s₁ s₂ (hhas h₁) (hhas h₂)
  · intro hopen c hc hcc s₁ s₂ a h₁ h₂ hne₁ hne₂ hmap₁ hmap₂
    rw [hslot s₂ (hhas h₂) hne₂] at hmap₂
    exact ha.unshared hopen hclass c hc hcc s₁ s₂ a h₁ (hhas h₂) hne₁ hne₂ hmap₁ hmap₂

/-- No other class has the interface map. -/
def Unique (h : History X) (st : State X) (a : Nat) : Prop :=
  ∀ c < h.latest, (h.entries c).isClass = true → ∀ s, h.Has c s → (st.selectors s).interface ≠ 0 →
    (st.defs c).map (st.selectors s).interface ≠ .map a

/-- The slot of the current class gets a copy of an interface map. -/
def State.withCopy (st : State X) (offset size : Int) (a : Nat) : State X :=
  { st.set { st.currentDef with map := Function.update st.currentDef.map offset (.map st.next) } with
    maps := Function.update st.maps st.next (copy 0 size (st.maps a) (around st.next))
    next := st.next + 1 }

/-- Only the cell of an interface changes. -/
theorem CellsOnly.withCopy (st : State X) (offset size : Int) (a : Nat) :
    CellsOnly st (st.withCopy around offset size a) where
  defCount := rfl
  current := rfl
  selectorCount := rfl
  selectors := rfl
  lastInterfaceOffset := rfl
  next := Nat.le_succ _
  other d hd := Function.update_of_ne hd _ _
  defs d := by
    rcases eq_or_ne d st.current with rfl | hd
    · exact ⟨_, Function.update_self _ _ _⟩
    · exact ⟨_, Function.update_of_ne hd _ _⟩

theorem withCopy_map (st : State X) (offset size : Int) (a : Nat) :
    ((st.withCopy around offset size a).defs st.current).map =
      Function.update (st.defs st.current).map offset (.map st.next) := by
  simp [State.withCopy, State.set, State.currentDef]

theorem withCopy_maps {a b : Nat} {offset size : Int} (hb : b < st.next) :
    (st.withCopy around offset size a).maps b = st.maps b :=
  Function.update_of_ne (Nat.ne_of_lt hb) _ _

theorem withCopy_cell {a : Nat} {offset size j : Int} (hlo : 0 ≤ j) (hhi : j < size) :
    (st.withCopy around offset size a).maps st.next j = st.maps a j :=
  (congrFun (Function.update_self st.next _ _) j).trans (copy_of_mem _ _ hlo hhi)

section

variable {s a i : Nat}

/-- Everything agrees after an interface map has been copied, and the copy is unique. -/
theorem Agrees.withCopy (ha : Agrees h st) (hclass : (h.entries h.latest).isClass = true)
    (hne : (st.selectors s).interface ≠ 0) (hneg : (st.selectors s).interface < 0)
    (hi : i < st.defCount) (hinterface : (st.selectors s).interface = (st.defs i).interfaceOffset)
    (hmap : (st.defs h.latest).map (st.selectors s).interface = .map a)
    (hself : st.maps a 0 = .definition i) :
    Agrees h (st.withCopy around (st.selectors s).interface (st.defs i).size a) ∧
      Unique h (st.withCopy around (st.selectors s).interface (st.defs i).size a) st.next := by
  have hcells := CellsOnly.withCopy around st (st.selectors s).interface (st.defs i).size a
  have hmap' := withCopy_map around st (st.selectors s).interface (st.defs i).size a
  rw [ha.current] at hmap'
  have hi' : i ≤ h.latest := by
    rw [ha.defCount] at hi
    omega
  have hic : (h.entries i).isClass = false := by
    cases hc : (h.entries i).isClass with
    | true => exact absurd (hinterface.trans (ha.classOffset i hi' hc)) hne
    | false => rfl
  have hsize : 1 ≤ (st.defs i).size := by
    have hstop := (ha.bounds i hi').2
    have hzero := (ha.interfaceOffset i hi' hic).2.2
    rw [Definition.stop] at hstop
    omega
  have hother : ∀ c < h.latest,
      (st.withCopy around (st.selectors s).interface (st.defs i).size a).defs c = st.defs c :=
    fun c hc => hcells.other c (by rw [ha.current]; omega)
  -- the slots of other classes have older maps
  have hold : ∀ c < h.latest, (h.entries c).isClass = true → ∀ s', h.Has c s' →
      (st.selectors s').interface ≠ 0 →
      (st.defs c).map (st.selectors s').interface ≠ .map st.next := by
    intro c hc hcc s' hs' hne' heq
    obtain ⟨-, -, k, b, -, hnext, -, hb, -⟩ := ha.slot (Nat.le_of_lt hc) hcc hs' hne'
    rw [heq] at hb
    cases hb
    omega
  refine ⟨ha.changed hclass (.refl h) ha.wellFormed hcells ?_ ?_ ?_ ?_ ?_, ?_⟩
  · rw [hmap', Function.update_of_ne (by omega)]
    exact ha.self _ le_rfl
  · intro c hc hcc s' xt hs'
    refine hcells.holds (ha.lookup c (Nat.le_of_lt hc) hcc s' xt hs').2
      (fun _ => by rw [hother c hc]) (fun _ => by rw [hother c hc]) fun b hb _ _ => ?_
    rw [withCopy_maps around hb]
    exact ⟨rfl, rfl⟩
  · intro s' xt hs'
    obtain ⟨hlt, hholds⟩ := ha.lookup _ le_rfl hclass s' xt hs'
    refine ⟨hlt, ?_⟩
    by_cases heq : (st.selectors s').interface = (st.selectors s).interface
    · obtain ⟨hoffset, -⟩ := hcells.fields h.latest
      obtain ⟨-, hsize', hioffset, -⟩ := hcells.fields i
      cases hholds with
      | own hzero => omega
      | shared k b hk hinterface' _ hslot hnext hcell hself' hlo hhi hxt =>
        rw [heq, hmap] at hcell
        cases hcell
        rw [hself] at hself'
        cases hself'
        refine .shared i st.next hi ?_ (heq ▸ hneg) ?_ (Nat.lt_succ_self _) ?_ ?_ hlo ?_ ?_
        · rw [hioffset]
          exact hinterface'
        · rw [hoffset]
          exact hslot
        · rw [hmap']
          exact (congrArg _ heq).trans (Function.update_self _ _ _)
        · exact (withCopy_cell around (Int.le_refl 0) (by omega)).trans hself
        · rw [hsize']
          exact hhi
        · exact (withCopy_cell around (by omega) hhi).trans hxt
    · refine hcells.holds hholds (fun hzero => ?_) (fun _ => ?_) fun b hb _ _ => ?_
      · rw [hmap']
        refine Function.update_of_ne ?_ _ _
        cases hholds with
        | own _ hlo => omega
        | shared k b _ _ hneg' => omega
      · rw [hmap', Function.update_of_ne heq]
      · rw [withCopy_maps around hb]
        exact ⟨rfl, rfl⟩
  · exact ha.ownApart _ le_rfl hclass
  · intro hopen c hc hcc s₁ s₂ b h₁ h₂ hne₁ hne₂ hmap₁ hmap₂
    rw [hmap'] at hmap₂
    by_cases heq : (st.selectors s₂).interface = (st.selectors s).interface
    · rw [heq, Function.update_self] at hmap₂
      cases hmap₂
      exact absurd hmap₁ (hold c hc hcc s₁ h₁ hne₁)
    · rw [Function.update_of_ne heq] at hmap₂
      exact ha.unshared hopen hclass c hc hcc s₁ s₂ b h₁ h₂ hne₁ hne₂ hmap₁ hmap₂
  · intro c hc hcc s' hs' hne'
    rw [hother c hc]
    exact hold c hc hcc s' hs' hne'

/-- A method in an interface map is replaced. -/
def State.withShared (st : State X) (a : Nat) (offset : Int) (xt : X) : State X :=
  { st with maps := Function.update st.maps a (Function.update (st.maps a) offset (.xt xt)) }

/-- Only a shared map changes. -/
theorem CellsOnly.withShared (st : State X) (a : Nat) (offset : Int) (xt : X) :
    CellsOnly st (st.withShared a offset xt) where
  defCount := rfl
  current := rfl
  selectorCount := rfl
  selectors := rfl
  lastInterfaceOffset := rfl
  next := le_rfl
  other _ _ := rfl
  defs _ := ⟨_, rfl⟩

/-- Everything agrees after a selector of an interface has been overridden in a unique map. -/
theorem Agrees.withShared (ha : Agrees h st) (hclass : (h.entries h.latest).isClass = true)
    (hs : h.Has h.latest s) (hne : (st.selectors s).interface ≠ 0)
    (hmap : (st.defs h.latest).map (st.selectors s).interface = .map a) (hunique : Unique h st a)
    (xt : X) (hwf : (h.say (.overrides s xt)).WellFormed) :
    Agrees (h.say (.overrides s xt)) (st.withShared a (st.selectors s).offset xt) := by
  have hcells := CellsOnly.withShared st a (st.selectors s).offset xt
  have hhas : ∀ {s'}, (h.say (.overrides s xt)).Has h.latest s' → h.Has h.latest s' := fun hs' =>
    History.has_of_overrides ha.wellFormed hs hs'
  have hmaps : ∀ b j, b ≠ a ∨ j ≠ (st.selectors s).offset →
      (st.withShared a (st.selectors s).offset xt).maps b j = st.maps b j := by
    intro b j hcase
    by_cases hb : b = a
    · subst hb
      have hj := hcase.resolve_left (fun hne => hne rfl)
      exact (congrFun (Function.update_self b _ _) j).trans (Function.update_of_ne hj _ _)
    · exact congrFun (Function.update_of_ne hb _ _) j
  obtain ⟨xt₀, hs₀⟩ := hs
  obtain ⟨hlt, hholds⟩ := ha.lookup _ le_rfl hclass s xt₀ hs₀
  cases hholds with
  | own hzero => exact absurd hzero hne
  | shared i b hi hinterface hneg hslot hnext hcell hself hlo hhi hxt =>
    rw [hmap] at hcell
    cases hcell
    refine ha.changed hclass (.say hclass _) hwf hcells (ha.self _ le_rfl) ?_ ?_ ?_ ?_
    · intro c hc hcc s' xt' hs'
      refine hcells.holds (ha.lookup c (Nat.le_of_lt hc) hcc s' xt' hs').2 (fun _ => rfl)
        (fun _ => rfl) fun b _ hne' hb => ?_
      have hba : b ≠ a := fun heq =>
        hunique c hc hcc s' ⟨xt', hs'⟩ hne' (heq ▸ hb)
      exact ⟨hmaps b _ (.inl hba), hmaps b _ (.inl hba)⟩
    · intro s' xt' hs'
      rw [History.lookup_overrides ha.wellFormed] at hs'
      by_cases heq : s = s'
      · subst heq
        rw [if_pos rfl] at hs'
        refine ⟨hlt, .shared i a hi hinterface hneg hslot hnext hmap ?_ hlo hhi ?_⟩
        · rw [hmaps a 0 (.inr (by omega))]
          exact hself
        · rw [← Option.some.inj hs']
          exact (congrFun (Function.update_self a _ _) _).trans (Function.update_self _ _ _)
      · rw [if_neg heq] at hs'
        obtain ⟨hlt', hholds'⟩ := ha.lookup _ le_rfl hclass s' xt' hs'
        refine ⟨hlt', hcells.holds hholds' (fun _ => rfl) (fun _ => rfl) fun b hb hne' hcell' => ?_⟩
        refine ⟨hmaps b 0 (.inr (by omega)), hmaps b _ ?_⟩
        by_cases hba : b = a
        · subst hba
          refine .inr fun hoffset => heq ?_
          refine ha.apart s hlt s' hlt' hne ?_ hoffset.symm
          cases hholds' with
          | own hzero => exact absurd hzero hne'
          | shared k b' hk hinterface' _ _ _ hcell'' hself' =>
            rw [hcell'] at hcell''
            cases hcell''
            rw [hself] at hself'
            cases hself'
            exact hinterface.trans hinterface'.symm
        · exact .inl hba
    · intro s₁ s₂ h₁ h₂
      exact ha.ownApart _ le_rfl hclass s₁ s₂ (hhas h₁) (hhas h₂)
    · intro hopen c hc hcc s₁ s₂ b h₁ h₂
      exact ha.unshared hopen hclass c hc hcc s₁ s₂ b h₁ (hhas h₂)

end

section

variable [DecidableEq X]

/-- {lit}`unique-interface-map` makes the interface map of the current class unique. -/
theorem Agrees.uniqueInterfaceMap (ha : Agrees h st) (hopen : h.isOpen = true)
    (hclass : (h.entries h.latest).isClass = true) {s : Nat} (hs : h.Has h.latest s)
    (hne : (st.selectors s).interface ≠ 0) :
    ∃ st' a, uniqueInterfaceMap around st.current (st.selectors s).interface st = some st' ∧
      Agrees h st' ∧ st'.selectors = st.selectors ∧ st'.current = st.current ∧
      (st'.defs h.latest).map (st.selectors s).interface = .map a ∧ Unique h st' a := by
  obtain ⟨hneg, -, i, a, hi, -, hinterface, hmap, hself⟩ := ha.slot le_rfl hclass hs hne
  have hdef := ha.self _ le_rfl
  have hparent := ha.classParent _ le_rfl
  cases hp : h.parent h.latest with
  | none =>
    -- a class without a parent has no interfaces
    have hzero := ha.wellFormed.root _ le_rfl hclass hp
    have hcount := ha.defCount
    obtain rfl : i = h.latest := by omega
    exact absurd (hinterface.trans (ha.classOffset _ le_rfl hclass)) hne
  | some p =>
    rw [hp] at hparent
    rw [Objects.uniqueInterfaceMap]
    simp only [ha.current, hdef, hparent]
    by_cases hshared : (st.defs h.latest).map (st.selectors s).interface =
        (st.defs p).map (st.selectors s).interface
    · rw [if_pos hshared]
      simp only [hmap, hself]
      obtain ⟨hagrees, hunique⟩ := ha.withCopy around hclass hne hneg hi hinterface hmap hself
      refine ⟨_, st.next, congrArg some ?_, hagrees, rfl, ha.current, ?_, hunique⟩
      · rw [State.withCopy, State.set, State.currentDef, ha.current, ← hparent]
      · rw [← ha.current, withCopy_map]
        exact Function.update_self _ _ _
    · rw [if_neg hshared]
      refine ⟨st, a, rfl, ha, rfl, ha.current, hmap, fun c hc hcc s' hs' hne' heq => ?_⟩
      obtain ⟨p', hp', hslot⟩ := ha.unshared hopen hclass c hc hcc s' s a hs' hs hne' hne heq hmap
      rw [hp] at hp'
      cases hp'
      exact hshared (hmap.trans hslot.symm)

/-- {lit}`overrides` -/
theorem Agrees.overrides (ha : Agrees h st) {xt : X} {s : Nat}
    (hallows : h.Allows (.overrides xt s)) (hwf : (h.say (.overrides s xt)).WellFormed) :
    ∃ st', overrides around xt s st = some st' ∧ Agrees (h.say (.overrides s xt)) st' := by
  obtain ⟨hopen, hclass, hsome⟩ := hallows
  have hs : h.Has h.latest s := Option.isSome_iff_exists.1 hsome
  rw [Objects.overrides, classOverride]
  by_cases hzero : (st.selectors s).interface = 0
  · rw [if_neg (fun hne => hne hzero)]
    exact ⟨_, rfl, ha.withOwn hclass hs hzero xt hwf⟩
  · rw [if_pos hzero]
    obtain ⟨st', a, hst', hagrees, hselectors, hcurrent, hmap, hunique⟩ :=
      ha.uniqueInterfaceMap around hopen hclass hs hzero
    rw [ha.current] at hcurrent hst' ⊢
    simp only [hst', hmap]
    rw [← hselectors] at hzero hmap ⊢
    exact ⟨_, rfl, hagrees.withShared hclass hs hzero hmap hunique xt hwf⟩

/-! ## Programs -/

omit [DecidableEq X] in
/-- The state agrees with an empty history. -/
theorem Agrees.start : Agrees (History.start : History X) (start around) where
  wellFormed := .start
  defCount := rfl
  current := rfl
  selectorCount := rfl
  classParent _ _ := rfl
  bounds _ _ := by simp [Objects.start, Definition.stop]
  self d hd := by
    obtain rfl : d = 0 := Nat.le_zero.1 hd
    simp [Objects.start]
  classOffset _ _ _ := rfl
  interfaceOffset _ _ hclass := by cases hclass
  lastInterfaceOffset := Int.le_refl 0
  injective _ _ _ _ hclass := by cases hclass
  isInterface s hs := absurd hs (Nat.not_lt_zero s)
  inside s hs := absurd hs (Nat.not_lt_zero s)
  apart s hs := absurd hs (Nat.not_lt_zero s)
  defaults _ _ hclass := by cases hclass
  lookup c _ _ s xt hs := by
    rw [History.lookup, Lib.nearest_of_none rfl rfl] at hs
    cases hs
  ownApart c _ _ s s' hs := by
    obtain ⟨xt, hs⟩ := hs
    rw [History.lookup, Lib.nearest_of_none rfl rfl] at hs
    cases hs
  unshared _ _ c hc := absurd hc (Nat.not_lt_zero c)

/-- Maps and history still agree after a word that is used as it is meant. -/
theorem Agrees.step (ha : Agrees h st) (noMethod : X) {cmd : Command X} (hallows : h.Allows cmd) :
    ∃ st', step around noMethod st cmd = some st' ∧ Agrees (h.step noMethod cmd) st' := by
  have hwf := ha.wellFormed.step noMethod hallows
  cases cmd with
  | interface => exact ⟨_, rfl, ha.interface around hwf⟩
  | class' parent => exact ⟨_, rfl, ha.class' around hallows.2.1 hallows.2.2 hwf⟩
  | endInterface | endClass => exact ⟨_, rfl, ha.endInterface around⟩
  | method _ | selector =>
    refine ⟨_, rfl, ?_⟩
    rw [method_eq]
    exact (ha.of_frame (.endInterface around st)).withMethod hwf
  | overrides xt s => exact ha.overrides around hallows hwf
  | implementation i =>
    obtain ⟨-, hclass, hi, hic⟩ := hallows
    refine ⟨_, rfl, ?_⟩
    have hcurrent : st.currentDef.interfaceOffset = 0 := by
      rw [ha.currentDef]
      exact ha.classOffset _ le_rfl hclass
    have hne : i ≠ st.current := by
      rw [ha.current]
      omega
    have hagrees := ha.of_frame (.extended around hcurrent (st.defs i).interfaceOffset)
    have hdef : (st.extended around (st.defs i).interfaceOffset).defs i = st.defs i :=
      Function.update_of_ne hne _ _
    rw [implementation_eq around hne]
    refine hagrees.withImplementation around hclass hi hic ?_ hwf
    rw [hdef, ← hagrees.currentDef]
    exact mapOffset_extended around st _

/-- Maps and history agree after a program. -/
theorem Agrees.run (ha : Agrees h st) (noMethod : X) {cmds : List (Command X)}
    (hallows : h.AllowsAll noMethod cmds) :
    ∃ st', run around noMethod st cmds = some st' ∧ Agrees (h.run noMethod cmds) st' := by
  induction cmds generalizing h st with
  | nil => exact ⟨st, rfl, ha⟩
  | cons cmd cmds ih =>
    obtain ⟨st', hst', ha'⟩ := ha.step around noMethod hallows.1
    obtain ⟨st'', hst'', ha''⟩ := ih ha' hallows.2
    exact ⟨st'', by rw [Objects.run, hst']; exact hst'', ha''⟩

end

/-! ## Dispatch -/

/-- {lit}`<bind>` and the selectors find what the classes have. -/
theorem Agrees.select (ha : Agrees h st) {c s : Nat} {xt : X} (hc : c ≤ h.latest)
    (hclass : (h.entries c).isClass = true) (hs : h.lookup s c = some xt) :
    bind st c s = some (.xt xt) ∧ execute st (initObject c) s = some (.xt xt) := by
  obtain ⟨hlt, hholds⟩ := ha.lookup c hc hclass s xt hs
  have hsame : execute st (initObject c) s = bind st c s := by
    rw [execute, bind, ha.isInterface s hlt]
    rfl
  rw [hsame, and_self, bind, Objects.select]
  cases hholds with
  | own hinterface hlo hhi hxt => simp [hinterface, hxt]
  | shared i a hi hinterface hneg hslot hnext hmap hself hlo hhi hxt =>
    have hne : (st.selectors s).interface ≠ 0 := by omega
    simp [hne, hmap, hxt]

theorem History.lookup_step_overrides (hwf : h.WellFormed) {noMethod xt : X} {s s' c : Nat}
    (hc : c < h.latest) : (h.step noMethod (.overrides xt s)).lookup s' c = h.lookup s' c :=
  lookup_say_of_ne hwf _ s' hc

/-- After every program that is used as it is meant, {lit}`<bind>` and the selectors find what the
last {lit}`overrides`, {lit}`method` or {lit}`implementation` in the class or in its nearest ancestor
says.  Overriding a selector in a class changes nothing for other classes. -/
theorem dispatch_correct [DecidableEq X] (noMethod : X) (cmds : List (Command X))
    (hallows : History.start.AllowsAll noMethod cmds) :
    ∃ st, run around noMethod (start around) cmds = some st ∧
      (∀ c ≤ (History.start.run noMethod cmds).latest,
        ((History.start.run noMethod cmds).entries c).isClass = true → ∀ s xt,
        (History.start.run noMethod cmds).lookup s c = some xt →
          bind st c s = some (.xt xt) ∧ execute st (initObject c) s = some (.xt xt)) ∧
      ∀ s xt, (History.start.run noMethod cmds).Allows (.overrides xt s) →
        ∃ st', overrides around xt s st = some st' ∧
          ∀ c < (History.start.run noMethod cmds).latest,
            ((History.start.run noMethod cmds).entries c).isClass = true → ∀ s',
            ((History.start.run noMethod cmds).lookup s' c).isSome →
              bind st' c s' = bind st c s' ∧
                execute st' (initObject c) s' = execute st (initObject c) s' := by
  obtain ⟨st, hst, ha⟩ := (Agrees.start around).run around noMethod hallows
  refine ⟨st, hst, fun c hc hclass s xt hs => ha.select hc hclass hs, fun s xt hoverrides => ?_⟩
  obtain ⟨st', hst', ha'⟩ := ha.step around noMethod hoverrides
  refine ⟨st', hst', fun c hc hclass s' hsome => ?_⟩
  obtain ⟨xt', hs'⟩ := Option.isSome_iff_exists.1 hsome
  have hbefore := ha.select (Nat.le_of_lt hc) hclass hs'
  have hafter := ha'.select (c := c) (s := s') (Nat.le_of_lt hc)
    ((History.isClass_say _ c).trans hclass)
    ((History.lookup_step_overrides ha.wellFormed hc).trans hs')
  rw [hbefore.1, hbefore.2]
  exact hafter

/-- A class that implements an interface, overrides its selector, and has a child that implements the
interface again -/
def implementedTwice : List (Command Nat) :=
  [.method 1, .endClass, .interface, .method 2, .endInterface, .class' 0, .implementation 1,
    .overrides 3 1, .endClass, .class' 2, .implementation 1, .endClass]

/-- The history of the example -/
def implementedTwiceHistory : History Nat := History.start.run 0 implementedTwice

theorem implementedTwiceHistory_own :
    implementedTwiceHistory.own 1 2 = some 3 ∧ implementedTwiceHistory.own 1 3 = some 2 :=
  ⟨rfl, rfl⟩

theorem implementedTwice_allowed : History.start.AllowsAll 0 implementedTwice := by
  refine ⟨rfl, ⟨rfl, rfl⟩, rfl, rfl, ⟨rfl, rfl⟩, ⟨rfl, Nat.zero_le _, rfl⟩,
    ⟨rfl, rfl, by decide, rfl⟩, ⟨rfl, rfl, ?_⟩, ⟨rfl, rfl⟩, ⟨rfl, by decide, rfl⟩,
    ⟨rfl, rfl, by decide, rfl⟩, ⟨rfl, rfl⟩, trivial⟩
  have hown : (History.start.run 0 (implementedTwice.take 7)).own 1 2 = some 2 := rfl
  have hlookup : (History.start.run 0 (implementedTwice.take 7)).lookup 1 2 = some 2 :=
    Lib.nearest_of_own hown
  exact congrArg Option.isSome hlookup

/-- The class of the example dispatches to its last methods. -/
theorem dispatch_correct_implementedTwice :
    ∃ st, run (fun _ _ => .zero) 0 (start fun _ _ => .zero) implementedTwice = some st ∧
      bind st 2 1 = some (.xt 3) ∧ bind st 3 1 = some (.xt 2) := by
  obtain ⟨st, hst, hselect, -⟩ :=
    dispatch_correct (fun _ _ => .zero) 0 implementedTwice implementedTwice_allowed
  exact ⟨st, hst,
    (hselect 2 (by decide) rfl 1 3 (Lib.nearest_of_own implementedTwiceHistory_own.1)).1,
    (hselect 3 (by decide) rfl 1 2 (Lib.nearest_of_own implementedTwiceHistory_own.2)).1⟩

/-- An implementation of an interface in a child replaces what the parent has overridden. -/
theorem not_dispatch_lastOverride :
    ¬ ∀ cmds : List (Command Nat), History.start.AllowsAll 0 cmds →
      ∀ st, run (fun _ _ => .zero) 0 (start fun _ _ => .zero) cmds = some st →
        ∀ c s xt, (History.start.run 0 cmds).lastOverride s c = some xt →
          bind st c s = some (.xt xt) := by
  intro hclaim
  obtain ⟨st, hst, ha⟩ :=
    (Agrees.start fun _ _ => .zero).run (fun _ _ => .zero) 0 implementedTwice_allowed
  have hsaid : implementedTwiceHistory.saidIn 1 3 = none := rfl
  have hparent : implementedTwiceHistory.parent 3 = some 2 := rfl
  have hsaid' : implementedTwiceHistory.saidIn 1 2 = some 3 := rfl
  have hlast : implementedTwiceHistory.lastOverride 1 3 = some 3 := by
    rw [History.lastOverride, Lib.nearest_of_parent hsaid hparent (by decide),
      Lib.nearest_of_own hsaid']
    rfl
  have hright := (ha.select (c := 3) (by decide) rfl
    (Lib.nearest_of_own implementedTwiceHistory_own.2)).1
  have hwrong := hclaim implementedTwice implementedTwice_allowed st hst 3 1 3 hlast
  rw [hright] at hwrong
  cases hwrong

end Objects
end Gforth
