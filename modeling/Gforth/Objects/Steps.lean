import Gforth.Objects.Agreement

/-!
# Words and maps

Each word that is used as it is meant changes the maps as it changes the history.

Main results:

- Theorem {lit}`Agrees.step`: maps and history still agree after a word.
-/

namespace Gforth
namespace Objects

variable {X : Type} {h : History X} {st : State X} (around : Nat → Map X)

/-! ## Moving maps -/

theorem currentDef_endInterface (st : State X) :
    (endInterface around st).currentDef =
      { st.currentDef with map := st.currentDef.moved (around st.next) } :=
  Function.update_self _ _ _

/-- {lit}`end-interface` moves a map. -/
theorem Frame.endInterface (st : State X) : Frame st (endInterface around st) where
  defCount := rfl
  current := rfl
  selectorCount := rfl
  selectors := rfl
  lastInterfaceOffset := rfl
  next := Nat.le_succ _
  maps _ _ := rfl
  defs d hd := Function.update_of_ne hd _ _
  classParent := by rw [currentDef_endInterface]
  interfaceOffset := by rw [currentDef_endInterface]
  mapOffset := Int.le_of_eq (by rw [currentDef_endInterface])
  mapOffset_eq _ := by rw [currentDef_endInterface]
  stop := by rw [currentDef_endInterface]; rfl
  map j hlo hhi := by
    rw [currentDef_endInterface]
    exact copy_of_mem _ _ hlo hhi

/-- A definition is completed. -/
theorem Agrees.endInterface (ha : Agrees h st) :
    Agrees { h with isOpen := false } (endInterface around st) :=
  { ha.of_frame (.endInterface around st) with
    wellFormed := { ha.wellFormed with }
    unshared := fun hopen => by cases hopen }

/-- The first part of {lit}`implementation` -/
def State.extended (st : State X) (offset : Int) : State X :=
  { st.set (frontExtend offset (around st.next) st.currentDef) with next := st.next + 1 }

theorem State.currentDef_extended (st : State X) (offset : Int) :
    (st.extended around offset).currentDef =
      frontExtend offset (around st.next) st.currentDef :=
  Function.update_self _ _ _

/-- The front of the map is extended in a class. -/
theorem Frame.extended (hclass : st.currentDef.interfaceOffset = 0) (offset : Int) :
    Frame st (st.extended around offset) where
  defCount := rfl
  current := rfl
  selectorCount := rfl
  selectors := rfl
  lastInterfaceOffset := rfl
  next := Nat.le_succ _
  maps _ _ := rfl
  defs d hd := Function.update_of_ne hd _ _
  classParent := by
    rw [State.currentDef_extended, frontExtend]
    split <;> rfl
  interfaceOffset := by
    rw [State.currentDef_extended, frontExtend]
    split <;> rfl
  mapOffset := by
    rw [State.currentDef_extended, frontExtend]
    split
    · change st.currentDef.mapOffset ≤ -offset
      omega
    · exact Int.le_refl _
  mapOffset_eq hne := absurd hclass hne
  stop := by
    rw [State.currentDef_extended, frontExtend]
    simp only [Definition.stop]
    split
    · dsimp only
      omega
    · rfl
  map j hlo hhi := by
    rw [State.currentDef_extended, frontExtend]
    split
    · have hold : ¬(offset ≤ j ∧ j < -st.currentDef.mapOffset) := by omega
      exact (if_neg hold).trans (copy_of_mem _ _ hlo hhi)
    · rfl

/-- The interface fits after that. -/
theorem mapOffset_extended (st : State X) (offset : Int) :
    -(st.extended around offset).currentDef.mapOffset ≤ offset := by
  rw [State.currentDef_extended, frontExtend]
  split
  · change -(-offset) ≤ offset
    omega
  · omega

/-! ## New definitions -/

/-- A definition is begun. -/
def State.begun (st : State X) (d : Definition X) (lastInterfaceOffset : Int) : State X :=
  { st with
    defs := Function.update st.defs st.defCount d
    defCount := st.defCount + 1
    next := st.next + 1
    current := st.defCount
    lastInterfaceOffset := lastInterfaceOffset }

section

variable {d : Definition X} {last : Int}

theorem State.begun_old {c : Nat} (hc : c < st.defCount) : (st.begun d last).defs c = st.defs c :=
  Function.update_of_ne (Nat.ne_of_lt hc) _ _

theorem State.begun_new : (st.begun d last).defs st.defCount = d :=
  Function.update_self _ _ _

/-- What a class has is kept while another one is begun. -/
theorem Holds.begun {c s : Nat} {xt : X} (hholds : Holds st c s xt) (hc : c < st.defCount) :
    Holds (st.begun d last) c s xt := by
  cases hholds with
  | own hinterface hlo hhi hxt =>
    refine .own hinterface hlo ?_ ?_ <;> rw [State.begun_old hc]
    · exact hhi
    · exact hxt
  | shared i a hi hinterface hneg hslot ha hmap hself hlo hhi hxt =>
    refine .shared i a (Nat.lt_succ_of_lt hi) ?_ hneg ?_ (Nat.lt_succ_of_lt ha) ?_ hself hlo ?_ hxt
    · rw [State.begun_old hi]
      exact hinterface
    · rw [State.begun_old hc]
      exact hslot
    · rw [State.begun_old hc]
      exact hmap
    · rw [State.begun_old hi]
      exact hhi

/-- The map is a copy of that of another class, but for the class itself. -/
structure Definition.Inherits (d d' : Definition X) : Prop where
  mapOffset : d.mapOffset = d'.mapOffset
  stop : d.stop = d'.stop
  map : ∀ j, -d'.mapOffset ≤ j → j < d'.stop → j ≠ 0 → d.map j = d'.map j

/-- A class that is begun has what its parent has. -/
theorem Holds.inherited {p s : Nat} {xt : X} (hholds : Holds st p s xt)
    (hinherits : d.Inherits (st.defs p)) (hoffset : 0 ≤ (st.defs p).mapOffset)
    (hstop : 1 ≤ (st.defs p).stop) : Holds (st.begun d last) st.defCount s xt := by
  cases hholds with
  | own hinterface hlo hhi hxt =>
    refine .own hinterface hlo ?_ ?_ <;> rw [State.begun_new]
    · rw [hinherits.stop]
      exact hhi
    · exact (hinherits.map _ (by omega) hhi (by omega)).trans hxt
  | shared i a hi hinterface hneg hslot ha hmap hself hlo hhi hxt =>
    refine .shared i a (Nat.lt_succ_of_lt hi) ?_ hneg ?_ (Nat.lt_succ_of_lt ha) ?_ hself hlo ?_ hxt
    · rw [State.begun_old hi]
      exact hinterface
    · rw [State.begun_new, hinherits.mapOffset]
      exact hslot
    · rw [State.begun_new]
      exact (hinherits.map _ hslot (by omega) (by omega)).trans hmap
    · rw [State.begun_old hi]
      exact hhi

/-- Everything agrees after the start of a definition. -/
theorem Agrees.begun (ha : Agrees h st) {e : Entry X} (hwf : (h.begin' e).WellFormed)
    (hevents : e.events = []) (hparent : d.classParent = e.parent)
    (hself : d.map 0 = .definition st.defCount) (hoffset : 0 ≤ d.mapOffset) (hstop : 1 ≤ d.stop)
    (hlast : last ≤ st.lastInterfaceOffset)
    (hinterface : e.isClass = false →
      d.interfaceOffset = last ∧ last < st.lastInterfaceOffset ∧ d.mapOffset = 0)
    (hclass : e.isClass = true → d.interfaceOffset = 0 ∧ ∃ p ≤ h.latest, e.parent = some p ∧
      (h.entries p).isClass = true ∧ d.Inherits (st.defs p)) :
    Agrees (h.begin' e) (st.begun d last) := by
  have hold : ∀ {c}, c ≤ h.latest → c < st.defCount := fun hc => by rw [ha.defCount]; omega
  have hcases : ∀ c, c ≤ h.latest + 1 → c ≤ h.latest ∨ c = st.defCount := fun c hc => by
    rw [ha.defCount]
    omega
  have hentry : (h.begin' e).entries st.defCount = e := by
    rw [ha.defCount]
    exact History.entries_begin'_new e
  have hneg := ha.lastInterfaceOffset
  have hlookup : ∀ s c, c ≤ h.latest → (h.begin' e).lookup s c = h.lookup s c := fun s c hc =>
    History.lookup_begin' ha.wellFormed e s hc
  have hinherited : e.isClass = true → ∃ p ≤ h.latest, e.parent = some p ∧
      (h.entries p).isClass = true ∧ d.Inherits (st.defs p) ∧
      ∀ s, (h.begin' e).lookup s st.defCount = h.lookup s p := by
    intro he
    obtain ⟨-, p, hp, hep, hpclass, hinherits⟩ := hclass he
    refine ⟨p, hp, hep, hpclass, hinherits, fun s => ?_⟩
    have heq : e = ⟨true, some p, []⟩ := by
      cases e
      simp_all
    rw [heq, ha.defCount]
    exact History.lookup_class ha.wellFormed hp s
  have hclasses : ∀ c ≤ h.latest, ((h.begin' e).entries c).isClass = true →
      (h.entries c).isClass = true := fun c hc hcc => by
    rwa [History.entries_begin' e hc] at hcc
  -- the class that has a selector, itself or as the parent of the new one
  have hhas : ∀ c ≤ h.latest + 1, ((h.begin' e).entries c).isClass = true → ∃ p ≤ h.latest,
      (h.entries p).isClass = true ∧ ∀ s, (h.begin' e).lookup s c = h.lookup s p := by
    intro c hc hcc
    rcases hcases c hc with hle | rfl
    · exact ⟨c, hle, hclasses c hle hcc, fun s => hlookup s c hle⟩
    · rw [hentry] at hcc
      obtain ⟨p, hp, -, hpclass, -, hsame⟩ := hinherited hcc
      exact ⟨p, hp, hpclass, hsame⟩
  exact
    { wellFormed := hwf
      defCount := congrArg (· + 1) ha.defCount
      current := ha.defCount
      selectorCount := ha.selectorCount
      classParent := by
        intro c hc
        rcases hcases c hc with hle | rfl
        · rw [State.begun_old (hold hle), ha.classParent c hle, History.parent, History.parent,
            History.entries_begin' e hle]
        · rw [State.begun_new, History.parent, hentry, hparent]
      bounds := by
        intro c hc
        rcases hcases c hc with hle | rfl
        · rw [State.begun_old (hold hle)]
          exact ha.bounds c hle
        · rw [State.begun_new]
          exact ⟨hoffset, hstop⟩
      self := by
        intro c hc
        rcases hcases c hc with hle | rfl
        · rw [State.begun_old (hold hle)]
          exact ha.self c hle
        · rw [State.begun_new]
          exact hself
      classOffset := by
        intro c hc hcc
        rcases hcases c hc with hle | rfl
        · rw [State.begun_old (hold hle)]
          exact ha.classOffset c hle (hclasses c hle hcc)
        · rw [State.begun_new]
          exact (hclass (by rwa [hentry] at hcc)).1
      interfaceOffset := by
        intro i hi hic
        rcases hcases i hi with hle | rfl
        · rw [History.entries_begin' e hle] at hic
          obtain ⟨h1, h2, h3⟩ := ha.interfaceOffset i hle hic
          rw [State.begun_old (hold hle)]
          exact ⟨Int.le_trans hlast h1, h2, h3⟩
        · rw [hentry] at hic
          obtain ⟨h1, h2, h3⟩ := hinterface hic
          rw [State.begun_new]
          exact ⟨Int.le_of_eq h1.symm, by omega, h3⟩
      lastInterfaceOffset := by
        change last ≤ 0
        omega
      injective := by
        intro i hi j hj hic heq
        have hnew : e.isClass = false → ∀ k ≤ h.latest,
            (st.defs k).interfaceOffset ≠ d.interfaceOffset := by
          intro he k hk hk'
          obtain ⟨h1, h2, -⟩ := hinterface he
          cases hkc : (h.entries k).isClass with
          | true =>
            have := ha.classOffset k hk hkc
            omega
          | false =>
            have := (ha.interfaceOffset k hk hkc).1
            omega
        rcases hcases i hi with hi' | rfl <;> rcases hcases j hj with hj' | rfl
        · rw [History.entries_begin' e hi'] at hic
          rw [State.begun_old (hold hi'), State.begun_old (hold hj')] at heq
          exact ha.injective i hi' j hj' hic heq
        · rw [History.entries_begin' e hi'] at hic
          rw [State.begun_old (hold hi'), State.begun_new] at heq
          cases he : e.isClass with
          | true =>
            have := (ha.interfaceOffset i hi' hic).2.1
            have := (hclass he).1
            omega
          | false => exact absurd heq (hnew he i hi')
        · rw [hentry] at hic
          rw [State.begun_old (hold hj'), State.begun_new] at heq
          exact absurd heq.symm (hnew hic j hj')
        · rfl
      isInterface := ha.isInterface
      inside := by
        intro s hs hne
        obtain ⟨i, hi, hic, heq, hdefault⟩ := ha.inside s hs hne
        refine ⟨i, Nat.le_succ_of_le hi, ?_, ?_, ?_⟩
        · rwa [History.entries_begin' e hi]
        · rwa [State.begun_old (hold hi)]
        · rwa [History.entries_begin' e hi]
      apart := ha.apart
      defaults := by
        intro i hi hic s xt hs
        rcases hcases i hi with hle | rfl
        · rw [History.entries_begin' e hle] at hic hs
          rw [State.begun_old (hold hle)]
          exact ha.defaults i hle hic s xt hs
        · rw [hentry, Entry.default, hevents] at hs
          cases hs
      lookup := by
        intro c hc hcc s xt hs
        rcases hcases c hc with hle | rfl
        · rw [hlookup s c hle] at hs
          obtain ⟨hlt, hholds⟩ := ha.lookup c hle (hclasses c hle hcc) s xt hs
          exact ⟨hlt, hholds.begun (hold hle)⟩
        · rw [hentry] at hcc
          obtain ⟨p, hp, -, hpclass, hinherits, hsame⟩ := hinherited hcc
          rw [hsame] at hs
          obtain ⟨hlt, hholds⟩ := ha.lookup p hp hpclass s xt hs
          obtain ⟨h1, h2⟩ := ha.bounds p hp
          exact ⟨hlt, hholds.inherited hinherits h1 h2⟩
      ownApart := by
        intro c hc hcc s s' hs hs' h1 h2 h3
        obtain ⟨p, hp, hpclass, hsame⟩ := hhas c hc hcc
        rw [History.Has, hsame] at hs hs'
        exact ha.ownApart p hp hpclass s s' hs hs' h1 h2 h3
      unshared := by
        intro _ hlatest c hc hcc s s' a hs hs' hne hne' hmap hmap'
        have hlatest' : (h.begin' e).latest = st.defCount := ha.defCount.symm
        rw [hlatest', hentry] at hlatest
        obtain ⟨p, hp, hep, hpclass, hinherits, hsame⟩ := hinherited hlatest
        rw [hlatest', History.Has, hsame] at hs'
        have hslot : d.map (st.selectors s').interface = (st.defs p).map (st.selectors s').interface := by
          obtain ⟨-, hstop'⟩ := ha.bounds p hp
          obtain ⟨hneg', hslot, -⟩ := ha.slot hp hpclass hs' hne'
          exact hinherits.map _ hslot (by omega) (by omega)
        rw [hlatest', State.begun_new] at hmap'
        refine ⟨p, by rw [hlatest', History.parent, hentry, hep], ?_⟩
        rw [State.begun_old (hold hp)]
        exact hslot.symm.trans hmap' }

end

/-- {lit}`interface` -/
theorem Agrees.interface (ha : Agrees h st) (hwf : (h.begin' ⟨false, none, []⟩).WellFormed) :
    Agrees (h.begin' ⟨false, none, []⟩) (interface around st) := by
  refine ha.begun hwf rfl rfl ?_ (Int.le_refl _) (Int.le_refl _) ?_ (fun _ => ⟨rfl, ?_, rfl⟩)
    (fun hclass => by cases hclass)
  · simp
  · omega
  · omega

/-- {lit}`class` -/
theorem Agrees.class' (ha : Agrees h st) {p : Nat} (hp : p ≤ h.latest)
    (hclass : (h.entries p).isClass = true) (hwf : (h.begin' ⟨true, some p, []⟩).WellFormed) :
    Agrees (h.begin' ⟨true, some p, []⟩) (class' around p st) := by
  obtain ⟨hoffset, hstop⟩ := ha.bounds p hp
  refine ha.begun hwf rfl rfl ?_ hoffset hstop (Int.le_refl _)
    (fun hinterface => by cases hinterface) fun _ => ⟨rfl, p, hp, rfl, hclass, rfl, rfl, ?_⟩
  · simp
  · intro j hlo hhi hj
    exact (Function.update_of_ne hj _ _).trans (copy_of_mem _ _ hlo hhi)

/-! ## Methods -/

/-- A cell behind the map of the current definition is a method with a new selector. -/
def State.withMethod (st : State X) (xt : X) : State X :=
  let d := st.currentDef
  { st.set { d with map := Function.update d.map d.stop (.xt xt), size := d.size + 1 } with
    selectors := Function.update st.selectors st.selectorCount
      ⟨d.stop, d.interfaceOffset, d.interfaceOffset ≠ 0⟩
    selectorCount := st.selectorCount + 1 }

theorem method_eq (xt : X) (st : State X) :
    method around xt st = (endInterface around st).withMethod xt := by
  rw [State.withMethod, currentDef_endInterface]
  simp [method, endInterface, State.set, Definition.stop, Function.update_idem]

section

variable {xt : X}

theorem Agrees.currentDef (ha : Agrees h st) : st.currentDef = st.defs h.latest := by
  rw [State.currentDef, ha.current]

theorem Agrees.withMethod_old (ha : Agrees h st) {d : Nat} (hd : d ≠ h.latest) :
    (st.withMethod xt).defs d = st.defs d :=
  Function.update_of_ne (ha.current ▸ hd) _ _

/-- The latest definition gets the method. -/
theorem Agrees.withMethod_latest (ha : Agrees h st) :
    (st.withMethod xt).defs h.latest =
      { st.defs h.latest with
        map := Function.update (st.defs h.latest).map (st.defs h.latest).stop (.xt xt)
        size := (st.defs h.latest).size + 1 } := by
  rw [← ha.currentDef, ← ha.current]
  exact Function.update_self _ _ _

theorem Agrees.withMethod_selector (ha : Agrees h st) (xt : X) {s : Nat}
    (hs : s < h.selectorCount) :
    (st.withMethod xt).selectors s = st.selectors s :=
  Function.update_of_ne (by rw [ha.selectorCount]; omega) _ _

/-- The new selector is at the end of the map. -/
theorem Agrees.withMethod_new (ha : Agrees h st) (xt : X) :
    (st.withMethod xt).selectors h.selectorCount =
      ⟨(st.defs h.latest).stop, (st.defs h.latest).interfaceOffset,
        (st.defs h.latest).interfaceOffset ≠ 0⟩ := by
  rw [← ha.currentDef, ← ha.selectorCount]
  exact Function.update_self _ _ _

/-- A method at the end changes neither what is in front of it nor the other fields. -/
theorem Agrees.withMethod_defs (ha : Agrees h st) (xt : X) (d : Nat) :
    ((st.withMethod xt).defs d).mapOffset = (st.defs d).mapOffset ∧
      ((st.withMethod xt).defs d).interfaceOffset = (st.defs d).interfaceOffset ∧
      ((st.withMethod xt).defs d).classParent = (st.defs d).classParent ∧
      (st.defs d).size ≤ ((st.withMethod xt).defs d).size ∧
      ∀ j < (st.defs d).stop, ((st.withMethod xt).defs d).map j = (st.defs d).map j := by
  rcases eq_or_ne d h.latest with rfl | hd
  · rw [ha.withMethod_latest]
    refine ⟨rfl, rfl, rfl, ?_, fun j hj => Function.update_of_ne (Int.ne_of_lt hj) _ _⟩
    dsimp only
    omega
  · rw [ha.withMethod_old hd]
    exact ⟨rfl, rfl, rfl, Int.le_refl _, fun _ _ => rfl⟩

/-- A method stays in its map when another one is added. -/
theorem Holds.withMethod {c s : Nat} {xt' : X} (hholds : Holds st c s xt') (ha : Agrees h st)
    (hstop : 1 ≤ (st.defs c).stop) (hs : s < h.selectorCount) :
    Holds (st.withMethod xt) c s xt' := by
  obtain ⟨hoffset, -, -, hsize, hmap⟩ := ha.withMethod_defs xt c
  have hsel := ha.withMethod_selector xt hs
  cases hholds with
  | own hinterface hlo hhi hxt =>
    refine .own ?_ ?_ ?_ ?_ <;> rw [hsel]
    · exact hinterface
    · exact hlo
    · rw [Definition.stop] at hhi ⊢
      omega
    · rw [hmap _ hhi]
      exact hxt
  | shared i a hi hinterface hneg hslot hnext hcell hself hlo hhi hxt =>
    obtain ⟨-, hioffset, -, hisize, -⟩ := ha.withMethod_defs xt i
    refine .shared i a hi ?_ ?_ ?_ hnext ?_ hself ?_ ?_ ?_ <;> rw [hsel]
    · rw [hioffset]
      exact hinterface
    · exact hneg
    · rw [hoffset]
      exact hslot
    · rw [hmap _ (by omega)]
      exact hcell
    · exact hlo
    · omega
    · exact hxt

/-- Everything agrees after a method. -/
theorem Agrees.withMethod (ha : Agrees h st) (hwf : (h.addMethod xt).WellFormed) :
    Agrees (h.addMethod xt) (st.withMethod xt) := by
  have hlookup : ∀ s c, c < h.latest → (h.addMethod xt).lookup s c = h.lookup s c := fun s c hc =>
    History.lookup_say_of_ne ha.wellFormed _ s hc
  have hlatest := History.lookup_addMethod ha.wellFormed xt
  have hclass : ∀ c, ((h.addMethod xt).entries c).isClass = (h.entries c).isClass := fun c =>
    History.isClass_say _ c
  have hnew := ha.withMethod_new xt
  -- the selectors of a class: the new one, and those that it had
  have hhas : ∀ c ≤ h.latest, ∀ s, (h.addMethod xt).Has c s →
      c = h.latest ∧ s = h.selectorCount ∨ h.Has c s ∧ (c < h.latest ∨ s ≠ h.selectorCount) := by
    intro c hc s hs
    rcases Nat.lt_or_ge c h.latest with hlt | hge
    · rw [History.Has, hlookup s c hlt] at hs
      exact .inr ⟨hs, .inl hlt⟩
    · obtain rfl : c = h.latest := Nat.le_antisymm hc hge
      rw [History.Has, hlatest] at hs
      rcases eq_or_ne h.selectorCount s with rfl | hne
      · exact .inl ⟨rfl, rfl⟩
      · rw [if_neg hne] at hs
        exact .inr ⟨hs, .inr hne.symm⟩
  have hlt : ∀ c ≤ h.latest, (h.entries c).isClass = true → ∀ s, h.Has c s → s < h.selectorCount :=
    fun c hc hcc s ⟨xt', hs⟩ => (ha.lookup c hc hcc s xt' hs).1
  have hold : ∀ s < h.selectorCount, (st.withMethod xt).selectors s = st.selectors s := fun s hs =>
    ha.withMethod_selector xt hs
  have hcases : ∀ s < h.selectorCount + 1, s = h.selectorCount ∨ s < h.selectorCount := by omega
  have hdefault : ∀ i s, s < h.selectorCount → ∀ xt', (h.entries i).default s = some xt' →
      ((h.addMethod xt).entries i).default s = some xt' := by
    intro i s hs xt' hxt'
    rcases eq_or_ne i h.latest with rfl | hi
    · rw [History.default_addMethod, if_neg (by omega)]
      exact hxt'
    · exact (congrArg (fun e => Entry.default e s) (History.entries_say _ hi)).trans hxt'
  -- the offsets in use are below the new one
  have hbelow : ∀ s < h.selectorCount, (st.selectors s).interface ≠ 0 →
      (st.selectors s).interface = (st.defs h.latest).interfaceOffset →
      (st.selectors s).offset < (st.defs h.latest).stop := by
    intro s hs hne heq
    obtain ⟨i, hi, hic, hi', xt', hxt'⟩ := ha.inside s hs hne
    obtain rfl : i = h.latest :=
      ha.injective i hi _ le_rfl hic (hi'.symm.trans heq)
    have := (ha.interfaceOffset _ hi hic).2.2
    have := (ha.defaults _ hi hic s xt' hxt').2.2.1
    rw [Definition.stop]
    omega
  have hownBelow : (h.entries h.latest).isClass = true → ∀ s, h.Has h.latest s →
      (st.selectors s).interface = 0 → (st.selectors s).offset < (st.defs h.latest).stop := by
    rintro hcc s ⟨xt', hs⟩ hzero
    cases (ha.lookup _ le_rfl hcc s xt' hs).2 with
    | own _ _ hhi => exact hhi
    | shared i a _ _ hneg => omega
  exact
    { wellFormed := hwf
      defCount := ha.defCount
      current := ha.current
      selectorCount := congrArg (· + 1) ha.selectorCount
      classParent := fun c hc => by
        rw [(ha.withMethod_defs xt c).2.2.1]
        exact (ha.classParent c hc).trans (History.parent_say _ c).symm
      bounds := fun d hd => by
        obtain ⟨hoffset, -, -, hsize, -⟩ := ha.withMethod_defs xt d
        obtain ⟨h1, h2⟩ := ha.bounds d hd
        rw [Definition.stop] at h2 ⊢
        rw [hoffset]
        exact ⟨h1, by omega⟩
      self := fun d hd => by
        obtain ⟨-, hstop⟩ := ha.bounds d hd
        rw [(ha.withMethod_defs xt d).2.2.2.2 0 (by omega)]
        exact ha.self d hd
      classOffset := fun c hc hcc => by
        rw [(ha.withMethod_defs xt c).2.1]
        exact ha.classOffset c hc ((hclass c).symm.trans hcc)
      interfaceOffset := fun i hi hic => by
        rw [(ha.withMethod_defs xt i).2.1, (ha.withMethod_defs xt i).1]
        exact ha.interfaceOffset i hi ((hclass i).symm.trans hic)
      lastInterfaceOffset := ha.lastInterfaceOffset
      injective := fun i hi j hj hic heq => by
        rw [(ha.withMethod_defs xt i).2.1, (ha.withMethod_defs xt j).2.1] at heq
        exact ha.injective i hi j hj ((hclass i).symm.trans hic) heq
      isInterface := fun s hs => by
        rcases eq_or_ne s h.selectorCount with rfl | hne
        · rw [hnew]
        · have hs' : s < h.selectorCount + 1 := hs
          rw [ha.withMethod_selector xt (by omega)]
          exact ha.isInterface s (by omega)
      inside := fun s hs hne => by
        rcases hcases s hs with rfl | hs
        · rw [hnew] at hne ⊢
          refine ⟨h.latest, le_rfl, ?_, (ha.withMethod_defs xt _).2.1.symm, xt, ?_⟩
          · rw [hclass]
            cases hcc : (h.entries h.latest).isClass with
            | true => exact absurd (ha.classOffset _ le_rfl hcc) hne
            | false => rfl
          · rw [History.default_addMethod, if_pos rfl]
        · rw [hold s hs] at hne ⊢
          obtain ⟨i, hi, hic, heq, xt', hxt'⟩ := ha.inside s hs hne
          refine ⟨i, hi, (hclass i).trans hic, ?_, xt', hdefault i s hs xt' hxt'⟩
          rw [(ha.withMethod_defs xt i).2.1]
          exact heq
      apart := fun s hs s' hs' hne heq hoffset => by
        rcases hcases s hs with rfl | hs <;> rcases hcases s' hs' with rfl | hs'
        · rfl
        · rw [hnew, hold s' hs'] at heq hoffset
          rw [hnew] at hne
          dsimp only at heq hoffset hne
          have := hbelow s' hs' (by omega) heq.symm
          omega
        · rw [hnew, hold s hs] at heq hoffset
          rw [hold s hs] at hne
          dsimp only at heq hoffset
          have := hbelow s hs hne heq
          omega
        · rw [hold s hs, hold s' hs'] at heq hoffset
          rw [hold s hs] at hne
          exact ha.apart s hs s' hs' hne heq hoffset
      defaults := fun i hi hic s xt' hs => by
        rw [hclass] at hic
        obtain ⟨-, -, hzero⟩ := ha.interfaceOffset i hi hic
        obtain ⟨-, hioffset, -, hsize, hmap⟩ := ha.withMethod_defs xt i
        by_cases hcase : i = h.latest ∧ h.selectorCount = s
        · obtain ⟨rfl, rfl⟩ := hcase
          obtain ⟨-, hstop⟩ := ha.bounds _ hi
          rw [History.default_addMethod, if_pos rfl] at hs
          rw [hnew, ha.withMethod_latest, ← Option.some.inj hs]
          refine ⟨rfl, hstop, ?_, Function.update_self _ _ _⟩
          simp only [Definition.stop]
          omega
        · have hs' : (h.entries i).default s = some xt' := by
            rcases eq_or_ne i h.latest with rfl | hne
            · rwa [History.default_addMethod, if_neg fun heq => hcase ⟨rfl, heq⟩] at hs
            · exact (congrArg (fun e => Entry.default e s) (History.entries_say _ hne)).symm.trans hs
          obtain ⟨h1, h2, h3, h4⟩ := ha.defaults i hi hic s xt' hs'
          rw [hold s (ha.wellFormed.defaults i hi s xt' hs'), hioffset,
            hmap _ (by rw [Definition.stop]; omega)]
          exact ⟨h1, h2, by omega, h4⟩
      lookup := fun c hc hcc s xt' hs => by
        rw [hclass] at hcc
        obtain ⟨h1, h2⟩ := ha.bounds c hc
        rcases hhas c hc s ⟨xt', hs⟩ with ⟨rfl, rfl⟩ | ⟨⟨xt'', hold⟩, hcase⟩
        · refine ⟨Nat.lt_succ_self _, .own ?_ ?_ ?_ ?_⟩ <;> rw [hnew]
          · exact ha.classOffset _ hc hcc
          · exact h2
          · rw [ha.withMethod_latest]
            simp only [Definition.stop]
            omega
          · rw [hlatest, if_pos rfl] at hs
            rw [ha.withMethod_latest, ← Option.some.inj hs]
            exact Function.update_self _ _ _
        · have hs' : h.lookup s c = some xt' := by
            rcases hcase with hc' | hne
            · rwa [hlookup s c hc'] at hs
            · rcases Nat.lt_or_ge c h.latest with hc' | hge
              · rwa [hlookup s c hc'] at hs
              · obtain rfl : c = h.latest := Nat.le_antisymm hc hge
                rwa [hlatest, if_neg hne.symm] at hs
          obtain ⟨hs'', hholds⟩ := ha.lookup c hc hcc s xt' hs'
          exact ⟨Nat.lt_succ_of_lt hs'', hholds.withMethod ha h2 hs''⟩
      ownApart := fun c hc hcc s s' hs hs' h1 h2 h3 => by
        rw [hclass] at hcc
        rcases hhas c hc s hs with ⟨rfl, rfl⟩ | ⟨hs, -⟩ <;>
          rcases hhas _ hc s' hs' with ⟨hc', rfl⟩ | ⟨hs', -⟩
        · rfl
        · rw [hnew, hold s' (hlt _ hc hcc s' hs')] at h3
          rw [hold s' (hlt _ hc hcc s' hs')] at h2
          have := hownBelow hcc s' hs' h2
          dsimp only at h3
          omega
        · subst hc'
          rw [hnew, hold s (hlt _ hc hcc s hs)] at h3
          rw [hold s (hlt _ hc hcc s hs)] at h1
          have := hownBelow hcc s hs h1
          dsimp only at h3
          omega
        · rw [hold s (hlt c hc hcc s hs)] at h1 h3
          rw [hold s' (hlt c hc hcc s' hs')] at h2 h3
          exact ha.ownApart c hc hcc s s' hs hs' h1 h2 h3
      unshared := fun hopen hcc c hc hcc' s s' a hs hs' hne hne' hmap hmap' => by
        change h.isOpen = true at hopen
        change ((h.addMethod xt).entries h.latest).isClass = true at hcc
        change c < h.latest at hc
        change (h.addMethod xt).Has h.latest s' at hs'
        change ((st.withMethod xt).defs h.latest).map _ = _ at hmap'
        rw [hclass] at hcc hcc'
        have hs : h.Has c s := by
          rcases hhas c (Nat.le_of_lt hc) s hs with ⟨rfl, -⟩ | ⟨hs, -⟩
          · omega
          · exact hs
        have hs' : h.Has h.latest s' := by
          rcases hhas _ le_rfl s' hs' with ⟨-, rfl⟩ | ⟨hs', -⟩
          · rw [hnew] at hne'
            exact absurd (ha.classOffset _ le_rfl hcc) hne'
          · exact hs'
        rw [hold s (hlt c (Nat.le_of_lt hc) hcc' s hs)] at hne hmap
        rw [hold s' (hlt _ le_rfl hcc s' hs')] at hne' hmap' ⊢
        rw [ha.withMethod_old (Nat.ne_of_lt hc)] at hmap
        obtain ⟨hneg, -⟩ := ha.slot le_rfl hcc hs' hne'
        obtain ⟨-, hstop⟩ := ha.bounds h.latest le_rfl
        rw [(ha.withMethod_defs xt _).2.2.2.2 _ (by omega)] at hmap'
        obtain ⟨p, hp, hparent⟩ := ha.unshared hopen hcc c hc hcc' s s' a hs hs' hne hne' hmap hmap'
        refine ⟨p, (History.parent_say _ _).trans hp, ?_⟩
        rw [ha.withMethod_old (Nat.ne_of_lt (ha.wellFormed.parent _ le_rfl p hp).1)]
        exact hparent }

end

/-! ## Changes of a class -/

/-- Another history, with the same definitions and the same interfaces -/
structure History.SameShape (h h' : History X) : Prop where
  latest : h'.latest = h.latest
  selectorCount : h'.selectorCount = h.selectorCount
  isOpen : h'.isOpen = h.isOpen
  isClass : ∀ c, (h'.entries c).isClass = (h.entries c).isClass
  parent : ∀ c, h'.parent c = h.parent c
  interface : ∀ i, (h.entries i).isClass = false → h'.entries i = h.entries i
  lookup : h.WellFormed → ∀ s, ∀ c < h.latest, h'.lookup s c = h.lookup s c

/-- Only cells of the map of the current definition and of interface maps are changed. -/
structure CellsOnly (st st' : State X) : Prop where
  defCount : st'.defCount = st.defCount
  current : st'.current = st.current
  selectorCount : st'.selectorCount = st.selectorCount
  selectors : st'.selectors = st.selectors
  lastInterfaceOffset : st'.lastInterfaceOffset = st.lastInterfaceOffset
  next : st.next ≤ st'.next
  other : ∀ d, d ≠ st.current → st'.defs d = st.defs d
  defs : ∀ d, ∃ map, st'.defs d = { st.defs d with map := map }

theorem History.SameShape.refl (h : History X) : h.SameShape h :=
  ⟨rfl, rfl, rfl, fun _ => rfl, fun _ => rfl, fun _ _ => rfl, fun _ _ _ _ => rfl⟩

/-- What is said about a class leaves the interfaces alone. -/
theorem History.SameShape.say (hclass : (h.entries h.latest).isClass = true) (e : Event X) :
    h.SameShape (h.say e) where
  latest := rfl
  selectorCount := rfl
  isOpen := rfl
  isClass := History.isClass_say e
  parent := History.parent_say e
  interface i hi := History.entries_say e fun heq => by
    rw [heq, hclass] at hi
    cases hi
  lookup hwf s _ hc := History.lookup_say_of_ne hwf e s hc

namespace CellsOnly

variable {st' : State X} (hcells : CellsOnly st st')

include hcells

/-- An extended map has the same fields. -/
theorem fields (d : Nat) :
    (st'.defs d).mapOffset = (st.defs d).mapOffset ∧ (st'.defs d).size = (st.defs d).size ∧
      (st'.defs d).interfaceOffset = (st.defs d).interfaceOffset ∧
      (st'.defs d).classParent = (st.defs d).classParent := by
  obtain ⟨map, hmap⟩ := hcells.defs d
  rw [hmap]
  exact ⟨rfl, rfl, rfl, rfl⟩

/-- What a class has is kept if the cells are. -/
theorem holds {c s : Nat} {xt : X} (hholds : Holds st c s xt)
    (hown : (st.selectors s).interface = 0 →
      (st'.defs c).map (st.selectors s).offset = (st.defs c).map (st.selectors s).offset)
    (hslot : (st.selectors s).interface ≠ 0 →
      (st'.defs c).map (st.selectors s).interface = (st.defs c).map (st.selectors s).interface)
    (hmaps : ∀ a < st.next, (st.selectors s).interface ≠ 0 →
      (st.defs c).map (st.selectors s).interface = .map a →
        st'.maps a 0 = st.maps a 0 ∧
          st'.maps a (st.selectors s).offset = st.maps a (st.selectors s).offset) :
    Holds st' c s xt := by
  obtain ⟨hoffset, hsize, -, -⟩ := hcells.fields c
  have hsel : st'.selectors s = st.selectors s := by rw [hcells.selectors]
  cases hholds with
  | own hinterface hlo hhi hxt =>
    refine .own ?_ ?_ ?_ ?_ <;> rw [hsel]
    · exact hinterface
    · exact hlo
    · rw [Definition.stop, hsize, hoffset]
      exact hhi
    · rw [hown hinterface]
      exact hxt
  | shared k a hk hinterface hneg hslot' hnext hcell hself hlo hhi hxt =>
    obtain ⟨-, hksize, hkoffset, -⟩ := hcells.fields k
    obtain ⟨hzero, hcell'⟩ := hmaps a hnext (by omega) hcell
    refine .shared k a ?_ ?_ ?_ ?_ (Nat.lt_of_lt_of_le hnext hcells.next) ?_ ?_ ?_ ?_ ?_ <;>
      try rw [hsel]
    · rw [hcells.defCount]
      exact hk
    · rw [hkoffset]
      exact hinterface
    · exact hneg
    · rw [hoffset]
      exact hslot'
    · rw [hslot (by omega)]
      exact hcell
    · rw [hzero]
      exact hself
    · exact hlo
    · rw [hksize]
      exact hhi
    · rw [hcell']
      exact hxt

end CellsOnly

/-- Everything agrees after a change of cells if the classes have what they should. -/
theorem Agrees.changed {h' : History X} {st' : State X} (ha : Agrees h st)
    (hclass : (h.entries h.latest).isClass = true) (hsame : h.SameShape h') (hwf : h'.WellFormed)
    (hcells : CellsOnly st st') (hself : (st'.defs h.latest).map 0 = .definition h.latest)
    (hold : ∀ c < h.latest, (h.entries c).isClass = true → ∀ s xt, h.lookup s c = some xt →
      Holds st' c s xt)
    (hlatest : ∀ s xt, h'.lookup s h.latest = some xt →
      s < h.selectorCount ∧ Holds st' h.latest s xt)
    (hownApart : ∀ s s', h'.Has h.latest s → h'.Has h.latest s' → (st.selectors s).interface = 0 →
      (st.selectors s').interface = 0 → (st.selectors s).offset = (st.selectors s').offset → s = s')
    (hunshared : h.isOpen = true → ∀ c < h.latest, (h.entries c).isClass = true → ∀ s s' a,
      h.Has c s → h'.Has h.latest s' → (st.selectors s).interface ≠ 0 →
      (st.selectors s').interface ≠ 0 → (st.defs c).map (st.selectors s).interface = .map a →
      (st'.defs h.latest).map (st.selectors s').interface = .map a →
      ∃ p, h.parent h.latest = some p ∧ (st.defs p).map (st.selectors s').interface = .map a) :
    Agrees h' st' := by
  have hfields := hcells.fields
  have hother : ∀ d < h.latest, st'.defs d = st.defs d := fun d hd =>
    hcells.other d (by rw [ha.current]; omega)
  have hlookup := hsame.lookup ha.wellFormed
  exact
    { wellFormed := hwf
      defCount := by rw [hcells.defCount, hsame.latest, ha.defCount]
      current := by rw [hcells.current, hsame.latest, ha.current]
      selectorCount := by rw [hcells.selectorCount, hsame.selectorCount, ha.selectorCount]
      classParent := fun c hc => by
        rw [hsame.latest] at hc
        rw [(hfields c).2.2.2, hsame.parent]
        exact ha.classParent c hc
      bounds := fun d hd => by
        rw [hsame.latest] at hd
        rw [Definition.stop, (hfields d).1, (hfields d).2.1]
        exact ha.bounds d hd
      self := fun d hd => by
        rw [hsame.latest] at hd
        rcases Nat.lt_or_ge d h.latest with hlt | hge
        · rw [hother d hlt]
          exact ha.self d hd
        · obtain rfl : d = h.latest := Nat.le_antisymm hd hge
          exact hself
      classOffset := fun c hc hcc => by
        rw [hsame.latest] at hc
        rw [hsame.isClass] at hcc
        rw [(hfields c).2.2.1]
        exact ha.classOffset c hc hcc
      interfaceOffset := fun i hi hic => by
        rw [hsame.latest] at hi
        rw [hsame.isClass] at hic
        rw [(hfields i).2.2.1, (hfields i).1, hcells.lastInterfaceOffset]
        exact ha.interfaceOffset i hi hic
      lastInterfaceOffset := by
        rw [hcells.lastInterfaceOffset]
        exact ha.lastInterfaceOffset
      injective := fun i hi j hj hic heq => by
        rw [hsame.latest] at hi hj
        rw [hsame.isClass] at hic
        rw [(hfields i).2.2.1, (hfields j).2.2.1] at heq
        exact ha.injective i hi j hj hic heq
      isInterface := fun s hs => by
        rw [hsame.selectorCount] at hs
        rw [hcells.selectors]
        exact ha.isInterface s hs
      inside := fun s hs hne => by
        rw [hsame.selectorCount] at hs
        rw [hcells.selectors] at hne ⊢
        obtain ⟨i, hi, hic, heq, hdefault⟩ := ha.inside s hs hne
        refine ⟨i, by rwa [hsame.latest], (hsame.isClass i).trans hic, ?_, ?_⟩
        · rw [(hfields i).2.2.1]
          exact heq
        · rw [hsame.interface i hic]
          exact hdefault
      apart := fun s hs s' hs' => by
        rw [hsame.selectorCount] at hs hs'
        rw [hcells.selectors]
        exact ha.apart s hs s' hs'
      defaults := fun i hi hic s xt hs => by
        rw [hsame.latest] at hi
        rw [hsame.isClass] at hic
        rw [hsame.interface i hic] at hs
        have hne : i ≠ h.latest := fun heq => by
          rw [heq, hclass] at hic
          cases hic
        rw [hcells.selectors, hother i (by omega)]
        exact ha.defaults i hi hic s xt hs
      lookup := fun c hc hcc s xt hs => by
        rw [hsame.latest] at hc
        rw [hsame.isClass] at hcc
        rw [hsame.selectorCount]
        rcases Nat.lt_or_ge c h.latest with hlt | hge
        · rw [hlookup s c hlt] at hs
          exact ⟨(ha.lookup c hc hcc s xt hs).1, hold c hlt hcc s xt hs⟩
        · obtain rfl : c = h.latest := Nat.le_antisymm hc hge
          exact hlatest s xt hs
      ownApart := fun c hc hcc s s' hs hs' => by
        rw [hsame.latest] at hc
        rw [hsame.isClass] at hcc
        rw [hcells.selectors]
        rcases Nat.lt_or_ge c h.latest with hlt | hge
        · rw [History.Has, hlookup _ c hlt] at hs hs'
          exact ha.ownApart c hc hcc s s' hs hs'
        · obtain rfl : c = h.latest := Nat.le_antisymm hc hge
          exact hownApart s s' hs hs'
      unshared := fun hopen hcc c hc hcc' s s' a hs hs' hne hne' hmap hmap' => by
        rw [hsame.isOpen] at hopen
        rw [hsame.latest] at hc hs' hmap' ⊢
        rw [hsame.isClass] at hcc'
        rw [hcells.selectors] at hne hne' hmap hmap' ⊢
        rw [History.Has, hlookup s c hc] at hs
        rw [hother c hc] at hmap
        obtain ⟨p, hp, hparent⟩ := hunshared hopen c hc hcc' s s' a hs hs' hne hne' hmap hmap'
        refine ⟨p, (hsame.parent _).trans hp, ?_⟩
        rw [hother p (ha.wellFormed.parent _ le_rfl p hp).1]
        exact hparent }

/-! ## Implementations -/

/-- The second part of {lit}`implementation` -/
def State.withImplementation (st : State X) (i : Nat) : State X :=
  let d := st.currentDef
  let interface := st.defs i
  { st.set { d with map := Function.update d.map interface.interfaceOffset (.map st.next) } with
    maps := Function.update st.maps st.next
      (copy 0 interface.size (fun j => interface.map (j - interface.mapOffset)) (around st.next))
    next := st.next + 1 }

/-- {lit}`implementation` extends the map first. -/
theorem implementation_eq {i : Nat} {st : State X} (hi : i ≠ st.current) :
    implementation around i st =
      (st.extended around (st.defs i).interfaceOffset).withImplementation around i := by
  have hdef : (st.extended around (st.defs i).interfaceOffset).defs i = st.defs i :=
    Function.update_of_ne hi _ _
  rw [State.withImplementation, hdef, State.currentDef_extended]
  simp [implementation, State.extended, State.set, Function.update_idem]

section

variable {i : Nat}

/-- Only the cell of an interface changes. -/
theorem CellsOnly.withImplementation (i : Nat) (st : State X) :
    CellsOnly st (st.withImplementation around i) where
  defCount := rfl
  current := rfl
  selectorCount := rfl
  selectors := rfl
  lastInterfaceOffset := rfl
  next := Nat.le_succ _
  other d hd := Function.update_of_ne hd _ _
  defs d := by
    rcases eq_or_ne d st.current with rfl | hd
    · exact ⟨_, Function.update_self _ _ _⟩
    · exact ⟨_, Function.update_of_ne hd _ _⟩

theorem withImplementation_slot (i : Nat) (st : State X) :
    ((st.withImplementation around i).defs st.current).map (st.defs i).interfaceOffset =
      .map st.next := by
  simp [State.withImplementation, State.set]

/-- Other cells are left as they are. -/
theorem withImplementation_cell (c : Nat) {j : Int} (hj : j ≠ (st.defs i).interfaceOffset) :
    ((st.withImplementation around i).defs c).map j = (st.defs c).map j := by
  rcases eq_or_ne c st.current with rfl | hc
  · simp [State.withImplementation, State.set, State.currentDef, Function.update_of_ne hj]
  · rw [(CellsOnly.withImplementation around i st).other c hc]

theorem withImplementation_maps {a : Nat} (hnext : a < st.next) :
    (st.withImplementation around i).maps a = st.maps a :=
  Function.update_of_ne (Nat.ne_of_lt hnext) _ _

/-- Everything agrees after an implementation. -/
theorem Agrees.withImplementation (ha : Agrees h st) (hlatest : (h.entries h.latest).isClass = true)
    (hi : i < h.latest) (hic : (h.entries i).isClass = false)
    (hfits : -(st.defs h.latest).mapOffset ≤ (st.defs i).interfaceOffset)
    (hwf : (h.say (.implementation i)).WellFormed) :
    Agrees (h.say (.implementation i)) (st.withImplementation around i) := by
  obtain ⟨-, hneg, hzero⟩ := ha.interfaceOffset i (Nat.le_of_lt hi) hic
  have hcells := CellsOnly.withImplementation around i st
  have hlookup : ∀ s, (h.say (.implementation i)).lookup s h.latest =
      ((h.entries i).default s).orElse fun _ => h.lookup s h.latest := fun s =>
    History.lookup_say ha.wellFormed (fun j hj => (by cases hj; exact hi)) s
  have hdefault := ha.defaults i (Nat.le_of_lt hi) hic
  have hcopy : ∀ j, 0 ≤ j → j < (st.defs i).size →
      (st.withImplementation around i).maps st.next j = (st.defs i).map j := by
    intro j hlo hhi
    refine (congrFun (Function.update_self st.next _ _) j).trans ?_
    rw [copy_of_mem _ _ hlo hhi, hzero, Int.sub_zero]
  -- the selectors of the interface are those with its offset
  have hnone : ∀ s < h.selectorCount, (h.entries i).default s = none →
      (st.selectors s).interface ≠ (st.defs i).interfaceOffset := by
    intro s hs hdefault heq
    obtain ⟨j, hj, hjc, hj', xt, hxt⟩ := ha.inside s hs (by omega)
    obtain rfl : i = j := ha.injective i (Nat.le_of_lt hi) j hj hic (heq.symm.trans hj')
    rw [hdefault] at hxt
    cases hxt
  have hhas : ∀ s, (h.say (.implementation i)).Has h.latest s →
      (st.selectors s).interface ≠ (st.defs i).interfaceOffset → h.Has h.latest s := by
    rintro s ⟨xt, hs⟩ hne
    rw [hlookup] at hs
    cases hs' : (h.entries i).default s with
    | some xt' => exact absurd (hdefault s xt' hs').1 hne
    | none =>
      rw [hs'] at hs
      exact ⟨xt, hs⟩
  refine ha.changed hlatest (.say hlatest _) hwf hcells ?_ ?_ ?_ ?_ ?_
  · rw [withImplementation_cell around _ (by omega)]
    exact ha.self _ le_rfl
  · intro c hc hcc s xt hs
    have hother := hcells.other c (by rw [ha.current]; omega)
    refine hcells.holds (ha.lookup c (Nat.le_of_lt hc) hcc s xt hs).2 (fun _ => by rw [hother])
      (fun _ => by rw [hother]) fun a hnext _ _ => ?_
    rw [withImplementation_maps around hnext]
    exact ⟨rfl, rfl⟩
  · intro s xt hs
    rw [hlookup] at hs
    cases hs' : (h.entries i).default s with
    | none =>
      rw [hs'] at hs
      obtain ⟨hlt, hholds⟩ := ha.lookup _ le_rfl hlatest s xt hs
      have hne := hnone s hlt hs'
      refine ⟨hlt, hcells.holds hholds (fun hown => ?_)
        (fun _ => withImplementation_cell around _ hne) fun a hnext _ _ => ?_⟩
      · refine withImplementation_cell around _ ?_
        cases hholds with
        | own _ hlo => omega
        | shared k a _ _ hneg' => omega
      · rw [withImplementation_maps around hnext]
        exact ⟨rfl, rfl⟩
    | some xt' =>
      rw [hs'] at hs
      obtain rfl : xt' = xt := Option.some.inj hs
      obtain ⟨h1, h2, h3, h4⟩ := hdefault s xt' hs'
      have hslot := withImplementation_slot around i st
      rw [ha.current, ← h1] at hslot
      refine ⟨ha.wellFormed.defaults i (Nat.le_of_lt hi) s xt' hs',
        .shared i st.next ?_ ?_ ?_ ?_ (Nat.lt_succ_self _) hslot ?_ h2 ?_ ?_⟩
      · change i < st.defCount
        rw [ha.defCount]
        omega
      · rw [(hcells.fields i).2.2.1]
        exact h1
      · exact h1 ▸ hneg
      · rw [(hcells.fields _).1]
        exact Int.le_trans hfits (Int.le_of_eq h1.symm)
      · exact (hcopy 0 (Int.le_refl 0) (by omega)).trans (ha.self i (Nat.le_of_lt hi))
      · rw [(hcells.fields i).2.1]
        exact h3
      · exact (hcopy _ (by omega) h3).trans h4
  · intro s s' hs hs' h1 h2 h3
    exact ha.ownApart _ le_rfl hlatest s s' (hhas s hs (by omega)) (hhas s' hs' (by omega)) h1 h2 h3
  · intro hopen c hc hcc s s' a hs hs' hne hne' hmap hmap'
    by_cases heq : (st.selectors s').interface = (st.defs i).interfaceOffset
    · have hslot := withImplementation_slot around i st
      rw [ha.current, ← heq, hmap'] at hslot
      obtain ⟨-, -, k, b, -, hnext, -, hb, -⟩ := ha.slot (Nat.le_of_lt hc) hcc hs hne
      rw [hb, hslot] at hmap
      cases hmap
      omega
    · rw [withImplementation_cell around _ heq] at hmap'
      exact ha.unshared hopen hlatest c hc hcc s s' a hs (hhas s' hs' heq) hne hne' hmap hmap'

end

end Objects
end Gforth
