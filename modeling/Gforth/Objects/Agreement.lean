import Mathlib.Tactic.Common
import Gforth.Objects.Histories

/-!
# Maps and histories

The maps of the classes hold what the history of the program selects.  Interface maps may be shared
between a class and its ancestors; an interface map of the class that is open is shared only if its
parent has the same one in the same place.

Main results:

- Theorem {lit}`Agrees.of_frame`: moving and extending the map of the current definition changes
  nothing.
-/

namespace Gforth
namespace Objects

variable {X : Type}

/-- The place behind the methods of a map -/
def Definition.stop (d : Definition X) : Int :=
  d.size - d.mapOffset

/-- The map of a class has an execution token for a selector: in the map itself, or in the interface
map in the slot of the interface. -/
inductive Holds (st : State X) (c s : Nat) (xt : X) : Prop
  | own (hinterface : (st.selectors s).interface = 0) (hlo : 1 ≤ (st.selectors s).offset)
      (hhi : (st.selectors s).offset < (st.defs c).stop)
      (hxt : (st.defs c).map (st.selectors s).offset = .xt xt)
  | shared (i a : Nat) (hi : i < st.defCount)
      (hinterface : (st.selectors s).interface = (st.defs i).interfaceOffset)
      (hneg : (st.selectors s).interface < 0)
      (hslot : -(st.defs c).mapOffset ≤ (st.selectors s).interface)
      (ha : a < st.next) (hmap : (st.defs c).map (st.selectors s).interface = .map a)
      (hself : st.maps a 0 = .definition i) (hlo : 1 ≤ (st.selectors s).offset)
      (hhi : (st.selectors s).offset < (st.defs i).size)
      (hxt : st.maps a (st.selectors s).offset = .xt xt)

/-- The class has the selector. -/
def History.Has (h : History X) (c s : Nat) : Prop :=
  ∃ xt, h.lookup s c = some xt

/-- The definitions and maps are those that the history says. -/
structure Agrees (h : History X) (st : State X) : Prop where
  wellFormed : h.WellFormed
  defCount : st.defCount = h.latest + 1
  current : st.current = h.latest
  selectorCount : st.selectorCount = h.selectorCount
  classParent : ∀ c ≤ h.latest, (st.defs c).classParent = h.parent c
  bounds : ∀ d ≤ h.latest, 0 ≤ (st.defs d).mapOffset ∧ 1 ≤ (st.defs d).stop
  self : ∀ d ≤ h.latest, (st.defs d).map 0 = .definition d
  classOffset : ∀ c ≤ h.latest, (h.entries c).isClass = true → (st.defs c).interfaceOffset = 0
  interfaceOffset : ∀ i ≤ h.latest, (h.entries i).isClass = false →
    st.lastInterfaceOffset ≤ (st.defs i).interfaceOffset ∧ (st.defs i).interfaceOffset < 0 ∧
      (st.defs i).mapOffset = 0
  lastInterfaceOffset : st.lastInterfaceOffset ≤ 0
  injective : ∀ i ≤ h.latest, ∀ j ≤ h.latest, (h.entries i).isClass = false →
    (st.defs i).interfaceOffset = (st.defs j).interfaceOffset → i = j
  isInterface : ∀ s < h.selectorCount,
    (st.selectors s).isInterface = decide ((st.selectors s).interface ≠ 0)
  inside : ∀ s < h.selectorCount, (st.selectors s).interface ≠ 0 →
    ∃ i ≤ h.latest, (h.entries i).isClass = false ∧
      (st.selectors s).interface = (st.defs i).interfaceOffset ∧ ∃ xt, (h.entries i).default s = some xt
  apart : ∀ s < h.selectorCount, ∀ s' < h.selectorCount, (st.selectors s).interface ≠ 0 →
    (st.selectors s).interface = (st.selectors s').interface →
    (st.selectors s).offset = (st.selectors s').offset → s = s'
  defaults : ∀ i ≤ h.latest, (h.entries i).isClass = false → ∀ s xt,
    (h.entries i).default s = some xt →
      (st.selectors s).interface = (st.defs i).interfaceOffset ∧ 1 ≤ (st.selectors s).offset ∧
        (st.selectors s).offset < (st.defs i).size ∧
        (st.defs i).map (st.selectors s).offset = .xt xt
  lookup : ∀ c ≤ h.latest, (h.entries c).isClass = true → ∀ s xt, h.lookup s c = some xt →
    s < h.selectorCount ∧ Holds st c s xt
  ownApart : ∀ c ≤ h.latest, (h.entries c).isClass = true → ∀ s s', h.Has c s → h.Has c s' →
    (st.selectors s).interface = 0 → (st.selectors s').interface = 0 →
    (st.selectors s).offset = (st.selectors s').offset → s = s'
  unshared : h.isOpen = true → (h.entries h.latest).isClass = true → ∀ c < h.latest,
    (h.entries c).isClass = true → ∀ s s' a, h.Has c s → h.Has h.latest s' →
    (st.selectors s).interface ≠ 0 → (st.selectors s').interface ≠ 0 →
    (st.defs c).map (st.selectors s).interface = .map a →
    (st.defs h.latest).map (st.selectors s').interface = .map a →
    ∃ p, h.parent h.latest = some p ∧ (st.defs p).map (st.selectors s').interface = .map a

/-- A class that has a selector of an interface has a slot for the interface. -/
theorem Agrees.slot {h : History X} {st : State X} (ha : Agrees h st) {c s : Nat} (hc : c ≤ h.latest)
    (hclass : (h.entries c).isClass = true) (hs : h.Has c s)
    (hne : (st.selectors s).interface ≠ 0) :
    (st.selectors s).interface < 0 ∧ -(st.defs c).mapOffset ≤ (st.selectors s).interface ∧
      ∃ i a, i < st.defCount ∧ a < st.next ∧
        (st.selectors s).interface = (st.defs i).interfaceOffset ∧
        (st.defs c).map (st.selectors s).interface = .map a ∧ st.maps a 0 = .definition i := by
  obtain ⟨xt, hs⟩ := hs
  cases (ha.lookup c hc hclass s xt hs).2 with
  | own hzero => exact absurd hzero hne
  | shared i a hi hinterface hneg hslot hnext hmap hself =>
    exact ⟨hneg, hslot, i, a, hi, hnext, hinterface, hmap, hself⟩

/-! ## Frames -/

/-- The current definition gets a larger map with the same cells, and other maps are new. -/
structure Frame (st st' : State X) : Prop where
  defCount : st'.defCount = st.defCount
  current : st'.current = st.current
  selectorCount : st'.selectorCount = st.selectorCount
  selectors : st'.selectors = st.selectors
  lastInterfaceOffset : st'.lastInterfaceOffset = st.lastInterfaceOffset
  next : st.next ≤ st'.next
  maps : ∀ a < st.next, st'.maps a = st.maps a
  defs : ∀ d, d ≠ st.current → st'.defs d = st.defs d
  classParent : st'.currentDef.classParent = st.currentDef.classParent
  interfaceOffset : st'.currentDef.interfaceOffset = st.currentDef.interfaceOffset
  mapOffset : st.currentDef.mapOffset ≤ st'.currentDef.mapOffset
  mapOffset_eq : st.currentDef.interfaceOffset ≠ 0 →
    st'.currentDef.mapOffset = st.currentDef.mapOffset
  stop : st'.currentDef.stop = st.currentDef.stop
  map : ∀ j, -st.currentDef.mapOffset ≤ j → j < st.currentDef.stop →
    st'.currentDef.map j = st.currentDef.map j

namespace Frame

variable {st st' : State X} (hf : Frame st st')

include hf

/-- A field of a definition that is kept is kept for all of them. -/
theorem keeps {α : Type} (field : Definition X → α)
    (hcurrent : field st'.currentDef = field st.currentDef) (d : Nat) :
    field (st'.defs d) = field (st.defs d) := by
  rcases eq_or_ne d st.current with rfl | hd
  · rw [State.currentDef, State.currentDef, hf.current] at hcurrent
    exact hcurrent
  · rw [hf.defs d hd]

/-- A cell of a map that has been extended -/
theorem cell (d : Nat) {j : Int} (hlo : -(st.defs d).mapOffset ≤ j) (hhi : j < (st.defs d).stop) :
    (st'.defs d).map j = (st.defs d).map j := by
  rcases eq_or_ne d st.current with rfl | hd
  · have hmap := hf.map j hlo hhi
    rw [State.currentDef, State.currentDef, hf.current] at hmap
    exact hmap
  · rw [hf.defs d hd]

/-- Maps grow at their front. -/
theorem mapOffset_le (d : Nat) : (st.defs d).mapOffset ≤ (st'.defs d).mapOffset := by
  rcases eq_or_ne d st.current with rfl | hd
  · have hle := hf.mapOffset
    rw [State.currentDef, State.currentDef, hf.current] at hle
    exact hle
  · exact Int.le_of_eq (by rw [hf.defs d hd])

/-- The size of an interface is kept. -/
theorem interface (d : Nat) (hd : (st.defs d).interfaceOffset ≠ 0) :
    (st'.defs d).mapOffset = (st.defs d).mapOffset ∧ (st'.defs d).size = (st.defs d).size := by
  have hstop := hf.keeps Definition.stop hf.stop d
  have hoffset : (st'.defs d).mapOffset = (st.defs d).mapOffset := by
    rcases eq_or_ne d st.current with rfl | hne
    · have hkeep := hf.mapOffset_eq hd
      rw [State.currentDef, State.currentDef, hf.current] at hkeep
      exact hkeep
    · rw [hf.defs d hne]
  rw [Definition.stop, Definition.stop] at hstop
  exact ⟨hoffset, by omega⟩

/-- A method stays in its map. -/
theorem holds {c s : Nat} {xt : X} (hc : 0 ≤ (st.defs c).mapOffset) (hstop : 1 ≤ (st.defs c).stop)
    (h : Holds st c s xt) : Holds st' c s xt := by
  have hsel : st'.selectors s = st.selectors s := by rw [hf.selectors]
  cases h with
  | own hinterface hlo hhi hxt =>
    refine .own ?_ ?_ ?_ ?_ <;> rw [hsel]
    · exact hinterface
    · exact hlo
    · rwa [hf.keeps Definition.stop hf.stop]
    · rwa [hf.cell c (by omega) hhi]
  | shared i a hi hinterface hneg hslot ha hmap hself hlo hhi hxt =>
    have hle := hf.mapOffset_le c
    refine .shared i a ?_ ?_ ?_ ?_ (Nat.lt_of_lt_of_le ha hf.next) ?_ ?_ ?_ ?_ ?_ <;>
      try rw [hsel]
    · rwa [hf.defCount]
    · rwa [hf.keeps Definition.interfaceOffset hf.interfaceOffset]
    · exact hneg
    · omega
    · rwa [hf.cell c hslot (by omega)]
    · rwa [hf.maps a ha]
    · exact hlo
    · rwa [(hf.interface i (by omega)).2]
    · rwa [hf.maps a ha]

end Frame

/-- Moving and extending the map of the current definition changes nothing. -/
theorem Agrees.of_frame {h : History X} {st st' : State X} (h' : Agrees h st)
    (hf : Frame st st') : Agrees h st' where
  wellFormed := h'.wellFormed
  defCount := hf.defCount.trans h'.defCount
  current := hf.current.trans h'.current
  selectorCount := hf.selectorCount.trans h'.selectorCount
  classParent c hc :=
    (hf.keeps Definition.classParent hf.classParent c).trans (h'.classParent c hc)
  bounds d hd := by
    obtain ⟨hoffset, hstop⟩ := h'.bounds d hd
    have hle := hf.mapOffset_le d
    rw [hf.keeps Definition.stop hf.stop]
    exact ⟨by omega, hstop⟩
  self d hd := by
    obtain ⟨hoffset, hstop⟩ := h'.bounds d hd
    rw [hf.cell d (by omega) (by omega)]
    exact h'.self d hd
  classOffset c hc hclass :=
    (hf.keeps Definition.interfaceOffset hf.interfaceOffset c).trans (h'.classOffset c hc hclass)
  interfaceOffset i hi hclass := by
    obtain ⟨hlast, hneg, hoffset⟩ := h'.interfaceOffset i hi hclass
    rw [hf.keeps Definition.interfaceOffset hf.interfaceOffset, hf.lastInterfaceOffset,
      (hf.interface i (by omega)).1]
    exact ⟨hlast, hneg, hoffset⟩
  lastInterfaceOffset := hf.lastInterfaceOffset ▸ h'.lastInterfaceOffset
  injective i hi j hj hclass heq := by
    rw [hf.keeps Definition.interfaceOffset hf.interfaceOffset,
      hf.keeps Definition.interfaceOffset hf.interfaceOffset] at heq
    exact h'.injective i hi j hj hclass heq
  isInterface s hs := by
    rw [hf.selectors]
    exact h'.isInterface s hs
  inside s hs hne := by
    rw [hf.selectors] at hne
    obtain ⟨i, hi, hclass, heq, hdefault⟩ := h'.inside s hs hne
    refine ⟨i, hi, hclass, ?_, hdefault⟩
    rw [hf.selectors, hf.keeps Definition.interfaceOffset hf.interfaceOffset, heq]
  apart := hf.selectors ▸ h'.apart
  defaults i hi hclass s xt hs := by
    obtain ⟨hinterface, hlo, hhi, hxt⟩ := h'.defaults i hi hclass s xt hs
    obtain ⟨-, hneg, hoffset⟩ := h'.interfaceOffset i hi hclass
    rw [hf.selectors, hf.keeps Definition.interfaceOffset hf.interfaceOffset,
      (hf.interface i (by omega)).2, hf.cell i (by omega) (by rw [Definition.stop]; omega)]
    exact ⟨hinterface, hlo, hhi, hxt⟩
  lookup c hc hclass s xt hs := by
    obtain ⟨hlt, hholds⟩ := h'.lookup c hc hclass s xt hs
    obtain ⟨hoffset, hstop⟩ := h'.bounds c hc
    exact ⟨hlt, hf.holds hoffset hstop hholds⟩
  ownApart := hf.selectors ▸ h'.ownApart
  unshared hopen hclass c hc hclass' s s' a hs hs' hne hne' hmap hmap' := by
    have hkeep : ∀ d ≤ h.latest, (h.entries d).isClass = true → ∀ t, h.Has d t →
        (st.selectors t).interface ≠ 0 → (st'.defs d).map (st.selectors t).interface =
          (st.defs d).map (st.selectors t).interface := by
      intro d hd hdclass t ht hinterface
      obtain ⟨-, hstop⟩ := h'.bounds d hd
      obtain ⟨hneg, hslot, -⟩ := h'.slot hd hdclass ht hinterface
      exact hf.cell d hslot (by omega)
    rw [hf.selectors] at hne hne' hmap hmap' ⊢
    rw [hkeep c (Nat.le_of_lt hc) hclass' s hs hne] at hmap
    rw [hkeep _ (Nat.le_refl _) hclass s' hs' hne'] at hmap'
    obtain ⟨p, hp, hparent⟩ :=
      h'.unshared hopen hclass c hc hclass' s s' a hs hs' hne hne' hmap hmap'
    have hlt := (h'.wellFormed.parent _ (Nat.le_refl _) p hp).1
    refine ⟨p, hp, ?_⟩
    rw [hf.defs p (by rw [h'.current]; omega)]
    exact hparent

end Objects
end Gforth
