import Gforth.Lib.Inheritance
import Gforth.Objects.Maps

/-!
# Histories of definitions

What a program says about its classes: for each interface and class, the words between its start and
its end.  A method is what the last of them says about a selector, or what the nearest ancestor
says.

Main results:

- Theorem {lit}`History.lookup_step`: how each word changes what is selected.
-/

namespace Gforth
namespace Objects

open Lib

variable {X : Type}

/-- What a word says about methods -/
inductive Event (X : Type) where
  | method (s : Nat) (xt : X)
  | overrides (s : Nat) (xt : X)
  | implementation (i : Nat)

/-- An interface or a class, with what has been said about it, the latest first -/
structure Entry (X : Type) where
  isClass : Bool
  parent : Option Nat
  events : List (Event X)

/-- What a program has said; only the latest definition can be open. -/
structure History (X : Type) where
  entries : Nat → Entry X
  latest : Nat
  selectorCount : Nat
  isOpen : Bool

/-- The execution token that {lit}`method` says for a selector -/
def Event.method? (s : Nat) : Event X → Option X
  | .method s' xt => if s' = s then some xt else none
  | _ => none

/-- The execution token that {lit}`method` or {lit}`overrides` says for a selector -/
def Event.said? (s : Nat) : Event X → Option X
  | .method s' xt | .overrides s' xt => if s' = s then some xt else none
  | .implementation _ => none

/-- The default of an interface for a selector -/
def Entry.default (e : Entry X) (s : Nat) : Option X :=
  e.events.findSome? (Event.method? s)

namespace History

variable (h : History X)

/-- The execution token that a word gives a selector; an implementation gives the defaults. -/
def given (s : Nat) : Event X → Option X
  | .implementation i => (h.entries i).default s
  | e => e.said? s

/-- What a class gives a selector itself -/
def own (s c : Nat) : Option X :=
  (h.entries c).events.findSome? (h.given s)

/-- The parents of the classes -/
def parent (c : Nat) : Option Nat :=
  (h.entries c).parent

/-- What a class selects -/
def lookup (s c : Nat) : Option X :=
  nearest h.parent (h.own s) c

/-- What is said about a class, without implementations -/
def saidIn (s c : Nat) : Option X :=
  (h.entries c).events.findSome? (Event.said? s)

/-- The default of the interface that has the selector -/
def interfaceDefault (s : Nat) : Option X :=
  (List.range (h.latest + 1)).findSome? fun i =>
    if (h.entries i).isClass then none else (h.entries i).default s

/-- What the last {lit}`overrides` or {lit}`method` in a class or in its nearest ancestor gives, or
else the interface -/
def lastOverride (s c : Nat) : Option X :=
  (nearest h.parent (h.saidIn s) c).orElse fun _ => h.interfaceDefault s

/-- Something is said about the latest definition. -/
def say (e : Event X) : History X :=
  { h with
    entries := Function.update h.entries h.latest
      { h.entries h.latest with events := e :: (h.entries h.latest).events } }

/-- The latest definition has a new selector. -/
def addMethod (xt : X) : History X :=
  { h.say (.method h.selectorCount xt) with selectorCount := h.selectorCount + 1 }

/-- A definition is begun. -/
def begin' (e : Entry X) : History X :=
  { h with
    entries := Function.update h.entries (h.latest + 1) e
    latest := h.latest + 1
    isOpen := true }

variable (noMethod : X)

/-- One word -/
def step : Command X → History X
  | .interface => h.begin' ⟨false, none, []⟩
  | .class' parent => h.begin' ⟨true, some parent, []⟩
  | .endInterface | .endClass => { h with isOpen := false }
  | .method xt => h.addMethod xt
  | .selector => h.addMethod noMethod
  | .overrides xt s => h.say (.overrides s xt)
  | .implementation i => h.say (.implementation i)

/-- A program -/
def run : List (Command X) → History X :=
  List.foldl (fun h => h.step noMethod) h

/-- The class {lit}`object` is open. -/
def start : History X where
  entries := fun _ => ⟨true, none, []⟩
  latest := 0
  selectorCount := 0
  isOpen := true

/-- The word is used as it is meant: definitions are completed before others are begun, inherited
from or implemented; {lit}`overrides` and {lit}`implementation` are used in classes, and a class
overrides selectors that it has. -/
def Allows : Command X → Prop
  | .interface => h.isOpen = false
  | .class' parent => h.isOpen = false ∧ parent ≤ h.latest ∧ (h.entries parent).isClass = true
  | .endInterface => h.isOpen = true ∧ (h.entries h.latest).isClass = false
  | .endClass => h.isOpen = true ∧ (h.entries h.latest).isClass = true
  | .method _ | .selector => h.isOpen = true
  | .overrides _ s =>
      h.isOpen = true ∧ (h.entries h.latest).isClass = true ∧ (h.lookup s h.latest).isSome = true
  | .implementation i =>
      h.isOpen = true ∧ (h.entries h.latest).isClass = true ∧ i < h.latest ∧
        (h.entries i).isClass = false

/-- Every word of a program is used as it is meant. -/
def AllowsAll : History X → List (Command X) → Prop
  | _, [] => True
  | h, cmd :: cmds => h.Allows cmd ∧ (h.step noMethod cmd).AllowsAll cmds

/-! ## What is selected -/

/-- Classes inherit from older classes, and implement older interfaces. -/
structure WellFormed : Prop where
  parent : ∀ c ≤ h.latest, ∀ p, h.parent c = some p → p < c ∧ (h.entries p).isClass = true
  implementation : ∀ c ≤ h.latest, ∀ i, Event.implementation i ∈ (h.entries c).events →
    i < c ∧ (h.entries i).isClass = false
  defaults : ∀ i ≤ h.latest, ∀ s xt, (h.entries i).default s = some xt → s < h.selectorCount
  interface : ∀ i ≤ h.latest, (h.entries i).isClass = false → h.parent i = none
  root : ∀ c ≤ h.latest, (h.entries c).isClass = true → h.parent c = none → c = 0

variable {h}

theorem entries_begin' (e : Entry X) {c : Nat} (hc : c ≤ h.latest) :
    (h.begin' e).entries c = h.entries c :=
  Function.update_of_ne (by omega) _ _

theorem entries_begin'_new (e : Entry X) : (h.begin' e).entries (h.latest + 1) = e :=
  Function.update_self _ _ _

theorem entries_say (e : Event X) {c : Nat} (hc : c ≠ h.latest) :
    (h.say e).entries c = h.entries c :=
  Function.update_of_ne hc _ _

/-- The latest entry gets the event. -/
theorem entries_say_latest (e : Event X) :
    (h.say e).entries h.latest =
      { h.entries h.latest with events := e :: (h.entries h.latest).events } :=
  Function.update_self _ _ _

@[simp] theorem isClass_say (e : Event X) (c : Nat) :
    ((h.say e).entries c).isClass = (h.entries c).isClass := by
  rcases eq_or_ne c h.latest with rfl | hc
  · rw [entries_say_latest]
  · rw [entries_say e hc]

@[simp] theorem parent_say (e : Event X) (c : Nat) : (h.say e).parent c = h.parent c := by
  rcases eq_or_ne c h.latest with rfl | hc
  · rw [parent, entries_say_latest]
    rfl
  · rw [parent, entries_say e hc]
    rfl

/-- The default of a new selector -/
theorem default_say_latest (e : Event X) (s : Nat) :
    ((h.say e).entries h.latest).default s =
      (e.method? s).orElse fun _ => (h.entries h.latest).default s := by
  rw [entries_say_latest, Entry.default, List.findSome?_cons]
  cases e.method? s <;> rfl

/-- A method that is given does not depend on other interfaces. -/
theorem given_congr {h' : History X} (s : Nat) {e : Event X}
    (hinterface : ∀ i, e = .implementation i → h'.entries i = h.entries i) :
    h'.given s e = h.given s e := by
  cases e with
  | implementation i => rw [given, given, hinterface i rfl]
  | _ => rfl

/-- What words give depends on the interfaces that they implement. -/
theorem findSome?_given {h' : History X} (s : Nat) {events : List (Event X)}
    (hinterface : ∀ i, Event.implementation i ∈ events → h'.entries i = h.entries i) :
    events.findSome? (h'.given s) = events.findSome? (h.given s) := by
  induction events with
  | nil => rfl
  | cons e events ih =>
    rw [List.findSome?_cons, List.findSome?_cons,
      given_congr s fun i hi => hinterface i (hi ▸ List.mem_cons_self ..),
      ih fun i hi => hinterface i (List.mem_cons_of_mem _ hi)]

/-- Younger definitions do not matter. -/
theorem lookup_congr (hwf : h.WellFormed) {h' : History X} {s c : Nat} (hc : c ≤ h.latest)
    (hentries : ∀ d ≤ c, h'.entries d = h.entries d) : h'.lookup s c = h.lookup s c := by
  refine nearest_congr (fun d hd => ?_) (fun d hd => ?_)
  · rw [parent, parent, hentries d hd]
  · rw [own, own, hentries d hd]
    refine findSome?_given s fun i hi => hentries i ?_
    have := (hwf.implementation d (by omega) i hi).1
    omega

theorem lookup_begin' (hwf : h.WellFormed) (e : Entry X) (s : Nat) {c : Nat} (hc : c ≤ h.latest) :
    (h.begin' e).lookup s c = h.lookup s c :=
  lookup_congr hwf hc fun _ hd => entries_begin' e (by omega)

/-- A new class selects what its parent does. -/
theorem lookup_class (hwf : h.WellFormed) {p : Nat} (hp : p ≤ h.latest) (s : Nat) :
    (h.begin' ⟨true, some p, []⟩).lookup s (h.latest + 1) = h.lookup s p := by
  have hparent : (h.begin' ⟨true, some p, []⟩).parent (h.latest + 1) = some p := by
    rw [parent, entries_begin'_new]
  have hown : (h.begin' ⟨true, some p, []⟩).own s (h.latest + 1) = none := by
    rw [own, entries_begin'_new]
    rfl
  rw [lookup, nearest_of_parent hown hparent (by omega)]
  exact lookup_begin' hwf _ s hp

theorem lookup_say_of_ne (hwf : h.WellFormed) (e : Event X) (s : Nat) {c : Nat} (hc : c < h.latest) :
    (h.say e).lookup s c = h.lookup s c :=
  lookup_congr hwf (by omega) fun _ hd => entries_say e (by omega)

/-- What is said last about the latest class is selected. -/
theorem lookup_say (hwf : h.WellFormed) {e : Event X} (he : ∀ i, e = .implementation i → i < h.latest)
    (s : Nat) :
    (h.say e).lookup s h.latest = (h.given s e).orElse fun _ => h.lookup s h.latest := by
  have hfirst : (h.say e).given s e = h.given s e :=
    given_congr s fun i hi => entries_say e (Nat.ne_of_lt (he i hi))
  have hrest : (h.entries h.latest).events.findSome? ((h.say e).given s) = h.own s h.latest :=
    findSome?_given s fun i hi =>
      entries_say e (Nat.ne_of_lt (hwf.implementation _ le_rfl i hi).1)
  have hown : (h.say e).own s h.latest = (h.given s e).orElse fun _ => h.own s h.latest := by
    rw [own, entries_say_latest, List.findSome?_cons, hfirst, hrest]
    cases h.given s e <;> rfl
  cases hgiven : h.given s e with
  | some xt =>
    rw [hgiven] at hown
    exact nearest_of_own hown
  | none =>
    rw [hgiven] at hown
    refine nearest_congr_parent (parent_say e _) hown fun p hp => ?_
    exact lookup_say_of_ne hwf e s (hwf.parent _ le_rfl p hp).1

/-- The execution token of a new selector -/
theorem lookup_addMethod (hwf : h.WellFormed) (xt : X) (s : Nat) :
    (h.addMethod xt).lookup s h.latest =
      if h.selectorCount = s then some xt else h.lookup s h.latest := by
  have hsay := lookup_say hwf (fun i hi => (by cases hi)) s (e := .method h.selectorCount xt)
  refine hsay.trans ?_
  simp only [given, Event.said?]
  split <;> rfl

/-- The default of a method is that of its selector. -/
theorem default_addMethod (xt : X) (s : Nat) :
    ((h.addMethod xt).entries h.latest).default s =
      if h.selectorCount = s then some xt else (h.entries h.latest).default s := by
  refine (default_say_latest _ s).trans ?_
  simp only [Event.method?]
  split <;> rfl

/-! ## Programs -/

/-- The empty history is well formed. -/
theorem WellFormed.start : (start : History X).WellFormed where
  parent _ _ _ hp := by cases hp
  implementation _ _ _ hi := by cases hi
  defaults _ _ _ _ hs := by cases hs
  interface _ _ hclass := by cases hclass
  root _ hc _ _ := Nat.le_zero.1 hc

/-- A class or interface that starts is well formed. -/
theorem WellFormed.begin' (hwf : h.WellFormed) {e : Entry X} (hevents : e.events = [])
    (hclass : e.isClass = true → e.parent ≠ none)
    (hparent : ∀ p, e.parent = some p →
      e.isClass = true ∧ p ≤ h.latest ∧ (h.entries p).isClass = true) :
    (h.begin' e).WellFormed where
  parent c hc p hp := by
    rcases Nat.lt_or_ge h.latest c with hlt | hle
    · obtain rfl : c = h.latest + 1 := Nat.le_antisymm hc hlt
      rw [History.parent, entries_begin'_new] at hp
      obtain ⟨-, hple, hclass⟩ := hparent p hp
      exact ⟨Nat.lt_succ_of_le hple, by rw [entries_begin' e hple]; exact hclass⟩
    · rw [History.parent, entries_begin' e hle] at hp
      obtain ⟨hlt, hclass⟩ := hwf.parent c hle p hp
      exact ⟨hlt, by rw [entries_begin' e (by omega)]; exact hclass⟩
  implementation c hc i hi := by
    rcases Nat.lt_or_ge h.latest c with hlt | hle
    · obtain rfl : c = h.latest + 1 := Nat.le_antisymm hc hlt
      rw [entries_begin'_new, hevents] at hi
      cases hi
    · rw [entries_begin' e hle] at hi
      obtain ⟨hlt, hclass⟩ := hwf.implementation c hle i hi
      exact ⟨hlt, by rw [entries_begin' e (by omega)]; exact hclass⟩
  defaults i hi s xt hs := by
    rcases Nat.lt_or_ge h.latest i with hlt | hle
    · obtain rfl : i = h.latest + 1 := Nat.le_antisymm hi hlt
      rw [entries_begin'_new, Entry.default, hevents] at hs
      cases hs
    · rw [entries_begin' e hle] at hs
      exact hwf.defaults i hle s xt hs
  interface i hi hclass := by
    rcases Nat.lt_or_ge h.latest i with hlt | hle
    · obtain rfl : i = h.latest + 1 := Nat.le_antisymm hi hlt
      rw [entries_begin'_new] at hclass
      rw [History.parent, entries_begin'_new]
      cases hp : e.parent with
      | none => rfl
      | some p => simp [(hparent p hp).1] at hclass
    · rw [entries_begin' e hle] at hclass
      rw [History.parent, entries_begin' e hle]
      exact hwf.interface i hle hclass
  root c hc hc' hnone := by
    rcases Nat.lt_or_ge h.latest c with hlt | hle
    · obtain rfl : c = h.latest + 1 := Nat.le_antisymm hc hlt
      rw [entries_begin'_new] at hc'
      rw [History.parent, entries_begin'_new] at hnone
      exact absurd hnone (hclass hc')
    · rw [entries_begin' e hle] at hc'
      rw [History.parent, entries_begin' e hle] at hnone
      exact hwf.root c hle hc' hnone

/-- What is said keeps a history well-formed; {lit}`method` takes a new selector. -/
theorem WellFormed.say (hwf : h.WellFormed) {e : Event X}
    (himplementation : ∀ i, e = .implementation i → i < h.latest ∧ (h.entries i).isClass = false)
    {n : Nat} (hn : h.selectorCount ≤ n)
    (hmethod : ∀ s xt, e = .method s xt → s < n) :
    ({ h.say e with selectorCount := n } : History X).WellFormed where
  parent c hc p hp := by
    have hp' : h.parent c = some p := (parent_say e c).symm.trans hp
    obtain ⟨hlt, hclass⟩ := hwf.parent c hc p hp'
    exact ⟨hlt, (isClass_say e p).trans hclass⟩
  implementation c hc i hi := by
    change Event.implementation i ∈ ((h.say e).entries c).events at hi
    have hi' : i < c ∧ (h.entries i).isClass = false := by
      rcases eq_or_ne c h.latest with rfl | hne
      · rw [entries_say_latest] at hi
        rcases List.mem_cons.1 hi with heq | hmem
        · exact himplementation i heq.symm
        · exact hwf.implementation _ hc i hmem
      · rw [entries_say e hne] at hi
        exact hwf.implementation c hc i hi
    exact ⟨hi'.1, (isClass_say e i).trans hi'.2⟩
  defaults i hi s xt hs := by
    change ((h.say e).entries i).default s = some xt at hs
    change s < n
    rcases eq_or_ne i h.latest with rfl | hne
    · rw [default_say_latest] at hs
      cases e with
      | method s' xt' =>
        by_cases hs' : s' = s
        · exact hs' ▸ hmethod s' xt' rfl
        · rw [Event.method?, if_neg hs'] at hs
          have := hwf.defaults _ hi s xt hs
          omega
      | overrides | implementation =>
        have := hwf.defaults _ hi s xt hs
        omega
    · rw [entries_say e hne] at hs
      have := hwf.defaults i hi s xt hs
      omega
  interface i hi hclass :=
    (parent_say e i).trans (hwf.interface i hi ((isClass_say e i).symm.trans hclass))
  root c hc hclass hnone :=
    hwf.root c hc ((isClass_say e c).symm.trans hclass) ((parent_say e c).symm.trans hnone)

/-- Each allowed command keeps the history well formed. -/
theorem WellFormed.step (hwf : h.WellFormed) (noMethod : X) {cmd : Command X}
    (hallows : h.Allows cmd) : (h.step noMethod cmd).WellFormed := by
  cases cmd with
  | interface => exact hwf.begin' rfl (fun hclass => by cases hclass) (fun p hp => by cases hp)
  | class' parent =>
    refine hwf.begin' rfl (fun _ hnone => by cases hnone) fun p hp => ?_
    cases hp
    exact ⟨rfl, hallows.2⟩
  | endInterface | endClass => exact { hwf with }
  | method xt | selector =>
    refine hwf.say (fun i hi => by cases hi) (Nat.le_succ _) fun s xt hs => ?_
    cases hs
    exact Nat.lt_succ_self _
  | overrides xt s => exact hwf.say (fun i hi => by cases hi) le_rfl (fun s xt hs => by cases hs)
  | implementation i =>
    refine hwf.say (fun j hj => ?_) le_rfl (fun s xt hs => by cases hs)
    cases hj
    exact hallows.2.2

end History

end Objects
end Gforth
