import Gforth.Lib.Segments
import Mathlib.Data.List.Perm.Basic
import Mathlib.Data.Set.Function

/-!
# Streams with a pushed-back character

The streams of the standard library, which take back one character, and the array in which the
engine records the streams that have one.  Streams are designated by pointers, and the pointer of a
stream that was closed may be the one of a later stream.

Main results:

- Theorems {lit}`Files.getc_of_left_cons`, {lit}`Files.left_gfUngetc`: what is left to be read after
  a character was read or pushed back.
-/

namespace Gforth
namespace Streams

open Lib

/-! ## The standard library -/

/-- A stream: a file, the position of the next character, and a character that was pushed back -/
structure Stream where
  contents : List Byte
  position : Nat
  pushed : Option Byte
deriving DecidableEq

namespace Stream

/-- {lit}`fdopen` of a file with these contents -/
def opened (contents : List Byte) : Stream :=
  ⟨contents, 0, none⟩

/-- The characters that are left to be read -/
def left (s : Stream) : List Byte :=
  s.pushed.toList ++ s.contents.drop s.position

/-- {lit}`getc`; there is no character at the end of the file. -/
def getc (s : Stream) : Option Byte × Stream :=
  match s.pushed with
  | some c => (some c, { s with pushed := none })
  | none =>
      match s.contents[s.position]? with
      | some c => (some c, { s with position := s.position + 1 })
      | none => (none, s)

/-- {lit}`ungetc`, which may fail if a character was pushed back before -/
def ungetc (c : Byte) (s : Stream) : Stream :=
  match s.pushed with
  | some _ => s
  | none => { s with pushed := some c }

/-- {lit}`fread` of some number of characters -/
def fread : Nat → Stream → List Byte × Stream
  | 0, s => ([], s)
  | n + 1, s =>
      match s.getc with
      | (none, s) => ([], s)
      | (some c, s) =>
          let r := fread n s
          (c :: r.1, r.2)

/-- {lit}`fseeko` to a position, which drops the character that was pushed back -/
def fseeko (offset : Nat) (s : Stream) : Stream :=
  { s with position := offset, pushed := none }

/-- At the end there is no character. -/
theorem getc_of_left_nil {s : Stream} (h : s.left = []) : s.getc = (none, s) := by
  obtain ⟨hpushed, hdrop⟩ := List.append_eq_nil_iff.mp h
  have hnone : s.pushed = none := by simpa using hpushed
  have hend : s.contents[s.position]? = none := by
    rw [List.getElem?_eq_none_iff]
    simpa using hdrop
  rw [getc, hnone]
  dsimp only
  rw [hend]

/-- The next character is read, and nothing is pushed back behind it. -/
theorem getc_of_left_cons {s : Stream} {c : Byte} {t : List Byte} (h : s.left = c :: t) :
    (s.getc).1 = some c ∧ (s.getc).2.left = t ∧ (s.getc).2.pushed = none := by
  rw [left] at h
  cases hpushed : s.pushed with
  | some d =>
      rw [hpushed, Option.toList_some, List.singleton_append] at h
      injection h with hc ht
      have hgetc : s.getc = (some d, { s with pushed := none }) := by rw [getc, hpushed]
      rw [hgetc]
      exact ⟨congrArg some hc, ht, rfl⟩
  | none =>
      rw [hpushed, Option.toList_none, List.nil_append] at h
      have hnext : s.contents[s.position]? = some c := by
        have := congrArg List.head? h
        rwa [List.head?_drop, List.head?_cons] at this
      have hrest : s.contents.drop (s.position + 1) = t := by
        rw [← List.tail_drop, h, List.tail_cons]
      have hgetc : s.getc = (some c, { s with position := s.position + 1 }) := by
        simp only [getc, hpushed, hnext]
      rw [hgetc]
      refine ⟨rfl, ?_, hpushed⟩
      rw [left]
      dsimp only
      rw [hpushed, Option.toList_none, List.nil_append, hrest]

/-- A character that was read leaves none that was pushed back. -/
theorem pushed_getc {s : Stream} {c : Byte} (h : (s.getc).1 = some c) :
    (s.getc).2.pushed = none := by
  cases hleft : s.left with
  | nil =>
      rw [getc_of_left_nil hleft] at h
      cases h
  | cons d t => exact (getc_of_left_cons hleft).2.2

theorem left_ungetc {s : Stream} (c : Byte) (h : s.pushed = none) :
    (s.ungetc c).left = c :: s.left := by
  simp [ungetc, left, h]

end Stream

/-! ## The engine -/

variable {F : Type} [DecidableEq F]

/-- The open streams, and the array {lit}`ungotten_files` of {lit}`n_ungotten` pointers -/
structure Files (F : Type) where
  stream : F → Option Stream
  ungotten : List F

namespace Files

/-- No stream is open. -/
def initial : Files F :=
  ⟨fun _ => none, []⟩

/-- {lit}`open-file` of a file with these contents, which returns this pointer -/
def openFile (f : F) (contents : List Byte) (fs : Files F) : Files F :=
  { fs with stream := Function.update fs.stream f (some (Stream.opened contents)) }

/-- The character at the front of a stream -/
def getc (f : F) (fs : Files F) : Option Byte × Files F :=
  match fs.stream f with
  | some s => ((s.getc).1, { fs with stream := Function.update fs.stream f (some (s.getc).2) })
  | none => (none, fs)

/-- A stream is changed, if it is open. -/
def onStream (f : F) (change : Stream → Stream) (fs : Files F) : Files F :=
  { fs with stream := Function.update fs.stream f ((fs.stream f).map change) }

/-- {lit}`gf_ungetc` -/
def gfUngetc (c : Byte) (f : F) (fs : Files F) : Files F :=
  { fs.onStream f (Stream.ungetc c) with ungotten := fs.ungotten ++ [f] }

/-- {lit}`search_ungotten` -/
def searchUngotten (f : F) (fs : Files F) : Option Nat :=
  fs.ungotten.idxOf? f

/-- {lit}`gf_regetc`: the last pointer takes the place of the one that is removed. -/
def gfRegetc (f : F) (fs : Files F) : Files F :=
  match fs.searchUngotten f, fs.ungotten.getLast? with
  | some i, some last => { fs with ungotten := (fs.ungotten.set i last).dropLast }
  | _, _ => fs

/-- {lit}`gf_ungottenc` -/
def gfUngottenc (f : F) (fs : Files F) : Bool :=
  (fs.searchUngotten f).isSome

/-- The characters of a stream that are left to be read -/
def left (f : F) (fs : Files F) : List Byte :=
  match fs.stream f with
  | some s => s.left
  | none => []

/-- The character of a stream that was pushed back -/
def pushed (f : F) (fs : Files F) : Option Byte :=
  (fs.stream f).bind Stream.pushed

/-! ## Reading and pushing back -/

/-- At the end of a file there is no character. -/
theorem getc_of_left_nil {f : F} {fs : Files F} (h : fs.left f = []) :
    ∃ fs', fs.getc f = (none, fs') ∧ fs'.left f = [] := by
  rw [left] at h
  rw [getc]
  cases hf : fs.stream f with
  | none => exact ⟨fs, rfl, by simp [left, hf]⟩
  | some s =>
      rw [hf] at h
      dsimp only at h ⊢
      rw [Stream.getc_of_left_nil h]
      exact ⟨_, rfl, by simpa [left] using h⟩

/-- The next character of a file is read. -/
theorem getc_of_left_cons {f : F} {fs : Files F} {c : Byte} {t : List Byte}
    (h : fs.left f = c :: t) :
    ∃ fs', fs.getc f = (some c, fs') ∧ fs'.left f = t ∧
      (fs'.stream f).map Stream.pushed = some none := by
  rw [left] at h
  rw [getc]
  cases hf : fs.stream f with
  | none =>
      rw [hf] at h
      cases h
  | some s =>
      rw [hf] at h
      obtain ⟨hc, hleft, hpushed⟩ := Stream.getc_of_left_cons h
      refine ⟨_, Prod.ext hc rfl, ?_, ?_⟩
      · simpa [left] using hleft
      · simpa using hpushed

/-- The character that is pushed back into a file is the next one. -/
theorem left_gfUngetc {f : F} {fs : Files F} (c : Byte)
    (h : (fs.stream f).map Stream.pushed = some none) :
    (fs.gfUngetc c f).left f = c :: fs.left f := by
  obtain ⟨s, hs, hpushed⟩ := Option.map_eq_some_iff.mp h
  have hleft : fs.left f = s.left := by rw [left, hs]
  rw [hleft, ← Stream.left_ungetc c hpushed]
  simp [left, gfUngetc, onStream, hs]

theorem left_openFile (f : F) (contents : List Byte) (fs : Files F) :
    (fs.openFile f contents).left f = contents := by
  simp [left, openFile, Stream.left, Stream.opened]

theorem left_gfRegetc (f g : F) (fs : Files F) : (fs.gfRegetc g).left f = fs.left f := by
  rw [gfRegetc]
  split <;> rfl

end Files
end Streams
end Gforth
