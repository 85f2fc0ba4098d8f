import Gforth.Image.Sections

/-!
# Round trips of section layouts

Section boundaries that were written to image files are found again exactly if every
section is a multiple of the cell size long and there are at most 254 of them.  The
readers miss the padding of unaligned sections, and the loader leaves its loop before
it reads the relocation bits of section 254.

Main results:

- Theorem {lit}`imageSectionsFrom_writeSections`: what {lit}`image-sections` finds.
- Theorem {lit}`loaderLoop_readsBack`: what the loop of {lit}`gforth_loader` finds.
- Theorem {lit}`roundTrip_iff`: the layouts that survive.
-/

namespace Gforth
namespace Image

open Lib

/-! ## Headers -/

variable {b : List Byte} {bs : List (List Byte)} {sections : Nat → Cell} {fuel i : Nat}
  {w bits : List Byte}

theorem sectStart_append (t : List Byte) (h : 24 ≤ b.length) :
    sectStart (b ++ t) = sectStart b := by
  rw [sectStart, sectStart, List.take_append_of_le_length (by omega)]

theorem sectSize_append (t : List Byte) (h : 24 ≤ b.length) : sectSize (b ++ t) = sectSize b := by
  rw [sectSize, sectSize, List.drop_append_of_le_length (by omega),
    List.take_append_of_le_length (by rw [List.length_drop]; omega)]

theorem sectDp_append (t : List Byte) (h : 24 ≤ b.length) : sectDp (b ++ t) = sectDp b := by
  rw [sectDp, sectDp, List.drop_append_of_le_length (by omega),
    List.take_append_of_le_length (by rw [List.length_drop]; omega)]

theorem sectExtent_append (t : List Byte) (h : 24 ≤ b.length) :
    sectExtent (b ++ t) = sectExtent b := by
  rw [sectExtent, sectExtent, sectStart_append t h, sectDp_append t h]

theorem sectAt_append (t : List Byte) (h : 24 ≤ b.length) : sectAt (b ++ t) = sectAt b := by
  rw [sectAt, sectAt, sectStart_append t h, sectDp_append t h]

section

variable (s : Section) (mem : Nat → Byte)

/-- The bytes of a section -/
@[simp]
theorem Section.length_bytes {n : Nat} (h : 24 ≤ n) : (s.bytes mem n).length = n := by
  simp only [Section.bytes, List.length_append, length_storeCell, List.length_map,
    List.length_range]
  omega

@[simp]
theorem Section.sectStart_bytes (n : Nat) : sectStart (s.bytes mem n) = s.start := by
  rw [sectStart, Section.bytes, List.take_left' (length_storeCell _), loadCell_storeCell]

@[simp]
theorem Section.sectSize_bytes (n : Nat) : sectSize (s.bytes mem n) = s.size := by
  rw [sectSize, Section.bytes, List.drop_left' (length_storeCell _),
    List.take_left' (length_storeCell _), loadCell_storeCell]

@[simp]
theorem Section.sectDp_bytes (n : Nat) : sectDp (s.bytes mem n) = s.dp := by
  rw [sectDp, Section.bytes, ← List.append_assoc, List.drop_left' (by simp),
    List.take_left' (length_storeCell _), loadCell_storeCell]

theorem Section.extent_lt : s.extent < 2 ^ 56 :=
  lt_of_le_of_lt (Nat.le_add_left _ _) s.end_lt

theorem Section.toNat_extent : (BitVec.ofNat 64 s.extent).toNat = s.extent := by
  rw [BitVec.toNat_ofNat]
  exact Nat.mod_eq_of_lt (lt_trans s.extent_lt (by decide))

theorem Section.dp_sub_start : s.dp - s.start = BitVec.ofNat 64 s.extent := by
  rw [Section.dp, BitVec.add_comm, BitVec.add_sub_cancel]

@[simp]
theorem Section.sectExtent_bytes (n : Nat) : sectExtent (s.bytes mem n) = s.extent := by
  rw [sectExtent, s.sectDp_bytes, s.sectStart_bytes, s.dp_sub_start, s.toNat_extent]

/-- The front of the bytes -/
theorem Section.bytes_take {m n : Nat} (hm : 24 ≤ m) (hmn : m ≤ n) :
    (s.bytes mem n).take m = s.bytes mem m := by
  have hhead : (storeCell s.start ++ (storeCell s.size ++ storeCell s.dp)).length = 24 := by simp
  have hsplit : ∀ k, s.bytes mem k = (storeCell s.start ++ (storeCell s.size ++ storeCell s.dp)) ++
      (List.range (k - 24)).map fun o => mem (24 + o) := by
    intro k
    simp [Section.bytes]
  rw [hsplit n, hsplit m, List.take_append, hhead, List.take_of_length_le (by omega),
    ← List.map_take, List.take_range, Nat.min_eq_left (by omega)]

end

theorem le_aligned (n : Nat) : n ≤ aligned n := by
  rw [aligned]
  omega

theorem aligned_lt (n : Nat) : aligned n < n + 8 := by
  rw [aligned]
  omega

theorem aligned_eq_iff (n : Nat) : aligned n = n ↔ 8 ∣ n := by
  rw [aligned]
  omega

/-! ## What {lit}`image-sections` finds -/

/-- The block of a section in a dump is not much longer than the section. -/
structure Padded (b : List Byte) : Prop where
  header_le : 24 ≤ sectExtent b
  extent_le : sectExtent b ≤ b.length
  length_lt : b.length < sectExtent b + 8

theorem Padded.length_ge (h : Padded b) : 24 ≤ b.length :=
  le_trans h.header_le h.extent_le

/-- The files from the blocks on. -/
def fileTails : List (List Byte) → List (List Byte)
  | [] => []
  | b :: bs => writeSections (b :: bs) :: fileTails bs

theorem length_fileTails (bs : List (List Byte)) : (fileTails bs).length = bs.length := by
  induction bs with
  | nil => rfl
  | cons b bs ih => rw [fileTails, List.length_cons, List.length_cons, ih]

theorem length_sectionMagic : sectionMagic.length = 8 := rfl

/-- The magic string does not overlap itself. -/
theorem sectionMagic_ne {pad : List Byte} (t : List Byte) (hpos : pad ≠ []) (hlen : pad.length < 8) :
    (pad ++ (sectionMagic ++ t)).take 8 ≠ sectionMagic := by
  intro heq
  have hget : ((pad ++ (sectionMagic ++ t)).take 8)[pad.length]? = some 0x53#8 := by
    rw [List.getElem?_take, if_pos hlen, List.getElem?_append_right le_rfl, Nat.sub_self]
    rfl
  have hne : ∀ j : Fin 8, j ≠ 0 → sectionMagic[(j : Nat)]? ≠ some 0x53#8 := by decide
  have hzero : pad.length ≠ 0 := fun h => hpos (List.eq_nil_of_length_eq_zero h)
  rw [heq] at hget
  exact hne ⟨pad.length, hlen⟩ (fun h => hzero (congrArg Fin.val h)) hget

theorem writeSections_cons_cons (b c : List Byte) (bs : List (List Byte)) :
    writeSections (b :: c :: bs) = b ++ (sectionMagic ++ writeSections (c :: bs)) := by
  simp [writeSections, withMagic]

theorem sectExtent_writeSections (bs : List (List Byte)) (h : Padded b) :
    sectExtent (writeSections (b :: bs)) = sectExtent b := by
  rw [writeSections, sectExtent_append _ h.length_ge]

/-- One iteration on a section that is not the last one. -/
theorem imageSectionsFrom_cons {fuel : Nat} {b c : List Byte} (h : Padded b) :
    imageSectionsFrom (fuel + 1) (writeSections (b :: c :: bs)) =
      writeSections (b :: c :: bs) ::
        if sectExtent b = b.length then imageSectionsFrom fuel (writeSections (c :: bs)) else [] := by
  have hext := sectExtent_writeSections (c :: bs) h
  have hpos : 0 < sectExtent b := lt_of_lt_of_le (by decide) h.header_le
  have hne : writeSections (b :: c :: bs) ≠ [] := by
    have := h.length_ge
    rintro hnil
    rw [writeSections_cons_cons, List.append_eq_nil_iff] at hnil
    simp [hnil.1] at this
  rw [imageSectionsFrom, if_neg hne, hext, if_neg hpos.ne']
  by_cases hexact : sectExtent b = b.length
  · rw [if_pos hexact, hexact, writeSections_cons_cons, List.drop_left,
      List.take_left' length_sectionMagic, if_neg (by simp), List.drop_length_add_append,
      List.drop_left' length_sectionMagic]
  · have hdrop : (b.drop (sectExtent b)).length = b.length - sectExtent b := List.length_drop
    have hle := h.extent_le
    have hlt := h.length_lt
    rw [if_neg hexact, if_pos]
    rw [writeSections_cons_cons, List.drop_append_of_le_length hle]
    refine sectionMagic_ne _ ?_ (by omega)
    intro hnil
    rw [hnil] at hdrop
    simp at hdrop
    omega

/-- The last section ends the loop. -/
theorem imageSectionsFrom_single {fuel : Nat} (h : Padded b) :
    imageSectionsFrom (fuel + 1) (writeSections [b]) = [writeSections [b]] := by
  have hext := sectExtent_writeSections [] h
  have hpos : 0 < sectExtent b := lt_of_lt_of_le (by decide) h.header_le
  have hfile : writeSections [b] = b := by simp [writeSections]
  have hne : b ≠ [] := by
    rintro rfl
    have := h.length_ge
    simp at this
  have hlt := h.length_lt
  rw [imageSectionsFrom, hext, hfile, if_neg hne, if_neg hpos.ne', if_pos]
  intro heq
  have := congrArg List.length heq
  simp [sectionMagic] at this
  omega

/-- {lit}`image-sections` finds the sections if only the last one is padded. -/
theorem imageSectionsFrom_writeSections {fuel : Nat} (hpadded : ∀ b ∈ bs, Padded b)
    (hexact : ∀ b ∈ bs.dropLast, sectExtent b = b.length) (hne : bs ≠ [])
    (hfuel : bs.length ≤ fuel) : imageSectionsFrom fuel (writeSections bs) = fileTails bs := by
  induction bs generalizing fuel with
  | nil => exact absurd rfl hne
  | cons b bs ih =>
      obtain ⟨fuel, rfl⟩ : ∃ f, fuel = f + 1 := by
        refine ⟨fuel - 1, ?_⟩
        rw [List.length_cons] at hfuel
        omega
      have hb := hpadded b List.mem_cons_self
      cases bs with
      | nil => rw [imageSectionsFrom_single hb, fileTails, fileTails]
      | cons c bs =>
          rw [imageSectionsFrom_cons hb, if_pos (hexact b (by simp)), fileTails,
            ih (fun b' hb' => hpadded b' (List.mem_cons_of_mem b hb')) ?_ (by simp)
              (by simpa using hfuel)]
          intro b' hb'
          exact hexact b' (by simp [hb'])

/-- If {lit}`image-sections` finds all sections, only the last one is padded. -/
theorem exact_of_length_imageSectionsFrom {fuel : Nat} (hpadded : ∀ b ∈ bs, Padded b)
    (hlen : (imageSectionsFrom fuel (writeSections bs)).length = bs.length) :
    ∀ b ∈ bs.dropLast, sectExtent b = b.length := by
  induction bs generalizing fuel with
  | nil => simp
  | cons b bs ih =>
      cases bs with
      | nil => simp
      | cons c bs =>
          obtain ⟨fuel, rfl⟩ : ∃ f, fuel = f + 1 := by
            refine ⟨fuel - 1, ?_⟩
            cases fuel with
            | zero => simp [imageSectionsFrom] at hlen
            | succ fuel => rfl
          rw [imageSectionsFrom_cons (hpadded b List.mem_cons_self), List.length_cons,
            List.length_cons, Nat.succ_inj] at hlen
          by_cases hexact : sectExtent b = b.length
          · rw [if_pos hexact] at hlen
            rw [List.dropLast_cons_cons]
            intro b' hb'
            rcases List.mem_cons.mp hb' with rfl | hb'
            · exact hexact
            · exact ih (fun b' hb' => hpadded b' (List.mem_cons_of_mem b hb')) hlen b' hb'
          · rw [if_neg hexact] at hlen
            simp at hlen

/-- The sections that were found, from their starts to {lit}`dp`. -/
theorem fileTails_map_take (hpadded : ∀ b ∈ bs, Padded b) :
    (fileTails bs).map (fun sect => sect.take (sectExtent sect)) =
      bs.map fun b => b.take (sectExtent b) := by
  induction bs with
  | nil => rfl
  | cons b bs ih =>
      have hb := hpadded b List.mem_cons_self
      rw [fileTails, List.map_cons, List.map_cons, sectExtent_writeSections bs hb,
        ih fun b' hb' => hpadded b' (List.mem_cons_of_mem b hb'), writeSections,
        List.take_append_of_le_length hb.extent_le]

/-! ## What the loader finds -/

/-- One iteration of the loader, if another section follows the relocation bits. -/
theorem loaderLoop_cons {base size : Cell} {bytes file t b : List Byte} {bits : Option (List Byte)}
    (hbits : readBits (sections i) base size file = .done bits (withMagic b ++ t))
    (hb : 24 ≤ b.length) (hext : sectExtent b ≤ b.length) :
    loaderLoop sections (fuel + 1) i base size bytes file =
      (loaderLoop sections fuel (i + 1) (inSection (sectStart b)) (sectDp b - sectStart b)
        (b.take (sectExtent b)) (b.drop (sectExtent b) ++ t)).map (⟨bytes, bits⟩ :: ·) := by
  have hmagic : readMagic (withMagic b ++ t) = some (b ++ t) := by
    rw [readMagic, withMagic, List.append_assoc, List.take_left' length_sectionMagic,
      List.drop_left' length_sectionMagic, if_pos ⟨rfl, by rw [List.length_append]; omega⟩]
  have hlen : ¬(b ++ t).length < sectExtent b := by
    rw [List.length_append]
    omega
  rw [sectExtent] at hlen hext
  rw [loaderLoop, hbits]
  simp only [hmagic, sectDp_append t hb, sectStart_append t hb, if_neg hlen,
    List.take_append_of_le_length hext, List.drop_append_of_le_length hext, sectExtent]

/-- The loader stops at the end of the file. -/
theorem loaderLoop_nil {base size : Cell} {bytes file : List Byte} {bits : Option (List Byte)}
    (hbits : readBits (sections i) base size file = .done bits []) :
    loaderLoop sections (fuel + 1) i base size bytes file = some [⟨bytes, bits⟩] := by
  rw [loaderLoop, hbits]
  rfl

/-- The loader reads the block of section {lit}`i` as the given section. -/
structure ReadsBack (sections : Nat → Cell) (i : Nat) (b : List Byte) (l : Loaded) : Prop where
  header_le : 24 ≤ b.length
  extent_le : sectExtent b ≤ b.length
  bytes_eq : l.bytes = b.take (sectExtent b)
  bits_eq : ∀ t, readBits (sections i) (inSection (sectStart b)) (sectDp b - sectStart b)
    (b.drop (sectExtent b) ++ t) = .done l.bits t

/-- The loader reads a file back if it reads each block back. -/
theorem loaderLoop_readsBack {p : List Byte × Loaded} {ps : List (List Byte × Loaded)}
    (h : ∀ j q, (p :: ps)[j]? = some q → ReadsBack sections (i + j) q.1 q.2)
    (hfuel : ps.length < fuel) :
    loaderLoop sections fuel i (inSection (sectStart p.1)) (sectDp p.1 - sectStart p.1)
      (p.1.take (sectExtent p.1)) (p.1.drop (sectExtent p.1) ++
        (ps.map Prod.fst).flatMap withMagic) = some ((p :: ps).map Prod.snd) := by
  induction ps generalizing p fuel i with
  | nil =>
      obtain ⟨fuel, rfl⟩ : ∃ f, fuel = f + 1 := ⟨fuel - 1, by omega⟩
      have hp : ReadsBack sections i p.1 p.2 := h 0 p rfl
      rw [List.map_nil, List.flatMap_nil, loaderLoop_nil (hp.bits_eq _), ← hp.bytes_eq]
      rfl
  | cons q ps ih =>
      obtain ⟨fuel, rfl⟩ : ∃ f, fuel = f + 1 := ⟨fuel - 1, by omega⟩
      have hp : ReadsBack sections i p.1 p.2 := h 0 p rfl
      have hq := h 1 q rfl
      rw [List.map_cons, List.flatMap_cons, loaderLoop_cons (hp.bits_eq _) hq.header_le hq.extent_le,
        ih (fun j r hr => ?_) (by simpa using hfuel), ← hp.bytes_eq]
      · rfl
      · have := h (j + 1) r (by simpa using hr)
        rwa [Nat.add_comm j, ← Nat.add_assoc] at this

/-- The loader takes what follows a relocatable section for its relocation bits. -/
theorem loaderLoop_head {size : Cell} {bytes file : List Byte} {l : Loaded} {ls : List Loaded}
    (h : loaderLoop sections (fuel + 1) i 0#64 size bytes file = some (l :: ls)) :
    l.bits = some (file.take (relocBytes size)) := by
  rw [loaderLoop, readBits, if_pos (Or.inl rfl)] at h
  split at h
  · rename_i hread
    split at hread <;> cases hread
  · rename_i hread
    split at hread
    · rename_i hshort
      cases hread
      cases h
      rw [List.take_of_length_le hshort.le]
    · cases hread
  · rename_i hread
    split at hread
    · cases hread
    · cases hread
      split at h
      · cases h
        rfl
      · simp only at h
        split at h
        · cases h
          rfl
        · obtain ⟨ls', -, heq⟩ := Option.map_eq_some_iff.mp h
          cases heq
          rfl

/-! ## Rewritten sections -/

/-- A section that the image maker wrote, with its relocation bits. -/
structure Rewritten (w bits : List Byte) : Prop where
  header_le : 24 ≤ w.length
  extent_le : sectExtent w ≤ w.length
  base_eq : inSection (sectStart w) = 0#64
  bits_length : bits.length = relocBytes (sectDp w - sectStart w)

/-- The bits of a rewritten section are read. -/
theorem Rewritten.readBits_eq (h : Rewritten w bits) (section_ : Cell) (t : List Byte) :
    readBits section_ 0#64 (sectDp w - sectStart w) (bits ++ t) = .done (some bits) t := by
  have hlen : ¬(bits ++ t).length < relocBytes (sectDp w - sectStart w) := by
    rw [List.length_append, ← h.bits_length]
    omega
  rw [readBits, if_pos (Or.inl rfl), if_neg hlen, ← h.bits_length, List.take_left,
    List.drop_left]

theorem Rewritten.length_ge (h : Rewritten w bits) : 24 ≤ (w ++ bits).length := by
  rw [List.length_append]
  exact le_trans h.header_le (Nat.le_add_right _ _)

theorem Rewritten.extent_le_length (h : Rewritten w bits) :
    sectExtent (w ++ bits) ≤ (w ++ bits).length := by
  rw [sectExtent_append bits h.header_le, List.length_append]
  exact le_trans h.extent_le (Nat.le_add_right _ _)

/-- A rewritten section is read back if its extent is exact. -/
theorem Rewritten.readsBack (h : Rewritten w bits) (hexact : sectExtent w = w.length)
    (sections : Nat → Cell) (i : Nat) :
    ReadsBack sections i (w ++ bits) ⟨w.take (sectExtent w), some bits⟩ := by
  have hext := sectExtent_append bits h.header_le
  refine ⟨h.length_ge, h.extent_le_length, ?_, ?_⟩
  · rw [hext, List.take_append_of_le_length h.extent_le]
  · intro t
    rw [hext, sectStart_append bits h.header_le, sectDp_append bits h.header_le, h.base_eq,
      hexact, List.drop_left, h.readBits_eq]

/-- Padding of zeros would have the first relocation bit clear, which belongs to the start
of the section. -/
theorem exact_of_loaderLoop_head {w bits t bytes bytes' : List Byte} {ls : List Loaded}
    (h : Rewritten w bits) (hfirst : bitAt bits 0 = true)
    (hpad : ∀ c ∈ w.drop (sectExtent w), c = 0#8)
    (hload : loaderLoop sections (fuel + 1) i 0#64 (sectDp w - sectStart w) bytes
      (w.drop (sectExtent w) ++ t) = some (⟨bytes', some bits⟩ :: ls)) :
    sectExtent w = w.length := by
  by_contra hne
  cases hdrop : w.drop (sectExtent w) with
  | nil =>
      have := h.extent_le
      rw [List.drop_eq_nil_iff] at hdrop
      omega
  | cons c pad =>
      rw [hdrop] at hpad hload
      obtain rfl : c = 0#8 := hpad c List.mem_cons_self
      have hbits := Option.some.inj (loaderLoop_head hload)
      rw [relocBytes, List.cons_append, List.take_succ_cons] at hbits
      rw [show bits = _ from hbits] at hfirst
      simp [bitAt] at hfirst

/-- The loader reads rewritten sections back only if there is no padding of zeros. -/
theorem exact_of_loaderLoop {p : List Byte × List Byte} {ps : List (List Byte × List Byte)}
    (h : ∀ q ∈ p :: ps, Rewritten q.1 q.2) (hfirst : ∀ q ∈ p :: ps, bitAt q.2 0 = true)
    (hpad : ∀ q ∈ p :: ps, ∀ c ∈ q.1.drop (sectExtent q.1), c = 0#8)
    (hload : loaderLoop sections fuel i 0#64 (sectDp p.1 - sectStart p.1)
      (p.1.take (sectExtent p.1)) (p.1.drop (sectExtent p.1) ++ (p.2 ++
        (ps.map fun q => q.1 ++ q.2).flatMap withMagic)) =
      some ((p :: ps).map fun q => ⟨q.1.take (sectExtent q.1), some q.2⟩)) :
    (∀ q ∈ p :: ps, sectExtent q.1 = q.1.length) ∧ (p :: ps).length ≤ fuel := by
  induction ps generalizing p fuel i with
  | nil =>
      cases fuel with
      | zero => simp [loaderLoop] at hload
      | succ fuel =>
          refine ⟨?_, by simp⟩
          intro q hq
          obtain rfl : q = p := by simpa using hq
          exact exact_of_loaderLoop_head (h q hq) (hfirst q hq) (hpad q hq) hload
  | cons q ps ih =>
      cases fuel with
      | zero => simp [loaderLoop] at hload
      | succ fuel =>
          have hp := h p List.mem_cons_self
          have hexact := exact_of_loaderLoop_head hp (hfirst p List.mem_cons_self)
            (hpad p List.mem_cons_self) hload
          have hq := h q (by simp)
          have hdrop : p.1.drop (sectExtent p.1) = [] := by
            rw [hexact, List.drop_length]
          rw [hdrop, List.nil_append, List.map_cons, List.flatMap_cons,
            loaderLoop_cons (hp.readBits_eq _ _) hq.length_ge hq.extent_le_length,
            sectStart_append _ hq.header_le, sectDp_append _ hq.header_le,
            sectExtent_append _ hq.header_le, List.take_append_of_le_length hq.extent_le,
            List.drop_append_of_le_length hq.extent_le, hq.base_eq, List.append_assoc] at hload
          obtain ⟨ls, hls, heq⟩ := Option.map_eq_some_iff.mp hload
          obtain rfl := (List.cons.inj heq).2
          obtain ⟨hrest, hlen⟩ := ih (fun q' hq' => h q' (List.mem_cons_of_mem p hq'))
            (fun q' hq' => hfirst q' (List.mem_cons_of_mem p hq'))
            (fun q' hq' => hpad q' (List.mem_cons_of_mem p hq')) hls
          refine ⟨?_, Nat.succ_le_succ hlen⟩
          intro q' hq'
          rcases List.mem_cons.mp hq' with rfl | hq'
          · exact hexact
          · exact hrest q' hq'

/-! ## Two dumps -/

/-- A section in two dumps of the same system. -/
structure Twin where
  first : Section
  second : Section
  size_eq : first.size = second.size
  extent_eq : second.extent = first.extent
  start_ne : first.start ≠ second.start

/-- Sections do not share addresses, ends included. -/
def Section.Apart (s t : Section) : Prop :=
  s.start.toNat + s.extent < t.start.toNat ∨ t.start.toNat + t.extent < s.start.toNat

/-- The sections in two dumps of the same system. -/
structure Twins where
  list : List Twin
  ne_nil : list ≠ []
  apart1 : list.Pairwise fun s t => s.first.Apart t.first
  apart2 : list.Pairwise fun s t => s.second.Apart t.second

/-- The sections of the first dump. -/
def Twins.first (ts : Twins) : List Section :=
  ts.list.map Twin.first

/-- The sections of the second dump. -/
def Twins.second (ts : Twins) : List Section :=
  ts.list.map Twin.second

theorem Twins.first_apart (ts : Twins) : ts.first.Pairwise Section.Apart :=
  List.pairwise_map.mpr ts.apart1

theorem Twins.second_apart (ts : Twins) : ts.second.Pairwise Section.Apart :=
  List.pairwise_map.mpr ts.apart2

/-- What {lit}`compare-section` writes for section {lit}`k`. -/
def Twins.written (ts : Twins) (sym : Symbols) (mem1 mem2 : Nat → Nat → Byte) (k : Nat)
    (t : Twin) : List Cell × List Byte :=
  let size := aligned t.first.extent
  compareSection sym (ts.first.map Section.sect) (ts.second.map Section.sect)
    (loadCells (size / 8) (t.first.bytes (mem1 k) size))
    (loadCells (size / 8) (t.second.bytes (mem2 k) size))

/-- Writing, comparing and reading the sections gives back what was written. -/
structure Twins.RoundTrip (ts : Twins) (sym : Symbols) (mem1 mem2 : Nat → Nat → Byte) : Prop where
  image1 : (imageSections (dumpFi mem1 ts.first)).map (fun sect => sect.take (sectExtent sect)) =
    ts.first.mapIdx fun k s => s.bytes (mem1 k) s.extent
  image2 : (imageSections (dumpFi mem2 ts.second)).map (fun sect => sect.take (sectExtent sect)) =
    ts.second.mapIdx fun k s => s.bytes (mem2 k) s.extent
  nonrelocatable : ∀ sections : Nat → Cell,
    (∀ k s, ts.first[k]? = some s → sections k = s.start) →
    gforthLoader sections (dumpFi mem1 ts.first) =
      some (ts.first.mapIdx fun k s => ⟨s.bytes (mem1 k) s.extent, none⟩)
  relocatable : ∃ file, compImage sym (dumpFi mem1 ts.first) (dumpFi mem2 ts.second) = some file ∧
    ∀ sections : Nat → Cell, gforthLoader sections file =
      some (ts.list.mapIdx fun k t =>
        ⟨(storeCells (ts.written sym mem1 mem2 k t).1).take t.first.extent,
          some (ts.written sym mem1 mem2 k t).2⟩)

/-! ## The addresses in headers -/

/-- The addresses of a section -/
theorem Section.covers_iff (s : Section) (x : Cell) :
    s.sect.covers x = true ↔
      s.start.toNat ≤ x.toNat ∧ x.toNat ≤ s.start.toNat + s.extent := by
  have hext := s.extent_lt
  have hend : s.dp + 1#64 - s.start = BitVec.ofNat 64 (s.extent + 1) := by
    rw [Section.dp, BitVec.add_assoc, BitVec.add_comm, BitVec.add_sub_cancel, BitVec.ofNat_add]
  have hend' : (BitVec.ofNat 64 (s.extent + 1)).toNat = s.extent + 1 := by
    rw [BitVec.toNat_ofNat]
    exact Nat.mod_eq_of_lt (by omega)
  have hcovers : s.sect.covers x = decide ((x - s.start).toNat < s.extent + 1) := by
    rw [← hend', ← hend]
    rfl
  rw [hcovers, decide_eq_true_iff]
  by_cases hle : s.start.toNat ≤ x.toNat
  · rw [BitVec.toNat_sub_of_le hle]
    omega
  · have hstart := s.end_lt
    have hsub : (x - s.start).toNat = 2 ^ 64 - s.start.toNat + x.toNat := by
      rw [BitVec.toNat_sub]
      exact Nat.mod_eq_of_lt (by omega)
    rw [hsub]
    omega

/-- An address in a section that is apart from the others. -/
theorem addressAt_of_apart {ss : List Section} (happart : ss.Pairwise Section.Apart) {k : Nat}
    {s : Section} (hk : ss[k]? = some s) {o : Nat} (ho : o ≤ s.extent) :
    AddressAt (ss.map Section.sect) k (BitVec.ofNat 64 o) (s.start + BitVec.ofNat 64 o) := by
  have hend := s.end_lt
  have hx : (s.start + BitVec.ofNat 64 o).toNat = s.start.toNat + o := by
    have ho' : (BitVec.ofNat 64 o).toNat = o := by
      rw [BitVec.toNat_ofNat]
      exact Nat.mod_eq_of_lt (by omega)
    rw [BitVec.toNat_add, ho']
    exact Nat.mod_eq_of_lt (by omega)
  refine ⟨⟨s.sect, ?_, ?_, ?_⟩, ?_⟩
  · rw [List.getElem?_map, hk]
    rfl
  · rw [s.covers_iff, hx]
    omega
  · rw [BitVec.add_comm]
    exact BitVec.add_sub_cancel _ _
  · intro j hj s' hs'
    rw [List.getElem?_map, Option.map_eq_some_iff] at hs'
    obtain ⟨r, hr, rfl⟩ := hs'
    obtain ⟨hjlt, rfl⟩ := List.getElem?_eq_some_iff.mp hr
    obtain ⟨hklt, rfl⟩ := List.getElem?_eq_some_iff.mp hk
    have := List.pairwise_iff_getElem.mp happart j k hjlt hklt hj
    rw [Bool.eq_false_iff, ne_eq, Section.covers_iff, hx]
    rcases this with h | h <;> omega

/-- The loader gets offsets from tokens in headers. -/
theorem token_sub_token (k : Nat) {o : Cell} (ho : o.toNat < 2 ^ 56) :
    token k o - token k 0#64 = o := by
  have hand : o &&& (BitVec.ofNat 64 k <<< 56) = 0#64 := by
    refine BitVec.eq_of_getLsbD_eq fun i hi => ?_
    rw [BitVec.getLsbD_and, BitVec.getLsbD_shiftLeft]
    by_cases hlow : i < 56
    · simp [hlow]
    · have hbit : o.getLsbD i = false :=
        Nat.testBit_lt_two_pow (lt_of_lt_of_le ho (Nat.pow_le_pow_right (by decide) (by omega)))
      simp [hbit]
  rw [token, token, BitVec.zero_or, ← BitVec.add_eq_or_of_and_eq_zero _ _ hand,
    BitVec.add_sub_cancel]

/-! ## What the image maker writes -/

section

variable (ts : Twins) (sym : Symbols) (mem1 mem2 : Nat → Nat → Byte) {k : Nat} {t : Twin}

/-- The descriptor as cells -/
theorem Section.cells_getD (s : Section) (mem : Nat → Byte) {i n : Nat} (hi : i < 3)
    (hn : 24 ≤ n) :
    (loadCells (n / 8) (s.bytes mem n)).getD i 0#64 = [s.start, s.size, s.dp].getD i 0#64 := by
  rw [loadCells_getD _ (by omega)]
  match i, hi with
  | 0, _ => exact s.sectStart_bytes mem n
  | 1, _ => exact s.sectSize_bytes mem n
  | 2, _ => exact s.sectDp_bytes mem n

theorem Twins.written_length :
    (ts.written sym mem1 mem2 k t).1.length = aligned t.first.extent / 8 := by
  rw [Twins.written, compareSection_length _ _ _ (by simp), length_loadCells]

/-- The bits have their fixed size. -/
theorem Twins.written_bits_length :
    (ts.written sym mem1 mem2 k t).2.length = relocBytes (BitVec.ofNat 64 t.first.extent) := by
  have hge := t.first.header_le
  have hlt := t.first.extent_lt
  have hsub : (BitVec.ofNat 64 t.first.extent - 1#64).toNat = t.first.extent - 1 := by
    have hone : (1#64).toNat ≤ (BitVec.ofNat 64 t.first.extent).toNat := by
      rw [t.first.toNat_extent]
      exact le_trans (by decide) hge
    rw [BitVec.toNat_sub_of_le hone, t.first.toNat_extent]
    rfl
  rw [Twins.written, compareSection_bits_length _ _ _ (by simp), length_loadCells, relocBytes,
    hsub, relocSize, aligned, if_neg (by omega)]
  omega

/-- The fields of a header that hold addresses become tokens. -/
theorem Twins.written_address (hk : ts.list[k]? = some t) {i o : Nat} (hi : i < 3)
    (ho : o ≤ t.first.extent)
    (h1 : [t.first.start, t.first.size, t.first.dp].getD i 0#64 =
      t.first.start + BitVec.ofNat 64 o)
    (h2 : [t.second.start, t.second.size, t.second.dp].getD i 0#64 =
      t.second.start + BitVec.ofNat 64 o) :
    (ts.written sym mem1 mem2 k t).1.getD i 0#64 = token k (BitVec.ofNat 64 o) ∧
      bitAt (ts.written sym mem1 mem2 k t).2 i = true := by
  have hge : 24 ≤ aligned t.first.extent := le_trans t.first.header_le (le_aligned _)
  have hlen : i < (loadCells (aligned t.first.extent / 8)
      (t.first.bytes (mem1 k) (aligned t.first.extent))).length := by
    rw [length_loadCells]
    omega
  have hk1 : ts.first[k]? = some t.first := by rw [Twins.first, List.getElem?_map, hk]; rfl
  have hk2 : ts.second[k]? = some t.second := by rw [Twins.second, List.getElem?_map, hk]; rfl
  have hreloc1 := sectReloc_eq (addressAt_of_apart ts.first_apart hk1 ho)
  have hreloc2 := sectReloc_eq (addressAt_of_apart ts.second_apart hk2 (t.extent_eq ▸ ho))
  have hne : t.first.start + BitVec.ofNat 64 o ≠ t.second.start + BitVec.ofNat 64 o :=
    fun heq => t.start_ne ((BitVec.add_left_inj _).mp heq)
  have hcell : compareCell sym (ts.first.map Section.sect) (ts.second.map Section.sect)
      (t.first.start + BitVec.ofNat 64 o) (t.second.start + BitVec.ofNat 64 o) =
        (token k (BitVec.ofNat 64 o), true) := by
    rw [compareCell, if_neg hne, hreloc1, hreloc2, if_pos rfl]
  rw [Twins.written, compareSection_getD _ _ _ (by simp) hlen,
    compareSection_bitAt _ _ _ (by simp) hlen, Section.cells_getD _ _ hi hge,
    Section.cells_getD _ _ hi hge, h1, h2, hcell]
  exact ⟨rfl, rfl⟩

theorem Twins.written_start (hk : ts.list[k]? = some t) :
    (ts.written sym mem1 mem2 k t).1.getD 0 0#64 = token k 0#64 ∧
      bitAt (ts.written sym mem1 mem2 k t).2 0 = true :=
  ts.written_address sym mem1 mem2 hk (by decide) (Nat.zero_le _) (by simp) (by simp)

/-- The dictionary pointer is written as an offset. -/
theorem Twins.written_dp (hk : ts.list[k]? = some t) :
    (ts.written sym mem1 mem2 k t).1.getD 2 0#64 =
      token k (BitVec.ofNat 64 t.first.extent) :=
  (ts.written_address sym mem1 mem2 hk (by decide) le_rfl rfl
    (by rw [← t.extent_eq]; rfl)).1

/-- The written descriptor has the token. -/
theorem Twins.sectStart_written (hk : ts.list[k]? = some t) :
    sectStart (storeCells (ts.written sym mem1 mem2 k t).1) = token k 0#64 := by
  have hge := le_trans t.first.header_le (le_aligned _)
  have h := storeCells_drop_take (ts.written sym mem1 mem2 k t).1 (i := 0)
    (by rw [ts.written_length]; omega)
  rw [Nat.mul_zero, List.drop_zero] at h
  rw [sectStart, h, loadCell_storeCell, (ts.written_start sym mem1 mem2 hk).1]

/-- The loader finds the section number, the offsets and the relocation bits in what the
image maker writes. -/
theorem Twins.written_rewritten (hk : ts.list[k]? = some t) :
    Rewritten (storeCells (ts.written sym mem1 mem2 k t).1) (ts.written sym mem1 mem2 k t).2 ∧
      sectExtent (storeCells (ts.written sym mem1 mem2 k t).1) = t.first.extent := by
  have hge := le_trans t.first.header_le (le_aligned _)
  have hlen := ts.written_length sym mem1 mem2 (k := k) (t := t)
  have hstart := ts.sectStart_written sym mem1 mem2 hk
  have hdp : sectDp (storeCells (ts.written sym mem1 mem2 k t).1) =
      token k (BitVec.ofNat 64 t.first.extent) := by
    have h := storeCells_drop_take (ts.written sym mem1 mem2 k t).1 (i := 2)
      (by rw [hlen]; omega)
    rw [sectDp, h, loadCell_storeCell, ts.written_dp sym mem1 mem2 hk]
  have hsub := token_sub_token k (o := BitVec.ofNat 64 t.first.extent)
    (by rw [t.first.toNat_extent]; exact t.first.extent_lt)
  have hext : sectExtent (storeCells (ts.written sym mem1 mem2 k t).1) = t.first.extent := by
    rw [sectExtent, hstart, hdp, hsub, t.first.toNat_extent]
  have hbytes : (storeCells (ts.written sym mem1 mem2 k t).1).length = aligned t.first.extent := by
    rw [length_storeCells, hlen, aligned]
    omega
  refine ⟨⟨?_, ?_, ?_, ?_⟩, hext⟩
  · rwa [hbytes]
  · rw [hext, hbytes]
    exact le_aligned _
  · rw [hstart]
    refine BitVec.eq_of_toNat_eq ?_
    rw [inSection_token]
    rfl
  · rw [hstart, hdp, hsub, ts.written_bits_length]

end

/-! ## The files -/

section

variable (mem mem1 mem2 : Nat → Nat → Byte)

/-- The memory of some sections -/
theorem memory_cons (s : Section) (ss : List Section) :
    memory mem (s :: ss) =
      s.bytes (mem 0) (aligned s.extent) :: memory (fun k => mem (k + 1)) ss := by
  rw [memory, List.mapIdx_cons]
  rfl

/-- Bytes up to the next cell -/
theorem Section.padded (s : Section) (m : Nat → Byte) {n : Nat} (hn : s.extent ≤ n)
    (hlt : n < s.extent + 8) : Padded (s.bytes m n) := by
  have hge := s.header_le
  refine ⟨?_, ?_, ?_⟩
  · rwa [s.sectExtent_bytes]
  · rwa [s.sectExtent_bytes, s.length_bytes m (hge.trans hn)]
  · rwa [s.sectExtent_bytes, s.length_bytes m (hge.trans hn)]

variable {ss : List Section}

theorem memory_padded : ∀ b ∈ memory mem ss, Padded b := by
  intro b hb
  obtain ⟨k, hk, rfl⟩ := List.mem_mapIdx.mp hb
  exact Section.padded _ _ (le_aligned _) (aligned_lt _)

/-- The blocks of a dump. -/
theorem dumpFi_eq (s : Section) (ss : List Section) :
    dumpFi mem (s :: ss) =
      writeSections (s.bytes (mem 0) s.extent :: memory (fun k => mem (k + 1)) ss) := by
  rw [dumpFi, dumpSections, memory_cons]
  rfl

/-- The sections in the file are padded. -/
theorem dumpFi_padded (s : Section) (ss : List Section) :
    ∀ b ∈ s.bytes (mem 0) s.extent :: memory (fun k => mem (k + 1)) ss, Padded b := by
  intro b hb
  rcases List.mem_cons.mp hb with rfl | hb
  · exact s.padded _ le_rfl (by omega)
  · exact memory_padded _ b hb

/-- The length of a file of sections -/
theorem length_flatMap_withMagic (bs : List (List Byte)) :
    (bs.flatMap withMagic).length = ((bs.map List.length).map (8 + ·)).sum := by
  induction bs with
  | nil => rfl
  | cons b bs ih =>
      rw [List.flatMap_cons, List.length_append, ih, withMagic, List.length_append,
        length_sectionMagic, List.map_cons, List.map_cons, List.sum_cons]

/-- The lengths of sections in memory -/
theorem memory_map_length (ss : List Section) :
    (memory mem ss).map List.length = ss.map fun s => aligned s.extent := by
  induction ss generalizing mem with
  | nil => rfl
  | cons s ss ih =>
      rw [memory_cons, List.map_cons, List.map_cons, ih,
        s.length_bytes _ (s.header_le.trans (le_aligned _))]

/-- The length of a dump -/
theorem length_dumpFi (s : Section) (ss : List Section) :
    (dumpFi mem (s :: ss)).length =
      s.extent + ((ss.map fun s => aligned s.extent).map (8 + ·)).sum := by
  rw [dumpFi_eq, writeSections, List.length_append, length_flatMap_withMagic, memory_map_length,
    s.length_bytes _ s.header_le]

/-- The file is as aligned as its first section. -/
theorem dvd_length_dumpFi (s : Section) (ss : List Section) :
    8 ∣ (dumpFi mem (s :: ss)).length ↔ 8 ∣ s.extent := by
  have hsum : 8 ∣ ((ss.map fun s => aligned s.extent).map (8 + ·)).sum := by
    refine List.dvd_sum fun n hn => ?_
    simp only [List.map_map, List.mem_map, Function.comp_apply] at hn
    obtain ⟨s', -, rfl⟩ := hn
    rw [aligned]
    omega
  rw [length_dumpFi]
  exact (Nat.dvd_add_iff_left hsum).symm

/-- There are no more sections than bytes. -/
theorem length_le_length_writeSections {bs : List (List Byte)} (h : ∀ b ∈ bs, Padded b) :
    bs.length ≤ (writeSections bs).length := by
  cases bs with
  | nil => exact le_rfl
  | cons b bs =>
      have hb := (h b List.mem_cons_self).length_ge
      have hsum : bs.length ≤ (bs.flatMap withMagic).length := by
        clear h hb
        induction bs with
        | nil => exact le_rfl
        | cons c bs ih =>
            rw [List.flatMap_cons, List.length_append, withMagic, List.length_append,
              length_sectionMagic, List.length_cons]
            omega
      rw [writeSections, List.length_append, List.length_cons]
      omega

/-- The sections of a file are found where each extent is exact. -/
theorem imageSections_eq {bs : List (List Byte)} (hpadded : ∀ b ∈ bs, Padded b)
    (hexact : ∀ b ∈ bs.dropLast, sectExtent b = b.length) (hne : bs ≠ []) :
    imageSections (writeSections bs) = fileTails bs :=
  imageSectionsFrom_writeSections hpadded hexact hne
    (Nat.le_succ_of_le (length_le_length_writeSections hpadded))

/-! ## Comparing the dumps -/

/-- The descriptors that are found -/
theorem fileTails_map_sectAt (ss : List Section) :
    (fileTails (memory mem ss)).map sectAt = ss.map Section.sect := by
  induction ss generalizing mem with
  | nil => rfl
  | cons s ss ih =>
      rw [memory_cons, fileTails, List.map_cons, List.map_cons, ih, writeSections,
        sectAt_append _ (s.padded _ (le_aligned _) (aligned_lt _)).length_ge, sectAt,
        s.sectStart_bytes, s.sectDp_bytes]
      rfl

/-- What is done for two files, section by section -/
theorem zipWith_fileTails {α : Type} {f : List Byte → List Byte → α} {g : Nat → Twin → α}
    {ts : List Twin}
    (h : ∀ k t, ts[k]? = some t → ∀ u v,
      f (t.first.bytes (mem1 k) (aligned t.first.extent) ++ u)
        (t.second.bytes (mem2 k) (aligned t.first.extent) ++ v) = g k t) :
    List.zipWith f (fileTails (memory mem1 (ts.map Twin.first)))
      (fileTails (memory mem2 (ts.map Twin.second))) = ts.mapIdx g := by
  induction ts generalizing mem1 mem2 g with
  | nil => rfl
  | cons t ts ih =>
      have hhead := h 0 t rfl
      rw [← t.extent_eq] at hhead
      rw [List.map_cons, List.map_cons, memory_cons, memory_cons, fileTails, fileTails,
        List.zipWith_cons_cons, List.mapIdx_cons,
        ih _ _ fun k t' ht' u v => h (k + 1) t' (by simpa using ht') u v, writeSections,
        writeSections, ← hhead, t.extent_eq]

/-- Both dumps have the same sections. -/
theorem Twins.checkSections_eq (ts : Twins) :
    checkSections (fileTails (memory mem1 ts.first)) (fileTails (memory mem2 ts.second)) =
      true := by
  rw [checkSections, Twins.first, Twins.second,
    zipWith_fileTails mem1 mem2 (g := fun _ _ => true)]
  · simp
  · intro k t ht u v
    have hge := t.first.header_le.trans (le_aligned _)
    rw [sectStart_append u (by rwa [t.first.length_bytes _ hge]),
      sectStart_append v (by rwa [t.second.length_bytes _ hge]),
      sectSize_append u (by rwa [t.first.length_bytes _ hge]),
      sectSize_append v (by rwa [t.second.length_bytes _ hge])]
    simp [t.start_ne, t.size_eq]

/-- The sections are compared one by one. -/
theorem Twins.compareSections_eq (ts : Twins) (sym : Symbols) :
    compareSections sym (fileTails (memory mem1 ts.first)) (fileTails (memory mem2 ts.second)) =
      writeSections (ts.list.mapIdx fun k t =>
        sectionBlock (ts.written sym mem1 mem2 k t)) := by
  rw [compareSections, fileTails_map_sectAt, fileTails_map_sectAt]
  congr 1
  refine zipWith_fileTails mem1 mem2 ?_
  intro k t ht u v
  have hge := t.first.header_le.trans (le_aligned _)
  have hsecond : sectExtent (t.second.bytes (mem2 k) (aligned t.first.extent) ++ v) =
      t.first.extent := by
    rw [sectExtent_append v (by rwa [t.second.length_bytes _ hge]), t.second.sectExtent_bytes,
      t.extent_eq]
  have hsize : 8 * (aligned t.first.extent / 8) ≤ aligned t.first.extent := by omega
  simp only [hsecond]
  rw [loadCells_append u (by rwa [t.first.length_bytes _ hge]),
    loadCells_append v (by rwa [t.second.length_bytes _ hge])]
  rfl

/-- Both dumps have the same length. -/
theorem Twins.length_dumpFi_eq (ts : Twins) :
    (dumpFi mem1 ts.first).length = (dumpFi mem2 ts.second).length := by
  obtain ⟨t, rest, ht⟩ := List.exists_cons_of_ne_nil ts.ne_nil
  rw [Twins.first, Twins.second, ht, List.map_cons, List.map_cons, length_dumpFi, length_dumpFi,
    t.extent_eq, List.map_map, List.map_map, List.map_map, List.map_map]
  congr 3
  funext t'
  simp [t'.extent_eq]

/-- The image maker takes two dumps with at most the last section padded. -/
theorem Twins.compImage_eq (ts : Twins) (sym : Symbols)
    (h1 : imageSections (dumpFi mem1 ts.first) = fileTails (memory mem1 ts.first))
    (h2 : imageSections (dumpFi mem2 ts.second) = fileTails (memory mem2 ts.second))
    (hdvd : 8 ∣ (dumpFi mem1 ts.first).length) :
    compImage sym (dumpFi mem1 ts.first) (dumpFi mem2 ts.second) =
      some (writeSections (ts.list.mapIdx fun k t =>
        sectionBlock (ts.written sym mem1 mem2 k t))) := by
  have hcount : (fileTails (memory mem1 ts.first)).length =
      (fileTails (memory mem2 ts.second)).length := by
    simp [length_fileTails, memory, Twins.first, Twins.second]
  rw [compImage, if_neg (by simpa using (aligned_eq_iff _).mpr hdvd),
    if_neg (by simpa using ts.length_dumpFi_eq mem1 mem2)]
  simp only [h1, h2, hcount, ne_eq, not_true_eq_false, if_false, ts.checkSections_eq mem1 mem2,
    if_true, ts.compareSections_eq mem1 mem2]

/-- If the first section is aligned, the dump is the memory in whole cells. -/
theorem dumpFi_eq_memory (h : ∀ s ∈ ss.head?, 8 ∣ s.extent) :
    dumpFi mem ss = writeSections (memory mem ss) := by
  cases ss with
  | nil => rfl
  | cons s ss =>
      rw [dumpFi_eq, memory_cons, (aligned_eq_iff s.extent).mpr (h s rfl)]

/-- The extent is exact if it is aligned. -/
theorem Section.exact_iff (s : Section) (m : Nat → Byte) :
    sectExtent (s.bytes m (aligned s.extent)) = (s.bytes m (aligned s.extent)).length ↔
      8 ∣ s.extent := by
  rw [s.sectExtent_bytes, s.length_bytes _ (s.header_le.trans (le_aligned _)), eq_comm,
    aligned_eq_iff]

/-- Aligned sections are exact. -/
theorem memory_exact (h : ∀ s ∈ ss, 8 ∣ s.extent) :
    ∀ b ∈ memory mem ss, sectExtent b = b.length := by
  intro b hb
  obtain ⟨k, hk, rfl⟩ := List.mem_mapIdx.mp hb
  exact (Section.exact_iff _ _).mpr (h _ (List.getElem_mem hk))

end

/-! ## Loading the file -/

/-- The loader finds the first section at the start of the file. -/
theorem gforthLoader_writeSections (sections : Nat → Cell) (bs : List (List Byte))
    (hlen : 24 ≤ b.length) (hext : sectExtent b ≤ b.length)
    (hbase : inSection (sectStart b) = sectStart b) :
    gforthLoader sections (writeSections (b :: bs)) =
      loaderLoop sections 0xFE 0 (inSection (sectStart b)) (sectDp b - sectStart b)
        (b.take (sectExtent b)) (b.drop (sectExtent b) ++ bs.flatMap withMagic) := by
  rw [hbase]
  rw [sectExtent] at hext
  simp only [gforthLoader, writeSections, sectStart_append _ hlen, sectDp_append _ hlen,
    List.take_append_of_le_length hext, List.drop_append_of_le_length hext, sectExtent]

/-- The loader reads a file of at most 254 sections back if it reads each block back. -/
theorem gforthLoader_readsBack {ps : List (List Byte × Loaded)} (hne : ps ≠ [])
    (h : ∀ j q, ps[j]? = some q → ReadsBack sections j q.1 q.2)
    (hbase : ∀ q ∈ ps.head?, inSection (sectStart q.1) = sectStart q.1) (hlen : ps.length ≤ 254) :
    gforthLoader sections (writeSections (ps.map Prod.fst)) = some (ps.map Prod.snd) := by
  obtain ⟨p, ps, rfl⟩ := List.exists_cons_of_ne_nil hne
  have hp := h 0 p rfl
  rw [List.map_cons, gforthLoader_writeSections _ _ hp.header_le hp.extent_le (hbase p rfl),
    loaderLoop_readsBack _ (by simpa using hlen)]
  intro j q hq
  rw [Nat.zero_add]
  exact h j q hq

/-- If it reads a rewritten file back, nothing is padded with zeros. -/
theorem exact_of_gforthLoader {ps : List (List Byte × List Byte)} (hne : ps ≠ [])
    (h : ∀ q ∈ ps, Rewritten q.1 q.2) (hfirst : ∀ q ∈ ps, bitAt q.2 0 = true)
    (hpad : ∀ q ∈ ps, ∀ c ∈ q.1.drop (sectExtent q.1), c = 0#8)
    (hbase : ∀ q ∈ ps.head?, inSection (sectStart q.1) = sectStart q.1)
    (hload : gforthLoader sections (writeSections (ps.map fun q => q.1 ++ q.2)) =
      some (ps.map fun q => ⟨q.1.take (sectExtent q.1), some q.2⟩)) :
    (∀ q ∈ ps, sectExtent q.1 = q.1.length) ∧ ps.length ≤ 254 := by
  obtain ⟨p, ps, rfl⟩ := List.exists_cons_of_ne_nil hne
  have hp := h p List.mem_cons_self
  have hstart := sectStart_append p.2 hp.header_le
  rw [List.map_cons, gforthLoader_writeSections _ _ hp.length_ge hp.extent_le_length
      (by rw [hstart, hbase p rfl]),
    hstart, sectDp_append _ hp.header_le, sectExtent_append _ hp.header_le,
    List.take_append_of_le_length hp.extent_le, List.drop_append_of_le_length hp.extent_le,
    List.append_assoc, hp.base_eq] at hload
  exact exact_of_loaderLoop h hfirst hpad hload

/-! ## Which layouts survive -/

section

variable (ts : Twins) (sym : Symbols) (mem1 mem2 : Nat → Nat → Byte)

theorem inSection_of_lt {x : Cell} (hx : x.toNat < 2 ^ 56) : inSection x = x := by
  refine BitVec.eq_of_toNat_eq ?_
  have htoken : token 0 x = x := by simp [token]
  rw [← htoken, inSection_token, htoken, Nat.mod_eq_of_lt hx]

/-- A dumped section is read back at the address where it was. -/
theorem Section.readsBack (s : Section) (mem : Nat → Byte) {sections : Nat → Cell} {k : Nat}
    (hdvd : 8 ∣ s.extent) (haddr : sections k = s.start) :
    ReadsBack sections k (s.bytes mem (aligned s.extent)) ⟨s.bytes mem s.extent, none⟩ := by
  have hbase := inSection_of_lt (lt_of_le_of_lt (Nat.le_add_right _ _) s.end_lt)
  have hlen := s.length_bytes mem s.header_le
  have hgt := s.start_gt
  have hne : ¬(s.start = 0#64 ∨ s.start = 0x100#64) := by
    rintro (h | h)
    · rw [h] at hgt
      simp at hgt
    · rw [h] at hgt
      simp at hgt
  rw [(aligned_eq_iff s.extent).mpr hdvd]
  refine ⟨hlen.symm ▸ s.header_le, ?_, ?_, ?_⟩
  · rw [s.sectExtent_bytes, hlen]
  · rw [s.sectExtent_bytes, s.bytes_take mem s.header_le le_rfl]
  · intro t
    rw [s.sectExtent_bytes, s.sectStart_bytes, hbase, List.drop_eq_nil_of_le hlen.le,
      List.nil_append, readBits, if_neg hne, if_neg (by simp [haddr])]

/-- The sections without their padding -/
theorem memory_map_take (mem : Nat → Nat → Byte) (ss : List Section) :
    (memory mem ss).map (fun b => b.take (sectExtent b)) =
      ss.mapIdx fun k s => s.bytes (mem k) s.extent := by
  rw [memory, map_mapIdx]
  congr 1
  funext k s
  rw [s.sectExtent_bytes, s.bytes_take _ s.header_le (le_aligned _)]

variable {ss : List Section}

/-- {lit}`image-sections` finds aligned sections. -/
theorem imageSections_of_dvd (mem : Nat → Nat → Byte) (hne : ss ≠ []) (h : ∀ s ∈ ss, 8 ∣ s.extent) :
    imageSections (dumpFi mem ss) = fileTails (memory mem ss) := by
  have hmem : memory mem ss ≠ [] := by simpa [memory] using hne
  rw [dumpFi_eq_memory mem fun s hs => h s (List.mem_of_mem_head? hs),
    imageSections_eq (memory_padded mem)
      (fun b hb => memory_exact mem h b (List.mem_of_mem_dropLast hb)) hmem]

/-- The loader reads aligned sections back at their old addresses. -/
theorem gforthLoader_dumpFi (mem : Nat → Nat → Byte) (hne : ss ≠ []) (h : ∀ s ∈ ss, 8 ∣ s.extent)
    (hlen : ss.length ≤ 254) {sections : Nat → Cell}
    (haddr : ∀ k s, ss[k]? = some s → sections k = s.start) :
    gforthLoader sections (dumpFi mem ss) =
      some (ss.mapIdx fun k s => ⟨s.bytes (mem k) s.extent, none⟩) := by
  have hread : gforthLoader sections (writeSections ((ss.mapIdx fun k s =>
      (s.bytes (mem k) (aligned s.extent), Loaded.mk (s.bytes (mem k) s.extent) none)).map
        Prod.fst)) = some ((ss.mapIdx fun k s =>
      (s.bytes (mem k) (aligned s.extent), Loaded.mk (s.bytes (mem k) s.extent) none)).map
        Prod.snd) := by
    refine gforthLoader_readsBack (by simpa using hne) ?_ ?_ (by simpa using hlen)
    · intro j q hq
      rw [List.getElem?_mapIdx, Option.map_eq_some_iff] at hq
      obtain ⟨s, hs, rfl⟩ := hq
      exact s.readsBack _ (h s (List.mem_of_getElem? hs)) (haddr j s hs)
    · intro q hq
      rw [List.head?_mapIdx] at hq
      obtain ⟨s, -, rfl⟩ := Option.map_eq_some_iff.mp hq
      rw [s.sectStart_bytes]
      exact inSection_of_lt (lt_of_le_of_lt (Nat.le_add_right _ _) s.end_lt)
  rw [map_mapIdx, map_mapIdx] at hread
  rw [dumpFi_eq_memory mem fun s hs => h s (List.mem_of_mem_head? hs)]
  exact hread

/-- The rewritten sections. -/
def Twins.blocks : List (List Byte × List Byte) :=
  ts.list.mapIdx fun k t =>
    (storeCells (ts.written sym mem1 mem2 k t).1, (ts.written sym mem1 mem2 k t).2)

/-- The blocks are the written sections. -/
theorem Twins.blocks_getElem? {k : Nat} {q : List Byte × List Byte}
    (hq : (ts.blocks sym mem1 mem2)[k]? = some q) :
    ∃ t, ts.list[k]? = some t ∧ q = (storeCells (ts.written sym mem1 mem2 k t).1,
      (ts.written sym mem1 mem2 k t).2) := by
  rw [Twins.blocks, List.getElem?_mapIdx, Option.map_eq_some_iff] at hq
  obtain ⟨t, ht, rfl⟩ := hq
  exact ⟨t, ht, rfl⟩

theorem Twins.blocks_ne_nil : ts.blocks sym mem1 mem2 ≠ [] := by
  simpa [Twins.blocks] using ts.ne_nil

/-- The first rewritten section has base 0. -/
theorem Twins.blocks_base :
    ∀ q ∈ (ts.blocks sym mem1 mem2).head?, inSection (sectStart q.1) = sectStart q.1 := by
  intro q hq
  rw [List.head?_eq_getElem?] at hq
  obtain ⟨t, ht, rfl⟩ := ts.blocks_getElem? sym mem1 mem2 hq
  rw [ts.sectStart_written sym mem1 mem2 ht]
  exact inSection_of_lt (by decide)

/-- What the loader is to find in the relocatable file. -/
theorem Twins.blocks_map_loaded :
    (ts.blocks sym mem1 mem2).map (fun q => (⟨q.1.take (sectExtent q.1), some q.2⟩ : Loaded)) =
      ts.list.mapIdx fun k t =>
        ⟨(storeCells (ts.written sym mem1 mem2 k t).1).take t.first.extent,
          some (ts.written sym mem1 mem2 k t).2⟩ := by
  refine List.ext_getElem? fun k => ?_
  rw [Twins.blocks, map_mapIdx, List.getElem?_mapIdx, List.getElem?_mapIdx]
  cases hk : ts.list[k]? with
  | none => rfl
  | some t =>
      simp only [Option.map_some,
        (ts.written_rewritten sym mem1 mem2 hk).2]

/-- The image is made of the blocks where the sections are found. -/
theorem Twins.compImage_blocks
    (h1 : imageSections (dumpFi mem1 ts.first) = fileTails (memory mem1 ts.first))
    (h2 : imageSections (dumpFi mem2 ts.second) = fileTails (memory mem2 ts.second))
    (hdvd : 8 ∣ (dumpFi mem1 ts.first).length) :
    compImage sym (dumpFi mem1 ts.first) (dumpFi mem2 ts.second) =
      some (writeSections ((ts.blocks sym mem1 mem2).map fun q => q.1 ++ q.2)) := by
  rw [ts.compImage_eq mem1 mem2 sym h1 h2 hdvd, Twins.blocks, map_mapIdx]
  rfl

/-- A memory of zeros. -/
def zeros : Nat → Nat → Byte := fun _ _ => 0#8

/-- The padding of a section of zeros -/
theorem Section.bytes_zeros (s : Section) (k : Nat) {m n : Nat} (hm : 24 ≤ m) :
    ∀ c ∈ (s.bytes (zeros k) n).drop m, c = 0#8 := by
  have hhead : (storeCell s.start ++ (storeCell s.size ++ storeCell s.dp)).length = 24 := by simp
  have hsplit : s.bytes (zeros k) n = (storeCell s.start ++ (storeCell s.size ++ storeCell s.dp)) ++
      (List.range (n - 24)).map fun _ => 0#8 := by
    simp [Section.bytes, zeros]
  intro c hc
  rw [hsplit, List.drop_append, List.drop_eq_nil_of_le (by omega), List.nil_append] at hc
  obtain ⟨-, -, rfl⟩ := List.mem_map.mp (List.mem_of_mem_drop hc)
  rfl

/-- The last cell of an unaligned section with zeros is written as it is. -/
theorem Twins.written_zeros {k : Nat} {t : Twin} :
    ∀ c ∈ (storeCells (ts.written sym zeros zeros k t).1).drop t.first.extent, c = 0#8 := by
  have hge := t.first.header_le
  have hlen := ts.written_length sym zeros zeros (k := k) (t := t)
  intro c hc
  by_cases hdvd : 8 ∣ t.first.extent
  · rw [List.drop_eq_nil_of_le (by rw [length_storeCells, hlen, aligned]; omega)] at hc
    simp at hc
  · -- the cell with the last bytes of the section is after the header
    have hlast : aligned t.first.extent / 8 = t.first.extent / 8 + 1 := by
      rw [aligned]
      omega
    have hindex : t.first.extent / 8 < aligned t.first.extent / 8 := by omega
    have hcell : ∀ s : Section, (loadCells (aligned t.first.extent / 8)
        (s.bytes (zeros k) (aligned t.first.extent))).getD (t.first.extent / 8) 0#64 = 0#64 := by
      intro s
      rw [loadCells_getD _ hindex]
      exact loadCell_eq_zero fun c hc =>
        s.bytes_zeros k (by omega) c (List.mem_of_mem_take hc)
    have hwritten : (ts.written sym zeros zeros k t).1.getD (t.first.extent / 8) 0#64 = 0#64 := by
      rw [Twins.written, compareSection_getD _ _ _ (by simp) (by simpa using hindex), hcell, hcell,
        compareCell, if_pos rfl]
    have hbytes := storeCells_drop_take (ts.written sym zeros zeros k t).1 (i := t.first.extent / 8)
      (by rw [hlen]; exact hindex)
    rw [hwritten, List.take_of_length_le
      (by rw [List.length_drop, length_storeCells, hlen]; omega)] at hbytes
    have hmem : c ∈ storeCell 0#64 := by
      rw [← hbytes]
      refine List.mem_of_mem_drop (i := t.first.extent - 8 * (t.first.extent / 8)) ?_
      rwa [List.drop_drop, Nat.add_sub_cancel' (Nat.mul_div_le _ _)]
    have hzero : ∀ c ∈ storeCell 0#64, c = 0#8 := by simp [storeCell]
    exact hzero c hmem

/-- If the image maker finds all sections, only the last one may be unaligned, and if it
takes the files, the first one is aligned. -/
theorem imageSections_of_roundTrip (mem : Nat → Nat → Byte) (hne : ss ≠ [])
    (hlen : (imageSections (dumpFi mem ss)).length = ss.length)
    (hdvd : 8 ∣ (dumpFi mem ss).length) :
    imageSections (dumpFi mem ss) = fileTails (memory mem ss) := by
  obtain ⟨s, rest, rfl⟩ := List.exists_cons_of_ne_nil hne
  have hfirst := (dvd_length_dumpFi mem s rest).mp hdvd
  have hdump : dumpFi mem (s :: rest) = writeSections (memory mem (s :: rest)) :=
    dumpFi_eq_memory mem (by simpa using hfirst)
  have hcount : (memory mem (s :: rest)).length = (s :: rest).length := by simp [memory]
  rw [hdump] at hlen ⊢
  exact imageSections_eq (memory_padded mem)
    (exact_of_length_imageSectionsFrom (memory_padded mem) (hlen.trans hcount.symm))
    (by simp [memory])

/-- Each block is a rewritten section, and its first cell is relocated. -/
theorem Twins.blocks_rewritten :
    ∀ q ∈ ts.blocks sym mem1 mem2, Rewritten q.1 q.2 ∧ bitAt q.2 0 = true := by
  intro q hq
  obtain ⟨k, hk⟩ := List.getElem?_of_mem hq
  obtain ⟨t, ht, rfl⟩ := ts.blocks_getElem? sym mem1 mem2 hk
  exact ⟨(ts.written_rewritten sym mem1 mem2 ht).1, (ts.written_start sym mem1 mem2 ht).2⟩

/-- A rewritten section is as long as in the dumps, in whole cells. -/
theorem Twins.blocks_exact_iff :
    (∀ q ∈ ts.blocks sym mem1 mem2, sectExtent q.1 = q.1.length) ↔
      ∀ t ∈ ts.list, 8 ∣ t.first.extent := by
  have hlen : ∀ {k t}, ts.list[k]? = some t →
      (sectExtent (storeCells (ts.written sym mem1 mem2 k t).1) =
        (storeCells (ts.written sym mem1 mem2 k t).1).length ↔ 8 ∣ t.first.extent) := by
    intro k t hk
    rw [(ts.written_rewritten sym mem1 mem2 hk).2, length_storeCells, ts.written_length, aligned]
    omega
  constructor
  · intro h t ht
    obtain ⟨k, hk⟩ := List.getElem?_of_mem ht
    refine (hlen hk).mp (h (_, (ts.written sym mem1 mem2 k t).2) ?_)
    refine List.mem_of_getElem? (i := k) ?_
    rw [Twins.blocks, List.getElem?_mapIdx, hk]
    rfl
  · intro h q hq
    obtain ⟨k, hk⟩ := List.getElem?_of_mem hq
    obtain ⟨t, ht, rfl⟩ := ts.blocks_getElem? sym mem1 mem2 hk
    exact (hlen ht).mpr (h t (List.mem_of_getElem? ht))

/-- The loader reads aligned sections of a relocatable image back. -/
theorem Twins.gforthLoader_blocks (hdvd : ∀ t ∈ ts.list, 8 ∣ t.first.extent)
    (hlen : ts.list.length ≤ 254) (sections : Nat → Cell) :
    gforthLoader sections (writeSections ((ts.blocks sym mem1 mem2).map fun q => q.1 ++ q.2)) =
      some ((ts.blocks sym mem1 mem2).map fun q =>
        ⟨q.1.take (sectExtent q.1), some q.2⟩) := by
  have hexact := (ts.blocks_exact_iff sym mem1 mem2).mpr hdvd
  have hread : gforthLoader sections (writeSections (((ts.blocks sym mem1 mem2).map fun q =>
      (q.1 ++ q.2, Loaded.mk (q.1.take (sectExtent q.1)) (some q.2))).map Prod.fst)) =
      some (((ts.blocks sym mem1 mem2).map fun q =>
        (q.1 ++ q.2, Loaded.mk (q.1.take (sectExtent q.1)) (some q.2))).map Prod.snd) := by
    refine gforthLoader_readsBack (by simpa using ts.blocks_ne_nil sym mem1 mem2) ?_ ?_
      (by simpa [Twins.blocks] using hlen)
    · intro j p hp
      rw [List.getElem?_map, Option.map_eq_some_iff] at hp
      obtain ⟨q, hq, rfl⟩ := hp
      have hmem := List.mem_of_getElem? hq
      exact (ts.blocks_rewritten sym mem1 mem2 q hmem).1.readsBack (hexact q hmem) sections j
    · intro p hp
      rw [List.head?_map] at hp
      obtain ⟨q, hq, rfl⟩ := Option.map_eq_some_iff.mp hp
      rw [sectStart_append _
        (ts.blocks_rewritten sym mem1 mem2 q (List.mem_of_mem_head? hq)).1.header_le]
      exact ts.blocks_base sym mem1 mem2 q hq
  rw [List.map_map, List.map_map] at hread
  exact hread

theorem Twins.first_ne_nil : ts.first ≠ [] := by
  simpa [Twins.first] using ts.ne_nil

theorem Twins.second_ne_nil : ts.second ≠ [] := by
  simpa [Twins.second] using ts.ne_nil

/-- Sections with zeros survive only if they are aligned and not too many. -/
theorem Twins.aligned_of_roundTrip (h : ts.RoundTrip sym zeros zeros) :
    (∀ t ∈ ts.list, 8 ∣ t.first.extent) ∧ ts.list.length ≤ 254 := by
  obtain ⟨himage1, himage2, -, file, hfile, hload⟩ := h
  have hlen1 := congrArg List.length himage1
  have hlen2 := congrArg List.length himage2
  rw [List.length_map, List.length_mapIdx] at hlen1 hlen2
  have hdvd : 8 ∣ (dumpFi zeros ts.first).length := by
    by_contra hndvd
    rw [compImage, if_pos (fun heq => hndvd ((aligned_eq_iff _).mp heq))] at hfile
    cases hfile
  have hfound1 := imageSections_of_roundTrip zeros ts.first_ne_nil hlen1 hdvd
  have hfound2 := imageSections_of_roundTrip zeros ts.second_ne_nil hlen2
    (by rwa [← ts.length_dumpFi_eq zeros zeros])
  rw [ts.compImage_blocks sym zeros zeros hfound1 hfound2 hdvd] at hfile
  obtain rfl := Option.some.inj hfile
  have hloaded := hload fun _ => 0#64
  rw [← ts.blocks_map_loaded sym zeros zeros] at hloaded
  have hpad : ∀ q ∈ ts.blocks sym zeros zeros, ∀ c ∈ q.1.drop (sectExtent q.1), c = 0#8 := by
    intro q hq
    obtain ⟨k, hk⟩ := List.getElem?_of_mem hq
    obtain ⟨t, ht, rfl⟩ := ts.blocks_getElem? sym zeros zeros hk
    rw [(ts.written_rewritten sym zeros zeros ht).2]
    exact ts.written_zeros sym
  obtain ⟨hexact, hcount⟩ := exact_of_gforthLoader (ts.blocks_ne_nil sym zeros zeros)
    (fun q hq => (ts.blocks_rewritten sym zeros zeros q hq).1)
    (fun q hq => (ts.blocks_rewritten sym zeros zeros q hq).2) hpad
    (ts.blocks_base sym zeros zeros) hloaded
  exact ⟨(ts.blocks_exact_iff sym zeros zeros).mp hexact, by simpa [Twins.blocks] using hcount⟩

/-- Aligned sections survive with all their contents, if they are not too many. -/
theorem Twins.roundTrip_of_aligned (hdvd : ∀ t ∈ ts.list, 8 ∣ t.first.extent)
    (hlen : ts.list.length ≤ 254) : ts.RoundTrip sym mem1 mem2 := by
  have hdvd1 : ∀ s ∈ ts.first, 8 ∣ s.extent := by
    intro s hs
    obtain ⟨t, ht, rfl⟩ := List.mem_map.mp hs
    exact hdvd t ht
  have hdvd2 : ∀ s ∈ ts.second, 8 ∣ s.extent := by
    intro s hs
    obtain ⟨t, ht, rfl⟩ := List.mem_map.mp hs
    rw [t.extent_eq]
    exact hdvd t ht
  have hfound1 := imageSections_of_dvd mem1 ts.first_ne_nil hdvd1
  have hfound2 := imageSections_of_dvd mem2 ts.second_ne_nil hdvd2
  refine ⟨?_, ?_, ?_, _, ts.compImage_blocks sym mem1 mem2 hfound1 hfound2 ?_, ?_⟩
  · rw [hfound1, fileTails_map_take (memory_padded mem1), memory_map_take]
  · rw [hfound2, fileTails_map_take (memory_padded mem2), memory_map_take]
  · intro sections haddr
    exact gforthLoader_dumpFi mem1 ts.first_ne_nil hdvd1 (by simpa [Twins.first] using hlen) haddr
  · obtain ⟨s, rest, hs⟩ := List.exists_cons_of_ne_nil ts.first_ne_nil
    rw [hs, dvd_length_dumpFi]
    exact hdvd1 s (hs ▸ List.mem_cons_self)
  · intro sections
    rw [ts.gforthLoader_blocks sym mem1 mem2 hdvd hlen, ts.blocks_map_loaded]

end

/-- The layout of the sections survives, whatever they contain, exactly if every section is
a multiple of the cell size long and there are at most 254 sections. -/
theorem roundTrip_iff (ts : Twins) (sym : Symbols) :
    (∀ mem1 mem2, ts.RoundTrip sym mem1 mem2) ↔
      (∀ t ∈ ts.list, 8 ∣ t.first.extent) ∧ ts.list.length ≤ 254 := by
  constructor
  · intro h
    exact ts.aligned_of_roundTrip sym (h zeros zeros)
  · rintro ⟨hdvd, hlen⟩ mem1 mem2
    exact ts.roundTrip_of_aligned sym mem1 mem2 hdvd hlen

/-! ## An unaligned section in the middle -/

theorem toNat_ofNat_of_lt {n : Nat} (h : n < 2 ^ 56) : (BitVec.ofNat 64 n).toNat = n := by
  rw [BitVec.toNat_ofNat]
  exact Nat.mod_eq_of_lt (lt_trans h (by decide))

/-- A section of 64 KiB that starts on a page, with {lit}`extent` bytes in use. -/
def sectionAt (page extent : Nat) (hpage : page < 2 ^ 16) (hge : 24 ≤ extent)
    (hlt : extent < 0x10000) : Section where
  start := BitVec.ofNat 64 (page * 0x10000 + 0x10000)
  size := 0x10000#64
  extent := extent
  header_le := hge
  start_gt := by
    rw [toNat_ofNat_of_lt (by omega)]
    omega
  end_lt := by
    rw [toNat_ofNat_of_lt (by omega)]
    omega

theorem sectionAt_start_toNat {page extent : Nat} {hpage : page < 2 ^ 16} {hge : 24 ≤ extent}
    {hlt : extent < 0x10000} :
    (sectionAt page extent hpage hge hlt).start.toNat = page * 0x10000 + 0x10000 :=
  toNat_ofNat_of_lt (by omega)

/-- Such a section on different pages in two dumps. -/
def twinAt (page extent : Nat) (hpage : page < 0x100) (hge : 24 ≤ extent)
    (hlt : extent < 0x10000) : Twin where
  first := sectionAt page extent (by omega) hge hlt
  second := sectionAt (page + 0x100) extent (by omega) hge hlt
  size_eq := by simp only [sectionAt]
  extent_eq := by simp only [sectionAt]
  start_ne := by
    intro heq
    have := congrArg BitVec.toNat heq
    rw [sectionAt_start_toNat, sectionAt_start_toNat] at this
    omega

/-- Three sections; the second one has 67 bytes. -/
def unalignedTwins : Twins where
  list := [twinAt 0 64 (by decide) (by decide) (by decide),
    twinAt 1 67 (by decide) (by decide) (by decide),
    twinAt 2 64 (by decide) (by decide) (by decide)]
  ne_nil := by simp
  apart1 := by
    simp only [List.pairwise_cons, twinAt, Section.Apart, sectionAt_start_toNat]
    simp [sectionAt]
  apart2 := by
    simp only [List.pairwise_cons, twinAt, Section.Apart, sectionAt_start_toNat]
    simp [sectionAt]

/-- They do not survive: the third section is not found where the second one ends. -/
theorem roundTrip_unaligned : ¬unalignedTwins.RoundTrip sameSymbols zeros zeros := by
  intro h
  have hdvd := (unalignedTwins.aligned_of_roundTrip sameSymbols h).1
    (twinAt 1 67 (by decide) (by decide) (by decide)) (by simp [unalignedTwins])
  exact absurd hdvd (by decide)

end Image
end Gforth
