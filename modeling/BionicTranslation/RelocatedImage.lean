import BionicTranslation.RelativePacking
import BionicTranslation.SegmentContents

/-!
# The image in memory

A library that was loaded and whose packed relocations were applied is what its file says, with
the base added to the words that the table in the file stands for. The table is part of the
image: an entry is read when the loop comes to it.
-/

set_option autoImplicit false

namespace Bionic.RelocatedImage
open Bionic.Bytes Bionic.Elf Bionic.Relr Bionic.RelativePacking
open Bionic.Segments Bionic.SegmentRuns Bionic.SegmentContents

section image
variable {file : List UInt8} {phdrs : List Phdr} {offsets : List ℕ} {base size n relr : ℕ}
  {p : Phdr} {o v : ℕ} {mem : ℕ → UInt8}

abbrev Word := Addr .elf64

def asMem (mem : ℕ → UInt8) : Mem .elf64 := fun a => (mem a.toNat).toBitVec

def asWord (base : ℕ) : Word := BitVec.ofNat 64 base

def addressOf (base v : ℕ) : Word := place (asWord base) v

def fileWord (file : List UInt8) (i : ℕ) : Word :=
  BitVec.ofFnLE fun k : Fin 64 => (file.getD (i + k / 8) 0).toBitVec.getLsbD (k % 8)

def InFile (p : Phdr) (v n : ℕ) : Prop := p.p_vaddr ≤ v ∧ v + n ≤ p.p_vaddr + p.p_filesz

def fileOffset (p : Phdr) (v : ℕ) : ℕ := p.p_offset + (v - p.p_vaddr)

def Untouched (offsets : List ℕ) (v : ℕ) : Prop := ∀ o ∈ offsets, v < o ∨ o + 8 ≤ v

/-- The file, with the base added to these words. -/
structure Image (file : List UInt8) (phdrs : List Phdr) (offsets : List ℕ) (base : ℕ)
    (m : Mem .elf64) : Prop where
  word : ∀ p ∈ loads phdrs, ∀ o ∈ offsets, InFile p o 8 →
    load 8 m (addressOf base o) = fileWord file (fileOffset p o) + asWord base
  byte : ∀ p ∈ loads phdrs, ∀ v, InFile p v 1 → Untouched offsets v →
    file[fileOffset p v]?.map UInt8.toBitVec = some (m (addressOf base v))
  zero : ∀ p ∈ loads phdrs, p.p_flags.w → ∀ v, p.p_vaddr + p.p_filesz ≤ v →
    v < p.p_vaddr + p.p_memsz → Untouched offsets v → m (addressOf base v) = 0

theorem addressOf_toNat (h : base + v < 2 ^ 64) : (addressOf base v).toNat = base + v := by
  show (BitVec.ofNat 64 v + BitVec.ofNat 64 base).toNat = base + v
  rw [BitVec.toNat_add, BitVec.toNat_ofNat, BitVec.toNat_ofNat]
  omega

theorem addressOf_add (base v i : ℕ) :
    addressOf base v + BitVec.ofNat 64 i = addressOf base (v + i) := by
  have hsum : BitVec.ofNat 64 (v + i) = BitVec.ofNat 64 v + BitVec.ofNat 64 i :=
    BitVec.ofNat_add v i
  show BitVec.ofNat 64 v + BitVec.ofNat 64 base + BitVec.ofNat 64 i =
    BitVec.ofNat 64 (v + i) + BitVec.ofNat 64 base
  rw [hsum]
  ring

theorem entryAt_addressOf (base relr i : ℕ) :
    entryAt (addressOf base relr) i = addressOf base (relr + 8 * i) :=
  addressOf_add base relr (8 * i)

theorem asMem_addressOf (h : base + v < 2 ^ 64) :
    asMem mem (addressOf base v) = (mem (base + v)).toBitVec := by
  rw [asMem, addressOf_toNat h]

theorem load_file (hc : Contents base file phdrs mem) (hp : p ∈ loads phdrs) (hin : InFile p v 8)
    (hfit : base + v + 8 ≤ 2 ^ 64) :
    load 8 (asMem mem) (addressOf base v) = fileWord file (fileOffset p v) := by
  apply BitVec.eq_of_getLsbD_eq
  intro k hk
  have hbyte := hc.file_part p hp (v - p.p_vaddr + k / 8) (by have := hin.1; have := hin.2; omega)
  have haddr : base + p.p_vaddr + (v - p.p_vaddr + k / 8) = base + (v + k / 8) := by
    have := hin.1
    omega
  have hplace : p.p_offset + (v - p.p_vaddr + k / 8) = fileOffset p v + k / 8 :=
    (Nat.add_assoc _ _ _).symm
  rw [haddr, hplace] at hbyte
  have hat : addressOf base v + BitVec.ofNat 64 (k / 8) = addressOf base (v + k / 8) :=
    addressOf_add _ _ _
  rw [load_bit hk, fileWord, BitVec.getLsbD_ofFnLE, dif_pos hk]
  show (asMem mem (addressOf base v + BitVec.ofNat 64 (k / 8))).getLsbD (k % 8) = _
  rw [hat, asMem_addressOf (by omega), List.getD_eq_getElem?_getD, hbyte]
  rfl

/-- The file has a table of `n` entries at `relr` that stands for words of its segments and is
not relocated itself. -/
structure Packed (file : List UInt8) (phdrs : List Phdr) (relr n : ℕ) (offsets : List ℕ) :
    Prop where
  table : ∃ p ∈ loads phdrs, InFile p relr (8 * n) ∧ Encodes .elf64 none
    ((List.range n).map fun i => fileWord file (fileOffset p relr + 8 * i)) offsets
  increasing : offsets.Pairwise (· < ·)
  aligned : ∀ o ∈ offsets, 8 ∣ o
  words : ∀ o ∈ offsets, ∃ p ∈ loads phdrs, InFile p o 8
  apart : ∀ o ∈ offsets, o + 8 ≤ relr ∨ relr + 8 * n ≤ o

theorem not_within (h : v < o ∨ o + 8 ≤ v) (hv : base + v < 2 ^ 64) (ho : base + o + 8 ≤ 2 ^ 64) :
    ¬ Within (addressOf base o) 8 (addressOf base v) := by
  have hdist := BitVec.toNat_sub (addressOf base v) (addressOf base o)
  rw [addressOf_toNat hv, addressOf_toNat (by omega)] at hdist
  rw [Within, hdist]
  show ¬ (2 ^ 64 - (base + o) + (base + v)) % 2 ^ 64 < 8
  omega

theorem addressOf_apart (h : v + 8 ≤ o ∨ o + 8 ≤ v) (hv : v + 8 ≤ 2 ^ 64) (ho : o + 8 ≤ 2 ^ 64) :
    Apart (addressOf base o) 8 (addressOf base v) 8 := by
  rcases h with h | h
  · exact Apart.symm (words_apart (c := .elf64) h ho)
  · exact words_apart (c := .elf64) h hv

def Fits (base : ℕ) (phdrs : List Phdr) : Prop :=
  ∀ p ∈ loads phdrs, ∀ v n, p.p_vaddr ≤ v → v + n ≤ p.p_vaddr + p.p_memsz → base + v + n < 2 ^ 64

theorem loads_fit (hwf : WellFormed file phdrs) (hx : getLibExtents phdrs = some size)
    (hr : Reserved base size) : Fits base phdrs := by
  intro p hp v n hlow hhigh
  have hwrap := (hwf.sound hx hr hp).no_wrap
  omega

theorem Fits.inFile (hfits : Fits base phdrs) (hwf : WellFormed file phdrs) (hp : p ∈ loads phdrs)
    {n : ℕ} (h : InFile p v n) : base + v + n < 2 ^ 64 :=
  hfits p hp v n h.1 (h.2.trans (Nat.add_le_add_left (hwf.filesz_le p hp) _))

theorem Packed.fits (h : Packed file phdrs relr n offsets) (hwf : WellFormed file phdrs)
    (hfits : Fits base phdrs) (ho : o ∈ offsets) : base + o + 8 < 2 ^ 64 := by
  obtain ⟨p, hp, hin⟩ := h.words o ho
  exact hfits.inFile hwf hp hin

theorem InFile.entry (h : InFile p relr (8 * n)) {i : ℕ} (hi : i < n) :
    InFile p (relr + 8 * i) 8 ∧ fileOffset p (relr + 8 * i) = fileOffset p relr + 8 * i := by
  obtain ⟨hlow, hhigh⟩ := h
  refine ⟨⟨by omega, by omega⟩, ?_⟩
  unfold fileOffset
  omega

theorem Packed.relocates (h : Packed file phdrs relr n offsets) (hwf : WellFormed file phdrs)
    (hfits : Fits base phdrs) (hc : Contents base file phdrs mem) :
    relocateRelr (asWord base) (addressOf base relr) n (asMem mem) =
      offsets.foldl (fun m o => applyRelrReloc (asWord base) m (asWord o)) (asMem mem) := by
  obtain ⟨p, hp, hin, hencodes⟩ := h.table
  have htable : tableWords (addressOf base relr) n (asMem mem) =
      (List.range n).map fun i => fileWord file (fileOffset p relr + 8 * i) := by
    apply List.map_congr_left
    intro i hi
    obtain ⟨hentry, hplace⟩ := hin.entry (List.mem_range.mp hi)
    rw [entryAt_addressOf, ← hplace]
    exact load_file hc hp hentry (hfits.inFile hwf hp hentry).le
  apply relocateRelr_eq
  · rw [htable]
    exact hencodes
  · intro o ho i hi
    have hentry := hfits.inFile hwf hp (hin.entry hi).1
    have hword := h.fits hwf hfits ho
    rw [entryAt_addressOf]
    apply addressOf_apart _ (by omega) (by omega)
    have hapart := h.apart o ho
    omega

theorem Packed.ascending (h : Packed file phdrs relr n offsets) (hwf : WellFormed file phdrs)
    (hfits : Fits base phdrs) : Offsets .elf64 offsets where
  increasing := h.increasing
  aligned := h.aligned
  fit := by
    intro o ho
    have hword := h.fits hwf hfits ho
    show o + 8 ≤ 2 ^ 64
    omega

theorem Packed.untouched (h : Packed file phdrs relr n offsets) (hwf : WellFormed file phdrs)
    (hfits : Fits base phdrs) (hv : Untouched offsets v) (hlt : base + v < 2 ^ 64) :
    offsets.foldl (fun m o => applyRelrReloc (asWord base) m (asWord o)) (asMem mem)
      (addressOf base v) = (mem (base + v)).toBitVec := by
  rw [← asMem_addressOf hlt]
  apply foldl_other
  intro o ho
  exact not_within (hv o ho) hlt (h.fits hwf hfits ho).le

variable {mmap : MemCall → Bool} {st : Loading}

def relocated (file : List UInt8) (base relr n : ℕ) (st : Loading) (mem : ℕ → UInt8) : Mem .elf64 :=
  relocateRelr (asWord base) (addressOf base relr) n (asMem (byteAfter file st.calls mem))

theorem image_relocated (hwf : WellFormed file phdrs) (hx : getLibExtents phdrs = some size)
    (hpacked : Packed file phdrs relr n offsets) (hr : Reserved base size)
    (hload : loadSegments mmap base size phdrs = .ok st) (mem : ℕ → UInt8) :
    Image file phdrs offsets base (relocated file base relr n st mem) := by
  have hfits := loads_fit hwf hx hr
  have hc : Contents base file phdrs (byteAfter file st.calls mem) := by
    rw [load_calls hload]
    exact contents_right hwf hx hr mem
  rw [relocated]
  generalize byteAfter file st.calls mem = mem' at hc ⊢
  rw [hpacked.relocates hwf hfits hc]
  constructor
  · intro p hp o ho hin
    rw [← load_file hc hp hin (hpacked.fits hwf hfits ho).le]
    exact foldl_relocated (offsets_apart (hpacked.ascending hwf hfits)) ho
  · intro p hp v hin hv
    have hlt := hfits.inFile hwf hp hin
    have hbyte := hc.file_part p hp (v - p.p_vaddr) (by have := hin.1; have := hin.2; omega)
    have haddr : base + p.p_vaddr + (v - p.p_vaddr) = base + v := by
      have hlow := hin.1
      omega
    rw [haddr] at hbyte
    rw [hpacked.untouched hwf hfits hv (by omega), fileOffset, hbyte]
    rfl
  · intro p hp hw v hlow hhigh hv
    have hlt := hfits p hp v 1 (by omega) (by omega)
    have hzero := hc.zero_part p hp hw (v - p.p_vaddr) (by omega) (by omega)
    have haddr : base + p.p_vaddr + (v - p.p_vaddr) = base + v := by omega
    rw [haddr] at hzero
    rw [hpacked.untouched hwf hfits hv (by omega), hzero]
    rfl

structure Shifted (phdrs : List Phdr) (offsets : List ℕ) (base base' : ℕ) (m m' : Mem .elf64) :
    Prop where
  word : ∀ p ∈ loads phdrs, ∀ o ∈ offsets, InFile p o 8 →
    load 8 m' (addressOf base' o) - asWord base' = load 8 m (addressOf base o) - asWord base
  byte : ∀ p ∈ loads phdrs, ∀ v, p.p_vaddr ≤ v → v < p.p_vaddr + p.p_memsz →
    v < p.p_vaddr + p.p_filesz ∨ p.p_flags.w → Untouched offsets v →
      m' (addressOf base' v) = m (addressOf base v)

theorem Image.shifted {base' : ℕ} {m m' : Mem .elf64} (h : Image file phdrs offsets base m)
    (h' : Image file phdrs offsets base' m') : Shifted phdrs offsets base base' m m' where
  word := by
    intro p hp o ho hin
    rw [h.word p hp o ho hin, h'.word p hp o ho hin, add_sub_cancel_right, add_sub_cancel_right]
  byte := by
    intro p hp v hlow hhigh hpart hv
    by_cases hfile : v < p.p_vaddr + p.p_filesz
    · have hbyte := h.byte p hp v ⟨hlow, hfile⟩ hv
      rw [h'.byte p hp v ⟨hlow, hfile⟩ hv] at hbyte
      exact Option.some.inj hbyte
    · have hw := hpart.resolve_left hfile
      rw [h.zero p hp hw v (Nat.le_of_not_lt hfile) hhigh hv,
        h'.zero p hp hw v (Nat.le_of_not_lt hfile) hhigh hv]

/-- Wherever a well-formed library is loaded and whatever was in memory, the image is what the
file says, with the base added to the words of its table; and two loads of it differ by their
bases in these words and in nothing else. -/
theorem loads_shifted {base' : ℕ} {mmap' : MemCall → Bool} {st' : Loading}
    (hwf : WellFormed file phdrs) (hx : getLibExtents phdrs = some size)
    (hpacked : Packed file phdrs relr n offsets)
    (hr : Reserved base size) (hload : loadSegments mmap base size phdrs = .ok st)
    (hr' : Reserved base' size) (hload' : loadSegments mmap' base' size phdrs = .ok st')
    (mem mem' : ℕ → UInt8) :
    Image file phdrs offsets base (relocated file base relr n st mem) ∧
      Shifted phdrs offsets base base' (relocated file base relr n st mem)
        (relocated file base' relr n st' mem') := by
  have himage := image_relocated hwf hx hpacked hr hload mem
  have himage' := image_relocated hwf hx hpacked hr' hload' mem'
  exact ⟨himage, himage.shifted himage'⟩

end image

def packedData : Phdr :=
  { SegmentBounds.wholePage with
    p_flags := ⟨true, true, false⟩
    p_filesz := 16
    p_memsz := 32
    filesz_lt := by decide
    memsz_lt := by decide }

def packedFile : List UInt8 := 16 :: List.replicate 15 0

theorem packedData_wellFormed : WellFormed packedFile [packedData] where
  filesz_le := by decide
  memsz_pos := by decide
  congruent := by decide
  in_file := by decide +kernel
  lowest := by decide
  disjoint := List.pairwise_singleton _ _
  no_wrap := by decide

theorem packedData_packed : Packed packedFile [packedData] 8 1 [0] where
  table := by
    have hentry : fileWord packedFile 8 = 0#64 := by decide +kernel
    have hencodes : Encodes .elf64 none [0#64] [0] := .address rfl .done
    refine ⟨packedData, List.mem_singleton_self _, ⟨by decide, by decide⟩, ?_⟩
    rw [← hentry] at hencodes
    exact hencodes
  increasing := List.pairwise_singleton _ _
  aligned := by decide
  words := fun o ho => by
    obtain rfl := List.mem_singleton.mp ho
    exact ⟨packedData, List.mem_singleton_self _, by decide, by decide⟩
  apart := by decide

theorem packedData_loads (base : ℕ)
    (hpass : ∀ c ∈ segmentCalls base packedData, c.isMmap → SegmentBounds.plainMmap c)
    (hsize : ([packedData].foldl (advance base) loadStart).total_sz ≤ 0x1000) :
    loadSegments SegmentBounds.plainMmap base 0x1000 [packedData] =
      .ok ([packedData].foldl (advance base) loadStart) :=
  (loadSegments_ok_iff _ _ _ _ _).mpr ⟨List.forall_mem_singleton.mpr hpass, rfl, hsize⟩

theorem loads_shifted_data : ∃ st st',
    loadSegments SegmentBounds.plainMmap 0x70000000 0x1000 [packedData] = .ok st ∧
      loadSegments SegmentBounds.plainMmap 0x60000000 0x1000 [packedData] = .ok st' ∧
      Image packedFile [packedData] [0] 0x70000000
        (relocated packedFile 0x70000000 8 1 st fun _ => 0) ∧
      Shifted [packedData] [0] 0x70000000 0x60000000
        (relocated packedFile 0x70000000 8 1 st fun _ => 0)
        (relocated packedFile 0x60000000 8 1 st' fun _ => 1) := by
  have hfirst := packedData_loads 0x70000000 (by decide +kernel) (by decide +kernel)
  have hsecond := packedData_loads 0x60000000 (by decide +kernel) (by decide +kernel)
  refine ⟨_, _, hfirst, hsecond, ?_⟩
  exact loads_shifted packedData_wellFormed (by decide +kernel) packedData_packed
    ⟨by decide +kernel, by decide, by decide⟩ hfirst ⟨by decide +kernel, by decide, by decide⟩
    hsecond _ _

end Bionic.RelocatedImage
