import BionicTranslation.SegmentBounds

/-!
# The size of a library

What `apkenv_get_lib_extents` should find: the pages from the lowest PT_LOAD address up to
the highest end. The lowest address is searched for from 0xffffffff down, although the
addresses have 64 bits.
-/

set_option autoImplicit false

namespace Bionic.Extents
open Bionic.Paging Bionic.Segments Bionic.SegmentRuns Bionic.SegmentBounds

variable {phdrs : List Phdr}

/-- The ends of the PT_LOAD segments, and the pages up to there, are within the address
space. -/
def Fits (phdrs : List Phdr) : Prop :=
  ∀ p ∈ loads phdrs, pageUp (p.p_vaddr + p.p_memsz) < 0x10000000000000000

instance (phdrs : List Phdr) : Decidable (Fits phdrs) :=
  inferInstanceAs (Decidable (∀ p ∈ loads phdrs, _))

/-- Without a PT_LOAD segment the function fails, and with one it gives the size. -/
structure RightExtents (phdrs : List Phdr) : Prop where
  missing : loads phdrs = [] → getLibExtents phdrs = none
  total : ∀ low high, IsLeast {a | ∃ p ∈ loads phdrs, a = p.p_vaddr} low →
    IsGreatest {a | ∃ p ∈ loads phdrs, a = p.p_vaddr + p.p_memsz} high →
    getLibExtents phdrs = some (pageUp high - pageDown low)

theorem Fits.bound (h : Fits phdrs) {p : Phdr} (hp : p ∈ loads phdrs) :
    p.p_vaddr + p.p_memsz < 0xfffffffffffff001 := by
  have hup := h p hp
  unfold pageUp pageDown at hup
  omega

theorem Fits.vaddrEnd_eq (h : Fits phdrs) {p : Phdr} (hp : p ∈ loads phdrs) :
    vaddrEnd p = p.p_vaddr + p.p_memsz := by
  have hb := h.bound hp
  exact Nat.mod_eq_of_lt (by omega)

theorem extremes (hl : loads phdrs ≠ []) : ∃ low high,
    IsLeast {a | ∃ p ∈ loads phdrs, a = p.p_vaddr} low ∧
      IsGreatest {a | ∃ p ∈ loads phdrs, a = p.p_vaddr + p.p_memsz} high := by
  obtain ⟨p, hp⟩ := List.exists_mem_of_ne_nil _ hl
  have hfinite : ∀ f : Phdr → ℕ, {a | ∃ p ∈ loads phdrs, a = f p}.Finite := by
    intro f
    refine ((loads phdrs).map f).finite_toSet.subset ?_
    rintro a ⟨q, hq, rfl⟩
    exact List.mem_map_of_mem hq
  obtain ⟨low, hlow⟩ := (hfinite fun p => p.p_vaddr).exists_minimal ⟨p.p_vaddr, p, hp, rfl⟩
  obtain ⟨high, hhigh⟩ := (hfinite fun p => p.p_vaddr + p.p_memsz).exists_maximal
    ⟨p.p_vaddr + p.p_memsz, p, hp, rfl⟩
  exact ⟨low, high, minimal_iff_isLeast.mp hlow, maximal_iff_isGreatest.mp hhigh⟩

section range
variable {low high : ℕ}

theorem range_high (hf : Fits phdrs)
    (hh : IsGreatest {a | ∃ p ∈ loads phdrs, a = p.p_vaddr + p.p_memsz} high) :
    (vaddrRange phdrs).2 = high := by
  obtain ⟨-, -, hall, -, hhi⟩ := vaddrRange_bounds phdrs
  obtain ⟨p, hp, rfl⟩ := hh.1
  have hle := (hall p hp).2
  rw [hf.vaddrEnd_eq hp] at hle
  rcases hhi with h0 | ⟨q, hq, he⟩
  · omega
  · have hge := hh.2 ⟨q, hq, rfl⟩
    rw [hf.vaddrEnd_eq hq] at he
    omega

theorem range_low (hl : IsLeast {a | ∃ p ∈ loads phdrs, a = p.p_vaddr} low) :
    (vaddrRange phdrs).1 = min low 0xffffffff := by
  obtain ⟨hmax, -, hall, hlo, -⟩ := vaddrRange_bounds phdrs
  obtain ⟨p, hp, rfl⟩ := hl.1
  have hle := (hall p hp).1
  rcases hlo with h0 | ⟨q, hq, he⟩
  · omega
  · have hge := hl.2 ⟨q, hq, rfl⟩
    omega

theorem getLibExtents_eq (hf : Fits phdrs)
    (hl : IsLeast {a | ∃ p ∈ loads phdrs, a = p.p_vaddr} low)
    (hh : IsGreatest {a | ∃ p ∈ loads phdrs, a = p.p_vaddr + p.p_memsz} high) :
    getLibExtents phdrs = some (pageUp high - pageDown (min low 0xffffffff)) := by
  obtain ⟨p, hp, hpl⟩ := hl.1
  have hlh : low ≤ high := by
    have hge := hh.2 ⟨p, hp, rfl⟩
    omega
  have hend : pageUp high < 0x10000000000000000 := by
    obtain ⟨q, hq, rfl⟩ := hh.1
    exact hf q hq
  have hsum : high + 4095 < 0x10000000000000000 := by
    unfold pageUp pageDown at hend
    omega
  have hdown : pageDown (min low 0xffffffff) ≤ pageUp high :=
    (pageDown_le _).trans ((min_le_left _ _).trans (hlh.trans (le_pageUp high)))
  have hne : ¬ ((vaddrRange phdrs).1 = 0xffffffff ∧ (vaddrRange phdrs).2 = 0) := by
    rw [range_low hl, range_high hf hh]
    omega
  rw [getLibExtents]
  simp only [if_neg hne]
  rw [range_low hl, range_high hf hh, Nat.mod_eq_of_lt hsum]
  change some ((pageUp high + 0x10000000000000000 - _) % 0x10000000000000000) = _
  rw [Option.some.injEq]
  omega

end range

theorem getLibExtents_missing (h : loads phdrs = []) : getLibExtents phdrs = none := by
  obtain ⟨-, -, -, hlo, hhi⟩ := vaddrRange_bounds phdrs
  have h1 : (vaddrRange phdrs).1 = 0xffffffff := by simpa [h] using hlo
  have h2 : (vaddrRange phdrs).2 = 0 := by simpa [h] using hhi
  rw [getLibExtents]
  simp only [h1, h2, and_self, if_true]

/-- For every table whose addresses fit, the function does not fail for lack of segments, and
the size is right just when there is no segment or one that starts below 4 GiB. -/
theorem extents_right_iff (hf : Fits phdrs) :
    (loads phdrs ≠ [] → getLibExtents phdrs ≠ none) ∧
      (RightExtents phdrs ↔ loads phdrs = [] ∨ ∃ p ∈ loads phdrs, p.p_vaddr < 0x100000000) := by
  by_cases hnil : loads phdrs = []
  · refine ⟨fun h => absurd hnil h, iff_of_true ⟨getLibExtents_missing, ?_⟩ (Or.inl hnil)⟩
    rintro low high ⟨⟨p, hp, -⟩, -⟩ -
    rw [hnil] at hp
    cases hp
  obtain ⟨low, high, hl, hh⟩ := extremes hnil
  have heq := getLibExtents_eq hf hl hh
  refine ⟨fun _ => heq ▸ Option.some_ne_none _, ?_⟩
  rw [or_iff_right hnil]
  constructor
  · intro hr
    have hsame := heq.symm.trans (hr.total low high hl hh)
    obtain ⟨p, hp, rfl⟩ := hl.1
    refine ⟨p, hp, ?_⟩
    have hlh : p.p_vaddr ≤ high := by
      have hge := hh.2 ⟨p, hp, rfl⟩
      omega
    have hup := le_pageUp high
    by_contra hhigh
    rw [min_eq_right (by omega), Option.some.injEq] at hsame
    unfold pageDown at hsame
    omega
  · rintro ⟨p, hp, hlt⟩
    refine ⟨fun h => absurd h hnil, fun low' high' hl' hh' => ?_⟩
    have hle : low' ≤ 0xffffffff := by
      have hge := hl'.2 ⟨p, hp, rfl⟩
      omega
    rw [getLibExtents_eq hf hl' hh', min_eq_left hle]

/-- The data, its bss and the text, which begins below them. -/
theorem low_page_right : RightExtents [data, relro, text] :=
  (extents_right_iff (by decide)).2.mpr (Or.inr (by decide))

/-- A library at 4 GiB is given a page too many. -/
theorem high_page_wrong : getLibExtents [textAt 0x100000000 (by decide)] = some 0x2000 ∧
    ¬ RightExtents [textAt 0x100000000 (by decide)] := by
  refine ⟨by decide, fun h => ?_⟩
  have hs : getLibExtents [textAt 0x100000000 (by decide)] = some 0x1000 := by
    refine h.total 0x100000000 0x100001000 ⟨⟨_, List.mem_cons_self, rfl⟩, ?_⟩
      ⟨⟨_, List.mem_cons_self, rfl⟩, ?_⟩
    · rintro a ⟨p, hp, rfl⟩
      rw [List.mem_singleton.mp hp]
      exact le_rfl
    · rintro a ⟨p, hp, rfl⟩
      rw [List.mem_singleton.mp hp]
      exact le_rfl
  revert hs
  decide

end Bionic.Extents
