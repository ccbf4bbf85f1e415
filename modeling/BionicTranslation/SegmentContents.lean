import BionicTranslation.SegmentBounds
import BionicTranslation.Overwrite

/-!
# What a load leaves in memory

The memory calls of the loader act on bytes: a file mapping fills whole pages
from the file, an anonymous one fills whole pages with zero, and memset clears
a range. Segments with disjoint page ranges do not disturb each other, so each
one can be followed through its own calls.
-/

set_option autoImplicit false

namespace Bionic.SegmentContents
open Bionic.Paging Bionic.Segments Bionic.SegmentRuns Bionic.SegmentBounds Bionic.Overwrite

/-- The byte a call puts at `a`. Past the end of the file a mapping has zeros. -/
def stored (file : List UInt8) (a : ℕ) : MemCall → Option UInt8
  | .mmapFile addr len _ off =>
    if addr ≤ a ∧ a < pageUp (addr + len) then some (file.getD (off + (a - addr)) 0) else none
  | .mmapAnon addr len _ => if addr ≤ a ∧ a < pageUp (addr + len) then some 0 else none
  | .memset addr len => if addr ≤ a ∧ a < addr + len then some 0 else none
  | .mprotect .. => none

def byteAfter (file : List UInt8) (calls : List MemCall) (mem : ℕ → UInt8) (a : ℕ) : UInt8 :=
  settle (stored file a) calls (mem a)

def pageRange (p : Phdr) : ℕ × ℕ := (pageDown p.p_vaddr, pageUp (p.p_vaddr + p.p_memsz))

structure WellFormed (file : List UInt8) (phdrs : List Phdr) : Prop where
  filesz_le : ∀ p ∈ loads phdrs, p.p_filesz ≤ p.p_memsz
  memsz_pos : ∀ p ∈ loads phdrs, 0 < p.p_memsz
  congruent : ∀ p ∈ loads phdrs, p.p_offset % 4096 = p.p_vaddr % 4096
  in_file : ∀ p ∈ loads phdrs, p.p_offset + p.p_filesz ≤ file.length
  lowest : ∃ p ∈ loads phdrs, p.p_vaddr < 4096
  disjoint : (loads phdrs).Pairwise fun p q => Apart (pageRange p) (pageRange q)
  no_wrap : ∀ p ∈ loads phdrs, p.p_vaddr + p.p_memsz < 0x10000000000000000

structure Contents (base : ℕ) (file : List UInt8) (phdrs : List Phdr) (mem : ℕ → UInt8) :
    Prop where
  file_part : ∀ p ∈ loads phdrs, ∀ i < p.p_filesz,
    file[p.p_offset + i]? = some (mem (base + p.p_vaddr + i))
  zero_part : ∀ p ∈ loads phdrs, p.p_flags.w → ∀ i, p.p_filesz ≤ i → i < p.p_memsz →
    mem (base + p.p_vaddr + i) = 0

structure Sound (base : ℕ) (p : Phdr) : Prop where
  aligned : Aligned base
  filesz_le : p.p_filesz ≤ p.p_memsz
  no_wrap : base + p.p_vaddr + p.p_memsz + 4096 < 0x10000000000000000

theorem Sound.mapStart_eq {base : ℕ} {p : Phdr} (h : Sound base p) :
    mapStart base p = base + pageDown p.p_vaddr := by
  have := h.no_wrap
  have := pageDown_le p.p_vaddr
  exact Nat.mod_eq_of_lt (by omega)

theorem Sound.fileLen_eq {base : ℕ} {p : Phdr} (h : Sound base p) :
    fileLen p = p.p_filesz + p.p_vaddr % 4096 := by
  have h1 := h.no_wrap
  have h2 := h.filesz_le
  have h3 := Nat.mod_le p.p_vaddr 4096
  exact Nat.mod_eq_of_lt (by omega)

def fileEnd (base : ℕ) (p : Phdr) : ℕ := base + p.p_vaddr + p.p_filesz

theorem Sound.fileEnd_eq {base : ℕ} {p : Phdr} (h : Sound base p) :
    mapStart base p + fileLen p = fileEnd base p := by
  rw [h.mapStart_eq, h.fileLen_eq, fileEnd]
  have := pageDown_add_offset p.p_vaddr
  omega

theorem Sound.bssStart_eq {base : ℕ} {p : Phdr} (h : Sound base p) :
    bssStart base p = pageUp (fileEnd base p) := by
  have h1 := h.no_wrap
  have h2 := h.filesz_le
  rw [bssStart, h.fileEnd_eq, Nat.mod_eq_of_lt (by unfold fileEnd; omega), pageUp]

theorem Sound.memEnd_eq {base : ℕ} {p : Phdr} (h : Sound base p) :
    memEnd base p = base + p.p_vaddr + p.p_memsz := by
  have := h.no_wrap
  exact Nat.mod_eq_of_lt (by omega)

theorem Sound.fullLen_eq {base : ℕ} {p : Phdr} (h : Sound base p) :
    fullLen base p = (pageRange p).2 - (pageRange p).1 := by
  have h1 := h.no_wrap
  have h2 := pageUp_gap (p.p_vaddr + p.p_memsz)
  have h3 := le_pageUp (p.p_vaddr + p.p_memsz)
  have h4 := pageDown_le p.p_vaddr
  have hw : pageDown ((base + p.p_vaddr + p.p_memsz + 4095) % 0x10000000000000000) =
      base + pageUp (p.p_vaddr + p.p_memsz) := by
    rw [Nat.mod_eq_of_lt (by omega), ← pageUp_add h.aligned, pageUp, Nat.add_assoc base]
  rw [fullLen, hw, h.mapStart_eq, pageRange]
  omega

theorem Sound.segmentCalls_eq {base : ℕ} {p : Phdr} (h : Sound base p) :
    segmentCalls base p =
      [MemCall.mmapFile (mapStart base p) (fileLen p) (pflagsToProt p.p_flags)
        (pageDown p.p_offset)] ++
      (if fileLen p % 4096 ≠ 0 ∧ p.p_flags.w then
        [MemCall.memset (fileEnd base p) (pageUp (fileEnd base p) - fileEnd base p)] else []) ++
      (if pageUp (fileEnd base p) < base + p.p_vaddr + p.p_memsz then
        [MemCall.mmapAnon (pageUp (fileEnd base p))
          (base + p.p_vaddr + p.p_memsz - pageUp (fileEnd base p)) (pflagsToProt p.p_flags)]
        else []) ++
      (if p.p_flags.w then [] else [MemCall.mprotect (mapStart base p) (fullLen base p)
        { pflagsToProt p.p_flags with write := true }]) := by
  have h1 := h.no_wrap
  have h2 := h.filesz_le
  have hpad : fileLen p % 4096 ≠ 0 →
      4096 - fileLen p % 4096 = pageUp (fileEnd base p) - fileEnd base p := by
    have ha := h.aligned
    rw [h.fileLen_eq]
    unfold Aligned at ha
    unfold pageUp pageDown fileEnd
    omega
  have hend : (mapStart base p + fileLen p) % 0x10000000000000000 = fileEnd base p := by
    rw [h.fileEnd_eq, Nat.mod_eq_of_lt (by unfold fileEnd; omega)]
  by_cases hz : fileLen p % 4096 = 0
  · simp only [segmentCalls, h.bssStart_eq, h.memEnd_eq, hz, ne_eq, not_true_eq_false,
      false_and, if_false]
  · simp only [segmentCalls, h.bssStart_eq, h.memEnd_eq, hend, hpad hz]

theorem stored_mmapFile (file : List UInt8) (a addr len off : ℕ) (prot : Prot) :
    stored file a (.mmapFile addr len prot off) =
      if addr ≤ a ∧ a < pageUp (addr + len) then some (file.getD (off + (a - addr)) 0)
      else none := rfl

theorem stored_mmapAnon (file : List UInt8) (a addr len : ℕ) (prot : Prot) :
    stored file a (.mmapAnon addr len prot) =
      if addr ≤ a ∧ a < pageUp (addr + len) then some 0 else none := rfl

theorem stored_memset (file : List UInt8) (a addr len : ℕ) :
    stored file a (.memset addr len) = if addr ≤ a ∧ a < addr + len then some 0 else none := rfl

theorem Sound.later_untouched {file : List UInt8} {base a : ℕ} {p : Phdr} (h : Sound base p)
    (ha : a < fileEnd base p ∨ pageUp (base + p.p_vaddr + p.p_memsz) ≤ a) :
    ∀ c ∈ (segmentCalls base p).tail, stored file a c = none := by
  have h2 := h.filesz_le
  have hl := le_pageUp (fileEnd base p)
  have hm : pageUp (fileEnd base p) ≤ pageUp (base + p.p_vaddr + p.p_memsz) :=
    pageDown_mono (by unfold fileEnd; omega)
  rw [h.segmentCalls_eq]
  intro c hc
  simp only [List.cons_append, List.nil_append, List.tail_cons, List.mem_append] at hc
  rcases hc with (hc | hc) | hc
  · split_ifs at hc
    · obtain rfl := List.mem_singleton.mp hc
      rw [stored_memset, if_neg (by omega)]
    · cases hc
  · split_ifs at hc with hb
    · obtain rfl := List.mem_singleton.mp hc
      rw [stored_mmapAnon, Nat.add_sub_cancel' hb.le, if_neg (by omega)]
    · cases hc
  · split_ifs at hc
    · cases hc
    · obtain rfl := List.mem_singleton.mp hc
      rfl

/-- A segment writes only inside its own page range. -/
theorem segment_frame {file : List UInt8} {base a : ℕ} {p : Phdr} (h : Sound base p)
    (ha : a < base + (pageRange p).1 ∨ base + (pageRange p).2 ≤ a) :
    ∀ c ∈ segmentCalls base p, stored file a c = none := by
  have h2 := h.filesz_le
  have hd := pageDown_le p.p_vaddr
  have ho := pageDown_add_offset p.p_vaddr
  have hme : base + pageUp (p.p_vaddr + p.p_memsz) = pageUp (base + p.p_vaddr + p.p_memsz) := by
    rw [Nat.add_assoc, pageUp_add h.aligned]
  have hst := h.mapStart_eq
  have he := h.fileEnd_eq
  have hm : pageUp (fileEnd base p) ≤ pageUp (base + p.p_vaddr + p.p_memsz) :=
    pageDown_mono (by unfold fileEnd; omega)
  simp only [pageRange, hme] at ha
  have hlater : ∀ c ∈ (segmentCalls base p).tail, stored file a c = none :=
    h.later_untouched (by unfold fileEnd; omega)
  intro c hc
  rw [h.segmentCalls_eq] at hc hlater
  simp only [List.cons_append, List.tail_cons, List.mem_cons] at hc hlater
  rcases hc with rfl | hc
  · rw [stored_mmapFile, he, if_neg (by omega)]
  · exact hlater c hc

theorem segment_file_part {file : List UInt8} {base i : ℕ} {p : Phdr} (h : Sound base p)
    (hcong : p.p_offset % 4096 = p.p_vaddr % 4096) (hi : i < p.p_filesz) (v : UInt8) :
    settle (stored file (base + p.p_vaddr + i)) (segmentCalls base p) v =
      file.getD (p.p_offset + i) 0 := by
  have hlater : ∀ c ∈ (segmentCalls base p).tail,
      stored file (base + p.p_vaddr + i) c = none :=
    h.later_untouched (Or.inl (by unfold fileEnd; omega))
  have hv := pageDown_add_offset p.p_vaddr
  have ho := pageDown_add_offset p.p_offset
  have hst := h.mapStart_eq
  have hu := le_pageUp (fileEnd base p)
  rw [h.segmentCalls_eq] at hlater ⊢
  simp only [List.cons_append, List.tail_cons] at hlater ⊢
  rw [← List.nil_append (_ :: _)]
  refine settle_last [] v ?_ hlater
  have hin : mapStart base p ≤ base + p.p_vaddr + i ∧
      base + p.p_vaddr + i < pageUp (fileEnd base p) := by
    unfold fileEnd at *
    omega
  have hoff : pageDown p.p_offset + (base + p.p_vaddr + i - mapStart base p) =
      p.p_offset + i := by omega
  rw [stored_mmapFile, h.fileEnd_eq, if_pos hin, hoff]

theorem segment_zero_part {file : List UInt8} {base i : ℕ} {p : Phdr} (h : Sound base p)
    (hw : p.p_flags.w = true) (hf : p.p_filesz ≤ i) (hm : i < p.p_memsz) (v : UInt8) :
    settle (stored file (base + p.p_vaddr + i)) (segmentCalls base p) v = 0 := by
  have hl := le_pageUp (fileEnd base p)
  have hu := le_pageUp (base + p.p_vaddr + p.p_memsz)
  have he : fileEnd base p ≤ base + p.p_vaddr + i := by
    unfold fileEnd
    omega
  rw [h.segmentCalls_eq, if_pos hw, List.append_nil, settle_append]
  rcases Nat.lt_or_ge (base + p.p_vaddr + i) (pageUp (fileEnd base p)) with hin | hout
  · -- the rest of the last file page, cleared by memset
    have hz : fileLen p % 4096 ≠ 0 ∧ p.p_flags.w = true := by
      refine ⟨?_, hw⟩
      have ha := h.aligned
      rw [h.fileLen_eq]
      unfold Aligned at ha
      unfold pageUp pageDown fileEnd at hin
      omega
    rw [if_pos hz, settle_append, settle_untouched]
    · rw [settle_cons, stored_memset, if_pos (by omega)]
      rfl
    · intro c hc
      split_ifs at hc
      · obtain rfl := List.mem_singleton.mp hc
        rw [stored_mmapAnon, if_neg (by omega)]
      · cases hc
  · -- the pages of the anonymous mapping
    have hb : pageUp (fileEnd base p) < base + p.p_vaddr + p.p_memsz := by omega
    rw [if_pos hb, settle_cons, stored_mmapAnon, Nat.add_sub_cancel' hb.le, if_pos (by omega)]
    rfl

theorem WellFormed.sound {file : List UInt8} {phdrs : List Phdr} {base size : ℕ}
    (hwf : WellFormed file phdrs) (hx : getLibExtents phdrs = some size)
    (hr : Reserved base size) {p : Phdr} (hp : p ∈ loads phdrs) : Sound base p := by
  have h := vaddrEnd_no_wrap hx hr hp
  rw [vaddrEnd, Nat.mod_eq_of_lt (hwf.no_wrap p hp)] at h
  exact ⟨hr.aligned, hwf.filesz_le p hp, by omega⟩

theorem total_fits {file : List UInt8} {phdrs : List Phdr} {base size : ℕ}
    (hwf : WellFormed file phdrs) (hx : getLibExtents phdrs = some size)
    (hr : Reserved base size) :
    (phdrs.foldl (advance base) loadStart).total_sz ≤ size := by
  have hlen : (loads phdrs).map (fullLen base) =
      ((loads phdrs).map pageRange).map fun r => r.2 - r.1 := by
    rw [List.map_map]
    exact List.map_congr_left fun p hp => (hwf.sound hx hr hp).fullLen_eq
  have hsum : ((loads phdrs).map (fullLen base)).sum ≤ size := by
    rw [hlen]
    refine packing _ size (List.pairwise_map.mpr hwf.disjoint) fun r hrange => ?_
    obtain ⟨p, hp, rfl⟩ := List.mem_map.mp hrange
    have he := (lowest_in_page_zero hx hr).mpr hwf.lowest p hp
    rw [vaddrEnd, Nat.mod_eq_of_lt (hwf.no_wrap p hp)] at he
    exact (pageUp_le_iff (size_aligned hx)).mpr he
  have hlow := hr.low
  have ht := foldl_total base phdrs loadStart
  rw [Nat.mod_eq_of_lt (foldl_total_lt base phdrs loadStart (by decide))] at ht
  have hz : loadStart.total_sz = 0 := rfl
  rw [ht, hz, Nat.zero_add]
  exact le_trans (Nat.mod_le _ _) hsum

/-- Whatever was in memory before, each segment's bytes are what its own calls
leave there: the segments after it stay in their own pages. -/
theorem contents_right {file : List UInt8} {phdrs : List Phdr} {base size : ℕ}
    (hwf : WellFormed file phdrs) (hx : getLibExtents phdrs = some size)
    (hr : Reserved base size) (mem : ℕ → UInt8) :
    Contents base file phdrs (byteAfter file ((loads phdrs).flatMap (segmentCalls base)) mem) := by
  have hlocal : ∀ p ∈ loads phdrs, ∀ i < p.p_memsz, ∃ v,
      byteAfter file ((loads phdrs).flatMap (segmentCalls base)) mem (base + p.p_vaddr + i) =
        settle (stored file (base + p.p_vaddr + i)) (segmentCalls base p) v := by
    intro p hp i hi
    obtain ⟨l, r, hsplit⟩ := List.append_of_mem hp
    have hpair := hwf.disjoint
    rw [hsplit] at hpair
    have hafter := (List.pairwise_cons.mp (List.pairwise_append.mp hpair).2.1).1
    unfold byteAfter
    rw [hsplit]
    refine ⟨_, settle_flatMap l _ fun q hq => ?_⟩
    have hq' : q ∈ loads phdrs := by simp [hsplit, hq]
    refine segment_frame (hwf.sound hx hr hq') ?_
    have h1 := pageDown_le p.p_vaddr
    have h2 := le_pageUp (p.p_vaddr + p.p_memsz)
    rcases hafter q hq with h | h <;> simp only [pageRange] at h ⊢ <;> omega
  constructor
  · intro p hp i hi
    have hs := hwf.sound hx hr hp
    have hin := hwf.in_file p hp
    obtain ⟨v, hv⟩ := hlocal p hp i (by have := hs.filesz_le; omega)
    rw [hv, segment_file_part hs (hwf.congruent p hp) hi, List.getD_eq_getElem?_getD,
      List.getElem?_eq_getElem (by omega)]
    rfl
  · intro p hp hw i hf hi
    obtain ⟨v, hv⟩ := hlocal p hp i hi
    rw [hv, segment_zero_part (hwf.sound hx hr hp) hw hf hi]

/-- A well-formed file is loaded, with its bytes and its zeros in place, exactly
when no segment has an empty file part on a page boundary, whose mapping of
length 0 is refused, and the check of every PT_GNU_RELRO entry is passed. -/
theorem loaded_iff {mmap : MemCall → Bool} {file : List UInt8} {phdrs : List Phdr}
    {base size : ℕ} (hwf : WellFormed file phdrs) (hx : getLibExtents phdrs = some size)
    (hr : Reserved base size) (hm : ∀ c, c.isMmap → (mmap c ↔ 0 < c.len)) (mem : ℕ → UInt8) :
    (∃ st, loadSegments mmap base size phdrs = .ok st ∧
      Contents base file phdrs (byteAfter file st.calls mem)) ↔
    (∀ p ∈ loads phdrs, ¬ (p.p_filesz = 0 ∧ Aligned p.p_vaddr)) ∧
      ∀ p ∈ relros phdrs, relroOk base size p := by
  have hlen : ∀ p ∈ loads phdrs, 0 < fileLen p ↔ ¬ (p.p_filesz = 0 ∧ Aligned p.p_vaddr) := by
    intro p hp
    rw [(hwf.sound hx hr hp).fileLen_eq]
    unfold Aligned
    omega
  constructor
  · rintro ⟨st, h, -⟩
    refine ⟨fun p hp => (hlen p hp).mp ?_, fun p hp => ?_⟩
    · exact (hm _ rfl).mp (load_mmaps h hp (mem_segmentCalls.mpr (Or.inl rfl)) rfl)
    · obtain ⟨hall, -, -⟩ := (loadSegments_ok_iff _ _ _ _ _).mp h
      obtain ⟨hmem, ht⟩ := mem_relros.mp hp
      simpa only [Passes, ht] using hall p hmem
  · rintro ⟨hfile, hrelro⟩
    have hpass : ∀ p ∈ phdrs, Passes mmap base size p := by
      intro p hp
      cases ht : p.p_type with
      | load =>
        have hpl := mem_loads.mpr ⟨hp, ht⟩
        simp only [Passes, ht]
        intro c hc hcm
        rw [hm c hcm]
        rcases mem_segmentCalls.mp hc with rfl | ⟨-, -, rfl⟩ | ⟨hb, rfl⟩ | ⟨-, rfl⟩
        · exact (hlen p hpl).mpr (hfile p hpl)
        · cases hcm
        · exact Nat.sub_pos_of_lt hb
        · cases hcm
      | gnuRelro => simpa only [Passes, ht] using hrelro p (mem_relros.mpr ⟨hp, ht⟩)
      | dynamic => simp only [Passes, ht]
      | other n => simp only [Passes, ht]
    have hload := (loadSegments_ok_iff mmap base size phdrs _).mpr
      ⟨hpass, rfl, total_fits hwf hx hr⟩
    refine ⟨_, hload, ?_⟩
    rw [load_calls hload]
    exact contents_right hwf hx hr mem

theorem textData_wellFormed : WellFormed (List.replicate 0x800 7) textData where
  filesz_le := by decide
  memsz_pos := by decide
  congruent := by decide
  in_file := by decide +kernel
  lowest := by decide
  disjoint := by
    have hl : loads textData = [text, data] := rfl
    rw [hl, List.pairwise_pair]
    exact Or.inl (by decide)
  no_wrap := by decide

theorem text_loaded : (∃ st, loadSegments plainMmap 0x70000000 0x4000 textData = .ok st ∧
      Contents 0x70000000 (List.replicate 0x800 7) textData
        (byteAfter (List.replicate 0x800 7) st.calls fun _ => 1)) ↔
    (∀ p ∈ loads textData, ¬ (p.p_filesz = 0 ∧ Aligned p.p_vaddr)) ∧
      ∀ p ∈ relros textData, relroOk 0x70000000 0x4000 p :=
  loaded_iff textData_wellFormed (by decide +kernel) ⟨by decide +kernel, by decide, by decide⟩
    (fun c _ => by simp [plainMmap]) _

/-- Text in page 0 and a bss of its own in page 1: mapping its empty file part
fails and with it the load. -/
theorem bss_segment_refused :
    WellFormed (List.replicate 0x800 7) [text, bss] ∧
    getLibExtents [text, bss] = some 0x2000 ∧ Reserved 0x70000000 0x2000 ∧
    (∀ c, c.isMmap → (plainMmap c ↔ 0 < c.len)) ∧
    ¬ ∃ st, loadSegments plainMmap 0x70000000 0x2000 [text, bss] = .ok st := by
  refine ⟨⟨by decide, by decide, by decide, by decide +kernel, by decide, ?_, by decide⟩,
    by decide +kernel, ⟨by decide +kernel, by decide, by decide⟩,
    fun c _ => by simp [plainMmap], ?_⟩
  · have hl : loads [text, bss] = [text, bss] := rfl
    rw [hl, List.pairwise_pair]
    exact Or.inl (by decide)
  · rintro ⟨st, h⟩
    have := load_mmaps (p := bss) h (by simp [loads, bss]) (mem_segmentCalls.mpr (Or.inl rfl)) rfl
    revert this
    decide +kernel

end Bionic.SegmentContents
