import BionicTranslation.SegmentRuns

/-!
# Which pages the loader touches

The reservation is as long as the span of the segments, while each segment is
placed at its own address above the start of the reservation. The two agree
only when the lowest segment starts in page 0. File and memory sizes are
independent inputs, so the file part needs a bound of its own.
-/

set_option autoImplicit false

namespace Bionic.SegmentBounds
open Bionic.Paging Bionic.Segments Bionic.SegmentRuns

def Touches (c : MemCall) (a : ℕ) : Prop := c.addr ≤ a ∧ a < c.addr + c.len

/-- Every page passed to a memory call lies inside the reservation. -/
def Confined (base size : ℕ) (calls : List MemCall) : Prop :=
  ∀ c ∈ calls, ∀ a, Touches c a → base ≤ pageDown a ∧ pageDown a + 4096 ≤ base + size

def Inside (base size : ℕ) (c : MemCall) : Prop :=
  c.len = 0 ∨ base ≤ c.addr ∧ c.addr + c.len ≤ base + size

theorem inside_mmapAnon {base size a n : ℕ} {prot : Prot} :
    Inside base size (.mmapAnon a n prot) ↔ n = 0 ∨ base ≤ a ∧ a + n ≤ base + size := Iff.rfl

theorem inside_mprotect {base size a n : ℕ} {prot : Prot} :
    Inside base size (.mprotect a n prot) ↔ n = 0 ∨ base ≤ a ∧ a + n ≤ base + size := Iff.rfl

theorem inside_memset {base size a n : ℕ} :
    Inside base size (.memset a n) ↔ n = 0 ∨ base ≤ a ∧ a + n ≤ base + size := Iff.rfl

theorem inside_mmapFile {base size a n off : ℕ} {prot : Prot} :
    Inside base size (.mmapFile a n prot off) ↔ n = 0 ∨ base ≤ a ∧ a + n ≤ base + size := Iff.rfl

theorem inside_iff {base size : ℕ} (hb : Aligned base) (hs : Aligned size) (c : MemCall) :
    (∀ a, Touches c a → base ≤ pageDown a ∧ pageDown a + 4096 ≤ base + size) ↔
      Inside base size c := by
  unfold Touches Inside
  constructor
  · intro h
    rcases Nat.eq_zero_or_pos c.len with hz | hz
    · exact Or.inl hz
    · have h1 := (h c.addr ⟨le_refl _, by omega⟩).1
      have h2 := (h (c.addr + c.len - 1) ⟨by omega, by omega⟩).2
      have h3 := pageDown_le c.addr
      have h4 := pageDown_gap (c.addr + c.len - 1)
      exact Or.inr ⟨by omega, by omega⟩
  · rintro h a ⟨ha, hl⟩
    have hin : base ≤ c.addr ∧ c.addr + c.len ≤ base + size := by
      rcases h with h | h
      · omega
      · exact h
    refine ⟨(le_pageDown_iff hb).mpr (by omega), ?_⟩
    unfold Aligned at hb hs
    unfold pageDown
    omega

theorem size_aligned {phdrs : List Phdr} {size : ℕ} (h : getLibExtents phdrs = some size) :
    Aligned size := by
  unfold getLibExtents at h
  simp only at h
  split_ifs at h
  cases h
  unfold Aligned pageDown
  omega

theorem extents_span {phdrs : List Phdr} {base size : ℕ} (h : getLibExtents phdrs = some size)
    (hr : Reserved base size) :
    pageUp (vaddrRange phdrs).2 = size + pageDown (vaddrRange phdrs).1 ∧
      base + (vaddrRange phdrs).2 + 4096 < 0x10000000000000000 := by
  obtain ⟨hmin, hmax, -, -, -⟩ := vaddrRange_bounds phdrs
  obtain ⟨-, hpos, hlow⟩ := hr
  unfold getLibExtents at h
  simp only at h
  split_ifs at h
  cases h
  generalize (vaddrRange phdrs).1 = lo at *
  generalize (vaddrRange phdrs).2 = hi at *
  unfold pageUp pageDown at *
  omega

theorem vaddrEnd_no_wrap {phdrs : List Phdr} {base size : ℕ}
    (h : getLibExtents phdrs = some size) (hr : Reserved base size) {p : Phdr}
    (hp : p ∈ loads phdrs) : base + vaddrEnd p + 4096 < 0x10000000000000000 := by
  have := (extents_span h hr).2
  have := ((vaddrRange_bounds phdrs).2.2.1 p hp).2
  omega

theorem memEnd_eq {base : ℕ} {p : Phdr} (h : base + vaddrEnd p + 4096 < 0x10000000000000000) :
    memEnd base p = base + vaddrEnd p := by
  unfold memEnd
  unfold vaddrEnd at *
  omega

theorem fullLen_eq {base : ℕ} {p : Phdr} (h : base + vaddrEnd p + 4096 < 0x10000000000000000) :
    fullLen base p = (pageUp (base + vaddrEnd p) + 0x10000000000000000 - mapStart base p) %
      0x10000000000000000 := by
  have hw : (base + p.p_vaddr + p.p_memsz + 4095) % 0x10000000000000000 =
      base + vaddrEnd p + 4095 := by
    unfold vaddrEnd at *
    omega
  rw [fullLen, hw, pageUp]

theorem mem_segmentCalls {base : ℕ} {p : Phdr} {c : MemCall} :
    c ∈ segmentCalls base p ↔
      c = .mmapFile (mapStart base p) (fileLen p) (pflagsToProt p.p_flags)
          (pageDown p.p_offset) ∨
      (fileLen p % 4096 ≠ 0 ∧ p.p_flags.w = true ∧
        c = .memset ((mapStart base p + fileLen p) % 0x10000000000000000)
          (4096 - fileLen p % 4096)) ∨
      (bssStart base p < memEnd base p ∧
        c = .mmapAnon (bssStart base p) (memEnd base p - bssStart base p)
          (pflagsToProt p.p_flags)) ∨
      (p.p_flags.w = false ∧
        c = .mprotect (mapStart base p) (fullLen base p)
          { pflagsToProt p.p_flags with write := true }) := by
  cases hw : p.p_flags.w <;> by_cases hz : fileLen p % 4096 = 0 <;>
    by_cases hb : bssStart base p < memEnd base p <;>
    simp [segmentCalls, hw, hz, hb]

theorem mapStart_fits {base size : ℕ} {p : Phdr} (hr : Reserved base size)
    (hf : pageDown p.p_vaddr + fileLen p ≤ size) :
    mapStart base p = base + pageDown p.p_vaddr := by
  have := hr.low
  unfold mapStart
  omega

theorem fileMap_inside {base size : ℕ} {p : Phdr} (hr : Reserved base size)
    (hl : 0 < fileLen p) :
    Inside base size (.mmapFile (mapStart base p) (fileLen p) (pflagsToProt p.p_flags)
      (pageDown p.p_offset)) ↔ pageDown p.p_vaddr + fileLen p ≤ size := by
  have hv := p.vaddr_lt
  have hd := pageDown_le p.p_vaddr
  have := hr.low
  rw [inside_mmapFile]
  constructor
  · rintro (h | ⟨h1, h2⟩)
    · exact absurd h (Nat.ne_of_gt hl)
    · unfold mapStart at h1 h2
      omega
  · intro hf
    rw [mapStart_fits hr hf]
    omega

theorem bssStart_fits {base size : ℕ} {p : Phdr} (hr : Reserved base size)
    (hf : pageDown p.p_vaddr + fileLen p ≤ size) :
    bssStart base p = base + pageDown p.p_vaddr + pageUp (fileLen p) := by
  have hlow := hr.low
  have ha := aligned_add hr.aligned (pageDown_aligned p.p_vaddr)
  have hw : (base + pageDown p.p_vaddr + fileLen p + 4095) % 0x10000000000000000 =
      base + pageDown p.p_vaddr + (fileLen p + 4095) := by omega
  rw [bssStart, mapStart_fits hr hf, hw, pageDown_add ha, pageUp]

/-- What one PT_LOAD entry needs to stay in the reservation: its file part and
its memory part end there, and a segment that is not writable does not end
below its own first page, which only a wrapped `p_memsz` can bring about. -/
structure Fits (size : ℕ) (p : Phdr) : Prop where
  file : pageDown p.p_vaddr + fileLen p ≤ size
  memory : vaddrEnd p ≤ size
  forward : p.p_flags.w = false → pageDown p.p_vaddr ≤ pageUp (vaddrEnd p)

theorem fullLen_forward {base size : ℕ} {p : Phdr} (hr : Reserved base size)
    (hw : base + vaddrEnd p + 4096 < 0x10000000000000000)
    (hf : pageDown p.p_vaddr + fileLen p ≤ size)
    (hd : pageDown p.p_vaddr ≤ pageUp (vaddrEnd p)) :
    fullLen base p = pageUp (vaddrEnd p) - pageDown p.p_vaddr := by
  have hgap := pageUp_gap (vaddrEnd p)
  rw [fullLen_eq hw, mapStart_fits hr hf, pageUp_add hr.aligned]
  omega

theorem anonMap_inside {base size : ℕ} {p : Phdr} (hr : Reserved base size)
    (hw : base + vaddrEnd p + 4096 < 0x10000000000000000)
    (hf : pageDown p.p_vaddr + fileLen p ≤ size) (hb : bssStart base p < memEnd base p) :
    Inside base size (.mmapAnon (bssStart base p) (memEnd base p - bssStart base p)
      (pflagsToProt p.p_flags)) ↔ vaddrEnd p ≤ size := by
  have hm := memEnd_eq hw
  have hs := bssStart_fits hr hf
  rw [inside_mmapAnon]
  clear hw hf
  omega

theorem small_memory {base size : ℕ} {p : Phdr} (hr : Reserved base size)
    (hs : Aligned size) (hw : base + vaddrEnd p + 4096 < 0x10000000000000000)
    (hf : pageDown p.p_vaddr + fileLen p ≤ size) (hb : ¬ bssStart base p < memEnd base p) :
    vaddrEnd p ≤ size := by
  have hup : pageDown p.p_vaddr + pageUp (fileLen p) ≤ size := by
    rw [← pageUp_add (pageDown_aligned _)]
    exact (pageUp_le_iff hs).mpr hf
  rw [memEnd_eq hw, bssStart_fits hr hf] at hb
  clear hw
  omega

theorem zeroFill_inside {base size : ℕ} {p : Phdr} (hr : Reserved base size)
    (hs : Aligned size) (hf : pageDown p.p_vaddr + fileLen p ≤ size)
    (hz : fileLen p % 4096 ≠ 0) :
    Inside base size (.memset ((mapStart base p + fileLen p) % 0x10000000000000000)
      (4096 - fileLen p % 4096)) := by
  have hlow := hr.low
  have hup : pageDown p.p_vaddr + pageUp (fileLen p) ≤ size := by
    rw [← pageUp_add (pageDown_aligned _)]
    exact (pageUp_le_iff hs).mpr hf
  have hpad : fileLen p + (4096 - fileLen p % 4096) = pageUp (fileLen p) := by
    unfold pageUp pageDown
    omega
  have hw : (base + pageDown p.p_vaddr + fileLen p) % 0x10000000000000000 =
      base + pageDown p.p_vaddr + fileLen p := Nat.mod_eq_of_lt (by omega)
  rw [inside_memset, mapStart_fits hr hf, hw]
  omega

theorem fullLen_backward {base size : ℕ} {p : Phdr} (hr : Reserved base size)
    (hw : base + vaddrEnd p + 4096 < 0x10000000000000000)
    (hf : pageDown p.p_vaddr + fileLen p ≤ size) (hl : 0 < fileLen p)
    (hd : pageUp (vaddrEnd p) < pageDown p.p_vaddr) : size < fullLen base p := by
  have hlow := hr.low
  rw [fullLen_eq hw, mapStart_fits hr hf, pageUp_add hr.aligned]
  clear hw
  omega

theorem protect_inside {base size : ℕ} {p : Phdr} (hr : Reserved base size)
    (hs : Aligned size) (hw : base + vaddrEnd p + 4096 < 0x10000000000000000)
    (hf : pageDown p.p_vaddr + fileLen p ≤ size) (hl : 0 < fileLen p)
    (he : vaddrEnd p ≤ size) : Inside base size (.mprotect (mapStart base p) (fullLen base p)
      { pflagsToProt p.p_flags with write := true }) ↔
      pageDown p.p_vaddr ≤ pageUp (vaddrEnd p) := by
  have hup := (pageUp_le_iff hs).mpr he
  have hn : fullLen base p = pageUp (vaddrEnd p) - pageDown p.p_vaddr ∧
      pageDown p.p_vaddr ≤ pageUp (vaddrEnd p) ∨
      size < fullLen base p ∧ pageUp (vaddrEnd p) < pageDown p.p_vaddr := by
    rcases Nat.lt_or_ge (pageUp (vaddrEnd p)) (pageDown p.p_vaddr) with hd | hd
    · exact Or.inr ⟨fullLen_backward hr hw hf hl hd, hd⟩
    · exact Or.inl ⟨fullLen_forward hr hw hf hd, hd⟩
  rw [inside_mprotect, mapStart_fits hr hf]
  generalize fullLen base p = n at *
  clear hw
  omega

theorem segment_inside {base size : ℕ} {p : Phdr} (hr : Reserved base size)
    (hs : Aligned size) (hw : base + vaddrEnd p + 4096 < 0x10000000000000000)
    (hl : 0 < fileLen p) :
    (∀ c ∈ segmentCalls base p, Inside base size c) ↔ Fits size p := by
  constructor
  · intro h
    have hf := (fileMap_inside hr hl).mp (h _ (mem_segmentCalls.mpr (Or.inl rfl)))
    have he : vaddrEnd p ≤ size := by
      by_cases hb : bssStart base p < memEnd base p
      · exact (anonMap_inside hr hw hf hb).mp
          (h _ (mem_segmentCalls.mpr (Or.inr (Or.inr (Or.inl ⟨hb, rfl⟩)))))
      · exact small_memory hr hs hw hf hb
    exact ⟨hf, he, fun hwr => (protect_inside hr hs hw hf hl he).mp
      (h _ (mem_segmentCalls.mpr (Or.inr (Or.inr (Or.inr ⟨hwr, rfl⟩)))))⟩
  · rintro ⟨hf, he, hd⟩ c hc
    rcases mem_segmentCalls.mp hc with rfl | ⟨hz, -, rfl⟩ | ⟨hb, rfl⟩ | ⟨hwr, rfl⟩
    · exact (fileMap_inside hr hl).mpr hf
    · exact zeroFill_inside hr hs hf hz
    · exact (anonMap_inside hr hw hf hb).mpr he
    · exact (protect_inside hr hs hw hf hl he).mpr (hd hwr)

/-- The memory parts end inside the reservation exactly when the lowest
segment starts in page 0. -/
theorem lowest_in_page_zero {phdrs : List Phdr} {base size : ℕ}
    (h : getLibExtents phdrs = some size) (hr : Reserved base size) :
    (∀ p ∈ loads phdrs, vaddrEnd p ≤ size) ↔ ∃ p ∈ loads phdrs, p.p_vaddr < 4096 := by
  have hspan := (extents_span h hr).1
  have hpos := hr.pos
  obtain ⟨-, -, hall, hlo, hhi⟩ := vaddrRange_bounds phdrs
  constructor
  · intro he
    have hle : (vaddrRange phdrs).2 ≤ size := by
      rcases hhi with h0 | ⟨p, hp, e⟩
      · omega
      · exact e ▸ he p hp
    have hup := (pageUp_le_iff (size_aligned h)).mpr hle
    have hzero : pageDown (vaddrRange phdrs).1 = 0 := by omega
    unfold pageDown at hzero
    rcases hlo with h1 | ⟨p, hp, e⟩
    · omega
    · exact ⟨p, hp, by omega⟩
  · rintro ⟨q, hq, hq0⟩ p hp
    have h1 := (hall q hq).1
    have h2 := (hall p hp).2
    have h3 := le_pageUp (vaddrRange phdrs).2
    have hzero : pageDown (vaddrRange phdrs).1 = 0 := by
      unfold pageDown
      omega
    omega

/-- For a file the extents accept and a load that returns 0, no page outside the
reservation is mapped over, re-protected or cleared exactly when the lowest
segment starts in page 0, every file part ends inside, and no segment without
PF_W has a memory size that wraps it below its own first page. -/
theorem confined_iff {mmap : MemCall → Bool} {phdrs : List Phdr} {base size : ℕ} {st : Loading}
    (hx : getLibExtents phdrs = some size) (hr : Reserved base size)
    (hk : ∀ c, mmap c → 0 < c.len) (h : loadSegments mmap base size phdrs = .ok st) :
    Confined base size st.calls ↔ (∃ p ∈ loads phdrs, p.p_vaddr < 4096) ∧
      ∀ p ∈ loads phdrs, pageDown p.p_vaddr + fileLen p ≤ size ∧
        (p.p_flags.w = false → pageDown p.p_vaddr ≤ pageUp (vaddrEnd p)) := by
  have hs := size_aligned hx
  have hlen : ∀ p ∈ loads phdrs, 0 < fileLen p := fun p hp =>
    hk _ (load_mmaps h hp (mem_segmentCalls.mpr (Or.inl rfl)) rfl)
  have hseg : Confined base size st.calls ↔ ∀ p ∈ loads phdrs, Fits size p := by
    rw [load_calls h]
    unfold Confined
    simp only [List.mem_flatMap, inside_iff hr.aligned hs]
    constructor
    · intro hc p hp
      exact (segment_inside hr hs (vaddrEnd_no_wrap hx hr hp) (hlen p hp)).mp
        fun c hcp => hc c ⟨p, hp, hcp⟩
    · rintro hf c ⟨p, hp, hcp⟩
      exact (segment_inside hr hs (vaddrEnd_no_wrap hx hr hp) (hlen p hp)).mpr (hf p hp) c hcp
  rw [hseg, ← lowest_in_page_zero hx hr]
  constructor
  · intro hf
    exact ⟨fun p hp => (hf p hp).memory, fun p hp => ⟨(hf p hp).file, (hf p hp).forward⟩⟩
  · rintro ⟨hm, hf⟩ p hp
    exact ⟨(hf p hp).1, hm p hp, (hf p hp).2⟩

def plainMmap (c : MemCall) : Bool := 0 < c.len

def textAt (vaddr : ℕ) (h : vaddr < 0x10000000000000000) : Phdr where
  p_type := .load
  p_flags := ⟨true, false, true⟩
  p_offset := 0
  p_vaddr := vaddr
  p_filesz := 0x800
  p_memsz := 0x1000
  vaddr_lt := h

def text : Phdr := textAt 0 (by decide)

def bss : Phdr where
  p_type := .load
  p_flags := ⟨true, true, false⟩
  p_offset := 0
  p_vaddr := 0x1000
  p_filesz := 0
  p_memsz := 0x1000

def wholePage : Phdr where
  p_type := .load
  p_flags := ⟨true, true, true⟩
  p_offset := 0
  p_vaddr := 0
  p_filesz := 0x1000
  p_memsz := 0x1000

def dynamicPart : Phdr where
  p_type := .dynamic
  p_flags := ⟨true, true, false⟩
  p_offset := 0
  p_vaddr := 0x200
  p_filesz := 0x100
  p_memsz := 0x100

def data : Phdr :=
  { bss with
    p_offset := 0x400
    p_vaddr := 0x1400
    p_filesz := 0x200
    p_memsz := 0x2000
    offset_lt := by decide
    vaddr_lt := by decide
    filesz_lt := by decide
    memsz_lt := by decide }

def relro : Phdr := { data with p_type := .gnuRelro, p_memsz := 0xc00, memsz_lt := by decide }

def textData : List Phdr := [text, data, relro]

theorem textData_loads : loadSegments plainMmap 0x70000000 0x4000 textData =
    .ok (textData.foldl (advance 0x70000000) loadStart) := by
  have htext : ∀ c ∈ segmentCalls 0x70000000 text, c.isMmap → plainMmap c := by decide +kernel
  have hdata : ∀ c ∈ segmentCalls 0x70000000 data, c.isMmap → plainMmap c := by decide +kernel
  have hrelro : relroOk 0x70000000 0x4000 relro := by decide +kernel
  refine (loadSegments_ok_iff _ _ _ _ _).mpr ⟨?_, rfl, by decide +kernel⟩
  exact List.forall_mem_cons.mpr ⟨htext, List.forall_mem_cons.mpr ⟨hdata,
    List.forall_mem_singleton.mpr hrelro⟩⟩

theorem textAt_loads {base size vaddr : ℕ} (h : vaddr < 0x10000000000000000)
    (hp : (segmentCalls base (textAt vaddr h)).all fun c => !c.isMmap || plainMmap c)
    (ht : fullLen base (textAt vaddr h) ≤ size) :
    loadSegments plainMmap base size [textAt vaddr h] =
      .ok ([textAt vaddr h].foldl (advance base) loadStart) := by
  rw [loadSegments_ok_iff]
  refine ⟨?_, rfl, ?_⟩
  · intro p hmem
    obtain rfl := List.mem_singleton.mp hmem
    simpa [Passes, textAt, imp_iff_not_or] using hp
  · exact le_trans (Nat.mod_le _ _) (by simpa [loadStart] using ht)

theorem confined_at_zero :
    Confined 0x70000000 0x4000 (textData.foldl (advance 0x70000000) loadStart).calls ↔
      (∃ p ∈ loads textData, p.p_vaddr < 4096) ∧
        ∀ p ∈ loads textData, pageDown p.p_vaddr + fileLen p ≤ 0x4000 ∧
          (p.p_flags.w = false → pageDown p.p_vaddr ≤ pageUp (vaddrEnd p)) :=
  confined_iff (by decide +kernel) ⟨by decide +kernel, by decide, by decide⟩
    (fun c hc => by simpa [plainMmap] using hc) textData_loads

/-- One text segment linked at 0x10000: the reservation has one page, the
segment is mapped sixteen pages above its start. -/
theorem high_segment_outside :
    getLibExtents [textAt 0x10000 (by decide)] = some 0x1000 ∧ ∃ st,
      loadSegments plainMmap 0x70000000 0x1000 [textAt 0x10000 (by decide)] = .ok st ∧
      ¬ Confined 0x70000000 0x1000 st.calls := by
  refine ⟨by decide +kernel, _, textAt_loads (by decide) (by decide +kernel) (by decide +kernel),
    fun h => ?_⟩
  have := h (.mmapFile 0x70010000 0x800 ⟨true, false, true⟩ 0) (by decide +kernel) 0x70010000
    ⟨by decide, by decide⟩
  exact absurd this.2 (by decide)

end Bionic.SegmentBounds
