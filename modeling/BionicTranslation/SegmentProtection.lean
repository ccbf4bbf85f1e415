import BionicTranslation.SegmentBounds
import BionicTranslation.Overwrite

/-!
# Page protections after linking

Loading leaves every segment writable, and linking takes the write permission
back from one interval and from the RELRO range. The interval is kept in two
32-bit fields. Only the write permission of a page is followed here; the page
is named by its first address.
-/

set_option autoImplicit false

namespace Bionic.SegmentProtection
open Bionic.Paging Bionic.Segments Bionic.SegmentRuns Bionic.SegmentBounds Bionic.Overwrite

/-- What the kernel demands of a call that succeeds: no empty mapping, and no
range that leaves the user half of the address space. -/
def Succeeds : MemCall → Prop
  | .mmapFile addr len _ _ => 0 < len ∧ addr + len ≤ 0x8000000000000000
  | .mmapAnon addr len _ => 0 < len ∧ addr + len ≤ 0x8000000000000000
  | .memset .. => True
  | .mprotect addr len _ => addr + len ≤ 0x8000000000000000

instance : (c : MemCall) → Decidable (Succeeds c)
  | .mmapFile .. => inferInstanceAs (Decidable (_ ∧ _))
  | .mmapAnon .. => inferInstanceAs (Decidable (_ ∧ _))
  | .memset .. => inferInstanceAs (Decidable True)
  | .mprotect .. => inferInstanceAs (Decidable (_ ≤ _))

def granted (q : ℕ) : MemCall → Option Bool
  | .mmapFile addr len prot _ => if addr ≤ q ∧ q < addr + len then some prot.write else none
  | .mmapAnon addr len prot => if addr ≤ q ∧ q < addr + len then some prot.write else none
  | .memset .. => none
  | .mprotect addr len prot => if addr ≤ q ∧ q < addr + len then some prot.write else none

/-- Whether the page `q` is writable once the library is linked. -/
def writableAfter (st : Loading) (before : ℕ → Bool) (q : ℕ) : Bool :=
  settle (granted q) (st.calls ++ linkProtections st) (before q)

def Owns (base : ℕ) (p : Phdr) (q : ℕ) : Prop :=
  ∃ a, (base + p.p_vaddr) % 0x10000000000000000 ≤ a ∧ a < memEnd base p ∧ pageDown a = q

def InRelro (base : ℕ) (p : Phdr) (q : ℕ) : Prop :=
  ∃ a, base + p.p_vaddr ≤ a ∧ a < base + p.p_vaddr + p.p_memsz ∧ pageDown a = q

def TextPage (base : ℕ) (phdrs : List Phdr) (q : ℕ) : Prop :=
  (∃ p ∈ loads phdrs, p.p_flags.w = false ∧ Owns base p q) ∧
    ∀ p ∈ loads phdrs, p.p_flags.w = true → ¬ Owns base p q

def DataPage (base : ℕ) (phdrs : List Phdr) (q : ℕ) : Prop :=
  (∃ p ∈ loads phdrs, p.p_flags.w = true ∧ Owns base p q) ∧
    ∀ p ∈ relros phdrs, ¬ InRelro base p q

structure Protected (base : ℕ) (phdrs : List Phdr) (writable : ℕ → Bool) : Prop where
  text : ∀ q, TextPage base phdrs q → writable q = false
  data : ∀ q, DataPage base phdrs q → writable q = true

def readOnly (phdrs : List Phdr) : List Phdr := (loads phdrs).filter fun p => !p.p_flags.w

def segmentEnd (base : ℕ) (p : Phdr) : ℕ :=
  (mapStart base p + fullLen base p) % 0x10000000000000000

/-- Of a list of ends the one whose low half is remembered: an end replaces the
one kept so far when it is larger than the low half of that one. -/
def keptEnd (l : List ℕ) : ℕ :=
  l.foldl (fun last stop => if stop > last % 0x100000000 then stop else last) 0

/-- The pages the re-protection covers: from the lowest read-only segment, if it
starts below 4 GiB, up to the end kept, both taken in 32 bits. -/
def Reprotected (base : ℕ) (phdrs : List Phdr) (q : ℕ) : Prop :=
  ∃ p ∈ readOnly phdrs, mapStart base p < 0xffffffff ∧
    (∀ r ∈ readOnly phdrs, mapStart base p ≤ mapStart base r) ∧
    keptEnd ((readOnly phdrs).map (segmentEnd base)) % 0x100000000 ≠ 0 ∧
    mapStart base p ≤ q ∧
    q < mapStart base p +
      (keptEnd ((readOnly phdrs).map (segmentEnd base)) % 0x100000000 + 0x100000000 -
        mapStart base p) % 0x100000000

/-- The pages of the last PT_GNU_RELRO entry, its size taken in 32 bits. -/
def RelroClosed (base : ℕ) (phdrs : List Phdr) (q : ℕ) : Prop :=
  ∃ p, (relros phdrs).getLast? = some p ∧ base + p.p_vaddr ≠ 0 ∧ p.p_memsz % 0x100000000 ≠ 0 ∧
    pageDown (base + p.p_vaddr) ≤ q ∧ q < base + p.p_vaddr + p.p_memsz % 0x100000000

def Maps (base : ℕ) (p : Phdr) (q : ℕ) : Prop :=
  mapStart base p ≤ q ∧ (q < memEnd base p ∨ q < mapStart base p + fileLen p)

/-- The last segment mapped over `q` is a read-only one whose file part reaches
`q` and whose memory part does not. -/
def Overlaid (base : ℕ) (phdrs : List Phdr) (q : ℕ) : Prop :=
  ∃ l p r, loads phdrs = l ++ p :: r ∧ p.p_flags.w = false ∧ Maps base p q ∧
    memEnd base p ≤ q ∧ ∀ s ∈ r, ¬ Maps base s q

def leaves (base q : ℕ) (p : Phdr) : Option Bool :=
  if q < mapStart base p then none
  else if q < memEnd base p then some true
  else if q < mapStart base p + fileLen p then some p.p_flags.w
  else none

structure Mapped (base : ℕ) (p : Phdr) : Prop where
  aligned : Aligned base
  file_pos : 0 < fileLen p
  file_low : mapStart base p + fileLen p ≤ 0x8000000000000000
  anon_low : bssStart base p < memEnd base p → memEnd base p ≤ 0x8000000000000000
  full_low : p.p_flags.w = false → mapStart base p + fullLen base p ≤ 0x8000000000000000

theorem mapped_of_succeeds {base : ℕ} {p : Phdr} (hb : Aligned base)
    (h : ∀ c ∈ segmentCalls base p, Succeeds c) : Mapped base p where
  aligned := hb
  file_pos := (h _ (mem_segmentCalls.mpr (Or.inl rfl))).1
  file_low := (h _ (mem_segmentCalls.mpr (Or.inl rfl))).2
  anon_low hlt := by
    have := (h _ (mem_segmentCalls.mpr (Or.inr (Or.inr (Or.inl ⟨hlt, rfl⟩))))).2
    rwa [Nat.add_sub_cancel' hlt.le] at this
  full_low hw := h _ (mem_segmentCalls.mpr (Or.inr (Or.inr (Or.inr ⟨hw, rfl⟩))))

theorem mapStart_aligned {base : ℕ} (p : Phdr) (hb : Aligned base) :
    Aligned (mapStart base p) := by
  unfold Aligned at *
  unfold mapStart pageDown
  omega

theorem Mapped.bssStart_eq {base : ℕ} {p : Phdr} (h : Mapped base p) :
    bssStart base p = pageUp (mapStart base p + fileLen p) := by
  have := h.file_low
  rw [bssStart, Nat.mod_eq_of_lt (by omega), pageUp]

theorem Mapped.memEnd_low {base : ℕ} {p : Phdr} (h : Mapped base p) :
    memEnd base p < 0x8000000000001000 := by
  have h1 := h.file_low
  have h2 := pageUp_gap (mapStart base p + fileLen p)
  rcases Nat.lt_or_ge (bssStart base p) (memEnd base p) with hb | hb
  · have := h.anon_low hb
    omega
  · rw [h.bssStart_eq] at hb
    omega

theorem Mapped.fullLen_eq {base : ℕ} {p : Phdr} (h : Mapped base p)
    (hw : p.p_flags.w = false) :
    mapStart base p + fullLen base p = pageUp (memEnd base p) := by
  have h1 := h.full_low hw
  have h2 := h.memEnd_low
  have h3 : mapStart base p < 0x10000000000000000 := Nat.mod_lt _ (by decide)
  have h4 := pageUp_gap (memEnd base p)
  have hm : (base + p.p_vaddr + p.p_memsz + 4095) % 0x10000000000000000 = memEnd base p + 4095 := by
    unfold memEnd at *
    omega
  have he : fullLen base p =
      (pageUp (memEnd base p) + 0x10000000000000000 - mapStart base p) % 0x10000000000000000 := by
    rw [fullLen, hm, pageUp]
  rw [he] at h1 ⊢
  omega

theorem granted_mmapFile (q addr len off : ℕ) (prot : Prot) :
    granted q (.mmapFile addr len prot off) =
      if addr ≤ q ∧ q < addr + len then some prot.write else none := rfl

theorem granted_mmapAnon (q addr len : ℕ) (prot : Prot) :
    granted q (.mmapAnon addr len prot) =
      if addr ≤ q ∧ q < addr + len then some prot.write else none := rfl

theorem granted_mprotect (q addr len : ℕ) (prot : Prot) :
    granted q (.mprotect addr len prot) =
      if addr ≤ q ∧ q < addr + len then some prot.write else none := rfl

theorem granted_memset (q addr len : ℕ) : granted q (.memset addr len) = none := rfl

theorem segment_leaves {base q : ℕ} {p : Phdr} (h : Mapped base p) (hq : Aligned q) (v : Bool) :
    settle (granted q) (segmentCalls base p) v = (leaves base q p).getD v := by
  have hbss : bssStart base p ≤ q ↔ mapStart base p + fileLen p ≤ q := by
    rw [h.bssStart_eq]
    exact pageUp_le_iff hq
  have hw : (pflagsToProt p.p_flags).write = p.p_flags.w := rfl
  rw [segmentCalls, settle_append, settle_append, settle_append, settle_cons, settle_nil,
    settle_optional, settle_optional]
  simp only [granted_mmapFile, granted_memset, granted_mmapAnon, hw, Option.getD_none, ite_self,
    leaves]
  cases hf : p.p_flags.w with
  | true =>
    rw [if_pos rfl, settle_nil]
    split_ifs <;> first | rfl | omega
  | false =>
    have hfull : q < mapStart base p + fullLen base p ↔ q < memEnd base p := by
      rw [h.fullLen_eq hf]
      have := pageUp_le_iff (a := memEnd base p) hq
      omega
    rw [if_neg (by decide), settle_cons, settle_nil, granted_mprotect]
    split_ifs <;> first | rfl | omega

theorem readOnly_cons (p : Phdr) (phdrs : List Phdr) : readOnly (p :: phdrs) =
    if p.p_type = .load ∧ p.p_flags.w = false then p :: readOnly phdrs else readOnly phdrs := by
  by_cases ht : p.p_type = .load <;> cases hw : p.p_flags.w <;> simp [readOnly, loads, ht, hw]

theorem foldl_wrprotect_start (base : ℕ) (phdrs : List Phdr) (st : Loading) :
    (phdrs.foldl (advance base) st).wrprotect_start =
      ((readOnly phdrs).map (mapStart base)).foldl recordStart st.wrprotect_start := by
  induction phdrs generalizing st with
  | nil => rfl
  | cons p phdrs ih =>
    rw [List.foldl_cons, ih, readOnly_cons]
    cases ht : p.p_type <;> cases hw : p.p_flags.w <;> simp [advance, ht, hw]

theorem foldl_wrprotect_end (base : ℕ) (phdrs : List Phdr) (st : Loading) :
    (phdrs.foldl (advance base) st).wrprotect_end =
      ((readOnly phdrs).map (segmentEnd base)).foldl recordEnd st.wrprotect_end := by
  induction phdrs generalizing st with
  | nil => rfl
  | cons p phdrs ih =>
    rw [List.foldl_cons, ih, readOnly_cons]
    cases ht : p.p_type <;> cases hw : p.p_flags.w <;> simp [advance, ht, hw, segmentEnd]

theorem foldl_relro (base : ℕ) (phdrs : List Phdr) (st : Loading) :
    (phdrs.foldl (advance base) st).gnu_relro_start = (match (relros phdrs).getLast? with
      | none => st.gnu_relro_start
      | some p => (base + p.p_vaddr) % 0x10000000000000000) ∧
    (phdrs.foldl (advance base) st).gnu_relro_len = (match (relros phdrs).getLast? with
      | none => st.gnu_relro_len
      | some p => p.p_memsz % 0x100000000) := by
  induction phdrs using List.reverseRecOn with
  | nil => exact ⟨rfl, rfl⟩
  | append_singleton phdrs p ih =>
    have hr : relros (phdrs ++ [p]) = relros phdrs ++ relros [p] := by simp [relros]
    rw [List.foldl_concat, hr]
    by_cases hp : p.p_type = .gnuRelro
    · have hs : relros [p] = [p] := by simp [relros, hp]
      simp [hs, advance, hp]
    · have hs : relros [p] = [] := by simp [relros, hp]
      rw [hs, List.append_nil, ← ih.1, ← ih.2]
      cases ht : p.p_type <;> simp_all [advance]

theorem foldl_recordStart (l : List ℕ) (s : ℕ) (hs : s ≤ 0xffffffff)
    (hl : ∀ a ∈ l, a < 0x8000000000000000) :
    l.foldl recordStart s ≤ s ∧ (∀ a ∈ l, l.foldl recordStart s ≤ a) ∧
      (l.foldl recordStart s = s ∨ l.foldl recordStart s ∈ l) := by
  induction l generalizing s with
  | nil => simp
  | cons a l ih =>
    have ha := hl a (by simp)
    have hstep : recordStart s a = if a < s then a else s := by
      unfold recordStart signed
      rw [if_pos ha]
      split_ifs <;> omega
    obtain ⟨h1, h2, h3⟩ := ih (recordStart s a) (by rw [hstep]; split_ifs <;> omega)
      fun b hb => hl b (List.mem_cons_of_mem _ hb)
    rw [List.foldl_cons]
    generalize List.foldl recordStart (recordStart s a) l = r at *
    rw [hstep] at h1 h3
    refine ⟨?_, ?_, ?_⟩
    · split_ifs at h1 <;> omega
    · intro b hb
      rcases List.mem_cons.mp hb with rfl | hb
      · split_ifs at h1 <;> omega
      · exact h2 b hb
    · split_ifs at h3
      · exact Or.inr (List.mem_cons.mpr h3)
      · exact h3.imp id (List.mem_cons_of_mem _)

theorem foldl_recordEnd (l : List ℕ) (k : ℕ) :
    l.foldl recordEnd (k % 0x100000000) =
      l.foldl (fun last stop => if stop > last % 0x100000000 then stop else last) k %
        0x100000000 := by
  induction l generalizing k with
  | nil => rfl
  | cons a l ih =>
    rw [List.foldl_cons, List.foldl_cons, ← ih]
    congr 1
    unfold recordEnd
    split_ifs <;> rfl

theorem reprotected_iff {base : ℕ} {phdrs : List Phdr} {st : Loading} (q : ℕ)
    (hst : st = phdrs.foldl (advance base) loadStart)
    (hm : ∀ p ∈ loads phdrs, mapStart base p < 0x8000000000000000) :
    Reprotected base phdrs q ↔ (st.wrprotect_start ≠ 0xffffffff ∧ st.wrprotect_end ≠ 0) ∧
      st.wrprotect_start ≤ q ∧ q < st.wrprotect_start +
        (st.wrprotect_end + 0x100000000 - st.wrprotect_start) % 0x100000000 := by
  have hs : st.wrprotect_start =
      ((readOnly phdrs).map (mapStart base)).foldl recordStart 0xffffffff := by
    rw [hst, foldl_wrprotect_start]
    rfl
  have he : st.wrprotect_end = keptEnd ((readOnly phdrs).map (segmentEnd base)) % 0x100000000 := by
    rw [hst, foldl_wrprotect_end, keptEnd, ← foldl_recordEnd]
    rfl
  have hmem : ∀ p ∈ readOnly phdrs, p ∈ loads phdrs := fun p hp => (List.mem_filter.mp hp).1
  obtain ⟨h1, h2, h3⟩ := foldl_recordStart ((readOnly phdrs).map (mapStart base)) 0xffffffff
    le_rfl (by
      intro a ha
      obtain ⟨p, hp, rfl⟩ := List.mem_map.mp ha
      exact hm p (hmem p hp))
  rw [← hs] at h1 h2 h3
  rw [he]
  constructor
  · rintro ⟨p, hp, hlow, hmin, hne, hle, hlt⟩
    have hSp : st.wrprotect_start = mapStart base p := by
      have ha := h2 _ (List.mem_map_of_mem hp)
      rcases h3 with h3 | h3
      · omega
      · obtain ⟨r, hr, hre⟩ := List.mem_map.mp h3
        have := hmin r hr
        omega
    rw [hSp]
    exact ⟨⟨by omega, hne⟩, hle, hlt⟩
  · rintro ⟨⟨hne, hE⟩, hle, hlt⟩
    rcases h3 with h3 | h3
    · exact absurd h3 hne
    · obtain ⟨p, hp, hpe⟩ := List.mem_map.mp h3
      rw [← hpe] at hle hlt h2 h1 hne
      exact ⟨p, hp, by omega, fun r hr => h2 _ (List.mem_map_of_mem hr), hE, hle, hlt⟩

theorem relroClosed_iff {base size : ℕ} {phdrs : List Phdr} {st : Loading} (q : ℕ)
    (hst : st = phdrs.foldl (advance base) loadStart) (hr : Reserved base size)
    (hok : ∀ p ∈ relros phdrs, p.p_vaddr < size) :
    RelroClosed base phdrs q ↔ (st.gnu_relro_start ≠ 0 ∧ st.gnu_relro_len ≠ 0) ∧
      pageDown st.gnu_relro_start ≤ q ∧ q < pageDown st.gnu_relro_start +
        (st.gnu_relro_start - pageDown st.gnu_relro_start + st.gnu_relro_len) := by
  obtain ⟨hs, hl⟩ := foldl_relro base phdrs loadStart
  rw [← hst] at hs hl
  have hd := pageDown_le st.gnu_relro_start
  cases hlast : (relros phdrs).getLast? with
  | none =>
    rw [hlast] at hs
    have hz : st.gnu_relro_start = 0 := hs
    simp [RelroClosed, hlast, hz]
  | some p =>
    rw [hlast] at hs hl
    have hv := hok p (List.mem_of_getLast? hlast)
    have hlow := hr.low
    have hs' : st.gnu_relro_start = base + p.p_vaddr := by
      rw [hs]
      exact Nat.mod_eq_of_lt (by omega)
    have hl' : st.gnu_relro_len = p.p_memsz % 0x100000000 := hl
    rw [hs'] at hd ⊢
    rw [hl']
    unfold RelroClosed
    rw [hlast]
    constructor
    · rintro ⟨r, hr, h1, h2, h3, h4⟩
      cases hr
      exact ⟨⟨h1, h2⟩, h3, by omega⟩
    · rintro ⟨⟨h1, h2⟩, h3, h4⟩
      exact ⟨p, rfl, h1, h2, h3, by omega⟩

theorem closed_iff (P Q : Prop) [Decidable P] [Decidable Q] (v : Bool) :
    (if P then (if Q then some false else none).getD v else v) = true ↔
      v = true ∧ ¬ (P ∧ Q) := by
  split_ifs <;> simp [*]

theorem link_closes {base size : ℕ} {phdrs : List Phdr} {st : Loading} (q : ℕ) (v : Bool)
    (hst : st = phdrs.foldl (advance base) loadStart) (hr : Reserved base size)
    (hm : ∀ p ∈ loads phdrs, mapStart base p < 0x8000000000000000)
    (hok : ∀ p ∈ relros phdrs, p.p_vaddr < size) :
    settle (granted q) (linkProtections st) v = true ↔
      v = true ∧ ¬ Reprotected base phdrs q ∧ ¬ RelroClosed base phdrs q := by
  rw [reprotected_iff q hst hm, relroClosed_iff q hst hr hok, linkProtections, settle_append,
    settle_optional, settle_optional, granted_mprotect, granted_mprotect]
  rw [closed_iff, closed_iff, and_assoc]

/-- A page of some segment is left writable unless the last segment mapped over
it is a read-only one that covers it with file bytes alone. -/
theorem loads_leave {base q : ℕ} {phdrs : List Phdr} (v : Bool)
    (h : ∃ p ∈ loads phdrs, leaves base q p = some true) :
    settle (leaves base q) (loads phdrs) v = true ↔ ¬ Overlaid base phdrs q := by
  have hnone : ∀ p, leaves base q p = none ↔ ¬ Maps base p q := by
    intro p
    unfold leaves Maps
    split_ifs <;> simp <;> omega
  have hfalse : ∀ p, leaves base q p = some false ↔
      p.p_flags.w = false ∧ Maps base p q ∧ memEnd base p ≤ q := by
    intro p
    unfold leaves Maps
    split_ifs <;> simp <;> omega
  rcases settle_cases (leaves base q) (loads phdrs) v with ⟨hn, -⟩ | ⟨l, p, r, b, hl, hp, hr, hb⟩
  · obtain ⟨p, hp, hpt⟩ := h
    rw [hn p hp] at hpt
    cases hpt
  · rw [hb]
    cases b with
    | false =>
      obtain ⟨h1, h2, h3⟩ := (hfalse p).mp hp
      have : Overlaid base phdrs q := ⟨l, p, r, hl, h1, h2, h3, fun s hs => (hnone s).mp (hr s hs)⟩
      simp [this]
    | true =>
      simp only [true_iff]
      rintro ⟨l', p', r', hl', h1, h2, h3, h4⟩
      have := settle_last l' v ((hfalse p').mpr ⟨h1, h2, h3⟩) fun s hs => (hnone s).mpr (h4 s hs)
      rw [← hl', hb] at this
      cases this

theorem leaves_owned {base q : ℕ} {p : Phdr} (hb : Aligned base) (h : Owns base p q) :
    leaves base q p = some true := by
  obtain ⟨a, h1, h2, rfl⟩ := h
  have hle := pageDown_le a
  have hs : mapStart base p ≤ pageDown a := by
    rw [le_pageDown_iff (mapStart_aligned p hb)]
    refine le_trans ?_ h1
    unfold mapStart pageDown
    unfold Aligned at hb
    omega
  rw [leaves, if_neg (by omega), if_pos (by omega)]

theorem relroClosed_inRelro {base q : ℕ} {phdrs : List Phdr} (hq : Aligned q)
    (h : RelroClosed base phdrs q) : ∃ p ∈ relros phdrs, InRelro base p q := by
  obtain ⟨p, hlast, -, hlen, h1, h2⟩ := h
  have hm := Nat.mod_le p.p_memsz 0x100000000
  refine ⟨p, List.mem_of_getLast? hlast, max (base + p.p_vaddr) q, by omega, by omega, ?_⟩
  rcases Nat.le_total (base + p.p_vaddr) q with h | h
  · rw [max_eq_right h, pageDown_of_aligned hq]
  · have := (le_pageDown_iff hq).mpr h
    rw [max_eq_left h]
    omega

/-- After a load and a completed link, the pages that belong only to segments
without PF_W are not writable and the PF_W pages outside RELRO are, exactly
when each page of the first kind is covered by the one re-protected interval,
by the last RELRO range or by an overlay, and no page of the second kind is
covered by the interval or by an overlay. -/
theorem protected_iff {mmap : MemCall → Bool} {base size : ℕ} {phdrs : List Phdr}
    {st : Loading} (hr : Reserved base size) (h : loadSegments mmap base size phdrs = .ok st)
    (hs : ∀ c ∈ st.calls ++ linkProtections st, Succeeds c) (before : ℕ → Bool) :
    Protected base phdrs (writableAfter st before) ↔
      (∀ q, TextPage base phdrs q →
        Reprotected base phdrs q ∨ RelroClosed base phdrs q ∨ Overlaid base phdrs q) ∧
      ∀ q, DataPage base phdrs q → ¬ Reprotected base phdrs q ∧ ¬ Overlaid base phdrs q := by
  obtain ⟨hpass, hst, -⟩ := (loadSegments_ok_iff _ _ _ _ _).mp h
  have hcalls := load_calls h
  have hmap : ∀ p ∈ loads phdrs, Mapped base p := fun p hp =>
    mapped_of_succeeds hr.aligned fun c hc => hs c (List.mem_append_left _ (by
      rw [hcalls]
      exact List.mem_flatMap.mpr ⟨p, hp, hc⟩))
  have hstart : ∀ p ∈ loads phdrs, mapStart base p < 0x8000000000000000 := fun p hp => by
    have h1 := (hmap p hp).file_low
    have h2 := (hmap p hp).file_pos
    omega
  have hrelro : ∀ p ∈ relros phdrs, p.p_vaddr < size := fun p hp => by
    obtain ⟨hmem, ht⟩ := mem_relros.mp hp
    have := hpass p hmem
    simp only [Passes, ht, relroOk, Bool.not_eq_true', Bool.or_eq_false_iff,
      decide_eq_false_iff_not] at this
    omega
  have hfinal : ∀ q, (∃ p ∈ loads phdrs, Owns base p q) → (writableAfter st before q = true ↔
      ¬ Overlaid base phdrs q ∧ ¬ Reprotected base phdrs q ∧ ¬ RelroClosed base phdrs q) := by
    rintro q ⟨p, hp, hown⟩
    have hq : Aligned q := by
      obtain ⟨a, -, -, rfl⟩ := hown
      exact pageDown_aligned a
    rw [writableAfter, settle_append, link_closes q _ hst hr hstart hrelro, hcalls,
      settle_groups _ _ fun p hp v => segment_leaves (hmap p hp) hq v,
      loads_leave _ ⟨p, hp, leaves_owned hr.aligned hown⟩]
  constructor
  · rintro ⟨ht, hd⟩
    constructor
    · rintro q hq
      obtain ⟨p, hp, -, hown⟩ := hq.1
      have hf := ht q hq
      by_contra hn
      rw [Bool.eq_false_iff, Ne, hfinal q ⟨p, hp, hown⟩] at hf
      tauto
    · rintro q hq
      obtain ⟨p, hp, -, hown⟩ := hq.1
      have := (hfinal q ⟨p, hp, hown⟩).mp (hd q hq)
      exact ⟨this.2.1, this.1⟩
  · rintro ⟨ht, hd⟩
    constructor
    · intro q hq
      obtain ⟨p, hp, -, hown⟩ := hq.1
      have := ht q hq
      rw [Bool.eq_false_iff, Ne, hfinal q ⟨p, hp, hown⟩]
      tauto
    · intro q hq
      obtain ⟨p, hp, -, hown⟩ := hq.1
      have hq' : Aligned q := by
        obtain ⟨a, -, -, rfl⟩ := hown
        exact pageDown_aligned a
      obtain ⟨h1, h2⟩ := hd q hq
      refine (hfinal q ⟨p, hp, hown⟩).mpr ⟨h2, h1, fun hc => ?_⟩
      obtain ⟨r, hr, hin⟩ := relroClosed_inRelro hq' hc
      exact hq.2 r hr hin

theorem not_reprotected_high {base q : ℕ} {phdrs : List Phdr}
    (h : ∀ p ∈ readOnly phdrs, 0xffffffff ≤ mapStart base p) : ¬ Reprotected base phdrs q := by
  rintro ⟨p, hp, hlow, -⟩
  have := h p hp
  omega

theorem keptEnd_low (l : List ℕ) (k : ℕ) (hk : k < 0x100000000) (h : ∀ a ∈ l, a < 0x100000000) :
    l.foldl (fun last stop => if stop > last % 0x100000000 then stop else last) k =
      l.foldl max k := by
  induction l generalizing k with
  | nil => rfl
  | cons a l ih =>
    have ha := h a (by simp)
    have hstep : (if a > k % 0x100000000 then a else k) = max k a := by
      rw [Nat.mod_eq_of_lt hk]
      rcases Nat.lt_or_ge k a with hlt | hge
      · rw [if_pos hlt, max_eq_right hlt.le]
      · rw [if_neg (by omega), max_eq_left hge]
    rw [List.foldl_cons, List.foldl_cons, hstep]
    exact ih _ (max_lt hk ha) fun b hb => h b (List.mem_cons_of_mem _ hb)

theorem lt_foldl_max (l : List ℕ) (k q : ℕ) : q < l.foldl max k ↔ q < k ∨ ∃ a ∈ l, q < a := by
  induction l generalizing k with
  | nil => simp
  | cons a l ih =>
    rw [List.foldl_cons, ih, lt_max_iff]
    simp [or_assoc]

theorem exists_lowest {α : Type*} (f : α → ℕ) {l : List α} {x : α} (hx : x ∈ l) :
    ∃ m ∈ l, ∀ y ∈ l, f m ≤ f y := by
  classical
  obtain ⟨m, hm, hmin⟩ := l.toFinset.exists_min_image f ⟨x, List.mem_toFinset.mpr hx⟩
  exact ⟨m, List.mem_toFinset.mp hm, fun y hy => hmin y (List.mem_toFinset.mpr hy)⟩

/-- Below 4 GiB everything between the lowest and the highest page of the
read-only segments is re-protected, whatever lies there. -/
theorem reprotected_low {base q : ℕ} {phdrs : List Phdr}
    (hs : ∀ p ∈ readOnly phdrs, mapStart base p < 0xffffffff)
    (he : ∀ p ∈ readOnly phdrs, mapStart base p ≤ segmentEnd base p ∧
      segmentEnd base p < 0x100000000) :
    Reprotected base phdrs q ↔
      (∃ p ∈ readOnly phdrs, mapStart base p ≤ q) ∧
        ∃ p ∈ readOnly phdrs, q < segmentEnd base p := by
  have hends : ∀ a ∈ (readOnly phdrs).map (segmentEnd base), a < 0x100000000 := by
    intro a ha
    obtain ⟨p, hp, rfl⟩ := List.mem_map.mp ha
    exact (he p hp).2
  have hlt : ∀ n, n < keptEnd ((readOnly phdrs).map (segmentEnd base)) ↔
      ∃ p ∈ readOnly phdrs, n < segmentEnd base p := by
    intro n
    rw [keptEnd, keptEnd_low _ 0 (by decide) hends, lt_foldl_max]
    simp
  have hsmall : keptEnd ((readOnly phdrs).map (segmentEnd base)) < 0x100000000 := by
    by_contra hn
    obtain ⟨p, hp, hlt'⟩ := (hlt 0xffffffff).mp (by omega)
    have := (he p hp).2
    omega
  unfold Reprotected
  rw [Nat.mod_eq_of_lt hsmall]
  generalize keptEnd ((readOnly phdrs).map (segmentEnd base)) = e at *
  constructor
  · rintro ⟨p, hp, hlow, -, hne, hle, hq⟩
    refine ⟨⟨p, hp, hle⟩, (hlt q).mp ?_⟩
    have hpe : mapStart base p ≤ e := by
      by_contra hn
      have := (hlt e).mpr ⟨p, hp, by have := (he p hp).1; omega⟩
      omega
    omega
  · rintro ⟨⟨p, hp, hle⟩, hq⟩
    obtain ⟨m, hm, hmin⟩ := exists_lowest (mapStart base) hp
    have hqe := (hlt q).mpr hq
    have h1 := hmin p hp
    have h2 := hs m hm
    exact ⟨m, hm, h2, hmin, by omega, by omega, by omega⟩

theorem text_linked : Protected 0x70000000 textData
      (writableAfter (textData.foldl (advance 0x70000000) loadStart) fun _ => false) ↔
    (∀ q, TextPage 0x70000000 textData q → Reprotected 0x70000000 textData q ∨
      RelroClosed 0x70000000 textData q ∨ Overlaid 0x70000000 textData q) ∧
    ∀ q, DataPage 0x70000000 textData q →
      ¬ Reprotected 0x70000000 textData q ∧ ¬ Overlaid 0x70000000 textData q :=
  protected_iff ⟨by decide +kernel, by decide, by decide⟩ textData_loads (by decide +kernel) _

/-- The same text segment mapped above 4 GiB stays writable. -/
theorem high_text_stays_writable : ∃ st,
    loadSegments plainMmap 0x7f0000000000 0x1000 [textAt 0 (by decide)] = .ok st ∧
    (∀ c ∈ st.calls ++ linkProtections st, Succeeds c) ∧
    ¬ Protected 0x7f0000000000 [textAt 0 (by decide)] (writableAfter st fun _ => false) := by
  refine ⟨_, textAt_loads (by decide) (by decide +kernel) (by decide +kernel),
    by decide +kernel, fun h => ?_⟩
  have hpage : TextPage 0x7f0000000000 [textAt 0 (by decide)] 0x7f0000000000 := by
    refine ⟨⟨textAt 0 (by decide), by simp [loads, textAt], rfl, 0x7f0000000000, ?_⟩, ?_⟩
    · decide +kernel
    · intro p hp hw
      obtain rfl := List.mem_singleton.mp (List.mem_filter.mp hp).1
      cases hw
  have := h.text _ hpage
  revert this
  decide +kernel

end Bionic.SegmentProtection
