import BionicTranslation.SegmentProtection

/-!
# The RELRO range

The entry is checked by sums of 64 bits that may wrap around, and its length is kept in 32
bits. Linking closes the range from the page of its start on, and unloading opens it again.
-/

set_option autoImplicit false

namespace Bionic.RelroRange
open Bionic.Paging Bionic.Segments Bionic.SegmentRuns Bionic.SegmentBounds
open Bionic.SegmentProtection

variable {base size : ℕ} {st : Loading} {p : Phdr}

def relroCall (prot : Prot) (st : Loading) : List MemCall :=
  if st.gnu_relro_start ≠ 0 ∧ st.gnu_relro_len ≠ 0 then
    let start := pageDown st.gnu_relro_start
    [.mprotect start (st.gnu_relro_start - start + st.gnu_relro_len) prot] else []

def protectRelro (st : Loading) : List MemCall := relroCall ⟨true, false, false⟩ st

def unprotectRelro (st : Loading) : List MemCall := relroCall ⟨true, true, false⟩ st

theorem linkProtections_relro (st : Loading) :
    ∃ text, linkProtections st = text ++ protectRelro st :=
  ⟨_, rfl⟩

/-- The byte is in a page that one of the calls is about. -/
def Covered (calls : List MemCall) (a : ℕ) : Prop :=
  ∃ c ∈ calls, c.addr ≤ a ∧ a < pageUp (c.addr + c.len)

/-- The range is in the region, is the same for both calls, and has every byte of the entry. -/
structure RightRange (base size : ℕ) (p : Phdr) (st : Loading) : Prop where
  bounded : p.p_vaddr + p.p_memsz ≤ size
  confined : ∀ a, Covered (protectRelro st) a → base ≤ a ∧ a < base + size
  released : ∀ a, Covered (unprotectRelro st) a ↔ Covered (protectRelro st) a
  covers : ∀ a, base + p.p_vaddr ≤ a → a < base + p.p_vaddr + p.p_memsz →
    Covered (protectRelro st) a

theorem covered_iff {prot : Prot} {a : ℕ} : Covered (relroCall prot st) a ↔
    (st.gnu_relro_start ≠ 0 ∧ st.gnu_relro_len ≠ 0) ∧ pageDown st.gnu_relro_start ≤ a ∧
      a < pageUp (st.gnu_relro_start + st.gnu_relro_len) := by
  have hsum : pageDown st.gnu_relro_start + (st.gnu_relro_start - pageDown st.gnu_relro_start +
      st.gnu_relro_len) = st.gnu_relro_start + st.gnu_relro_len := by
    have hle := pageDown_le st.gnu_relro_start
    omega
  rw [Covered, relroCall]
  split_ifs with h
  · simp only [List.mem_singleton, exists_eq_left, MemCall.addr, MemCall.len, hsum]
    exact (and_iff_right h).symm
  · simp [h]

def keptLen (q : Phdr) : ℕ := q.p_memsz % 0x100000000

structure Recorded (base size : ℕ) (q : Phdr) (st : Loading) : Prop where
  start : st.gnu_relro_start = base + q.p_vaddr
  len : st.gnu_relro_len = keptLen q
  starts : q.p_vaddr < size

section accepted
variable {mmap : MemCall → Bool} {phdrs : List Phdr} {q : Phdr}

theorem relro_checked (h : loadSegments mmap base size phdrs = .ok st) (hp : p ∈ relros phdrs) :
    p.p_vaddr < size ∧ (p.p_vaddr + p.p_memsz) % 0x10000000000000000 ≤ size := by
  obtain ⟨hpass, -, -⟩ := (loadSegments_ok_iff _ _ _ _ _).mp h
  obtain ⟨hmem, ht⟩ := mem_relros.mp hp
  have hok := hpass p hmem
  simp only [Passes, ht, relroOk, Bool.not_eq_true', Bool.or_eq_false_iff,
    decide_eq_false_iff_not] at hok
  omega

theorem relro_recorded (hw : base + size ≤ 0x10000000000000000)
    (h : loadSegments mmap base size phdrs = .ok st) (hq : (relros phdrs).getLast? = some q) :
    Recorded base size q st := by
  obtain ⟨hstarts, -⟩ := relro_checked h (List.mem_of_getLast? hq)
  obtain ⟨-, hst, -⟩ := (loadSegments_ok_iff _ _ _ _ _).mp h
  obtain ⟨hs, hl⟩ := foldl_relro base phdrs loadStart
  rw [← hst, hq] at hs hl
  exact ⟨hs.trans (Nat.mod_eq_of_lt (by omega)), hl, hstarts⟩

theorem Recorded.covered (h : Recorded base size q st) (hb : Aligned base) {prot : Prot} {a : ℕ} :
    Covered (relroCall prot st) a ↔ (base + q.p_vaddr ≠ 0 ∧ keptLen q ≠ 0) ∧
      base + pageDown q.p_vaddr ≤ a ∧ a < base + pageUp (q.p_vaddr + keptLen q) := by
  rw [covered_iff, h.start, h.len, pageDown_add hb, Nat.add_assoc, pageUp_add hb]

/-- The entry `p` does not wrap around, and what is kept of the last entry `q` is in the region
and has the bytes of `p`. -/
structure InRange (base size : ℕ) (p q : Phdr) : Prop where
  end_lt : p.p_vaddr + p.p_memsz < 0x10000000000000000
  room : base + q.p_vaddr ≠ 0 → keptLen q ≠ 0 → q.p_vaddr + keptLen q ≤ size
  spans : p.p_memsz ≠ 0 → (base + q.p_vaddr ≠ 0 ∧ keptLen q ≠ 0) ∧
    pageDown q.p_vaddr ≤ p.p_vaddr ∧ p.p_vaddr + p.p_memsz ≤ pageUp (q.p_vaddr + keptLen q)

/-- For every table that is accepted and every RELRO entry of it; the range is recorded for
the last one. -/
theorem relro_right_iff (hb : Aligned base) (hs : Aligned size)
    (hsize : size < 0x10000000000000000) (hw : base + size ≤ 0x10000000000000000)
    (h : loadSegments mmap base size phdrs = .ok st) (hp : p ∈ relros phdrs)
    (hq : (relros phdrs).getLast? = some q) :
    RightRange base size p st ↔ InRange base size p q := by
  have hrec := relro_recorded hw h hq
  obtain ⟨-, hends⟩ := relro_checked h hp
  constructor
  · intro hr
    have hbound := hr.bounded
    refine ⟨by omega, fun hstart hlen => ?_, fun hm => ?_⟩
    · have hup := le_pageUp (q.p_vaddr + keptLen q)
      have hdown := pageDown_le q.p_vaddr
      obtain ⟨-, hlast⟩ := hr.confined (base + q.p_vaddr + keptLen q - 1)
        ((hrec.covered hb).mpr ⟨⟨hstart, hlen⟩, by omega, by omega⟩)
      omega
    · obtain ⟨hkept, hlow, -⟩ := (hrec.covered hb).mp
        (hr.covers (base + p.p_vaddr) le_rfl (by omega))
      obtain ⟨-, -, hhigh⟩ := (hrec.covered hb).mp
        (hr.covers (base + p.p_vaddr + p.p_memsz - 1) (by omega) (by omega))
      exact ⟨hkept, by omega, by omega⟩
  · rintro ⟨hwrap, hroom, hspans⟩
    rw [Nat.mod_eq_of_lt hwrap] at hends
    refine ⟨hends, fun a ha => ?_, fun a => (hrec.covered hb).trans (hrec.covered hb).symm,
      fun a h1 h2 => ?_⟩
    · obtain ⟨⟨hstart, hlen⟩, hlow, hhigh⟩ := (hrec.covered hb).mp ha
      have hup : pageUp (q.p_vaddr + keptLen q) ≤ size :=
        (pageUp_le_iff hs).mpr (hroom hstart hlen)
      omega
    · obtain ⟨hkept, hlow, hhigh⟩ := hspans (by omega)
      exact (hrec.covered hb).mpr ⟨hkept, by omega, by omega⟩

end accepted

/-- The last entry is in its own range just when its end does not wrap around, its length has
32 bits, and its start is not the address 0. -/
theorem inRange_self_iff (hends : (p.p_vaddr + p.p_memsz) % 0x10000000000000000 ≤ size) :
    InRange base size p p ↔ p.p_vaddr + p.p_memsz < 0x10000000000000000 ∧
      (p.p_memsz = 0 ∨ p.p_memsz < 0x100000000 ∧ base + p.p_vaddr ≠ 0) := by
  have hmod : keptLen p ≤ p.p_memsz := Nat.mod_le _ _
  constructor
  · rintro ⟨hwrap, -, hspans⟩
    refine ⟨hwrap, or_iff_not_imp_left.mpr fun hm => ?_⟩
    obtain ⟨⟨hstart, -⟩, -, hhigh⟩ := hspans hm
    have hgap := pageUp_gap (p.p_vaddr + keptLen p)
    unfold keptLen at hgap hhigh
    exact ⟨by omega, hstart⟩
  · rintro ⟨hwrap, hlen⟩
    rw [Nat.mod_eq_of_lt hwrap] at hends
    refine ⟨hwrap, fun _ _ => by omega, fun hm => ?_⟩
    obtain ⟨hsmall, hstart⟩ := hlen.resolve_left hm
    have hkept : keptLen p = p.p_memsz := Nat.mod_eq_of_lt hsmall
    rw [hkept]
    exact ⟨⟨hstart, hm⟩, pageDown_le _, le_pageUp _⟩

def relroAt (vaddr memsz : ℕ) (hv : vaddr < 0x10000000000000000)
    (hm : memsz < 0x10000000000000000) : Phdr :=
  { textAt vaddr hv with p_type := .gnuRelro, p_memsz := memsz, memsz_lt := hm }

theorem relroAt_loads {vaddr memsz : ℕ} {hv : vaddr < 0x10000000000000000}
    {hm : memsz < 0x10000000000000000}
    (hok : relroOk base size (relroAt vaddr memsz hv hm) = true) :
    loadSegments (fun _ => true) base size [relroAt vaddr memsz hv hm] =
      .ok (advance base loadStart (relroAt vaddr memsz hv hm)) :=
  (loadSegments_ok_iff _ _ _ _ _).mpr ⟨by
    intro p hp
    rw [List.mem_singleton.mp hp]
    exact hok, rfl, Nat.zero_le _⟩

theorem plain_relro_right : ∃ st, loadSegments (fun _ => true) 0x7f0000000000 0x4000
      [relroAt 0x2000 0x800 (by decide) (by decide)] = .ok st ∧
    RightRange 0x7f0000000000 0x4000 (relroAt 0x2000 0x800 (by decide) (by decide)) st :=
  ⟨_, relroAt_loads (by decide), (relro_right_iff (by decide) (by decide) (by decide) (by decide)
    (relroAt_loads (by decide)) List.mem_cons_self rfl).mpr
      ((inRange_self_iff (by decide)).mpr (by decide))⟩

/-- A length of nearly 2^64 is accepted, and a range of 4 GiB is kept as one of no bytes. -/
theorem relro_not_right :
    (∃ st, loadSegments (fun _ => true) 0x7f0000000000 0x4000
        [relroAt 0x2000 0xfffffffffffff000 (by decide) (by decide)] = .ok st ∧
      ¬ RightRange 0x7f0000000000 0x4000
        (relroAt 0x2000 0xfffffffffffff000 (by decide) (by decide)) st) ∧
    ∃ st, loadSegments (fun _ => true) 0x7f0000000000 0x200000000
        [relroAt 0x2000 0x100000000 (by decide) (by decide)] = .ok st ∧
      ¬ RightRange 0x7f0000000000 0x200000000
        (relroAt 0x2000 0x100000000 (by decide) (by decide)) st := by
  refine ⟨⟨_, relroAt_loads (by decide), fun h => ?_⟩, ⟨_, relroAt_loads (by decide), fun h => ?_⟩⟩
  · exact absurd h.bounded (by decide)
  · obtain ⟨c, hc, -⟩ := h.covers 0x7f0000002000 (by decide) (by decide)
    have hnone : protectRelro (advance 0x7f0000000000 loadStart
        (relroAt 0x2000 0x100000000 (by decide) (by decide))) = [] := by decide
    rw [hnone] at hc
    cases hc

end Bionic.RelroRange
