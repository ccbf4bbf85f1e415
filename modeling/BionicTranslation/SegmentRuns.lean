import BionicTranslation.Segments

/-!
# What a successful load has done

A load that returns 0 has passed one check for every program header, and its
result is a plain fold over the table. Everything proved about the loader
starts from this characterization.
-/

set_option autoImplicit false

namespace Bionic.SegmentRuns
open Bionic.Paging Bionic.Segments

def Passes (mmap : MemCall → Bool) (base size : ℕ) (p : Phdr) : Prop :=
  match p.p_type with
  | .load => ∀ c ∈ segmentCalls base p, c.isMmap → mmap c
  | .gnuRelro => relroOk base size p
  | _ => True

def advance (base : ℕ) (st : Loading) (p : Phdr) : Loading :=
  match p.p_type with
  | .load =>
    { st with
      calls := st.calls ++ segmentCalls base p
      total_sz := (st.total_sz + fullLen base p) % 0x10000000000000000
      wrprotect_start := if p.p_flags.w then st.wrprotect_start else
        recordStart st.wrprotect_start (mapStart base p)
      wrprotect_end := if p.p_flags.w then st.wrprotect_end else
        recordEnd st.wrprotect_end ((mapStart base p + fullLen base p) % 0x10000000000000000) }
  | .dynamic => { st with dynamic := some ((base + p.p_vaddr) % 0x10000000000000000) }
  | .gnuRelro =>
    { st with
      gnu_relro_start := (base + p.p_vaddr) % 0x10000000000000000
      gnu_relro_len := p.p_memsz % 0x100000000 }
  | .other _ => st

theorem issue_ok_iff (mmap : MemCall → Bool) (done cs r : List MemCall) :
    issue mmap done cs = .ok r ↔ (∀ c ∈ cs, c.isMmap → mmap c) ∧ r = done ++ cs := by
  induction cs generalizing done with
  | nil =>
    rw [eq_comm (a := r)]
    simp [issue]
  | cons c cs ih =>
    simp only [issue, List.mem_cons, forall_eq_or_imp]
    cases hm : c.isMmap <;> cases hc : mmap c <;> simp [ih]

theorem loadSegment_ok_iff (mmap : MemCall → Bool) (base size : ℕ) (st st' : Loading)
    (p : Phdr) : loadSegment mmap base size st p = .ok st' ↔
      Passes mmap base size p ∧ st' = advance base st p := by
  cases ht : p.p_type with
  | load =>
    simp only [loadSegment, Passes, advance, ht, loadPtLoad]
    cases hi : issue mmap st.calls (segmentCalls base p) with
    | ok calls =>
      obtain ⟨hp, rfl⟩ := (issue_ok_iff _ _ _ _).mp hi
      have hall : (∀ c ∈ segmentCalls base p, c.isMmap → mmap c) ↔ True := iff_true_intro hp
      rw [hall, true_and, eq_comm (a := st')]
      cases hw : p.p_flags.w <;> simp [bind, Except.bind, pure, Except.pure]
    | error e =>
      have hn : ¬ ∀ c ∈ segmentCalls base p, c.isMmap → mmap c := fun hp => by
        have := (issue_ok_iff mmap st.calls _ _).mpr ⟨hp, rfl⟩
        rw [hi] at this
        cases this
      simp only [bind, Except.bind, reduceCtorEq, false_iff, not_and]
      exact fun hp => absurd hp hn
  | dynamic => simp [loadSegment, Passes, advance, ht, eq_comm]
  | gnuRelro =>
    cases hr : relroOk base size p <;>
      simp [loadSegment, Passes, advance, ht, hr, eq_comm]
  | other n => simp [loadSegment, Passes, advance, ht, eq_comm]

theorem foldlM_ok_iff (mmap : MemCall → Bool) (base size : ℕ) (phdrs : List Phdr)
    (st st' : Loading) : phdrs.foldlM (loadSegment mmap base size) st = .ok st' ↔
      (∀ p ∈ phdrs, Passes mmap base size p) ∧ st' = phdrs.foldl (advance base) st := by
  induction phdrs generalizing st with
  | nil =>
    rw [eq_comm (a := st')]
    simp [pure, Except.pure]
  | cons p phdrs ih =>
    rw [List.foldlM_cons]
    cases hl : loadSegment mmap base size st p with
    | ok st₁ =>
      obtain ⟨hp, rfl⟩ := (loadSegment_ok_iff _ _ _ _ _ _).mp hl
      simp only [bind, Except.bind, ih, List.foldl_cons, List.mem_cons, forall_eq_or_imp, hp,
        true_and]
    | error e =>
      have hn : ¬ Passes mmap base size p := fun hp => by
        have := (loadSegment_ok_iff mmap base size st _ p).mpr ⟨hp, rfl⟩
        rw [hl] at this
        cases this
      simp only [bind, Except.bind, reduceCtorEq, false_iff, not_and]
      exact fun hp => absurd (hp p (by simp)) hn

/-- A load returns 0 exactly when every header passes and the sum of the
segment lengths is not larger than the reservation. -/
theorem loadSegments_ok_iff (mmap : MemCall → Bool) (base size : ℕ) (phdrs : List Phdr)
    (st : Loading) : loadSegments mmap base size phdrs = .ok st ↔
      (∀ p ∈ phdrs, Passes mmap base size p) ∧ st = phdrs.foldl (advance base) loadStart ∧
        st.total_sz ≤ size := by
  unfold loadSegments
  cases hf : phdrs.foldlM (loadSegment mmap base size) loadStart with
  | ok st₁ =>
    obtain ⟨hp, hs⟩ := (foldlM_ok_iff _ _ _ _ _ _).mp hf
    by_cases hz : st₁.total_sz > size
    · simp only [bind, Except.bind, hz, if_true, reduceCtorEq, false_iff, not_and]
      rintro - rfl
      rw [← hs]
      omega
    · simp only [bind, Except.bind, hz, if_false, pure, Except.pure, Except.ok.injEq]
      constructor
      · rintro rfl
        exact ⟨hp, hs, by omega⟩
      · rintro ⟨-, h, -⟩
        rw [h, hs]
  | error e =>
    have hn : ¬ ∀ p ∈ phdrs, Passes mmap base size p := fun hp => by
      have := (foldlM_ok_iff mmap base size phdrs loadStart _).mpr ⟨hp, rfl⟩
      rw [hf] at this
      cases this
    simp only [bind, Except.bind, reduceCtorEq, false_iff, not_and]
    exact fun hp => absurd hp hn

theorem loads_cons (p : Phdr) (phdrs : List Phdr) :
    loads (p :: phdrs) = if p.p_type = .load then p :: loads phdrs else loads phdrs := by
  by_cases hp : p.p_type = .load <;> simp [loads, hp]

theorem mem_loads {p : Phdr} {phdrs : List Phdr} :
    p ∈ loads phdrs ↔ p ∈ phdrs ∧ p.p_type = .load := by
  simp [loads]

theorem mem_relros {p : Phdr} {phdrs : List Phdr} :
    p ∈ relros phdrs ↔ p ∈ phdrs ∧ p.p_type = .gnuRelro := by
  simp [relros]

theorem foldl_calls (base : ℕ) (phdrs : List Phdr) (st : Loading) :
    (phdrs.foldl (advance base) st).calls =
      st.calls ++ (loads phdrs).flatMap (segmentCalls base) := by
  induction phdrs generalizing st with
  | nil => simp [loads]
  | cons p phdrs ih =>
    rw [List.foldl_cons, ih, loads_cons]
    cases ht : p.p_type <;> simp [advance, ht]

theorem load_calls {mmap : MemCall → Bool} {base size : ℕ} {phdrs : List Phdr} {st : Loading}
    (h : loadSegments mmap base size phdrs = .ok st) :
    st.calls = (loads phdrs).flatMap (segmentCalls base) := by
  obtain ⟨-, rfl, -⟩ := (loadSegments_ok_iff _ _ _ _ _).mp h
  simpa [loadStart] using foldl_calls base phdrs loadStart

theorem load_mmaps {mmap : MemCall → Bool} {base size : ℕ} {phdrs : List Phdr} {st : Loading}
    (h : loadSegments mmap base size phdrs = .ok st) {p : Phdr} (hp : p ∈ loads phdrs)
    {c : MemCall} (hc : c ∈ segmentCalls base p) (hm : c.isMmap) : mmap c := by
  obtain ⟨hall, -, -⟩ := (loadSegments_ok_iff _ _ _ _ _).mp h
  obtain ⟨hmem, ht⟩ := mem_loads.mp hp
  have := hall p hmem
  simp only [Passes, ht] at this
  exact this c hc hm

theorem foldl_total (base : ℕ) (phdrs : List Phdr) (st : Loading) :
    (phdrs.foldl (advance base) st).total_sz % 0x10000000000000000 =
      (st.total_sz + ((loads phdrs).map (fullLen base)).sum) % 0x10000000000000000 := by
  induction phdrs generalizing st with
  | nil => simp [loads]
  | cons p phdrs ih =>
    rw [List.foldl_cons, ih, loads_cons]
    cases ht : p.p_type <;> simp [advance, ht]
    omega

theorem foldl_total_lt (base : ℕ) (phdrs : List Phdr) (st : Loading)
    (h : st.total_sz < 0x10000000000000000) :
    (phdrs.foldl (advance base) st).total_sz < 0x10000000000000000 := by
  induction phdrs generalizing st with
  | nil => exact h
  | cons p phdrs ih =>
    rw [List.foldl_cons]
    apply ih
    cases ht : p.p_type <;> simp only [advance, ht]
    · exact Nat.mod_lt _ (by decide)
    all_goals exact h

/-- The reservation made for a library: page aligned, not empty and in the
lower half of the address space, where user mappings live. -/
structure Reserved (base size : ℕ) : Prop where
  aligned : Aligned base
  pos : 0 < size
  low : base + size ≤ 0x8000000000000000

theorem vaddrRange_snoc (phdrs : List Phdr) (p : Phdr) :
    vaddrRange (phdrs ++ [p]) = widen (vaddrRange phdrs) p := by
  simp [vaddrRange]

theorem vaddrRange_bounds (phdrs : List Phdr) :
    (vaddrRange phdrs).1 ≤ 0xffffffff ∧ (vaddrRange phdrs).2 < 0x10000000000000000 ∧
    (∀ p ∈ loads phdrs, (vaddrRange phdrs).1 ≤ p.p_vaddr ∧ vaddrEnd p ≤ (vaddrRange phdrs).2) ∧
    ((vaddrRange phdrs).1 = 0xffffffff ∨
      ∃ p ∈ loads phdrs, (vaddrRange phdrs).1 = p.p_vaddr) ∧
    ((vaddrRange phdrs).2 = 0 ∨ ∃ p ∈ loads phdrs, (vaddrRange phdrs).2 = vaddrEnd p) := by
  induction phdrs using List.reverseRecOn with
  | nil => simp [vaddrRange, loads]
  | append_singleton phdrs p ih =>
    obtain ⟨hmin, hmax, hall, hlo, hhi⟩ := ih
    have hl : loads (phdrs ++ [p]) = loads phdrs ++ loads [p] := by simp [loads]
    rw [vaddrRange_snoc, hl]
    by_cases hp : p.p_type = .load
    · have hs : loads [p] = [p] := by simp [loads, hp]
      have he : vaddrEnd p < 0x10000000000000000 := Nat.mod_lt _ (by decide)
      simp only [hs, widen, hp, if_true, List.mem_append, List.mem_singleton]
      refine ⟨?_, ?_, ?_, ?_, ?_⟩
      · split_ifs <;> omega
      · split_ifs <;> omega
      · rintro q (hq | rfl)
        · have := hall q hq
          split_ifs <;> constructor <;> omega
        · split_ifs <;> constructor <;> omega
      · split_ifs with h
        · exact Or.inr ⟨p, Or.inr rfl, rfl⟩
        · exact hlo.imp id fun ⟨q, hq, e⟩ => ⟨q, Or.inl hq, e⟩
      · split_ifs with h
        · exact Or.inr ⟨p, Or.inr rfl, rfl⟩
        · exact hhi.imp id fun ⟨q, hq, e⟩ => ⟨q, Or.inl hq, e⟩
    · have hs : loads [p] = [] := by simp [loads, hp]
      simpa [hs, widen, hp] using ⟨hmin, hmax, hall, hlo, hhi⟩

end Bionic.SegmentRuns
