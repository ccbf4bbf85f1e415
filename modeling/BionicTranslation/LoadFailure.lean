import BionicTranslation.RoundTrip
import BionicTranslation.SoinfoLists

/-!
# Failures of the loading stage

`apkenv_load_library` takes a slot, then a region, then maps the segments, and each of its
failures gives back what was taken before it. The calls that take and release the region are
listed apart from the state that they lead to.
-/

set_option autoImplicit false

namespace Bionic.LoadFailure
open Bionic.Segments Bionic.Slots Bionic.Records Bionic.Linker Bionic.LinkFrame Bionic.RoundTrip
open Bionic.FindSound Bionic.SoinfoLists

inductive RegionCall where
  | mmap (base size : ℕ)
  | munmap (base size : ℕ)
  deriving DecidableEq, Repr

def RegionCall.act (mapped : ℕ → Bool) : RegionCall → ℕ → Bool
  | .mmap base size => fun a => decide (base ≤ a ∧ a < base + size) || mapped a
  | .munmap base size => fun a => !decide (base ≤ a ∧ a < base + size) && mapped a

def actAll (mapped : ℕ → Bool) (calls : List RegionCall) : ℕ → Bool :=
  calls.foldl RegionCall.act mapped

def allocCalls (w : World) (L : State) (si : So) : List RegionCall :=
  let s := L.info si
  match w.mmapRegion L s.base s.size with
  | none => []
  | some b =>
    if s.base ≠ 0 ∧ b ≠ s.base then [.mmap b s.size, .munmap b s.size] else [.mmap b s.size]

def prepare (L : State) (f : LibFile) (size : ℕ) (i : Slot) : State :=
  L.modify (.pool i) fun s =>
    { s with fullpath := f.path.take 127, base := f.prelink, size, dynamic := .missing }

/-- The calls of `loadFile`; `apkenv_load_segments` itself unmaps the region. -/
def loadFileCalls (w : World) (L : State) (f : LibFile) (size : ℕ) (i : Slot) :
    List RegionCall :=
  let L := prepare L f size i
  allocCalls w L (.pool i) ++
    match allocMemRegion w L (.pool i) with
    | .error _ => []
    | .ok L =>
      let s := L.info (.pool i)
      match loadSegments (w.mmapSegment L) s.base s.size f.phdrs with
      | .error _ => [.munmap s.base s.size]
      | .ok _ => []

def loadCalls (w : World) (L : State) (name : Name) : List RegionCall :=
  let file := w.openLibrary L.attempts name
  let L := { L with attempts := L.attempts + 1 }
  match file with
  | none => []
  | some f =>
    match fileExtents f with
    | none => []
    | some size =>
      match allocInfo L (basename name) with
      | none => []
      | some (L, i) => loadFileCalls w L f size i

def allocatable (L : State) : ℕ := L.pool.freelist.length + (soMax - L.pool.socount)

/-- No region was taken, or one was and has been released. -/
def Settled (calls : List RegionCall) : Prop :=
  calls = [] ∨ ∃ base size, calls = [.mmap base size, .munmap base size]

structure Undone (w : World) (L : State) (name : Name) (L' : State) : Prop where
  solist : L'.solist = L.solist
  sonext : sonext L' = sonext L
  listed : ∀ x ∈ L.solist, L'.info x = L.info x
  others : ∀ x y, L'.info x ≠ L.info x → L'.info y ≠ L.info y → x = y
  slots : allocatable L' = allocatable L
  settled : Settled (loadCalls w L name)
  mapped : L'.mapped = actAll L.mapped (loadCalls w L name)

variable {w : World} {L L' : State} {si : So}

theorem allocCalls_ok (h : allocMemRegion w L si = .ok L') : ∃ b,
    allocCalls w L si = [.mmap b (L.info si).size] ∧
      L' = (L.mmap b (L.info si).size).modify si fun s => { s with base := b } := by
  obtain ⟨b, hb, rfl⟩ := allocMemRegion_ok h
  refine ⟨b, ?_, rfl⟩
  rw [allocMemRegion, hb] at h
  rw [allocCalls, hb]
  simp only at h ⊢
  by_cases h0 : (L.info si).base = 0
  · rw [if_neg fun hc => hc.1 h0]
  · rw [if_pos h0] at h
    have hbase : b = (L.info si).base := by
      by_contra hne
      rw [if_neg hne] at h
      cases h
    rw [if_neg fun hc => hc.2 hbase]

theorem allocCalls_error (h : allocMemRegion w L si = .error L') :
    Settled (allocCalls w L si) ∧ L'.mapped = actAll L.mapped (allocCalls w L si) := by
  rw [allocMemRegion] at h
  rw [allocCalls]
  cases hm : w.mmapRegion L (L.info si).base (L.info si).size with
  | none =>
    simp only [hm] at h
    cases h
    exact ⟨Or.inl rfl, rfl⟩
  | some b =>
    simp only [hm] at h ⊢
    by_cases h0 : (L.info si).base = 0
    · rw [if_neg (not_not.mpr h0)] at h
      cases h
    · by_cases hb : b = (L.info si).base
      · rw [if_pos h0, if_pos hb] at h
        cases h
      · rw [if_pos h0, if_neg hb] at h
        cases h
        rw [if_pos ⟨h0, hb⟩]
        refine ⟨Or.inr ⟨b, _, rfl⟩, ?_⟩
        funext a
        simp only [actAll, List.foldl_cons, List.foldl_nil, RegionCall.act, State.munmap]
        cases decide (b ≤ a ∧ a < b + (L.info si).size) <;> simp

theorem loadFileCalls_failed {f : LibFile} {size : ℕ} {i : Slot}
    (h : loadFile w L f size i = (L', none)) :
    Settled (loadFileCalls w L f size i) ∧
      L'.mapped = actAll L.mapped (loadFileCalls w L f size i) := by
  have hprep : (prepare L f size i).mapped = L.mapped := rfl
  rw [loadFile] at h
  rw [loadFileCalls]
  change (match allocMemRegion w (prepare L f size i) (.pool i) with
    | .error L => (freeInfo L i, none)
    | .ok L => _) = _ at h
  cases hm : allocMemRegion w (prepare L f size i) (.pool i) with
  | error L1 =>
    obtain ⟨hs, hmap⟩ := allocCalls_error hm
    rw [hm] at h
    simp only at h
    cases h
    simp only [List.append_nil]
    exact ⟨hs, hprep ▸ hmap⟩
  | ok L1 =>
    obtain ⟨b, hcalls, hL1⟩ := allocCalls_ok hm
    rw [hm] at h
    simp only at h ⊢
    cases hl : loadSegments (w.mmapSegment L1) (L1.info (.pool i)).base (L1.info (.pool i)).size
        f.phdrs with
    | ok st =>
      simp only [hl] at h
      cases h
    | error e =>
      simp only [hl] at h
      cases h
      have hsize : (L1.info (.pool i)).size = ((prepare L f size i).info (.pool i)).size := by
        rw [hL1, modify_same, mmap_info]
      have hbase : (L1.info (.pool i)).base = b := by rw [hL1, modify_same]
      rw [hcalls, hbase, hsize]
      refine ⟨Or.inr ⟨b, _, rfl⟩, ?_⟩
      rw [hL1]
      rfl

theorem free_alloc_slots {name : Name} {i : Slot} {pool : Pool}
    (h : allocInfo L name = some (L', i)) (hp : pool = L'.pool.free i) :
    pool.freelist.length + (soMax - pool.socount) = allocatable L := by
  obtain ⟨hload, -, -⟩ := allocInfo_some h
  have hi : i ∈ L'.pool.loaded := hload ▸ List.mem_append_right _ List.mem_cons_self
  have hcount := pool_count L.pool
  have hcount' := pool_count L'.pool
  have hbound := L.pool.bound
  have hbound' := L'.pool.bound
  rw [hload, List.length_append, List.length_singleton] at hcount'
  rw [hp, free_freelist hi, free_socount, List.length_cons, allocatable]
  omega

/-- In every state, for every name and every failure of the loading stage. -/
theorem failed_load_undone {name : Name} {host : Option ℕ}
    (h : loadLibrary w L name = (L', none, host)) : Undone w L name L' := by
  have ha := loadLibrary_none h
  have hsolist := ha.solist
  have hkept : ∀ i, (∀ x, x ≠ .pool i → L'.info x = L.info x) →
      ∀ x y, L'.info x ≠ L.info x → L'.info y ≠ L.info y → x = y := by
    intro i hi x y hx hy
    rw [not_not.mp (mt (hi x) hx), not_not.mp (mt (hi y) hy)]
  suffices hrest : (∀ x y, L'.info x ≠ L.info x → L'.info y ≠ L.info y → x = y) ∧
      allocatable L' = allocatable L ∧ Settled (loadCalls w L name) ∧
      L'.mapped = actAll L.mapped (loadCalls w L name) from
    ⟨hsolist, congrArg List.getLast? hsolist, ha.info, hrest.1, hrest.2.1, hrest.2.2.1,
      hrest.2.2.2⟩
  rw [loadLibrary] at h
  rw [loadCalls]
  cases hf : w.openLibrary L.attempts name with
  | none =>
    simp only [hf] at h ⊢
    cases h
    exact ⟨fun x _ hx => absurd rfl hx, rfl, Or.inl rfl, rfl⟩
  | some f =>
    cases hs : fileExtents f with
    | none =>
      simp only [hf, hs] at h ⊢
      cases h
      exact ⟨fun x _ hx => absurd rfl hx, rfl, Or.inl rfl, rfl⟩
    | some size =>
      cases hal : allocInfo { L with attempts := L.attempts + 1 } (basename name) with
      | none =>
        simp only [hf, hs, hal] at h ⊢
        cases h
        exact ⟨fun x _ hx => absurd rfl hx, rfl, Or.inl rfl, rfl⟩
      | some p =>
        obtain ⟨L1, i⟩ := p
        obtain ⟨-, -, hL1⟩ := allocInfo_some hal
        have hmap1 : L1.mapped = L.mapped := by
          rw [hL1]
          rfl
        cases hr : loadFile w L1 f size i with
        | mk L2 r =>
          simp only [hf, hs, hal, hr] at h ⊢
          cases h
          obtain ⟨hset, hmap⟩ := loadFileCalls_failed hr
          rcases loadFile_cases hr with ⟨-, hp, hi, -, -, -⟩ | ⟨hn, -⟩
          · have hslots := free_alloc_slots (L := { L with attempts := L.attempts + 1 }) hal hp
            refine ⟨hkept i fun x hx => ?_, hslots, hset, hmap1 ▸ hmap⟩
            rw [hi x hx, hL1, set_other _ _ hx]
          · cases hn

def crampedWorld : World := { relWorld with mmapSegment := fun _ _ => false }

theorem cramped_load_undone :
    loadCalls crampedWorld initial ['p'] = [.mmap 0x20000 0x1000, .munmap 0x20000 0x1000] ∧
      Undone crampedWorld initial ['p'] (loadLibrary crampedWorld initial ['p']).1 := by
  have h : (loadLibrary crampedWorld initial ['p']).2.1 = none := by decide +kernel
  have hload : loadLibrary crampedWorld initial ['p'] =
      ((loadLibrary crampedWorld initial ['p']).1, none,
        (loadLibrary crampedWorld initial ['p']).2.2) := by rw [← h]
  exact ⟨by decide +kernel, failed_load_undone hload⟩

end Bionic.LoadFailure
