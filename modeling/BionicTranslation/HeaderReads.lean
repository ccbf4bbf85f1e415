import BionicTranslation.Buffers
import BionicTranslation.Linker
import BionicTranslation.SegmentRuns

/-!
# The reads of the headers

`apkenv_load_library` reads a file into a buffer of the file's length and takes the ELF header
and the program headers from there. Places are kept relative to the buffer and wrap around with
the address space. The reads are those of the debug output too, which prints every field of a
PT_LOAD or PT_DYNAMIC header and the two addresses of a PT_GNU_RELRO header.
-/

set_option autoImplicit false

namespace Bionic.HeaderReads
open Bionic.Segments Bionic.SegmentRuns Bionic.Buffers Bionic.Records

/-- A file; its length is an `off_t`. -/
structure File where
  bytes : Buffer
  length_lt : bytes.length < 0x8000000000000000 := by decide

structure Env where
  /-- The bytes that `read` gave, unless a call failed up to there. -/
  cnt : Option ℕ
  /-- The trailer of the file could be read. -/
  trailer : Bool
  /-- `apkenv_alloc_info` gave a slot. -/
  slot : Bool
  mmapRegion : ℕ → ℕ → Option ℕ
  mmap : MemCall → Bool

def File.buffer (f : File) (cnt : ℕ) : Buffer :=
  f.bytes.take cnt ++ List.replicate (f.bytes.length - cnt) 0

def prelinkTag : Buffer := [0x50, 0x52, 0x45, 0x20]

/-- `apkenv_is_prelinked`, which reads the last 16 bytes of the file and not the buffer. -/
def isPrelinked (env : Env) (f : File) : ℕ :=
  let start := f.bytes.length - 16
  if env.trailer ∧ 16 ≤ f.bytes.length ∧ (f.bytes.drop (start + 8)).take 4 = prelinkTag then
    field f.bytes start 8
  else 0

def elfmag : List ℕ := [0x7f, 0x45, 0x4c, 0x46]

def checkIdent (b : Buffer) (i : ℕ) : Except Stop Unit := do
  let c ← read b i 1
  accept (c = elfmag[i]!)

def verifyElfObject (b : Buffer) : Except Stop Unit := do
  checkIdent b 0
  checkIdent b 1
  checkIdent b 2
  checkIdent b 3

def within (off k : ℕ) : ℕ := (off + k) % 0x10000000000000000

def pType (n : ℕ) : PType :=
  if n = 1 then .load
  else if n = 2 then .dynamic
  else if n = 0x6474e552 then .gnuRelro
  else .other n

def pFlags (n : ℕ) : PFlags := ⟨n.testBit 2, n.testBit 1, n.testBit 0⟩

def phdrAt (b : Buffer) (off : ℕ) : Phdr where
  p_type := pType (field b (within off 0) 4)
  p_flags := pFlags (field b (within off 4) 4)
  p_offset := field b (within off 8) 8
  p_vaddr := field b (within off 16) 8
  p_filesz := field b (within off 32) 8
  p_memsz := field b (within off 40) 8
  offset_lt := field_lt _ _ _
  vaddr_lt := field_lt _ _ _
  filesz_lt := field_lt _ _ _
  memsz_lt := field_lt _ _ _

def phoff (b : Buffer) : ℕ := field b 32 8

def phnum (b : Buffer) : ℕ := field b 56 2

def place (off i : ℕ) : ℕ := (off + 56 * i) % 0x10000000000000000

def table (b : Buffer) (off n : ℕ) : List Phdr :=
  (List.range n).map fun i => phdrAt b (place off i)

def phdrs (b : Buffer) : List Phdr := table b (phoff b) (phnum b)

/-- The loop of `apkenv_get_lib_extents` over the headers from `off` on; the number of headers
is the same whenever it is read. -/
def extentsLoop (b : Buffer) : ℕ → ℕ → ℕ × ℕ → Except Stop (ℕ × ℕ)
  | 0, _, r => pure r
  | n + 1, off, r => do
    let t ← read b (within off 0) 4
    if t = 1 then do
      let v ← read b (within off 16) 8
      let m ← read b (within off 40) 8
      let high := (v + m) % 0x10000000000000000
      extentsLoop b n (within off 56) (if v < r.1 then v else r.1, if high > r.2 then high else r.2)
    else extentsLoop b n (within off 56) r

def totalSize (r : ℕ × ℕ) : Option ℕ :=
  if r.1 = 0xffffffff ∧ r.2 = 0 then none else
    let minVaddr := Paging.pageDown r.1
    let maxVaddr := Paging.pageDown ((r.2 + 4095) % 0x10000000000000000)
    some ((maxVaddr + 0x10000000000000000 - minVaddr) % 0x10000000000000000)

def getLibExtents (env : Env) (f : File) (b : Buffer) : Except Stop (ℕ × ℕ) := do
  verifyElfObject b
  accept (isPrelinked env f ≠ 0xffffffffffffffff)
  let off ← read b 32 8
  let n ← read b 56 2
  let r ← extentsLoop b n off (0xffffffff, 0)
  let size ← demand (totalSize r)
  pure (isPrelinked env f, size)

/-- `apkenv_alloc_mem_region`: a base that was asked for has to be given. -/
def allocMemRegion (env : Env) (base size : ℕ) : Option ℕ :=
  (env.mmapRegion base size).filter fun a => base = 0 ∨ a = base

def fieldsRead : PType → List (ℕ × ℕ)
  | .load | .dynamic => [(8, 8), (16, 8), (24, 8), (32, 8), (40, 8), (4, 4), (48, 8)]
  | .gnuRelro => [(16, 8), (40, 8)]
  | .other _ => []

def loadLoop (mmap : MemCall → Bool) (base size : ℕ) (b : Buffer) :
    ℕ → ℕ → Loading → Except Stop Loading
  | 0, _, st => pure st
  | n + 1, off, st => do
    let t ← read b (within off 0) 4
    readAll b ((fieldsRead (pType t)).map fun f => (within off f.1, f.2))
    let st ← demand (loadSegment mmap base size st (phdrAt b off)).toOption
    loadLoop mmap base size b n (within off 56) st

def loadSegments (env : Env) (base size : ℕ) (b : Buffer) : Except Stop Loading := do
  let off ← read b 32 8
  let n ← read b 56 2
  let st ← loadLoop env.mmap base size b n off loadStart
  accept (st.total_sz ≤ size)
  pure st

def loadLibrary (env : Env) (f : File) : Except Stop Loading := do
  let cnt ← demand env.cnt
  let r ← getLibExtents env f (f.buffer cnt)
  accept env.slot
  let base ← demand (allocMemRegion env r.1 r.2)
  loadSegments env base r.2 (f.buffer cnt)

def Ident (b : Buffer) (n : ℕ) : Prop := ∀ i < n, field b i 1 = elfmag[i]!

def Accepted (env : Env) (f : File) (b : Buffer) : Prop :=
  Ident b 4 ∧ isPrelinked env f ≠ 0xffffffffffffffff

def extentsNeed : PType → ℕ
  | .load => 48
  | _ => 4

def loadNeed : PType → ℕ
  | .load | .dynamic => 56
  | .gnuRelro => 48
  | .other _ => 4

/-- The size that the headers ask for: from the page of the lowest address, which is looked for
from 0xffffffff down, up to the page of the highest end. -/
def Reserves (ps : List Phdr) (size : ℕ) : Prop :=
  ∃ low high, IsLeast (insert 0xffffffff {a | ∃ p ∈ loads ps, a = p.p_vaddr}) low ∧
    IsGreatest (insert 0 {a | ∃ p ∈ loads ps, a = vaddrEnd p}) high ∧
    ¬ (low = 0xffffffff ∧ high = 0) ∧ size < 0x10000000000000000 ∧
    (size + Paging.pageDown low) % 0x10000000000000000 =
      Paging.pageUp high % 0x10000000000000000

/-- The headers of the table at `off` that the loader comes to are inside the buffer. -/
def LoadInside (mmap : MemCall → Bool) (base size : ℕ) (b : Buffer) (off n : ℕ) : Prop :=
  ∀ i < n, (∀ j < i, Passes mmap base size (phdrAt b (place off j))) →
    place off i + loadNeed (phdrAt b (place off i)).p_type ≤ b.length

def ExtentsInside (b : Buffer) (off n : ℕ) : Prop :=
  ∀ i < n, place off i + extentsNeed (phdrAt b (place off i)).p_type ≤ b.length

structure Inside (env : Env) (f : File) (b : Buffer) : Prop where
  ident : ∀ i < 4, Ident b i → i < b.length
  header : Accepted env f b → 58 ≤ b.length
  extents : Accepted env f b → ExtentsInside b (phoff b) (phnum b)
  loading : Accepted env f b → ∀ size, Reserves (phdrs b) size → env.slot → ∀ base,
    allocMemRegion env (isPrelinked env f) size = some base →
      LoadInside env.mmap base size b (phoff b) (phnum b)

variable {env : Env} {f : File} {b : Buffer} {off n : ℕ}

theorem buffer_length (f : File) (cnt : ℕ) : (f.buffer cnt).length = f.bytes.length := by
  rw [File.buffer, List.length_append, List.length_take, List.length_replicate]
  omega

theorem ident_succ : Ident b (n + 1) ↔ Ident b n ∧ field b n 1 = elfmag[n]! :=
  Nat.forall_lt_succ_right

theorem ident_step (Y : Prop) :
    (∀ i < n, Ident b i → i < b.length) ∧
        (Ident b n → n + 1 ≤ b.length ∧ (field b n 1 = elfmag[n]! → Y)) ↔
      (∀ i < n + 1, Ident b i → i < b.length) ∧ (Ident b (n + 1) → Y) := by
  rw [Nat.forall_lt_succ_right, ident_succ]
  constructor
  · rintro ⟨hall, h⟩
    exact ⟨⟨hall, fun hi => (h hi).1⟩, fun hi => (h hi.1).2 hi.2⟩
  · rintro ⟨⟨hall, hn⟩, h⟩
    exact ⟨hall, fun hi => ⟨hn hi, fun he => h ⟨hi, he⟩⟩⟩

theorem meets_checkIdent (i : ℕ) (Q : Unit → Prop) :
    Meets (checkIdent b i) Q ↔ i + 1 ≤ b.length ∧ (field b i 1 = elfmag[i]! → Q ()) := by
  rw [checkIdent, meets_bind, meets_read, meets_accept]

theorem meets_verifyElfObject (Q : Unit → Prop) : Meets (verifyElfObject b) Q ↔
    (∀ i < 4, Ident b i → i < b.length) ∧ (Ident b 4 → Q ()) := by
  rw [← ident_step, ← ident_step, ← ident_step, ← ident_step]
  simp only [verifyElfObject, meets_bind, meets_checkIdent]
  simp [Ident]

theorem place_zero (h : off < 0x10000000000000000) : place off 0 = off := Nat.mod_eq_of_lt h

theorem place_within (off i : ℕ) : place (within off 56) i = place off (i + 1) := by
  simp only [place, within]
  omega

theorem within_lt (off k : ℕ) : within off k < 0x10000000000000000 := Nat.mod_lt _ (by decide)

theorem table_succ (h : off < 0x10000000000000000) :
    table b off (n + 1) = phdrAt b off :: table b (within off 56) n := by
  rw [table, List.range_succ_eq_map, List.map_cons, List.map_map, place_zero h, table]
  have hrest (i : ℕ) : phdrAt b (place off i.succ) = phdrAt b (place (within off 56) i) := by
    rw [place_within]
  exact congrArg _ (List.map_congr_left fun i _ => hrest i)

theorem pType_load_iff (n : ℕ) : pType n = .load ↔ n = 1 := by
  unfold pType
  split_ifs <;> simp_all

theorem ExtentsInside.succ_iff (h : off < 0x10000000000000000) :
    ExtentsInside b off (n + 1) ↔ off + extentsNeed (phdrAt b off).p_type ≤ b.length ∧
      ExtentsInside b (within off 56) n := by
  simp only [ExtentsInside, Nat.forall_lt_succ_left, place_zero h, place_within]

theorem meets_extentsLoop (hb : b.length < 0x8000000000000000) (h : off < 0x10000000000000000)
    (r : ℕ × ℕ) (Q : ℕ × ℕ → Prop) : Meets (extentsLoop b n off r) Q ↔
      ExtentsInside b off n ∧ Q ((table b off n).foldl widen r) := by
  induction n generalizing off r with
  | zero => simp [extentsLoop, ExtentsInside, table]
  | succ n ih =>
    rw [extentsLoop, meets_bind, meets_read, ExtentsInside.succ_iff h, table_succ h,
      List.foldl_cons]
    by_cases ht : field b (within off 0) 4 = 1
    · have hp : (phdrAt b off).p_type = .load := (pType_load_iff _).mpr ht
      have hin : off + 48 ≤ b.length ↔ within off 0 + 4 ≤ b.length ∧
          within off 16 + 8 ≤ b.length ∧ within off 40 + 8 ≤ b.length := by
        unfold within
        omega
      have hw : widen r (phdrAt b off) = _ := if_pos hp
      rw [if_pos ht, hp, extentsNeed, hin, hw]
      simp only [meets_bind, meets_read, ih (within_lt off 56), and_assoc]
      rfl
    · have hp : (phdrAt b off).p_type ≠ .load := fun h => ht ((pType_load_iff _).mp h)
      have hneed : extentsNeed (phdrAt b off).p_type = 4 := by
        cases hc : (phdrAt b off).p_type <;> simp_all [extentsNeed]
      have hw : widen r (phdrAt b off) = r := if_neg hp
      have hzero : within off 0 = off := Nat.mod_eq_of_lt h
      rw [if_neg ht, hneed, hw, hzero, ih (within_lt off 56), and_assoc]

theorem totalSize_iff (ps : List Phdr) (size : ℕ) :
    totalSize (vaddrRange ps) = some size ↔ Reserves ps size := by
  obtain ⟨hmax, hlt, hall, hlo, hhi⟩ := vaddrRange_bounds ps
  have hleast : IsLeast (insert 0xffffffff {a | ∃ p ∈ loads ps, a = p.p_vaddr})
      (vaddrRange ps).1 := by
    refine ⟨hlo, ?_⟩
    rintro a (rfl | ⟨p, hp, rfl⟩)
    · exact hmax
    · exact (hall p hp).1
  have hgreatest : IsGreatest (insert 0 {a | ∃ p ∈ loads ps, a = vaddrEnd p})
      (vaddrRange ps).2 := by
    refine ⟨hhi, ?_⟩
    rintro a (rfl | ⟨p, hp, rfl⟩)
    · exact Nat.zero_le _
    · exact (hall p hp).2
  have hdown : Paging.pageDown (vaddrRange ps).1 ≤ 0xffffffff :=
    (Paging.pageDown_le _).trans hmax
  constructor
  · intro h
    refine ⟨_, _, hleast, hgreatest, ?_⟩
    rw [totalSize] at h
    split_ifs at h with hc
    refine ⟨hc, ?_⟩
    rw [Option.some.injEq] at h
    unfold Paging.pageUp
    unfold Paging.pageDown at h hdown ⊢
    omega
  · rintro ⟨low, high, hl, hg, hne, hs, ht⟩
    rw [hl.unique hleast, hg.unique hgreatest] at hne
    rw [hl.unique hleast, hg.unique hgreatest] at ht
    rw [totalSize, if_neg hne, Option.some.injEq]
    unfold Paging.pageUp at ht
    unfold Paging.pageDown at ht hdown ⊢
    omega

theorem phoff_lt (b : Buffer) : phoff b < 0x10000000000000000 := field_lt b 32 8

theorem meets_getLibExtents (hb : b.length < 0x8000000000000000) (Q : ℕ × ℕ → Prop) :
    Meets (getLibExtents env f b) Q ↔ (∀ i < 4, Ident b i → i < b.length) ∧
      (Accepted env f b → 58 ≤ b.length ∧ ExtentsInside b (phoff b) (phnum b) ∧
        ∀ size, Reserves (phdrs b) size → Q (isPrelinked env f, size)) := by
  have hloop : ∀ r Q, Meets (extentsLoop b (field b 56 2) (field b 32 8) r) Q ↔
      ExtentsInside b (phoff b) (phnum b) ∧ Q ((phdrs b).foldl widen r) :=
    meets_extentsLoop hb (phoff_lt b)
  simp only [getLibExtents, meets_bind, meets_verifyElfObject, meets_accept, meets_read,
    meets_demand, meets_pure, hloop]
  have hranges : ∀ size, totalSize ((phdrs b).foldl widen (0xffffffff, 0)) = some size ↔
      Reserves (phdrs b) size := totalSize_iff (phdrs b)
  refine and_congr_right fun _ => ?_
  rw [Accepted, and_imp]
  refine imp_congr_right fun _ => imp_congr_right fun _ => ?_
  constructor
  · rintro ⟨-, hlen, hext, hQ⟩
    exact ⟨hlen, hext, fun size hs => hQ size ((hranges size).mpr hs)⟩
  · rintro ⟨hlen, hext, hQ⟩
    exact ⟨by omega, hlen, hext, fun size hs => hQ size ((hranges size).mp hs)⟩

theorem LoadInside.succ_iff {mmap : MemCall → Bool} {base size : ℕ}
    (h : off < 0x10000000000000000) : LoadInside mmap base size b off (n + 1) ↔
      off + loadNeed (phdrAt b off).p_type ≤ b.length ∧
        (Passes mmap base size (phdrAt b off) →
          LoadInside mmap base size b (within off 56) n) := by
  simp only [LoadInside, Nat.forall_lt_succ_left, place_zero h, place_within, Nat.not_lt_zero,
    false_imp_iff, implies_true, true_imp_iff, and_imp]
  refine and_congr_right fun _ => ?_
  exact ⟨fun hall hp i hi hj => hall i hi hp hj, fun hall i hi hp hj => hall hp i hi hj⟩

theorem fields_inside_iff (hb : b.length < 0x8000000000000000) (h : off < 0x10000000000000000)
    (t : PType) : (within off 0 + 4 ≤ b.length ∧
      ∀ x ∈ (fieldsRead t).map fun x => (within off x.1, x.2), x.1 + x.2 ≤ b.length) ↔
        off + loadNeed t ≤ b.length := by
  cases t <;> simp [fieldsRead, loadNeed, within] <;> omega

theorem toOption_loadSegment_iff (mmap : MemCall → Bool) (base size : ℕ) (st st' : Loading)
    (p : Phdr) : (loadSegment mmap base size st p).toOption = some st' ↔
      Passes mmap base size p ∧ st' = advance base st p := by
  rw [← loadSegment_ok_iff]
  cases loadSegment mmap base size st p <;> simp [Except.toOption]

theorem meets_loadLoop {mmap : MemCall → Bool} {base size : ℕ}
    (hb : b.length < 0x8000000000000000) (h : off < 0x10000000000000000) (st : Loading)
    (Q : Loading → Prop) : Meets (loadLoop mmap base size b n off st) Q ↔
      LoadInside mmap base size b off n ∧ ((∀ p ∈ table b off n, Passes mmap base size p) →
        Q ((table b off n).foldl (advance base) st)) := by
  induction n generalizing off st with
  | zero => simp [loadLoop, LoadInside, table]
  | succ n ih =>
    simp only [loadLoop, meets_bind, meets_read, meets_readAll, meets_demand,
      ih (within_lt off 56), toOption_loadSegment_iff]
    rw [← and_assoc]
    rw [LoadInside.succ_iff h, table_succ h, List.forall_mem_cons, List.foldl_cons,
      ← fields_inside_iff hb h]
    refine (and_congr_right fun _ => ?_).trans and_assoc.symm
    constructor
    · intro hall
      exact ⟨fun hp => (hall _ ⟨hp, rfl⟩).1, fun hp => (hall _ ⟨hp.1, rfl⟩).2 hp.2⟩
    · rintro ⟨hin, hQ⟩ _ ⟨hp, rfl⟩
      exact ⟨hin hp, fun hrest => hQ ⟨hp, hrest⟩⟩

theorem meets_loadSegments {base size : ℕ} (hb : b.length < 0x8000000000000000)
    (Q : Loading → Prop) : Meets (loadSegments env base size b) Q ↔
      58 ≤ b.length ∧ LoadInside env.mmap base size b (phoff b) (phnum b) ∧
        ((∀ p ∈ phdrs b, Passes env.mmap base size p) →
          ((phdrs b).foldl (advance base) loadStart).total_sz ≤ size →
            Q ((phdrs b).foldl (advance base) loadStart)) := by
  have hloop : ∀ st Q, Meets (loadLoop env.mmap base size b (field b 56 2) (field b 32 8) st) Q ↔
      LoadInside env.mmap base size b (phoff b) (phnum b) ∧
        ((∀ p ∈ phdrs b, Passes env.mmap base size p) → Q ((phdrs b).foldl (advance base) st)) :=
    meets_loadLoop hb (phoff_lt b)
  simp only [loadSegments, meets_bind, meets_read, meets_accept, meets_pure, hloop]
  rw [← and_assoc]
  refine and_congr_left fun _ => ?_
  omega

structure Decodes (env : Env) (f : File) (b : Buffer) (g : LibFile) : Prop where
  elf : g.elf = true ↔ Ident b 4
  prelink : g.prelink = isPrelinked env f
  phdrs : g.phdrs = phdrs b

theorem fileExtents_iff {g : LibFile} (hg : Decodes env f b g) (size : ℕ) :
    Linker.fileExtents g = some size ↔ Accepted env f b ∧ Reserves (phdrs b) size := by
  have hsize : Segments.getLibExtents g.phdrs = totalSize (vaddrRange (phdrs b)) := by
    rw [hg.phdrs]
    rfl
  rw [Linker.fileExtents, hsize, hg.prelink, Accepted, ← hg.elf, ← totalSize_iff]
  by_cases he : g.elf = true <;> by_cases hp : isPrelinked env f = 0xffffffffffffffff <;>
    simp [he, hp]

theorem getLibExtents_eq {g : LibFile} (hb : b.length < 0x8000000000000000)
    (hg : Decodes env f b g) (hs : Safe (getLibExtents env f b)) (x : ℕ × ℕ) :
    getLibExtents env f b = .ok x ↔ x.1 = g.prelink ∧ Linker.fileExtents g = some x.2 := by
  rw [hs.eq_ok_iff, meets_getLibExtents hb, fileExtents_iff hg, hg.prelink]
  have hin := (meets_getLibExtents hb fun _ => True).mp ((meets_true _).mpr hs)
  constructor
  · intro h
    by_contra hne
    refine h ⟨hin.1, fun ha => ⟨(hin.2 ha).1, (hin.2 ha).2.1, fun size hr hx => hne ?_⟩⟩
    rw [← hx]
    exact ⟨rfl, ha, hr⟩
  · rintro ⟨hx, ha, hr⟩ ⟨-, h⟩
    exact (h ha).2.2 x.2 hr (Prod.ext hx.symm rfl)

theorem loadSegments_eq {base size : ℕ} (hb : b.length < 0x8000000000000000)
    (hs : Safe (loadSegments env base size b)) (st : Loading) :
    loadSegments env base size b = .ok st ↔
      Segments.loadSegments env.mmap base size (phdrs b) = .ok st := by
  rw [hs.eq_ok_iff, meets_loadSegments hb, loadSegments_ok_iff]
  obtain ⟨hlen, hin, -⟩ := (meets_loadSegments hb fun _ => True).mp ((meets_true _).mpr hs)
  constructor
  · intro h
    by_contra hne
    exact h ⟨hlen, hin, fun hp hz hst => hne ⟨hp, hst.symm, hst ▸ hz⟩⟩
  · rintro ⟨hp, rfl, hz⟩ ⟨-, -, h⟩
    exact h hp hz rfl

/-- For every file and everything that the calls may give, the processing of the headers keeps
to the buffer just when the parts of the headers that it comes to are inside. -/
theorem header_reads_inside_iff (env : Env) (f : File) : Safe (loadLibrary env f) ↔
    ∀ cnt, env.cnt = some cnt → Inside env f (f.buffer cnt) := by
  rw [← meets_true]
  simp only [loadLibrary, meets_bind, meets_demand, meets_accept]
  refine forall_congr' fun cnt => imp_congr_right fun _ => ?_
  have hb : (f.buffer cnt).length < 0x8000000000000000 := by
    rw [buffer_length]
    exact f.length_lt
  simp only [meets_getLibExtents hb, meets_loadSegments hb, implies_true, and_true]
  constructor
  · rintro ⟨hident, h⟩
    exact ⟨hident, fun ha => (h ha).1, fun ha => (h ha).2.1,
      fun ha size hr hs base hbase => ((h ha).2.2 size hr hs base hbase).2⟩
  · rintro ⟨hident, hheader, hextents, hloading⟩
    exact ⟨hident, fun ha => ⟨hheader ha, hextents ha, fun size hr hs base hbase =>
      ⟨hheader ha, hloading ha size hr hs base hbase⟩⟩⟩

def calm (base : ℕ) (cnt : ℕ) : Env where
  cnt := some cnt
  trailer := true
  slot := true
  mmapRegion := fun _ _ => some base
  mmap := fun _ => true

def bytesOf : ℕ → ℕ → Buffer
  | 0, _ => []
  | n + 1, v => BitVec.ofNat 8 v :: bytesOf n (v / 256)

def oneSegment : File where
  bytes := bytesOf 4 0x464c457f ++ bytesOf 28 0 ++ bytesOf 8 64 ++ bytesOf 16 0 ++ bytesOf 2 1 ++
    bytesOf 6 0 ++ bytesOf 4 1 ++ bytesOf 4 5 ++ bytesOf 8 0 ++ bytesOf 8 0x1000 ++ bytesOf 8 0 ++
    bytesOf 8 120 ++ bytesOf 8 120 ++ bytesOf 8 0x1000

def magicOnly : File where
  bytes := bytesOf 4 0x464c457f

def empty : File where
  bytes := []

theorem one_segment_inside : Safe (loadLibrary (calm 0x7f0000000000 120) oneSegment) := by
  refine (header_reads_inside_iff _ _).mpr fun cnt hcnt => ?_
  obtain rfl : 120 = cnt := Option.some.inj hcnt
  have hlen : (oneSegment.buffer 120).length = 120 := buffer_length oneSegment 120
  have hnum : phnum (oneSegment.buffer 120) = 1 := by decide +kernel
  refine ⟨fun i hi _ => by omega, fun _ => by omega, fun _ i hi => ?_,
    fun _ _ _ _ _ _ i hi _ => ?_⟩
  · obtain rfl : i = 0 := by omega
    decide +kernel
  · obtain rfl : i = 0 := by omega
    decide +kernel

/-- The file is accepted as an ELF file and its header is read from behind the buffer; of the
empty file the first byte already is. -/
theorem short_files_left : ¬ Safe (loadLibrary (calm 0x7f0000000000 4) magicOnly) ∧
    ¬ Safe (loadLibrary (calm 0x7f0000000000 0) empty) :=
  ⟨fun h => h rfl, fun h => h rfl⟩

end Bionic.HeaderReads
