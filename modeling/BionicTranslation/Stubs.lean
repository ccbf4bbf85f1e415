import BionicTranslation.Records
import BionicTranslation.Traces

/-!
# Stubs for functions that are missing

A function whose name no library has is bound to a copy of `symbol_not_linked_stub` when
`LINKER_DIE_AT_RUNTIME` is set. The function and a variable next to it are a section of their
own, so that each copy has a variable of its own, through which it knows the name.
-/

set_option autoImplicit false

namespace Bionic.Stubs
open Bionic.Bytes Bionic.Elf Bionic.Traces

variable {c : ElfClass}

/-- The section of a copyable function: its ends, the function and the variable. -/
structure CopyableSection (c : ElfClass) where
  start : Addr c
  stop : Addr c
  func : Addr c
  adjData : Addr c
  inside : (adjData - start).toNat + c.wordsize ≤ (stop - start).toNat

namespace CopyableSection
variable (S : CopyableSection c)

def size : ℕ := (S.stop - S.start).toNat

def funcOff : Addr c := S.func - S.start

def adjVarOff : Addr c := S.adjData - S.start

def IsCode (i : ℕ) : Prop := i < S.size ∧ ¬ Within S.adjVarOff c.wordsize (BitVec.ofNat c.bits i)

instance (i : ℕ) : Decidable (S.IsCode i) := inferInstanceAs (Decidable (_ ∧ _))

theorem size_le : S.size ≤ 2 ^ c.bits := (S.stop - S.start).isLt.le

end CopyableSection

structure Libc (c : ElfClass) where
  printf : Addr c
  exit : Addr c

def memcpy (m : Mem c) (dest src : Addr c) (n : ℕ) : Mem c := fun a =>
  if Within dest n a then m (src + (a - dest)) else m a

def makeCopyOfFunction (S : CopyableSection c) (data region : Addr c) (m : Mem c) :
    Mem c × Addr c :=
  let m := memcpy m region S.start S.size
  (store m (region + S.adjVarOff) data, region + S.funcOff)

def fieldAt (data : Addr c) (i : ℕ) : Addr c := data + BitVec.ofNat c.bits (i * c.wordsize)

def fillAdjData (libc : Libc c) (symName data : Addr c) (m : Mem c) : Mem c :=
  let m := store m (fieldAt data 0) libc.printf
  let m := store m (fieldAt data 1) libc.exit
  store m (fieldAt data 2) symName

/-- What `malloc` and `mmap` return is given. Neither is checked before it is written through. -/
def prepareStubFunc (S : CopyableSection c) (libc : Libc c) (symName : Addr c)
    (data region : Option (Addr c)) (m : Mem c) : Option (Mem c × Addr c) :=
  data.bind fun data => region.map fun region =>
    makeCopyOfFunction S data region (fillAdjData libc symName data m)

def fmtStr : String := "ABORTING: LINKER_DIE_AT_RUNTIME was set, and someone called a function " ++
  "which we weren't able to link (symbol name: >%s<)\n"

/-- With its terminator it fills the array. -/
example : fmtStr.length + 1 = 122 := by decide +kernel

/-- What a stub does: it calls one function with the format and the name, and another one with
the status. -/
structure Called (c : ElfClass) where
  printf : Addr c
  format : String
  origFuncName : Addr c
  exit : Addr c
  status : ℕ
  deriving DecidableEq, Repr

def reports (libc : Libc c) (symName : Addr c) : Called c :=
  ⟨libc.printf, fmtStr, symName, libc.exit, 1⟩

/-- The call of a copy whose code is that of the function. The code finds the variable by its
distance. -/
def callStub (S : CopyableSection c) (code : ℕ → BitVec 8) (m : Mem c) (f : Addr c) :
    Option (Called c) :=
  let copy := f - S.funcOff
  if ∀ i < S.size, S.IsCode i → m (copy + BitVec.ofNat c.bits i) = code i then
    let data := load c.wordsize m (copy + S.adjVarOff)
    some ⟨load c.wordsize m (fieldAt data 0), fmtStr, load c.wordsize m (fieldAt data 2),
      load c.wordsize m (fieldAt data 1), 1⟩
  else none

structure Stub (c : ElfClass) where
  symName : Addr c
  data : Addr c
  region : Addr c
  func : Addr c

structure State (c : ElfClass) where
  memory : Mem c
  stubs : List (Stub c)

inductive Act (c : ElfClass) where
  | prepare (symName : Addr c) (data region : Option (Addr c))
  | write (a : Addr c) (x : BitVec 8)

def step (S : CopyableSection c) (libc : Libc c) (s : State c) : Act c → Option (State c)
  | .prepare symName (some data) (some region) =>
    (prepareStubFunc S libc symName (some data) (some region) s.memory).map fun r =>
      ⟨r.1, ⟨symName, data, region, r.2⟩ :: s.stubs⟩
  | .prepare _ _ _ => none
  | .write a x => some { s with memory := Function.update s.memory a x }

/-- A block of memory that belongs to the section or to a stub. -/
def Taken (S : CopyableSection c) (s : State c) (a : Addr c) : Prop :=
  Within S.start S.size a ∨ ∃ st ∈ s.stubs,
    Within st.data (3 * c.wordsize) a ∨ Within st.region S.size a

/-- What is allocated was free, and the program writes to nothing that is not its own. -/
def Allowed (S : CopyableSection c) (s : State c) : Act c → Prop
  | .prepare _ data region => ∀ d ∈ data, ∀ r ∈ region,
      (∀ a, Within d (3 * c.wordsize) a → ¬ Taken S s a) ∧
      (∀ a, Within r S.size a → ¬ Taken S s a) ∧ Apart d (3 * c.wordsize) r S.size
  | .write a _ => ¬ Taken S s a

section blocks
variable {w n k i : ℕ} {p q a off : BitVec w}

theorem within_field (h : off.toNat + k ≤ n) (hn : n ≤ 2 ^ w) (ha : Within (p + off) k a) :
    Within p n a := by
  have hsplit : a - p = a - (p + off) + off := by abel
  rw [Within] at ha ⊢
  rw [hsplit, BitVec.toNat_add, Nat.mod_eq_of_lt (by omega)]
  omega

theorem memcpy_at {m : Mem c} {dest src : Addr c} (hi : i < n) (hn : n ≤ 2 ^ c.bits) :
    memcpy m dest src n (dest + BitVec.ofNat c.bits i) = m (src + BitVec.ofNat c.bits i) := by
  have hsub : dest + BitVec.ofNat c.bits i - dest = BitVec.ofNat c.bits i := by abel
  rw [memcpy, if_pos (within_add hi hn), hsub]

end blocks

section data
variable {libc : Libc c} {symName data a : Addr c} {m m' : Mem c} {i j : ℕ}

theorem block_le (c : ElfClass) : 3 * c.wordsize ≤ 2 ^ c.bits := by
  cases c <;> decide

theorem place_toNat (c : ElfClass) (hi : i ≤ 2) :
    (BitVec.ofNat c.bits (i * c.wordsize)).toNat = i * c.wordsize := by
  have hblock := block_le c
  have hpos := wordsize_pos c
  rw [BitVec.toNat_ofNat, Nat.mod_eq_of_lt]
  nlinarith

theorem field_within (hi : i ≤ 2) (ha : Within (fieldAt data i) c.wordsize a) :
    Within data (3 * c.wordsize) a := by
  refine within_field ?_ (block_le c) ha
  rw [place_toNat c hi]
  nlinarith

theorem fields_apart (hij : i < j) (hj : j ≤ 2) :
    Apart (fieldAt data i) c.wordsize (fieldAt data j) c.wordsize := by
  have hsplit : j * c.wordsize = i * c.wordsize + (j - i) * c.wordsize := by
    rw [← Nat.add_mul, Nat.add_sub_cancel' hij.le]
  have hsub : fieldAt data j - fieldAt data i = BitVec.ofNat c.bits ((j - i) * c.wordsize) := by
    rw [fieldAt, fieldAt, hsplit, BitVec.ofNat_add]
    abel
  have hle : 1 * c.wordsize ≤ (j - i) * c.wordsize := Nat.mul_le_mul_right _ (by omega)
  have hle' : (j - i) * c.wordsize ≤ 2 * c.wordsize := Nat.mul_le_mul_right _ (by omega)
  have hblock := block_le c
  apply apart_of_le <;> rw [hsub, place_toNat c (by omega)]
  · omega
  · omega

theorem fillAdjData_other (h : ¬ Within data (3 * c.wordsize) a) :
    fillAdjData libc symName data m a = m a := by
  have hfield (i : ℕ) (hi : i ≤ 2) : ¬ Within (fieldAt data i) c.wordsize a :=
    mt (field_within hi) h
  rw [fillAdjData, store_other (hfield 2 (by decide)), store_other (hfield 1 (by decide)),
    store_other (hfield 0 (by decide))]

structure Filled (libc : Libc c) (symName data : Addr c) (m : Mem c) : Prop where
  printf : load c.wordsize m (fieldAt data 0) = libc.printf
  exit : load c.wordsize m (fieldAt data 1) = libc.exit
  origFuncName : load c.wordsize m (fieldAt data 2) = symName

theorem filled_fillAdjData (libc : Libc c) (symName data : Addr c) (m : Mem c) :
    Filled libc symName data (fillAdjData libc symName data m) := by
  have hle := wordsize_le c
  have h01 : Apart (fieldAt data 1) c.wordsize (fieldAt data 0) c.wordsize :=
    (fields_apart (by decide) (by decide)).symm
  have h02 : Apart (fieldAt data 2) c.wordsize (fieldAt data 0) c.wordsize :=
    (fields_apart (by decide) (by decide)).symm
  have h12 : Apart (fieldAt data 2) c.wordsize (fieldAt data 1) c.wordsize :=
    (fields_apart (by decide) (by decide)).symm
  constructor
  · rw [fillAdjData, load_store_apart hle h02, load_store_apart hle h01, load_store hle]
  · rw [fillAdjData, load_store_apart hle h12, load_store hle]
  · rw [fillAdjData, load_store hle]

theorem Filled.congr (h : Filled libc symName data m)
    (hm : ∀ a, Within data (3 * c.wordsize) a → m' a = m a) : Filled libc symName data m' := by
  have hfield (i : ℕ) (hi : i ≤ 2) :
      load c.wordsize m' (fieldAt data i) = load c.wordsize m (fieldAt data i) :=
    load_congr (wordsize_le c) fun a ha => hm a (field_within hi ha)
  exact ⟨(hfield 0 (by decide)).trans h.printf, (hfield 1 (by decide)).trans h.exit,
    (hfield 2 (by decide)).trans h.origFuncName⟩

end data

section copies
variable {S : CopyableSection c} {libc : Libc c} {code : ℕ → BitVec 8} {m m' : Mem c}
  {data region symName a : Addr c} {st : Stub c} {i : ℕ}

theorem adj_within (ha : Within (region + S.adjVarOff) c.wordsize a) : Within region S.size a :=
  within_field S.inside S.size_le ha

def CodeAt (S : CopyableSection c) (code : ℕ → BitVec 8) (m : Mem c) (p : Addr c) : Prop :=
  ∀ i, S.IsCode i → m (p + BitVec.ofNat c.bits i) = code i

theorem CodeAt.congr {p : Addr c} (h : CodeAt S code m p)
    (hm : ∀ a, Within p S.size a → m' a = m a) : CodeAt S code m' p := fun i hi =>
  (hm _ (within_add hi.1 S.size_le)).trans (h i hi)

theorem makeCopy_other (h : ¬ Within region S.size a) :
    (makeCopyOfFunction S data region m).1 a = m a := by
  have hmemcpy : memcpy m region S.start S.size a = m a := if_neg h
  exact (store_other (mt adj_within h)).trans hmemcpy

theorem makeCopy_code (h : CodeAt S code m S.start) :
    CodeAt S code (makeCopyOfFunction S data region m).1 region := by
  intro i hi
  have hbeside : ¬ Within (region + S.adjVarOff) c.wordsize (region + BitVec.ofNat c.bits i) := by
    have hsub : region + BitVec.ofNat c.bits i - (region + S.adjVarOff) =
        BitVec.ofNat c.bits i - S.adjVarOff := by abel
    rw [Within, hsub]
    exact hi.2
  exact (store_other hbeside).trans ((memcpy_at hi.1 S.size_le).trans (h i hi))

theorem makeCopy_variable : load c.wordsize (makeCopyOfFunction S data region m).1
    (region + S.adjVarOff) = data := load_store (wordsize_le c)

structure Intact (S : CopyableSection c) (libc : Libc c) (code : ℕ → BitVec 8) (m : Mem c)
    (st : Stub c) : Prop where
  func : st.func = st.region + S.funcOff
  code : CodeAt S code m st.region
  adjVar : load c.wordsize m (st.region + S.adjVarOff) = st.data
  filled : Filled libc st.symName st.data m

theorem Intact.congr (h : Intact S libc code m st)
    (hdata : ∀ a, Within st.data (3 * c.wordsize) a → m' a = m a)
    (hregion : ∀ a, Within st.region S.size a → m' a = m a) : Intact S libc code m' st where
  func := h.func
  code := h.code.congr hregion
  adjVar := (load_congr (wordsize_le c) fun a ha => hregion a (adj_within ha)).trans h.adjVar
  filled := h.filled.congr hdata

theorem Intact.call (h : Intact S libc code m st) :
    callStub S code m st.func = some (reports libc st.symName) := by
  have hcopy : st.func - S.funcOff = st.region := by
    rw [h.func]
    abel
  rw [callStub, hcopy, if_pos fun i _ hi => h.code i hi, h.adjVar]
  simp only [h.filled.printf, h.filled.origFuncName, h.filled.exit, reports]

end copies

section runs
variable {S : CopyableSection c} {libc : Libc c} {code : ℕ → BitVec 8} {m m' : Mem c}
  {s t : State c} {data region symName a : Addr c}

/-- The function is unchanged, each stub is as it was prepared, and no two are the same copy. -/
structure Sound (S : CopyableSection c) (libc : Libc c) (code : ℕ → BitVec 8) (s : State c) :
    Prop where
  original : CodeAt S code s.memory S.start
  intact : ∀ st ∈ s.stubs, Intact S libc code s.memory st
  apart : s.stubs.Pairwise fun x y => x.region ≠ y.region

theorem Sound.congr (h : Sound S libc code s) (hm : ∀ a, Taken S s a → m' a = s.memory a) :
    CodeAt S code m' S.start ∧ ∀ st ∈ s.stubs, Intact S libc code m' st := by
  constructor
  · exact h.original.congr fun a ha => hm a (Or.inl ha)
  · intro st hst
    apply (h.intact st hst).congr
    · exact fun a ha => hm a (Or.inr ⟨st, hst, Or.inl ha⟩)
    · exact fun a ha => hm a (Or.inr ⟨st, hst, Or.inr ha⟩)

theorem size_pos (S : CopyableSection c) : 0 < S.size :=
  (wordsize_pos c).trans_le ((Nat.le_add_left _ _).trans S.inside)

theorem start_within {p : Addr c} {n : ℕ} (hn : 0 < n) : Within p n p := by
  rw [Within, BitVec.sub_self]
  exact hn

theorem Sound.prepare (h : Sound S libc code s)
    (hallowed : Allowed S s (.prepare symName (some data) (some region))) :
    Sound S libc code
      ⟨(makeCopyOfFunction S data region (fillAdjData libc symName data s.memory)).1,
        ⟨symName, data, region, region + S.funcOff⟩ :: s.stubs⟩ := by
  obtain ⟨hdata, hregion, hdistinct⟩ := hallowed data rfl region rfl
  have hfilled (a : Addr c) (ha : Taken S s a) :
      fillAdjData libc symName data s.memory a = s.memory a :=
    fillAdjData_other fun hd => hdata a hd ha
  have hold (a : Addr c) (ha : Taken S s a) :
      (makeCopyOfFunction S data region (fillAdjData libc symName data s.memory)).1 a =
        s.memory a :=
    (makeCopy_other fun hr => hregion a hr ha).trans (hfilled a ha)
  obtain ⟨hcode, hintact⟩ := h.congr hold
  have hnew : Intact S libc code
      (makeCopyOfFunction S data region (fillAdjData libc symName data s.memory)).1
      ⟨symName, data, region, region + S.funcOff⟩ := by
    refine ⟨rfl, makeCopy_code (h.congr hfilled).1, makeCopy_variable, ?_⟩
    apply (filled_fillAdjData libc symName data s.memory).congr
    exact fun a ha => makeCopy_other (hdistinct a ha)
  refine ⟨hcode, ?_, ?_⟩
  · rw [List.forall_mem_cons]
    exact ⟨hnew, hintact⟩
  · rw [List.pairwise_cons]
    refine ⟨fun st hst he => ?_, h.apart⟩
    have hwithin : Within region S.size region := start_within (size_pos S)
    refine hregion region hwithin (Or.inr ⟨st, hst, Or.inr ?_⟩)
    change region = st.region at he
    rwa [← he]

theorem Sound.step {act : Act c} (h : Sound S libc code s) (hallowed : Allowed S s act)
    (hs : step S libc s act = some t) : Sound S libc code t := by
  cases act with
  | prepare symName data region =>
    cases data with
    | none => cases hs
    | some data =>
      cases region with
      | none => cases hs
      | some region =>
        cases hs
        exact h.prepare hallowed
  | write a x =>
    cases hs
    have hother (b : Addr c) (hb : Taken S s b) :
        Function.update s.memory a x b = s.memory b := by
      apply Function.update_of_ne
      rintro rfl
      exact hallowed hb
    obtain ⟨hcode, hintact⟩ := h.congr hother
    exact ⟨hcode, hintact, h.apart⟩

end runs

section two

theorem allowed_of_apart {S : CopyableSection c} {s : State c} {symName d r : Addr c}
    (hd : Apart d (3 * c.wordsize) S.start S.size) (hr : Apart r S.size S.start S.size)
    (hdr : Apart d (3 * c.wordsize) r S.size)
    (hstubs : ∀ st ∈ s.stubs,
      (Apart d (3 * c.wordsize) st.data (3 * c.wordsize) ∧
        Apart d (3 * c.wordsize) st.region S.size) ∧
      Apart r S.size st.data (3 * c.wordsize) ∧ Apart r S.size st.region S.size) :
    Allowed S s (.prepare symName (some d) (some r)) := by
  intro d' hd' r' hr'
  cases hd'
  cases hr'
  refine ⟨fun a ha => ?_, fun a ha => ?_, hdr⟩
  · rintro (hs | ⟨st, hst, hs | hs⟩)
    · exact hd a ha hs
    · exact (hstubs st hst).1.1 a ha hs
    · exact (hstubs st hst).1.2 a ha hs
  · rintro (hs | ⟨st, hst, hs | hs⟩)
    · exact hr a ha hs
    · exact (hstubs st hst).2.1 a ha hs
    · exact (hstubs st hst).2.2 a ha hs

def smallSection : CopyableSection .elf64 := ⟨0x1000, 0x1018, 0x1008, 0x1000, by decide⟩

def smallLibc : Libc .elf64 := ⟨0x5000, 0x6000⟩

def noMemory : Mem .elf64 := fun _ => 0

def firstState : State .elf64 :=
  ⟨(makeCopyOfFunction smallSection 0x20000 0x30000
    (fillAdjData smallLibc 0x7000 0x20000 noMemory)).1, [⟨0x7000, 0x20000, 0x30000, 0x30008⟩]⟩

def secondState : State .elf64 :=
  ⟨(makeCopyOfFunction smallSection 0x20020 0x40000 (fillAdjData smallLibc 0x7010 0x20020
    (Function.update firstState.memory 0x7000 65))).1,
    [⟨0x7010, 0x20020, 0x40000, 0x40008⟩, ⟨0x7000, 0x20000, 0x30000, 0x30008⟩]⟩

theorem secondState_reached :
    Reaches (step smallSection smallLibc) (Allowed smallSection) ⟨noMemory, []⟩ secondState := by
  have hfirst : Allowed smallSection ⟨noMemory, []⟩
      (.prepare 0x7000 (some 0x20000) (some 0x30000)) := by
    refine allowed_of_apart ?_ ?_ ?_ (List.forall_mem_nil _)
    · exact (apart_of_le (by decide) (by decide)).symm
    · exact (apart_of_le (by decide) (by decide)).symm
    · exact apart_of_le (by decide) (by decide)
  have hwrite : Allowed smallSection firstState (.write 0x7000 65) := by
    rintro (hs | ⟨st, hst, hs⟩)
    · exact absurd hs (by decide)
    · rw [List.mem_singleton.mp hst] at hs
      exact absurd hs (by decide)
  have hsecond : Allowed smallSection ⟨Function.update firstState.memory 0x7000 65,
      firstState.stubs⟩ (.prepare 0x7010 (some 0x20020) (some 0x40000)) := by
    refine allowed_of_apart ?_ ?_ ?_ fun st hst => ?_
    · exact (apart_of_le (by decide) (by decide)).symm
    · exact (apart_of_le (by decide) (by decide)).symm
    · exact apart_of_le (by decide) (by decide)
    · rw [List.mem_singleton.mp hst]
      refine ⟨⟨?_, ?_⟩, ?_, ?_⟩
      · exact (apart_of_le (by decide) (by decide)).symm
      · exact apart_of_le (by decide) (by decide)
      · exact (apart_of_le (by decide) (by decide)).symm
      · exact (apart_of_le (by decide) (by decide)).symm
  exact ((Reaches.single hfirst rfl).tail hwrite rfl).tail hsecond rfl

end two

end Bionic.Stubs
