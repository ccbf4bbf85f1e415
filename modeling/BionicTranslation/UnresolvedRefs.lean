import BionicTranslation.Aarch64Values
import BionicTranslation.X86Values

/-!
# References that nothing defines

A reference whose name is in no scope is left zero when it is weak, gets a stub when the
environment asks for it, and ends the relocation otherwise. Names of OpenGL functions
never come to the stub, and weak functions do.
-/

set_option autoImplicit false

namespace Bionic.UnresolvedRefs
open Bionic.Bytes Bionic.Records Bionic.Elf Bionic.RelocSymbols Bionic.RelaTables

inductive Machine where
  | aarch64
  | x86_64
  deriving DecidableEq, Repr

def Machine.relocEntry (a : Machine) (env : SymEnv .elf64) (base : Addr64) : Entry :=
  match a with
  | .aarch64 => Aarch64Values.relocEntry env base
  | .x86_64 => X86Values.relocEntry env base

def Machine.weakValue (a : Machine) (reloc : Addr64) (type : ℕ) : Option Addr64 :=
  match a with
  | .aarch64 => Aarch64Values.weakValue (Aarch64Values.relocType type)
  | .x86_64 => X86Values.weakValue reloc (X86Values.relocType type)

def Machine.Absolute (a : Machine) (type : ℕ) : Prop :=
  match a with
  | .aarch64 => Aarch64Values.relocType type ∈
      [.jumpSlot, .globDat, .abs64, .abs32, .abs16]
  | .x86_64 => X86Values.relocType type ∈ [.jumpSlot, .globDat, .r32, .r64]

/-- The types of an entry with a symbol that the switch stores a value for. -/
def Machine.Applies (a : Machine) (type : ℕ) : Prop :=
  match a with
  | .aarch64 => Aarch64Values.relocType type ∈ [.jumpSlot, .globDat, .abs64, .prel64]
  | .x86_64 => X86Values.relocType type ∈ [.jumpSlot, .globDat, .r32, .r64, .pc32]

/-- What the processor supplement asks for when the symbol has the address `S`. -/
def Machine.elfField (a : Machine) (base : Addr64) (r : Rela) (S : Addr64) : Field :=
  match a with
  | .aarch64 =>
    Aarch64Values.elfValue (Aarch64Values.relocType r.type) base S r.r_addend (r.reloc base)
  | .x86_64 => X86Values.elfValue (X86Values.relocType r.type) base S r.r_addend (r.reloc base)

/-- The memory at the place makes up for what the types do wrong: those that add on AArch64 find
nothing to add to, or what is missing of the place, and those that store too much on x86-64 find
it there. -/
def Machine.Ready (a : Machine) (base : Addr64) (r : Rela) (S : Addr64) (m : Mem64) : Prop :=
  match a with
  | .aarch64 => Aarch64Values.Compensated base r m
  | .x86_64 => ∀ v, Machine.x86_64.elfField base r S = some (4, v) →
      load 4 m (r.reloc base + BitVec.ofNat 64 4) = v.extractLsb' (8 * 4) (8 * 4)

def Machine.value (a : Machine) (env : SymEnv .elf64) (base : Addr64) (r : Rela) :
    Option Addr64 :=
  symbolValue env (lastRela env) (a.weakValue (r.reloc base) r.type) r.sym

variable {a : Machine} {env : SymEnv .elf64} {base : Addr64} {r : Rela} {m : Mem64}

theorem aarch64_none {type : ℕ} (h : type ≠ 0) : Aarch64Values.relocType type ≠ .none := by
  intro hn
  unfold Aarch64Values.relocType at hn
  split at hn <;> first | exact h rfl | cases hn

theorem x86_none {type : ℕ} (h : type ≠ 0) : X86Values.relocType type ≠ .none := by
  intro hn
  unfold X86Values.relocType at hn
  split at hn <;> first | exact h rfl | cases hn

theorem relocEntry_refused (ht : r.type ≠ 0) (hv : a.value env base r = none) :
    a.relocEntry env base r m = none := by
  cases a with
  | aarch64 =>
    change symbolValue env (lastRela env)
      (Aarch64Values.weakValue (Aarch64Values.relocType r.type)) r.sym = none at hv
    simp only [Machine.relocEntry, Aarch64Values.relocEntry, if_neg (aarch64_none ht), hv]
  | x86_64 =>
    change symbolValue env (lastRela env)
      (X86Values.weakValue (r.reloc base) (X86Values.relocType r.type)) r.sym = none at hv
    simp only [Machine.relocEntry, X86Values.relocEntry, if_neg (x86_none ht), hv]

theorem relocEntry_applied {v : Addr64} (h0 : r.sym ≠ 0) (hv : a.value env base r = some v) :
    ((∃ m', a.relocEntry env base r m = some m') ∧ a.elfField base r v ≠ none) ↔
      a.Applies r.type := by
  cases a with
  | aarch64 =>
    change symbolValue env (lastRela env)
      (Aarch64Values.weakValue (Aarch64Values.relocType r.type)) r.sym = some v at hv
    -- no number is in the ranges of the narrow types
    have hempty : ∀ u, Aarch64Values.addInRange m (r.reloc base) Aarch64Values.int32Min
        Aarch64Values.uint32Max u = none := fun u => Aarch64Values.addInRange_empty (by decide)
    have hempty' : ∀ u, Aarch64Values.addInRange m (r.reloc base) Aarch64Values.int16Min
        Aarch64Values.uint16Max u = none := fun u => Aarch64Values.addInRange_empty (by decide)
    simp only [Machine.relocEntry, Aarch64Values.relocEntry, hv, Machine.elfField, Machine.Applies]
    cases hr : Aarch64Values.relocType r.type <;> simp_all [Aarch64Values.elfValue]
  | x86_64 =>
    change symbolValue env (lastRela env)
      (X86Values.weakValue (r.reloc base) (X86Values.relocType r.type)) r.sym = some v at hv
    simp only [Machine.relocEntry, X86Values.relocEntry, hv, Machine.elfField, Machine.Applies]
    cases hr : X86Values.relocType r.type <;> simp_all [X86Values.elfValue]

theorem relocEntry_right {v : Addr64} {m' : Mem64} (hv : a.value env base r = some v)
    (h : a.relocEntry env base r m = some m') :
    RightValue (a.elfField base r v) (r.reloc base) m m' ↔ a.Ready base r v m := by
  cases a with
  | aarch64 =>
    have hfield : Aarch64Values.field env base r = _ := Aarch64Values.field_of_symbol hv rfl
    rw [Machine.elfField, ← hfield]
    exact Aarch64Values.accepted_right_iff h
  | x86_64 =>
    have hfield : X86Values.field env base r = _ := X86Values.field_of_symbol hv rfl
    rw [Machine.Ready, Machine.elfField, ← hfield]
    exact X86Values.accepted_right_iff h

theorem elfField_width {S v : Addr64} {n : ℕ} (h : a.elfField base r S = some (n, v)) : n ≤ 8 := by
  cases a with
  | aarch64 =>
    rw [Machine.elfField] at h
    cases hr : Aarch64Values.relocType r.type <;> rw [hr] at h <;> cases h <;> decide
  | x86_64 =>
    rw [Machine.elfField] at h
    cases hr : X86Values.relocType r.type <;> rw [hr] at h <;> cases h <;> decide

structure Unresolved (env : SymEnv .elf64) (r : Rela) : Prop where
  sym : r.sym ≠ 0
  undefined : Undefined env (env.symtab r.sym)
  host : env.dlsym (env.symtab r.sym).name = 0
  egl : env.eglGetProcAddress (env.symtab r.sym).name = 0
  name : (env.symtab r.sym).name ≠ "sigsetjmp".toList

def IsGl (name : Name) : Prop := "gl".toList.isPrefixOf name = true

instance (name : Name) : Decidable (IsGl name) :=
  inferInstanceAs (Decidable ("gl".toList.isPrefixOf name = true))

/-- The environment asks for a stub for the symbol. -/
def WantsStub (env : SymEnv .elf64) (s : Sym .elf64) : Prop :=
  env.dieAtRuntime = true ∧ s.st_type = sttFunc

theorem stubFunc_pos {s : Sym .elf64} (h : WantsStub env s) : stubFunc env s = env.stub s.name :=
  if_pos h

theorem stubFunc_neg {s : Sym .elf64} (h : ¬ WantsStub env s) : stubFunc env s = 0 := if_neg h

theorem Unresolved.last (h : Unresolved env r) : lastRela env (env.symtab r.sym) =
    if IsGl (env.symtab r.sym).name then 0 else stubFunc env (env.symtab r.sym) := by
  rw [lastRela, if_neg (not_not.mpr h.host), h.egl, if_neg h.name]
  rfl

theorem Unresolved.value_stub (h : Unresolved env r) (a : Machine) (base : Addr64)
    (hstub : ∀ name, env.stub name ≠ 0) (hw : WantsStub env (env.symtab r.sym))
    (hg : ¬ IsGl (env.symtab r.sym).name) :
    a.value env base r = some (env.stub (env.symtab r.sym).name) := by
  rw [Machine.value, symbolValue_last h.sym h.undefined, h.last, if_neg hg, stubFunc_pos hw,
    if_pos (hstub _)]

theorem Unresolved.value_bind (h : Unresolved env r) (a : Machine) (base : Addr64)
    (hs : WantsStub env (env.symtab r.sym) → IsGl (env.symtab r.sym).name) :
    a.value env base r = if (env.symtab r.sym).st_bind = stbWeak then
      a.weakValue (r.reloc base) r.type else none := by
  have hzero : lastRela env (env.symtab r.sym) = 0 := by
    rw [h.last]
    split_ifs with hg
    · rfl
    · exact stubFunc_neg fun hw => hg (hs hw)
  rw [Machine.value, symbolValue_last h.sym h.undefined, hzero, if_neg (not_not.mpr rfl)]

theorem weakValue_absolute {type : ℕ} {p : Addr64} (h : a.Absolute type) :
    a.weakValue p type = some 0 := by
  cases a with
  | aarch64 =>
    rw [Machine.weakValue]
    simp only [Machine.Absolute, List.mem_cons, List.not_mem_nil, or_false] at h
    rcases h with h | h | h | h | h <;> rw [h] <;> rfl
  | x86_64 =>
    rw [Machine.weakValue]
    simp only [Machine.Absolute, List.mem_cons, List.not_mem_nil, or_false] at h
    rcases h with h | h | h | h <;> rw [h] <;> rfl

theorem relocLibrary_turn {entry : Entry} {before rest : List Rela} {m m₁ : Mem64}
    (h : relocLibrary entry before m = (m₁, true)) :
    relocLibrary entry (before ++ rest) m = relocLibrary entry rest m₁ := by
  induction before generalizing m with
  | nil =>
    cases h
    rfl
  | cons b before ih =>
    rw [List.cons_append, relocLibrary]
    rw [relocLibrary] at h
    cases hb : entry b m with
    | none =>
      simp only [hb] at h
      cases h
    | some m' =>
      simp only [hb] at h ⊢
      exact ih h

section table
variable (a : Machine) (env : SymEnv .elf64) (base : Addr64) (before : List Rela) (r : Rela)
  (after : List Rela) (m m₁ : Mem64)

/-- The symbol of the entry, whose turn comes with the memory `m₁`, is given the value `v`, the
place what its type makes of it, and the table is processed to its end. -/
def Continues (v : Addr64) : Prop :=
  a.value env base r = some v ∧ ∃ n x m₂, a.elfField base r v = some (n, x) ∧
    m₂ = store m₁ (r.reloc base) (x.setWidth (8 * n)) ∧ a.relocEntry env base r m₁ = some m₂ ∧
      relocLibrary (a.relocEntry env base) (before ++ r :: after) m =
        relocLibrary (a.relocEntry env base) after m₂

/-- What is to become of a reference that nothing defines. -/
structure Handled : Prop where
  weak : (env.symtab r.sym).st_bind = stbWeak → a.Absolute r.type →
    Continues a env base before r after m m₁ 0
  stub : (env.symtab r.sym).st_bind ≠ stbWeak → WantsStub env (env.symtab r.sym) →
    Continues a env base before r after m m₁ (env.stub (env.symtab r.sym).name)
  fails : (env.symtab r.sym).st_bind ≠ stbWeak → ¬ WantsStub env (env.symtab r.sym) →
    a.relocEntry env base r m₁ = none ∧
      relocLibrary (a.relocEntry env base) (before ++ r :: after) m = (m₁, false)

/-- A weak reference of an absolute type is no function to be stubbed, and a function that is
stubbed is not one of OpenGL; what is to be bound has a type that is carried out and stores the
right value; and what is to be refused is not skipped. -/
structure Spared : Prop where
  weak : (env.symtab r.sym).st_bind = stbWeak → a.Absolute r.type →
    (WantsStub env (env.symtab r.sym) → IsGl (env.symtab r.sym).name) ∧
      a.Applies r.type ∧ a.Ready base r 0 m₁
  stub : (env.symtab r.sym).st_bind ≠ stbWeak → WantsStub env (env.symtab r.sym) →
    ¬ IsGl (env.symtab r.sym).name ∧
      a.Applies r.type ∧ a.Ready base r (env.stub (env.symtab r.sym).name) m₁
  fails : (env.symtab r.sym).st_bind ≠ stbWeak → ¬ WantsStub env (env.symtab r.sym) → r.type ≠ 0

end table

section handled
variable {before after : List Rela} {m₁ : Mem64}

theorem continues_iff {v w : Addr64} (h : Unresolved env r)
    (ht : relocLibrary (a.relocEntry env base) before m = (m₁, true))
    (hv : a.value env base r = some v) :
    Continues a env base before r after m m₁ w ↔
      v = w ∧ a.Applies r.type ∧ a.Ready base r w m₁ := by
  rw [Continues, hv, Option.some.injEq]
  refine and_congr_right ?_
  rintro rfl
  rw [← relocEntry_applied (m := m₁) h.sym hv]
  constructor
  · rintro ⟨n, x, m₂, hfield, rfl, hm, -⟩
    refine ⟨⟨⟨_, hm⟩, by rw [hfield]; exact Option.some_ne_none _⟩, ?_⟩
    exact (relocEntry_right hv hm).mp ((rightValue_eq (elfField_width hfield) hfield).mpr rfl)
  · rintro ⟨⟨⟨m₂, hm⟩, hfield⟩, hready⟩
    obtain ⟨⟨n, x⟩, hfield⟩ := Option.ne_none_iff_exists'.mp hfield
    have hright := (relocEntry_right hv hm).mpr hready
    refine ⟨n, x, m₂, hfield, (rightValue_eq (elfField_width hfield) hfield).mp hright, hm, ?_⟩
    rw [relocLibrary_turn ht, relocLibrary]
    simp only [hm]

theorem not_continues {w : Addr64} (hv : a.value env base r = none) :
    ¬ Continues a env base before r after m m₁ w := by
  rintro ⟨hw, -⟩
  cases hv.symm.trans hw

theorem relocEntry_skipped (ht : r.type = 0) : a.relocEntry env base r m = some m := by
  cases a with
  | aarch64 => simp only [Machine.relocEntry, Aarch64Values.relocEntry, ht, Aarch64Values.relocType,
      if_true]
  | x86_64 => simp only [Machine.relocEntry, X86Values.relocEntry, ht, X86Values.relocType, if_true]

/-- A reference that nothing defines, at its turn in a table: the outcome is the one that is
asked for just when no branch of the chain pre-empts another and the type is carried out. -/
theorem unresolved_handled_iff (a : Machine) (env : SymEnv .elf64)
    (hstub : ∀ name, env.stub name ≠ 0) (base : Addr64) (before : List Rela) (r : Rela)
    (after : List Rela) (m m₁ : Mem64)
    (ht : relocLibrary (a.relocEntry env base) before m = (m₁, true)) (h : Unresolved env r) :
    Handled a env base before r after m m₁ ↔ Spared a env base r m₁ := by
  constructor
  · intro hh
    refine ⟨fun hw habs => ?_, fun hw hs => ?_, fun hw hs ht0 => ?_⟩
    · have hcont := hh.weak hw habs
      by_cases hs : WantsStub env (env.symtab r.sym) → IsGl (env.symtab r.sym).name
      · have hv := h.value_bind a base hs
        rw [if_pos hw, weakValue_absolute habs] at hv
        exact ⟨hs, ((continues_iff h ht hv).mp hcont).2⟩
      · obtain ⟨hs, hg⟩ := Classical.not_imp.mp hs
        have hv := h.value_stub a base hstub hs hg
        exact absurd ((continues_iff h ht hv).mp hcont).1 (hstub _)
    · have hcont := hh.stub hw hs
      by_cases hg : IsGl (env.symtab r.sym).name
      · have hv := h.value_bind a base fun _ => hg
        rw [if_neg hw] at hv
        exact absurd hcont (not_continues hv)
      · have hv := h.value_stub a base hstub hs hg
        exact ⟨hg, ((continues_iff h ht hv).mp hcont).2⟩
    · have hnone := (hh.fails hw hs).1
      rw [relocEntry_skipped ht0] at hnone
      cases hnone
  · intro hsp
    refine ⟨fun hw habs => ?_, fun hw hs => ?_, fun hw hs => ?_⟩
    · obtain ⟨hg, happ⟩ := hsp.weak hw habs
      have hv := h.value_bind a base hg
      rw [if_pos hw, weakValue_absolute habs] at hv
      exact (continues_iff h ht hv).mpr ⟨rfl, happ⟩
    · obtain ⟨hg, happ⟩ := hsp.stub hw hs
      have hv := h.value_stub a base hstub hs hg
      exact (continues_iff h ht hv).mpr ⟨rfl, happ⟩
    · have hv := h.value_bind a base fun e => absurd e hs
      rw [if_neg hw] at hv
      have hnone := relocEntry_refused (m := m₁) (hsp.fails hw hs) hv
      refine ⟨hnone, ?_⟩
      rw [relocLibrary_turn ht, relocLibrary]
      simp only [hnone]

end handled

/-- `LINKER_DIE_AT_RUNTIME` is set, and one symbol is referred to that nothing defines. -/
def dieEnv (s : Sym .elf64) : SymEnv .elf64 where
  symtab _ := s
  dlsym _ := 0
  doLookup _ := none
  eglGetProcAddress _ := 0
  sigsetjmp := 0
  isHostFunc _ := false
  dieAtRuntime := true
  stub _ := 0x5000

def slotEntry : Rela := ⟨0x100, 0x100000402, 0⟩

/-- A weak symbol that is no function stays zero. -/
theorem weak_object_zero : Handled .aarch64
    (dieEnv ⟨"environ".toList, stbWeak, 1, shnUndef, 0, 0⟩) 0 [] slotEntry [] (fun _ => 0)
    fun _ => 0 := by
  refine (unresolved_handled_iff _ _ (fun _ => ?_) _ _ _ _ _ _ rfl
    ⟨by decide, ⟨rfl, rfl⟩, rfl, rfl, by decide⟩).mpr
    ⟨fun _ _ => ⟨fun hs => ?_, ?_, ?_⟩, fun hw => absurd rfl hw, fun hw => absurd rfl hw⟩
  · show (0x5000 : Addr64) ≠ 0
    decide
  · exact absurd hs.2 (by decide)
  · show Aarch64Values.relocType slotEntry.type ∈ _
    decide
  · exact Aarch64Values.compensated_of_other rfl (by decide) (by decide)

/-- An OpenGL function is not stubbed. -/
theorem gl_function_refused : ¬ Handled .aarch64
    (dieEnv ⟨"glFoo".toList, stbGlobal, sttFunc, shnUndef, 0, 0⟩) 0 [] slotEntry [] (fun _ => 0)
    fun _ => 0 := by
  intro h
  obtain ⟨hv, -⟩ := h.stub (by decide) ⟨rfl, rfl⟩
  revert hv
  decide +kernel

end Bionic.UnresolvedRefs
