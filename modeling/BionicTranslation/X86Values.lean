import BionicTranslation.RelaTables

/-!
# Relocation values on x86-64

Every type overwrites eight bytes at the place. That is the field of the wide
types, but R_X86_64_32 and R_X86_64_PC32 have a field of four bytes, and the
upper half of their value goes into the bytes behind it.
-/

set_option autoImplicit false

namespace Bionic.X86Values
open Bionic.Bytes Bionic.Elf Bionic.RelocSymbols Bionic.RelaTables

inductive RelocType where
  | none
  | r64
  | pc32
  | globDat
  | jumpSlot
  | relative
  | r32
  | other (n : ℕ)
  deriving DecidableEq, Repr

def relocType : ℕ → RelocType
  | 0 => .none
  | 1 => .r64
  | 2 => .pc32
  | 6 => .globDat
  | 7 => .jumpSlot
  | 8 => .relative
  | 10 => .r32
  | n => .other n

/-- The types for which a weak reference may stay undefined; a place-relative one is
given its own place. -/
def weakValue (reloc : Addr64) : RelocType → Option Addr64
  | .jumpSlot | .globDat | .r32 | .r64 | .relative => some 0
  | .pc32 => some reloc
  | _ => Option.none

def relocEntry (env : SymEnv .elf64) (base : Addr64) : Entry := fun r m =>
  let type := relocType r.type
  let reloc := r.reloc base
  if type = .none then some m else
    match symbolValue env (lastRela env) (weakValue reloc type) r.sym with
    | Option.none => Option.none
    | some sym_addr =>
      match type with
      | .none => some m
      | .jumpSlot => some (store m reloc (sym_addr + r.r_addend))
      | .globDat => some (store m reloc (sym_addr + r.r_addend))
      | .relative =>
        if r.sym ≠ 0 then Option.none else some (store m reloc (base + r.r_addend))
      | .r32 => some (store m reloc (sym_addr + r.r_addend))
      | .r64 => some (store m reloc (sym_addr + r.r_addend))
      | .pc32 => some (store m reloc (sym_addr + r.r_addend - reloc))
      | .other _ => Option.none

/-- The width of the field and the value that the processor supplement asks for. -/
def elfValue (type : RelocType) (base S A P : Addr64) : Field :=
  match type with
  | .r64 | .globDat | .jumpSlot => some (8, S + A)
  | .relative => some (8, base + A)
  | .r32 => some (4, S + A)
  | .pc32 => some (4, S + A - P)
  | _ => Option.none

def field (env : SymEnv .elf64) (base : Addr64) (r : Rela) : Field :=
  (symbolValue env (lastRela env) (weakValue (r.reloc base) (relocType r.type)) r.sym).bind
    fun S => elfValue (relocType r.type) base S r.r_addend (r.reloc base)

def Spared (env : SymEnv .elf64) (base : Addr64) (r : Rela) (m : Mem64) : Prop :=
  ∀ v, field env base r = some (4, v) →
    load 4 m (r.reloc base + BitVec.ofNat 64 4) = v.extractLsb' (8 * 4) (8 * 4)

theorem field_of_symbol {env : SymEnv .elf64} {base S : Addr64} {r : Rela} {type : RelocType}
    (hs : symbolValue env (lastRela env) (weakValue (r.reloc base) (relocType r.type)) r.sym =
      some S) (ht : relocType r.type = type) :
    field env base r = elfValue type base S r.r_addend (r.reloc base) := by
  rw [field, hs, ht]
  rfl

theorem accepted_cases {env : SymEnv .elf64} {base : Addr64} {r : Rela} {m m' : Mem64}
    (h : relocEntry env base r m = some m') :
    (field env base r = Option.none ∧ m' = m) ∨
    ∃ n v, (n = 8 ∨ n = 4) ∧ field env base r = some (n, v) ∧ m' = store m (r.reloc base) v := by
  unfold relocEntry at h
  simp only at h
  by_cases hnone : relocType r.type = .none
  · rw [if_pos hnone] at h
    cases h
    refine Or.inl ⟨?_, rfl⟩
    rw [field, hnone]
    cases symbolValue env (lastRela env) (weakValue (r.reloc base) .none) r.sym <;> rfl
  · rw [if_neg hnone] at h
    cases hs : symbolValue env (lastRela env) (weakValue (r.reloc base) (relocType r.type))
        r.sym with
    | none =>
      rw [hs] at h
      cases h
    | some S =>
      rw [hs] at h
      cases ht : relocType r.type <;> rw [ht] at h <;> simp only at h
      case none => exact absurd ht hnone
      case r64 =>
        cases h
        exact Or.inr ⟨8, _, Or.inl rfl, field_of_symbol hs ht, rfl⟩
      case pc32 =>
        cases h
        exact Or.inr ⟨4, _, Or.inr rfl, field_of_symbol hs ht, rfl⟩
      case globDat =>
        cases h
        exact Or.inr ⟨8, _, Or.inl rfl, field_of_symbol hs ht, rfl⟩
      case jumpSlot =>
        cases h
        exact Or.inr ⟨8, _, Or.inl rfl, field_of_symbol hs ht, rfl⟩
      case relative =>
        split_ifs at h
        cases h
        exact Or.inr ⟨8, _, Or.inl rfl, field_of_symbol hs ht, rfl⟩
      case r32 =>
        cases h
        exact Or.inr ⟨4, _, Or.inr rfl, field_of_symbol hs ht, rfl⟩
      case other => cases h

theorem accepted_right_iff {env : SymEnv .elf64} {base : Addr64} {r : Rela} {m m' : Mem64}
    (h : relocEntry env base r m = some m') :
    RightValue (field env base r) (r.reloc base) m m' ↔ Spared env base r m := by
  rcases accepted_cases h with ⟨hf, -⟩ | ⟨n, v, rfl | rfl, hf, rfl⟩
  · refine iff_of_true (rightValue_none hf) fun v hv => ?_
    cases hf.symm.trans hv
  · refine iff_of_true ((rightValue_iff hf).mpr (written_store _ _ _)) fun v' hv => ?_
    cases hf.symm.trans hv
  · rw [rightValue_eq (by decide) hf]
    have hiff := store_eq_low_iff (n := 4) (k := 4) (m := m) (p := r.reloc base) (v := v)
      (by decide)
    refine hiff.trans ⟨fun hl v' hv => ?_, fun hs => hs v hf⟩
    cases hf.symm.trans hv
    exact hl

theorem accepted_any {env : SymEnv .elf64} {base : Addr64} {r : Rela} {m m₁ : Mem64} (m' : Mem64)
    (h : relocEntry env base r m = some m₁) : ∃ m₂, relocEntry env base r m' = some m₂ := by
  unfold relocEntry at h ⊢
  simp only at h ⊢
  by_cases hnone : relocType r.type = .none
  · rw [if_pos hnone]
    exact ⟨m', rfl⟩
  · rw [if_neg hnone] at h ⊢
    cases hs : symbolValue env (lastRela env) (weakValue (r.reloc base) (relocType r.type))
        r.sym with
    | none =>
      rw [hs] at h
      cases h
    | some S =>
      rw [hs] at h
      cases ht : relocType r.type <;> rw [ht] at h <;> simp only at h ⊢
      case relative =>
        split_ifs at h with hsym
        rw [if_neg hsym]
        exact ⟨_, rfl⟩
      case other => cases h
      all_goals exact ⟨_, rfl⟩

def FieldsApart (env : SymEnv .elf64) (base : Addr64) (table : List Rela) : Prop :=
  table.Pairwise fun r r' => Apart (r.reloc base) (fieldWidth (field env base r))
    (r'.reloc base) (fieldWidth (field env base r'))

theorem right_writes {env : SymEnv .elf64} {base : Addr64} {r : Rela} {m m' : Mem64}
    (h : relocEntry env base r m = some m')
    (hr : RightValue (field env base r) (r.reloc base) m m') :
    m' = writeField (field env base r) (r.reloc base) m := by
  rcases accepted_cases h with ⟨hf, rfl⟩ | ⟨n, v, hn, hf, -⟩
  · rw [hf]
    rfl
  · rw [hf]
    exact (rightValue_eq (by omega) hf).mp hr

theorem order_free {env : SymEnv .elf64} {base : Addr64} {table t : List Rela} {m : Mem64}
    (hright : ∀ t, t.Perm table → ∀ r m₁ m₂, Accepted (relocEntry env base) t m r m₁ m₂ →
      RightValue (field env base r) (r.reloc base) m₁ m₂)
    (hapart : FieldsApart env base table)
    (hok : (relocLibrary (relocEntry env base) table m).2 = true) (ht : t.Perm table) :
    (relocLibrary (relocEntry env base) t m).1 =
      (relocLibrary (relocEntry env base) table m).1 := by
  have hwrites : ∀ t', t'.Perm table → ∀ r m₁ m₂,
      Accepted (relocEntry env base) t' m r m₁ m₂ →
        m₂ = writeField (field env base r) (r.reloc base) m₁ := by
    intro t' ht' r m₁ m₂ hacc
    have hr := hright t' ht' r m₁ m₂ hacc
    obtain ⟨_, _, _, _, h⟩ := hacc
    exact right_writes h hr
  have hall : ∀ t', (relocLibrary (relocEntry env base) t' m).2 = true ↔
      ∀ r ∈ t', ∃ m', relocEntry env base r m = some m' := by
    intro t'
    refine relocLibrary_ok_iff ?_ m
    intro r m m₁ m' h
    exact accepted_any m' h
  have hok' : (relocLibrary (relocEntry env base) t m).2 = true :=
    (hall t).mpr fun r hr => (hall table).mp hok r (ht.mem_iff.mp hr)
  rw [relocLibrary_fields hok' (hwrites t ht), relocLibrary_fields hok (hwrites table (.refl _))]
  exact (foldl_writeField_perm ht.symm hapart m).symm

def narrowEntries : List Rela := [⟨0x100, 10, 0x7fff00000001⟩, ⟨0x104, 10, 2⟩]

end Bionic.X86Values
