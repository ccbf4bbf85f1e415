import BionicTranslation.RelaTables

/-!
# Relocation values on AArch64

The two slot types and RELATIVE overwrite their field. The absolute and the
place-relative types add to it, eight bytes wide, although the addend is in the
entry; the place-relative ones subtract the offset of the place and not its
address. The ranges that the narrow types are checked against are empty.
-/

set_option autoImplicit false

namespace Bionic.Aarch64Values
open Bionic.Bytes Bionic.Elf Bionic.RelocSymbols Bionic.RelaTables

inductive RelocType where
  | none
  | jumpSlot
  | globDat
  | abs64
  | abs32
  | abs16
  | prel64
  | prel32
  | prel16
  | relative
  | copy
  | tlsTprel64
  | tlsDtprel32
  | other (n : ℕ)
  deriving DecidableEq, Repr

def relocType : ℕ → RelocType
  | 0 => .none
  | 257 => .abs64
  | 258 => .abs32
  | 259 => .abs16
  | 260 => .prel64
  | 261 => .prel32
  | 262 => .prel16
  | 1024 => .copy
  | 1025 => .globDat
  | 1026 => .jumpSlot
  | 1027 => .relative
  | 1030 => .tlsTprel64
  | 1031 => .tlsDtprel32
  | n => .other n

def weakValue : RelocType → Option Addr64
  | .jumpSlot | .globDat | .abs64 | .abs32 | .abs16 | .relative => some 0
  | _ => Option.none

/-- `(ElfW(Addr))(INT32_MIN)` and its like: the negative bound is sign-extended. -/
def addInRange (m : Mem64) (reloc low high v : Addr64) : Option Mem64 :=
  let sum := load 8 m reloc + v
  if low ≤ sum ∧ sum ≤ high then some (store m reloc sum) else Option.none

def int32Min : Addr64 := 0xffffffff80000000
def uint32Max : Addr64 := 0xffffffff
def int16Min : Addr64 := 0xffffffffffff8000
def uint16Max : Addr64 := 0xffff

def relocEntry (env : SymEnv .elf64) (base : Addr64) : Entry := fun r m =>
  let type := relocType r.type
  let reloc := r.reloc base
  if type = .none then some m else
    match symbolValue env (lastRela env) (weakValue type) r.sym with
    | Option.none => Option.none
    | some sym_addr =>
      match type with
      | .none => some m
      | .jumpSlot => some (store m reloc (sym_addr + r.r_addend))
      | .globDat => some (store m reloc (sym_addr + r.r_addend))
      | .abs64 => some (store m reloc (load 8 m reloc + (sym_addr + r.r_addend)))
      | .abs32 => addInRange m reloc int32Min uint32Max (sym_addr + r.r_addend)
      | .abs16 => addInRange m reloc int16Min uint16Max (sym_addr + r.r_addend)
      | .prel64 =>
        some (store m reloc (load 8 m reloc + ((sym_addr + r.r_addend) - r.r_offset)))
      | .prel32 =>
        addInRange m reloc int32Min uint32Max ((sym_addr + r.r_addend) - r.r_offset)
      | .prel16 =>
        addInRange m reloc int16Min uint16Max ((sym_addr + r.r_addend) - r.r_offset)
      | .relative =>
        if r.sym ≠ 0 then Option.none else some (store m reloc (base + r.r_addend))
      | .copy => Option.none
      | .tlsTprel64 => some m
      | .tlsDtprel32 => some m
      | .other _ => Option.none

/-- The width of the field and the value that the processor supplement asks for. -/
def elfValue (type : RelocType) (base S A P : Addr64) : Option (ℕ × Addr64) :=
  match type with
  | .jumpSlot | .globDat | .abs64 => some (8, S + A)
  | .abs32 => some (4, S + A)
  | .abs16 => some (2, S + A)
  | .relative => some (8, base + A)
  | .prel64 => some (8, S + A - P)
  | .prel32 => some (4, S + A - P)
  | .prel16 => some (2, S + A - P)
  | _ => Option.none

def field (env : SymEnv .elf64) (base : Addr64) (r : Rela) : Field :=
  (symbolValue env (lastRela env) (weakValue (relocType r.type)) r.sym).bind fun S =>
    elfValue (relocType r.type) base S r.r_addend (r.reloc base)

/-- The eight bytes that are added to make up for the wrong value. -/
def Compensated (base : Addr64) (r : Rela) (m : Mem64) : Prop :=
  (relocType r.type = .abs64 → load 8 m (r.reloc base) = 0) ∧
  (relocType r.type = .prel64 → load 8 m (r.reloc base) = -base)

theorem addInRange_empty {m : Mem64} {reloc low high v : Addr64} (h : high < low) :
    addInRange m reloc low high v = Option.none :=
  if_neg fun hin => absurd (BitVec.le_trans hin.1 hin.2) (BitVec.not_le.mpr h)

theorem field_of_symbol {env : SymEnv .elf64} {base S : Addr64} {r : Rela} {type : RelocType}
    (hs : symbolValue env (lastRela env) (weakValue (relocType r.type)) r.sym = some S)
    (ht : relocType r.type = type) :
    field env base r = elfValue type base S r.r_addend (r.reloc base) := by
  rw [field, hs, ht]
  rfl

theorem compensated_of_other {base : Addr64} {r : Rela} {m : Mem64} {type : RelocType}
    (ht : relocType r.type = type) (h1 : type ≠ .abs64) (h2 : type ≠ .prel64) :
    Compensated base r m :=
  ⟨fun h => absurd (ht.symm.trans h) h1, fun h => absurd (ht.symm.trans h) h2⟩

theorem accepted_cases {env : SymEnv .elf64} {base : Addr64} {r : Rela} {m m' : Mem64}
    (h : relocEntry env base r m = some m') :
    (field env base r = Option.none ∧ Compensated base r m) ∨
    ∃ v, field env base r = some (8, v) ∧
      (Compensated base r m ∧ m' = store m (r.reloc base) v ∨
        relocType r.type = .abs64 ∧ m' = store m (r.reloc base) (load 8 m (r.reloc base) + v) ∨
        relocType r.type = .prel64 ∧
          m' = store m (r.reloc base) (load 8 m (r.reloc base) + (v + base))) := by
  unfold relocEntry at h
  simp only at h
  by_cases hnone : relocType r.type = .none
  · refine Or.inl ⟨?_, compensated_of_other hnone (by decide) (by decide)⟩
    rw [field, hnone]
    cases symbolValue env (lastRela env) (weakValue .none) r.sym <;> rfl
  · rw [if_neg hnone] at h
    cases hs : symbolValue env (lastRela env) (weakValue (relocType r.type)) r.sym with
    | none =>
      rw [hs] at h
      cases h
    | some S =>
      rw [hs] at h
      cases ht : relocType r.type <;> rw [ht] at h <;> simp only at h
      case none => exact absurd ht hnone
      case jumpSlot =>
        cases h
        exact Or.inr ⟨_, field_of_symbol hs ht,
          Or.inl ⟨compensated_of_other ht (by decide) (by decide), rfl⟩⟩
      case globDat =>
        cases h
        exact Or.inr ⟨_, field_of_symbol hs ht,
          Or.inl ⟨compensated_of_other ht (by decide) (by decide), rfl⟩⟩
      case abs64 =>
        cases h
        exact Or.inr ⟨_, field_of_symbol hs ht, Or.inr (Or.inl ⟨rfl, rfl⟩)⟩
      case prel64 =>
        cases h
        refine Or.inr ⟨_, field_of_symbol hs ht, Or.inr (Or.inr ⟨rfl, ?_⟩)⟩
        have hdiff : S + r.r_addend - r.r_offset =
            S + r.r_addend - r.reloc base + base := by
          rw [Rela.reloc]
          ring
        rw [hdiff]
      case relative =>
        split_ifs at h
        cases h
        exact Or.inr ⟨_, field_of_symbol hs ht,
          Or.inl ⟨compensated_of_other ht (by decide) (by decide), rfl⟩⟩
      -- the ranges of the narrow types are empty
      case abs32 => exact absurd h (by rw [addInRange_empty (by decide)]; exact nofun)
      case abs16 => exact absurd h (by rw [addInRange_empty (by decide)]; exact nofun)
      case prel32 => exact absurd h (by rw [addInRange_empty (by decide)]; exact nofun)
      case prel16 => exact absurd h (by rw [addInRange_empty (by decide)]; exact nofun)
      case copy => cases h
      case tlsTprel64 =>
        exact Or.inl ⟨field_of_symbol hs ht, compensated_of_other ht (by decide) (by decide)⟩
      case tlsDtprel32 =>
        exact Or.inl ⟨field_of_symbol hs ht, compensated_of_other ht (by decide) (by decide)⟩
      case other => cases h

theorem accepted_right_iff {env : SymEnv .elf64} {base : Addr64} {r : Rela} {m m' : Mem64}
    (h : relocEntry env base r m = some m') :
    RightValue (field env base r) (r.reloc base) m m' ↔ Compensated base r m := by
  rcases accepted_cases h with ⟨hf, hc⟩ | ⟨v, hf, ⟨hc, rfl⟩ | ⟨ht, rfl⟩ | ⟨ht, rfl⟩⟩
  · exact iff_of_true (rightValue_none hf) hc
  · exact iff_of_true ((rightValue_iff hf).mpr (written_store _ _ _)) hc
  · rw [rightValue_iff hf, written_sum_iff, sub_self]
    exact ⟨fun h0 => ⟨fun _ => h0, fun h' => absurd (ht.symm.trans h') (by decide)⟩,
      fun hc => hc.1 ht⟩
  · rw [rightValue_iff hf, written_sum_iff, sub_add_cancel_left]
    exact ⟨fun h0 => ⟨fun h' => absurd (ht.symm.trans h') (by decide), fun _ => h0⟩,
      fun hc => hc.2 ht⟩

/-- In a run over a table every accepted entry does what it should exactly if every
one of them finds what makes up for its value. -/
theorem aarch64_right_iff (env : SymEnv .elf64) (base : Addr64) (table : List Rela) (m : Mem64) :
    (∀ r m₁ m₂, Accepted (relocEntry env base) table m r m₁ m₂ →
      RightValue (field env base r) (r.reloc base) m₁ m₂) ↔
    ∀ r m₁ m₂, Accepted (relocEntry env base) table m r m₁ m₂ → Compensated base r m₁ := by
  refine forall_congr' fun r => forall_congr' fun m₁ => forall_congr' fun m₂ =>
    forall_congr' fun hacc => ?_
  obtain ⟨_, _, _, _, h⟩ := hacc
  exact accepted_right_iff h

def absEntry : Rela := ⟨0x100, 257, 5⟩

/-- The field of the entry holds ones before. -/
theorem abs64_adds_field : ¬ ∀ r m₁ m₂,
    Accepted (relocEntry (noSymbols .elf64) 0x10000) [absEntry] (fun _ => 1) r m₁ m₂ →
      RightValue (field (noSymbols .elf64) 0x10000 r) (r.reloc 0x10000) m₁ m₂ := by
  intro h
  have hstep : relocEntry (noSymbols .elf64) 0x10000 absEntry (fun _ => 1) =
      some (store (fun _ => 1) (absEntry.reloc 0x10000)
        (load 8 (fun _ => 1) (absEntry.reloc 0x10000) + (0 + absEntry.r_addend))) := rfl
  have hright := h _ _ _ (accepted_single hstep)
  have hzero := ((accepted_right_iff hstep).mp hright).1 rfl
  have hbit := load_bit (n := 8) (m := fun _ => 1) (p := absEntry.reloc 0x10000) (i := 0)
    (by decide)
  rw [hzero] at hbit
  exact absurd hbit (by decide)

end Bionic.Aarch64Values
