import BionicTranslation.UnresolvedRefs

/-!
# The range checks of AArch64

Four types store less than an address and check the sum against a range. Both bounds are
addresses: the negative one comes out above the other, and the range is empty.
-/

set_option autoImplicit false

namespace Bionic.Aarch64Ranges
open Bionic.Bytes Bionic.Elf Bionic.RelocSymbols Bionic.RelaTables Bionic.Aarch64Values
open Bionic.UnresolvedRefs

def narrow (type : RelocType) (S A offset : Addr64) : Option (Addr64 × ℤ × ℤ) :=
  match type with
  | .abs32 => some (S + A, -2147483648, 4294967295)
  | .abs16 => some (S + A, -32768, 65535)
  | .prel32 => some (S + A - offset, -2147483648, 4294967295)
  | .prel16 => some (S + A - offset, -32768, 65535)
  | _ => Option.none

section table
variable (env : SymEnv .elf64) (base : Addr64) (before : List Rela) (r : Rela)
  (after : List Rela) (m m₁ : Mem64)

/-- The entry, whose turn comes with the memory `m₁`, is accepted just when the value is in
the range, and when it is rejected nothing is written and the table is given up. -/
structure Checked (v : Addr64) (low high : ℤ) : Prop where
  accepted : (∃ m₂, relocEntry env base r m₁ = some m₂) ↔ low ≤ v.toInt ∧ v.toInt ≤ high
  rejected : relocEntry env base r m₁ = Option.none →
    relocLibrary (relocEntry env base) (before ++ r :: after) m = (m₁, false)

end table

variable {env : SymEnv .elf64} {base S v : Addr64} {before after : List Rela} {r : Rela}
  {m m₁ : Mem64} {low high : ℤ}

theorem narrow_refused
    (hs : symbolValue env (lastRela env) (weakValue (relocType r.type)) r.sym = some S)
    (hn : narrow (relocType r.type) S r.r_addend r.r_offset = some (v, low, high)) :
    relocEntry env base r m₁ = Option.none := by
  unfold relocEntry
  cases ht : relocType r.type with
  | abs32 =>
    rw [ht] at hs
    simp only [reduceCtorEq, if_false, hs]
    exact addInRange_empty (by decide)
  | abs16 =>
    rw [ht] at hs
    simp only [reduceCtorEq, if_false, hs]
    exact addInRange_empty (by decide)
  | prel32 =>
    rw [ht] at hs
    simp only [reduceCtorEq, if_false, hs]
    exact addInRange_empty (by decide)
  | prel16 =>
    rw [ht] at hs
    simp only [reduceCtorEq, if_false, hs]
    exact addInRange_empty (by decide)
  | _ =>
    rw [ht] at hn
    cases hn

/-- An entry of one of the four types at its turn in a table. The value to be stored is the
sum with what the place holds. -/
theorem range_checked_iff (env : SymEnv .elf64) (base : Addr64) (after : List Rela)
    (ht : relocLibrary (relocEntry env base) before m = (m₁, true))
    (hs : symbolValue env (lastRela env) (weakValue (relocType r.type)) r.sym = some S)
    (hn : narrow (relocType r.type) S r.r_addend r.r_offset = some (v, low, high)) :
    Checked env base before r after m m₁ (load 8 m₁ (r.reloc base) + v) low high ↔
      ¬ (low ≤ (load 8 m₁ (r.reloc base) + v).toInt ∧
        (load 8 m₁ (r.reloc base) + v).toInt ≤ high) := by
  have hrefused : relocEntry env base r m₁ = Option.none := narrow_refused hs hn
  have hnone : ¬ ∃ m₂, relocEntry env base r m₁ = some m₂ := by
    rintro ⟨m₂, hm⟩
    cases hrefused.symm.trans hm
  constructor
  · intro h hin
    exact hnone (h.accepted.mpr hin)
  · intro hout
    refine ⟨iff_of_false hnone hout, fun _ => ?_⟩
    rw [relocLibrary_turn ht, relocLibrary]
    simp only [hrefused]

def wordEntry (addend : Addr64) : Rela := ⟨0x100, 258, addend⟩

/-- 2^40 is out of the range. -/
theorem large_word_checked : Checked (noSymbols .elf64) 0x10000 [] (wordEntry 0x10000000000) []
    (fun _ => 0) (fun _ => 0)
    (load 8 (fun _ => 0) ((wordEntry 0x10000000000).reloc 0x10000) + 0x10000000000)
    (-2147483648) 4294967295 :=
  (range_checked_iff (S := 0) (noSymbols .elf64) 0x10000 [] rfl rfl rfl).mpr (by decide +kernel)

/-- 5 is in the range and is rejected. -/
theorem small_word_refused : load 8 (fun _ => 0) ((wordEntry 5).reloc 0x10000) + 5 = (5 : Addr64) ∧
    relocEntry (noSymbols .elf64) 0x10000 (wordEntry 5) (fun _ => 0) = Option.none ∧
    ¬ Checked (noSymbols .elf64) 0x10000 [] (wordEntry 5) [] (fun _ => 0) (fun _ => 0)
      5 (-2147483648) 4294967295 := by
  have hrefused : relocEntry (noSymbols .elf64) 0x10000 (wordEntry 5) (fun _ => 0) = Option.none :=
    narrow_refused (S := 0) rfl rfl
  refine ⟨by decide +kernel, hrefused, fun h => ?_⟩
  obtain ⟨m₂, hm⟩ := h.accepted.mpr (by decide)
  cases hrefused.symm.trans hm

end Bionic.Aarch64Ranges
