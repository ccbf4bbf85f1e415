import BionicTranslation.RelocSymbols

/-!
# Tables of relocations with addends

`apkenv_reloc_library` of the 64-bit builds. The loop is common to the two
machines; an entry either changes memory or is refused, and the first refused
entry ends the loop.
-/

set_option autoImplicit false

namespace Bionic.RelaTables
open Bionic.Bytes Bionic.Elf Bionic.RelocSymbols

abbrev Addr64 := Addr .elf64
abbrev Mem64 := Mem .elf64

structure Rela where
  r_offset : Addr64
  r_info : BitVec 64
  r_addend : Addr64
  deriving DecidableEq, Repr

def Rela.type (r : Rela) : ℕ := r.r_info.toNat % 0x100000000

def Rela.sym (r : Rela) : ℕ := r.r_info.toNat / 0x100000000

def Rela.reloc (r : Rela) (base : Addr64) : Addr64 := r.r_offset + base

abbrev Entry := Rela → Mem64 → Option Mem64

/-- `false` stands for the return value -1. -/
def relocLibrary (entry : Entry) : List Rela → Mem64 → Mem64 × Bool
  | [], m => (m, true)
  | r :: rs, m =>
    match entry r m with
    | none => (m, false)
    | some m => relocLibrary entry rs m

/-- The entry `r` of the table is accepted when its turn comes, and takes the memory
from `m₁` to `m₂`. -/
def Accepted (entry : Entry) (table : List Rela) (m : Mem64) (r : Rela) (m₁ m₂ : Mem64) : Prop :=
  ∃ before after, table = before ++ r :: after ∧
    relocLibrary entry before m = (m₁, true) ∧ entry r m₁ = some m₂

theorem accepted_single {entry : Entry} {r : Rela} {m m' : Mem64} (h : entry r m = some m') :
    Accepted entry [r] m r m m' := ⟨[], [], rfl, rfl, h⟩

def Written (n : ℕ) (p v : Addr64) (m m' : Mem64) : Prop :=
  load n m' p = v.setWidth (8 * n) ∧ ∀ a, ¬ Within p n a → m' a = m a

theorem written_iff {n : ℕ} {p v : Addr64} {m m' : Mem64} (hn : n ≤ 8) :
    Written n p v m m' ↔ m' = store m p (v.setWidth (8 * n)) :=
  (eq_store_iff (hn.trans (by decide))).symm

theorem setWidth_whole (v : Addr64) : v.setWidth (8 * 8) = v := BitVec.setWidth_eq v

theorem written_store (p v : Addr64) (m : Mem64) : Written 8 p v m (store m p v) :=
  (written_iff (le_refl _)).mpr (by rw [setWidth_whole])

theorem written_sum_iff {p u v : Addr64} {m : Mem64} :
    Written 8 p v m (store m p (load 8 m p + u)) ↔ load 8 m p = v - u := by
  rw [Written, load_store (by decide), setWidth_whole]
  constructor
  · rintro ⟨h, -⟩
    exact eq_sub_of_add_eq h
  · intro h
    exact ⟨by rw [h]; exact sub_add_cancel v u, fun a ha => store_other ha⟩

abbrev Field := Option (ℕ × Addr64)

/-- An entry of a type that has a field gives it its value and does nothing else. -/
def RightValue (field : Field) (p : Addr64) (m m' : Mem64) : Prop :=
  ∀ n v, field = some (n, v) → Written n p v m m'

theorem rightValue_iff {field : Field} {p v : Addr64} {n : ℕ} {m m' : Mem64}
    (h : field = some (n, v)) : RightValue field p m m' ↔ Written n p v m m' := by
  constructor
  · intro hr
    exact hr n v h
  · intro hw n' v' h'
    cases h.symm.trans h'
    exact hw

theorem rightValue_none {field : Field} {p : Addr64} {m m' : Mem64} (h : field = none) :
    RightValue field p m m' := by
  intro n v h'
  cases h.symm.trans h'

theorem rightValue_eq {field : Field} {p : Addr64} {n : ℕ} {v : Addr64} {m m' : Mem64}
    (hn : n ≤ 8) (h : field = some (n, v)) :
    RightValue field p m m' ↔ m' = store m p (v.setWidth (8 * n)) := by
  rw [rightValue_iff h, written_iff hn]

def writeField (field : Field) (p : Addr64) (m : Mem64) : Mem64 :=
  match field with
  | some (n, v) => store m p (v.setWidth (8 * n))
  | none => m

def fieldWidth : Field → ℕ
  | some (n, _) => n
  | none => 0

theorem writeField_comm {f g : Field} {p q : Addr64} {m : Mem64}
    (h : Apart p (fieldWidth f) q (fieldWidth g)) :
    writeField g q (writeField f p m) = writeField f p (writeField g q m) := by
  cases f with
  | none => rfl
  | some x =>
    cases g with
    | none => rfl
    | some y => exact store_comm h

theorem Accepted.cons {entry : Entry} {rs : List Rela} {r s : Rela} {m m' m₁ m₂ : Mem64}
    (h : entry r m = some m') (ha : Accepted entry rs m' s m₁ m₂) :
    Accepted entry (r :: rs) m s m₁ m₂ := by
  obtain ⟨before, after, rfl, hrun, hs⟩ := ha
  refine ⟨r :: before, after, rfl, ?_, hs⟩
  rw [relocLibrary, h]
  exact hrun

theorem Accepted.head {entry : Entry} {rs : List Rela} {r : Rela} {m m' : Mem64}
    (h : entry r m = some m') : Accepted entry (r :: rs) m r m m' := ⟨[], rs, rfl, rfl, h⟩

theorem relocLibrary_fields {entry : Entry} {field : Rela → Field} {place : Rela → Addr64}
    {table : List Rela} {m : Mem64} (hok : (relocLibrary entry table m).2 = true)
    (h : ∀ r m₁ m₂, Accepted entry table m r m₁ m₂ → m₂ = writeField (field r) (place r) m₁) :
    (relocLibrary entry table m).1 =
      table.foldl (fun m r => writeField (field r) (place r) m) m := by
  induction table generalizing m with
  | nil => rfl
  | cons r rs ih =>
    cases hr : entry r m with
    | none =>
      rw [relocLibrary, hr] at hok
      cases hok
    | some m' =>
      rw [relocLibrary, hr] at hok ⊢
      rw [List.foldl_cons, ← h r m m' (Accepted.head hr)]
      exact ih hok fun s m₁ m₂ hs => h s m₁ m₂ (hs.cons hr)

theorem relocLibrary_ok_iff {entry : Entry}
    (hany : ∀ {r m m₁} m', entry r m = some m₁ → ∃ m₂, entry r m' = some m₂)
    (m₀ : Mem64) {table : List Rela} {m : Mem64} :
    (relocLibrary entry table m).2 = true ↔ ∀ r ∈ table, ∃ m', entry r m₀ = some m' := by
  induction table generalizing m with
  | nil => simp [relocLibrary]
  | cons r rs ih =>
    rw [List.forall_mem_cons]
    cases hr : entry r m with
    | none =>
      rw [relocLibrary, hr]
      refine iff_of_false (by simp) fun h => ?_
      obtain ⟨m', hm'⟩ := h.1
      obtain ⟨m₂, hm₂⟩ := hany m hm'
      cases hr.symm.trans hm₂
    | some m' =>
      rw [relocLibrary, hr, ih]
      exact (and_iff_right (hany m₀ hr)).symm

/-- Fields that do not overlap can be written in any order. -/
theorem foldl_writeField_perm {field : Rela → Field} {place : Rela → Addr64}
    {t t' : List Rela} (hp : t.Perm t')
    (hapart : t.Pairwise fun r r' =>
      Apart (place r) (fieldWidth (field r)) (place r') (fieldWidth (field r'))) (m : Mem64) :
    t.foldl (fun m r => writeField (field r) (place r) m) m =
      t'.foldl (fun m r => writeField (field r) (place r) m) m := by
  have : Std.Symm fun r r' =>
      Apart (place r) (fieldWidth (field r)) (place r') (fieldWidth (field r')) :=
    ⟨fun _ _ h => h.symm⟩
  refine hp.foldl_eq' (fun r hr r' hr' m => ?_) m
  by_cases he : r = r'
  · rw [he]
  · exact writeField_comm (hapart.forall hr hr' he)

end Bionic.RelaTables
