import BionicTranslation.RelTables

/-!
# Relocation values on ARM and i386

What the types ask for is compared with what an entry does, for every value of
the pointer that entries before it may have left. R_ARM_REL32 subtracts the
offset of the place and is refused for a weak symbol that nothing defines,
R_386_NONE is an unknown type, and R_ARM_COPY has a size of its own only when a
library defines the symbol.
-/

set_option autoImplicit false

namespace Bionic.RelValues
open Bionic.Bytes Bionic.Elf Bionic.RelocSymbols Bionic.RelTables

variable {arch : Arch} {env : SymEnv .elf32} {base S : Addr32} {r : Rel} {s : SymPtr} {m : Mem32}

/-- What an undefined weak reference is by IHI0044C: the place if the relocation is pc-relative,
otherwise zero. -/
def weakRight (reloc : Addr32) : RelocType → Option Addr32
  | .rel32 => some reloc
  | _ => some 0

/-- The address of the symbol, or 0 if there is none; `none` for a strong reference that nothing
defines. -/
def symbol (arch : Arch) (env : SymEnv .elf32) (base : Addr32) (r : Rel) : Option Addr32 :=
  symbolValue env (lastRel env) (weakRight (r.reloc base) (relocType arch r.type)) r.sym

def WeakSymbol (env : SymEnv .elf32) (sym : ℕ) : Prop :=
  sym ≠ 0 ∧ findSymbol env (lastRel env) sym = .weak

def MissingSymbol (env : SymEnv .elf32) (sym : ℕ) : Prop :=
  sym ≠ 0 ∧ findSymbol env (lastRel env) sym = .missing

/-- The symbol is answered by the host, through a hook or directly. -/
def HostSymbol (env : SymEnv .elf32) (sym : ℕ) : Prop :=
  ∃ a, findSymbol env (lastRel env) sym = .hook a ∨ findSymbol env (lastRel env) sym = .host a

def effect : Outcome → Option (Mem32 × Bool)
  | .done _ m => some (m, true)
  | .refused m => some (m, false)
  | .crash _ => Option.none

/-- The value is stored; only a strong reference that nothing defines has none. -/
def stored (arch : Arch) (env : SymEnv .elf32) (base : Addr32) (r : Rel) (m : Mem32)
    (value : Addr32 → Addr32) : Mem32 × Bool :=
  match symbol arch env base r with
  | some S => (store m (r.reloc base) (value S), true)
  | Option.none => (m, false)

/-- `A` is the word at the place `P`. R_ARM_COPY copies as many bytes as the definition of its
own symbol has and is refused if nothing defines it; a RELATIVE entry with a symbol is refused. -/
def RightEffect (arch : Arch) (env : SymEnv .elf32) (base : Addr32) (r : Rel) (s : SymPtr)
    (m : Mem32) : Prop :=
  let e := effect (relocEntry arch env base r s m)
  let P := r.reloc base
  let A := load 4 m P
  match relocType arch r.type with
  | .none => e = some (m, true)
  | .abs32 => e = some (stored arch env base r m fun S => S + A)
  | .rel32 => e = some (stored arch env base r m fun S => S + A - P)
  | .globDat => e = some (stored arch env base r m fun S => S)
  | .jumpSlot => e = some (stored arch env base r m fun S => S)
  | .relative => e = some (if r.sym = 0 then (store m P (base + A), true) else (m, false))
  | .copy =>
    ((WeakSymbol env r.sym ∨ MissingSymbol env r.sym) ∧ e = some (m, false)) ∨
      ∃ d b, r.sym ≠ 0 ∧ findSymbol env (lastRel env) r.sym = .definition d b ∧
        e = some (copyBytes m P (d.st_value + b) d.st_size.toNat, true)
  | .other _ => True

/-- The effect does not depend on what earlier entries have left in `s`. -/
def Independent (arch : Arch) (env : SymEnv .elf32) (base : Addr32) (r : Rel) (m : Mem32) : Prop :=
  ∀ s s', effect (relocEntry arch env base r s m) = effect (relocEntry arch env base r s' m)

def Sound (arch : Arch) (env : SymEnv .elf32) (base : Addr32) (r : Rel) : Prop :=
  (relocType arch r.type = .none → arch = .arm ∧ ¬ MissingSymbol env r.sym) ∧
  (relocType arch r.type = .rel32 → arch = .arm →
    ¬ WeakSymbol env r.sym ∧ (¬ MissingSymbol env r.sym → base = 0)) ∧
  (relocType arch r.type = .copy → r.sym ≠ 0 ∧ ¬ HostSymbol env r.sym)

/-- What the code takes for the symbol: its switch is not `weakRight`. -/
def taken (arch : Arch) (env : SymEnv .elf32) (base : Addr32) (r : Rel) : Option Addr32 :=
  symbolValue env (lastRel env) (weakValue arch (r.reloc base) (relocType arch r.type)) r.sym

theorem relocEntry_refused (h : taken arch env base r = Option.none) (s : SymPtr) (m : Mem32) :
    relocEntry arch env base r s m = .refused m := by
  by_cases h0 : r.sym = 0
  · rw [taken, symbolValue, if_pos h0] at h
    cases h
  · rw [taken, symbolValue, if_neg h0] at h
    rw [relocEntry, if_neg h0]
    simp only [h]

theorem relocEntry_taken (h : taken arch env base r = some S) (s : SymPtr) (m : Mem32) :
    relocEntry arch env base r s m = applyEntry arch base r (if r.sym = 0 then .null else
      nextPtr env r.sym s (findSymbol env (lastRel env) r.sym)) S m := by
  by_cases h0 : r.sym = 0
  · rw [taken, symbolValue, if_pos h0] at h
    cases h
    rw [relocEntry, if_pos h0, if_pos h0]
  · rw [taken, symbolValue, if_neg h0] at h
    rw [relocEntry, if_neg h0, if_neg h0]
    simp only [h]

theorem symbol_eq_taken (h : ¬ WeakSymbol env r.sym) :
    symbol arch env base r = taken arch env base r := by
  rw [symbol, taken, symbolValue, symbolValue]
  split_ifs with h0
  · rfl
  · cases hf : findSymbol env (lastRel env) r.sym with
    | weak => exact absurd ⟨h0, hf⟩ h
    | _ => rfl

theorem symbol_weak (h : WeakSymbol env r.sym) : symbol arch env base r =
    weakRight (r.reloc base) (relocType arch r.type) := by
  rw [symbol, symbolValue, if_neg h.1, h.2]
  rfl

theorem taken_weak (h : WeakSymbol env r.sym) : taken arch env base r =
    weakValue arch (r.reloc base) (relocType arch r.type) := by
  rw [taken, symbolValue, if_neg h.1, h.2]
  rfl

theorem taken_missing (h : MissingSymbol env r.sym) : taken arch env base r = Option.none := by
  rw [taken, symbolValue, if_neg h.1, h.2]
  rfl

theorem taken_eq_none_iff : taken arch env base r = Option.none ↔ MissingSymbol env r.sym ∨
    WeakSymbol env r.sym ∧ weakValue arch (r.reloc base) (relocType arch r.type) = Option.none := by
  constructor
  · intro h
    by_cases h0 : r.sym = 0
    · rw [taken, symbolValue, if_pos h0] at h
      cases h
    · cases hf : findSymbol env (lastRel env) r.sym with
      | missing => exact Or.inl ⟨h0, hf⟩
      | weak => exact Or.inr ⟨⟨h0, hf⟩, (taken_weak ⟨h0, hf⟩).symm.trans h⟩
      | _ =>
        rw [taken, symbolValue, if_neg h0, hf] at h
        cases h
  · rintro (h | ⟨hweak, hnone⟩)
    · exact taken_missing h
    · exact (taken_weak hweak).trans hnone

theorem not_missing (h : taken arch env base r = some S) : ¬ MissingSymbol env r.sym := by
  intro hmissing
  rw [taken_missing hmissing] at h
  cases h

theorem refused_effect (h : taken arch env base r = Option.none) (m : Mem32) (s : SymPtr) :
    effect (relocEntry arch env base r s m) = some (m, false) := by
  rw [relocEntry_refused h]
  rfl

theorem independent_of_const {e : Option (Mem32 × Bool)}
    (h : ∀ s, effect (relocEntry arch env base r s m) = e) : Independent arch env base r m :=
  fun s s' => by rw [h s, h s']

theorem sound_of_other {type : RelocType} (ht : relocType arch r.type = type) (h1 : type ≠ .none)
    (h2 : type ≠ .rel32) (h3 : type ≠ .copy) : Sound arch env base r :=
  ⟨fun h => absurd (ht.symm.trans h) h1, fun h => absurd (ht.symm.trans h) h2,
    fun h => absurd (ht.symm.trans h) h3⟩

theorem effect_stored (m : Mem32) (value : Addr32 → Addr32)
    (hsym : symbol arch env base r = taken arch env base r)
    (happly : ∀ S p, applyEntry arch base r p S m = .done p (store m (r.reloc base) (value S)))
    (s : SymPtr) : effect (relocEntry arch env base r s m) =
      some (stored arch env base r m value) := by
  rw [stored, hsym]
  cases ht : taken arch env base r with
  | none => exact refused_effect ht m s
  | some S =>
    rw [relocEntry_taken ht, happly]
    rfl

theorem relative_effect (env : SymEnv .elf32) (base : Addr32) (m : Mem32)
    (ht : relocType arch r.type = .relative) (s : SymPtr) :
    effect (relocEntry arch env base r s m) = some (if r.sym = 0 then
      (store m (r.reloc base) (base + load 4 m (r.reloc base)), true) else (m, false)) := by
  by_cases h0 : r.sym = 0
  · have htaken : taken arch env base r = some 0 := if_pos h0
    rw [relocEntry_taken htaken, if_pos h0, if_pos h0]
    simp only [applyEntry, ht, h0, ne_eq, not_true_eq_false, if_false, add_comm base]
    rfl
  · rw [if_neg h0]
    cases htaken : taken arch env base r with
    | none => exact refused_effect htaken m s
    | some S =>
      rw [relocEntry_taken htaken]
      simp only [applyEntry, ht, if_pos h0]
      rfl

theorem none_right_iff (ht : relocType arch r.type = .none) :
    (RightEffect arch env base r s m ∧ Independent arch env base r m) ↔ Sound arch env base r := by
  have hsound : Sound arch env base r ↔ arch = .arm ∧ ¬ MissingSymbol env r.sym :=
    ⟨fun h => h.1 ht, fun h => ⟨fun _ => h, fun h' => (nomatch ht.symm.trans h'),
      fun h' => (nomatch ht.symm.trans h')⟩⟩
  rw [hsound]
  simp only [RightEffect, ht]
  cases htaken : taken arch env base r with
  | none =>
    have heff := refused_effect htaken m
    rw [heff, and_iff_left (independent_of_const heff)]
    refine iff_of_false (by simp) ?_
    rintro ⟨rfl, hstrong⟩
    rcases taken_eq_none_iff.mp htaken with h | ⟨-, h⟩
    · exact hstrong h
    · rw [ht] at h
      cases h
  | some S =>
    have heff : ∀ s, effect (relocEntry arch env base r s m) = some (m, decide (arch = .arm)) := by
      intro s
      rw [relocEntry_taken htaken]
      simp only [applyEntry, ht]
      cases arch <;> rfl
    rw [heff, and_iff_left (independent_of_const heff), and_iff_left (not_missing htaken)]
    simp

theorem copy_right_iff (ht : relocType arch r.type = .copy) :
    (RightEffect arch env base r s m ∧ Independent arch env base r m) ↔ Sound arch env base r := by
  have hsound : Sound arch env base r ↔ r.sym ≠ 0 ∧ ¬ HostSymbol env r.sym :=
    ⟨fun h => h.2.2 ht, fun h => ⟨fun h' => (nomatch ht.symm.trans h'),
      fun h' => (nomatch ht.symm.trans h'), fun _ => h⟩⟩
  have hcopies : ∀ d S, applyEntry arch base r (.sym d) S m =
      .done (.sym d) (copyBytes m (r.reloc base) S d.st_size.toNat) := fun d S => by
    simp only [applyEntry, ht]
  have hnull : ∀ S, applyEntry arch base r .null S m = .crash m := fun S => by
    simp only [applyEntry, ht]
  have hunset : ∀ S, applyEntry arch base r .unset S m = .crash m := fun S => by
    simp only [applyEntry, ht]
  rw [hsound]
  simp only [RightEffect, ht]
  by_cases h0 : r.sym = 0
  · have htaken : taken arch env base r = some 0 := if_pos h0
    have hcrash : effect (relocEntry arch env base r s m) = Option.none := by
      rw [relocEntry_taken htaken, if_pos h0, hnull]
      rfl
    rw [hcrash]
    exact iff_of_false (fun h => by simpa using h.1) fun h => h.1 h0
  have hentry : ∀ {S}, taken arch env base r = some S → ∀ s, relocEntry arch env base r s m =
      applyEntry arch base r (nextPtr env r.sym s (findSymbol env (lastRel env) r.sym)) S m :=
    fun h s => by rw [relocEntry_taken h, if_neg h0]
  have htaken : taken arch env base r = symAddr env
      (weakValue arch (r.reloc base) (relocType arch r.type)) r.sym
      (findSymbol env (lastRel env) r.sym) := if_neg h0
  cases hf : findSymbol env (lastRel env) r.sym with
  | hook a =>
    rw [hf] at htaken hentry
    -- before the first entry that sets the pointer there is nothing to copy from
    refine iff_of_false ?_ fun h => h.2 ⟨a, Or.inl hf⟩
    rintro ⟨hr, hind⟩
    have hfirst := hind s .unset
    rw [hentry htaken .unset, nextPtr, hunset] at hfirst
    rw [hfirst] at hr
    simp [effect] at hr
  | definition d b =>
    rw [hf] at htaken hentry
    have hS : taken arch env base r = some (d.st_value + b) := by
      rw [htaken, symAddr]
      split_ifs <;> rfl
    have hcopy : ∀ s, effect (relocEntry arch env base r s m) =
        some (copyBytes m (r.reloc base) (d.st_value + b) d.st_size.toNat, true) := fun s => by
      rw [hentry hS, nextPtr, hcopies]
      rfl
    refine iff_of_true ⟨Or.inr ⟨d, b, h0, rfl, hcopy s⟩, independent_of_const hcopy⟩ ⟨h0, ?_⟩
    rintro ⟨a, ha | ha⟩ <;> cases hf.symm.trans ha
  | host a =>
    rw [hf] at htaken hentry
    refine iff_of_false (fun h => ?_) fun h => h.2 ⟨a, Or.inr hf⟩
    have hr := h.1
    rw [hentry htaken, nextPtr, hnull] at hr
    simp [effect] at hr
  | weak =>
    have hnone : taken arch env base r = Option.none := by
      rw [taken_weak ⟨h0, hf⟩, ht]
      rfl
    have heff := refused_effect hnone m
    refine iff_of_true ⟨Or.inl ⟨Or.inl ⟨h0, hf⟩, heff s⟩, independent_of_const heff⟩ ⟨h0, ?_⟩
    rintro ⟨a, ha | ha⟩ <;> cases hf.symm.trans ha
  | missing =>
    have hnone : taken arch env base r = Option.none := taken_missing ⟨h0, hf⟩
    have heff := refused_effect hnone m
    refine iff_of_true ⟨Or.inl ⟨Or.inr ⟨h0, hf⟩, heff s⟩, independent_of_const heff⟩ ⟨h0, ?_⟩
    rintro ⟨a, ha | ha⟩ <;> cases hf.symm.trans ha

theorem arm_rel32_right_iff (ht : relocType .arm r.type = .rel32) :
    (RightEffect .arm env base r s m ∧ Independent .arm env base r m) ↔ Sound .arm env base r := by
  have hsound : Sound .arm env base r ↔
      ¬ WeakSymbol env r.sym ∧ (¬ MissingSymbol env r.sym → base = 0) :=
    ⟨fun h => h.2.1 ht rfl, fun h => ⟨fun h' => (nomatch ht.symm.trans h'), fun _ _ => h,
      fun h' => (nomatch ht.symm.trans h')⟩⟩
  rw [hsound]
  simp only [RightEffect, ht, stored]
  by_cases hweak : WeakSymbol env r.sym
  · have htaken : taken .arm env base r = Option.none := by
      rw [taken_weak hweak, ht]
      rfl
    have hright : symbol .arm env base r = some (r.reloc base) := by
      rw [symbol_weak hweak, ht]
      rfl
    refine iff_of_false (fun h => ?_) fun h => h.1 hweak
    have hr := h.1
    rw [relocEntry_refused htaken, hright] at hr
    simp [effect] at hr
  rw [symbol_eq_taken hweak, and_iff_right hweak]
  cases htaken : taken .arm env base r with
  | none =>
    have heff := refused_effect htaken m
    have hmissing : MissingSymbol env r.sym :=
      (taken_eq_none_iff.mp htaken).resolve_right fun h => hweak h.1
    exact iff_of_true ⟨heff s, independent_of_const heff⟩ fun h => absurd hmissing h
  | some S =>
    have heff : ∀ s, effect (relocEntry .arm env base r s m) = some
        (store m (r.reloc base) (load 4 m (r.reloc base) + (S - r.r_offset)), true) := fun s => by
      rw [relocEntry_taken htaken]
      simp only [applyEntry, ht]
      rfl
    have hsum : load 4 m (r.reloc base) + (S - r.r_offset) =
        S + load 4 m (r.reloc base) - r.reloc base + base := by
      rw [Rel.reloc]
      ring
    rw [heff, hsum, and_iff_left (independent_of_const heff),
      forall_prop_of_true (not_missing htaken)]
    constructor
    · intro h
      have hload := congrArg (load 4 · (r.reloc base)) (congrArg Prod.fst (Option.some.inj h))
      simp only at hload
      rw [load_store (by decide), load_store (by decide)] at hload
      exact add_eq_left.mp hload
    · intro hbase
      rw [add_eq_left.mpr hbase]

/-- One entry: it does what its type asks for, whatever came before it, exactly if it
is sound. -/
theorem entry_right_iff (arch : Arch) (env : SymEnv .elf32) (base : Addr32) (r : Rel)
    (s : SymPtr) (m : Mem32) :
    (RightEffect arch env base r s m ∧ Independent arch env base r m) ↔ Sound arch env base r := by
  have hsymbol : weakRight (r.reloc base) (relocType arch r.type) =
      weakValue arch (r.reloc base) (relocType arch r.type) →
        symbol arch env base r = taken arch env base r := fun h => by rw [symbol, h, taken]
  cases ht : relocType arch r.type
  case none => exact none_right_iff ht
  case copy => exact copy_right_iff ht
  case rel32 =>
    cases arch with
    | arm => exact arm_rel32_right_iff ht
    | i386 =>
      have heff := effect_stored m (fun S => S + load 4 m (r.reloc base) - r.reloc base)
        (hsymbol (by rw [ht]; rfl)) (fun S p => by
          simp only [applyEntry, ht]
          congr 2
          ring)
      have hsound : Sound .i386 env base r := ⟨fun h => (nomatch ht.symm.trans h),
        fun _ h => (nomatch h), fun h => (nomatch ht.symm.trans h)⟩
      simp only [RightEffect, ht]
      exact iff_of_true ⟨heff s, independent_of_const heff⟩ hsound
  case abs32 =>
    have heff := effect_stored m (fun S => S + load 4 m (r.reloc base))
      (hsymbol (by rw [ht]; rfl)) fun S p => by simp only [applyEntry, ht, add_comm S]
    simp only [RightEffect, ht]
    exact iff_of_true ⟨heff s, independent_of_const heff⟩ (sound_of_other ht nofun nofun nofun)
  case globDat =>
    have heff := effect_stored m (fun S => S)
      (hsymbol (by rw [ht]; rfl)) fun S p => by simp only [applyEntry, ht]
    simp only [RightEffect, ht]
    exact iff_of_true ⟨heff s, independent_of_const heff⟩ (sound_of_other ht nofun nofun nofun)
  case jumpSlot =>
    have heff := effect_stored m (fun S => S)
      (hsymbol (by rw [ht]; rfl)) fun S p => by simp only [applyEntry, ht]
    simp only [RightEffect, ht]
    exact iff_of_true ⟨heff s, independent_of_const heff⟩ (sound_of_other ht nofun nofun nofun)
  case relative =>
    have heff := relative_effect env base m ht
    simp only [RightEffect, ht]
    exact iff_of_true ⟨heff s, independent_of_const heff⟩ (sound_of_other ht nofun nofun nofun)
  case other n =>
    have heff : ∀ s, effect (relocEntry arch env base r s m) = some (m, false) := fun s => by
      cases htaken : taken arch env base r with
      | none => exact refused_effect htaken m s
      | some S =>
        rw [relocEntry_taken htaken]
        simp only [applyEntry, ht]
        rfl
    simp only [RightEffect, ht]
    exact iff_of_true ⟨trivial, independent_of_const heff⟩ (sound_of_other ht nofun nofun nofun)

/-- In a run over a table every entry does what its type asks for, whatever came before
it, exactly if every entry whose turn comes is sound. -/
theorem rel_right_iff (arch : Arch) (env : SymEnv .elf32) (base : Addr32) (table : List Rel)
    (m : Mem32) :
    (∀ r s₁ m₁, AtTurn arch env base table m r s₁ m₁ →
      RightEffect arch env base r s₁ m₁ ∧ Independent arch env base r m₁) ↔
    ∀ r s₁ m₁, AtTurn arch env base table m r s₁ m₁ → Sound arch env base r :=
  forall_congr' fun r => forall_congr' fun s₁ => forall_congr' fun m₁ =>
    forall_congr' fun _ => entry_right_iff arch env base r s₁ m₁

def relEntry : Rel := ⟨0x100, 3⟩

/-- The word at the place is too high by the base. -/
theorem rel32_forgets_base : ¬ ∀ r s₁ m₁,
    AtTurn .arm (noSymbols .elf32) 0x10000 [relEntry] (fun _ => 0) r s₁ m₁ →
      RightEffect .arm (noSymbols .elf32) 0x10000 r s₁ m₁ ∧
        Independent .arm (noSymbols .elf32) 0x10000 r m₁ := by
  intro h
  have hturn : AtTurn .arm (noSymbols .elf32) 0x10000 [relEntry] (fun _ => 0) relEntry .unset
      (fun _ => 0) := ⟨[], [], rfl, rfl⟩
  have hsound := (entry_right_iff .arm _ _ _ _ _).mp (h _ _ _ hturn)
  exact absurd ((hsound.2.1 rfl rfl).2 fun h => h.1 rfl) (by decide)

end Bionic.RelValues
