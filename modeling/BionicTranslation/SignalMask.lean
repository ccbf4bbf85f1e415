import Mathlib
import BionicTranslation.Records

/-!
# Signal masks

A bionic signal set is one word, that of the host is wider. `bionic_sigaction` copies the
members one by one, with one loop on the way in and another on the way out.
-/

set_option autoImplicit false

namespace Bionic.SignalMask
open Bionic.Elf

variable {c : ElfClass}

inductive Errno where
  | einval
  deriving DecidableEq, Repr

def ret : Except Errno ℤ → ℤ
  | .ok r => r
  | .error _ => -1

def bionicSigaddset (set : Option (BitVec c.bits)) (sig : ℤ) : Except Errno (BitVec c.bits) :=
  let bit := sig - 1
  match set with
  | none => .error .einval
  | some local_set =>
    if bit < 0 ∨ bit ≥ c.bits then .error .einval
    else .ok (local_set ||| 1#c.bits <<< bit.toNat)

def bionicSigismember (set : Option (BitVec c.bits)) (sig : ℤ) : Except Errno ℤ :=
  let bit := sig - 1
  match set with
  | none => .error .einval
  | some local_set =>
    if bit < 0 ∨ bit ≥ c.bits then .error .einval
    else .ok ((local_set >>> bit.toNat) &&& 1#c.bits).toNat

structure BionicSigaction (c : ElfClass) where
  sa_flags : BitVec 32
  bsa_handler : Addr c
  sa_mask : BitVec c.bits
  sa_restorer : Addr c
  deriving DecidableEq, Repr

structure Sigaction (c : ElfClass) where
  sa_handler : Addr c
  sa_mask : Finset ℕ
  sa_flags : BitVec 32
  sa_restorer : Addr c
  deriving DecidableEq

def sigrtmin : ℕ := 34
def sigrtmax : ℕ := 64

def installMask (mask : BitVec c.bits) : Finset ℕ :=
  (List.range' 35 (sigrtmax - 35)).foldl (fun gmask (signo : ℕ) =>
    if ret (bionicSigismember (some mask) signo) ≠ 0 then insert signo gmask else gmask) ∅

/-- One round of the loop over the members that come out. What `bionic_sigaddset` returns
is ignored. -/
def report (gmask : Finset ℕ) (mask : BitVec c.bits) (signo : ℕ) : BitVec c.bits :=
  if signo ∈ gmask then
    match bionicSigaddset (some mask) signo with
    | .ok set => set
    | .error _ => mask
  else mask

def reportMask (gmask : Finset ℕ) : BitVec c.bits :=
  (List.range' (sigrtmin + 3) (sigrtmax - (sigrtmin + 3))).foldl (report gmask) 0

abbrev Actions (c : ElfClass) := ℤ → Sigaction c

def sigaction (host : Actions c) (sig : ℤ) (act : Option (Sigaction c)) :
    Actions c × Sigaction c :=
  (act.elim host fun gact => Function.update host sig gact, host sig)

def hostSignal (sig : ℤ) : ℤ := if sig = 33 then sigrtmin else sig

def bionicSigaction (host : Actions c) (sig : ℤ) (act : Option (BionicSigaction c))
    (oact : Bool) : Actions c × Option (BionicSigaction c) :=
  let gact := act.map fun act =>
    ({ sa_handler := act.bsa_handler
       sa_mask := installMask act.sa_mask
       sa_flags := act.sa_flags
       sa_restorer := act.sa_restorer } : Sigaction c)
  let r := sigaction host (hostSignal sig) gact
  (r.1, if oact then some
      { sa_flags := r.2.sa_flags
        bsa_handler := r.2.sa_handler
        sa_mask := reportMask r.2.sa_mask
        sa_restorer := r.2.sa_restorer }
    else none)

def Member (mask : BitVec c.bits) (s : ℕ) : Prop := 1 ≤ s ∧ mask.getLsbD (s - 1) = true

def Reserved (s : ℕ) : Prop := 32 ≤ s ∧ s ≤ 35

def IsSignal (s : ℕ) : Prop := 1 ≤ s ∧ s ≤ sigrtmax

instance (s : ℕ) : Decidable (Reserved s) := inferInstanceAs (Decidable (32 ≤ s ∧ s ≤ 35))
instance (s : ℕ) : Decidable (IsSignal s) := inferInstanceAs (Decidable (1 ≤ s ∧ s ≤ sigrtmax))

theorem member_le {mask : BitVec c.bits} {s : ℕ} (h : Member mask s) : s ≤ c.bits := by
  obtain ⟨hs, hm⟩ := h
  have hlt := BitVec.lt_of_getLsbD hm
  omega

theorem shifted_bit {w : ℕ} (hw : 0 < w) (x : BitVec w) (k : ℕ) :
    ((x >>> k) &&& 1#w).toNat ≠ 0 ↔ x.getLsbD k = true := by
  rw [BitVec.and_one_eq_setWidth_ofBool_getLsbD]
  cases hb : (x >>> k).getLsbD 0 <;> simp_all

theorem sigismember_iff (mask : BitVec c.bits) {s : ℕ} (hs : 1 ≤ s) :
    ret (bionicSigismember (some mask) s) ≠ 0 ↔ (s ≤ c.bits → Member mask s) := by
  have hbit : ((s : ℤ) - 1).toNat = s - 1 := by omega
  by_cases hle : s ≤ c.bits
  · have hin : ¬ ((s : ℤ) - 1 < 0 ∨ (s : ℤ) - 1 ≥ c.bits) := by omega
    simp only [bionicSigismember, if_neg hin, hbit, ret]
    rw [Nat.cast_ne_zero, shifted_bit (by omega)]
    simp [Member, hs, hle]
  · have hout : (s : ℤ) - 1 < 0 ∨ (s : ℤ) - 1 ≥ c.bits := by omega
    simp only [bionicSigismember, if_pos hout, ret]
    simp [hle]

theorem member_report (gmask : Finset ℕ) (mask : BitVec c.bits) {a s : ℕ} (ha : 1 ≤ a) :
    Member (report gmask mask a) s ↔ Member mask s ∨ s = a ∧ a ∈ gmask ∧ a ≤ c.bits := by
  have hbit : ((a : ℤ) - 1).toNat = a - 1 := by omega
  rw [report]
  split_ifs with hg
  · by_cases hle : a ≤ c.bits
    · have hin : ¬ ((a : ℤ) - 1 < 0 ∨ (a : ℤ) - 1 ≥ c.bits) := by omega
      simp only [bionicSigaddset, if_neg hin, hbit, hg, hle, and_true, Member,
        BitVec.getLsbD_or, BitVec.getLsbD_shiftLeft, BitVec.getLsbD_one, Bool.or_eq_true,
        Bool.and_eq_true, Bool.not_eq_true', decide_eq_true_eq, decide_eq_false_iff_not,
        and_or_left]
      refine or_congr_right ?_
      omega
    · have hout : (a : ℤ) - 1 < 0 ∨ (a : ℤ) - 1 ≥ c.bits := by omega
      simp only [bionicSigaddset, if_pos hout]
      simp [hle]
  · simp [hg]

theorem mem_insert_fold {p : ℕ → Prop} [DecidablePred p] (l : List ℕ) (m : Finset ℕ) (s : ℕ) :
    s ∈ l.foldl (fun m a => if p a then insert a m else m) m ↔ s ∈ m ∨ s ∈ l ∧ p s := by
  induction l generalizing m with
  | nil => simp
  | cons a l ih =>
    rw [List.foldl_cons, ih]
    split_ifs with ha
    · rw [Finset.mem_insert, List.mem_cons]
      by_cases hs : s = a
      · subst hs
        simp [ha]
      · simp [hs]
    · rw [List.mem_cons]
      by_cases hs : s = a
      · subst hs
        simp [ha]
      · simp [hs]

theorem mem_installMask (mask : BitVec c.bits) (s : ℕ) :
    s ∈ installMask mask ↔ (35 ≤ s ∧ s < 64) ∧ (s ≤ c.bits → Member mask s) := by
  rw [installMask, mem_insert_fold]
  simp only [Finset.notMem_empty, false_or, List.mem_range'_1, sigrtmax]
  constructor
  · rintro ⟨⟨hl, hu⟩, hm⟩
    exact ⟨⟨hl, by omega⟩, (sigismember_iff mask (by omega)).mp hm⟩
  · rintro ⟨⟨hl, hu⟩, hm⟩
    exact ⟨⟨hl, by omega⟩, (sigismember_iff mask (by omega)).mpr hm⟩

theorem member_reportMask (gmask : Finset ℕ) (s : ℕ) :
    Member (reportMask gmask : BitVec c.bits) s ↔ (37 ≤ s ∧ s < 64) ∧ s ∈ gmask ∧ s ≤ c.bits := by
  have hfold : ∀ (l : List ℕ) (mask : BitVec c.bits), (∀ a ∈ l, 1 ≤ a) →
      (Member (l.foldl (report gmask) mask) s ↔
        Member mask s ∨ s ∈ l ∧ s ∈ gmask ∧ s ≤ c.bits) := by
    intro l
    induction l with
    | nil => simp
    | cons a l ih =>
      intro mask hl
      rw [List.foldl_cons, ih _ fun b hb => hl b (List.mem_cons_of_mem a hb),
        member_report gmask mask (hl a List.mem_cons_self), List.mem_cons]
      by_cases hs : s = a
      · subst hs
        simp only [true_and, true_or]
        tauto
      · simp [hs]
  rw [reportMask, hfold _ _ fun a ha => ?_]
  · have hzero : ¬ Member (0 : BitVec c.bits) s := fun h => by simpa using h.2
    rw [or_iff_right hzero, List.mem_range'_1]
    rfl
  · have hlow := (List.mem_range'_1.mp ha).1
    exact le_trans (by decide) hlow

/-- What a call installs, and what the next call without a new action reports. -/
structure Kept (c : ElfClass) (host : Actions c) (sig : ℤ) (act : BionicSigaction c)
    (oact : Bool) : Prop where
  installed : ∀ s, IsSignal s → ¬ Reserved s →
    (s ∈ ((bionicSigaction host sig (some act) oact).1 (hostSignal sig)).sa_mask ↔
      Member act.sa_mask s)
  reported : ∃ old,
    (bionicSigaction (bionicSigaction host sig (some act) oact).1 sig none true).2 = some old ∧
      (∀ s, Member old.sa_mask s ↔ Member act.sa_mask s ∧ ¬ Reserved s) ∧
      old.bsa_handler = act.bsa_handler ∧ old.sa_flags = act.sa_flags

def Copied (c : ElfClass) (mask : BitVec c.bits) : Prop :=
  c = .elf64 ∧ ∀ s, Member mask s → ¬ Reserved s → 37 ≤ s ∧ s < 64

theorem install_action (host : Actions c) (sig : ℤ) (act : BionicSigaction c) (oact : Bool) :
    (bionicSigaction host sig (some act) oact).1 (hostSignal sig) =
      ⟨act.bsa_handler, installMask act.sa_mask, act.sa_flags, act.sa_restorer⟩ := by
  simp [bionicSigaction, sigaction]

theorem report_action (host : Actions c) (sig : ℤ) :
    (bionicSigaction host sig none true).2 =
      some ⟨(host (hostSignal sig)).sa_flags, (host (hostSignal sig)).sa_handler,
        reportMask (host (hostSignal sig)).sa_mask, (host (hostSignal sig)).sa_restorer⟩ := rfl

theorem Kept.copied {host : Actions c} {sig : ℤ} {act : BionicSigaction c} {oact : Bool}
    (h : Kept c host sig act oact) : Copied c act.sa_mask := by
  obtain ⟨hin, old, hold, hmem, -⟩ := h
  rw [install_action] at hin
  rw [report_action, install_action] at hold
  cases hold
  have hc : c = .elf64 := by
    cases c with
    | elf64 => rfl
    | elf32 =>
      have h36 : 36 ∈ installMask act.sa_mask :=
        (mem_installMask _ 36).mpr ⟨by decide, fun hle => absurd hle (by decide)⟩
      have hm := (hin 36 (by decide) (by decide)).mp h36
      exact absurd (member_le hm) (by decide)
  refine ⟨hc, fun s hs hr => ?_⟩
  exact ((member_reportMask _ s).mp ((hmem s).mpr ⟨hs, hr⟩)).1

theorem Copied.kept {host : Actions c} {sig : ℤ} {act : BionicSigaction c} {oact : Bool}
    (h : Copied c act.sa_mask) : Kept c host sig act oact := by
  obtain ⟨rfl, hcopied⟩ := h
  have hin : ∀ s, IsSignal s → ¬ Reserved s →
      (s ∈ installMask act.sa_mask ↔ Member act.sa_mask s) := by
    intro s hs hr
    rw [mem_installMask]
    refine ⟨fun hm => hm.2 hs.2, fun hm => ⟨?_, fun _ => hm⟩⟩
    obtain ⟨hl, hu⟩ := hcopied s hm hr
    exact ⟨by omega, hu⟩
  refine ⟨fun s hs hr => ?_, ?_⟩
  · rw [install_action]
    exact hin s hs hr
  · rw [report_action, install_action]
    refine ⟨_, rfl, fun s => ?_, rfl, rfl⟩
    rw [member_reportMask]
    constructor
    · rintro ⟨⟨hl, hu⟩, hm, -⟩
      have hr : ¬ Reserved s := fun hr => absurd (hl.trans hr.2) (by decide)
      exact ⟨(hin s ⟨by omega, hu.le⟩ hr).mp hm, hr⟩
    · rintro ⟨hm, hr⟩
      have hrange := hcopied s hm hr
      have hsig : IsSignal s := ⟨hm.1, hrange.2.le⟩
      exact ⟨hrange, (hin s hsig hr).mpr hm, hsig.2⟩

/-- A mask is installed and reported as it is just when the word has 64 bits and no member
outside the reserved ones is below 37 or is 64. -/
theorem mask_kept_iff (c : ElfClass) (host : Actions c) (sig : ℤ) (act : BionicSigaction c)
    (oact : Bool) : Kept c host sig act oact ↔ Copied c act.sa_mask :=
  ⟨Kept.copied, Copied.kept⟩

/-- `SIGINT` in the mask is not installed. -/
theorem low_member_lost : ¬ Kept .elf64 (fun _ => ⟨0, ∅, 0, 0⟩) 15 ⟨0, 0x1000, 2, 0⟩ true := by
  intro h
  have hm : Member (c := .elf64) 2 2 := ⟨by decide, by decide⟩
  exact absurd (h.copied.2 2 hm (by decide)).1 (by decide)

end Bionic.SignalMask
