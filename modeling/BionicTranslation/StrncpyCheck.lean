import BionicTranslation.CFunctions

/-!
# `__strncpy_chk` and `__strncpy_chk2`

The first is `strncpy`. The second copies by itself: a loop over the string and one over the
rest of the destination count down the same `size_t`, each before it looks at it.
-/

set_option autoImplicit false

namespace Bionic.StrncpyCheck
open Bionic.CStrings Bionic.CFunctions

variable {w : ℕ} {α : Type*} [Zero α]

/-- The destination's memory afterwards, the returned pointer, and the places of the source
that were read, in order. -/
structure Copied (α : Type*) where
  m : ℕ → α
  ret : ℕ
  reads : List ℕ

def padLoop : ℕ → (ℕ → α) → ℕ → BitVec w → Option (ℕ → α)
  | 0, _, _, _ => none
  | fuel + 1, m, d, n =>
    if n - 1 ≠ 0 then padLoop fuel (Function.update m d 0) (d + 1) (n - 1) else some m

def strncpyChk (m : ℕ → α) (dst : ℕ) (src : List α) (len _destLen : BitVec w) :
    (ℕ → α) × ℕ :=
  (strncpy m dst src len.toNat, dst)

section Source
variable [DecidableEq α]

def copyLoop (mem : ℕ → α) :
    ℕ → (ℕ → α) → ℕ → ℕ → BitVec w → Option ((ℕ → α) × List ℕ)
  | 0, _, _, _, _ => none
  | fuel + 1, m, d, s, n =>
    let m := Function.update m d (mem s)
    if mem s = 0 then (padLoop fuel m (d + 1) n).map fun m => (m, [s])
    else if n - 1 ≠ 0 then
      (copyLoop mem fuel m (d + 1) (s + 1) (n - 1)).map fun r => (r.1, s :: r.2)
    else some (m, [s])

def strncpyChk2 (fuel : ℕ) (m : ℕ → α) (dst : ℕ) (mem : ℕ → α) (src : ℕ)
    (n _destLen _srcLen : BitVec w) : Option (Copied α) :=
  if n ≠ 0 then (copyLoop mem fuel m dst src n).map fun r => ⟨r.1, dst, r.2⟩
  else some ⟨m, dst, []⟩

end Source

variable {mem m : ℕ → α} {dst src fuel k i : ℕ} {n : BitVec w} {s : List α}

theorem pred_toNat (hn : n.toNat = k + 1) : (n - 1).toNat = k := by
  have hlt : k + 1 < 2 ^ w := hn ▸ n.isLt
  have hone : 1 % 2 ^ w = 1 := Nat.mod_eq_of_lt (by omega)
  change (n - BitVec.ofNat w 1).toNat = k
  rw [BitVec.toNat_sub, BitVec.toNat_ofNat, hn, hone, show 2 ^ w - 1 + (k + 1) = k + 2 ^ w by omega,
    Nat.add_mod_right, Nat.mod_eq_of_lt (by omega)]

theorem pred_ne_zero_iff (hn : n.toNat = k + 1) : n - 1 ≠ 0 ↔ k ≠ 0 := by
  rw [← pred_toNat hn, not_iff_not, BitVec.toNat_eq]
  rfl

theorem padLoop_eq (hn : n.toNat = k + 1) (hf : k < fuel) :
    padLoop fuel m dst n = some (write m dst (List.replicate k 0)) := by
  induction k generalizing fuel m dst n with
  | zero =>
    obtain ⟨fuel, rfl⟩ := Nat.exists_eq_add_of_lt hf
    rw [padLoop, if_neg ((pred_ne_zero_iff hn).not.mpr (not_not.mpr rfl)), List.replicate_zero,
      write_nil]
  | succ k ih =>
    obtain ⟨fuel, rfl⟩ := Nat.exists_eq_add_of_lt hf
    rw [padLoop, if_pos ((pred_ne_zero_iff hn).mpr (Nat.succ_ne_zero k)),
      ih (pred_toNat hn) (by omega), List.replicate_succ, write_cons]

variable [DecidableEq α]

theorem copyLoop_nil (h : Holds mem src []) (hn : n.toNat = k + 1) (hf : k < fuel) :
    copyLoop mem (fuel + 1) m dst src n =
      some (write m dst (List.replicate (k + 1) 0), [src]) := by
  have hz : mem src = 0 := h.ends
  rw [copyLoop, if_pos hz, padLoop_eq hn hf, hz, List.replicate_succ, write_cons]
  rfl

/-- The induction is on the string; the counter may end it early. -/
theorem copyLoop_eq (h : Holds mem src s) (hn : n.toNat = k + 1) (hf : k + 1 < fuel) :
    copyLoop mem fuel m dst src n =
      some (write m dst (padded (k + 1) s), List.range' src (min (k + 1) (s.length + 1))) := by
  induction s generalizing fuel m dst src n k with
  | nil =>
    obtain ⟨fuel, rfl⟩ := Nat.exists_eq_add_of_lt hf
    rw [copyLoop_nil h hn (by omega), padded_nil, List.length_nil, Nat.min_eq_right (by omega)]
    rfl
  | cons x s ih =>
    obtain ⟨fuel, rfl⟩ := Nat.exists_eq_add_of_lt hf
    rw [copyLoop, if_neg h.head_ne, h.chars.1, padded_cons, write_cons, List.length_cons,
      Nat.add_min_add_right, List.range'_succ]
    cases k with
    | zero =>
      have hstop : ¬ n - 1 ≠ 0 := fun h => (pred_ne_zero_iff hn).mp h rfl
      rw [if_neg hstop, Nat.zero_min, padded, List.take_zero, Nat.zero_sub, List.replicate_zero,
        List.nil_append, write_nil]
      rfl
    | succ k =>
      rw [if_pos ((pred_ne_zero_iff hn).mpr (Nat.succ_ne_zero k)),
        ih h.tail (pred_toNat hn) (by omega)]
      rfl

theorem strncpyChk2_eq (h : Holds mem src s) (hf : n.toNat < fuel) (destLen srcLen : BitVec w) :
    strncpyChk2 fuel m dst mem src n destLen srcLen =
      some ⟨strncpy m dst s n.toNat, dst, List.range' src (min n.toNat (s.length + 1))⟩ := by
  rw [strncpyChk2, strncpy]
  rcases Nat.eq_zero_or_pos n.toNat with h0 | hpos
  · have hn : n = 0 := BitVec.eq_of_toNat_eq h0
    rw [if_neg (not_not.mpr hn), h0, Nat.zero_min, padded, List.take_zero, Nat.zero_sub,
      List.replicate_zero, List.nil_append, write_nil]
    rfl
  · obtain ⟨k, hk⟩ := Nat.exists_eq_add_of_lt hpos
    rw [Nat.zero_add] at hk
    have hn : n ≠ 0 := fun h => hpos.ne' (h ▸ BitVec.toNat_zero)
    rw [if_pos hn, hk, copyLoop_eq h hk (by omega)]
    rfl

/-- The bytes are those of `strncpy`, and what is read of the source is a prefix of the string
with its terminator, of at most `n` characters. -/
theorem strncpyChk2_eq_strncpyChk (m : ℕ → α) (dst : ℕ) (h : Holds mem src s)
    (hf : n.toNat < fuel) (destLen srcLen : BitVec w) :
    ∃ c, strncpyChk2 fuel m dst mem src n destLen srcLen = some c ∧
      (c.m, c.ret) = strncpyChk m dst s n destLen ∧ Filled m dst s n.toNat c.m ∧
      c.reads = List.range' src (min n.toNat (s.length + 1)) :=
  ⟨_, strncpyChk2_eq h hf destLen srcLen, rfl, strncpy_filled m dst s n.toNat, rfl⟩

/-- No room at all, and room for a part of the padding. -/
theorem strncpyChk2_small :
    (∃ c, strncpyChk2 1 (fun _ => 7) 0 (write (fun _ => 0) 0 [(5 : BitVec 8), 0]) 0
      (0 : BitVec 32) 0 0 = some c ∧ c.reads = []) ∧
    ∃ c, strncpyChk2 4 (fun _ => 7) 0 (write (fun _ => 0) 0 [(5 : BitVec 8), 0]) 0
      (3 : BitVec 32) 0 0 = some c ∧ c.reads = [0, 1] := by
  have h5 : (0 : BitVec 8) ∉ [5] := by decide
  have h := holds_write (fun _ => 0) 0 h5
  constructor
  · obtain ⟨c, hc, -, -, hr⟩ := strncpyChk2_eq_strncpyChk (fun _ => 7) 0 h
      (show (0 : BitVec 32).toNat < 1 by decide) 0 0
    exact ⟨c, hc, hr⟩
  · obtain ⟨c, hc, -, -, hr⟩ := strncpyChk2_eq_strncpyChk (fun _ => 7) 0 h
      (show (3 : BitVec 32).toNat < 4 by decide) 0 0
    exact ⟨c, hc, hr⟩

end Bionic.StrncpyCheck
