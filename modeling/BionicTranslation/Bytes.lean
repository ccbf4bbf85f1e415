import Mathlib

/-!
# Memory as bytes

Loads and stores of little-endian words in a memory of `w`-bit addresses, which
wrap around. A field is an address and a number of bytes; two fields that share
no byte do not disturb each other. Nothing here names the linker.
-/

set_option autoImplicit false

namespace Bionic.Bytes

variable {w n k : ℕ}

abbrev Memory (w : ℕ) := BitVec w → BitVec 8

def Within (p : BitVec w) (n : ℕ) (a : BitVec w) : Prop := (a - p).toNat < n

instance (p : BitVec w) (n : ℕ) (a : BitVec w) : Decidable (Within p n a) :=
  inferInstanceAs (Decidable (_ < _))

def load (n : ℕ) (m : Memory w) (p : BitVec w) : BitVec (8 * n) :=
  BitVec.ofFnLE fun i : Fin (8 * n) => (m (p + BitVec.ofNat w (i / 8))).getLsbD (i % 8)

def store (m : Memory w) (p : BitVec w) (v : BitVec (8 * n)) : Memory w := fun a =>
  if Within p n a then v.extractLsb' (8 * (a - p).toNat) 8 else m a

def Apart (p : BitVec w) (n : ℕ) (q : BitVec w) (k : ℕ) : Prop :=
  ∀ a, Within p n a → ¬ Within q k a

theorem Apart.symm {p q : BitVec w} (h : Apart p n q k) : Apart q k p n :=
  fun a hq hp => h a hp hq

theorem apart_of_le {p q : BitVec w} (h : n ≤ (q - p).toNat)
    (hw : (q - p).toNat + k ≤ 2 ^ w) : Apart p n q k := by
  intro a ha hq
  have hsub : a - q = (a - p) - (q - p) := (sub_sub_sub_cancel_right a q p).symm
  have hlt := (q - p).isLt
  rw [Within] at ha
  rw [Within, hsub, BitVec.toNat_sub, Nat.mod_eq_of_lt (by omega)] at hq
  omega

theorem add_sub_toNat (p a : BitVec w) : p + BitVec.ofNat w (a - p).toNat = a := by
  rw [BitVec.ofNat_toNat, BitVec.setWidth_eq, BitVec.add_comm, BitVec.sub_add_cancel]

theorem toNat_add_sub {p : BitVec w} {i : ℕ} (hi : i < 2 ^ w) :
    (p + BitVec.ofNat w i - p).toNat = i := by
  rw [BitVec.add_comm, BitVec.add_sub_cancel, BitVec.toNat_ofNat, Nat.mod_eq_of_lt hi]

theorem within_add {p : BitVec w} {i : ℕ} (hi : i < n) (hn : n ≤ 2 ^ w) :
    Within p n (p + BitVec.ofNat w i) := by
  rwa [Within, toNat_add_sub (hi.trans_le hn)]

theorem store_other {m : Memory w} {p a : BitVec w} {v : BitVec (8 * n)} (h : ¬ Within p n a) :
    store m p v a = m a := if_neg h

theorem store_within {m : Memory w} {p a : BitVec w} {v : BitVec (8 * n)} (h : Within p n a) :
    store m p v a = v.extractLsb' (8 * (a - p).toNat) 8 := if_pos h

theorem store_at {m : Memory w} {p : BitVec w} {v : BitVec (8 * n)} {i : ℕ} (hi : i < n)
    (hn : n ≤ 2 ^ w) : store m p v (p + BitVec.ofNat w i) = v.extractLsb' (8 * i) 8 := by
  rw [store_within (within_add hi hn), toNat_add_sub (hi.trans_le hn)]

theorem load_bit {m : Memory w} {p : BitVec w} {i : ℕ} (hi : i < 8 * n) :
    (load n m p).getLsbD i = (m (p + BitVec.ofNat w (i / 8))).getLsbD (i % 8) := by
  rw [load, BitVec.getLsbD_ofFnLE, dif_pos hi]

theorem load_congr {m m' : Memory w} {p : BitVec w} (hn : n ≤ 2 ^ w)
    (h : ∀ a, Within p n a → m a = m' a) : load n m p = load n m' p := by
  apply BitVec.eq_of_getLsbD_eq
  intro i hi
  rw [load_bit hi, load_bit hi, h _ (within_add (by omega) hn)]

theorem load_store {m : Memory w} {p : BitVec w} {v : BitVec (8 * n)} (hn : n ≤ 2 ^ w) :
    load n (store m p v) p = v := by
  apply BitVec.eq_of_getLsbD_eq
  intro i hi
  rw [load_bit hi, store_at (by omega) hn, BitVec.getLsbD_extractLsb']
  have hsplit : 8 * (i / 8) + i % 8 = i := Nat.div_add_mod i 8
  have hlt : i % 8 < 8 := Nat.mod_lt _ (by decide)
  rw [hsplit]
  simp [hlt]

theorem load_store_apart {m : Memory w} {p q : BitVec w} {v : BitVec (8 * n)} (hk : k ≤ 2 ^ w)
    (h : Apart p n q k) : load k (store m p v) q = load k m q :=
  load_congr hk fun a ha => store_other fun hp => h a hp ha

theorem store_load {m : Memory w} {p : BitVec w} : store m p (load n m p) = m := by
  funext a
  by_cases h : Within p n a
  · rw [store_within h]
    apply BitVec.eq_of_getLsbD_eq
    intro i hi
    have hbit : 8 * (a - p).toNat + i < 8 * n := by
      have : (a - p).toNat < n := h
      omega
    have hdiv : (8 * (a - p).toNat + i) / 8 = (a - p).toNat := by omega
    have hmod : (8 * (a - p).toNat + i) % 8 = i := by omega
    rw [BitVec.getLsbD_extractLsb', load_bit hbit, hdiv, hmod, add_sub_toNat]
    simp [hi]
  · exact store_other h

theorem eq_store_iff {m m' : Memory w} {p : BitVec w} {v : BitVec (8 * n)} (hn : n ≤ 2 ^ w) :
    m' = store m p v ↔ load n m' p = v ∧ ∀ a, ¬ Within p n a → m' a = m a := by
  constructor
  · rintro rfl
    exact ⟨load_store hn, fun a ha => store_other ha⟩
  · rintro ⟨hv, ho⟩
    funext a
    by_cases h : Within p n a
    · have hback : store m' p (load n m' p) a = m' a := by rw [store_load]
      rw [← hback, hv, store_within h, store_within h]
    · rw [store_other h, ho a h]

theorem store_comm {m : Memory w} {p q : BitVec w} {v : BitVec (8 * n)} {u : BitVec (8 * k)}
    (h : Apart p n q k) : store (store m p v) q u = store (store m q u) p v := by
  funext a
  by_cases hp : Within p n a
  · rw [store_other (h a hp), store_within hp, store_within hp]
  · rw [store_other (p := p) hp]
    by_cases hq : Within q k a
    · rw [store_within hq, store_within hq]
    · rw [store_other hq, store_other hq, store_other hp]

/-- A store of `n + k` bytes does the work of one of `n` bytes exactly if the last
`k` bytes are already there. -/
theorem store_eq_low_iff {m : Memory w} {p : BitVec w} {v : BitVec (8 * (n + k))}
    (h : n + k ≤ 2 ^ w) : store m p v = store m p (v.setWidth (8 * n)) ↔
      load k m (p + BitVec.ofNat w n) = v.extractLsb' (8 * n) (8 * k) := by
  have hassoc : ∀ j, p + BitVec.ofNat w n + BitVec.ofNat w j = p + BitVec.ofNat w (n + j) := by
    intro j
    rw [BitVec.add_assoc, ← BitVec.ofNat_add]
  constructor
  · intro he
    apply BitVec.eq_of_getLsbD_eq
    intro i hi
    have hbyte := congrFun he (p + BitVec.ofNat w (n + i / 8))
    have hout : ¬ Within p n (p + BitVec.ofNat w (n + i / 8)) := by
      rw [Within, toNat_add_sub (by omega)]
      omega
    rw [store_at (by omega) h, store_other hout] at hbyte
    rw [load_bit hi, hassoc, ← hbyte, BitVec.getLsbD_extractLsb', BitVec.getLsbD_extractLsb']
    have hsplit : 8 * (n + i / 8) + i % 8 = 8 * n + i := by omega
    have hlt : i % 8 < 8 := Nat.mod_lt _ (by decide)
    simp [hsplit, hlt, hi]
  · intro hl
    funext a
    by_cases hin : Within p n a
    · have hin' : Within p (n + k) a := Nat.lt_add_right k hin
      rw [store_within hin, store_within hin']
      apply BitVec.eq_of_getLsbD_eq
      intro i hi
      have hbit : 8 * (a - p).toNat + i < 8 * n := by
        have : (a - p).toNat < n := hin
        omega
      rw [BitVec.getLsbD_extractLsb', BitVec.getLsbD_extractLsb', BitVec.getLsbD_setWidth,
        decide_eq_true hbit, Bool.true_and]
    · rw [store_other hin]
      by_cases hin' : Within p (n + k) a
      · rw [store_within hin']
        have hlow : n ≤ (a - p).toNat := Nat.le_of_not_lt hin
        have hhigh : (a - p).toNat < n + k := hin'
        apply BitVec.eq_of_getLsbD_eq
        intro i hi
        have hbit : 8 * ((a - p).toNat - n) + i < 8 * k := by omega
        have hload := congrArg (fun x => x.getLsbD (8 * ((a - p).toNat - n) + i)) hl
        simp only [load_bit hbit, BitVec.getLsbD_extractLsb'] at hload
        have hdiv : (8 * ((a - p).toNat - n) + i) / 8 = (a - p).toNat - n := by omega
        have hmod : (8 * ((a - p).toNat - n) + i) % 8 = i := by omega
        have hback : n + ((a - p).toNat - n) = (a - p).toNat := by omega
        have hpos : 8 * n + (8 * ((a - p).toNat - n) + i) = 8 * (a - p).toNat + i := by omega
        rw [hdiv, hmod, hassoc, hback, add_sub_toNat, hpos] at hload
        rw [hload, BitVec.getLsbD_extractLsb', decide_eq_true hbit, decide_eq_true hi]
      · rw [store_other hin']

theorem decrement_byte_iff {m k : ℕ} {v : BitVec m} (hk : k + 8 ≤ m) :
    (v - 1#m).extractLsb' k 8 = v.extractLsb' k 8 ↔ v.toNat % 2 ^ k ≠ 0 := by
  have hpow : 2 ^ m = 2 ^ k * 2 ^ (m - k) := by
    rw [← pow_add, Nat.add_sub_cancel' (by omega)]
  have hone : (1#m).toNat = 1 := by
    rw [BitVec.toNat_ofNat, Nat.mod_eq_of_lt (Nat.one_lt_two_pow (by omega))]
  have hd : 0 < 2 ^ k := Nat.two_pow_pos k
  have hlt := v.isLt
  rw [← BitVec.toNat_inj, BitVec.extractLsb'_toNat, BitVec.extractLsb'_toNat, BitVec.toNat_sub,
    hone, Nat.shiftRight_eq_div_pow, Nat.shiftRight_eq_div_pow]
  generalize v.toNat = n at hlt ⊢
  generalize 2 ^ k = d at hpow hd ⊢
  have hdiv : ∀ q, 0 < q → (d * q - 1) / d = q - 1 := by
    intro q hq
    have h := Nat.mul_sub_div 0 d q (by positivity)
    rwa [Nat.zero_div] at h
  by_cases hz : n = 0
  · have h256 : 2 ^ (m - k) = 256 * 2 ^ (m - k - 8) := by
      rw [show 256 = 2 ^ 8 from rfl, ← pow_add, Nat.add_sub_cancel' (by omega)]
    have hpos : 0 < 2 ^ (m - k - 8) := Nat.two_pow_pos _
    generalize 2 ^ (m - k - 8) = q at h256 hpos
    have hq : (d * (256 * q) - 1) / d = 256 * q - 1 := hdiv _ (by omega)
    rw [hz, hpow, h256, Nat.add_zero, Nat.mod_eq_of_lt (Nat.sub_lt (by positivity) (by decide)), hq,
      Nat.zero_div]
    simp only [Nat.zero_mod]
    omega
  · have hsub : (2 ^ m - 1 + n) % 2 ^ m = n - 1 := by
      rw [show 2 ^ m - 1 + n = n - 1 + 2 ^ m by omega, Nat.add_mod_right,
        Nat.mod_eq_of_lt (by omega)]
    rw [hsub]
    by_cases hmod : n % d = 0
    · obtain ⟨q, rfl⟩ := Nat.dvd_of_mod_eq_zero hmod
      have hq : 0 < q := Nat.pos_of_ne_zero fun h => hz (by rw [h, Nat.mul_zero])
      rw [hdiv q hq, Nat.mul_div_cancel_left _ hd]
      omega
    · have hsame : (n - 1) / d = n / d := by
        have hsplit := Nat.div_add_mod n d
        apply Nat.div_eq_of_lt_le
        · rw [Nat.mul_comm]
          omega
        · rw [Nat.succ_mul, Nat.mul_comm]
          have := Nat.mod_lt n hd
          omega
      rw [hsame]
      exact iff_of_true rfl hmod

end Bionic.Bytes
