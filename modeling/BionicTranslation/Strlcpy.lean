import BionicTranslation.CStrings

/-!
# `apkenv_strlcpy`

The two loops of the function, over a source and a destination that do not
overlap. The first one counts down the room that is left, the second one walks
on to the end of the source.
-/

set_option autoImplicit false

namespace Bionic.Strlcpy
open Bionic.CStrings

variable {α : Type*} [Zero α] [DecidableEq α]

structure Locals (α : Type*) where
  m : ℕ → α
  d : ℕ
  s : ℕ
  n : ℕ

def copyLoop (src : ℕ → α) : ℕ → (ℕ → α) → ℕ → ℕ → Locals α
  | 0, m, d, s => ⟨m, d, s, 0⟩
  | n + 1, m, d, s =>
    let m := Function.update m d (src s)
    if src s = 0 then ⟨m, d + 1, s + 1, n + 1⟩ else copyLoop src n m (d + 1) (s + 1)

def skipLoop (src : ℕ → α) : ℕ → ℕ → Option ℕ
  | 0, _ => none
  | fuel + 1, s => if src s = 0 then some (s + 1) else skipLoop src fuel (s + 1)

/-- The memory afterwards and the result, when there is fuel to walk to the end of `src`. -/
def strlcpy (fuel : ℕ) (m : ℕ → α) (dst : ℕ) (mem : ℕ → α) (src siz : ℕ) :
    Option ((ℕ → α) × ℕ) :=
  let l : Locals α := if siz ≠ 0 then copyLoop mem (siz - 1) m dst src else ⟨m, dst, src, siz⟩
  if l.n = 0 then
    let m := if siz ≠ 0 then Function.update l.m l.d 0 else l.m
    (skipLoop mem fuel l.s).map fun s => (m, s - src - 1)
  else some (l.m, l.s - src - 1)

variable {mem m : ℕ → α} {src dst siz fuel n : ℕ} {s : List α}

theorem skipLoop_eq (h : Holds mem src s) (hf : s.length < fuel) :
    skipLoop mem fuel src = some (src + s.length + 1) := by
  induction h, hf using Holds.walk with
  | stop _ hz => exact if_pos hz
  | step h _ ih =>
    rw [skipLoop, if_neg h.head_ne, ih, List.length_cons]
    congr 1
    omega

theorem copyLoop_fits (h : Holds mem src s) (hn : s.length < n) :
    copyLoop mem n m dst src =
      ⟨write m dst (s ++ [0]), dst + s.length + 1, src + s.length + 1, n - s.length⟩ := by
  induction h, hn using Holds.walk generalizing m dst with
  | stop _ hz =>
    rw [copyLoop, if_pos hz, hz, List.nil_append, write_cons, write_nil]
    rfl
  | step h _ ih =>
    rw [copyLoop, if_neg h.head_ne, ih, List.cons_append, write_cons, h.chars.1, List.length_cons]
    congr 1 <;> omega

theorem copyLoop_cut (h : Holds mem src s) (hn : n ≤ s.length) :
    copyLoop mem n m dst src = ⟨write m dst (s.take n), dst + n, src + n, 0⟩ := by
  induction n generalizing m dst src s with
  | zero => rw [List.take_zero, write_nil]; rfl
  | succ n ih =>
    cases s with
    | nil => exact absurd hn (Nat.not_succ_le_zero n)
    | cons x s =>
      rw [copyLoop, if_neg h.head_ne, ih h.tail (Nat.le_of_succ_le_succ hn), List.take_succ_cons,
        write_cons, h.chars.1]
      congr 1 <;> omega

def copied (m : ℕ → α) (dst : ℕ) (s : List α) (siz : ℕ) : ℕ → α :=
  if siz = 0 then m else write m dst (s.take (siz - 1) ++ [0])

theorem strlcpy_eq (h : Holds mem src s) (hf : s.length < fuel) :
    strlcpy fuel m dst mem src siz = some (copied m dst s siz, s.length) := by
  have hskip (k : ℕ) (hk : k ≤ s.length) :
      skipLoop mem fuel (src + k) = some (src + s.length + 1) := by
    have hlen : (s.take k).length = k := List.length_take_of_le hk
    have hrest : Holds mem (src + k) (s.drop k) := by
      have hdrop : Holds mem (src + (s.take k).length) (s.drop k) :=
        Holds.drop (by rwa [List.take_append_drop])
      rwa [hlen] at hdrop
    rw [skipLoop_eq hrest (by rw [List.length_drop]; omega), List.length_drop]
    congr 1
    omega
  have hlast : src + s.length + 1 - src - 1 = s.length := by omega
  cases siz with
  | zero =>
    have h0 := hskip 0 (Nat.zero_le _)
    rw [Nat.add_zero] at h0
    simp [strlcpy, h0, copied, hlast]
  | succ n =>
    rw [strlcpy, copied, if_pos (Nat.succ_ne_zero n), if_neg (Nat.succ_ne_zero n),
      Nat.add_sub_cancel]
    rcases Nat.lt_or_ge s.length n with hn | hn
    · have hne : n - s.length ≠ 0 := by omega
      rw [copyLoop_fits h hn, List.take_of_length_le hn.le, if_neg hne, hlast]
    · rw [copyLoop_cut h hn, if_pos rfl, hskip n hn, write_concat, List.length_take_of_le hn,
        Option.map_some, hlast]
      rfl

end Bionic.Strlcpy
