import BionicTranslation.CStrings

/-!
# String functions of the C library

`strlen`, `strcpy`, `strspn` and `strcspn` walk along a string and take fuel. `strncpy` copies to
a destination that does not overlap the source. Nothing here names the linker.
-/

set_option autoImplicit false

namespace Bionic.CFunctions
open Bionic.CStrings

variable {α : Type*} [Zero α]

def padded (n : ℕ) (s : List α) : List α := s.take n ++ List.replicate (n - s.length) 0

theorem padded_length (n : ℕ) (s : List α) : (padded n s).length = n := by
  rw [padded, List.length_append, List.length_take, List.length_replicate]
  omega

def strncpy (m : ℕ → α) (dst : ℕ) (s : List α) (n : ℕ) : ℕ → α := write m dst (padded n s)

theorem padded_nil (n : ℕ) : padded n ([] : List α) = List.replicate n 0 := by
  rw [padded, List.take_nil, List.nil_append, List.length_nil, Nat.sub_zero]

theorem padded_cons (n : ℕ) (x : α) (s : List α) :
    padded (n + 1) (x :: s) = x :: padded n s := by
  rw [padded, List.take_succ_cons, List.length_cons, Nat.add_sub_add_right]
  rfl

structure Filled (m : ℕ → α) (dst : ℕ) (s : List α) (n : ℕ) (m' : ℕ → α) : Prop where
  chars : ∀ (i : ℕ) (hi : i < s.length), i < n → m' (dst + i) = s[i]
  pad : ∀ i, s.length ≤ i → i < n → m' (dst + i) = 0
  frame : ∀ a, a < dst ∨ dst + n ≤ a → m' a = m a

theorem strncpy_filled (m : ℕ → α) (dst : ℕ) (s : List α) (n : ℕ) :
    Filled m dst s n (strncpy m dst s n) where
  chars i hi hn := by
    rw [strncpy, write_get (by rwa [padded_length])]
    unfold padded
    rw [List.getElem_append_left (by rw [List.length_take]; omega), List.getElem_take]
  pad i hi hn := by
    rw [strncpy, write_get (by rwa [padded_length])]
    unfold padded
    rw [List.getElem_append_right (by rw [List.length_take]; omega), List.getElem_replicate]
  frame a ha := by
    rcases ha with ha | ha
    · exact write_below ha
    · exact write_above (by rwa [padded_length])

section walk
variable [DecidableEq α]

def strlen (mem : ℕ → α) : ℕ → ℕ → Option ℕ
  | 0, _ => none
  | fuel + 1, s => if mem s = 0 then some 0 else (strlen mem fuel (s + 1)).map (· + 1)

def strcpy (mem : ℕ → α) : ℕ → (ℕ → α) → ℕ → ℕ → Option (ℕ → α)
  | 0, _, _, _ => none
  | fuel + 1, m, d, s =>
    let m := Function.update m d (mem s)
    if mem s = 0 then some m else strcpy mem fuel m (d + 1) (s + 1)

def span (mem : ℕ → α) (go : α → Bool) : ℕ → ℕ → Option ℕ
  | 0, _ => none
  | fuel + 1, s =>
    if mem s = 0 ∨ ¬ go (mem s) then some 0 else (span mem go fuel (s + 1)).map (· + 1)

def strspn (mem : ℕ → α) (accept : List α) := span mem fun x => decide (x ∈ accept)
def strcspn (mem : ℕ → α) (reject : List α) := span mem fun x => !decide (x ∈ reject)

variable {mem m : ℕ → α} {src fuel : ℕ} {s : List α}

theorem span_eq (go : α → Bool) (h : Holds mem src s) (hf : s.length < fuel) :
    span mem go fuel src = some (s.takeWhile go).length := by
  induction h, hf using Holds.walk with
  | stop _ hz => exact if_pos (.inl hz)
  | @step _ _ x s h _ ih =>
    rw [span, h.chars.1]
    by_cases hx : go x
    · have hgo : ¬ (x = 0 ∨ ¬ go x) := by
        rintro (h0 | hnot)
        · exact h.head_ne (h.chars.1.trans h0)
        · exact hnot hx
      rw [if_neg hgo, ih, List.takeWhile_cons_of_pos hx]
      rfl
    · rw [if_pos (.inr hx), List.takeWhile_cons_of_neg hx]
      rfl

theorem strlen_eq (h : Holds mem src s) (hf : s.length < fuel) :
    strlen mem fuel src = some s.length := by
  induction h, hf using Holds.walk with
  | stop _ hz => exact if_pos hz
  | step h _ ih =>
    rw [strlen, if_neg h.head_ne, ih]
    rfl

theorem strcpy_eq (dst : ℕ) (h : Holds mem src s) (hf : s.length < fuel) :
    strcpy mem fuel m dst src = some (write m dst (s ++ [0])) := by
  induction h, hf using Holds.walk generalizing dst m with
  | stop _ hz => rw [strcpy, if_pos hz, hz, List.nil_append, write_cons, write_nil]
  | step h _ ih => rw [strcpy, if_neg h.head_ne, ih, List.cons_append, write_cons, h.chars.1]

end walk

end Bionic.CFunctions
