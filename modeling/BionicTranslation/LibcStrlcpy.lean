import BionicTranslation.CFunctions
import BionicTranslation.Strlcpy

/-!
# The exported `strlcpy`

The translation libraries export a `strlcpy` that hands its work to `strcpy`. The linker has a
copy of its own under another name.
-/

set_option autoImplicit false

namespace Bionic.LibcStrlcpy
open Bionic.CStrings Bionic.CFunctions

variable {α : Type*} [Zero α]

section Source
variable [DecidableEq α]

def strlcpy (fuel : ℕ) (m : ℕ → α) (dst : ℕ) (mem : ℕ → α) (src _size : ℕ) :
    Option ((ℕ → α) × ℕ) :=
  (strcpy mem fuel m dst src).bind fun m => (strlen mem fuel src).map fun n => (m, n)

end Source

variable {mem m : ℕ → α} {src dst size fuel : ℕ} {s : List α}

theorem write_eq_self_iff (hs : 0 ∉ s) : write m dst (s ++ [0]) = m ↔ Holds m dst s := by
  constructor
  · intro h
    rw [← h]
    exact holds_write m dst hs
  · intro h
    have hblock : Block m dst (s ++ [0]) := block_append.mpr ⟨h.chars, h.ends, trivial⟩
    ext i
    rcases Nat.lt_or_ge i dst with hi | hi
    · exact write_below hi
    · obtain ⟨k, rfl⟩ := Nat.exists_eq_add_of_le hi
      rcases Nat.lt_or_ge k (s ++ [0]).length with hk | hk
      · rw [write_get hk, hblock.get hk]
      · exact write_above (by omega)

theorem write_ne_of_lt {n : ℕ} (hs : 0 ∉ s) (hn : n < s.length) :
    write m dst (s ++ [0]) ≠ write m dst (s.take n ++ [0]) := by
  intro h
  have hcut : Holds (write m dst (s ++ [0])) dst (s.take n) :=
    h ▸ holds_write m dst fun h0 => hs (List.mem_of_mem_take h0)
  have hends := hcut.ends
  rw [List.length_take_of_le hn.le] at hends
  exact (holds_write m dst hs).ne_zero hn hends

/-- The bytes are those of the linker's function when there is room for the whole string. A size
of 0 leaves room for nothing; then they are the same if the string is there already. -/
theorem write_eq_copied_iff (hs : 0 ∉ s) :
    write m dst (s ++ [0]) = Strlcpy.copied m dst s size ↔
      s.length < size ∨ size = 0 ∧ Holds m dst s := by
  rw [Strlcpy.copied]
  rcases Nat.eq_zero_or_pos size with rfl | hpos
  · rw [if_pos rfl, write_eq_self_iff hs]
    simp
  rw [if_neg hpos.ne', or_iff_left fun h => hpos.ne' h.1]
  constructor
  · intro h
    by_contra hlen
    exact write_ne_of_lt hs (by omega) h
  · intro h
    rw [List.take_of_length_le (by omega)]

variable [DecidableEq α]

theorem strlcpy_eq (h : Holds mem src s) (hf : s.length < fuel) :
    strlcpy fuel m dst mem src size = some (write m dst (s ++ [0]), s.length) := by
  rw [strlcpy, strcpy_eq dst h hf, strlen_eq h hf]
  rfl

/-- Both return the length of the string. Their bytes are the same just when the whole string
and its terminator fit, or are there already and the size is 0. -/
theorem strlcpy_agree_iff (m : ℕ → α) (dst size : ℕ) (h : Holds mem src s)
    (hf : s.length < fuel) :
    ∃ l a, strlcpy fuel m dst mem src size = some l ∧
      Strlcpy.strlcpy fuel m dst mem src size = some a ∧
      a = (Strlcpy.copied m dst s size, s.length) ∧ l.2 = a.2 ∧
      (l.1 = a.1 ↔ s.length < size ∨ size = 0 ∧ Holds m dst s) :=
  ⟨_, _, strlcpy_eq h hf, Strlcpy.strlcpy_eq h hf, rfl, rfl, write_eq_copied_iff h.nonzero⟩

/-- The string of one character and a size of 2, which is an exact fit. -/
theorem strlcpy_agree_fit :
    ∃ l a, strlcpy 2 (fun _ => (7 : BitVec 8)) 0 (write (fun _ => 0) 0 [5, 0]) 0 2 = some l ∧
      Strlcpy.strlcpy 2 (fun _ => 7) 0 (write (fun _ => 0) 0 [5, 0]) 0 2 = some a ∧
      l.1 = a.1 := by
  have h5 : (0 : BitVec 8) ∉ [5] := by decide
  have h := holds_write (fun _ => 0) 0 h5
  obtain ⟨l, a, hl, ha, -, -, hiff⟩ :=
    strlcpy_agree_iff (fun _ => 7) 0 2 h (show [(5 : BitVec 8)].length < 2 by decide)
  exact ⟨l, a, hl, ha, hiff.mpr (.inl (by decide))⟩

/-- A string of two characters and a size of 2: the second character and the terminator go
where there is no room for them. -/
theorem strlcpy_overruns :
    ∃ l a, strlcpy 3 (fun _ => (7 : BitVec 8)) 0 (write (fun _ => 0) 0 [5, 6, 0]) 0 2 = some l ∧
      Strlcpy.strlcpy 3 (fun _ => 7) 0 (write (fun _ => 0) 0 [5, 6, 0]) 0 2 = some a ∧
      l.1 1 = 6 ∧ a.1 1 = 0 ∧ l.1 2 = 0 ∧ a.1 2 = 7 :=
  ⟨_, _, rfl, rfl, rfl, rfl, rfl, rfl⟩

end Bionic.LibcStrlcpy
