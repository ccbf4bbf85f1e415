import BionicTranslation.CStrings

/-!
# Filtering an array in place

A zero-terminated array is walked with a cursor that reads and one that writes. Entries that
are kept move to the second cursor, and a new terminator goes behind them. Nothing here names
the linker.
-/

set_option autoImplicit false

namespace Bionic.Compaction
open Bionic.CStrings

structure Slots (M β : Type*) where
  get : M → ℕ → β
  set : M → ℕ → β → M
  get_set : ∀ m i x, get (set m i x) = Function.update (get m) i x
  set_get : ∀ m i, set m i (get m i) = m

def Slots.ofArray (β : Type*) : Slots (ℕ → β) β where
  get m := m
  set m i x := Function.update m i x
  get_set _ _ _ := rfl
  set_get m i := Function.update_eq_self i m

variable {M β : Type*} [Zero β] [DecidableEq β] (S : Slots M β) (keep : β → Bool)

def compact : ℕ → M → ℕ → ℕ → Option M
  | 0, _, _, _ => none
  | fuel + 1, m, readp, writep =>
    if S.get m readp = 0 then some (S.set m writep 0)
    else if keep (S.get m readp) then
      compact fuel (S.set m writep (S.get m readp)) (readp + 1) (writep + 1)
    else compact fuel m (readp + 1) writep

variable {m : M} {readp writep fuel : ℕ} {l : List β}

/-- What is kept stands at the second cursor, and what is in front of that or from the old
terminator on is as it was. -/
theorem compact_holds (h : Holds (S.get m) readp l) (hw : writep ≤ readp)
    (hf : l.length < fuel) :
    ∃ m', compact S keep fuel m readp writep = some m' ∧
      Holds (S.get m') writep (l.filter keep) ∧
      ∀ i, i < writep ∨ readp + l.length ≤ i → S.get m' i = S.get m i := by
  induction l generalizing m readp writep fuel with
  | nil =>
    obtain ⟨fuel, rfl⟩ := Nat.exists_eq_add_of_lt hf
    have hz : S.get m readp = 0 := h.ends
    refine ⟨S.set m writep 0, if_pos hz, ⟨trivial, List.not_mem_nil, ?_⟩, fun i hi => ?_⟩
    · rw [S.get_set]
      exact Function.update_self writep 0 _
    · rw [S.get_set]
      by_cases hiw : i = writep
      · obtain rfl : i = readp := by
          rw [List.length_nil] at hi
          omega
        rw [hiw, Function.update_self, ← hiw, hz]
      · exact Function.update_of_ne hiw 0 _
  | cons x l ih =>
    obtain ⟨fuel, rfl⟩ := Nat.exists_eq_add_of_le' (Nat.one_le_of_lt hf)
    have hf' : l.length < fuel := Nat.lt_of_succ_lt_succ hf
    rw [List.length_cons, compact, if_neg h.head_ne, h.chars.1]
    by_cases hx : keep x
    · have hmoved : Holds (S.get (S.set m writep x)) (readp + 1) l := by
        rw [S.get_set]
        refine h.tail.congr fun i hi _ => ?_
        rw [Function.update_of_ne (by omega)]
      obtain ⟨m', hrun, hheld, hframe⟩ := ih hmoved (Nat.succ_le_succ hw) hf'
      have hkept : S.get m' writep = x := by
        rw [hframe writep (.inl (Nat.lt_succ_self writep)), S.get_set, Function.update_self]
      have hx0 : x ≠ 0 := h.chars.1 ▸ h.head_ne
      refine ⟨m', ?_, ?_, fun i hi => ?_⟩
      · rw [if_pos hx, hrun]
      · rw [List.filter_cons_of_pos hx]
        exact .cons hkept hx0 hheld
      · rw [hframe i (by omega), S.get_set, Function.update_of_ne (by omega)]
    · obtain ⟨m', hrun, hheld, hframe⟩ := ih h.tail (Nat.le_succ_of_le hw) hf'
      refine ⟨m', ?_, ?_, fun i hi => hframe i (by omega)⟩
      · rw [if_neg hx, hrun]
      · rwa [List.filter_cons_of_neg hx]

theorem compact_self (h : Holds (S.get m) readp l) (hkeep : ∀ x ∈ l, keep x)
    (hf : l.length < fuel) : compact S keep fuel m readp readp = some m := by
  induction h, hf using Holds.walk with
  | stop _ hz => rw [compact, if_pos hz, ← hz, S.set_get]
  | step h _ ih =>
    obtain ⟨hx, hl⟩ := List.forall_mem_cons.mp hkeep
    rw [compact, if_neg h.head_ne, if_pos (h.chars.1 ▸ hx), S.set_get, ih hl]

end Bionic.Compaction
