import Mathlib

/-!
# Strings in memory

A memory is read and written character by character. A string is a list without
the zero that ends it; at a place of a memory stands at most one string. Nothing
here names the linker.
-/

set_option autoImplicit false

namespace Bionic.CStrings

variable {α : Type*} {m m' : ℕ → α} {p i : ℕ} {l k : List α}

def Block (m : ℕ → α) : ℕ → List α → Prop
  | _, [] => True
  | p, x :: l => m p = x ∧ Block m (p + 1) l

instance decidableBlock [DecidableEq α] (m : ℕ → α) : ∀ (p : ℕ) (l : List α),
    Decidable (Block m p l)
  | _, [] => .isTrue trivial
  | p, x :: l =>
    have := decidableBlock m (p + 1) l
    inferInstanceAs (Decidable (m p = x ∧ Block m (p + 1) l))

theorem block_append : Block m p (l ++ k) ↔ Block m p l ∧ Block m (p + l.length) k := by
  induction l generalizing p with
  | nil => simp [Block]
  | cons x l ih =>
    rw [List.cons_append, Block, Block, ih, List.length_cons, and_assoc,
      show p + 1 + l.length = p + (l.length + 1) by omega]

theorem Block.get (h : Block m p l) (hi : i < l.length) : m (p + i) = l[i] := by
  induction l generalizing p i with
  | nil => exact absurd hi (Nat.not_lt_zero i)
  | cons x l ih =>
    cases i with
    | zero => exact h.1
    | succ i =>
      rw [show p + (i + 1) = p + 1 + i by omega, List.getElem_cons_succ]
      exact ih h.2 (Nat.lt_of_succ_lt_succ hi)

theorem block_of_get (h : ∀ (i : ℕ) (hi : i < l.length), m (p + i) = l[i]) : Block m p l := by
  induction l generalizing p with
  | nil => trivial
  | cons x l ih =>
    refine ⟨h 0 (Nat.succ_pos _), ih fun i hi => ?_⟩
    rw [show p + 1 + i = p + (i + 1) by omega]
    exact h (i + 1) (Nat.succ_lt_succ hi)

theorem Block.congr (h : Block m p l) (hm : ∀ i, p ≤ i → i < p + l.length → m' i = m i) :
    Block m' p l := by
  induction l generalizing p with
  | nil => trivial
  | cons x l ih =>
    rw [List.length_cons] at hm
    refine ⟨(hm p (Nat.le_refl p) (by omega)).trans h.1, ih h.2 fun i hi hl => ?_⟩
    exact hm i (by omega) (by omega)

def write (m : ℕ → α) (p : ℕ) (l : List α) : ℕ → α := fun i =>
  if p ≤ i then (l[i - p]?).getD (m i) else m i

theorem write_below (h : i < p) : write m p l i = m i := if_neg (Nat.not_le_of_lt h)

theorem write_above (h : p + l.length ≤ i) : write m p l i = m i := by
  rw [write, if_pos (by omega), List.getElem?_eq_none (by omega), Option.getD_none]

theorem write_nil (m : ℕ → α) (p : ℕ) : write m p [] = m := by
  ext i
  simp [write]

theorem write_get (hi : i < l.length) : write m p l (p + i) = l[i] := by
  rw [write, if_pos (Nat.le_add_right p i), Nat.add_sub_cancel_left,
    List.getElem?_eq_getElem hi, Option.getD_some]

theorem write_cons (m : ℕ → α) (p : ℕ) (x : α) (l : List α) :
    write m p (x :: l) = write (Function.update m p x) (p + 1) l := by
  ext i
  rcases Nat.lt_trichotomy i p with h | rfl | h
  · rw [write_below h, write_below (by omega), Function.update_of_ne h.ne]
  · rw [write_below (Nat.lt_succ_self i), Function.update_self, write, if_pos (Nat.le_refl i),
      Nat.sub_self, List.getElem?_cons_zero, Option.getD_some]
  · rw [write, write, if_pos h.le, if_pos (Nat.succ_le_of_lt h), Function.update_of_ne h.ne',
      show i - p = i - (p + 1) + 1 by omega, List.getElem?_cons_succ]

theorem write_concat (m : ℕ → α) (p : ℕ) (l : List α) (x : α) :
    write m p (l ++ [x]) = Function.update (write m p l) (p + l.length) x := by
  induction l generalizing m p with
  | nil => rw [List.nil_append, write_cons, write_nil, write_nil]; rfl
  | cons y l ih =>
    rw [List.cons_append, write_cons, ih, write_cons, List.length_cons,
      show p + 1 + l.length = p + (l.length + 1) by omega]

theorem block_write (m : ℕ → α) (p : ℕ) (l : List α) : Block (write m p l) p l := by
  induction l generalizing m p with
  | nil => trivial
  | cons x l ih =>
    rw [write_cons]
    exact ⟨(write_below (Nat.lt_succ_self p)).trans (Function.update_self p x m),
      ih (Function.update m p x) (p + 1)⟩

theorem Block.write_of_le (h : Block m p l) {q : ℕ} (hq : p + l.length ≤ q) (k : List α) :
    Block (write m q k) p l :=
  h.congr fun _ _ hi => write_below (hi.trans_le hq)

variable [Zero α] {s t : List α}

/-- A string as a function gets it: the characters before the terminator. -/
@[ext]
structure CString (α : Type*) [Zero α] where
  chars : List α
  nonzero : 0 ∉ chars

structure Holds (m : ℕ → α) (p : ℕ) (s : List α) : Prop where
  chars : Block m p s
  nonzero : 0 ∉ s
  ends : m (p + s.length) = 0

theorem Holds.of_block (h : Block m p (s ++ [0])) (hs : 0 ∉ s) : Holds m p s :=
  ⟨(block_append.mp h).1, hs, (block_append.mp h).2.1⟩

theorem holds_write (m : ℕ → α) (p : ℕ) (hs : 0 ∉ s) : Holds (write m p (s ++ [0])) p s :=
  .of_block (block_write m p _) hs

theorem Holds.ne_zero (h : Holds m p s) (hi : i < s.length) : m (p + i) ≠ 0 := by
  rw [h.chars.get hi]
  exact fun h0 => h.nonzero (h0 ▸ List.getElem_mem hi)

theorem Holds.length_le (h : Holds m p s) (hi : m (p + i) = 0) : s.length ≤ i :=
  Nat.le_of_not_lt fun hlt => h.ne_zero hlt hi

theorem Holds.unique (hs : Holds m p s) (ht : Holds m p t) : s = t := by
  have hlen : s.length = t.length :=
    Nat.le_antisymm (hs.length_le ht.ends) (ht.length_le hs.ends)
  apply List.ext_getElem hlen
  intro i his hit
  rw [← hs.chars.get his, ht.chars.get hit]

theorem Holds.congr (h : Holds m p s) (hm : ∀ i, p ≤ i → i ≤ p + s.length → m' i = m i) :
    Holds m' p s where
  chars := h.chars.congr fun i hp hi => hm i hp hi.le
  nonzero := h.nonzero
  ends := (hm _ (Nat.le_add_right p _) (Nat.le_refl _)).trans h.ends

theorem Holds.drop {r : List α} (h : Holds m p (r ++ s)) : Holds m (p + r.length) s where
  chars := (block_append.mp h.chars).2
  nonzero := fun h0 => h.nonzero (List.mem_append_right r h0)
  ends := by
    have hends := h.ends
    rwa [List.length_append, ← Nat.add_assoc] at hends

theorem Holds.head_ne {x : α} (h : Holds m p (x :: s)) : m p ≠ 0 :=
  h.ne_zero (i := 0) (Nat.succ_pos s.length)

theorem Holds.tail {x : α} (h : Holds m p (x :: s)) : Holds m (p + 1) s := Holds.drop (r := [x]) h

theorem Holds.cons {x : α} (hp : m p = x) (hx : x ≠ 0) (h : Holds m (p + 1) s) :
    Holds m p (x :: s) where
  chars := ⟨hp, h.chars⟩
  nonzero := by
    rw [List.mem_cons, not_or]
    exact ⟨hx.symm, h.nonzero⟩
  ends := by
    rw [List.length_cons, show p + (s.length + 1) = p + 1 + s.length by omega]
    exact h.ends

/-- The induction for a walk along a string, which takes fuel for every character and for the
terminator. -/
@[elab_as_elim]
theorem Holds.walk
    {motive : ∀ (p : ℕ) (s : List α) (fuel : ℕ), Holds m p s → s.length < fuel → Prop}
    (stop : ∀ {p fuel : ℕ} (h : Holds m p []), m p = 0 →
      motive p [] (fuel + 1) h (Nat.succ_pos fuel))
    (step : ∀ {p fuel : ℕ} {x : α} {s : List α} (h : Holds m p (x :: s)) (hf : s.length < fuel),
      motive (p + 1) s fuel h.tail hf → motive p (x :: s) (fuel + 1) h (Nat.succ_lt_succ hf))
    {p : ℕ} {s : List α} {fuel : ℕ} (h : Holds m p s) (hf : s.length < fuel) :
    motive p s fuel h hf := by
  induction s generalizing p fuel with
  | nil =>
    obtain ⟨fuel, rfl⟩ := Nat.exists_eq_add_of_le' (Nat.one_le_of_lt hf)
    exact stop h h.ends
  | cons x s ih =>
    obtain ⟨fuel, rfl⟩ := Nat.exists_eq_add_of_le' (Nat.one_le_of_lt hf)
    exact step h (Nat.lt_of_succ_lt_succ hf) (ih h.tail _)

theorem exists_holds {n : ℕ} (h : m (p + n) = 0) : ∃ s, Holds m p s ∧ s.length ≤ n := by
  induction n generalizing p with
  | zero => exact ⟨[], ⟨trivial, List.not_mem_nil, h⟩, Nat.le_refl 0⟩
  | succ n ih =>
    by_cases hp : m p = 0
    · exact ⟨[], ⟨trivial, List.not_mem_nil, hp⟩, Nat.zero_le _⟩
    · rw [show p + (n + 1) = p + 1 + n by omega] at h
      obtain ⟨s, hs, hlen⟩ := ih h
      exact ⟨m p :: s, .cons rfl hp hs, Nat.succ_le_succ hlen⟩

theorem Holds.cut {x : α} (h : Holds m p (s ++ x :: t)) :
    Holds (Function.update m (p + s.length) 0) p s ∧
      Holds (Function.update m (p + s.length) 0) (p + s.length + 1) t := by
  have hother (i : ℕ) (hi : i ≠ p + s.length) :
      Function.update m (p + s.length) 0 i = m i := Function.update_of_ne hi 0 m
  constructor
  · refine ⟨(block_append.mp h.chars).1.congr fun i _ hi => hother i hi.ne, fun h0 => ?_,
      Function.update_self _ 0 m⟩
    exact h.nonzero (List.mem_append_left _ h0)
  · have htail : Holds m (p + (s ++ [x]).length) t := Holds.drop (by simpa using h)
    rw [List.length_append, List.length_singleton, ← Nat.add_assoc] at htail
    exact htail.congr fun i hi _ => hother i (by omega)

end Bionic.CStrings
