import BionicTranslation.CStrings

/-!
# The first occurrence of a string in another

`strstr` over a memory of characters, and the list before and behind what it finds. A part
of a string is taken out with `memmove`. Nothing here names the C library's callers.
-/

set_option autoImplicit false

namespace Bionic.Substrings
open Bionic.CStrings

variable {α : Type*} [DecidableEq α] {needle s b a r : List α}

def breakAt (needle : List α) : List α → Option (List α × List α)
  | [] => if needle = [] then some ([], []) else none
  | x :: s =>
    if needle <+: x :: s then some ([], (x :: s).drop needle.length)
    else (breakAt needle s).map fun r => (x :: r.1, r.2)

theorem breakAt_append (h : breakAt needle s = some (b, a)) : s = b ++ needle ++ a := by
  induction s generalizing b with
  | nil =>
    rw [breakAt] at h
    split_ifs at h with hn
    cases h
    rw [hn]
    rfl
  | cons x s ih =>
    rw [breakAt] at h
    split_ifs at h with hp
    · cases h
      obtain ⟨t, ht⟩ := hp
      rw [← ht, List.drop_left, List.nil_append]
    · obtain ⟨⟨b', a'⟩, hr, he⟩ := Option.map_eq_some_iff.mp h
      cases he
      rw [ih hr]
      rfl

theorem breakAt_none_iff : breakAt needle s = none ↔ ¬ needle <:+: s := by
  induction s with
  | nil =>
    rw [breakAt, List.infix_nil]
    split_ifs with hn
    · simp [hn]
    · simp [hn]
  | cons x s ih =>
    rw [breakAt, List.infix_cons_iff]
    split_ifs with hp
    · simp [hp]
    · simp [hp, ih]

theorem breakAt_first (hn : needle ≠ []) (h : breakAt needle s = some (b, a)) :
    ¬ needle <:+: b := by
  induction s generalizing b with
  | nil =>
    rw [breakAt, if_neg hn] at h
    cases h
  | cons x s ih =>
    rw [breakAt] at h
    split_ifs at h with hp
    · cases h
      rwa [List.infix_nil]
    · obtain ⟨⟨b', a'⟩, hr, he⟩ := Option.map_eq_some_iff.mp h
      cases he
      have hs := breakAt_append hr
      rw [List.infix_cons_iff]
      rintro (hpre | hin)
      · refine hp (hpre.trans ?_)
        rw [hs, List.append_assoc]
        exact List.prefix_append (x :: b') _
      · exact ih hr hin

omit [DecidableEq α] in
theorem infix_append_iff (hr : ∀ x t, r = x :: t → x ∉ needle) :
    needle <:+: b ++ r ↔ needle <:+: b ∨ needle <:+: r := by
  induction b with
  | nil =>
    rw [List.nil_append, List.infix_nil]
    refine ⟨Or.inr, ?_⟩
    rintro (rfl | h)
    · exact List.nil_infix
    · exact h
  | cons y b ih =>
    have hprefix : needle <+: y :: (b ++ r) ↔ needle <+: y :: b := by
      constructor
      · intro h
        have hb : y :: b <+: y :: (b ++ r) := List.prefix_append (y :: b) r
        rcases List.prefix_or_prefix_of_prefix h hb with h' | ⟨t, ht⟩
        · exact h'
        · -- the occurrence would begin in `b` and go on in `r`
          rw [← ht, ← List.cons_append, List.prefix_append_right_inj] at h
          cases t with
          | nil => rw [← ht, List.append_nil]
          | cons x t =>
            obtain ⟨u, hu⟩ := h
            refine absurd ?_ (hr x (t ++ u) hu.symm)
            rw [← ht]
            exact List.mem_append_right _ List.mem_cons_self
      · exact fun h => h.trans (List.prefix_append (y :: b) r)
    rw [List.cons_append, List.infix_cons_iff, List.infix_cons_iff, hprefix, ih, or_assoc]

section memory
variable [Zero α] {m : ℕ → α} {p fuel : ℕ}

def strstr (m : ℕ → α) (needle : List α) : ℕ → ℕ → Option (Option ℕ)
  | 0, _ => none
  | fuel + 1, p =>
    if Block m p needle then some (some p)
    else if m p = 0 then some none
    else strstr m needle fuel (p + 1)

omit [DecidableEq α] in
theorem block_prefix_iff (h : Holds m p s) (hn : 0 ∉ needle) :
    Block m p needle ↔ needle <+: s := by
  induction needle generalizing p s with
  | nil => exact iff_of_true trivial List.nil_prefix
  | cons x needle ih =>
    rw [List.mem_cons, not_or] at hn
    rw [Block]
    cases s with
    | nil =>
      have hends : m p = 0 := h.ends
      rw [hends]
      refine iff_of_false (fun hx => hn.1 hx.1) fun hx => ?_
      exact absurd (List.prefix_nil.mp hx) (List.cons_ne_nil _ _)
    | cons y s =>
      rw [ih h.tail hn.2, h.chars.1, List.cons_prefix_cons, eq_comm]

/-- The induction is on the walk along the string. -/
theorem strstr_eq (hn : 0 ∉ needle) (hne : needle ≠ []) (h : Holds m p s)
    (hf : s.length < fuel) :
    strstr m needle fuel p = some ((breakAt needle s).map fun r => p + r.1.length) := by
  induction h, hf using Holds.walk with
  | stop h hz =>
    rw [strstr, if_pos hz, if_neg, breakAt, if_neg hne]
    · rfl
    · rwa [block_prefix_iff h hn, List.prefix_nil]
  | @step p _ x s h _ ih =>
    rw [strstr, if_neg h.head_ne, ih, breakAt]
    simp only [block_prefix_iff h hn]
    split_ifs with hp
    · rfl
    · cases breakAt needle s with
      | none => rfl
      | some r =>
        simp only [Option.map_some, List.length_cons]
        rw [Nat.add_comm r.1.length, ← Nat.add_assoc]

def memmove (m : ℕ → α) (dst src n : ℕ) : ℕ → α :=
  write m dst ((List.range n).map fun i => m (src + i))

omit [DecidableEq α] [Zero α] in
theorem memmove_get {dst src n i : ℕ} (hi : i < n) :
    memmove m dst src n (dst + i) = m (src + i) := by
  have hlen : ((List.range n).map fun i => m (src + i)).length = n := by
    rw [List.length_map, List.length_range]
  rw [memmove, write_get (by rwa [hlen]), List.getElem_map, List.getElem_range]

omit [DecidableEq α] [Zero α] in
theorem memmove_other {dst src n i : ℕ} (hi : i < dst ∨ dst + n ≤ i) :
    memmove m dst src n i = m i := by
  have hlen : ((List.range n).map fun i => m (src + i)).length = n := by
    rw [List.length_map, List.length_range]
  rcases hi with hi | hi
  · exact write_below hi
  · exact write_above (by rwa [hlen])

def contents (m : ℕ → α) (n : ℕ) : List α := (List.range n).map m

omit [DecidableEq α] [Zero α] in
@[simp]
theorem contents_length (m : ℕ → α) (n : ℕ) : (contents m n).length = n := by
  rw [contents, List.length_map, List.length_range]

omit [DecidableEq α] [Zero α] in
@[simp]
theorem contents_get {n i : ℕ} (h : i < (contents m n).length) : (contents m n)[i] = m i := by
  simp [contents]

omit [DecidableEq α] [Zero α] in
theorem contents_memmove {d e n : ℕ} (hd : d ≤ e) (he : e ≤ n) :
    contents (memmove m d e (n - e)) n =
      (contents m n).take d ++ (contents m n).drop e ++ (contents m n).drop (n - (e - d)) := by
  apply List.ext_getElem
  · simp only [contents_length, List.length_append, List.length_take, List.length_drop]
    omega
  intro i hi _
  rw [contents_length] at hi
  rw [contents_get]
  rcases Nat.lt_or_ge i d with hlow | hlow
  · rw [memmove_other (Or.inl hlow)]
    rw [List.getElem_append_left (by simp; omega), List.getElem_append_left (by simp; omega),
      List.getElem_take, contents_get]
  · obtain ⟨k, rfl⟩ := Nat.exists_eq_add_of_le hlow
    have htake : ((contents m n).take d).length = d := by simp; omega
    rcases Nat.lt_or_ge k (n - e) with hk | hk
    · rw [memmove_get hk, List.getElem_append_left (by simp; omega),
        List.getElem_append_right (by omega), List.getElem_drop, contents_get, htake,
        Nat.add_sub_cancel_left]
    · rw [memmove_other (Or.inr (by omega)), List.getElem_append_right (by simp; omega),
        List.getElem_drop, contents_get]
      congr 1
      simp
      omega

end memory

end Bionic.Substrings
