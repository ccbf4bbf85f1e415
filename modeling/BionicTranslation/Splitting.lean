import Mathlib

/-!
# Lists cut at separators

The segments of a list between the elements with a property, which come one
after the other in a derivation. Those that are not empty are its pieces; those
that are followed by a separator have ended. Nothing here names the linker.
-/

set_option autoImplicit false

namespace Bionic.Splitting

variable {α : Type*} {p : α → Bool} {s r : List α} {x : α} {segs : List (List α)}

inductive Split (p : α → Bool) : List α → List (List α) → Prop
  | last {s : List α} (hs : ∀ x ∈ s, p x = false) : Split p s [s]
  | next {s r : List α} {d : α} {segs : List (List α)} (hs : ∀ x ∈ s, p x = false) (hd : p d)
      (h : Split p r segs) : Split p (s ++ d :: r) (s :: segs)

theorem Split.cons (h : Split p r segs) (hx : p x = false) :
    Split p (x :: r) (segs.modifyHead (x :: ·)) := by
  cases h with
  | last hs => exact .last (List.forall_mem_cons.mpr ⟨hx, hs⟩)
  | next hs hd h => exact .next (List.forall_mem_cons.mpr ⟨hx, hs⟩) hd h

theorem split_splitOnP (p : α → Bool) (s : List α) : Split p s (s.splitOnP p) := by
  induction s with
  | nil => exact .last (List.forall_mem_nil _)
  | cons x s ih =>
    rw [List.splitOnP_cons_eq_if_modifyHead]
    split_ifs with hx
    · exact Split.next (List.forall_mem_nil _) hx ih
    · exact ih.cons (Bool.eq_false_of_not_eq_true hx)

/-- The segments that are not empty. -/
noncomputable def pieces (p : α → Bool) (s : List α) : List (List α) :=
  (s.splitOnP p).filter (!·.isEmpty)

/-- Those of them that a separator follows. -/
noncomputable def ended (p : α → Bool) (s : List α) : List (List α) :=
  (s.splitOnP p).dropLast.filter (!·.isEmpty)

theorem pieces_of_clean (hs : ∀ x ∈ s, p x = false) : pieces p s = [s].filter (!·.isEmpty) := by
  rw [pieces, List.splitOnP_eq_singleton hs]

theorem pieces_append (s r : List α) (hx : p x) :
    pieces p (s ++ x :: r) = pieces p s ++ pieces p r := by
  rw [pieces, List.splitOnP_append_cons s r hx, List.filter_append, pieces, pieces]

theorem ended_of_clean (hs : ∀ x ∈ s, p x = false) : ended p s = [] := by
  rw [ended, List.splitOnP_eq_singleton hs, List.dropLast_singleton, List.filter_nil]

theorem ended_append (s r : List α) (hx : p x) :
    ended p (s ++ x :: r) = pieces p s ++ ended p r := by
  rw [ended, List.splitOnP_append_cons s r hx,
    List.dropLast_append_of_ne_nil (List.splitOnP_ne_nil p r), List.filter_append, pieces, ended]

theorem ended_length_le : (ended p s).length ≤ (pieces p s).length :=
  ((List.dropLast_sublist _).filter _).length_le

theorem pieces_nil (p : α → Bool) : pieces p [] = [] := pieces_of_clean (List.forall_mem_nil _)

theorem pieces_sep (r : List α) (hx : p x) : pieces p (x :: r) = pieces p r := by
  have h := pieces_append [] r hx
  rwa [pieces_nil] at h

theorem pieces_dropWhile (p : α → Bool) (s : List α) : pieces p (s.dropWhile p) = pieces p s := by
  induction s with
  | nil => rfl
  | cons x s ih =>
    by_cases hx : p x
    · rw [List.dropWhile_cons_of_pos hx, ih, pieces_sep s hx]
    · rw [List.dropWhile_cons_of_neg hx]

theorem pieces_cons (s : List α) (hx : p x = false) :
    pieces p (x :: s) = (x :: s).takeWhile (!p ·) :: pieces p ((x :: s).dropWhile (!p ·)) := by
  have hclean : ∀ y ∈ (x :: s).takeWhile (!p ·), p y = false := by
    intro y hy
    have hnot : (!p y) = true := List.mem_takeWhile_imp (p := (!p ·)) hy
    rwa [Bool.not_eq_true'] at hnot
  have hself : pieces p ((x :: s).takeWhile (!p ·)) = [(x :: s).takeWhile (!p ·)] := by
    rw [pieces_of_clean hclean]
    simp [hx]
  have hparts := List.takeWhile_append_dropWhile (p := (!p ·)) (l := x :: s)
  cases hrest : (x :: s).dropWhile (!p ·) with
  | nil =>
    rw [hrest, List.append_nil] at hparts
    rw [pieces_nil, ← hself, hparts]
  | cons y r =>
    have hy : p y := by
      have hhead := List.head?_dropWhile_not (!p ·) (x :: s)
      rw [hrest] at hhead
      simpa using hhead
    calc pieces p (x :: s)
      _ = pieces p ((x :: s).takeWhile (!p ·) ++ y :: r) := by rw [← hrest, hparts]
      _ = pieces p ((x :: s).takeWhile (!p ·)) ++ pieces p r := pieces_append _ r hy
      _ = _ := by
        rw [hself, pieces_sep r hy]
        rfl

theorem ended_concat_sep (s : List α) (hx : p x) : ended p (s ++ [x]) = pieces p s := by
  rw [ended_append s [] hx, ended_of_clean (List.forall_mem_nil _), List.append_nil]

theorem pieces_concat_sep (s : List α) (hx : p x) : pieces p (s ++ [x]) = pieces p s := by
  rw [pieces_append s [] hx, pieces_of_clean (List.forall_mem_nil _)]
  exact List.append_nil _

theorem ended_concat (s : List α) (hx : p x = false) : ended p (s ++ [x]) = ended p s := by
  have h := split_splitOnP p s
  generalize s.splitOnP p = segs at h
  induction h with
  | last hs =>
    rw [ended_of_clean hs, ended_of_clean]
    exact List.forall_mem_append.mpr ⟨hs, List.forall_mem_singleton.mpr hx⟩
  | @next s r d segs hs hd h ih =>
    rw [List.append_assoc, List.cons_append, ended_append s _ hd, ended_append s _ hd, ih]

theorem pieces_concat (s : List α) (hx : p x = false) :
    ∃ t, pieces p (s ++ [x]) = ended p s ++ [t] := by
  have h := split_splitOnP p s
  generalize s.splitOnP p = segs at h
  induction h with
  | @last s hs =>
    refine ⟨s ++ [x], ?_⟩
    rw [ended_of_clean hs, pieces_of_clean]
    · simp
    · exact List.forall_mem_append.mpr ⟨hs, List.forall_mem_singleton.mpr hx⟩
  | @next s r d segs hs hd h ih =>
    obtain ⟨t, ht⟩ := ih
    refine ⟨t, ?_⟩
    rw [List.append_assoc, List.cons_append, pieces_append s _ hd, ended_append s _ hd, ht,
      List.append_assoc]

end Bionic.Splitting
