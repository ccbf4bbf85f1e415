import Mathlib

/-!
# The last writer of a cell

A list of commands acts on one cell. Each command either puts a value there or
leaves the cell alone, and no command looks at the old value. The cell then
holds what the last command that touches it has put.
-/

set_option autoImplicit false

namespace Bionic.Overwrite

variable {C β : Type*}

/-- The cell after the commands `cs`, when it held `v` before. -/
def settle (w : C → Option β) (cs : List C) (v : β) : β := cs.foldl (fun v c => (w c).getD v) v

theorem settle_nil (w : C → Option β) (v : β) : settle w [] v = v := rfl

theorem settle_cons (w : C → Option β) (c : C) (cs : List C) (v : β) :
    settle w (c :: cs) v = settle w cs ((w c).getD v) := rfl

theorem settle_optional (w : C → Option β) (P : Prop) [Decidable P] (c : C) (v : β) :
    settle w (if P then [c] else []) v = if P then (w c).getD v else v := by
  split_ifs <;> rfl

theorem settle_append (w : C → Option β) (cs ds : List C) (v : β) :
    settle w (cs ++ ds) v = settle w ds (settle w cs v) := List.foldl_append

theorem settle_untouched {w : C → Option β} {cs : List C} (v : β)
    (h : ∀ c ∈ cs, w c = none) : settle w cs v = v := by
  induction cs with
  | nil => rfl
  | cons c cs ih =>
    rw [settle_cons, h c (by simp)]
    exact ih fun d hd => h d (List.mem_cons_of_mem _ hd)

theorem settle_last {w : C → Option β} (cs : List C) {c : C} {ds : List C} {b : β} (v : β)
    (hc : w c = some b) (hd : ∀ d ∈ ds, w d = none) : settle w (cs ++ c :: ds) v = b := by
  rw [settle_append, settle_cons, hc, settle_untouched _ hd]
  rfl

theorem settle_flatMap {α : Type*} {w : C → Option β} {f : α → List C} (l : List α) {x : α}
    {r : List α} (v : β) (h : ∀ y ∈ r, ∀ c ∈ f y, w c = none) :
    settle w ((l ++ x :: r).flatMap f) v = settle w (f x) (settle w (l.flatMap f) v) := by
  rw [List.flatMap_append, List.flatMap_cons, settle_append, settle_append]
  apply settle_untouched
  intro c hc
  obtain ⟨y, hy, hcy⟩ := List.mem_flatMap.mp hc
  exact h y hy c hcy

theorem settle_groups {α : Type*} {w : C → Option β} {f : α → List C} {g : α → Option β}
    (l : List α) (v : β) (h : ∀ x ∈ l, ∀ v, settle w (f x) v = (g x).getD v) :
    settle w (l.flatMap f) v = settle g l v := by
  induction l generalizing v with
  | nil => rfl
  | cons x l ih =>
    rw [List.flatMap_cons, settle_append, h x (by simp), settle_cons]
    exact ih _ fun y hy => h y (List.mem_cons_of_mem _ hy)

theorem settle_cases (w : C → Option β) (cs : List C) (v : β) :
    ((∀ c ∈ cs, w c = none) ∧ settle w cs v = v) ∨
      ∃ l c r b, cs = l ++ c :: r ∧ w c = some b ∧ (∀ d ∈ r, w d = none) ∧
        settle w cs v = b := by
  induction cs generalizing v with
  | nil => exact Or.inl ⟨by simp, rfl⟩
  | cons c cs ih =>
    rcases ih ((w c).getD v) with ⟨hn, hs⟩ | ⟨l, d, r, b, rfl, hd, hr, hs⟩
    · cases hc : w c with
      | none => exact Or.inl ⟨by simpa [hc] using hn, by rw [settle_cons, hs, hc]; rfl⟩
      | some b =>
        refine Or.inr ⟨[], c, cs, b, rfl, hc, hn, ?_⟩
        rw [settle_cons, hs, hc]
        rfl
    · exact Or.inr ⟨c :: l, d, r, b, rfl, hd, hr, by rw [settle_cons, hs]⟩

end Bionic.Overwrite
