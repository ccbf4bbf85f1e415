import Mathlib

/-!
# Invariants of loops that can stop early

Rules for a loop over a list in `Option` and in `Except`: what every step keeps
the whole loop keeps, and a relation that composes is carried along also when
the loop stops with an error. They name nothing of the linker.
-/

set_option autoImplicit false

namespace Bionic.FoldRules

variable {α σ ε : Type*}

theorem option_invariant {f : σ → α → Option σ} {P : σ → Prop} {l : List α} {s t : σ}
    (hstep : ∀ s i t, i ∈ l → P s → f s i = some t → P t) (hs : P s)
    (h : l.foldlM f s = some t) : P t := by
  induction l generalizing s with
  | nil =>
    cases h
    exact hs
  | cons i l ih =>
    rw [List.foldlM_cons] at h
    obtain ⟨u, hu, ht⟩ := Option.bind_eq_some_iff.mp h
    exact ih (fun s j t hj => hstep s j t (List.mem_cons_of_mem _ hj))
      (hstep s i u List.mem_cons_self hs hu) ht

theorem option_range_succ {f : σ → ℕ → Option σ} {n : ℕ} {s t : σ}
    (h : (List.range (n + 1)).foldlM f s = some t) :
    ∃ u, (List.range n).foldlM f s = some u ∧ f u n = some t := by
  rw [List.range_succ, List.foldlM_append] at h
  obtain ⟨u, hu, hlast⟩ := Option.bind_eq_some_iff.mp h
  exact ⟨u, hu, by simpa using hlast⟩

theorem option_range_congr {f g : σ → ℕ → Option σ} {s : σ} (n : ℕ)
    (h : ∀ k < n, ∀ t, (List.range k).foldlM f s = some t → g t k = f t k) :
    (List.range n).foldlM g s = (List.range n).foldlM f s := by
  induction n with
  | zero => rfl
  | succ n ih =>
    rw [List.range_succ, List.foldlM_append, List.foldlM_append,
      ih fun k hk => h k (hk.trans n.lt_succ_self)]
    cases ht : (List.range n).foldlM f s with
    | none => rfl
    | some t =>
      show g t n >>= pure = f t n >>= pure
      rw [h n n.lt_succ_self t ht]

theorem option_none_iff {f : σ → ℕ → Option σ} {n : ℕ} {s : σ} :
    (List.range n).foldlM f s = none ↔
      ∃ k < n, ∃ t, (List.range k).foldlM f s = some t ∧ f t k = none := by
  induction n with
  | zero => simp [pure]
  | succ n ih =>
    rw [List.range_succ, List.foldlM_append]
    cases hn : (List.range n).foldlM f s with
    | none =>
      refine iff_of_true rfl ?_
      obtain ⟨k, hk, hrest⟩ := ih.mp hn
      exact ⟨k, Nat.lt_succ_of_lt hk, hrest⟩
    | some t =>
      have hlast : ([n].foldlM f t = none) ↔ f t n = none := by
        cases hf : f t n <;> simp [hf]
      refine hlast.trans ⟨fun h => ⟨n, Nat.lt_succ_self n, t, hn, h⟩, ?_⟩
      rintro ⟨k, hk, u, hu, hf⟩
      rcases Nat.lt_succ_iff_lt_or_eq.mp hk with hlt | rfl
      · have hnone := ih.mpr ⟨k, hlt, u, hu, hf⟩
        rw [hn] at hnone
        cases hnone
      · cases hn.symm.trans hu
        exact hf

theorem except_of_toOption {x : Except ε σ} {t : σ} (h : x.toOption = some t) : x = .ok t := by
  cases x with
  | error e => cases h
  | ok s => rw [Option.some.inj h]

theorem except_bind_ok {x : Except ε σ} {f : σ → Except ε σ} {t : σ}
    (h : (x >>= f) = .ok t) : ∃ u, x = .ok u ∧ f u = .ok t := by
  cases x with
  | ok u => exact ⟨u, rfl, h⟩
  | error e => cases h

theorem except_range_succ {f : σ → ℕ → Except ε σ} {n : ℕ} {s t : σ}
    (h : (List.range (n + 1)).foldlM f s = .ok t) :
    ∃ u, (List.range n).foldlM f s = .ok u ∧ f u n = .ok t := by
  rw [List.range_succ, List.foldlM_append] at h
  obtain ⟨u, hu, hlast⟩ := except_bind_ok h
  obtain ⟨v, hv, hend⟩ := except_bind_ok hlast
  cases hend
  exact ⟨u, hu, hv⟩

theorem except_bind_error {x : Except ε σ} {f : σ → Except ε σ} {e : ε}
    (h : (x >>= f) = .error e) : x = .error e ∨ ∃ u, x = .ok u ∧ f u = .error e := by
  cases x with
  | ok u => exact Or.inr ⟨u, rfl, h⟩
  | error d =>
    cases h
    exact Or.inl rfl

theorem except_invariant {f : σ → α → Except ε σ} {P : σ → Prop} {l : List α} {s t : σ}
    (hstep : ∀ s i t, i ∈ l → P s → f s i = .ok t → P t) (hs : P s)
    (h : l.foldlM f s = .ok t) : P t := by
  induction l generalizing s with
  | nil =>
    cases h
    exact hs
  | cons i l ih =>
    rw [List.foldlM_cons] at h
    obtain ⟨u, hu, ht⟩ := except_bind_ok h
    exact ih (fun s j t hj => hstep s j t (List.mem_cons_of_mem _ hj))
      (hstep s i u List.mem_cons_self hs hu) ht

theorem except_error {f : σ → α → Except ε σ} {P : σ → Prop} {l : List α} {s : σ} {e : ε}
    (hstep : ∀ s i t, i ∈ l → P s → f s i = .ok t → P t) (hs : P s)
    (h : l.foldlM f s = .error e) : ∃ u, P u ∧ ∃ i ∈ l, f u i = .error e := by
  induction l generalizing s with
  | nil => cases h
  | cons i l ih =>
    rw [List.foldlM_cons] at h
    rcases except_bind_error h with hi | ⟨u, hu, ht⟩
    · exact ⟨s, hs, i, List.mem_cons_self, hi⟩
    · obtain ⟨v, hv, j, hj, hf⟩ := ih (fun s j t hj => hstep s j t (List.mem_cons_of_mem _ hj))
        (hstep s i u List.mem_cons_self hs hu) ht
      exact ⟨v, hv, j, List.mem_cons_of_mem _ hj, hf⟩

theorem except_each {f : σ → α → Except ε σ} {P : σ → Prop} {l : List α} {s t : σ}
    (hstep : ∀ s i t, i ∈ l → P s → f s i = .ok t → P t) (hs : P s)
    (h : l.foldlM f s = .ok t) {i : α} (hi : i ∈ l) : ∃ u v, P u ∧ f u i = .ok v := by
  induction l generalizing s with
  | nil => cases hi
  | cons j l ih =>
    rw [List.foldlM_cons] at h
    obtain ⟨u, hu, ht⟩ := except_bind_ok h
    rcases List.mem_cons.mp hi with rfl | hi
    · exact ⟨s, u, hs, hu⟩
    · exact ih (fun s k t hk => hstep s k t (List.mem_cons_of_mem _ hk))
        (hstep s j u List.mem_cons_self hs hu) ht hi

/-- A property of the state that no later step undoes holds at the end if one
step of the loop brings it about. -/
theorem option_reaches {f : σ → α → Option σ} {P Q : σ → Prop} {l : List α} {s t : σ} {i : α}
    (hstep : ∀ s j t, j ∈ l → P s → f s j = some t → P t) (hs : P s) (hi : i ∈ l)
    (hreach : ∀ s t, P s → f s i = some t → Q t)
    (hkeep : ∀ s j t, j ∈ l → P s → Q s → f s j = some t → Q t)
    (h : l.foldlM f s = some t) : Q t := by
  induction l generalizing s with
  | nil => cases hi
  | cons j l ih =>
    rw [List.foldlM_cons] at h
    obtain ⟨u, hu, ht⟩ := Option.bind_eq_some_iff.mp h
    have hPu := hstep s j u List.mem_cons_self hs hu
    rcases List.mem_cons.mp hi with rfl | hi
    · refine (option_invariant (P := fun s => P s ∧ Q s) ?_ ⟨hPu, hreach s u hs hu⟩ ht).2
      rintro s j t hj ⟨hP, hQ⟩ hf
      have hj' := List.mem_cons_of_mem i hj
      exact ⟨hstep s j t hj' hP hf, hkeep s j t hj' hP hQ hf⟩
    · exact ih (fun s k t hk => hstep s k t (List.mem_cons_of_mem _ hk)) hPu hi
        (fun s k t hk => hkeep s k t (List.mem_cons_of_mem _ hk)) ht

theorem except_total {f : σ → α → Except ε σ} {P : σ → Prop} {l : List α} {s : σ}
    (hstep : ∀ s i, i ∈ l → P s → ∃ t, f s i = .ok t ∧ P t) (hs : P s) :
    ∃ t, l.foldlM f s = .ok t ∧ P t := by
  induction l generalizing s with
  | nil => exact ⟨s, rfl, hs⟩
  | cons i l ih =>
    obtain ⟨u, hu, hPu⟩ := hstep s i List.mem_cons_self hs
    rw [List.foldlM_cons, hu]
    exact ih (fun s j hj => hstep s j (List.mem_cons_of_mem _ hj)) hPu

theorem except_reaches {f : σ → α → Except ε σ} {Q : σ → Prop} {l : List α} {s t : σ} {i : α}
    (hi : i ∈ l) (hreach : ∀ s t, f s i = .ok t → Q t)
    (hkeep : ∀ s j t, Q s → f s j = .ok t → Q t) (h : l.foldlM f s = .ok t) : Q t := by
  induction l generalizing s with
  | nil => cases hi
  | cons j l ih =>
    rw [List.foldlM_cons] at h
    obtain ⟨u, hu, ht⟩ := except_bind_ok h
    rcases List.mem_cons.mp hi with rfl | hi
    · exact except_invariant (fun s j t _ => hkeep s j t) (hreach s u hu) ht
    · exact ih hi ht

end Bionic.FoldRules
