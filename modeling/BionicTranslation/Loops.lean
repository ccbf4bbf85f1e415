import Mathlib

/-!
# Loops that may not end

A loop passes from state to state and logs what each pass does, until a pass
gives a result. It is run with fuel; whether it ends does not depend on fuel and
is a derivation. Nothing here names the linker.
-/

set_option autoImplicit false

namespace Bionic.Loops

variable {σ ε ρ : Type*}

/-- What a pass logs, and the next state or the result. -/
abbrev Body (σ ε ρ : Type*) := σ → List ε × (σ ⊕ ρ)

def run (body : Body σ ε ρ) : ℕ → σ → List ε × Option ρ
  | 0, _ => ([], none)
  | n + 1, s =>
    match body s with
    | (es, .inr r) => (es, some r)
    | (es, .inl t) => (es ++ (run body n t).1, (run body n t).2)

/-- From `s` the loop makes the passes `ss` and ends with `r`. -/
inductive Passes (body : Body σ ε ρ) : σ → List σ → ρ → Prop
  | last {s : σ} {r : ρ} (h : (body s).2 = .inr r) : Passes body s [s] r
  | next {s t : σ} {ss : List σ} {r : ρ} (h : (body s).2 = .inl t) (hs : Passes body t ss r) :
      Passes body s (s :: ss) r

variable {body : Body σ ε ρ} {s : σ} {ss : List σ} {r : ρ} {n : ℕ}

theorem run_last (h : (body s).2 = .inr r) : run body (n + 1) s = ((body s).1, some r) := by
  rcases hb : body s with ⟨es, x⟩
  rw [hb] at h
  subst h
  simp only [run, hb]

theorem run_next {t : σ} (h : (body s).2 = .inl t) :
    run body (n + 1) s = ((body s).1 ++ (run body n t).1, (run body n t).2) := by
  rcases hb : body s with ⟨es, x⟩
  rw [hb] at h
  subst h
  simp only [run, hb]

theorem Passes.run_eq (h : Passes body s ss r) (hn : ss.length ≤ n) :
    run body n s = (ss.flatMap fun s => (body s).1, some r) := by
  induction h generalizing n with
  | last h =>
    obtain ⟨n, rfl⟩ := Nat.exists_eq_add_of_lt hn
    simpa using run_last h
  | next h _ ih =>
    obtain ⟨n, rfl⟩ := Nat.exists_eq_add_of_lt hn
    rw [run_next h, ih (by simp only [List.length_cons] at hn; omega)]
    rfl

theorem passes_of_run {es : List ε} (h : run body n s = (es, some r)) :
    ∃ ss, Passes body s ss r ∧ es = ss.flatMap fun s => (body s).1 := by
  induction n generalizing s es with
  | zero => simp [run] at h
  | succ n ih =>
    cases hb : (body s).2 with
    | inr q =>
      rw [run_last hb] at h
      obtain ⟨rfl, hq⟩ := Prod.mk.inj h
      exact ⟨[s], .last (hb.trans (congrArg Sum.inr (Option.some.inj hq))), by simp⟩
    | inl t =>
      rw [run_next hb] at h
      obtain ⟨rfl, hq⟩ := Prod.mk.inj h
      obtain ⟨ss, hss, hes⟩ := ih (Prod.ext rfl hq)
      exact ⟨s :: ss, .next hb hss, by simp [← hes]⟩

theorem Passes.ended (h : Passes body s ss r) : ∃ t ∈ ss, (body t).2 = .inr r := by
  induction h with
  | last h => exact ⟨_, List.mem_cons_self, h⟩
  | next _ _ ih =>
    obtain ⟨t, ht, hr⟩ := ih
    exact ⟨t, List.mem_cons_of_mem _ ht, hr⟩

/-- When the next state is a function of the state, the loop ends if and only if some
iterate of that function ends it. `P` is kept by every pass up to that one. -/
theorem exists_passes_iff {next : σ → σ} {P : σ → Prop}
    (hnext : ∀ s t, (body s).2 = .inl t → t = next s) (s : σ) :
    (∃ ss r, Passes body s ss r ∧ ∀ t ∈ ss, P t) ↔
      ∃ k, (∀ j < k, (∃ t, (body (next^[j] s)).2 = .inl t) ∧ P (next^[j] s)) ∧
        (∃ r, (body (next^[k] s)).2 = .inr r) ∧ P (next^[k] s) := by
  constructor
  · rintro ⟨ss, r, h, hP⟩
    induction h with
    | @last s r h =>
      exact ⟨0, fun j hj => absurd hj (Nat.not_lt_zero j), ⟨r, h⟩, hP s List.mem_cons_self⟩
    | @next s t ss r h hs ih =>
      obtain ⟨k, hk, hlast⟩ := ih fun t ht => hP t (List.mem_cons_of_mem _ ht)
      rw [hnext s t h] at hk hlast
      refine ⟨k + 1, fun j hj => ?_, hlast⟩
      cases j with
      | zero => exact ⟨⟨t, h⟩, hP s List.mem_cons_self⟩
      | succ j => exact hk j (Nat.lt_of_succ_lt_succ hj)
  · rintro ⟨k, hk, ⟨r, hr⟩, hP⟩
    induction k generalizing s with
    | zero =>
      refine ⟨[s], r, .last hr, fun t ht => ?_⟩
      rw [List.mem_singleton.mp ht]
      exact hP
    | succ k ih =>
      obtain ⟨⟨t, ht⟩, hs⟩ := hk 0 (Nat.succ_pos k)
      obtain ⟨ss, r, hss, hall⟩ := ih (next s) (fun j hj => hk (j + 1) (Nat.succ_lt_succ hj)) hP hr
      rw [← hnext s t ht] at hss
      refine ⟨s :: ss, r, .next ht hss, fun u hu => ?_⟩
      rcases List.mem_cons.mp hu with rfl | hu
      · exact hs
      · exact hall u hu

end Bionic.Loops
