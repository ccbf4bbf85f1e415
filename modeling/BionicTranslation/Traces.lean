import Mathlib.Data.List.Basic
import Mathlib.Data.Nat.Basic
import Mathlib.Tactic.SplitIfs

/-!
# Systems whose steps show events

A step may show an event. A run is a list of actions carried out one after the
other, with the events it shows. A specification accepts events; a relation that
every step carries along makes it accept those of every run. The states that steps
lead to when each meets a condition on the state before it come last. Nothing here
names the wrapper.
-/

set_option autoImplicit false

namespace Bionic.Traces

variable {σ τ α β : Type*}

/-- The actions carried out in order, with the state at the end and the events shown. -/
def run (step : σ → α → Option (σ × Option β)) : σ → List α → Option (σ × List β)
  | s, [] => some (s, [])
  | s, a :: as => (step s a).bind fun r =>
    (run step r.1 as).map fun q => (q.1, r.2.toList ++ q.2)

variable {step : σ → α → Option (σ × Option β)} {s u : σ} {a : α} {as : List α} {es : List β}

theorem run_nil (h : run step s [] = some (u, es)) : u = s ∧ es = [] := by
  cases h
  exact ⟨rfl, rfl⟩

theorem run_cons (h : run step s (a :: as) = some (u, es)) :
    ∃ t e fs, step s a = some (t, e) ∧ run step t as = some (u, fs) ∧ es = e.toList ++ fs := by
  obtain ⟨⟨t, e⟩, ht, hr⟩ := Option.bind_eq_some_iff.mp h
  obtain ⟨⟨v, fs⟩, hv, he⟩ := Option.map_eq_some_iff.mp hr
  cases he
  exact ⟨t, e, fs, ht, hv, rfl⟩

/-- What every step carries along relates the end of a run to a state in which the
specification has accepted what the run shows. -/
theorem run_simulates {spec : τ → β → Option τ} {R : σ → τ → Prop} {o : τ}
    (hstep : ∀ s a t e o, R s o → step s a = some (t, e) →
      ∃ o', e.toList.foldlM spec o = some o' ∧ R t o')
    (h : run step s as = some (u, es)) (hR : R s o) :
    ∃ o', es.foldlM spec o = some o' ∧ R u o' := by
  induction as generalizing s o es with
  | nil =>
    obtain ⟨rfl, rfl⟩ := run_nil h
    exact ⟨o, rfl, hR⟩
  | cons a as ih =>
    obtain ⟨t, e, fs, ht, hr, rfl⟩ := run_cons h
    obtain ⟨o₁, hfirst, hR₁⟩ := hstep s a t e o hR ht
    obtain ⟨o₂, hrest, hR₂⟩ := ih hr hR₁
    refine ⟨o₂, ?_, hR₂⟩
    rw [List.foldlM_append, hfirst]
    exact hrest

theorem run_events {step' : τ → α → Option (τ × Option β)} {R : σ → τ → Prop} {o : τ}
    (hstep : ∀ s o a, R s o →
      Option.Rel (fun r q => R r.1 q.1 ∧ r.2 = q.2) (step s a) (step' o a)) (hR : R s o) :
    (run step s as).map Prod.snd = (run step' o as).map Prod.snd := by
  induction as generalizing s o with
  | nil => rfl
  | cons a as ih =>
    have hfirst := hstep s o a hR
    rw [run, run]
    cases hs : step s a with
    | none =>
      rw [hs] at hfirst
      cases ho : step' o a with
      | none => rfl
      | some q =>
        rw [ho] at hfirst
        cases hfirst
    | some r =>
      rw [hs] at hfirst
      cases ho : step' o a with
      | none =>
        rw [ho] at hfirst
        cases hfirst
      | some q =>
        rw [ho] at hfirst
        cases hfirst with
        | some hq =>
          have hrest := congrArg (Option.map (r.2.toList ++ ·)) (ih hq.1)
          rw [Option.map_map, Option.map_map] at hrest
          rw [Option.bind_some, Option.bind_some, Option.map_map, Option.map_map, ← hq.2]
          exact hrest

theorem run_bounded {P : σ → Prop} {own : α → Bool} {m : σ → ℕ}
    (hkeep : ∀ s a t e, P s → step s a = some (t, e) → P t)
    (hown : ∀ s a t e, P s → a ∈ as → own a → step s a = some (t, e) → m t + 1 ≤ m s)
    (hother : ∀ s a t e, P s → ¬ own a → step s a = some (t, e) → m t ≤ m s)
    (h : run step s as = some (u, es)) (hP : P s) : as.countP own + m u ≤ m s := by
  induction as generalizing s es with
  | nil =>
    obtain ⟨rfl, rfl⟩ := run_nil h
    simp
  | cons a as ih =>
    obtain ⟨t, e, fs, ht, hr, rfl⟩ := run_cons h
    have hrest := ih (fun s a t e hs ha => hown s a t e hs (List.mem_cons_of_mem _ ha)) hr
      (hkeep s a t e hP ht)
    by_cases ha : own a
    · have hlow := hown s a t e hP List.mem_cons_self ha ht
      rw [List.countP_cons_of_pos ha]
      omega
    · have hlow := hother s a t e hP ha ht
      rw [List.countP_cons_of_neg ha]
      omega

section guarded
variable {σ α : Type*} {step : σ → α → Option σ} {C : σ → α → Prop} {P : σ → Prop}
  {s t u : σ} {a : α}

inductive Reaches (step : σ → α → Option σ) (C : σ → α → Prop) (s : σ) : σ → Prop where
  | refl : Reaches step C s s
  | tail {t u : σ} {a : α} (h : Reaches step C s t) (hc : C t a) (hs : step t a = some u) :
      Reaches step C s u

def Free (_ : σ) (_ : α) : Prop := True

instance (s : σ) (a : α) : Decidable (Free s a) := inferInstanceAs (Decidable True)

theorem Reaches.invariant (h : Reaches step C s t)
    (hstep : ∀ t a u, P t → C t a → step t a = some u → P u) (hs : P s) : P t := by
  induction h with
  | refl => exact hs
  | tail _ hc hu ih => exact hstep _ _ _ ih hc hu

theorem Reaches.trans (h : Reaches step C s t) (h' : Reaches step C t u) :
    Reaches step C s u := by
  induction h' with
  | refl => exact h
  | tail _ hc hs ih => exact ih.tail hc hs

theorem Reaches.single (hc : C s a) (hs : step s a = some t) : Reaches step C s t :=
  Reaches.refl.tail hc hs

theorem reaches_of_list [∀ s a, Decidable (C s a)] {l : List α}
    (h : l.foldlM (fun s a => if C s a then step s a else none) s = some t) :
    Reaches step C s t := by
  induction l generalizing s with
  | nil =>
    cases h
    exact .refl
  | cons a l ih =>
    rw [List.foldlM_cons] at h
    obtain ⟨u, hu, ht⟩ := Option.bind_eq_some_iff.mp h
    split_ifs at hu with hc
    exact (Reaches.single hc hu).trans (ih ht)

end guarded

end Bionic.Traces
