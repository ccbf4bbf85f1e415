import Mathlib

/-!
# Linked lists threaded through a heap

A list is a chain of nodes, each holding an optional successor. The lemmas
say what one pointer write does to a chain: writes off the chain are
invisible, a write at the last node appends, a write at a predecessor
unlinks. Nothing here depends on what the nodes carry.
-/

set_option autoImplicit false

namespace Bionic.HeapList

variable {N : Type*}

/-- Following `next` from `start` visits exactly the listed nodes and ends in NULL. -/
def Chain (next : N → Option N) : Option N → List N → Prop
  | start, [] => start = none
  | start, x :: l => start = some x ∧ Chain next (next x) l

theorem chain_head {next : N → Option N} {start : Option N} {l : List N}
    (h : Chain next start l) : start = l.head? := by
  cases l with
  | nil => exact h
  | cons x l => exact h.1

theorem chain_unique {next : N → Option N} {start : Option N} {l k : List N}
    (hl : Chain next start l) (hk : Chain next start k) : l = k := by
  induction l generalizing start k with
  | nil =>
    cases k with
    | nil => rfl
    | cons y k => exact absurd (hl.symm.trans hk.1) (by simp)
  | cons x l ih =>
    cases k with
    | nil => exact absurd (hl.1.symm.trans hk) (by simp)
    | cons y k =>
      have hxy : x = y := Option.some.inj (hl.1.symm.trans hk.1)
      subst hxy
      rw [ih hl.2 hk.2]

theorem chain_suffix {next : N → Option N} {start : Option N} {l k : List N} {x : N}
    (h : Chain next start (l ++ x :: k)) : Chain next (next x) k := by
  induction l generalizing start with
  | nil => exact h.2
  | cons y l ih => exact ih h.2

theorem chain_nodup {next : N → Option N} {start : Option N} {l : List N}
    (h : Chain next start l) : l.Nodup := by
  induction l generalizing start with
  | nil => exact List.nodup_nil
  | cons x l ih =>
    refine List.nodup_cons.mpr ⟨fun hx => ?_, ih h.2⟩
    obtain ⟨a, b, rfl⟩ := List.append_of_mem hx
    have hb := chain_unique h.2 (chain_suffix h.2)
    have := congrArg List.length hb
    simp at this
    omega

theorem chain_congr {next next' : N → Option N} {start : Option N} {l : List N}
    (hc : ∀ x ∈ l, next' x = next x) (h : Chain next start l) : Chain next' start l := by
  induction l generalizing start with
  | nil => exact h
  | cons x l ih =>
    refine ⟨h.1, ?_⟩
    rw [hc x (by simp)]
    exact ih (fun y hy => hc y (by simp [hy])) h.2

theorem chain_last {next : N → Option N} {start : Option N} {l : List N} {x : N}
    (h : Chain next start (l ++ [x])) : next x = none :=
  chain_suffix h

theorem chain_next {next : N → Option N} {start : Option N} {l k : List N} {x y : N}
    (h : Chain next start (l ++ x :: y :: k)) : next x = some y :=
  (chain_suffix h).1

def lastNode (next : N → Option N) : ℕ → N → Option N
  | 0, _ => none
  | fuel + 1, x =>
    match next x with
    | none => some x
    | some y => lastNode next fuel y

theorem lastNode_chain {next : N → Option N} {l : List N} {x t : N} {fuel : ℕ}
    (h : Chain next (some x) (l ++ [t])) (hf : l.length < fuel) :
    lastNode next fuel x = some t := by
  induction l generalizing x fuel with
  | nil =>
    obtain ⟨hx, hn⟩ := h
    obtain ⟨f, rfl⟩ := Nat.exists_eq_succ_of_ne_zero (Nat.ne_of_gt hf)
    cases Option.some.inj hx
    change next t = none at hn
    simp [lastNode, hn]
  | cons y l ih =>
    obtain ⟨hx, hn⟩ := h
    obtain ⟨f, rfl⟩ := Nat.exists_eq_succ_of_ne_zero (Nat.ne_of_gt (Nat.zero_lt_of_lt hf))
    cases Option.some.inj hx
    cases hl : next y with
    | none =>
      rw [hl] at hn
      exact absurd (chain_head hn) (by cases l <;> simp)
    | some z =>
      rw [hl] at hn
      simp only [lastNode, hl]
      exact ih hn (by simpa using hf)

theorem chain_next_ne_head {next : N → Option N} {l : List N} {h x : N}
    (hc : Chain next (some h) l) (hx : x ∈ l) : next x ≠ some h := by
  intro hn
  obtain ⟨a, b, rfl⟩ := List.append_of_mem hx
  have hs := chain_suffix hc
  rw [hn] at hs
  have := congrArg List.length (chain_unique hs hc)
  simp at this
  omega

theorem chain_next_mem {next : N → Option N} {start : Option N} {l : List N} {x y : N}
    (hc : Chain next start l) (hx : x ∈ l) (hn : next x = some y) : y ∈ l := by
  obtain ⟨a, b, rfl⟩ := List.append_of_mem hx
  have hb := chain_head (chain_suffix hc)
  rw [hn] at hb
  simp [List.mem_of_mem_head? hb.symm]

variable [DecidableEq N]

theorem chain_update {next : N → Option N} {start : Option N} {l : List N} {x : N}
    {v : Option N} (hx : x ∉ l) (h : Chain next start l) :
    Chain (Function.update next x v) start l := by
  apply chain_congr _ h
  intro y hy
  rw [Function.update_of_ne (by rintro rfl; exact hx hy)]

theorem chain_redirect {next : N → Option N} {start v : Option N} {l k m : List N} {x : N}
    (h : Chain next start (l ++ x :: k)) (hm : Chain next v m) (hx : x ∉ m) :
    Chain (Function.update next x v) start (l ++ x :: m) := by
  induction l generalizing start with
  | nil => exact ⟨h.1, by simpa using chain_update hx hm⟩
  | cons y l ih =>
    refine ⟨h.1, ?_⟩
    have hy : y ≠ x := by
      have hn := chain_nodup h
      simp only [List.cons_append, List.nodup_cons, List.mem_append, List.mem_cons,
        not_or] at hn
      exact hn.1.2.1
    rw [Function.update_of_ne hy]
    exact ih h.2

theorem chain_snoc {next : N → Option N} {start : Option N} {l : List N} {t x : N}
    (h : Chain next start (l ++ [t])) (hx : x ∉ l ++ [t]) :
    Chain (Function.update (Function.update next t (some x)) x none) start (l ++ [t, x]) := by
  have ht : t ≠ x := by rintro rfl; simp at hx
  rw [Function.update_comm ht]
  apply chain_redirect (k := []) (chain_update hx h)
  · exact ⟨rfl, by simp [Chain]⟩
  · simpa using ht

theorem chain_unlink {next : N → Option N} {start : Option N} {l k : List N} {p x : N}
    (h : Chain next start (l ++ p :: x :: k)) :
    Chain (Function.update next p (next x)) start (l ++ p :: k) := by
  have hs : Chain next (next x) k :=
    chain_suffix (chain_suffix h : Chain next (next p) ([] ++ x :: k))
  apply chain_redirect h hs
  have hn := chain_nodup h
  simp only [List.nodup_append, List.nodup_cons, List.mem_cons, not_or] at hn
  exact hn.2.1.1.2

end Bionic.HeapList
