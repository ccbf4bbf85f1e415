import Mathlib

/-!
# The pool of soinfo slots

`apkenv_sopool` has 128 slots. A slot below `apkenv_socount` is on the list of
loaded libraries or on the free list, never on both, and a slot above it has
not been used yet. The pool carries these facts, so no operation can lose a
slot or hand one out twice.
-/

set_option autoImplicit false

namespace Bionic.Slots

def soMax : ℕ := 128

abbrev Slot := Fin soMax

/-- `loaded` is `apkenv_solist` after its static first entry; its last element
is the one `apkenv_sonext` points to. -/
structure Pool where
  loaded : List Slot
  freelist : List Slot
  socount : ℕ
  nodup : (loaded ++ freelist).Nodup
  mem_iff : ∀ i : Slot, i ∈ loaded ++ freelist ↔ i.val < socount
  bound : socount ≤ soMax

def empty : Pool where
  loaded := []
  freelist := []
  socount := 0
  nodup := List.nodup_nil
  mem_iff := by simp
  bound := by decide

theorem Pool.loaded_nodup (p : Pool) : p.loaded.Nodup := (List.nodup_append'.mp p.nodup).1

theorem Pool.not_free {p : Pool} {i : Slot} (h : i ∈ p.loaded) : i ∉ p.freelist :=
  fun hf => (List.nodup_append'.mp p.nodup).2.2 h hf

theorem Pool.head_free {p : Pool} {i : Slot} {rest : List Slot} (h : p.freelist = i :: rest) :
    i ∉ p.loaded := fun hl => Pool.not_free hl (h ▸ List.mem_cons_self)

def Pool.takeFree (p : Pool) (i : Slot) (rest : List Slot) (h : p.freelist = i :: rest) : Pool where
  loaded := p.loaded ++ [i]
  freelist := rest
  socount := p.socount
  nodup := by
    have := p.nodup
    rw [h] at this
    simpa using this
  mem_iff := fun j => by
    have := p.mem_iff j
    rw [h] at this
    rw [← this]
    simp
  bound := p.bound

def Pool.takeFresh (p : Pool) (hf : p.freelist = []) (h : p.socount < soMax) : Pool where
  loaded := p.loaded ++ [⟨p.socount, h⟩]
  freelist := []
  socount := p.socount + 1
  nodup := by
    have hn := p.nodup
    have hm := p.mem_iff ⟨p.socount, h⟩
    rw [hf, List.append_nil] at hn hm
    rw [List.append_nil, ← List.concat_eq_append]
    exact (List.nodup_concat _ _).mpr ⟨fun hin => absurd (hm.mp hin) (Nat.lt_irrefl _), hn⟩
  mem_iff := fun j => by
    have hm := p.mem_iff j
    rw [hf, List.append_nil] at hm
    rw [List.append_nil, List.mem_append, hm, List.mem_singleton, Fin.ext_iff]
    simp only
    omega
  bound := h

def Pool.alloc (p : Pool) : Option (Pool × Slot) :=
  match h : p.freelist with
  | i :: rest => some (p.takeFree i rest h, i)
  | [] => if hs : p.socount < soMax then some (p.takeFresh h hs, ⟨p.socount, hs⟩) else none

def Pool.free (p : Pool) (i : Slot) : Pool :=
  if h : i ∈ p.loaded then
    { loaded := p.loaded.erase i
      freelist := i :: p.freelist
      socount := p.socount
      nodup := by
        have hp : List.Perm (p.loaded.erase i ++ i :: p.freelist) (p.loaded ++ p.freelist) :=
          List.perm_middle.trans ((List.perm_cons_erase h).symm.append_right _)
        exact hp.nodup_iff.mpr p.nodup
      mem_iff := fun j => by
        have hp : List.Perm (p.loaded.erase i ++ i :: p.freelist) (p.loaded ++ p.freelist) :=
          List.perm_middle.trans ((List.perm_cons_erase h).symm.append_right _)
        rw [hp.mem_iff]
        exact p.mem_iff j
      bound := p.bound }
  else p

theorem alloc_none {p : Pool} : p.alloc = none ↔ p.freelist = [] ∧ soMax ≤ p.socount := by
  unfold Pool.alloc
  split
  · next i rest hf =>
    refine iff_of_false nofun fun h => ?_
    cases hf.symm.trans h.1
  · next hf =>
    split_ifs with hs
    · exact iff_of_false nofun fun h => absurd h.2 (Nat.not_le.mpr hs)
    · exact iff_of_true rfl ⟨hf, Nat.not_lt.mp hs⟩

theorem alloc_some {p q : Pool} {i : Slot} (h : p.alloc = some (q, i)) :
    q.loaded = p.loaded ++ [i] ∧ i ∉ p.loaded := by
  unfold Pool.alloc at h
  split at h
  · next j rest hf =>
    cases h
    exact ⟨rfl, Pool.head_free hf⟩
  · next hf =>
    split_ifs at h with hs
    cases h
    refine ⟨rfl, fun hin => ?_⟩
    have := (p.mem_iff ⟨p.socount, hs⟩).mp (List.mem_append_left _ hin)
    exact Nat.lt_irrefl _ this

theorem free_loaded (p : Pool) (i : Slot) : (p.free i).loaded = p.loaded.erase i := by
  unfold Pool.free
  split_ifs with h
  · rfl
  · exact (List.erase_of_not_mem h).symm

theorem free_freelist {p : Pool} {i : Slot} (h : i ∈ p.loaded) :
    (p.free i).freelist = i :: p.freelist := by
  rw [Pool.free, dif_pos h]

theorem free_socount (p : Pool) (i : Slot) : (p.free i).socount = p.socount := by
  unfold Pool.free
  split_ifs <;> rfl

theorem free_unlisted {p : Pool} {i : Slot} (h : i ∉ p.loaded) : p.free i = p := dif_neg h

theorem mem_free_loaded {p : Pool} {i j : Slot} :
    j ∈ (p.free i).loaded ↔ j ≠ i ∧ j ∈ p.loaded := by
  rw [free_loaded]
  exact p.loaded_nodup.mem_erase_iff

end Bionic.Slots
