import BionicTranslation.NewEdges
import BionicTranslation.RefCounts
import BionicTranslation.SearchTree

/-!
# The graph of DT_NEEDED payloads

A library gets its payloads while it is on the stack of a search, and until then no
payload points to it. So each new edge starts at a node that no edge leads to, and
the graph has no cycle, whatever the names in the files are. Unloading only takes
edges away, so it ends.
-/

set_option autoImplicit false

namespace Bionic.NeededGraph
open Bionic.Slots Bionic.Records Bionic.Linker Bionic.Unload Bionic.FoldRules Bionic.LinkFrame
open Bionic.LinkSteps Bionic.CallFrame Bionic.LinkFlags Bionic.RefLedger Bionic.RefCounts
open Bionic.FindSound Bionic.LinkStack Bionic.Constructors Bionic.DepthFirst Bionic.NewEdges
open Bionic.SearchTree

variable {extra : So → ℕ} {L M : State} {b c : List So}

theorem Counted.needs_loaded (h : Counted extra L) {x y : So} (hn : Needs L x y) :
    x ∈ L.solist ∧ y ∈ L.solist := by
  rw [needs_iff] at hn
  have hx : x ∈ L.solist := by
    by_contra hx
    have := h.clear x hx y
    omega
  refine ⟨hx, ?_⟩
  by_contra hy
  have := payloads_le_refs (S := fun _ => true) hx rfl y
  have := (h.zero hy).2
  omega

/-- No cycles, and no payload points to a library on the stack or to one that failed. -/
structure Rooted (b : List So) (L : State) : Prop where
  acyclic : Acyclic (Needs L)
  root : ∀ x, x ∈ b ∨ (L.info x).flags.error = true → ∀ y, ¬ Needs L y x

theorem Rooted.mono (h : Rooted b L) (hn : ∀ x y, Needs M x y → Needs L x y)
    (hr : ∀ x y, x ∈ c ∨ (M.info x).flags.error = true → Needs M y x →
      x ∈ b ∨ (L.info x).flags.error = true) : Rooted c M where
  acyclic := h.acyclic.mono hn
  root x hx y hy := h.root x (hr x y hx hy) y (hn y x hy)

theorem rooted_iff_sprung (hc : Counted extra L) : Rooted b L ↔ Sprung [] b L := by
  have hnew : NewNeeds [] L = Needs L := by
    funext x y
    refine propext ⟨fun hn => hn.2.2, fun hn => ⟨?_, List.not_mem_nil, hn⟩⟩
    exact (Counted.needs_loaded hc hn).1
  constructor
  · intro h
    refine ⟨hnew ▸ h.acyclic, hnew ▸ h.root, fun x y hn => ?_⟩
    exact (Counted.needs_loaded hc hn.2.2).2
  · intro h
    exact ⟨hnew ▸ h.acyclic, hnew ▸ h.root⟩

theorem StackStep.rooted {w : World} {old : List So} {p q : State × List So}
    (hc : Counted extra p.1) (h : Rooted p.2 p.1) (hs : StackStep w old p q) :
    Rooted q.2 q.1 := by
  have hsprung : Sprung [] q.2 q.1 := StackStep.sprung ((rooted_iff_sprung hc).mp h) hs
  exact (rooted_iff_sprung (LinkRun.counted hc (StackStep.link hs))).mpr hsprung

theorem StackRun.rooted {w : World} {old : List So} {p q : State × List So}
    (hc : Counted extra p.1) (h : Rooted p.2 p.1) (hs : StackRun w old p q) :
    Rooted q.2 q.1 := by
  induction hs with
  | refl => exact h
  | tail hr hs ih => exact StackStep.rooted (LinkRun.counted hc (StackRun.link hr)) ih hs

theorem rooted_constructed (h : Rooted b L) (hc : Constructed L M) : Rooted b M := by
  refine h.mono (fun x y hn => ?_) fun x y hx _ => ?_
  · show y ∈ needed (L.info x)
    rw [← constructed_needed hc]
    exact hn
  · rwa [hc.info x] at hx

theorem rooted_addRef {si : So} (h : Rooted b L) : Rooted b (addRef L si) := by
  refine h.mono (fun x y hn => ?_) fun x y hx _ => ?_
  · rwa [needs_iff, addRef_payloads, ← needs_iff] at hn
  · rw [addRef_info] at hx
    split_ifs at hx with hxs
    · rw [hxs]
      exact hx.imp_left fun hm => hxs ▸ hm
    · exact hx

theorem rooted_fades {E : So → Prop} (h : Rooted b L) (hf : FadesBut E L M) : Rooted b M := by
  refine h.mono (fun x y => needs_fades hf) fun x y hx _ => ?_
  rwa [(hf.info x).flags] at hx

theorem rooted_dlopen {w : World} {fuel : ℕ} {name : Option Name} {r : Option Handle}
    (hc : Counted extra L) (h : Rooted [] L) (hl : (L.info .libdl).Live)
    (ho : bionicDlopen w fuel L name = some (M, r)) : Rooted [] M := by
  have hfind : ∀ {lib K x host}, findLibrary w fuel L lib = some (K, x, host) → Rooted [] K :=
    fun hf => StackRun.rooted (p := (L, [])) hc h
      (findLibrary_stack w fuel _ _ _ _ _ [] hl (fun x hx => (nomatch hx)) hf).run
  rcases dlopen_cases ho with ⟨rfl, -⟩ | ⟨name, host, hf, -⟩ |
    ⟨name, K, N, si, host, hf, hN, rfl, -⟩
  · exact h
  · exact hfind hf
  · exact rooted_addRef (rooted_constructed (hfind hf) (callConstructors_constructed fuel hN))

theorem balanced_rooted {s : Sys} (h : BalancedRun s) : Rooted [] s.linker := by
  induction h with
  | initial =>
    have hno : ∀ x y, ¬ Needs initialSys.linker x y := by
      intro x y hn
      cases x <;> cases hn
    refine ⟨fun x hx => ?_, fun x _ y => hno y x⟩
    obtain ⟨y, -, hy⟩ := Relation.TransGen.tail'_iff.mp hx
    exact hno y x hy
  | step hr hb hs ih =>
    cases hs with
    | dlopen ho => exact rooted_dlopen (balanced_counted hr) ih (reachable_tidy hr).live ho
    | dlclose hc => exact rooted_fades ih (dlclose_fades hc)

theorem unload_ends (hac : Acyclic (Needs L)) (fuel : ℕ) : ∀ {K : State} {si : So},
    (∀ x y, Needs K x y → Needs L x y) → rank (Needs L) si < fuel →
      unloadLibrary fuel K si ≠ .error .fuel := by
  induction fuel with
  | zero => exact fun _ h => absurd h (Nat.not_lt_zero _)
  | succ fuel ih =>
    intro K si hK hrank h
    obtain ⟨-, ⟨-, hfault⟩ | ⟨ds, -, hloop⟩⟩ := unload_error h
    · cases hfault
    · have hstart : ∀ x y, Needs (callDestructors K si) x y → Needs L x y := hK
      obtain ⟨N, hN, i, -, hi⟩ := except_error
        (P := fun N => ∀ x y, Needs N x y → Needs L x y)
        (fun N i N' _ hN hN' x y hxy =>
          hN x y (needs_fades (unloadNeeded_fades (unload_fades fuel) hN') hxy)) hstart hloop
      rcases unloadNeeded_cases (unloadLibrary fuel) si N i with ⟨lsi, he, hn⟩ | ⟨n, -, hn⟩ |
        ⟨-, hn⟩ <;> rw [hn] at hi
      · have hless := rank_lt hac (hN si lsi (needs_entry he))
        have hcl := fades_cleared (E := fun _ => True) (i := i) trivial he
        exact ih (fun x y hxy => hN x y (needs_fades hcl hxy)) (by omega) hi
      · cases hi
      · cases hi

/-- The payloads from libraries on the list that are linked without an error to soinfos of
the pool. -/
def LiveNeeds (L : State) (x y : So) : Prop :=
  x ∈ L.solist ∧ (L.info x).Live ∧ Needs L x y ∧ ∃ i, y = .pool i

end Bionic.NeededGraph
