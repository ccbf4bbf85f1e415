import BionicTranslation.NeededGraph
import BionicTranslation.NewLibraries

/-!
# What is loaded is what is needed

In a balanced run a counter is not only enough for the handles and payloads there are,
it is their number. A library without one has failed or is gone, so the list holds
what can be reached from open handles and from libraries that have failed, and no more.
-/

set_option autoImplicit false

namespace Bionic.Reclaim
open Bionic.Slots Bionic.Records Bionic.Linker Bionic.Unload Bionic.FoldRules Bionic.LinkFrame
open Bionic.LinkSteps Bionic.CallFrame Bionic.LinkFlags Bionic.RefLedger Bionic.RefCounts
open Bionic.NewEdges Bionic.NeededGraph Bionic.NewLibraries Bionic.Constructors
open Bionic.DepthFirst Bionic.LinkStack Bionic.FindSound Relation

/-- No reference is counted but for a payload or for what is owed. -/
def Settled (extra : So → ℕ) (L : State) : Prop :=
  ∀ z, (L.info z).refcount ≤ extra z + L.refs (fun _ => true) z

variable {extra : So → ℕ} {L M : State} {si lsi : So}

theorem Settled.congr (h : Settled extra L) (hs : M.solist = L.solist)
    (hr : ∀ x, (M.info x).refcount = (L.info x).refcount)
    (hp : ∀ x y, (M.info x).payloads y = (L.info x).payloads y) : Settled extra M := by
  intro z
  rw [refs_congr hs fun x _ => hp x z, hr]
  exact h z

theorem Settled.one (h : Settled extra L) (hp : M.pool = L.pool)
    (hi : ∀ x, x ≠ si → M.info x = L.info x)
    (hr : (M.info si).refcount = (L.info si).refcount)
    (hpay : ∀ y, (M.info si).payloads y = (L.info si).payloads y) : Settled extra M := by
  refine h.congr (solist_congr (by rw [hp])) (fun x => ?_) fun x y => ?_ <;> by_cases hx : x = si
  · rw [hx, hr]
  · rw [hi x hx]
  · rw [hx, hpay]
  · rw [hi x hx]

theorem settled_attempt {w : World} (h : Settled extra L) (ha : Attempted w L M) :
    Settled extra M := by
  intro z
  rw [refs_congr ha.solist fun x hx => by rw [ha.info x hx]]
  rcases ha.scratch z with he | ⟨he, -⟩
  · rw [he]
    exact h z
  · rw [he]
    exact Nat.zero_le _

theorem settled_load {w : World} {lib : Name} {i : Slot} (h : Settled extra L)
    (ha : Appended w L M lib i) : Settled extra M := by
  intro z
  have hrefs : M.refs (fun _ => true) z = L.refs (fun _ => true) z := by
    simp only [State.refs, ha.solist, PointSum.sum_snoc, ha.payloads, if_true, Nat.add_zero]
    exact PointSum.sum_congr fun x hx => by rw [ha.old hx]
  rw [hrefs]
  by_cases hz : z = .pool i
  · rw [hz, ha.refcount]
    exact Nat.zero_le _
  · rw [ha.info z hz]
    exact h z

theorem settled_attach {i v : ℕ} (h : Settled extra L) (hsi : si ∈ L.solist) (hne : lsi ≠ si)
    (he : (L.info si).entries[i]? = some ⟨.needed, .val v⟩) :
    Settled extra (attach L si i lsi) := by
  intro z
  have hz := h z
  rw [refs_attach hsi he, attach_info L i hne]
  simp only [true_and]
  split_ifs with h1 h2
  · subst h1
    simp only
    omega
  · subst h2
    exact hz
  · exact hz

theorem LinkStep.settled {w : World} {old : List So} (h : Settled extra L)
    (hs : LinkStep w old L M) : Settled extra M := by
  cases hs with
  | attempt ha => exact settled_attempt h (loadLibrary_none ha)
  | load _ ha => exact settled_load h (loadLibrary_some ha)
  | extract hf hx =>
    have hsame := extract_same hx
    refine h.one rfl (fun x hx => set_other _ _ hx) ?_ (fun y => ?_) <;> rw [set_same]
    · exact hsame.refcount
    · exact hsame.payloads y
  | need hf he hm hne _ => exact settled_attach h hf.mem hne he
  | finish hf hd hr =>
    rename_i si
    obtain ⟨ts, flags, l_addr, l_name, hown, -⟩ := finishLink_own w L si
    refine h.one (finishLink_pool w L si) (fun x hx => finishLink_other w L hx) ?_ (fun y => ?_) <;>
      rw [hown]
    rfl
  | fail hf =>
    refine h.one rfl (fun x hx => markError_other _ hx) ?_ (fun y => ?_) <;>
      rw [markError, modify_same]
    rfl
  | unmap hm hn he => exact h

theorem LinkRun.settled {w : World} {old : List So} (h : Settled extra L)
    (hs : LinkRun w old L M) : Settled extra M := by
  induction hs with
  | refl => exact h
  | tail _ hs ih => exact LinkStep.settled ih hs

theorem settled_constructed (h : Settled extra L) (hc : Constructed L M) : Settled extra M := by
  refine h.congr hc.solist (fun x => ?_) fun x y => ?_
  · rw [hc.info x]
  · rw [hc.info x]
    rfl

theorem settled_addRef (h : Settled extra L) (si : So) : Settled (owe extra si) (addRef L si) := by
  intro z
  have hz := h z
  rw [refs_congr (L := L) (M := addRef L si) rfl fun x _ => addRef_payloads L si x z, addRef_info]
  unfold owe
  split_ifs with hzs
  · subst hzs
    simp only
    omega
  · exact hz

theorem settled_dlopen {w : World} {fuel : ℕ} {name : Option Name} {r : Option Handle}
    (h : Settled extra L) (hl : (L.info .libdl).Live)
    (ho : bionicDlopen w fuel L name = some (M, r)) : Settled (taken extra r) M := by
  rcases dlopen_cases ho with ⟨rfl, rfl⟩ | ⟨name, host, hf, rfl⟩ |
    ⟨name, K, N, si, host, hf, hN, rfl, rfl⟩
  · exact h
  · have hM := LinkRun.settled h (findLibrary_found w fuel _ _ _ _ _ hl hf).run
    cases host <;> exact hM
  · have hK := LinkRun.settled h (findLibrary_found w fuel _ _ _ _ _ hl hf).run
    exact settled_addRef (settled_constructed hK (callConstructors_constructed fuel hN)) si

theorem settled_cleared {i : ℕ} (h : Settled extra L) (hm : si ∈ L.solist)
    (he : (L.info si).entries[i]? = some ⟨.needed, .so lsi⟩) :
    Settled (owe extra lsi) (cleared L si i) := by
  intro z
  have hz := h z
  have hchange := refs_change (S := fun _ => true) (L := L) (M := cleared L si i) rfl hm
    (fun x hx => modify_other _ _ hx) z
  have hpay := payloads_set ⟨.needed, .val 0⟩ he z
  have h0 : hits z ⟨.needed, .val 0⟩ = false := by simp [hits]
  have h1 : hits z ⟨.needed, .so lsi⟩ = decide (z = lsi) := by simp [hits, eq_comm]
  rw [h0, h1] at hpay
  rw [cleared, modify_same] at hchange
  simp only [if_true, Bool.false_eq_true, if_false, decide_eq_true_eq] at hchange hpay
  rw [cleared_refcount, cleared]
  unfold owe
  omega

theorem settled_cleared_value {i n : ℕ} (h : Settled extra L)
    (he : (L.info si).entries[i]? = some ⟨.needed, .val n⟩) : Settled extra (cleared L si i) := by
  refine h.congr rfl (cleared_refcount L si i) fun x y => ?_
  unfold cleared
  by_cases hx : x = si
  · subst hx
    have := payloads_set ⟨.needed, .val 0⟩ he y
    rw [modify_same]
    simpa [hits] using this
  · rw [modify_other _ _ hx]

theorem settled_keep (hc : Counted (owe extra si) L) (h : Settled (owe extra si) L) :
    Settled extra (keepLoaded L si) := by
  intro z
  have hz := h z
  have hpay : ∀ x y, ((keepLoaded L si).info x).payloads y = (L.info x).payloads y := by
    intro x y
    rw [keepLoaded_info]
    split_ifs with hx
    · rw [hx]
      rfl
    · rfl
  rw [refs_congr (L := L) (M := keepLoaded L si) rfl fun x _ => hpay x z, keepLoaded_info]
  split_ifs with hx
  · subst hx
    have hcov := hc.covered z trivial
    simp only [owe, if_true] at hz hcov
    simp only [decrement]
    split_ifs <;> omega
  · simpa only [owe, if_neg hx, Nat.add_zero] using hz

theorem release_refs (hpay : ∀ y, (L.info si).payloads y = 0) (z : So) :
    (release L si).refs (fun _ => true) z = L.refs (fun _ => true) z := by
  have hsame : ∀ x y, ((release L si).info x).payloads y = (L.info x).payloads y := by
    intro x y
    rw [release_info]
    split_ifs with hx
    · rw [hx]
      rfl
    · rfl
  cases si with
  | libdl => exact refs_congr (L := L) (M := release L .libdl) rfl fun x _ => hsame x z
  | pool i =>
    by_cases hi : So.pool i ∈ L.solist
    · -- the library and the others, in another order
      have hperm : L.solist.Perm (.pool i :: (release L (.pool i)).solist) := by
        rw [List.perm_ext_iff_of_nodup (solist_nodup L)
          (List.nodup_cons.mpr ⟨release_gone L i, solist_nodup _⟩)]
        intro x
        rw [List.mem_cons]
        cases x with
        | libdl => simp [libdl_mem_solist]
        | pool j =>
          simp only [pool_mem_solist, release_loaded, mem_free_loaded, So.pool.injEq]
          rw [pool_mem_solist] at hi
          constructor
          · exact fun hj => or_iff_not_imp_left.mpr fun hne => ⟨hne, hj⟩
          · rintro (rfl | ⟨-, hj⟩)
            · exact hi
            · exact hj
      unfold State.refs
      rw [(hperm.map _).sum_eq, List.map_cons, List.sum_cons]
      simp only [if_true, hpay, Nat.zero_add, hsame]
    · have hs : (release L (.pool i)).pool.loaded = L.pool.loaded := by
        rw [release_loaded, free_loaded]
        exact List.erase_of_not_mem fun hm => hi (pool_mem_solist.mpr hm)
      exact refs_congr (solist_congr hs) fun x _ => hsame x z

/-- Unloading takes away the one reference it is called for, however deep it goes. -/
theorem unload_settles (fuel : ℕ) : ∀ {extra : So → ℕ} {L M : State} {si : So},
    Counted (owe extra si) L → Settled (owe extra si) L → unloadLibrary fuel L si = .ok M →
      Settled extra M := by
  induction fuel with
  | zero =>
    intro extra L M si _ _ h
    cases h
  | succ fuel ih =>
    intro extra L M si hc hs h
    rcases unload_cases h with ⟨-, rfl⟩ | ⟨hone, ds, N, hd, hN, rfl⟩
    · exact settled_keep hc hs
    · have hloop : Counted (owe extra si) N ∧ Settled (owe extra si) N := by
        refine except_invariant (P := fun K => Counted (owe extra si) K ∧ Settled (owe extra si) K)
          ?_ ⟨hc.destructors si, hs⟩ hN
        rintro K i K' - ⟨hcK, hsK⟩ hK'
        rcases unloadNeeded_cases (unloadLibrary fuel) si K i with ⟨lsi, he, hn⟩ | ⟨n, he, hn⟩ |
          ⟨-, hn⟩ <;> rw [hn] at hK'
        · have hcc := hcK.clear_payload rfl he
          have hsc := settled_cleared hsK (hcK.mem_of_payload he) he
          exact ⟨(unload_pays fuel (fun _ => Or.inl rfl) hcc hK').1, ih hcc hsc hK'⟩
        · cases hK'
          exact ⟨hcK.clear_value he, settled_cleared_value hsK he⟩
        · cases hK'
          exact ⟨hcK, hsK⟩
      have hpay := unloadLoop_clears (entries_of_found hd ▸ le_refl _) hN
      intro z
      have hz := hloop.2 z
      rw [release_refs hpay, release_info]
      split_ifs with hx
      · exact Nat.zero_le _
      · simpa only [owe, if_neg hx, Nat.add_zero] using hz

theorem settled_dlclose {foreign : ℕ → Option ℕ} {fuel : ℕ} {h : Handle} {opens : Handle → ℕ}
    (hc : Counted (held opens) L) (hs : Settled (held opens) L) (hh : 0 < opens h)
    (hM : bionicDlclose foreign fuel L h = .ok M) : Settled (held (closed opens h)) M := by
  cases h with
  | so si =>
    rw [← held_closed hh] at hc hs
    exact unload_settles fuel hc hs hM
  | host n =>
    rw [(held_host opens n).2, (dlclose_host hM).1]
    exact hs

theorem balanced_settled {s : Sys} (h : BalancedRun s) : Settled (held s.opens) s.linker := by
  induction h with
  | initial =>
    intro z
    have hzero : (initialSys.linker.info z).refcount = 0 := by cases z <;> rfl
    rw [hzero]
    exact Nat.zero_le _
  | step hr hb hs ih =>
    cases hs with
    | dlopen ho =>
      rw [held_taken]
      exact settled_dlopen ih (reachable_tidy hr).live ho
    | dlclose hc => exact settled_dlclose (balanced_counted hr) ih hb hc

theorem count_exact (hc : Counted extra L) (hs : Settled extra L) (z : So) :
    (L.info z).refcount = extra z + L.refs (fun _ => true) z :=
  le_antisymm (hs z) (hc.covered z trivial)

/-- Every library of the pool on the list that has not failed has a reference. -/
def Wanted (L : State) : Prop :=
  ∀ i, .pool i ∈ L.solist → (L.info (.pool i)).flags.error = false → 0 < (L.info (.pool i)).refcount

theorem wanted_search {w : World} {fuel : ℕ} {lib : Name} {r : Option So} {host : Option ℕ}
    (h : Wanted L) (hl : (L.info .libdl).Live)
    (hf : findLibrary w fuel L lib = some (M, r, host)) {i : Slot} (hi : .pool i ∈ M.solist)
    (he : (M.info (.pool i)).flags.error = false) :
    r = some (.pool i) ∨ 0 < (M.info (.pool i)).refcount := by
  by_cases hold : .pool i ∈ L.solist
  · have hkept := (findLibrary_found w fuel _ _ _ _ _ hl hf).run.grown.kept _ hold hold
    exact Or.inr ((h i hold (hkept.flags ▸ he)).trans_le hkept.grows)
  · rcases findLibrary_brought w fuel _ _ _ _ _ hl hf _ hi hold with hready | ⟨herr, -⟩
    · exact hready.counted
    · exact absurd (he.symm.trans herr) Bool.false_ne_true

theorem wanted_dlopen {w : World} {fuel : ℕ} {name : Option Name} {r : Option Handle}
    (h : Wanted L) (hl : (L.info .libdl).Live)
    (ho : bionicDlopen w fuel L name = some (M, r)) : Wanted M := by
  rcases dlopen_cases ho with ⟨rfl, -⟩ | ⟨name, host, hf, -⟩ |
    ⟨name, K, N, si, host, hf, hN, rfl, -⟩
  · exact h
  · exact fun i hi he => (wanted_search h hl hf hi he).resolve_left nofun
  · have hc := callConstructors_constructed fuel hN
    intro i hi he
    rw [addRef_info] at he ⊢
    split_ifs at he ⊢ with hx
    · exact Nat.succ_pos _
    · rw [hc.info] at he ⊢
      exact (wanted_search h hl hf (hc.solist ▸ hi) he).resolve_left fun e =>
        hx (Option.some.inj e).symm

theorem wanted_cleared (h : Wanted L) (si : So) (k : ℕ) : Wanted (cleared L si k) := by
  intro i hi he
  have hflags : ((cleared L si k).info (.pool i)).flags = (L.info (.pool i)).flags := by
    unfold cleared
    by_cases hx : So.pool i = si
    · rw [← hx, modify_same]
      rfl
    · rw [modify_other _ _ hx]
  rw [cleared_refcount]
  exact h i hi (hflags ▸ he)

theorem wanted_unload (fuel : ℕ) : ∀ {L M : State} {si : So}, Wanted L →
    unloadLibrary fuel L si = .ok M → Wanted M := by
  induction fuel with
  | zero =>
    intro L M si _ h
    cases h
  | succ fuel ih =>
    intro L M si hL h
    rcases unload_cases h with ⟨hone, rfl⟩ | ⟨-, ds, N, -, hN, rfl⟩
    · intro i hi he
      rw [keepLoaded_info] at he ⊢
      split_ifs at he ⊢ with hx
      · exact decrement_pos hone
      · exact hL i hi he
    · have hloop : Wanted N := by
        refine except_invariant (P := Wanted) (fun K k K' _ hK hK' => ?_)
          (show Wanted (callDestructors L si) from hL) hN
        rcases unloadNeeded_cases (unloadLibrary fuel) si K k with ⟨lsi, -, hn⟩ | ⟨n, -, hn⟩ |
          ⟨-, hn⟩ <;> rw [hn] at hK'
        · exact ih (wanted_cleared hK si k) hK'
        · cases hK'
          exact wanted_cleared hK si k
        · cases hK'
          exact hK
      intro i hi he
      have hne : So.pool i ≠ si := by
        rintro rfl
        exact release_gone N i hi
      rw [release_info, if_neg hne] at he ⊢
      exact hloop i ((fades_release (E := fun _ => True) N si).solist.subset hi) he

theorem wanted_dlclose {foreign : ℕ → Option ℕ} {fuel : ℕ} {h : Handle} (hL : Wanted L)
    (hc : bionicDlclose foreign fuel L h = .ok M) : Wanted M := by
  cases h with
  | so si => exact wanted_unload fuel hL hc
  | host n =>
    rw [(dlclose_host hc).1]
    exact hL

theorem reachable_wanted {C : Sys → Act → Sys → Prop} {s : Sys} (h : Reachable C s) :
    Wanted s.linker := by
  induction h with
  | initial => exact fun i hi => absurd (pool_mem_solist.mp hi) List.not_mem_nil
  | step hr _ hs ih =>
    cases hs with
    | dlopen ho => exact wanted_dlopen ih (reachable_tidy hr).live ho
    | dlclose hc => exact wanted_dlclose ih hc

def Clean (extra : So → ℕ) (L : State) : Prop := ∀ x, 0 < extra x → (L.info x).flags.error = false

theorem clean_dlopen {w : World} {fuel : ℕ} {name : Option Name} {r : Option Handle}
    (hc : Counted extra L) (h : Clean extra L) (hl : (L.info .libdl).Live)
    (ho : bionicDlopen w fuel L name = some (M, r)) : Clean (taken extra r) M := by
  -- a library with a handle stays as it is in the search for another
  have hold : ∀ {lib K r host}, findLibrary w fuel L lib = some (K, r, host) → Clean extra K := by
    intro lib K r host hf x hx
    have hm : x ∈ L.solist := by
      by_contra hn
      exact hx.ne' (Counted.zero hc hn).1
    rw [((findLibrary_found w fuel _ _ _ _ _ hl hf).run.grown.kept x hm hm).flags]
    exact h x hx
  rcases dlopen_cases ho with ⟨rfl, rfl⟩ | ⟨name, host, hf, rfl⟩ |
    ⟨name, K, N, si, host, hf, hN, rfl, rfl⟩
  · exact h
  · cases host <;> exact hold hf
  · have hst := findLibrary_stack w fuel _ _ _ _ _ [] hl (fun x hx => (nomatch hx)) hf
    have hcon := callConstructors_constructed fuel hN
    have hN' : ∀ x, (N.info x).flags = (K.info x).flags := fun x => by rw [hcon.info x]
    have hadd : ∀ x, ((addRef N si).info x).flags = (N.info x).flags := by
      intro x
      rw [addRef_info]
      split_ifs with hx
      · rw [hx]
      · rfl
    intro x hx
    rw [hadd, hN']
    by_cases hxs : x = si
    · exact hxs ▸ (hst.result si rfl).2
    · simp only [taken, owe, if_neg hxs, Nat.add_zero] at hx
      exact hold hf x hx

theorem balanced_clean {s : Sys} (h : BalancedRun s) : Clean (held s.opens) s.linker := by
  induction h with
  | initial => exact fun x hx => absurd hx (lt_irrefl 0)
  | step hr hb hs ih =>
    cases hs with
    | dlopen ho =>
      rw [held_taken]
      exact clean_dlopen (balanced_counted hr) ih (reachable_tidy hr).live ho
    | dlclose hc =>
      intro x hx
      rw [((dlclose_fades hc).info x).flags]
      apply ih x
      simp only [held, closed] at hx ⊢
      split_ifs at hx <;> omega

theorem refs_pos_iff {x : So} :
    0 < L.refs (fun _ => true) x ↔ ∃ y ∈ L.solist, Needs L y x := by
  constructor
  · intro h
    by_contra hno
    apply h.ne'
    apply PointSum.sum_eq_zero
    intro y hy
    rw [if_pos rfl]
    exact Nat.eq_zero_of_not_pos fun hp => hno ⟨y, hy, needs_iff.mpr hp⟩
  · rintro ⟨y, hy, hn⟩
    exact (needs_iff.mp hn).trans_le (payloads_le_refs (S := fun _ => true) hy rfl x)

theorem needs_pool {s : Sys} {C : Sys → Act → Sys → Prop} (h : Reachable C s) {y : So} :
    ¬ Needs s.linker .libdl y := by
  rw [needs_iff, payloads_eq]
  have hnull : (s.linker.info .libdl).entries = [] := by
    rw [Soinfo.entries, (reachable_tidy h).null]
  rw [hnull]
  exact Nat.not_lt_zero _

theorem needed_of_listed {s : Sys} (h : BalancedRun s) {i : Slot}
    (hi : .pool i ∈ s.linker.solist) (hopen : ¬ 0 < s.opens (.so (.pool i)))
    (hfailed : (s.linker.info (.pool i)).flags.error ≠ true) :
    ∃ y, (y ∈ s.linker.solist ∧ y ≠ .libdl) ∧ Needs s.linker y (.pool i) := by
  have hexact : (s.linker.info (.pool i)).refcount = s.opens (.so (.pool i)) + _ :=
    count_exact (balanced_counted h) (balanced_settled h) (.pool i)
  have hpos := reachable_wanted h i hi (Bool.eq_false_iff.mpr hfailed)
  obtain ⟨y, hy, hn⟩ := refs_pos_iff.mp (show 0 < s.linker.refs _ (.pool i) by omega)
  refine ⟨y, ⟨hy, ?_⟩, hn⟩
  rintro rfl
  exact needs_pool h hn

theorem failed_zero {s : Sys} (h : BalancedRun s) {i : Slot}
    (hfailed : (s.linker.info (.pool i)).flags.error = true) :
    (s.linker.info (.pool i)).refcount = 0 := by
  have hexact : (s.linker.info (.pool i)).refcount = s.opens (.so (.pool i)) + _ :=
    count_exact (balanced_counted h) (balanced_settled h) (.pool i)
  have hopen : ¬ 0 < s.opens (.so (.pool i)) := by
    intro hp
    have hclean := balanced_clean h (.pool i) hp
    rw [hfailed] at hclean
    cases hclean
  have hrefs : ¬ 0 < s.linker.refs (fun _ => true) (.pool i) := by
    intro hp
    obtain ⟨y, -, hy⟩ := refs_pos_iff.mp hp
    exact (balanced_rooted h).root _ (Or.inr hfailed) y hy
  omega

end Bionic.Reclaim