import BionicTranslation.RefCounts

/-!
# Which libraries are torn down

A teardown walks the dynamic section of its library. Pool libraries with a
counter have one; libdl has none, so a run is safe as long as no close takes the
last reference of libdl. A set of libraries that keep a reference when all the
others are torn down says so before the close.
-/

set_option autoImplicit false

namespace Bionic.Teardown
open Bionic.Slots Bionic.Records Bionic.Linker Bionic.Unload Bionic.FoldRules Bionic.LinkFrame
open Bionic.LinkSteps Bionic.CallFrame Bionic.LinkFlags Bionic.RefLedger Bionic.RefCounts
open Bionic.FindSound

/-- Every library on the list other than libdl has its dynamic section, or has
neither been linked nor referred to. -/
def Based (L : State) : Prop := ∀ x ∈ L.solist, x = .libdl ∨ HasDynamic (L.info x) ∨
  ((L.info x).refcount = 0 ∧ (L.info x).flags.linked = false)

variable {L L' : State}

theorem Based.linked (h : Based L) {x : So} (hx : x ∈ L.solist)
    (hl : (L.info x).flags.linked = true) : x = .libdl ∨ HasDynamic (L.info x) := by
  rcases h x hx with h | h | ⟨-, h⟩
  · exact Or.inl h
  · exact Or.inr h
  · rw [hl] at h
    cases h

theorem Based.referred (h : Based L) {x : So} (hx : x ∈ L.solist)
    (hr : (L.info x).refcount ≠ 0) : x = .libdl ∨ HasDynamic (L.info x) :=
  (h x hx).imp_right fun h => h.resolve_right fun h => hr h.1

theorem Based.change {si : So} (h : Based L) (hp : L'.pool = L.pool)
    (ho : ∀ x, x ≠ si → L'.info x = L.info x)
    (hs : si = .libdl ∨ HasDynamic (L'.info si) ∨
      ((L'.info si).refcount = 0 ∧ (L'.info si).flags.linked = false)) : Based L' := by
  intro x hx
  have hsol : L'.solist = L.solist := solist_congr (by rw [hp])
  have hx' : x ∈ L.solist := hsol ▸ hx
  by_cases hxs : x = si
  · exact hxs ▸ hs
  · rw [ho x hxs]
    exact h x hx'

theorem based_addRef {si : So} (h : Based L) (hs : si = .libdl ∨ HasDynamic (L.info si)) :
    Based (addRef L si) := by
  refine h.change rfl (fun x hx => by rw [addRef_info, if_neg hx]) (hs.imp_right fun hd => ?_)
  rw [addRef_info, if_pos rfl]
  exact Or.inl hd

theorem based_load {w : World} {lib : Name} {i : Slot} (h : Based L)
    (ha : Appended w L L' lib i) : Based L' := by
  intro x hx
  by_cases hxi : x = .pool i
  · subst hxi
    exact Or.inr (Or.inr ⟨ha.refcount, by rw [ha.flags]⟩)
  · rw [ha.info x hxi]
    exact h x (ha.mem_old hx hxi)

theorem LinkStep.based {w : World} {old : List So} (h : Based L) (hs : LinkStep w old L L') :
    Based L' := by
  cases hs with
  | attempt ha =>
    have ha := loadLibrary_none ha
    intro x hx
    have hx' : x ∈ L.solist := ha.solist ▸ hx
    rw [ha.info x hx']
    exact h x hx'
  | load _ ha => exact based_load h (loadLibrary_some ha)
  | extract hf hx =>
    have hsame := extract_same hx
    refine h.change rfl (fun x hx => set_other _ _ hx) ?_
    rw [set_same, hsame.refcount, hsame.linked]
    refine (h _ hf.mem).imp_right (Or.imp_left fun hdyn => ?_)
    obtain ⟨ds, hd⟩ := hdyn
    exact hsame.found ds hd
  | need hf he hm hne ht =>
    rename_i si lsi i v
    have hpay : Based (L.modify si fun s =>
        s.setEntries (s.entries.set i ⟨.needed, .so lsi⟩)) :=
      h.change rfl (fun x hx => modify_other _ _ hx)
        (Or.inr (Or.inl (by rw [modify_same]; exact ⟨_, rfl⟩)))
    refine based_addRef hpay ?_
    rw [modify_other _ _ hne]
    rcases ht with ht | ht
    · exact h.linked hm ht.1
    · exact Or.inr ht.2
  | finish hf hd hr =>
    rename_i si
    obtain ⟨ts, flags, l_addr, l_name, hown, -⟩ := finishLink_own w L si
    refine h.change (finishLink_pool w L si) (fun x hx => finishLink_other w L hx)
      (Or.inr (Or.inl ?_))
    rw [hown]
    exact hd
  | fail hf =>
    refine h.change rfl (fun x hx => markError_other _ hx) ?_
    rw [markError, modify_same]
    exact h _ hf.mem
  | unmap hm hn he => exact h

theorem LinkRun.based {w : World} {old : List So} (h : Based L) (hs : LinkRun w old L L') :
    Based L' := by
  induction hs with
  | refl => exact h
  | tail _ hs ih => exact LinkStep.based ih hs

theorem based_dlopen {w : World} {fuel : ℕ} {name : Option Name} {r : Option Handle}
    (h : Based L) (hl : (L.info .libdl).Live)
    (ho : bionicDlopen w fuel L name = some (L', r)) : Based L' := by
  rcases dlopen_cases ho with ⟨rfl, -⟩ | ⟨name, host, hf, -⟩ |
    ⟨name, M, N, si, host, hf, hN, rfl, -⟩
  · exact h
  · exact LinkRun.based h (findLibrary_found w fuel _ _ _ _ _ hl hf).run
  · have hfound := findLibrary_found w fuel _ _ _ _ _ hl hf
    have hM := LinkRun.based h hfound.run
    have hc := callConstructors_constructed fuel hN
    have hsec : si = .libdl ∨ HasDynamic (M.info si) := by
      by_cases hsi : si ∈ L.solist
      · have hk := hfound.run.grown.kept si hsi hsi
        exact hM.linked (hfound.mem si rfl) (hk.live.mpr (hfound.live si rfl hsi)).1
      · exact Or.inr (hfound.dynamic si rfl hsi)
    refine based_addRef (fun x hx => ?_) ?_
    · rw [hc.info x]
      exact hM x (hc.solist ▸ hx)
    · rw [hc.info si]
      exact hsec

theorem based_fades {E : So → Prop} (h : Based L) (hf : FadesBut E L L')
    (hlow : Lowered (fun _ => True) L L') : Based L' := by
  intro x hx
  refine (h x (hf.solist.subset hx)).imp_right (Or.imp (hf.info x).dynamic fun ⟨h0, hl⟩ => ?_)
  have := hlow x trivial
  exact ⟨by omega, by rw [(hf.info x).flags, hl]⟩

theorem balanced_based {s : Sys} (h : BalancedRun s) : Based s.linker := by
  induction h with
  | initial =>
    intro x hx
    simp only [initialSys, State.solist, initial, Slots.empty, List.map_nil,
      List.mem_singleton] at hx
    exact Or.inl hx
  | step hr hb hs ih =>
    cases hs with
    | dlopen ho => exact based_dlopen ih (reachable_tidy hr).live ho
    | dlclose hc =>
      rename_i s foreign fuel h L
      refine based_fades ih (dlclose_fades hc) ?_
      cases h with
      | so si =>
        have hL := balanced_counted hr
        rw [← held_closed hb] at hL
        exact (unload_pays fuel (fun _ => Or.inl rfl) hL hc).2
      | host n =>
        rw [(dlclose_host hc).1]
        exact fun _ _ => le_refl _

theorem based_cleared {si : So} {i : ℕ} (h : Based L) : Based (cleared L si i) :=
  h.change rfl (fun x hx => modify_other _ _ hx)
    (Or.inr (Or.inl (by rw [cleared, modify_same]; exact ⟨_, rfl⟩)))

/-- libdl is in a set `K` of libraries that keep a reference after `si` has been
closed, even if every library outside of `K` is torn down. Libraries that have no
reference may be in it, since they have none to lose. -/
def Spares (L : State) (si : So) : Prop := ∃ K : So → Bool, K .libdl = true ∧
  ∀ z, K z = true → (L.info z).refcount = 0 ∨
    (if z = si then 1 else 0) + L.refs (fun x => !K x) z < (L.info z).refcount

/-- What holds while `si` is unloaded. Of the two ledgers the second counts only the
payloads of libraries outside of `K`, and leaves a reference in each counter in `K`. -/
structure Sparing (K : So → Bool) (extra keep : So → ℕ) (si : So) (L : State) : Prop where
  counted : Counted (owe extra si) L
  based : Based L
  libdl : K .libdl = true
  backed : Backed (fun x => !K x) (fun z => K z = true) keep L
  ledger : Ledger (fun x => !K x) (fun z => K z = true) (owe keep si) L

variable {K : So → Bool} {extra keep : So → ℕ} {si : So}

theorem Sparing.found (h : Sparing K extra keep si L) (hone : (L.info si).refcount = 1) :
    HasDynamic (L.info si) := by
  have hm : si ∈ L.solist := by
    by_contra hno
    have := (h.counted.zero hno).1
    simp [owe] at this
  refine (h.based.referred hm (by omega)).resolve_left ?_
  rintro rfl
  have := h.ledger.source h.backed hone.le
  simp [h.libdl] at this

theorem Sparing.needed {fuel i : ℕ} (h : Sparing K extra keep si L)
    (hone : (L.info si).refcount ≤ 1)
    (hM : unloadNeeded (unloadLibrary fuel) si L i = .ok L') :
    Sparing K extra keep si L' ∧ (L'.info si).refcount ≤ 1 := by
  obtain ⟨hc, hlow⟩ := unloadNeeded_pays (unload_pays fuel) (fun _ => Or.inl rfl) rfl h.counted hM
  obtain ⟨hl, hlow'⟩ := unloadNeeded_pays (unload_pays fuel) (h.backed.owe si)
    (h.ledger.source h.backed hone) h.ledger hM
  exact ⟨⟨hc, based_fades h.based (unloadNeeded_fades (unload_fades fuel) hM) hlow, h.libdl,
    h.backed.lower hlow', hl⟩, (hlow si trivial).trans hone⟩

theorem Sparing.descend {i : ℕ} {lsi : So} (h : Sparing K extra keep si L)
    (hone : (L.info si).refcount ≤ 1)
    (he : (L.info si).entries[i]? = some ⟨.needed, .so lsi⟩) :
    Sparing K (owe extra si) (owe keep si) lsi (cleared L si i) where
  counted := h.counted.clear_payload rfl he
  based := based_cleared h.based
  libdl := h.libdl
  backed := (h.backed.lower (lowered_cleared L si i)).owe si
  ledger := h.ledger.clear_payload (h.ledger.source h.backed hone) he

theorem unload_no_fault (fuel : ℕ) : ∀ {extra keep : So → ℕ} {si : So} {L : State} (x : Handle),
    Sparing K extra keep si L → unloadLibrary fuel L si ≠ .error (.badTeardown x) := by
  induction fuel with
  | zero =>
    intro extra keep si L x _ h
    cases h
  | succ fuel ih =>
    intro extra keep si L x hL h
    obtain ⟨hone, ⟨hno, -⟩ | ⟨ds, -, hloop⟩⟩ := unload_error h
    · exact hno (hL.found hone)
    · have hstart : Sparing K extra keep si (callDestructors L si) :=
        ⟨hL.counted.destructors si, hL.based, hL.libdl, hL.backed, hL.ledger.destructors si⟩
      obtain ⟨N, ⟨hN, hone'⟩, i, -, hi⟩ := except_error
        (P := fun N => Sparing K extra keep si N ∧ (N.info si).refcount ≤ 1)
        (fun N i N' _ hN hN' => hN.1.needed hN.2 hN') ⟨hstart, hone.le⟩ hloop
      rcases unloadNeeded_cases (unloadLibrary fuel) si N i with ⟨lsi, he, hn⟩ | ⟨n, -, hn⟩ |
        ⟨-, hn⟩ <;> rw [hn] at hi
      · exact ih x (hN.descend hone' he) hi
      · cases hi
      · cases hi

/-- The close leaves libdl a reference, or the word a pointer of the host has in the
place of a counter is not 1. -/
def Keeps (foreign : ℕ → Option ℕ) (L : State) : Handle → Prop
  | .so si => Spares L si
  | .host n => foreign n ≠ some 1

/-- In every balanced run: a close that leaves libdl a reference enters the teardown
only of libraries with a dynamic section, so never that of libdl. -/
theorem no_bad_teardown {s : Sys} (hr : BalancedRun s) {foreign : ℕ → Option ℕ} {h : Handle}
    (hb : 0 < s.opens h) (hk : Keeps foreign s.linker h) (fuel : ℕ) (x : Handle) :
    bionicDlclose foreign fuel s.linker h ≠ .error (.badTeardown x) := by
  have hL := balanced_counted hr
  cases h with
  | host n =>
    intro he
    unfold bionicDlclose at he
    cases hf : foreign n with
    | none =>
      simp only [hf] at he
      cases he
    | some r =>
      simp only [hf] at he
      split_ifs at he with h1
      exact hk (h1 ▸ hf)
  | so si =>
    rw [← held_closed hb] at hL
    obtain ⟨K, hlib, hK⟩ := hk
    have hstart : Sparing K (held (closed s.opens (.so si)))
        (fun z => if (s.linker.info z).refcount = 0 then 0 else 1) si s.linker := by
      refine ⟨hL, balanced_based hr, hlib, fun z => ?_, fun z hz => ?_,
        fun z hz _ => hL.idle z hz trivial, hL.clear, fun hall => ?_⟩
      · by_cases hz : K z = true
        · refine Or.inr ⟨hz, ?_⟩
          split_ifs with h0
          · exact Or.inr h0
          · exact Or.inl Nat.one_pos
        · exact Or.inl (by simpa using hz)
      · -- a counter that is zero is covered because all payloads are counted
        have hle := refs_mono (S := fun x => !K x) (T := fun _ => true) (fun _ _ => rfl)
          s.linker z
        have hall := hL.covered z trivial
        have hone := hK z hz
        simp only [owe] at hall ⊢
        split_ifs at hall hone ⊢ <;> omega
      · have := (hall .libdl).1
        simp [hlib] at this
    exact unload_no_fault fuel x hstart

theorem plain_close_no_fault : ∃ L, bionicDlopen relWorld 2 initial (some ['p']) =
    some (L, some (.so (.pool firstSlot))) ∧ ∀ fuel x,
      bionicDlclose (fun _ => none) fuel L (.so (.pool firstSlot)) ≠ .error (.badTeardown x) := by
  have h : (bionicDlopen relWorld 2 initial (some ['p'])).map (fun p =>
      (p.2, (p.1.info .libdl).refcount)) = some (some (.so (.pool firstSlot)), 0) := by
    decide +kernel
  obtain ⟨⟨L, r⟩, hf, he⟩ := Option.map_eq_some_iff.mp h
  simp only [Prod.mk.injEq] at he
  obtain ⟨rfl, h0⟩ := he
  refine ⟨L, hf, no_bad_teardown (.step .initial (a := .dlopen relWorld (some ['p'])) trivial
    (.dlopen hf)) (by simp [opened]) ⟨fun z => z = .libdl, by decide, fun z hz => Or.inl ?_⟩⟩
  obtain rfl : z = .libdl := by simpa using hz
  exact h0

/-- libdl opened by its name and closed again: its teardown is entered. -/
theorem close_libdl_faults : ∃ L, bionicDlopen relWorld 1 initial (some libdlInfo.name) =
    some (L, some (.so .libdl)) ∧
      bionicDlclose (fun _ => none) 1 L (.so .libdl) = .error (.badTeardown (.so .libdl)) := by
  have h : (bionicDlopen relWorld 1 initial (some libdlInfo.name)).map (fun p =>
      (p.2, (p.1.info .libdl).refcount, decide ((p.1.info .libdl).dynamic = .null))) =
      some (some (.so .libdl), 1, true) := by decide +kernel
  obtain ⟨⟨L, r⟩, hf, he⟩ := Option.map_eq_some_iff.mp h
  simp only [Prod.mk.injEq, decide_eq_true_eq] at he
  obtain ⟨rfl, hone, hnull⟩ := he
  refine ⟨L, hf, ?_⟩
  simp only [bionicDlclose, unloadLibrary, hone, hnull, if_true]

end Bionic.Teardown
