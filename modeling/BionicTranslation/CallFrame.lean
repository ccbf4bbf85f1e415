import BionicTranslation.LinkSteps

/-!
# What constructors and unloading change

Running constructors only sets the flag that they have been called. Unloading,
on any pointer and in any state, takes libraries off the list, lowers counters
and clears payloads; names, flags and address ranges stay as they are.
-/

set_option autoImplicit false

namespace Bionic.CallFrame
open Bionic.Slots Bionic.Records Bionic.Linker Bionic.Unload Bionic.FoldRules Bionic.LinkFrame
open Bionic.LinkSteps

structure Constructed (L L' : State) : Prop where
  pool : L'.pool = L.pool
  mapped : L'.mapped = L.mapped
  info : ∀ x, L'.info x =
    { L.info x with constructors_called := (L'.info x).constructors_called }
  events : ∀ e ∈ L'.events, (∃ x f, e = .call x f) ∨ e ∈ L.events
  logged : ∀ e ∈ L.events, e ∈ L'.events

theorem Constructed.refl (L : State) : Constructed L L :=
  ⟨rfl, rfl, fun _ => rfl, fun _ => Or.inr, fun _ => id⟩

theorem Constructed.trans {L M N : State} (h : Constructed L M) (k : Constructed M N) :
    Constructed L N where
  pool := k.pool.trans h.pool
  mapped := k.mapped.trans h.mapped
  info x := by
    rw [k.info x, h.info x]
  events e he := (k.events e he).elim Or.inl (h.events e)
  logged e he := k.logged e (h.logged e he)

theorem Constructed.solist {L M : State} (h : Constructed L M) : M.solist = L.solist := by
  unfold State.solist
  rw [h.pool]

theorem constructed_callAll (L : State) (si : So) (fs : List ℕ) :
    Constructed L (callAll L si fs) := by
  refine ⟨rfl, rfl, fun _ => rfl, fun e he => ?_, fun e he => List.mem_append_right _ he⟩
  rcases List.mem_append.mp he with he | he
  · obtain ⟨f, -, rfl⟩ := List.mem_map.mp he
    exact Or.inl ⟨si, f, rfl⟩
  · exact Or.inr he

theorem constructed_mark (L : State) (si : So) :
    Constructed L (L.modify si fun s => { s with constructors_called := true }) where
  pool := rfl
  mapped := rfl
  info x := by
    by_cases h : x = si
    · subst h
      rw [modify_same]
    · rw [modify_other _ _ h]
  events _ := Or.inr
  logged _ := id

theorem callConstructors_constructed (fuel : ℕ) :
    ∀ {L L' : State} {si : So}, callConstructorsRecursive fuel L si = some L' →
      Constructed L L' := by
  induction fuel with
  | zero =>
    intro L L' si h
    cases h
  | succ fuel ih =>
    intro L L' si h
    unfold callConstructorsRecursive at h
    split_ifs at h with hc
    · cases h
      exact Constructed.refl L
    · obtain ⟨M, hM, hend⟩ := Option.bind_eq_some_iff.mp h
      have hloop := option_invariant (P := Constructed L) (fun K i N _ hK hN => ?_)
        ((constructed_mark L si).trans (constructed_callAll _ si _)) hM
      · cases hend
        exact (hloop.trans (constructed_callAll _ si _)).trans (constructed_callAll _ si _)
      · unfold constructNeeded at hN
        split at hN
        · exact hK.trans (ih hN)
        · cases hN
          exact hK

structure Faded (s t : Soinfo) : Prop where
  rest : t = { s with dynamic := t.dynamic, refcount := t.refcount }
  dynamic : HasDynamic s → HasDynamic t
  null : s.dynamic = .null → t.dynamic = .null
  payloads : ∀ y, t.payloads y ≤ s.payloads y
  entry : ∀ (i : ℕ) (y : So), t.entries[i]? = some ⟨.needed, .so y⟩ →
    s.entries[i]? = some ⟨.needed, .so y⟩

theorem Faded.refl (s : Soinfo) : Faded s s := ⟨rfl, id, id, fun _ => le_refl _, fun _ _ => id⟩

theorem Faded.trans {s t u : Soinfo} (h : Faded s t) (k : Faded t u) : Faded s u where
  rest := by
    rw [k.rest, h.rest]
  dynamic hs := k.dynamic (h.dynamic hs)
  null hs := k.null (h.null hs)
  payloads y := (k.payloads y).trans (h.payloads y)
  entry i y := h.entry i y ∘ k.entry i y

theorem Faded.name {s t : Soinfo} (h : Faded s t) : t.name = s.name := by rw [h.rest]

theorem Faded.flags {s t : Soinfo} (h : Faded s t) : t.flags = s.flags := by rw [h.rest]

/-- The list only loses libraries, and those that stay keep their dynamic
sections, except for the libraries `but`. -/
structure FadesBut (but : So → Prop) (L L' : State) : Prop where
  loaded : L'.pool.loaded.Sublist L.pool.loaded
  info : ∀ x, Faded (L.info x) (L'.info x)
  dynamic : ∀ x ∈ L'.solist, ¬ but x → (L'.info x).dynamic = (L.info x).dynamic

/-- libdl has no dynamic section and would stay on the list. -/
abbrev Fades (L L' : State) : Prop := FadesBut (· = .libdl) L L'

theorem FadesBut.solist {E : So → Prop} {L M : State} (h : FadesBut E L M) :
    M.solist.Sublist L.solist :=
  (h.loaded.map So.pool).cons_cons So.libdl

theorem FadesBut.refl {E : So → Prop} (L : State) : FadesBut E L L :=
  ⟨List.Sublist.refl _, fun _ => Faded.refl _, fun _ _ _ => rfl⟩

theorem FadesBut.trans {E : So → Prop} {L M N : State} (h : FadesBut E L M)
    (k : FadesBut E M N) : FadesBut E L N :=
  ⟨k.loaded.trans h.loaded, fun x => (h.info x).trans (k.info x), fun x hx hb =>
    (k.dynamic x hx hb).trans (h.dynamic x (k.solist.subset hx) hb)⟩

theorem FadesBut.mono {E E' : So → Prop} {L M : State} (hb : ∀ x, E x → E' x)
    (h : FadesBut E L M) : FadesBut E' L M :=
  ⟨h.loaded, h.info, fun x hx hn => h.dynamic x hx fun hx' => hn (hb x hx')⟩

theorem fades_modify {E : So → Prop} {L : State} {si : So} {f : Soinfo → Soinfo}
    (h : Faded (L.info si) (f (L.info si)))
    (hd : ¬ E si → (f (L.info si)).dynamic = (L.info si).dynamic) :
    FadesBut E L (L.modify si f) := by
  refine ⟨List.Sublist.refl _, fun x => ?_, fun x _ hb => ?_⟩
  · by_cases hx : x = si
    · subst hx
      rw [modify_same]
      exact h
    · rw [modify_other _ _ hx]
      exact Faded.refl _
  · by_cases hx : x = si
    · subst hx
      rw [modify_same]
      exact hd hb
    · rw [modify_other _ _ hx]

theorem fades_callDestructors {E : So → Prop} (L : State) (si : So) :
    FadesBut E L (callDestructors L si) :=
  ⟨List.Sublist.refl _, fun _ => Faded.refl _, fun _ _ _ => rfl⟩

theorem faded_refcount (s : Soinfo) (n : ℕ) : Faded s { s with refcount := n } :=
  ⟨rfl, id, id, fun _ => le_refl _, fun _ _ => id⟩

theorem faded_clear {s : Soinfo} {i : ℕ} {v : DVal}
    (h : s.entries[i]? = some ⟨.needed, v⟩) :
    Faded s (s.setEntries (s.entries.set i ⟨.needed, .val 0⟩)) where
  rest := rfl
  dynamic _ := ⟨_, rfl⟩
  null hn := by
    rw [Soinfo.entries, hn] at h
    cases h
  payloads y := by
    have := payloads_set ⟨.needed, .val 0⟩ h y
    have h0 : hits y ⟨.needed, .val 0⟩ = false := by simp [hits]
    rw [h0] at this
    simp only [Bool.false_eq_true, if_false] at this
    omega
  entry j y hj := by
    rw [setEntries_entries, List.getElem?_set] at hj
    split_ifs at hj
    · cases hj
    · exact hj

theorem fades_clearRefcount {E : So → Prop} (L : State) (si : So) :
    FadesBut E L (clearRefcount L si) := fades_modify (faded_refcount _ 0) fun _ => rfl

theorem fades_release {E : So → Prop} (L : State) (si : So) : FadesBut E L (release L si) := by
  cases si with
  | libdl =>
    have hm : FadesBut E L (L.munmap (L.info .libdl).base (L.info .libdl).size) :=
      ⟨List.Sublist.refl _, fun _ => Faded.refl _, fun _ _ _ => rfl⟩
    exact hm.trans (fades_clearRefcount _ _)
  | pool i =>
    have hfree : FadesBut E L (freeInfo ((L.munmap (L.info (.pool i)).base
        (L.info (.pool i)).size).log [.free i (L.refs (linkedIn L) (.pool i))]) i) := by
      refine ⟨?_, fun _ => Faded.refl _, fun _ _ _ => rfl⟩
      simp only [freeInfo, log_pool, munmap_pool, free_loaded]
      exact List.erase_sublist
    exact hfree.trans (fades_clearRefcount _ _)

theorem release_info (L : State) (si x : So) : (release L si).info x =
    if x = si then { L.info si with refcount := 0 } else L.info x := by
  cases si <;> simp only [release, clearRefcount] <;> split_ifs with hx
  · rw [hx, modify_same, munmap_info]
  · rw [modify_other _ _ hx, munmap_info]
  · rw [hx, modify_same]
    rfl
  · rw [modify_other _ _ hx]
    rfl

theorem keepLoaded_info (L : State) (si x : So) : (keepLoaded L si).info x =
    if x = si then { L.info si with refcount := decrement (L.info si).refcount }
    else L.info x := by
  unfold keepLoaded
  rw [log_info]
  split_ifs with hx
  · rw [hx, modify_same]
  · exact modify_other _ _ hx

theorem release_loaded (L : State) (i : Slot) :
    (release L (.pool i)).pool = L.pool.free i := rfl

theorem release_gone (L : State) (i : Slot) : .pool i ∉ (release L (.pool i)).solist := by
  rw [pool_mem_solist, release_loaded, mem_free_loaded]
  exact fun h => h.1 rfl

def cleared (L : State) (si : So) (i : ℕ) : State :=
  L.modify si fun s => s.setEntries (s.entries.set i ⟨.needed, .val 0⟩)

/-- One DT_NEEDED entry of a teardown: the library it points to is unloaded, or
there is none, or the entry is of another kind. -/
theorem unloadNeeded_cases (unload : State → So → Except Fault State) (si : So) (L : State)
    (i : ℕ) :
    (∃ lsi, (L.info si).entries[i]? = some ⟨.needed, .so lsi⟩ ∧
      unloadNeeded unload si L i = unload (cleared L si i) lsi) ∨
    (∃ n, (L.info si).entries[i]? = some ⟨.needed, .val n⟩ ∧
      unloadNeeded unload si L i = .ok (cleared L si i)) ∨
    (∀ v, (L.info si).entries[i]? ≠ some ⟨.needed, v⟩) ∧ unloadNeeded unload si L i = .ok L := by
  unfold unloadNeeded
  simp only
  split
  · next v he =>
    cases v with
    | so lsi => exact Or.inl ⟨lsi, he, rfl⟩
    | val n => exact Or.inr (Or.inl ⟨n, he, rfl⟩)
  · next hno => exact Or.inr (Or.inr ⟨hno, rfl⟩)

theorem fades_cleared {E : So → Prop} {L : State} {si : So} {i : ℕ} {v : DVal}
    (hb : E si) (he : (L.info si).entries[i]? = some ⟨.needed, v⟩) :
    FadesBut E L (cleared L si i) :=
  fades_modify (faded_clear he) fun hn => absurd hb hn

theorem unloadNeeded_fades {unload : State → So → Except Fault State} {si : So} {L L' : State}
    {i : ℕ} (hu : ∀ {M N : State} {x : So}, unload M x = .ok N → Fades M N)
    (h : unloadNeeded unload si L i = .ok L') :
    FadesBut (fun x => x = .libdl ∨ x = si) L L' := by
  rcases unloadNeeded_cases unload si L i with ⟨lsi, he, hn⟩ | ⟨n, he, hn⟩ | ⟨-, hn⟩ <;>
    rw [hn] at h
  · exact (fades_cleared (Or.inr rfl) he).trans ((hu h).mono fun _ hx => Or.inl hx)
  · cases h
    exact fades_cleared (Or.inr rfl) he
  · cases h
    exact FadesBut.refl L

/-- A call of `apkenv_unload_library` decrements the counter, or it tears the library down. -/
theorem unload_cases {fuel : ℕ} {L L' : State} {si : So}
    (h : unloadLibrary (fuel + 1) L si = .ok L') :
    ((L.info si).refcount ≠ 1 ∧ L' = keepLoaded L si) ∨
    ((L.info si).refcount = 1 ∧ ∃ ds M, (L.info si).dynamic = .found ds ∧
      (List.range ds.length).foldlM (unloadNeeded (unloadLibrary fuel) si)
        (callDestructors L si) = .ok M ∧ L' = release M si) := by
  unfold unloadLibrary at h
  split_ifs at h with hone
  · cases hd : (L.info si).dynamic with
    | null =>
      simp only [hd] at h
      cases h
    | missing =>
      simp only [hd] at h
      cases h
    | found ds =>
      simp only [hd] at h
      obtain ⟨M, hM, hend⟩ := except_bind_ok h
      cases hend
      exact Or.inr ⟨hone, ds, M, rfl, hM, rfl⟩
  · cases h
    exact Or.inl ⟨hone, rfl⟩

theorem unload_keeps {L : State} {si : So} (h : (L.info si).refcount ≠ 1) (fuel : ℕ) :
    unloadLibrary (fuel + 1) L si = .ok (keepLoaded L si) := by
  unfold unloadLibrary
  exact if_neg h

theorem unload_tears {fuel : ℕ} {L M : State} {si : So} {ds : List Dyn}
    (h : (L.info si).refcount = 1) (hd : (L.info si).dynamic = .found ds)
    (hM : (List.range ds.length).foldlM (unloadNeeded (unloadLibrary fuel) si)
      (callDestructors L si) = .ok M) : unloadLibrary (fuel + 1) L si = .ok (release M si) := by
  unfold unloadLibrary
  simp only [h, hd, hM, if_true]
  rfl

theorem unload_error {fuel : ℕ} {L : State} {si : So} {e : Fault}
    (h : unloadLibrary (fuel + 1) L si = .error e) : (L.info si).refcount = 1 ∧
      ((¬ HasDynamic (L.info si) ∧ e = .badTeardown (.so si)) ∨
        ∃ ds, (L.info si).dynamic = .found ds ∧
          (List.range ds.length).foldlM (unloadNeeded (unloadLibrary fuel) si)
            (callDestructors L si) = .error e) := by
  unfold unloadLibrary at h
  split_ifs at h with hone
  refine ⟨hone, ?_⟩
  cases hd : (L.info si).dynamic with
  | null =>
    simp only [hd] at h
    cases h
    refine Or.inl ⟨?_, rfl⟩
    rintro ⟨ds, hds⟩
    cases hd.symm.trans hds
  | missing =>
    simp only [hd] at h
    cases h
    refine Or.inl ⟨?_, rfl⟩
    rintro ⟨ds, hds⟩
    cases hd.symm.trans hds
  | found ds =>
    simp only [hd] at h
    rcases except_bind_error h with hloop | ⟨M, -, hend⟩
    · exact Or.inr ⟨ds, rfl, hloop⟩
    · cases hend

theorem unload_fades (fuel : ℕ) :
    ∀ {L L' : State} {si : So}, unloadLibrary fuel L si = .ok L' → Fades L L' := by
  induction fuel with
  | zero =>
    intro L L' si h
    cases h
  | succ fuel ih =>
    intro L L' si h
    rcases unload_cases h with ⟨-, rfl⟩ | ⟨-, ds, M, -, hM, rfl⟩
    · have hm : Fades L (L.modify si fun s => { s with refcount := decrement s.refcount }) :=
        fades_modify (faded_refcount _ _) fun _ => rfl
      exact ⟨hm.loaded, hm.info, hm.dynamic⟩
    · have hloop := except_invariant (P := FadesBut (fun x => x = .libdl ∨ x = si) L)
        (fun K i N _ hK hN => hK.trans (unloadNeeded_fades ih hN))
        (fades_callDestructors L si) hM
      have hall := hloop.trans (fades_release M si)
      refine ⟨hall.loaded, hall.info, fun x hx hn => hall.dynamic x hx ?_⟩
      rintro (hx' | rfl)
      · exact hn hx'
      · cases x with
        | libdl => exact hn rfl
        | pool i => exact release_gone M i hx

theorem unloadNeeded_clears {unload : State → So → Except Fault State} {si : So} {L L' : State}
    {i : ℕ} (hu : ∀ {M N : State} {x : So}, unload M x = .ok N → Fades M N)
    (h : unloadNeeded unload si L i = .ok L') (y : So) :
    (L'.info si).entries[i]? ≠ some ⟨.needed, .so y⟩ := by
  have hgone : ∀ {v}, (L.info si).entries[i]? = some ⟨.needed, v⟩ →
      ((cleared L si i).info si).entries[i]? ≠ some ⟨.needed, .so y⟩ := by
    intro v he
    have hi := (List.getElem?_eq_some_iff.mp he).1
    rw [cleared, modify_same, setEntries_entries, List.getElem?_set_self hi]
    simp
  rcases unloadNeeded_cases unload si L i with ⟨lsi, he, hn⟩ | ⟨n, he, hn⟩ | ⟨hno, hn⟩ <;>
    rw [hn] at h
  · exact fun hy => hgone he (((hu h).info si).entry i y hy)
  · cases h
    exact hgone he
  · cases h
    exact hno _

theorem unloadLoop_clears {fuel n : ℕ} {si : So} {L M : State}
    (hn : (L.info si).entries.length ≤ n)
    (h : (List.range n).foldlM (unloadNeeded (unloadLibrary fuel) si) L = .ok M) (y : So) :
    (M.info si).payloads y = 0 := by
  have hfades := except_invariant (P := FadesBut (fun x => x = .libdl ∨ x = si) L)
    (fun K i N _ hK hN => hK.trans (unloadNeeded_fades (unload_fades fuel) hN))
    (FadesBut.refl L) h
  rw [payloads_eq, List.countP_eq_zero]
  intro d hd hit
  obtain ⟨i, hi⟩ := List.getElem?_of_mem hd
  have hdy : d = ⟨.needed, .so y⟩ := by
    obtain ⟨tag, un⟩ := d
    simp only [hits, Bool.and_eq_true, decide_eq_true_eq] at hit
    rw [hit.1, hit.2]
  subst hdy
  have hlt := (List.getElem?_eq_some_iff.mp ((hfades.info si).entry i y hi)).1
  exact except_reaches (Q := fun N => (N.info si).entries[i]? ≠ some ⟨.needed, .so y⟩)
    (List.mem_range.mpr (hlt.trans_le hn))
    (fun K N hN => unloadNeeded_clears (unload_fades fuel) hN y)
    (fun K j N hK hN hy => hK (((unloadNeeded_fades (unload_fades fuel) hN).info si).entry i y hy))
    h hi

/-- The ways `bionic_dlopen` can end: no name, no library, or a library whose
constructors have been run and which got one more reference. -/
theorem dlopen_cases {w : World} {fuel : ℕ} {L L' : State} {filename : Option Name}
    {r : Option Handle} (h : bionicDlopen w fuel L filename = some (L', r)) :
    (L' = L ∧ r = none) ∨
    (∃ name host, findLibrary w fuel L name = some (L', none, host) ∧
      r = host.map Handle.host) ∨
    ∃ name M N si host, findLibrary w fuel L name = some (M, some si, host) ∧
      callConstructorsRecursive fuel M si = some N ∧ L' = addRef N si ∧ r = some (.so si) := by
  unfold bionicDlopen at h
  cases filename with
  | none =>
    cases h
    exact Or.inl ⟨rfl, rfl⟩
  | some name =>
    simp only at h
    obtain ⟨⟨M, x, host⟩, hf, hend⟩ := Option.bind_eq_some_iff.mp h
    cases x with
    | none =>
      cases hend
      exact Or.inr (Or.inl ⟨name, host, hf, rfl⟩)
    | some si =>
      obtain ⟨N, hN, hfin⟩ := Option.bind_eq_some_iff.mp hend
      cases hfin
      exact Or.inr (Or.inr ⟨name, M, N, si, host, hf, hN, rfl, rfl⟩)

theorem dlclose_host {foreign : ℕ → Option ℕ} {fuel n : ℕ} {L L' : State}
    (h : bionicDlclose foreign fuel L (.host n) = .ok L') :
    L' = L ∧ ∃ r, foreign n = some r ∧ r ≠ 1 := by
  unfold bionicDlclose at h
  cases hf : foreign n with
  | none =>
    simp only [hf] at h
    cases h
  | some r =>
    simp only [hf] at h
    split_ifs at h with h1
    cases h
    exact ⟨rfl, r, rfl, h1⟩

theorem dlclose_fades {foreign : ℕ → Option ℕ} {fuel : ℕ} {L L' : State} {h : Handle}
    (hc : bionicDlclose foreign fuel L h = .ok L') : Fades L L' := by
  cases h with
  | so si => exact unload_fades fuel hc
  | host n =>
    rw [(dlclose_host hc).1]
    exact FadesBut.refl L

end Bionic.CallFrame
