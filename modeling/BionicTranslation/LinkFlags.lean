import BionicTranslation.CallFrame

/-!
# Libraries returned by a search

A library that `apkenv_find_library` returns is linked, and later searches for
its name return it again, exactly when extraction of its dynamic section did not
stop early: the two `return false` there read as success to the caller. This
holds in every run of opens and closes, whatever handles are closed.
-/

set_option autoImplicit false

namespace Bionic.LinkFlags
open Bionic.Slots Bionic.Records Bionic.Linker Bionic.Unload Bionic.FoldRules Bionic.LinkFrame
open Bionic.LinkSteps Bionic.CallFrame

def names (L : State) : List Name := L.solist.map fun x => (L.info x).name

/-- The DT_NEEDED entries have their payloads and the relocation tables have been
applied. -/
structure Complete (s : Soinfo) : Prop where
  resolved : Resolved s
  applied : ∀ t ∈ s.relocTables, t ∈ s.applied

/-- What every run keeps: names are not repeated on the list, libdl stays as it
is, and linking of a linked library was complete. -/
structure Tidy (L : State) : Prop where
  nodup : (names L).Nodup
  live : (L.info .libdl).Live
  null : (L.info .libdl).dynamic = .null
  complete : ∀ x ∈ L.solist, (L.info x).flags.linked = true → Complete (L.info x)

theorem Complete.congr {s t : Soinfo} (hd : t.entries = s.entries)
    (ht : t.relocTables = s.relocTables) (ha : t.applied = s.applied) (hs : Complete s) :
    Complete t where
  resolved := by
    unfold Resolved
    rw [hd]
    exact hs.resolved
  applied := by
    rw [ht, ha]
    exact hs.applied

theorem Complete.faded {s t : Soinfo} (h : Faded s t) (hd : t.dynamic = s.dynamic)
    (hs : Complete s) : Complete t := by
  refine hs.congr ?_ ?_ ?_
  · rw [Soinfo.entries, Soinfo.entries, hd]
  · rw [h.rest]
    rfl
  · rw [h.rest]

theorem Tidy.change {L L' : State} {si : So} (h : Tidy L) (hl : si ≠ .libdl)
    (hp : L'.pool = L.pool) (ho : ∀ x, x ≠ si → L'.info x = L.info x)
    (hn : (L'.info si).name = (L.info si).name)
    (hr : (L'.info si).flags.linked = true → Complete (L'.info si)) : Tidy L' := by
  have hs : L'.solist = L.solist := solist_congr (by rw [hp])
  refine ⟨?_, by rw [ho _ hl.symm]; exact h.live, by rw [ho _ hl.symm]; exact h.null,
    fun x hx hlk => ?_⟩
  · have : names L' = names L := by
      unfold names
      rw [hs]
      refine List.map_congr_left fun x _ => ?_
      by_cases hx : x = si
      · rw [hx, hn]
      · rw [ho x hx]
    rw [this]
    exact h.nodup
  · by_cases hxs : x = si
    · subst hxs
      exact hr hlk
    · rw [ho x hxs] at hlk ⊢
      exact h.complete x (hs ▸ hx) hlk

theorem lookupName_none {L : State} {bname : Name} (h : lookupName L bname = none) :
    bname ∉ names L := by
  intro hm
  obtain ⟨x, hx, hn⟩ := List.mem_map.mp hm
  have := List.find?_eq_none.mp h x hx
  simp [hn] at this

theorem tidy_load {w : World} {L L' : State} {lib : Name} {i : Slot} (h : Tidy L)
    (hname : lookupName L (basename lib) = none) (ha : Appended w L L' lib i) : Tidy L' := by
  have hs := ha.solist
  have hlib := ha.old (libdl_mem_solist L)
  refine ⟨?_, hlib ▸ h.live, hlib ▸ h.null, fun x hx hlk => ?_⟩
  · have hnames : names L' = names L ++ [basename lib] := by
      unfold names
      rw [hs, List.map_append, List.map_singleton, ha.name]
      congr 1
      exact List.map_congr_left fun x hx => by rw [ha.old hx]
    rw [hnames, ← List.concat_eq_append, List.nodup_concat]
    exact ⟨lookupName_none hname, h.nodup⟩
  · rw [hs] at hx
    rcases List.mem_append.mp hx with hx | hx
    · rw [ha.old hx] at hlk ⊢
      exact h.complete x hx hlk
    · obtain rfl := List.mem_singleton.mp hx
      rw [ha.flags] at hlk
      cases hlk

theorem Fresh.ne_libdl {L : State} {old : List So} {si : So} (h : Fresh L old si)
    (ho : .libdl ∈ old) : si ≠ .libdl := fun e => h.new (e ▸ ho)

theorem tidy_attempt {w : World} {L L' : State} (h : Tidy L) (ha : Attempted w L L') :
    Tidy L' := by
  have hs := ha.solist
  have hlib := ha.info .libdl (libdl_mem_solist L)
  refine ⟨?_, hlib ▸ h.live, hlib ▸ h.null, fun x hx hlk => ?_⟩
  · have : names L' = names L := by
      unfold names
      rw [hs]
      exact List.map_congr_left fun x hx => by rw [ha.info x hx]
    rw [this]
    exact h.nodup
  · rw [hs] at hx
    rw [ha.info x hx] at hlk ⊢
    exact h.complete x hx hlk

theorem tidy_refcount {L : State} (h : Tidy L) (x : So) (n : ℕ) :
    Tidy (L.modify x fun s => { s with refcount := n }) := by
  have hi : ∀ y, ∃ m, (L.modify x fun s => { s with refcount := n }).info y =
      { L.info y with refcount := m } := by
    intro y
    by_cases hy : y = x
    · subst hy
      exact ⟨n, modify_same L y _⟩
    · exact ⟨_, modify_other L _ hy⟩
  refine ⟨?_, ?_, ?_, fun y hy hlk => ?_⟩
  · have : names (L.modify x fun s => { s with refcount := n }) = names L := by
      unfold names
      rw [modify_solist]
      refine List.map_congr_left fun y _ => ?_
      obtain ⟨m, hm⟩ := hi y
      rw [hm]
    rw [this]
    exact h.nodup
  · obtain ⟨m, hm⟩ := hi .libdl
    rw [hm]
    exact h.live
  · obtain ⟨m, hm⟩ := hi .libdl
    rw [hm]
    exact h.null
  · obtain ⟨m, hm⟩ := hi y
    rw [hm] at hlk ⊢
    exact Complete.congr (s := L.info y) rfl rfl rfl (h.complete y hy hlk)

theorem finishLink_complete {w : World} {L : State} {si : So}
    (hu : (L.info si).flags.linked = false) (hr : Resolved (L.info si))
    (hlk : ((finishLink w L si).1.info si).flags.linked = true) :
    Complete ((finishLink w L si).1.info si) := by
  obtain ⟨ts, flags, l_addr, l_name, hown, hts, -⟩ := finishLink_own w L si
  rw [hown] at hlk ⊢
  exact ⟨hr, fun t ht => List.mem_append_right _ (hts hlk hu ▸ ht)⟩

theorem finishLink_name (w : World) (L : State) (si : So) :
    ((finishLink w L si).1.info si).name = (L.info si).name := by
  obtain ⟨ts, flags, l_addr, l_name, hown, -⟩ := finishLink_own w L si
  rw [hown]

theorem LinkStep.tidy {w : World} {old : List So} {L L' : State} (ho : .libdl ∈ old)
    (h : Tidy L) (hs : LinkStep w old L L') : Tidy L' := by
  cases hs with
  | attempt ha => exact tidy_attempt h (loadLibrary_none ha)
  | load hn ha => exact tidy_load h hn (loadLibrary_some ha)
  | extract hf hx =>
    have hsame := extract_same hx
    refine h.change (Fresh.ne_libdl hf ho) rfl (fun x hx => set_other _ _ hx) ?_ fun hlk => ?_
    · rw [set_same, hsame.name]
    · rw [set_same, hsame.linked, hf.unlinked] at hlk
      cases hlk
  | need hf he hm hne ht =>
    rename_i si lsi i v
    have hpay : Tidy (L.modify si fun s =>
        s.setEntries (s.entries.set i ⟨.needed, .so lsi⟩)) := by
      refine h.change (Fresh.ne_libdl hf ho) rfl (fun x hx => modify_other _ _ hx) ?_ fun hlk => ?_
      · rw [modify_same]
        rfl
      · rw [modify_same] at hlk
        exact absurd (hf.unlinked.symm.trans hlk) (by decide)
    exact tidy_refcount hpay lsi _
  | finish hf hd hr =>
    refine h.change (Fresh.ne_libdl hf ho) (finishLink_pool w L _)
      (fun x hx => finishLink_other w L hx) (finishLink_name w L _) fun hlk => ?_
    exact finishLink_complete hf.unlinked hr hlk
  | fail hf =>
    refine h.change (Fresh.ne_libdl hf ho) rfl (fun x hx => markError_other _ hx) ?_ fun hlk => ?_
    · rw [markError, modify_same]
    · rw [markError, modify_same] at hlk
      exact absurd (hf.unlinked.symm.trans hlk) (by decide)
  | unmap hm hn he => exact ⟨h.nodup, h.live, h.null, h.complete⟩

theorem LinkRun.tidy {w : World} {old : List So} {L L' : State} (ho : .libdl ∈ old)
    (h : Tidy L) (hs : LinkRun w old L L') : Tidy L' := by
  induction hs with
  | refl => exact h
  | tail _ hs ih => exact LinkStep.tidy ho ih hs

theorem tidy_search {w : World} {fuel : ℕ} {L L' : State} {lib : Name} {r : Option So}
    {host : Option ℕ} (h : Tidy L) (hf : findLibrary w fuel L lib = some (L', r, host)) :
    Tidy L' :=
  LinkRun.tidy (libdl_mem_solist L) h (findLibrary_found w fuel L lib L' r host h.live hf).run

theorem tidy_constructed {L L' : State} (h : Tidy L) (hc : Constructed L L') : Tidy L' := by
  have hi := hc.info
  refine ⟨?_, by rw [hi]; exact h.live, by rw [hi]; exact h.null, fun x hx hlk => ?_⟩
  · have : names L' = names L := by
      unfold names
      rw [hc.solist]
      exact List.map_congr_left fun x _ => by rw [hi]
    rw [this]
    exact h.nodup
  · rw [hc.solist] at hx
    rw [hi] at hlk ⊢
    exact Complete.congr (s := L.info x) rfl rfl rfl (h.complete x hx hlk)

theorem tidy_fades {L L' : State} (h : Tidy L) (hc : Fades L L') : Tidy L' := by
  have hnull : (L'.info .libdl).dynamic = .null := (hc.info .libdl).null h.null
  refine ⟨?_, ?_, hnull, fun x hx hlk => ?_⟩
  · have : names L' = L'.solist.map fun x => (L.info x).name :=
      List.map_congr_left fun x _ => (hc.info x).name
    rw [this]
    exact h.nodup.sublist (hc.solist.map _)
  · have := h.live
    unfold Soinfo.Live at *
    rwa [(hc.info .libdl).flags]
  · rw [(hc.info x).flags] at hlk
    by_cases hl : x = .libdl
    · subst hl
      have hlib := h.complete .libdl (libdl_mem_solist L) hlk
      exact hlib.faded (hc.info .libdl) (hnull.trans h.null.symm)
    · exact (h.complete x (hc.solist.subset hx) hlk).faded (hc.info x) (hc.dynamic x hx hl)

theorem tidy_initial : Tidy initial where
  nodup := by simp [names, State.solist, initial, Slots.empty]
  live := ⟨rfl, rfl⟩
  null := rfl
  complete x hx _ := by
    simp only [State.solist, initial, Slots.empty, List.map_nil, List.mem_singleton] at hx
    subst hx
    exact ⟨fun d hd => absurd hd List.not_mem_nil, fun t ht => absurd ht List.not_mem_nil⟩

theorem tidy_step {s s' : Sys} {a : Act} (h : Tidy s.linker) (hs : Step s a s') :
    Tidy s'.linker := by
  cases hs with
  | dlopen ho =>
    rename_i w fuel filename L r
    rcases dlopen_cases ho with ⟨rfl, -⟩ | ⟨name, host, hf, -⟩ |
      ⟨name, M, N, si, host, hf, hN, rfl, -⟩
    · exact h
    · exact tidy_search h hf
    · exact tidy_refcount (tidy_constructed (tidy_search h hf)
        (callConstructors_constructed fuel hN)) si _
  | dlclose hc => exact tidy_fades h (dlclose_fades hc)

theorem reachable_tidy {C : Sys → Act → Sys → Prop} {s : Sys} (h : Reachable C s) :
    Tidy s.linker :=
  h.invariant (P := fun s => Tidy s.linker) tidy_initial fun _ _ _ hp _ hs => tidy_step hp hs

end Bionic.LinkFlags
