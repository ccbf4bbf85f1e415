import BionicTranslation.LinkFrame

/-!
# A search as a sequence of small steps

Finding a library calls itself through DT_NEEDED. Every such run is a sequence
of steps of seven kinds, and every step changes only libraries that were not on
the list when the search began, apart from reference counts that it raises.
Invariants are proved for one step and hold for the search.
-/

set_option autoImplicit false

namespace Bionic.LinkSteps
open Bionic.Slots Bionic.Records Bionic.Linker Bionic.FoldRules Bionic.LinkFrame

/-- A record that was only referred to: the count may have been raised, and it
has not if the library was no link target. -/
structure Kept (s t : Soinfo) : Prop where
  rest : t = { s with refcount := t.refcount }
  grows : s.refcount ≤ t.refcount
  idle : ¬ s.Live → t.refcount = s.refcount

theorem Kept.refl (s : Soinfo) : Kept s s := ⟨rfl, le_refl _, fun _ => rfl⟩

theorem Kept.flags {s t : Soinfo} (h : Kept s t) : t.flags = s.flags := by rw [h.rest]

theorem Kept.dynamic {s t : Soinfo} (h : Kept s t) : t.dynamic = s.dynamic := by rw [h.rest]

theorem Kept.name {s t : Soinfo} (h : Kept s t) : t.name = s.name := by rw [h.rest]

theorem Kept.live {s t : Soinfo} (h : Kept s t) : t.Live ↔ s.Live := by
  unfold Soinfo.Live
  rw [h.flags]

theorem Kept.eq_of_idle {s t : Soinfo} (h : Kept s t) (hl : ¬ s.Live) : t = s := by
  rw [h.rest, h.idle hl]

theorem Kept.trans {s t u : Soinfo} (h : Kept s t) (k : Kept t u) : Kept s u where
  rest := by
    rw [k.rest, h.rest]
  grows := h.grows.trans k.grows
  idle hl := by rw [k.idle (fun ht => hl (h.live.mp ht)), h.idle hl]

def attach (L : State) (si : So) (i : ℕ) (lsi : So) : State :=
  addRef (L.modify si fun s => s.setEntries (s.entries.set i ⟨.needed, .so lsi⟩)) lsi

theorem addRef_info (L : State) (si x : So) : (addRef L si).info x =
    if x = si then { L.info si with refcount := (L.info si).refcount + 1 } else L.info x := by
  unfold addRef
  split_ifs with h
  · rw [h, modify_same]
  · exact modify_other _ _ h

theorem attach_info (L : State) {si lsi : So} (i : ℕ) (h : lsi ≠ si) (x : So) :
    (attach L si i lsi).info x =
      if x = lsi then { L.info lsi with refcount := (L.info lsi).refcount + 1 }
      else if x = si then (L.info si).setEntries ((L.info si).entries.set i ⟨.needed, .so lsi⟩)
      else L.info x := by
  rw [attach, addRef_info]
  split_ifs with h1 h2
  · rw [modify_other _ _ h]
  · rw [h2, modify_same]
  · rw [modify_other _ _ h2]

theorem attach_rest (L : State) (si : So) (i : ℕ) (lsi x : So) : ∃ dynamic refcount,
    (attach L si i lsi).info x = { L.info x with dynamic, refcount } := by
  have hmod : ∃ dynamic, (L.modify si fun s =>
      s.setEntries (s.entries.set i ⟨.needed, .so lsi⟩)).info x = { L.info x with dynamic } := by
    by_cases hx : x = si
    · subst hx
      exact ⟨_, modify_same L x _⟩
    · exact ⟨_, modify_other L _ hx⟩
  obtain ⟨dynamic, hdyn⟩ := hmod
  rw [attach, addRef_info]
  split_ifs with hx
  · subst hx
    exact ⟨dynamic, _, by rw [hdyn]⟩
  · exact ⟨dynamic, _, hdyn⟩

def HasDynamic (s : Soinfo) : Prop := ∃ ds, s.dynamic = .found ds

def Resolved (s : Soinfo) : Prop :=
  ∀ d ∈ s.entries, d.d_tag = .needed → ∃ y, d.d_un = .so y

/-- A library a search may hand out as a payload: a link target, or one that the
search itself has loaded. -/
def Target (L : State) (old : List So) (x : So) : Prop :=
  (L.info x).Live ∨ (x ∉ old ∧ HasDynamic (L.info x))

structure Fresh (L : State) (old : List So) (si : So) : Prop where
  mem : si ∈ L.solist
  new : si ∉ old
  unlinked : (L.info si).flags.linked = false
  clean : (L.info si).flags.error = false

inductive LinkStep (w : World) (old : List So) : State → State → Prop where
  | attempt {L L' : State} {lib : Name} {host : Option ℕ}
      (h : loadLibrary w L lib = (L', none, host)) : LinkStep w old L L'
  | load {L L' : State} {lib : Name} {host : Option ℕ} {i : Slot}
      (hname : lookupName L (basename lib) = none)
      (h : loadLibrary w L lib = (L', some i, host)) : LinkStep w old L L'
  | extract {L : State} {si : So} {s : Soinfo} {r : ℕ} (hf : Fresh L old si)
      (h : extract r (L.info si) = .ok s ∨ extract r (L.info si) = .error s) :
      LinkStep w old L (L.set si s)
  | need {L : State} {si lsi : So} {i v : ℕ} (hf : Fresh L old si)
      (he : (L.info si).entries[i]? = some ⟨.needed, .val v⟩) (hm : lsi ∈ L.solist)
      (hne : lsi ≠ si) (ht : Target L old lsi) : LinkStep w old L (attach L si i lsi)
  | finish {L : State} {si : So} (hf : Fresh L old si) (hd : HasDynamic (L.info si))
      (hr : Resolved (L.info si)) :
      LinkStep w old L (finishLink w L si).1
  | fail {L : State} {si : So} (hf : Fresh L old si) : LinkStep w old L (markError L si)
  | unmap {L : State} {i : Slot} (hm : .pool i ∈ L.solist) (hn : .pool i ∉ old)
      (he : (L.info (.pool i)).flags.error = true) :
      LinkStep w old L ((L.munmap (L.info (.pool i)).base (L.info (.pool i)).size).log
        [.linkFailed i])

abbrev LinkRun (w : World) (old : List So) : State → State → Prop :=
  Relation.ReflTransGen (LinkStep w old)

theorem Fresh.mono {L : State} {old new : List So} {si : So} (h : ∀ x ∈ old, x ∈ new)
    (hf : Fresh L new si) : Fresh L old si :=
  ⟨hf.mem, fun hx => hf.new (h si hx), hf.unlinked, hf.clean⟩

theorem LinkStep.mono {w : World} {old new : List So} (h : ∀ x ∈ old, x ∈ new) {L L' : State}
    (hs : LinkStep w new L L') : LinkStep w old L L' := by
  cases hs with
  | attempt h1 => exact .attempt h1
  | load h1 h2 => exact .load h1 h2
  | extract hf h1 => exact .extract (hf.mono h) h1
  | need hf he hm hne ht =>
    exact .need (hf.mono h) he hm hne (ht.imp id fun hn => ⟨fun hx => hn.1 (h _ hx), hn.2⟩)
  | finish hf hd hr => exact .finish (hf.mono h) hd hr
  | fail hf => exact .fail (hf.mono h)
  | unmap hm hn he => exact .unmap hm (fun hx => hn (h _ hx)) he

theorem LinkRun.mono {w : World} {old new : List So} (h : ∀ x ∈ old, x ∈ new) {L L' : State}
    (hs : LinkRun w new L L') : LinkRun w old L L' := by
  induction hs with
  | refl => exact .refl
  | tail _ hs ih => exact ih.tail (hs.mono h)

theorem applyTables_cases (w : World) (si : So) (tables : List RelocTable) (L : State) :
    ∃ ts, (applyTables w si tables L).1 =
        L.modify si (fun s => { s with applied := s.applied ++ ts }) ∧
      ((applyTables w si tables L).2 = true → ts = tables) := by
  induction tables generalizing L with
  | nil =>
    refine ⟨[], ?_, fun _ => rfl⟩
    simp only [List.append_nil]
    exact (set_self L si).symm
  | cons t tables ih =>
    unfold applyTables
    split_ifs
    · obtain ⟨ts, h1, h2⟩ := ih (L.modify si fun s => { s with applied := s.applied ++ [t] })
      refine ⟨t :: ts, ?_, fun hok => by rw [h2 hok]⟩
      rw [h1, State.modify, modify_same, State.modify, State.modify]
      simp only [State.set, List.append_assoc, List.singleton_append, State.mk.injEq, true_and,
        and_true]
      funext x
      split_ifs <;> rfl
    · refine ⟨[], ?_, fun h => h.elim⟩
      simp only [List.append_nil]
      exact (set_self L si).symm

/-- What the end of linking does to the library: its flags are changed after
some relocation tables, all of them if it is marked as linked. -/
theorem finishLink_cases (w : World) (L : State) (si : So) : ∃ ts M,
    M = L.modify si (fun s => { s with applied := s.applied ++ ts }) ∧
    (finishLink w L si = (markError M si, false) ∨ (ts = (L.info si).relocTables ∧
      (finishLink w L si = (markError (markLinked M si) si, false) ∨
        finishLink w L si = (fillLinkmap (markLinked M si) si, true)))) := by
  obtain ⟨ts, h1, h2⟩ := applyTables_cases w si (L.info si).relocTables L
  refine ⟨ts, _, rfl, ?_⟩
  unfold finishLink
  cases h : applyTables w si (L.info si).relocTables L with
  | mk M ok =>
    rw [h] at h1 h2
    simp only at h1 h2
    subst h1
    cases ok with
    | false => exact Or.inl rfl
    | true =>
      refine Or.inr ⟨h2 rfl, ?_⟩
      simp only
      split_ifs <;> simp

/-- The list only grows at its end, and what was on it is kept. -/
structure Grown (old : List So) (L L' : State) : Prop where
  loaded : ∃ new, L'.pool.loaded = L.pool.loaded ++ new
  kept : ∀ x ∈ old, x ∈ L.solist → Kept (L.info x) (L'.info x)

theorem Grown.mem {old : List So} {L L' : State} (h : Grown old L L') {x : So}
    (hx : x ∈ L.solist) : x ∈ L'.solist := by
  obtain ⟨new, hn⟩ := h.loaded
  rcases mem_solist.mp hx with rfl | ⟨i, hi, rfl⟩
  · exact libdl_mem_solist L'
  · rw [pool_mem_solist, hn]
    exact List.mem_append_left _ hi

theorem Grown.trans {old : List So} {L L' L'' : State} (h : Grown old L L')
    (k : Grown old L' L'') : Grown old L L'' where
  loaded := by
    obtain ⟨n, hn⟩ := h.loaded
    obtain ⟨m, hm⟩ := k.loaded
    exact ⟨n ++ m, by rw [hm, hn, List.append_assoc]⟩
  kept x hx hl := (h.kept x hx hl).trans (k.kept x hx (h.mem hl))

theorem grown_of_new {old : List So} {L L' : State} {si : So} (hp : L'.pool = L.pool)
    (hn : si ∉ old) (h : ∀ x, x ≠ si → L'.info x = L.info x) : Grown old L L' where
  loaded := ⟨[], by rw [hp, List.append_nil]⟩
  kept x hx _ := by
    rw [h x fun e => hn (e ▸ hx)]
    exact Kept.refl _

theorem markError_other (L : State) {si x : So} (h : x ≠ si) :
    (markError L si).info x = L.info x := modify_other L _ h

theorem markLinked_other (L : State) {si x : So} (h : x ≠ si) :
    (markLinked L si).info x = L.info x := modify_other L _ h

theorem fillLinkmap_other (L : State) {si x : So} (h : x ≠ si) :
    (fillLinkmap L si).info x = L.info x := modify_other L _ h

theorem finishLink_other (w : World) (L : State) {si x : So} (h : x ≠ si) :
    (finishLink w L si).1.info x = L.info x := by
  obtain ⟨ts, M, rfl, e | ⟨-, e | e⟩⟩ := finishLink_cases w L si <;> rw [e] <;> simp only
  · rw [markError_other _ h, modify_other _ _ h]
  · rw [markError_other _ h, markLinked_other _ h, modify_other _ _ h]
  · rw [fillLinkmap_other _ h, markLinked_other _ h, modify_other _ _ h]

theorem finishLink_pool (w : World) (L : State) (si : So) :
    (finishLink w L si).1.pool = L.pool := by
  obtain ⟨ts, M, rfl, e | ⟨-, e | e⟩⟩ := finishLink_cases w L si <;> rw [e] <;> rfl

theorem LinkStep.grown {w : World} {old : List So} {L L' : State} (h : LinkStep w old L L') :
    Grown old L L' := by
  cases h with
  | attempt h =>
    have ha := loadLibrary_none h
    refine ⟨⟨[], by rw [ha.loaded, List.append_nil]⟩, fun x _ hx => ?_⟩
    rw [ha.info x hx]
    exact Kept.refl _
  | load _ h =>
    have ha := loadLibrary_some h
    refine ⟨⟨_, ha.loaded⟩, fun x _ hx => ?_⟩
    rw [ha.old hx]
    exact Kept.refl _
  | extract hf h => exact grown_of_new rfl hf.new fun x hx => set_other _ _ hx
  | need hf he hm hne ht =>
    rename_i si lsi i v
    refine ⟨⟨[], (List.append_nil _).symm⟩, fun x hx _ => ?_⟩
    rw [attach_info L i hne]
    split_ifs with h1 h2
    · subst h1
      refine ⟨rfl, Nat.le_succ _, fun hl => ?_⟩
      rcases ht with ht | ht
      · exact absurd ht hl
      · exact absurd hx ht.1
    · exact absurd (h2 ▸ hx) hf.new
    · exact Kept.refl _
  | finish hf hd hr =>
    exact grown_of_new (finishLink_pool w L _) hf.new fun x hx => finishLink_other w L hx
  | fail hf => exact grown_of_new rfl hf.new fun x hx => markError_other _ hx
  | unmap hm hn he => exact grown_of_new rfl hn fun _ _ => rfl

theorem LinkRun.grown {w : World} {old : List So} {L L' : State} (h : LinkRun w old L L') :
    Grown old L L' := by
  induction h with
  | refl => exact ⟨⟨[], (List.append_nil _).symm⟩, fun x _ _ => Kept.refl _⟩
  | tail _ hs ih => exact ih.trans hs.grown

theorem Fresh.not_live {L : State} {old : List So} {si : So} (h : Fresh L old si) :
    ¬ (L.info si).Live := fun hl => by
  have := h.unlinked
  rw [hl.1] at this
  cases this

theorem LinkRun.keeps_fresh {w : World} {L L' : State} {old : List So} {si : So}
    (h : LinkRun w L.solist L L') (hf : Fresh L old si) :
    Fresh L' old si ∧ L'.info si = L.info si := by
  have hg := h.grown
  have he := (hg.kept si hf.mem hf.mem).eq_of_idle hf.not_live
  exact ⟨⟨hg.mem hf.mem, hf.new, he ▸ hf.unlinked, he ▸ hf.clean⟩, he⟩

structure Found (w : World) (L L' : State) (r : Option So) : Prop where
  run : LinkRun w L.solist L L'
  mem : ∀ x, r = some x → x ∈ L'.solist
  live : ∀ x, r = some x → x ∈ L.solist → (L.info x).Live
  dynamic : ∀ x, r = some x → x ∉ L.solist → HasDynamic (L'.info x)

def FindSpec (w : World) (find : Find) : Prop :=
  ∀ L lib L' r host, (L.info .libdl).Live → find L lib = some (L', r, host) → Found w L L' r

/-- The DT_NEEDED loop of `si` so far: the record still is `s` except for the
payloads stored. -/
structure Linking (w : World) (old : List So) (L M : State) (si : So) (s : Soinfo) : Prop where
  run : LinkRun w old L M
  fresh : Fresh M old si
  record : ∃ ds, M.info si = s.setEntries ds ∧ ds.map Dyn.d_tag = s.entries.map Dyn.d_tag

structure Base (old : List So) (L : State) : Prop where
  sub : ∀ x ∈ old, x ∈ L.solist
  libdl : .libdl ∈ old
  live : (L.info .libdl).Live

theorem Base.later {w : World} {old : List So} {L M : State} (hb : Base old L)
    (h : LinkRun w old L M) : Base old M :=
  ⟨fun x hx => h.grown.mem (hb.sub x hx), hb.libdl,
    (h.grown.kept .libdl hb.libdl (libdl_mem_solist L)).live.mpr hb.live⟩

theorem Found.target {w : World} {M M1 : State} {r : Option So} {old : List So}
    (hs : Found w M M1 r) (hb : Base old M) (hb1 : Base old M1) {si : So}
    (hf : Fresh M old si) : r.getD .libdl ∈ M1.solist ∧ r.getD .libdl ≠ si ∧
      Target M1 old (r.getD .libdl) := by
  cases r with
  | none =>
    refine ⟨libdl_mem_solist M1, fun h => hf.new (h ▸ hb.libdl), Or.inl hb1.live⟩
  | some x =>
    refine ⟨hs.mem x rfl, ?_, ?_⟩
    · rintro rfl
      exact hf.not_live (hs.live _ rfl hf.mem)
    · by_cases hx : x ∈ M.solist
      · exact Or.inl ((hs.run.grown.kept x hx hx).live.mpr (hs.live x rfl hx))
      · exact Or.inr ⟨fun ho => hx (hb.sub x ho), hs.dynamic x rfl hx⟩

theorem linkNeeded_needed {find : Find} {M N : State} {si : So} {i v : ℕ}
    (he : (M.info si).entries[i]? = some ⟨.needed, .val v⟩)
    (h : linkNeeded find si M i = some N) : ∃ M1 r host,
      find M ((M.info si).image.str ((M.info si).offset ((M.info si).strtab + v))) =
        some (M1, r, host) ∧ N = attach M1 si i (r.getD .libdl) := by
  unfold linkNeeded at h
  simp only [he] at h
  obtain ⟨⟨M1, r, host⟩, hr, hN⟩ := Option.bind_eq_some_iff.mp h
  exact ⟨M1, r, host, hr, (Option.some.inj hN).symm⟩

theorem linkNeeded_other {find : Find} {M : State} {si : So} {i : ℕ}
    (he : ∀ v, (M.info si).entries[i]? ≠ some ⟨.needed, .val v⟩) :
    linkNeeded find si M i = some M := by
  unfold linkNeeded
  simp only

theorem linkNeeded_entries {w : World} {find : Find} (hfind : FindSpec w find) {old : List So}
    {L M N : State} {si : So} {s : Soinfo} {i : ℕ} (hb : Base old L)
    (hM : Linking w old L M si s) (h : linkNeeded find si M i = some N) :
    (∃ y, i < (M.info si).entries.length ∧
      (N.info si).entries = (M.info si).entries.set i ⟨.needed, .so y⟩) ∨
    (N = M ∧ ∀ v, (M.info si).entries[i]? ≠ some ⟨.needed, .val v⟩) := by
  by_cases he : ∃ v, (M.info si).entries[i]? = some ⟨.needed, .val v⟩
  · obtain ⟨v, he⟩ := he
    obtain ⟨M1, r, host, hr, rfl⟩ := linkNeeded_needed he h
    have hbM := hb.later hM.run
    have hs := hfind _ _ _ _ _ hbM.live hr
    have heq := (hs.run.keeps_fresh hM.fresh).2
    obtain ⟨-, hne, -⟩ := hs.target hbM (hbM.later (hs.run.mono hbM.sub)) hM.fresh
    refine Or.inl ⟨r.getD .libdl, (List.getElem?_eq_some_iff.mp he).1, ?_⟩
    rw [attach_info M1 i hne, if_neg hne.symm, if_pos rfl, heq]
    rfl
  · have hn : ∀ v, (M.info si).entries[i]? ≠ some ⟨.needed, .val v⟩ := fun v hv => he ⟨v, hv⟩
    rw [linkNeeded_other hn] at h
    exact Or.inr ⟨(Option.some.inj h).symm, hn⟩

theorem linkNeeded_step {w : World} {find : Find} (hfind : FindSpec w find) {old : List So}
    {L M N : State} {si : So} {s : Soinfo} {i : ℕ} (hb : Base old L)
    (hM : Linking w old L M si s) (h : linkNeeded find si M i = some N) :
    Linking w old L N si s := by
  by_cases he : ∃ v, (M.info si).entries[i]? = some ⟨.needed, .val v⟩
  · obtain ⟨v, he⟩ := he
    obtain ⟨M1, r, host, hr, rfl⟩ := linkNeeded_needed he h
    have hbM := hb.later hM.run
    have hs := hfind _ _ _ _ _ hbM.live hr
    obtain ⟨hf1, heq⟩ := hs.run.keeps_fresh hM.fresh
    have hrun1 : LinkRun w old M M1 := hs.run.mono hbM.sub
    obtain ⟨hmem, hne, ht⟩ := hs.target hbM (hbM.later hrun1) hM.fresh
    rw [← heq] at he
    have hstep := LinkStep.need (w := w) hf1 he hmem hne ht
    have hinfo : (attach M1 si i (r.getD .libdl)).info si =
        (M1.info si).setEntries ((M1.info si).entries.set i ⟨.needed, .so (r.getD .libdl)⟩) := by
      rw [attach_info M1 i hne, if_neg hne.symm, if_pos rfl]
    refine ⟨(hM.run.trans hrun1).tail hstep, ⟨hf1.mem, hf1.new, ?_, ?_⟩, ?_⟩
    · rw [hinfo]
      exact hf1.unlinked
    · rw [hinfo]
      exact hf1.clean
    · obtain ⟨ds, hds, htags⟩ := hM.record
      rw [hinfo, heq, hds]
      rw [heq, hds, setEntries_entries] at he
      have hset := tags_set (e := ⟨.needed, .so (r.getD .libdl)⟩) he rfl
      exact ⟨_, rfl, hset.trans htags⟩
  · rw [linkNeeded_other fun v hv => he ⟨v, hv⟩] at h
    cases h
    exact hM

theorem Linking.length {w : World} {old : List So} {L M : State} {si : So} {s : Soinfo}
    (h : Linking w old L M si s) : (M.info si).entries.length = s.entries.length := by
  obtain ⟨ds, hds, htags⟩ := h.record
  rw [hds, setEntries_entries]
  simpa using congrArg List.length htags

/-- After the loop every DT_NEEDED entry has its payload: the step at an index
stores it, and no other step takes it away. -/
theorem loop_resolved {w : World} {find : Find} (hfind : FindSpec w find) {old : List So}
    {L M M' : State} {si : So} {s : Soinfo} {n : ℕ} (hb : Base old L)
    (hM : Linking w old L M si s) (hn : s.entries.length ≤ n)
    (h : (List.range n).foldlM (linkNeeded find si) M = some M') : Resolved (M'.info si) := by
  have hM' := option_invariant (P := fun M => Linking w old L M si s)
    (fun M i N _ hM hN => linkNeeded_step hfind hb hM hN) hM h
  intro d hd htag
  obtain ⟨i, hi, hid⟩ := List.mem_iff_getElem.mp hd
  rw [hM'.length] at hi
  refine option_reaches (P := fun M => Linking w old L M si s)
    (Q := fun N => ∀ e, (N.info si).entries[i]? = some e → e.d_tag = .needed → ∃ y, e.d_un = .so y)
    (fun M i N _ hM hN => linkNeeded_step hfind hb hM hN) hM (List.mem_range.mpr (hi.trans_le hn))
    (fun M N hM hN e he ht => ?_) (fun M j N _ hM hQ hN e he ht => ?_) h d ?_ htag
  · rcases linkNeeded_entries hfind hb hM hN with ⟨y, hlt, hs⟩ | ⟨rfl, hno⟩
    · rw [hs, List.getElem?_set_self hlt] at he
      cases he
      exact ⟨y, rfl⟩
    · obtain ⟨tag, un⟩ := e
      cases un with
      | so y => exact ⟨y, rfl⟩
      | val v =>
        cases ht
        exact absurd he (hno v)
  · rcases linkNeeded_entries hfind hb hM hN with ⟨y, hlt, hs⟩ | ⟨rfl, -⟩
    · rw [hs] at he
      by_cases hij : j = i
      · subst hij
        rw [List.getElem?_set_self hlt] at he
        cases he
        exact ⟨y, rfl⟩
      · rw [List.getElem?_set_ne hij] at he
        exact hQ e he ht
    · exact hQ e he ht
  · rw [← hid]
    exact List.getElem?_eq_getElem _

/-- Linking one library: a run of steps, after which the library has FLAG_ERROR if
0 was not returned. If it was, the library is linked, or extraction has stopped
early and nothing else was done. -/
structure Linked (w : World) (old : List So) (L L' : State) (si : So) (ok : Bool) : Prop where
  run : LinkRun w old L L'
  mem : si ∈ L'.solist
  dynamic : ok = true → HasDynamic (L'.info si)
  error : ok = false → (L'.info si).flags.error = true
  stopped : ok = true → ∀ s, extract w.r_debug (L.info si) = .error s → L' = L.set si s
  live : ok = true → (∀ s, extract w.r_debug (L.info si) ≠ .error s) → (L'.info si).Live

theorem markError_error (L : State) (si : So) : ((markError L si).info si).flags.error = true := by
  unfold markError
  rw [modify_same]

theorem finishLink_own (w : World) (L : State) (si : So) : ∃ ts flags l_addr l_name,
    (finishLink w L si).1.info si =
      { L.info si with applied := (L.info si).applied ++ ts, flags, l_addr, l_name } ∧
    (flags.linked = true → (L.info si).flags.linked = false → ts = (L.info si).relocTables) ∧
    flags.error = ((L.info si).flags.error || !(finishLink w L si).2) ∧
    ((finishLink w L si).2 = true → flags.linked = true) := by
  obtain ⟨ts, M, rfl, e | ⟨hts, e | e⟩⟩ := finishLink_cases w L si <;> rw [e]
  · refine ⟨ts, { (L.info si).flags with error := true }, (L.info si).l_addr, (L.info si).l_name,
      by simp [markError], fun h h' => ?_, by simp, fun h => (nomatch h)⟩
    exact absurd (h'.symm.trans h) (by decide)
  · exact ⟨ts, { (L.info si).flags with linked := true, error := true }, (L.info si).l_addr,
      (L.info si).l_name, by simp [markError, markLinked], fun _ _ => hts, by simp,
      fun h => (nomatch h)⟩
  · exact ⟨ts, { (L.info si).flags with linked := true }, (L.info si).base, (L.info si).fullpath,
      by simp [fillLinkmap, markLinked], fun _ _ => hts, by simp, fun _ => rfl⟩

theorem linking_start {w : World} {old : List So} {L : State} {si : So} {s : Soinfo} {ds : List Dyn}
    (hf : Fresh L old si) (hd : (L.info si).dynamic = .found ds)
    (hx : extract w.r_debug (L.info si) = .ok s) : Linking w old L (L.set si s) si s := by
  have hsame := extract_same (Or.inl hx)
  obtain ⟨ds', hds'⟩ := hsame.found ds hd
  refine ⟨.single (.extract hf (Or.inl hx)), ⟨hf.mem, hf.new, ?_, ?_⟩, ⟨s.entries, ?_, rfl⟩⟩
  · rw [set_same, hsame.linked]
    exact hf.unlinked
  · rw [set_same, hsame.error]
    exact hf.clean
  · rw [set_same, entries_of_found hds', Soinfo.setEntries, ← hds']

theorem linking_end {w : World} {find : Find} (hfind : FindSpec w find) {old : List So}
    {L M : State} {si : So} {s : Soinfo} {ds : List Dyn} (hb : Base old L) (hf : Fresh L old si)
    (hd : (L.info si).dynamic = .found ds) (hx : extract w.r_debug (L.info si) = .ok s)
    (h : (List.range ds.length).foldlM (linkNeeded find si) (L.set si s) = some M) :
    Linking w old L M si s ∧ HasDynamic (M.info si) ∧ Resolved (M.info si) := by
  have hstart := linking_start hf hd hx
  have hlink := option_invariant (P := fun M => Linking w old L M si s)
    (fun M i N _ hM hN => linkNeeded_step hfind hb hM hN) hstart h
  have hlen : s.entries.length ≤ ds.length := by
    have := congrArg List.length (extract_same (Or.inl hx)).tags
    rw [List.length_map, List.length_map, entries_of_found hd] at this
    exact this.le
  obtain ⟨ds', hrec, -⟩ := hlink.record
  exact ⟨hlink, ⟨ds', by rw [hrec]; rfl⟩, loop_resolved hfind hb hstart hlen h⟩

/-- The ways linking can end: without a dynamic section, at an entry that stops the
extraction, without the tables, or after the loop over the DT_NEEDED entries. -/
theorem linkImage_cases {find : Find} {w : World} {L L' : State} {si : So} {ok : Bool}
    (h : linkImage find w L si = some (L', ok)) :
    (L' = markError L si ∧ ok = false) ∨
    ∃ ds, (L.info si).dynamic = .found ds ∧
      ((∃ s, extract w.r_debug (L.info si) = .error s ∧ L' = L.set si s ∧ ok = true) ∨
      ∃ s, extract w.r_debug (L.info si) = .ok s ∧
        (((s.strtab = 0 ∨ s.symtab = 0) ∧ L' = markError (L.set si s) si ∧ ok = false) ∨
        (¬ (s.strtab = 0 ∨ s.symtab = 0) ∧ ∃ M, finishLink w M si = (L', ok) ∧
          (List.range ds.length).foldlM (linkNeeded find si) (L.set si s) = some M))) := by
  unfold linkImage at h
  cases hd : (L.info si).dynamic with
  | null =>
    simp only [hd] at h
    cases h
    exact Or.inl ⟨rfl, rfl⟩
  | missing =>
    simp only [hd] at h
    cases h
    exact Or.inl ⟨rfl, rfl⟩
  | found ds =>
    simp only [hd] at h
    refine Or.inr ⟨ds, rfl, ?_⟩
    cases hx : extract w.r_debug (L.info si) with
    | error s =>
      simp only [hx] at h
      cases h
      exact Or.inl ⟨s, rfl, rfl, rfl⟩
    | ok s =>
      simp only [hx] at h
      refine Or.inr ⟨s, rfl, ?_⟩
      split_ifs at h with ht
      · cases h
        exact Or.inl ⟨ht, rfl, rfl⟩
      · obtain ⟨M, hM, hfin⟩ := Option.bind_eq_some_iff.mp h
        exact Or.inr ⟨ht, M, Option.some.inj hfin, hM⟩

theorem linkImage_linked {w : World} {find : Find} (hfind : FindSpec w find) {old : List So}
    {L L' : State} {si : So} {ok : Bool} (hb : Base old L) (hf : Fresh L old si)
    (h : linkImage find w L si = some (L', ok)) : Linked w old L L' si ok := by
  rcases linkImage_cases h with ⟨rfl, rfl⟩ | ⟨ds, hd, ⟨s, hx, rfl, rfl⟩ |
    ⟨s, hx, ⟨-, rfl, rfl⟩ | ⟨-, M, hfin, hM⟩⟩⟩
  · exact ⟨.single (.fail hf), hf.mem, fun h => (nomatch h), fun _ => markError_error L si,
      fun h => (nomatch h), fun h => (nomatch h)⟩
  · have hstep := LinkStep.extract (w := w) hf (Or.inr hx)
    refine ⟨.single hstep, hf.mem, fun _ => ?_, fun h => (nomatch h), fun _ t ht => ?_,
      fun _ hno => absurd hx (hno s)⟩
    · rw [set_same]
      exact (extract_same (Or.inr hx)).found ds hd
    · cases hx.symm.trans ht
      rfl
  · have hstart := linking_start hf hd hx
    exact ⟨hstart.run.tail (.fail hstart.fresh), hf.mem, fun h => (nomatch h),
      fun _ => markError_error _ si, fun h => (nomatch h), fun h => (nomatch h)⟩
  · obtain ⟨hlink, hdyn, hres⟩ := linking_end hfind hb hf hd hx hM
    have hstep := LinkStep.finish (w := w) hlink.fresh hdyn hres
    obtain ⟨ts, flags, l_addr, l_name, hown, -, herr, hlk⟩ := finishLink_own w M si
    rw [hfin] at hstep hown herr hlk
    rw [hlink.fresh.clean, Bool.false_or] at herr
    have hrun : LinkRun w old L L' := hlink.run.tail hstep
    refine ⟨hrun, hrun.grown.mem hf.mem, fun _ => ?_, fun hok => ?_, fun _ t ht => ?_,
      fun hok _ => ?_⟩
    · obtain ⟨ds', hds'⟩ := hdyn
      exact ⟨ds', by rw [hown, hds']⟩
    · rw [hown, herr, hok]
      rfl
    · cases hx.symm.trans ht
    · rw [Soinfo.Live, hown, herr, hok]
      exact ⟨hlk hok, rfl⟩

/-- What no step changes in a library on the list, and the counter, which no step
lowers. -/
structure Placed (s t : Soinfo) : Prop where
  name : t.name = s.name
  base : t.base = s.base
  size : t.size = s.size
  phdr : t.phdr = s.phdr
  phnum : t.phnum = s.phnum
  grows : s.refcount ≤ t.refcount

theorem Placed.refl (s : Soinfo) : Placed s s := ⟨rfl, rfl, rfl, rfl, rfl, le_refl _⟩

theorem Placed.trans {s t u : Soinfo} (h : Placed s t) (k : Placed t u) : Placed s u :=
  ⟨k.name.trans h.name, k.base.trans h.base, k.size.trans h.size, k.phdr.trans h.phdr,
    k.phnum.trans h.phnum, h.grows.trans k.grows⟩

theorem placed_of_one {L L' : State} {si : So} (h : ∀ x, x ≠ si → L'.info x = L.info x)
    (hs : Placed (L.info si) (L'.info si)) (x : So) : Placed (L.info x) (L'.info x) := by
  by_cases hx : x = si
  · subst hx
    exact hs
  · rw [h x hx]
    exact Placed.refl _

theorem placed_modify (L : State) (si x : So) {f : Soinfo → Soinfo}
    (hf : Placed (L.info si) (f (L.info si))) : Placed (L.info x) ((L.modify si f).info x) :=
  placed_of_one (fun _ hx => modify_other _ _ hx) (by rw [modify_same]; exact hf) x

theorem LinkStep.placed {w : World} {old : List So} {L L' : State} {x : So}
    (h : LinkStep w old L L') (hx : x ∈ L.solist) : Placed (L.info x) (L'.info x) := by
  cases h with
  | attempt h =>
    rw [(loadLibrary_none h).info x hx]
    exact Placed.refl _
  | load _ h =>
    have ha := loadLibrary_some h
    rw [ha.old hx]
    exact Placed.refl _
  | extract hf h =>
    have hsame := extract_same h
    refine placed_of_one (fun y hy => set_other _ _ hy) ?_ x
    rw [set_same]
    exact ⟨hsame.name, hsame.base, hsame.size, hsame.phdr, hsame.phnum, hsame.refcount.ge⟩
  | need hf he hm hne ht =>
    rename_i si lsi i v
    rw [attach, addRef]
    exact (placed_modify L si x ⟨rfl, rfl, rfl, rfl, rfl, le_refl _⟩).trans
      (placed_modify _ lsi x ⟨rfl, rfl, rfl, rfl, rfl, Nat.le_succ _⟩)
  | finish hf hd hr =>
    rename_i si
    obtain ⟨ts, flags, l_addr, l_name, hown, -⟩ := finishLink_own w L si
    refine placed_of_one (fun y hy => finishLink_other w L hy) ?_ x
    rw [hown]
    exact ⟨rfl, rfl, rfl, rfl, rfl, le_refl _⟩
  | fail hf =>
    rename_i si
    exact placed_modify L si x ⟨rfl, rfl, rfl, rfl, rfl, le_refl _⟩
  | unmap hm hn he => exact Placed.refl _

theorem LinkRun.placed {w : World} {old : List So} {L L' : State} (h : LinkRun w old L L')
    {x : So} (hx : x ∈ L.solist) : Placed (L.info x) (L'.info x) := by
  induction h with
  | refl => exact Placed.refl _
  | tail hr hs ih => exact ih.trans (hs.placed (LinkRun.grown hr |>.mem hx))

theorem appended_fresh {w : World} {L L' : State} {lib : Name} {i : Slot}
    (h : Appended w L L' lib i) : Fresh L' L.solist (.pool i) where
  mem := by
    rw [h.solist]
    exact List.mem_append_right _ List.mem_cons_self
  new := h.not_mem
  unlinked := by rw [h.flags]
  clean := by rw [h.flags]

theorem lookupName_mem {L : State} {bname : Name} {x : So} (h : lookupName L bname = some x) :
    x ∈ L.solist ∧ (L.info x).name = bname :=
  ⟨List.mem_of_find?_eq_some h, by simpa using List.find?_some h⟩

/-- The three ways a search can end: the library is on the list, the attempt to
load it failed, or it was loaded and then linked. -/
theorem findLibrary_cases {w : World} {fuel : ℕ} {L L' : State} {lib : Name} {r : Option So}
    {host : Option ℕ} (h : findLibrary w (fuel + 1) L lib = some (L', r, host)) :
    (∃ x, lookupName L (basename (resolve w.overrides lib)) = some x ∧ L' = L ∧
      r = if (L.info x).Live then some x else none) ∨
    (lookupName L (basename (resolve w.overrides lib)) = none ∧ r = none ∧
      loadLibrary w L (resolve w.overrides lib) = (L', none, host)) ∨
    (lookupName L (basename (resolve w.overrides lib)) = none ∧ ∃ L1 L2 i host' ok,
      loadLibrary w L (resolve w.overrides lib) = (L1, some i, host') ∧
      linkImage (findLibrary w fuel) w L1 (.pool i) = some (L2, ok) ∧
      (ok = true ∧ r = some (.pool i) ∧ L' = L2 ∨ ok = false ∧ r = none ∧
        L' = (L2.munmap (L2.info (.pool i)).base (L2.info (.pool i)).size).log
          [.linkFailed i])) := by
  unfold findLibrary at h
  simp only at h
  cases hn : lookupName L (basename (resolve w.overrides lib)) with
  | some x =>
    simp only [hn] at h
    cases h
    exact Or.inl ⟨x, rfl, rfl, rfl⟩
  | none =>
    simp only [hn] at h
    cases hload : loadLibrary w L (resolve w.overrides lib) with
    | mk L1 p =>
      obtain ⟨o, host'⟩ := p
      cases o with
      | none =>
        simp only [hload] at h
        cases h
        exact Or.inr (Or.inl ⟨rfl, rfl, rfl⟩)
      | some i =>
        simp only [hload, initLibrary, Option.map_map] at h
        obtain ⟨⟨L2, ok⟩, hlink, he⟩ := Option.map_eq_some_iff.mp h
        refine Or.inr (Or.inr ⟨rfl, L1, L2, i, host', ok, rfl, hlink, ?_⟩)
        cases ok with
        | true =>
          cases he
          exact Or.inl ⟨rfl, rfl, rfl⟩
        | false =>
          cases he
          exact Or.inr ⟨rfl, rfl, rfl⟩

theorem base_loaded {w : World} {L L1 : State} {lib : Name} {host : Option ℕ} {i : Slot}
    (hl : (L.info .libdl).Live) (hn : lookupName L (basename lib) = none)
    (h : loadLibrary w L lib = (L1, some i, host)) : Base L.solist L1 :=
  Base.later (w := w) ⟨fun _ hx => hx, libdl_mem_solist L, hl⟩ (.single (.load hn h))

/-- Every search is a run of steps that leaves the libraries already on the list
alone, and the library it returns is on the list. -/
theorem findLibrary_found (w : World) (fuel : ℕ) : FindSpec w (findLibrary w fuel) := by
  induction fuel with
  | zero =>
    intro L lib L' r host _ h
    cases h
  | succ fuel ih =>
    intro L lib L' r host hl h
    rcases findLibrary_cases h with ⟨x, hn, rfl, rfl⟩ | ⟨-, rfl, hload⟩ |
      ⟨hn, L1, L2, i, host', ok, hload, hlink, hend⟩
    · have hx := (lookupName_mem hn).1
      refine ⟨.refl, fun y hy => ?_, fun y hy _ => ?_, fun y hy hny => ?_⟩ <;>
        split_ifs at hy with hlive <;> cases hy
      · exact hx
      · exact hlive
      · exact absurd hx hny
    · exact ⟨.single (.attempt hload), fun x hx => (nomatch hx), fun x hx => (nomatch hx),
        fun x hx => (nomatch hx)⟩
    · have hfresh := appended_fresh (loadLibrary_some hload)
      have hstep : LinkStep w L.solist L L1 := .load hn hload
      have hlinked := linkImage_linked ih (base_loaded hl hn hload) hfresh hlink
      have hrun := (Relation.ReflTransGen.single hstep).trans hlinked.run
      rcases hend with ⟨rfl, rfl, rfl⟩ | ⟨rfl, rfl, rfl⟩
      · refine ⟨hrun, fun x hx => ?_, fun x hx ho => ?_, fun x hx _ => ?_⟩ <;> cases hx
        · exact hlinked.mem
        · exact absurd ho hfresh.new
        · exact hlinked.dynamic rfl
      · exact ⟨hrun.tail (.unmap hlinked.mem hfresh.new (hlinked.error rfl)),
          fun x hx => (nomatch hx), fun x hx => (nomatch hx), fun x hx => (nomatch hx)⟩

end Bionic.LinkSteps
