import BionicTranslation.FindSound

/-!
# The calls inside a search

A search calls itself for the DT_NEEDED entries of the library it has loaded. The
calls are read off the states the loop over the entries goes through. The library
that is being linked keeps its slot during all of them, so a chain of calls is no
longer than the pool, and its name stays on the list, so no call meets it again.
-/

set_option autoImplicit false

namespace Bionic.SearchTree
open Bionic.Slots Bionic.Records Bionic.Linker Bionic.Unload Bionic.FoldRules Bionic.LinkFrame
open Bionic.LinkSteps Bionic.LinkFlags Bionic.FindSound

def passed (w : World) (L : State) (lib : Name) : Option (State × Slot) :=
  match lookupName L (basename (resolve w.overrides lib)) with
  | some _ => none
  | none =>
    match loadLibrary w L (resolve w.overrides lib) with
    | (_, none, _) => none
    | (M, some i, _) => some (M, i)

def loopStart (w : World) (L : State) (si : So) : Option State :=
  match (L.info si).dynamic with
  | .null => none
  | .missing => none
  | .found _ =>
    match extract w.r_debug (L.info si) with
    | .error _ => none
    | .ok s => if s.strtab = 0 ∨ s.symtab = 0 then none else some (L.set si s)

def neededName (s : Soinfo) (k : ℕ) : Option Name :=
  match s.entries[k]? with
  | some ⟨.needed, .val v⟩ => some (s.image.str (s.offset (s.strtab + v)))
  | _ => none

def neededCall (find : Find) (si : So) (M : State) (k : ℕ) : Option (State × Name) :=
  ((List.range k).foldlM (linkNeeded find si) M).bind fun K =>
    (neededName (K.info si) k).map fun name => (K, name)

/-- The calls of `apkenv_find_library` that the linking of the library makes. -/
def nestedCalls (w : World) (find : Find) (L : State) (lib : Name) : List (State × Name) :=
  match passed w L lib with
  | none => []
  | some (M, i) =>
    match loopStart w M (.pool i) with
    | none => []
    | some N => (List.range (M.info (.pool i)).entries.length).filterMap
        (neededCall find (.pool i) N)

/-- The length of the longest chain of calls inside each other. -/
def callDepth (w : World) : ℕ → State → Name → ℕ
  | 0 => fun _ _ => 0
  | fuel + 1 => fun L lib => 1 + ((nestedCalls w (findLibrary w fuel) L lib).map fun c =>
      callDepth w fuel c.1 c.2).foldr max 0

/-- The basenames handed to `apkenv_link_image`, in the order of time. -/
def handedOver (w : World) : ℕ → State → Name → List Name
  | 0 => fun _ _ => []
  | fuel + 1 => fun L lib =>
    match passed w L lib with
    | none => []
    | some _ => basename (resolve w.overrides lib) ::
        (nestedCalls w (findLibrary w fuel) L lib).flatMap fun c => handedOver w fuel c.1 c.2

theorem passed_some {w : World} {L M : State} {lib : Name} {i : Slot}
    (h : passed w L lib = some (M, i)) :
    lookupName L (basename (resolve w.overrides lib)) = none ∧
      ∃ host, loadLibrary w L (resolve w.overrides lib) = (M, some i, host) := by
  unfold passed at h
  cases hn : lookupName L (basename (resolve w.overrides lib)) with
  | some x =>
    rw [hn] at h
    cases h
  | none =>
    rw [hn] at h
    rcases hl : loadLibrary w L (resolve w.overrides lib) with ⟨K, o, host⟩
    rw [hl] at h
    cases o with
    | none => cases h
    | some j =>
      cases h
      exact ⟨rfl, host, rfl⟩

theorem findLibrary_none_iff (w : World) (fuel : ℕ) (L : State) (lib : Name) :
    findLibrary w (fuel + 1) L lib = none ↔ ∃ M i, passed w L lib = some (M, i) ∧
      linkImage (findLibrary w fuel) w M (.pool i) = none := by
  unfold passed
  conv_lhs => unfold findLibrary
  simp only
  cases hn : lookupName L (basename (resolve w.overrides lib)) with
  | some x => simp
  | none =>
    rcases hl : loadLibrary w L (resolve w.overrides lib) with ⟨K, o, host⟩
    cases o with
    | none => simp
    | some j => simp [initLibrary]

theorem linkImage_none_iff (find : Find) (w : World) (L : State) (si : So) :
    linkImage find w L si = none ↔ ∃ M, loopStart w L si = some M ∧
      (List.range (L.info si).entries.length).foldlM (linkNeeded find si) M = none := by
  unfold linkImage loopStart
  cases hd : (L.info si).dynamic with
  | null => simp
  | missing => simp
  | found ds =>
    simp only [entries_of_found hd]
    cases hx : extract w.r_debug (L.info si) with
    | error s => simp
    | ok s =>
      simp only
      split_ifs with ht
      · simp
      · cases hM : (List.range ds.length).foldlM (linkNeeded find si) (L.set si s) <;> simp [hM]

theorem neededName_some {s : Soinfo} {k v : ℕ} (he : s.entries[k]? = some ⟨.needed, .val v⟩) :
    neededName s k = some (s.image.str (s.offset (s.strtab + v))) := by
  simp only [neededName, he]

theorem neededName_none {s : Soinfo} {k : ℕ}
    (he : ∀ v, s.entries[k]? ≠ some ⟨.needed, .val v⟩) : neededName s k = none := by
  unfold neededName
  split
  · next v hv => exact absurd hv (he v)
  · rfl

theorem linkNeeded_none_iff (find : Find) (si : So) (K : State) (k : ℕ) :
    linkNeeded find si K k = none ↔
      ∃ name, neededName (K.info si) k = some name ∧ find K name = none := by
  by_cases he : ∃ v, (K.info si).entries[k]? = some ⟨.needed, .val v⟩
  · obtain ⟨v, he⟩ := he
    rw [neededName_some he]
    unfold linkNeeded
    simp only [he]
    cases hf : find K ((K.info si).image.str ((K.info si).offset ((K.info si).strtab + v))) <;>
      simp [hf]
  · have hno : ∀ v, (K.info si).entries[k]? ≠ some ⟨.needed, .val v⟩ := fun v hv => he ⟨v, hv⟩
    rw [linkNeeded_other hno, neededName_none hno]
    simp

theorem neededCall_some {find : Find} {si : So} {M K : State} {k : ℕ} {name : Name} :
    neededCall find si M k = some (K, name) ↔
      (List.range k).foldlM (linkNeeded find si) M = some K ∧
        neededName (K.info si) k = some name := by
  unfold neededCall
  cases hK : (List.range k).foldlM (linkNeeded find si) M with
  | none => simp
  | some J =>
    cases hn : neededName (J.info si) k with
    | none =>
      simp only [Option.bind_some, hn, Option.map_none, Option.some.injEq]
      refine iff_of_false (fun h => by cases h) ?_
      rintro ⟨rfl, h⟩
      cases hn.symm.trans h
    | some n =>
      simp only [Option.bind_some, hn, Option.map_some, Option.some.injEq, Prod.mk.injEq]
      constructor
      · rintro ⟨rfl, rfl⟩
        exact ⟨rfl, hn⟩
      · rintro ⟨rfl, h⟩
        exact ⟨rfl, Option.some.inj (hn.symm.trans h)⟩

theorem mem_nestedCalls {w : World} {find : Find} {L K : State} {lib name : Name} :
    (K, name) ∈ nestedCalls w find L lib ↔ ∃ M i N k, passed w L lib = some (M, i) ∧
      loopStart w M (.pool i) = some N ∧ k < (M.info (.pool i)).entries.length ∧
        neededCall find (.pool i) N k = some (K, name) := by
  unfold nestedCalls
  rcases passed w L lib with _ | ⟨M, i⟩
  · simp
  · cases hs : loopStart w M (.pool i) with
    | none => simp [hs]
    | some N =>
      simp only [hs, List.mem_filterMap, List.mem_range]
      constructor
      · rintro ⟨k, hk, hc⟩
        exact ⟨M, i, N, k, rfl, hs, hk, hc⟩
      · rintro ⟨M', i', N', k, hp, hs', hk, hc⟩
        cases hp
        cases hs.symm.trans hs'
        exact ⟨k, hk, hc⟩

theorem search_none_iff (w : World) (fuel : ℕ) (L : State) (lib : Name) :
    findLibrary w (fuel + 1) L lib = none ↔
      ∃ c ∈ nestedCalls w (findLibrary w fuel) L lib, findLibrary w fuel c.1 c.2 = none := by
  simp only [findLibrary_none_iff, linkImage_none_iff, option_none_iff, linkNeeded_none_iff]
  constructor
  · rintro ⟨M, i, hp, N, hN, k, hk, K, hK, name, hname, hf⟩
    exact ⟨(K, name), mem_nestedCalls.mpr ⟨M, i, N, k, hp, hN, hk, neededCall_some.mpr ⟨hK, hname⟩⟩,
      hf⟩
  · rintro ⟨⟨K, name⟩, hc, hf⟩
    obtain ⟨M, i, N, k, hp, hN, hk, hcall⟩ := mem_nestedCalls.mp hc
    obtain ⟨hK, hname⟩ := neededCall_some.mp hcall
    exact ⟨M, i, hp, N, hN, k, hk, K, hK, name, hname, hf⟩

def rooms (L : State) : ℕ := soMax - L.pool.loaded.length

theorem loaded_length_le (L : State) : L.pool.loaded.length ≤ soMax := by
  have hcard := L.pool.loaded_nodup.length_le_card
  rwa [Fintype.card_fin] at hcard

theorem loopStart_some {w : World} {L M : State} {si : So} (h : loopStart w L si = some M) :
    ∃ ds s, (L.info si).dynamic = .found ds ∧ extract w.r_debug (L.info si) = .ok s ∧
      ¬ (s.strtab = 0 ∨ s.symtab = 0) ∧ M = L.set si s := by
  unfold loopStart at h
  cases hd : (L.info si).dynamic with
  | null =>
    rw [hd] at h
    cases h
  | missing =>
    rw [hd] at h
    cases h
  | found ds =>
    simp only [hd] at h
    cases hx : extract w.r_debug (L.info si) with
    | error s =>
      rw [hx] at h
      cases h
    | ok s =>
      simp only [hx] at h
      split_ifs at h with ht
      exact ⟨ds, s, rfl, rfl, ht, (Option.some.inj h).symm⟩

theorem loop_linking {w : World} {fuel : ℕ} {L M N K : State} {lib : Name} {i : Slot} {k : ℕ}
    (hl : (L.info .libdl).Live) (hp : passed w L lib = some (M, i))
    (hN : loopStart w M (.pool i) = some N)
    (hK : (List.range k).foldlM (linkNeeded (findLibrary w fuel) (.pool i)) N = some K) :
    ∃ s, Linking w L.solist M K (.pool i) s := by
  obtain ⟨hname, host, hload⟩ := passed_some hp
  obtain ⟨ds, s, hd, hx, -, rfl⟩ := loopStart_some hN
  have hb := base_loaded hl hname hload
  have hstart := linking_start (appended_fresh (loadLibrary_some hload)) hd hx
  exact ⟨s, option_invariant (P := fun K => Linking w L.solist M K (.pool i) s)
    (fun _ _ _ _ hM hN => linkNeeded_step (findLibrary_found w fuel) hb hM hN) hstart hK⟩

theorem loop_run {w : World} {fuel : ℕ} {L M N K : State} {lib : Name} {i : Slot} {k : ℕ}
    (hl : (L.info .libdl).Live) (hp : passed w L lib = some (M, i))
    (hN : loopStart w M (.pool i) = some N)
    (hK : (List.range k).foldlM (linkNeeded (findLibrary w fuel) (.pool i)) N = some K) :
    LinkRun w L.solist M K ∧ (K.info .libdl).Live ∧ rooms K < rooms L := by
  obtain ⟨hname, host, hload⟩ := passed_some hp
  obtain ⟨s, hlink⟩ := loop_linking hl hp hN hK
  have hb := (base_loaded hl hname hload).later hlink.run
  obtain ⟨new, hnew⟩ := hlink.run.grown.loaded
  have hlen := congrArg List.length hnew
  have hM := congrArg List.length (loadLibrary_some hload).loaded
  have hle := loaded_length_le M
  simp only [List.length_append, List.length_singleton] at hlen hM
  refine ⟨hlink.run, hb.live, ?_⟩
  simp only [rooms]
  omega

theorem nested_rooms {w : World} {fuel : ℕ} {L : State} {lib : Name} {c : State × Name}
    (hl : (L.info .libdl).Live) (hc : c ∈ nestedCalls w (findLibrary w fuel) L lib) :
    (c.1.info .libdl).Live ∧ rooms c.1 < rooms L := by
  obtain ⟨M, i, N, k, hp, hN, -, hcall⟩ := mem_nestedCalls.mp hc
  exact (loop_run hl hp hN (neededCall_some.mp hcall).1).2

theorem search_ends (w : World) (fuel : ℕ) : ∀ (L : State) (lib : Name),
    (L.info .libdl).Live → rooms L < fuel → findLibrary w fuel L lib ≠ none := by
  induction fuel with
  | zero => exact fun L _ _ h => absurd h (Nat.not_lt_zero _)
  | succ fuel ih =>
    intro L lib hl hrooms hnone
    obtain ⟨c, hc, hfail⟩ := (search_none_iff w fuel L lib).mp hnone
    obtain ⟨hlc, hlt⟩ := nested_rooms hl hc
    exact ih c.1 c.2 hlc (by omega) hfail

theorem callDepth_le (w : World) (fuel : ℕ) : ∀ (L : State) (lib : Name),
    (L.info .libdl).Live → callDepth w fuel L lib ≤ rooms L + 1 := by
  induction fuel with
  | zero => exact fun L _ _ => Nat.zero_le _
  | succ fuel ih =>
    intro L lib hl
    have hmax : ((nestedCalls w (findLibrary w fuel) L lib).map fun c =>
        callDepth w fuel c.1 c.2).foldr max 0 ≤ rooms L := by
      refine List.max_le_of_forall_le _ _ fun d hd => ?_
      obtain ⟨c, hc, rfl⟩ := List.mem_map.mp hd
      obtain ⟨hlc, hlt⟩ := nested_rooms hl hc
      exact (ih c.1 c.2 hlc).trans hlt
    show 1 + _ ≤ _
    omega

theorem names_mono {w : World} {old : List So} {L M : State} (h : LinkRun w old L M) :
    names L ⊆ names M := by
  intro b hb
  obtain ⟨x, hx, rfl⟩ := List.mem_map.mp hb
  exact List.mem_map.mpr ⟨x, h.grown.mem hx, (h.placed hx).name⟩

structure HandsOver (w : World) (fuel : ℕ) (L : State) (lib : Name) : Prop where
  nodup : (handedOver w fuel L lib).Nodup
  new : ∀ b ∈ handedOver w fuel L lib, b ∉ names L
  listed : ∀ M r host, findLibrary w fuel L lib = some (M, r, host) →
    ∀ b ∈ handedOver w fuel L lib, b ∈ names M

def handedTo (w : World) (fuel : ℕ) (si : So) (N : State) (k : ℕ) : List Name :=
  ((List.range k).filterMap (neededCall (findLibrary w fuel) si N)).flatMap fun c =>
    handedOver w fuel c.1 c.2

theorem handedTo_succ (w : World) (fuel : ℕ) (si : So) (N : State) (k : ℕ) :
    handedTo w fuel si N (k + 1) = handedTo w fuel si N k ++
      (neededCall (findLibrary w fuel) si N k).toList.flatMap fun c =>
        handedOver w fuel c.1 c.2 := by
  rw [handedTo, handedTo, List.range_succ, List.filterMap_append, List.flatMap_append]
  cases hc : neededCall (findLibrary w fuel) si N k <;> simp [hc]

theorem names_attach (L : State) (si lsi : So) (i : ℕ) : names (attach L si i lsi) = names L := by
  refine List.map_congr_left fun x _ => ?_
  obtain ⟨dynamic, refcount, hx⟩ := attach_rest L si i lsi x
  rw [hx]

theorem names_finishLink (w : World) (L : State) (si : So) :
    names (finishLink w L si).1 = names L := by
  rw [names, State.solist, finishLink_pool]
  refine List.map_congr_left fun x _ => ?_
  by_cases hx : x = si
  · subst hx
    exact finishLink_name w L x
  · rw [finishLink_other w L hx]

theorem linkNeeded_call {find : Find} {si : So} {K K' : State} {k : ℕ}
    (h : linkNeeded find si K k = some K') :
    (neededName (K.info si) k = none ∧ K' = K) ∨ ∃ name M r host,
      neededName (K.info si) k = some name ∧ find K name = some (M, r, host) ∧
        K' = attach M si k (r.getD .libdl) := by
  by_cases he : ∃ v, (K.info si).entries[k]? = some ⟨.needed, .val v⟩
  · obtain ⟨v, he⟩ := he
    obtain ⟨M, r, host, hr, rfl⟩ := linkNeeded_needed he h
    exact .inr ⟨_, M, r, host, neededName_some he, hr, rfl⟩
  · have hno : ∀ v, (K.info si).entries[k]? ≠ some ⟨.needed, .val v⟩ := fun v hv => he ⟨v, hv⟩
    rw [linkNeeded_other hno] at h
    exact .inl ⟨neededName_none hno, (Option.some.inj h).symm⟩

theorem linkImage_loop {find : Find} {w : World} {L L' N : State} {si : So} {ok : Bool}
    (h : linkImage find w L si = some (L', ok)) (hN : loopStart w L si = some N) :
    ∃ K, (List.range (L.info si).entries.length).foldlM (linkNeeded find si) N = some K ∧
      finishLink w K si = (L', ok) := by
  obtain ⟨ds, s, hd, hx, ht, rfl⟩ := loopStart_some hN
  unfold linkImage at h
  simp only [hd, hx, if_neg ht] at h
  obtain ⟨K, hK, hfin⟩ := Option.bind_eq_some_iff.mp h
  exact ⟨K, entries_of_found hd ▸ hK, Option.some.inj hfin⟩

theorem loop_hands {w : World} {fuel : ℕ} {L M N : State} {lib : Name} {i : Slot}
    (ih : ∀ L lib, (L.info .libdl).Live → HandsOver w fuel L lib) (hl : (L.info .libdl).Live)
    (hp : passed w L lib = some (M, i)) (hN : loopStart w M (.pool i) = some N) (k : ℕ) :
    (handedTo w fuel (.pool i) N k).Nodup ∧
      (∀ b ∈ handedTo w fuel (.pool i) N k, b ∉ names M) ∧
      ∀ K, (List.range k).foldlM (linkNeeded (findLibrary w fuel) (.pool i)) N = some K →
        ∀ b ∈ handedTo w fuel (.pool i) N k, b ∈ names K := by
  induction k with
  | zero => simp [handedTo]
  | succ k ihk =>
    obtain ⟨hnodup, hnew, hlisted⟩ := ihk
    rw [handedTo_succ]
    rcases hcall : neededCall (findLibrary w fuel) (.pool i) N k with _ | ⟨K, name⟩
    · simp only [Option.toList_none, List.flatMap_nil, List.append_nil]
      refine ⟨hnodup, hnew, fun K' h b hb => ?_⟩
      obtain ⟨K, hK, hk⟩ := option_range_succ h
      rcases linkNeeded_call hk with ⟨-, rfl⟩ | ⟨name, J, r, host, hname, -⟩
      · exact hlisted K' hK b hb
      · rw [neededCall_some.mpr ⟨hK, hname⟩] at hcall
        cases hcall
    · obtain ⟨hK, hname⟩ := neededCall_some.mp hcall
      obtain ⟨hrun, hlK, -⟩ := loop_run hl hp hN hK
      obtain ⟨hcn, hcnew, hclisted⟩ := ih K name hlK
      simp only [Option.toList_some, List.flatMap_cons, List.flatMap_nil, List.append_nil]
      refine ⟨?_, ?_, ?_⟩
      · refine List.nodup_append'.mpr ⟨hnodup, hcn, fun b hb hb' => ?_⟩
        exact hcnew b hb' (hlisted K hK b hb)
      · intro b hb
        rcases List.mem_append.mp hb with hb | hb
        · exact hnew b hb
        · exact fun hM => hcnew b hb (names_mono hrun hM)
      · intro K' h b hb
        obtain ⟨K₁, hK₁, hk⟩ := option_range_succ h
        cases hK.symm.trans hK₁
        rcases linkNeeded_call hk with ⟨hno, -⟩ | ⟨n, J, r, host, hn, hfind, rfl⟩
        · rw [hname] at hno
          cases hno
        · cases hname.symm.trans hn
          rw [names_attach]
          rcases List.mem_append.mp hb with hb | hb
          · exact names_mono (findLibrary_found w fuel _ _ _ _ _ hlK hfind).run (hlisted K hK b hb)
          · exact hclisted J r host hfind b hb

theorem handedOver_passed {w : World} {fuel : ℕ} {L M : State} {lib : Name} {i : Slot}
    (hp : passed w L lib = some (M, i)) :
    handedOver w (fuel + 1) L lib = basename (resolve w.overrides lib) ::
      ((loopStart w M (.pool i)).elim [] fun N =>
        handedTo w fuel (.pool i) N (M.info (.pool i)).entries.length) := by
  rw [handedOver]
  simp only [hp, nestedCalls]
  cases loopStart w M (.pool i) <;> rfl

theorem hands_over (w : World) (fuel : ℕ) : ∀ (L : State) (lib : Name),
    (L.info .libdl).Live → HandsOver w fuel L lib := by
  induction fuel with
  | zero => exact fun L lib _ => ⟨List.nodup_nil, by simp [handedOver], by simp [handedOver]⟩
  | succ fuel ih =>
    intro L lib hl
    rcases hp : passed w L lib with _ | ⟨M, i⟩
    · have hnil : handedOver w (fuel + 1) L lib = [] := by
        rw [handedOver]
        simp only [hp]
      exact ⟨hnil ▸ List.nodup_nil, by simp [hnil], by simp [hnil]⟩
    · obtain ⟨hname, host, hload⟩ := passed_some hp
      have happ := loadLibrary_some hload
      have hstep : LinkStep w L.solist L M := .load hname hload
      have hsub : names L ⊆ names M := names_mono (.single hstep)
      have hown : basename (resolve w.overrides lib) ∈ names M :=
        List.mem_map.mpr ⟨.pool i, (appended_fresh happ).mem, happ.name⟩
      -- what is handed over inside, before the library itself is put in front
      obtain ⟨inner, hinner, hnodup, hnew, hlisted⟩ : ∃ inner : List Name,
          handedOver w (fuel + 1) L lib = basename (resolve w.overrides lib) :: inner ∧
          inner.Nodup ∧ (∀ b ∈ inner, b ∉ names M) ∧
          ∀ M' ok, linkImage (findLibrary w fuel) w M (.pool i) = some (M', ok) →
            ∀ b ∈ inner, b ∈ names M' := by
        refine ⟨_, handedOver_passed hp, ?_⟩
        cases hN : loopStart w M (.pool i) with
        | none => simp
        | some N =>
          obtain ⟨h1, h2, h3⟩ := loop_hands ih hl hp hN (M.info (.pool i)).entries.length
          refine ⟨h1, h2, fun M' ok hlink b hb => ?_⟩
          obtain ⟨K, hK, hfin⟩ := linkImage_loop hlink hN
          have hnames := names_finishLink w K (.pool i)
          rw [hfin] at hnames
          exact hnames ▸ h3 K hK b hb
      refine ⟨?_, ?_, fun L' r host' hf => ?_⟩ <;> rw [hinner]
      · exact List.nodup_cons.mpr ⟨fun hb => hnew _ hb hown, hnodup⟩
      · intro b hb
        rcases List.mem_cons.mp hb with rfl | hb
        · exact lookupName_none hname
        · exact fun hL => hnew b hb (hsub hL)
      · rcases findLibrary_cases hf with ⟨x, hx, -⟩ | ⟨-, -, hno⟩ |
          ⟨-, M₁, M₂, j, host₁, ok, hload₁, hlink, hend⟩
        · cases hname.symm.trans hx
        · cases hload.symm.trans hno
        · cases hload.symm.trans hload₁
          have hrun := (linkImage_linked (findLibrary_found w fuel) (base_loaded hl hname hload)
            (appended_fresh happ) hlink).run
          have hL' : names L' = names M₂ := by
            rcases hend with ⟨-, -, rfl⟩ | ⟨-, -, rfl⟩ <;> rfl
          intro b hb
          rw [hL']
          rcases List.mem_cons.mp hb with rfl | hb
          · exact names_mono hrun hown
          · exact hlisted M₂ ok hlink b hb

/-- What a top-level search does in a reachable state: with fuel for `soMax + 1` calls inside
each other it ends, there are never more, and no basename is handed over twice. -/
structure Bounded (w : World) (L : State) (lib : Name) : Prop where
  ends : findLibrary w (soMax + 1) L lib ≠ none
  depth : ∀ fuel, callDepth w fuel L lib ≤ soMax + 1
  once : ∀ fuel, (handedOver w fuel L lib).Nodup

/-- For every world, in every state of every run. -/
theorem search_bounded {s : Sys} (hr : Reachable (fun _ _ _ => True) s) (w : World) (lib : Name) :
    Bounded w s.linker lib where
  ends := search_ends w _ _ _ (reachable_tidy hr).live (Nat.lt_succ_of_le (Nat.sub_le _ _))
  depth fuel := (callDepth_le w fuel _ _ (reachable_tidy hr).live).trans
    (Nat.succ_le_succ (Nat.sub_le _ _))
  once fuel := (hands_over w fuel _ _ (reachable_tidy hr).live).nodup

def mutualWorld : World := sampleWorld fun name =>
  if name = ['a'] then some (sampleFile [(.needed, 'b'.toNat)])
  else if name = ['b'] then some (sampleFile [(.needed, 'a'.toNat)]) else none

theorem mutual_bounded : Bounded mutualWorld initial ['a'] ∧
    handedOver mutualWorld (soMax + 1) initial ['a'] = [['a'], ['b']] :=
  ⟨search_bounded .initial mutualWorld ['a'], by decide +kernel⟩

end Bionic.SearchTree
