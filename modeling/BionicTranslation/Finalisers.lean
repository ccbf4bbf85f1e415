import BionicTranslation.InstanceCalls
import BionicTranslation.LiveRanges

/-!
# Finalisers

A close runs the finalisers of every library it tears down. While that happens, the
libraries that are being torn down form a stack, and the counters keep everything
that the next library needs off it: on the list, mapped, with its initialisers run
and its finalisers not. This holds in every run of balanced calls that maps no
prelinked library over another one, also with libraries that were left over when
one failed to link.
-/

set_option autoImplicit false

namespace Bionic.Finalisers
open Bionic.Slots Bionic.Records Bionic.Linker Bionic.Unload Bionic.FoldRules Bionic.LinkFrame
open Bionic.LinkSteps Bionic.CallFrame Bionic.LinkFlags Bionic.RefLedger Bionic.RefCounts
open Bionic.Ranges Bionic.LinkStack Bionic.Constructors Bionic.NewEdges Bionic.NeededGraph
open Bionic.LiveRanges Bionic.InstanceCalls Bionic.FindSound Bionic.Regions Relation

/-- The entries of DT_FINI_ARRAY in descending order, without 0 and -1, then DT_FINI. -/
def finis (s : Soinfo) : List ℕ :=
  (if s.fini_array ≠ 0 then
    ((List.range (intCount s.fini_array_count)).reverse.map fun k =>
      s.image.word (s.offset (s.fini_array + 8 * k))).filter fun f =>
        f ≠ 0 ∧ f ≠ 0xffffffffffffffff
  else []) ++ if s.fini_func ≠ 0 then [s.fini_func] else []

def unloadCall (unload : State → So → Except Fault State) (si : So) (L : State) (k : ℕ) :
    Option (State × So) :=
  ((List.range k).foldlM (unloadNeeded unload si) L).toOption.bind fun K =>
    (payloadAt (K.info si) k).map fun lsi => (cleared K si k, lsi)

/-- The libraries that a call tears down, in the order of time, each with the state in which
its finalisers are about to run. -/
def teardowns : ℕ → State → So → List (State × So)
  | 0 => fun _ _ => []
  | fuel + 1 => fun L si =>
    if (L.info si).refcount = 1 then
      (L, si) :: ((List.range (L.info si).entries.length).filterMap
        (unloadCall (unloadLibrary fuel) si (callDestructors L si))).flatMap fun c =>
          teardowns fuel c.1 c.2
    else []

def tornFor (fuel : ℕ) (si : So) (L : State) (k : ℕ) : List (State × So) :=
  ((List.range k).filterMap (unloadCall (unloadLibrary fuel) si L)).flatMap fun c =>
    teardowns fuel c.1 c.2

theorem teardowns_one {fuel : ℕ} {L : State} {si : So} (h : (L.info si).refcount = 1) :
    teardowns (fuel + 1) L si =
      (L, si) :: tornFor fuel si (callDestructors L si) (L.info si).entries.length := by
  exact if_pos h

theorem teardowns_other {fuel : ℕ} {L : State} {si : So} (h : (L.info si).refcount ≠ 1) :
    teardowns (fuel + 1) L si = [] := by
  exact if_neg h

theorem tornFor_succ (fuel : ℕ) (si : So) (L : State) (k : ℕ) :
    tornFor fuel si L (k + 1) = tornFor fuel si L k ++
      (unloadCall (unloadLibrary fuel) si L k).toList.flatMap fun c => teardowns fuel c.1 c.2 := by
  rw [tornFor, tornFor, List.range_succ, List.filterMap_append, List.flatMap_append]
  cases hc : unloadCall (unloadLibrary fuel) si L k <;> simp [hc]

theorem unloadStep_cases {fuel k : ℕ} {si : So} {L K K' : State}
    (hK : (List.range k).foldlM (unloadNeeded (unloadLibrary fuel) si) L = .ok K)
    (h : unloadNeeded (unloadLibrary fuel) si K k = .ok K') :
    (∃ lsi, (K.info si).entries[k]? = some ⟨.needed, .so lsi⟩ ∧
      unloadLibrary fuel (cleared K si k) lsi = .ok K' ∧
      tornFor fuel si L (k + 1) = tornFor fuel si L k ++ teardowns fuel (cleared K si k) lsi) ∨
    tornFor fuel si L (k + 1) = tornFor fuel si L k ∧
      (K' = K ∨ ∃ n, (K.info si).entries[k]? = some ⟨.needed, .val n⟩ ∧ K' = cleared K si k) := by
  have hcall : unloadCall (unloadLibrary fuel) si L k =
      (payloadAt (K.info si) k).map fun lsi => (cleared K si k, lsi) := by
    rw [unloadCall, hK]
    rfl
  rw [tornFor_succ, hcall, payloadAt]
  rcases unloadNeeded_cases (unloadLibrary fuel) si K k with ⟨lsi, he, hn⟩ | ⟨n, he, hn⟩ |
    ⟨hno, hn⟩ <;> rw [hn] at h
  · refine Or.inl ⟨lsi, he, h, ?_⟩
    simp [he, payload]
  · cases h
    refine Or.inr ⟨?_, Or.inr ⟨n, he, rfl⟩⟩
    simp [he, payload]
  · cases h
    refine Or.inr ⟨?_, Or.inl rfl⟩
    cases he : (K.info si).entries[k]? with
    | none => simp
    | some d =>
      have hp : payload d = none := by
        obtain ⟨tag, v⟩ := d
        cases tag <;> first | rfl | exact absurd he (hno v)
      simp [hp]

def isCall : Event → Bool
  | .call .. => true
  | _ => false

theorem isCall_callsOf (x : So) (fs : List ℕ) : (callsOf x fs).filter isCall = callsOf x fs := by
  refine List.filter_eq_self.mpr fun e he => ?_
  obtain ⟨f, -, rfl⟩ := List.mem_map.mp he
  rfl

theorem callDestructors_events (L : State) (si : So) : (callDestructors L si).events =
    (callsOf si (finis (L.info si))).reverse ++ L.events := by
  have harray : (arrayFuncs (L.info si) (L.info si).fini_array
      (L.info si).fini_array_count).reverse =
      ((List.range (intCount (L.info si).fini_array_count)).reverse.map fun k =>
        (L.info si).image.word ((L.info si).offset ((L.info si).fini_array + 8 * k))).filter
          fun f => f ≠ 0 ∧ f ≠ 0xffffffffffffffff := by
    rw [arrayFuncs, ← List.filter_reverse, ← List.map_reverse]
  rw [callDestructors, callAll_events, callAll_events, harray, finis, callsOf, callsOf, callsOf,
    List.map_append, List.reverse_append, List.append_assoc]

theorem unload_calls (fuel : ℕ) : ∀ {L L' : State} {si : So}, unloadLibrary fuel L si = .ok L' →
    L'.events.filter isCall = ((teardowns fuel L si).flatMap fun m =>
      callsOf m.2 (finis (m.1.info m.2))).reverse ++ L.events.filter isCall := by
  induction fuel with
  | zero =>
    intro L L' si h
    cases h
  | succ fuel ih =>
    intro L L' si h
    rcases unload_cases h with ⟨hone, rfl⟩ | ⟨hone, ds, M, hd, hM, rfl⟩
    · rw [teardowns_other hone]
      rfl
    · have hloop : ∀ k M, (List.range k).foldlM (unloadNeeded (unloadLibrary fuel) si)
          (callDestructors L si) = .ok M → M.events.filter isCall =
            ((tornFor fuel si (callDestructors L si) k).flatMap fun m =>
              callsOf m.2 (finis (m.1.info m.2))).reverse ++
              (callDestructors L si).events.filter isCall := by
        intro k
        induction k with
        | zero =>
          intro M hM
          cases hM
          rfl
        | succ k ihk =>
          intro M hM
          obtain ⟨K, hK, hlast⟩ := except_range_succ hM
          rcases unloadStep_cases hK hlast with ⟨lsi, -, hu, ht⟩ | ⟨ht, rfl | ⟨n, -, rfl⟩⟩ <;>
            rw [ht]
          · rw [ih hu, List.flatMap_append, List.reverse_append, List.append_assoc, ← ihk K hK]
            rfl
          · exact ihk _ hK
          · exact ihk K hK
      have hrel : (release M si).events.filter isCall = M.events.filter isCall := by
        cases si <;> rfl
      rw [hrel, hloop _ M hM, callDestructors_events, teardowns_one hone, entries_of_found hd,
        List.flatMap_cons, List.reverse_append, List.filter_append, List.filter_reverse,
        isCall_callsOf, List.append_assoc]

/-- The libraries a library needs are loaded, their initialisers have run and their
finalisers have not, and they are mapped. -/
structure Due (L : State) (i : Slot) : Prop where
  loaded : i ∈ L.pool.loaded
  own : Initialised L i
  needs : ∀ j, TransGen (Needs L) (.pool i) (.pool j) → j ∈ L.pool.loaded ∧ Initialised L j ∧
    ∀ a, Inside (L.info (.pool j)) a → L.mapped a = true

/-- What holds between two steps, with `extra` references held from outside and the
libraries `t` being torn down. -/
structure Orderly (extra : So → ℕ) (t : List So) (L : State) : Prop where
  counted : Counted extra L
  low : ∀ z ∈ t, (L.info z).refcount ≤ 1
  held : ∀ z, 0 < extra z → z ∈ called L ∧ (L.info z).flags.error = false
  closed : Closed L
  rooted : Rooted [] L
  logged : Logged t L
  standing : Standing [] L
  null : (L.info .libdl).dynamic = .null

variable {extra : So → ℕ} {t : List So} {L M : State} {si : So}

theorem owe_self (extra : So → ℕ) (si : So) : 0 < owe extra si si := by
  simp [owe]

theorem Orderly.alone (h : Orderly (owe extra si) t L) (hone : (L.info si).refcount ≤ 1) :
    extra si = 0 ∧ ∀ z, ¬ Needs L z si := by
  have hc := h.counted.covered si trivial
  simp only [owe, if_true] at hc
  refine ⟨by omega, fun z hn => ?_⟩
  have hz := (Counted.needs_loaded h.counted hn).1
  have := payloads_le_refs (S := fun _ => true) hz rfl si
  rw [needs_iff] at hn
  omega

theorem Orderly.loaded (h : Orderly (owe extra si) t L) : si ∈ L.solist := by
  by_contra hno
  have := (h.counted.zero hno).1
  have := owe_self extra si
  omega

theorem Orderly.apart (h : Orderly (owe extra si) t L) (ht : ∀ z, t.count z ≤ extra z) {y z : So}
    (hn : Needs L z y) : y ∉ t := by
  intro hy
  have hc := h.counted.covered y trivial
  have hlow := h.low y hy
  have hpos := List.count_pos_iff.mpr hy
  have hcount := ht y
  have hle : extra y ≤ owe extra si y := Nat.le_add_right _ _
  have := payloads_le_refs (S := fun _ => true) (Counted.needs_loaded h.counted hn).1 rfl y
  rw [needs_iff] at hn
  omega

theorem Orderly.outside (h : Orderly (owe extra si) t L) (ht : ∀ z, t.count z ≤ extra z)
    (hone : (L.info si).refcount ≤ 1) {y : So} (hy : ReflTransGen (Needs L) si y) : y ∉ t := by
  rcases ReflTransGen.cases_tail hy with rfl | ⟨z, -, hzy⟩
  · intro hm
    have hpos := List.count_pos_iff.mpr hm
    have hzero := (h.alone hone).1
    have := ht y
    omega
  · exact h.apart ht hzy

theorem Orderly.called_of (h : Orderly extra t L) {x y : So} (hx : x ∈ called L)
    (hy : ReflTransGen (Needs L) x y) : y ∈ called L := by
  induction hy with
  | refl => exact hx
  | tail _ hyz ih => exact h.closed _ ih _ hyz

theorem Orderly.due {i : Slot} (h : Orderly (owe extra (.pool i)) t L)
    (ht : ∀ z, t.count z ≤ extra z) (hone : (L.info (.pool i)).refcount ≤ 1) : Due L i := by
  have hcall := (h.held _ (owe_self extra _)).1
  refine ⟨pool_mem_solist.mp h.loaded, h.logged.ran i (pool_mem_solist.mp h.loaded) hcall
    (h.outside ht hone .refl), fun j hj => ?_⟩
  obtain ⟨z, -, hz⟩ := TransGen.tail'_iff.mp hj
  have hload := pool_mem_solist.mp (Counted.needs_loaded h.counted hz).2
  have hclean : (L.info (.pool j)).flags.error = false :=
    Bool.eq_false_iff.mpr fun he => h.rooted.root _ (Or.inr he) z hz
  exact ⟨hload, h.logged.ran j hload (h.called_of hcall hj.to_reflTransGen) (h.apart ht hz),
    h.standing.mapped j ⟨hload, Or.inr hclean⟩⟩

theorem called_fades {E : So → Prop} (hf : FadesBut E L M) : called M = called L := by
  ext x
  show (M.info x).constructors_called = true ↔ (L.info x).constructors_called = true
  rw [(hf.info x).rest]

theorem closed_fades {E : So → Prop} (h : Closed L) (hf : FadesBut E L M) : Closed M := by
  intro x hx y hn
  rw [called_fades hf] at hx ⊢
  exact h x hx y (needs_fades hf hn)

theorem Orderly.fades {extra' : So → ℕ} {t' : List So} {E : So → Prop} (h : Orderly extra t L)
    (hf : FadesBut E L M) (hp : M.pool = L.pool) (hm : M.mapped = L.mapped)
    (hc : Counted extra' M) (hlow : ∀ z ∈ t', (M.info z).refcount ≤ 1)
    (hheld : ∀ z, 0 < extra' z → z ∈ called L ∧ (L.info z).flags.error = false)
    (hlog : ∀ i, .pool i ∉ t' → .pool i ∉ t ∧ instanceCalls M i = instanceCalls L i) :
    Orderly extra' t' M where
  counted := hc
  low := hlow
  held z hz := by
    rw [called_fades hf, (hf.info z).flags]
    exact hheld z hz
  closed := closed_fades h.closed hf
  rooted := rooted_fades h.rooted hf
  logged := by
    have hlogged : Logged t' L := ⟨fun i hl hcall ht => h.logged.ran i hl hcall (hlog i ht).1,
      fun i hn ht => h.logged.silent i hn (hlog i ht).1⟩
    refine hlogged.congr (fun i ht => (hlog i ht).2) (fun i => ?_) fun i _ _ => ?_
    · rw [hp, called_fades hf]
    · rw [(hf.info _).rest]
      exact ⟨rfl, rfl⟩
  standing := standing_fades h.standing hf hm
  null := (hf.info .libdl).null h.null

theorem Orderly.destructors (h : Orderly (owe extra si) t L) (hone : (L.info si).refcount ≤ 1) :
    Orderly (owe extra si) (si :: t) (callDestructors L si) := by
  refine h.fades (fades_callDestructors (E := fun _ => True) L si) rfl rfl
    (h.counted.destructors si) (fun z hz => ?_) h.held fun i hi => ?_
  · rcases List.mem_cons.mp hz with rfl | hz
    · exact hone
    · exact h.low z hz
  · rw [List.mem_cons, not_or] at hi
    have hcalls : ∀ e ∈ (callsOf si (finis (L.info si))).reverse, ∃ f, e = .call si f := by
      intro e he
      obtain ⟨f, -, rfl⟩ := List.mem_map.mp (List.mem_reverse.mp he)
      exact ⟨f, rfl⟩
    refine ⟨hi.2, ?_⟩
    rw [instanceCalls_append _ (callDestructors_events L si) fun e he => ?_]
    · have hnone : (callsOf si (finis (L.info si))).reverse.filter (isCallOf (.pool i)) = [] := by
        refine List.filter_eq_nil_iff.mpr fun e he => ?_
        obtain ⟨f, rfl⟩ := hcalls e he
        simpa [isCallOf] using fun e => hi.1 e.symm
      rw [hnone, List.nil_append]
    · obtain ⟨f, rfl⟩ := hcalls e he
      rfl

theorem Orderly.clear {i : ℕ} {v : DVal} {extra' : So → ℕ} (h : Orderly extra t L)
    (he : (L.info si).entries[i]? = some ⟨.needed, v⟩) (hc : Counted extra' (cleared L si i))
    (hheld : ∀ z, 0 < extra' z → z ∈ called L ∧ (L.info z).flags.error = false) :
    Orderly extra' t (cleared L si i) := by
  refine h.fades (fades_cleared (E := fun _ => True) trivial he) rfl rfl hc (fun z hz => ?_) hheld
    fun j hj => ⟨hj, instanceCalls_events rfl j⟩
  rw [cleared_refcount]
  exact h.low z hz

theorem Orderly.descend {i : ℕ} {lsi : So} (h : Orderly (owe extra si) t L)
    (he : (L.info si).entries[i]? = some ⟨.needed, .so lsi⟩) :
    Orderly (owe (owe extra si) lsi) t (cleared L si i) := by
  refine h.clear he (h.counted.clear_payload rfl he) fun z hz => ?_
  by_cases hzl : z = lsi
  · subst hzl
    have hn := needs_entry he
    exact ⟨h.closed si (h.held si (owe_self extra si)).1 z hn,
      Bool.eq_false_iff.mpr fun herr => h.rooted.root z (Or.inr herr) si hn⟩
  · simp only [owe, if_neg hzl, Nat.add_zero] at hz
    exact h.held z hz

theorem Orderly.keep (h : Orderly (owe extra si) t L) : Orderly extra t (keepLoaded L si) := by
  have hf : FadesBut (fun _ => True) L (keepLoaded L si) :=
    ⟨List.Sublist.refl _, fun x => by
      rw [keepLoaded_info]
      split_ifs with hx
      · rw [hx]
        exact faded_refcount _ _
      · exact Faded.refl _, fun x _ hx => absurd trivial hx⟩
  refine h.fades hf rfl rfl h.counted.keep (fun z hz => ?_) (fun z hz => ?_) fun i hi => ⟨hi, ?_⟩
  · have hlow := h.low z hz
    have hc := h.counted.covered si trivial
    rw [keepLoaded_info]
    split_ifs with hzs
    · subst hzs
      simp only [owe, if_true] at hc
      simp only [decrement]
      split_ifs <;> omega
    · exact hlow
  · exact h.held z (hz.trans_le (Nat.le_add_right _ _))
  · rw [instanceCalls_append (L := L) [.decrement si (L.info si).refcount] rfl
      (by simp [isFreeOf])]
    rfl

theorem release_events (L : State) (i : Slot) :
    ∃ refs, (release L (.pool i)).events = .free i refs :: L.events := ⟨_, rfl⟩

theorem Orderly.release {i : Slot} (h : Orderly (owe extra (.pool i)) (.pool i :: t) L)
    (hpay : ∀ y, (L.info (.pool i)).payloads y = 0) : Orderly extra t (release L (.pool i)) := by
  have hf : FadesBut (fun _ => True) L (Unload.release L (.pool i)) := fades_release L (.pool i)
  have hself := h.held _ (owe_self extra (.pool i))
  obtain ⟨refs, hev⟩ := release_events L i
  have hloaded : ∀ j, j ∈ (Unload.release L (.pool i)).pool.loaded ↔ j ≠ i ∧ j ∈ L.pool.loaded :=
    fun j => by rw [release_loaded, mem_free_loaded]
  have hother : ∀ j, j ≠ i → .pool j ∉ t → .pool j ∉ So.pool i :: t ∧
      instanceCalls (Unload.release L (.pool i)) j = instanceCalls L j := by
    intro j hj ht
    refine ⟨fun hm => ?_, ?_⟩
    · rcases List.mem_cons.mp hm with he | hm
      · exact hj (So.pool.inj he)
      · exact ht hm
    · refine instanceCalls_append [.free i refs] hev fun e he => ?_
      rw [List.mem_singleton.mp he]
      simpa [isFreeOf] using hj.symm
  refine ⟨h.counted.release (fun _ => h.low _ List.mem_cons_self) hpay, fun z hz => ?_,
    fun z hz => ?_, closed_fades h.closed hf, rooted_fades h.rooted hf, ⟨?_, ?_⟩,
    standing_release h.standing ⟨pool_mem_solist.mp h.loaded, Or.inr hself.2⟩,
    (hf.info .libdl).null h.null⟩
  · rw [release_info]
    split_ifs
    · exact Nat.zero_le _
    · exact h.low z (List.mem_cons_of_mem _ hz)
  · rw [called_fades hf, (hf.info z).flags]
    exact h.held z (hz.trans_le (Nat.le_add_right _ _))
  · intro j hl hc ht
    obtain ⟨hj, hl⟩ := (hloaded j).mp hl
    obtain ⟨hout, hcalls⟩ := hother j hj ht
    rw [called_fades hf] at hc
    have hran := h.logged.ran j hl hc hout
    rw [Initialised, hcalls, (hf.info _).rest]
    exact hran
  · intro j hn ht
    by_cases hj : j = i
    · subst hj
      exact instanceCalls_free hev
    · obtain ⟨hout, hcalls⟩ := hother j hj ht
      rw [hcalls]
      refine h.logged.silent j (fun hl hc => ?_) hout
      exact hn ((hloaded j).mpr ⟨hj, hl⟩) (called_fades hf ▸ hc)

/-- After `K` and among the events `es` the library was put on the free list. -/
def Freed (K : State) (es : List Event) (x : So) : Prop :=
  ∃ i refs new, x = .pool i ∧ es = new ++ K.events ∧ .free i refs ∈ new

theorem Freed.mono {K : State} {es fs : List Event} {x : So} (h : Freed K es x)
    (hs : es <:+ fs) : Freed K fs x := by
  obtain ⟨i, refs, new, hx, rfl, hf⟩ := h
  obtain ⟨more, rfl⟩ := hs
  exact ⟨i, refs, more ++ new, hx, (List.append_assoc _ _ _).symm, List.mem_append_right _ hf⟩

/-- From the events `es` to `fs` the libraries `ms` are torn down, while those in `t` are
being torn down. When a library is, no library it leads to and not the library itself has
been torn down in its present instance. -/
structure Tears (es fs : List Event) (t : List So) (ms : List (State × So)) : Prop where
  grew : es <:+ fs
  due : ∀ m ∈ ms, ∃ i, m.2 = .pool i ∧ Due m.1 i
  outside : ∀ m ∈ ms, ∀ y, ReflTransGen (Needs m.1) m.2 y → y ∉ t
  later : ∀ m ∈ ms, es <:+ m.1.events
  ended : ∀ m ∈ ms, Freed m.1 fs m.2
  ordered : ms.Pairwise fun m n =>
    ReflTransGen (Needs n.1) n.2 m.2 → Freed m.1 n.1.events m.2

theorem Tears.nil {es fs : List Event} (h : es <:+ fs) : Tears es fs t [] :=
  ⟨h, by simp, by simp, by simp, by simp, .nil⟩

theorem Tears.append {es fs gs : List Event} {ms ns : List (State × So)} (h : Tears es fs t ms)
    (k : Tears fs gs t ns) : Tears es gs t (ms ++ ns) where
  grew := h.grew.trans k.grew
  due m hm := (List.mem_append.mp hm).elim (h.due m) (k.due m)
  outside m hm := (List.mem_append.mp hm).elim (h.outside m) (k.outside m)
  later m hm := (List.mem_append.mp hm).elim (h.later m) fun hm => h.grew.trans (k.later m hm)
  ended m hm := (List.mem_append.mp hm).elim (fun hm => (h.ended m hm).mono k.grew) (k.ended m)
  ordered := List.pairwise_append.mpr ⟨h.ordered, k.ordered, fun m hm n hn _ =>
    (h.ended m hm).mono (k.later n hn)⟩

theorem Tears.grow {es fs gs : List Event} {ms : List (State × So)} (h : Tears es fs t ms)
    (hs : fs <:+ gs) : Tears es gs t ms := by
  have := h.append (Tears.nil hs)
  rwa [List.append_nil] at this

theorem Tears.teardown {i : Slot} {ms : List (State × So)} (hd : Due L i)
    (ho : ∀ y, ReflTransGen (Needs L) (.pool i) y → y ∉ t)
    (h : Tears (callDestructors L (.pool i)).events M.events (.pool i :: t) ms) :
    Tears L.events (release M (.pool i)).events t ((L, .pool i) :: ms) := by
  have hstart : L.events <:+ (callDestructors L (.pool i)).events :=
    ⟨_, (callDestructors_events L (.pool i)).symm⟩
  obtain ⟨refs, hev⟩ := release_events M i
  have hend : M.events <:+ (release M (.pool i)).events := hev ▸ List.suffix_cons _ _
  obtain ⟨new, hnew⟩ := hstart.trans h.grew
  refine ⟨(hstart.trans h.grew).trans hend, fun m hm => ?_, fun m hm y hy => ?_, fun m hm => ?_,
    fun m hm => ?_, List.pairwise_cons.mpr ⟨fun m hm hy => ?_, h.ordered⟩⟩
  · rcases List.mem_cons.mp hm with rfl | hm
    · exact ⟨i, rfl, hd⟩
    · exact h.due m hm
  · rcases List.mem_cons.mp hm with rfl | hm
    · exact ho y hy
    · exact fun hyt => h.outside m hm y hy (List.mem_cons_of_mem _ hyt)
  · rcases List.mem_cons.mp hm with rfl | hm
    · exact List.suffix_refl _
    · exact hstart.trans (h.later m hm)
  · rcases List.mem_cons.mp hm with rfl | hm
    · exact ⟨i, refs, .free i refs :: new, rfl, by rw [hev, List.cons_append, hnew],
        List.mem_cons_self⟩
    · exact (h.ended m hm).mono hend
  · exact absurd List.mem_cons_self (h.outside m hm _ hy)

theorem unload_tears (fuel : ℕ) : ∀ {extra : So → ℕ} {t : List So} {L L' : State} {si : So},
    (∀ z, t.count z ≤ extra z) → Orderly (owe extra si) t L → unloadLibrary fuel L si = .ok L' →
      Orderly extra t L' ∧ Tears L.events L'.events t (teardowns fuel L si) := by
  induction fuel with
  | zero =>
    intro extra t L L' si _ _ h
    cases h
  | succ fuel ih =>
    intro extra t L L' si ht hL h
    rcases unload_cases h with ⟨hone, rfl⟩ | ⟨hone, ds, M, hd, hM, rfl⟩
    · rw [teardowns_other hone]
      exact ⟨hL.keep, .nil ⟨[.decrement si _], rfl⟩⟩
    · have ht' : ∀ z, (si :: t).count z ≤ owe extra si z := by
        intro z
        have := ht z
        simp only [List.count_cons, owe, beq_iff_eq, eq_comm (a := si)]
        omega
      -- what the loop over the first `k` entries does
      have hloop : ∀ k M, (List.range k).foldlM (unloadNeeded (unloadLibrary fuel) si)
          (callDestructors L si) = .ok M → Orderly (owe extra si) (si :: t) M ∧
            Tears (callDestructors L si).events M.events (si :: t)
              (tornFor fuel si (callDestructors L si) k) := by
        intro k
        induction k with
        | zero =>
          intro M hM
          cases hM
          exact ⟨hL.destructors hone.le, .nil (List.suffix_refl _)⟩
        | succ k ihk =>
          intro M hM
          obtain ⟨K, hK, hlast⟩ := except_range_succ hM
          obtain ⟨hKo, hKt⟩ := ihk K hK
          rcases unloadStep_cases hK hlast with ⟨lsi, he, hu, htorn⟩ |
            ⟨htorn, rfl | ⟨n, he, rfl⟩⟩ <;> rw [htorn]
          · obtain ⟨hMo, hMt⟩ := ih ht' (hKo.descend he) hu
            exact ⟨hMo, hKt.append hMt⟩
          · exact ⟨hKo, hKt⟩
          · exact ⟨hKo.clear he (hKo.counted.clear_value he) hKo.held, hKt⟩
      rw [teardowns_one hone, entries_of_found hd]
      obtain ⟨hMo, hMt⟩ := hloop _ M hM
      cases si with
      | libdl =>
        rw [hL.null] at hd
        cases hd
      | pool i =>
        have hpay := unloadLoop_clears (L := callDestructors L (.pool i))
          (entries_of_found hd ▸ le_refl _) hM
        exact ⟨hMo.release hpay, hMt.teardown (hL.due ht hone.le) fun y => hL.outside ht hone.le⟩

theorem LinkStep.suffix {w : World} {old : List So} (hs : LinkStep w old L M) :
    L.events <:+ M.events := by
  cases hs with
  | attempt ha => rw [(loadLibrary_none ha).events]
  | load _ ha => rw [(loadLibrary_some ha).events]
  | extract hf hx => exact List.suffix_refl _
  | need hf he hm hne ht => exact List.suffix_refl _
  | finish hf hd hr => rw [finishLink_events]
  | fail hf => exact List.suffix_refl _
  | unmap hm hn he => exact List.suffix_cons _ _

theorem LinkRun.suffix {w : World} {old : List So} (hs : LinkRun w old L M) :
    L.events <:+ M.events := by
  induction hs with
  | refl => exact List.suffix_refl _
  | tail _ hs ih => exact ih.trans (LinkStep.suffix hs)

theorem Orderly.search {w : World} {fuel : ℕ} {lib : Name} {r : Option So} {host : Option ℕ}
    (h : Orderly extra [] L) (hk : Strict w) (hl : (L.info .libdl).Live)
    (hf : findLibrary w fuel L lib = some (M, r, host)) : Orderly extra [] M := by
  have hrun := (findLibrary_found w fuel _ _ _ _ _ hl hf).run
  have hstack := (findLibrary_stack w fuel _ _ _ _ _ [] hl (fun x hx => (nomatch hx)) hf).run
  refine ⟨LinkRun.counted h.counted hrun, fun z hz => (nomatch hz), fun z hz => ?_,
    search_closed hrun h.counted h.closed, StackRun.rooted (p := (L, [])) h.counted h.rooted hstack,
    search_logged hrun h.logged, StackRun.standing (p := (L, [])) hk h.standing hstack, ?_⟩
  · have hz' : z ∈ L.solist := by
      by_contra hno
      have := (h.counted.zero hno).1
      omega
    obtain ⟨hc, he⟩ := h.held z hz
    refine ⟨(search_called hrun (hrun.grown.mem hz')).mpr ⟨hz', hc⟩, ?_⟩
    rw [(search_kept hrun hz').flags]
    exact he
  · rw [(search_kept hrun (libdl_mem_solist L)).dynamic]
    exact h.null

theorem Orderly.construct {es : List (DepthFirst.Mark So)} (h : Orderly extra [] L)
    (hm : si ∈ L.solist) (hr : Ran L [si] es M) : Orderly extra [] M := by
  have hload : ∀ x, ReflTransGen (Needs L) si x → x ∈ L.solist := by
    intro x hx
    rcases ReflTransGen.cases_tail hx with rfl | ⟨z, -, hz⟩
    · exact hm
    · exact (Counted.needs_loaded h.counted hz).2
  refine ⟨counted_constructed h.counted hr.same, fun z hz => (nomatch hz), fun z hz => ?_,
    ran_closed hr h.closed, rooted_constructed h.rooted hr.same, ran_logged hr h.logged hload,
    standing_same h.standing hr.same.pool hr.same.mapped fun x => ?_, ?_⟩
  · rw [hr.same.info z]
    exact ⟨hr.visits.mono (h.held z hz).1, (h.held z hz).2⟩
  · rw [hr.same.info x]
    exact ⟨rfl, rfl, rfl⟩
  · rw [hr.same.info .libdl]
    exact h.null

theorem Orderly.take (h : Orderly extra [] L) (hm : si ∈ L.solist) (hc : si ∈ called L)
    (he : (L.info si).flags.error = false) : Orderly (owe extra si) [] (addRef L si) := by
  have hinfo : ∀ x, ∃ n, (addRef L si).info x = { L.info x with refcount := n } := by
    intro x
    rw [addRef_info]
    split_ifs with hx
    · exact ⟨_, by rw [hx]⟩
    · exact ⟨_, rfl⟩
  have hcalled : called (addRef L si) = called L := by
    ext x
    obtain ⟨n, hn⟩ := hinfo x
    show ((addRef L si).info x).constructors_called = true ↔
      (L.info x).constructors_called = true
    rw [hn]
  refine ⟨counted_addRef h.counted hm, fun z hz => (nomatch hz), fun z hz => ?_,
    fun x hx y hn => ?_, rooted_addRef h.rooted, ?_,
    standing_same h.standing rfl rfl fun x => ?_, ?_⟩
  · have hflags : ((addRef L si).info z).flags = (L.info z).flags := by
      obtain ⟨n, hn⟩ := hinfo z
      rw [hn]
    rw [hcalled, hflags]
    by_cases hzs : z = si
    · exact hzs ▸ ⟨hc, he⟩
    · simp only [owe, if_neg hzs, Nat.add_zero] at hz
      exact h.held z hz
  · rw [hcalled] at hx ⊢
    rw [needs_iff, addRef_payloads, ← needs_iff] at hn
    exact h.closed x hx y hn
  · refine h.logged.congr (fun i _ => instanceCalls_events rfl i) (fun i => ?_) fun i _ _ => ?_
    · rw [hcalled]
      rfl
    · obtain ⟨n, hn⟩ := hinfo (.pool i)
      rw [hn]
      exact ⟨rfl, rfl⟩
  · obtain ⟨n, hn⟩ := hinfo x
    rw [hn]
    exact ⟨rfl, rfl, rfl⟩
  · obtain ⟨n, hn⟩ := hinfo .libdl
    rw [hn]
    exact h.null

theorem dlopen_orderly {w : World} {fuel : ℕ} {name : Option Name} {r : Option Handle}
    (h : Orderly extra [] L) (hk : Strict w) (hl : (L.info .libdl).Live)
    (ho : bionicDlopen w fuel L name = some (M, r)) :
    Orderly (taken extra r) [] M ∧ L.events <:+ M.events := by
  rcases dlopen_cases ho with ⟨rfl, rfl⟩ | ⟨name, host, hf, rfl⟩ |
    ⟨name, K, N, si, host, hf, hN, rfl, rfl⟩
  · exact ⟨h, List.suffix_refl _⟩
  · have hM := h.search hk hl hf
    refine ⟨?_, LinkRun.suffix (findLibrary_found w fuel _ _ _ _ _ hl hf).run⟩
    cases host <;> exact hM
  · have hfound := findLibrary_found w fuel _ _ _ _ _ hl hf
    have hmem := hfound.mem si rfl
    have hclean := ((findLibrary_stack w fuel _ _ _ _ _ [] hl (fun x hx => (nomatch hx)) hf).result
      si rfl).2
    obtain ⟨es, hran⟩ := construct_ran fuel hN
    have hNo := (h.search hk hl hf).construct hmem hran
    refine ⟨hNo.take (hran.same.solist ▸ hmem) (hran.visits.marked si List.mem_cons_self) ?_,
      (LinkRun.suffix hfound.run).trans ⟨_, hran.events.symm⟩⟩
    rw [hran.same.info si]
    exact hclean

def closes (fuel : ℕ) (L : State) : Handle → List (State × So)
  | .so si => teardowns fuel L si
  | .host _ => []

/-- The runs of balanced calls that all return and whose opens meet a condition, with the
teardowns so far. -/
inductive History (C : World → State → Option Name → Prop) : Sys → List (State × So) → Prop where
  | initial : History C initialSys []
  | dlopen {s : Sys} {ms : List (State × So)} {w : World} {fuel : ℕ} {filename : Option Name}
      {L : State} {r : Option Handle} (h : History C s ms) (hk : Kernel w)
      (hp : C w s.linker filename) (ho : bionicDlopen w fuel s.linker filename = some (L, r)) :
      History C ⟨L, opened s.opens r⟩ ms
  | dlclose {s : Sys} {ms : List (State × So)} {foreign : ℕ → Option ℕ} {fuel : ℕ} {hd : Handle}
      {L : State} (h : History C s ms) (hb : 0 < s.opens hd)
      (hc : bionicDlclose foreign fuel s.linker hd = .ok L) :
      History C ⟨L, closed s.opens hd⟩ (ms ++ closes fuel s.linker hd)

theorem history_balanced {C : World → State → Option Name → Prop} {s : Sys}
    {ms : List (State × So)} (h : History C s ms) : BalancedRun s := by
  induction h with
  | initial => exact .initial
  | @dlopen s ms w fuel filename L r h hk hp ho ih =>
    exact .step ih (a := .dlopen w filename) trivial (.dlopen ho)
  | @dlclose s ms foreign fuel hd L h hb hc ih =>
    exact .step ih (a := .dlclose foreign hd) hb (.dlclose hc)

theorem orderly_initial : Orderly (held initialSys.opens) [] initialSys.linker where
  counted := counted_initial
  low z hz := by cases hz
  held z hz := by cases hz
  closed x _ y hn := by cases x <;> cases hn
  rooted := balanced_rooted .initial
  logged := ⟨fun i hi => (nomatch hi), fun i _ _ => rfl⟩
  standing := ⟨fun i hi => (nomatch hi.1), fun i j hi => (nomatch hi.1)⟩
  null := rfl

theorem history_tears {s : Sys} {ms : List (State × So)} (h : History PrelinksFree s ms) :
    Orderly (held s.opens) [] s.linker ∧ Tears [] s.linker.events [] ms := by
  induction h with
  | initial => exact ⟨orderly_initial, .nil (List.suffix_refl _)⟩
  | dlopen h hk hp ho ih =>
    rw [← dlopen_strict hk hp] at ho
    obtain ⟨hL, hgrew⟩ := dlopen_orderly ih.1 (strictKernel_strict _)
      (reachable_tidy (history_balanced h)).live ho
    rw [held_taken]
    exact ⟨hL, ih.2.grow hgrew⟩
  | @dlclose s ms foreign fuel hd L h hb hc ih =>
    cases hd with
    | so si =>
      have hstart := ih.1
      rw [← held_closed hb] at hstart
      obtain ⟨hL, htorn⟩ := unload_tears fuel (fun z => Nat.zero_le _) hstart hc
      exact ⟨hL, ih.2.append htorn⟩
    | host n =>
      obtain ⟨rfl, -⟩ := dlclose_host hc
      rw [(held_host _ n).2]
      exact ⟨ih.1, ih.2.append (.nil (List.suffix_refl _))⟩

/-- What a run says about the finalisers: each time they are due; between two teardowns, if
the later library is the earlier one or leads to it, the earlier one was put on the free
list; and the calls of a close are the finalisers of what it tears down. -/
structure Finalised (s : Sys) (ms : List (State × So)) : Prop where
  due : ∀ m ∈ ms, ∃ i, m.2 = .pool i ∧ Due m.1 i
  ordered : ms.Pairwise fun m n =>
    ReflTransGen (Needs n.1) n.2 m.2 → Freed m.1 n.1.events m.2
  calls : ∀ {fuel : ℕ} {si : So} {L : State}, unloadLibrary fuel s.linker si = .ok L →
    L.events.filter isCall = ((teardowns fuel s.linker si).flatMap fun m =>
      callsOf m.2 (finis (m.1.info m.2))).reverse ++ s.linker.events.filter isCall

theorem finalisers_run {s : Sys} {ms : List (State × So)} (h : History PrelinksFree s ms) :
    Finalised s ms where
  due := (history_tears h).2.due
  ordered := (history_tears h).2.ordered
  calls hc := unload_calls _ hc

def finiWorld : World := fixedKernel (sampleWorld fun name =>
  if name = ['a'] then
    some (sampleFile [(.needed, 'b'.toNat), (.init, 0x10), (.fini, 0x20)])
  else if name = ['b'] then some (sampleFile [(.init, 0x10), (.fini, 0x20)]) else none)

theorem pair_finalised : ∃ s ms, History PrelinksFree s ms ∧
    ms.map Prod.snd = [.pool firstSlot, .pool secondSlot] ∧
    s.linker.events = [.free firstSlot 0, .free secondSlot 0, .call (.pool secondSlot) 0x30020,
      .call (.pool firstSlot) 0x20020, .call (.pool firstSlot) 0x20010,
      .call (.pool secondSlot) 0x30010] ∧ Finalised s ms := by
  have h : (bionicDlopen finiWorld 3 initial (some ['a'])).bind (fun p =>
      (unloadLibrary 3 p.1 (.pool firstSlot)).toOption.map fun M =>
        (p.2, M.events, (teardowns 3 p.1 (.pool firstSlot)).map Prod.snd)) =
      some (some (.so (.pool firstSlot)), [.free firstSlot 0, .free secondSlot 0,
        .call (.pool secondSlot) 0x30020, .call (.pool firstSlot) 0x20020,
        .call (.pool firstSlot) 0x20010, .call (.pool secondSlot) 0x30010],
        [.pool firstSlot, .pool secondSlot]) := by decide +kernel
  obtain ⟨⟨L, r⟩, ho, he⟩ := Option.bind_eq_some_iff.mp h
  obtain ⟨M, hM, he⟩ := Option.map_eq_some_iff.mp he
  simp only [Prod.mk.injEq] at he
  obtain ⟨rfl, hev, hms⟩ := he
  have hclose : bionicDlclose (fun _ => none) 3 L (.so (.pool firstSlot)) = .ok M :=
    except_of_toOption hM
  have hplain : ∀ n lib f, finiWorld.openLibrary n lib = some f → f.prelink = 0 := by
    intro n lib f hf
    simp only [finiWorld, fixedKernel, sampleWorld] at hf
    split_ifs at hf <;> cases hf <;> rfl
  have hrun := History.dlclose (History.dlopen .initial (fixedKernel_kernel _)
    (prelinksFree_plain hplain) ho) (by simp [opened]) hclose
  exact ⟨_, _, hrun, hms, hev, finalisers_run hrun⟩

/-- The library `a` needs `p`, and `q` asks for the range of `p`. -/
def clashWorld : World := fixedKernel (sampleWorld fun name =>
  if name = ['a'] then some (sampleFile [(.needed, 'p'.toNat), (.fini, 0x20)])
  else if name = ['p'] ∨ name = ['q'] then some { sampleFile [] with prelink := 0x40000000 }
  else none)

/-- Opening and closing `q` takes the memory of `p` away, before the finaliser of `a` runs. -/
theorem clash_unmapped : ∃ s ms, History (fun _ _ _ => True) s ms ∧
    .call (.pool firstSlot) 0x20020 ∈ s.linker.events ∧ ¬ Finalised s ms := by
  have h : (bionicDlopen clashWorld 3 initial (some ['a'])).bind (fun p =>
      (bionicDlopen clashWorld 3 p.1 (some ['q'])).bind fun q =>
        (bionicDlclose (fun _ => none) 3 q.1 (.so (.pool ⟨2, by decide⟩))).toOption.bind fun L =>
          (bionicDlclose (fun _ => none) 3 L (.so (.pool firstSlot))).toOption.map fun M =>
            ([p.2, q.2], [(L.info (.pool firstSlot)).refcount,
              (L.info (.pool firstSlot)).payloads (.pool secondSlot),
              (L.info (.pool secondSlot)).base, (L.info (.pool secondSlot)).size],
              L.mapped 0x40000000, decide (.call (.pool firstSlot) 0x20020 ∈ M.events))) =
      some ([some (.so (.pool firstSlot)), some (.so (.pool ⟨2, by decide⟩))],
        [1, 1, 0x40000000, 0x1000], false, true) := by decide +kernel
  obtain ⟨⟨K, r⟩, ha, h⟩ := Option.bind_eq_some_iff.mp h
  obtain ⟨⟨N, r'⟩, hq, h⟩ := Option.bind_eq_some_iff.mp h
  obtain ⟨L, hL, h⟩ := Option.bind_eq_some_iff.mp h
  obtain ⟨M, hM, he⟩ := Option.map_eq_some_iff.mp h
  simp only [Prod.mk.injEq, List.cons.injEq, and_true, decide_eq_true_eq] at he
  obtain ⟨⟨rfl, rfl⟩, ⟨hone, hpay, hbase, hsize⟩, hun, hcall⟩ := he
  have hrun := History.dlclose (History.dlclose (History.dlopen (C := fun _ _ _ => True)
    (History.dlopen .initial (fixedKernel_kernel _) trivial ha) (fixedKernel_kernel _) trivial hq)
    (by simp [opened]) (except_of_toOption hL)) (by simp [opened, closed, firstSlot])
    (except_of_toOption hM)
  refine ⟨_, _, hrun, hcall, fun hf => ?_⟩
  have hm : (L, So.pool firstSlot) ∈ closes 3 L (.so (.pool firstSlot)) := by
    rw [closes, teardowns_one hone]
    exact List.mem_cons_self
  obtain ⟨i, hi, hdue⟩ := hf.due _ (List.mem_append_right _ hm)
  cases hi
  have hneeds : Needs L (.pool firstSlot) (.pool secondSlot) := needs_iff.mpr (by omega)
  have hin : Inside (L.info (.pool secondSlot)) 0x40000000 := by
    rw [Inside, hbase, hsize]
    decide
  have hmapped := (hdue.needs secondSlot (.single hneeds)).2.2 _ hin
  rw [hun] at hmapped
  cases hmapped

end Bionic.Finalisers
