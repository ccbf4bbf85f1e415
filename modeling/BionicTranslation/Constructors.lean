import BionicTranslation.FindSound
import BionicTranslation.DepthFirst

/-!
# Running constructors

`apkenv_call_constructors_recursive` is a depth-first traversal of the graph of
DT_NEEDED payloads: entering a library runs its preinit array, leaving it runs
DT_INIT and DT_INIT_ARRAY. At each level one more library is marked, so the depth
is bounded by the number of soinfos.
-/

set_option autoImplicit false

namespace Bionic.Constructors
open Bionic.Slots Bionic.Records Bionic.Linker Bionic.FoldRules Bionic.LinkFrame Bionic.CallFrame
open Bionic.FindSound Bionic.DepthFirst Relation

def payload : Dyn → Option So
  | ⟨.needed, .so y⟩ => some y
  | _ => none

def needed (s : Soinfo) : List So := s.entries.filterMap payload

def Needs (L : State) : So → So → Prop := Leads fun x => needed (L.info x)

def called (L : State) : Set So := {x | (L.info x).constructors_called = true}

/-- The words of an array in ascending order, without 0 and -1. -/
def arrayCalls (s : Soinfo) (array count : ℕ) : List ℕ :=
  (List.range (intCount count)).filterMap fun k =>
    let f := s.image.word (s.offset (array + 8 * k))
    if f = 0 ∨ f = 0xffffffffffffffff then none else some f

def preinits (s : Soinfo) : List ℕ := arrayCalls s s.preinit_array s.preinit_array_count

def inits (s : Soinfo) : List ℕ :=
  (if s.init_func ≠ 0 then [s.init_func] else []) ++
    if s.init_array ≠ 0 then arrayCalls s s.init_array s.init_array_count else []

theorem arrayFuncs_eq (s : Soinfo) (array count : ℕ) :
    arrayFuncs s array count = arrayCalls s array count := by
  rw [arrayFuncs, ← List.filterMap_eq_filter, List.filterMap_map, arrayCalls]
  apply List.filterMap_congr
  intro k _
  by_cases h : s.image.word (s.offset (array + 8 * k)) = 0 <;>
    by_cases h' : s.image.word (s.offset (array + 8 * k)) = 0xffffffffffffffff <;>
      simp [Option.guard, h, h']

def callsOf (x : So) (fs : List ℕ) : List Event := fs.map (.call x)

def calls (L : State) : Mark So → List Event
  | .enter x => callsOf x (preinits (L.info x))
  | .leave x => callsOf x (inits (L.info x))

instance : Fintype So :=
  Fintype.ofEquiv (Option Slot)
    { toFun := fun o => o.elim .libdl .pool
      invFun := fun x => match x with
        | .libdl => none
        | .pool i => some i
      left_inv := fun o => by cases o <;> rfl
      right_inv := fun x => by cases x <;> rfl }

theorem card_so : Fintype.card So = soMax + 1 := by
  rw [Fintype.ofEquiv_card, Fintype.card_option, Fintype.card_fin]

def waiting (L : State) : ℕ :=
  (Finset.univ.filter fun x => (L.info x).constructors_called = false).card

theorem waiting_le (L : State) : waiting L ≤ soMax + 1 := card_so ▸ Finset.card_le_univ _

theorem waiting_mono {L M : State} (h : called L ⊆ called M) : waiting M ≤ waiting L := by
  refine Finset.card_le_card fun x hx => ?_
  rw [Finset.mem_filter] at hx ⊢
  refine ⟨Finset.mem_univ _, Bool.eq_false_iff.mpr fun hc => ?_⟩
  exact Bool.false_ne_true (hx.2.symm.trans (h hc))

def entered (L : State) (si : So) : State :=
  let M := L.modify si fun s => { s with constructors_called := true }
  callAll M si (arrayFuncs (M.info si) (M.info si).preinit_array (M.info si).preinit_array_count)

theorem constructed_entered (L : State) (si : So) : Constructed L (entered L si) :=
  (constructed_mark L si).trans (constructed_callAll _ si _)

theorem called_entered (L : State) (si : So) : called (entered L si) = insert si (called L) := by
  ext x
  by_cases hx : x = si
  · subst hx
    simp [called, entered, callAll, modify_same]
  · simp [called, entered, callAll, modify_other _ _ hx, hx]

theorem waiting_entered {L : State} {si : So} (h : (L.info si).constructors_called = false) :
    waiting (entered L si) < waiting L := by
  refine Finset.card_lt_card ⟨fun x hx => ?_, fun hsub => ?_⟩
  · rw [Finset.mem_filter] at hx ⊢
    refine ⟨hx.1, Bool.eq_false_iff.mpr fun hc => ?_⟩
    have hM : x ∈ called (entered L si) := called_entered L si ▸ Set.mem_insert_of_mem _ hc
    exact Bool.false_ne_true (hx.2.symm.trans hM)
  · have hsi := hsub (Finset.mem_filter.mpr ⟨Finset.mem_univ si, h⟩)
    have hM : si ∈ called (entered L si) := called_entered L si ▸ Set.mem_insert _ _
    exact Bool.false_ne_true ((Finset.mem_filter.mp hsi).2.symm.trans hM)

section same
variable {L M : State} (h : Constructed L M) (x : So)
include h

theorem constructed_entries : (M.info x).entries = (L.info x).entries := by
  rw [h.info x]
  rfl

theorem constructed_preinits : preinits (M.info x) = preinits (L.info x) := by
  rw [h.info x]
  rfl

theorem constructed_inits : inits (M.info x) = inits (L.info x) := by
  rw [h.info x]
  rfl

theorem constructed_needed : needed (M.info x) = needed (L.info x) := by
  rw [needed, needed, constructed_entries h]

omit x in
theorem constructed_calls : calls M = calls L := by
  funext e
  cases e with
  | enter x => rw [calls, calls, constructed_preinits h]
  | leave x => rw [calls, calls, constructed_inits h]

end same

/-- From `L` to `M` the libraries `vs` were visited one after the other, with the graph
and the functions of `L`. -/
structure Ran (L : State) (vs : List So) (es : List (Mark So)) (M : State) : Prop where
  same : Constructed L M
  visits : Visits (fun x => needed (L.info x)) (called L) vs es (called M)
  events : M.events = (es.flatMap (calls L)).reverse ++ L.events

theorem Ran.refl (L : State) : Ran L [] [] L := ⟨.refl L, .nil _, rfl⟩

theorem Ran.trans {L M N : State} {vs ws : List So} {es fs : List (Mark So)}
    (h : Ran L vs es M) (k : Ran M ws fs N) : Ran L (vs ++ ws) (es ++ fs) N where
  same := h.same.trans k.same
  visits := by
    have hv := k.visits
    simp only [constructed_needed h.same] at hv
    exact h.visits.append hv
  events := by
    rw [k.events, h.events, constructed_calls h.same, List.flatMap_append, List.reverse_append,
      List.append_assoc]

def payloadAt (s : Soinfo) (i : ℕ) : Option So := s.entries[i]?.bind payload

theorem constructNeeded_eq (construct : State → So → Option State) (si : So) (L : State) (i : ℕ) :
    constructNeeded construct si L i =
      match payloadAt (L.info si) i with
      | some y => construct L y
      | none => some L := by
  unfold constructNeeded payloadAt
  cases he : (L.info si).entries[i]? with
  | none => rfl
  | some d =>
    obtain ⟨tag, v⟩ := d
    cases v with
    | val n => cases tag <;> rfl
    | so y => cases tag <;> rfl

theorem filterMap_payloadAt (s : Soinfo) :
    (List.range s.entries.length).filterMap (payloadAt s) = needed s := by
  have hlist : ∀ ds : List Dyn,
      (List.range ds.length).filterMap (fun i => ds[i]?.bind payload) = ds.filterMap payload := by
    intro ds
    induction ds with
    | nil => rfl
    | cons d ds ih =>
      rw [List.length_cons, List.range_succ_eq_map, List.filterMap_cons, List.filterMap_map]
      cases hd : payload d <;> simp [hd, ← ih]
  exact hlist s.entries

theorem loop_ran {construct : State → So → Option State} {si : So}
    (hrec : ∀ {K K' : State} {x : So}, construct K x = some K' → ∃ es, Ran K [x] es K')
    (is : List ℕ) : ∀ {K K' : State}, is.foldlM (constructNeeded construct si) K = some K' →
      ∃ es, Ran K (is.filterMap (payloadAt (K.info si))) es K' := by
  induction is with
  | nil =>
    intro K K' h
    cases h
    exact ⟨[], .refl K⟩
  | cons i is ih =>
    intro K K' h
    rw [List.foldlM_cons] at h
    obtain ⟨M, hM, hK'⟩ := Option.bind_eq_some_iff.mp h
    have hhead : ∃ es, Ran K (payloadAt (K.info si) i).toList es M := by
      rw [constructNeeded_eq] at hM
      cases hp : payloadAt (K.info si) i with
      | none =>
        simp only [hp] at hM
        cases hM
        exact ⟨[], .refl K⟩
      | some y =>
        simp only [hp] at hM
        exact hrec hM
    obtain ⟨es, hran⟩ := hhead
    obtain ⟨fs, hrest⟩ := ih hK'
    have hpay : payloadAt (M.info si) = payloadAt (K.info si) := by
      funext j
      rw [payloadAt, payloadAt, constructed_entries hran.same]
    rw [hpay] at hrest
    have hcons : (i :: is).filterMap (payloadAt (K.info si)) =
        (payloadAt (K.info si) i).toList ++ is.filterMap (payloadAt (K.info si)) := by
      cases hi : payloadAt (K.info si) i <;> simp [hi]
    rw [hcons]
    exact ⟨es ++ fs, hran.trans hrest⟩

theorem callAll_events (L : State) (x : So) (fs : List ℕ) :
    (callAll L x fs).events = (callsOf x fs).reverse ++ L.events := by
  rw [callAll, callsOf, ← List.map_reverse]
  rfl

def left (L : State) (si : So) : State :=
  let s := L.info si
  callAll (callAll L si (if s.init_func ≠ 0 then [s.init_func] else [])) si
    (if s.init_array ≠ 0 then arrayFuncs s s.init_array s.init_array_count else [])

theorem left_events (L : State) (si : So) :
    (left L si).events = (callsOf si (inits (L.info si))).reverse ++ L.events := by
  rw [left, callAll_events, callAll_events, ← List.append_assoc, ← List.reverse_append, inits,
    arrayFuncs_eq, callsOf, callsOf, callsOf, List.map_append]

theorem callConstructors_succ (fuel : ℕ) (L : State) (si : So) :
    callConstructorsRecursive (fuel + 1) L si =
      if (L.info si).constructors_called then some L else
        ((List.range ((entered L si).info si).entries.length).foldlM
          (constructNeeded (callConstructorsRecursive fuel) si) (entered L si)).bind
            fun M => some (left M si) := rfl

theorem construct_ran (fuel : ℕ) : ∀ {L L' : State} {si : So},
    callConstructorsRecursive fuel L si = some L' → ∃ es, Ran L [si] es L' := by
  induction fuel with
  | zero =>
    intro L L' si h
    cases h
  | succ fuel ih =>
    intro L L' si h
    rw [callConstructors_succ] at h
    cases hc : (L.info si).constructors_called with
    | true =>
      rw [hc] at h
      cases h
      exact ⟨[], .refl L, .skip hc (.nil _), rfl⟩
    | false =>
      rw [hc] at h
      obtain ⟨M, hM, hend⟩ := Option.bind_eq_some_iff.mp h
      cases hend
      have hE := constructed_entered L si
      obtain ⟨es, hran⟩ := loop_ran ih _ hM
      have hv := hran.visits
      rw [filterMap_payloadAt, called_entered] at hv
      simp only [constructed_needed hE] at hv
      have hn : si ∉ called L := fun h => Bool.false_ne_true (hc.symm.trans h)
      refine ⟨.enter si :: es ++ [.leave si], ?_, ?_, ?_⟩
      · exact (hE.trans hran.same).trans
          ((constructed_callAll M si _).trans (constructed_callAll _ si _))
      · exact .enter hn hv (.nil _)
      · have hcalls : (Mark.enter si :: es ++ [Mark.leave si]).flatMap (calls L) =
            callsOf si (preinits (L.info si)) ++ es.flatMap (calls L) ++
              callsOf si (inits (L.info si)) := by simp [calls]
        have hpre := constructed_preinits (constructed_mark L si) si
        rw [left_events, hran.events, constructed_calls hE, constructed_inits hran.same,
          constructed_inits hE, entered, callAll_events, arrayFuncs_eq, ← preinits, hcalls, hpre]
        simp only [List.reverse_append, List.append_assoc]
        rfl

/-- With more fuel than soinfos waiting the traversal ends. -/
theorem construct_ends (fuel : ℕ) : ∀ {L : State} {si : So}, waiting L < fuel →
    callConstructorsRecursive fuel L si ≠ none := by
  induction fuel with
  | zero => exact fun h => absurd h (Nat.not_lt_zero _)
  | succ fuel ih =>
    intro L si hw h
    rw [callConstructors_succ] at h
    cases hc : (L.info si).constructors_called with
    | true =>
      rw [hc] at h
      cases h
    | false =>
      rw [hc] at h
      -- some step of the loop is the one that has no result
      have hloop : (List.range ((entered L si).info si).entries.length).foldlM
          (constructNeeded (callConstructorsRecursive fuel) si) (entered L si) = none := by
        cases hM : (List.range ((entered L si).info si).entries.length).foldlM
            (constructNeeded (callConstructorsRecursive fuel) si) (entered L si) with
        | none => rfl
        | some M =>
          rw [hM] at h
          cases h
      obtain ⟨k, -, K, hK, hnone⟩ := option_none_iff.mp hloop
      obtain ⟨es, hran⟩ := loop_ran (construct_ran fuel) _ hK
      have hless := waiting_entered hc
      have hle := waiting_mono hran.visits.mono
      rw [constructNeeded_eq] at hnone
      cases hp : payloadAt (K.info si) k with
      | none =>
        simp only [hp] at hnone
        cases hnone
      | some y =>
        simp only [hp] at hnone
        exact ih (by omega) hnone

def isCallOf (x : So) : Event → Bool
  | .call y _ => y = x
  | _ => false

theorem calls_node {L : State} {e : Mark So} {y : So} {f : ℕ} (h : .call y f ∈ calls L e) :
    y = e.node := by
  cases e <;>
  · obtain ⟨g, -, hg⟩ := List.mem_map.mp h
    cases hg
    rfl

theorem calls_call {L : State} {e : Mark So} {ev : Event} (h : ev ∈ calls L e) :
    ∃ f, ev = .call e.node f := by
  cases e <;>
  · obtain ⟨g, -, hg⟩ := List.mem_map.mp h
    exact ⟨g, hg.symm⟩

theorem filter_calls (L : State) (x : So) (es : List (Mark So)) :
    (es.flatMap (calls L)).filter (isCallOf x) =
      (es.filter fun e => e.node = x).flatMap (calls L) := by
  induction es with
  | nil => rfl
  | cons e es ih =>
    rw [List.flatMap_cons, List.filter_append, ih, List.filter_cons]
    by_cases hx : e.node = x
    · have hall : (calls L e).filter (isCallOf x) = calls L e := by
        refine List.filter_eq_self.mpr fun ev hev => ?_
        obtain ⟨f, rfl⟩ := calls_call hev
        simpa [isCallOf] using hx
      rw [hall, if_pos (by simpa using hx), List.flatMap_cons]
    · have hnone : (calls L e).filter (isCallOf x) = [] := by
        refine List.filter_eq_nil_iff.mpr fun ev hev => ?_
        obtain ⟨f, rfl⟩ := calls_call hev
        simpa [isCallOf] using hx
      rw [hnone, if_neg (by simpa using hx), List.nil_append]

/-- `run` is what a call for `root` does to a state, in the order of time: the libraries
that can be reached and were not constructed run their functions, each its own list
once. Without cycles, DT_INIT and DT_INIT_ARRAY of a library run after everything the
libraries it leads to run. -/
structure Initialises (L : State) (root : So) (run : List Event) : Prop where
  only : ∀ e ∈ run, ∃ x f, e = .call x f
  once : ∀ x, ReflTransGen (Needs L) root x ∧ x ∉ called L →
    run.filter (isCallOf x) = callsOf x (preinits (L.info x) ++ inits (L.info x))
  none : ∀ x, ¬ (ReflTransGen (Needs L) root x ∧ x ∉ called L) → run.filter (isCallOf x) = []
  after : (∀ x, ¬ TransGen (Needs L) x x) → ∀ x, ReflTransGen (Needs L) root x → x ∉ called L →
    ∃ before rest, run = before ++ callsOf x (inits (L.info x)) ++ rest ∧
      ∀ y, TransGen (Needs L) x y → ∀ f, .call y f ∉ rest

theorem ran_new {L L' : State} {root : So} {es : List (Mark So)} (h : Ran L [root] es L')
    (hclosed : ∀ x ∈ called L, ∀ y, Needs L x y → y ∈ called L) (x : So) :
    x ∈ called L' ∧ x ∉ called L ↔ ReflTransGen (Needs L) root x ∧ x ∉ called L := by
  rw [h.visits.mem_iff hclosed]
  refine and_congr_left fun hn => ?_
  rw [or_iff_right hn]
  simp [Needs]

theorem ran_initialises {L L' : State} {root : So} {es : List (Mark So)}
    (h : Ran L [root] es L') (hclosed : ∀ x ∈ called L, ∀ y, Needs L x y → y ∈ called L) :
    Initialises L root (es.flatMap (calls L)) where
  only e he := by
    obtain ⟨m, -, hm⟩ := List.mem_flatMap.mp he
    obtain ⟨f, hf⟩ := calls_call hm
    exact ⟨m.node, f, hf⟩
  once x hx := by
    rw [filter_calls, (h.visits.filter_node x).1 ((ran_new h hclosed x).mpr hx)]
    simp [calls, callsOf]
  none x hx := by
    rw [filter_calls, (h.visits.filter_node x).2 (mt (ran_new h hclosed x).mp hx)]
    rfl
  after hac x hx hn := by
    have hmem : Mark.leave x ∈ es := by
      have hleave : Mark.leave x ∈ es.filter fun e => e.node = x := by
        rw [(h.visits.filter_node x).1 ((ran_new h hclosed x).mpr ⟨hx, hn⟩)]
        simp
      exact (List.mem_filter.mp hleave).1
    obtain ⟨before, rest, hes, hrest⟩ := h.visits.left_after hac hclosed hmem
    refine ⟨before.flatMap (calls L), rest.flatMap (calls L), ?_, fun y hy f hf => ?_⟩
    · rw [hes]
      simp [calls]
    · obtain ⟨e, he, hf⟩ := List.mem_flatMap.mp hf
      rw [calls_node hf] at hy
      exact (hrest e he).2 hy

/-- From every set of constructed libraries that is closed under DT_NEEDED. -/
theorem constructors_run {L : State} (root : So)
    (hclosed : ∀ x ∈ called L, ∀ y, Needs L x y → y ∈ called L) {fuel : ℕ}
    (hfuel : soMax + 2 ≤ fuel) :
    ∃ L' run, callConstructorsRecursive fuel L root = some L' ∧
      L'.events = run.reverse ++ L.events ∧ Initialises L root run := by
  have hfuel : waiting L < fuel := (waiting_le L).trans_lt hfuel
  have hends : callConstructorsRecursive fuel L root ≠ none := construct_ends fuel hfuel
  obtain ⟨L', hL'⟩ := Option.ne_none_iff_exists'.mp hends
  obtain ⟨es, hran⟩ := construct_ran fuel hL'
  exact ⟨L', _, hL', hran.events, ran_initialises hran hclosed⟩

def gappedArray : Image where
  word := fun o => ([(0x1000, 0x11), (0x1008, 0), (0x1010, 0xffffffffffffffff),
    (0x1018, 0x12)].lookup o).getD 0

def sharedNeed : State :=
  ((initial.set (.pool firstSlot)
    { dynamic := .found [⟨.needed, .so (.pool secondSlot)⟩, ⟨.needed, .so .libdl⟩,
        ⟨.needed, .so (.pool secondSlot)⟩]
      image := gappedArray
      preinit_array := 0x1000
      preinit_array_count := 4
      init_func := 0x10 }).set (.pool secondSlot)
    { dynamic := .found []
      image := gappedArray
      init_array := 0x1000
      init_array_count := 4
      init_func := 0x20 }).set
    .libdl { libdlInfo with constructors_called := true }

theorem sharedNeed_called {x : So} (hx : x ∈ called sharedNeed) : x = .libdl := by
  by_contra hl
  have hx : (sharedNeed.info x).constructors_called = true := hx
  simp only [sharedNeed, State.set, if_neg hl] at hx
  split_ifs at hx
  cases x with
  | libdl => exact hl rfl
  | pool i => cases hx

theorem shared_need_run :
    (∀ x ∈ called sharedNeed, ∀ y, Needs sharedNeed x y → y ∈ called sharedNeed) ∧
      ∃ L' run, callConstructorsRecursive (soMax + 2) sharedNeed (.pool firstSlot) = some L' ∧
        L'.events = run.reverse ++ sharedNeed.events ∧
        Initialises sharedNeed (.pool firstSlot) run := by
  have hclosed : ∀ x ∈ called sharedNeed, ∀ y, Needs sharedNeed x y → y ∈ called sharedNeed := by
    intro x hx y hy
    rw [sharedNeed_called hx] at hy
    cases hy
  exact ⟨hclosed, constructors_run _ hclosed le_rfl⟩

example : (callConstructorsRecursive 3 sharedNeed (.pool firstSlot)).map State.events =
    some [.call (.pool firstSlot) 0x10, .call (.pool secondSlot) 0x12,
      .call (.pool secondSlot) 0x11, .call (.pool secondSlot) 0x20, .call (.pool firstSlot) 0x12,
      .call (.pool firstSlot) 0x11] := by decide +kernel

end Bionic.Constructors
