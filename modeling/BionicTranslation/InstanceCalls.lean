import BionicTranslation.NeededGraph

/-!
# The calls of one instance

A slot is used by one instance after the other, and each one that is unloaded ends
with the slot put on the free list. The calls since then are those of the present
instance: none before its constructors are called, and its initialisers afterwards.
-/

set_option autoImplicit false

namespace Bionic.InstanceCalls
open Bionic.Slots Bionic.Records Bionic.Linker Bionic.Unload Bionic.LinkFrame Bionic.LinkSteps
open Bionic.CallFrame Bionic.RefCounts Bionic.DepthFirst Bionic.Constructors Bionic.NewEdges
open Bionic.NeededGraph Relation

def isFreeOf (i : Slot) : Event → Bool
  | .free j _ => j = i
  | _ => false

/-- The calls of the functions of slot `i` since it was last put on the free list, the
latest one first. -/
def instanceCalls (L : State) (i : Slot) : List Event :=
  (L.events.takeWhile fun e => !isFreeOf i e).filter (isCallOf (.pool i))

/-- The instance has run its initialisers in their order, and nothing else. -/
def Initialised (L : State) (i : Slot) : Prop :=
  instanceCalls L i =
    (callsOf (.pool i) (preinits (L.info (.pool i)) ++ inits (L.info (.pool i)))).reverse

/-- Libraries that are not in `t` have called their initialisers if their constructors
are called, and nothing if they are not. -/
structure Logged (t : List So) (L : State) : Prop where
  ran : ∀ i ∈ L.pool.loaded, .pool i ∈ called L → .pool i ∉ t → Initialised L i
  silent : ∀ i, (i ∈ L.pool.loaded → .pool i ∉ called L) → .pool i ∉ t → instanceCalls L i = []

def Closed (L : State) : Prop := ∀ x ∈ called L, ∀ y, Needs L x y → y ∈ called L

variable {w : World} {old t : List So} {extra : So → ℕ} {L M : State} {si : So}

theorem instanceCalls_append (es : List Event) (h : M.events = es ++ L.events) {i : Slot}
    (hf : ∀ e ∈ es, isFreeOf i e = false) :
    instanceCalls M i = es.filter (isCallOf (.pool i)) ++ instanceCalls L i := by
  rw [instanceCalls, h, List.takeWhile_append_of_pos fun e he => by rw [hf e he]; rfl,
    List.filter_append, instanceCalls]

theorem instanceCalls_free {i : Slot} {refs : ℕ} {es : List Event}
    (h : L.events = .free i refs :: es) : instanceCalls L i = [] := by
  simp [instanceCalls, h, isFreeOf]

theorem instanceCalls_events (h : M.events = L.events) (i : Slot) :
    instanceCalls M i = instanceCalls L i := by
  rw [instanceCalls, h, instanceCalls]

theorem Logged.congr (h : Logged t L)
    (hc : ∀ i, .pool i ∉ t → instanceCalls M i = instanceCalls L i)
    (hm : ∀ i, i ∈ M.pool.loaded ∧ .pool i ∈ called M ↔ i ∈ L.pool.loaded ∧ .pool i ∈ called L)
    (hi : ∀ i ∈ L.pool.loaded, .pool i ∈ called L →
      preinits (M.info (.pool i)) = preinits (L.info (.pool i)) ∧
        inits (M.info (.pool i)) = inits (L.info (.pool i))) : Logged t M where
  ran i hl hcall ht := by
    obtain ⟨hl, hcall⟩ := (hm i).mp ⟨hl, hcall⟩
    rw [Initialised, hc i ht, (hi i hl hcall).1, (hi i hl hcall).2]
    exact h.ran i hl hcall ht
  silent i hn ht := by
    rw [hc i ht]
    refine h.silent i (fun hl hcall => ?_) ht
    obtain ⟨hl', hcall'⟩ := (hm i).mpr ⟨hl, hcall⟩
    exact hn hl' hcall'

def Unbuilt (old : List So) (L : State) : Prop :=
  ∀ x ∈ L.solist, x ∉ old → (L.info x).constructors_called = false

theorem Unbuilt.change (h : Unbuilt old L) (hp : M.pool = L.pool)
    (hc : ∀ x, (M.info x).constructors_called = (L.info x).constructors_called) :
    Unbuilt old M := by
  intro x hx ho
  have hs : M.solist = L.solist := solist_congr (by rw [hp])
  rw [hc]
  exact h x (hs ▸ hx) ho

theorem one_constructed (ho : ∀ x, x ≠ si → M.info x = L.info x)
    (hs : (M.info si).constructors_called = (L.info si).constructors_called) (x : So) :
    (M.info x).constructors_called = (L.info x).constructors_called := by
  by_cases hx : x = si
  · rw [hx, hs]
  · rw [ho x hx]

theorem LinkStep.unbuilt (h : Unbuilt old L) (hs : LinkStep w old L M) : Unbuilt old M := by
  cases hs with
  | attempt ha =>
    have ha := loadLibrary_none ha
    intro x hx ho
    have hx' : x ∈ L.solist := ha.solist ▸ hx
    rw [ha.info x hx']
    exact h x hx' ho
  | load hname ha =>
    rename_i i
    have happ := loadLibrary_some ha
    intro x hx ho
    by_cases hxi : x = .pool i
    · rw [hxi, happ.constructed]
    · rw [happ.info x hxi]
      exact h x (happ.mem_old hx hxi) ho
  | extract hf hx =>
    refine h.change rfl (one_constructed (fun x hx => set_other _ _ hx) ?_)
    rw [set_same, (extract_same hx).constructed]
  | need hf he hm hne ht =>
    rename_i si lsi i v
    refine h.change rfl fun x => ?_
    obtain ⟨dynamic, refcount, hx⟩ := attach_rest L si i lsi x
    rw [hx]
  | finish hf hd hr =>
    rename_i si
    obtain ⟨ts, flags, l_addr, l_name, hown, -⟩ := finishLink_own w L si
    refine h.change (finishLink_pool w L si)
      (one_constructed (fun x hx => finishLink_other w L hx) ?_)
    rw [hown]
  | fail hf =>
    refine h.change rfl (one_constructed (fun x hx => markError_other _ hx) ?_)
    rw [markError, modify_same]
  | unmap hm hn he => exact h

theorem LinkRun.unbuilt (h : Unbuilt old L) (hs : LinkRun w old L M) : Unbuilt old M := by
  induction hs with
  | refl => exact h
  | tail _ hs ih => exact LinkStep.unbuilt ih hs

theorem LinkStep.instanceCalls (hs : LinkStep w old L M) (i : Slot) :
    instanceCalls M i = instanceCalls L i := by
  cases hs with
  | attempt ha => exact instanceCalls_events (loadLibrary_none ha).events i
  | load _ ha => exact instanceCalls_events (loadLibrary_some ha).events i
  | extract hf hx => exact instanceCalls_events rfl i
  | need hf he hm hne ht => exact instanceCalls_events rfl i
  | finish hf hd hr => exact instanceCalls_events (finishLink_events w L _) i
  | fail hf => exact instanceCalls_events rfl i
  | unmap hm hn he =>
    rename_i j
    rw [instanceCalls_append [.linkFailed j] rfl (by simp [isFreeOf])]
    rfl

theorem LinkRun.instanceCalls (hs : LinkRun w old L M) (i : Slot) :
    instanceCalls M i = instanceCalls L i := by
  induction hs with
  | refl => rfl
  | tail _ hs ih => rw [LinkStep.instanceCalls hs i, ih]

section search
variable (hr : LinkRun w L.solist L M)
include hr

theorem search_kept {x : So} (hx : x ∈ L.solist) : Kept (L.info x) (M.info x) :=
  hr.grown.kept x hx hx

theorem search_called {x : So} (hx : x ∈ M.solist) :
    x ∈ called M ↔ x ∈ L.solist ∧ x ∈ called L := by
  have hun : Unbuilt L.solist M := LinkRun.unbuilt (fun x hx ho => absurd hx ho) hr
  have hsame : x ∈ L.solist → (x ∈ called M ↔ x ∈ called L) := by
    intro ho
    have hk := search_kept hr ho
    show (M.info x).constructors_called = true ↔ (L.info x).constructors_called = true
    rw [hk.rest]
  constructor
  · intro hc
    have ho : x ∈ L.solist := by
      by_contra ho
      exact Bool.false_ne_true ((hun x hx ho).symm.trans hc)
    exact ⟨ho, (hsame ho).mp hc⟩
  · rintro ⟨ho, hc⟩
    exact (hsame ho).mpr hc

theorem search_closed (hc : Counted extra L) (h : Closed L) : Closed M := by
  intro x hx y hn
  have hcM := LinkRun.counted hc hr
  obtain ⟨hxM, hyM⟩ := Counted.needs_loaded hcM hn
  obtain ⟨hxL, hx⟩ := (search_called hr hxM).mp hx
  have hnL : Needs L x y := by
    rw [needs_iff] at hn ⊢
    rwa [(search_kept hr hxL).rest] at hn
  exact (search_called hr hyM).mpr ⟨(Counted.needs_loaded hc hnL).2, h x hx y hnL⟩

theorem search_logged (h : Logged t L) : Logged t M := by
  refine h.congr (fun i _ => LinkRun.instanceCalls hr i) (fun i => ?_) fun i hl _ => ?_
  · simp only [← pool_mem_solist]
    constructor
    · rintro ⟨hm, hc⟩
      exact (search_called hr hm).mp hc
    · rintro ⟨hl, hc⟩
      exact ⟨hr.grown.mem hl, (search_called hr (hr.grown.mem hl)).mpr ⟨hl, hc⟩⟩
  · rw [(search_kept hr (pool_mem_solist.mpr hl)).rest]
    exact ⟨rfl, rfl⟩

end search

section construct
variable {es : List (Mark So)} (hr : Ran L [si] es M)
include hr

theorem ran_closed (h : Closed L) : Closed M := by
  intro x hx y hn
  have hnL : Needs L x y := by
    show y ∈ needed (L.info x)
    rw [← constructed_needed hr.same]
    exact hn
  by_cases hxL : x ∈ called L
  · exact hr.visits.mono (h x hxL y hnL)
  · exact hr.visits.children_marked hx hxL hnL

theorem ran_calls (i : Slot) :
    (.pool i ∈ called M ∧ .pool i ∉ called L → instanceCalls M i =
      (callsOf (.pool i) (preinits (L.info (.pool i)) ++ inits (L.info (.pool i)))).reverse ++
        instanceCalls L i) ∧
    (¬ (.pool i ∈ called M ∧ .pool i ∉ called L) → instanceCalls M i = instanceCalls L i) := by
  have hno : ∀ e ∈ (es.flatMap (calls L)).reverse, isFreeOf i e = false := by
    intro e he
    obtain ⟨m, -, hm⟩ := List.mem_flatMap.mp (List.mem_reverse.mp he)
    obtain ⟨f, rfl⟩ := calls_call hm
    rfl
  rw [instanceCalls_append _ hr.events hno, List.filter_reverse, filter_calls]
  constructor <;> intro hnew
  · rw [(hr.visits.filter_node _).1 hnew]
    simp [calls, callsOf]
  · rw [(hr.visits.filter_node _).2 hnew]
    rfl

theorem ran_logged (h : Logged t L)
    (hload : ∀ x, ReflTransGen (Needs L) si x → x ∈ L.solist) : Logged t M := by
  have hpool : M.pool = L.pool := hr.same.pool
  refine ⟨fun i hl hc ht => ?_, fun i hn ht => ?_⟩
  · rw [hpool] at hl
    rw [Initialised, constructed_preinits hr.same, constructed_inits hr.same]
    by_cases hL : .pool i ∈ called L
    · rw [(ran_calls hr i).2 fun hnew => hnew.2 hL]
      exact h.ran i hl hL ht
    · rw [(ran_calls hr i).1 ⟨hc, hL⟩, h.silent i (fun _ => hL) ht, List.append_nil]
  · rw [hpool] at hn
    have hnew : ¬ (.pool i ∈ called M ∧ .pool i ∉ called L) := by
      rintro ⟨hM, hL⟩
      obtain ⟨v, hv, hreach⟩ := hr.visits.reachable hM hL
      rw [List.mem_singleton.mp hv] at hreach
      exact hn (pool_mem_solist.mp (hload _ hreach)) hM
    rw [(ran_calls hr i).2 hnew]
    exact h.silent i (fun hl hL => hn hl (hr.visits.mono hL)) ht

end construct

end Bionic.InstanceCalls
