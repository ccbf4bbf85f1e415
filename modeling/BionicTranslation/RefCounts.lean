import BionicTranslation.RefLedger
import BionicTranslation.FindSound

/-!
# Reference counts in balanced runs

If no handle is closed more often than it was returned, every counter is at
least the number of its open handles and of the payloads that point to its
library, so a library is only freed when neither is left.
-/

set_option autoImplicit false

namespace Bionic.RefCounts
open Bionic.Slots Bionic.Records Bionic.Linker Bionic.Unload Bionic.FoldRules Bionic.LinkFrame
open Bionic.LinkSteps Bionic.CallFrame Bionic.LinkFlags Bionic.RefLedger Bionic.FindSound

/-- All payloads are counted, and every counter has to cover them. -/
abbrev Counted (extra : So → ℕ) (L : State) : Prop :=
  Ledger (fun _ => true) (fun _ => True) extra L

variable {extra : So → ℕ} {L L' : State}

theorem Counted.zero (h : Counted extra L) {z : So} (hz : z ∉ L.solist) :
    extra z = 0 ∧ L.refs (fun _ => true) z = 0 := by
  have h1 := h.covered z trivial
  have h2 := h.idle z hz trivial
  omega

theorem counted_attempt {w : World} (h : Counted extra L) (ha : Attempted w L L') :
    Counted extra L' := by
  have hs := ha.solist
  refine ⟨fun z _ => ?_, fun z hz _ => ?_, fun z hz y => ?_, fun hall e he => ?_⟩
  · rw [refs_congr hs fun x hx => by rw [ha.info x hx]]
    by_cases hz : z ∈ L.solist
    · rw [ha.info z hz]
      exact h.covered z trivial
    · rw [(h.zero hz).1, (h.zero hz).2]
      exact Nat.zero_le _
  · rcases ha.scratch z with he | ⟨he, -⟩
    · rw [he]
      exact h.idle z (hs ▸ hz) trivial
    · exact he
  · rcases ha.scratch z with he | ⟨-, he⟩
    · rw [he]
      exact h.clear z (hs ▸ hz) y
    · exact he y
  · exact h.sane hall e (ha.events ▸ he)

theorem counted_load {w : World} {lib : Name} {i : Slot} (h : Counted extra L)
    (ha : Appended w L L' lib i) : Counted extra L' := by
  have hs := ha.solist
  have hrefs : ∀ y, L'.refs (fun _ => true) y = L.refs (fun _ => true) y := by
    intro y
    simp only [State.refs, hs, PointSum.sum_snoc, ha.payloads, if_true, Nat.add_zero]
    exact PointSum.sum_congr fun x hx => by rw [ha.old hx]
  have hout : ∀ z, z ∉ L'.solist → z ∉ L.solist ∧ z ≠ .pool i := by
    intro z hz
    rw [hs, List.mem_append, List.mem_singleton, not_or] at hz
    exact hz
  refine ⟨fun z _ => ?_, fun z hz _ => ?_, fun z hz y => ?_, fun hall e he => ?_⟩
  · rw [hrefs]
    by_cases hz : z = .pool i
    · rw [hz, (h.zero ha.not_mem).1, (h.zero ha.not_mem).2]
      exact Nat.zero_le _
    · rw [ha.info z hz]
      exact h.covered z trivial
  · rw [ha.info z (hout z hz).2]
    exact h.idle z (hout z hz).1 trivial
  · rw [ha.info z (hout z hz).2]
    exact h.clear z (hout z hz).1 y
  · exact h.sane hall e (ha.events ▸ he)

theorem counted_attach {si lsi : So} {i v : ℕ} (h : Counted extra L) (hsi : si ∈ L.solist)
    (hm : lsi ∈ L.solist) (hne : lsi ≠ si)
    (he : (L.info si).entries[i]? = some ⟨.needed, .val v⟩) :
    Counted extra (attach L si i lsi) := by
  have hinfo := attach_info L i hne
  refine ⟨fun z _ => ?_, fun z hz _ => ?_, fun z hz y => ?_, h.sane⟩
  · have hc := h.covered z trivial
    rw [refs_attach hsi he, hinfo]
    simp only [true_and]
    split_ifs with h1 h2
    · subst h1
      simp only
      omega
    · subst h2
      exact hc
    · exact hc
  · have h1 : z ≠ lsi := fun e => hz (e ▸ hm)
    have h2 : z ≠ si := fun e => hz (e ▸ hsi)
    rw [hinfo, if_neg h1, if_neg h2]
    exact h.idle z hz trivial
  · have h1 : z ≠ lsi := fun e => hz (e ▸ hm)
    have h2 : z ≠ si := fun e => hz (e ▸ hsi)
    rw [hinfo, if_neg h1, if_neg h2]
    exact h.clear z hz y

theorem counted_one {si : So} (h : Counted extra L) (hp : L'.pool = L.pool)
    (hi : ∀ x, x ≠ si → L'.info x = L.info x)
    (hr : (L'.info si).refcount = (L.info si).refcount)
    (hpay : ∀ y, (L'.info si).payloads y = (L.info si).payloads y)
    (he : L'.events = L.events) : Counted extra L' := by
  have hs : L'.solist = L.solist := solist_congr (by rw [hp])
  refine h.congr hs (fun x => ?_) (fun x y => ?_) fun e hm => Or.inr (he ▸ hm) <;>
    by_cases hx : x = si
  · rw [hx, hr]
  · rw [hi x hx]
  · rw [hx, hpay]
  · rw [hi x hx]

theorem finishLink_events (w : World) (L : State) (si : So) :
    (finishLink w L si).1.events = L.events := by
  obtain ⟨ts, M, rfl, e | ⟨-, e | e⟩⟩ := finishLink_cases w L si <;> rw [e] <;> rfl

theorem LinkStep.counted {w : World} {old : List So} (h : Counted extra L)
    (hs : LinkStep w old L L') : Counted extra L' := by
  cases hs with
  | attempt ha => exact counted_attempt h (loadLibrary_none ha)
  | load _ ha => exact counted_load h (loadLibrary_some ha)
  | extract hf hx =>
    have hsame := extract_same hx
    refine counted_one h rfl (fun x hx => set_other _ _ hx) ?_ (fun y => ?_) rfl <;> rw [set_same]
    · exact hsame.refcount
    · exact hsame.payloads y
  | need hf he hm hne _ => exact counted_attach h hf.mem hm hne he
  | finish hf hd hr =>
    rename_i si
    obtain ⟨ts, flags, l_addr, l_name, hown, -⟩ := finishLink_own w L si
    refine counted_one h (finishLink_pool w L si) (fun x hx => finishLink_other w L hx) ?_
      (fun y => ?_) (finishLink_events w L si) <;> rw [hown]
    rfl
  | fail hf =>
    refine counted_one h rfl (fun x hx => markError_other _ hx) ?_ (fun y => ?_) rfl <;>
      rw [markError, modify_same]
    rfl
  | unmap hm hn he =>
    refine h.congr rfl (fun _ => rfl) (fun _ _ => rfl) fun e he => ?_
    rcases List.mem_cons.mp he with rfl | he
    · exact Or.inl trivial
    · exact Or.inr he

theorem LinkRun.counted {w : World} {old : List So} (h : Counted extra L)
    (hs : LinkRun w old L L') : Counted extra L' := by
  induction hs with
  | refl => exact h
  | tail _ hs ih => exact LinkStep.counted ih hs

theorem counted_constructed (h : Counted extra L) (hc : Constructed L L') : Counted extra L' := by
  refine h.congr hc.solist (fun x => ?_) (fun x y => ?_) fun e he => ?_
  · rw [hc.info x]
  · rw [hc.info x]
    rfl
  · rcases hc.events e he with ⟨x, f, rfl⟩ | he
    · exact Or.inl trivial
    · exact Or.inr he

theorem counted_addRef {si : So} (h : Counted extra L) (hm : si ∈ L.solist) :
    Counted (owe extra si) (addRef L si) := by
  refine ⟨fun z _ => ?_, fun z hz _ => ?_, fun z hz y => ?_, h.sane⟩
  · have hc := h.covered z trivial
    rw [refs_congr (L := L) (M := addRef L si) rfl fun x _ => addRef_payloads L si x z,
      addRef_info]
    unfold owe
    split_ifs with hz
    · subst hz
      simp only
      omega
    · exact hc
  · have hne : z ≠ si := fun e => hz (e ▸ hm)
    rw [addRef_info, if_neg hne]
    exact h.idle z hz trivial
  · rw [addRef_payloads]
    exact h.clear z hz y

def held (opens : Handle → ℕ) (z : So) : ℕ := opens (.so z)

theorem held_opened (opens : Handle → ℕ) (si : So) :
    held (opened opens (some (.so si))) = owe (held opens) si := by
  funext z
  simp only [held, opened, owe, Handle.so.injEq]
  split_ifs <;> rfl

theorem held_closed {opens : Handle → ℕ} {si : So} (h : 0 < opens (.so si)) :
    owe (held (closed opens (.so si))) si = held opens := by
  funext z
  simp only [held, closed, owe, Handle.so.injEq]
  split_ifs with hz
  · subst hz
    omega
  · rfl

theorem held_host (opens : Handle → ℕ) (n : ℕ) :
    held (opened opens (some (.host n))) = held opens ∧
      held (closed opens (.host n)) = held opens := by
  constructor <;> funext z <;> simp [held, opened, closed]

def taken (extra : So → ℕ) : Option Handle → So → ℕ
  | some (.so si) => owe extra si
  | _ => extra

theorem counted_dlopen {w : World} {fuel : ℕ} {name : Option Name} {r : Option Handle}
    (h : Counted extra L) (hl : (L.info .libdl).Live)
    (ho : bionicDlopen w fuel L name = some (L', r)) : Counted (taken extra r) L' := by
  rcases dlopen_cases ho with ⟨rfl, rfl⟩ | ⟨name, host, hf, rfl⟩ |
    ⟨name, M, N, si, host, hf, hN, rfl, rfl⟩
  · exact h
  · have hM := LinkRun.counted h (findLibrary_found w fuel _ _ _ _ _ hl hf).run
    cases host <;> exact hM
  · have hfound := findLibrary_found w fuel _ _ _ _ _ hl hf
    have hc := callConstructors_constructed fuel hN
    exact counted_addRef (counted_constructed (LinkRun.counted h hfound.run) hc)
      (hc.solist ▸ hfound.mem si rfl)

theorem held_taken (opens : Handle → ℕ) (r : Option Handle) :
    held (opened opens r) = taken (held opens) r := by
  match r with
  | none => rfl
  | some (.so si) => exact held_opened opens si
  | some (.host n) => exact (held_host opens n).1

theorem counted_dlclose {foreign : ℕ → Option ℕ} {fuel : ℕ} {h : Handle} {opens : Handle → ℕ}
    (hL : Counted (held opens) L) (hh : 0 < opens h)
    (hc : bionicDlclose foreign fuel L h = .ok L') : Counted (held (closed opens h)) L' := by
  cases h with
  | so si =>
    rw [← held_closed hh] at hL
    exact (unload_pays fuel (fun _ => Or.inl rfl) hL hc).1
  | host n =>
    rw [(held_host opens n).2, (dlclose_host hc).1]
    exact hL

theorem counted_initial : Counted (held initialSys.opens) initial where
  covered z _ := by
    have hsum : initial.refs (fun _ => true) z = 0 := rfl
    rw [hsum]
    exact Nat.zero_le _
  idle z hz _ := by
    cases z with
    | libdl => rfl
    | pool i => rfl
  clear z hz y := by
    cases z with
    | libdl => rfl
    | pool i => rfl
  sane _ e he := by cases he

/-- The runs in which each handle is closed at most as often as it was returned. -/
abbrev BalancedRun : Sys → Prop := Reachable fun s a _ => Balanced s a

theorem balanced_counted {s : Sys} (h : BalancedRun s) : Counted (held s.opens) s.linker := by
  induction h with
  | initial => exact counted_initial
  | step hr hb hs ih =>
    cases hs with
    | dlopen ho =>
      rw [held_taken]
      exact counted_dlopen ih (reachable_tidy hr).live ho
    | dlclose hc => exact counted_dlclose ih hb hc

/-- What the counters guarantee, with `opens` handles open on each library. -/
structure Guarded (opens : So → ℕ) (L : State) : Prop where
  covered : ∀ i, .pool i ∈ L.solist →
    opens (.pool i) + L.refs (linkedIn L) (.pool i) ≤ (L.info (.pool i)).refcount
  freed : ∀ i refs, .free i refs ∈ L.events → refs = 0
  closed : ∀ i, .pool i ∉ L.solist → opens (.pool i) = 0
  loaded : ∀ x ∈ L.solist, ∀ i, 0 < (L.info x).payloads (.pool i) → .pool i ∈ L.solist

def pairWorld : World := sampleWorld fun name =>
  if name = ['a'] then some (sampleFile [(.needed, 'b'.toNat)])
  else if name = ['b'] then some (sampleFile []) else none

end Bionic.RefCounts
