import BionicTranslation.CallFrame

/-!
# Reference counts as a ledger

Every counter covers the payloads that point to its library and what else is
owed for it. Unloading is proved against such a ledger: a call pays back one
reference, a cleared payload leaves one more to be paid back, and a library is
torn down when nothing is owed for it any more. Which payloads are counted and
which counters have to cover them are parameters. The sums of counters that change
at one point come first, and name nothing of the linker.
-/

set_option autoImplicit false

namespace Bionic.PointSum

variable {α : Type*} {f g : α → ℕ} {l : List α} {x : α}

theorem sum_congr (h : ∀ y ∈ l, f y = g y) : (l.map f).sum = (l.map g).sum := by
  rw [List.map_congr_left h]

theorem sum_change (hl : l.Nodup) (hx : x ∈ l) (h : ∀ y ∈ l, y ≠ x → f y = g y) :
    (l.map f).sum + g x = (l.map g).sum + f x := by
  induction l with
  | nil => cases hx
  | cons y l ih =>
    obtain ⟨hy, hl⟩ := List.nodup_cons.mp hl
    simp only [List.map_cons, List.sum_cons]
    rcases List.mem_cons.mp hx with rfl | hx
    · have htail : (l.map f).sum = (l.map g).sum := sum_congr fun z hz =>
        h z (List.mem_cons_of_mem _ hz) fun e => hy (e ▸ hz)
      omega
    · have hyx : y ≠ x := fun e => hy (e ▸ hx)
      have hhead := h y List.mem_cons_self hyx
      have := ih hl hx fun z hz => h z (List.mem_cons_of_mem _ hz)
      omega

theorem sum_snoc (f : α → ℕ) (l : List α) (x : α) :
    ((l ++ [x]).map f).sum = (l.map f).sum + f x := by
  simp

theorem le_sum (f : α → ℕ) (hx : x ∈ l) : f x ≤ (l.map f).sum :=
  List.le_sum_of_mem (List.mem_map_of_mem hx)

theorem sum_eq_zero (h : ∀ y ∈ l, f y = 0) : (l.map f).sum = 0 := by
  rw [List.sum_eq_zero]
  intro n hn
  obtain ⟨y, hy, rfl⟩ := List.mem_map.mp hn
  exact h y hy

end Bionic.PointSum

namespace Bionic.RefLedger
open Bionic.Slots Bionic.Records Bionic.Linker Bionic.Unload Bionic.FoldRules Bionic.LinkFrame
open Bionic.LinkSteps Bionic.CallFrame

variable {S : So → Bool} {dom : So → Prop} {extra : So → ℕ} {L M : State} {si : So}

theorem refs_congr (hs : M.solist = L.solist) {y : So}
    (h : ∀ x ∈ L.solist, (M.info x).payloads y = (L.info x).payloads y) :
    M.refs S y = L.refs S y := by
  unfold State.refs
  rw [hs]
  exact PointSum.sum_congr fun x hx => by rw [h x hx]

theorem refs_change (hs : M.solist = L.solist) (hm : si ∈ L.solist)
    (h : ∀ x, x ≠ si → M.info x = L.info x) (y : So) :
    M.refs S y + (if S si then (L.info si).payloads y else 0) =
      L.refs S y + (if S si then (M.info si).payloads y else 0) := by
  unfold State.refs
  rw [hs]
  exact PointSum.sum_change (f := fun x => if S x then (M.info x).payloads y else 0)
    (g := fun x => if S x then (L.info x).payloads y else 0) (solist_nodup L) hm
    fun x _ hx => by simp only [h x hx]

theorem refs_sublist (hs : M.solist.Sublist L.solist)
    (h : ∀ x ∈ M.solist, ∀ y, (M.info x).payloads y ≤ (L.info x).payloads y) (y : So) :
    M.refs S y ≤ L.refs S y := by
  have hle : M.refs S y ≤
      (M.solist.map fun x => if S x then (L.info x).payloads y else 0).sum := by
    refine List.sum_le_sum fun x hx => ?_
    split_ifs
    · exact h x hx y
    · exact le_refl _
  exact hle.trans ((hs.map _).sum_le_sum fun _ _ => Nat.zero_le _)

theorem refs_mono {T : So → Bool} (h : ∀ x, S x = true → T x = true) (L : State) (y : So) :
    L.refs S y ≤ L.refs T y := by
  unfold State.refs
  refine List.sum_le_sum fun x _ => ?_
  split_ifs with h1 h2
  · exact le_refl _
  · exact absurd (h x h1) h2
  · exact Nat.zero_le _
  · exact le_refl _

theorem payloads_le_refs {x : So} (hx : x ∈ L.solist) (hs : S x = true) (y : So) :
    (L.info x).payloads y ≤ L.refs S y := by
  have := PointSum.le_sum (fun x => if S x then (L.info x).payloads y else 0) hx
  simp only [hs, if_true] at this
  exact this

theorem addRef_payloads (L : State) (si x y : So) :
    ((addRef L si).info x).payloads y = (L.info x).payloads y := by
  rw [addRef_info]
  split_ifs with hx
  · rw [hx]
    rfl
  · rfl

section attach
variable {lsi : So} {i v : ℕ}

theorem attach_payloads (he : (L.info si).entries[i]? = some ⟨.needed, .val v⟩) (x y : So) :
    ((attach L si i lsi).info x).payloads y =
      (L.info x).payloads y + if x = si ∧ y = lsi then 1 else 0 := by
  rw [attach, addRef_payloads]
  by_cases hx : x = si
  · subst hx
    have hset := payloads_set ⟨.needed, .so lsi⟩ he y
    have h0 : hits y ⟨.needed, .val v⟩ = false := by simp [hits]
    have h1 : hits y ⟨.needed, .so lsi⟩ = decide (y = lsi) := by simp [hits, eq_comm]
    rw [h0, h1] at hset
    rw [modify_same]
    simpa using hset
  · rw [modify_other _ _ hx, if_neg fun h => hx h.1, Nat.add_zero]

theorem refs_attach (hm : si ∈ L.solist)
    (he : (L.info si).entries[i]? = some ⟨.needed, .val v⟩) (y : So) :
    (attach L si i lsi).refs S y = L.refs S y + if S si = true ∧ y = lsi then 1 else 0 := by
  have hpay : ∀ x, ((attach L si i lsi).info x).payloads y =
      (L.info x).payloads y + if x = si ∧ y = lsi then 1 else 0 := fun x => attach_payloads he x y
  have hchange := PointSum.sum_change
    (f := fun x => if S x then ((attach L si i lsi).info x).payloads y else 0)
    (g := fun x => if S x then (L.info x).payloads y else 0) (solist_nodup L) hm
    fun x _ hx => by simp only [hpay, hx, false_and, if_false, Nat.add_zero]
  have hsi := hpay si
  rw [State.refs, State.refs]
  show (L.solist.map _).sum = _
  cases hS : S si <;> simp only [hS, if_true, true_and, Bool.false_eq_true, if_false,
    false_and] at hchange hsi ⊢ <;> omega

end attach

def owe (extra : So → ℕ) (si : So) : So → ℕ := fun z => extra z + if z = si then 1 else 0

/-- A library is only freed without payloads pointing to it, and no counter is
decremented below zero. -/
def Sane : Event → Prop
  | .free _ refs => refs = 0
  | .decrement _ refcount => refcount ≠ 0
  | .call .. => True
  | .linkFailed _ => True

structure Ledger (S : So → Bool) (dom : So → Prop) (extra : So → ℕ) (L : State) : Prop where
  covered : ∀ z, dom z → extra z + L.refs S z ≤ (L.info z).refcount
  idle : ∀ z, z ∉ L.solist → dom z → (L.info z).refcount = 0
  clear : ∀ z, z ∉ L.solist → ∀ y, (L.info z).payloads y = 0
  sane : (∀ z, S z = true ∧ dom z) → ∀ e ∈ L.events, Sane e

theorem Ledger.mem_of_payload (h : Ledger S dom extra L) {i : ℕ} {lsi : So}
    (he : (L.info si).entries[i]? = some ⟨.needed, .so lsi⟩) : si ∈ L.solist := by
  by_contra hn
  have h0 := h.clear si hn lsi
  rw [payloads_eq, List.countP_eq_zero] at h0
  exact h0 _ (List.mem_of_getElem? he) (by simp [hits])

theorem Ledger.mono (h : Ledger S dom extra L) {extra' : So → ℕ}
    (he : ∀ z, extra' z ≤ extra z) : Ledger S dom extra' L :=
  ⟨fun z hz => (Nat.add_le_add_right (he z) _).trans (h.covered z hz), h.idle, h.clear, h.sane⟩

theorem Ledger.destructors (h : Ledger S dom extra L) (si : So) :
    Ledger S dom extra (callDestructors L si) := by
  refine ⟨h.covered, h.idle, h.clear, fun hall e he => ?_⟩
  simp only [callDestructors, callAll, State.log, List.mem_append, List.mem_map] at he
  rcases he with ⟨_, _, rfl⟩ | ⟨_, _, rfl⟩ | he
  · trivial
  · trivial
  · exact h.sane hall e he

theorem Ledger.congr (h : Ledger S dom extra L) (hs : M.solist = L.solist)
    (hr : ∀ x, (M.info x).refcount = (L.info x).refcount)
    (hp : ∀ x y, (M.info x).payloads y = (L.info x).payloads y)
    (he : ∀ e ∈ M.events, Sane e ∨ e ∈ L.events) : Ledger S dom extra M where
  covered z hz := by
    rw [refs_congr hs fun x _ => hp x z, hr]
    exact h.covered z hz
  idle z hz hd := by
    rw [hr]
    exact h.idle z (hs ▸ hz) hd
  clear z hz y := by
    rw [hp]
    exact h.clear z (hs ▸ hz) y
  sane hall e hm := (he e hm).elim id (h.sane hall e)

theorem cleared_refcount (L : State) (si : So) (i : ℕ) (x : So) :
    ((cleared L si i).info x).refcount = (L.info x).refcount := by
  unfold cleared
  by_cases hx : x = si
  · subst hx
    rw [modify_same]
    rfl
  · rw [modify_other _ _ hx]

theorem Ledger.clear_payload (h : Ledger S dom extra L) {i : ℕ} {lsi : So}
    (hsrc : S si = true) (he : (L.info si).entries[i]? = some ⟨.needed, .so lsi⟩) :
    Ledger S dom (owe extra lsi)
      (cleared L si i) := by
  have hm := h.mem_of_payload he
  have hpay := payloads_set ⟨.needed, .val 0⟩ he
  have hrc := cleared_refcount L si i
  refine ⟨fun z hz => ?_, fun z hz hd => ?_, fun z hz y => ?_, h.sane⟩
  · have hc := h.covered z hz
    have hchange := refs_change (S := S) (L := L) (M := cleared L si i) rfl hm
      (fun x hx => modify_other _ _ hx) z
    have hz' := hpay z
    rw [cleared, modify_same] at hchange
    simp only [hsrc, if_true] at hchange
    have h0 : hits z ⟨.needed, .val 0⟩ = false := by simp [hits]
    have h1 : hits z ⟨.needed, .so lsi⟩ = decide (z = lsi) := by simp [hits, eq_comm]
    rw [h0, h1] at hz'
    simp only [Bool.false_eq_true, if_false, decide_eq_true_eq] at hz'
    rw [hrc, cleared]
    unfold owe
    omega
  · rw [hrc]
    exact h.idle z hz hd
  · have hzs : z ≠ si := fun e => hz (e ▸ hm)
    rw [cleared, modify_other _ _ hzs]
    exact h.clear z hz y

theorem Ledger.clear_value (h : Ledger S dom extra L) {i n : ℕ}
    (he : (L.info si).entries[i]? = some ⟨.needed, .val n⟩) : Ledger S dom extra
      (cleared L si i) := by
  refine h.congr rfl (cleared_refcount L si i) (fun x y => ?_) fun e he => Or.inr he
  unfold cleared
  by_cases hx : x = si
  · subst hx
    have := payloads_set ⟨.needed, .val 0⟩ he y
    rw [modify_same]
    simpa [hits] using this
  · rw [modify_other _ _ hx]

theorem Ledger.keep (h : Ledger S dom (owe extra si) L) :
    Ledger S dom extra (keepLoaded L si) := by
  have hsi : dom si → extra si + 1 + L.refs S si ≤ (L.info si).refcount := fun hd => by
    have := h.covered si hd
    simpa only [owe, if_true] using this
  have hinfo := keepLoaded_info L si
  have hpay : ∀ x y, ((keepLoaded L si).info x).payloads y = (L.info x).payloads y := by
    intro x y
    rw [hinfo]
    split_ifs with hx
    · rw [hx]
      rfl
    · rfl
  refine ⟨fun z hz => ?_, fun z hz hd => ?_, fun z hz y => ?_, fun hall e he => ?_⟩
  · rw [refs_congr (L := L) (M := keepLoaded L si) rfl fun x _ => hpay x z, hinfo]
    split_ifs with hx
    · subst hx
      have := hsi hz
      simp only [decrement]
      split_ifs <;> omega
    · have := h.covered z hz
      simpa only [owe, if_neg hx, Nat.add_zero] using this
  · have hz0 := h.idle z hz hd
    rw [hinfo]
    split_ifs with hx
    · subst hx
      have := hsi hd
      omega
    · exact hz0
  · rw [hpay]
    exact h.clear z hz y
  · simp only [keepLoaded, State.log, List.mem_append, List.mem_singleton] at he
    rcases he with rfl | he
    · have := hsi (hall si).2
      simp only [Sane]
      omega
    · exact h.sane hall e he

theorem Ledger.release (h : Ledger S dom (owe extra si) L)
    (hone : dom si → (L.info si).refcount ≤ 1) (hpay : ∀ y, (L.info si).payloads y = 0) :
    Ledger S dom extra (release L si) := by
  have hsi : dom si → extra si = 0 ∧ L.refs S si = 0 := fun hd => by
    have := h.covered si hd
    have := hone hd
    simp only [owe, if_true] at *
    omega
  have hinfo := release_info L si
  have hpay' : ∀ x y, ((Unload.release L si).info x).payloads y = (L.info x).payloads y := by
    intro x y
    rw [hinfo]
    split_ifs with hx
    · rw [hx]
      rfl
    · rfl
  have hsub : (Unload.release L si).solist.Sublist L.solist :=
    (fades_release (E := fun _ => True) L si).solist
  have hmem : ∀ z, z ≠ si → z ∈ L.solist → z ∈ (Unload.release L si).solist := by
    intro z hz hm
    rcases mem_solist.mp hm with rfl | ⟨j, hj, rfl⟩
    · exact libdl_mem_solist _
    · cases si with
      | libdl => exact hm
      | pool i =>
        rw [pool_mem_solist, release_loaded, mem_free_loaded]
        exact ⟨fun e => hz (e ▸ rfl), hj⟩
  refine ⟨fun z hz => ?_, fun z hz hd => ?_, fun z hz y => ?_, fun hall e he => ?_⟩
  · have hle := refs_sublist (S := S) hsub (fun x _ y => (hpay' x y).le) z
    rw [hinfo]
    split_ifs with hx
    · subst hx
      have := hsi hz
      simp only
      omega
    · have := h.covered z hz
      simp only [owe, if_neg hx, Nat.add_zero] at this
      omega
  · rw [hinfo]
    split_ifs with hx
    · rfl
    · exact h.idle z (fun hm => hz (hmem z hx hm)) hd
  · rw [hpay']
    by_cases hx : z = si
    · rw [hx]
      exact hpay y
    · exact h.clear z (fun hm => hz (hmem z hx hm)) y
  · cases si with
    | libdl => exact h.sane hall e he
    | pool i =>
      simp only [Unload.release, clearRefcount, modify_events, freeInfo, State.log, munmap_events,
        List.mem_append, List.mem_singleton] at he
      rcases he with rfl | he
      · have hle := refs_mono (S := linkedIn (L.munmap (L.info (.pool i)).base
          (L.info (.pool i)).size)) (fun x _ => (hall x).1) L (.pool i)
        have := (hsi (hall _).2).2
        simp only [Sane]
        unfold State.refs at *
        simp only [munmap_solist, munmap_info]
        omega
      · exact h.sane hall e he

def Lowered (dom : So → Prop) (L L' : State) : Prop :=
  ∀ z, dom z → (L'.info z).refcount ≤ (L.info z).refcount

/-- A library that can be torn down has its payloads counted: a counter that is
zero, or has to cover more than what is paid back, does not come down to that. -/
def Backed (S : So → Bool) (dom : So → Prop) (extra : So → ℕ) (L : State) : Prop :=
  ∀ z, S z = true ∨ (dom z ∧ (0 < extra z ∨ (L.info z).refcount = 0))

theorem Backed.owe (h : Backed S dom extra L) (si : So) : Backed S dom (owe extra si) L :=
  fun z => (h z).imp id fun ⟨hd, he⟩ => ⟨hd, he.imp_left fun he => Nat.add_pos_left he _⟩

theorem Backed.lower (h : Backed S dom extra L) (hl : Lowered dom L M) :
    Backed S dom extra M :=
  fun z => (h z).imp id fun ⟨hd, he⟩ => ⟨hd, he.imp_right fun h0 =>
    Nat.le_zero.mp ((hl z hd).trans h0.le)⟩

theorem Lowered.trans {N : State} (h : Lowered dom L M) (k : Lowered dom M N) : Lowered dom L N :=
  fun z hz => (k z hz).trans (h z hz)

theorem lowered_cleared (L : State) (si : So) (i : ℕ) : Lowered dom L (cleared L si i) :=
  fun z _ => (cleared_refcount L si i z).le

def Pays (S : So → Bool) (dom : So → Prop) (unload : State → So → Except Fault State) : Prop :=
  ∀ {extra : So → ℕ} {L L' : State} {si : So}, Backed S dom extra L →
    Ledger S dom (owe extra si) L → unload L si = .ok L' →
    Ledger S dom extra L' ∧ Lowered dom L L'

theorem unloadNeeded_pays {unload : State → So → Except Fault State} (hu : Pays S dom unload)
    (hb : Backed S dom extra L) (hsrc : S si = true) (h : Ledger S dom extra L) {i : ℕ}
    (hM : unloadNeeded unload si L i = .ok M) : Ledger S dom extra M ∧ Lowered dom L M := by
  have hcl : Lowered dom L (cleared L si i) := lowered_cleared L si i
  rcases unloadNeeded_cases unload si L i with ⟨lsi, he, hn⟩ | ⟨m, he, hn⟩ | ⟨-, hn⟩ <;>
    rw [hn] at hM
  · obtain ⟨h1, h2⟩ := hu (hb.lower hcl) (h.clear_payload hsrc he) hM
    exact ⟨h1, hcl.trans h2⟩
  · cases hM
    exact ⟨h.clear_value he, hcl⟩
  · cases hM
    exact ⟨h, fun _ _ => le_refl _⟩

theorem unloadLoop_pays {unload : State → So → Except Fault State} (hu : Pays S dom unload)
    (hb : Backed S dom extra L) (hsrc : S si = true) (h : Ledger S dom extra L) {n : ℕ}
    (hM : (List.range n).foldlM (unloadNeeded unload si) L = .ok M) :
    Ledger S dom extra M ∧ Lowered dom L M := by
  refine except_invariant (P := fun N => Ledger S dom extra N ∧ Lowered dom L N) ?_
    ⟨h, fun _ _ => le_refl _⟩ hM
  rintro N i N' - ⟨hN, hlow⟩ hN'
  obtain ⟨h1, h2⟩ := unloadNeeded_pays hu (hb.lower hlow) hsrc hN hN'
  exact ⟨h1, hlow.trans h2⟩

theorem Ledger.source (h : Ledger S dom (owe extra si) L) (hb : Backed S dom extra L)
    (hone : (L.info si).refcount ≤ 1) : S si = true := by
  refine (hb si).resolve_right fun ⟨hd, he⟩ => ?_
  have := h.covered si hd
  simp only [owe, if_true] at this
  omega

/-- Unloading pays back the reference it is called for, however deep it goes. -/
theorem unload_pays (fuel : ℕ) : Pays S dom (unloadLibrary fuel) := by
  induction fuel with
  | zero =>
    intro extra L L' si _ _ h
    cases h
  | succ fuel ih =>
    intro extra L L' si hb hL h
    rcases unload_cases h with ⟨-, rfl⟩ | ⟨hone, ds, M, hd, hM, rfl⟩
    · refine ⟨hL.keep, fun z hz => ?_⟩
      rw [keepLoaded_info]
      split_ifs with hz'
      · subst hz'
        have := hL.covered z hz
        simp only [owe, if_true] at this
        simp only [decrement]
        split_ifs <;> omega
      · exact le_refl _
    · have hsrc := hL.source hb hone.le
      obtain ⟨hled, hlow⟩ := unloadLoop_pays ih (L := callDestructors L si) (hb.owe si) hsrc
        (hL.destructors si) hM
      have hlow1 : Lowered dom L M := hlow
      have hpay := unloadLoop_clears (entries_of_found hd ▸ le_refl _) hM
      refine ⟨hled.release (fun hs => hone ▸ hlow1 si hs) hpay, fun z hz => ?_⟩
      rw [release_info]
      split_ifs
      · exact Nat.zero_le _
      · exact hlow1 z hz

end Bionic.RefLedger
