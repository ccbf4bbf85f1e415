import BionicTranslation.NewEdges
import BionicTranslation.NewLibraries
import BionicTranslation.RefCounts

/-!
# Closing what was just opened

An open adds libraries at the end of the list, and every reference it adds is the
payload of a new library or the handle. So each counter is what it was before and
what the new payloads add to it, and the close pays all of it back.
-/

set_option autoImplicit false

namespace Bionic.RoundTrip
open Bionic.Slots Bionic.Records Bionic.Linker Bionic.Unload Bionic.FoldRules Bionic.LinkFrame
open Bionic.LinkSteps Bionic.CallFrame Bionic.LinkFlags Bionic.RefLedger Bionic.FindSound
open Bionic.RefCounts Bionic.LinkStack Bionic.DepthFirst Bionic.NewEdges Bionic.NewLibraries

def sonext (L : State) : Option So := L.solist.getLast?

def before (start : State) (z : So) : ℕ := if z ∈ start.solist then (start.info z).refcount else 0

def isNew (start : State) (x : So) : Bool := decide (x ∉ start.solist)

/-- Every counter is what it was before, what is owed from outside and what the new payloads
count. Among the old libraries only those that are `firm` have got references. -/
structure Balance (start : State) (firm : So → Prop) (extra : So → ℕ) (L : State) : Prop where
  loaded : ∃ new, L.pool.loaded = start.pool.loaded ++ new
  counts : ∀ z ∈ L.solist,
    (L.info z).refcount = before start z + extra z + L.refs (isNew start) z
  out : ∀ z, z ∉ L.solist → extra z = 0 ∧ L.refs (isNew start) z = 0
  aimed : ∀ z ∈ start.solist, ¬ firm z → extra z = 0 ∧ L.refs (isNew start) z = 0

variable {start L M : State} {firm : So → Prop} {extra : So → ℕ} {si : So}

theorem isNew_eq {x : So} : isNew start x = true ↔ x ∉ start.solist := decide_eq_true_iff

theorem before_new {x : So} (h : x ∉ start.solist) : before start x = 0 := if_neg h

theorem Balance.old_mem (h : Balance start firm extra L) {x : So} (hx : x ∈ start.solist) :
    x ∈ L.solist := by
  obtain ⟨new, hn⟩ := h.loaded
  rcases mem_solist.mp hx with rfl | ⟨i, hi, rfl⟩
  · exact libdl_mem_solist L
  · rw [pool_mem_solist, hn]
    exact List.mem_append_left _ hi

theorem balance_start (h : ∀ x, extra x = 0) : Balance start firm extra start := by
  have hrefs : ∀ z, start.refs (isNew start) z = 0 := fun z =>
    PointSum.sum_eq_zero fun x hx => if_neg fun hn => isNew_eq.mp hn hx
  refine ⟨⟨[], (List.append_nil _).symm⟩, fun z hz => ?_, fun z _ => ⟨h z, hrefs z⟩,
    fun z _ _ => ⟨h z, hrefs z⟩⟩
  rw [h, hrefs, before, if_pos hz]
  rfl

theorem Balance.congr (h : Balance start firm extra L) (hp : M.pool.loaded = L.pool.loaded)
    (hr : ∀ x ∈ L.solist, (M.info x).refcount = (L.info x).refcount)
    (hy : ∀ x ∈ L.solist, ∀ y, (M.info x).payloads y = (L.info x).payloads y) :
    Balance start firm extra M := by
  have hs : M.solist = L.solist := solist_congr hp
  have hrefs : ∀ z, M.refs (isNew start) z = L.refs (isNew start) z := fun z =>
    refs_congr hs fun x hx => hy x hx z
  refine ⟨hp ▸ h.loaded, fun z hz => ?_, fun z hz => ?_, fun z hz hf => ?_⟩
  · rw [hs] at hz
    rw [hr z hz, hrefs]
    exact h.counts z hz
  · rw [hrefs]
    exact h.out z (hs ▸ hz)
  · rw [hrefs]
    exact h.aimed z hz hf

theorem Balance.one (h : Balance start firm extra L) (hp : M.pool = L.pool)
    (hi : ∀ x, x ≠ si → M.info x = L.info x)
    (hr : (M.info si).refcount = (L.info si).refcount)
    (hy : ∀ y, (M.info si).payloads y = (L.info si).payloads y) : Balance start firm extra M := by
  refine h.congr (by rw [hp]) (fun x _ => ?_) (fun x _ y => ?_) <;> by_cases hx : x = si
  · rw [hx, hr]
  · rw [hi x hx]
  · rw [hx, hy]
  · rw [hi x hx]

theorem balance_load {w : World} {lib : Name} {i : Slot} (h : Balance start firm extra L)
    (ha : Appended w L M lib i) : Balance start firm extra M := by
  have hs := ha.solist
  have hrefs : ∀ z, M.refs (isNew start) z = L.refs (isNew start) z := by
    intro z
    simp only [State.refs, hs, PointSum.sum_snoc, ha.payloads, ite_self, Nat.add_zero]
    exact PointSum.sum_congr fun x hx => by rw [ha.old hx]
  refine ⟨?_, fun z hz => ?_, fun z hz => ?_, fun z hz hf => ?_⟩
  · obtain ⟨new, hn⟩ := h.loaded
    exact ⟨new ++ [i], by rw [ha.loaded, hn, List.append_assoc]⟩
  · rw [hrefs]
    by_cases hzi : z = .pool i
    · subst hzi
      have hout := h.out _ ha.not_mem
      rw [ha.refcount, before_new fun hm => ha.not_mem (h.old_mem hm), hout.1, hout.2]
    · rw [ha.info z hzi]
      exact h.counts z (ha.mem_old hz hzi)
  · rw [hrefs]
    rw [hs, List.mem_append, not_or] at hz
    exact h.out z hz.1
  · rw [hrefs]
    exact h.aimed z hz hf

theorem balance_attach {lsi : So} {i v : ℕ} (h : Balance start firm extra L)
    (hsi : si ∈ L.solist) (hnew : si ∉ start.solist) (hm : lsi ∈ L.solist) (hne : lsi ≠ si)
    (he : (L.info si).entries[i]? = some ⟨.needed, .val v⟩)
    (hfirm : lsi ∈ start.solist → firm lsi) : Balance start firm extra (attach L si i lsi) := by
  have hrefs : ∀ z, (attach L si i lsi).refs (isNew start) z =
      L.refs (isNew start) z + if z = lsi then 1 else 0 := by
    intro z
    rw [refs_attach hsi he]
    simp only [isNew_eq, hnew, not_false_eq_true, true_and]
  refine ⟨h.loaded, fun z hz => ?_, fun z hz => ?_, fun z hz hf => ?_⟩
  · have hc := h.counts z hz
    rw [hrefs, attach_info L i hne]
    split_ifs with h1 h2
    · subst h1
      simp only
      omega
    · subst h2
      exact hc
    · exact hc
  · have hzl : z ≠ lsi := fun e => hz (e ▸ hm)
    rw [hrefs, if_neg hzl]
    exact h.out z hz
  · have hzl : z ≠ lsi := by
      rintro rfl
      exact hf (hfirm hz)
    rw [hrefs, if_neg hzl]
    exact h.aimed z hz hf

abbrev wasLive (start : State) (z : So) : Prop := (start.info z).Live

theorem LinkStep.balance {w : World} (hg : Grown start.solist start L)
    (h : Balance start (wasLive start) extra L) (hs : LinkStep w start.solist L M) :
    Balance start (wasLive start) extra M := by
  cases hs with
  | attempt ha =>
    have ha := loadLibrary_none ha
    refine h.congr ha.loaded (fun x hx => ?_) fun x hx y => ?_ <;> rw [ha.info x hx]
  | load _ ha => exact balance_load h (loadLibrary_some ha)
  | extract hf hx =>
    have hsame := extract_same hx
    refine h.one rfl (fun x hx => set_other _ _ hx) ?_ fun y => ?_ <;> rw [set_same]
    · exact hsame.refcount
    · exact hsame.payloads y
  | need hf he hm hne ht =>
    refine balance_attach h hf.mem hf.new hm hne he fun hold => ?_
    have hlive := ht.resolve_right fun hn => hn.1 hold
    exact (hg.kept _ hold hold).live.mp hlive
  | finish hf hd hr =>
    rename_i si
    obtain ⟨ts, flags, l_addr, l_name, hown, -⟩ := finishLink_own w L si
    refine h.one (finishLink_pool w L si) (fun x hx => finishLink_other w L hx) ?_ fun y => ?_ <;>
      rw [hown]
    rfl
  | fail hf =>
    refine h.one rfl (fun x hx => markError_other _ hx) ?_ fun y => ?_ <;>
      rw [markError, modify_same]
    rfl
  | unmap hm hn he => exact h.congr rfl (fun _ _ => rfl) fun _ _ _ => rfl

theorem LinkRun.balance {w : World} (hs : LinkRun w start.solist start L) :
    Balance start (wasLive start) (fun _ => 0) L := by
  induction hs with
  | refl => exact balance_start fun _ => rfl
  | tail hr hs ih => exact LinkStep.balance (LinkRun.grown hr) ih hs

theorem Balance.addRef (h : Balance start firm extra L) (hm : si ∈ L.solist)
    (hfirm : si ∈ start.solist → firm si) :
    Balance start firm (owe extra si) (addRef L si) := by
  have hrefs : ∀ z, (Linker.addRef L si).refs (isNew start) z = L.refs (isNew start) z := fun z =>
    refs_congr (L := L) (M := Linker.addRef L si) rfl fun x _ => addRef_payloads L si x z
  refine ⟨h.loaded, fun z hz => ?_, fun z hz => ?_, fun z hz hf => ?_⟩
  · have hc := h.counts z hz
    rw [hrefs, addRef_info, owe]
    split_ifs with hzs
    · subst hzs
      simp only
      omega
    · exact hc
  · have hzs : z ≠ si := fun e => hz (e ▸ hm)
    rw [hrefs, owe, if_neg hzs]
    exact h.out z hz
  · have hzs : z ≠ si := by
      rintro rfl
      exact hf (hfirm hz)
    rw [hrefs, owe, if_neg hzs]
    exact h.aimed z hz hf

abbrev wasHeld (start : State) (z : So) : Prop := 0 < before start z

/-- What is left to be closed: the new libraries can be torn down, have a reference, and their
payloads are edges of `r`. -/
structure Closing (start : State) (r : So → So → Prop) (extra : So → ℕ) (L : State) : Prop where
  balance : Balance start (wasHeld start) extra L
  standing : ∀ x ∈ L.solist, x ∉ start.solist →
    HasDynamic (L.info x) ∧ 0 < (L.info x).refcount
  edges : ∀ x y, NewNeeds start.solist L x y → r x y

variable {r : So → So → Prop}

theorem owe_same (extra : So → ℕ) (si : So) : owe extra si si = extra si + 1 := by
  rw [owe, if_pos rfl]

theorem owe_other {extra : So → ℕ} {x : So} (h : x ≠ si) : owe extra si x = extra x := by
  rw [owe, if_neg h, Nat.add_zero]

theorem Balance.owed_mem (h : Balance start firm (owe extra si) L) : si ∈ L.solist := by
  by_contra hn
  have h0 := (h.out si hn).1
  rw [owe_same] at h0
  cases h0

theorem Balance.owed_firm (h : Balance start firm (owe extra si) L) (hm : si ∈ start.solist) :
    firm si := by
  by_contra hn
  have h0 := (h.aimed si hm hn).1
  rw [owe_same] at h0
  cases h0

theorem Balance.owed_count (h : Balance start firm (owe extra si) L) :
    (L.info si).refcount = before start si + (extra si + 1) + L.refs (isNew start) si := by
  rw [h.counts si h.owed_mem, owe_same]

theorem Closing.new (h : Closing start r (owe extra si) L) (hone : (L.info si).refcount = 1) :
    si ∉ start.solist := by
  intro hm
  have hheld : 0 < before start si := h.balance.owed_firm hm
  have hcount := h.balance.owed_count
  omega

theorem keepLoaded_payloads (L : State) (si x y : So) :
    ((keepLoaded L si).info x).payloads y = (L.info x).payloads y := by
  rw [keepLoaded_info]
  split_ifs with hx
  · rw [hx]
    rfl
  · rfl

theorem Closing.keep (h : Closing start r (owe extra si) L) (hone : (L.info si).refcount ≠ 1) :
    Closing start r extra (keepLoaded L si) := by
  have hrefs : ∀ z, (keepLoaded L si).refs (isNew start) z = L.refs (isNew start) z := fun z =>
    refs_congr (L := L) (M := keepLoaded L si) rfl fun x _ => keepLoaded_payloads L si x z
  have hcount := h.balance.owed_count
  have hdec : decrement (L.info si).refcount = (L.info si).refcount - 1 :=
    if_neg (by omega)
  refine ⟨⟨h.balance.loaded, fun z hz => ?_, fun z hz => ?_, fun z hz hf => ?_⟩, fun x hx hn => ?_,
    fun x y hn => h.edges x y ?_⟩
  · rw [hrefs, keepLoaded_info]
    split_ifs with hzs
    · subst hzs
      simp only [hdec]
      omega
    · rw [h.balance.counts z hz, owe_other hzs]
  · have hzs : z ≠ si := fun e => hz (e ▸ h.balance.owed_mem)
    have howe : owe extra si z = extra z := owe_other hzs
    rw [hrefs, ← howe]
    exact h.balance.out z hz
  · have hzs : z ≠ si := by
      rintro rfl
      exact hf (h.balance.owed_firm hz)
    have howe : owe extra si z = extra z := owe_other hzs
    rw [hrefs, ← howe]
    exact h.balance.aimed z hz hf
  · obtain ⟨hd, hpos⟩ := h.standing x hx hn
    rw [keepLoaded_info]
    split_ifs with hxs
    · subst hxs
      refine ⟨hd, ?_⟩
      simp only [hdec]
      omega
    · exact ⟨hd, hpos⟩
  · obtain ⟨hm, hnew, hne⟩ := hn
    rw [needs_iff, keepLoaded_payloads] at hne
    exact ⟨hm, hnew, needs_iff.mpr hne⟩

theorem Closing.clear {i : ℕ} {v : DVal} {extra' : So → ℕ} (h : Closing start r extra L)
    (hm : si ∈ L.solist) (hnew : si ∉ start.solist)
    (he : (L.info si).entries[i]? = some ⟨.needed, v⟩)
    (hv : ∀ y, extra' y = extra y + if hits y ⟨.needed, v⟩ then 1 else 0) :
    Closing start r extra' (cleared L si i) := by
  have hother : ∀ x, x ≠ si → (cleared L si i).info x = L.info x := fun x hx =>
    modify_other _ _ hx
  have hrefs : ∀ z, (cleared L si i).refs (isNew start) z +
      (if hits z ⟨.needed, v⟩ then 1 else 0) = L.refs (isNew start) z := by
    intro z
    have hchange := refs_change (S := isNew start) (L := L) (M := cleared L si i) rfl hm hother z
    have hset := payloads_set ⟨.needed, .val 0⟩ he z
    have h0 : hits z ⟨.needed, .val 0⟩ = false := by simp [hits]
    have hsi := isNew_eq.mpr hnew
    rw [if_pos hsi, if_pos hsi] at hchange
    rw [h0, if_neg Bool.false_ne_true, Nat.add_zero] at hset
    rw [cleared, modify_same] at hchange
    unfold cleared
    omega
  have hfades : FadesBut (· = si) L (cleared L si i) := fades_cleared rfl he
  refine ⟨⟨h.balance.loaded, fun z hz => ?_, fun z hz => ?_, fun z hz hf => ?_⟩, fun x hx hn => ?_,
    fun x y hn => h.edges x y ⟨hn.1, hn.2.1, needs_fades hfades hn.2.2⟩⟩
  · have hc := h.balance.counts z hz
    have := hrefs z
    have := hv z
    rw [cleared_refcount]
    omega
  · have hc := h.balance.out z hz
    have := hrefs z
    have := hv z
    omega
  · have hc := h.balance.aimed z hz hf
    have := hrefs z
    have := hv z
    omega
  · obtain ⟨hd, hpos⟩ := h.standing x hx hn
    rw [cleared_refcount]
    exact ⟨(hfades.info x).dynamic hd, hpos⟩

theorem refs_release {i : Slot} (hm : .pool i ∈ L.solist)
    (hpay : ∀ y, (L.info (.pool i)).payloads y = 0) (y : So) :
    (release L (.pool i)).refs (isNew start) y = L.refs (isNew start) y := by
  have hinfo := release_info L (.pool i)
  have hsolist : (release L (.pool i)).solist = L.solist.erase (.pool i) := by
    rw [State.solist, release_loaded, free_loaded, State.solist,
      List.erase_cons_tail (by simp), List.map_erase fun a b h => by cases h; rfl]
  have hsum := List.sum_map_erase (fun x => if isNew start x then (L.info x).payloads y else 0) hm
  simp only [hpay, ite_self, zero_add] at hsum
  rw [State.refs, State.refs, ← hsum, hsolist]
  refine PointSum.sum_congr fun x hx => ?_
  have hne : x ≠ .pool i := by
    rintro rfl
    exact ((solist_nodup L).mem_erase_iff.mp hx).1 rfl
  rw [hinfo, if_neg hne]

theorem Closing.release (h : Closing start r (owe extra si) L) (hnew : si ∉ start.solist)
    (hextra : extra si = 0) (hrefs0 : L.refs (isNew start) si = 0)
    (hpay : ∀ y, (L.info si).payloads y = 0) : Closing start r extra (release L si) := by
  have hmem := h.balance.owed_mem
  have hfades := fades_release (E := fun _ => True) L si
  have hother : ∀ z, z ≠ si → (Unload.release L si).info z = L.info z := fun z hz => by
    rw [release_info, if_neg hz]
  cases si with
  | libdl => exact absurd (libdl_mem_solist start) hnew
  | pool i =>
    have hrefs : ∀ y, (Unload.release L (.pool i)).refs (isNew start) y =
        L.refs (isNew start) y := refs_release hmem hpay
    have hne : ∀ z ∈ (Unload.release L (.pool i)).solist, z ≠ .pool i := by
      rintro z hz rfl
      exact release_gone L i hz
    have howed : ∀ z, z ≠ .pool i → owe extra (.pool i) z = extra z := fun z hz => owe_other hz
    refine ⟨⟨?_, fun z hz => ?_, fun z hz => ?_, fun z hz hf => ?_⟩, fun x hx hn => ?_,
      fun x y hn => h.edges x y ⟨hfades.solist.subset hn.1, hn.2.1, needs_fades hfades hn.2.2⟩⟩
    · obtain ⟨new, hn⟩ := h.balance.loaded
      refine ⟨new.erase i, ?_⟩
      rw [release_loaded, free_loaded, hn, List.erase_append_right]
      exact mt pool_mem_solist.mpr hnew
    · rw [hother z (hne z hz), hrefs, ← howed z (hne z hz)]
      exact h.balance.counts z (hfades.solist.subset hz)
    · rw [hrefs]
      by_cases hzi : z = .pool i
      · subst hzi
        exact ⟨hextra, hrefs0⟩
      · rw [← howed z hzi]
        refine h.balance.out z fun hm => hz ?_
        rcases z with - | j
        · exact libdl_mem_solist _
        · rw [pool_mem_solist, release_loaded, mem_free_loaded]
          exact ⟨fun e => hzi (e ▸ rfl), pool_mem_solist.mp hm⟩
    · have hzi : z ≠ .pool i := fun e => hnew (e ▸ hz)
      rw [hrefs, ← howed z hzi]
      exact h.balance.aimed z hz hf
    · rw [hother x (hne x hx)]
      exact h.standing x (hfades.solist.subset hx) hn

theorem Closing.needed {unload : State → So → Except Fault State} {i : ℕ} {n : ℕ}
    (hu : ∀ {extra : So → ℕ} {L : State} {x : So}, Closing start r (owe extra x) L →
      rank r x < n → ∃ M, unload L x = .ok M ∧ Closing start r extra M)
    (hn : ∀ y, r si y → rank r y < n) (h : Closing start r (owe extra si) L)
    (hnew : si ∉ start.solist) :
    ∃ M, unloadNeeded unload si L i = .ok M ∧ Closing start r (owe extra si) M := by
  have hm := h.balance.owed_mem
  rcases unloadNeeded_cases unload si L i with ⟨lsi, he, hun⟩ | ⟨k, he, hun⟩ | ⟨-, hun⟩ <;>
    rw [hun]
  · have hr : r si lsi := h.edges si lsi ⟨hm, hnew, needs_entry he⟩
    refine hu (h.clear hm hnew he fun y => ?_) (hn lsi hr)
    have hhit : (hits y ⟨.needed, .so lsi⟩ = true) ↔ y = lsi := by simp [hits, eq_comm]
    simp only [hhit]
    rfl
  · exact ⟨_, rfl, h.clear hm hnew he fun y => by simp [hits]⟩
  · exact ⟨L, rfl, h⟩

/-- Unloading pays back the reference it is called for, and it ends. -/
theorem unload_settles (hr : Acyclic r) (fuel : ℕ) :
    ∀ {extra : So → ℕ} {L : State} {si : So}, Closing start r (owe extra si) L →
      rank r si < fuel → ∃ M, unloadLibrary fuel L si = .ok M ∧ Closing start r extra M := by
  induction fuel with
  | zero =>
    intro extra L si _ hf
    cases hf
  | succ fuel ih =>
    intro extra L si h hf
    by_cases hone : (L.info si).refcount = 1
    · have hnew := h.new hone
      obtain ⟨⟨ds, hds⟩, -⟩ := h.standing si h.balance.owed_mem hnew
      have hrank : ∀ y, r si y → rank r y < fuel := fun y hy =>
        (rank_lt hr hy).trans_le (Nat.le_of_lt_succ hf)
      have hstart : Closing start r (owe extra si) (callDestructors L si) :=
        ⟨⟨h.balance.loaded, h.balance.counts, h.balance.out, h.balance.aimed⟩, h.standing, h.edges⟩
      obtain ⟨M, hM, hclosing, hfades⟩ := except_total
        (P := fun K => Closing start r (owe extra si) K ∧
          FadesBut (fun x => x = .libdl ∨ x = si) (callDestructors L si) K)
        (f := unloadNeeded (unloadLibrary fuel) si) (l := List.range ds.length)
        (fun K i _ hK => by
          obtain ⟨N, hN, hc⟩ := hK.1.needed ih hrank hnew
          exact ⟨N, hN, hc, hK.2.trans (unloadNeeded_fades (unload_fades fuel) hN)⟩)
        ⟨hstart, FadesBut.refl _⟩
      have hcount := h.balance.owed_count
      have hle : M.refs (isNew start) si ≤ L.refs (isNew start) si :=
        refs_sublist hfades.solist (fun x _ => (hfades.info x).payloads) si
      have hpay := unloadLoop_clears (entries_of_found hds ▸ le_refl _) hM
      exact ⟨release M si, unload_tears hone hds hM,
        hclosing.release hnew (by omega) (by omega) hpay⟩
    · exact ⟨keepLoaded L si, unload_keeps hone fuel, h.keep hone⟩

theorem closing_end (hr : Acyclic r) (h : Closing start r (fun _ => 0) L) :
    ∀ x ∈ L.solist, x ∈ start.solist := by
  by_contra hno
  push Not at hno
  -- the new library that leads to the most others has no library that needs it
  obtain ⟨z, ⟨hz, hnew⟩, hmax⟩ := Set.exists_max_image
    {x | x ∈ L.solist ∧ x ∉ start.solist} (rank r) (Set.toFinite _) hno
  have hcount := h.balance.counts z hz
  have hpos := (h.standing z hz hnew).2
  rw [before_new hnew] at hcount
  have hrefs : L.refs (isNew start) z ≠ 0 := by omega
  obtain ⟨x, hx, hxz⟩ : ∃ x ∈ L.solist,
      (if isNew start x then (L.info x).payloads z else 0) ≠ 0 := by
    by_contra hall
    push Not at hall
    exact hrefs (PointSum.sum_eq_zero hall)
  have hxn : x ∉ start.solist := by
    by_contra hold
    exact hxz (if_neg fun hn => isNew_eq.mp hn hold)
  rw [if_pos (isNew_eq.mpr hxn)] at hxz
  have hedge : r x z := h.edges x z ⟨hx, hxn, needs_iff.mpr (Nat.pos_of_ne_zero hxz)⟩
  exact absurd (rank_lt hr hedge) (hmax x ⟨hx, hxn⟩).not_gt

/-- Every DT_NEEDED entry of a new library points to a library of the pool. -/
def PoolNeeded (start L : State) : Prop :=
  ∀ x ∈ L.solist, x ∉ start.solist → ∀ d ∈ (L.info x).entries, d.d_tag = .needed →
    ∃ i, d.d_un = .so (.pool i)

theorem PoolNeeded.payloads (h : PoolNeeded start L) {x : So} (hx : x ∈ L.solist)
    (hnew : x ∉ start.solist) : (L.info x).payloads .libdl = 0 := by
  rw [payloads_eq, List.countP_eq_zero]
  intro d hd hhit
  simp only [hits, Bool.and_eq_true, decide_eq_true_eq] at hhit
  obtain ⟨i, hi⟩ := h x hx hnew d hd hhit.1
  rw [hi] at hhit
  cases hhit.2

structure Handed (K L : State) (si : So) : Prop where
  solist : L.solist = K.solist
  loaded : L.pool.loaded = K.pool.loaded
  payloads : ∀ x y, (L.info x).payloads y = (K.info x).payloads y
  dynamic : ∀ x, (L.info x).dynamic = (K.info x).dynamic
  refcount : ∀ x, (L.info x).refcount = (K.info x).refcount + if x = si then 1 else 0

theorem handed {K N : State} (hc : Constructed K N) : Handed K (addRef N si) si where
  solist := hc.solist
  loaded := congrArg Pool.loaded hc.pool
  payloads x y := by
    rw [addRef_payloads, hc.info x]
    rfl
  dynamic x := by
    rw [addRef_info]
    split_ifs with hx
    · rw [hx, hc.info si]
    · rw [hc.info x]
  refcount x := by
    rw [addRef_info]
    split_ifs with hx
    · rw [hx, hc.info si]
    · rw [hc.info x]
      rfl

theorem closing_opened {w : World} {fuel : ℕ} {name : Name} {host : Option ℕ} {K N : State}
    (href : Referenced start) (hl : (start.info .libdl).Live)
    (hf : findLibrary w fuel start name = some (K, some si, host))
    (hN : callConstructorsRecursive fuel K si = some N) (hnew : si ∉ start.solist)
    (hneed : PoolNeeded start (addRef N si)) :
    Acyclic (NewNeeds start.solist (addRef N si)) ∧
      Closing start (NewNeeds start.solist (addRef N si)) (owe (fun _ => 0) si) (addRef N si) := by
  have hc := callConstructors_constructed fuel hN
  have hh : Handed K (addRef N si) si := handed hc
  have hfound := findLibrary_found w fuel _ _ _ _ _ hl hf
  have hbrought := findLibrary_brought w fuel _ _ _ _ _ hl hf
  have hsprung : Sprung start.solist [] K := StackRun.sprung (p := (start, []))
    (sprung_start fun _ hx => hx)
    (findLibrary_stack w fuel _ _ _ _ _ [] hl (fun x hx => absurd hx List.not_mem_nil) hf).run
  have hedges : ∀ x y, NewNeeds start.solist (addRef N si) x y → NewNeeds start.solist K x y := by
    rintro x y ⟨hx, hxn, hn⟩
    rw [needs_iff, hh.payloads] at hn
    exact ⟨hh.solist ▸ hx, hxn, needs_iff.mpr hn⟩
  have hbal : Balance start (wasLive start) (owe (fun _ => 0) si) (addRef N si) := by
    have hK := LinkRun.balance hfound.run
    have hN : Balance start (wasLive start) (fun _ => 0) N := by
      refine hK.congr (by rw [hc.pool]) (fun x _ => ?_) fun x _ y => ?_ <;> rw [hc.info x]
      rfl
    exact hN.addRef (hc.solist ▸ hfound.mem si rfl) fun hm => absurd hm hnew
  refine ⟨hsprung.acyclic.mono hedges, ⟨hbal.loaded, hbal.counts, hbal.out, fun z hz hno => ?_⟩,
    fun x hx hxn => ?_, fun _ _ => id⟩
  · by_cases hlive : wasLive start z
    · cases z with
      | libdl =>
        have hne : So.libdl ≠ si := fun e => hnew (e ▸ libdl_mem_solist start)
        refine ⟨owe_other hne, PointSum.sum_eq_zero fun x hx => ?_⟩
        split_ifs with hxn
        · exact hneed.payloads hx (isNew_eq.mp hxn)
        · rfl
      | pool i =>
        refine absurd ?_ hno
        rw [wasHeld, before, if_pos hz]
        exact href i hz hlive
    · exact hbal.aimed z hz hlive
  · rw [hh.solist] at hx
    rcases hbrought x hx hxn with hready | ⟨-, hlost⟩
    · refine ⟨?_, ?_⟩
      · rw [HasDynamic, hh.dynamic]
        exact hready.dynamic
      · rw [hh.refcount]
        rcases hready.counted with e | hpos
        · rw [if_pos (Option.some.inj e).symm]
          exact Nat.succ_pos _
        · exact Nat.add_pos_left hpos _
    · obtain ⟨y, hy, hyn, hpos⟩ := hlost.resolve_left (Option.some_ne_none si)
      have h0 := hneed.payloads (hh.solist ▸ hy) hyn
      rw [hh.payloads] at h0
      omega

theorem closed_restored (hr : Acyclic r) (h : Closing start r (fun _ => 0) M) :
    M.solist = start.solist ∧
      ∀ x ∈ start.solist, (M.info x).refcount = (start.info x).refcount := by
  have hend := closing_end hr h
  have hsolist : M.solist = start.solist := by
    obtain ⟨new, hn⟩ := h.balance.loaded
    have hnodup := hn ▸ M.pool.loaded_nodup
    have hnil : new = [] := by
      refine List.eq_nil_iff_forall_not_mem.mpr fun i hi => ?_
      have hold := hend (.pool i) (pool_mem_solist.mpr (hn ▸ List.mem_append_right _ hi))
      exact (List.nodup_append'.mp hnodup).2.2 (pool_mem_solist.mp hold) hi
    exact solist_congr (by rw [hn, hnil, List.append_nil])
  refine ⟨hsolist, fun x hx => ?_⟩
  have hrefs : M.refs (isNew start) x = 0 := PointSum.sum_eq_zero fun y hy =>
    if_neg fun hn => isNew_eq.mp hn (hend y hy)
  rw [h.balance.counts x (hsolist ▸ hx), hrefs, before, if_pos hx]
  rfl

end Bionic.RoundTrip
