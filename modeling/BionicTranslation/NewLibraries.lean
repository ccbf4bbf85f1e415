import BionicTranslation.LinkFlags
import BionicTranslation.SearchTree
import BionicTranslation.RefLedger

/-!
# The libraries a search brings in

A library that is linked without an error is handed to whoever asked for it, and that
call takes a reference. So a linked library on the list always has one, in every run of
calls, and a library that failed has left a payload for libdl behind.
-/

set_option autoImplicit false

namespace Bionic.NewLibraries
open Bionic.Slots Bionic.Records Bionic.Linker Bionic.Unload Bionic.FoldRules Bionic.LinkFrame
open Bionic.LinkSteps Bionic.CallFrame Bionic.LinkFlags Bionic.RefLedger Bionic.SearchTree

def Missed (old : List So) (L : State) : Prop :=
  ∃ x ∈ L.solist, x ∉ old ∧ 0 < (L.info x).payloads .libdl

structure Ready (L : State) (r : Option So) (x : So) : Prop where
  dynamic : HasDynamic (L.info x)
  counted : r = some x ∨ 0 < (L.info x).refcount

def Brought (old : List So) (new : So → Prop) (L : State) (r : Option So) : Prop :=
  ∀ x ∈ L.solist, new x → Ready L r x ∨
    (L.info x).flags.error = true ∧ (r = none ∨ Missed old L)

variable {L M N : State} {old : List So} {si : So}

theorem Missed.later (h : Missed old L) (hm : ∀ x ∈ L.solist, x ∈ M.solist)
    (hp : ∀ x ∈ L.solist, (L.info x).payloads .libdl ≤ (M.info x).payloads .libdl) :
    Missed old M := by
  obtain ⟨x, hx, hnew, hpos⟩ := h
  exact ⟨x, hm x hx, hnew, hpos.trans_le (hp x hx)⟩

theorem Kept.payloads {s t : Soinfo} (h : Kept s t) (y : So) : t.payloads y = s.payloads y := by
  rw [h.rest]
  rfl

theorem Kept.hasDynamic {s t : Soinfo} (h : Kept s t) (hs : HasDynamic s) : HasDynamic t := by
  rwa [HasDynamic, h.dynamic]

theorem Missed.run {w : World} (h : Missed old L) (hr : LinkRun w L.solist L M) : Missed old M :=
  h.later (fun _ hx => hr.grown.mem hx) fun x hx =>
    (Kept.payloads (hr.grown.kept x hx hx) .libdl).ge

section attach
variable {lsi : So} {i v : ℕ}

theorem attach_keeps (hne : lsi ≠ si) {x : So} (hx : x ≠ si) :
    Placed (L.info x) ((attach L si i lsi).info x) ∧
      ((attach L si i lsi).info x).dynamic = (L.info x).dynamic ∧
      ((attach L si i lsi).info x).flags = (L.info x).flags := by
  rw [attach_info L i hne]
  split_ifs with h
  · subst h
    exact ⟨⟨rfl, rfl, rfl, rfl, rfl, Nat.le_succ _⟩, rfl, rfl⟩
  · exact ⟨Placed.refl _, rfl, rfl⟩

theorem missed_attach (h : Missed old L) (he : (L.info si).entries[i]? = some ⟨.needed, .val v⟩) :
    Missed old (attach L si i lsi) := by
  refine h.later (fun _ hx => hx) fun x _ => ?_
  rw [attach_payloads he]
  exact Nat.le_add_right _ _

end attach

def BroughtSpec (find : Find) : Prop :=
  ∀ L lib L' r host, (L.info .libdl).Live → find L lib = some (L', r, host) →
    Brought L.solist (· ∉ L.solist) L' r

theorem linkNeeded_brought {w : World} {find : Find} (hfind : FindSpec w find)
    (hspec : BroughtSpec find) {s : Soinfo} {i : ℕ} (hb : Base old L)
    (hM : Linking w old L M si s) (hbr : Brought old (fun x => x ∉ old ∧ x ≠ si) M (some si))
    (h : linkNeeded find si M i = some N) :
    Brought old (fun x => x ∉ old ∧ x ≠ si) N (some si) := by
  by_cases he : ∃ v, (M.info si).entries[i]? = some ⟨.needed, .val v⟩
  · obtain ⟨v, he⟩ := he
    obtain ⟨M1, r, host, hr, rfl⟩ := linkNeeded_needed he h
    have hbM := hb.later hM.run
    have hs := hfind _ _ _ _ _ hbM.live hr
    have hnew := hspec _ _ _ _ _ hbM.live hr
    obtain ⟨hf1, heq⟩ := hs.run.keeps_fresh hM.fresh
    obtain ⟨-, hne, -⟩ := hs.target hbM (hbM.later (hs.run.mono hbM.sub)) hM.fresh
    rw [← heq] at he
    have hmissed : ∀ {old'}, (∀ x ∈ old, x ∈ old') → Missed old' M1 →
        Missed old (attach M1 si i (r.getD .libdl)) := by
      intro old' hsub ⟨x, hx, hn, hp⟩
      exact missed_attach ⟨x, hx, fun ho => hn (hsub x ho), hp⟩ he
    intro x hx ⟨hold, hsi⟩
    obtain ⟨hplaced, hdyn, hflags⟩ := attach_keeps (L := M1) (i := i) hne hsi
    by_cases hxM : x ∈ M.solist
    · -- the library was there before this entry
      have hkept := hs.run.grown.kept x hxM hxM
      rcases hbr x hxM ⟨hold, hsi⟩ with hready | ⟨herr, hlost⟩
      · refine Or.inl ⟨?_, Or.inr ?_⟩
        · rw [HasDynamic, hdyn]
          exact Kept.hasDynamic hkept hready.dynamic
        · have hpos := hready.counted.resolve_left fun e => hsi (Option.some.inj e).symm
          exact hpos.trans_le (hkept.grows.trans hplaced.grows)
      · refine Or.inr ⟨?_, Or.inr ?_⟩
        · rwa [hflags, hkept.flags]
        · exact hmissed (fun _ hy => hy) ((hlost.resolve_left nofun).run hs.run)
    · rcases hnew x hx hxM with hready | ⟨herr, hlost⟩
      · refine Or.inl ⟨?_, Or.inr ?_⟩
        · rw [HasDynamic, hdyn]
          exact hready.dynamic
        · rcases hready.counted with rfl | hpos
          · rw [attach_info M1 i hne, if_pos (Option.getD_some ..).symm]
            exact Nat.succ_pos _
          · exact hpos.trans_le hplaced.grows
      · refine Or.inr ⟨by rwa [hflags], Or.inr ?_⟩
        rcases hlost with rfl | hlost
        · -- libdl is stored in the entry
          refine ⟨si, hf1.mem, hf1.new, ?_⟩
          rw [attach_payloads he, if_pos ⟨rfl, rfl⟩]
          exact Nat.succ_pos _
        · exact hmissed hbM.sub hlost
  · rw [linkNeeded_other fun v hv => he ⟨v, hv⟩] at h
    cases h
    exact hbr

theorem brought_congr {new : So → Prop} {r : Option So} (h : Brought old new L r)
    (hs : M.solist = L.solist) (hi : ∀ x, new x → M.info x = L.info x)
    (hp : ∀ x y, (M.info x).payloads y = (L.info x).payloads y) : Brought old new M r := by
  intro x hx hnew
  rw [hs] at hx
  rcases h x hx hnew with ⟨hd, hc⟩ | ⟨he, hm⟩
  · exact Or.inl ⟨by rwa [hi x hnew], by rwa [hi x hnew]⟩
  · exact Or.inr ⟨by rwa [hi x hnew], hm.imp_right fun hm =>
      hm.later (fun x hx => hs ▸ hx) fun x _ => (hp x _).ge⟩

theorem linkImage_brought {w : World} {find : Find} (hfind : FindSpec w find)
    (hspec : BroughtSpec find) {ok : Bool} (hb : Base old L) (hf : Fresh L old si)
    (hall : ∀ x ∈ L.solist, x ∈ old ∨ x = si) (h : linkImage find w L si = some (N, ok)) :
    Brought old (fun x => x ∉ old ∧ x ≠ si) N (some si) := by
  have hnone : ∀ {K : State}, K.solist = L.solist →
      Brought old (fun x => x ∉ old ∧ x ≠ si) K (some si) := fun hK x hx hnew =>
    absurd (hall x (hK ▸ hx)) (not_or.mpr hnew)
  rcases linkImage_cases h with ⟨rfl, rfl⟩ | ⟨ds, hd, ⟨s, hx, rfl, rfl⟩ |
    ⟨s, hx, ⟨-, rfl, rfl⟩ | ⟨-, M, hfin, hM⟩⟩⟩
  · exact hnone rfl
  · exact hnone rfl
  · exact hnone rfl
  · have hloop := (option_invariant (P := fun K => Linking w old L K si s ∧
        Brought old (fun x => x ∉ old ∧ x ≠ si) K (some si))
      (fun K i K' _ hK hK' => ⟨linkNeeded_step hfind hb hK.1 hK',
        linkNeeded_brought hfind hspec hb hK.1 hK.2 hK'⟩)
      ⟨linking_start hf hd hx, hnone rfl⟩ hM).2
    obtain ⟨ts, flags, l_addr, l_name, hown, -⟩ := finishLink_own w M si
    have hpool := finishLink_pool w M si
    have hother : ∀ x, x ≠ si → (finishLink w M si).1.info x = M.info x := fun x hx =>
      finishLink_other w M hx
    rw [hfin] at hown hpool hother
    refine brought_congr hloop (solist_congr (by rw [hpool])) (fun x hx => hother x hx.2) ?_
    intro x y
    by_cases hx : x = si
    · rw [hx, hown]
      rfl
    · rw [hother x hx]

theorem findLibrary_brought (w : World) (fuel : ℕ) : BroughtSpec (findLibrary w fuel) := by
  induction fuel with
  | zero =>
    intro L lib L' r host _ h
    cases h
  | succ fuel ih =>
    intro L lib L' r host hl h
    rcases findLibrary_cases h with ⟨x, hn, rfl, rfl⟩ | ⟨-, rfl, hload⟩ |
      ⟨hn, L1, L2, i, host', ok, hload, hlink, hend⟩
    · exact fun x hx hnew => absurd hx hnew
    · intro x hx hnew
      rw [(loadLibrary_none hload).solist] at hx
      exact absurd hx hnew
    · have happ := loadLibrary_some hload
      have hfresh := appended_fresh happ
      have hbase := base_loaded hl hn hload
      have hlinked := linkImage_linked (findLibrary_found w fuel) hbase hfresh hlink
      have hall : ∀ x ∈ L1.solist, x ∈ L.solist ∨ x = .pool i := fun x hx =>
        or_iff_not_imp_right.mpr (happ.mem_old hx)
      have hbr := linkImage_brought (findLibrary_found w fuel) ih hbase hfresh hall hlink
      rcases hend with ⟨rfl, rfl, rfl⟩ | ⟨rfl, rfl, rfl⟩
      · intro x hx hnew
        by_cases hxi : x = .pool i
        · subst hxi
          exact Or.inl ⟨hlinked.dynamic rfl, Or.inl rfl⟩
        · exact hbr x hx ⟨hnew, hxi⟩
      · intro x hx hnew
        by_cases hxi : x = .pool i
        · subst hxi
          exact Or.inr ⟨hlinked.error rfl, Or.inl rfl⟩
        · rcases hbr x hx ⟨hnew, hxi⟩ with hready | ⟨herr, -⟩
          · refine Or.inl ⟨hready.dynamic, Or.inr ?_⟩
            exact hready.counted.resolve_left fun e => hxi (Option.some.inj e).symm
          · exact Or.inr ⟨herr, Or.inl rfl⟩

def Referenced (L : State) : Prop :=
  ∀ i, .pool i ∈ L.solist → (L.info (.pool i)).Live → 0 < (L.info (.pool i)).refcount

theorem referenced_search {w : World} {fuel : ℕ} {lib : Name} {r : Option So} {host : Option ℕ}
    (h : Referenced L) (hl : (L.info .libdl).Live)
    (hf : findLibrary w fuel L lib = some (M, r, host)) :
    ∀ i, .pool i ∈ M.solist → (M.info (.pool i)).Live →
      r = some (.pool i) ∨ 0 < (M.info (.pool i)).refcount := by
  intro i hi hlive
  have hfound := findLibrary_found w fuel _ _ _ _ _ hl hf
  by_cases hold : .pool i ∈ L.solist
  · have hkept := hfound.run.grown.kept _ hold hold
    exact Or.inr ((h i hold (hkept.live.mp hlive)).trans_le hkept.grows)
  · rcases findLibrary_brought w fuel _ _ _ _ _ hl hf _ hi hold with hready | ⟨herr, -⟩
    · exact hready.counted
    · exact absurd (hlive.2.symm.trans herr) Bool.false_ne_true

theorem constructed_live (hc : Constructed L M) (x : So) : (M.info x).Live ↔ (L.info x).Live := by
  rw [hc.info x]
  rfl

theorem referenced_dlopen {w : World} {fuel : ℕ} {name : Option Name} {r : Option Handle}
    (h : Referenced L) (hl : (L.info .libdl).Live)
    (ho : bionicDlopen w fuel L name = some (M, r)) : Referenced M := by
  rcases dlopen_cases ho with ⟨rfl, -⟩ | ⟨name, host, hf, -⟩ |
    ⟨name, K, N, si, host, hf, hN, rfl, -⟩
  · exact h
  · exact fun i hi hlive => (referenced_search h hl hf i hi hlive).resolve_left nofun
  · have hc := callConstructors_constructed fuel hN
    intro i hi hlive
    rw [addRef_info] at hlive ⊢
    split_ifs at hlive ⊢ with hx
    · exact Nat.succ_pos _
    · have hmem : .pool i ∈ K.solist := hc.solist ▸ hi
      rw [constructed_live hc] at hlive
      have hpos := (referenced_search h hl hf i hmem hlive).resolve_left fun e =>
        hx (Option.some.inj e).symm
      rw [hc.info]
      exact hpos

theorem decrement_pos {n : ℕ} (h : n ≠ 1) : 0 < decrement n := by
  unfold decrement
  split_ifs <;> omega

theorem referenced_unload (fuel : ℕ) : ∀ {L M : State} {si : So}, Referenced L →
    unloadLibrary fuel L si = .ok M → Referenced M := by
  induction fuel with
  | zero =>
    intro L M si _ h
    cases h
  | succ fuel ih =>
    intro L M si hL h
    rcases unload_cases h with ⟨hone, rfl⟩ | ⟨-, ds, N, -, hN, rfl⟩
    · intro i hi hlive
      rw [keepLoaded_info] at hlive ⊢
      split_ifs at hlive ⊢ with hx
      · exact decrement_pos hone
      · exact hL i hi hlive
    · have hcleared : ∀ {K : State} (k : ℕ), Referenced K → Referenced (cleared K si k) := by
        intro K k hK i hi hlive
        have hrest : (cleared K si k).info (.pool i) =
            { K.info (.pool i) with dynamic := ((cleared K si k).info (.pool i)).dynamic } := by
          unfold cleared
          by_cases hx : So.pool i = si
          · rw [← hx, modify_same]
            rfl
          · rw [modify_other _ _ hx]
        rw [hrest] at hlive ⊢
        exact hK i hi hlive
      have hloop : Referenced N := by
        refine except_invariant (P := Referenced) (fun K k K' _ hK hK' => ?_)
          (show Referenced (callDestructors L si) from hL) hN
        rcases unloadNeeded_cases (unloadLibrary fuel) si K k with ⟨lsi, -, hn⟩ | ⟨n, -, hn⟩ |
          ⟨-, hn⟩ <;> rw [hn] at hK'
        · exact ih (hcleared k hK) hK'
        · cases hK'
          exact hcleared k hK
        · cases hK'
          exact hK
      intro i hi hlive
      have hsub := (fades_release (E := fun _ => True) N si).solist.subset hi
      have hne : So.pool i ≠ si := by
        rintro rfl
        exact release_gone N i hi
      rw [release_info, if_neg hne] at hlive ⊢
      exact hloop i hsub hlive

theorem referenced_dlclose {foreign : ℕ → Option ℕ} {fuel : ℕ} {h : Handle}
    (hL : Referenced L) (hc : bionicDlclose foreign fuel L h = .ok M) : Referenced M := by
  cases h with
  | so si => exact referenced_unload fuel hL hc
  | host n =>
    rw [(dlclose_host hc).1]
    exact hL

theorem reachable_referenced {C : Sys → Act → Sys → Prop} {s : Sys} (h : Reachable C s) :
    Referenced s.linker := by
  induction h with
  | initial => exact fun i hi => absurd (pool_mem_solist.mp hi) List.not_mem_nil
  | step hr _ hs ih =>
    cases hs with
    | dlopen ho => exact referenced_dlopen ih (reachable_tidy hr).live ho
    | dlclose hc => exact referenced_dlclose ih hc

end Bionic.NewLibraries
