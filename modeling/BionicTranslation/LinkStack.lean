import BionicTranslation.LinkSteps

/-!
# A search and the libraries it is linking

The libraries that are being linked form a stack. With it a step of a search can
say that a payload points neither to a library on the stack nor to one that failed
to link. Invariants that rest on this are proved for one step and hold for the
search.
-/

set_option autoImplicit false

namespace Bionic.LinkStack
open Bionic.Slots Bionic.Records Bionic.Linker Bionic.FoldRules Bionic.LinkFrame Bionic.LinkSteps

inductive StackStep (w : World) (old : List So) : State × List So → State × List So → Prop where
  | attempt {L L' : State} {b : List So} {lib : Name} {host : Option ℕ}
      (h : loadLibrary w L lib = (L', none, host)) : StackStep w old (L, b) (L', b)
  | push {L L' : State} {b : List So} {lib : Name} {host : Option ℕ} {i : Slot}
      (hname : lookupName L (basename lib) = none)
      (h : loadLibrary w L lib = (L', some i, host)) :
      StackStep w old (L, b) (L', .pool i :: b)
  | extract {L : State} {b : List So} {si : So} {s : Soinfo} {r : ℕ} (hf : Fresh L old si)
      (h : extract r (L.info si) = .ok s ∨ extract r (L.info si) = .error s) :
      StackStep w old (L, si :: b) (L.set si s, si :: b)
  | need {L : State} {b : List So} {si lsi : So} {i v : ℕ} (hf : Fresh L old si)
      (he : (L.info si).entries[i]? = some ⟨.needed, .val v⟩) (hm : lsi ∈ L.solist)
      (ht : Target L old lsi) (hb : lsi ∉ si :: b) (hc : (L.info lsi).flags.error = false) :
      StackStep w old (L, si :: b) (attach L si i lsi, si :: b)
  | finish {L : State} {b : List So} {si : So} (hf : Fresh L old si) (hd : HasDynamic (L.info si))
      (hr : Resolved (L.info si)) :
      StackStep w old (L, si :: b) ((finishLink w L si).1, si :: b)
  | fail {L : State} {b : List So} {si : So} (hf : Fresh L old si) :
      StackStep w old (L, si :: b) (markError L si, si :: b)
  | keep {L : State} {b : List So} {si : So} (hc : (L.info si).flags.error = false) :
      StackStep w old (L, si :: b) (L, b)
  | drop {L : State} {b : List So} {i : Slot} (hm : .pool i ∈ L.solist) (hn : .pool i ∉ old)
      (hb : .pool i ∉ b) (he : (L.info (.pool i)).flags.error = true) :
      StackStep w old (L, .pool i :: b)
        ((L.munmap (L.info (.pool i)).base (L.info (.pool i)).size).log [.linkFailed i], b)

abbrev StackRun (w : World) (old : List So) : State × List So → State × List So → Prop :=
  Relation.ReflTransGen (StackStep w old)

theorem StackStep.mono {w : World} {old new : List So} (h : ∀ x ∈ old, x ∈ new)
    {p q : State × List So} (hs : StackStep w new p q) : StackStep w old p q := by
  cases hs with
  | attempt h1 => exact .attempt h1
  | push h1 h2 => exact .push h1 h2
  | extract hf h1 => exact .extract (hf.mono h) h1
  | need hf he hm ht hb hc =>
    exact .need (hf.mono h) he hm (ht.imp id fun hn => ⟨fun hx => hn.1 (h _ hx), hn.2⟩) hb hc
  | finish hf hd hr => exact .finish (hf.mono h) hd hr
  | fail hf => exact .fail (hf.mono h)
  | keep hc => exact .keep hc
  | drop hm hn hb he => exact .drop hm (fun hx => hn (h _ hx)) hb he

theorem StackRun.mono {w : World} {old new : List So} (h : ∀ x ∈ old, x ∈ new)
    {p q : State × List So} (hs : StackRun w new p q) : StackRun w old p q := by
  induction hs with
  | refl => exact .refl
  | tail _ hs ih => exact ih.tail (hs.mono h)

theorem StackStep.link {w : World} {old : List So} {p q : State × List So}
    (h : StackStep w old p q) : LinkRun w old p.1 q.1 := by
  cases h with
  | attempt h => exact .single (.attempt h)
  | push hn h => exact .single (.load hn h)
  | extract hf h => exact .single (.extract hf h)
  | need hf he hm ht hb hc =>
    exact .single (.need hf he hm (fun e => hb (e ▸ List.mem_cons_self)) ht)
  | finish hf hd hr => exact .single (.finish hf hd hr)
  | fail hf => exact .single (.fail hf)
  | keep hc => exact .refl
  | drop hm hn hb he => exact .single (.unmap hm hn he)

theorem StackRun.link {w : World} {old : List So} {p q : State × List So}
    (h : StackRun w old p q) : LinkRun w old p.1 q.1 := by
  induction h with
  | refl => exact .refl
  | tail _ hs ih => exact ih.trans hs.link

def Shut (L : State) (x : So) : Prop := x ∈ L.solist ∧ ¬ (L.info x).Live

theorem Shut.later {w : World} {old : List So} {L M : State} {x : So} (h : Shut L x)
    (hx : x ∈ old) (hr : LinkRun w old L M) : Shut M x :=
  ⟨hr.grown.mem h.1, fun hl => h.2 ((hr.grown.kept x hx h.1).live.mp hl)⟩

structure Stacked (w : World) (L L' : State) (b : List So) (r : Option So) : Prop where
  run : StackRun w L.solist (L, b) (L', b)
  result : ∀ x, r = some x → x ∉ b ∧ (L'.info x).flags.error = false

def StackSpec (w : World) (find : Find) : Prop :=
  ∀ L lib L' r host b, (L.info .libdl).Live → (∀ x ∈ b, Shut L x) →
    find L lib = some (L', r, host) → Stacked w L L' b r

section linking
variable {w : World} {find : Find} {old b : List So} {L M N : State} {si : So} {s : Soinfo}

theorem Stacked.target {M1 : State} {r : Option So} (h : Stacked w M M1 b r)
    (hb : ∀ x ∈ b, Shut M1 x) (hl : (M1.info .libdl).Live) :
    r.getD .libdl ∉ b ∧ (M1.info (r.getD .libdl)).flags.error = false := by
  cases r with
  | none => exact ⟨fun hm => (hb _ hm).2 hl, hl.2⟩
  | some x => exact h.result x rfl

theorem linkNeeded_stack (hfind : FindSpec w find) (hstack : StackSpec w find) {i : ℕ}
    (hbase : Base old L) (hb : ∀ x ∈ b, x ∈ old ∧ Shut L x) (hM : Linking w old L M si s)
    (hrun : StackRun w old (L, si :: b) (M, si :: b)) (h : linkNeeded find si M i = some N) :
    StackRun w old (L, si :: b) (N, si :: b) := by
  by_cases he : ∃ v, (M.info si).entries[i]? = some ⟨.needed, .val v⟩
  · obtain ⟨v, he⟩ := he
    obtain ⟨M1, r, host, hr, rfl⟩ := linkNeeded_needed he h
    have hbM := hbase.later hM.run
    have hshut : ∀ x ∈ si :: b, Shut M x := by
      intro x hx
      rcases List.mem_cons.mp hx with rfl | hx
      · exact ⟨hM.fresh.mem, hM.fresh.not_live⟩
      · exact (hb x hx).2.later (hb x hx).1 hM.run
    have hs := hfind _ _ _ _ _ hbM.live hr
    have hst := hstack _ _ _ _ _ _ hbM.live hshut hr
    obtain ⟨hf1, heq⟩ := hs.run.keeps_fresh hM.fresh
    have hbM1 := hbM.later (hs.run.mono hbM.sub)
    obtain ⟨hmem, -, ht⟩ := hs.target hbM hbM1 hM.fresh
    obtain ⟨hout, hclean⟩ := hst.target
      (fun x hx => (hshut x hx).later (hshut x hx).1 hs.run) hbM1.live
    rw [← heq] at he
    exact (hrun.trans (hst.run.mono hbM.sub)).tail (.need hf1 he hmem ht hout hclean)
  · rw [linkNeeded_other fun v hv => he ⟨v, hv⟩] at h
    cases h
    exact hrun

theorem linkImage_stack (hfind : FindSpec w find) (hstack : StackSpec w find) {ok : Bool}
    (hbase : Base old L) (hf : Fresh L old si) (hb : ∀ x ∈ b, x ∈ old ∧ Shut L x)
    (h : linkImage find w L si = some (N, ok)) :
    StackRun w old (L, si :: b) (N, si :: b) ∧ (ok = true → (N.info si).flags.error = false) := by
  rcases linkImage_cases h with ⟨rfl, rfl⟩ | ⟨ds, hd, ⟨s, hx, rfl, rfl⟩ |
    ⟨s, hx, ⟨-, rfl, rfl⟩ | ⟨-, M, hfin, hM⟩⟩⟩
  · exact ⟨.single (.fail hf), fun h => (nomatch h)⟩
  · refine ⟨.single (.extract hf (Or.inr hx)), fun _ => ?_⟩
    rw [set_same, (extract_same (Or.inr hx)).error, hf.clean]
  · have hextract : StackRun w old (L, si :: b) (L.set si s, si :: b) :=
      .single (.extract hf (Or.inl hx))
    exact ⟨hextract.tail (.fail (linking_start hf hd hx).fresh), fun h => (nomatch h)⟩
  · have hextract : StackRun w old (L, si :: b) (L.set si s, si :: b) :=
      .single (.extract hf (Or.inl hx))
    obtain ⟨hlink, hdyn, hres⟩ := linking_end hfind hbase hf hd hx hM
    have hrun := (option_invariant (P := fun K => Linking w old L K si s ∧
        StackRun w old (L, si :: b) (K, si :: b))
      (fun K i K' _ hK hK' => ⟨linkNeeded_step hfind hbase hK.1 hK',
        linkNeeded_stack hfind hstack hbase hb hK.1 hK.2 hK'⟩)
      ⟨linking_start hf hd hx, hextract⟩ hM).2
    obtain ⟨ts, flags, l_addr, l_name, hown, -, herr, -⟩ := finishLink_own w M si
    have hstep := hrun.tail (.finish hlink.fresh hdyn hres)
    rw [hfin] at hown herr hstep
    refine ⟨hstep, fun hok => ?_⟩
    rw [hown, herr, hok, hlink.fresh.clean]
    rfl

end linking

/-- A search leaves the stack as it found it, and what it hands out is not on it and has
not failed to link. -/
theorem findLibrary_stack (w : World) (fuel : ℕ) : StackSpec w (findLibrary w fuel) := by
  induction fuel with
  | zero =>
    intro L lib L' r host b _ _ h
    cases h
  | succ fuel ih =>
    intro L lib L' r host b hl hb h
    rcases findLibrary_cases h with ⟨x, hn, rfl, rfl⟩ | ⟨-, rfl, hload⟩ |
      ⟨hn, L1, L2, i, host', ok, hload, hlink, hend⟩
    · refine ⟨.refl, fun y hy => ?_⟩
      split_ifs at hy with hlive
      cases hy
      exact ⟨fun hm => (hb _ hm).2 hlive, hlive.2⟩
    · exact ⟨.single (.attempt hload), fun x hx => (nomatch hx)⟩
    · have hfresh := appended_fresh (loadLibrary_some hload)
      have hstep : LinkStep w L.solist L L1 := .load hn hload
      obtain ⟨hrun, hclean⟩ := linkImage_stack (findLibrary_found w fuel) ih
        (base_loaded hl hn hload) hfresh
        (fun x hx => ⟨(hb x hx).1, (hb x hx).later (hb x hx).1 (.single hstep)⟩) hlink
      have hlinked := linkImage_linked (findLibrary_found w fuel) (base_loaded hl hn hload) hfresh
        hlink
      have hout : .pool i ∉ b := fun hm => hfresh.new (hb _ hm).1
      have hall := (Relation.ReflTransGen.single (.push hn hload)).trans hrun
      rcases hend with ⟨rfl, rfl, rfl⟩ | ⟨rfl, rfl, rfl⟩
      · refine ⟨hall.tail (.keep (hclean rfl)), fun x hx => ?_⟩
        cases hx
        exact ⟨hout, hclean rfl⟩
      · exact ⟨hall.tail (.drop hlinked.mem hfresh.new hout (hlinked.error rfl)),
          fun x hx => (nomatch hx)⟩

end Bionic.LinkStack
