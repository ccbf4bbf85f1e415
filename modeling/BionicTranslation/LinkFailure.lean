import BionicTranslation.FindSound

/-!
# Libraries that fail to link

When linking fails, the references taken for DT_NEEDED entries are not given
back. Which failures leave no trace therefore depends on the file and on its
base alone: those before the loop over the DT_NEEDED entries, and those of
libraries without such entries.
-/

set_option autoImplicit false

namespace Bionic.LinkFailure
open Bionic.Slots Bionic.Records Bionic.Linker Bionic.Unload Bionic.FoldRules Bionic.LinkFrame
open Bionic.LinkSteps Bionic.LinkFlags Bionic.FindSound

def value (tag : DynTag) (d : Dyn) : Option ℕ :=
  match d.d_un with
  | .val v => if d.d_tag = tag then some v else none
  | .so _ => none

theorem value_some {tag : DynTag} {d : Dyn} {v : ℕ} :
    value tag d = some v ↔ d = ⟨tag, .val v⟩ := by
  obtain ⟨t, un⟩ := d
  cases un with
  | so y => simp [value]
  | val n => simp [value, and_comm]

def lastValue (tag : DynTag) (ds : List Dyn) : Option ℕ := (ds.filterMap (value tag)).getLast?

theorem lastValue_snoc (tag : DynTag) (ds : List Dyn) (o : Option Dyn) :
    lastValue tag (ds ++ o.toList) = (o.bind (value tag)).or (lastValue tag ds) := by
  cases o with
  | none => simp
  | some d =>
    cases h : value tag d <;> simp [lastValue, h]

def Extracts (r : ℕ) (tag : DynTag) (field : Soinfo → ℕ) : Prop :=
  ∀ {u v : Soinfo} {k : ℕ}, extractEntry r u k = .ok v →
    field v = (u.entries[k]?.bind (value tag)).elim (field u) u.addr

theorem extracts_tables (r : ℕ) :
    Extracts r .strtab Soinfo.strtab ∧ Extracts r .symtab Soinfo.symtab := by
  have hboth : ∀ {u v : Soinfo} {k : ℕ}, extractEntry r u k = .ok v →
      v.strtab = (u.entries[k]?.bind (value .strtab)).elim u.strtab u.addr ∧
      v.symtab = (u.entries[k]?.bind (value .symtab)).elim u.symtab u.addr := by
    intro u v k h
    unfold extractEntry at h
    cases hk : u.entries[k]? with
    | none =>
      simp only [hk, Except.ok.injEq] at h
      exact h ▸ ⟨rfl, rfl⟩
    | some d =>
      obtain ⟨tag, un⟩ := d
      cases un with
      | so y =>
        simp only [hk, Except.ok.injEq] at h
        exact h ▸ ⟨rfl, rfl⟩
      | val p =>
        cases tag <;> simp only [hk, Except.ok.injEq, reduceCtorEq] at h
        case hash =>
          split_ifs at h <;> simp only [Except.ok.injEq] at h <;> exact h ▸ ⟨rfl, rfl⟩
        case gnuHash =>
          split_ifs at h <;> simp only [Except.ok.injEq] at h <;> exact h ▸ ⟨rfl, rfl⟩
        all_goals exact h ▸ ⟨rfl, rfl⟩
  exact ⟨fun h => (hboth h).1, fun h => (hboth h).2⟩

theorem same_value {s u : Soinfo} {tag : DynTag} (h : Same s u) (ht : tag ≠ .debug) (k : ℕ) :
    u.entries[k]?.bind (value tag) = s.entries[k]?.bind (value tag) := by
  ext v
  simp only [Option.bind_eq_some_iff, value_some, exists_eq_right]
  exact h.entry k ⟨tag, .val v⟩ ht

theorem extract_field {r : ℕ} {tag : DynTag} {field : Soinfo → ℕ} (hx : Extracts r tag field)
    (ht : tag ≠ .debug) {s t : Soinfo} (h : extract r s = .ok t) :
    field t = (lastValue tag s.entries).elim (field s) s.addr := by
  have hstart : ∀ k u, (List.range k).foldlM (extractEntry r) s = .ok u →
      Same s u ∧ field u = (lastValue tag (s.entries.take k)).elim (field s) s.addr := by
    intro k
    induction k with
    | zero =>
      intro u hu
      cases hu
      exact ⟨Same.refl s, rfl⟩
    | succ k ih =>
      intro u hu
      rw [List.range_succ, List.foldlM_append] at hu
      obtain ⟨m, hm, hu⟩ := except_bind_ok hu
      obtain ⟨n, hn, hu⟩ := except_bind_ok hu
      cases hu
      obtain ⟨hsame, hfield⟩ := ih m hm
      refine ⟨hsame.trans (extractEntry_same (Or.inl hn)), ?_⟩
      rw [hx hn, same_value hsame ht, List.take_add_one, lastValue_snoc, hfield]
      cases s.entries[k]?.bind (value tag) with
      | none => rfl
      | some v => simp [Soinfo.addr, hsame.base]
  have := (hstart _ t h).2
  rwa [List.take_length] at this

def Table (f : LibFile) (base : ℕ) (tag : DynTag) : Prop :=
  ∃ v, lastValue tag (fileDynamic f) = some v ∧ (base + v) % 0x10000000000000000 ≠ 0

/-- Linking the file gets as far as a DT_NEEDED entry, if it gets past extraction. -/
def ReachesNeeded (f : LibFile) (base : ℕ) : Prop :=
  Table f base .strtab ∧ Table f base .symtab ∧ ∃ d ∈ fileDynamic f, d.d_tag = .needed

theorem table_iff {f : LibFile} {s : Soinfo} {tag : DynTag} {n : ℕ}
    (he : s.entries = fileDynamic f)
    (hn : n = (lastValue tag s.entries).elim 0 s.addr) : n ≠ 0 ↔ Table f s.base tag := by
  unfold Table
  rw [hn, he]
  cases lastValue tag (fileDynamic f) <;> simp [Soinfo.addr]

theorem extract_tables {r : ℕ} {f : LibFile} {s t : Soinfo} (he : s.entries = fileDynamic f)
    (h0 : s.strtab = 0 ∧ s.symtab = 0) (h : extract r s = .ok t) :
    (t.strtab = 0 ∨ t.symtab = 0) ↔ ¬ (Table f s.base .strtab ∧ Table f s.base .symtab) := by
  have h1 := extract_field (extracts_tables r).1 (by decide) h
  have h2 := extract_field (extracts_tables r).2 (by decide) h
  rw [h0.1] at h1
  rw [h0.2] at h2
  rw [← table_iff he h1, ← table_iff he h2]
  tauto

def Raised (L M : State) (y : So) : Prop :=
  y ∈ M.solist ∧ (if y ∈ L.solist then (L.info y).refcount else 0) < (M.info y).refcount

theorem Raised.later {w : World} {old : List So} {L M N : State} {y : So} (h : Raised L M y)
    (hr : LinkRun w old M N) : Raised L N y :=
  ⟨hr.grown.mem h.1, h.2.trans_le (hr.placed h.1).grows⟩

theorem raised_attach {w : World} {old : List So} {L M : State} {si y : So} {i : ℕ}
    (hr : LinkRun w old L M) (hm : y ∈ M.solist) (hne : y ≠ si) :
    Raised L (attach M si i y) y := by
  refine ⟨hm, ?_⟩
  rw [attach_info M i hne, if_pos rfl]
  split_ifs with hy
  · exact Nat.lt_succ_of_le (hr.placed hy).grows
  · exact Nat.succ_pos _

theorem linkNeeded_raises {w : World} {find : Find} (hfind : FindSpec w find) {old : List So}
    {L M N : State} {si : So} {s : Soinfo} {i : ℕ} (hb : Base old L)
    (hM : Linking w old L M si s)
    (hP : ∀ y, 0 < (M.info si).payloads y → y ≠ si ∧ Raised L M y)
    (h : linkNeeded find si M i = some N) :
    ∀ y, 0 < (N.info si).payloads y → y ≠ si ∧ Raised L N y := by
  by_cases he : ∃ v, (M.info si).entries[i]? = some ⟨.needed, .val v⟩
  · obtain ⟨v, he⟩ := he
    obtain ⟨M1, r, host, hr, rfl⟩ := linkNeeded_needed he h
    have hbM := hb.later hM.run
    have hs := hfind _ _ _ _ _ hbM.live hr
    obtain ⟨hf1, heq⟩ := hs.run.keeps_fresh hM.fresh
    have hrun1 : LinkRun w old M M1 := hs.run.mono hbM.sub
    obtain ⟨hmem, hne, ht⟩ := hs.target hbM (hbM.later hrun1) hM.fresh
    intro y hy
    by_cases hyr : y = r.getD .libdl
    · subst hyr
      exact ⟨hne, raised_attach (hM.run.trans hrun1) hmem hne⟩
    · rw [attach_info M1 i hne, if_neg hne.symm, if_pos rfl] at hy
      rw [← heq] at he
      have hset := payloads_set ⟨.needed, .so (r.getD .libdl)⟩ he y
      have hno : hits y ⟨.needed, .so (r.getD .libdl)⟩ = false := by
        simp [hits, Ne.symm hyr]
      rw [hno] at hset
      simp only [Bool.false_eq_true, if_false, heq] at hset hy
      obtain ⟨h1, h2⟩ := hP y (by omega)
      exact ⟨h1, h2.later (hrun1.tail (.need (w := w) hf1 he hmem hne ht))⟩
  · rw [linkNeeded_other fun v hv => he ⟨v, hv⟩] at h
    cases h
    exact hP

theorem found_of_mem {s : Soinfo} {d : Dyn} (h : d ∈ s.entries) : HasDynamic s := by
  unfold Soinfo.entries at h
  split at h
  · next ds hds => exact ⟨ds, hds⟩
  · cases h
  · cases h

/-- Linking that reaches a DT_NEEDED entry leaves a reference behind, on an old
library or on one it has loaded. -/
theorem linkImage_raises {w : World} {find : Find} (hfind : FindSpec w find) {old : List So}
    {L L' : State} {si : So} {ok : Bool} {s : Soinfo} (hb : Base old L) (hf : Fresh L old si)
    (hpay : ∀ y, (L.info si).payloads y = 0) (hx : extract w.r_debug (L.info si) = .ok s)
    (ht : ¬ (s.strtab = 0 ∨ s.symtab = 0))
    (hneed : ∃ d ∈ (L.info si).entries, d.d_tag = .needed)
    (h : linkImage find w L si = some (L', ok)) : ∃ y, y ≠ si ∧ Raised L L' y := by
  have hsame := extract_same (Or.inl hx)
  obtain ⟨d, hd, htag⟩ := hneed
  obtain ⟨ds, hds⟩ := found_of_mem hd
  unfold linkImage at h
  simp only [hds, hx, if_neg ht] at h
  obtain ⟨M, hM, hfin⟩ := Option.bind_eq_some_iff.mp h
  obtain ⟨hlink, hdyn, hres⟩ := linking_end hfind hb hf hds hx hM
  have hloop := option_invariant (P := fun N => Linking w old L N si s ∧
    ∀ y, 0 < (N.info si).payloads y → y ≠ si ∧ Raised L N y)
    (fun N i N' _ hN hN' => ⟨linkNeeded_step hfind hb hN.1 hN',
      linkNeeded_raises hfind hb hN.1 hN.2 hN'⟩) ⟨linking_start hf hds hx, fun y hy => ?_⟩ hM
  · have htags : (M.info si).entries.map Dyn.d_tag = (L.info si).entries.map Dyn.d_tag := by
      obtain ⟨ds', hrec, htags⟩ := hlink.record
      rw [hrec, setEntries_entries, htags, hsame.tags]
    have hin : .needed ∈ (M.info si).entries.map Dyn.d_tag := by
      rw [htags, ← htag]
      exact List.mem_map_of_mem hd
    obtain ⟨d', hd', htag'⟩ := List.mem_map.mp hin
    obtain ⟨y, hy⟩ := hres d' hd' htag'
    have hpos : 0 < (M.info si).payloads y := by
      rw [payloads_eq]
      exact List.countP_pos_iff.mpr ⟨d', hd', by simp [hits, htag', hy]⟩
    obtain ⟨hne, hup⟩ := hloop.2 y hpos
    have hfin : finishLink w M si = (L', ok) := Option.some.inj hfin
    have hlast : LinkRun w old M L' := by
      have := LinkStep.finish (w := w) hlink.fresh hdyn hres
      rw [hfin] at this
      exact .single this
    exact ⟨y, hne, hup.later hlast⟩
  · rw [set_same, hsame.payloads, hpay] at hy
    cases hy

theorem linkImage_quiet {w : World} {find : Find} {L L' : State} {si : So} {ok : Bool}
    (hq : ∀ s, extract w.r_debug (L.info si) = .ok s → (s.strtab = 0 ∨ s.symtab = 0) ∨
      ∀ d ∈ (L.info si).entries, d.d_tag ≠ .needed)
    (h : linkImage find w L si = some (L', ok)) :
    L'.pool = L.pool ∧ ∀ x, x ≠ si → L'.info x = L.info x := by
  rcases linkImage_cases h with ⟨rfl, -⟩ | ⟨ds, hd, ⟨s, hx, rfl, -⟩ |
    ⟨s, hx, ⟨-, rfl, -⟩ | ⟨ht, M, hfin, hM⟩⟩⟩
  · exact ⟨rfl, fun x hx => markError_other L hx⟩
  · exact ⟨rfl, fun x hx => set_other L s hx⟩
  · refine ⟨rfl, fun x hx => ?_⟩
    rw [markError_other _ hx, set_other L s hx]
  · have hsame := extract_same (Or.inl hx)
    have hno := (hq s hx).resolve_left ht
    -- no entry makes the loop do anything
    have hloop : M = L.set si s := by
      refine option_invariant (P := fun N => N = L.set si s) (fun N i N' _ hN hN' => ?_) rfl hM
      rw [linkNeeded_other fun v he => ?_] at hN'
      · exact (Option.some.inj hN').symm.trans hN
      · rw [hN, set_same, hsame.entry i ⟨.needed, .val v⟩ (by simp)] at he
        exact hno _ (List.mem_of_getElem? he) rfl
    have hpool := finishLink_pool w M si
    have hinfo : ∀ x, x ≠ si → _ := fun x hx => finishLink_other w M hx
    rw [hfin, hloop] at hpool
    refine ⟨hpool, fun x hx => ?_⟩
    have := hinfo x hx
    rw [hfin, hloop] at this
    rw [this, set_other L s hx]

/-- The failed search has given back what it took: no library that was loaded
before it has changed its counter, and none that is left from it has one. -/
structure Undone (L L' : State) (i : Slot) : Prop where
  old : ∀ x ∈ L.solist, (L'.info x).refcount = (L.info x).refcount
  new : ∀ x ∈ L'.solist, x ∉ L.solist → x ≠ .pool i → (L'.info x).refcount = 0

theorem Raised.not_undone {L M : State} {y : So} {i : Slot} (h : Raised L M y)
    (hy : y ≠ .pool i) : ¬ Undone L M i := by
  intro hu
  obtain ⟨hm, hlt⟩ := h
  split_ifs at hlt with hl
  · rw [hu.old y hl] at hlt
    exact Nat.lt_irrefl _ hlt
  · rw [hu.new y hm hl hy] at hlt
    exact Nat.lt_irrefl _ hlt

/-- In every run and at every point of a search: a search that loads a file and
fails to link it gives back what it took if and only if linking does not get as
far as a DT_NEEDED entry. -/
theorem failed_undone_iff {s : Sys} {u w : World} {L L1 L' : State} {fuel : ℕ} {lib : Name}
    {f : LibFile} {i : Slot} {host host' : Option ℕ} (hr : Reachable (fun _ _ _ => True) s)
    (hrun : LinkRun u s.linker.solist s.linker L)
    (hopen : w.openLibrary L.attempts (resolve w.overrides lib) = some f)
    (hn : lookupName L (basename (resolve w.overrides lib)) = none)
    (hload : loadLibrary w L (resolve w.overrides lib) = (L1, some i, host))
    (hf : findLibrary w fuel L lib = some (L', none, host')) :
    Undone L L' i ↔ ¬ ReachesNeeded f (L1.info (.pool i)).base := by
  have ht : Tidy L := LinkRun.tidy (libdl_mem_solist _) (reachable_tidy hr) hrun
  have happ := loadLibrary_some hload
  cases fuel with
  | zero => cases hf
  | succ fuel =>
    rcases findLibrary_cases hf with ⟨x, hn', -, -⟩ | ⟨-, -, h⟩ |
      ⟨-, L1', L2, i', host'', ok, hload', hlink, hend⟩
    · cases hn.symm.trans hn'
    · cases hload.symm.trans h
    · cases hload.symm.trans hload'
      rcases hend with ⟨-, h, -⟩ | ⟨rfl, -, rfl⟩
      · cases h
      obtain ⟨f', hf', -, hent, -⟩ := happ.file
      cases hopen.symm.trans hf'
      have hb := base_loaded ht.live hn hload
      have hfresh := appended_fresh happ
      have htables : ∀ t, extract w.r_debug (L1.info (.pool i)) = .ok t → _ :=
        fun t hx => extract_tables hent happ.tables hx
      constructor
      · rintro hu ⟨hstr, hsym, d, hd, htag⟩
        rw [← hent] at hd
        cases hx : extract w.r_debug (L1.info (.pool i)) with
        | error t =>
          obtain ⟨ds, hds⟩ := found_of_mem hd
          simp only [linkImage, hds, hx] at hlink
          cases hlink
        | ok t =>
          have hno : ¬ (t.strtab = 0 ∨ t.symtab = 0) := fun h => (htables t hx).mp h ⟨hstr, hsym⟩
          obtain ⟨y, hne, hup⟩ := linkImage_raises (findLibrary_found w fuel) hb hfresh
            happ.payloads hx hno ⟨d, hd, htag⟩ hlink
          refine Raised.not_undone (L := L) (y := y) ⟨hup.1, ?_⟩ hne ⟨hu.old, hu.new⟩
          have hold : ∀ x ∈ L.solist, x ∈ L1.solist := fun x hx => hb.sub x hx
          have hlt := hup.2
          split_ifs with hy
          · rwa [if_pos (hold y hy), happ.info y hne] at hlt
          · exact Nat.zero_lt_of_lt hlt
      · intro hno
        have hquiet := linkImage_quiet (fun t hx => ?_) hlink
        · refine ⟨fun x hx => ?_, fun x hx hnew hne => ?_⟩
          · have hne : x ≠ .pool i := by
              rintro rfl
              exact happ.fresh (pool_mem_solist.mp hx)
            rw [log_info, munmap_info, hquiet.2 x hne, happ.info x hne]
          · refine absurd ?_ hnew
            rcases mem_solist.mp hx with rfl | ⟨j, hj, rfl⟩
            · exact libdl_mem_solist L
            · rw [log_pool, munmap_pool, hquiet.1, happ.loaded, List.mem_append,
                List.mem_singleton] at hj
              exact pool_mem_solist.mpr (hj.resolve_right fun e => hne (e ▸ rfl))
        · by_cases hneed : ∃ d ∈ fileDynamic f, d.d_tag = .needed
          · exact Or.inl ((htables t hx).mpr fun h => hno ⟨h.1, h.2, hneed⟩)
          · rw [hent]
            exact Or.inr fun d hd htag => hneed ⟨d, hd, htag⟩

def failingWorld : World :=
  { sampleWorld (fun name =>
      if name = ['a'] then some (sampleFile [(.needed, 'b'.toNat), (.rela, 0x500)])
      else if name = ['s'] then some (sampleFile [(.rela, 0x500)])
      else if name = ['b'] then some (sampleFile []) else none) with
    relocate := fun _ _ _ => false }

theorem failed_single_undone : ∃ L, findLibrary failingWorld 1 initial ['s'] =
    some (L, none, none) ∧ Undone initial L firstSlot := by
  have h : (findLibrary failingWorld 1 initial ['s']).map Prod.snd = some (none, none) := by
    decide +kernel
  have hl : (loadLibrary failingWorld initial ['s']).2 = (some firstSlot, none) := by
    decide +kernel
  obtain ⟨⟨L, r⟩, hf, rfl⟩ := Option.map_eq_some_iff.mp h
  have hload : loadLibrary failingWorld initial ['s'] =
      ((loadLibrary failingWorld initial ['s']).1, some firstSlot, none) := by
    rw [← hl]
  refine ⟨L, hf, (failed_undone_iff (u := failingWorld) (f := sampleFile [(.rela, 0x500)])
    .initial .refl rfl (by decide +kernel) hload hf).mpr ?_⟩
  rintro ⟨-, -, d, hd, htag⟩
  have hdyn : ∀ d ∈ fileDynamic (sampleFile [(.rela, 0x500)]), d.d_tag ≠ .needed := by decide
  exact hdyn d hd htag

/-- The dependency stays loaded and linked with a count of one. -/
theorem failed_leaks : ∃ L, findLibrary failingWorld 2 initial ['a'] =
    some (L, none, none) ∧ .pool secondSlot ∈ L.solist ∧ (L.info (.pool secondSlot)).Live ∧
      (L.info (.pool secondSlot)).refcount = 1 ∧ ¬ Undone initial L firstSlot := by
  have h : (findLibrary failingWorld 2 initial ['a']).map (fun r =>
      (r.2, decide (.pool secondSlot ∈ r.1.solist), decide (r.1.info (.pool secondSlot)).Live,
        (r.1.info (.pool secondSlot)).refcount)) = some ((none, none), true, true, 1) := by
    decide +kernel
  obtain ⟨⟨L, r⟩, hf, he⟩ := Option.map_eq_some_iff.mp h
  simp only [Prod.mk.injEq, decide_eq_true_eq] at he
  obtain ⟨rfl, hm, hlive, hone⟩ := he
  refine ⟨L, hf, hm, hlive, hone, fun hu => ?_⟩
  have := hu.new _ hm (by decide) (by decide)
  rw [hone] at this
  cases this

end Bionic.LinkFailure
