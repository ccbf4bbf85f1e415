import BionicTranslation.StrayClose
import BionicTranslation.Regions

/-!
# Address ranges of the loaded libraries

The queries by address rely on the ranges of the libraries on the list. They are
mapped and pairwise disjoint in every run in which no library fails to link and no
prelinked one is mapped over another; a library that fails stays on the list while its
range is given back to the kernel.
-/

set_option autoImplicit false

namespace Bionic.Ranges
open Bionic.Slots Bionic.Records Bionic.Linker Bionic.Unload Bionic.FoldRules Bionic.LinkFrame
open Bionic.LinkSteps Bionic.CallFrame Bionic.LinkFlags Bionic.RefLedger Bionic.RefCounts
open Bionic.StrayClose Bionic.FindSound Bionic.LinkFailure Bionic.Regions

def findContainingLibrary (L : State) (addr : ℕ) : Option So :=
  L.solist.find? fun si => (L.info si).base ≤ addr ∧ addr - (L.info si).base < (L.info si).size

/-- The library name and base that are returned; the symbol is left out. -/
def bionicDladdr (L : State) (addr : ℕ) : Option (Name × ℕ) :=
  (findContainingLibrary L addr).map fun si => ((L.info si).name, (L.info si).base)

structure PhdrInfo where
  dlpi_addr : ℕ
  dlpi_name : Name
  dlpi_phdr : ℕ
  dlpi_phnum : ℕ

def phdrInfo (s : Soinfo) : PhdrInfo := ⟨s.l_addr, s.l_name, s.phdr, s.phnum⟩

/-- The calls of `cb` and the value returned. `cb` may depend on the earlier calls. -/
def iterate (cb : List PhdrInfo → PhdrInfo → ℤ) :
    List PhdrInfo → List PhdrInfo → List PhdrInfo × ℤ
  | done, [] => (done, 0)
  | done, d :: ds =>
    let rv := cb done d
    if rv ≠ 0 then (done ++ [d], rv) else iterate cb (done ++ [d]) ds

def bionicDlIteratePhdr (cb : List PhdrInfo → PhdrInfo → ℤ) (L : State) : List PhdrInfo × ℤ :=
  iterate cb [] (L.solist.map fun si => phdrInfo (L.info si))

theorem iterate_mem (cb : List PhdrInfo → PhdrInfo → ℤ) (ds done : List PhdrInfo) (d : PhdrInfo)
    (h : d ∈ (iterate cb done ds).1) : d ∈ done ∨ d ∈ ds := by
  induction ds generalizing done with
  | nil => exact Or.inl h
  | cons e ds ih =>
    unfold iterate at h
    have hstep : d ∈ done ++ [e] → d ∈ done ∨ d ∈ e :: ds := by
      intro hm
      rcases List.mem_append.mp hm with hm | hm
      · exact Or.inl hm
      · exact Or.inr (List.mem_singleton.mp hm ▸ List.mem_cons_self)
    simp only at h
    split_ifs at h
    · exact hstep h
    · exact (ih _ h).elim hstep fun hm => Or.inr (List.mem_cons_of_mem _ hm)

def Inside (s : Soinfo) (a : ℕ) : Prop := s.base ≤ a ∧ a < s.base + s.size

def InHeaders (s : Soinfo) (a : ℕ) : Prop := s.phdr ≤ a ∧ a < s.phdr + 56 * s.phnum

/-- The program headers of the files lie inside of the loaded image. -/
def HeadersLoaded (w : World) : Prop := ∀ n name f size, w.openLibrary n name = some f →
  fileExtents f = some size → f.image.e_phoff + 56 * f.image.e_phnum ≤ size

structure Housed (L : State) : Prop where
  mapped : ∀ i ∈ L.pool.loaded, ∀ a, Inside (L.info (.pool i)) a → L.mapped a = true
  disjoint : ∀ i ∈ L.pool.loaded, ∀ j ∈ L.pool.loaded, i ≠ j → ∀ a,
    Inside (L.info (.pool i)) a → ¬ Inside (L.info (.pool j)) a
  headers : ∀ i ∈ L.pool.loaded, ∀ a,
    InHeaders (L.info (.pool i)) a → Inside (L.info (.pool i)) a
  libdl : ∀ a, ¬ Inside (L.info .libdl) a ∧ ¬ InHeaders (L.info .libdl) a

variable {L L' : State}

theorem inside_congr {s t : Soinfo} (hb : t.base = s.base) (hs : t.size = s.size) (a : ℕ) :
    Inside t a ↔ Inside s a := by
  unfold Inside
  rw [hb, hs]

theorem inHeaders_congr {s t : Soinfo} (hp : t.phdr = s.phdr) (hn : t.phnum = s.phnum) (a : ℕ) :
    InHeaders t a ↔ InHeaders s a := by
  unfold InHeaders
  rw [hp, hn]

theorem Housed.keep (h : Housed L) (hl : ∀ i ∈ L'.pool.loaded, i ∈ L.pool.loaded)
    (hp : ∀ x ∈ L'.solist, ∀ a, (Inside (L'.info x) a ↔ Inside (L.info x) a) ∧
      (InHeaders (L'.info x) a ↔ InHeaders (L.info x) a))
    (hm : ∀ i ∈ L'.pool.loaded, ∀ a, Inside (L.info (.pool i)) a → L.mapped a = true →
      L'.mapped a = true) : Housed L' where
  mapped i hi a ha := by
    rw [(hp _ (pool_mem_solist.mpr hi) a).1] at ha
    exact hm i hi a ha (h.mapped i (hl i hi) a ha)
  disjoint i hi j hj hij a ha := by
    rw [(hp _ (pool_mem_solist.mpr hi) a).1] at ha
    rw [(hp _ (pool_mem_solist.mpr hj) a).1]
    exact h.disjoint i (hl i hi) j (hl j hj) hij a ha
  headers i hi a ha := by
    rw [(hp _ (pool_mem_solist.mpr hi) a).2] at ha
    rw [(hp _ (pool_mem_solist.mpr hi) a).1]
    exact h.headers i (hl i hi) a ha
  libdl a := by
    rw [(hp _ (libdl_mem_solist L') a).1, (hp _ (libdl_mem_solist L') a).2]
    exact h.libdl a

theorem returned_keeps {w : World} {before after : ℕ → Bool} (hk : Strict w)
    (h : Returned w before after) {a : ℕ} (ha : before a = true) : after a = true := by
  rcases h with rfl | ⟨base, size, ⟨K, hint, rfl, hreg⟩, hret⟩
  · exact ha
  · refine (hret a).mpr ⟨fun hin => ?_, ha⟩
    have := (hk K hint size base hreg).2.2 a hin.1 hin.2
    rw [ha] at this
    cases this

theorem housed_attempt {w : World} (hk : Strict w) (h : Housed L) (ha : Attempted w L L') :
    Housed L' := by
  have hs := ha.solist
  refine h.keep (fun i hi => ha.loaded ▸ hi) (fun x hx a => ?_) fun i hi a hin hm => ?_
  · rw [ha.info x (hs ▸ hx)]
    exact ⟨Iff.rfl, Iff.rfl⟩
  · exact returned_keeps hk ha.mapped hm

theorem housed_load {w : World} {lib : Name} {i : Slot} (hk : Strict w) (hh : HeadersLoaded w)
    (h : Housed L) (ha : Appended w L L' lib i) : Housed L' := by
  obtain ⟨M, hint, hM, hreg⟩ := ha.region
  obtain ⟨-, htop, hfree⟩ := hk M hint _ _ hreg
  rw [Unmapped, hM] at hfree
  have hold : ∀ j ∈ L.pool.loaded, L'.info (.pool j) = L.info (.pool j) := fun j hj =>
    ha.info _ fun e => ha.fresh (by cases e; exact hj)
  have hnew : ∀ j ∈ L'.pool.loaded, j ∈ L.pool.loaded ∨ j = i := fun j hj => by
    rw [ha.loaded, List.mem_append, List.mem_singleton] at hj
    exact hj
  -- an address of an old library is mapped, so the new region does not have it
  have hsep : ∀ j ∈ L.pool.loaded, ∀ a, Inside (L.info (.pool j)) a →
      ¬ Inside (L'.info (.pool i)) a := fun j hj a hja hia => by
    have := hfree a hia.1 hia.2
    rw [h.mapped j hj a hja] at this
    cases this
  refine ⟨fun j hj a hin => ?_, fun j hj k hk' hjk a hin => ?_, fun j hj a hin => ?_,
    fun a => ?_⟩
  · rw [ha.mapped]
    rcases hnew j hj with hj | rfl
    · rw [hold j hj] at hin
      exact Or.inr (h.mapped j hj a hin)
    · exact Or.inl hin
  · rcases hnew j hj with hj | rfl <;> rcases hnew k hk' with hk' | rfl
    · rw [hold j hj] at hin
      rw [hold k hk']
      exact h.disjoint j hj k hk' hjk a hin
    · rw [hold j hj] at hin
      exact hsep j hj a hin
    · rw [hold k hk']
      exact fun hka => hsep k hk' a hka hin
    · exact absurd rfl hjk
  · rcases hnew j hj with hj | rfl
    · rw [hold j hj] at hin ⊢
      exact h.headers j hj a hin
    · obtain ⟨f, hf, hext, -, -, hphdr, hphnum⟩ := ha.file
      have hle := hh _ _ f _ hf hext
      unfold InHeaders at hin
      rw [hphdr, hphnum, Soinfo.addr] at hin
      unfold Inside
      omega
  · rw [ha.info .libdl (by simp)]
    exact h.libdl a

theorem LinkStep.failures_le {w : World} {old : List So} (hs : LinkStep w old L L') :
    failures L ≤ failures L' := by
  cases hs with
  | attempt ha => exact (failures_events (loadLibrary_none ha).events).ge
  | load _ ha => exact (failures_events (loadLibrary_some ha).events).ge
  | extract _ _ => exact le_rfl
  | need _ _ _ _ _ => exact le_rfl
  | finish _ _ _ => exact (failures_events (finishLink_events w L _)).ge
  | fail _ => exact le_rfl
  | unmap _ _ _ => exact (Nat.le_succ _).trans_eq (failures_logged _ _).symm

theorem housed_placed (h : Housed L) (hp : L'.pool = L.pool) (hm : L'.mapped = L.mapped)
    (hi : ∀ x ∈ L.solist, Placed (L.info x) (L'.info x)) : Housed L' := by
  have hs : L'.solist = L.solist := solist_congr (by rw [hp])
  refine h.keep (fun i hi => hp ▸ hi) (fun x hx a => ?_) fun i hi' a _ hma => hm ▸ hma
  have hpl := hi x (hs ▸ hx)
  exact ⟨inside_congr hpl.base hpl.size a, inHeaders_congr hpl.phdr hpl.phnum a⟩

theorem finishLink_mapped (w : World) (L : State) (si : So) :
    (finishLink w L si).1.mapped = L.mapped := by
  obtain ⟨ts, M, rfl, e | ⟨-, e | e⟩⟩ := finishLink_cases w L si <;> rw [e] <;> rfl

theorem LinkStep.housed {w : World} {old : List So} (hk : Strict w) (hh : HeadersLoaded w)
    (h : Housed L) (hs : LinkStep w old L L') (hno : failures L' = failures L) :
    Housed L' := by
  have hpl := fun x hx => hs.placed (x := x) hx
  cases hs with
  | attempt ha => exact housed_attempt hk h (loadLibrary_none ha)
  | load _ ha => exact housed_load hk hh h (loadLibrary_some ha)
  | extract hf hx => exact housed_placed h rfl rfl hpl
  | need hf he hm hne ht => exact housed_placed h rfl rfl hpl
  | finish hf hd hr =>
    exact housed_placed h (finishLink_pool w L _) (finishLink_mapped w L _) hpl
  | fail hf => exact housed_placed h rfl rfl hpl
  | unmap hm hn he =>
    rw [failures_logged] at hno
    exact absurd hno (Nat.succ_ne_self _)

theorem LinkRun.failures_le {w : World} {old : List So} (hs : LinkRun w old L L') :
    failures L ≤ failures L' := by
  induction hs with
  | refl => exact le_rfl
  | tail _ hs ih => exact ih.trans (LinkStep.failures_le hs)

theorem LinkRun.housed {w : World} {old : List So} (hk : Strict w) (hh : HeadersLoaded w)
    (h : Housed L) (hs : LinkRun w old L L') (hno : failures L' = failures L) : Housed L' := by
  induction hs with
  | refl => exact h
  | tail hrun hs ih =>
    have hbefore := LinkRun.failures_le hrun
    have hlast := LinkStep.failures_le hs
    exact LinkStep.housed hk hh (ih (by omega)) hs (by omega)

theorem housed_constructed {M N : State} {si : So} (h : Housed M) (hc : Constructed M N) :
    Housed (addRef N si) := by
  refine housed_placed h hc.pool hc.mapped fun x _ => ?_
  rw [addRef_info]
  split_ifs with hx
  · subst hx
    rw [hc.info x]
    exact ⟨rfl, rfl, rfl, rfl, rfl, Nat.le_succ _⟩
  · rw [hc.info x]
    exact ⟨rfl, rfl, rfl, rfl, rfl, le_refl _⟩

theorem housed_dlopen {w : World} {fuel : ℕ} {name : Option Name} {r : Option Handle}
    (hk : Strict w) (hh : HeadersLoaded w) (h : Housed L) (hl : (L.info .libdl).Live)
    (hno : ∀ lib M x host, name = some lib → findLibrary w fuel L lib = some (M, x, host) →
      failures M = failures L)
    (ho : bionicDlopen w fuel L name = some (L', r)) : Housed L' := by
  cases name with
  | none =>
    cases ho
    exact h
  | some lib =>
    obtain ⟨⟨M, x, host⟩, hf, hend⟩ := Option.bind_eq_some_iff.mp ho
    have hM := LinkRun.housed hk hh h (findLibrary_found w fuel _ _ _ _ _ hl hf).run
      (hno _ _ _ _ rfl hf)
    cases x with
    | none =>
      cases hend
      exact hM
    | some si =>
      obtain ⟨N, hN, he⟩ := Option.bind_eq_some_iff.mp hend
      cases he
      exact housed_constructed hM (callConstructors_constructed fuel hN)

theorem faded_inside {s t : Soinfo} (h : Faded s t) (a : ℕ) :
    (Inside t a ↔ Inside s a) ∧ (InHeaders t a ↔ InHeaders s a) := by
  constructor
  · refine inside_congr ?_ ?_ a <;> rw [h.rest]
  · refine inHeaders_congr ?_ ?_ a <;> rw [h.rest]

theorem housed_fades {E : So → Prop} (h : Housed L) (hf : FadesBut E L L')
    (hm : L'.mapped = L.mapped) : Housed L' :=
  h.keep (fun _ hi => hf.loaded.subset hi) (fun _ _ => faded_inside (hf.info _))
    fun _ _ _ _ hma => hm ▸ hma

theorem housed_release {j : Slot} (h : Housed L) (hj : j ∈ L.pool.loaded) :
    Housed (release L (.pool j)) := by
  have hf : FadesBut (fun _ => True) L (release L (.pool j)) := fades_release L (.pool j)
  refine h.keep (fun _ hi => hf.loaded.subset hi) (fun _ _ => faded_inside (hf.info _))
    fun i hi a hin hma => (munmap_mapped L _ _ a).mpr ⟨fun hsi => ?_, hma⟩
  rw [release_loaded, mem_free_loaded] at hi
  exact h.disjoint i hi.2 j hj hi.1 a hin hsi

structure Unloading (extra : So → ℕ) (si : So) (L : State) : Prop where
  counted : Counted (owe extra si) L
  housed : Housed L
  null : (L.info .libdl).dynamic = .null

theorem Unloading.loaded {extra : So → ℕ} {si : So} (h : Unloading extra si L) :
    si ∈ L.solist := by
  by_contra hno
  have := (h.counted.zero hno).1
  simp [owe] at this

theorem unload_housed (fuel : ℕ) : ∀ {extra : So → ℕ} {L L' : State} {si : So},
    Unloading extra si L → unloadLibrary fuel L si = .ok L' → Housed L' := by
  induction fuel with
  | zero =>
    intro extra L L' si _ h
    cases h
  | succ fuel ih =>
    intro extra L L' si hL h
    rcases unload_cases h with ⟨-, rfl⟩ | ⟨-, ds, M, hd, hM, rfl⟩
    · refine hL.housed.keep (fun _ hi => hi) (fun i _ a => ?_) fun _ _ _ _ hma => hma
      rw [keepLoaded_info]
      split_ifs with hi
      · rw [← hi]
        exact ⟨Iff.rfl, Iff.rfl⟩
      · exact ⟨Iff.rfl, Iff.rfl⟩
    · have hstart : Unloading extra si (callDestructors L si) :=
        ⟨hL.counted.destructors si, housed_fades (E := fun _ => True) hL.housed
          (fades_callDestructors L si) rfl, hL.null⟩
      have hloop : Unloading extra si M := by
        refine except_invariant (P := Unloading extra si) (fun N i N' _ hN hN' => ?_) hstart hM
        have hfade := unloadNeeded_fades (unload_fades fuel) hN'
        refine ⟨(unloadNeeded_pays (unload_pays fuel) (fun _ => Or.inl rfl) rfl hN.counted
          hN').1, ?_, (hfade.info .libdl).null hN.null⟩
        rcases unloadNeeded_cases (unloadLibrary fuel) si N i with ⟨lsi, he, hn⟩ |
          ⟨n, he, hn⟩ | ⟨-, hn⟩ <;> rw [hn] at hN'
        · have hcl := fades_cleared (E := fun _ => True) (i := i) trivial he
          exact ih ⟨hN.counted.clear_payload rfl he, housed_fades hN.housed hcl rfl,
            (hcl.info .libdl).null hN.null⟩ hN'
        · cases hN'
          exact housed_fades (E := fun _ => True) hN.housed (fades_cleared trivial he) rfl
        · cases hN'
          exact hN.housed
      cases si with
      | libdl =>
        rw [hL.null] at hd
        cases hd
      | pool j => exact housed_release hloop.housed (pool_mem_solist.mp hloop.loaded)

/-- A call that closes only what has a reference of its own, and that loads prelinked files only
where their ranges are free, and only files that can be linked. -/
def Clean (s : Sys) (a : Act) (_ : Sys) : Prop := Proper s a ∧
  match a with
  | .dlopen w filename => Kernel w ∧ HeadersLoaded w ∧ PrelinksFree w s.linker filename ∧
      AllLink w s.linker filename
  | .dlclose .. => True

abbrev CleanRun : Sys → Prop := Reachable Clean

theorem clean_proper {s : Sys} (h : CleanRun s) : ProperRun s := h.mono fun _ _ _ hc => hc.1

theorem clean_housed {s : Sys} (h : CleanRun s) : Housed s.linker := by
  induction h with
  | initial =>
    refine ⟨fun i hi => (nomatch hi), fun i hi => (nomatch hi), fun i hi => (nomatch hi),
      fun a => ⟨fun h => ?_, fun h => ?_⟩⟩
    · exact absurd h.2 (Nat.not_lt_zero a)
    · exact absurd h.2 (Nat.not_lt_zero a)
  | step hr hc hs ih =>
    have hp := clean_proper hr
    cases hs with
    | dlopen ho =>
      obtain ⟨-, hk, hh, hfree, hlinks⟩ := hc
      rename_i s w fuel filename L r
      have hno : ∀ lib M r host, filename = some lib →
          findLibrary (strictKernel w) fuel s.linker lib = some (M, r, host) →
            failures M = failures s.linker := by
        rintro lib M r host rfl hf
        rw [findLibrary_strict hk fuel (hfree lib rfl fuel)] at hf
        exact search_links fuel (hlinks lib rfl fuel) hf
      rw [← dlopen_strict hk hfree] at ho
      exact housed_dlopen (strictKernel_strict w) hh ih (reachable_tidy hp).live hno ho
    | dlclose hcl =>
      rename_i s foreign fuel h L
      cases h with
      | so si =>
        exact unload_housed fuel ⟨proper_owe (proper_counted hp) hc.1.2, ih,
          (reachable_tidy hp).null⟩ hcl
      | host n =>
        rw [(dlclose_host hcl).1]
        exact ih

/-- The ranges of the libraries on the list are mapped and disjoint, the queries by
address find the library, and no program header handed out is unmapped. -/
structure RangesHold (L : State) : Prop where
  mapped : ∀ i ∈ L.pool.loaded, ∀ a, Inside (L.info (.pool i)) a → L.mapped a = true
  disjoint : ∀ i ∈ L.pool.loaded, ∀ j ∈ L.pool.loaded, i ≠ j → ∀ a,
    Inside (L.info (.pool i)) a → ¬ Inside (L.info (.pool j)) a
  containing : ∀ i ∈ L.pool.loaded, ∀ a, Inside (L.info (.pool i)) a →
    findContainingLibrary L a = some (.pool i)
  dladdr : ∀ i ∈ L.pool.loaded, ∀ a, Inside (L.info (.pool i)) a →
    bionicDladdr L a = some ((L.info (.pool i)).name, (L.info (.pool i)).base)
  phdrs : ∀ cb, ∀ d ∈ (bionicDlIteratePhdr cb L).1, ∀ a, d.dlpi_phdr ≤ a →
    a < d.dlpi_phdr + 56 * d.dlpi_phnum → L.mapped a = true

theorem find_unique {α : Type*} {p : α → Bool} {l : List α} {x : α} (hx : x ∈ l) (hp : p x = true)
    (hu : ∀ y ∈ l, p y = true → y = x) : l.find? p = some x := by
  cases h : l.find? p with
  | none => exact absurd hp (by simpa using List.find?_eq_none.mp h x hx)
  | some y => rw [hu y (List.mem_of_find?_eq_some h) (List.find?_some h)]

theorem Housed.containing (h : Housed L) {i : Slot} (hi : i ∈ L.pool.loaded) {a : ℕ}
    (ha : Inside (L.info (.pool i)) a) : findContainingLibrary L a = some (.pool i) := by
  have hin : ∀ s : Soinfo, decide (s.base ≤ a ∧ a - s.base < s.size) = true ↔ Inside s a := by
    intro s
    rw [decide_eq_true_eq, Inside]
    omega
  refine find_unique (pool_mem_solist.mpr hi) ((hin _).mpr ha) fun y hy hya => ?_
  rw [hin] at hya
  rcases mem_solist.mp hy with rfl | ⟨j, hj, rfl⟩
  · exact absurd hya (h.libdl a).1
  · by_cases hij : i = j
    · rw [hij]
    · exact absurd hya (h.disjoint i hi j hj hij a ha)

theorem Housed.phdrs (h : Housed L) (cb : List PhdrInfo → PhdrInfo → ℤ) {d : PhdrInfo}
    (hd : d ∈ (bionicDlIteratePhdr cb L).1) {a : ℕ} (hlo : d.dlpi_phdr ≤ a)
    (hhi : a < d.dlpi_phdr + 56 * d.dlpi_phnum) : L.mapped a = true := by
  rcases iterate_mem cb _ _ d hd with hd | hd
  · cases hd
  · obtain ⟨x, hx, rfl⟩ := List.mem_map.mp hd
    rcases mem_solist.mp hx with rfl | ⟨j, hj, rfl⟩
    · exact absurd ⟨hlo, hhi⟩ (h.libdl a).2
    · exact h.mapped j hj a (h.headers j hj a ⟨hlo, hhi⟩)

/-- In every run whose opens load prelinked files only where their ranges are free, and only files
that can be linked, and whose closes each have a reference of their own. -/
theorem ranges_hold {s : Sys} (h : CleanRun s) : RangesHold s.linker := by
  have hs := clean_housed h
  refine ⟨hs.mapped, hs.disjoint, fun i hi a => hs.containing hi, fun i hi a ha => ?_,
    fun cb d hd a => hs.phdrs cb hd⟩
  rw [bionicDladdr, hs.containing hi ha]
  rfl

def prelinkedWorld : World := fixedKernel (sampleWorld fun name =>
  if name = ['p'] then some (sampleFile [])
  else if name = ['q'] then some { sampleFile [] with prelink := 0x40000000 } else none)

theorem prelinked_file {n : ℕ} {name : Name} {f : LibFile}
    (h : prelinkedWorld.openLibrary n name = some f) :
    ∃ prelink, f = { sampleFile [] with prelink } ∧ fileExtents f = some 0x1000 := by
  simp only [prelinkedWorld, fixedKernel, sampleWorld] at h
  split_ifs at h with hp hq <;> cases h
  · exact ⟨0, rfl, by decide +kernel⟩
  · exact ⟨_, rfl, by decide +kernel⟩

theorem prelinked_headers : HeadersLoaded prelinkedWorld := by
  intro n name f size hopen hext
  obtain ⟨prelink, rfl, hsize⟩ := prelinked_file hopen
  cases hsize.symm.trans hext
  simp [sampleFile]

theorem prelinked_dynamic {n : ℕ} {name : Name} {f : LibFile}
    (h : prelinkedWorld.openLibrary n name = some f) :
    fileDynamic f = [⟨.strtab, .val 0⟩, ⟨.symtab, .val 0x400⟩] := by
  obtain ⟨prelink, rfl, -⟩ := prelinked_file h
  exact (by decide : fileDynamic (sampleFile []) = [⟨.strtab, .val 0⟩, ⟨.symtab, .val 0x400⟩])

theorem prelinked_links (L : State) (filename : Option Name) :
    AllLink prelinkedWorld L filename := by
  refine allLink_inside (fixedKernel_kernel _) (fun K size b => ?_) (fun n lib f hf => ?_)
    (fun _ _ _ => rfl) fun _ _ => rfl
  · refine fixedKernel_ne_zero fun K size b h => ?_
    have hchosen : 0x10000 * (K.attempts + 1) = b := Option.some.inj h
    omega
  · obtain ⟨prelink, rfl, hsize⟩ := prelinked_file hf
    refine ⟨⟨0, 0x1000, ?_, hsize, by decide⟩, ⟨0x400, 0x1000, ?_, hsize, by decide⟩⟩
    all_goals
      rw [prelinked_dynamic hf]
      decide

theorem prelinked_free {L : State} {name : Name}
    (h : (∀ a, L.mapped a = false) ∨ resolve [] name ≠ ['q']) :
    PrelinksFree prelinkedWorld L (some name) := by
  intro lib hlib fuel K n hm f size hf _ hne
  cases hlib
  obtain ⟨rfl, rfl⟩ := moments_plain (fun n lib f hf => by
    rw [prelinked_dynamic hf]
    decide) hm
  rcases h with h | h
  · exact fun a _ _ => h a
  · refine absurd ?_ hne
    have hq : resolve prelinkedWorld.overrides name ≠ ['q'] := h
    simp only [prelinkedWorld, fixedKernel, sampleWorld] at hf hq
    rw [if_neg hq] at hf
    split_ifs at hf
    cases hf
    rfl

theorem prelinked_ranges_hold : ∃ s, CleanRun s ∧ firstSlot ∈ s.linker.pool.loaded ∧
    secondSlot ∈ s.linker.pool.loaded ∧ (s.linker.info (.pool firstSlot)).base = 0x40000000 ∧
      RangesHold s.linker := by
  have h : (bionicDlopen prelinkedWorld 2 initial (some ['q'])).bind (fun p =>
      (bionicDlopen prelinkedWorld 2 p.1 (some ['p'])).map fun q =>
        (decide (firstSlot ∈ q.1.pool.loaded), decide (secondSlot ∈ q.1.pool.loaded),
          (q.1.info (.pool firstSlot)).base)) = some (true, true, 0x40000000) := by
    decide +kernel
  obtain ⟨⟨L, r⟩, hq, h⟩ := Option.bind_eq_some_iff.mp h
  obtain ⟨⟨M, r'⟩, hp, he⟩ := Option.map_eq_some_iff.mp h
  simp only [Prod.mk.injEq, decide_eq_true_eq] at he
  obtain ⟨hfirst, hsecond, hbase⟩ := he
  have hopen : CleanRun ⟨L, opened initialSys.opens r⟩ :=
    .step .initial (a := .dlopen prelinkedWorld (some ['q'])) ⟨trivial, fixedKernel_kernel _,
      prelinked_headers, prelinked_free (Or.inl fun _ => rfl), prelinked_links _ _⟩ (.dlopen hq)
  have hrun : CleanRun ⟨M, opened (opened initialSys.opens r) r'⟩ :=
    .step hopen (a := .dlopen prelinkedWorld (some ['p'])) ⟨trivial, fixedKernel_kernel _,
      prelinked_headers, prelinked_free (Or.inr (by decide)), prelinked_links _ _⟩ (.dlopen hp)
  exact ⟨_, hrun, hfirst, hsecond, hbase, ranges_hold hrun⟩

/-- The library that failed to link is still on the list, its range is not mapped. -/
theorem failed_range_unmapped : ∃ L, bionicDlopen (fixedKernel failingWorld) 2 initial
    (some ['s']) = some (L, none) ∧ firstSlot ∈ L.pool.loaded ∧ ¬ RangesHold L := by
  have h : (bionicDlopen (fixedKernel failingWorld) 2 initial (some ['s'])).map (fun p =>
      (p.2, decide (firstSlot ∈ p.1.pool.loaded), (p.1.info (.pool firstSlot)).base,
        (p.1.info (.pool firstSlot)).size, p.1.mapped 0x20000)) =
      some (none, true, 0x20000, 0x1000, false) := by decide +kernel
  obtain ⟨⟨L, r⟩, hf, he⟩ := Option.map_eq_some_iff.mp h
  simp only [Prod.mk.injEq, decide_eq_true_eq] at he
  obtain ⟨rfl, hm, hbase, hsize, hun⟩ := he
  refine ⟨L, hf, hm, fun hr => ?_⟩
  have hin : Inside (L.info (.pool firstSlot)) 0x20000 := by
    rw [Inside, hbase, hsize]
    decide
  rw [hr.mapped firstSlot hm _ hin] at hun
  cases hun

end Bionic.Ranges
