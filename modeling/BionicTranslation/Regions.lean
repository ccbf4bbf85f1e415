import BionicTranslation.LinkFailure
import BionicTranslation.RefCounts

/-!
# Regions for libraries

The kernel chooses a region where nothing is mapped, but a prelinked library is mapped with
MAP_FIXED where it asks for, over whatever is there. Whether that does harm depends on the states
in which a search loads its files. Where it does none, the search is the one of a kernel that
refuses every region that is in use.
-/

set_option autoImplicit false

namespace Bionic.Regions
open Bionic.Slots Bionic.Records Bionic.Linker Bionic.FoldRules Bionic.LinkFrame Bionic.LinkSteps
open Bionic.LinkFlags Bionic.FindSound Bionic.LinkFailure Bionic.RefCounts

def Unmapped (L : State) (base size : ℕ) : Prop :=
  ∀ a, base ≤ a → a < base + size → L.mapped a = false

/-- `mmap` of anonymous memory: at an address of its own choice, which is free, or with MAP_FIXED
at the one given. -/
structure Kernel (w : World) : Prop where
  inside : ∀ L hint size b, w.mmapRegion L hint size = some b →
    0 < size ∧ b + size ≤ 0x10000000000000000
  chosen : ∀ L size b, w.mmapRegion L 0 size = some b → Unmapped L b size
  fixed : ∀ L hint size b, hint ≠ 0 → w.mmapRegion L hint size = some b → b = hint

def neededSearch (find : Find) (si : So) (L : State) (k : ℕ) : Option (State × Name) :=
  ((List.range k).foldlM (linkNeeded find si) L).bind fun K =>
    match (K.info si).entries[k]? with
    | some ⟨.needed, .val v⟩ =>
      some (K, (K.info si).image.str ((K.info si).offset ((K.info si).strtab + v)))
    | _ => none

/-- A file is about to be loaded, or the relocation tables of a library to be applied. -/
inductive Moment where
  | load (L : State) (name : Name)
  | finish (L : State) (si : So)

def loopMoments (search : State → Name → List Moment) (find : Find) (si : So) (L : State)
    (n : ℕ) : List Moment :=
  ((List.range n).filterMap (neededSearch find si L)).flatMap (fun c => search c.1 c.2) ++
    ((List.range n).foldlM (linkNeeded find si) L).toList.map fun K => .finish K si

/-- What happens in a search, in the order of time. -/
def moments (w : World) : ℕ → State → Name → List Moment
  | 0 => fun _ _ => []
  | fuel + 1 => fun L name =>
    let name := resolve w.overrides name
    match lookupName L (basename name) with
    | some _ => []
    | none => .load L name ::
      match loadLibrary w L name with
      | (_, none, _) => []
      | (L, some i, _) =>
        match extract w.r_debug (L.info (.pool i)) with
        | .error _ => []
        | .ok s =>
          if s.strtab = 0 ∨ s.symtab = 0 then [] else
            loopMoments (moments w fuel) (findLibrary w fuel) (.pool i) (L.set (.pool i) s)
              (L.info (.pool i)).entries.length

/-- The range that a prelinked file asks for is free. -/
def RangeFree (w : World) (L : State) (name : Name) : Prop :=
  ∀ f size, w.openLibrary L.attempts name = some f → fileExtents f = some size →
    f.prelink ≠ 0 → Unmapped L f.prelink size

/-- The file has a dynamic section with both tables, or with an entry at which extraction returns
early. -/
def Linkable (f : LibFile) (base : ℕ) : Prop :=
  (∃ d ∈ fileDynamic f, Rejecting f.image d) ∨ Table f base .strtab ∧ Table f base .symtab

def applied (L : State) (si : So) (ts : List RelocTable) : State :=
  L.modify si fun s => { s with applied := s.applied ++ ts }

/-- Each relocation table can be applied, and the RELRO range can be protected. -/
structure Relocatable (w : World) (L : State) (si : So) : Prop where
  tables : ∀ ts t us, (L.info si).relocTables = ts ++ t :: us →
    w.relocate (applied L si ts) si t = true
  relro : relroProtected w (markLinked (applied L si (L.info si).relocTables) si) si = true

def Links (w : World) : Moment → Prop
  | .load L name => ∀ f M i host, w.openLibrary L.attempts name = some f →
      loadLibrary w L name = (M, some i, host) → Linkable f (M.info (.pool i)).base
  | .finish L si => Relocatable w L si

/-- In every state in which a call loads a prelinked file. -/
def PrelinksFree (w : World) (L : State) (filename : Option Name) : Prop :=
  ∀ lib ∈ filename, ∀ fuel K name, .load K name ∈ moments w fuel L lib → RangeFree w K name

/-- Every library that a call loads can be linked. -/
def AllLink (w : World) (L : State) (filename : Option Name) : Prop :=
  ∀ lib ∈ filename, ∀ fuel, ∀ m ∈ moments w fuel L lib, Links w m

variable {w : World} {L : State} {name : Name} {fuel : ℕ} {i : Slot} {s : Soinfo}

/-- The world with a kernel that refuses every region that is in use. -/
def strictKernel (w : World) : World :=
  { w with mmapRegion := fun L hint size => (w.mmapRegion L hint size).filter fun b =>
      0 < size ∧ b + size ≤ 0x10000000000000000 ∧
        (List.range size).all fun k => !L.mapped (b + k) }

@[simp] theorem strictKernel_openLibrary (w : World) :
    (strictKernel w).openLibrary = w.openLibrary := rfl

@[simp] theorem strictKernel_overrides (w : World) :
    (strictKernel w).overrides = w.overrides := rfl

@[simp] theorem strictKernel_r_debug (w : World) : (strictKernel w).r_debug = w.r_debug := rfl

def Strict (w : World) : Prop := ∀ L hint size b, w.mmapRegion L hint size = some b →
  0 < size ∧ b + size ≤ 0x10000000000000000 ∧ Unmapped L b size

theorem strictKernel_region {hint size b : ℕ} : (strictKernel w).mmapRegion L hint size = some b ↔
    w.mmapRegion L hint size = some b ∧ 0 < size ∧ b + size ≤ 0x10000000000000000 ∧
      Unmapped L b size := by
  simp only [strictKernel, Option.filter_eq_some_iff, decide_eq_true_eq, List.all_eq_true,
    List.mem_range, Bool.not_eq_true']
  have hfree : (∀ k < size, L.mapped (b + k) = false) ↔ Unmapped L b size := by
    constructor
    · intro h a hlo hhi
      have := h (a - b) (by omega)
      rwa [Nat.add_sub_cancel' hlo] at this
    · exact fun h k hk => h _ (by omega) (by omega)
  rw [hfree]

theorem strictKernel_strict (w : World) : Strict (strictKernel w) := fun _ _ _ _ h =>
  (strictKernel_region.mp h).2

def fixedKernel (w : World) : World :=
  { w with mmapRegion := fun L hint size => if hint = 0 then (strictKernel w).mmapRegion L 0 size
      else if 0 < size ∧ hint + size ≤ 0x10000000000000000 then some hint else none }

theorem fixedKernel_kernel (w : World) : Kernel (fixedKernel w) where
  inside := by
    intro L hint size b h
    simp only [fixedKernel] at h
    split_ifs at h with hz hfit
    · obtain ⟨hpos, htop, -⟩ := strictKernel_strict w L 0 size b h
      exact ⟨hpos, htop⟩
    · cases h
      exact hfit
  chosen := fun L size b h => (strictKernel_strict w L 0 size b h).2.2
  fixed := by
    intro L hint size b hne h
    simp only [fixedKernel, if_neg hne] at h
    split_ifs at h
    exact (Option.some.inj h).symm

theorem fixedKernel_ne_zero {size b : ℕ}
    (h : ∀ L size b, w.mmapRegion L 0 size = some b → b ≠ 0) :
    (fixedKernel w).mmapRegion L 0 size = some b → b ≠ 0 := by
  intro hb
  simp only [fixedKernel, if_pos] at hb
  exact h L size b (strictKernel_region.mp hb).1

theorem region_strict (hk : Kernel w) {hint size : ℕ} (h : hint ≠ 0 → Unmapped L hint size) :
    (strictKernel w).mmapRegion L hint size = w.mmapRegion L hint size := by
  ext b
  rw [strictKernel_region, and_iff_left_iff_imp]
  intro hb
  obtain ⟨hpos, htop⟩ := hk.inside L hint size b hb
  refine ⟨hpos, htop, ?_⟩
  by_cases hz : hint = 0
  · exact hk.chosen L size b (hz ▸ hb)
  · exact hk.fixed L hint size b hz hb ▸ h hz

theorem allocMemRegion_strict (hk : Kernel w) {si : So}
    (h : (L.info si).base ≠ 0 → Unmapped L (L.info si).base (L.info si).size) :
    allocMemRegion (strictKernel w) L si = allocMemRegion w L si := by
  unfold allocMemRegion
  simp only [region_strict hk h]

theorem loadFile_strict (hk : Kernel w) {f : LibFile} {size : ℕ}
    (h : f.prelink ≠ 0 → Unmapped L f.prelink size) :
    loadFile (strictKernel w) L f size i = loadFile w L f size i := by
  unfold loadFile
  simp only
  rw [allocMemRegion_strict hk]
  · rfl
  · rw [modify_same]
    exact h

theorem loadLibrary_strict (hk : Kernel w) (h : RangeFree w L name) :
    loadLibrary (strictKernel w) L name = loadLibrary w L name := by
  unfold loadLibrary
  rw [strictKernel_openLibrary]
  cases hf : w.openLibrary L.attempts name with
  | none => rfl
  | some f =>
    simp only
    cases hsize : fileExtents f with
    | none => rfl
    | some size =>
      simp only
      cases ha : allocInfo { L with attempts := L.attempts + 1 } (basename name) with
      | none => rfl
      | some r =>
        obtain ⟨M, i⟩ := r
        have hmapped : M.mapped = L.mapped := by
          rw [(allocInfo_some ha).2.2]
          rfl
        have hfree : f.prelink ≠ 0 → Unmapped M f.prelink size := by
          intro hp a hlo hhi
          rw [hmapped]
          exact h f size hf hsize hp a hlo hhi
        simp only [loadFile_strict hk hfree]

theorem neededSearch_some {find : Find} {si : So} {K : State} {k v : ℕ}
    (hK : (List.range k).foldlM (linkNeeded find si) L = some K)
    (he : (K.info si).entries[k]? = some ⟨.needed, .val v⟩) : neededSearch find si L k =
      some (K, (K.info si).image.str ((K.info si).offset ((K.info si).strtab + v))) := by
  rw [neededSearch, hK]
  simp only [Option.bind_some, he]

theorem search_moments {search : State → Name → List Moment} {find : Find} {si : So}
    {c : State × Name} {k n : ℕ} (hk : k < n) (hc : neededSearch find si L k = some c)
    {m : Moment} (hm : m ∈ search c.1 c.2) : m ∈ loopMoments search find si L n := by
  refine List.mem_append_left _ (List.mem_flatMap.mpr ⟨c, ?_, hm⟩)
  exact List.mem_filterMap.mpr ⟨k, List.mem_range.mpr hk, hc⟩

theorem linkNeeded_congr {find find' : Find} {si : So} {k : ℕ}
    (h : ∀ v, (L.info si).entries[k]? = some ⟨.needed, .val v⟩ →
      find' L ((L.info si).image.str ((L.info si).offset ((L.info si).strtab + v))) =
        find L ((L.info si).image.str ((L.info si).offset ((L.info si).strtab + v)))) :
    linkNeeded find' si L k = linkNeeded find si L k := by
  by_cases he : ∃ v, (L.info si).entries[k]? = some ⟨.needed, .val v⟩
  · obtain ⟨v, he⟩ := he
    simp only [linkNeeded, he, h v he]
  · have hno : ∀ v, (L.info si).entries[k]? ≠ some ⟨.needed, .val v⟩ := fun v hv => he ⟨v, hv⟩
    rw [linkNeeded_other hno, linkNeeded_other hno]

theorem finishLink_strict (w : World) (L : State) (si : So) :
    finishLink (strictKernel w) L si = finishLink w L si := by
  have happly : ∀ ts L, applyTables (strictKernel w) si ts L = applyTables w si ts L := by
    intro ts
    induction ts with
    | nil => exact fun _ => rfl
    | cons t ts ih =>
      intro L
      rw [applyTables, applyTables, ih]
      rfl
  rw [finishLink, happly]
  rfl

theorem linkImage_strict {find find' : Find} {si : So}
    (h : ∀ s, extract w.r_debug (L.info si) = .ok s → ¬ (s.strtab = 0 ∨ s.symtab = 0) →
      ∀ k < (L.info si).entries.length, ∀ c, neededSearch find si (L.set si s) k = some c →
        find' c.1 c.2 = find c.1 c.2) :
    linkImage find' (strictKernel w) L si = linkImage find w L si := by
  unfold linkImage
  cases hd : (L.info si).dynamic with
  | null => rfl
  | missing => rfl
  | found ds =>
    simp only [strictKernel_r_debug]
    cases hx : extract w.r_debug (L.info si) with
    | error s => rfl
    | ok s =>
      simp only
      split_ifs with ht
      · rfl
      · have hloop : (List.range ds.length).foldlM (linkNeeded find' si) (L.set si s) =
            (List.range ds.length).foldlM (linkNeeded find si) (L.set si s) := by
          refine option_range_congr ds.length fun k hk K hK => linkNeeded_congr fun v he => ?_
          have hlen : k < (L.info si).entries.length := by
            rw [entries_of_found hd]
            exact hk
          exact h s hx ht k hlen _ (neededSearch_some hK he)
        rw [hloop]
        simp only [finishLink_strict]

/-- Where every prelinked file finds its range free, the strict kernel makes no difference. The
induction is on the nesting of the searches. -/
theorem findLibrary_strict (hk : Kernel w) (fuel : ℕ) : ∀ {L : State} {name : Name},
    (∀ K lib, .load K lib ∈ moments w fuel L name → RangeFree w K lib) →
      findLibrary (strictKernel w) fuel L name = findLibrary w fuel L name := by
  induction fuel with
  | zero => exact fun _ => rfl
  | succ fuel ih =>
    intro L name h
    unfold moments at h
    unfold findLibrary
    simp only [strictKernel_overrides] at h ⊢
    cases hn : lookupName L (basename (resolve w.overrides name)) with
    | some si => rfl
    | none =>
      simp only [hn] at h
      have hload : loadLibrary (strictKernel w) L (resolve w.overrides name) =
          loadLibrary w L (resolve w.overrides name) :=
        loadLibrary_strict hk (h _ _ List.mem_cons_self)
      simp only [hload]
      cases hl : loadLibrary w L (resolve w.overrides name) with
      | mk L1 p =>
        obtain ⟨o, host⟩ := p
        cases o with
        | none => rfl
        | some i =>
          simp only [hl] at h ⊢
          have himage :
              linkImage (findLibrary (strictKernel w) fuel) (strictKernel w) L1 (.pool i) =
                linkImage (findLibrary w fuel) w L1 (.pool i) := by
            refine linkImage_strict fun s hx ht k hk c hc => ih fun K lib hm => h K lib ?_
            rw [hx]
            simp only [if_neg ht]
            exact List.mem_cons_of_mem _ (search_moments hk hc hm)
          unfold initLibrary
          rw [himage]

theorem dlopen_strict (hk : Kernel w) {filename : Option Name} (h : PrelinksFree w L filename) :
    bionicDlopen (strictKernel w) fuel L filename = bionicDlopen w fuel L filename := by
  cases filename with
  | none => rfl
  | some lib => simp only [bionicDlopen, findLibrary_strict hk fuel (h lib rfl fuel)]

def isFailure : Event → Bool
  | .linkFailed _ => true
  | _ => false

def failures (L : State) : ℕ := L.events.countP isFailure

theorem applied_applied (L : State) (si : So) (ts us : List RelocTable) :
    applied (applied L si ts) si us = applied L si (ts ++ us) := by
  simp only [applied, State.modify, State.set, if_true, List.append_assoc, State.mk.injEq,
    true_and, and_true]
  funext x
  split_ifs <;> rfl

theorem Relocatable.applies {si : So} (h : Relocatable w L si) : ∀ us ts,
    (L.info si).relocTables = ts ++ us →
      applyTables w si us (applied L si ts) = (applied L si (L.info si).relocTables, true) := by
  intro us
  induction us with
  | nil =>
    intro ts hts
    rw [applyTables, hts, List.append_nil]
  | cons t us ih =>
    intro ts hts
    have hrest := ih (ts ++ [t]) (by rw [hts, List.append_assoc, List.singleton_append])
    rw [← applied_applied] at hrest
    rw [applyTables, if_pos (h.tables ts t us hts)]
    exact hrest

theorem Relocatable.finishes {si : So} (h : Relocatable w L si) : (finishLink w L si).2 = true := by
  have hstart : applied L si [] = L := by
    simp only [applied, List.append_nil]
    exact set_self L si
  have happly := h.applies (L.info si).relocTables [] (List.nil_append _).symm
  rw [hstart] at happly
  rw [finishLink, happly]
  simp only [h.relro]
  rfl

theorem failures_logged (L : State) (i : Slot) :
    failures (L.log [.linkFailed i]) = failures L + 1 :=
  List.countP_cons_of_pos rfl

theorem failures_events {M : State} (h : M.events = L.events) : failures M = failures L := by
  rw [failures, h, failures]

theorem Linkable.extracts {L1 : State} {lib : Name} {f : LibFile} (ha : Appended w L L1 lib i)
    (hf : w.openLibrary L.attempts lib = some f) (h : Linkable f (L1.info (.pool i)).base) :
    HasDynamic (L1.info (.pool i)) ∧ ∀ s, extract w.r_debug (L1.info (.pool i)) = .ok s →
      ¬ (s.strtab = 0 ∨ s.symtab = 0) := by
  obtain ⟨f', hf', -, hent, him, -⟩ := ha.file
  cases hf.symm.trans hf'
  constructor
  · have hmem : ∃ d, d ∈ fileDynamic f := by
      rcases h with ⟨d, hd, -⟩ | ⟨⟨v, hv, -⟩, -⟩
      · exact ⟨d, hd⟩
      · obtain ⟨d, hd, -⟩ := List.mem_filterMap.mp (List.mem_of_getLast? hv)
        exact ⟨d, hd⟩
    obtain ⟨d, hd⟩ := hmem
    exact found_of_mem (hent ▸ hd)
  · intro s hx
    rw [extract_tables hent ha.tables hx, not_not]
    refine h.resolve_left fun hrej => ?_
    rw [← appended_rejects ha hf, ← extract_error_iff w.r_debug] at hrej
    obtain ⟨u, hu⟩ := hrej
    rw [hx] at hu
    cases hu

theorem linkImage_links {find : Find} {search : State → Name → List Moment} {si : So} {N : State}
    {ok : Bool} (hd : HasDynamic (L.info si))
    (ht : ∀ s, extract w.r_debug (L.info si) = .ok s → ¬ (s.strtab = 0 ∨ s.symtab = 0))
    (hs : ∀ s, extract w.r_debug (L.info si) = .ok s → ∀ m ∈ loopMoments search find si
      (L.set si s) (L.info si).entries.length, Links w m)
    (hfind : ∀ K lib M r host, (∀ m ∈ search K lib, Links w m) →
      find K lib = some (M, r, host) → failures M = failures K)
    (h : linkImage find w L si = some (N, ok)) : ok = true ∧ failures N = failures L := by
  obtain ⟨ds, hd⟩ := hd
  have hlen := entries_of_found hd
  unfold linkImage at h
  simp only [hd] at h
  cases hx : extract w.r_debug (L.info si) with
  | error s =>
    simp only [hx] at h
    cases h
    exact ⟨rfl, failures_events rfl⟩
  | ok s =>
    simp only [hx, if_neg (ht s hx)] at h
    obtain ⟨M, hM, hfin⟩ := Option.bind_eq_some_iff.mp h
    have hms := hs s hx
    rw [hlen] at hms
    have hloop : ∀ k ≤ ds.length, ∀ K, (List.range k).foldlM (linkNeeded find si) (L.set si s) =
        some K → failures K = failures L := by
      intro k
      induction k with
      | zero =>
        intro _ K hK
        cases hK
        exact failures_events rfl
      | succ k ih =>
        intro hk K' hK'
        obtain ⟨K, hK, hlast⟩ := option_range_succ hK'
        have hbefore := ih (Nat.le_of_succ_le hk) K hK
        by_cases he : ∃ v, (K.info si).entries[k]? = some ⟨.needed, .val v⟩
        · obtain ⟨v, he⟩ := he
          obtain ⟨K1, r, host, hr, rfl⟩ := linkNeeded_needed he hlast
          refine (hfind _ _ K1 r host (fun m hm => hms m ?_) hr).trans hbefore
          exact search_moments hk (neededSearch_some hK he) hm
        · rw [linkNeeded_other fun v hv => he ⟨v, hv⟩] at hlast
          cases hlast
          exact hbefore
    have hlast : Relocatable w M si := by
      refine hms (.finish M si) (List.mem_append_right _ ?_)
      rw [hM]
      exact List.mem_singleton_self _
    have hok := hlast.finishes
    have hevents := finishLink_events w M si
    rw [Option.some.inj hfin] at hok hevents
    exact ⟨hok, (failures_events hevents).trans (hloop _ le_rfl M hM)⟩

/-- No library fails to link in a search in which all goes well. The induction is on the nesting
of the searches. -/
theorem search_links (fuel : ℕ) : ∀ {L M : State} {name : Name} {r : Option So}
    {host : Option ℕ}, (∀ m ∈ moments w fuel L name, Links w m) →
      findLibrary w fuel L name = some (M, r, host) → failures M = failures L := by
  induction fuel with
  | zero =>
    intro L M name r host _ h
    cases h
  | succ fuel ih =>
    intro L M name r host hm h
    unfold moments at hm
    simp only at hm
    rcases findLibrary_cases h with ⟨x, -, rfl, -⟩ | ⟨-, -, hload⟩ |
      ⟨hn, L1, L2, i, host', ok, hload, hlink, hend⟩
    · rfl
    · exact failures_events (loadLibrary_none hload).events
    · have ha := loadLibrary_some hload
      obtain ⟨f, hf, -⟩ := ha.file
      simp only [hn, hload] at hm
      have hfirst := hm _ List.mem_cons_self f L1 i host' hf hload
      obtain ⟨hdyn, htables⟩ := hfirst.extracts ha hf
      have hlinks : ok = true ∧ failures L2 = failures L1 := by
        have hfind : ∀ K lib M r host, (∀ m ∈ moments w fuel K lib, Links w m) →
            findLibrary w fuel K lib = some (M, r, host) → failures M = failures K :=
          fun K lib M r host hK hr => ih hK hr
        refine linkImage_links hdyn htables (fun s hx m hms => ?_) hfind hlink
        apply hm m
        rw [hx]
        simp only [if_neg (htables s hx)]
        exact List.mem_cons_of_mem _ hms
      obtain ⟨rfl, hevents⟩ := hlinks
      rcases hend with ⟨-, -, rfl⟩ | ⟨hok, -⟩
      · exact hevents.trans (failures_events ha.events)
      · cases hok

theorem prelinksFree_plain {filename : Option Name}
    (h : ∀ n lib f, w.openLibrary n lib = some f → f.prelink = 0) : PrelinksFree w L filename :=
  fun _ _ _ _ _ _ f _ hf _ hne => absurd (h _ _ f hf) hne

def TableInside (f : LibFile) (tag : DynTag) : Prop :=
  ∃ v size, lastValue tag (fileDynamic f) = some v ∧ fileExtents f = some size ∧ v < size

theorem allLink_inside (hk : Kernel w) {filename : Option Name}
    (hbase : ∀ L size b, w.mmapRegion L 0 size = some b → b ≠ 0)
    (hfiles : ∀ n lib f, w.openLibrary n lib = some f →
      TableInside f .strtab ∧ TableInside f .symtab)
    (hrelocate : ∀ L si t, w.relocate L si t = true)
    (hprotect : ∀ L si, w.protectRelro L si = true) :
    AllLink w L filename := by
  intro lib _ fuel m _
  cases m with
  | load K name =>
    intro f M i host hf hload
    have ha := loadLibrary_some hload
    obtain ⟨f', hf', hext, -⟩ := ha.file
    cases hf.symm.trans hf'
    obtain ⟨K', hint, -, hreg⟩ := ha.region
    have htop := (hk.inside K' hint _ _ hreg).2
    have hne : (M.info (.pool i)).base ≠ 0 := by
      by_cases hz : hint = 0
      · exact hbase K' _ _ (hz ▸ hreg)
      · exact hk.fixed K' hint _ _ hz hreg ▸ hz
    have htable : ∀ tag, TableInside f tag → Table f (M.info (.pool i)).base tag := by
      rintro tag ⟨v, size, hv, hsize, hlt⟩
      cases hext.symm.trans hsize
      exact ⟨v, hv, by omega⟩
    obtain ⟨hstr, hsym⟩ := hfiles _ _ f hf
    exact Or.inr ⟨htable _ hstr, htable _ hsym⟩
  | finish K si =>
    refine ⟨fun _ _ _ _ => hrelocate _ _ _, ?_⟩
    rw [relroProtected, hprotect, Bool.or_true]

theorem loopMoments_plain {search : State → Name → List Moment} {find : Find} {si : So}
    (h : ∀ d ∈ (L.info si).entries, d.d_tag ≠ .needed) (n : ℕ) :
    loopMoments search find si L n = [.finish L si] := by
  have hno : ∀ k v : ℕ, (L.info si).entries[k]? ≠ some ⟨.needed, .val v⟩ := by
    intro k v he
    exact h _ (List.mem_of_getElem? he) rfl
  have hloop : ∀ k, (List.range k).foldlM (linkNeeded find si) L = some L := by
    intro k
    induction k with
    | zero => rfl
    | succ k ih =>
      rw [List.range_succ, List.foldlM_append, ih]
      show linkNeeded find si L k >>= pure = some L
      rw [linkNeeded_other (hno k)]
      rfl
  have hsearch : ∀ k, neededSearch find si L k = none := by
    intro k
    rw [neededSearch, hloop k]
    simp only [Option.bind_some]
    split
    · next v he => exact absurd he (hno k v)
    · rfl
  have hnone : (List.range n).filterMap (neededSearch find si L) = [] :=
    List.filterMap_eq_nil_iff.mpr fun k _ => hsearch k
  rw [loopMoments, hloop n, hnone]
  rfl

theorem moments_plain (h : ∀ n lib f, w.openLibrary n lib = some f →
    ∀ d ∈ fileDynamic f, d.d_tag ≠ .needed) {K : State} {lib : Name}
    (hm : .load K lib ∈ moments w fuel L name) : K = L ∧ lib = resolve w.overrides name := by
  cases fuel with
  | zero => cases hm
  | succ fuel =>
    unfold moments at hm
    simp only at hm
    cases hn : lookupName L (basename (resolve w.overrides name)) with
    | some si =>
      simp only [hn] at hm
      cases hm
    | none =>
      simp only [hn] at hm
      rcases List.mem_cons.mp hm with he | hm
      · cases he
        exact ⟨rfl, rfl⟩
      · cases hload : loadLibrary w L (resolve w.overrides name) with
        | mk L1 p =>
          obtain ⟨o, host⟩ := p
          cases o with
          | none =>
            simp only [hload] at hm
            cases hm
          | some i =>
            simp only [hload] at hm
            cases hx : extract w.r_debug (L1.info (.pool i)) with
            | error s =>
              simp only [hx] at hm
              cases hm
            | ok s =>
              simp only [hx] at hm
              split_ifs at hm
              · cases hm
              · obtain ⟨f, hf, -, hent, -⟩ := (loadLibrary_some hload).file
                rw [loopMoments_plain] at hm
                · cases List.mem_singleton.mp hm
                · rw [set_same]
                  intro d hd htag
                  have htags := (extract_same (Or.inl hx)).tags
                  have hmem : .needed ∈ s.entries.map Dyn.d_tag := htag ▸ List.mem_map_of_mem hd
                  rw [htags, hent] at hmem
                  obtain ⟨e, he, hneed⟩ := List.mem_map.mp hmem
                  exact h _ _ f hf e he hneed

end Bionic.Regions
