import BionicTranslation.Unload
import BionicTranslation.SegmentRuns
import BionicTranslation.FoldRules

/-!
# What the small operations change

Frame facts for the state operations, for the extraction of the dynamic section
and for the loading of one file. An attempt to load that fails leaves the list
and the records on it as they were; one that succeeds appends one record.
-/

set_option autoImplicit false

namespace Bionic.LinkFrame
open Bionic.Segments Bionic.SegmentRuns Bionic.Slots Bionic.Records Bionic.Linker Bionic.FoldRules

@[simp] theorem set_pool (L : State) (si : So) (s : Soinfo) : (L.set si s).pool = L.pool := rfl
@[simp] theorem set_mapped (L : State) (si : So) (s : Soinfo) :
    (L.set si s).mapped = L.mapped := rfl
@[simp] theorem set_events (L : State) (si : So) (s : Soinfo) :
    (L.set si s).events = L.events := rfl
@[simp] theorem set_solist (L : State) (si : So) (s : Soinfo) :
    (L.set si s).solist = L.solist := rfl
@[simp] theorem set_same (L : State) (si : So) (s : Soinfo) : (L.set si s).info si = s :=
  if_pos rfl
theorem set_other (L : State) {si x : So} (s : Soinfo) (h : x ≠ si) :
    (L.set si s).info x = L.info x := if_neg h

@[simp] theorem modify_pool (L : State) (si : So) (f : Soinfo → Soinfo) :
    (L.modify si f).pool = L.pool := rfl
@[simp] theorem modify_mapped (L : State) (si : So) (f : Soinfo → Soinfo) :
    (L.modify si f).mapped = L.mapped := rfl
@[simp] theorem modify_events (L : State) (si : So) (f : Soinfo → Soinfo) :
    (L.modify si f).events = L.events := rfl
@[simp] theorem modify_solist (L : State) (si : So) (f : Soinfo → Soinfo) :
    (L.modify si f).solist = L.solist := rfl
@[simp] theorem modify_same (L : State) (si : So) (f : Soinfo → Soinfo) :
    (L.modify si f).info si = f (L.info si) := if_pos rfl
theorem modify_other (L : State) {si x : So} (f : Soinfo → Soinfo) (h : x ≠ si) :
    (L.modify si f).info x = L.info x := if_neg h

@[simp] theorem log_info (L : State) (es : List Event) : (L.log es).info = L.info := rfl
@[simp] theorem log_pool (L : State) (es : List Event) : (L.log es).pool = L.pool := rfl
@[simp] theorem log_mapped (L : State) (es : List Event) : (L.log es).mapped = L.mapped := rfl
@[simp] theorem log_solist (L : State) (es : List Event) : (L.log es).solist = L.solist := rfl

@[simp] theorem mmap_info (L : State) (b n : ℕ) : (L.mmap b n).info = L.info := rfl
@[simp] theorem mmap_pool (L : State) (b n : ℕ) : (L.mmap b n).pool = L.pool := rfl
@[simp] theorem mmap_events (L : State) (b n : ℕ) : (L.mmap b n).events = L.events := rfl
@[simp] theorem munmap_info (L : State) (b n : ℕ) : (L.munmap b n).info = L.info := rfl
@[simp] theorem munmap_pool (L : State) (b n : ℕ) : (L.munmap b n).pool = L.pool := rfl
@[simp] theorem munmap_solist (L : State) (b n : ℕ) : (L.munmap b n).solist = L.solist := rfl
@[simp] theorem munmap_events (L : State) (b n : ℕ) : (L.munmap b n).events = L.events := rfl

theorem set_self (L : State) (si : So) : L.set si (L.info si) = L := by
  unfold State.set
  congr 1
  funext x
  split_ifs with h
  · rw [h]
  · rfl

theorem mem_solist {L : State} {x : So} :
    x ∈ L.solist ↔ x = .libdl ∨ ∃ i ∈ L.pool.loaded, x = .pool i := by
  unfold State.solist
  rw [List.mem_cons, List.mem_map]
  simp only [eq_comm (a := x)]

theorem pool_mem_solist {L : State} {i : Slot} : .pool i ∈ L.solist ↔ i ∈ L.pool.loaded := by
  rw [mem_solist]
  simp

theorem libdl_mem_solist (L : State) : .libdl ∈ L.solist := List.mem_cons_self

theorem solist_nodup (L : State) : L.solist.Nodup := by
  rw [State.solist, List.nodup_cons]
  refine ⟨by simp, L.pool.loaded_nodup.map fun i j h => ?_⟩
  cases h
  rfl

theorem mmap_mapped (L : State) (b n a : ℕ) :
    (L.mmap b n).mapped a = true ↔ (b ≤ a ∧ a < b + n) ∨ L.mapped a = true := by
  simp [State.mmap]

theorem munmap_mapped (L : State) (b n a : ℕ) :
    (L.munmap b n).mapped a = true ↔ ¬ (b ≤ a ∧ a < b + n) ∧ L.mapped a = true := by
  simp only [State.munmap, Bool.and_eq_true, Bool.not_eq_true', decide_eq_false_iff_not]

theorem entries_of_found {s : Soinfo} {ds : List Dyn} (h : s.dynamic = .found ds) :
    s.entries = ds := by
  rw [Soinfo.entries, h]

@[simp] theorem setEntries_entries (s : Soinfo) (ds : List Dyn) :
    (s.setEntries ds).entries = ds := rfl

theorem tags_set {ds : List Dyn} {i : ℕ} {d e : Dyn} (h : ds[i]? = some d)
    (ht : e.d_tag = d.d_tag) : (ds.set i e).map Dyn.d_tag = ds.map Dyn.d_tag := by
  obtain ⟨hi, rfl⟩ := List.getElem?_eq_some_iff.mp h
  rw [List.map_set, ht, ← List.getElem_map Dyn.d_tag]
  · exact List.set_getElem_self _
  · simpa using hi

def hits (y : So) (d : Dyn) : Bool := d.d_tag = .needed && d.d_un = .so y

theorem payloads_eq (s : Soinfo) (y : So) : s.payloads y = s.entries.countP (hits y) := rfl

theorem payloads_set {s : Soinfo} {i : ℕ} {d : Dyn} (e : Dyn) (h : s.entries[i]? = some d)
    (y : So) : (s.setEntries (s.entries.set i e)).payloads y + (if hits y d then 1 else 0) =
      s.payloads y + (if hits y e then 1 else 0) := by
  obtain ⟨hi, hd⟩ := List.getElem?_eq_some_iff.mp h
  have hpos : hits y d = true → 0 < s.entries.countP (hits y) := fun hh =>
    List.countP_pos_iff.mpr ⟨d, List.mem_of_getElem? h, hh⟩
  rw [payloads_eq, payloads_eq, setEntries_entries, List.countP_set hi, hd]
  by_cases h1 : hits y d = true
  · have := hpos h1
    split_ifs <;> omega
  · split_ifs <;> omega

/-- The entries at which extraction returns early: DT_REL, DT_RELSZ, and a GNU
hash table whose number of bloom words is not a power of two. -/
def Rejecting (im : Image) (d : Dyn) : Prop :=
  ∃ v, d.d_un = .val v ∧ (d.d_tag = .rel ∨ d.d_tag = .relsz ∨
    (d.d_tag = .gnuHash ∧ powerof2 (im.u32 (v + 8)) = false))

def RejectsAt (s : Soinfo) (i : ℕ) : Prop := ∃ d, s.entries[i]? = some d ∧ Rejecting s.image d

structure Same (s t : Soinfo) : Prop where
  name : t.name = s.name
  base : t.base = s.base
  size : t.size = s.size
  phdr : t.phdr = s.phdr
  phnum : t.phnum = s.phnum
  refcount : t.refcount = s.refcount
  constructed : t.constructors_called = s.constructors_called
  linked : t.flags.linked = s.flags.linked
  error : t.flags.error = s.flags.error
  tags : t.entries.map Dyn.d_tag = s.entries.map Dyn.d_tag
  payloads : ∀ y, t.payloads y = s.payloads y
  found : ∀ ds, s.dynamic = .found ds → ∃ ds', t.dynamic = .found ds'
  image : t.image = s.image
  entry : ∀ (i : ℕ) (d : Dyn), d.d_tag ≠ .debug → (t.entries[i]? = some d ↔ s.entries[i]? = some d)

theorem Same.refl (s : Soinfo) : Same s s :=
  ⟨rfl, rfl, rfl, rfl, rfl, rfl, rfl, rfl, rfl, rfl, fun _ => rfl, fun ds h => ⟨ds, h⟩, rfl,
    fun _ _ _ => Iff.rfl⟩

theorem Same.trans {s t u : Soinfo} (h : Same s t) (k : Same t u) : Same s u where
  name := k.name.trans h.name
  base := k.base.trans h.base
  size := k.size.trans h.size
  phdr := k.phdr.trans h.phdr
  phnum := k.phnum.trans h.phnum
  refcount := k.refcount.trans h.refcount
  constructed := k.constructed.trans h.constructed
  linked := k.linked.trans h.linked
  error := k.error.trans h.error
  tags := k.tags.trans h.tags
  payloads y := (k.payloads y).trans (h.payloads y)
  found ds hd := by
    obtain ⟨ds', hd'⟩ := h.found ds hd
    exact k.found ds' hd'
  image := k.image.trans h.image
  entry i d hd := (k.entry i d hd).trans (h.entry i d hd)

theorem Same.rejects {s t : Soinfo} (h : Same s t) (i : ℕ) : RejectsAt t i ↔ RejectsAt s i := by
  unfold RejectsAt
  rw [h.image]
  refine exists_congr fun d => and_congr_left ?_
  rintro ⟨v, -, hd⟩
  refine h.entry i d ?_
  rcases hd with hd | hd | ⟨hd, -⟩ <;> rw [hd] <;> decide

theorem same_debug {s : Soinfo} {i v : ℕ} (r : ℕ)
    (h : s.entries[i]? = some ⟨.debug, .val v⟩) :
    Same s (s.setEntries (s.entries.set i ⟨.debug, .val r⟩)) where
  name := rfl
  base := rfl
  size := rfl
  phdr := rfl
  phnum := rfl
  refcount := rfl
  constructed := rfl
  linked := rfl
  error := rfl
  tags := tags_set h rfl
  payloads y := by simpa [hits] using payloads_set ⟨.debug, .val r⟩ h y
  found ds _ := ⟨_, rfl⟩
  image := rfl
  entry j d hd := by
    rw [setEntries_entries, List.getElem?_set]
    split_ifs with hij hlt
    · subst hij
      rw [h, Option.some.injEq, Option.some.injEq]
      constructor <;> rintro rfl <;> exact absurd rfl hd
    · subst hij
      exact absurd (List.getElem?_eq_some_iff.mp h).1 hlt
    · rfl

theorem extractEntry_same {r : ℕ} {s t : Soinfo} {i : ℕ}
    (h : extractEntry r s i = .ok t ∨ extractEntry r s i = .error t) : Same s t := by
  unfold extractEntry at h
  cases he : s.entries[i]? with
  | none =>
    simp only [he, Except.ok.injEq, reduceCtorEq, or_false] at h
    exact h ▸ Same.refl s
  | some d =>
    obtain ⟨tag, un⟩ := d
    cases un with
    | so y =>
      simp only [he, Except.ok.injEq, reduceCtorEq, or_false] at h
      exact h ▸ Same.refl s
    | val v =>
      cases tag <;> simp only [he, Except.ok.injEq, Except.error.injEq, reduceCtorEq, or_false,
        false_or] at h
      case debug =>
        subst h
        exact same_debug r he
      case hash =>
        split_ifs at h <;> simp only [Except.ok.injEq, or_false] at h <;> subst h <;>
          exact ⟨rfl, rfl, rfl, rfl, rfl, rfl, rfl, rfl, rfl, rfl, fun _ => rfl,
            fun ds h => ⟨ds, h⟩, rfl, fun _ _ _ => Iff.rfl⟩
      case gnuHash =>
        split_ifs at h <;> simp only [Except.ok.injEq, Except.error.injEq, or_false,
          false_or] at h <;> subst h <;>
          exact ⟨rfl, rfl, rfl, rfl, rfl, rfl, rfl, rfl, rfl, rfl, fun _ => rfl,
            fun ds h => ⟨ds, h⟩, rfl, fun _ _ _ => Iff.rfl⟩
      all_goals
        subst h
        exact ⟨rfl, rfl, rfl, rfl, rfl, rfl, rfl, rfl, rfl, rfl, fun _ => rfl, fun ds h => ⟨ds, h⟩,
          rfl, fun _ _ _ => Iff.rfl⟩

theorem extract_same {r : ℕ} {s t : Soinfo}
    (h : extract r s = .ok t ∨ extract r s = .error t) : Same s t := by
  have hstep : ∀ u i v, i ∈ List.range s.entries.length → Same s u →
      extractEntry r u i = .ok v → Same s v :=
    fun u i v _ hu hv => hu.trans (extractEntry_same (Or.inl hv))
  rcases h with h | h
  · exact except_invariant hstep (Same.refl s) h
  · obtain ⟨u, hu, i, -, hi⟩ := except_error hstep (Same.refl s) h
    exact hu.trans (extractEntry_same (Or.inr hi))

theorem extractEntry_error_iff (r : ℕ) (s : Soinfo) (i : ℕ) :
    (∃ t, extractEntry r s i = .error t) ↔ RejectsAt s i := by
  unfold extractEntry RejectsAt
  cases he : s.entries[i]? with
  | none => simp
  | some d =>
    obtain ⟨tag, un⟩ := d
    cases un with
    | so y => simp [Rejecting]
    | val v =>
      cases tag <;> simp [Rejecting]
      case hash => split_ifs <;> simp
      case gnuHash =>
        cases hp : powerof2 (s.image.u32 (v + 8)) <;> simp

theorem extract_error_iff (r : ℕ) (s : Soinfo) :
    (∃ t, extract r s = .error t) ↔ ∃ i, RejectsAt s i := by
  have hstep : ∀ u i v, i ∈ List.range s.entries.length → Same s u →
      extractEntry r u i = .ok v → Same s v :=
    fun u i v _ hu hv => hu.trans (extractEntry_same (Or.inl hv))
  constructor
  · rintro ⟨t, h⟩
    obtain ⟨u, hu, i, -, hi⟩ := except_error hstep (Same.refl s) h
    exact ⟨i, (hu.rejects i).mp ((extractEntry_error_iff r u i).mp ⟨t, hi⟩)⟩
  · rintro ⟨i, hi⟩
    cases hx : extract r s with
    | error t => exact ⟨t, rfl⟩
    | ok t =>
      have hlt : i ∈ List.range s.entries.length := by
        obtain ⟨d, hd, -⟩ := hi
        exact List.mem_range.mpr (List.getElem?_eq_some_iff.mp hd).1
      obtain ⟨u, v, hu, hv⟩ := except_each hstep (Same.refl s) hx hlt
      obtain ⟨e, he⟩ := (extractEntry_error_iff r u i).mpr ((hu.rejects i).mpr hi)
      rw [hv] at he
      cases he

theorem allocInfo_some {L L' : State} {name : Name} {i : Slot}
    (h : allocInfo L name = some (L', i)) :
    L'.pool.loaded = L.pool.loaded ++ [i] ∧ i ∉ L.pool.loaded ∧
      L' = { L with pool := L'.pool }.set (.pool i) { name } := by
  unfold allocInfo at h
  split_ifs at h
  obtain ⟨⟨pool, j⟩, hp, he⟩ := Option.map_eq_some_iff.mp h
  cases he
  obtain ⟨h1, h2⟩ := alloc_some hp
  exact ⟨h1, h2, rfl⟩

def Region (w : World) (mapped : ℕ → Bool) (base size : ℕ) : Prop :=
  ∃ L : State, ∃ hint, L.mapped = mapped ∧ w.mmapRegion L hint size = some base

/-- A failed attempt may have unmapped a region it was given. -/
def Returned (w : World) (before after : ℕ → Bool) : Prop :=
  after = before ∨ ∃ base size, Region w before base size ∧
    ∀ a, after a = true ↔ ¬ (base ≤ a ∧ a < base + size) ∧ before a = true

/-- The dynamic section of a file as the loader finds it: that of the last
PT_DYNAMIC entry. -/
def fileDynamic (f : LibFile) : List Dyn :=
  match (f.phdrs.filter fun p => p.p_type = .dynamic).getLast? with
  | none => []
  | some p => (f.image.dyn p.p_vaddr).map fun d => ⟨d.1, .val d.2⟩

structure Attempted (w : World) (L L' : State) : Prop where
  loaded : L'.pool.loaded = L.pool.loaded
  info : ∀ x ∈ L.solist, L'.info x = L.info x
  scratch : ∀ x, L'.info x = L.info x ∨
    (L'.info x).refcount = 0 ∧ ∀ y, (L'.info x).payloads y = 0
  events : L'.events = L.events
  mapped : Returned w L.mapped L'.mapped

structure Appended (w : World) (L L' : State) (lib : Name) (i : Slot) : Prop where
  loaded : L'.pool.loaded = L.pool.loaded ++ [i]
  fresh : i ∉ L.pool.loaded
  info : ∀ x, x ≠ .pool i → L'.info x = L.info x
  events : L'.events = L.events
  name : (L'.info (.pool i)).name = basename lib
  refcount : (L'.info (.pool i)).refcount = 0
  flags : (L'.info (.pool i)).flags = {}
  constructed : (L'.info (.pool i)).constructors_called = false
  tables : (L'.info (.pool i)).strtab = 0 ∧ (L'.info (.pool i)).symtab = 0
  payloads : ∀ y, (L'.info (.pool i)).payloads y = 0
  dynamic : (L'.info (.pool i)).dynamic = .missing ∨
    ∃ ds, (L'.info (.pool i)).dynamic = .found ds
  file : ∃ f, w.openLibrary L.attempts lib = some f ∧
    fileExtents f = some (L'.info (.pool i)).size ∧
    (L'.info (.pool i)).entries = fileDynamic f ∧ (L'.info (.pool i)).image = f.image ∧
    (L'.info (.pool i)).phdr = (L'.info (.pool i)).addr f.image.e_phoff ∧
    (L'.info (.pool i)).phnum = f.image.e_phnum
  region : Region w L.mapped (L'.info (.pool i)).base (L'.info (.pool i)).size
  mapped : ∀ a, L'.mapped a = true ↔ ((L'.info (.pool i)).base ≤ a ∧
    a < (L'.info (.pool i)).base + (L'.info (.pool i)).size) ∨ L.mapped a = true

theorem solist_congr {L L' : State} (h : L'.pool.loaded = L.pool.loaded) :
    L'.solist = L.solist := by
  rw [State.solist, h, State.solist]

theorem Attempted.solist {w : World} {L L' : State} (h : Attempted w L L') :
    L'.solist = L.solist := solist_congr h.loaded

section appended
variable {w : World} {L L' : State} {lib : Name} {i : Slot} (h : Appended w L L' lib i)
include h

theorem Appended.solist : L'.solist = L.solist ++ [.pool i] := by
  rw [State.solist, h.loaded, State.solist]
  simp

theorem Appended.not_mem : .pool i ∉ L.solist := fun hm => h.fresh (pool_mem_solist.mp hm)

theorem Appended.old {x : So} (hx : x ∈ L.solist) : L'.info x = L.info x :=
  h.info x fun e => h.not_mem (e ▸ hx)

theorem Appended.mem_old {x : So} (hx : x ∈ L'.solist) (hne : x ≠ .pool i) : x ∈ L.solist := by
  rw [h.solist, List.mem_append, List.mem_singleton] at hx
  exact hx.resolve_right hne

end appended

theorem foldl_dynamic (base : ℕ) (phdrs : List Phdr) (st : Loading) :
    (phdrs.foldl (advance base) st).dynamic =
      match (phdrs.filter fun p => p.p_type = .dynamic).getLast? with
      | none => st.dynamic
      | some p => some ((base + p.p_vaddr) % 0x10000000000000000) := by
  induction phdrs using List.reverseRecOn with
  | nil => rfl
  | append_singleton phdrs p ih =>
    rw [List.foldl_concat, List.filter_append]
    by_cases hp : p.p_type = .dynamic
    · simp [advance, hp]
    · have hs : [p].filter (fun p => p.p_type = .dynamic) = [] := by simp [hp]
      rw [hs, List.append_nil, ← ih]
      cases ht : p.p_type <;> simp_all [advance]

theorem offset_addr (s : Soinfo) (v : ℕ) (hv : v < 0x10000000000000000) :
    s.offset ((s.base + v) % 0x10000000000000000) = v := by
  unfold Soinfo.offset
  omega

theorem fill_entries {f : LibFile} {st : Loading} {s : Soinfo} {mm : MemCall → Bool}
    {base size : ℕ} (hb : s.base = base) (h : loadSegments mm base size f.phdrs = .ok st) :
    (fillInfo f st s).entries = fileDynamic f := by
  subst hb
  obtain ⟨-, hst, -⟩ := (loadSegments_ok_iff _ _ _ _ _).mp h
  have hd : st.dynamic = _ := hst ▸ foldl_dynamic s.base f.phdrs loadStart
  unfold fillInfo Soinfo.entries fileDynamic
  rw [hd]
  cases hp : (f.phdrs.filter fun p => p.p_type = .dynamic).getLast? with
  | none => rfl
  | some p =>
    simp only
    rw [offset_addr s p.p_vaddr p.vaddr_lt]

theorem fill_payloads (f : LibFile) (st : Loading) (s : Soinfo) (y : So) :
    (fillInfo f st s).payloads y = 0 := by
  rw [payloads_eq, List.countP_eq_zero]
  intro d hd
  unfold fillInfo Soinfo.entries at hd
  cases hst : st.dynamic with
  | none => simp [hst] at hd
  | some a =>
    simp only [hst, List.mem_map] at hd
    obtain ⟨e, -, rfl⟩ := hd
    simp [hits]

theorem allocMemRegion_ok {w : World} {L L' : State} {si : So}
    (h : allocMemRegion w L si = .ok L') : ∃ b, w.mmapRegion L (L.info si).base (L.info si).size =
      some b ∧ L' = (L.mmap b (L.info si).size).modify si fun s => { s with base := b } := by
  unfold allocMemRegion at h
  cases hm : w.mmapRegion L (L.info si).base (L.info si).size with
  | none =>
    simp only [hm] at h
    cases h
  | some b =>
    simp only [hm] at h
    split_ifs at h with h1 h2
    · cases h
      refine ⟨b, rfl, ?_⟩
      have hsame : ({ L.info si with base := b } : Soinfo) = L.info si := by rw [h2]
      rw [State.modify, mmap_info, hsame]
      exact (set_self (L.mmap b _) si).symm
    · cases h
      exact ⟨b, rfl, rfl⟩

theorem allocMemRegion_error {w : World} {L L' : State} {si : So}
    (h : allocMemRegion w L si = .error L') :
    L'.pool = L.pool ∧ L'.info = L.info ∧ L'.events = L.events ∧
      Returned w L.mapped L'.mapped := by
  unfold allocMemRegion at h
  cases hm : w.mmapRegion L (L.info si).base (L.info si).size with
  | none =>
    simp only [hm] at h
    cases h
    exact ⟨rfl, rfl, rfl, Or.inl rfl⟩
  | some b =>
    simp only [hm] at h
    split_ifs at h with h1 h2
    · cases h
      exact ⟨rfl, rfl, rfl, Or.inr ⟨b, _, ⟨L, _, rfl, hm⟩, munmap_mapped L b _⟩⟩

theorem loadFile_cases {w : World} {L L' : State} {f : LibFile} {size : ℕ} {i : Slot}
    {r : Option Slot} (h : loadFile w L f size i = (L', r)) :
    (r = none ∧ L'.pool = L.pool.free i ∧ (∀ x, x ≠ .pool i → L'.info x = L.info x) ∧
      ((L'.info (.pool i)).refcount = (L.info (.pool i)).refcount ∧
        (L'.info (.pool i)).dynamic = .missing) ∧
      L'.events = L.events ∧ Returned w L.mapped L'.mapped) ∨
    (r = some i ∧ L'.pool = L.pool ∧ (∀ x, x ≠ .pool i → L'.info x = L.info x) ∧
      L'.events = L.events ∧ ∃ b st mm, Region w L.mapped b size ∧
      loadSegments mm b size f.phdrs = .ok st ∧
      L'.mapped = (L.mmap b size).mapped ∧ L'.info (.pool i) = fillInfo f st
        { L.info (.pool i) with
          fullpath := f.path.take 127, base := b, size, dynamic := .missing }) := by
  unfold loadFile at h
  simp only at h
  generalize hL1 : L.modify (.pool i) (fun s => { s with
    fullpath := f.path.take 127, base := f.prelink, size, dynamic := .missing }) = L1 at h
  have hinfo1 : ∀ x, x ≠ .pool i → L1.info x = L.info x := fun x hx =>
    hL1 ▸ modify_other L _ hx
  have hpool1 : L1.pool = L.pool := hL1 ▸ rfl
  have hev1 : L1.events = L.events := hL1 ▸ rfl
  have hmap1 : L1.mapped = L.mapped := hL1 ▸ rfl
  have hown1 : L1.info (.pool i) = { L.info (.pool i) with
      fullpath := f.path.take 127, base := f.prelink, size, dynamic := .missing } :=
    hL1 ▸ modify_same L _ _
  cases hm : allocMemRegion w L1 (.pool i) with
  | error L2 =>
    obtain ⟨hp, hi, he, hr⟩ := allocMemRegion_error hm
    simp only [hm, freeInfo] at h
    cases h
    refine Or.inl ⟨rfl, by rw [hp, hpool1], fun x hx => ?_, ?_, he.trans hev1, hmap1 ▸ hr⟩
    · rw [hi]
      exact hinfo1 x hx
    · rw [hi, hown1]
      exact ⟨rfl, rfl⟩
  | ok L2 =>
    obtain ⟨b, hb, rfl⟩ := allocMemRegion_ok hm
    have hsize : (L1.info (.pool i)).size = size := by rw [hown1]
    rw [hsize] at hb hm
    have hreg : Region w L.mapped b size := ⟨L1, _, hmap1, hb⟩
    simp only [hm, hsize, modify_same, mmap_info] at h
    split at h
    · next hs =>
      cases h
      refine Or.inl ⟨rfl, by simp [freeInfo, hpool1], fun x hx => ?_, ?_, ?_,
        Or.inr ⟨b, size, hreg, ?_⟩⟩
      · simp only [freeInfo]
        rw [modify_other _ _ hx, munmap_info, modify_other _ _ hx, mmap_info]
        exact hinfo1 x hx
      · simp only [freeInfo]
        rw [modify_same, munmap_info, modify_same, mmap_info, hown1]
        exact ⟨rfl, rfl⟩
      · simpa [freeInfo] using hev1
      · intro a
        simp only [freeInfo, modify_mapped, munmap_mapped, mmap_mapped, hmap1]
        tauto
    · next st hs =>
      cases h
      refine Or.inr ⟨rfl, by simp [hpool1], fun x hx => ?_, by simpa using hev1, b, st, _, hreg,
        hs, ?_, ?_⟩
      · rw [modify_other _ _ hx, modify_other _ _ hx, mmap_info]
        exact hinfo1 x hx
      · simp [State.mmap, hmap1]
      · rw [modify_same, modify_same, mmap_info, hown1]

theorem loadLibrary_none {w : World} {L L' : State} {lib : Name} {host : Option ℕ}
    (h : loadLibrary w L lib = (L', none, host)) : Attempted w L L' := by
  unfold loadLibrary at h
  cases hf : w.openLibrary L.attempts lib with
  | none =>
    simp only [hf] at h
    cases h
    exact ⟨rfl, fun _ _ => rfl, fun _ => Or.inl rfl, rfl, Or.inl rfl⟩
  | some f =>
    cases hs : fileExtents f with
    | none =>
      simp only [hf, hs] at h
      cases h
      exact ⟨rfl, fun _ _ => rfl, fun _ => Or.inl rfl, rfl, Or.inl rfl⟩
    | some size =>
      cases ha : allocInfo { L with attempts := L.attempts + 1 } (basename lib) with
      | none =>
        simp only [hf, hs, ha] at h
        cases h
        exact ⟨rfl, fun _ _ => rfl, fun _ => Or.inl rfl, rfl, Or.inl rfl⟩
      | some p =>
        obtain ⟨L1, i⟩ := p
        obtain ⟨hload, hfresh, hL1⟩ := allocInfo_some ha
        cases hr : loadFile w L1 f size i with
        | mk L2 r =>
          simp only [hf, hs, ha, hr] at h
          cases h
          rcases loadFile_cases hr with ⟨-, hp, hi, hown, he, hm⟩ | ⟨hn, -⟩
          · have hmap : L1.mapped = L.mapped := by rw [hL1]; rfl
            refine ⟨?_, fun x hx => ?_, fun x => ?_, ?_, hmap ▸ hm⟩
            · rw [hp, free_loaded, hload, List.erase_append_right _ hfresh]
              simp
            · have hxi : x ≠ .pool i := by
                rintro rfl
                exact hfresh (pool_mem_solist.mp hx)
              rw [hi x hxi, hL1, set_other _ _ hxi]
            · by_cases hxi : x = .pool i
              · subst hxi
                refine Or.inr ⟨by rw [hown.1, hL1, set_same], fun y => ?_⟩
                rw [payloads_eq, Soinfo.entries, hown.2]
                rfl
              · exact Or.inl (by rw [hi x hxi, hL1, set_other _ _ hxi])
            · rw [he, hL1]
              rfl
          · cases hn

theorem loadLibrary_some {w : World} {L L' : State} {lib : Name} {host : Option ℕ} {i : Slot}
    (h : loadLibrary w L lib = (L', some i, host)) : Appended w L L' lib i := by
  unfold loadLibrary at h
  cases hf : w.openLibrary L.attempts lib with
  | none =>
    simp only [hf] at h
    cases h
  | some f =>
    cases hs : fileExtents f with
    | none =>
      simp only [hf, hs] at h
      cases h
    | some size =>
      cases ha : allocInfo { L with attempts := L.attempts + 1 } (basename lib) with
      | none =>
        simp only [hf, hs, ha] at h
        cases h
      | some p =>
        obtain ⟨L1, j⟩ := p
        obtain ⟨hload, hfresh, hL1⟩ := allocInfo_some ha
        cases hr : loadFile w L1 f size j with
        | mk L2 r =>
          simp only [hf, hs, ha, hr] at h
          cases h
          rcases loadFile_cases hr with ⟨hn, -⟩ | ⟨hj, hp, hi, he, b, st, mm, hreg, hld, hm, hown⟩
          · cases hn
          · cases hj
            have hmap : L1.mapped = L.mapped := by rw [hL1]; rfl
            have hname : (L1.info (.pool i)) = { name := basename lib } := by rw [hL1, set_same]
            rw [hname] at hown
            exact {
              loaded := by rw [hp, hload]
              fresh := hfresh
              info := fun x hx => by rw [hi x hx, hL1, set_other _ _ hx]
              events := by rw [he, hL1]; rfl
              name := by rw [hown]; rfl
              refcount := by rw [hown]; rfl
              flags := by rw [hown]; rfl
              constructed := by rw [hown]; rfl
              tables := by rw [hown]; exact ⟨rfl, rfl⟩
              payloads := fun y => by rw [hown]; exact fill_payloads f st _ y
              dynamic := by
                rw [hown]
                unfold fillInfo
                cases st.dynamic with
                | none => exact Or.inl rfl
                | some a => exact Or.inr ⟨_, rfl⟩
              file := ⟨f, hf, by rw [hown, hs]; rfl, by rw [hown]; exact fill_entries rfl hld,
                by rw [hown]; rfl, by rw [hown]; rfl, by rw [hown]; rfl⟩
              region := by rw [hown]; exact hmap ▸ hreg
              mapped := fun a => by rw [hown, hm, mmap_mapped, hmap]; rfl }

end Bionic.LinkFrame
