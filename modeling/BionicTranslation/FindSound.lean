import BionicTranslation.LinkFlags
import BionicTranslation.SegmentBounds

/-!
# What a successful search promises

The library a search returns should be linked without an error, and later
searches for its name should return it as long as it is loaded. Both hold
exactly when the search did not open a file whose dynamic section makes
extraction return early.
-/

set_option autoImplicit false

namespace Bionic.FindSound
open Bionic.Segments Bionic.Slots Bionic.Records Bionic.Linker Bionic.Unload Bionic.LinkFrame
open Bionic.LinkSteps Bionic.CallFrame Bionic.LinkFlags

/-- A file with one segment, which holds a dynamic section with both tables. A
string is one character, and its offset is the code of that character. -/
def sampleFile (dyn : List (DynTag × ℕ)) : LibFile where
  path := []
  elf := true
  prelink := 0
  phdrs := [SegmentBounds.wholePage, SegmentBounds.dynamicPart]
  image := {
    e_phoff := 64
    e_phnum := 2
    str := fun n => [Char.ofNat n]
    dyn := fun _ => (.strtab, 0) :: (.symtab, 0x400) :: dyn }

def sampleWorld (files : Name → Option LibFile) : World where
  overrides := []
  openLibrary _ name := files name
  hostDlopen _ _ := none
  mmapRegion L _ _ := some (0x10000 * (L.attempts + 1))
  mmapSegment _ call := 0 < call.len
  relocate _ _ _ := true
  protectRelro _ _ := true
  r_debug := 0

def firstSlot : Slot := ⟨0, by decide⟩
def secondSlot : Slot := ⟨1, by decide⟩

/-- The states after `L`, also inside later calls, as long as `si` is loaded. -/
inductive Later (si : So) (L : State) : State → Prop where
  | refl : Later si L L
  | link {M N : State} {w : World} {old : List So} (h : Later si L M) (ho : .libdl ∈ old)
      (hs : LinkStep w old M N) : Later si L N
  | construct {M N : State} {fuel : ℕ} {x : So} (h : Later si L M)
      (hc : callConstructorsRecursive fuel M x = some N) : Later si L N
  | addRef {M : State} {x : So} (h : Later si L M) :
      Later si L (addRef M x)
  | close {M N : State} {foreign : ℕ → Option ℕ} {fuel : ℕ} {h : Handle} (hl : Later si L M)
      (hc : bionicDlclose foreign fuel M h = .ok N) (hm : si ∈ N.solist) : Later si L N

theorem Later.run {si : So} {L M N : State} {w : World} {old : List So} (h : Later si L M)
    (ho : .libdl ∈ old) (hs : LinkRun w old M N) : Later si L N := by
  induction hs with
  | refl => exact h
  | tail _ hs ih => exact ih.link ho hs

theorem Later.step {si : So} {L : State} {s s' : Sys} {a : Act} (h : Later si L s.linker)
    (ht : Tidy s.linker) (hs : Step s a s') (hm : si ∈ s'.linker.solist) :
    Later si L s'.linker := by
  cases hs with
  | dlopen ho =>
    rename_i w fuel filename M r
    have hrun : ∀ {name M x host}, findLibrary w fuel s.linker name = some (M, x, host) →
        Later si L M := fun hf =>
      h.run (libdl_mem_solist _) (findLibrary_found w fuel _ _ _ _ _ ht.live hf).run
    rcases dlopen_cases ho with ⟨rfl, -⟩ | ⟨name, host, hf, -⟩ |
      ⟨name, M1, N, y, host, hf, hN, rfl, -⟩
    · exact h
    · exact hrun hf
    · exact ((hrun hf).construct hN).addRef
  | dlclose hc => exact h.close hc hm

theorem LinkStep.keeps_live {w : World} {old : List So} {L L' : State} {x : So}
    (h : LinkStep w old L L') (hx : x ∈ L.solist) (hl : (L.info x).Live) :
    Kept (L.info x) (L'.info x) := by
  have hne : ∀ {si : So}, Fresh L old si → x ≠ si := fun hf he => hf.not_live (he ▸ hl)
  cases h with
  | attempt h =>
    rw [(loadLibrary_none h).info x hx]
    exact Kept.refl _
  | load _ h =>
    have ha := loadLibrary_some h
    rw [ha.old hx]
    exact Kept.refl _
  | extract hf h =>
    rw [set_other _ _ (hne hf)]
    exact Kept.refl _
  | need hf he hm hns ht =>
    rename_i si lsi i v
    rw [attach_info L i hns]
    split_ifs with h1 h2
    · subst h1
      exact ⟨rfl, Nat.le_succ _, fun hn => absurd hl hn⟩
    · exact absurd h2 (hne hf)
    · exact Kept.refl _
  | finish hf hd hr =>
    rw [finishLink_other w L (hne hf)]
    exact Kept.refl _
  | fail hf =>
    rw [markError_other L (hne hf)]
    exact Kept.refl _
  | unmap hm hn he => exact Kept.refl _

/-- A library that is on the list under its name, linked and without an error. -/
structure Settled (L : State) (si : So) (bname : Name) : Prop where
  tidy : Tidy L
  mem : si ∈ L.solist
  live : (L.info si).Live
  name : (L.info si).name = bname

theorem Settled.of_info {L M : State} {si : So} {bname : Name} (h : Settled L si bname)
    (ht : Tidy M) (hm : si ∈ M.solist) (hf : (M.info si).flags = (L.info si).flags)
    (hn : (M.info si).name = (L.info si).name) : Settled M si bname := by
  refine ⟨ht, hm, ?_, hn.trans h.name⟩
  unfold Soinfo.Live
  rw [hf]
  exact h.live

theorem Later.settled {si : So} {L M : State} {bname : Name} (h : Settled L si bname)
    (hl : Later si L M) : Settled M si bname := by
  induction hl with
  | refl => exact h
  | link _ ho hs ih =>
    have hk := LinkStep.keeps_live hs ih.mem ih.live
    exact ih.of_info (LinkStep.tidy ho ih.tidy hs) (hs.grown.mem ih.mem) hk.flags hk.name
  | construct _ hc ih =>
    have hcon := callConstructors_constructed _ hc
    refine ih.of_info (tidy_constructed ih.tidy hcon) (hcon.solist ▸ ih.mem) ?_ ?_ <;>
      rw [hcon.info si]
  | addRef _ ih =>
    rename_i M x _
    refine ih.of_info (tidy_refcount ih.tidy x _) ih.mem ?_ ?_ <;>
      rw [addRef_info] <;> split_ifs with hx <;> simp [hx]
  | close _ hc hm ih =>
    have hf := dlclose_fades hc
    exact ih.of_info (tidy_fades ih.tidy hf) hm (hf.info si).flags (hf.info si).name

theorem Settled.lookup {L : State} {si : So} {bname : Name} (h : Settled L si bname) :
    lookupName L bname = some si := by
  cases hn : lookupName L bname with
  | none => exact absurd (List.mem_map.mpr ⟨si, h.mem, h.name⟩) (lookupName_none hn)
  | some x =>
    obtain ⟨hx, hname⟩ := lookupName_mem hn
    rw [List.inj_on_of_nodup_map h.tidy.nodup hx h.mem (hname.trans h.name.symm)]

theorem Settled.find {L : State} {si : So} {bname lib : Name} (h : Settled L si bname)
    (w : World) (fuel : ℕ) (hn : basename (resolve w.overrides lib) = bname) :
    findLibrary w (fuel + 1) L lib = some (L, some si, none) := by
  unfold findLibrary
  simp only [hn, h.lookup, if_pos h.live]

/-- The promise for a library returned in the state `L` for the name `lib`. -/
structure Sound (w : World) (L : State) (lib : Name) (si : So) : Prop where
  mem : si ∈ L.solist
  linked : (L.info si).flags.linked = true
  clean : (L.info si).flags.error = false
  complete : Complete (L.info si)
  stable : ∀ M, Later si L M → ∀ (w' : World) fuel lib',
    basename (resolve w'.overrides lib') = basename (resolve w.overrides lib) →
      findLibrary w' (fuel + 1) M lib' = some (M, some si, none)

theorem Settled.sound {w : World} {L : State} {lib : Name} {si : So}
    (h : Settled L si (basename (resolve w.overrides lib))) : Sound w L lib si where
  mem := h.mem
  linked := h.live.1
  clean := h.live.2
  complete := h.tidy.complete si h.mem h.live.1
  stable _ hM w' fuel _ hn := (hM.settled h).find w' fuel hn

/-- The search opens a file with an entry at which extraction returns early. -/
def Rejected (w : World) (L : State) (lib : Name) : Prop :=
  lookupName L (basename (resolve w.overrides lib)) = none ∧
    ∃ f, w.openLibrary L.attempts (resolve w.overrides lib) = some f ∧
      ∃ d ∈ fileDynamic f, Rejecting f.image d

theorem appended_rejects {w : World} {L L1 : State} {lib : Name} {i : Slot} {f : LibFile}
    (h : Appended w L L1 lib i) (hf : w.openLibrary L.attempts lib = some f) :
    (∃ j, RejectsAt (L1.info (.pool i)) j) ↔ ∃ d ∈ fileDynamic f, Rejecting f.image d := by
  obtain ⟨f', hf', -, hent, him, -⟩ := h.file
  cases hf.symm.trans hf'
  unfold RejectsAt
  rw [hent, him]
  constructor
  · rintro ⟨j, d, hd, hrej⟩
    exact ⟨d, List.mem_of_getElem? hd, hrej⟩
  · rintro ⟨d, hd, hrej⟩
    obtain ⟨j, hj, hd⟩ := List.mem_iff_getElem.mp hd
    exact ⟨j, d, List.getElem?_eq_some_iff.mpr ⟨hj, hd⟩, hrej⟩

theorem loaded_live_iff {w : World} {fuel : ℕ} {L L1 L2 : State} {lib : Name} {i : Slot}
    {host : Option ℕ} (hl : (L.info .libdl).Live)
    (hn : lookupName L (basename (resolve w.overrides lib)) = none)
    (hload : loadLibrary w L (resolve w.overrides lib) = (L1, some i, host))
    (hlink : linkImage (findLibrary w fuel) w L1 (.pool i) = some (L2, true)) :
    (L2.info (.pool i)).Live ↔ ¬ Rejected w L lib := by
  have happ := loadLibrary_some hload
  obtain ⟨f, hf, -⟩ := happ.file
  have hrej : Rejected w L lib ↔ ∃ t, extract w.r_debug (L1.info (.pool i)) = .error t := by
    rw [extract_error_iff, appended_rejects happ hf]
    refine ⟨fun ⟨_, f', hf', hd⟩ => ?_, fun hd => ⟨hn, f, hf, hd⟩⟩
    cases hf.symm.trans hf'
    exact hd
  have hlinked := linkImage_linked (findLibrary_found w fuel) (base_loaded hl hn hload)
    (appended_fresh happ) hlink
  rw [hrej]
  constructor
  · rintro hlive ⟨t, ht⟩
    have hu : t.flags.linked = false := by
      rw [(extract_same (Or.inr ht)).linked, happ.flags]
    have := hlive.1
    rw [hlinked.stopped rfl t ht, set_same, hu] at this
    cases this
  · intro hno
    exact hlinked.live rfl fun t ht => hno ⟨t, ht⟩

/-- In every run and at every point of a search, also a nested one: what a search
returns keeps the promise if and only if the search has not opened a file whose
extraction returns early. -/
theorem find_sound_iff {s : Sys} {u w : World} {L L' : State} {fuel : ℕ} {lib : Name} {si : So}
    {host : Option ℕ} (hr : Reachable (fun _ _ _ => True) s)
    (hrun : LinkRun u s.linker.solist s.linker L)
    (hf : findLibrary w fuel L lib = some (L', some si, host)) :
    Sound w L' lib si ↔ ¬ Rejected w L lib := by
  have ht : Tidy L := LinkRun.tidy (libdl_mem_solist _) (reachable_tidy hr) hrun
  have ht' : Tidy L' := tidy_search ht hf
  cases fuel with
  | zero => cases hf
  | succ fuel =>
    rcases findLibrary_cases hf with ⟨x, hn, rfl, hx⟩ | ⟨-, h, -⟩ |
      ⟨hn, L1, L2, i, host', ok, hload, hlink, hend⟩
    · split_ifs at hx with hlive
      cases hx
      obtain ⟨hm, hname⟩ := lookupName_mem hn
      have hset : Settled L' si _ := ⟨ht', hm, hlive, hname⟩
      refine ⟨fun _ hrej => ?_, fun _ => hset.sound⟩
      rw [hrej.1] at hn
      cases hn
    · cases h
    · rcases hend with ⟨rfl, h, rfl⟩ | ⟨-, h, -⟩ <;> cases h
      have hiff := loaded_live_iff ht.live hn hload hlink
      refine ⟨fun hs => hiff.mp ⟨hs.linked, hs.clean⟩, fun hno => ?_⟩
      have happ := loadLibrary_some hload
      have hlinked := linkImage_linked (findLibrary_found w fuel) (base_loaded ht.live hn hload)
        (appended_fresh happ) hlink
      have hset : Settled L' (.pool i) (basename (resolve w.overrides lib)) := by
        have hname := (hlinked.run.placed (appended_fresh happ).mem).name
        exact ⟨ht', hlinked.mem, hiff.mpr hno, hname.trans happ.name⟩
      exact hset.sound

def relFile : LibFile := sampleFile [(.rel, 0x500)]

def relWorld : World := sampleWorld fun name =>
  if name = ['p'] then some (sampleFile []) else if name = ['r'] then some relFile else none

theorem find_plain_sound : ∃ L, findLibrary relWorld 1 initial ['p'] =
    some (L, some (.pool firstSlot), none) ∧ Sound relWorld L ['p'] (.pool firstSlot) := by
  have h : (findLibrary relWorld 1 initial ['p']).map Prod.snd =
      some (some (.pool firstSlot), none) := by decide +kernel
  obtain ⟨⟨L, r⟩, hf, rfl⟩ := Option.map_eq_some_iff.mp h
  refine ⟨L, hf, (find_sound_iff (u := relWorld) .initial .refl hf).mpr ?_⟩
  rintro ⟨-, f, hfile, d, hd, hrej⟩
  have hplain : relWorld.openLibrary initial.attempts (resolve relWorld.overrides ['p']) =
    some (sampleFile []) := rfl
  cases hplain.symm.trans hfile
  have hdyn : fileDynamic (sampleFile []) = [⟨.strtab, .val 0⟩, ⟨.symtab, .val 0x400⟩] := by
    decide
  rw [hdyn] at hd
  obtain ⟨v, -, hv⟩ := hrej
  simp only [List.mem_cons, List.not_mem_nil, or_false] at hd
  rcases hd with rfl | rfl <;> simp at hv

/-- The library with DT_REL is returned without having been linked, and the next
search for it returns NULL. -/
theorem find_rel_unsound : ∃ L, findLibrary relWorld 1 initial ['r'] =
    some (L, some (.pool firstSlot), none) ∧ (L.info (.pool firstSlot)).flags.linked = false ∧
      (findLibrary relWorld 1 L ['r']).map Prod.snd = some (none, none) ∧
      ¬ Sound relWorld L ['r'] (.pool firstSlot) := by
  have h : (findLibrary relWorld 1 initial ['r']).map (fun r =>
      (r.2, (r.1.info (.pool firstSlot)).flags.linked,
        (findLibrary relWorld 1 r.1 ['r']).map Prod.snd)) =
      some ((some (.pool firstSlot), none), false, some (none, none)) := by decide +kernel
  obtain ⟨⟨L, r⟩, hf, he⟩ := Option.map_eq_some_iff.mp h
  simp only [Prod.mk.injEq] at he
  obtain ⟨rfl, hl, hn⟩ := he
  exact ⟨L, hf, hl, hn, fun hs => by rw [hs.linked] at hl; cases hl⟩

end Bionic.FindSound
