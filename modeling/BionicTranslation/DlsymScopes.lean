import BionicTranslation.Dlfcn
import BionicTranslation.LookupAgree

/-!
# The scopes of dlsym

A relocation looks for a symbol in the libraries before it asks the host, and takes
global and weak definitions. `bionic_dlsym` asks the host first, takes global ones only,
and has no answer for RTLD_DEFAULT, which it refuses as a handle.
-/

set_option autoImplicit false

namespace Bionic.DlsymScopes
open Bionic.Slots Bionic.Records Bionic.Linker Bionic.Elf Bionic.RelocSymbols Bionic.RelaTables
open Bionic.SymbolLookup Bionic.HashSections Bionic.LookupAgree Bionic.LookupSafety Bionic.FindSound
open Bionic.Dlfcn

def Exports (rd : Reads .elf64) (t : HashTable .elf64) (name : Name) (d : Sym .elf64) : Prop :=
  ∃ (T : SymTable .elf64) (symtab a : Addr64),
    (t = sysvTable rd symtab a ∧ (sysvSection rd a).Over T ∨
      t = gnuTable rd symtab a ∧ (gnuSection rd a).Over T) ∧
    T.Holds rd symtab ∧ ∃ n, T.Defines name n ∧ T.sym n = d

variable {h : Host} {L : State} {name : Name}

/-- The library defines the name as `d`. -/
def SoExports (h : Host) (L : State) (si : So) (name : Name) (d : Sym .elf64) : Prop :=
  Exports (soReads h L si) (soTable L si) name d

def relocEnv (h : Host) (fuel : ℕ) (env : SymEnv .elf64) (L : State) (si : So) : SymEnv .elf64 :=
  { env with
    symtab := fun n => (soReads h L si).sym (nth (soTable L si).symtab (symSize .elf64) n)
    dlsym := h.dlsym rtldDefault
    doLookup := fun name => (doLookup h fuel L si name).toOption.join }

theorem exports_sym {rd : Reads .elf64} {t : HashTable .elf64} {d : Sym .elf64}
    (hd : Exports rd t name d) : Exported d ∧ d.name = name := by
  obtain ⟨T, symtab, a, -, -, n, hn, rfl⟩ := hd
  exact hn.2

theorem exports_lookup {rd : Reads .elf64} {t : HashTable .elf64} {d : Sym .elf64}
    (hd : Exports rd t name d) : ∃ k, ∀ fuel, k ≤ fuel →
      ∃ p, (elfLookup rd t fuel name).2 = some (.returned (some p)) ∧ rd.sym p = d := by
  obtain ⟨T, symtab, a, htable, hT, n, hn, rfl⟩ := hd
  have hsym : rd.sym (nth symtab (symSize .elf64) n) = T.sym n := hT n hn.1
  rcases htable with ⟨rfl, hS⟩ | ⟨rfl, hG⟩
  · obtain ⟨r, k, hr, hk⟩ := lookup_sysv hT hS name
    have hfound := (hr _).mpr ⟨n, hn, rfl⟩
    exact ⟨k, fun fuel hf => ⟨_, hfound ▸ hk fuel hf, hsym⟩⟩
  · obtain ⟨r, k, hr, hk⟩ := lookup_gnu hT hG name
    have hfound := (hr _).mpr ⟨n, hn, rfl⟩
    exact ⟨k, fun fuel hf => ⟨_, hfound ▸ hk fuel hf, hsym⟩⟩

theorem lookupInLibrary_exports {si : So} {d : Sym .elf64} (hd : SoExports h L si name d) :
    ∃ k, ∀ fuel, k ≤ fuel → lookupInLibrary h fuel L si name = .ok (some d) := by
  obtain ⟨k, hk⟩ := exports_lookup hd
  refine ⟨k, fun fuel hf => ?_⟩
  obtain ⟨p, hp, hsym⟩ := hk fuel hf
  rw [lookupInLibrary, hp, ← hsym]
  rfl

/-- dlsym on the library and the references from inside of it give the address `a`. -/
structure Agrees (h : Host) (fuel : ℕ) (env : SymEnv .elf64) (L : State) (ret_addr : ℕ) (si : So)
    (name : Name) (a : Addr64) : Prop where
  dlsym : ∃ e, bionicDlsym h fuel L ret_addr (.so si) (some name) = .ok e ∧ e.ret = .ok a
  reloc : ∀ sym last weak, sym ≠ 0 → ((relocEnv h fuel env L si).symtab sym).name = name →
    symbolValue (relocEnv h fuel env L si) last weak sym = some a

section library
variable {fuel : ℕ} {si : So} {d : Sym .elf64}

theorem reloc_own (env : SymEnv .elf64) (hhook : h.dlsym rtldDefault (wrapSymName name) = 0)
    (hl : lookupInLibrary h fuel L si name = .ok (some d)) {sym : ℕ} (hs : sym ≠ 0)
    (hn : ((relocEnv h fuel env L si).symtab sym).name = name) (last : Sym .elf64 → Addr64)
    (weak : Option Addr64) : symbolValue (relocEnv h fuel env L si) last weak sym =
      some (d.st_value + soBase L si) := by
  have hown : (relocEnv h fuel env L si).doLookup name = some (d, soBase L si) := by
    show (doLookup h fuel L si name).toOption.join = _
    rw [doLookup, hl]
    rfl
  have hdlsym : (relocEnv h fuel env L si).dlsym = h.dlsym rtldDefault := rfl
  rw [symbolValue, if_neg hs, findSymbol]
  simp only [hn, hdlsym, hhook, hown, ne_eq, not_true_eq_false, if_false]
  rw [symAddr]
  split_ifs <;> rfl

theorem dlsym_own (hsi : si ∈ L.solist) (hhook : h.dlsym rtldDefault (wrapSymName name) = 0)
    (hl : lookupInLibrary h fuel L si name = .ok (some d)) (ret_addr : ℕ) :
    ∃ e, bionicDlsym h fuel L ret_addr (.so si) (some name) = .ok e ∧ e.ret =
      if h.dlsym rtldDefault name ≠ 0 then .ok (h.dlsym rtldDefault name)
      else if d.st_bind = stbGlobal ∧ d.st_shndx ≠ 0 then .ok (d.st_value + soBase L si)
      else .error .symbolNotGlobal := by
  have hours : doWeHaveThisHandle L (.so si) = true := decide_eq_true hsi
  have hlast : lookupHandle h fuel L ret_addr (.so si) name = .ok (some (d, si)) := by
    rw [lookupHandle, if_neg nofun, if_neg nofun]
    simp only [hours, if_true, hl]
    rfl
  unfold bionicDlsym
  simp only [hours, Bool.not_true, Bool.false_eq_true, false_and, if_false, hhook, ne_eq,
    not_true_eq_false, hlast]
  by_cases hhost : h.dlsym rtldDefault name = 0
  · by_cases hg : d.st_bind = stbGlobal ∧ ¬ d.st_shndx = 0
    · refine ⟨⟨[.lock, .unlock], .ok (d.st_value + soBase L si)⟩, ?_, ?_⟩
      · simp [hhost, bind, Except.bind, hg, wrapperCreate, pure, Except.pure]
      · simp [hhost, hg]
    · refine ⟨⟨[.lock, .unlock], .error .symbolNotGlobal⟩, ?_, ?_⟩
      · simp [hhost, bind, Except.bind, hg, pure, Except.pure]
      · simp [hhost, hg]
  · refine ⟨⟨[.lock, .unlock], .ok (h.dlsym rtldDefault name)⟩, ?_, ?_⟩
    · simp only [hhost, not_false_eq_true, if_true, List.singleton_append]
      rfl
    · simp only [hhost, not_false_eq_true, if_true]

/-- For every library on the list and every name it defines that has no hook. -/
theorem dlsym_agrees_iff (hsi : si ∈ L.solist)
    (hhook : h.dlsym rtldDefault (wrapSymName name) = 0) (hd : SoExports h L si name d)
    (env : SymEnv .elf64) (ret_addr : ℕ) : ∃ k, ∀ fuel, k ≤ fuel →
      (Agrees h fuel env L ret_addr si name (d.st_value + soBase L si) ↔
        h.dlsym rtldDefault name = 0 ∧ d.st_bind = stbGlobal ∨
          h.dlsym rtldDefault name ≠ 0 ∧ h.dlsym rtldDefault name = d.st_value + soBase L si) := by
  obtain ⟨k, hk⟩ := lookupInLibrary_exports hd
  refine ⟨k, fun fuel hf => ?_⟩
  have hl := hk fuel hf
  obtain ⟨e, he, hret⟩ := dlsym_own hsi hhook hl ret_addr
  have hshndx : d.st_shndx ≠ 0 := (exports_sym hd).1.2
  have hagree : Agrees h fuel env L ret_addr si name (d.st_value + soBase L si) ↔
      e.ret = .ok (d.st_value + soBase L si) := by
    refine ⟨fun ha => ?_, fun hr => ⟨⟨e, he, hr⟩, fun sym last weak hs hn => ?_⟩⟩
    · obtain ⟨e', he', hr⟩ := ha.dlsym
      cases he.symm.trans he'
      exact hr
    · exact reloc_own env hhook hl hs hn last weak
  rw [hagree, hret]
  by_cases hhost : h.dlsym rtldDefault name = 0
  · by_cases hg : d.st_bind = stbGlobal
    · simp [hhost, hg, hshndx]
    · simp [hhost, hg]
  · simp only [hhost, ne_eq, not_false_eq_true, if_true, false_and, false_or, true_and,
      Except.ok.injEq]

end library

/-- The library is the first one without FLAG_ERROR that defines the name. -/
def FirstDefinition (h : Host) (L : State) (name : Name) (si : So) (d : Sym .elf64) : Prop :=
  ∃ before after, L.solist = before ++ si :: after ∧ (L.info si).flags.error = false ∧
    SoExports h L si name d ∧ ∀ x ∈ before, (L.info x).flags.error = false →
      ∀ d', ¬ SoExports h L x name d'

/-- A lookup by RTLD_DEFAULT gives the first definition, and fails only when there is none. -/
structure RightDefault (h : Host) (fuel : ℕ) (L : State) (ret_addr : ℕ) (name : Name) :
    Prop where
  found : ∀ si d, FirstDefinition h L name si d →
    ∃ e, bionicDlsym h fuel L ret_addr rtldDefault (some name) = .ok e ∧
      e.ret = .ok (d.st_value + soBase L si)
  fails : ∀ e x, bionicDlsym h fuel L ret_addr rtldDefault (some name) = .ok e →
    e.ret = .error x → ∀ si d, ¬ FirstDefinition h L name si d

theorem first_exists {si : So} {d : Sym .elf64} (hsi : si ∈ L.solist)
    (hclean : (L.info si).flags.error = false) (hd : SoExports h L si name d) :
    ∃ x d', FirstDefinition h L name x d' := by
  have hall : ∀ l : List So, (∃ x ∈ l, (L.info x).flags.error = false ∧
      ∃ d', SoExports h L x name d') → ∃ before x after, l = before ++ x :: after ∧
        ((L.info x).flags.error = false ∧ ∃ d', SoExports h L x name d') ∧
        ∀ y ∈ before, (L.info y).flags.error = false → ∀ d', ¬ SoExports h L y name d' := by
    intro l
    induction l with
    | nil =>
      rintro ⟨x, hx, -⟩
      cases hx
    | cons y l ih =>
      rintro ⟨x, hx, hdef⟩
      by_cases hy : (L.info y).flags.error = false ∧ ∃ d', SoExports h L y name d'
      · exact ⟨[], y, l, rfl, hy, fun z hz => (nomatch hz)⟩
      · have hxl : x ∈ l := by
          rcases List.mem_cons.mp hx with rfl | hx
          · exact absurd hdef hy
          · exact hx
        obtain ⟨before, z, after, hl, hz, hfirst⟩ := ih ⟨x, hxl, hdef⟩
        refine ⟨y :: before, z, after, by rw [hl]; rfl, hz, fun u hu => ?_⟩
        rcases List.mem_cons.mp hu with rfl | hu
        · exact fun hc d' hd' => hy ⟨hc, d', hd'⟩
        · exact hfirst u hu
  obtain ⟨before, x, after, hl, ⟨hc, d', hd'⟩, hfirst⟩ := hall L.solist ⟨si, hsi, hclean, d, hd⟩
  exact ⟨x, d', before, after, hl, hc, hd', hfirst⟩

theorem libdl_names {d : Sym .elf64} (hd : SoExports h L .libdl name d) :
    name = [] ∨ name ∈ libdlNames := by
  obtain ⟨T, symtab, a, -, hT, n, hn, -⟩ := hd
  have hsym : libdlSym h (((nth symtab (symSize .elf64) n).toNat - 0x400) / 24) = T.sym n :=
    hT n hn.1
  rw [← hn.2.2, ← hsym]
  cases ((nth symtab (symSize .elf64) n).toNat - 0x400) / 24 with
  | zero => exact Or.inl rfl
  | succ m =>
    rw [libdlSym]
    cases hm : libdlNames[m]? with
    | none => exact Or.inl rfl
    | some name => exact Or.inr (List.mem_of_getElem? hm)

theorem dlsym_null (hhook : h.dlsym rtldDefault (wrapSymName name) = 0)
    (hhost : h.dlsym rtldDefault name = 0) (fuel ret_addr : ℕ) :
    bionicDlsym h fuel L ret_addr rtldDefault (some name) =
      .ok ⟨[.lock, .unlock], .error .invalidLibraryHandle⟩ := by
  unfold bionicDlsym
  simp only [hhook, hhost, ne_eq, not_true_eq_false, and_false, if_false]
  exact if_pos rfl

theorem defined_not_right {fuel ret_addr : ℕ} {si : So} {d : Sym .elf64}
    (hhook : h.dlsym rtldDefault (wrapSymName name) = 0)
    (hhost : h.dlsym rtldDefault name = 0) (hsi : si ∈ L.solist)
    (hclean : (L.info si).flags.error = false) (hd : SoExports h L si name d) :
    ¬ RightDefault h fuel L ret_addr name := by
  intro hr
  obtain ⟨x, d', hfirst⟩ := first_exists hsi hclean hd
  exact hr.fails _ _ (dlsym_null hhook hhost fuel ret_addr) rfl x d' hfirst

/-- In every state, for every name that the host does not know. -/
theorem dlsym_default_iff (hhook : h.dlsym rtldDefault (wrapSymName name) = 0)
    (hhost : h.dlsym rtldDefault name = 0) (fuel : ℕ) (L : State) (ret_addr : ℕ) :
    RightDefault h fuel L ret_addr name ↔
      ∀ si ∈ L.solist, (L.info si).flags.error = false → ∀ d, ¬ SoExports h L si name d := by
  constructor
  · intro hr si hsi hclean d hd
    exact defined_not_right hhook hhost hsi hclean hd hr
  · intro hno
    have hnone : ∀ si d, ¬ FirstDefinition h L name si d := by
      rintro si d ⟨before, after, hl, hclean, hd, -⟩
      exact hno si (hl ▸ List.mem_append_right _ List.mem_cons_self) hclean d hd
    exact ⟨fun si d hfirst => absurd hfirst (hnone si d), fun _ _ _ _ => hnone⟩

def symbolFile : LibFile :=
  { sampleFile [(.hash, 0x100)] with
    image := { (sampleFile [(.hash, 0x100)]).image with
      u32 := fun o => ([(0x100, 1), (0x104, 3), (0x108, 1), (0x110, 2),
        (0x418, 'a'.toNat), (0x41c, 0x70012), (0x430, 'b'.toNat), (0x434, 0x70022)].lookup o).getD 0
      word := fun o => ([(0x420, 0x1000), (0x428, 8), (0x438, 0x1010), (0x440, 8)].lookup o).getD 0
      str := fun n => if n = 0 then [] else [Char.ofNat n] } }

def symbolWorld : World := sampleWorld fun name => if name = ['l'] then some symbolFile else none

@[irreducible] def symbolState : State :=
  ((bionicDlopen symbolWorld 3 initial (some ['l'])).map Prod.fst).getD initial

abbrev symbolInfo : Soinfo := symbolState.info (.pool firstSlot)

theorem symbolInfo_table :
    hashTable symbolInfo = sysvTable (reads symbolInfo) 0x20400 0x20100 := by
  have h : (hashTable symbolInfo).symtab = 0x20400 ∧ (hashTable symbolInfo).gnuHash = false ∧
      (hashTable symbolInfo).nbucket = 1 ∧ (hashTable symbolInfo).bucket = 0x20108 ∧
      (hashTable symbolInfo).chain = 0x2010c ∧ (hashTable symbolInfo).gnu_maskwords = 0 ∧
      (hashTable symbolInfo).gnu_shift2 = 0 ∧ (hashTable symbolInfo).gnu_bloom_filter = 0 ∧
      (reads symbolInfo).u32 0x20100 = 1 := by decide +kernel
  obtain ⟨h1, h2, h3, h4, h5, h6, h7, h8, h9⟩ := h
  cases ht : hashTable symbolInfo
  rw [ht] at h1 h2 h3 h4 h5 h6 h7 h8
  rw [sysvTable, h9]
  cases h1; cases h2; cases h3; cases h4; cases h5; cases h6; cases h7; cases h8
  rfl

theorem symbolInfo_section : (sysvSection (reads symbolInfo) 0x20100).Over sampleSymbols := by
  have h : (sysvSection (reads symbolInfo) 0x20100).nbucket = 1 ∧
      (sysvSection (reads symbolInfo) 0x20100).bucket 0 = 1 ∧
      (sysvSection (reads symbolInfo) 0x20100).chain 1 = 2 ∧
      (sysvSection (reads symbolInfo) 0x20100).chain 2 = 0 := by decide +kernel
  obtain ⟨hn, hb, h1, h2⟩ := h
  refine ⟨by rw [hn]; decide, fun i hi => ?_⟩
  obtain rfl : i = 0 := by omega
  refine ⟨[1, 2], ?_, ?_, fun n hlt => ?_⟩
  · rw [hb]
    refine .step (by decide) ?_
    rw [h1]
    refine .step (by decide) ?_
    rw [h2]
    exact .done
  · rw [hn]
    decide
  · rw [hn]
    have hlt : n < 3 := hlt
    interval_cases n <;> decide

theorem symbolInfo_holds : sampleSymbols.Holds (reads symbolInfo) 0x20400 := by
  have hall : ∀ n < 3, (reads symbolInfo).sym (nth 0x20400 24 n) = sampleSymbols.sym n := by
    decide +kernel
  exact hall

theorem symbolInfo_exports (h : Host) {n : ℕ} (hn : n = 1 ∨ n = 2) :
    SoExports h symbolState (.pool firstSlot) (sampleSymbols.sym n).name (sampleSymbols.sym n) := by
  refine ⟨sampleSymbols, 0x20400, 0x20100, .inl ⟨symbolInfo_table, symbolInfo_section⟩,
    symbolInfo_holds, n, ?_, rfl⟩
  rcases hn with rfl | rfl <;> decide

theorem symbolState_listed : .pool firstSlot ∈ symbolState.solist := by decide +kernel

theorem symbolState_address :
    (sampleSymbols.sym 1).st_value + soBase symbolState (.pool firstSlot) = 0x21000 := by
  decide +kernel

def namesakeHost : Host := ⟨fun _ name => if name = ['a'] then 0x5000 else 0, fun _ => 0⟩

/-- A global definition that the host has no symbol for is found. -/
theorem global_agrees : ∃ k, ∀ fuel, k ≤ fuel → Agrees noHost fuel (noSymbols .elf64) symbolState 0
    (.pool firstSlot) ['a'] 0x21000 := by
  have hd := symbolInfo_exports noHost (n := 1) (Or.inl rfl)
  obtain ⟨k, hk⟩ := dlsym_agrees_iff symbolState_listed rfl hd (noSymbols .elf64) 0
  refine ⟨k, fun fuel hf => ?_⟩
  have ha := (hk fuel hf).mpr (Or.inl ⟨rfl, rfl⟩)
  rw [symbolState_address] at ha
  exact ha

theorem Agrees.result {fuel : ℕ} {env : SymEnv .elf64} {ret_addr : ℕ} {si : So} {a : Addr64}
    (ha : Agrees h fuel env L ret_addr si name a) :
    (bionicDlsym h fuel L ret_addr (.so si) (some name)).toOption.map (fun e => e.ret.toOption) =
      some (some a) := by
  obtain ⟨e, he, hr⟩ := ha.dlsym
  rw [he]
  show some e.ret.toOption = _
  rw [hr]
  rfl

/-- A weak definition is refused, and for a global one the host's namesake is returned. -/
theorem weak_namesake_disagree :
    SoExports noHost symbolState (.pool firstSlot) ['b'] (sampleSymbols.sym 2) ∧
    (bionicDlsym noHost 3 symbolState 0 (.so (.pool firstSlot)) (some ['b'])).toOption.map
      (fun e => e.ret.toOption) = some none ∧
    ¬ Agrees noHost 3 (noSymbols .elf64) symbolState 0 (.pool firstSlot) ['b']
      ((sampleSymbols.sym 2).st_value + soBase symbolState (.pool firstSlot)) ∧
    SoExports namesakeHost symbolState (.pool firstSlot) ['a'] (sampleSymbols.sym 1) ∧
    (bionicDlsym namesakeHost 3 symbolState 0 (.so (.pool firstSlot)) (some ['a'])).toOption.map
      (fun e => e.ret.toOption) = some (some 0x5000) ∧
    ¬ Agrees namesakeHost 3 (noSymbols .elf64) symbolState 0 (.pool firstSlot) ['a']
      ((sampleSymbols.sym 1).st_value + soBase symbolState (.pool firstSlot)) := by
  have hweak : (bionicDlsym noHost 3 symbolState 0 (.so (.pool firstSlot))
      (some ['b'])).toOption.map (fun e => e.ret.toOption) = some none := by decide +kernel
  have hname : (bionicDlsym namesakeHost 3 symbolState 0 (.so (.pool firstSlot))
      (some ['a'])).toOption.map (fun e => e.ret.toOption) = some (some 0x5000) := by decide +kernel
  refine ⟨symbolInfo_exports noHost (Or.inr rfl), hweak, fun ha => ?_,
    symbolInfo_exports namesakeHost (Or.inl rfl), hname, fun ha => ?_⟩
  · cases hweak.symm.trans ha.result
  · have hret := hname.symm.trans ha.result
    rw [symbolState_address] at hret
    exact absurd (Option.some.inj (Option.some.inj hret)) (by decide)

/-- A name that a library defines cannot be looked up by RTLD_DEFAULT. -/
theorem default_not_right :
    SoExports noHost symbolState (.pool firstSlot) ['a'] (sampleSymbols.sym 1) ∧
    ¬ RightDefault noHost 3 symbolState 0 ['a'] := by
  have hd := symbolInfo_exports noHost (n := 1) (Or.inl rfl)
  have hclean : (symbolState.info (.pool firstSlot)).flags.error = false := by decide +kernel
  exact ⟨hd, defined_not_right rfl rfl symbolState_listed hclean hd⟩

theorem symbolState_solist : symbolState.solist = [.libdl, .pool firstSlot] := by decide +kernel

theorem undefined_name (h : Host) (d : Sym .elf64) :
    ¬ SoExports h symbolState (.pool firstSlot) ['z'] d := by
  intro hd
  obtain ⟨k, hk⟩ := exports_lookup hd
  obtain ⟨r, k', hr, hk'⟩ := lookup_sysv symbolInfo_holds symbolInfo_section ['z']
  obtain ⟨p, hp, -⟩ := hk (max k k') (le_max_left k k')
  have htable : soTable symbolState (.pool firstSlot) =
      sysvTable (reads symbolInfo) 0x20400 0x20100 := symbolInfo_table
  rw [htable] at hp
  have hrp : r = some p := by
    have hboth := (hk' _ (le_max_right k k')).symm.trans hp
    injection Option.some.inj hboth
  obtain ⟨n, hn, -⟩ := (hr p).mp hrp
  have hnone : ∀ n < 3, ¬ sampleSymbols.Defines ['z'] n := by decide
  exact hnone n hn.1 hn

/-- A name that neither libdl nor the open library defines. -/
theorem initial_default : RightDefault noHost 3 symbolState 0 ['z'] := by
  refine (dlsym_default_iff rfl rfl 3 symbolState 0).mpr fun si hsi _ d hd => ?_
  rw [symbolState_solist] at hsi
  rcases List.mem_cons.mp hsi with rfl | hsi
  · rcases libdl_names hd with h | h
    · cases h
    · revert h
      decide
  · obtain rfl := List.mem_singleton.mp hsi
    exact undefined_name noHost d hd

end Bionic.DlsymScopes
