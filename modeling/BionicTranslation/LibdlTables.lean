import BionicTranslation.DlsymScopes

/-!
# The tables of libdl

The linker offers its own functions as a library that is on the list from the start. Its string
table, its symbol table and its hash table of one bucket are written by hand. They answer in
every run, however often the library was opened and closed.
-/

set_option autoImplicit false

namespace Bionic.LibdlTables
open Bionic.Slots Bionic.Records Bionic.Linker Bionic.Unload Bionic.Elf Bionic.RelocSymbols
open Bionic.RelaTables Bionic.SymbolLookup Bionic.HashSections Bionic.LookupAgree
open Bionic.LinkFrame Bionic.LinkSteps Bionic.CallFrame Bionic.LinkFlags Bionic.Dlfcn
open Bionic.DlsymScopes

/-- `ANDROID_LIBDL_STRTAB`, without the zero that the compiler adds. -/
def strtab (arm : Bool) : Name :=
  if arm then "dlopen\x00dlclose\x00dlsym\x00dlerror\x00dladdr\x00dl_unwind_find_exidx\x00".toList
  else "dlopen\x00dlclose\x00dlsym\x00dlerror\x00dladdr\x00dl_iterate_phdr\x00".toList

def stNames (arm : Bool) : List ℕ := [(strtab arm).length, 0, 7, 15, 21, 29, 36]

def nameAt (table : Name) (offset : ℕ) : Name := (table.drop offset).takeWhile (· ≠ '\x00')

def functions (arm : Bool) : List Name :=
  ["dlopen", "dlclose", "dlsym", "dlerror", "dladdr",
    if arm then "dl_unwind_find_exidx" else "dl_iterate_phdr"].map String.toList

theorem nameAt_stNames (arm : Bool) :
    (stNames arm).map (nameAt (strtab arm)) = [] :: functions arm := by
  cases arm <;> decide

theorem functions_names : functions false = libdlNames := rfl

variable {h : Host} {name : Name} {n i : ℕ}

theorem libdlSym_function (h : Host) (hi : libdlNames[i]? = some name) :
    libdlSym h (i + 1) = ⟨name, stbGlobal, 0, 1, h.libdl name, 0⟩ := by
  rw [libdlSym, hi]

theorem exported_iff (h : Host) (n : ℕ) : Exported (libdlSym h n) ↔
    ∃ i name, n = i + 1 ∧ libdlNames[i]? = some name := by
  cases n with
  | zero => exact iff_of_false (fun he => he.2 rfl) (by simp)
  | succ i =>
    cases hi : libdlNames[i]? with
    | none =>
      have hundef : libdlSym h (i + 1) = ⟨[], 0, 0, shnUndef, 0, 0⟩ := by rw [libdlSym, hi]
      rw [hundef]
      exact iff_of_false (fun he => he.2 rfl) (by simp [hi])
    | some name =>
      rw [libdlSym_function h hi]
      have hdefined : (1 : ℕ) ≠ shnUndef := by decide
      exact iff_of_true ⟨Or.inl rfl, hdefined⟩ ⟨i, name, rfl, hi⟩

theorem libdlNames_nodup : libdlNames.Nodup := by decide

def libdlSymbols (h : Host) : SymTable .elf64 where
  nsyms := 7
  sym := libdlSym h
  nsyms_le := by decide
  distinct n m _ _ hn hm hname := by
    obtain ⟨i, x, rfl, hi⟩ := (exported_iff h n).mp hn
    obtain ⟨j, y, rfl, hj⟩ := (exported_iff h m).mp hm
    rw [libdlSym_function h hi, libdlSym_function h hj] at hname
    have hxy : x = y := hname
    have hlt : i < libdlNames.length := (List.getElem?_eq_some_iff.mp hi).1
    have hsame : libdlNames[i]? = libdlNames[j]? := by rw [hi, hj, hxy]
    exact congrArg (· + 1) ((List.getElem?_inj hlt libdlNames_nodup).mp hsame)

theorem libdl_defines_iff : (libdlSymbols h).Defines name n ↔
    ∃ i, n = i + 1 ∧ libdlNames[i]? = some name := by
  constructor
  · rintro ⟨-, hexp, hname⟩
    obtain ⟨i, x, rfl, hi⟩ := (exported_iff h n).mp hexp
    have hx : (libdlSym h (i + 1)).name = name := hname
    rw [libdlSym_function h hi] at hx
    exact ⟨i, rfl, hx ▸ hi⟩
  · rintro ⟨i, rfl, hi⟩
    have hlt : i < libdlNames.length := (List.getElem?_eq_some_iff.mp hi).1
    refine ⟨Nat.succ_lt_succ hlt, (exported_iff h (i + 1)).mpr ⟨i, name, rfl, hi⟩, ?_⟩
    exact congrArg Sym.name (libdlSym_function h hi)

theorem libdl_holds (h : Host) : (libdlSymbols h).Holds (libdlReads h) 0x400 := by
  intro n hn
  have hplace : ((nth (0x400 : Addr64) 24 n).toNat - 0x400) / 24 = n := by
    have hn7 : n < 7 := hn
    interval_cases n <;> rfl
  exact congrArg (libdlSym h) hplace

theorem libdlTable_sysv (h : Host) : libdlTable = sysvTable (libdlReads h) 0x400 0x100 := rfl

theorem libdl_section (h : Host) : (sysvSection (libdlReads h) 0x100).Over (libdlSymbols h) := by
  -- the words do not depend on the host
  have hsame : sysvSection (libdlReads h) 0x100 = sysvSection (libdlReads noHost) 0x100 := rfl
  rw [hsame]
  have hone : (sysvSection (libdlReads noHost) 0x100).nbucket = 1 := rfl
  have hbucket : (sysvSection (libdlReads noHost) 0x100).bucket 0 = 1 := rfl
  have hlast : (sysvSection (libdlReads noHost) 0x100).chain 6 = 0 := by decide
  have hnext : ∀ n, 0 < n → n < 6 → (sysvSection (libdlReads noHost) 0x100).chain n = n + 1 := by
    intro n hpos hlt
    interval_cases n <;> decide
  have hstep (n : ℕ) (ns : List ℕ) (hpos : 0 < n) (hlt : n < 6)
      (hv : Visits (sysvSection (libdlReads noHost) 0x100).chain (n + 1) ns) :
      Visits (sysvSection (libdlReads noHost) 0x100).chain n (n :: ns) := by
    refine .step hpos.ne' ?_
    rwa [hnext n hpos hlt]
  have hend : Visits (sysvSection (libdlReads noHost) 0x100).chain 6 [6] := by
    refine .step (by decide) ?_
    rw [hlast]
    exact .done
  have hchain : Visits (sysvSection (libdlReads noHost) 0x100).chain
      ((sysvSection (libdlReads noHost) 0x100).bucket 0) [1, 2, 3, 4, 5, 6] := by
    rw [hbucket]
    apply hstep 1 _ (by decide) (by decide)
    apply hstep 2 _ (by decide) (by decide)
    apply hstep 3 _ (by decide) (by decide)
    apply hstep 4 _ (by decide) (by decide)
    exact hstep 5 _ (by decide) (by decide) hend
  refine ⟨by rw [hone]; decide, fun i hi => ?_⟩
  obtain rfl : i = 0 := by omega
  refine ⟨_, hchain, fun n hn => ?_, fun n hn hexp _ => ?_⟩
  · rw [hone, Nat.mod_one]
    refine ⟨?_, rfl⟩
    change n < 7
    simp only [List.mem_cons, List.not_mem_nil, or_false] at hn
    omega
  · obtain ⟨i, -, rfl, -⟩ := (exported_iff h n).mp hexp
    have hlt : i + 1 < 7 := hn
    simp only [List.mem_cons, List.not_mem_nil, or_false]
    omega

theorem libdl_lookup (h : Host) (L : State) (name : Name) : ∃ k, ∀ fuel, k ≤ fuel →
    lookupInLibrary h fuel L .libdl name = .ok
      (if name ∈ libdlNames then some ⟨name, stbGlobal, 0, 1, h.libdl name, 0⟩ else none) := by
  obtain ⟨r, k, hr, hk⟩ := lookup_sysv (libdl_holds h) (libdl_section h) name
  refine ⟨k, fun fuel hf => ?_⟩
  have hfound : (elfLookup (libdlReads h) libdlTable fuel name).2 = some (.returned r) := by
    rw [libdlTable_sysv h]
    exact hk fuel hf
  have hlookup : lookupInLibrary h fuel L .libdl name = .ok (r.map (libdlReads h).sym) := by
    unfold lookupInLibrary
    simp only [soReads, soTable, hfound]
  rw [hlookup]
  congr 1
  by_cases hname : name ∈ libdlNames
  · obtain ⟨i, hlt, hi⟩ := List.getElem_of_mem hname
    have hget : libdlNames[i]? = some name := by rw [List.getElem?_eq_getElem hlt, hi]
    have hdef : (libdlSymbols h).Defines name (i + 1) := libdl_defines_iff.mpr ⟨i, rfl, hget⟩
    rw [if_pos hname, (hr _).mpr ⟨_, hdef, rfl⟩, Option.map_some, ← libdlSym_function h hget]
    exact congrArg some (libdl_holds h (i + 1) hdef.1)
  · rw [if_neg hname]
    cases r with
    | none => rfl
    | some p =>
      obtain ⟨n, hdef, -⟩ := (hr p).mp rfl
      obtain ⟨i, -, hi⟩ := libdl_defines_iff.mp hdef
      exact absurd (List.mem_of_getElem? hi) hname

section dlsym
variable {L : State} {fuel : ℕ} {si : So}

theorem dlsym_missing (hsi : si ∈ L.solist) (hhook : h.dlsym rtldDefault (wrapSymName name) = 0)
    (hhost : h.dlsym rtldDefault name = 0)
    (hl : lookupInLibrary h fuel L si name = .ok none) (ret_addr : ℕ) :
    bionicDlsym h fuel L ret_addr (.so si) (some name) =
      .ok ⟨[.lock, .unlock], .error .symbolNotFound⟩ := by
  have hours : doWeHaveThisHandle L (.so si) = true := decide_eq_true hsi
  have hlast : lookupHandle h fuel L ret_addr (.so si) name = .ok none := by
    have hdefault : DlHandle.so si ≠ rtldDefault := by
      intro he
      cases he
    have hnext : DlHandle.so si ≠ .next := by
      intro he
      cases he
    rw [lookupHandle, if_neg hdefault, if_neg hnext]
    simp only [hours, if_true, hl]
    rfl
  unfold bionicDlsym
  simp only [hours, Bool.not_true, Bool.false_eq_true, false_and, if_false, hhook, hhost, ne_eq,
    not_true_eq_false, hlast]
  rfl

theorem dlsym_host (hsi : si ∈ L.solist) (ret_addr : ℕ)
    (hknown : h.dlsym rtldDefault (wrapSymName name) ≠ 0 ∨ h.dlsym rtldDefault name ≠ 0) :
    bionicDlsym h fuel L ret_addr (.so si) (some name) = .ok ⟨[.lock, .unlock], .ok
      (if h.dlsym rtldDefault (wrapSymName name) ≠ 0 then h.dlsym rtldDefault (wrapSymName name)
        else h.dlsym rtldDefault name)⟩ := by
  have hours : doWeHaveThisHandle L (.so si) = true := decide_eq_true hsi
  unfold bionicDlsym
  simp only [hours, Bool.not_true, Bool.false_eq_true, false_and, if_false]
  by_cases hhook : h.dlsym rtldDefault (wrapSymName name) = 0
  · have hhost := hknown.resolve_left (not_not.mpr hhook)
    rw [if_neg (not_not.mpr hhook), if_pos hhost, if_neg (not_not.mpr hhook)]
    rfl
  · rw [if_pos hhook, if_pos hhook]
    rfl

end dlsym

theorem libdl_base {C : Sys → Act → Sys → Prop} {s : Sys} (hr : Reachable C s) :
    (s.linker.info .libdl).base = 0 := by
  induction hr with
  | initial => rfl
  | step hr _ hs ih =>
    cases hs with
    | dlopen ho =>
      rename_i s w fuel filename L r _
      have hsearch {M : State} {lib : Name} {si : Option So} {host : Option ℕ}
          (hf : findLibrary w fuel s.linker lib = some (M, si, host)) :
          (M.info .libdl).base = 0 := by
        have hrun := (findLibrary_found w fuel _ _ _ _ _ (reachable_tidy hr).live hf).run
        rw [(hrun.placed (libdl_mem_solist _)).base]
        exact ih
      rcases dlopen_cases ho with ⟨rfl, -⟩ | ⟨name, host, hf, -⟩ |
        ⟨name, M, N, si, host, hf, hN, rfl, -⟩
      · exact ih
      · exact hsearch hf
      · have hcalled := (callConstructors_constructed _ hN).info .libdl
        rw [addRef_info]
        split_ifs with hx
        · subst hx
          rw [hcalled]
          exact hsearch hf
        · rw [hcalled]
          exact hsearch hf
    | dlclose hcl =>
      rw [((dlclose_fades hcl).info .libdl).rest]
      exact ih

/-- In every run of opens and closes, also of handles that are not open, the library finds its
functions, by the names that the string table has for them, and nothing else; and `bionic_dlsym`
through its handle asks for them only what the host does not know. -/
theorem libdl_dlsym {C : Sys → Act → Sys → Prop} {s : Sys} (hr : Reachable C s) (h : Host)
    (name : Name) (ret_addr : ℕ) : ∃ k, ∀ fuel, k ≤ fuel →
      lookupInLibrary h fuel s.linker .libdl name = .ok
        (if name ∈ ((stNames false).map (nameAt (strtab false))).tail
          then some ⟨name, stbGlobal, 0, 1, h.libdl name, 0⟩ else none) ∧
      ∃ e, bionicDlsym h fuel s.linker ret_addr (.so .libdl) (some name) = .ok e ∧ e.ret =
        if h.dlsym rtldDefault (wrapSymName name) ≠ 0 then
          .ok (h.dlsym rtldDefault (wrapSymName name))
        else if h.dlsym rtldDefault name ≠ 0 then .ok (h.dlsym rtldDefault name)
        else if name ∈ ((stNames false).map (nameAt (strtab false))).tail then .ok (h.libdl name)
        else .error .symbolNotFound := by
  obtain ⟨k, hk⟩ := libdl_lookup h s.linker name
  refine ⟨k, fun fuel hf => ?_⟩
  have hlookup := hk fuel hf
  rw [nameAt_stNames, List.tail_cons, functions_names]
  refine ⟨hlookup, ?_⟩
  have hlisted := libdl_mem_solist s.linker
  by_cases hknown : h.dlsym rtldDefault (wrapSymName name) ≠ 0 ∨ h.dlsym rtldDefault name ≠ 0
  · refine ⟨_, dlsym_host hlisted ret_addr hknown, ?_⟩
    by_cases hhook : h.dlsym rtldDefault (wrapSymName name) = 0
    · have hhost := hknown.resolve_left (not_not.mpr hhook)
      simp only [if_neg (not_not.mpr hhook), if_pos hhost]
    · simp only [ne_eq, hhook, not_false_eq_true, if_true]
  · obtain ⟨hhook, hhost⟩ := not_or.mp hknown
    rw [if_neg hhook, if_neg hhost]
    rw [not_not] at hhook hhost
    by_cases hname : name ∈ libdlNames
    · rw [if_pos hname] at hlookup
      obtain ⟨e, he, hret⟩ := dlsym_own hlisted hhook hlookup ret_addr
      have hbase : soBase s.linker .libdl = 0#64 := by rw [soBase, libdl_base hr]
      have hdefined : (1 : ℕ) ≠ 0 := one_ne_zero
      refine ⟨e, he, ?_⟩
      rw [hret, if_neg (not_not.mpr hhost), if_pos ⟨rfl, hdefined⟩, if_pos hname, hbase]
      exact congrArg Except.ok (BitVec.add_zero _)
    · rw [if_neg hname] at hlookup
      refine ⟨_, dlsym_missing hlisted hhook hhost hlookup ret_addr, ?_⟩
      rw [if_neg hname]

def libdlHost : Host :=
  ⟨fun _ name => if name = "bionic_dlopen".toList then 0x5000 else 0,
    fun name => BitVec.ofNat 64 name.length⟩

theorem libdl_dlsym_initial : ∃ k, ∀ fuel, k ≤ fuel →
    (∃ e, bionicDlsym libdlHost fuel initial 0 (.so .libdl) (some "dladdr".toList) = .ok e ∧
      e.ret = .ok 6) ∧
    ∃ e, bionicDlsym libdlHost fuel initial 0 (.so .libdl) (some "dlopen".toList) = .ok e ∧
      e.ret = .ok 0x5000 := by
  obtain ⟨k, hk⟩ := libdl_dlsym (C := fun _ _ _ => True) .initial libdlHost "dladdr".toList 0
  obtain ⟨k', hk'⟩ := libdl_dlsym (C := fun _ _ _ => True) .initial libdlHost "dlopen".toList 0
  refine ⟨max k k', fun fuel hf => ?_⟩
  obtain ⟨-, e, he, hret⟩ := hk fuel ((Nat.le_max_left _ _).trans hf)
  obtain ⟨-, e', he', hret'⟩ := hk' fuel ((Nat.le_max_right _ _).trans hf)
  exact ⟨⟨e, he, hret.trans (by decide)⟩, ⟨e', he', hret'.trans (by decide)⟩⟩

end Bionic.LibdlTables
