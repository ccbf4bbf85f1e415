import BionicTranslation.DlsymScopes
import BionicTranslation.ContainingSymbol

/-!
# Names and addresses

`bionic_dladdr`, which goes from an address to a library and a symbol, against
`bionic_dlsym`, which goes the other way. The library comes from the ranges of the
list, the symbol from the same hash table that finds it by name.
-/

set_option autoImplicit false

namespace Bionic.AddressQueries
open Bionic.Slots Bionic.Records Bionic.Linker Bionic.Unload Bionic.Elf Bionic.RelocSymbols
open Bionic.RelaTables Bionic.Loops Bionic.SymbolLookup Bionic.HashSections Bionic.LookupAgree
open Bionic.LookupSafety Bionic.LinkFrame Bionic.LinkSteps Bionic.CallFrame Bionic.LinkFlags
open Bionic.Dlfcn Bionic.DlsymScopes Bionic.ContainingSymbol
open Bionic.FindSound (sampleFile sampleWorld firstSlot)
open Bionic.Regions
open Bionic.Ranges (findContainingLibrary Inside Housed CleanRun clean_housed clean_proper)

section source
variable (h : Host) (fuel : ℕ) (L : State)

def findContainingSymbol (addr : Addr64) (si : So) : Option (Option Addr64) :=
  if (soTable L si).gnuHash then
    findContainingSymbolGnu (soReads h L si) (soTable L si) (soBase L si) fuel addr
  else
    some (findContainingSymbolSysv (soReads h L si) (soTable L si) (soBase L si)
      (L.info si).nchain addr)

/-- `Dl_info`, of which the last two fields may stay zero. -/
structure DlInfo where
  dli_fname : Name
  dli_fbase : Addr64
  dli_sname : Option Name
  dli_saddr : Addr64
  deriving DecidableEq, Repr

def fillSymbol (si : So) (info : DlInfo) : Option Addr64 → DlInfo
  | none => info
  | some sym =>
    { info with
      dli_sname := some ((soReads h L si).sym sym).name
      dli_saddr := soBase L si + ((soReads h L si).sym sym).st_value }

/-- `bionic_dladdr` with what it does to the lock. `none` for `info` is the return value
0, for which it is not written to. -/
def bionicDladdr (addr : Addr64) : Option (List LockOp × Option DlInfo) :=
  match findContainingLibrary L addr.toNat with
  | none => some ([.lock, .unlock], none)
  | some si => do
    let sym ← findContainingSymbol h fuel L addr si
    let info : DlInfo := ⟨(L.info si).name, soBase L si, none, 0⟩
    pure ([.lock, .unlock], some (fillSymbol h L si info sym))

end source

/-- A hash table that serves lookups by name, and the first entry that queries by address
look at. They go on to the last one. -/
inductive Queried (rd : Reads .elf64) (t : HashTable .elf64) (nchain : ℕ) (T : SymTable .elf64)
    (symtab : Addr64) : ℕ → Prop where
  | sysv {a : Addr64} (ht : t = sysvTable rd symtab a) (hS : (sysvSection rd a).Over T)
      (hn : nchain = T.nsyms) : Queried rd t nchain T symtab 0
  | gnu {a : Addr64} (ht : t = gnuTable rd symtab a) (hG : (gnuSection rd a).Over T) :
      Queried rd t nchain T symtab (gnuSection rd a).symndx

section cover
variable {c : ElfClass} {G : GnuSection c} {T : SymTable c}

theorem block_end {n k i : ℕ} (hk : k < n) (hi : G.slot T k = i) : ∃ m, k < m ∧ m ≤ n ∧
    (∀ j, k ≤ j → j < m → G.slot T j = i) ∧ (m = n ∨ G.slot T m ≠ i) := by
  have hex : ∃ m, k < m ∧ (m = n ∨ G.slot T m ≠ i) := ⟨n, hk, Or.inl rfl⟩
  classical
  refine ⟨Nat.find hex, (Nat.find_spec hex).1, Nat.find_min' hex ⟨hk, Or.inl rfl⟩,
    fun j hkj hjm => ?_, (Nat.find_spec hex).2⟩
  have hmin := Nat.find_min hex hjm
  by_contra hne
  rcases Nat.lt_or_eq_of_le hkj with hlt | rfl
  · exact hmin ⟨hlt, Or.inr hne⟩
  · exact hne hi

theorem block_stops (hG : G.Over T) {k m i : ℕ} (hlow : G.symndx ≤ k) (hkm : k < m)
    (hm : m ≤ T.nsyms) (hin : ∀ j, k ≤ j → j < m → G.slot T j = i)
    (hend : m = T.nsyms ∨ G.slot T m ≠ i) :
    (∀ j, k ≤ j → j + 1 < m → stopBit G j = false) ∧ stopBit G (m - 1) = true := by
  constructor
  · intro j hkj hjm
    rw [stopBit, Bool.eq_false_iff, ne_eq, hG.stop j (by omega) (by omega)]
    rintro (hlast | hslot)
    · omega
    · exact hslot ((hin (j + 1) (by omega) hjm).trans (hin j hkj (by omega)).symm)
  · rw [stopBit, hG.stop (m - 1) (by omega) (by omega), Nat.sub_add_cancel (by omega)]
    refine hend.imp_right fun hne => ?_
    rwa [hin (m - 1) (by omega) (by omega)]

theorem slot_above (hG : G.Over T) {m i : ℕ} (hlow : G.symndx ≤ m)
    (h : m < T.nsyms → i < G.slot T m) : ∀ n, m ≤ n → n < T.nsyms → i + 1 ≤ G.slot T n := by
  intro n hmn hn
  have hfirst := h (hmn.trans_lt hn)
  exact hfirst.trans_le (hG.sorted m n hlow hmn hn)

/-- The buckets from `i` on cover the symbols from `k` on. The induction is on the number
of these buckets. -/
theorem cover_from (hG : G.Over T) (left : ℕ) : ∀ i k, i + left = G.nbuckets →
    G.symndx ≤ k → k ≤ T.nsyms → (∀ n, G.symndx ≤ n → n < k → G.slot T n < i) →
    (∀ n, k ≤ n → n < T.nsyms → i ≤ G.slot T n) →
    Cover (stopBit G) k ((List.range' i left).map G.bucket) T.nsyms := by
  induction left with
  | zero =>
    intro i k hi hlow hle _ hge
    have hend : k = T.nsyms := by
      by_contra hne
      have hslot := hge k le_rfl (by omega)
      have hlt : G.slot T k < G.nbuckets := Nat.mod_lt _ hG.nbuckets_pos
      omega
    rw [hend]
    exact .done
  | succ left ih =>
    intro i k hi hlow hle hbelow hge
    rw [List.range'_succ, List.map_cons]
    by_cases hk : k < T.nsyms ∧ G.slot T k = i
    · obtain ⟨hk, hki⟩ := hk
      obtain ⟨m, hkm, hm, hin, hend⟩ := block_end hk hki
      have hbucket : G.bucket i = k := by
        rw [← hki]
        refine hG.first k hlow hk fun j hj hjk heq => ?_
        have := hbelow j hj hjk
        omega
      obtain ⟨hinside, hlast⟩ := block_stops hG hlow hkm hm hin hend
      have hnext : ∀ n, m ≤ n → n < T.nsyms → i + 1 ≤ G.slot T n := by
        refine slot_above hG (hlow.trans hkm.le) fun hlt => ?_
        exact lt_of_le_of_ne (hge m hkm.le hlt) (hend.resolve_left hlt.ne).symm
      have hpassed : ∀ n, G.symndx ≤ n → n < m → G.slot T n < i + 1 := by
        intro n hn hnm
        by_cases hnk : n < k
        · have := hbelow n hn hnk
          omega
        · rw [hin n (by omega) hnm]
          omega
      have hrest := ih (i + 1) m (by omega) (by omega) hm hpassed hnext
      have hpos : 0 < k := hG.symndx_pos.trans_le hlow
      rw [hbucket]
      exact .chain hpos hkm (hm.trans T.nsyms_le) hinside hlast hrest
    · have hnone : ∀ n, k ≤ n → n < T.nsyms → i + 1 ≤ G.slot T n := by
        refine slot_above hG hlow fun hlt => ?_
        exact lt_of_le_of_ne (hge k le_rfl hlt) fun he => hk ⟨hlt, he.symm⟩
      have hempty : G.bucket i = 0 := by
        refine hG.empty i (by omega) fun n hn hlt heq => ?_
        by_cases hnk : n < k
        · have := hbelow n hn hnk
          omega
        · have := hnone n (by omega) hlt
          omega
      have hpassed : ∀ n, G.symndx ≤ n → n < k → G.slot T n < i + 1 := by
        intro n hn hnk
        have := hbelow n hn hnk
        omega
      rw [hempty]
      exact .empty (ih (i + 1) k (by omega) hlow hle hpassed hnone)

/-- A table that finds every name can be gone through by address. -/
theorem gnu_cover (hG : G.Over T) (hle : G.symndx ≤ T.nsyms) :
    Cover (stopBit G) G.symndx (buckets G) T.nsyms := by
  rw [buckets, List.range_eq_range']
  exact cover_from hG G.nbuckets 0 G.symndx (by omega) le_rfl hle (fun n _ _ => by omega)
    fun n _ _ => by omega

end cover

section queries
variable {h : Host} {L : State} {si : So} {T : SymTable .elf64} {symtab : Addr64} {start n : ℕ}

theorem Queried.table {rd : Reads .elf64} {t : HashTable .elf64} {nchain : ℕ}
    (hq : Queried rd t nchain T symtab start) : t.symtab = symtab := by
  cases hq with
  | sysv ht _ _ => exact congrArg HashTable.symtab ht
  | gnu ht _ => exact congrArg HashTable.symtab ht

theorem Queried.start_le {rd : Reads .elf64} {t : HashTable .elf64} {nchain : ℕ} {name : Name}
    (hq : Queried rd t nchain T symtab start) (hn : T.Defines name n) : start ≤ n := by
  cases hq with
  | sysv _ _ _ => exact Nat.zero_le n
  | gnu _ hG => exact hG.exported n hn.1 hn.2.1

theorem Queried.exports {name : Name}
    (hq : Queried (soReads h L si) (soTable L si) (L.info si).nchain T symtab start)
    (hT : T.Holds (soReads h L si) symtab) (hn : T.Defines name n) :
    SoExports h L si name (T.sym n) := by
  cases hq with
  | sysv ht hS _ => exact ⟨T, symtab, _, Or.inl ⟨ht, hS⟩, hT, n, hn, rfl⟩
  | gnu ht hG => exact ⟨T, symtab, _, Or.inr ⟨ht, hG⟩, hT, n, hn, rfl⟩

theorem queried_find
    (hq : Queried (soReads h L si) (soTable L si) (L.info si).nchain T symtab start)
    (hle : start ≤ T.nsyms) (addr : Addr64) : ∃ k, ∀ fuel, k ≤ fuel →
      findContainingSymbol h fuel L addr si = some (sysvLoop (soReads h L si) (soTable L si)
        (addr - soBase L si) (T.nsyms - start) start) := by
  cases hq with
  | sysv ht hS hn =>
    refine ⟨0, fun fuel _ => ?_⟩
    rw [findContainingSymbol, ht, hn]
    rfl
  | @gnu a ht hG =>
    have hbuckets : buckets (gnuSection (soReads h L si) a) =
        (List.range' 0 (gnuSection (soReads h L si) a).nbuckets).map
          (gnuSection (soReads h L si) a).bucket := by rw [buckets, List.range_eq_range']
    obtain ⟨k, hk⟩ := bucket_walk symtab (addr - soBase L si) (gnu_cover hG hle) hbuckets le_rfl
    refine ⟨k, fun fuel hf => ?_⟩
    have hnbucket : (gnuTable (soReads h L si) symtab a).nbucket.toNat =
        (gnuSection (soReads h L si) a).nbuckets := gnuTable_nbucket
    have hfind := hk fuel hf
    rw [← hnbucket] at hfind
    rw [findContainingSymbol, ht]
    exact hfind

theorem first_match {rd : Reads .elf64} {t : HashTable .elf64} {soaddr : Addr64}
    (hT : T.Holds rd t.symtab) (hstart : start ≤ n) (hn : n < T.nsyms)
    (hc : Contains (T.sym n) soaddr) : ∃ m, start ≤ m ∧ m ≤ n ∧ Contains (T.sym m) soaddr ∧
      (∀ j, start ≤ j → j < m → ¬ Contains (T.sym j) soaddr) ∧
      rd.sym (symPtr t m) = T.sym m ∧
      sysvLoop rd t soaddr (T.nsyms - start) start = some (symPtr t m) := by
  have hsym : ∀ j < T.nsyms, rd.sym (symPtr t j) = T.sym j := hT
  have hmatch : ∀ j < T.nsyms,
      (symbolMatchesSoaddr (rd.sym (symPtr t j)) soaddr = true ↔ Contains (T.sym j) soaddr) := by
    intro j hj
    rw [hsym j hj]
    exact symbolMatchesSoaddr_iff
  rw [sysvLoop_eq]
  cases hfind : (List.range' start (T.nsyms - start)).find?
      fun j => symbolMatchesSoaddr (rd.sym (symPtr t j)) soaddr with
  | none =>
    rw [List.find?_range'_eq_none] at hfind
    have hnot := hfind n hstart (by omega)
    rw [(hmatch n hn).mpr hc] at hnot
    cases hnot
  | some m =>
    rw [List.find?_range'_eq_some, List.mem_range'_1] at hfind
    obtain ⟨hm, hmem, hbefore⟩ := hfind
    have hmn : m ≤ n := by
      by_contra hlt
      have hnot := hbefore n hstart (by omega)
      rw [(hmatch n hn).mpr hc] at hnot
      cases hnot
    refine ⟨m, hmem.1, hmn, (hmatch m (by omega)).mp hm, fun j hj hjm hcj => ?_,
      hsym m (by omega), rfl⟩
    have hnot := hbefore j hj hjm
    rw [(hmatch j (by omega)).mpr hcj] at hnot
    cases hnot

end queries

def InSpace (L : State) : Prop := ∀ i ∈ L.pool.loaded,
  (L.info (.pool i)).base + (L.info (.pool i)).size ≤ 2 ^ 64 ∧ (L.info (.pool i)).size < 2 ^ 64

theorem extents_lt {f : LibFile} {size : ℕ} (h : fileExtents f = some size) : size < 2 ^ 64 := by
  unfold fileExtents Segments.getLibExtents at h
  simp only at h
  split_ifs at h
  cases h
  exact Nat.mod_lt _ (by decide)

section space
variable {L L' : State}

theorem InSpace.keep (h : InSpace L) (hl : ∀ i ∈ L'.pool.loaded, i ∈ L.pool.loaded)
    (hp : ∀ i ∈ L'.pool.loaded, (L'.info (.pool i)).base = (L.info (.pool i)).base ∧
      (L'.info (.pool i)).size = (L.info (.pool i)).size) : InSpace L' := by
  intro i hi
  rw [(hp i hi).1, (hp i hi).2]
  exact h i (hl i hi)

theorem inSpace_placed (h : InSpace L) (hl : ∀ i ∈ L'.pool.loaded, i ∈ L.pool.loaded)
    (hp : ∀ x ∈ L.solist, Placed (L.info x) (L'.info x)) : InSpace L' := by
  refine h.keep hl fun i hi => ?_
  have hpl := hp (.pool i) (pool_mem_solist.mpr (hl i hi))
  exact ⟨hpl.base, hpl.size⟩

theorem inSpace_load {w : World} {lib : Name} {i : Slot} (hk : Kernel w) (h : InSpace L)
    (ha : Appended w L L' lib i) : InSpace L' := by
  intro j hj
  rw [ha.loaded, List.mem_append, List.mem_singleton] at hj
  rcases hj with hj | rfl
  · have hne : So.pool j ≠ .pool i := by
      rintro he
      cases he
      exact ha.fresh hj
    rw [ha.info _ hne]
    exact h j hj
  · obtain ⟨M, hint, -, hreg⟩ := ha.region
    obtain ⟨f, -, hext, -⟩ := ha.file
    exact ⟨(hk.inside M hint _ _ hreg).2, extents_lt hext⟩

theorem inSpace_step {w : World} {old : List So} (hk : Kernel w) (h : InSpace L)
    (hs : LinkStep w old L L') : InSpace L' := by
  have hpl := fun x hx => hs.placed (x := x) hx
  cases hs with
  | attempt ha =>
    exact inSpace_placed h (fun i hi => (loadLibrary_none ha).loaded ▸ hi) hpl
  | load _ ha => exact inSpace_load hk h (loadLibrary_some ha)
  | extract hf hx => exact inSpace_placed h (fun _ hi => hi) hpl
  | need hf he hm hne ht => exact inSpace_placed h (fun _ hi => hi) hpl
  | finish hf hd hr =>
    exact inSpace_placed h (fun i hi => finishLink_pool w L _ ▸ hi) hpl
  | fail hf => exact inSpace_placed h (fun _ hi => hi) hpl
  | unmap hm hn he => exact inSpace_placed h (fun _ hi => hi) hpl

theorem inSpace_run {w : World} {old : List So} (hk : Kernel w) (h : InSpace L)
    (hs : LinkRun w old L L') : InSpace L' := by
  induction hs with
  | refl => exact h
  | tail _ hs ih => exact inSpace_step hk ih hs

theorem inSpace_dlopen {w : World} {fuel : ℕ} {name : Option Name} {r : Option Handle}
    (hk : Kernel w) (h : InSpace L) (hl : (L.info .libdl).Live)
    (ho : bionicDlopen w fuel L name = some (L', r)) : InSpace L' := by
  rcases dlopen_cases ho with ⟨rfl, -⟩ | ⟨name, host, hf, -⟩ |
    ⟨name, M, N, si, host, hf, hN, rfl, -⟩
  · exact h
  · exact inSpace_run hk h (findLibrary_found w fuel _ _ _ _ _ hl hf).run
  · have hM := inSpace_run hk h (findLibrary_found w fuel _ _ _ _ _ hl hf).run
    have hc := callConstructors_constructed fuel hN
    refine hM.keep (fun i hi => hc.pool ▸ hi) fun i _ => ?_
    rw [addRef_info]
    split_ifs with hx
    · subst hx
      rw [hc.info (.pool i)]
      exact ⟨rfl, rfl⟩
    · rw [hc.info (.pool i)]
      exact ⟨rfl, rfl⟩

theorem inSpace_dlclose {foreign : ℕ → Option ℕ} {fuel : ℕ} {hd : Handle} (h : InSpace L)
    (hc : bionicDlclose foreign fuel L hd = .ok L') : InSpace L' := by
  have hf := dlclose_fades hc
  refine h.keep (fun _ hi => hf.loaded.subset hi) fun i _ => ?_
  rw [(hf.info (.pool i)).rest]
  exact ⟨rfl, rfl⟩

theorem clean_inSpace {s : Sys} (hr : CleanRun s) : InSpace s.linker := by
  induction hr with
  | initial => exact fun i hi => (nomatch hi)
  | step hr hc hs ih =>
    cases hs with
    | dlopen ho => exact inSpace_dlopen hc.2.1 ih (reachable_tidy (clean_proper hr)).live ho
    | dlclose hcl => exact inSpace_dlclose ih hcl

end space

/-- The library of the symbol `n`, and the lowest entry for the address `k` bytes behind
its start. -/
structure Resolves (L : State) (si : So) (T : SymTable .elf64) (start n k : ℕ) (info : DlInfo) :
    Prop where
  fname : info.dli_fname = (L.info si).name
  fbase : info.dli_fbase = soBase L si
  symbol : ∃ m, start ≤ m ∧ m ≤ n ∧
    Contains (T.sym m) ((T.sym n).st_value + BitVec.ofNat 64 k) ∧
    (∀ j, start ≤ j → j < m →
      ¬ Contains (T.sym j) ((T.sym n).st_value + BitVec.ofNat 64 k)) ∧
    info.dli_sname = some (T.sym m).name ∧ info.dli_saddr = (T.sym m).st_value + soBase L si

section resolve
variable {h : Host} {L : State} {si : So} {T : SymTable .elf64} {symtab : Addr64} {start n : ℕ}

theorem add_toNat (x : BitVec 64) {m : ℕ} (hm : x.toNat + m < 2 ^ 64) :
    (x + BitVec.ofNat 64 m).toNat = x.toNat + m := by
  rw [BitVec.toNat_add, BitVec.toNat_ofNat, Nat.mod_eq_of_lt (by omega : m < 2 ^ 64),
    Nat.mod_eq_of_lt hm]

theorem contains_offset {d : Sym .elf64} {k : ℕ} (hd : d.st_shndx ≠ shnUndef)
    (hfit : d.st_value.toNat + d.st_size.toNat < 2 ^ 64) (hk : k < d.st_size.toNat) :
    Contains d (d.st_value + BitVec.ofNat 64 k) := by
  have hnat : (d.st_value + BitVec.ofNat 64 k).toNat = d.st_value.toNat + k :=
    add_toNat d.st_value (by omega)
  rw [contains_iff hfit, hnat]
  exact ⟨hd, Nat.le_add_right _ _, Nat.add_lt_add_left hk _⟩

theorem dladdr_resolves
    (hq : Queried (soReads h L si) (soTable L si) (L.info si).nchain T symtab start)
    (hT : T.Holds (soReads h L si) symtab) (hn : n < T.nsyms) (hstart : start ≤ n) {addr : Addr64}
    {k : ℕ} (hlib : findContainingLibrary L addr.toNat = some si)
    (haddr : addr - soBase L si = (T.sym n).st_value + BitVec.ofNat 64 k)
    (hc : Contains (T.sym n) ((T.sym n).st_value + BitVec.ofNat 64 k)) :
    ∃ K, ∀ fuel, K ≤ fuel → ∃ info, bionicDladdr h fuel L addr =
      some ([.lock, .unlock], some info) ∧ Resolves L si T start n k info := by
  obtain ⟨K, hK⟩ := queried_find hq (hstart.trans hn.le) addr
  obtain ⟨m, hm, hmn, hcm, hlow, hsym, hloop⟩ :=
    first_match (hq.table.symm ▸ hT) hstart hn hc
  refine ⟨K, fun fuel hf => ?_⟩
  have hfind := hK fuel hf
  rw [haddr, hloop] at hfind
  refine ⟨⟨(L.info si).name, soBase L si, some (T.sym m).name, soBase L si + (T.sym m).st_value⟩,
    ?_, rfl, rfl, m, hm, hmn, hcm, hlow, rfl, BitVec.add_comm _ _⟩
  rw [bionicDladdr, hlib]
  simp only [hfind, Option.bind_eq_bind, Option.bind_some, fillSymbol, hsym]
  rfl

end resolve

/-- In every run in which the ranges are kept apart and no library fails to link, every address in
a global symbol that `bionic_dlsym` finds in a library is given back its library and the lowest
entry that contains it, which is the symbol itself if their ranges do not overlap. -/
theorem dlsym_dladdr {s : Sys} (hr : CleanRun s) {i : Slot} (hi : i ∈ s.linker.pool.loaded)
    {h : Host} {T : SymTable .elf64} {symtab : Addr64} {start n k : ℕ} {name : Name}
    (hq : Queried (soReads h s.linker (.pool i)) (soTable s.linker (.pool i))
      (s.linker.info (.pool i)).nchain T symtab start)
    (hT : T.Holds (soReads h s.linker (.pool i)) symtab) (hn : T.Defines name n)
    (hglobal : (T.sym n).st_bind = stbGlobal)
    (hhook : h.dlsym rtldDefault (wrapSymName name) = 0) (hhost : h.dlsym rtldDefault name = 0)
    (hfit : (T.sym n).st_value.toNat + (T.sym n).st_size.toNat ≤
      (s.linker.info (.pool i)).size) (hk : k < (T.sym n).st_size.toNat) (ret_addr : ℕ) :
    ∃ K, ∀ fuel, K ≤ fuel → ∃ a info,
      (bionicDlsym h fuel s.linker ret_addr (.so (.pool i)) (some name)).map Exit.ret =
        .ok (.ok a) ∧
      bionicDladdr h fuel s.linker (a + BitVec.ofNat 64 k) =
        some ([.lock, .unlock], some info) ∧ Resolves s.linker (.pool i) T start n k info := by
  obtain ⟨hspace, hsize⟩ := clean_inSpace hr i hi
  have hdefined : (T.sym n).st_shndx ≠ 0 := hn.2.1.2
  have hc := contains_offset hdefined (by omega) hk
  have hstart : ((T.sym n).st_value + soBase s.linker (.pool i)).toNat =
      (T.sym n).st_value.toNat + (s.linker.info (.pool i)).base :=
    add_toNat (T.sym n).st_value (by omega)
  have haddr : ((T.sym n).st_value + soBase s.linker (.pool i) + BitVec.ofNat 64 k).toNat =
      (T.sym n).st_value.toNat + (s.linker.info (.pool i)).base + k := by
    rw [← hstart]
    exact add_toNat _ (by rw [hstart]; omega)
  have hin : Inside (s.linker.info (.pool i))
      ((T.sym n).st_value + soBase s.linker (.pool i) + BitVec.ofNat 64 k).toNat := by
    rw [haddr, Inside]
    omega
  have hoff : (T.sym n).st_value + soBase s.linker (.pool i) + BitVec.ofNat 64 k -
      soBase s.linker (.pool i) = (T.sym n).st_value + BitVec.ofNat 64 k := by
    ring
  obtain ⟨K₁, hlookup⟩ := lookupInLibrary_exports (hq.exports hT hn)
  obtain ⟨K₂, hback⟩ := dladdr_resolves hq hT hn.1 (hq.start_le hn)
    ((clean_housed hr).containing hi hin) hoff hc
  refine ⟨max K₁ K₂, fun fuel hf => ?_⟩
  obtain ⟨e, he, hret⟩ := dlsym_own (pool_mem_solist.mpr hi) hhook
    (hlookup fuel ((Nat.le_max_left _ _).trans hf)) ret_addr
  rw [if_neg (not_not.mpr hhost), if_pos ⟨hglobal, hdefined⟩] at hret
  obtain ⟨info, hinfo, hres⟩ := hback fuel ((Nat.le_max_right _ _).trans hf)
  refine ⟨_, info, ?_, hinfo, hres⟩
  rw [he, ← hret]
  rfl

section sound
variable {c : ElfClass} {rd : Reads c} {t : HashTable c} {soaddr p : Addr c}

theorem chainPass_sound {n : BitVec 32} (h : (chainPass rd t soaddr n).2 = .inr (some p)) :
    Contains (rd.sym p) soaddr := by
  unfold chainPass at h
  simp only at h
  split_ifs at h with hmatch hstop
  · cases h
    exact symbolMatchesSoaddr_iff.mp hmatch
  · cases h

theorem bucketLoop_sound {fuel left i : ℕ}
    (h : bucketLoop rd t soaddr fuel left i = some (some p)) : Contains (rd.sym p) soaddr := by
  induction left generalizing i with
  | zero => cases h
  | succ left ih =>
    rw [bucketLoop] at h
    split_ifs at h with hzero
    · exact ih h
    · obtain ⟨r, hr, hrest⟩ := Option.bind_eq_some_iff.mp h
      split_ifs at hrest with hsome
      · cases hrest
        obtain ⟨ss, hss, -⟩ := passes_of_run (Prod.ext rfl hr)
        obtain ⟨m, -, hm⟩ := hss.ended
        exact chainPass_sound hm
      · exact ih hrest

theorem sysvLoop_sound {l i : ℕ} (h : sysvLoop rd t soaddr l i = some p) :
    Contains (rd.sym p) soaddr := by
  rw [sysvLoop_eq] at h
  obtain ⟨j, hj, rfl⟩ := Option.map_eq_some_iff.mp h
  have hmatch : symbolMatchesSoaddr (rd.sym (symPtr t j)) soaddr = true := by
    simpa using List.find?_some hj
  exact symbolMatchesSoaddr_iff.mp hmatch

end sound

theorem findContainingSymbol_sound {h : Host} {fuel : ℕ} {L : State} {addr p : Addr64} {si : So}
    (hf : findContainingSymbol h fuel L addr si = some (some p)) :
    Contains ((soReads h L si).sym p) (addr - soBase L si) := by
  unfold findContainingSymbol at hf
  split_ifs at hf with hgnu
  · exact bucketLoop_sound hf
  · exact sysvLoop_sound (Option.some.inj hf)

/-- What a query says is the name and base of the library, and no symbol or one that is
defined in it, contains the address and starts at `dli_saddr`. -/
structure Names (h : Host) (L : State) (si : So) (addr : Addr64) (info : DlInfo) : Prop where
  fname : info.dli_fname = (L.info si).name
  fbase : info.dli_fbase = soBase L si
  symbol : info.dli_sname = none ∧ info.dli_saddr = 0 ∨ ∃ p,
    Contains ((soReads h L si).sym p) (addr - soBase L si) ∧
      info.dli_sname = some ((soReads h L si).sym p).name ∧
      info.dli_saddr = soBase L si + ((soReads h L si).sym p).st_value ∧
      info.dli_saddr.toNat ≤ addr.toNat

theorem symbol_below {base addr value : BitVec 64} (hb : base.toNat ≤ addr.toNat)
    (hv : value.toNat ≤ (addr - base).toNat) : (base + value).toNat ≤ addr.toNat := by
  rw [BitVec.toNat_sub_of_le (BitVec.le_def.mpr hb)] at hv
  rw [BitVec.toNat_add, Nat.mod_eq_of_lt]
  · omega
  · have := addr.isLt
    omega

/-- In every such run a query that ends answers for the addresses in the ranges of the libraries
and for no other ones, whatever their hash tables are like. -/
theorem dladdr_names {s : Sys} (hr : CleanRun s) {h : Host} {fuel : ℕ} {addr : Addr64}
    {ops : List LockOp} {info : Option DlInfo}
    (hd : bionicDladdr h fuel s.linker addr = some (ops, info)) : ops = [.lock, .unlock] ∧
      (info = none ↔ ∀ i ∈ s.linker.pool.loaded, ¬ Inside (s.linker.info (.pool i)) addr.toNat) ∧
      ∀ d, info = some d → ∃ i ∈ s.linker.pool.loaded,
        Inside (s.linker.info (.pool i)) addr.toNat ∧ Names h s.linker (.pool i) addr d := by
  have hhoused := clean_housed hr
  have hrange : ∀ x, findContainingLibrary s.linker addr.toNat = some x →
      ∃ i ∈ s.linker.pool.loaded, x = .pool i ∧ Inside (s.linker.info (.pool i)) addr.toNat := by
    intro x hx
    have hin := List.find?_some hx
    rw [decide_eq_true_eq] at hin
    have hinside : Inside (s.linker.info x) addr.toNat := ⟨hin.1, by omega⟩
    rcases mem_solist.mp (List.mem_of_find?_eq_some hx) with rfl | ⟨i, hi, rfl⟩
    · exact absurd hinside (hhoused.libdl _).1
    · exact ⟨i, hi, rfl, hinside⟩
  unfold bionicDladdr at hd
  cases hlib : findContainingLibrary s.linker addr.toNat with
  | none =>
    rw [hlib] at hd
    cases hd
    refine ⟨rfl, iff_of_true rfl fun i hi hin => ?_, fun d hd => (nomatch hd)⟩
    rw [hhoused.containing hi hin] at hlib
    cases hlib
  | some x =>
    obtain ⟨i, hi, rfl, hin⟩ := hrange x hlib
    rw [hlib] at hd
    obtain ⟨sym, hsym, hd⟩ := Option.bind_eq_some_iff.mp hd
    cases hd
    refine ⟨rfl, iff_of_false nofun fun hno => hno i hi hin, fun d hd => ⟨i, hi, hin, ?_⟩⟩
    cases hd
    cases sym with
    | none => exact ⟨rfl, rfl, Or.inl ⟨rfl, rfl⟩⟩
    | some p =>
      have hc := findContainingSymbol_sound hsym
      have hbase : (soBase s.linker (.pool i)).toNat ≤ addr.toNat :=
        (Nat.mod_le _ _).trans hin.1
      exact ⟨rfl, rfl, Or.inr ⟨p, hc, rfl, rfl, symbol_below hbase hc.start⟩⟩

def querySymbols : SymTable .elf64 where
  nsyms := 2
  sym n := if n = 1 then ⟨['a'], stbGlobal, sttFunc, 7, 0x800, 8⟩ else ⟨[], 0, 0, shnUndef, 0, 0⟩
  nsyms_le := by decide
  distinct := by
    intro n m hn hm
    interval_cases n <;> interval_cases m <;> decide

def queryFile : LibFile :=
  { sampleFile [(.hash, 0x100)] with
    image := { (sampleFile [(.hash, 0x100)]).image with
      u32 := fun o => ([(0x100, 1), (0x104, 2), (0x108, 1), (0x418, 'a'.toNat),
        (0x41c, 0x70012)].lookup o).getD 0
      word := fun o => ([(0x420, 0x800), (0x428, 8)].lookup o).getD 0
      str := fun n => if n = 0 then [] else [Char.ofNat n] } }

def queryWorld : World :=
  fixedKernel (sampleWorld fun name => if name = ['l'] then some queryFile else none)

@[irreducible] def queryState : State :=
  ((bionicDlopen queryWorld 3 initial (some ['l'])).map Prod.fst).getD initial

abbrev queryInfo : Soinfo := queryState.info (.pool firstSlot)

theorem query_clean : ∃ opens, CleanRun ⟨queryState, opens⟩ := by
  have hopen : (bionicDlopen queryWorld 3 initial (some ['l'])).map Prod.snd =
      some (some (.so (.pool firstSlot))) := by decide +kernel
  obtain ⟨⟨L, r⟩, hf, rfl⟩ := Option.map_eq_some_iff.mp hopen
  have hstate : queryState = L := by
    unfold queryState
    rw [hf]
    rfl
  have hfile : ∀ {n name f}, queryWorld.openLibrary n name = some f → f = queryFile := by
    intro n name f hopen
    simp only [queryWorld, fixedKernel, sampleWorld] at hopen
    split_ifs at hopen
    exact (Option.some.inj hopen).symm
  have hsize : fileExtents queryFile = some 0x1000 := by decide +kernel
  have hheaders : Ranges.HeadersLoaded queryWorld := by
    intro n name f size hopen hext
    cases hfile hopen
    cases hsize.symm.trans hext
    simp [queryFile, sampleFile]
  have hlinks : AllLink queryWorld initial (some ['l']) := by
    refine allLink_inside (fixedKernel_kernel _) (fun K size b => fixedKernel_ne_zero
      fun K size b h => ?_) (fun n lib f hf => ?_) (fun _ _ _ => rfl) fun _ _ => rfl
    · have hchosen : 0x10000 * (K.attempts + 1) = b := Option.some.inj h
      omega
    · cases hfile hf
      exact ⟨⟨0, 0x1000, by decide, hsize, by decide⟩, ⟨0x400, 0x1000, by decide, hsize, by decide⟩⟩
  have hfree : PrelinksFree queryWorld initial (some ['l']) :=
    prelinksFree_plain fun n lib f hf => by
      cases hfile hf
      rfl
  rw [hstate]
  exact ⟨_, .step .initial (a := .dlopen queryWorld (some ['l']))
    ⟨trivial, fixedKernel_kernel _, hheaders, hfree, hlinks⟩ (.dlopen hf)⟩

theorem query_queried : Queried (reads queryInfo) (hashTable queryInfo) queryInfo.nchain
    querySymbols 0x20400 0 := by
  have h : (hashTable queryInfo).symtab = 0x20400 ∧ (hashTable queryInfo).gnuHash = false ∧
      (hashTable queryInfo).nbucket = 1 ∧ (hashTable queryInfo).bucket = 0x20108 ∧
      (hashTable queryInfo).chain = 0x2010c ∧ (hashTable queryInfo).gnu_maskwords = 0 ∧
      (hashTable queryInfo).gnu_shift2 = 0 ∧ (hashTable queryInfo).gnu_bloom_filter = 0 ∧
      (reads queryInfo).u32 0x20100 = 1 ∧ queryInfo.nchain = 2 := by decide +kernel
  obtain ⟨h1, h2, h3, h4, h5, h6, h7, h8, h9, hchain⟩ := h
  have htable : hashTable queryInfo = sysvTable (reads queryInfo) 0x20400 0x20100 := by
    cases ht : hashTable queryInfo
    rw [ht] at h1 h2 h3 h4 h5 h6 h7 h8
    rw [sysvTable, h9]
    cases h1; cases h2; cases h3; cases h4; cases h5; cases h6; cases h7; cases h8
    rfl
  have hwords : (sysvSection (reads queryInfo) 0x20100).nbucket = 1 ∧
      (sysvSection (reads queryInfo) 0x20100).bucket 0 = 1 ∧
      (sysvSection (reads queryInfo) 0x20100).chain 1 = 0 := by decide +kernel
  obtain ⟨hn, hb, h1⟩ := hwords
  refine .sysv htable ⟨by rw [hn]; decide, fun i hi => ?_⟩ hchain
  obtain rfl : i = 0 := by omega
  refine ⟨[1], ?_, ?_, fun n hlt => ?_⟩
  · rw [hb]
    refine .step (by decide) ?_
    rw [h1]
    exact .done
  · rw [hn]
    decide
  · rw [hn]
    have hlt : n < 2 := hlt
    interval_cases n <;> decide

/-- The address four bytes behind the start of its symbol. -/
theorem dlsym_dladdr_query : ∃ K, ∀ fuel, K ≤ fuel → ∃ a info,
    (bionicDlsym noHost fuel queryState 0 (.so (.pool firstSlot)) (some ['a'])).map Exit.ret =
      .ok (.ok a) ∧
    bionicDladdr noHost fuel queryState (a + BitVec.ofNat 64 4) =
      some ([.lock, .unlock], some info) ∧
    Resolves queryState (.pool firstSlot) querySymbols 0 1 4 info := by
  obtain ⟨opens, hr⟩ := query_clean
  have hloaded : firstSlot ∈ queryState.pool.loaded := by decide +kernel
  have hsyms : ∀ n < 2, (reads queryInfo).sym (nth 0x20400 24 n) = querySymbols.sym n := by
    decide +kernel
  have hfit : (querySymbols.sym 1).st_value.toNat + (querySymbols.sym 1).st_size.toNat ≤
      queryInfo.size := by decide +kernel
  exact dlsym_dladdr hr hloaded query_queried hsyms (by decide) rfl rfl rfl hfit (by decide) 0

/-- What is said about an address inside the symbol. -/
theorem dladdr_names_query : ∃ i ∈ queryState.pool.loaded,
    Inside (queryState.info (.pool i)) 0x20804 ∧
      Names noHost queryState (.pool i) 0x20804 ⟨['l'], 0x20000, some ['a'], 0x20800⟩ := by
  obtain ⟨opens, hr⟩ := query_clean
  have hd : bionicDladdr noHost 0 queryState 0x20804 =
      some ([.lock, .unlock], some ⟨['l'], 0x20000, some ['a'], 0x20800⟩) := by decide +kernel
  exact (dladdr_names hr hd).2.2 _ rfl

end Bionic.AddressQueries
