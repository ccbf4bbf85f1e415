import BionicTranslation.ConfigFiles
import BionicTranslation.DataDirs
import BionicTranslation.LibraryPath
import BionicTranslation.SearchPaths
import BionicTranslation.Traces

/-!
# The search for a library, from startup on

`construct` reads the overrides and the first library path from what the environment names.
Later calls set the library path anew or add search paths, and `apkenv_find_library` opens what
the overrides say in the first directory that has it.
-/

set_option autoImplicit false

namespace Bionic.LibrarySearch
open Bionic.CStrings Bionic.WrapperNames Bionic.Records Bionic.Splitting Bionic.DataDirs
open Bionic.OverrideMap Bionic.ConfigFiles Bionic.LibraryPath Bionic.OpenLibrary
open Bionic.SearchPaths Bionic.Traces

theorem takeWhile_nonzero (s : List Byte) : 0 ∉ s.takeWhile (· ≠ 0) := by
  intro h
  have hne := List.mem_takeWhile_imp h
  simp at hne

def cstring (s : List Byte) : CString Byte := ⟨s.takeWhile (· ≠ 0), takeWhile_nonzero s⟩

def ofBytes (s : List Byte) : Name := s.map fun b => Char.ofNat b.toNat

def shares : CString Byte := cstring (bytes "/usr/local/share:/usr/share".toList)

def etcCfgDir : Name := "/etc/bionic_translation/cfg.d".toList

/-- The two variables, and the block that `malloc` returns for `cfg_path`. -/
structure Environment where
  xdgDataDirs : Option (CString Byte)
  bionicLdLibraryPath : Option (CString Byte)
  cfgPath : ℕ → Byte

def Environment.dataDirs (env : Environment) : List Byte := (env.xdgDataDirs.getD shares).chars

/-- `lib_override_map`, `apkenv_ldpaths` with its buffer, and `apkenv_sopaths`. -/
structure State where
  overrides : Map
  paths : LibraryPath.State Byte
  sopaths : List Slot

def initial : State := ⟨.empty, ⟨fun _ => 0, none, fun _ => none, 0⟩, initialSopaths⟩

def parse (fuel : ℕ) (s : State) (path : CString Byte) (delim : List Byte) : Option State :=
  (dlParseLibraryPath fuel s.paths.buf s.paths.ldpaths (environment path.chars) 0 delim).map
    fun paths => { s with paths := paths }

/-- `construct`, behind the symbol table of libdl. It fails where the process exits. -/
def construct (fuel : ℕ) (fs : ConfigFiles.Files) (env : Environment) : Option State :=
  let dirs := env.dataDirs
  (readDataDirs fuel (environment dirs) none 0 env.cfgPath).toOption.bind fun calls =>
    let paths := calls.map fun cfgPath => ofBytes (text cfgPath (dirs.length + cfgDir.length + 1))
    (readCfgDirs fuel fs (paths ++ [etcCfgDir]) .empty).toOption.bind fun overrides =>
      let s := { initial with overrides := overrides }
      env.bionicLdLibraryPath.elim (some s) fun path => parse fuel s path colon

def ldpathsFrom (st : LibraryPath.State Byte) : ℕ → ℕ → List (CString Byte)
  | 0, _ => []
  | left + 1, j => (st.ldpaths j).elim [] fun q =>
    cstring ((List.range' q LDPATH_BUFSIZE).map st.buf) :: ldpathsFrom st left (j + 1)

def FULLPATH_SIZE : ℕ := 512

/-- The last one is a search of `apkenv_find_library` for a library that is not loaded, with what
is on the stack where `fullpath` will be. -/
inductive Request where
  | parse (path : CString Byte) (delim : List Byte)
  | add (path : CString Byte)
  | find (fs : OpenLibrary.Files) (name : Name) (fullpath : ℕ → Byte)

/-- Whether there was room for a path; the path and the descriptor of a file that was opened. -/
inductive Event where
  | added (room : Bool)
  | opened (file : Option (List Byte × ℕ))

def step (fuel : ℕ) (s : State) : Request → Option (State × Option Event)
  | .parse path delim => (parse fuel s path delim).map fun s => (s, none)
  | .add path =>
    let r := addSopath s.sopaths path
    some ({ s with sopaths := r.1 }, some (.added (decide (r.2 = 0))))
  | .find fs name fullpath => (findName s.overrides name).map fun name =>
    let ldpaths := ldpathsFrom s.paths (LDPATH_MAX + 1) 0
    let r := openLibrary fs ldpaths (upToNull s.sopaths) (some (cstring (bytes name))) fullpath
    (s, some (.opened (r.map fun r => (text r.1 FULLPATH_SIZE, r.2))))

/-- The overrides, the library path and the paths that were added to the default ones. -/
structure Config where
  pairs : List Override
  ldpaths : List (List Byte)
  added : List (CString Byte)

open Classical in
/-- The entries that a path leaves: one less if it was cut behind eight whole ones. -/
noncomputable def entriesOf (delim path : List Byte) : List (List Byte) :=
  (surviving delim path).take (if Roomy delim path then LDPATH_MAX else LDPATH_MAX - 1)

def Config.found (c : Config) (fs : OpenLibrary.Files) (name : Name) : Option (List Byte × ℕ) :=
  let name := cstring (bytes (firstOverride c.pairs (stripPrefix name)))
  if name.chars.length ≤ 256 then
    (firstReadable fs name (c.ldpaths.map cstring) (kept c.added)).bind fun p =>
      (openLib fs p).map fun fd => (p.chars, fd)
  else none

noncomputable def Config.step (c : Config) : Request → Config × Option Event
  | .parse path delim => ({ c with ldpaths := entriesOf delim path.chars }, none)
  | .add path =>
    let added := c.added ++ [path]
    ({ c with added := added }, some (.added (decide (path ∈ kept added))))
  | .find fs name _ => (c, some (.opened (c.found fs name)))

noncomputable def Config.answers : Config → List Request → List Event
  | _, [] => []
  | c, r :: reqs => (c.step r).2.toList ++ (c.step r).1.answers reqs

noncomputable def dirsOf (s : List Byte) : List (List Byte) :=
  (if s.head?.any isColon then [[]] else []) ++ pieces isColon s

noncomputable def Environment.cfgDirs (env : Environment) : List Name :=
  (dirsOf env.dataDirs).map (fun dir => ofBytes (dir ++ cfgDir)) ++ [etcCfgDir]

noncomputable def Environment.config (env : Environment) (fs : ConfigFiles.Files) : Config where
  pairs := pairsIn fs (filesOf fs env.cfgDirs)
  ldpaths := env.bionicLdLibraryPath.elim [] fun path => entriesOf colon path.chars
  added := []

section paths
variable {p : Byte → Bool} {s t : List Byte} {ts : List (List Byte)} {delim path : List Byte}
  {mem : ℕ → Byte} {st : LibraryPath.State Byte} {n q fuel : ℕ}

theorem cstring_chars (h : 0 ∉ s) : (cstring s).chars = s := by
  apply List.takeWhile_eq_self_iff.mpr
  intro x hx
  exact decide_eq_true fun h0 => h (h0 ▸ hx)

theorem cstring_holds (h : Holds mem q t) (hlen : t.length ≤ n) :
    cstring ((List.range' q n).map mem) = cstring t := by
  apply CString.ext
  rw [cstring_chars h.nonzero]
  exact (text_eq h).trans (List.take_of_length_le hlen)

theorem mem_split_length {segs : List (List Byte)} (h : Split p s segs) (ht : t ∈ segs) :
    t.length ≤ s.length := by
  induction h with
  | last hs => rw [List.mem_singleton.mp ht]
  | @next s r d segs hs hd h ih =>
    rw [List.length_append, List.length_cons]
    rcases List.mem_cons.mp ht with rfl | ht
    · exact Nat.le_add_right _ _
    · have hle := ih ht
      omega

theorem mem_pieces_length (ht : t ∈ pieces p s) : t.length ≤ s.length :=
  mem_split_length (split_splitOnP p s) (List.mem_of_mem_filter ht)

theorem ended_subset (s : List Byte) : ended p s ⊆ pieces p s :=
  ((List.dropLast_sublist _).filter _).subset

theorem entriesOf_short (ht : t ∈ entriesOf delim path) : t.length ≤ LDPATH_BUFSIZE := by
  have hsurviving := List.mem_of_mem_take ht
  rw [surviving] at hsurviving
  split_ifs at hsurviving with hlen
  · exact (mem_pieces_length hsurviving).trans hlen.le
  · have hle := mem_pieces_length (ended_subset _ hsurviving)
    exact hle.trans ((List.length_take_le _ _).trans (Nat.sub_le _ _))

theorem entriesOf_few (delim path : List Byte) : (entriesOf delim path).length ≤ LDPATH_MAX := by
  rw [entriesOf]
  apply (List.length_take_le _ _).trans
  split_ifs
  · exact Nat.le_refl _
  · exact Nat.sub_le _ _

theorem parse_entries (ldpaths : ℕ → Option ℕ) (buf : ℕ → Byte) (h : Holds mem q path)
    (hf : path.length + LDPATH_BUFSIZE < fuel) : ∃ st,
      dlParseLibraryPath fuel buf ldpaths mem q delim = some st ∧
        Entries st (entriesOf delim path) := by
  rw [entriesOf]
  split_ifs with hroom
  · exact parse_kept ldpaths buf h hf hroom
  · obtain ⟨st, hrun, -, hentries⟩ := parse_dropped ldpaths buf h hf hroom
    exact ⟨st, hrun, hentries⟩

/-- The induction is on the entries that are left. -/
theorem ldpathsFrom_eq {left j : ℕ}
    (h : ∀ i t, ts[i]? = some t → ∃ q, st.ldpaths (j + i) = some q ∧ Holds st.buf q t)
    (hend : st.ldpaths (j + ts.length) = none) (hleft : ts.length < left)
    (hshort : ∀ t ∈ ts, t.length ≤ LDPATH_BUFSIZE) :
    ldpathsFrom st left j = ts.map cstring := by
  induction ts generalizing left j with
  | nil =>
    obtain ⟨left, rfl⟩ := Nat.exists_eq_add_of_lt hleft
    have hnull : st.ldpaths j = none := hend
    rw [ldpathsFrom, hnull]
    rfl
  | cons t ts ih =>
    obtain ⟨left, rfl⟩ := Nat.exists_eq_add_of_lt hleft
    obtain ⟨hfirst, hrest⟩ := List.forall_mem_cons.mp hshort
    obtain ⟨q, hq, hheld⟩ := h 0 t rfl
    have htail : ldpathsFrom st (ts.length + 1 + left) (j + 1) = ts.map cstring := by
      apply ih _ _ (by omega) hrest
      · intro i u hu
        have hnext := h (i + 1) u hu
        rwa [show j + (i + 1) = j + 1 + i by omega] at hnext
      · rwa [List.length_cons, ← Nat.add_assoc, Nat.add_right_comm] at hend
    rw [Nat.add_zero] at hq
    rw [List.length_cons, ldpathsFrom, hq, Option.elim_some, htail, cstring_holds hheld hfirst]
    rfl

end paths

section dirs
variable {mem : ℕ → Byte} {s : List Byte} {dirs : List (List Byte)} {calls : List (ℕ → Byte)}
  {fuel : ℕ}

theorem mem_dirsOf_length {dir : List Byte} (h : dir ∈ dirsOf s) : dir.length ≤ s.length := by
  rcases List.mem_append.mp h with h | h
  · split_ifs at h
    · rw [List.mem_singleton.mp h]
      exact Nat.zero_le _
    · cases h
  · exact mem_pieces_length h

theorem readDataDirs_dirsOf (cfgPath : ℕ → Byte) (h : Holds mem 0 s) (hf : s.length + 1 < fuel) :
    ∃ calls, readDataDirs fuel mem none 0 cfgPath = .ok calls ∧ Called (dirsOf s) calls := by
  have hrun : readDataDirs fuel mem none 0 cfgPath =
      splitLoop mem (s.length + (cfgDir.length + 1)) fuel cfgPath 0 := by
    have hlen := CFunctions.strlen_eq h (show s.length < fuel by omega)
    rw [readDataDirs]
    exact congrArg (fun o => Except.bind (spent o) _) hlen
  rw [hrun]
  cases s with
  | nil =>
    apply splitLoop_called cfgPath h _ hf (Nat.le_refl _)
    intro y hy
    cases hy
  | cons x s =>
    rw [dirsOf, List.head?_cons, Option.any_some]
    split_ifs with hx
    · exact splitLoop_colon cfgPath h hx hf (Nat.le_refl _)
    · apply splitLoop_called cfgPath h _ hf (Nat.le_refl _)
      intro y hy
      cases hy
      exact Bool.eq_false_of_not_eq_true hx

theorem called_paths {n : ℕ} (h : Called dirs calls) (hn : ∀ dir ∈ dirs, dir.length ≤ n) :
    (calls.map fun cfgPath => ofBytes (text cfgPath (n + cfgDir.length + 1))) =
      dirs.map fun dir => ofBytes (dir ++ cfgDir) := by
  induction h with
  | nil => rfl
  | @cons dir cfgPath dirs calls hpath h ih =>
    obtain ⟨hfirst, hrest⟩ := List.forall_mem_cons.mp hn
    have hlen : (dir ++ cfgDir).length ≤ n + cfgDir.length + 1 := by
      rw [List.length_append]
      omega
    rw [List.map_cons, List.map_cons, ih hrest, text_holds hpath hlen]

end dirs

structure Configured (s : State) (c : Config) : Prop where
  overrides : Lists s.overrides c.pairs
  entries : Entries s.paths c.ldpaths
  few : c.ldpaths.length ≤ LDPATH_MAX
  short : ∀ t ∈ c.ldpaths, t.length ≤ LDPATH_BUFSIZE
  sopaths : s.sopaths = afterAdds c.added

def Enough (fuel : ℕ) : Request → Prop
  | .parse path _ => path.chars.length + LDPATH_BUFSIZE < fuel
  | _ => True

variable {fuel : ℕ} {s : State} {c : Config} {r : Request} {reqs : List Request}

theorem Configured.parse (h : Configured s c) {path : CString Byte} (delim : List Byte)
    (hf : path.chars.length + LDPATH_BUFSIZE < fuel) : ∃ s', parse fuel s path delim = some s' ∧
      Configured s' { c with ldpaths := entriesOf delim path.chars } := by
  have hheld : Holds (environment path.chars) 0 path.chars := holds_write _ 0 path.nonzero
  obtain ⟨paths, hrun, hentries⟩ := parse_entries s.paths.ldpaths s.paths.buf hheld hf
  refine ⟨{ s with paths := paths }, ?_, h.overrides, hentries, ?_, ?_, h.sopaths⟩
  · rw [LibrarySearch.parse, hrun]
    rfl
  · exact entriesOf_few delim path.chars
  · exact fun t ht => entriesOf_short ht

theorem Configured.ldpaths (h : Configured s c) :
    ldpathsFrom s.paths (LDPATH_MAX + 1) 0 = c.ldpaths.map cstring := by
  apply ldpathsFrom_eq _ _ (Nat.lt_succ_of_le h.few) h.short
  · intro i t ht
    rw [Nat.zero_add]
    exact h.entries.entry i t ht
  · rw [Nat.zero_add]
    exact h.entries.ends

theorem candidates_short {fs : OpenLibrary.Files} {name path : CString Byte}
    {ldpaths sopaths : List (CString Byte)} (hname : name.chars.length ≤ 256)
    (h : path ∈ candidates fs name ldpaths sopaths) : path.chars.length ≤ FULLPATH_SIZE := by
  have hin : ∀ dir, path ∈ inPath name dir → path.chars.length ≤ FULLPATH_SIZE := by
    intro dir hdir
    rw [inPath] at hdir
    split_ifs at hdir with hlt
    · rw [List.mem_singleton.mp hdir]
      exact hlt.le
    · cases hdir
  rcases List.mem_append.mp h with h | h
  · obtain ⟨dir, -, hdir⟩ := List.mem_flatMap.mp h
    rcases List.mem_append.mp hdir with hself | hdir
    · split_ifs at hself
      · rw [List.mem_singleton.mp hself]
        exact hname.trans (by decide)
      · cases hself
    · exact hin dir hdir
  · obtain ⟨dir, -, hdir⟩ := List.mem_flatMap.mp h
    exact hin dir hdir

theorem opened_eq (fs : OpenLibrary.Files) (name : CString Byte)
    (ldpaths sopaths : List (CString Byte)) (fullpath : ℕ → Byte) :
    ((openLibrary fs ldpaths sopaths (some name) fullpath).map fun r =>
        (text r.1 FULLPATH_SIZE, r.2)) =
      if name.chars.length ≤ 256 then
        (firstReadable fs name ldpaths sopaths).bind fun p =>
          (openLib fs p).map fun fd => (p.chars, fd)
      else none := by
  split_ifs with hname
  · have hfinds := openLibrary_finds fs ldpaths sopaths fullpath hname
    have hmem : ∀ p ∈ firstReadable fs name ldpaths sopaths, p.chars.length ≤ FULLPATH_SIZE :=
      fun p hp => candidates_short hname (List.mem_of_find?_eq_some hp)
    generalize openLibrary fs ldpaths sopaths (some name) fullpath = r at hfinds
    generalize firstReadable fs name ldpaths sopaths = p at hfinds hmem
    cases hfinds with
    | none => rfl
    | @some p r h =>
      rw [Option.bind_some, h.1, Option.map_some, Option.map_some, text_holds h.2 (hmem p rfl)]
  · rw [openLibrary, Option.bind_some, if_pos (by omega)]
    rfl

theorem Configured.find (h : Configured s c) (fs : OpenLibrary.Files) (name : Name)
    (fullpath : ℕ → Byte) :
    step fuel s (.find fs name fullpath) = some (s, some (.opened (c.found fs name))) := by
  have hsopaths : upToNull s.sopaths = kept c.added := by
    rw [h.sopaths, (afterAdds_kept c.added).1, upToNull_slotsOf]
  rw [step, h.overrides.findName, Option.map_some]
  simp only [h.ldpaths, hsopaths, opened_eq]
  rfl

theorem Configured.step (h : Configured s c) (hf : Enough fuel r) : ∃ s',
    step fuel s r = some (s', (c.step r).2) ∧ Configured s' (c.step r).1 := by
  cases r with
  | parse path delim =>
    obtain ⟨s', hrun, hs'⟩ := h.parse delim hf
    refine ⟨s', ?_, hs'⟩
    rw [LibrarySearch.step, hrun]
    rfl
  | add path =>
    have hnext : (addSopath s.sopaths path).1 = afterAdds (c.added ++ [path]) := by
      rw [h.sopaths, afterAdds, afterAdds, List.foldl_append]
      rfl
    have hroom : decide ((addSopath s.sopaths path).2 = 0) =
        decide (path ∈ kept (c.added ++ [path])) := by
      rw [h.sopaths]
      exact decide_eq_decide.mpr (addSopath_kept c.added path)
    refine ⟨{ s with sopaths := (addSopath s.sopaths path).1 }, ?_, h.overrides, h.entries, h.few,
      h.short, hnext⟩
    rw [LibrarySearch.step, hroom]
    rfl
  | find fs name fullpath => exact ⟨s, h.find fs name fullpath, h⟩

/-- The induction is on the requests. -/
theorem Configured.run (h : Configured s c) (hf : ∀ r ∈ reqs, Enough fuel r) :
    (run (LibrarySearch.step fuel) s reqs).map Prod.snd = some (c.answers reqs) := by
  induction reqs generalizing s c with
  | nil => rfl
  | cons r reqs ih =>
    obtain ⟨hfirst, hrest⟩ := List.forall_mem_cons.mp hf
    obtain ⟨s', hrun, hs'⟩ := h.step hfirst
    obtain ⟨q, hq, hevents⟩ := Option.map_eq_some_iff.mp (ih hs' hrest)
    rw [Traces.run, hrun, Option.bind_some, hq, Config.answers, ← hevents]
    rfl

theorem exists_enough (reqs : List Request) :
    ∃ k, ∀ fuel, k ≤ fuel → ∀ r ∈ reqs, Enough fuel r := by
  induction reqs with
  | nil => exact ⟨0, fun _ _ => List.forall_mem_nil _⟩
  | cons r reqs ih =>
    obtain ⟨k, hk⟩ := ih
    cases r with
    | parse path delim =>
      refine ⟨max k (path.chars.length + LDPATH_BUFSIZE + 1), fun fuel hf => ?_⟩
      rw [List.forall_mem_cons]
      exact ⟨(Nat.le_max_right _ _).trans hf, hk fuel ((Nat.le_max_left _ _).trans hf)⟩
    | _ => exact ⟨k, fun fuel hf => List.forall_mem_cons.mpr ⟨trivial, hk fuel hf⟩⟩

theorem construct_configured (fs : ConfigFiles.Files) (env : Environment)
    (h : ∀ path ∈ filesOf fs env.cfgDirs, Readable fs path) :
    ∃ k, ∀ fuel, k ≤ fuel → ∃ s, construct fuel fs env = some s ∧ Configured s (env.config fs) := by
  obtain ⟨k, hk⟩ := exists_fuel fs (filesOf fs env.cfgDirs)
  refine ⟨k + env.dataDirs.length + 2 + (env.bionicLdLibraryPath.elim 0 fun path =>
    path.chars.length) + LDPATH_BUFSIZE, fun fuel hf => ?_⟩
  have hdirs : Holds (environment env.dataDirs) 0 env.dataDirs :=
    holds_write _ 0 (env.xdgDataDirs.getD shares).nonzero
  obtain ⟨calls, hcalls, hcalled⟩ := readDataDirs_dirsOf env.cfgPath hdirs
    (show env.dataDirs.length + 1 < fuel by omega)
  have hpaths := called_paths hcalled fun dir hdir => mem_dirsOf_length hdir
  obtain ⟨overrides, hread, hlists⟩ := readCfgDirs_reads env.cfgDirs
    (fun path hpath => ⟨h path hpath, hk fuel (by omega) path hpath⟩) .empty [] .null
  have hstart : Configured { initial with overrides := overrides }
      ⟨pairsIn fs (filesOf fs env.cfgDirs), [], []⟩ :=
    ⟨hlists, ⟨nofun, rfl⟩, Nat.zero_le _, nofun, rfl⟩
  rw [construct, hcalls]
  simp only [Except.toOption, Option.bind_some, hpaths]
  rw [Environment.cfgDirs] at hread
  rw [hread, Environment.config]
  cases hpath : env.bionicLdLibraryPath with
  | none => exact ⟨_, rfl, hstart⟩
  | some path =>
    rw [hpath, Option.elim_some] at hf
    exact hstart.parse colon (by omega)

/-- From startup on every search opens the first readable file of the overridden name in the
library path and the added paths that there are at that time, in any order of calls, and a path
is added exactly while there is room. -/
theorem session_answers (fs : ConfigFiles.Files) (env : Environment) (reqs : List Request)
    (h : ∀ path ∈ filesOf fs env.cfgDirs, Readable fs path) :
    ∃ k, ∀ fuel, k ≤ fuel → ∃ s, construct fuel fs env = some s ∧
      (run (step fuel) s reqs).map Prod.snd = some ((env.config fs).answers reqs) := by
  obtain ⟨k, hk⟩ := construct_configured fs env h
  obtain ⟨k', hk'⟩ := exists_enough reqs
  refine ⟨max k k', fun fuel hf => ?_⟩
  obtain ⟨s, hs, hconfigured⟩ := hk fuel ((Nat.le_max_left _ _).trans hf)
  exact ⟨s, hs, hconfigured.run (hk' fuel ((Nat.le_max_right _ _).trans hf))⟩

def etcFiles : ConfigFiles.Files where
  opendir dir := if dir = etcCfgDir then some [['c']] else none
  fopen path := if path = etcCfgDir ++ ['/', 'c'] then some ['l', ' ', 'k'] else none
  strerror _ := "No such file or directory"

def dirA : CString Byte := cstring [47, 97]

def dirB : CString Byte := cstring [47, 98]

def etcEnvironment : Environment := ⟨some (cstring []), some dirA, fun _ => 1⟩

def oneLibrary : OpenLibrary.Files where
  regular p := p.chars = [47, 97, 47, 107]
  openRead _ := some 3
  dirname p := p
  realpath _ := none
  fnmatch _ _ := false

def etcRequests : List Request :=
  [.find oneLibrary ['l'] fun _ => 0, .parse dirB colon, .find oneLibrary ['l'] fun _ => 0,
    .add dirA, .find oneLibrary ['l'] fun _ => 0]

theorem entriesOf_clean {delim path : List Byte} (h : ∀ x ∈ path, isDelim delim x = false)
    (hne : path ≠ []) (hlen : path.length < LDPATH_BUFSIZE) : entriesOf delim path = [path] := by
  have hpieces : pieces (isDelim delim) path = [path] := by
    rw [pieces_of_clean h]
    exact List.filter_cons_of_pos (by simpa using hne)
  rw [entriesOf, surviving, if_pos hlen, hpieces]
  split_ifs
  · rfl
  · rfl

theorem etcEnvironment_cfgDirs : etcEnvironment.cfgDirs = [etcCfgDir] := by
  have hdirs : dirsOf etcEnvironment.dataDirs = [] := pieces_nil isColon
  rw [Environment.cfgDirs, hdirs]
  rfl

theorem etcFiles_filesOf : filesOf etcFiles [etcCfgDir] = [etcCfgDir ++ ['/', 'c']] := by
  decide

theorem etcFiles_words : words ['l', ' ', 'k'] = [['l'], ['k']] := by
  rw [words, pieces]
  rfl

theorem etcFiles_fopen : etcFiles.fopen (etcCfgDir ++ ['/', 'c']) = some ['l', ' ', 'k'] := by
  dsimp only [etcFiles]
  exact if_pos rfl

theorem etcFiles_lines : pieces isNewline ['l', ' ', 'k'] = [['l', ' ', 'k']] := by
  rw [pieces_of_clean (by simp [isNewline])]
  rfl

theorem etcFiles_readable : Readable etcFiles (etcCfgDir ++ ['/', 'c']) := by
  refine ⟨_, etcFiles_fopen, ?_⟩
  rw [WellFormed, etcFiles_lines]
  intro line hline _
  obtain rfl := List.mem_singleton.mp hline
  exact ⟨_, _, _, etcFiles_words⟩

theorem etcEnvironment_config : etcEnvironment.config etcFiles =
    ⟨[(['l'], ['k'])], [[47, 97]], []⟩ := by
  have hpair : pairOf ['l', ' ', 'k'] = some (['l'], ['k']) := by
    rw [pairOf, if_neg (by decide), etcFiles_words]
    rfl
  have hpairs : pairsIn etcFiles [etcCfgDir ++ ['/', 'c']] = [(['l'], ['k'])] := by
    rw [pairsIn, List.flatMap_singleton, etcFiles_fopen, Option.getD_some, pairsOf,
      etcFiles_lines, List.filterMap_cons_some hpair]
    rfl
  have hentries : entriesOf colon [47, 97] = [[47, 97]] :=
    entriesOf_clean (by decide) (by decide) (by decide)
  rw [Environment.config, etcEnvironment_cfgDirs, etcFiles_filesOf, hpairs, ← hentries]
  rfl

theorem session_answers_etc : ∃ k, ∀ fuel, k ≤ fuel → ∃ s,
    construct fuel etcFiles etcEnvironment = some s ∧
      (run (step fuel) s etcRequests).map Prod.snd =
        some [.opened (some ([47, 97, 47, 107], 3)), .opened none, .added true,
          .opened (some ([47, 97, 47, 107], 3))] := by
  have hread : ∀ path ∈ filesOf etcFiles etcEnvironment.cfgDirs, Readable etcFiles path := by
    rw [etcEnvironment_cfgDirs, etcFiles_filesOf]
    exact List.forall_mem_singleton.mpr etcFiles_readable
  obtain ⟨k, hk⟩ := session_answers etcFiles etcEnvironment etcRequests hread
  refine ⟨k, fun fuel hf => ?_⟩
  obtain ⟨s, hs, hrun⟩ := hk fuel hf
  refine ⟨s, hs, hrun.trans ?_⟩
  have hb : entriesOf colon [47, 98] = [[47, 98]] :=
    entriesOf_clean (by decide) (by decide) (by decide)
  rw [etcEnvironment_config]
  change some [Event.opened _, .opened (Config.found ⟨_, entriesOf colon [47, 98], []⟩ _ _),
    .added _, .opened (Config.found ⟨_, entriesOf colon [47, 98], [dirA]⟩ _ _)] = _
  rw [hb]
  rfl

end Bionic.LibrarySearch
