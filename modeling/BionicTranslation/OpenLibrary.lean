import BionicTranslation.CFunctions
import BionicTranslation.WrapperNames

/-!
# The path of a library

`apkenv_open_library` tries the name itself and the search paths in a fixed order. It leaves the
path that it opened in a buffer of its caller, from where `apkenv_load_library` copies it to a
field that has the length of a name.
-/

set_option autoImplicit false

namespace Bionic.OpenLibrary
open Bionic.CStrings Bionic.CFunctions Bionic.WrapperNames

def SOINFO_NAME_LEN : ℕ := 128

/-- The file system, as far as the search asks it: whether `stat` says that a file is regular,
the descriptor that `open` gives, `dirname`, `realpath` and `fnmatch`, the pattern first. -/
structure Files where
  regular : CString Byte → Bool
  openRead : CString Byte → Option ℕ
  dirname : CString Byte → CString Byte
  realpath : CString Byte → Option (CString Byte)
  fnmatch : CString Byte → CString Byte → Bool

def openLib (fs : Files) (name : CString Byte) : Option ℕ :=
  if fs.regular name then fs.openRead name else none

theorem join_nonzero (path name : CString Byte) : 0 ∉ path.chars ++ 47 :: name.chars := by
  rw [List.mem_append, List.mem_cons]
  rintro (h | h | h)
  · exact path.nonzero h
  · exact absurd h (by decide)
  · exact name.nonzero h

def join (path name : CString Byte) : CString Byte where
  chars := path.chars ++ 47 :: name.chars
  nonzero := join_nonzero path name

def copyTo (fullpath : ℕ → Byte) (s : CString Byte) : ℕ → Byte := write fullpath 0 (s.chars ++ [0])

def tryPath (fs : Files) (name path : CString Byte) (fullpath : ℕ → Byte) :
    Option ((ℕ → Byte) × ℕ) :=
  if (join path name).chars.length < 512 then
    (openLib fs (join path name)).map fun fd => (copyTo fullpath (join path name), fd)
  else none

def tryName (fs : Files) (name path : CString Byte) (normalized : Option (CString Byte))
    (fullpath : ℕ → Byte) : Option ((ℕ → Byte) × ℕ) :=
  if normalized.any (fs.fnmatch ((fs.realpath path).getD path)) then
    (openLib fs name).map fun fd => (fullpath, fd)
  else none

def ldpathLoop (fs : Files) (name : CString Byte) (normalized : Option (CString Byte))
    (fullpath : ℕ → Byte) : List (CString Byte) → Option ((ℕ → Byte) × ℕ)
  | [] => none
  | path :: ldpaths =>
    ((tryName fs name path normalized fullpath).or (tryPath fs name path fullpath)).or
      (ldpathLoop fs name normalized fullpath ldpaths)

def sopathLoop (fs : Files) (name : CString Byte) (fullpath : ℕ → Byte) :
    List (CString Byte) → Option ((ℕ → Byte) × ℕ)
  | [] => none
  | path :: sopaths => (tryPath fs name path fullpath).or (sopathLoop fs name fullpath sopaths)

def openLibrary (fs : Files) (ldpaths sopaths : List (CString Byte)) (name : Option (CString Byte))
    (fullpath : ℕ → Byte) : Option ((ℕ → Byte) × ℕ) :=
  name.bind fun name =>
    if 256 < name.chars.length then none
    else
      let fullpath := copyTo fullpath name
      let normalized := fs.realpath (fs.dirname name)
      (ldpathLoop fs name normalized fullpath ldpaths).or (sopathLoop fs name fullpath sopaths)

def text (fullpath : ℕ → Byte) (n : ℕ) : List Byte :=
  ((List.range' 0 n).map fullpath).takeWhile (· ≠ 0)

def recordFullpath (field fullpath : ℕ → Byte) : ℕ → Byte :=
  Function.update (strncpy field 0 (text fullpath SOINFO_NAME_LEN) SOINFO_NAME_LEN)
    (SOINFO_NAME_LEN - 1) 0

section order
variable (fs : Files) (name : CString Byte)

def inPath (path : CString Byte) : List (CString Byte) :=
  if (join path name).chars.length < 512 then [join path name] else []

def listed (path : CString Byte) : Bool :=
  (fs.realpath (fs.dirname name)).any (fs.fnmatch ((fs.realpath path).getD path))

/-- The paths that may be opened, in the order in which they are tried. -/
def candidates (ldpaths sopaths : List (CString Byte)) : List (CString Byte) :=
  (ldpaths.flatMap fun path => (if listed fs name path then [name] else []) ++ inPath name path) ++
    sopaths.flatMap (inPath name)

def firstReadable (ldpaths sopaths : List (CString Byte)) : Option (CString Byte) :=
  (candidates fs name ldpaths sopaths).find? fun p => (openLib fs p).isSome

end order

/-- A search that opened the file at the path that was to be found, and left this path in the
buffer, or found nothing where there was nothing. -/
def Finds (fs : Files) : Option (CString Byte) → Option ((ℕ → Byte) × ℕ) → Prop :=
  Option.Rel fun p r => openLib fs p = some r.2 ∧ Holds r.1 0 p.chars

variable {fs : Files} {name path : CString Byte} {fullpath : ℕ → Byte}
  {a b : Option (CString Byte)} {r s : Option ((ℕ → Byte) × ℕ)}

theorem Finds.or (ha : Finds fs a r) (hb : Finds fs b s) : Finds fs (a.or b) (r.or s) := by
  cases ha with
  | none => exact hb
  | some h => exact .some h

theorem finds_open (c : Prop) [Decidable c] {p : CString Byte} {m : ℕ → Byte}
    (hm : Holds m 0 p.chars) :
    Finds fs ((if c then [p] else []).find? fun p => (openLib fs p).isSome)
      (if c then (openLib fs p).map fun fd => (m, fd) else none) := by
  by_cases hc : c
  · rw [if_pos hc, if_pos hc]
    cases hfd : openLib fs p with
    | none =>
      rw [List.find?_cons_of_neg (by simp [hfd])]
      exact .none
    | some fd =>
      rw [List.find?_cons_of_pos (by simp [hfd])]
      exact .some ⟨hfd, hm⟩
  · rw [if_neg hc, if_neg hc]
    exact .none

theorem copyTo_holds (fullpath : ℕ → Byte) (s : CString Byte) :
    Holds (copyTo fullpath s) 0 s.chars := holds_write fullpath 0 s.nonzero

theorem tryPath_finds (name path : CString Byte) (fullpath : ℕ → Byte) :
    Finds fs ((inPath name path).find? fun p => (openLib fs p).isSome)
      (tryPath fs name path fullpath) :=
  finds_open _ (copyTo_holds fullpath (join path name))

theorem ldpathLoop_finds (ldpaths : List (CString Byte)) (h : Holds fullpath 0 name.chars) :
    Finds fs
      ((ldpaths.flatMap fun path =>
        (if listed fs name path then [name] else []) ++ inPath name path).find?
          fun p => (openLib fs p).isSome)
      (ldpathLoop fs name (fs.realpath (fs.dirname name)) fullpath ldpaths) := by
  induction ldpaths with
  | nil => exact .none
  | cons path ldpaths ih =>
    rw [List.flatMap_cons, List.find?_append, List.find?_append]
    exact ((finds_open _ h).or (tryPath_finds name path fullpath)).or ih

theorem sopathLoop_finds (name : CString Byte) (fullpath : ℕ → Byte)
    (sopaths : List (CString Byte)) :
    Finds fs ((sopaths.flatMap (inPath name)).find? fun p => (openLib fs p).isSome)
      (sopathLoop fs name fullpath sopaths) := by
  induction sopaths with
  | nil => exact .none
  | cons path sopaths ih =>
    rw [List.flatMap_cons, List.find?_append]
    exact (tryPath_finds name path fullpath).or ih

theorem openLibrary_finds (fs : Files) (ldpaths sopaths : List (CString Byte))
    (fullpath : ℕ → Byte) (hname : name.chars.length ≤ 256) :
    Finds fs (firstReadable fs name ldpaths sopaths)
      (openLibrary fs ldpaths sopaths (some name) fullpath) := by
  rw [firstReadable, candidates, List.find?_append, openLibrary, Option.bind_some,
    if_neg (Nat.not_lt_of_le hname)]
  exact (ldpathLoop_finds ldpaths (copyTo_holds fullpath name)).or
    (sopathLoop_finds name _ sopaths)

variable {t : List Byte} {field : ℕ → Byte}

theorem text_eq {p n : ℕ} (h : Holds fullpath p t) :
    ((List.range' p n).map fullpath).takeWhile (· ≠ 0) = t.take n := by
  induction n generalizing p t with
  | zero => rfl
  | succ n ih =>
    rw [List.range'_succ, List.map_cons]
    cases t with
    | nil =>
      have hz : fullpath p = 0 := h.ends
      rw [List.takeWhile_cons_of_neg (by simp [hz]), List.take_nil]
    | cons x t =>
      rw [List.takeWhile_cons_of_pos (by simpa using h.head_ne), ih h.tail, h.chars.1,
        List.take_succ_cons]

theorem text_holds {n : ℕ} (h : Holds fullpath 0 t) (hlen : t.length ≤ n) :
    text fullpath n = t := by
  rw [text, text_eq h, List.take_of_length_le hlen]

theorem recordFullpath_holds (field : ℕ → Byte) (h : Holds fullpath 0 t) :
    Holds (recordFullpath field fullpath) 0 (t.take (SOINFO_NAME_LEN - 1)) where
  chars := by
    apply block_of_get
    intro i hi
    rw [List.length_take] at hi
    have hfilled := strncpy_filled field 0 (t.take SOINFO_NAME_LEN) SOINFO_NAME_LEN
    have hne : 0 + i ≠ SOINFO_NAME_LEN - 1 := by omega
    have hlt : i < SOINFO_NAME_LEN := by omega
    rw [recordFullpath, text, text_eq h, Function.update_of_ne hne,
      hfilled.chars i (by rw [List.length_take]; omega) hlt, List.getElem_take, List.getElem_take]
  nonzero := fun h0 => h.nonzero (List.mem_of_mem_take h0)
  ends := by
    have hfilled := strncpy_filled field 0 (t.take SOINFO_NAME_LEN) SOINFO_NAME_LEN
    rw [recordFullpath, text, text_eq h, List.length_take]
    rcases Nat.lt_or_ge t.length (SOINFO_NAME_LEN - 1) with hlt | hge
    · have hne : 0 + t.length ≠ SOINFO_NAME_LEN - 1 := by omega
      rw [Nat.min_eq_right hlt.le, Function.update_of_ne hne]
      exact hfilled.pad _ (by rw [List.length_take]; omega) (by omega)
    · rw [Nat.min_eq_left hge, Nat.zero_add, Function.update_self]

theorem recordFullpath_iff (field : ℕ → Byte) (h : Holds fullpath 0 t) :
    Holds (recordFullpath field fullpath) 0 t ↔ t.length < SOINFO_NAME_LEN := by
  have hheld := recordFullpath_holds field h
  constructor
  · intro hwhole
    have hlen := congrArg List.length (hwhole.unique hheld)
    rw [List.length_take] at hlen
    have hpos : 0 < SOINFO_NAME_LEN := by decide
    omega
  · intro hlt
    rwa [List.take_of_length_le (by omega)] at hheld

theorem recordFullpath_bytes (field : ℕ → Byte) {path : List Char}
    (h : Holds fullpath 0 (bytes path)) :
    Holds (recordFullpath field fullpath) 0 (bytes (path.take 127)) := by
  have hheld := recordFullpath_holds field h
  rwa [bytes, ← List.map_take] at hheld

/-- The file that is opened is the first readable one, and the field names it; or there is none
to open. -/
def Recorded (fs : Files) (field : ℕ → Byte) : Option (CString Byte) →
    Option ((ℕ → Byte) × ℕ) → Prop :=
  Option.Rel fun p r =>
    openLib fs p = some r.2 ∧ Holds (recordFullpath field r.1) 0 p.chars

/-- Always the first readable file is opened, and its path is in the caller's buffer. The field
names it just when the path has at most 127 characters. -/
theorem openLibrary_recorded_iff (fs : Files) (ldpaths sopaths : List (CString Byte))
    (field fullpath : ℕ → Byte) (hname : name.chars.length ≤ 256) :
    Finds fs (firstReadable fs name ldpaths sopaths)
      (openLibrary fs ldpaths sopaths (some name) fullpath) ∧
    (Recorded fs field (firstReadable fs name ldpaths sopaths)
        (openLibrary fs ldpaths sopaths (some name) fullpath) ↔
      ∀ p ∈ firstReadable fs name ldpaths sopaths, p.chars.length ≤ 127) := by
  have hfinds := openLibrary_finds fs ldpaths sopaths fullpath hname
  refine ⟨hfinds, ?_⟩
  generalize openLibrary fs ldpaths sopaths (some name) fullpath = r at hfinds ⊢
  generalize firstReadable fs name ldpaths sopaths = p at hfinds ⊢
  cases hfinds with
  | none => exact iff_of_true .none fun p hp => by cases hp
  | some h =>
    constructor
    · intro hr p hp
      cases hp
      cases hr with
      | some hr => exact Nat.le_of_lt_succ ((recordFullpath_iff field h.2).mp hr.2)
    · intro hlen
      exact .some ⟨h.1, (recordFullpath_iff field h.2).mpr (Nat.lt_succ_of_le (hlen _ rfl))⟩

def shortName : CString Byte := ⟨[108], by decide⟩

def directory (n : ℕ) : CString Byte where
  chars := List.replicate n 100
  nonzero := fun h => absurd (List.eq_of_mem_replicate h) (by decide)

def oneFile (n : ℕ) : Files where
  regular p := p.chars = (join (directory n) shortName).chars
  openRead _ := some 3
  dirname p := p
  realpath _ := none
  fnmatch _ _ := false

theorem join_length (n : ℕ) : (join (directory n) shortName).chars.length = n + 2 := by
  rw [join, List.length_append, directory, List.length_replicate]
  rfl

theorem oneFile_first {n : ℕ} (hn : n < 510) :
    firstReadable (oneFile n) shortName [directory n] [] =
      some (join (directory n) shortName) := by
  have hopen : openLib (oneFile n) (join (directory n) shortName) = some 3 :=
    if_pos (decide_eq_true rfl)
  have hcandidates : candidates (oneFile n) shortName [directory n] [] =
      [join (directory n) shortName] := by
    have hfits : (join (directory n) shortName).chars.length < 512 := by
      rw [join_length]
      omega
    rw [candidates, List.flatMap_singleton, inPath, if_pos hfits]
    rfl
  rw [firstReadable, hcandidates, List.find?_cons_of_pos (by rw [hopen]; rfl)]

theorem short_path_recorded :
    Recorded (oneFile 4) (fun _ => 0) (some (join (directory 4) shortName))
      (openLibrary (oneFile 4) [directory 4] [] (some shortName) fun _ => 0) := by
  have hiff := (openLibrary_recorded_iff (oneFile 4) [directory 4] [] (fun _ => 0) (fun _ => 0)
    (show shortName.chars.length ≤ 256 by decide)).2
  rw [oneFile_first (by decide)] at hiff
  exact hiff.mpr fun p hp => by cases hp; decide

/-- The library in a directory of 126 characters: the field has all of its path but the last
character, which is all of its name. -/
theorem long_path_cut : ∃ r,
    openLibrary (oneFile 126) [directory 126] [] (some shortName) (fun _ => 0) = some r ∧
      Holds r.1 0 (join (directory 126) shortName).chars ∧
      Holds (recordFullpath (fun _ => 0) r.1) 0 (List.replicate 126 100 ++ [47]) ∧
      ¬ Recorded (oneFile 126) (fun _ => 0) (some (join (directory 126) shortName)) (some r) := by
  have hfinds := openLibrary_finds (oneFile 126) [directory 126] [] (fun _ => 0)
    (show shortName.chars.length ≤ 256 by decide)
  rw [oneFile_first (by decide)] at hfinds
  cases hr : openLibrary (oneFile 126) [directory 126] [] (some shortName) fun _ => 0 with
  | none => rw [hr] at hfinds; cases hfinds
  | some r =>
    rw [hr] at hfinds
    cases hfinds with
    | some h =>
      have hcut : (join (directory 126) shortName).chars.take (SOINFO_NAME_LEN - 1) =
          List.replicate 126 100 ++ [47] := by
        have hparts : (join (directory 126) shortName).chars =
            (List.replicate 126 100 ++ [47]) ++ [108] := by
          rw [List.append_assoc]
          rfl
        have hlen : (List.replicate 126 (100 : Byte) ++ [47]).length = SOINFO_NAME_LEN - 1 := by
          rw [List.length_append, List.length_replicate]
          rfl
        rw [hparts, List.take_left' hlen]
      refine ⟨r, rfl, h.2, hcut ▸ recordFullpath_holds _ h.2, fun hrec => ?_⟩
      cases hrec with
      | some hrec =>
        have hlt := (recordFullpath_iff _ h.2).mp hrec.2
        rw [join_length] at hlt
        exact absurd hlt (by decide)

end Bionic.OpenLibrary
