import BionicTranslation.OverrideMap
import BionicTranslation.Splitting

/-!
# The configuration files

A line of a configuration file is a comment, or names a library and what to open in its place.
The files are read line by line, in the order in which the directories list them, and each pair
goes to the end of the override map. The line number and the index into the map are an `int`
each and natural numbers here, so no file has 2^31 lines and the map no 2^31 entries.
-/

set_option autoImplicit false

namespace Bionic.ConfigFiles
open Bionic.Records Bionic.OverrideMap Bionic.Splitting

inductive Stop where
  | outOfFuel
  | outOfBounds
  | exited (message : String)
  deriving DecidableEq, Repr

/-- The entries of a directory in the order of `readdir`, the content of a file, and the text
for the error if it cannot be opened. -/
structure Files where
  opendir : Name → Option (List Name)
  fopen : Name → Option (List Char)
  strerror : Name → String

def isNewline (ch : Char) : Bool := ch = '\n'

def isSpace (ch : Char) : Bool :=
  ch = ' ' || ch = '\t' || ch = '\n' || ch = '\x0b' || ch = '\x0c' || ch = '\r'

def getline : List Char → List Char × List Char
  | [] => ([], [])
  | ch :: cfg =>
    if isNewline ch then ([ch], cfg) else (ch :: (getline cfg).1, (getline cfg).2)

def scanWord (s : List Char) : Option (Name × List Char) :=
  let s := s.dropWhile isSpace
  if s = [] then none else some (s.takeWhile (!isSpace ·), s.dropWhile (!isSpace ·))

/-- `sscanf(line, "%ms %ms", &from, &to)`, if it returns 2. The string ends at the first zero. -/
def scanPair (line : List Char) : Option Override :=
  (scanWord (line.takeWhile (· ≠ '\x00'))).bind fun r =>
    (scanWord (r.2.dropWhile isSpace)).map fun r' => (r.1, r'.1)

def processCfgLine (path : Name) (line : List Char) (linenum : ℕ) (m : Map) : Except Stop Map :=
  if line.head? = some '#' ∨ line.head? = some '\n' then .ok m
  else (scanPair line).elim
    (.error (.exited s!"error reading cfg: {String.ofList path}:{linenum}\n"))
    fun o => (libOverrideMapAppend m o).elim (.error .outOfBounds) .ok

def lineLoop (path : Name) : ℕ → List Char → ℕ → Map → Except Stop Map
  | 0, _, _, _ => .error .outOfFuel
  | fuel + 1, cfg, linenum, m =>
    if (getline cfg).1 = [] then .ok m
    else do
      let m ← processCfgLine path (getline cfg).1 linenum m
      lineLoop path fuel (getline cfg).2 (linenum + 1) m

def readCfgFile (fuel : ℕ) (fs : Files) (path : Name) (m : Map) : Except Stop Map :=
  (fs.fopen path).elim
    (.error (.exited s!"failed to open {String.ofList path} ({fs.strerror path})\n"))
    fun cfg => lineLoop path fuel cfg 1 m

def entryLoop (fuel : ℕ) (fs : Files) (cfgDirPath : Name) : List Name → Map → Except Stop Map
  | [], m => .ok m
  | entry :: entries, m =>
    if entry = ['.'] ∨ entry = ['.', '.'] then entryLoop fuel fs cfgDirPath entries m
    else do
      let m ← readCfgFile fuel fs (cfgDirPath ++ '/' :: entry) m
      entryLoop fuel fs cfgDirPath entries m

def readCfgDir (fuel : ℕ) (fs : Files) (cfgDirPath : Name) (m : Map) : Except Stop Map :=
  (fs.opendir cfgDirPath).elim (.ok m) fun entries => entryLoop fuel fs cfgDirPath entries m

def readCfgDirs (fuel : ℕ) (fs : Files) : List Name → Map → Except Stop Map
  | [], m => .ok m
  | dir :: dirs, m => do
    let m ← readCfgDir fuel fs dir m
    readCfgDirs fuel fs dirs m

noncomputable def words (line : List Char) : List Name :=
  pieces isSpace (line.takeWhile (· ≠ '\x00'))

/-- A line that is not empty is a comment or has two words at least. -/
def WellFormed (cfg : List Char) : Prop :=
  ∀ line ∈ pieces isNewline cfg, line.head? ≠ some '#' → ∃ a b r, words line = a :: b :: r

noncomputable def pairOf (line : List Char) : Option Override :=
  if line.head? = some '#' then none
  else (words line)[0]?.bind fun a => (words line)[1]?.map fun b => (a, b)

noncomputable def pairsOf (cfg : List Char) : List Override :=
  (pieces isNewline cfg).filterMap pairOf

def filesIn (dir : Name) (entries : List Name) : List Name :=
  (entries.filter fun entry => entry ≠ ['.'] ∧ entry ≠ ['.', '.']).map fun entry =>
    dir ++ '/' :: entry

def filesOf (fs : Files) (dirs : List Name) : List Name :=
  dirs.flatMap fun dir => filesIn dir ((fs.opendir dir).getD [])

noncomputable def pairsIn (fs : Files) (paths : List Name) : List Override :=
  paths.flatMap fun path => pairsOf ((fs.fopen path).getD [])

/-- A file that can be opened and has lines of this kind only. -/
def Readable (fs : Files) (path : Name) : Prop := ∃ cfg, fs.fopen path = some cfg ∧ WellFormed cfg

def Reads (step : Map → Except Stop Map) (pairs : List Override) : Prop :=
  ∀ m before, Lists m before → ∃ m', step m = .ok m' ∧ Lists m' (before ++ pairs)

variable {step next : Map → Except Stop Map} {pairs more : List Override} {s cfg : List Char}
  {path : Name} {fs : Files} {fuel linenum : ℕ}

theorem reads_nothing : Reads .ok [] :=
  fun m before h => ⟨m, rfl, by rwa [List.append_nil]⟩

theorem Reads.bind (h : Reads step pairs) (hnext : Reads next more) :
    Reads (fun m => step m >>= next) (pairs ++ more) := by
  intro m before hm
  obtain ⟨m', hrun, hm'⟩ := h m before hm
  obtain ⟨m'', hrun', hm''⟩ := hnext m' _ hm'
  refine ⟨m'', ?_, by rwa [← List.append_assoc]⟩
  change step m >>= next = _
  rw [hrun]
  exact hrun'

theorem reads_append (o : Override) :
    Reads (fun m => (libOverrideMapAppend m o).elim (.error .outOfBounds) .ok) [o] := by
  intro m before h
  obtain ⟨m', hm', hlists⟩ := h.append o
  refine ⟨m', ?_, hlists⟩
  change (libOverrideMapAppend m o).elim _ _ = _
  rw [hm']
  rfl

theorem scanWord_eq {word : Name} {rest : List Name} (h : pieces isSpace s = word :: rest) :
    ∃ r, scanWord s = some (word, r) ∧ pieces isSpace r = rest := by
  rw [scanWord]
  rw [← pieces_dropWhile] at h
  have hhead := List.head?_dropWhile_not isSpace s
  cases hs : s.dropWhile isSpace with
  | nil =>
    rw [hs, pieces_nil] at h
    cases h
  | cons ch t =>
    rw [hs] at h hhead
    have hch : isSpace ch = false := Bool.eq_false_of_not_eq_true (by simpa using hhead)
    rw [pieces_cons t hch] at h
    obtain ⟨rfl, hrest⟩ := List.cons.inj h
    exact ⟨_, if_neg (List.cons_ne_nil ch t), hrest⟩

theorem scanPair_eq {line : List Char} {a b : Name} {r : List Name}
    (h : words line = a :: b :: r) : scanPair line = some (a, b) := by
  obtain ⟨t, hfrom, ht⟩ := scanWord_eq h
  rw [← pieces_dropWhile] at ht
  obtain ⟨t', hto, -⟩ := scanWord_eq ht
  rw [scanPair, hfrom, Option.bind_some, hto]
  rfl

theorem words_newline (s : List Char) : words (s ++ ['\n']) = words s := by
  rw [words, words, List.takeWhile_append]
  split_ifs with hlen
  · have hs : s.takeWhile (· ≠ '\x00') = s := (List.takeWhile_prefix _).eq_of_length hlen
    rw [hs]
    exact pieces_concat_sep s (by decide)
  · rfl

theorem getline_last (hs : ∀ ch ∈ s, isNewline ch = false) : getline s = (s, []) := by
  induction s with
  | nil => rfl
  | cons ch s ih =>
    obtain ⟨hch, hs⟩ := List.forall_mem_cons.mp hs
    rw [getline, hch, ih hs]
    rfl

theorem getline_next (hs : ∀ ch ∈ s, isNewline ch = false) (r : List Char) :
    getline (s ++ '\n' :: r) = (s ++ ['\n'], r) := by
  induction s with
  | nil => rfl
  | cons ch s ih =>
    obtain ⟨hch, hs⟩ := List.forall_mem_cons.mp hs
    rw [List.cons_append, getline, hch, ih hs]
    rfl

theorem processCfgLine_reads {line : List Char} (path : Name) (linenum : ℕ)
    (hs : ∀ ch ∈ s, isNewline ch = false) (hline : line = s ∨ line = s ++ ['\n'])
    (hne : line ≠ []) (hwell : WellFormed s) :
    Reads (processCfgLine path line linenum) (pairsOf s) := by
  rw [WellFormed, pieces_of_clean hs] at hwell
  rw [pairsOf, pieces_of_clean hs]
  cases s with
  | nil =>
    obtain rfl : line = ['\n'] := hline.resolve_left hne
    exact reads_nothing
  | cons ch t =>
    have hwords : words line = words (ch :: t) := by
      rcases hline with rfl | rfl
      · rfl
      · exact words_newline (ch :: t)
    have hhead : line.head? = some ch := by
      rcases hline with rfl | rfl <;> rfl
    have hnl : ch ≠ '\n' := of_decide_eq_false (hs ch List.mem_cons_self)
    change Reads _ (([ch :: t]).filterMap pairOf)
    by_cases hcomment : ch = '#'
    · subst hcomment
      have hskip : processCfgLine path line linenum = .ok := by
        ext1 m
        exact if_pos (.inl hhead)
      have hpair : pairOf ('#' :: t) = none := if_pos rfl
      rw [hskip, List.filterMap_cons_none hpair]
      exact reads_nothing
    · have hne : (ch :: t).head? ≠ some '#' := fun h => hcomment (Option.some.inj h)
      obtain ⟨a, b, r, hab⟩ := hwell (ch :: t) List.mem_cons_self hne
      have hstep : processCfgLine path line linenum =
          fun m => (libOverrideMapAppend m (a, b)).elim (.error .outOfBounds) .ok := by
        ext1 m
        have hgo : ¬ (line.head? = some '#' ∨ line.head? = some '\n') := by
          rw [hhead]
          rintro (h | h)
          · exact hcomment (Option.some.inj h)
          · exact hnl (Option.some.inj h)
        rw [processCfgLine, if_neg hgo, scanPair_eq (hwords.trans hab)]
        rfl
      have hpair : pairOf (ch :: t) = some (a, b) := by
        rw [pairOf, if_neg hne, hab]
        rfl
      rw [hstep, List.filterMap_cons_some hpair]
      exact reads_append (a, b)

theorem lineLoop_nil (path : Name) (fuel linenum : ℕ) :
    Reads (lineLoop path (fuel + 1) [] linenum) [] := reads_nothing

theorem lineLoop_cons (path : Name) (fuel linenum : ℕ) (h : (getline cfg).1 ≠ []) :
    lineLoop path (fuel + 1) cfg linenum = fun m =>
      processCfgLine path (getline cfg).1 linenum m >>=
        lineLoop path fuel (getline cfg).2 (linenum + 1) := by
  ext1 m
  exact if_neg h

/-- The induction is on the lines of the file. -/
theorem lineLoop_reads {segs : List (List Char)} (path : Name) (linenum : ℕ)
    (hsplit : Split isNewline cfg segs) (hwell : WellFormed cfg) (hf : cfg.length + 2 ≤ fuel) :
    Reads (lineLoop path fuel cfg linenum) (pairsOf cfg) := by
  induction hsplit generalizing fuel linenum with
  | @last s hs =>
    obtain ⟨fuel, rfl⟩ := Nat.exists_eq_add_of_le' hf
    rw [← Nat.add_assoc]
    have hline := getline_last hs
    cases s with
    | nil =>
      rw [pairsOf, pieces_nil]
      exact lineLoop_nil path _ linenum
    | cons ch s =>
      have hne : ch :: s ≠ [] := List.cons_ne_nil ch s
      rw [lineLoop_cons path _ linenum (by rwa [hline]), hline, ← List.append_nil (pairsOf _)]
      exact (processCfgLine_reads path linenum hs (.inl rfl) hne hwell).bind
        (lineLoop_nil path _ _)
  | @next s r d segs hs hd hr ih =>
    rw [List.length_append, List.length_cons] at hf
    obtain ⟨fuel, rfl⟩ := Nat.exists_eq_add_of_le' (Nat.le_of_add_left_le hf)
    obtain rfl : d = '\n' := of_decide_eq_true hd
    have hline := getline_next hs r
    have hne : s ++ ['\n'] ≠ [] := List.append_ne_nil_of_right_ne_nil s (List.cons_ne_nil _ _)
    have hpieces := pieces_append s r hd
    rw [WellFormed, hpieces, List.forall_mem_append] at hwell
    rw [lineLoop_cons path _ linenum (by rwa [hline]), hline, pairsOf, hpieces,
      List.filterMap_append]
    exact (processCfgLine_reads path linenum hs (.inr rfl) hne hwell.1).bind
      (ih (linenum + 1) hwell.2 (by omega))

def Fuelled (fuel : ℕ) (fs : Files) (path : Name) : Prop :=
  ((fs.fopen path).getD []).length + 2 ≤ fuel

theorem readCfgFile_reads (h : Readable fs path) (hf : Fuelled fuel fs path) :
    Reads (readCfgFile fuel fs path) (pairsOf ((fs.fopen path).getD [])) := by
  obtain ⟨cfg, hopen, hwell⟩ := h
  have hstep : readCfgFile fuel fs path = lineLoop path fuel cfg 1 := by
    ext1 m
    rw [readCfgFile, hopen]
    rfl
  rw [Fuelled, hopen, Option.getD_some] at hf
  rw [hstep, hopen, Option.getD_some]
  exact lineLoop_reads path 1 (split_splitOnP isNewline cfg) hwell hf

theorem entryLoop_reads (dir : Name) (entries : List Name)
    (h : ∀ path ∈ filesIn dir entries, Readable fs path ∧ Fuelled fuel fs path) :
    Reads (entryLoop fuel fs dir entries) (pairsIn fs (filesIn dir entries)) := by
  induction entries with
  | nil => exact reads_nothing
  | cons entry entries ih =>
    by_cases hdot : entry = ['.'] ∨ entry = ['.', '.']
    · have hskip : entryLoop fuel fs dir (entry :: entries) = entryLoop fuel fs dir entries := by
        ext1 m
        exact if_pos hdot
      have hfiles : filesIn dir (entry :: entries) = filesIn dir entries := by
        rw [filesIn, List.filter_cons_of_neg (by simpa [imp_iff_not_or] using hdot)]
        rfl
      rw [hfiles] at h
      rw [hskip, hfiles]
      exact ih h
    · have hstep : entryLoop fuel fs dir (entry :: entries) = fun m =>
          readCfgFile fuel fs (dir ++ '/' :: entry) m >>= entryLoop fuel fs dir entries := by
        ext1 m
        exact if_neg hdot
      have hfiles : filesIn dir (entry :: entries) =
          (dir ++ '/' :: entry) :: filesIn dir entries := by
        rw [filesIn, List.filter_cons_of_pos (by simpa [not_or] using hdot)]
        rfl
      rw [hfiles, List.forall_mem_cons] at h
      rw [hstep, hfiles, pairsIn, List.flatMap_cons]
      exact (readCfgFile_reads h.1.1 h.1.2).bind (ih h.2)

theorem readCfgDir_reads (dir : Name)
    (h : ∀ path ∈ filesIn dir ((fs.opendir dir).getD []), Readable fs path ∧ Fuelled fuel fs path) :
    Reads (readCfgDir fuel fs dir) (pairsIn fs (filesIn dir ((fs.opendir dir).getD []))) := by
  cases hopen : fs.opendir dir with
  | none =>
    have hstep : readCfgDir fuel fs dir = .ok := by
      ext1 m
      rw [readCfgDir, hopen]
      rfl
    rw [hstep]
    exact reads_nothing
  | some entries =>
    have hstep : readCfgDir fuel fs dir = entryLoop fuel fs dir entries := by
      ext1 m
      rw [readCfgDir, hopen]
      rfl
    rw [hopen] at h
    rw [hstep]
    exact entryLoop_reads dir entries h

theorem readCfgDirs_reads (dirs : List Name)
    (h : ∀ path ∈ filesOf fs dirs, Readable fs path ∧ Fuelled fuel fs path) :
    Reads (readCfgDirs fuel fs dirs) (pairsIn fs (filesOf fs dirs)) := by
  induction dirs with
  | nil => exact reads_nothing
  | cons dir dirs ih =>
    rw [filesOf, List.flatMap_cons, List.forall_mem_append] at h
    rw [filesOf, List.flatMap_cons, pairsIn, List.flatMap_append]
    exact (readCfgDir_reads dir h.1).bind (ih h.2)

theorem exists_fuel (fs : Files) (paths : List Name) :
    ∃ k, ∀ fuel, k ≤ fuel → ∀ path ∈ paths, Fuelled fuel fs path := by
  induction paths with
  | nil => exact ⟨0, fun _ _ _ h => by cases h⟩
  | cons path paths ih =>
    obtain ⟨k, hk⟩ := ih
    refine ⟨max k (((fs.fopen path).getD []).length + 2), fun fuel hf => ?_⟩
    rw [List.forall_mem_cons]
    exact ⟨(Nat.le_max_right _ _).trans hf, hk fuel ((Nat.le_max_left _ _).trans hf)⟩

/-- The map has the pairs of all files in the order in which they were read, with every store in
its block, and a name is overridden once, by the first pair for it. -/
theorem overrides_read (fs : Files) (dirs : List Name)
    (h : ∀ path ∈ filesOf fs dirs, Readable fs path) :
    ∃ k, ∀ fuel, k ≤ fuel → ∃ m, readCfgDirs fuel fs dirs .empty = .ok m ∧
      Lists m (pairsIn fs (filesOf fs dirs)) ∧
      ∀ name, findName m name = some (resolve (pairsIn fs (filesOf fs dirs)) name) ∧
        resolve (pairsIn fs (filesOf fs dirs)) name =
          firstOverride (pairsIn fs (filesOf fs dirs)) (stripPrefix name) := by
  obtain ⟨k, hk⟩ := exists_fuel fs (filesOf fs dirs)
  refine ⟨k, fun fuel hf => ?_⟩
  have hreads := readCfgDirs_reads dirs fun path hpath => ⟨h path hpath, hk fuel hf path hpath⟩
  obtain ⟨m, hrun, hlists⟩ := hreads .empty [] .null
  refine ⟨m, hrun, hlists, fun name => ⟨?_, resolve_eq _ name⟩⟩
  rw [hlists.findName, resolve_eq]
  rfl

/-- A directory with one file: a comment, an empty line, what a library is overridden with and
an override for that, and more pairs than the first block holds. -/
def oneFile : Files where
  opendir dir := if dir = ['d'] then some [['.'], ['.', '.'], ['c']] else none
  fopen path := if path = "d/c".toList then
    some "#c\nm n\n\nn  k x\na 1\nb 1\nc 1\nd 1\ne 1\nf 1\ng 1".toList else none
  strerror _ := "No such file or directory"

def letters : List Char := ['a', 'b', 'c', 'd', 'e', 'f', 'g']

def letterLines : List (List Char) := letters.map fun x => [x, ' ', '1']

def letterPairs : List Override := letters.map fun x => ([x], ['1'])

theorem oneFile_pieces :
    pieces isNewline "#c\nm n\n\nn  k x\na 1\nb 1\nc 1\nd 1\ne 1\nf 1\ng 1".toList =
      "#c".toList :: "m n".toList :: "n  k x".toList :: letterLines := by
  rw [pieces]
  rfl

theorem mn_words : words "m n".toList = [['m'], ['n']] := by
  rw [words, pieces]
  rfl

theorem nk_words : words "n  k x".toList = [['n'], ['k'], ['x']] := by
  rw [words, pieces]
  rfl

theorem letters_plain : ∀ x ∈ letters, isSpace x = false ∧ x ≠ '\x00' ∧ x ≠ '#' := by
  simp [letters, isSpace]

theorem letter_words {x : Char} (hx : x ∈ letters) : words [x, ' ', '1'] = [[x], ['1']] := by
  obtain ⟨hspace, hzero, -⟩ := letters_plain x hx
  have htake : [x, ' ', '1'].takeWhile (· ≠ '\x00') = [x] ++ ' ' :: ['1'] := by simp [hzero]
  have hfirst : pieces isSpace [x] = [[x]] :=
    pieces_of_clean (List.forall_mem_singleton.mpr hspace)
  have hlast : pieces isSpace ['1'] = [['1']] :=
    pieces_of_clean (List.forall_mem_singleton.mpr rfl)
  rw [words, htake, pieces_append [x] ['1'] rfl, hfirst, hlast]
  rfl

theorem oneFile_readable : Readable oneFile "d/c".toList := by
  refine ⟨_, rfl, ?_⟩
  rw [WellFormed, oneFile_pieces]
  intro line hline hcomment
  rcases List.mem_cons.mp hline with rfl | hline
  · exact absurd rfl hcomment
  rcases List.mem_cons.mp hline with rfl | hline
  · exact ⟨_, _, _, mn_words⟩
  rcases List.mem_cons.mp hline with rfl | hline
  · exact ⟨_, _, _, nk_words⟩
  · obtain ⟨x, hx, rfl⟩ := List.mem_map.mp hline
    exact ⟨_, _, _, letter_words hx⟩

theorem pairOf_words {line : List Char} {a b : Name} {r : List Name}
    (h : line.head? ≠ some '#') (hw : words line = a :: b :: r) : pairOf line = some (a, b) := by
  rw [pairOf, if_neg h, hw]
  rfl

theorem oneFile_pairs : pairsIn oneFile ["d/c".toList] =
    (['m'], ['n']) :: (['n'], ['k']) :: letterPairs := by
  have hletters : letterLines.filterMap pairOf = letterPairs := by
    rw [letterLines, letterPairs, List.filterMap_map, ← List.filterMap_eq_map]
    apply List.filterMap_congr
    intro x hx
    exact pairOf_words (by simpa using (letters_plain x hx).2.2) (letter_words hx)
  have hcomment : pairOf "#c".toList = none := rfl
  have hpairs : pairsIn oneFile ["d/c".toList] = pairsOf
      "#c\nm n\n\nn  k x\na 1\nb 1\nc 1\nd 1\ne 1\nf 1\ng 1".toList := List.append_nil _
  rw [hpairs, pairsOf, oneFile_pieces, List.filterMap_cons_none hcomment,
    List.filterMap_cons_some (pairOf_words (by decide) mn_words),
    List.filterMap_cons_some (pairOf_words (by decide) nk_words), hletters]

/-- One name is overridden once, and nine pairs have made the block grow. -/
theorem oneFile_read : ∃ k, ∀ fuel, k ≤ fuel → ∃ m,
    readCfgDirs fuel oneFile [['e'], ['d']] .empty = .ok m ∧
      Lists m ((['m'], ['n']) :: (['n'], ['k']) :: letterPairs) ∧
      findName m "/system/lib/m".toList = some ['n'] := by
  obtain ⟨k, hk⟩ := overrides_read oneFile [['e'], ['d']] fun path hpath => by
    obtain rfl : path = "d/c".toList := List.mem_singleton.mp hpath
    exact oneFile_readable
  have hfiles : filesOf oneFile [['e'], ['d']] = ["d/c".toList] := rfl
  rw [hfiles, oneFile_pairs] at hk
  refine ⟨k, fun fuel hf => ?_⟩
  obtain ⟨m, hrun, hlists, hnames⟩ := hk fuel hf
  refine ⟨m, hrun, hlists, (hnames "/system/lib/m".toList).1.trans ?_⟩
  decide

end Bionic.ConfigFiles
