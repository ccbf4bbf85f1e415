import BionicTranslation.Substrings
import BionicTranslation.Traces
import BionicTranslation.WrapperNames

/-!
# The status that a process sees of itself

`bionic_open` and `bionic_fopen` go to the file system with another path for the fonts. For
`/proc/self/status` `bionic_open` gives out a stream over an array that it fills once, and out
of which it takes the pid of the tracer. A path is the characters before its terminator.
-/

set_option autoImplicit false

namespace Bionic.StatusHiding
open Bionic.CStrings Bionic.WrapperNames Bionic.Substrings Bionic.Traces

abbrev Path := List Byte
abbrev Word := BitVec 32

def fontsXml : Path := bytes "/system/etc/fonts.xml".toList
def etcFontsXml : Path := bytes "/etc/fonts.xml".toList
def fonts : Path := bytes "/fonts/".toList
def truetype : Path := bytes "/usr/share/fonts/truetype".toList
def system : Path := bytes "/system/".toList
def data : Path := bytes "/data/".toList
def statusPath : Path := bytes "/proc/self/status".toList
def tracerPid : List Byte := bytes "TracerPid:\t".toList
def slash : Byte := 47
def newline : Byte := 10

def startsWith (string substring : List Byte) : Bool := substring.isPrefixOf string

def strchr (s : List Byte) (ch : Byte) : Option (List Byte) :=
  let found := s.dropWhile (· ≠ ch)
  if found = [] then none else some found

def sprintf (size : ℕ) (chars : List Byte) : Option Path :=
  if chars.length + 1 ≤ size then some chars else none

def fontPath (path : Path) : Option Path :=
  (strchr (path.drop 1) slash).bind fun oldPath =>
    sprintf (truetype.length + 1 + oldPath.length) (truetype ++ oldPath)

structure Overridden where
  path : Path
  freePath : Bool
  warned : Bool

def warns (path : Path) : Bool := startsWith path system || startsWith path data

def applyPathOverrides (path : Path) : Option Overridden :=
  let path := if path = fontsXml then etcFontsXml else path
  let freePath := startsWith path fonts
  (if freePath then fontPath path else some path).map fun path => ⟨path, freePath, warns path⟩

def STATUS_SIZE : ℕ := 4096

def fieldEnd (status : ℕ → Byte) : ℕ → ℕ → ℕ
  | 0, e => e
  | left + 1, e => if status e ≠ 0 ∧ status e ≠ newline then fieldEnd status left (e + 1) else e

def hideTracer (status : ℕ → Byte) : Option (ℕ → Byte) :=
  (strstr status tracerPid STATUS_SIZE 0).map fun found =>
    found.elim status fun s =>
      let e := fieldEnd status (STATUS_SIZE - s) s
      memmove status s e (STATUS_SIZE - e)

/-- What the C library gives a call: the file behind the path, if `fopen` finds it, and
whether `fmemopen` succeeds. -/
structure Library where
  fopen : Option (List Byte)
  fmemopen : Bool

/-- `assert` ends the process. -/
def fillStatus (lib : Library) (status : ℕ → Byte) : Option (ℕ → Byte) :=
  lib.fopen.bind fun file =>
    let ret := (file.take STATUS_SIZE).length
    if ret ≤ STATUS_SIZE then
      (hideTracer (write status 0 (file.take STATUS_SIZE))).bind fun status =>
        if lib.fmemopen then some status else none
    else none

/-- `status` is the memory from the start of the array on; `live` counts the paths that
`apply_path_overrides` has allocated and that are not freed. -/
structure State where
  faked : Bool
  status : ℕ → Byte
  live : ℕ

inductive Request where
  | bionicOpen (path : Path) (oflag mode : Word) (lib : Library)
  | bionicFopen (path : Path) (mode : List Byte)

/-- What a call goes to: the stream over the array, whose `fileno` it returns, or `open` or
`fopen` of the host. -/
inductive Event where
  | stream (contents : List Byte)
  | open_ (warned : Bool) (path : Path) (oflag : Word) (mode : Option Word)
  | fopen (warned : Bool) (path : Path) (mode : List Byte)

def O_CREAT : Word := 0o100

/-- It includes `O_DIRECTORY`, which has another value on ARM. -/
def O_TMPFILE (arm : Bool) : Word := 0o20000000 ||| if arm then 0o40000 else 0o200000

def openNeedsMode (arm : Bool) (flags : Word) : Bool :=
  flags &&& O_CREAT != 0 || flags &&& O_TMPFILE arm != 0

def allocate (s : State) (freePath : Bool) : State := { s with live := s.live + freePath.toNat }

def free (s : State) (freePath : Bool) : State := { s with live := s.live - freePath.toNat }

def stream (s : State) : Event := .stream (contents s.status STATUS_SIZE)

def bionicOpen (arm : Bool) (s : State) (path : Path) (oflag mode : Word) (lib : Library) :
    Option (State × Option Event) :=
  (applyPathOverrides path).bind fun o =>
    let s := allocate s o.freePath
    if o.path = statusPath then
      if s.faked then some (s, some (stream s))
      else (fillStatus lib s.status).map fun status =>
        let s := { s with faked := true, status := status }
        (s, some (stream s))
    else
      let mode := if openNeedsMode arm oflag then some mode else none
      some (free s o.freePath, some (.open_ o.warned o.path oflag mode))

def bionicFopen (s : State) (path : Path) (mode : List Byte) : Option (State × Option Event) :=
  (applyPathOverrides path).map fun o =>
    (free (allocate s o.freePath) o.freePath, some (.fopen o.warned o.path mode))

def step (arm : Bool) (s : State) : Request → Option (State × Option Event)
  | .bionicOpen path oflag mode lib => bionicOpen arm s path oflag mode lib
  | .bionicFopen path mode => bionicFopen s path mode

/-- The array is zero; behind it stands whatever the program has there. -/
def start (beyond : ℕ → Byte) : State where
  faked := false
  status := fun i => if i < STATUS_SIZE then 0 else beyond i
  live := 0

def override (path : Path) : Path :=
  if path = fontsXml then etcFontsXml
  else if fonts <+: path then truetype ++ path.drop 6
  else path

variable {path : Path}

theorem fontPath_eq (h : fonts <+: path) : fontPath path = some (truetype ++ path.drop 6) := by
  obtain ⟨r, rfl⟩ := h
  have hslash : strchr ((fonts ++ r).drop 1) slash = some ((fonts ++ r).drop 6) := rfl
  rw [fontPath, hslash, Option.bind_some, sprintf, if_pos]
  rw [List.length_append]
  omega

theorem startsWith_iff (string substring : List Byte) :
    startsWith string substring = true ↔ substring <+: string := List.isPrefixOf_iff_prefix

theorem applyPathOverrides_eq (path : Path) : applyPathOverrides path =
    some ⟨override path, startsWith path fonts, warns (override path)⟩ := by
  by_cases hxml : path = fontsXml
  · subst hxml
    rfl
  · rw [applyPathOverrides, override, if_neg hxml, if_neg hxml]
    by_cases hfonts : fonts <+: path
    · have hstarts := (startsWith_iff path fonts).mpr hfonts
      simp only [hstarts, if_true, if_pos hfonts, fontPath_eq hfonts, Option.map_some]
    · have hstarts : startsWith path fonts = false := by
        rwa [← Bool.not_eq_true, startsWith_iff]
      simp only [hstarts, if_neg hfonts, Bool.false_eq_true, if_false, Option.map_some]

theorem override_status : override path = statusPath ↔ path = statusPath := by
  have hxml : etcFontsXml ≠ statusPath := by decide
  have hxml' : fontsXml ≠ statusPath := by decide
  have htruetype : ¬ truetype <+: statusPath := by decide
  have hfonts : ¬ fonts <+: statusPath := by decide
  unfold override
  split_ifs with h h'
  · rw [h]
    exact iff_of_false hxml hxml'
  · refine iff_of_false (fun he => htruetype ⟨_, he⟩) ?_
    rintro rfl
    exact hfonts h'
  · rfl

section array
variable {m : ℕ → Byte} {s a b file : List Byte} {e left : ℕ}

def inLine (x : Byte) : Bool := x ≠ newline

theorem fieldEnd_eq (h : Holds m e s) (hleft : s.length ≤ left) :
    fieldEnd m left e = e + (s.takeWhile inLine).length := by
  induction s generalizing e left with
  | nil =>
    have hends : m e = 0 := h.ends
    cases left with
    | zero => rfl
    | succ left =>
      rw [fieldEnd, if_neg (fun hx => hx.1 hends)]
      rfl
  | cons x s ih =>
    obtain ⟨left, rfl⟩ := Nat.exists_eq_add_of_le' (Nat.one_le_of_lt hleft)
    rw [fieldEnd, List.takeWhile_cons]
    have hx : m e = x := h.chars.1
    by_cases hline : x = newline
    · rw [if_neg (fun hc => hc.2 (hx.trans hline)), if_neg (by simp [inLine, hline])]
      rfl
    · rw [if_pos ⟨h.head_ne, by rwa [hx]⟩, if_pos (by simp [inLine, hline]),
        ih h.tail (Nat.le_of_succ_le_succ hleft), List.length_cons]
      omega

/-- The status without the first field of the tracer. -/
def hidden (file : List Byte) : List Byte :=
  match breakAt tracerPid file with
  | none => file
  | some (b, a) => b ++ a.dropWhile inLine

def padded (file : List Byte) : List Byte :=
  file ++ List.replicate (STATUS_SIZE - file.length) 0

/-- What a stream over the array shows: as many characters as the field has are twice there, at
the end. -/
def shown (file : List Byte) : List Byte :=
  hidden file ++ List.replicate (STATUS_SIZE - file.length) 0 ++
    (padded file).drop (STATUS_SIZE - (file.length - (hidden file).length))

theorem padded_length (h : file.length < STATUS_SIZE) : (padded file).length = STATUS_SIZE := by
  rw [padded, List.length_append, List.length_replicate]
  omega

theorem shown_none (h : breakAt tracerPid file = none) (hfile : file.length < STATUS_SIZE) :
    shown file = padded file := by
  have hhidden : hidden file = file := by rw [hidden, h]
  rw [shown, hhidden, Nat.sub_self, Nat.sub_zero, List.drop_eq_nil_of_le (padded_length hfile).le,
    List.append_nil, padded]

theorem takeWhile_field (a : List Byte) :
    (tracerPid ++ a).takeWhile inLine = tracerPid ++ a.takeWhile inLine := by
  have hline : tracerPid.takeWhile inLine = tracerPid := by decide
  rw [List.takeWhile_append, if_pos (by rw [hline])]

theorem break_field (h : breakAt tracerPid file = some (b, a)) :
    file = b ++ (tracerPid ++ a.takeWhile inLine) ++ a.dropWhile inLine := by
  have hline : a.takeWhile inLine ++ a.dropWhile inLine = a := List.takeWhile_append_dropWhile
  rw [List.append_assoc, List.append_assoc, hline, ← List.append_assoc]
  exact breakAt_append h

theorem removed_length (h : breakAt tracerPid file = some (b, a)) :
    file.length - (hidden file).length = (tracerPid ++ a.takeWhile inLine).length := by
  have hparts := break_field h
  have hhidden : hidden file = b ++ a.dropWhile inLine := by rw [hidden, h]
  rw [hhidden]
  generalize tracerPid ++ a.takeWhile inLine = field at hparts ⊢
  rw [hparts, List.length_append, List.length_append, List.length_append]
  omega

theorem shown_some (h : breakAt tracerPid file = some (b, a)) :
    shown file = (padded file).take b.length ++
      (padded file).drop (b.length + (tracerPid ++ a.takeWhile inLine).length) ++
        (padded file).drop (STATUS_SIZE - (tracerPid ++ a.takeWhile inLine).length) := by
  have hparts := break_field h
  have hremoved := removed_length h
  have hhidden : hidden file = b ++ a.dropWhile inLine := by rw [hidden, h]
  generalize tracerPid ++ a.takeWhile inLine = field at hparts hremoved ⊢
  have hpadded : padded file = b ++ field ++
      (a.dropWhile inLine ++ List.replicate (STATUS_SIZE - file.length) 0) := by
    rw [padded, ← List.append_assoc, ← hparts]
  have htake : (padded file).take b.length = b := by
    rw [hpadded, List.append_assoc, List.take_left]
  have hdrop : (padded file).drop (b.length + field.length) =
      a.dropWhile inLine ++ List.replicate (STATUS_SIZE - file.length) 0 := by
    rw [hpadded, ← List.length_append, List.drop_left]
  rw [shown, hremoved, htake, hdrop, hhidden, List.append_assoc b]

theorem hideTracer_shown (h : Holds m 0 file) (hfile : file.length < STATUS_SIZE)
    (hm : contents m STATUS_SIZE = padded file) :
    ∃ m', hideTracer m = some m' ∧ contents m' STATUS_SIZE = shown file ∧
      ∀ i, STATUS_SIZE ≤ i → m' i = m i := by
  have hstr : strstr m tracerPid STATUS_SIZE 0 =
      some ((breakAt tracerPid file).map fun r => 0 + r.1.length) :=
    strstr_eq (by decide) (by decide) h hfile
  rw [hideTracer, hstr]
  cases hbreak : breakAt tracerPid file with
  | none => exact ⟨m, rfl, by rw [hm, shown_none hbreak hfile], fun i _ => rfl⟩
  | some r =>
    obtain ⟨b, a⟩ := r
    have hfield : Holds m (0 + b.length) (tracerPid ++ a) := by
      apply Holds.drop
      rwa [← List.append_assoc, ← breakAt_append hbreak]
    have hlen : file.length = b.length + (tracerPid ++ a).length := by
      rw [breakAt_append hbreak, List.append_assoc, List.length_append]
    have hline : ((tracerPid ++ a).takeWhile inLine).length ≤ (tracerPid ++ a).length :=
      (List.takeWhile_sublist inLine).length_le
    have hend : fieldEnd m (STATUS_SIZE - (0 + b.length)) (0 + b.length) =
        0 + b.length + ((tracerPid ++ a).takeWhile inLine).length :=
      fieldEnd_eq hfield (by omega)
    have hshown := shown_some hbreak
    rw [takeWhile_field] at hend hline
    generalize (tracerPid ++ a.takeWhile inLine) = field at hend hline hshown
    rw [Nat.zero_add] at hend
    refine ⟨memmove m b.length (b.length + field.length)
      (STATUS_SIZE - (b.length + field.length)), ?_, ?_, ?_⟩
    · simp only [Option.map_some, Option.elim_some, Nat.zero_add, hend]
    · rw [contents_memmove (by omega) (by omega), hm, hshown, Nat.add_sub_cancel_left]
    · intro i hi
      exact memmove_other (Or.inr (by omega))

/-- The file can be read, is text and leaves room for a terminator. -/
structure Library.Works (lib : Library) (file : List Byte) : Prop where
  found : lib.fopen = some file
  fits : file.length < STATUS_SIZE
  text : 0 ∉ file
  streams : lib.fmemopen = true

theorem fillStatus_shown {lib : Library} (h : lib.Works file)
    (hzero : ∀ i < STATUS_SIZE, m i = 0) :
    ∃ m', fillStatus lib m = some m' ∧ contents m' STATUS_SIZE = shown file ∧
      ∀ i, STATUS_SIZE ≤ i → m' i = m i := by
  have htake : file.take STATUS_SIZE = file := List.take_of_length_le h.fits.le
  have hzeros (i : ℕ) (hi : file.length ≤ i) : write m 0 file i = m i :=
    write_above (by rwa [Nat.zero_add])
  have hholds : Holds (write m 0 file) 0 file := by
    refine ⟨block_write m 0 file, h.text, ?_⟩
    rw [Nat.zero_add, hzeros _ le_rfl]
    exact hzero _ h.fits
  have hcontents : contents (write m 0 file) STATUS_SIZE = padded file := by
    apply List.ext_getElem
    · rw [contents_length, padded_length h.fits]
    · intro i hi _
      rw [contents_length] at hi
      rw [contents_get]
      rcases Nat.lt_or_ge i file.length with hlow | hlow
      · have hget := write_get (m := m) (p := 0) hlow
        rw [Nat.zero_add] at hget
        simp only [padded, hget, List.getElem_append_left hlow]
      · simp only [padded, hzeros i hlow, hzero i hi, List.getElem_append_right hlow,
          List.getElem_replicate]
  obtain ⟨m', hm', hshown, hbeyond⟩ := hideTracer_shown hholds h.fits hcontents
  refine ⟨m', ?_, hshown, fun i hi => ?_⟩
  · rw [fillStatus, h.found, Option.bind_some, htake, if_pos h.fits.le, hm', Option.bind_some,
      if_pos h.streams]
  · rw [hbeyond i hi, hzeros i (h.fits.le.trans hi)]

end array

section runs
variable {arm : Bool} {s : State} {r : Request} {reqs : List Request} {file c : List Byte}

/-- What a call goes to, when the array shows `contents`. -/
def answer (arm : Bool) (contents : List Byte) : Request → Event
  | .bionicOpen path oflag mode _ =>
    if path = statusPath then .stream contents
    else .open_ (warns (override path)) (override path) oflag
      (if openNeedsMode arm oflag then some mode else none)
  | .bionicFopen path mode => .fopen (warns (override path)) (override path) mode

def Request.status : Request → Option Library
  | .bionicOpen path _ _ lib => if path = statusPath then some lib else none
  | .bionicFopen _ _ => none

def firstRead (reqs : List Request) : Option Library := reqs.findSome? Request.status

theorem free_allocate (s : State) (freePath : Bool) : free (allocate s freePath) freePath = s := by
  rw [free, allocate, Nat.add_sub_cancel]

theorem step_other (h : r.status = none) :
    step arm s r = some (s, some (answer arm c r)) := by
  cases r with
  | bionicOpen path oflag mode lib =>
    rw [Request.status] at h
    split_ifs at h with hpath
    have hoverride : override path ≠ statusPath := mt override_status.mp hpath
    rw [step, bionicOpen, applyPathOverrides_eq, Option.bind_some, answer, if_neg hpath]
    simp only [if_neg hoverride, free_allocate]
  | bionicFopen path mode =>
    rw [step, bionicFopen, applyPathOverrides_eq, Option.map_some, free_allocate, answer]

theorem step_status (arm : Bool) (s : State) (c : List Byte) {lib : Library}
    (h : r.status = some lib) :
    answer arm c r = .stream c ∧
    step arm s r = if s.faked then some (s, some (stream s))
      else (fillStatus lib s.status).map fun status =>
        ({ s with faked := true, status := status },
          some (stream { s with faked := true, status := status })) := by
  cases r with
  | bionicOpen path oflag mode lib' =>
    rw [Request.status] at h
    split_ifs at h with hpath
    cases h
    subst hpath
    have hfonts : startsWith statusPath fonts = false := by decide
    have hallocate : allocate s false = s := rfl
    rw [step, bionicOpen, applyPathOverrides_eq, Option.bind_some, override_status.mpr rfl, hfonts,
      hallocate]
    exact ⟨by rw [answer, if_pos rfl], if_pos rfl⟩
  | bionicFopen path mode => cases h

theorem run_faked (h : s.faked = true) :
    run (step arm) s reqs = some (s, reqs.map (answer arm (contents s.status STATUS_SIZE))) := by
  induction reqs with
  | nil => rfl
  | cons r reqs ih =>
    have hstep : step arm s r =
        some (s, some (answer arm (contents s.status STATUS_SIZE) r)) := by
      cases hr : r.status with
      | none => exact step_other hr
      | some lib =>
        obtain ⟨hanswer, hstep⟩ := step_status arm s (contents s.status STATUS_SIZE) hr
        rw [hstep, if_pos h, hanswer, stream]
    rw [run, hstep, Option.bind_some, ih]
    rfl

/-- The induction is on the calls before the one that fills the array. -/
theorem run_fresh (arm : Bool) (h : s.faked = false) (hzero : ∀ i < STATUS_SIZE, s.status i = 0)
    (hread : ∀ lib ∈ firstRead reqs, lib.Works file) :
    ∃ s', run (step arm) s reqs = some (s', reqs.map (answer arm (shown file))) ∧
      s'.live = s.live ∧ ∀ i, STATUS_SIZE ≤ i → s'.status i = s.status i := by
  induction reqs with
  | nil => exact ⟨s, rfl, rfl, fun i _ => rfl⟩
  | cons r reqs ih =>
    cases hr : r.status with
    | none =>
      have hrest : firstRead (r :: reqs) = firstRead reqs := by
        rw [firstRead, List.findSome?_cons, hr, firstRead]
      obtain ⟨s', hrun, hlive, hbeyond⟩ := ih (hrest ▸ hread)
      refine ⟨s', ?_, hlive, hbeyond⟩
      rw [run, step_other (c := shown file) hr, Option.bind_some, hrun]
      rfl
    | some lib =>
      have hfirst : firstRead (r :: reqs) = some lib := by
        rw [firstRead, List.findSome?_cons, hr]
      obtain ⟨m', hfill, hshown, hbeyond⟩ := fillStatus_shown (hread lib hfirst) hzero
      obtain ⟨hanswer, hstep⟩ := step_status arm s (shown file) hr
      rw [h, if_neg Bool.false_ne_true, hfill] at hstep
      refine ⟨{ s with faked := true, status := m' }, ?_, rfl, hbeyond⟩
      rw [run, hstep, Option.map_some, Option.bind_some, run_faked rfl, List.map_cons, hanswer,
        stream, hshown]
      rfl

theorem answer_open {warned : Bool} {oflag : Word} {mode : Option Word}
    (h : .open_ warned path oflag mode = answer arm c r) : path ≠ statusPath := by
  cases r with
  | bionicOpen path' oflag' mode' lib =>
    rw [answer] at h
    by_cases hpath : path' = statusPath
    · rw [if_pos hpath] at h
      cases h
    · rw [if_neg hpath] at h
      injection h with _ hoverride
      rw [hoverride]
      exact mt override_status.mp hpath
  | bionicFopen path' mode' => cases h

theorem hidden_tracerPid (file : List Byte) : tracerPid <:+: hidden file ↔
    ∃ b a, breakAt tracerPid file = some (b, a) ∧ tracerPid <:+: a.dropWhile inLine := by
  cases hbreak : breakAt tracerPid file with
  | none =>
    have hhidden : hidden file = file := by rw [hidden, hbreak]
    rw [hhidden]
    exact iff_of_false (breakAt_none_iff.mp hbreak) (by simp)
  | some parts =>
    obtain ⟨b, a⟩ := parts
    have hhidden : hidden file = b ++ a.dropWhile inLine := by rw [hidden, hbreak]
    have hhead : ∀ x t, a.dropWhile inLine = x :: t → x ∉ tracerPid := by
      intro x t hx
      have hstop := List.head?_dropWhile_not inLine a
      rw [hx] at hstop
      have hnewline : x = newline := by simpa [inLine] using hstop
      rw [hnewline]
      decide
    rw [hhidden, infix_append_iff hhead, or_iff_right (breakAt_first (by decide) hbreak)]
    constructor
    · exact fun h => ⟨b, a, rfl, h⟩
    · rintro ⟨b', a', he, h⟩
      cases he
      exact h

theorem zeros_no_tracer (n : ℕ) : ¬ tracerPid <:+: List.replicate n (0 : Byte) := by
  intro h
  have hmem : (84 : Byte) ∈ tracerPid := by decide
  have hzero := List.eq_of_mem_replicate (h.subset hmem)
  revert hzero
  decide

theorem zeros_head {n : ℕ} {t : List Byte} (hn : 0 < n ∨ t = []) :
    ∀ x l, List.replicate n (0 : Byte) ++ t = x :: l → x ∉ tracerPid := by
  intro x l hx
  rcases Nat.eq_zero_or_pos n with rfl | hpos
  · obtain rfl := hn.resolve_left (lt_irrefl 0)
    cases hx
  · obtain ⟨n, rfl⟩ := Nat.exists_eq_add_of_le' hpos
    rw [List.replicate_succ, List.cons_append, List.cons.injEq] at hx
    rw [← hx.1]
    decide

theorem zeros_tracer (n : ℕ) (t : List Byte) :
    tracerPid <:+: List.replicate n (0 : Byte) ++ t ↔ tracerPid <:+: t := by
  induction n with
  | zero => rfl
  | succ n ih =>
    have hhead : ¬ tracerPid <+: (0 : Byte) :: (List.replicate n 0 ++ t) := by
      rintro ⟨u, hu⟩
      have hx : (84 : Byte) = 0 := (List.cons.inj hu).1
      revert hx
      decide
    rw [List.replicate_succ, List.cons_append, List.infix_cons_iff, or_iff_right hhead, ih]

theorem shown_tracerPid (hfile : file.length < STATUS_SIZE) : tracerPid <:+: shown file ↔
    tracerPid <:+: hidden file ∨
      tracerPid <:+: file.drop (STATUS_SIZE - (file.length - (hidden file).length)) := by
  have htail (j : ℕ) : tracerPid <:+: (padded file).drop j ↔ tracerPid <:+: file.drop j := by
    rw [padded, List.drop_append, List.drop_replicate, infix_append_iff,
      or_iff_left (zeros_no_tracer _)]
    intro x l hx
    rw [← List.append_nil (List.replicate _ _)] at hx
    exact zeros_head (Or.inr rfl) x l hx
  rw [shown, List.append_assoc, infix_append_iff (zeros_head (Or.inl (by omega))), zeros_tracer,
    htail]

/-- The field is seen if it comes again on a later line, or in what is twice in the array. -/
theorem shown_survives (hfile : file.length < STATUS_SIZE) : tracerPid <:+: shown file ↔
    ∃ b a, breakAt tracerPid file = some (b, a) ∧ (tracerPid <:+: a.dropWhile inLine ∨
      tracerPid <:+: file.drop (STATUS_SIZE - (tracerPid ++ a.takeWhile inLine).length)) := by
  rw [shown_tracerPid hfile, hidden_tracerPid]
  cases hbreak : breakAt tracerPid file with
  | none =>
    have hhidden : hidden file = file := by rw [hidden, hbreak]
    rw [hhidden, Nat.sub_self, Nat.sub_zero, List.drop_eq_nil_of_le hfile.le]
    have hempty : ¬ tracerPid <:+: [] := by decide
    simp [hempty]
  | some parts =>
    obtain ⟨b, a⟩ := parts
    rw [removed_length hbreak]
    simp

/-- In every run in which the first read of the status succeeds each call for the status gets
what the array then shows, which has a first field of the tracer taken out; each other call goes
to the host with the overridden path, which is never that of the status. Every path that was
allocated is freed, nothing behind the array is written, and the field is still there only if it
comes again on a later line or in what is twice in the array. -/
theorem opens_hidden (beyond : ℕ → Byte) (h : ∀ lib ∈ firstRead reqs, lib.Works file) :
    (∃ s, run (step arm) (start beyond) reqs = some (s, reqs.map (answer arm (shown file))) ∧
      s.live = 0 ∧ ∀ i, STATUS_SIZE ≤ i → s.status i = beyond i) ∧
    (∀ warned path oflag mode,
      .open_ warned path oflag mode ∈ reqs.map (answer arm (shown file)) → path ≠ statusPath) ∧
    ∀ lib ∈ firstRead reqs, (tracerPid <:+: shown file ↔
      ∃ b a, breakAt tracerPid file = some (b, a) ∧ (tracerPid <:+: a.dropWhile inLine ∨
        tracerPid <:+: file.drop (STATUS_SIZE - (tracerPid ++ a.takeWhile inLine).length))) := by
  refine ⟨?_, ?_, fun lib hlib => shown_survives (h lib hlib).fits⟩
  · obtain ⟨s, hrun, hlive, hbeyond⟩ := run_fresh arm (s := start beyond) rfl
      (fun i hi => if_pos hi) h
    refine ⟨s, hrun, hlive, fun i hi => ?_⟩
    rw [hbeyond i hi]
    exact if_neg (Nat.not_lt_of_le hi)
  · intro warned path oflag mode hmem
    obtain ⟨r, -, hr⟩ := List.mem_map.mp hmem
    exact answer_open hr.symm

end runs

def tracedStatus : List Byte := bytes "Ngid:	0
TracerPid:	7
Uid:	0
".toList

def tracedRequests : List Request :=
  [.bionicFopen (bytes "/fonts/a.ttf".toList) (bytes "rb".toList),
    .bionicOpen statusPath 0 0 ⟨some tracedStatus, true⟩,
    .bionicOpen statusPath 0 0 ⟨none, true⟩]

theorem opens_hidden_traced : hidden tracedStatus = bytes "Ngid:\t0\n\nUid:\t0\n".toList ∧
    (∃ s, run (step false) (start fun _ => 1) tracedRequests =
      some (s, tracedRequests.map (answer false (shown tracedStatus))) ∧ s.live = 0 ∧
        ∀ i, STATUS_SIZE ≤ i → s.status i = 1) ∧
    ¬ tracerPid <:+: shown tracedStatus := by
  have hfirst : firstRead tracedRequests = some ⟨some tracedStatus, true⟩ := rfl
  have hworks : ∀ lib ∈ firstRead tracedRequests, lib.Works tracedStatus := by
    intro lib hlib
    rw [hfirst] at hlib
    cases hlib
    exact ⟨rfl, by decide, by decide, rfl⟩
  obtain ⟨hrun, -, hsurvives⟩ := @opens_hidden false tracedRequests tracedStatus (fun _ => 1) hworks
  refine ⟨by decide, hrun, fun htracer => ?_⟩
  obtain ⟨b, a, hbreak, hagain⟩ := (hsurvives _ hfirst).mp htracer
  have hparts : breakAt tracerPid tracedStatus =
      some (bytes "Ngid:\t0\n".toList, bytes "7\nUid:\t0\n".toList) := by decide
  cases hparts.symm.trans hbreak
  revert hagain
  decide

end Bionic.StatusHiding
