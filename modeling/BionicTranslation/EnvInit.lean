import BionicTranslation.Compaction
import BionicTranslation.Records

/-!
# The environment block

`apkenv_linker_env_init` gets the block as `unsigned` units. In these it looks for its end, and
in pointers it takes out what is no definition. A pointer is one unit or two.
-/

set_option autoImplicit false

namespace Bionic.EnvInit
open Bionic.CStrings Bionic.Compaction Bionic.Elf

variable {c : ElfClass}

abbrev Byte := BitVec 8

def units (c : ElfClass) : ℕ := c.wordsize / 4

abbrev Pointer (c : ElfClass) := Fin (units c) → BitVec 32

theorem units_pos (c : ElfClass) : 0 < units c := by
  cases c <;> decide

def getPointer (c : ElfClass) (m : ℕ → BitVec 32) (i : ℕ) : Pointer c :=
  fun k => m (i * units c + k)

def setPointer (c : ElfClass) (m : ℕ → BitVec 32) (i : ℕ) (x : Pointer c) : ℕ → BitVec 32 :=
  fun a => if a / units c = i then x ⟨a % units c, Nat.mod_lt a (units_pos c)⟩ else m a

theorem unit_div (i : ℕ) (k : Fin (units c)) : (i * units c + k) / units c = i := by
  rw [Nat.mul_comm, Nat.mul_add_div (units_pos c), Nat.div_eq_of_lt k.isLt, Nat.add_zero]

theorem unit_mod (i : ℕ) (k : Fin (units c)) : (i * units c + k) % units c = k := by
  rw [Nat.mul_comm, Nat.mul_add_mod, Nat.mod_eq_of_lt k.isLt]

theorem getPointer_setPointer (m : ℕ → BitVec 32) (i : ℕ) (x : Pointer c) :
    getPointer c (setPointer c m i x) = Function.update (getPointer c m) i x := by
  ext1 j
  by_cases hj : j = i
  · subst hj
    rw [Function.update_self]
    ext1 k
    rw [getPointer, setPointer, if_pos (unit_div j k)]
    exact congrArg x (Fin.ext (unit_mod j k))
  · rw [Function.update_of_ne hj]
    ext1 k
    rw [getPointer, setPointer, if_neg (by rwa [unit_div])]
    rfl

theorem setPointer_getPointer (m : ℕ → BitVec 32) (i : ℕ) :
    setPointer c m i (getPointer c m i) = m := by
  ext1 a
  rw [setPointer]
  split_ifs with ha
  · rw [getPointer, ← ha]
    exact congrArg m (Nat.div_add_mod' a (units c))
  · rfl

def pointers (c : ElfClass) : Slots (ℕ → BitVec 32) (Pointer c) where
  get := getPointer c
  set := setPointer c
  get_set := getPointer_setPointer
  set_get := setPointer_getPointer

def MAX_ENV_LEN : ℕ := 32 * 4096

/-- The loop of `apkenv__is_valid_definition`, as often as is given first: `pos` and
`first_equal_pos` after it. -/
def equalLoop (str : ℕ → Byte) : ℕ → ℕ → ℤ → ℕ × ℤ
  | 0, pos, firstEqualPos => (pos, firstEqualPos)
  | left + 1, pos, firstEqualPos =>
    if str pos = 0 then (pos, firstEqualPos)
    else equalLoop str left (pos + 1)
      (if str pos = 61 ∧ firstEqualPos < 0 then pos else firstEqualPos)

def isValidDefinition (text : Pointer c → ℕ → Byte) (str : Pointer c) : Bool :=
  if str = 0 then false
  else
    let r := equalLoop (text str) MAX_ENV_LEN 0 (-1)
    if MAX_ENV_LEN ≤ r.1 then false
    else if r.2 < 1 then false
    else true

def skipLoop (m : ℕ → BitVec 32) : ℕ → ℕ → Option ℕ
  | 0, _ => none
  | fuel + 1, vecs => if m vecs = 0 then some vecs else skipLoop m fuel (vecs + 1)

/-- The memory afterwards, and where the block is taken to end. The block starts at 0. -/
def linkerEnvInit (fuel : ℕ) (text : Pointer c → ℕ → Byte) (m : ℕ → BitVec 32) :
    Option ((ℕ → BitVec 32) × ℕ) :=
  (skipLoop m fuel 0).bind fun vecs =>
    (compact (pointers c) (isValidDefinition text) fuel m 0 0).map fun m => (m, vecs + 1)

/-- A string that is short enough and has an equal sign that is not its first character. -/
def Valid (str : ℕ → Byte) : Prop :=
  ∃ s, Holds str 0 s ∧ s.length < MAX_ENV_LEN ∧ 61 ∈ s.tail

def Doubled (str : ℕ → Byte) : Prop :=
  ∃ s, Holds str 0 s ∧ s.length < MAX_ENV_LEN ∧ 61 ∈ s.tail ∧ s.head? = some 61

variable {str : ℕ → Byte} {s : List Byte} {left pos : ℕ} {firstEqualPos : ℤ}

theorem equalLoop_long (h : ∀ i < left, str (pos + i) ≠ 0) :
    (equalLoop str left pos firstEqualPos).1 = pos + left := by
  induction left generalizing pos firstEqualPos with
  | zero => rfl
  | succ left ih =>
    have hfirst : str pos ≠ 0 := h 0 (Nat.succ_pos left)
    rw [equalLoop, if_neg hfirst, ih fun i hi => ?_]
    · omega
    · rw [show pos + 1 + i = pos + (i + 1) by omega]
      exact h (i + 1) (Nat.succ_lt_succ hi)

theorem equalLoop_set (h : 0 ≤ firstEqualPos) :
    (equalLoop str left pos firstEqualPos).2 = firstEqualPos := by
  induction left generalizing pos with
  | zero => rfl
  | succ left ih =>
    have hset : ¬ (str pos = 61 ∧ firstEqualPos < 0) := fun hset => Int.not_lt.mpr h hset.2
    rw [equalLoop, if_neg hset]
    split_ifs
    · rfl
    · exact ih

theorem equalLoop_holds (h : Holds str pos s) (hlen : s.length < left) :
    (equalLoop str left pos firstEqualPos).1 = pos + s.length := by
  induction h, hlen using Holds.walk generalizing firstEqualPos with
  | stop _ hz =>
    rw [equalLoop, if_pos hz]
    rfl
  | step h _ ih =>
    rw [equalLoop, if_neg h.head_ne, ih, List.length_cons]
    omega

theorem equalLoop_unset (h : Holds str pos s) (hlen : s.length < left) (hpos : 1 ≤ pos)
    (hfirst : firstEqualPos < 0) :
    (equalLoop str left pos firstEqualPos).2 < 1 ↔ 61 ∉ s := by
  induction h, hlen using Holds.walk with
  | stop _ hz =>
    rw [equalLoop, if_pos hz]
    exact iff_of_true (by omega) List.not_mem_nil
  | @step pos _ x s h _ ih =>
    rw [equalLoop, if_neg h.head_ne, h.chars.1]
    by_cases hx : x = 61
    · rw [if_pos ⟨hx, hfirst⟩, equalLoop_set (Int.natCast_nonneg pos)]
      exact iff_of_false (by omega) fun hnot => hnot (hx ▸ List.mem_cons_self)
    · rw [if_neg fun hand => hx hand.1, ih (by omega), List.mem_cons, not_or,
        and_iff_right (Ne.symm hx)]

theorem equalLoop_start (h : Holds str 0 s) (hlen : s.length < left) :
    (equalLoop str left 0 (-1)).2 < 1 ↔ 61 ∉ s.tail ∨ s.head? = some 61 := by
  obtain ⟨left, rfl⟩ := Nat.exists_eq_add_of_le' (Nat.one_le_of_lt hlen)
  rw [equalLoop]
  cases s with
  | nil =>
    have hz : str 0 = 0 := h.ends
    rw [if_pos hz]
    exact iff_of_true (by decide) (.inl List.not_mem_nil)
  | cons x s =>
    have hlen' : s.length < left := Nat.lt_of_succ_lt_succ hlen
    rw [if_neg h.head_ne, h.chars.1]
    by_cases hx : x = 61
    · rw [if_pos ⟨hx, by decide⟩, equalLoop_set (Int.natCast_nonneg 0)]
      exact iff_of_true (by decide) (.inr (congrArg some hx))
    · have hhead : (x :: s).head? ≠ some 61 := fun hh => hx (Option.some.inj hh)
      rw [if_neg fun hand => hx hand.1, equalLoop_unset h.tail hlen' (Nat.le_refl 1) (by decide),
        or_iff_left hhead]
      rfl

theorem valid_iff (h : Holds str 0 s) (hlen : s.length < MAX_ENV_LEN) :
    Valid str ↔ 61 ∈ s.tail := by
  constructor
  · rintro ⟨t, ht, -, htail⟩
    rwa [h.unique ht]
  · exact fun htail => ⟨s, h, hlen, htail⟩

theorem doubled_iff (h : Holds str 0 s) (hlen : s.length < MAX_ENV_LEN) :
    Doubled str ↔ 61 ∈ s.tail ∧ s.head? = some 61 := by
  constructor
  · rintro ⟨t, ht, -, hand⟩
    rwa [h.unique ht]
  · exact fun hand => ⟨s, h, hlen, hand⟩

theorem Doubled.valid (h : Doubled str) : Valid str := by
  obtain ⟨s, hs, hlen, htail, -⟩ := h
  exact ⟨s, hs, hlen, htail⟩

theorem isValidDefinition_loop (text : Pointer c → ℕ → Byte) {p : Pointer c} (hp : p ≠ 0) :
    isValidDefinition text p ↔ (equalLoop (text p) MAX_ENV_LEN 0 (-1)).1 < MAX_ENV_LEN ∧
      ¬ (equalLoop (text p) MAX_ENV_LEN 0 (-1)).2 < 1 := by
  rw [isValidDefinition, if_neg hp]
  generalize equalLoop (text p) MAX_ENV_LEN 0 (-1) = r
  rw [← Nat.not_le]
  by_cases hlen : MAX_ENV_LEN ≤ r.1
  · simp [hlen]
  · rw [if_neg hlen, and_iff_right hlen]
    split_ifs with hfirst
    · simp [hfirst]
    · simp [hfirst]

theorem isValidDefinition_iff (text : Pointer c → ℕ → Byte) {p : Pointer c} (hp : p ≠ 0) :
    isValidDefinition text p ↔ Valid (text p) ∧ ¬ Doubled (text p) := by
  rw [isValidDefinition_loop text hp]
  by_cases hz : ∃ i < MAX_ENV_LEN, text p (0 + i) = 0
  · obtain ⟨i, hi, hz⟩ := hz
    obtain ⟨s, hs, hle⟩ := exists_holds hz
    have hlen : s.length < MAX_ENV_LEN := hle.trans_lt hi
    rw [valid_iff hs hlen, doubled_iff hs hlen, equalLoop_holds hs hlen, equalLoop_start hs hlen,
      Nat.zero_add, and_iff_right hlen, not_or, not_not, not_and]
    exact and_congr_right fun htail => ⟨fun hhead _ => hhead, fun hnot => hnot htail⟩
  · have hlong : ∀ i < MAX_ENV_LEN, text p (0 + i) ≠ 0 := fun i hi h0 => hz ⟨i, hi, h0⟩
    rw [equalLoop_long hlong, Nat.zero_add]
    apply iff_of_false
    · exact fun hand => Nat.lt_irrefl _ hand.1
    · rintro ⟨⟨s, hs, hlen, -⟩, -⟩
      exact hlong s.length hlen hs.ends

variable {m : ℕ → BitVec 32} {text : Pointer c → ℕ → Byte} {ps : List (Pointer c)}
  {vecs fuel n : ℕ}

theorem skipLoop_eq (h : m (vecs + n) = 0) (hf : n < fuel) :
    ∃ k ≤ n, skipLoop m fuel vecs = some (vecs + k) ∧ m (vecs + k) = 0 := by
  induction n generalizing vecs fuel with
  | zero =>
    obtain ⟨fuel, rfl⟩ := Nat.exists_eq_add_of_lt hf
    exact ⟨0, Nat.le_refl 0, if_pos h, h⟩
  | succ n ih =>
    obtain ⟨fuel, rfl⟩ := Nat.exists_eq_add_of_le' (Nat.one_le_of_lt hf)
    rw [skipLoop]
    by_cases hz : m vecs = 0
    · exact ⟨0, Nat.zero_le _, if_pos hz, hz⟩
    · rw [show vecs + (n + 1) = vecs + 1 + n by omega] at h
      obtain ⟨k, hk, hrun, hend⟩ := ih h (Nat.lt_of_succ_lt_succ hf)
      refine ⟨k + 1, Nat.succ_le_succ hk, ?_, ?_⟩
      · rw [if_neg hz, hrun, show vecs + 1 + k = vecs + (k + 1) by omega]
      · rwa [show vecs + (k + 1) = vecs + 1 + k by omega]

theorem terminator_unit (h : Holds ((pointers c).get m) 0 ps) : m (ps.length * units c) = 0 := by
  have hends : getPointer c m (0 + ps.length) = 0 := h.ends
  rw [Nat.zero_add] at hends
  exact congrFun hends ⟨0, units_pos c⟩

theorem skipLoop_right_iff (h : Holds ((pointers c).get m) 0 ps)
    (hf : ps.length * units c < fuel) :
    ∃ vecs, skipLoop m fuel 0 = some vecs ∧
      (vecs + 1 = (ps.length + 1) * units c ↔ c = .elf32) := by
  have hterminator := terminator_unit h
  rw [← Nat.zero_add (ps.length * units c)] at hterminator
  obtain ⟨k, hk, hrun, hend⟩ := skipLoop_eq hterminator hf
  rw [Nat.zero_add] at hrun hend
  refine ⟨k, hrun, ?_⟩
  cases c with
  | elf32 =>
    have hunits : units .elf32 = 1 := rfl
    rw [hunits] at hk ⊢
    have hle : ps.length ≤ k := by
      apply h.length_le
      ext1 j
      have hj : (j : ℕ) = 0 := Nat.lt_one_iff.mp j.isLt
      change m ((0 + k) * units .elf32 + j) = 0
      rw [hj, hunits, show (0 + k) * 1 + 0 = k by omega, hend]
    exact iff_of_true (by omega) rfl
  | elf64 =>
    have hunits : units .elf64 = 2 := rfl
    rw [hunits] at hk ⊢
    exact iff_of_false (by omega) ElfClass.noConfusion

open Classical in
noncomputable def valid (text : Pointer c → ℕ → Byte) (ps : List (Pointer c)) :
    List (Pointer c) :=
  ps.filter fun p => Valid (text p)

theorem valid_cons_pos {p : Pointer c} (h : Valid (text p)) :
    valid text (p :: ps) = p :: valid text ps :=
  List.filter_cons_of_pos (by simpa using h)

theorem valid_cons_neg {p : Pointer c} (h : ¬ Valid (text p)) :
    valid text (p :: ps) = valid text ps :=
  List.filter_cons_of_neg (by simpa using h)

open Classical in
theorem filter_eq_valid_iff (h0 : 0 ∉ ps) :
    ps.filter (isValidDefinition text) = valid text ps ↔ ∀ p ∈ ps, ¬ Doubled (text p) := by
  have hne {p : Pointer c} (hp : p ∈ ps) : p ≠ 0 := fun h => h0 (h ▸ hp)
  constructor
  · intro heq p hp hdouble
    have hmem : p ∈ valid text ps := List.mem_filter.mpr ⟨hp, decide_eq_true hdouble.valid⟩
    rw [← heq] at hmem
    have hcode := (List.mem_filter.mp hmem).2
    exact ((isValidDefinition_iff text (hne hp)).mp hcode).2 hdouble
  · intro hnone
    rw [valid]
    apply List.filter_congr
    intro p hp
    rw [Bool.eq_iff_iff, isValidDefinition_iff text (hne hp), decide_eq_true_iff,
      and_iff_left (hnone p hp)]

/-- The call comes to an end. The block holds the pointers to the definitions, in their order,
just when no string with a second equal sign begins with one. The result is the place behind
the block just when pointers are as long as units. What is behind the block stays. -/
theorem linkerEnvInit_right_iff (text : Pointer c → ℕ → Byte)
    (h : Holds ((pointers c).get m) 0 ps) (hf : (ps.length + 1) * units c < fuel) :
    ∃ m' vecs, linkerEnvInit fuel text m = some (m', vecs) ∧
      (Holds ((pointers c).get m') 0 (valid text ps) ↔ ∀ p ∈ ps, ¬ Doubled (text p)) ∧
      (vecs = (ps.length + 1) * units c ↔ c = .elf32) ∧
      ∀ a, ps.length * units c ≤ a → m' a = m a := by
  have hpos := units_pos c
  rw [Nat.add_one_mul] at hf
  have hlen : ps.length < fuel := (Nat.le_mul_of_pos_right ps.length hpos).trans_lt (by omega)
  obtain ⟨vecs, hskip, hvecs⟩ := skipLoop_right_iff h (show ps.length * units c < fuel by omega)
  obtain ⟨m', hrun, hheld, hframe⟩ :=
    compact_holds (pointers c) (isValidDefinition text) h (Nat.le_refl 0) hlen
  refine ⟨m', vecs + 1, ?_, ?_, hvecs, fun a ha => ?_⟩
  · rw [linkerEnvInit, hskip, Option.bind_some, hrun]
    rfl
  · rw [← filter_eq_valid_iff h.nonzero]
    exact ⟨fun hvalid => hheld.unique hvalid, fun heq => heq ▸ hheld⟩
  · have hslot : ps.length ≤ a / units c := (Nat.le_div_iff_mul_le hpos).mpr ha
    have hsame := congrFun (hframe (a / units c) (.inr (by omega)))
      ⟨a % units c, Nat.mod_lt a hpos⟩
    change m' (a / units c * units c + a % units c) =
      m (a / units c * units c + a % units c) at hsame
    rwa [Nat.div_add_mod'] at hsame

def assignment : ℕ → Byte := write (fun _ => 0) 0 [65, 61, 98, 0]
def doubled : ℕ → Byte := write (fun _ => 0) 0 [61, 97, 61, 98, 0]

theorem assignment_single : ¬ Doubled assignment := by
  have h0 : (0 : Byte) ∉ [65, 61, 98] := by decide
  rintro ⟨s, hs, -, -, hhead⟩
  rw [hs.unique (holds_write _ 0 h0)] at hhead
  exact absurd hhead (by decide)

theorem doubled_doubled : Doubled doubled := by
  have h0 : (0 : Byte) ∉ [61, 97, 61, 98] := by decide
  exact ⟨_, holds_write _ 0 h0, by decide, by decide, rfl⟩

def block32 : ℕ → BitVec 32 := write (fun _ => 7) 0 [0x1000, 0]
def block64 : ℕ → BitVec 32 := write (fun _ => 7) 0 [0x1000, 0x7fff, 0, 0]

theorem block32_holds : Holds ((pointers .elf32).get block32) 0 [![0x1000]] :=
  ⟨by decide, by decide, by decide⟩

theorem block64_holds : Holds ((pointers .elf64).get block64) 0 [![0x1000, 0x7fff]] :=
  ⟨by decide, by decide, by decide⟩

/-- Three pointers, of which the second is to a string without an equal sign. -/
def mixedBlock : ℕ → BitVec 32 := write (fun _ => 7) 0 [0x1000, 0x2000, 0x3000, 0]

def pointer32 (a : BitVec 32) : Pointer .elf32 := fun _ => a

def bare : ℕ → Byte := write (fun _ => 0) 0 [80, 0]

def mixedText (p : Pointer .elf32) : ℕ → Byte :=
  if p ⟨0, units_pos .elf32⟩ = 0x2000 then bare else assignment

theorem bare_not_valid : ¬ Valid bare := by
  have h0 : (0 : Byte) ∉ [80] := by decide
  rintro ⟨s, hs, -, htail⟩
  rw [hs.unique (holds_write _ 0 h0)] at htail
  cases htail

theorem assignment_valid : Valid assignment := by
  have h0 : (0 : Byte) ∉ [65, 61, 98] := by decide
  exact ⟨_, holds_write _ 0 h0, by decide, by decide⟩

theorem mixed_valid : valid mixedText [pointer32 0x1000, pointer32 0x2000, pointer32 0x3000] =
    [pointer32 0x1000, pointer32 0x3000] := by
  have hfirst : mixedText (pointer32 0x1000) = assignment := if_neg (by decide)
  have hsecond : mixedText (pointer32 0x2000) = bare := if_pos rfl
  have hthird : mixedText (pointer32 0x3000) = assignment := if_neg (by decide)
  rw [valid_cons_pos (hfirst ▸ assignment_valid), valid_cons_neg (hsecond ▸ bare_not_valid),
    valid_cons_pos (hthird ▸ assignment_valid)]
  rfl

/-- The second one is taken out. -/
theorem init_block32 : ∃ m' vecs,
    linkerEnvInit (c := .elf32) 5 mixedText mixedBlock = some (m', vecs) ∧
      Holds ((pointers .elf32).get m') 0 [pointer32 0x1000, pointer32 0x3000] ∧ vecs = 4 := by
  have hblock : Holds ((pointers .elf32).get mixedBlock) 0
      [pointer32 0x1000, pointer32 0x2000, pointer32 0x3000] := ⟨by decide, by decide, by decide⟩
  have hsingle : ∀ p ∈ [pointer32 0x1000, pointer32 0x2000, pointer32 0x3000],
      ¬ Doubled (mixedText p) := by
    intro p _
    unfold mixedText
    split_ifs
    · exact fun hdoubled => bare_not_valid hdoubled.valid
    · exact assignment_single
  obtain ⟨m', vecs, hrun, hvalid, hvecs, -⟩ :=
    linkerEnvInit_right_iff mixedText hblock (show (3 + 1) * units .elf32 < 5 by decide)
  have hheld := hvalid.mpr hsingle
  rw [mixed_valid] at hheld
  exact ⟨m', vecs, hrun, hheld, hvecs.mpr rfl⟩

/-- On a 64-bit target the result points into the null pointer. On any target a definition is
taken out that should stay. -/
theorem init_misses :
    (∃ m', linkerEnvInit (c := .elf64) 5 (fun _ => assignment) block64 = some (m', 3) ∧
      (pointers .elf64).get block64 1 = 0) ∧
    Valid doubled ∧
    ∃ m', linkerEnvInit (c := .elf32) 3 (fun _ => doubled) block32 = some (m', 2) ∧
      Holds ((pointers .elf32).get m') 0 [] := by
  refine ⟨?_, doubled_doubled.valid, ?_⟩
  · obtain ⟨m', hrun, -, -⟩ :=
      compact_holds (pointers .elf64) (isValidDefinition fun _ => assignment) block64_holds
        (Nat.le_refl 0) (show 1 < 5 by decide)
    have hskip : skipLoop block64 5 0 = some 2 := by decide
    refine ⟨m', ?_, by decide⟩
    rw [linkerEnvInit, hskip, Option.bind_some, hrun]
    rfl
  · obtain ⟨m', hrun, hheld, -⟩ :=
      compact_holds (pointers .elf32) (isValidDefinition fun _ => doubled) block32_holds
        (Nat.le_refl 0) (show 1 < 3 by decide)
    have hskip : skipLoop block32 3 0 = some 1 := by decide
    have hnone : List.filter (isValidDefinition (c := .elf32) fun _ => doubled) [![0x1000]] =
        [] := by
      apply List.filter_eq_nil_iff.mpr
      intro p hp hcode
      obtain rfl := List.mem_singleton.mp hp
      have hne : (![0x1000] : Pointer .elf32) ≠ 0 := by decide
      exact ((isValidDefinition_iff _ hne).mp hcode).2 doubled_doubled
    rw [hnone] at hheld
    refine ⟨m', ?_, hheld⟩
    rw [linkerEnvInit, hskip, Option.bind_some, hrun]
    rfl

end Bionic.EnvInit
