import BionicTranslation.CFunctions
import BionicTranslation.Splitting
import BionicTranslation.WrapperNames

/-!
# The data directories

`construct` looks for configuration files in every directory of `XDG_DATA_DIRS`. It puts the
paths together in one buffer, one after the other, and skips a run of colons behind each of
them. What is in front of the first colon is a directory even when it is empty.
-/

set_option autoImplicit false

namespace Bionic.DataDirs
open Bionic.CStrings Bionic.CFunctions Bionic.Splitting Bionic.WrapperNames

inductive Stop where
  | outOfFuel
  | outOfBounds
  deriving DecidableEq, Repr

def spent (o : Option ℕ) : Except Stop ℕ := o.elim (.error .outOfFuel) .ok

def colon : List Byte := bytes ":".toList

def isColon (x : Byte) : Bool := decide (x ∈ colon)

def cfgDir : List Byte := bytes "/bionic_translation/cfg.d".toList

def memcpy (size : ℕ) (m : ℕ → Byte) (n : ℕ) (l : List Byte) : Except Stop (ℕ → Byte) :=
  if n + l.length ≤ size then .ok (write m n l) else .error .outOfBounds

/-- `while (*xdg_data_dirs)`. The result is what `cfg_path` holds in each call of
`read_cfg_dir`. -/
def splitLoop (mem : ℕ → Byte) (size : ℕ) :
    ℕ → (ℕ → Byte) → ℕ → Except Stop (List (ℕ → Byte))
  | 0, _, _ => .error .outOfFuel
  | fuel + 1, cfgPath, dirs =>
    if mem dirs = 0 then .ok []
    else do
      let len ← spent (strcspn mem colon fuel dirs)
      let cfgPath ← memcpy size cfgPath 0 ((List.range' dirs len).map mem)
      let cfgPath ← memcpy size cfgPath len (cfgDir ++ [0])
      let n ← spent (strspn mem colon fuel (dirs + len))
      let calls ← splitLoop mem size fuel cfgPath (dirs + len + n)
      return cfgPath :: calls

/-- The part of `construct` that reads the data directories, with the variable of the
environment, the default for it and the block that `malloc` returns. -/
def readDataDirs (fuel : ℕ) (mem : ℕ → Byte) (xdgDataDirs : Option ℕ) (shares : ℕ)
    (cfgPath : ℕ → Byte) : Except Stop (List (ℕ → Byte)) := do
  let dirs := xdgDataDirs.getD shares
  let len ← spent (strlen mem fuel dirs)
  splitLoop mem (len + (cfgDir.length + 1)) fuel cfgPath dirs

def Called (dirs : List (List Byte)) (calls : List (ℕ → Byte)) : Prop :=
  List.Forall₂ (fun dir cfgPath => Holds cfgPath 0 (dir ++ cfgDir)) dirs calls

variable {mem cfgPath : ℕ → Byte} {dirs size fuel : ℕ} {s : List Byte}

theorem cfgDir_nonzero : 0 ∉ cfgDir := by decide

def front (s : List Byte) : List Byte := s.takeWhile (!isColon ·)

def back (s : List Byte) : List Byte := (s.dropWhile (!isColon ·)).dropWhile isColon

theorem pieces_back (x : Byte) (s : List Byte) (hx : isColon x = false) :
    pieces isColon (x :: s) = front (x :: s) :: pieces isColon (back (x :: s)) := by
  rw [pieces_cons s hx, back, pieces_dropWhile]
  rfl

theorem map_range'_block {p : ℕ} {l : List Byte} (h : Block mem p l) :
    (List.range' p l.length).map mem = l := by
  induction l generalizing p with
  | nil => rfl
  | cons x l ih => rw [List.length_cons, List.range'_succ, List.map_cons, h.1, ih h.2]

theorem front_append (s : List Byte) : front s ++ s.dropWhile (!isColon ·) = s :=
  List.takeWhile_append_dropWhile

theorem front_length_le (s : List Byte) : (front s).length ≤ s.length :=
  (List.takeWhile_prefix _).length_le

theorem back_length_le (x : Byte) (s : List Byte) : (back (x :: s)).length ≤ s.length := by
  rw [back]
  by_cases hx : isColon x
  · rw [List.dropWhile_cons_of_neg (by simp [hx]), List.dropWhile_cons_of_pos hx]
    exact (List.dropWhile_suffix _).length_le
  · rw [List.dropWhile_cons_of_pos (by simp [hx])]
    exact ((List.dropWhile_suffix _).trans (List.dropWhile_suffix _)).length_le

theorem back_head (s : List Byte) : ∀ y ∈ (back s).head?, isColon y = false := by
  intro y hy
  have hhead := List.head?_dropWhile_not isColon (s.dropWhile (!isColon ·))
  rw [← back, Option.mem_def.mp hy] at hhead
  exact Bool.eq_false_of_not_eq_true (by simpa using hhead)

theorem holds_cfgPath (m : ℕ → Byte) {dir : List Byte} (hdir : 0 ∉ dir) :
    Holds (write (write m 0 dir) dir.length (cfgDir ++ [0])) 0 (dir ++ cfgDir) := by
  have hnonzero : 0 ∉ dir ++ cfgDir := by
    rw [List.mem_append, not_or]
    exact ⟨hdir, cfgDir_nonzero⟩
  refine .of_block ?_ hnonzero
  rw [List.append_assoc, block_append, Nat.zero_add]
  constructor
  · exact (block_write m 0 dir).write_of_le (Nat.zero_add _).le _
  · exact block_write _ _ _

theorem splitLoop_step (cfgPath : ℕ → Byte) (h : Holds mem dirs s) (hs : s ≠ [])
    (hf : s.length < fuel) (hsize : s.length + (cfgDir.length + 1) ≤ size) :
    ∃ next b, Holds b 0 (front s ++ cfgDir) ∧ Holds mem next (back s) ∧
      splitLoop mem size (fuel + 1) cfgPath dirs =
        (splitLoop mem size fuel b next).map (b :: ·) := by
  have hne : mem dirs ≠ 0 := by
    obtain ⟨x, r, rfl⟩ := List.exists_cons_of_ne_nil hs
    exact h.head_ne
  have hlen := front_length_le s
  have hparts : Holds mem dirs (front s ++ s.dropWhile (!isColon ·)) := by rwa [front_append]
  have hfront : 0 ∉ front s := fun h0 => hparts.nonzero (List.mem_append_left _ h0)
  have hrest := hparts.drop
  have hrun : strcspn mem colon fuel dirs = some (front s).length := span_eq _ h hf
  have hskip : strspn mem colon fuel (dirs + (front s).length) =
      some ((s.dropWhile (!isColon ·)).takeWhile isColon).length :=
    span_eq _ hrest (((List.dropWhile_suffix _).length_le).trans_lt hf)
  have hdir : memcpy size cfgPath 0 (front s) = .ok (write cfgPath 0 (front s)) :=
    if_pos (by omega)
  have hpath : memcpy size (write cfgPath 0 (front s)) (front s).length (cfgDir ++ [0]) =
      .ok (write (write cfgPath 0 (front s)) (front s).length (cfgDir ++ [0])) :=
    if_pos (by rw [List.length_append, List.length_singleton]; omega)
  have hback : Holds mem (dirs + (front s).length +
      ((s.dropWhile (!isColon ·)).takeWhile isColon).length) (back s) := by
    apply Holds.drop
    rwa [back, List.takeWhile_append_dropWhile]
  refine ⟨_, _, holds_cfgPath cfgPath hfront, hback, ?_⟩
  rw [splitLoop, if_neg hne, hrun]
  change (memcpy size cfgPath 0 ((List.range' dirs (front s).length).map mem)).bind _ = _
  rw [map_range'_block (block_append.mp hparts.chars).1, hdir]
  change (memcpy size _ _ _).bind _ = _
  rw [hpath]
  change (spent (strspn mem colon fuel _)).bind _ = _
  rw [hskip]
  rfl

/-- The induction is on the fuel; a string that does not begin with a colon has a piece in
front. -/
theorem splitLoop_called (cfgPath : ℕ → Byte) (h : Holds mem dirs s)
    (hs : ∀ x ∈ s.head?, isColon x = false) (hf : s.length + 1 < fuel)
    (hsize : s.length + (cfgDir.length + 1) ≤ size) :
    ∃ calls, splitLoop mem size fuel cfgPath dirs = .ok calls ∧
      Called (pieces isColon s) calls := by
  induction fuel generalizing s dirs cfgPath with
  | zero => exact absurd hf (Nat.not_lt_zero _)
  | succ fuel ih =>
    cases s with
    | nil =>
      refine ⟨[], if_pos h.ends, ?_⟩
      rw [pieces_nil]
      exact .nil
    | cons x s =>
      have hx : isColon x = false := hs x rfl
      obtain ⟨next, b, hb, hback, hstep⟩ := splitLoop_step cfgPath h (List.cons_ne_nil x s)
        (Nat.lt_of_succ_lt_succ hf) hsize
      have hlen := back_length_le x s
      rw [List.length_cons] at hf hsize
      obtain ⟨calls, hcalls, hcalled⟩ :=
        ih b hback (back_head (x :: s)) (by omega) (by omega)
      refine ⟨b :: calls, by rw [hstep, hcalls]; rfl, ?_⟩
      rw [pieces_back x s hx]
      exact .cons hb hcalled

theorem splitLoop_colon {x : Byte} (cfgPath : ℕ → Byte) (h : Holds mem dirs (x :: s))
    (hx : isColon x) (hf : (x :: s).length + 1 < fuel)
    (hsize : (x :: s).length + (cfgDir.length + 1) ≤ size) :
    ∃ calls, splitLoop mem size fuel cfgPath dirs = .ok calls ∧
      Called ([] :: pieces isColon (x :: s)) calls := by
  obtain ⟨fuel, rfl⟩ := Nat.exists_eq_add_of_le' (Nat.one_le_of_lt hf)
  obtain ⟨next, b, hb, hback, hstep⟩ := splitLoop_step cfgPath h (List.cons_ne_nil x s)
    (Nat.lt_of_succ_lt_succ hf) hsize
  have hlen := back_length_le x s
  rw [List.length_cons] at hf hsize
  have hfuel : (back (x :: s)).length + 1 < fuel := by omega
  have hroom : (back (x :: s)).length + (cfgDir.length + 1) ≤ size := by omega
  obtain ⟨calls, hcalls, hcalled⟩ :=
    splitLoop_called b hback (back_head (x :: s)) hfuel hroom
  have hfront : front (x :: s) = [] := List.takeWhile_cons_of_neg (by simp [hx])
  have hdrop : (x :: s).dropWhile (!isColon ·) = x :: s :=
    List.dropWhile_cons_of_neg (by simp [hx])
  refine ⟨b :: calls, by rw [hstep, hcalls]; rfl, .cons (hfront ▸ hb) ?_⟩
  rwa [back, hdrop, pieces_dropWhile] at hcalled

/-- The loop ends, and in the block. The calls are those for the directories that are not empty
just when there is no colon in front of the first one. -/
theorem readDataDirs_called_iff (cfgPath : ℕ → Byte) {xdgDataDirs : Option ℕ} {shares : ℕ}
    (h : Holds mem (xdgDataDirs.getD shares) s) (hf : s.length + 1 < fuel) :
    ∃ calls, readDataDirs fuel mem xdgDataDirs shares cfgPath = .ok calls ∧
      (Called (pieces isColon s) calls ↔ ∀ x ∈ s.head?, isColon x = false) := by
  have hrun : readDataDirs fuel mem xdgDataDirs shares cfgPath =
      splitLoop mem (s.length + (cfgDir.length + 1)) fuel cfgPath (xdgDataDirs.getD shares) := by
    rw [readDataDirs, strlen_eq h (by omega)]
    rfl
  rw [hrun]
  by_cases hs : ∀ x ∈ s.head?, isColon x = false
  · obtain ⟨calls, hcalls, hcalled⟩ := splitLoop_called cfgPath h hs hf (Nat.le_refl _)
    exact ⟨calls, hcalls, iff_of_true hcalled hs⟩
  · cases s with
    | nil => exact absurd (fun x hx => by cases hx) hs
    | cons x s =>
      have hx : isColon x := by
        by_contra hx
        exact hs fun y hy => by cases hy; exact Bool.eq_false_of_not_eq_true hx
      obtain ⟨calls, hcalls, hcalled⟩ := splitLoop_colon cfgPath h hx hf (Nat.le_refl _)
      refine ⟨calls, hcalls, iff_of_false (fun hc => ?_) hs⟩
      have hlen := hcalled.length_eq
      rw [← hc.length_eq, List.length_cons] at hlen
      exact absurd hlen (Nat.succ_ne_self _)

def environment (dirs : List Byte) : ℕ → Byte := write (fun _ => 0) 0 (dirs ++ [0])

/-- Two directories, with colons between and behind them. -/
theorem readDataDirs_two : ∃ calls,
    readDataDirs 20 (environment (bytes "/a::/b:".toList)) (some 0) 0 (fun _ => 1) = .ok calls ∧
      Called [bytes "/a".toList, bytes "/b".toList] calls := by
  have hpieces : pieces isColon (bytes "/a::/b:".toList) =
      [bytes "/a".toList, bytes "/b".toList] := by
    rw [pieces]
    rfl
  have h0 : 0 ∉ bytes "/a::/b:".toList := by decide
  have h : Holds (environment (bytes "/a::/b:".toList)) ((some 0).getD 0)
      (bytes "/a::/b:".toList) := holds_write _ 0 h0
  obtain ⟨calls, hcalls, hiff⟩ := readDataDirs_called_iff (fun _ => 1) h
    (show (bytes "/a::/b:".toList).length + 1 < 20 by decide)
  rw [hpieces] at hiff
  exact ⟨calls, hcalls, hiff.mpr (by decide)⟩

/-- With a colon in front of the only directory there is a call for `/bionic_translation/cfg.d`
first. -/
theorem readDataDirs_empty : ∃ calls,
    readDataDirs 20 (environment (bytes ":/a".toList)) (some 0) 0 (fun _ => 1) = .ok calls ∧
      pieces isColon (bytes ":/a".toList) = [bytes "/a".toList] ∧
      Called [[], bytes "/a".toList] calls ∧ ¬ Called [bytes "/a".toList] calls := by
  have hpieces : pieces isColon (bytes ":/a".toList) = [bytes "/a".toList] := by
    rw [pieces]
    rfl
  have h0 : 0 ∉ bytes ":/a".toList := by decide
  have h : Holds (environment (bytes ":/a".toList)) 0 (58 :: bytes "/a".toList) :=
    holds_write _ 0 h0
  obtain ⟨calls, hcalls, hcalled⟩ := splitLoop_colon (fun _ => 1) h (by decide)
    (show (58 :: bytes "/a".toList).length + 1 < 20 by decide) (Nat.le_refl _)
  have hrun : readDataDirs 20 (environment (bytes ":/a".toList)) (some 0) 0 (fun _ => 1) =
      .ok calls := by
    rw [← hcalls, readDataDirs]
    exact congrArg (fun o => Except.bind (spent o) _) (strlen_eq h (by decide))
  have htwo : Called [[], bytes "/a".toList] calls := hpieces ▸ hcalled
  refine ⟨calls, hrun, hpieces, htwo, fun hone => ?_⟩
  exact absurd (hone.length_eq.trans htwo.length_eq.symm) (by decide)

end Bionic.DataDirs
