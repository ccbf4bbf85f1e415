import BionicTranslation.OpenLibrary

/-!
# Search paths that are added

`apkenv_add_sopath` puts a path behind the default ones in an array of nine pointers, of
which the last stays NULL and ends the loop of `apkenv_open_library`. In the order in which
they were added the first paths are kept, each of them once.
-/

set_option autoImplicit false

namespace Bionic.SearchPaths
open Bionic.CStrings Bionic.WrapperNames Bionic.OpenLibrary

section lists
variable {α : Type*} [DecidableEq α]

def insertNew (l : List α) (a : α) : List α := if a ∈ l then l else l ++ [a]

def insertBounded (n : ℕ) (l : List α) (a : α) : List α :=
  if a ∈ l then l else if l.length < n then l ++ [a] else l

theorem insertNew_take (n : ℕ) (l : List α) (a : α) :
    (insertNew l a).take n = insertBounded n (l.take n) a := by
  unfold insertNew insertBounded
  by_cases hl : l.length < n
  · rw [List.take_of_length_le hl.le]
    split_ifs with ha
    · exact List.take_of_length_le hl.le
    · rw [List.take_of_length_le]
      rw [List.length_append, List.length_singleton]
      omega
  · have hfull : ¬ (l.take n).length < n := by
      rw [List.length_take]
      omega
    have hkeep : (l ++ [a]).take n = l.take n := List.take_append_of_le_length (by omega)
    rw [if_neg hfull, ite_self]
    split_ifs
    · rfl
    · exact hkeep

theorem foldl_insert_take (n : ℕ) (as l : List α) :
    (as.foldl insertNew l).take n = as.foldl (insertBounded n) (l.take n) := by
  induction as generalizing l with
  | nil => rfl
  | cons a as ih => rw [List.foldl_cons, List.foldl_cons, ih, insertNew_take]

theorem insertBounded_length {n : ℕ} {l : List α} (h : l.length ≤ n) (a : α) :
    (insertBounded n l a).length ≤ n := by
  unfold insertBounded
  split_ifs with _ hlt
  · exact h
  · rw [List.length_append, List.length_singleton]
    omega
  · exact h

end lists

def SOPATH_MAX : ℕ := 8

abbrev Slot := Option (CString Byte)

instance : DecidableEq (CString Byte) := fun s t =>
  decidable_of_iff (s.chars = t.chars) ⟨CString.ext, congrArg CString.chars⟩

/-- The loop of `apkenv_add_sopath` over the slots that are left, with the value returned. -/
def addLoop (path : CString Byte) : ℕ → List Slot → List Slot × ℤ
  | 0, slots => (slots, -1)
  | _ + 1, [] => ([], -1)
  | _ + 1, none :: slots => (some path :: slots, 0)
  | left + 1, some p :: slots =>
    if path = p then (some p :: slots, 0)
    else (some p :: (addLoop path left slots).1, (addLoop path left slots).2)

def addSopath (apkenv_sopaths : List Slot) (path : CString Byte) : List Slot × ℤ :=
  addLoop path SOPATH_MAX apkenv_sopaths

def upToNull : List Slot → List (CString Byte)
  | some p :: slots => p :: upToNull slots
  | _ => []

def vendorLib : CString Byte := ⟨[47, 118, 101, 110, 100, 111, 114, 47, 108, 105, 98], by decide⟩

def systemLib : CString Byte := ⟨[47, 115, 121, 115, 116, 101, 109, 47, 108, 105, 98], by decide⟩

def defaultPaths : List (CString Byte) := [vendorLib, systemLib]

def slotsOf (n : ℕ) (l : List (CString Byte)) : List Slot :=
  l.map some ++ List.replicate (n - l.length) none

def initialSopaths : List Slot := slotsOf (SOPATH_MAX + 1) defaultPaths

theorem upToNull_slotsOf {n : ℕ} (l : List (CString Byte)) : upToNull (slotsOf n l) = l := by
  induction l generalizing n with
  | nil =>
    cases n with
    | zero => rfl
    | succ n => rfl
  | cons p l ih =>
    have hrest : slotsOf n (p :: l) = some p :: slotsOf (n - 1) l := by
      rw [slotsOf, slotsOf, List.map_cons, List.cons_append, List.length_cons, Nat.sub_sub,
        Nat.add_comm 1]
    rw [hrest, upToNull, ih]

/-- The loop puts the path into the first empty slot that it comes to. The induction is on
the paths in the array. -/
theorem addLoop_slotsOf {left : ℕ} {l : List (CString Byte)} (h : l.length ≤ left)
    (path : CString Byte) : (addLoop path left (slotsOf (left + 1) l)).1 =
        slotsOf (left + 1) (insertBounded left l path) ∧
      ((addLoop path left (slotsOf (left + 1) l)).2 = 0 ↔ path ∈ insertBounded left l path) := by
  induction l generalizing left with
  | nil =>
    cases left with
    | zero => exact ⟨rfl, by simp [addLoop, insertBounded]⟩
    | succ left => exact ⟨rfl, by simp [addLoop, slotsOf, insertBounded, List.replicate_succ]⟩
  | cons p l ih =>
    obtain ⟨left, rfl⟩ : ∃ k, left = k + 1 := ⟨left - 1, by rw [List.length_cons] at h; omega⟩
    have hcons : ∀ l' : List (CString Byte),
        slotsOf (left + 1 + 1) (p :: l') = some p :: slotsOf (left + 1) l' := by
      intro l'
      rw [slotsOf, slotsOf, List.map_cons, List.cons_append, List.length_cons,
        Nat.add_sub_add_right]
    obtain ⟨hslots, hret⟩ := ih (Nat.le_of_succ_le_succ h)
    rw [hcons, addLoop]
    by_cases hp : path = p
    · subst hp
      have hkeep : insertBounded (left + 1) (path :: l) path = path :: l :=
        if_pos List.mem_cons_self
      rw [if_pos rfl, hkeep, hcons]
      exact ⟨rfl, iff_of_true rfl List.mem_cons_self⟩
    · have hstep : insertBounded (left + 1) (p :: l) path = p :: insertBounded left l path := by
        unfold insertBounded
        simp only [List.mem_cons, hp, false_or, List.length_cons, Nat.add_lt_add_iff_right]
        split_ifs <;> rfl
      rw [if_neg hp, hstep, hcons, hslots, List.mem_cons]
      exact ⟨rfl, hret.trans (or_iff_right hp).symm⟩

def afterAdds (paths : List (CString Byte)) : List Slot :=
  paths.foldl (fun slots p => (addSopath slots p).1) initialSopaths

theorem afterAdds_eq (paths : List (CString Byte)) :
    afterAdds paths =
        slotsOf (SOPATH_MAX + 1) (paths.foldl (insertBounded SOPATH_MAX) defaultPaths) ∧
      (paths.foldl (insertBounded SOPATH_MAX) defaultPaths).length ≤ SOPATH_MAX := by
  have hrun : ∀ l : List (CString Byte), l.length ≤ SOPATH_MAX →
      paths.foldl (fun slots p => (addSopath slots p).1) (slotsOf (SOPATH_MAX + 1) l) =
        slotsOf (SOPATH_MAX + 1) (paths.foldl (insertBounded SOPATH_MAX) l) ∧
      (paths.foldl (insertBounded SOPATH_MAX) l).length ≤ SOPATH_MAX := by
    induction paths with
    | nil => exact fun l hl => ⟨rfl, hl⟩
    | cons p paths ih =>
      intro l hl
      rw [List.foldl_cons, List.foldl_cons, addSopath, (addLoop_slotsOf hl p).1]
      exact ih _ (insertBounded_length hl p)
  exact hrun defaultPaths (by decide)

/-- The paths that are searched after the calls: of the default ones and the new ones,
without repetitions, the first eight. -/
def kept (paths : List (CString Byte)) : List (CString Byte) :=
  (paths.foldl insertNew defaultPaths).take SOPATH_MAX

theorem afterAdds_kept (paths : List (CString Byte)) :
    afterAdds paths = slotsOf (SOPATH_MAX + 1) (kept paths) ∧ (kept paths).length ≤ SOPATH_MAX := by
  have hkept : kept paths = paths.foldl (insertBounded SOPATH_MAX) defaultPaths :=
    foldl_insert_take SOPATH_MAX paths defaultPaths
  rw [hkept]
  exact afterAdds_eq paths

theorem addSopath_kept (paths : List (CString Byte)) (path : CString Byte) :
    (addSopath (afterAdds paths) path).2 = 0 ↔ path ∈ kept (paths ++ [path]) := by
  obtain ⟨harray, hlen⟩ := afterAdds_kept paths
  have hnext : kept (paths ++ [path]) = insertBounded SOPATH_MAX (kept paths) path := by
    rw [kept, List.foldl_append]
    exact insertNew_take _ _ _
  rw [harray, hnext]
  exact (addLoop_slotsOf hlen path).2

/-- After any calls the array ends in NULL, the next call succeeds just when its path is then
among those kept, and a library is searched for in these, in order, after the paths of the
environment. -/
theorem adds_searched (paths : List (CString Byte)) :
    (afterAdds paths)[SOPATH_MAX]? = some none ∧
    (∀ path, (addSopath (afterAdds paths) path).2 = 0 ↔ path ∈ kept (paths ++ [path])) ∧
    ∀ (fs : Files) (ldpaths : List (CString Byte)) (name : CString Byte) (fullpath : ℕ → Byte),
      Finds fs
        (if name.chars.length ≤ 256 then firstReadable fs name ldpaths (kept paths) else none)
        (openLibrary fs ldpaths (upToNull (afterAdds paths)) (some name) fullpath) := by
  obtain ⟨harray, hlen⟩ := afterAdds_kept paths
  refine ⟨?_, addSopath_kept paths, fun fs ldpaths name fullpath => ?_⟩
  · have hpad : SOPATH_MAX - (kept paths).length < SOPATH_MAX + 1 - (kept paths).length := by
      omega
    rw [harray, slotsOf, List.getElem?_append_right (by rwa [List.length_map]), List.length_map,
      List.getElem?_replicate, if_pos hpad]
  · rw [harray, upToNull_slotsOf]
    split_ifs with hname
    · exact openLibrary_finds fs ldpaths (kept paths) fullpath hname
    · rw [openLibrary, Option.bind_some, if_pos (by omega)]
      exact .none

end Bionic.SearchPaths
