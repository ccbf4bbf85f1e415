import BionicTranslation.Records

/-!
# The override map

`lib_override_map` is a block that doubles when it is full. The cells behind the entries hold
nothing yet, and a store behind the block is undefined. `apkenv_find_library` walks over the
entries once, from the first.
-/

set_option autoImplicit false

namespace Bionic.OverrideMap
open Bionic.Records

abbrev Override := Name × Name

def LIB_OVERRIDE_MAP_DEFAULT_SIZE : ℕ := 8

/-- `lib_override_map`, a null pointer at first, `lib_override_map_len` and
`lib_override_map_size`. -/
structure Map where
  cells : Option (List (Option Override))
  len : ℕ
  size : ℕ

def Map.empty : Map := ⟨none, 0, 0⟩

def Map.allocated (m : Map) : Map :=
  m.cells.elim
    ⟨some (List.replicate LIB_OVERRIDE_MAP_DEFAULT_SIZE none), m.len, LIB_OVERRIDE_MAP_DEFAULT_SIZE⟩
    fun _ => m

def Map.grown (m : Map) : Map :=
  if m.len = m.size then
    { m with
      cells := m.cells.map fun cells => cells ++ List.replicate (m.size * 2 - cells.length) none
      size := m.size * 2 }
  else m

def Map.store (m : Map) (o : Override) : Option Map :=
  m.cells.bind fun cells =>
    if m.len < cells.length then
      some { m with cells := some (cells.set m.len (some o)), len := m.len + 1 }
    else none

def libOverrideMapAppend (m : Map) (o : Override) : Option Map := m.allocated.grown.store o

def stripPrefix (name : Name) : Name :=
  if prefix32.isPrefixOf name then name.drop prefix32.length
  else if prefix64.isPrefixOf name then name.drop prefix64.length
  else name

/-- The loop of `apkenv_find_library` over the entries from `i` on, as many as are given first.
A cell that holds nothing has no name to compare. -/
def searchLoop (cells : List (Option Override)) (name : Name) : ℕ → ℕ → Option Name
  | 0, _ => some name
  | left + 1, i => (cells[i]?.getD none).bind fun o =>
    if o.1 = name then some o.2 else searchLoop cells name left (i + 1)

def findName (m : Map) (name : Name) : Option Name :=
  searchLoop (m.cells.getD []) (stripPrefix name) m.len 0

variable {m : Map} {cells : List (Option Override)} {pairs : List Override} {name : Name}

/-- In the block stand the entries, one after the other, and there is room for `size`. -/
structure Filled (m : Map) (cells : List (Option Override)) (pairs : List Override) : Prop where
  block : m.cells = some cells
  length : cells.length = m.size
  pos : 0 < m.size
  len : m.len = pairs.length
  entries : cells.take m.len = pairs.map some

inductive Lists : Map → List Override → Prop
  | null : Lists .empty []
  | block {m : Map} {cells : List (Option Override)} {pairs : List Override}
      (h : Filled m cells pairs) : Lists m pairs

theorem Lists.allocated (h : Lists m pairs) : ∃ cells, Filled m.allocated cells pairs := by
  cases h with
  | null => exact ⟨_, rfl, rfl, by decide, rfl, rfl⟩
  | block h =>
    have hm : m.allocated = m := by rw [Map.allocated, h.block]; rfl
    exact ⟨_, hm ▸ h⟩

theorem Filled.len_le (h : Filled m cells pairs) : m.len ≤ m.size := by
  have hlen := congrArg List.length h.entries
  rw [List.length_take, List.length_map, ← h.len, h.length] at hlen
  omega

theorem Filled.grown (h : Filled m cells pairs) :
    ∃ cells, Filled m.grown cells pairs ∧ m.grown.len < m.grown.size := by
  have hle := h.len_le
  have hpos := h.pos
  rw [Map.grown]
  by_cases hfull : m.len = m.size
  · rw [if_pos hfull, h.block]
    refine ⟨cells ++ List.replicate (m.size * 2 - cells.length) none, ⟨rfl, ?_, ?_, h.len, ?_⟩, ?_⟩
    · rw [List.length_append, List.length_replicate, h.length]
      show m.size + (m.size * 2 - m.size) = m.size * 2
      omega
    · show 0 < m.size * 2
      omega
    · show (cells ++ _).take m.len = pairs.map some
      rw [List.take_append_of_le_length (by rw [h.length]; exact hle), h.entries]
    · show m.len < m.size * 2
      omega
  · rw [if_neg hfull]
    exact ⟨cells, h, by omega⟩

theorem Filled.store (h : Filled m cells pairs) (hlt : m.len < m.size) (o : Override) :
    ∃ m', m.store o = some m' ∧ Lists m' (pairs ++ [o]) := by
  have hin : m.len < cells.length := by rwa [h.length]
  refine ⟨{ m with cells := some (cells.set m.len (some o)), len := m.len + 1 }, ?_,
    .block ⟨rfl, ?_, h.pos, ?_, ?_⟩⟩
  · rw [Map.store, h.block, Option.bind_some, if_pos hin]
  · rw [List.length_set]
    exact h.length
  · rw [List.length_append, List.length_singleton, ← h.len]
  · show (cells.set m.len (some o)).take (m.len + 1) = _
    rw [List.take_succ_eq_append_getElem (by rwa [List.length_set]), List.getElem_set_self,
      List.take_set_of_le (Nat.le_refl _), h.entries, List.map_append]
    rfl

theorem Lists.append (h : Lists m pairs) (o : Override) :
    ∃ m', libOverrideMapAppend m o = some m' ∧ Lists m' (pairs ++ [o]) := by
  obtain ⟨cells, hallocated⟩ := h.allocated
  obtain ⟨cells', hgrown, hlt⟩ := hallocated.grown
  exact hgrown.store hlt o

/-- The second name of the first entry with this one, or the name. -/
def firstOverride (pairs : List Override) (name : Name) : Name :=
  (pairs.find? fun o => o.1 = name).elim name Prod.snd

theorem resolve_eq (pairs : List Override) (name : Name) :
    resolve pairs name = firstOverride pairs (stripPrefix name) := by
  unfold resolve firstOverride
  generalize hn : stripPrefix name = n
  rw [stripPrefix] at hn
  simp only [hn]
  cases pairs.find? fun o => decide (o.1 = n) <;> rfl

theorem searchLoop_eq (name : Name) {rest : List Override} {i : ℕ}
    (h : ∀ (j : ℕ) (hj : j < rest.length), cells[i + j]? = some (some rest[j])) :
    searchLoop cells name rest.length i = some (firstOverride rest name) := by
  induction rest generalizing i with
  | nil => rfl
  | cons o rest ih =>
    have hfirst : cells[i]? = some (some o) := h 0 (Nat.succ_pos _)
    rw [List.length_cons, searchLoop, hfirst, Option.getD_some, Option.bind_some, firstOverride]
    by_cases ho : o.1 = name
    · rw [if_pos ho, List.find?_cons_of_pos (by simpa using ho)]
      rfl
    · rw [if_neg ho, List.find?_cons_of_neg (by simpa using ho)]
      apply ih
      intro j hj
      rw [show i + 1 + j = i + (j + 1) by omega]
      exact h (j + 1) (Nat.succ_lt_succ hj)

theorem Lists.findName (h : Lists m pairs) (name : Name) :
    findName m name = some (firstOverride pairs (stripPrefix name)) := by
  cases h with
  | null => rfl
  | @block _ cells _ h =>
    rw [OverrideMap.findName, h.block, h.len]
    apply searchLoop_eq
    intro j hj
    have hget : (cells.take m.len)[j]? = some (some pairs[j]) := by
      rw [h.entries, List.getElem?_map, List.getElem?_eq_getElem hj]
      rfl
    rw [List.getElem?_take_of_lt (h.len ▸ hj)] at hget
    rw [Nat.zero_add]
    exact hget

end Bionic.OverrideMap
