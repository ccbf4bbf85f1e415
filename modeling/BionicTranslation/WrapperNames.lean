import BionicTranslation.CStrings
import BionicTranslation.RelocSymbols

/-!
# The name of a wrapper

`apkenv_reloc_library`, in both builds, and `bionic_dlsym` look for a wrapper
under the name of the symbol with `bionic_` before it. They put that name
together in an array on the stack, and leave its end to the zeros of the array's
initialiser.
-/

set_option autoImplicit false

namespace Bionic.WrapperNames
open Bionic.CStrings

abbrev Byte := BitVec 8

def bytes (name : List Char) : List Byte := name.map fun ch => BitVec.ofNat 8 ch.toNat

theorem bytes_append (x y : List Char) : bytes (x ++ y) = bytes x ++ bytes y :=
  List.map_append

def wrapPrefix : List Byte := bytes "bionic_".toList

/-- The array starts at 0; behind its 1024 bytes stands whatever else is on the stack. -/
def wrapSymName (stack : ℕ → Byte) (symName : CString Byte) : ℕ → Byte :=
  let array := write stack 0 (wrapPrefix ++ List.replicate (1024 - 7) 0)
  write array 7 (symName.chars.take (min (1024 - 7) symName.chars.length))

def relaWrapper (stack : ℕ → Byte) (symtab : ℕ → CString Byte) (type sym : ℕ) :
    Option (ℕ → Byte) :=
  if type = 0 then none
  else if sym ≠ 0 then some (wrapSymName stack (symtab sym)) else none

def relWrapper (stack : ℕ → Byte) (symtab : ℕ → CString Byte) (sym : ℕ) : Option (ℕ → Byte) :=
  if sym ≠ 0 then some (wrapSymName stack (symtab sym)) else none

def dlsymWrapper (stack : ℕ → Byte) (symbol : Option (CString Byte)) : Option (ℕ → Byte) :=
  symbol.map (wrapSymName stack)

inductive Call where
  | rela (symtab : ℕ → CString Byte) (type sym : ℕ)
  | rel (symtab : ℕ → CString Byte) (sym : ℕ)
  | dlsym (symbol : Option (CString Byte))

namespace Call

def passed (stack : ℕ → Byte) : Call → Option (ℕ → Byte)
  | rela symtab type sym => relaWrapper stack symtab type sym
  | rel symtab sym => relWrapper stack symtab sym
  | dlsym symbol => dlsymWrapper stack symbol

def symbol : Call → Option (CString Byte)
  | rela symtab type sym => if type ≠ 0 ∧ sym ≠ 0 then some (symtab sym) else none
  | rel symtab sym => if sym ≠ 0 then some (symtab sym) else none
  | dlsym symbol => symbol

theorem passed_eq (stack : ℕ → Byte) (call : Call) :
    call.passed stack = call.symbol.map (wrapSymName stack) := by
  cases call with
  | rela symtab type sym =>
    by_cases ht : type = 0
    · simp [passed, relaWrapper, symbol, ht]
    · by_cases hs : sym = 0 <;> simp [passed, relaWrapper, symbol, ht, hs]
  | rel symtab sym => by_cases hs : sym = 0 <;> simp [passed, relWrapper, symbol, hs]
  | dlsym symbol => rfl

end Call

/-- The array holds `bionic_`, the whole name and the terminator. -/
structure Named (array : ℕ → Byte) (symName : CString Byte) : Prop where
  holds : Holds array 0 (wrapPrefix ++ symName.chars)
  inside : (wrapPrefix ++ symName.chars).length < 1024

variable {stack : ℕ → Byte} {symName : CString Byte}

theorem wrapPrefix_length : wrapPrefix.length = 7 := rfl

theorem wrapPrefix_nonzero : 0 ∉ wrapPrefix := by decide

theorem nonzero_append (symName : CString Byte) : 0 ∉ wrapPrefix ++ symName.chars := by
  intro h
  rcases List.mem_append.mp h with h | h
  · exact wrapPrefix_nonzero h
  · exact symName.nonzero h

theorem wrapSymName_block (stack : ℕ → Byte) (symName : CString Byte) :
    Block (wrapSymName stack symName) 0 (wrapPrefix ++ symName.chars.take 1017) := by
  have htake : symName.chars.take (min (1024 - 7) symName.chars.length) =
      symName.chars.take 1017 := by
    rw [List.take_eq_take_iff]
    omega
  rw [wrapSymName, htake]
  apply block_append.mpr
  constructor
  · exact (block_append.mp (block_write stack 0 _)).1.write_of_le (Nat.le_refl 7) _
  · exact block_write _ 7 _

theorem wrapSymName_ends (h : symName.chars.length ≤ 1016) :
    wrapSymName stack symName (7 + symName.chars.length) = 0 := by
  rw [wrapSymName, write_above (by rw [List.length_take]; omega)]
  have hi : 7 + symName.chars.length <
      (wrapPrefix ++ List.replicate (1024 - 7) (0 : Byte)).length := by
    rw [List.length_append, wrapPrefix_length, List.length_replicate]
    omega
  have hget := write_get (m := stack) (p := 0) hi
  rw [Nat.zero_add] at hget
  rw [hget, List.getElem_append_right (by rw [wrapPrefix_length]; omega), List.getElem_replicate]

theorem named_of_le (h : symName.chars.length ≤ 1016) :
    Named (wrapSymName stack symName) symName := by
  have hblock := wrapSymName_block stack symName
  rw [List.take_of_length_le (by omega)] at hblock
  constructor
  · refine ⟨hblock, nonzero_append symName, ?_⟩
    rw [List.length_append, wrapPrefix_length, Nat.zero_add]
    exact wrapSymName_ends h
  · rw [List.length_append, wrapPrefix_length]
    omega

theorem named_iff : Named (wrapSymName stack symName) symName ↔ symName.chars.length ≤ 1016 := by
  constructor
  · intro h
    have hin := h.inside
    rw [List.length_append, wrapPrefix_length] at hin
    omega
  · exact named_of_le

/-- Of a name without room for its end the array holds the first 1017 characters, and the
string goes on behind the array. -/
theorem wrapSymName_cut (h : 1017 ≤ symName.chars.length) (hstack : stack 1024 = 0) :
    Holds (wrapSymName stack symName) 0 (wrapPrefix ++ symName.chars.take 1017) where
  chars := wrapSymName_block stack symName
  nonzero := by
    intro h0
    apply nonzero_append symName
    rw [← List.take_append_drop 1017 symName.chars, ← List.append_assoc]
    exact List.mem_append_left _ h0
  ends := by
    have hlen : (wrapPrefix ++ symName.chars.take 1017).length = 1024 := by
      rw [List.length_append, wrapPrefix_length, List.length_take]
      omega
    rw [hlen, wrapSymName, write_above, write_above, Nat.zero_add, hstack]
    · rw [List.length_append, wrapPrefix_length, List.length_replicate]
    · rw [List.length_take]
      omega

theorem Named.unique {array array' : ℕ → Byte} {name name' : CString Byte} {s : List Byte}
    (h : Named array name) (h' : Named array' name') (hs : Holds array 0 s)
    (hs' : Holds array' 0 s) : name = name' := by
  have heq : wrapPrefix ++ name.chars = wrapPrefix ++ name'.chars :=
    (h.holds.unique hs).trans (hs'.unique h'.holds)
  exact CString.ext (List.append_cancel_left heq)

theorem wrapSymName_bytes {name : List Char} (hn : symName.chars = bytes name)
    (h : name.length ≤ 1016) :
    Holds (wrapSymName stack symName) 0 (bytes (RelocSymbols.wrapSymName name)) := by
  have hlen : symName.chars.length ≤ 1016 := by rwa [hn, bytes, List.length_map]
  have hall : name.take 1017 = name := List.take_of_length_le (h.trans (by decide))
  have heq : wrapPrefix ++ symName.chars = bytes (RelocSymbols.wrapSymName name) := by
    rw [hn, wrapPrefix, ← bytes_append]
    exact congrArg (fun n => bytes ("bionic_".toList ++ n)) hall.symm
  exact heq ▸ (named_of_le hlen).holds

theorem wrapper_named_iff (call : Call) (stack : ℕ → Byte) :
    ((∀ array ∈ call.passed stack, ∃ symName ∈ call.symbol, Named array symName) ↔
      ∀ symName ∈ call.symbol, symName.chars.length ≤ 1016) ∧
    ∀ (call' : Call) (stack' : ℕ → Byte), ∀ x ∈ call.symbol, ∀ y ∈ call'.symbol,
      x.chars.length ≤ 1016 → y.chars.length ≤ 1016 →
      ∀ array ∈ call.passed stack, ∀ array' ∈ call'.passed stack', ∀ s,
        Holds array 0 s → Holds array' 0 s → x = y := by
  constructor
  · rw [Call.passed_eq]
    cases hsym : call.symbol with
    | none => simp
    | some symName => simpa using named_iff
  · intro call' stack' x hx y hy hxlen hylen array ha array' ha' s hs hs'
    rw [Call.passed_eq, Option.mem_def.mp hx] at ha
    rw [Call.passed_eq, Option.mem_def.mp hy] at ha'
    rw [← Option.some.inj ha] at hs
    rw [← Option.some.inj ha'] at hs'
    exact (named_of_le hxlen).unique (named_of_le hylen) hs hs'

theorem short_name_named :
    let open_ : Call := .dlsym (some ⟨bytes "open".toList, by decide⟩)
    ∀ array ∈ open_.passed (fun _ => 1), ∃ symName ∈ open_.symbol, Named array symName :=
  (wrapper_named_iff _ _).1.mpr fun symName h => by
    rw [← Option.some.inj h]
    decide

def longName (ch : Byte) (h : ch ≠ 0) : CString Byte where
  chars := List.replicate 1017 97 ++ [ch]
  nonzero := by
    rw [List.mem_append, List.mem_replicate, List.mem_singleton]
    rintro (⟨-, h0⟩ | h0)
    · exact absurd h0 (by decide)
    · exact h h0.symm

theorem long_names_merge :
    let x := longName 98 (by decide)
    let y := longName 99 (by decide)
    x ≠ y ∧ ∀ array ∈ (Call.dlsym (some x)).passed (fun _ => 0),
      ∀ array' ∈ (Call.dlsym (some y)).passed (fun _ => 0),
        ¬ Named array x ∧ ¬ Named array' y ∧ ∃ s, Holds array 0 s ∧ Holds array' 0 s := by
  intro x y
  have hlen (ch : Byte) (h : ch ≠ 0) : (longName ch h).chars.length = 1018 := by
    rw [longName, List.length_append, List.length_replicate, List.length_singleton]
  have htake (ch : Byte) (h : ch ≠ 0) :
      (longName ch h).chars.take 1017 = List.replicate 1017 97 := by
    rw [longName, List.take_left' List.length_replicate]
  have hnot (ch : Byte) (h : ch ≠ 0) :
      ¬ Named (wrapSymName (fun _ => 0) (longName ch h)) (longName ch h) := by
    rw [named_iff, hlen]
    omega
  have hcut (ch : Byte) (h : ch ≠ 0) :
      Holds (wrapSymName (fun _ => 0) (longName ch h)) 0
        (wrapPrefix ++ List.replicate 1017 97) := by
    rw [← htake ch h]
    exact wrapSymName_cut (by rw [hlen]; omega) rfl
  constructor
  · intro h
    have hlast := List.append_cancel_left (congrArg CString.chars h)
    exact absurd hlast (by decide)
  · intro array ha array' ha'
    rw [← Option.some.inj ha, ← Option.some.inj ha']
    exact ⟨hnot 98 _, hnot 99 _, _, hcut 98 _, hcut 99 _⟩

end Bionic.WrapperNames
