import BionicTranslation.CStrings
import BionicTranslation.Records

/-!
# Finalisers of the main program

`__libc_fini` runs when the process exits. A first loop counts the entries of the array behind
its sentinel, a second one goes down from that count. Counted from there, the entries stand
below the count, and the null pointer that ends the array stands at it.
-/

set_option autoImplicit false

namespace Bionic.FiniArray
open Bionic.CStrings Bionic.Elf

variable {c : ElfClass}

def INT_MAX : ℕ := 2 ^ 31 - 1

def sentinel (c : ElfClass) : Addr c := BitVec.allOnes c.bits

/-- What was called, in order, or an overflow of the `int` that counts. -/
inductive Outcome (c : ElfClass) where
  | overflow
  | called (calls : List (Addr c))

/-- `for (count = 0; fini_array[count]; ++count)`. The inner option is `none` on overflow. -/
def countLoop (mem : ℕ → Addr c) (finiArray : ℕ) : ℕ → ℕ → Option (Option ℕ)
  | 0, _ => none
  | fuel + 1, count =>
    if mem (finiArray + count) = 0 then some (some count)
    else if count < INT_MAX then countLoop mem finiArray fuel (count + 1)
    else some none

/-- `for (; count > 0; --count)`. A call of the null pointer does not come back. -/
def callLoop (mem : ℕ → Addr c) (finiArray : ℕ) : ℕ → List (Addr c)
  | 0 => []
  | count + 1 =>
    let fini := mem (finiArray + (count + 1))
    if fini ≠ sentinel c then
      fini :: if fini = 0 then [] else callLoop mem finiArray count
    else callLoop mem finiArray count

/-- `__libc_fini`, with the array as a place of a memory of words. -/
def libcFini (fuel : ℕ) (mem : ℕ → Addr c) (array : Option ℕ) : Option (Outcome c) :=
  array.elim (some (.called [])) fun array =>
    if mem array ≠ sentinel c then some (.called [])
    else (countLoop mem (array + 1) fuel 0).map fun count =>
      count.elim .overflow fun count => .called (callLoop mem (array + 1) count)

/-- The calls are those of the entries `fs` that are not the sentinel, the last one first, and
none of them is of the null pointer. -/
def Finalised (fs : List (Addr c)) (o : Outcome c) : Prop :=
  o = .called (fs.filter fun f => f ≠ sentinel c).reverse ∧ ∀ calls, o = .called calls → 0 ∉ calls

variable {mem : ℕ → Addr c} {base count fuel : ℕ} {fs : List (Addr c)}

theorem countLoop_eq (h : Holds mem (base + count) fs) (hcount : count ≤ INT_MAX)
    (hf : fs.length < fuel) :
    countLoop mem base fuel count =
      some (if count + fs.length ≤ INT_MAX then some (count + fs.length) else none) := by
  generalize hp : base + count = p at h
  induction h, hf using Holds.walk generalizing count with
  | stop _ hz => rw [countLoop, hp, if_pos hz, List.length_nil, Nat.add_zero, if_pos hcount]
  | @step _ _ f fs h _ ih =>
    rw [countLoop, hp, if_neg h.head_ne, List.length_cons]
    by_cases hlt : count < INT_MAX
    · have hnext : base + (count + 1) = _ + 1 := congrArg (· + 1) hp
      rw [if_pos hlt, ih hlt hnext, show count + 1 + fs.length = count + (fs.length + 1) by omega]
    · rw [if_neg hlt, if_neg (by omega)]

theorem callLoop_null (hend : mem (base + (count + 1)) = 0) :
    callLoop mem base (count + 1) = [0] := by
  have hne : (0 : Addr c) ≠ sentinel c := by cases c <;> decide
  rw [callLoop, hend, if_pos hne, if_pos rfl]

theorem libcFini_eq (h : Holds mem base (sentinel c :: fs)) (hf : fs.length < fuel) :
    libcFini fuel mem (some base) =
      some (if fs.length ≤ INT_MAX then .called (if fs = [] then [] else [0]) else .overflow) := by
  have hsentinel : ¬ mem base ≠ sentinel c := not_not.mpr h.chars.1
  have hcount := countLoop_eq (show Holds mem (base + 1 + 0) fs from h.tail) (Nat.zero_le _) hf
  rw [Nat.zero_add] at hcount
  rw [libcFini, Option.elim_some, if_neg hsentinel, hcount, Option.map_some]
  by_cases hlen : fs.length ≤ INT_MAX
  · rw [if_pos hlen, if_pos hlen, Option.elim_some]
    cases fs with
    | nil => rfl
    | cons f fs =>
      rw [List.length_cons, callLoop_null, if_neg (List.cons_ne_nil f fs)]
      exact h.tail.ends
  · rw [if_neg hlen, if_neg hlen]
    rfl

/-- Behind the sentinel the entries are called as they should be just when there are none. -/
theorem libcFini_finalised_iff (h : Holds mem base (sentinel c :: fs)) (hf : fs.length < fuel) :
    ∃ o, libcFini fuel mem (some base) = some o ∧ (Finalised fs o ↔ fs = []) := by
  refine ⟨_, libcFini_eq h hf, ?_⟩
  constructor
  · rintro ⟨ho, hnull⟩
    by_contra hne
    by_cases hlen : fs.length ≤ INT_MAX
    · rw [if_pos hlen, if_neg hne] at hnull
      exact hnull [0] rfl (List.mem_singleton_self 0)
    · rw [if_neg hlen] at ho
      cases ho
  · rintro rfl
    exact ⟨rfl, fun calls hcalls => by cases hcalls; exact List.not_mem_nil⟩

theorem libcFini_finalised_nil :
    ∃ o, libcFini 1 (write (fun _ => 0) 0 [sentinel .elf64, 0]) (some 0) = some o ∧
      Finalised [] o := by
  have h : Holds (write (fun _ => 0) 0 ([sentinel .elf64] ++ [0])) 0 [sentinel .elf64] :=
    holds_write _ 0 (by decide)
  obtain ⟨o, ho, hiff⟩ := libcFini_finalised_iff h (Nat.lt_succ_self 0)
  exact ⟨o, ho, hiff.mpr rfl⟩

/-- One finaliser at `0x1000`: the null pointer is called and the finaliser is not. -/
theorem libcFini_calls_null :
    libcFini 2 (write (fun _ => 0) 0 [sentinel .elf64, 0x1000, 0]) (some 0) =
        some (.called [0]) ∧
      ¬ Finalised [(0x1000 : Addr .elf64)] (.called [0]) := by
  constructor
  · rfl
  · exact fun hfin => hfin.2 [0] rfl (List.mem_singleton_self 0)

end Bionic.FiniArray
