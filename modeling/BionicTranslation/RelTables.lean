import BionicTranslation.RelocSymbols

/-!
# Relocation tables without addends

`apkenv_reloc_library` of the 32-bit builds for ARM and i386. The addend is what
the field holds. The pointer `s` to a symbol lives across the entries of a table
and keeps its value when a hook answers for the symbol; R_ARM_COPY reads the size
through it.
-/

set_option autoImplicit false

namespace Bionic.RelTables
open Bionic.Bytes Bionic.Elf Bionic.RelocSymbols

abbrev Addr32 := Addr .elf32
abbrev Mem32 := Mem .elf32

inductive Arch where
  | arm
  | i386
  deriving DecidableEq, Repr

structure Rel where
  r_offset : Addr32
  r_info : BitVec 32
  deriving DecidableEq, Repr

def Rel.type (r : Rel) : ℕ := r.r_info.toNat % 0x100

def Rel.sym (r : Rel) : ℕ := r.r_info.toNat / 0x100

def Rel.reloc (r : Rel) (base : Addr32) : Addr32 := r.r_offset + base

/-- `abs32` is R_ARM_ABS32 or R_386_32 and `rel32` is R_ARM_REL32 or R_386_PC32. -/
inductive RelocType where
  | none
  | abs32
  | rel32
  | copy
  | globDat
  | jumpSlot
  | relative
  | other (n : ℕ)
  deriving DecidableEq, Repr

def relocType : Arch → ℕ → RelocType
  | .arm, 0 => .none
  | .arm, 2 => .abs32
  | .arm, 3 => .rel32
  | .arm, 20 => .copy
  | .arm, 21 => .globDat
  | .arm, 22 => .jumpSlot
  | .arm, 23 => .relative
  | .i386, 0 => .none
  | .i386, 1 => .abs32
  | .i386, 2 => .rel32
  | .i386, 6 => .globDat
  | .i386, 7 => .jumpSlot
  | .i386, 8 => .relative
  | _, n => .other n

def weakValue (arch : Arch) (reloc : Addr32) : RelocType → Option Addr32
  | .jumpSlot | .globDat | .abs32 | .relative => some 0
  | .none => if arch = .arm then some 0 else Option.none
  | .rel32 => if arch = .i386 then some reloc else Option.none
  | _ => Option.none

/-- The variable `s`, which is not initialized. -/
inductive SymPtr where
  | unset
  | null
  | sym (s : Sym .elf32)

/-- What the symbol part of an entry leaves in `s`. -/
def nextPtr (env : SymEnv .elf32) (sym : ℕ) (s : SymPtr) : SymbolRef .elf32 → SymPtr
  | .hook _ => s
  | .definition d _ => .sym d
  | .host _ => .null
  | .weak => .sym (env.symtab sym)
  | .missing => .sym (env.symtab sym)

/-- `memcpy`, for ranges that do not overlap. -/
def copyBytes (m : Mem32) (dest src : Addr32) (n : ℕ) : Mem32 := fun a =>
  if Within dest n a then m (src + (a - dest)) else m a

inductive Outcome where
  | done (s : SymPtr) (m : Mem32)
  | refused (m : Mem32)
  | crash (m : Mem32)

def applyEntry (arch : Arch) (base : Addr32) (r : Rel) (s : SymPtr) (sym_addr : Addr32)
    (m : Mem32) : Outcome :=
  let reloc := r.reloc base
  match relocType arch r.type with
  | .jumpSlot => .done s (store m reloc sym_addr)
  | .globDat => .done s (store m reloc sym_addr)
  | .abs32 => .done s (store m reloc (load 4 m reloc + sym_addr))
  | .rel32 =>
    match arch with
    | .arm => .done s (store m reloc (load 4 m reloc + (sym_addr - r.r_offset)))
    | .i386 => .done s (store m reloc (load 4 m reloc + (sym_addr - reloc)))
  | .relative =>
    if r.sym ≠ 0 then .refused m else .done s (store m reloc (load 4 m reloc + base))
  | .copy =>
    match s with
    | .sym d => .done s (copyBytes m reloc sym_addr d.st_size.toNat)
    | .null => .crash m
    | .unset => .crash m
  | .none =>
    match arch with
    | .arm => .done s m
    | .i386 => .refused m
  | .other _ => .refused m

def relocEntry (arch : Arch) (env : SymEnv .elf32) (base : Addr32) (r : Rel) (s : SymPtr)
    (m : Mem32) : Outcome :=
  if r.sym = 0 then applyEntry arch base r .null 0 m else
    let ref := findSymbol env (lastRel env) r.sym
    match symAddr env (weakValue arch (r.reloc base) (relocType arch r.type)) r.sym ref with
    | Option.none => .refused m
    | some sym_addr => applyEntry arch base r (nextPtr env r.sym s ref) sym_addr m

def relocLibrary (arch : Arch) (env : SymEnv .elf32) (base : Addr32) :
    List Rel → SymPtr → Mem32 → Outcome
  | [], s, m => .done s m
  | r :: rs, s, m =>
    match relocEntry arch env base r s m with
    | .done s m => relocLibrary arch env base rs s m
    | .refused m => .refused m
    | .crash m => .crash m

/-- It is the turn of the entry `r` of the table, with `s` and the memory as the
entries before it have left them. -/
def AtTurn (arch : Arch) (env : SymEnv .elf32) (base : Addr32) (table : List Rel) (m : Mem32)
    (r : Rel) (s₁ : SymPtr) (m₁ : Mem32) : Prop :=
  ∃ before after, table = before ++ r :: after ∧
    relocLibrary arch env base before .unset m = .done s₁ m₁

end Bionic.RelTables
