import BionicTranslation.RelaTables
import BionicTranslation.HashSections
import BionicTranslation.LookupSafety
import BionicTranslation.Ranges

/-!
# Symbol lookup through handles

`bionic_dlsym` and the lookups behind it, and the lookup in the scope of one library
that relocation makes. The host's `dlsym` is a parameter. A lookup in a library divides
by zero where it has no buckets, and one that does not end runs out of fuel.
-/

set_option autoImplicit false

namespace Bionic.Dlfcn
open Bionic.Slots Bionic.Records Bionic.Linker Bionic.Elf Bionic.RelocSymbols Bionic.RelaTables
open Bionic.SymbolLookup Bionic.LookupSafety Bionic.Ranges

/-- What `bionic_dlsym` may be asked about: NULL, the host's RTLD_NEXT, a soinfo or another
pointer. -/
inductive DlHandle where
  | null
  | next
  | so (si : So)
  | host (n : ℕ)
  deriving DecidableEq, Repr

/-- RTLD_DEFAULT is a null pointer. -/
def rtldDefault : DlHandle := .null

/-- The host's `dlsym`, and the addresses of the functions that libdl offers. -/
structure Host where
  dlsym : DlHandle → Name → Addr64
  libdl : Name → Addr64

inductive LockOp where
  | lock
  | unlock
  deriving DecidableEq, Repr

inductive DlError where
  | invalidLibraryHandle
  | badSymbolName
  | symbolNotFound
  | symbolNotGlobal
  deriving DecidableEq, Repr

/-- What is done to `apkenv_dl_lock` up to a return, and what is returned. -/
structure Exit where
  ops : List LockOp
  ret : Except DlError Addr64

/-- A lookup does not end, it divides by zero, or a NULL section is walked. -/
inductive LookupFault where
  | fuel
  | divByZero
  | segv
  deriving DecidableEq, Repr

def libdlNames : List Name :=
  ["dlopen", "dlclose", "dlsym", "dlerror", "dladdr", "dl_iterate_phdr"].map String.toList

def libdlSym (h : Host) : ℕ → Sym .elf64
  | 0 => ⟨[], 0, 0, shnUndef, 0, 0⟩
  | n + 1 =>
    match libdlNames[n]? with
    | some name => ⟨name, stbGlobal, 0, 1, h.libdl name, 0⟩
    | none => ⟨[], 0, 0, shnUndef, 0, 0⟩

def libdlWords : List (BitVec 32) := [1, 7, 1, 0, 2, 3, 4, 5, 6, 0]

/-- The words are placed at 0x100 and the symbols at 0x400, where the program may have
them anywhere. -/
def libdlReads (h : Host) : Reads .elf64 where
  u32 a := libdlWords.getD ((a.toNat - 0x100) / 4) 0
  word _ := 0
  sym a := libdlSym h ((a.toNat - 0x400) / 24)

def libdlTable : HashTable .elf64 where
  symtab := 0x400
  gnuHash := false
  nbucket := 1
  bucket := 0x108
  chain := 0x10c
  gnu_maskwords := 0
  gnu_shift2 := 0
  gnu_bloom_filter := 0

section lookups
variable (h : Host) (fuel : ℕ) (L : State)

def soReads : So → Reads .elf64
  | .libdl => libdlReads h
  | .pool i => reads (L.info (.pool i))

def soTable : So → HashTable .elf64
  | .libdl => libdlTable
  | .pool i => hashTable (L.info (.pool i))

def soBase (si : So) : Addr64 := BitVec.ofNat 64 (L.info si).base

def lookupInLibrary (si : So) (name : Name) : Except LookupFault (Option (Sym .elf64)) :=
  match (elfLookup (soReads h L si) (soTable L si) fuel name).2 with
  | some (.returned r) => .ok (r.map (soReads h L si).sym)
  | some .divByZero => .error .divByZero
  | none => .error .fuel

def lookup (name : Name) : List So → Except LookupFault (Option (Sym .elf64 × So))
  | [] => .ok none
  | si :: rest =>
    if (L.info si).flags.error then lookup name rest else do
      match ← lookupInLibrary h fuel L si name with
      | some s => pure (some (s, si))
      | none => lookup name rest

/-- The loop of `apkenv__do_lookup` over DT_NEEDED. `last` is what the lookup before has
left in `s` and `lsi`. -/
def lookupNeeded (name : Name) (last : Option (Sym .elf64 × So)) :
    List Dyn → Except LookupFault (Option (Sym .elf64 × So))
  | [] => .ok last
  | ⟨.needed, .val _⟩ :: _ => .ok none
  | ⟨.needed, .so lsi⟩ :: ds => do
    match ← lookupInLibrary h fuel L lsi name with
    | some s => if s.st_shndx ≠ shnUndef then pure (some (s, lsi)) else
        lookupNeeded name (some (s, lsi)) ds
    | none => lookupNeeded name none ds
  | _ :: ds => lookupNeeded name last ds

/-- `apkenv__do_lookup`. Nothing sets `apkenv_preloads` and `apkenv_somain` in this library. -/
def doLookup (si : So) (name : Name) : Except LookupFault (Option (Sym .elf64 × Addr64)) := do
  match ← lookupInLibrary h fuel L si name with
  | some s => pure (some (s, soBase L si))
  | none =>
    match (L.info si).dynamic with
    | .null => .error .segv
    | .missing => .error .segv
    | .found ds =>
      let r ← lookupNeeded h fuel L name none ds
      pure (r.map fun p => (p.1, soBase L p.2))

def doWeHaveThisHandle : DlHandle → Bool
  | .so si => si ∈ L.solist
  | .null => false
  | .next => false
  | .host _ => false

def behindCaller (ret_addr : ℕ) : List So :=
  match findContainingLibrary L ret_addr with
  | none => []
  | some si => (L.solist.dropWhile (· ≠ si)).tail

def lookupHandle (ret_addr : ℕ) (handle : DlHandle) (symbol : Name) :
    Except LookupFault (Option (Sym .elf64 × So)) :=
  if handle = rtldDefault then lookup h fuel L symbol L.solist
  else if handle = .next then lookup h fuel L symbol (behindCaller L ret_addr)
  else
    match handle with
    | .so si =>
      if doWeHaveThisHandle L (.so si) then
        (lookupInLibrary h fuel L si symbol).map fun s => s.map fun s => (s, si)
      else .ok none
    | _ => .ok none

/-- `bionic_dlsym`, called from `ret_addr`. `err` is the end of the function. -/
def bionicDlsym (ret_addr : ℕ) (handle : DlHandle) (symbol : Option Name) :
    Except LookupFault Exit :=
  let ops := [LockOp.lock]
  let err := fun e => Exit.mk (ops ++ [.unlock]) (.error e)
  match symbol with
  | none => .ok (err .badSymbolName)
  | some symbol =>
    let wrapped := h.dlsym rtldDefault (wrapSymName symbol)
    let is_this_our_handle := doWeHaveThisHandle L handle
    if !is_this_our_handle ∧ wrapped ≠ 0 then
      .ok ⟨ops ++ [.unlock], .ok (wrapperCreate symbol wrapped)⟩
    else if !is_this_our_handle ∧ h.dlsym handle symbol ≠ 0 then
      .ok ⟨ops ++ [.unlock], .ok (wrapperCreate symbol (h.dlsym handle symbol))⟩
    else if wrapped ≠ 0 then
      .ok ⟨ops ++ [.unlock], .ok (wrapperCreate symbol wrapped)⟩
    else if h.dlsym rtldDefault symbol ≠ 0 then
      .ok ⟨ops ++ [.unlock], .ok (wrapperCreate symbol (h.dlsym rtldDefault symbol))⟩
    else if handle = .null then .ok (err .invalidLibraryHandle)
    else do
      match ← lookupHandle h fuel L ret_addr handle symbol with
      | none => pure (err .symbolNotFound)
      | some (s, found) =>
        if s.st_bind = stbGlobal ∧ s.st_shndx ≠ 0 then
          pure ⟨ops ++ [.unlock], .ok (wrapperCreate symbol (s.st_value + soBase L found))⟩
        else pure (err .symbolNotGlobal)

end lookups

theorem dlsym_unlocks {h : Host} {fuel : ℕ} {L : State} {ret_addr : ℕ} {handle : DlHandle}
    {symbol : Option Name} {e : Exit}
    (he : bionicDlsym h fuel L ret_addr handle symbol = .ok e) : e.ops = [.lock, .unlock] := by
  unfold bionicDlsym at he
  cases symbol with
  | none =>
    cases he
    rfl
  | some symbol =>
    simp only at he
    split_ifs at he
    · cases he
      rfl
    · cases he
      rfl
    · cases he
      rfl
    · cases he
      rfl
    · cases he
      rfl
    · cases hl : lookupHandle h fuel L ret_addr handle symbol with
      | error x =>
        rw [hl] at he
        cases he
      | ok r =>
        rw [hl] at he
        cases r with
        | none =>
          cases he
          rfl
        | some p =>
          simp only [bind, Except.bind, pure, Except.pure] at he
          split_ifs at he <;> cases he <;> rfl

def noHost : Host := ⟨fun _ _ => 0, fun _ => 0⟩

end Bionic.Dlfcn
