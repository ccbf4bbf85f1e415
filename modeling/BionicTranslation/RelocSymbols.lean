import BionicTranslation.Records

/-!
# The symbol of a relocation

What `apkenv_reloc_library` does before it looks at the relocation type: hooks
of this library first, then the libraries that were linked, then the host. The
host, the library lookup and the environment are given by a record. The chains
of the RELA and the REL build differ in their last part.
-/

set_option autoImplicit false

namespace Bionic.RelocSymbols
open Bionic.Bytes Bionic.Records Bionic.Elf

variable {c : ElfClass}

/-- `dlsym` searches the host, `doLookup` is `apkenv__do_lookup` for the library that
is relocated, with the base of the library that has the definition. -/
structure SymEnv (c : ElfClass) where
  symtab : ℕ → Sym c
  dlsym : Name → Addr c
  doLookup : Name → Option (Sym c × Addr c)
  eglGetProcAddress : Name → Addr c
  sigsetjmp : Addr c
  isHostFunc : Addr c → Bool
  dieAtRuntime : Bool
  stub : Name → Addr c

/-- `wrap_sym_name`, of which 1024 bytes are kept. From 1017 characters on the array has no
terminator, and what the string goes on with behind it is left out. -/
def wrapSymName (name : Name) : Name := "bionic_".toList ++ name.take 1017

def wrapperCreate (_symbol : Name) (function : Addr c) : Addr c := function

inductive SymbolRef (c : ElfClass) where
  | hook (a : Addr c)
  | definition (s : Sym c) (base : Addr c)
  | host (a : Addr c)
  | weak
  | missing

def findSymbol (env : SymEnv c) (last : Sym c → Addr c) (sym : ℕ) : SymbolRef c :=
  let s := env.symtab sym
  let hook := env.dlsym (wrapSymName s.name)
  if hook ≠ 0 then .hook hook else
    match env.doLookup s.name with
    | some (d, base) => .definition d base
    | none =>
      if last s ≠ 0 then .host (last s)
      else if s.st_bind = stbWeak then .weak
      else .missing

/-- The stub that `LINKER_DIE_AT_RUNTIME` puts in for a missing function. -/
def stubFunc (env : SymEnv c) (s : Sym c) : Addr c :=
  if env.dieAtRuntime ∧ s.st_type = sttFunc then env.stub s.name else 0

def lastRela (env : SymEnv c) (s : Sym c) : Addr c :=
  if env.dlsym s.name ≠ 0 then env.dlsym s.name
  else if "gl".toList.isPrefixOf s.name then env.eglGetProcAddress s.name
  else if s.name = "sigsetjmp".toList then env.sigsetjmp
  else stubFunc env s

def lastRel (env : SymEnv c) (s : Sym c) : Addr c :=
  if env.dlsym s.name ≠ 0 then env.dlsym s.name else stubFunc env s

def hostAddr (env : SymEnv c) (name : Name) (a : Addr c) : Addr c :=
  if env.isHostFunc a then wrapperCreate name a else a

/-- `sym_addr` after the symbol part. `weak` is the switch over the types for which
a weak reference may stay undefined. -/
def symAddr (env : SymEnv c) (weak : Option (Addr c)) (sym : ℕ) : SymbolRef c → Option (Addr c)
  | .hook a => some (hostAddr env (env.symtab sym).name a)
  | .definition d base =>
    let a := d.st_value + base
    some (if d.st_type = sttFunc then wrapperCreate (env.symtab sym).name a else a)
  | .host a => some (hostAddr env (env.symtab sym).name a)
  | .weak => weak
  | .missing => none

/-- The address a symbol is given by the environment; `none` if the entry is refused. -/
def symbolValue (env : SymEnv c) (last : Sym c → Addr c) (weak : Option (Addr c)) (sym : ℕ) :
    Option (Addr c) :=
  if sym = 0 then some 0 else symAddr env weak sym (findSymbol env last sym)

def noSymbols (c : ElfClass) : SymEnv c where
  symtab _ := ⟨[], stbWeak, 0, shnUndef, 0, 0⟩
  dlsym _ := 0
  doLookup _ := none
  eglGetProcAddress _ := 0
  sigsetjmp := 0
  isHostFunc _ := false
  dieAtRuntime := false
  stub _ := 0

variable {env : SymEnv c} {last : Sym c → Addr c} {weak : Option (Addr c)} {sym : ℕ}

theorem hostAddr_eq (name : Name) (a : Addr c) : hostAddr env name a = a := ite_self a

/-- There is no hook, and no library that was linked defines the symbol. -/
structure Undefined (env : SymEnv c) (s : Sym c) : Prop where
  hook : env.dlsym (wrapSymName s.name) = 0
  library : env.doLookup s.name = none

theorem symbolValue_last (h0 : sym ≠ 0) (h : Undefined env (env.symtab sym)) :
    symbolValue env last weak sym =
      if last (env.symtab sym) ≠ 0 then some (last (env.symtab sym))
      else if (env.symtab sym).st_bind = stbWeak then weak else none := by
  rw [symbolValue, if_neg h0, findSymbol]
  simp only [h.hook, ne_eq, not_true_eq_false, if_false, h.library]
  split_ifs with hl hw
  · rfl
  · rfl
  · exact congrArg some (hostAddr_eq _ _)

theorem symbolValue_defined (last' : Sym c → Addr c)
    (h : sym = 0 ∨ ¬ Undefined env (env.symtab sym)) :
    symbolValue env last weak sym = symbolValue env last' weak sym := by
  rw [symbolValue, symbolValue]
  split_ifs with h0
  · rfl
  · have hd := h.resolve_left h0
    have hfind : findSymbol env last sym = findSymbol env last' sym := by
      by_cases hhook : env.dlsym (wrapSymName (env.symtab sym).name) = 0
      · cases hl : env.doLookup (env.symtab sym).name with
        | some d => simp only [findSymbol, hhook, ne_eq, not_true_eq_false, if_false, hl]
        | none => exact absurd ⟨hhook, hl⟩ hd
      · rw [findSymbol, findSymbol, if_pos hhook, if_pos hhook]
    rw [hfind]

/-- What the RELA build takes for a name that the host does not know is what the REL build
takes, a stub or nothing. -/
def LastAgree (env : SymEnv c) (s : Sym c) : Prop :=
  if "gl".toList.isPrefixOf s.name then env.eglGetProcAddress s.name = stubFunc env s
  else s.name = "sigsetjmp".toList → env.sigsetjmp = stubFunc env s

theorem last_eq_iff {s : Sym c} (h : env.dlsym s.name = 0) :
    lastRela env s = lastRel env s ↔ LastAgree env s := by
  rw [lastRela, lastRel, LastAgree]
  simp only [h, ne_eq, not_true_eq_false, if_false]
  split_ifs with hg hs
  · exact Iff.rfl
  · exact ⟨fun he _ => he, fun he => he hs⟩
  · exact ⟨fun _ e => absurd e hs, fun _ => rfl⟩

/-- Both builds give a symbol reference the same address or refuse it, whatever the type
allows a weak reference, just when it is resolved before the branches that only the RELA
build has, or these give what the REL build takes. Left out are R_*_NONE entries, which the
RELA build skips before it looks at a symbol, while the REL build does not. -/
theorem builds_agree_iff (env : SymEnv c) (sym : ℕ) :
    (∀ weak, symbolValue env (lastRela env) weak sym = symbolValue env (lastRel env) weak sym) ↔
      sym = 0 ∨ env.dlsym (wrapSymName (env.symtab sym).name) ≠ 0 ∨
        env.doLookup (env.symtab sym).name ≠ none ∨ env.dlsym (env.symtab sym).name ≠ 0 ∨
        LastAgree env (env.symtab sym) := by
  by_cases hd : sym = 0 ∨ ¬ Undefined env (env.symtab sym)
  · refine iff_of_true (fun weak => symbolValue_defined _ hd) ?_
    by_contra hno
    simp only [not_or, ne_eq, not_not] at hno
    exact hd.elim hno.1 fun hu => hu ⟨hno.2.1, hno.2.2.1⟩
  · obtain ⟨h0, hu⟩ := not_or.mp hd
    have hu := not_not.mp hu
    simp only [h0, hu.hook, hu.library, ne_eq, not_true_eq_false, false_or]
    by_cases hh : env.dlsym (env.symtab sym).name = 0
    · rw [← last_eq_iff hh, or_iff_right (not_not.mpr hh)]
      constructor
      · intro h
        have hnone := h none
        simp only [symbolValue_last h0 hu, ite_self] at hnone
        split_ifs at hnone with hl hr hr
        · exact Option.some.inj hnone
        · rw [not_not.mp hl, not_not.mp hr]
      · intro he weak
        rw [symbolValue_last h0 hu, symbolValue_last h0 hu, he]
    · refine iff_of_true (fun weak => ?_) (Or.inl hh)
      have he : lastRela env (env.symtab sym) = lastRel env (env.symtab sym) := by
        rw [lastRela, lastRel, if_pos hh, if_pos hh]
      rw [symbolValue_last h0 hu, symbolValue_last h0 hu, he]

def sigsetjmpEnv : SymEnv .elf32 where
  symtab _ := ⟨"sigsetjmp".toList, stbGlobal, sttFunc, shnUndef, 0, 0⟩
  dlsym _ := 0
  doLookup _ := none
  eglGetProcAddress _ := 0
  sigsetjmp := 0x1000
  isHostFunc _ := false
  dieAtRuntime := false
  stub _ := 0

/-- It binds in the RELA build and is refused in the REL build. -/
theorem sigsetjmp_differs :
    ¬ ∀ weak, symbolValue sigsetjmpEnv (lastRela sigsetjmpEnv) weak 1 =
      symbolValue sigsetjmpEnv (lastRel sigsetjmpEnv) weak 1 := by
  intro h
  have hnone := h none
  revert hnone
  decide +kernel

end Bionic.RelocSymbols
