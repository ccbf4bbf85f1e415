import BionicTranslation.Bytes
import BionicTranslation.Segments
import BionicTranslation.Slots

/-!
# Library records and library files

One record per shared object, with the fields the linker reads and writes. The
dynamic section of a mapped library is kept with its record, since the linker
overwrites entries of it: the value of a DT_NEEDED entry is a string table
offset first and a pointer to the library that was found later. A string table
offset is never taken for such a pointer. `ElfW` picks the 32-bit or the 64-bit layout,
so where both are modelled addresses and what is built from them take the class as a
parameter.
-/

set_option autoImplicit false

namespace Bionic.Records
open Bionic.Segments Bionic.Slots

abbrev Name := List Char

/-- The statically allocated `apkenv_libdl_info` and the slots of `apkenv_sopool`. -/
inductive So where
  | libdl
  | pool (i : Slot)
  deriving DecidableEq, Repr

inductive DynTag where
  | hash | gnuHash | strtab | symtab | jmprel | pltrelsz | pltgot | debug
  | rela | relasz | rel | relsz | relr | relrsz | androidRelr | androidRelrsz
  | init | fini | initArray | initArraysz | finiArray | finiArraysz
  | preinitArray | preinitArraysz | textrel | needed
  | other (n : ℕ)
  deriving DecidableEq, Repr

/-- `d_un`: a number, or the soinfo pointer that linking stores. -/
inductive DVal where
  | val (n : ℕ)
  | so (si : So)
  deriving DecidableEq, Repr

structure Dyn where
  d_tag : DynTag
  d_un : DVal
  deriving DecidableEq, Repr

/-- `si->dynamic`: NULL, the value -1 set before the segments are loaded, or the
entries found up to DT_NULL. -/
inductive Dynamic where
  | null
  | missing
  | found (entries : List Dyn)
  deriving DecidableEq, Repr

structure Flags where
  linked : Bool := false
  error : Bool := false
  gnuHash : Bool := false
  deriving DecidableEq, Repr

/-- The relocation tables that linking applies. -/
inductive RelocTable where
  | plt
  | rela
  | relr
  deriving DecidableEq, Repr

/-- What the linker reads out of a mapped image, by offset from its base: the
header fields, 32-bit words, address-sized words, strings and the dynamic
section at an address. -/
structure Image where
  e_phoff : ℕ := 0
  e_phnum : ℕ := 0
  u32 : ℕ → ℕ := fun _ => 0
  word : ℕ → ℕ := fun _ => 0
  str : ℕ → Name := fun _ => []
  dyn : ℕ → List (DynTag × ℕ) := fun _ => []

/-- `l_addr` and `l_name` are in its `linkmap`. `image` and `applied`, the relocation
tables already applied to it, stand for the mapped memory of the library. -/
structure Soinfo where
  name : Name := []
  fullpath : Name := []
  phdr : ℕ := 0
  phnum : ℕ := 0
  base : ℕ := 0
  size : ℕ := 0
  dynamic : Dynamic := .null
  wrprotect_start : ℕ := 0
  wrprotect_end : ℕ := 0
  flags : Flags := {}
  strtab : ℕ := 0
  symtab : ℕ := 0
  nbucket : ℕ := 0
  nchain : ℕ := 0
  bucket : ℕ := 0
  chain : ℕ := 0
  plt_got : ℕ := 0
  plt_rela : ℕ := 0
  plt_rela_count : ℕ := 0
  rela : ℕ := 0
  rela_count : ℕ := 0
  gnu_maskwords : ℕ := 0
  gnu_shift2 : ℕ := 0
  gnu_bloom_filter : ℕ := 0
  relr : ℕ := 0
  relr_count : ℕ := 0
  preinit_array : ℕ := 0
  preinit_array_count : ℕ := 0
  init_array : ℕ := 0
  init_array_count : ℕ := 0
  fini_array : ℕ := 0
  fini_array_count : ℕ := 0
  init_func : ℕ := 0
  fini_func : ℕ := 0
  refcount : ℕ := 0
  constructors_called : Bool := false
  gnu_relro_start : ℕ := 0
  gnu_relro_len : ℕ := 0
  l_addr : ℕ := 0
  l_name : Name := []
  image : Image := {}
  applied : List RelocTable := []

namespace Soinfo

def entries (s : Soinfo) : List Dyn :=
  match s.dynamic with
  | .found ds => ds
  | .null => []
  | .missing => []

def setEntries (s : Soinfo) (ds : List Dyn) : Soinfo := { s with dynamic := .found ds }

def addr (s : Soinfo) (p : ℕ) : ℕ := (s.base + p) % 0x10000000000000000

def offset (s : Soinfo) (a : ℕ) : ℕ :=
  (a + 0x10000000000000000 - s.base % 0x10000000000000000) % 0x10000000000000000

/-- Usable as a link target: linked and without an error. -/
def Live (s : Soinfo) : Prop := s.flags.linked = true ∧ s.flags.error = false

instance (s : Soinfo) : Decidable s.Live := inferInstanceAs (Decidable (_ ∧ _))

def payloads (s : Soinfo) (y : So) : ℕ :=
  s.entries.countP fun d => d.d_tag = .needed && d.d_un = .so y

def relocTables (s : Soinfo) : List RelocTable :=
  (if s.plt_rela ≠ 0 then [.plt] else []) ++ (if s.rela ≠ 0 then [.rela] else []) ++
    (if s.relr ≠ 0 then [.relr] else [])

end Soinfo

/-- `apkenv_libdl_info`. Its tables are static data whose addresses are not modelled. -/
def libdlInfo : Soinfo where
  name := "libdl.so".toList
  flags := { linked := true }
  strtab := 1
  symtab := 1
  nbucket := 1
  nchain := 7
  bucket := 1
  chain := 1

/-- A library file that could be opened. `elf` is false when it cannot be read
or its magic is wrong; `prelink` is the address in the prelink trailer or 0. -/
structure LibFile where
  path : Name
  elf : Bool
  prelink : ℕ
  phdrs : List Phdr
  image : Image

def basename (name : Name) : Name := (name.reverse.takeWhile (· ≠ '/')).reverse

def prefix32 : Name := "/system/lib/".toList
def prefix64 : Name := "/system/lib64/".toList

/-- The name after the prefix strip and one pass over the override map. -/
def resolve (overrides : List (Name × Name)) (name : Name) : Name :=
  let name := if prefix32.isPrefixOf name then name.drop prefix32.length
    else if prefix64.isPrefixOf name then name.drop prefix64.length
    else name
  match overrides.find? (fun o => o.1 = name) with
  | some o => o.2
  | none => name

/-- `powerof2`, which holds of 0. -/
def powerof2 (x : ℕ) : Bool := x &&& (x - 1) = 0

def u32 (n : ℕ) : ℕ := n % 0x100000000

/-- One entry of the dynamic section. The error is the `return false` inside the
loop; it carries what the loop has stored so far. -/
def extractEntry (r_debug : ℕ) (s : Soinfo) (i : ℕ) : Except Soinfo Soinfo :=
  match s.entries[i]? with
  | none => .ok s
  | some ⟨_, .so _⟩ => .ok s
  | some ⟨tag, .val v⟩ =>
    let ptr := s.addr v
    match tag with
    | .hash =>
      if s.nbucket ≠ 0 then .ok s else
        let nbucket := s.image.u32 v
        .ok { s with nbucket, nchain := s.image.u32 (v + 4), bucket := s.addr (v + 8),
                     chain := s.addr (v + 8 + nbucket * 4) }
    | .gnuHash =>
      let nbucket := s.image.u32 v
      let maskwords := s.image.u32 (v + 8)
      let bucket := s.addr (v + 16 + maskwords * 8)
      let s := { s with
        nchain := if s.nbucket ≠ 0 then 0 else s.nchain
        nbucket, bucket
        gnu_maskwords := maskwords
        gnu_shift2 := s.image.u32 (v + 12)
        gnu_bloom_filter := s.addr (v + 16)
        chain := (bucket + nbucket * 4 + 0x10000000000000000 - s.image.u32 (v + 4) * 4) %
          0x10000000000000000 }
      if !powerof2 maskwords then .error s else
        .ok { s with gnu_maskwords := u32 (maskwords + 0xffffffff),
                     flags := { s.flags with gnuHash := true } }
    | .strtab => .ok { s with strtab := ptr }
    | .symtab => .ok { s with symtab := ptr }
    | .jmprel => .ok { s with plt_rela := ptr }
    | .pltrelsz => .ok { s with plt_rela_count := v / 24 }
    | .pltgot => .ok { s with plt_got := ptr }
    | .debug => .ok (s.setEntries (s.entries.set i ⟨.debug, .val r_debug⟩))
    | .rela => .ok { s with rela := ptr }
    | .relasz => .ok { s with rela_count := v / 24 }
    | .rel => .error s
    | .relsz => .error s
    | .relr => .ok { s with relr := ptr }
    | .androidRelr => .ok { s with relr := ptr }
    | .relrsz => .ok { s with relr_count := v / 8 }
    | .androidRelrsz => .ok { s with relr_count := v / 8 }
    | .init => .ok { s with init_func := ptr }
    | .fini => .ok { s with fini_func := ptr }
    | .initArray => .ok { s with init_array := ptr }
    | .initArraysz => .ok { s with init_array_count := v / 8 }
    | .finiArray => .ok { s with fini_array := ptr }
    | .finiArraysz => .ok { s with fini_array_count := v / 8 }
    | .preinitArray => .ok { s with preinit_array := ptr }
    | .preinitArraysz => .ok { s with preinit_array_count := v / 8 }
    | .textrel => .ok s
    | .needed => .ok s
    | .other _ => .ok s

def extract (r_debug : ℕ) (s : Soinfo) : Except Soinfo Soinfo :=
  (List.range s.entries.length).foldlM (extractEntry r_debug) s

end Bionic.Records

namespace Bionic.Elf
open Bionic.Bytes Bionic.Records

inductive ElfClass where
  | elf32
  | elf64
  deriving DecidableEq, Repr

abbrev ElfClass.wordsize : ElfClass → ℕ
  | .elf32 => 4
  | .elf64 => 8

abbrev ElfClass.bits (c : ElfClass) : ℕ := 8 * c.wordsize

abbrev Addr (c : ElfClass) := BitVec c.bits

abbrev Mem (c : ElfClass) := Memory c.bits

theorem wordsize_pos (c : ElfClass) : 0 < c.wordsize := by
  cases c <;> decide

theorem wordsize_le (c : ElfClass) : c.wordsize ≤ 2 ^ c.bits := by
  cases c <;> decide

def stbGlobal : ℕ := 1

def stbWeak : ℕ := 2

def sttFunc : ℕ := 2

def shnUndef : ℕ := 0

structure Sym (c : ElfClass) where
  name : Name
  st_bind : ℕ
  st_type : ℕ
  st_shndx : ℕ
  st_value : Addr c
  st_size : Addr c
  deriving DecidableEq, Repr

end Bionic.Elf
