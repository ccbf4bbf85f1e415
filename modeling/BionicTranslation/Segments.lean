import BionicTranslation.Paging

/-!
# Extents, reservation and segment loading

`apkenv_get_lib_extents` sizes the region of a library from its program
headers and `apkenv_load_segments` maps the segments into it. All address
arithmetic is that of the 64-bit build and wraps at 2^64. The loader is
modelled by the memory calls it issues; their effects are given separately,
once on the contents of memory and once on page protections. Every mapping is
made with MAP_FIXED, so a mapping that succeeds is at the address asked for.
-/

set_option autoImplicit false

namespace Bionic.Segments
open Bionic.Paging

inductive PType where
  | load
  | dynamic
  | gnuRelro
  | other (n : ℕ)
  deriving DecidableEq, Repr

structure PFlags where
  r : Bool
  w : Bool
  x : Bool
  deriving DecidableEq, Repr

structure Prot where
  read : Bool
  write : Bool
  exec : Bool
  deriving DecidableEq, Repr

def pflagsToProt (f : PFlags) : Prot := ⟨f.r, f.w, f.x⟩

/-- A program header; its sizes and addresses are 64-bit values. -/
structure Phdr where
  p_type : PType
  p_flags : PFlags
  p_offset : ℕ
  p_vaddr : ℕ
  p_filesz : ℕ
  p_memsz : ℕ
  offset_lt : p_offset < 0x10000000000000000 := by decide
  vaddr_lt : p_vaddr < 0x10000000000000000 := by decide
  filesz_lt : p_filesz < 0x10000000000000000 := by decide
  memsz_lt : p_memsz < 0x10000000000000000 := by decide

def loads (phdrs : List Phdr) : List Phdr := phdrs.filter (fun p => p.p_type = .load)

def relros (phdrs : List Phdr) : List Phdr := phdrs.filter (fun p => p.p_type = .gnuRelro)

def vaddrEnd (p : Phdr) : ℕ := (p.p_vaddr + p.p_memsz) % 0x10000000000000000

def widen (r : ℕ × ℕ) (p : Phdr) : ℕ × ℕ :=
  if p.p_type = .load then
    (if p.p_vaddr < r.1 then p.p_vaddr else r.1, if vaddrEnd p > r.2 then vaddrEnd p else r.2)
  else r

def vaddrRange (phdrs : List Phdr) : ℕ × ℕ := phdrs.foldl widen (0xffffffff, 0)

/-- The total size, for an ELF object whose prelink trailer could be read.
`none` stands for the return value -1. -/
def getLibExtents (phdrs : List Phdr) : Option ℕ :=
  let r := vaddrRange phdrs
  if r.1 = 0xffffffff ∧ r.2 = 0 then none else
    let minVaddr := pageDown r.1
    let maxVaddr := pageDown ((r.2 + 4095) % 0x10000000000000000)
    some ((maxVaddr + 0x10000000000000000 - minVaddr) % 0x10000000000000000)

inductive MemCall where
  | mmapFile (addr len : ℕ) (prot : Prot) (off : ℕ)
  | mmapAnon (addr len : ℕ) (prot : Prot)
  | memset (addr len : ℕ)
  | mprotect (addr len : ℕ) (prot : Prot)
  deriving DecidableEq, Repr

namespace MemCall

def addr : MemCall → ℕ
  | mmapFile a _ _ _ => a
  | mmapAnon a _ _ => a
  | memset a _ => a
  | mprotect a _ _ => a

def len : MemCall → ℕ
  | mmapFile _ n _ _ => n
  | mmapAnon _ n _ => n
  | memset _ n => n
  | mprotect _ n _ => n

def isMmap : MemCall → Bool
  | mmapFile .. => true
  | mmapAnon .. => true
  | memset .. => false
  | mprotect .. => false

end MemCall

def mapStart (base : ℕ) (p : Phdr) : ℕ := (base + pageDown p.p_vaddr) % 0x10000000000000000

def fileLen (p : Phdr) : ℕ := (p.p_filesz + p.p_vaddr % 4096) % 0x10000000000000000

def bssStart (base : ℕ) (p : Phdr) : ℕ :=
  pageDown ((mapStart base p + fileLen p + 4095) % 0x10000000000000000)

def memEnd (base : ℕ) (p : Phdr) : ℕ := (base + p.p_vaddr + p.p_memsz) % 0x10000000000000000

def fullLen (base : ℕ) (p : Phdr) : ℕ :=
  (pageDown ((base + p.p_vaddr + p.p_memsz + 4095) % 0x10000000000000000) + 0x10000000000000000 -
    mapStart base p) % 0x10000000000000000

def segmentCalls (base : ℕ) (p : Phdr) : List MemCall :=
  let prot := pflagsToProt p.p_flags
  let pbase := mapStart base p
  [.mmapFile pbase (fileLen p) prot (pageDown p.p_offset)] ++
  (if fileLen p % 4096 ≠ 0 ∧ p.p_flags.w then
    [.memset ((pbase + fileLen p) % 0x10000000000000000) (4096 - fileLen p % 4096)] else []) ++
  (if bssStart base p < memEnd base p then
    [.mmapAnon (bssStart base p) (memEnd base p - bssStart base p) prot] else []) ++
  (if p.p_flags.w then [] else [.mprotect pbase (fullLen base p) { prot with write := true }])

/-- Issue calls until a mapping is refused; a failure reports what was issued. -/
def issue (mmap : MemCall → Bool) : List MemCall → List MemCall →
    Except (List MemCall) (List MemCall)
  | done, [] => .ok done
  | done, c :: cs => if c.isMmap && !mmap c then .error done else issue mmap (done ++ [c]) cs

/-- What `apkenv_load_segments` has built up: the calls issued and the soinfo
fields it writes. The two `wrprotect` fields and `gnu_relro_len` have 32 bits. -/
structure Loading where
  calls : List MemCall
  wrprotect_start : ℕ
  wrprotect_end : ℕ
  dynamic : Option ℕ
  gnu_relro_start : ℕ
  gnu_relro_len : ℕ
  total_sz : ℕ

def signed (a : ℕ) : ℤ := if a < 0x8000000000000000 then a else (a : ℤ) - 0x10000000000000000

def recordStart (start pbase : ℕ) : ℕ := if signed pbase < start then pbase % 0x100000000 else start

def recordEnd (last stop : ℕ) : ℕ := if stop > last then stop % 0x100000000 else last

def loadPtLoad (mmap : MemCall → Bool) (base : ℕ) (st : Loading) (p : Phdr) :
    Except (List MemCall) Loading := do
  let calls ← issue mmap st.calls (segmentCalls base p)
  let st := { st with
    calls := calls
    total_sz := (st.total_sz + fullLen base p) % 0x10000000000000000 }
  if p.p_flags.w then pure st else
    pure { st with
      wrprotect_start := recordStart st.wrprotect_start (mapStart base p)
      wrprotect_end :=
        recordEnd st.wrprotect_end ((mapStart base p + fullLen base p) % 0x10000000000000000) }

def relroOk (base size : ℕ) (p : Phdr) : Bool :=
  !(p.p_vaddr ≥ size || (p.p_vaddr + p.p_memsz) % 0x10000000000000000 > size ||
    (base + p.p_vaddr + p.p_memsz) % 0x10000000000000000 < base)

def loadSegment (mmap : MemCall → Bool) (base size : ℕ) (st : Loading) (p : Phdr) :
    Except (List MemCall) Loading :=
  match p.p_type with
  | .load => loadPtLoad mmap base st p
  | .dynamic => .ok { st with dynamic := some ((base + p.p_vaddr) % 0x10000000000000000) }
  | .gnuRelro =>
    if relroOk base size p then
      .ok { st with
        gnu_relro_start := (base + p.p_vaddr) % 0x10000000000000000
        gnu_relro_len := p.p_memsz % 0x100000000 }
    else .error st.calls
  | .other _ => .ok st

def loadStart : Loading := ⟨[], 0xffffffff, 0, none, 0, 0, 0⟩

/-- An error stands for the return value -1, after which the region is unmapped. -/
def loadSegments (mmap : MemCall → Bool) (base size : ℕ) (phdrs : List Phdr) :
    Except (List MemCall) Loading := do
  let st ← phdrs.foldlM (loadSegment mmap base size) loadStart
  if st.total_sz > size then .error st.calls else pure st

/-- The protections `apkenv_link_image` sets once an image is relocated. -/
def linkProtections (st : Loading) : List MemCall :=
  (if st.wrprotect_start ≠ 0xffffffff ∧ st.wrprotect_end ≠ 0 then
    [.mprotect st.wrprotect_start
      ((st.wrprotect_end + 0x100000000 - st.wrprotect_start) % 0x100000000)
      ⟨true, false, true⟩] else []) ++
  (if st.gnu_relro_start ≠ 0 ∧ st.gnu_relro_len ≠ 0 then
    [.mprotect (pageDown st.gnu_relro_start)
      (st.gnu_relro_start - pageDown st.gnu_relro_start + st.gnu_relro_len)
      ⟨true, false, false⟩] else [])

end Bionic.Segments
