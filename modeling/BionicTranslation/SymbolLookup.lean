import BionicTranslation.Records
import BionicTranslation.Loops

/-!
# Symbol lookup in one library

`apkenv__elf_lookup` and the hash tables it searches. The mapped memory is given
by what is loaded from an address. A lookup also logs the fields it reads; a
symbol entry counts as read as a whole, its string does not count. `build.zig`
sets `LINKER_DEBUG`, so the remainder in a trace line is computed.
-/

set_option autoImplicit false

namespace Bionic.SymbolLookup
open Bionic.Bytes Bionic.Records Bionic.Elf Bionic.Loops

variable {c : ElfClass}

structure Reads (c : ElfClass) where
  u32 : Addr c → BitVec 32
  word : Addr c → Addr c
  sym : Addr c → Sym c

structure HashTable (c : ElfClass) where
  symtab : Addr c
  gnuHash : Bool
  nbucket : Addr c
  bucket : Addr c
  chain : Addr c
  gnu_maskwords : BitVec 32
  gnu_shift2 : BitVec 32
  gnu_bloom_filter : Addr c

def nth (p : Addr c) (size n : ℕ) : Addr c := p + BitVec.ofNat c.bits (size * n)

def sysvTable (rd : Reads c) (symtab a : Addr c) : HashTable c :=
  let nbucket := (rd.u32 a).setWidth c.bits
  { symtab, gnuHash := false, nbucket, bucket := a + 8, chain := a + 8 + nbucket * 4,
    gnu_maskwords := 0, gnu_shift2 := 0, gnu_bloom_filter := 0 }

/-- DT_GNU_HASH with its section at `a`. `chain` is moved back by `symndx` entries. -/
def gnuTable (rd : Reads c) (symtab a : Addr c) : HashTable c :=
  let nbucket := (rd.u32 a).setWidth c.bits
  let gnu_maskwords := rd.u32 (a + 8)
  let gnu_bloom_filter := a + 16
  let bucket := nth gnu_bloom_filter c.wordsize gnu_maskwords.toNat
  { symtab, gnuHash := true, nbucket, bucket,
    chain := bucket + nbucket * 4 - (rd.u32 (a + 4)).setWidth c.bits * 4,
    gnu_maskwords := gnu_maskwords - 1, gnu_shift2 := rd.u32 (a + 12), gnu_bloom_filter }

/-- A character of a name is one byte. -/
def byte (x : Char) : BitVec 32 := BitVec.ofNat 32 (x.toNat % 256)

def sysvhash (name : Name) : BitVec 32 :=
  name.foldl (fun h x =>
    let h := (h <<< 4) + byte x
    let g := h &&& 0xf0000000
    let h := h ^^^ g
    h ^^^ (g >>> 24)) 0

def gnuhash (name : Name) : BitVec 32 :=
  name.foldl (fun h x => h + ((h <<< 5) + byte x)) 5381

def isSymbolGlobalAndDefined (s : Sym c) : Bool :=
  if s.st_bind = stbGlobal ∨ s.st_bind = stbWeak then s.st_shndx ≠ shnUndef else false

def symSize : ElfClass → ℕ
  | .elf32 => 16
  | .elf64 => 24

abbrev Field (c : ElfClass) := Addr c × ℕ

namespace HashTable

def symAt (t : HashTable c) (n : BitVec 32) : Addr c := nth t.symtab (symSize c) n.toNat

def chainAt (t : HashTable c) (n : BitVec 32) : Addr c := nth t.chain 4 n.toNat

def bucketAt (t : HashTable c) (hash : BitVec 32) : Addr c :=
  nth t.bucket 4 (hash.toNat % t.nbucket.toNat)

def bloomAt (t : HashTable c) (hash : BitVec 32) : Addr c :=
  nth t.gnu_bloom_filter c.wordsize
    (BitVec.ofNat 32 (hash.toNat / c.bits) &&& t.gnu_maskwords).toNat

end HashTable

def isNamed (rd : Reads c) (t : HashTable c) (name : Name) (n : BitVec 32) : Bool :=
  let s := rd.sym (t.symAt n)
  s.name = name && isSymbolGlobalAndDefined s

def sysvPass (rd : Reads c) (t : HashTable c) (name : Name) :
    Body (BitVec 32) (Field c) (Option (Addr c)) := fun n =>
  if n = 0 then ([], .inr none)
  else if isNamed rd t name n then ([(t.symAt n, symSize c)], .inr (some (t.symAt n)))
  else ([(t.symAt n, symSize c), (t.chainAt n, 4)], .inl (rd.u32 (t.chainAt n)))

def hashFits (rd : Reads c) (t : HashTable c) (name : Name) (n : BitVec 32) : Bool :=
  (rd.u32 (t.chainAt n) ^^^ gnuhash name) >>> 1 = 0

def gnuPass (rd : Reads c) (t : HashTable c) (name : Name) :
    Body (BitVec 32) (Field c) (Option (Addr c)) := fun n =>
  let reads := (t.chainAt n, 4) :: if hashFits rd t name n then [(t.symAt n, symSize c)] else []
  if hashFits rd t name n && isNamed rd t name n then (reads, .inr (some (t.symAt n)))
  else (reads, if rd.u32 (t.chainAt n) &&& 1 = 0 then .inl (n + 1) else .inr none)

inductive Ended (c : ElfClass) where
  | returned (s : Option (Addr c))
  | divByZero
  deriving DecidableEq, Repr

/-- What a lookup has read and how it ended, `none` when the fuel ran out. -/
abbrev Lookup (c : ElfClass) := List (Field c) × Option (Ended c)

def ofRun (before : List (Field c)) (x : List (Field c) × Option (Option (Addr c))) : Lookup c :=
  (before ++ x.1, x.2.map .returned)

def elfLookupSysv (rd : Reads c) (t : HashTable c) (fuel : ℕ) (name : Name) : Lookup c :=
  let hash := sysvhash name
  if t.nbucket = 0 then ([], some .divByZero) else
    ofRun [(t.bucketAt hash, 4)] (run (sysvPass rd t name) fuel (rd.u32 (t.bucketAt hash)))

/-- Both bits of the hash are set in the word of the bloom filter. A shift by 32 or
more gives 0; C leaves it undefined, and processors may take the count modulo 32. -/
def bloomTest (rd : Reads c) (t : HashTable c) (hash : BitVec 32) : Bool :=
  let word := rd.word (t.bloomAt hash)
  let h2 := hash >>> t.gnu_shift2.toNat
  word.getLsbD (hash.toNat % c.bits) && word.getLsbD (h2.toNat % c.bits)

def elfLookupGnu (rd : Reads c) (t : HashTable c) (fuel : ℕ) (name : Name) : Lookup c :=
  let hash := gnuhash name
  let bloom := (t.bloomAt hash, c.wordsize)
  if t.nbucket = 0 then ([bloom], some .divByZero)
  else if !bloomTest rd t hash then ([bloom], some (.returned none))
  else
    let n := rd.u32 (t.bucketAt hash)
    if n = 0 then ([bloom, (t.bucketAt hash, 4)], some (.returned none))
    else ofRun [bloom, (t.bucketAt hash, 4)] (run (gnuPass rd t name) fuel n)

def elfLookup (rd : Reads c) (t : HashTable c) (fuel : ℕ) (name : Name) : Lookup c :=
  if t.gnuHash then elfLookupGnu rd t fuel name else elfLookupSysv rd t fuel name

section passes
variable {rd : Reads c} {t : HashTable c} {name : Name} {n : BitVec 32}

theorem sysvPass_end : (sysvPass rd t name 0).2 = .inr none := rfl

theorem sysvPass_found (hn : n ≠ 0) (h : isNamed rd t name n = true) :
    (sysvPass rd t name n).2 = .inr (some (t.symAt n)) := by
  rw [sysvPass, if_neg hn, if_pos h]

theorem sysvPass_next (hn : n ≠ 0) (h : ¬ isNamed rd t name n = true) :
    (sysvPass rd t name n).2 = .inl (rd.u32 (t.chainAt n)) := by
  rw [sysvPass, if_neg hn, if_neg h]

theorem gnuPass_found (h : (hashFits rd t name n && isNamed rd t name n) = true) :
    (gnuPass rd t name n).2 = .inr (some (t.symAt n)) := by
  simp only [gnuPass, if_pos h]

theorem and_one_eq_zero_iff (x : BitVec 32) : x &&& 1 = 0 ↔ x.getLsbD 0 = false := by
  have hand : (x &&& 1).toNat = x.toNat % 2 := Nat.and_two_pow_sub_one_eq_mod x.toNat 1
  have hbit : x.getLsbD 0 = decide (x.toNat % 2 = 1) := Nat.testBit_zero x.toNat
  rw [hbit, decide_eq_false_iff_not, ← BitVec.toNat_inj, hand]
  exact Nat.mod_two_ne_one.symm

theorem gnuPass_stop (h : ¬ (hashFits rd t name n && isNamed rd t name n) = true)
    (hs : (rd.u32 (t.chainAt n)).getLsbD 0 = true) : (gnuPass rd t name n).2 = .inr none := by
  have hbit : ¬ rd.u32 (t.chainAt n) &&& 1 = 0 := by
    rw [and_one_eq_zero_iff, hs]
    decide
  simp only [gnuPass, if_neg h, if_neg hbit]

theorem gnuPass_next (h : ¬ (hashFits rd t name n && isNamed rd t name n) = true)
    (hs : (rd.u32 (t.chainAt n)).getLsbD 0 = false) : (gnuPass rd t name n).2 = .inl (n + 1) := by
  simp only [gnuPass, if_neg h, if_pos ((and_one_eq_zero_iff _).mpr hs)]

end passes

end Bionic.SymbolLookup
