import BionicTranslation.SymbolLookup

/-!
# Hash sections

What a DT_HASH and a DT_GNU_HASH section are for: the words behind the header as
arrays, and when these arrays are a table over a symbol table. The tables the
linker computes from the header address the same arrays.
-/

set_option autoImplicit false

namespace Bionic.HashSections
open Bionic.Bytes Bionic.Records Bionic.Elf Bionic.SymbolLookup

variable {c : ElfClass} {rd : Reads c} {a symtab : Addr c}

def elfHash (name : Name) : BitVec 32 :=
  name.foldl (fun h x =>
    let h := (h <<< 4) + byte x
    let g := h &&& 0xf0000000
    (h ^^^ (g >>> 24)) &&& ~~~g) 0

def gnuHash (name : Name) : BitVec 32 := name.foldl (fun h x => h * 33 + byte x) 5381

/-- A defined symbol with global or weak binding. -/
def Exported (s : Sym c) : Prop :=
  (s.st_bind = stbGlobal ∨ s.st_bind = stbWeak) ∧ s.st_shndx ≠ shnUndef

instance (s : Sym c) : Decidable (Exported s) := inferInstanceAs (Decidable (_ ∧ _))

/-- The exported symbols have distinct names. Symbol indices are 32-bit words. -/
structure SymTable (c : ElfClass) where
  nsyms : ℕ
  sym : ℕ → Sym c
  nsyms_le : nsyms ≤ 2 ^ 32
  distinct : ∀ n m, n < nsyms → m < nsyms → Exported (sym n) → Exported (sym m) →
    (sym n).name = (sym m).name → n = m

namespace SymTable

def Holds (T : SymTable c) (rd : Reads c) (symtab : Addr c) : Prop :=
  ∀ n < T.nsyms, rd.sym (nth symtab (symSize c) n) = T.sym n

def Defines (T : SymTable c) (name : Name) (n : ℕ) : Prop :=
  n < T.nsyms ∧ Exported (T.sym n) ∧ (T.sym n).name = name

instance (T : SymTable c) (name : Name) (n : ℕ) : Decidable (T.Defines name n) :=
  inferInstanceAs (Decidable (_ ∧ _))

/-- The pointer to the symbol with the name, NULL when there is none. -/
def Answer (T : SymTable c) (symtab : Addr c) (name : Name) (r : Option (Addr c)) : Prop :=
  ∀ p, r = some p ↔ ∃ n, T.Defines name n ∧ p = nth symtab (symSize c) n

theorem Defines.unique {T : SymTable c} {name : Name} {n m : ℕ} (hn : T.Defines name n)
    (hm : T.Defines name m) : n = m :=
  T.distinct n m hn.1 hm.1 hn.2.1 hm.2.1 (hn.2.2.trans hm.2.2.symm)

theorem answer_some {T : SymTable c} {name : Name} {n : ℕ} (h : T.Defines name n) :
    T.Answer symtab name (some (nth symtab (symSize c) n)) := by
  intro p
  constructor
  · intro hp
    exact ⟨n, h, (Option.some.inj hp).symm⟩
  · rintro ⟨m, hm, rfl⟩
    rw [h.unique hm]

theorem answer_none {T : SymTable c} {name : Name} (h : ∀ n, ¬ T.Defines name n) :
    T.Answer symtab name none := by
  intro p
  constructor
  · intro hp
    cases hp
  · rintro ⟨n, hn, -⟩
    exact absurd hn (h n)

end SymTable

structure SysvSection where
  nbucket : ℕ
  bucket : ℕ → ℕ
  chain : ℕ → ℕ

def sysvSection (rd : Reads c) (a : Addr c) : SysvSection where
  nbucket := (rd.u32 a).toNat
  bucket i := (rd.u32 (nth (a + 8) 4 i)).toNat
  chain n := (rd.u32 (nth (a + 8) 4 ((rd.u32 a).toNat + n))).toNat

/-- The chain from an index visits these indices and ends in 0. -/
inductive Visits (chain : ℕ → ℕ) : ℕ → List ℕ → Prop
  | done : Visits chain 0 []
  | step {n : ℕ} {ns : List ℕ} (hn : n ≠ 0) (hs : Visits chain (chain n) ns) :
      Visits chain n (n :: ns)

/-- Each chain visits symbols of its bucket, all exported ones among them. -/
structure SysvSection.Over (S : SysvSection) (T : SymTable c) : Prop where
  nbucket_pos : 0 < S.nbucket
  visits : ∀ i < S.nbucket, ∃ ns, Visits S.chain (S.bucket i) ns ∧
    (∀ n ∈ ns, n < T.nsyms ∧ (elfHash (T.sym n).name).toNat % S.nbucket = i) ∧
    ∀ n < T.nsyms, Exported (T.sym n) → (elfHash (T.sym n).name).toNat % S.nbucket = i → n ∈ ns

structure GnuSection (c : ElfClass) where
  nbuckets : ℕ
  symndx : ℕ
  maskwords : ℕ
  shift2 : ℕ
  bloom : ℕ → Addr c
  bucket : ℕ → ℕ
  chain : ℕ → BitVec 32

def gnuSection (rd : Reads c) (a : Addr c) : GnuSection c :=
  let buckets := nth (a + 16) c.wordsize (rd.u32 (a + 8)).toNat
  { nbuckets := (rd.u32 a).toNat
    symndx := (rd.u32 (a + 4)).toNat
    maskwords := (rd.u32 (a + 8)).toNat
    shift2 := (rd.u32 (a + 12)).toNat
    bloom := fun i => rd.word (nth (a + 16) c.wordsize i)
    bucket := fun i => (rd.u32 (nth buckets 4 i)).toNat
    chain := fun j => rd.u32 (nth buckets 4 ((rd.u32 a).toNat + j)) }

def GnuSection.slot (G : GnuSection c) (T : SymTable c) (n : ℕ) : ℕ :=
  (gnuHash (T.sym n).name).toNat % G.nbuckets

/-- The symbols from `symndx` on are sorted by bucket, a bucket holds the first symbol of
its own, and the last one has the stop bit. -/
structure GnuSection.Over (G : GnuSection c) (T : SymTable c) : Prop where
  nbuckets_pos : 0 < G.nbuckets
  symndx_pos : 0 < G.symndx
  maskwords_pow : ∃ k, G.maskwords = 2 ^ k
  shift2_lt : G.shift2 < 32
  exported : ∀ n < T.nsyms, Exported (T.sym n) → G.symndx ≤ n
  sorted : ∀ n m, G.symndx ≤ n → n ≤ m → m < T.nsyms → G.slot T n ≤ G.slot T m
  first : ∀ n, G.symndx ≤ n → n < T.nsyms →
    (∀ m, G.symndx ≤ m → m < n → G.slot T m ≠ G.slot T n) → G.bucket (G.slot T n) = n
  empty : ∀ i < G.nbuckets, (∀ n, G.symndx ≤ n → n < T.nsyms → G.slot T n ≠ i) → G.bucket i = 0
  hashes : ∀ n, G.symndx ≤ n → n < T.nsyms →
    G.chain (n - G.symndx) >>> 1 = gnuHash (T.sym n).name >>> 1
  stop : ∀ n, G.symndx ≤ n → n < T.nsyms →
    ((G.chain (n - G.symndx)).getLsbD 0 = true ↔
      n + 1 = T.nsyms ∨ G.slot T (n + 1) ≠ G.slot T n)
  filter : ∀ n < T.nsyms, Exported (T.sym n) →
    let hash := gnuHash (T.sym n).name
    let word := G.bloom (hash.toNat / c.bits % G.maskwords)
    word.getLsbD (hash.toNat % c.bits) = true ∧
      word.getLsbD ((hash >>> G.shift2).toNat % c.bits) = true

theorem isSymbolGlobalAndDefined_iff (s : Sym c) :
    isSymbolGlobalAndDefined s = true ↔ Exported s := by
  rw [isSymbolGlobalAndDefined, Exported]
  split <;> simp [*]

theorem sysvhash_step (h : BitVec 32) :
    h ^^^ (h &&& 0xf0000000) ^^^ ((h &&& 0xf0000000) >>> 24) =
      (h ^^^ ((h &&& 0xf0000000) >>> 24)) &&& ~~~(h &&& 0xf0000000) := by
  apply BitVec.eq_of_getLsbD_eq
  intro i hi
  simp only [BitVec.getLsbD_xor, BitVec.getLsbD_and, BitVec.getLsbD_not,
    BitVec.getLsbD_ushiftRight]
  interval_cases i <;> simp

theorem sysvhash_eq (name : Name) : sysvhash name = elfHash name := by
  unfold sysvhash elfHash
  congr 1
  funext h x
  exact sysvhash_step _

theorem gnuhash_eq (name : Name) : gnuhash name = gnuHash name := by
  unfold gnuhash gnuHash
  congr 1
  funext h x
  bv_omega

theorem nth_nth (p : Addr c) (k i j : ℕ) : nth (nth p k i) k j = nth p k (i + j) := by
  simp only [nth, BitVec.add_assoc, ← BitVec.ofNat_add, Nat.mul_add]

theorem nth_mul (p : Addr c) (k : ℕ) (n : BitVec 32) :
    p + n.setWidth c.bits * BitVec.ofNat c.bits k = nth p k n.toNat := by
  rw [nth, Nat.mul_comm, BitVec.ofNat_mul, BitVec.ofNat_toNat]

theorem toNat_setWidth (n : BitVec 32) : (n.setWidth c.bits).toNat = n.toNat := by
  cases c
  · exact BitVec.toNat_setWidth_of_le (by decide)
  · exact BitVec.toNat_setWidth_of_le (by decide)

section sysv

theorem sysvTable_nbucket : (sysvTable rd symtab a).nbucket.toNat = (sysvSection rd a).nbucket :=
  toNat_setWidth _

theorem sysvTable_bucket (hash : BitVec 32) :
    (rd.u32 ((sysvTable rd symtab a).bucketAt hash)).toNat =
      (sysvSection rd a).bucket (hash.toNat % (sysvSection rd a).nbucket) := by
  rw [HashTable.bucketAt, sysvTable_nbucket]
  rfl

theorem sysvTable_chain (n : BitVec 32) :
    (rd.u32 ((sysvTable rd symtab a).chainAt n)).toNat = (sysvSection rd a).chain n.toNat := by
  have hchain : (sysvTable rd symtab a).chain = nth (a + 8) 4 (rd.u32 a).toNat := nth_mul _ 4 _
  rw [HashTable.chainAt, hchain, nth_nth]
  rfl

end sysv

section gnu

theorem gnuTable_nbucket : (gnuTable rd symtab a).nbucket.toNat = (gnuSection rd a).nbuckets :=
  toNat_setWidth _

theorem gnuTable_bucket (hash : BitVec 32) :
    (rd.u32 ((gnuTable rd symtab a).bucketAt hash)).toNat =
      (gnuSection rd a).bucket (hash.toNat % (gnuSection rd a).nbuckets) := by
  rw [HashTable.bucketAt, gnuTable_nbucket]
  rfl

theorem gnuTable_chain {n : BitVec 32} (hn : (gnuSection rd a).symndx ≤ n.toNat) :
    rd.u32 ((gnuTable rd symtab a).chainAt n) =
      (gnuSection rd a).chain (n.toNat - (gnuSection rd a).symndx) := by
  have hle : (rd.u32 (a + 4)).toNat ≤ n.toNat := hn
  have hoff : nth 0 4 n.toNat - (rd.u32 (a + 4)).setWidth c.bits * 4 =
      nth 0 4 (n.toNat - (rd.u32 (a + 4)).toNat) := by
    have hadd := nth_nth (0 : Addr c) 4 (n.toNat - (rd.u32 (a + 4)).toNat) (rd.u32 (a + 4)).toNat
    rw [Nat.sub_add_cancel hle, ← nth_mul] at hadd
    rw [← hadd]
    exact BitVec.add_sub_cancel _ _
  have hchain : (gnuTable rd symtab a).chainAt n =
      nth (nth (a + 16) c.wordsize (rd.u32 (a + 8)).toNat) 4
        ((rd.u32 a).toNat + (n.toNat - (rd.u32 (a + 4)).toNat)) := by
    rw [← nth_nth, ← nth_mul _ 4 (rd.u32 a)]
    have hnth : ∀ (p : Addr c) (i : ℕ), nth p 4 i = p + nth 0 4 i := by simp [nth]
    rw [HashTable.chainAt, hnth, hnth _ (n.toNat - _), ← hoff]
    simp only [gnuTable]
    rw [BitVec.sub_eq_add_neg, BitVec.sub_eq_add_neg, BitVec.add_assoc, BitVec.add_assoc,
      BitVec.add_comm (-_)]
    simp only [BitVec.add_assoc]
    rfl
  rw [hchain]
  rfl

theorem gnuTable_bloom {hash : BitVec 32} {k : ℕ} (hk : (gnuSection rd a).maskwords = 2 ^ k) :
    rd.word ((gnuTable rd symtab a).bloomAt hash) =
      (gnuSection rd a).bloom (hash.toNat / c.bits % (gnuSection rd a).maskwords) := by
  have hmask : (rd.u32 (a + 8)).toNat = 2 ^ k := hk
  have hindex : (BitVec.ofNat 32 (hash.toNat / c.bits) &&& (rd.u32 (a + 8) - 1)).toNat =
      hash.toNat / c.bits % 2 ^ k := by
    have hlt : hash.toNat / c.bits < 2 ^ 32 := (Nat.div_le_self _ _).trans_lt hash.isLt
    have hpos : 0 < 2 ^ k := Nat.two_pow_pos k
    have hsub : (rd.u32 (a + 8) - 1).toNat = 2 ^ k - 1 := by bv_omega
    rw [BitVec.toNat_and, hsub, Nat.and_two_pow_sub_one_eq_mod, BitVec.toNat_ofNat,
      Nat.mod_eq_of_lt hlt]
  rw [hk]
  exact congrArg (fun i => rd.word (nth (a + 16) c.wordsize i)) hindex

end gnu

end Bionic.HashSections
