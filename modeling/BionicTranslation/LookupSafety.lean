import BionicTranslation.SymbolLookup
import BionicTranslation.FindSound

/-!
# What a lookup needs

Linking accepts a library without looking at its hash tables. Lookups divide by
the number of buckets and follow what the tables say, so they are safe just when
the tables lead somewhere.
-/

set_option autoImplicit false

namespace Bionic.LookupSafety
open Bionic.Slots Bionic.Records Bionic.Linker Bionic.Bytes Bionic.Elf Bionic.Loops
open Bionic.SymbolLookup Bionic.LinkSteps Bionic.FindSound

section table
variable {c : ElfClass}

def Safe (rd : Reads c) (t : HashTable c) (inside : Field c → Prop) (name : Name) : Prop :=
  ∃ fuel reads r, elfLookup rd t fuel name = (reads, some (.returned r)) ∧ ∀ f ∈ reads, inside f

/-- From index `n` on, the chain words lead to index 0 or to a symbol that matches, and
lie inside up to there, as the symbols do. -/
def SysvLeads (rd : Reads c) (t : HashTable c) (inside : Field c → Prop) (name : Name)
    (n : BitVec 32) : Prop :=
  let index := fun j => (fun n => rd.u32 (t.chainAt n))^[j] n
  ∃ k,
    (∀ j < k, index j ≠ 0 ∧ isNamed rd t name (index j) = false ∧
      inside (t.symAt (index j), symSize c) ∧ inside (t.chainAt (index j), 4)) ∧
    (index k = 0 ∨ isNamed rd t name (index k) = true ∧ inside (t.symAt (index k), symSize c))

/-- From index `n` on, there comes a stop bit or a symbol that matches, and the chain words
lie inside up to there, as do the symbols whose hash fits. -/
def GnuLeads (rd : Reads c) (t : HashTable c) (inside : Field c → Prop) (name : Name)
    (n : BitVec 32) : Prop :=
  let index := fun j => (fun n : BitVec 32 => n + 1)^[j] n
  let hit := fun j => hashFits rd t name (index j) && isNamed rd t name (index j)
  let stop := fun j => (rd.u32 (t.chainAt (index j))).getLsbD 0
  ∃ k, (∀ j < k, hit j = false ∧ stop j = false) ∧ (hit k = true ∨ stop k = true) ∧
    ∀ j ≤ k, inside (t.chainAt (index j), 4) ∧
      (hashFits rd t name (index j) = true → inside (t.symAt (index j), symSize c))

/-- There are buckets, and what a lookup of the name looks up lies inside. -/
def Searchable (rd : Reads c) (t : HashTable c) (inside : Field c → Prop) (name : Name) : Prop :=
  t.nbucket ≠ 0 ∧
    if t.gnuHash then
      let hash := gnuhash name
      inside (t.bloomAt hash, c.wordsize) ∧
        (bloomTest rd t hash = true → inside (t.bucketAt hash, 4) ∧
          (rd.u32 (t.bucketAt hash) ≠ 0 → GnuLeads rd t inside name (rd.u32 (t.bucketAt hash))))
    else
      inside (t.bucketAt (sysvhash name), 4) ∧
        SysvLeads rd t inside name (rd.u32 (t.bucketAt (sysvhash name)))

variable {rd : Reads c} {t : HashTable c} {inside : Field c → Prop} {name : Name} {n : BitVec 32}

theorem run_reads_iff {body : Body (BitVec 32) (Field c) (Option (Addr c))}
    {before : List (Field c)} :
    (∃ fuel reads r, ofRun before (run body fuel n) = (reads, some (.returned r)) ∧
        ∀ f ∈ reads, inside f) ↔
      (∀ f ∈ before, inside f) ∧
        ∃ ss r, Passes body n ss r ∧ ∀ m ∈ ss, ∀ f ∈ (body m).1, inside f := by
  constructor
  · rintro ⟨fuel, reads, r, h, hin⟩
    obtain ⟨hreads, hr⟩ := Prod.mk.inj h
    obtain ⟨q, hq, -⟩ := Option.map_eq_some_iff.mp hr
    have hrun : run body fuel n = ((run body fuel n).1, some q) := Prod.ext rfl hq
    obtain ⟨ss, hss, hes⟩ := passes_of_run hrun
    rw [← hreads, hes] at hin
    refine ⟨fun f hf => hin f (List.mem_append_left _ hf), ss, q, hss, fun m hm f hf => ?_⟩
    exact hin f (List.mem_append_right _ (List.mem_flatMap.mpr ⟨m, hm, hf⟩))
  · rintro ⟨hbefore, ss, r, hss, hin⟩
    refine ⟨ss.length, before ++ ss.flatMap fun m => (body m).1, r, ?_, fun f hf => ?_⟩
    · rw [hss.run_eq le_rfl]
      rfl
    · rcases List.mem_append.mp hf with hf | hf
      · exact hbefore f hf
      · obtain ⟨m, hm, hf⟩ := List.mem_flatMap.mp hf
        exact hin m hm f hf

theorem sysvPass_goes_on :
    ((∃ m, (sysvPass rd t name n).2 = .inl m) ∧ ∀ f ∈ (sysvPass rd t name n).1, inside f) ↔
      n ≠ 0 ∧ isNamed rd t name n = false ∧
        inside (t.symAt n, symSize c) ∧ inside (t.chainAt n, 4) := by
  by_cases h0 : n = 0
  · simp [sysvPass, h0]
  · simp only [sysvPass, ne_eq, h0, not_false_eq_true, true_and]
    cases isNamed rd t name n <;> simp

theorem sysvPass_ends :
    ((∃ r, (sysvPass rd t name n).2 = .inr r) ∧ ∀ f ∈ (sysvPass rd t name n).1, inside f) ↔
      n = 0 ∨ isNamed rd t name n = true ∧ inside (t.symAt n, symSize c) := by
  by_cases h0 : n = 0
  · simp [sysvPass, h0]
  · simp only [sysvPass, h0, false_or]
    cases isNamed rd t name n <;> simp

theorem sysv_leads_iff :
    (∃ ss r, Passes (sysvPass rd t name) n ss r ∧
        ∀ m ∈ ss, ∀ f ∈ (sysvPass rd t name m).1, inside f) ↔ SysvLeads rd t inside name n := by
  have hnext : ∀ n m, (sysvPass rd t name n).2 = .inl m → m = rd.u32 (t.chainAt n) := by
    intro n m h
    by_cases h0 : n = 0
    · rw [h0, sysvPass_end] at h
      cases h
    · by_cases hn : isNamed rd t name n = true
      · rw [sysvPass_found h0 hn] at h
        cases h
      · rw [sysvPass_next h0 hn] at h
        exact (Sum.inl.inj h).symm
  rw [exists_passes_iff hnext n]
  simp only [sysvPass_goes_on, sysvPass_ends]
  rfl

theorem gnuPass_reads :
    (∀ f ∈ (gnuPass rd t name n).1, inside f) ↔ inside (t.chainAt n, 4) ∧
      (hashFits rd t name n = true → inside (t.symAt n, symSize c)) := by
  unfold gnuPass
  split_ifs with hit hf <;> simp_all

theorem gnuPass_goes_on :
    (∃ m, (gnuPass rd t name n).2 = .inl m) ↔
      (hashFits rd t name n && isNamed rd t name n) = false ∧
        (rd.u32 (t.chainAt n)).getLsbD 0 = false := by
  cases hit : hashFits rd t name n && isNamed rd t name n with
  | true => simp [gnuPass_found hit]
  | false =>
    cases hs : (rd.u32 (t.chainAt n)).getLsbD 0 with
    | true => simp [gnuPass_stop (Bool.eq_false_iff.mp hit) hs]
    | false => simp [gnuPass_next (Bool.eq_false_iff.mp hit) hs]

theorem gnuPass_ends :
    (∃ r, (gnuPass rd t name n).2 = .inr r) ↔
      (hashFits rd t name n && isNamed rd t name n) = true ∨
        (rd.u32 (t.chainAt n)).getLsbD 0 = true := by
  cases hit : hashFits rd t name n && isNamed rd t name n with
  | true => simp [gnuPass_found hit]
  | false =>
    cases hs : (rd.u32 (t.chainAt n)).getLsbD 0 with
    | true => simp [gnuPass_stop (Bool.eq_false_iff.mp hit) hs]
    | false => simp [gnuPass_next (Bool.eq_false_iff.mp hit) hs]

theorem gnu_leads_iff :
    (∃ ss r, Passes (gnuPass rd t name) n ss r ∧
        ∀ m ∈ ss, ∀ f ∈ (gnuPass rd t name m).1, inside f) ↔ GnuLeads rd t inside name n := by
  have hnext : ∀ n m, (gnuPass rd t name n).2 = .inl m → m = n + 1 := by
    intro n m h
    obtain ⟨hit, hs⟩ := gnuPass_goes_on.mp ⟨m, h⟩
    rw [gnuPass_next (Bool.eq_false_iff.mp hit) hs] at h
    exact (Sum.inl.inj h).symm
  rw [exists_passes_iff hnext n]
  simp only [gnuPass_goes_on, gnuPass_ends, gnuPass_reads]
  constructor
  · rintro ⟨k, hk, hlast, hreads⟩
    refine ⟨k, fun j hj => (hk j hj).1, hlast, fun j hj => ?_⟩
    rcases hj.lt_or_eq with hlt | rfl
    · exact (hk j hlt).2
    · exact hreads
  · rintro ⟨k, hk, hlast, hreads⟩
    exact ⟨k, fun j hj => ⟨hk j hj, hreads j hj.le⟩, hlast, hreads k le_rfl⟩

theorem not_safe_of_no_bucket (h0 : t.nbucket = 0) : ¬ Safe rd t inside name := by
  rintro ⟨fuel, reads, r, h, -⟩
  unfold elfLookup at h
  cases hg : t.gnuHash with
  | false => simp [hg, elfLookupSysv, h0] at h
  | true => simp [hg, elfLookupGnu, h0] at h

theorem safe_sysv_iff (h0 : t.nbucket ≠ 0) (hg : t.gnuHash = false) :
    Safe rd t inside name ↔ inside (t.bucketAt (sysvhash name), 4) ∧
      SysvLeads rd t inside name (rd.u32 (t.bucketAt (sysvhash name))) := by
  simp only [Safe, elfLookup, hg, Bool.false_eq_true, if_false, elfLookupSysv, if_neg h0]
  rw [run_reads_iff, sysv_leads_iff, List.forall_mem_singleton]

theorem safe_gnu_iff (h0 : t.nbucket ≠ 0) (hg : t.gnuHash = true) :
    Safe rd t inside name ↔ inside (t.bloomAt (gnuhash name), c.wordsize) ∧
      (bloomTest rd t (gnuhash name) = true → inside (t.bucketAt (gnuhash name), 4) ∧
        (rd.u32 (t.bucketAt (gnuhash name)) ≠ 0 →
          GnuLeads rd t inside name (rd.u32 (t.bucketAt (gnuhash name))))) := by
  simp only [Safe, elfLookup, hg, if_true, elfLookupGnu, if_neg h0]
  cases hb : bloomTest rd t (gnuhash name) with
  | false => simp
  | true =>
    simp only [Bool.not_true, Bool.false_eq_true, if_false, forall_const]
    by_cases hn : rd.u32 (t.bucketAt (gnuhash name)) = 0
    · simp [-Prod.forall, hn]
    · simp only [ne_eq, hn, not_false_eq_true, forall_const, if_false]
      rw [run_reads_iff, gnu_leads_iff, List.forall_mem_cons, List.forall_mem_singleton, and_assoc]

theorem safe_iff : Safe rd t inside name ↔ Searchable rd t inside name := by
  by_cases h0 : t.nbucket = 0
  · exact iff_of_false (not_safe_of_no_bucket h0) fun h => h.1 h0
  · rw [Searchable, and_iff_right h0]
    cases hg : t.gnuHash with
    | false => exact safe_sysv_iff h0 hg
    | true => exact safe_gnu_iff h0 hg

end table

def reads (s : Soinfo) : Reads .elf64 where
  u32 a := BitVec.ofNat 32 (s.image.u32 (s.offset a.toNat))
  word a := BitVec.ofNat 64 (s.image.word (s.offset a.toNat))
  sym a :=
    let info := s.image.u32 (s.offset (a + 4).toNat)
    { name := s.image.str (s.offset (s.strtab + s.image.u32 (s.offset a.toNat)))
      st_bind := info % 256 / 16
      st_type := info % 16
      st_shndx := u32 info / 65536
      st_value := BitVec.ofNat 64 (s.image.word (s.offset (a + 8).toNat))
      st_size := BitVec.ofNat 64 (s.image.word (s.offset (a + 16).toNat)) }

def hashTable (s : Soinfo) : HashTable .elf64 where
  symtab := BitVec.ofNat 64 s.symtab
  gnuHash := s.flags.gnuHash
  nbucket := BitVec.ofNat 64 s.nbucket
  bucket := BitVec.ofNat 64 s.bucket
  chain := BitVec.ofNat 64 s.chain
  gnu_maskwords := BitVec.ofNat 32 s.gnu_maskwords
  gnu_shift2 := BitVec.ofNat 32 s.gnu_shift2
  gnu_bloom_filter := BitVec.ofNat 64 s.gnu_bloom_filter

def InMapping (s : Soinfo) (f : SymbolLookup.Field .elf64) : Prop :=
  s.base ≤ f.1.toNat ∧ f.1.toNat + f.2 ≤ s.base + s.size

/-- A lookup of the name in the library ends, divides by no zero, and reads inside the
mapping. -/
def SafeLookup (s : Soinfo) (name : Name) : Prop :=
  Safe (reads s) (hashTable s) (InMapping s) name

def Accepted (s : Soinfo) : Prop :=
  ∃ find w L L' i, linkImage find w L (.pool i) = some (L', true) ∧
    (L'.info (.pool i)).flags.linked = true ∧ L'.info (.pool i) = s

/-- For every library, and every name. -/
theorem lookup_safe_iff (s : Soinfo) (name : Name) :
    SafeLookup s name ↔ Searchable (reads s) (hashTable s) (InMapping s) name :=
  safe_iff

/-- One empty bucket at the start of the mapping. -/
example : SafeLookup { size := 16, nbucket := 1 } ['x'] :=
  ⟨1, [(0, 4)], none, by decide, by simp [InMapping]⟩

/-- A library without hash tables is accepted, and every lookup in it divides by zero. -/
theorem plain_lookup_unsafe : ∃ s, Accepted s ∧ ∀ name, ¬ SafeLookup s name := by
  have h : (findLibrary relWorld 1 initial ['p']).map (fun r =>
      (r.2, (r.1.info (.pool firstSlot)).flags.linked, (r.1.info (.pool firstSlot)).nbucket)) =
      some ((some (.pool firstSlot), none), true, 0) := by decide +kernel
  obtain ⟨⟨L, r⟩, hf, he⟩ := Option.map_eq_some_iff.mp h
  simp only [Prod.mk.injEq] at he
  obtain ⟨rfl, hlinked, hb⟩ := he
  rcases findLibrary_cases hf with ⟨x, hn, -, -⟩ | ⟨-, h, -⟩ |
    ⟨-, L1, L2, i, host, ok, -, hlink, hend⟩
  · cases hn
  · cases h
  · rcases hend with ⟨rfl, hi, rfl⟩ | ⟨-, h, -⟩
    · cases hi
      refine ⟨_, ⟨_, _, _, _, _, hlink, hlinked, rfl⟩, fun name => not_safe_of_no_bucket ?_⟩
      rw [hashTable, hb]
      rfl
    · cases h

end Bionic.LookupSafety
