import BionicTranslation.HashSections

/-!
# Both lookups find the symbol

Over a symbol table without duplicates a SysV table and a GNU table are two ways
to the same answer. The SysV walk is an induction over the indices its chain
visits; the invariant of the GNU walk is that no symbol passed so far defines the
name.
-/

set_option autoImplicit false

namespace Bionic.LookupAgree
open Bionic.Bytes Bionic.Records Bionic.Elf Bionic.Loops Bionic.SymbolLookup Bionic.HashSections

variable {c : ElfClass} {rd : Reads c} {T : SymTable c} {symtab a : Addr c} {name : Name}

theorem isNamed_iff {t : HashTable c} {n : BitVec 32} (hT : T.Holds rd symtab)
    (ht : t.symtab = symtab) (hn : n.toNat < T.nsyms) :
    isNamed rd t name n = true ↔ T.Defines name n.toNat := by
  have hsym : rd.sym (t.symAt n) = T.sym n.toNat := by
    rw [HashTable.symAt, ht]
    exact hT _ hn
  simp [isNamed, hsym, SymTable.Defines, isSymbolGlobalAndDefined_iff, hn, and_comm]

section sysv

theorem sysv_walk {ns : List ℕ} {k : ℕ} (hT : T.Holds rd symtab)
    (hv : Visits (sysvSection rd a).chain k ns) (hns : ∀ n ∈ ns, n < T.nsyms) (name : Name) :
    ∀ n : BitVec 32, n.toNat = k → ∃ ss r,
      Passes (sysvPass rd (sysvTable rd symtab a) name) n ss r ∧
      ((∀ m ∈ ns, ¬ T.Defines name m) ∧ r = none ∨
        ∃ m, T.Defines name m ∧ r = some (nth symtab (symSize c) m)) := by
  induction hv with
  | done =>
    intro n hn
    obtain rfl : n = 0 := BitVec.eq_of_toNat_eq hn
    exact ⟨[0], none, .last sysvPass_end, .inl ⟨by simp, rfl⟩⟩
  | @step k ns hk hv ih =>
    intro n hn
    have hlt : n.toNat < T.nsyms := hn ▸ hns k List.mem_cons_self
    have hn0 : n ≠ 0 := by
      rintro rfl
      exact hk hn.symm
    by_cases hd : isNamed rd (sysvTable rd symtab a) name n = true
    · exact ⟨[n], _, .last (sysvPass_found hn0 hd),
        .inr ⟨n.toNat, (isNamed_iff hT rfl hlt).mp hd, rfl⟩⟩
    · obtain ⟨ss, r, hss, hr⟩ := ih (fun m hm => hns m (List.mem_cons_of_mem _ hm))
        (rd.u32 ((sysvTable rd symtab a).chainAt n)) (by rw [sysvTable_chain, hn])
      refine ⟨n :: ss, r, .next (sysvPass_next hn0 hd) hss, hr.imp_left ?_⟩
      rintro ⟨hnone, rfl⟩
      refine ⟨fun m hm => ?_, rfl⟩
      rcases List.mem_cons.mp hm with rfl | hm
      · rw [isNamed_iff hT rfl hlt, hn] at hd
        exact hd
      · exact hnone m hm

theorem sysv_nbucket (hS : (sysvSection rd a).Over T) : (sysvTable rd symtab a).nbucket ≠ 0 := by
  intro h0
  have heq : (sysvTable rd symtab a).nbucket.toNat = (sysvSection rd a).nbucket := sysvTable_nbucket
  rw [h0] at heq
  exact hS.nbucket_pos.ne heq

theorem lookup_sysv (hT : T.Holds rd symtab) (hS : (sysvSection rd a).Over T) (name : Name) :
    ∃ r k, T.Answer symtab name r ∧ ∀ fuel, k ≤ fuel →
      (elfLookupSysv rd (sysvTable rd symtab a) fuel name).2 = some (.returned r) := by
  obtain ⟨ns, hv, hns, hall⟩ :=
    hS.visits ((sysvhash name).toNat % (sysvSection rd a).nbucket) (Nat.mod_lt _ hS.nbucket_pos)
  obtain ⟨ss, r, hss, hr⟩ := sysv_walk hT hv (fun n hn => (hns n hn).1) name
    (rd.u32 ((sysvTable rd symtab a).bucketAt (sysvhash name))) (sysvTable_bucket _)
  refine ⟨r, ss.length, ?_, fun fuel hfuel => ?_⟩
  · rcases hr with ⟨hnone, rfl⟩ | ⟨m, hm, rfl⟩
    · refine SymTable.answer_none fun n hn => hnone n (hall n hn.1 hn.2.1 ?_) hn
      rw [hn.2.2, sysvhash_eq]
    · exact SymTable.answer_some hm
  · rw [elfLookupSysv, if_neg (sysv_nbucket hS), ofRun, hss.run_eq hfuel]
    rfl

end sysv

section gnu

theorem gnu_fits {n : BitVec 32} (hG : (gnuSection rd a).Over T)
    (hlow : (gnuSection rd a).symndx ≤ n.toNat) (hlt : n.toNat < T.nsyms)
    (hd : (T.sym n.toNat).name = name) : hashFits rd (gnuTable rd symtab a) name n = true := by
  rw [hashFits, BitVec.ushiftRight_xor_distrib, gnuTable_chain hlow, hG.hashes _ hlow hlt, hd,
    gnuhash_eq, BitVec.xor_self]
  rfl

theorem hit_iff {n : BitVec 32} (hT : T.Holds rd symtab) (hG : (gnuSection rd a).Over T)
    (hlow : (gnuSection rd a).symndx ≤ n.toNat) (hlt : n.toNat < T.nsyms) :
    (hashFits rd (gnuTable rd symtab a) name n && isNamed rd (gnuTable rd symtab a) name n) = true ↔
      T.Defines name n.toNat := by
  rw [Bool.and_eq_true, isNamed_iff hT rfl hlt]
  exact ⟨And.right, fun h => ⟨gnu_fits hG hlow hlt h.2.2, h⟩⟩

theorem stop_last {n m : ℕ} (hG : (gnuSection rd a).Over T) (hlow : (gnuSection rd a).symndx ≤ n)
    (hlt : n < T.nsyms)
    (hstop : ((gnuSection rd a).chain (n - (gnuSection rd a).symndx)).getLsbD 0 = true)
    (hnm : n < m) (hm : m < T.nsyms) :
    (gnuSection rd a).slot T m ≠ (gnuSection rd a).slot T n := by
  intro heq
  rcases (hG.stop n hlow hlt).mp hstop with hlast | hslot
  · omega
  · have hle := hG.sorted n (n + 1) hlow (by omega) (by omega)
    have hle' := hG.sorted (n + 1) m (by omega) hnm hm
    omega

/-- The walk is inside the bucket of `slot` and has passed no symbol of the name. -/
structure Walking (T : SymTable c) (G : GnuSection c) (name : Name) (n : BitVec 32) : Prop where
  low : G.symndx ≤ n.toNat
  lt : n.toNat < T.nsyms
  slot : G.slot T n.toNat = (gnuHash name).toNat % G.nbuckets
  passed : ∀ m < n.toNat, ¬ T.Defines name m

theorem Walking.defines_ge {G : GnuSection c} {n : BitVec 32} {m : ℕ} (hw : Walking T G name n)
    (hm : T.Defines name m) : n.toNat ≤ m :=
  Nat.le_of_not_lt fun hlt => hw.passed m hlt hm

theorem walking_next {n : BitVec 32} (hG : (gnuSection rd a).Over T)
    (hw : Walking T (gnuSection rd a) name n) (hd : ¬ T.Defines name n.toNat)
    (hs : ((gnuSection rd a).chain (n.toNat - (gnuSection rd a).symndx)).getLsbD 0 = false) :
    Walking T (gnuSection rd a) name (n + 1) ∧ (n + 1).toNat = n.toNat + 1 := by
  have hstop := hG.stop n.toNat hw.low hw.lt
  rw [hs] at hstop
  have hinside : n.toNat + 1 ≠ T.nsyms ∧
      (gnuSection rd a).slot T (n.toNat + 1) = (gnuSection rd a).slot T n.toNat := by
    simpa using hstop
  have hlt := hw.lt
  have hle := T.nsyms_le
  have hn : (n + 1).toNat = n.toNat + 1 := by
    have hone : (1 : BitVec 32).toNat = 1 := rfl
    rw [BitVec.toNat_add, hone]
    omega
  refine ⟨⟨?_, ?_, ?_, fun k hk hdef => ?_⟩, hn⟩
  · exact hn ▸ hw.low.trans (Nat.le_succ _)
  · omega
  · rw [hn, hinside.2, hw.slot]
  · have hge := hw.defines_ge hdef
    obtain rfl : k = n.toNat := by omega
    exact hd hdef

/-- From inside the bucket the walk gets to the answer. The measure is what is left of
the symbol table. -/
theorem gnu_walk {n : BitVec 32} (hT : T.Holds rd symtab) (hG : (gnuSection rd a).Over T)
    (hw : Walking T (gnuSection rd a) name n) :
    ∃ ss r, Passes (gnuPass rd (gnuTable rd symtab a) name) n ss r ∧ T.Answer symtab name r := by
  induction hk : T.nsyms - n.toNat using Nat.strong_induction_on generalizing n with
  | _ k ih =>
    have hlt := hw.lt
    by_cases hd : T.Defines name n.toNat
    · have hpass := gnuPass_found ((hit_iff (a := a) hT hG hw.low hlt).mpr hd)
      exact ⟨[n], _, .last hpass, SymTable.answer_some hd⟩
    · have hmiss := mt (hit_iff (a := a) hT hG hw.low hlt).mp hd
      have hword : rd.u32 ((gnuTable rd symtab a).chainAt n) = _ := gnuTable_chain hw.low
      cases hs : ((gnuSection rd a).chain (n.toNat - (gnuSection rd a).symndx)).getLsbD 0 with
      | false =>
        obtain ⟨hnext, hn⟩ := walking_next hG hw hd hs
        obtain ⟨ss, r, hss, hr⟩ := ih _ (by omega) hnext rfl
        exact ⟨n :: ss, r, .next (gnuPass_next hmiss (hword ▸ hs)) hss, hr⟩
      | true =>
        refine ⟨[n], none, .last (gnuPass_stop hmiss (hword ▸ hs)), SymTable.answer_none ?_⟩
        intro m hm
        have hne : n.toNat ≠ m := fun heq => hd (heq ▸ hm)
        have hgt : n.toNat < m := lt_of_le_of_ne (hw.defines_ge hm) hne
        refine stop_last hG hw.low hlt hs hgt hm.1 ?_
        rw [hw.slot, GnuSection.slot, hm.2.2]

theorem bloomTest_of_defines {n : ℕ} (hG : (gnuSection rd a).Over T) (hn : T.Defines name n) :
    bloomTest rd (gnuTable rd symtab a) (gnuhash name) = true := by
  obtain ⟨k, hk⟩ := hG.maskwords_pow
  have hbits := hG.filter n hn.1 hn.2.1
  rw [hn.2.2, ← gnuhash_eq] at hbits
  rw [bloomTest, gnuTable_bloom hk]
  simp only [Bool.and_eq_true]
  exact hbits

theorem bucket_start (hG : (gnuSection rd a).Over T) (symtab : Addr c) (name : Name) :
    (∀ n, ¬ T.Defines name n) ∧
        rd.u32 ((gnuTable rd symtab a).bucketAt (gnuhash name)) = 0 ∨
      rd.u32 ((gnuTable rd symtab a).bucketAt (gnuhash name)) ≠ 0 ∧
        Walking T (gnuSection rd a) name
          (rd.u32 ((gnuTable rd symtab a).bucketAt (gnuhash name))) := by
  have hbucket : (rd.u32 ((gnuTable rd symtab a).bucketAt (gnuhash name))).toNat = _ :=
    gnuTable_bucket _
  rw [gnuhash_eq] at hbucket ⊢
  have hslot : (gnuHash name).toNat % (gnuSection rd a).nbuckets < (gnuSection rd a).nbuckets :=
    Nat.mod_lt _ hG.nbuckets_pos
  have hdef : ∀ n, T.Defines name n → (gnuSection rd a).symndx ≤ n ∧ n < T.nsyms ∧
      (gnuSection rd a).slot T n = (gnuHash name).toNat % (gnuSection rd a).nbuckets := fun n hn =>
    ⟨hG.exported n hn.1 hn.2.1, hn.1, by rw [GnuSection.slot, hn.2.2]⟩
  by_cases hex : ∃ n, (gnuSection rd a).symndx ≤ n ∧ n < T.nsyms ∧
      (gnuSection rd a).slot T n = (gnuHash name).toNat % (gnuSection rd a).nbuckets
  · classical
    obtain ⟨hlow, hlt, hs⟩ := Nat.find_spec hex
    have hmin := fun m hm => Nat.find_min (m := m) hex hm
    have hfirst := hG.first (Nat.find hex) hlow hlt fun m hsm hm heq =>
      hmin m hm ⟨hsm, hm.trans hlt, heq.trans hs⟩
    rw [hs] at hfirst
    rw [hfirst] at hbucket
    have hpos := hG.symndx_pos
    refine .inr ⟨fun h0 => ?_, ⟨?_, ?_, ?_, fun m hm hd => ?_⟩⟩
    · rw [h0] at hbucket
      simp only [BitVec.ofNat_eq_ofNat, BitVec.toNat_ofNat, Nat.zero_mod] at hbucket
      omega
    · rwa [hbucket]
    · rwa [hbucket]
    · rwa [hbucket]
    · exact hmin m (hbucket ▸ hm) (hdef m hd)
  · push Not at hex
    have hempty := hG.empty _ hslot fun n hlow hlt => hex n hlow hlt
    refine .inl ⟨fun n hn => ?_, BitVec.eq_of_toNat_eq (hbucket.trans hempty)⟩
    obtain ⟨hlow, hlt, hs⟩ := hdef n hn
    exact hex n hlow hlt hs

theorem gnu_nbucket (hG : (gnuSection rd a).Over T) : (gnuTable rd symtab a).nbucket ≠ 0 := by
  intro h0
  have heq : (gnuTable rd symtab a).nbucket.toNat = (gnuSection rd a).nbuckets := gnuTable_nbucket
  rw [h0] at heq
  exact hG.nbuckets_pos.ne heq

theorem lookup_gnu (hT : T.Holds rd symtab) (hG : (gnuSection rd a).Over T) (name : Name) :
    ∃ r k, T.Answer symtab name r ∧ ∀ fuel, k ≤ fuel →
      (elfLookupGnu rd (gnuTable rd symtab a) fuel name).2 = some (.returned r) := by
  have hb : (gnuTable rd symtab a).nbucket ≠ 0 := gnu_nbucket hG
  by_cases hbloom : bloomTest rd (gnuTable rd symtab a) (gnuhash name) = true
  · rcases bucket_start hG symtab name with ⟨hnone, h0⟩ | ⟨h0, hw⟩
    · refine ⟨none, 0, SymTable.answer_none hnone, fun fuel _ => ?_⟩
      simp only [elfLookupGnu, if_neg hb, hbloom, h0, Bool.not_true, Bool.false_eq_true, if_false,
        if_true]
    · obtain ⟨ss, r, hss, hr⟩ := gnu_walk hT hG hw
      refine ⟨r, ss.length, hr, fun fuel hfuel => ?_⟩
      simp only [elfLookupGnu, if_neg hb, hbloom, if_neg h0, Bool.not_true, Bool.false_eq_true,
        if_false, ofRun, hss.run_eq hfuel, Option.map_some]
  · refine ⟨none, 0, SymTable.answer_none fun n hn => hbloom (bloomTest_of_defines hG hn), ?_⟩
    intro fuel _
    simp only [elfLookupGnu, if_neg hb, hbloom, Bool.not_false, if_true]

end gnu

structure Tables (rd : Reads c) (T : SymTable c) (symtab hash gnu : Addr c) : Prop where
  symbols : T.Holds rd symtab
  sysv : (sysvSection rd hash).Over T
  gnu : (gnuSection rd gnu).Over T

/-- Both lookups end with the one answer. -/
theorem lookups_agree {hash gnu : Addr c} (h : Tables rd T symtab hash gnu) (name : Name) :
    ∃ r k, T.Answer symtab name r ∧ ∀ fuel, k ≤ fuel →
      (elfLookupSysv rd (sysvTable rd symtab hash) fuel name).2 = some (.returned r) ∧
      (elfLookupGnu rd (gnuTable rd symtab gnu) fuel name).2 = some (.returned r) := by
  obtain ⟨r, k, hr, hk⟩ := lookup_sysv h.symbols h.sysv name
  obtain ⟨q, j, hq, hj⟩ := lookup_gnu h.symbols h.gnu name
  have hqr : q = r := Option.ext fun p => (hq p).trans (hr p).symm
  refine ⟨r, max k j, hr, fun fuel hfuel => ⟨hk fuel ?_, hqr ▸ hj fuel ?_⟩⟩
  · exact (Nat.le_max_left _ _).trans hfuel
  · exact (Nat.le_max_right _ _).trans hfuel

def sampleSymbols : SymTable .elf64 where
  nsyms := 3
  sym n := match n with
    | 1 => ⟨['a'], stbGlobal, sttFunc, 7, 0x1000, 8⟩
    | 2 => ⟨['b'], stbWeak, sttFunc, 7, 0x1010, 8⟩
    | _ => ⟨[], 0, 0, shnUndef, 0, 0⟩
  nsyms_le := by decide
  distinct := by
    intro n m hn hm
    interval_cases n <;> interval_cases m <;> decide

def sampleImage : Reads .elf64 where
  u32 a := ([(0x100, 1), (0x104, 3), (0x108, 1), (0x110, 2), (0x200, 1), (0x204, 1), (0x208, 1),
    (0x20c, 5), (0x218, 1), (0x21c, 177670), (0x220, 177671)].lookup a.toNat).getD 0
  word _ := BitVec.allOnes 64
  sym a := sampleSymbols.sym ((a.toNat - 0x400) / 24)

theorem sample_sysv : (sysvSection sampleImage 0x100).Over sampleSymbols where
  nbucket_pos := by decide
  visits := by
    intro i hi
    obtain rfl : i = 0 := Nat.lt_one_iff.mp hi
    refine ⟨[1, 2], .step (by decide) (.step (by decide) .done), by decide, ?_⟩
    intro n hn
    have hn : n < 3 := hn
    interval_cases n <;> decide

theorem sample_range {n : ℕ} (hlow : (gnuSection sampleImage 0x200).symndx ≤ n)
    (hlt : n < sampleSymbols.nsyms) : n = 1 ∨ n = 2 := by
  have hlow : 1 ≤ n := hlow
  have hlt : n < 3 := hlt
  omega

theorem sample_gnu : (gnuSection sampleImage 0x200).Over sampleSymbols where
  nbuckets_pos := by decide
  symndx_pos := by decide
  maskwords_pow := ⟨0, by decide⟩
  shift2_lt := by decide
  exported := by decide
  sorted n m _ _ _ := (Nat.mod_one _).le.trans (Nat.zero_le _)
  first := by
    intro n hlow hlt hmin
    rcases sample_range hlow hlt with rfl | rfl
    · decide
    · exact absurd (by decide) (hmin 1 (by decide) (by decide))
  empty := by
    intro i hi hne
    obtain rfl : i = 0 := Nat.lt_one_iff.mp hi
    exact absurd (by decide) (hne 1 (by decide) (by decide))
  hashes := by
    intro n hlow hlt
    rcases sample_range hlow hlt with rfl | rfl <;> decide
  stop := by
    intro n hlow hlt
    rcases sample_range hlow hlt with rfl | rfl <;> decide
  filter := by decide

theorem sample_tables : Tables sampleImage sampleSymbols 0x400 0x100 0x200 where
  symbols := by
    intro n hn
    have hn : n < 3 := hn
    interval_cases n <;> rfl
  sysv := sample_sysv
  gnu := sample_gnu

theorem sample_lookups_agree : Tables sampleImage sampleSymbols 0x400 0x100 0x200 ∧
    ∃ r k, sampleSymbols.Answer 0x400 ['b'] r ∧ ∀ fuel, k ≤ fuel →
      (elfLookupSysv sampleImage (sysvTable sampleImage 0x400 0x100) fuel ['b']).2 =
        some (.returned r) ∧
      (elfLookupGnu sampleImage (gnuTable sampleImage 0x400 0x200) fuel ['b']).2 =
        some (.returned r) :=
  ⟨sample_tables, lookups_agree sample_tables ['b']⟩

example : (elfLookup sampleImage (gnuTable sampleImage 0x400 0x200) 2 ['b']).2 =
    some (.returned (some 0x430)) := by decide

end Bionic.LookupAgree
