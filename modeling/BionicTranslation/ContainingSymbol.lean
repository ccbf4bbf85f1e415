import BionicTranslation.LookupAgree

/-!
# The symbol at an address

`apkenv_find_containing_symbol_sysv` goes over the symbol table from one end to the
other. `apkenv_find_containing_symbol_gnu` does not know how long the table is, and
goes over the chains of the hash table, from bucket to bucket.
-/

set_option autoImplicit false

namespace Bionic.ContainingSymbol
open Bionic.Elf Bionic.Loops Bionic.SymbolLookup Bionic.HashSections Bionic.LookupAgree

variable {c : ElfClass}

def symbolMatchesSoaddr (sym : Sym c) (soaddr : Addr c) : Bool :=
  sym.st_shndx ≠ shnUndef && decide (sym.st_value ≤ soaddr) &&
    decide (soaddr < sym.st_value + sym.st_size)

section source
variable (rd : Reads c) (t : HashTable c) (soaddr : Addr c)

def symPtr (n : ℕ) : Addr c := nth t.symtab (symSize c) n

def sysvLoop : ℕ → ℕ → Option (Addr c)
  | 0, _ => none
  | left + 1, i =>
    if symbolMatchesSoaddr (rd.sym (symPtr t i)) soaddr then some (symPtr t i)
    else sysvLoop left (i + 1)

def chainPass : Body (BitVec 32) Empty (Option (Addr c)) := fun n =>
  ([], if symbolMatchesSoaddr (rd.sym (t.symAt n)) soaddr then .inr (some (t.symAt n))
    else if rd.u32 (t.chainAt n) &&& 1 = 0 then .inl (n + 1) else .inr none)

def bucketLoop (fuel : ℕ) : ℕ → ℕ → Option (Option (Addr c))
  | 0, _ => some none
  | left + 1, i =>
    let n := rd.u32 (nth t.bucket 4 i)
    if n = 0 then bucketLoop fuel left (i + 1)
    else (run (chainPass rd t soaddr) fuel n).2.bind fun r =>
      if r.isSome then some r else bucketLoop fuel left (i + 1)

end source

def findContainingSymbolSysv (rd : Reads c) (t : HashTable c) (base : Addr c) (nchain : ℕ)
    (addr : Addr c) : Option (Addr c) :=
  sysvLoop rd t (addr - base) nchain 0

def findContainingSymbolGnu (rd : Reads c) (t : HashTable c) (base : Addr c) (fuel : ℕ)
    (addr : Addr c) : Option (Option (Addr c)) :=
  bucketLoop rd t (addr - base) fuel t.nbucket.toNat 0

/-- The symbol is defined and `[st_value, st_value + st_size)` contains the address. The sum
is an address as well; if it comes around, the range is empty. -/
structure Contains (sym : Sym c) (soaddr : Addr c) : Prop where
  defined : sym.st_shndx ≠ shnUndef
  start : sym.st_value ≤ soaddr
  stop : soaddr < sym.st_value + sym.st_size

structure Lowest (P : ℕ → Prop) (n : ℕ) (i : Option ℕ) : Prop where
  holds : ∀ k, i = some k → k < n ∧ P k ∧ ∀ j < k, ¬ P j
  none : i = none → ∀ j < n, ¬ P j

/-- The buckets that are not empty start chains that follow each other from `k` to `n`. In
each the last index only has the stop bit. -/
inductive Cover (stop : ℕ → Bool) : ℕ → List ℕ → ℕ → Prop
  | done {n : ℕ} : Cover stop n [] n
  | empty {k n : ℕ} {bs : List ℕ} (h : Cover stop k bs n) : Cover stop k (0 :: bs) n
  | chain {k m n : ℕ} {bs : List ℕ} (hk : 0 < k) (hkm : k < m) (hm : m ≤ 2 ^ 32)
      (inside : ∀ j, k ≤ j → j + 1 < m → stop j = false) (last : stop (m - 1) = true)
      (h : Cover stop m bs n) : Cover stop k (k :: bs) n

def stopBit (G : GnuSection c) (n : ℕ) : Bool := (G.chain (n - G.symndx)).getLsbD 0

def buckets (G : GnuSection c) : List ℕ := (List.range G.nbuckets).map G.bucket

variable {rd : Reads c} {t : HashTable c} {soaddr a symtab : Addr c} {fuel i l : ℕ}

theorem symbolMatchesSoaddr_iff {sym : Sym c} :
    symbolMatchesSoaddr sym soaddr = true ↔ Contains sym soaddr := by
  rw [symbolMatchesSoaddr, Bool.and_eq_true, Bool.and_eq_true, decide_eq_true_iff,
    decide_eq_true_iff, decide_eq_true_iff, and_assoc]
  exact ⟨fun h => ⟨h.1, h.2.1, h.2.2⟩, fun h => ⟨h.defined, h.start, h.stop⟩⟩

theorem contains_iff {sym : Sym c} (h : sym.st_value.toNat + sym.st_size.toNat < 2 ^ c.bits) :
    Contains sym soaddr ↔ sym.st_shndx ≠ shnUndef ∧ sym.st_value.toNat ≤ soaddr.toNat ∧
      soaddr.toNat < sym.st_value.toNat + sym.st_size.toNat := by
  have hsum : (sym.st_value + sym.st_size).toNat = sym.st_value.toNat + sym.st_size.toNat := by
    rw [BitVec.toNat_add, Nat.mod_eq_of_lt h]
  rw [← hsum]
  exact ⟨fun h => ⟨h.defined, h.start, h.stop⟩, fun h => ⟨h.1, h.2.1, h.2.2⟩⟩

theorem not_contains_empty {sym : Sym c} (h : sym.st_shndx = shnUndef ∨ sym.st_size = 0) :
    ¬ Contains sym soaddr := by
  intro hc
  rcases h with h | h
  · exact hc.defined h
  · have hstop := hc.stop
    rw [h, add_zero] at hstop
    exact absurd hc.start (BitVec.not_le.mpr hstop)

theorem sysvLoop_eq (rd : Reads c) (t : HashTable c) (soaddr : Addr c) (l i : ℕ) :
    sysvLoop rd t soaddr l i = ((List.range' i l).find? fun j =>
      symbolMatchesSoaddr (rd.sym (symPtr t j)) soaddr).map (symPtr t) := by
  induction l generalizing i with
  | zero => rfl
  | succ l ih =>
    rw [sysvLoop, List.range'_succ, List.find?_cons, ih]
    split_ifs with h
    · rw [h]
      rfl
    · rw [Bool.eq_false_of_not_eq_true h]

theorem sysvLoop_add (rd : Reads c) (t : HashTable c) (soaddr : Addr c) (l k i : ℕ) :
    sysvLoop rd t soaddr (l + k) i =
      (sysvLoop rd t soaddr l i).or (sysvLoop rd t soaddr k (i + l)) := by
  rw [sysvLoop_eq, sysvLoop_eq, sysvLoop_eq, ← List.range'_append_1, List.find?_append,
    Option.map_or]

theorem sysvLoop_none (h : ∀ j, i ≤ j → j < i + l → ¬ Contains (rd.sym (symPtr t j)) soaddr) :
    sysvLoop rd t soaddr l i = none := by
  rw [sysvLoop_eq, Option.map_eq_none_iff, List.find?_eq_none]
  intro j hj hm
  rw [List.mem_range'_1] at hj
  exact h j hj.1 hj.2 (symbolMatchesSoaddr_iff.mp hm)

theorem sysvLoop_lowest (rd : Reads c) (t : HashTable c) (soaddr : Addr c) (n : ℕ) : ∃ i,
    Lowest (fun j => Contains (rd.sym (symPtr t j)) soaddr) n i ∧
      sysvLoop rd t soaddr n 0 = i.map (symPtr t) := by
  refine ⟨_, ⟨fun k hk => ?_, fun hnone j hj hc => ?_⟩, sysvLoop_eq rd t soaddr n 0⟩
  · rw [← List.range_eq_range', List.find?_range_eq_some] at hk
    refine ⟨List.mem_range.mp hk.2.1, symbolMatchesSoaddr_iff.mp hk.1, fun j hj hc => ?_⟩
    have hnot := hk.2.2 j hj
    rw [symbolMatchesSoaddr_iff.mpr hc] at hnot
    exact Bool.false_ne_true hnot
  · rw [← List.range_eq_range', List.find?_range_eq_none] at hnone
    have hnot := hnone j hj
    rw [symbolMatchesSoaddr_iff.mpr hc] at hnot
    exact Bool.false_ne_true hnot

theorem chainPass_found {n : BitVec 32}
    (h : symbolMatchesSoaddr (rd.sym (symPtr t n.toNat)) soaddr = true) :
    (chainPass rd t soaddr n).2 = .inr (some (symPtr t n.toNat)) := if_pos h

theorem chainPass_stop {n : BitVec 32}
    (h : ¬ symbolMatchesSoaddr (rd.sym (symPtr t n.toNat)) soaddr = true)
    (hs : (rd.u32 (t.chainAt n)).getLsbD 0 = true) : (chainPass rd t soaddr n).2 = .inr none := by
  have hbit : ¬ rd.u32 (t.chainAt n) &&& 1 = 0 := by
    rw [and_one_eq_zero_iff, hs]
    decide
  exact (if_neg h).trans (if_neg hbit)

theorem chainPass_next {n : BitVec 32}
    (h : ¬ symbolMatchesSoaddr (rd.sym (symPtr t n.toNat)) soaddr = true)
    (hs : (rd.u32 (t.chainAt n)).getLsbD 0 = false) :
    (chainPass rd t soaddr n).2 = .inl (n + 1) :=
  (if_neg h).trans (if_pos ((and_one_eq_zero_iff _).mpr hs))

/-- The inner loop goes over the indices of its chain, as far as the first that matches.
The induction is on the number of indices that are left. -/
theorem chain_walk (symtab soaddr : Addr c) {k m : ℕ} (hkm : k < m) (hm : m ≤ 2 ^ 32)
    (hlow : (gnuSection rd a).symndx ≤ k)
    (inside : ∀ j, k ≤ j → j + 1 < m → stopBit (gnuSection rd a) j = false)
    (last : stopBit (gnuSection rd a) (m - 1) = true) :
    ∀ n : BitVec 32, n.toNat = k → ∃ ss, Passes (chainPass rd (gnuTable rd symtab a) soaddr) n ss
      (sysvLoop rd (gnuTable rd symtab a) soaddr (m - k) k) := by
  obtain ⟨left, hleft⟩ : ∃ left, m - k = left + 1 := ⟨m - k - 1, by omega⟩
  rw [hleft]
  induction left generalizing k with
  | zero =>
    intro n hn
    have hword : rd.u32 ((gnuTable rd symtab a).chainAt n) = _ := gnuTable_chain (hn ▸ hlow)
    rw [show m - 1 = k by omega, stopBit, ← hn, ← hword] at last
    rw [sysvLoop, ← hn]
    split_ifs with hmatch
    · exact ⟨[n], .last (chainPass_found hmatch)⟩
    · exact ⟨[n], .last (chainPass_stop hmatch last)⟩
  | succ left ih =>
    intro n hn
    have hword : rd.u32 ((gnuTable rd symtab a).chainAt n) = _ := gnuTable_chain (hn ▸ hlow)
    have hgo := inside k (Nat.le_refl k) (by omega)
    rw [stopBit, ← hn, ← hword] at hgo
    have hsucc : (n + 1).toNat = k + 1 := by
      have hone : (1 : BitVec 32).toNat = 1 := rfl
      rw [BitVec.toNat_add, hone]
      omega
    obtain ⟨ss, hss⟩ := ih (by omega) (by omega) (fun j hj => inside j (by omega)) (by omega)
      (n + 1) hsucc
    rw [sysvLoop]
    split_ifs with hmatch
    · rw [← hn] at hmatch ⊢
      exact ⟨[n], .last (chainPass_found hmatch)⟩
    · rw [← hn] at hmatch
      exact ⟨n :: ss, .next (chainPass_next hmatch hgo) hss⟩

theorem Cover.le {stop : ℕ → Bool} {k n : ℕ} {bs : List ℕ} (h : Cover stop k bs n) : k ≤ n := by
  induction h with
  | done => exact Nat.le_refl _
  | empty _ ih => exact ih
  | chain _ hkm _ _ _ _ ih => exact hkm.le.trans ih

theorem bucket_word (rd : Reads c) (symtab a : Addr c) (i : ℕ) :
    (rd.u32 (nth (gnuTable rd symtab a).bucket 4 i)).toNat = (gnuSection rd a).bucket i := rfl

/-- The induction is on the cover; the buckets are the ones from `i` on. -/
theorem bucket_walk (symtab soaddr : Addr c) {k n : ℕ} {bs : List ℕ}
    (h : Cover (stopBit (gnuSection rd a)) k bs n)
    (hbs : bs = (List.range' i l).map (gnuSection rd a).bucket)
    (hlow : (gnuSection rd a).symndx ≤ k) : ∃ K, ∀ fuel, K ≤ fuel →
      bucketLoop rd (gnuTable rd symtab a) soaddr fuel l i =
        some (sysvLoop rd (gnuTable rd symtab a) soaddr (n - k) k) := by
  induction h generalizing i l with
  | @done n =>
    obtain rfl : l = 0 := by simpa using hbs.symm
    refine ⟨0, fun fuel _ => ?_⟩
    rw [Nat.sub_self]
    rfl
  | @empty k n bs h ih =>
    cases l with
    | zero => cases hbs
    | succ l =>
      rw [List.range'_succ, List.map_cons] at hbs
      obtain ⟨hb, hbs⟩ := List.cons.inj hbs
      have hzero : rd.u32 (nth (gnuTable rd symtab a).bucket 4 i) = 0 :=
        BitVec.eq_of_toNat_eq ((bucket_word rd symtab a i).trans hb.symm)
      obtain ⟨K, hK⟩ := ih hbs hlow
      refine ⟨K, fun fuel hf => ?_⟩
      rw [bucketLoop, if_pos hzero]
      exact hK fuel hf
  | @chain k m n bs hk hkm hm inside last h ih =>
    cases l with
    | zero => cases hbs
    | succ l =>
      rw [List.range'_succ, List.map_cons] at hbs
      obtain ⟨hb, hbs⟩ := List.cons.inj hbs
      have hword := (bucket_word rd symtab a i).trans hb.symm
      have hne : rd.u32 (nth (gnuTable rd symtab a).bucket 4 i) ≠ 0 := by
        intro h0
        rw [h0] at hword
        exact hk.ne hword
      obtain ⟨ss, hss⟩ := chain_walk symtab soaddr hkm hm hlow inside last _ hword
      obtain ⟨K, hK⟩ := ih hbs (hlow.trans hkm.le)
      have hsplit : n - k = (m - k) + (n - m) := by
        have hmn := h.le
        omega
      refine ⟨max K ss.length, fun fuel hf => ?_⟩
      rw [bucketLoop, if_neg hne, hss.run_eq ((Nat.le_max_right _ _).trans hf), hsplit,
        sysvLoop_add, Option.bind_some, Nat.add_sub_cancel' hkm.le]
      cases sysvLoop rd (gnuTable rd symtab a) soaddr (m - k) k with
      | some p => rfl
      | none => exact hK fuel ((Nat.le_max_left _ _).trans hf)

/-- For every symbol table, every hash table that covers it, and every address. -/
theorem containing_symbols_agree {n : ℕ}
    (hlow : ∀ j < (gnuSection rd a).symndx,
      (rd.sym (nth symtab (symSize c) j)).st_shndx = shnUndef ∨
        (rd.sym (nth symtab (symSize c) j)).st_size = 0)
    (h : Cover (stopBit (gnuSection rd a)) (gnuSection rd a).symndx (buckets (gnuSection rd a)) n)
    (base addr : Addr c) : ∃ i, Lowest
        (fun j => Contains (rd.sym (nth symtab (symSize c) j)) (addr - base)) n i ∧
      findContainingSymbolSysv rd (gnuTable rd symtab a) base n addr =
        i.map (nth symtab (symSize c)) ∧
      ∃ k, ∀ fuel, k ≤ fuel →
        findContainingSymbolGnu rd (gnuTable rd symtab a) base fuel addr =
          some (i.map (nth symtab (symSize c))) := by
  obtain ⟨i, hi, hsysv⟩ := sysvLoop_lowest rd (gnuTable rd symtab a) (addr - base) n
  obtain ⟨k, hk⟩ := bucket_walk symtab (addr - base) h
    (i := 0) (l := (gnuSection rd a).nbuckets) (by rw [buckets, List.range_eq_range'])
    (Nat.le_refl _)
  refine ⟨i, hi, hsysv, k, fun fuel hf => ?_⟩
  have hbelow : sysvLoop rd (gnuTable rd symtab a) (addr - base) (gnuSection rd a).symndx 0 =
      none :=
    sysvLoop_none fun j _ hj => not_contains_empty (hlow j (by omega))
  have hsplit := sysvLoop_add rd (gnuTable rd symtab a) (addr - base) (gnuSection rd a).symndx
    (n - (gnuSection rd a).symndx) 0
  rw [Nat.add_sub_cancel' h.le, hbelow, Option.none_or, Nat.zero_add, hsysv] at hsplit
  rw [findContainingSymbolGnu, gnuTable_nbucket, hk fuel hf, ← hsplit]
  rfl

/-- Both symbols of the small image are in one chain. -/
theorem sample_symbol_found : ∃ k, ∀ fuel, k ≤ fuel →
    findContainingSymbolGnu sampleImage (gnuTable sampleImage 0x400 0x200) 0x10000 fuel 0x11012 =
      some (some 0x430) := by
  have hcover : Cover (stopBit (gnuSection sampleImage 0x200)) 1
      (buckets (gnuSection sampleImage 0x200)) 3 := by
    refine .chain (k := 1) (m := 3) (by decide) (by decide) (by decide) (fun j hj hm => ?_)
      (by decide) .done
    obtain rfl : j = 1 := by omega
    decide
  have hlow : ∀ j < (gnuSection sampleImage 0x200).symndx,
      (sampleImage.sym (nth 0x400 (symSize .elf64) j)).st_shndx = shnUndef ∨
        (sampleImage.sym (nth 0x400 (symSize .elf64) j)).st_size = 0 := by
    intro j hj
    obtain rfl : j = 0 := Nat.lt_one_iff.mp hj
    exact .inl rfl
  obtain ⟨i, -, hsysv, k, hk⟩ := containing_symbols_agree hlow hcover 0x10000 0x11012
  have hfound : findContainingSymbolSysv sampleImage (gnuTable sampleImage 0x400 0x200) 0x10000 3
      0x11012 = some 0x430 := by decide
  exact ⟨k, fun fuel hf => by rw [hk fuel hf, ← hsysv, hfound]⟩

end Bionic.ContainingSymbol
