import BionicTranslation.Records

/-!
# Packed relative relocations

`apkenv_relocate_relr` and the encoding it decodes. A table is a sequence of
runs: an even word is the offset of a relocation, and every odd word after it
marks relocations among the next 63 words, or 31 on 32-bit platforms. The
decoder keeps the place where the next bitmap starts, and reads an entry from the
image when the loop comes to it.
-/

set_option autoImplicit false

namespace Bionic.Relr
open Bionic.Bytes Bionic.Elf

variable {c : ElfClass}

def wordsize (c : ElfClass) : Addr c := BitVec.ofNat c.bits c.wordsize

def applyRelrReloc (base : Addr c) (mem : Mem c) (offset : Addr c) : Mem c :=
  let address := offset + base
  store mem address (load c.wordsize mem address + base)

def relocateBitmap (base : Addr c) (mem : Mem c) (entry offset : Addr c) : Mem c :=
  if entry = 0 then mem else
    let entry' := entry >>> 1
    let mem' := if entry' &&& 1 ≠ 0 then applyRelrReloc base mem offset else mem
    relocateBitmap base mem' entry' (offset + wordsize c)
termination_by entry.toNat
decreasing_by
  have hpos : 0 < entry.toNat := by
    refine Nat.pos_of_ne_zero fun h => ?_
    exact absurd (BitVec.eq_of_toNat_eq (by simpa using h)) ‹¬ entry = 0›
  rw [BitVec.toNat_ushiftRight, Nat.shiftRight_eq_div_pow]
  omega

def relocateEntry (base : Addr c) (state : Mem c × Addr c) (entry : Addr c) : Mem c × Addr c :=
  let (mem, next) := state
  if entry &&& 1 = 0 then (applyRelrReloc base mem entry, entry + wordsize c)
  else (relocateBitmap base mem entry next,
    next + BitVec.ofNat c.bits ((8 * c.wordsize - 1) * c.wordsize))

def entryAt (relr : Addr c) (i : ℕ) : Addr c := relr + BitVec.ofNat c.bits (c.wordsize * i)

/-- `relr` and `n` are `si->relr_` and `si->relr_count_`. -/
def relocateRelr (base relr : Addr c) (n : ℕ) (mem : Mem c) : Mem c :=
  ((List.range n).foldl
    (fun s i => relocateEntry base s (load c.wordsize s.1 (entryAt relr i))) (mem, 0)).1

def tableWords (relr : Addr c) (n : ℕ) (mem : Mem c) : List (Addr c) :=
  (List.range n).map fun i => load c.wordsize mem (entryAt relr i)

def bitmapWords (c : ElfClass) : ℕ := 8 * c.wordsize - 1

def marked (c : ElfClass) (start : ℕ) (bitmap : Addr c) : List ℕ :=
  ((List.range (bitmapWords c)).filter fun i => bitmap.getLsbD (i + 1)).map
    fun i => start + c.wordsize * i

/-- The table stands for the offsets; bitmaps may follow if there is a place for
them to start. -/
inductive Encodes (c : ElfClass) : Option ℕ → List (Addr c) → List ℕ → Prop where
  | done {start : Option ℕ} : Encodes c start [] []
  | address {start : Option ℕ} {entry : Addr c} {table : List (Addr c)} {offsets : List ℕ}
      (heven : entry.getLsbD 0 = false)
      (h : Encodes c (some (entry.toNat + c.wordsize)) table offsets) :
      Encodes c start (entry :: table) (entry.toNat :: offsets)
  | bitmap {start : ℕ} {entry : Addr c} {table : List (Addr c)} {offsets : List ℕ}
      (hodd : entry.getLsbD 0 = true)
      (h : Encodes c (some (start + c.wordsize * bitmapWords c)) table offsets) :
      Encodes c (some start) (entry :: table) (marked c start entry ++ offsets)

def bitmapWord (c : ElfClass) (start : ℕ) (now : List ℕ) : Addr c :=
  BitVec.ofFnLE fun i => decide (i.val = 0 ∨ start + c.wordsize * (i.val - 1) ∈ now)

/-- The standard encoder: an address for the first offset of a run, then bitmaps as
long as the next one is not empty. -/
def encode (c : ElfClass) : Option ℕ → List ℕ → List (Addr c)
  | _, [] => []
  | none, o :: offsets => BitVec.ofNat c.bits o :: encode c (some (o + c.wordsize)) offsets
  | some start, o :: offsets =>
    let covered := start + c.wordsize * bitmapWords c
    if o < covered then
      bitmapWord c start ((o :: offsets).takeWhile (· < covered)) ::
        encode c (some covered) ((o :: offsets).dropWhile (· < covered))
    else encode c none (o :: offsets)
termination_by start offsets => (offsets.length, if start = none then 0 else 1)
decreasing_by
  · exact Prod.Lex.left _ _ (Nat.lt_succ_self _)
  · refine Prod.Lex.left _ _ ?_
    rw [List.dropWhile_cons_of_pos (by simpa using ‹o < covered›)]
    exact Nat.lt_succ_of_le (List.length_dropWhile_le _ _)
  · exact Prod.Lex.right _ (by simp)

theorem and_one_eq_zero (x : Addr c) : x &&& 1 = 0 ↔ x.getLsbD 0 = false := by
  constructor
  · intro h
    have hbit := congrArg (fun y => y.getLsbD 0) h
    cases c <;> simpa using hbit
  · intro h
    apply BitVec.eq_of_getLsbD_eq
    intro i hi
    cases i with
    | zero => simp [h]
    | succ i => simp [BitVec.getLsbD_one]

theorem add_words (offset : Addr c) (i : ℕ) :
    offset + wordsize c + BitVec.ofNat c.bits (c.wordsize * i) =
      offset + BitVec.ofNat c.bits (c.wordsize * (i + 1)) := by
  rw [wordsize, BitVec.add_assoc, ← BitVec.ofNat_add]
  congr 2
  ring

theorem relocateBitmap_eq (base : Addr c) (n : ℕ) (mem : Mem c) (entry offset : Addr c)
    (h : entry.toNat < 2 ^ (n + 1)) : relocateBitmap base mem entry offset =
      ((List.range n).filter fun i => entry.getLsbD (i + 1)).foldl
        (fun m i => applyRelrReloc base m (offset + BitVec.ofNat c.bits (c.wordsize * i))) mem := by
  induction n generalizing mem entry offset with
  | zero =>
    have hshift : entry >>> 1 = 0 := by
      apply BitVec.eq_of_toNat_eq
      rw [BitVec.toNat_ushiftRight, Nat.shiftRight_eq_div_pow]
      simpa using by omega
    rw [relocateBitmap]
    simp only [hshift, List.range_zero, List.filter_nil, List.foldl_nil]
    rw [relocateBitmap]
    simp
  | succ n ih =>
    rw [List.range_succ_eq_map, List.filter_cons]
    by_cases hz : entry = 0
    · rw [relocateBitmap, if_pos hz, hz]
      simp
    · have hlt : (entry >>> 1).toNat < 2 ^ (n + 1) := by
        rw [BitVec.toNat_ushiftRight, Nat.shiftRight_eq_div_pow]
        have : 2 ^ (n + 1 + 1) = 2 * 2 ^ (n + 1) := by ring
        omega
      have hbits : ∀ i, (entry >>> 1).getLsbD i = entry.getLsbD (i + 1) := fun i => by
        rw [BitVec.getLsbD_ushiftRight, Nat.add_comm]
      rw [relocateBitmap, if_neg hz, ih _ _ _ hlt, List.filter_map, Function.comp_def]
      simp only [hbits, add_words, ne_eq, and_one_eq_zero]
      cases hfirst : entry.getLsbD (0 + 1) with
      | false => simp [List.foldl_map]
      | true => simp [List.foldl_map]

theorem marked_foldl (base : Addr c) (mem : Mem c) (start : ℕ) (bitmap : Addr c) :
    relocateBitmap base mem bitmap (BitVec.ofNat c.bits start) = (marked c start bitmap).foldl
      (fun m o => applyRelrReloc base m (BitVec.ofNat c.bits o)) mem := by
  have hlt : bitmap.toNat < 2 ^ (bitmapWords c + 1) := by
    have hbits : bitmapWords c + 1 = c.bits := by cases c <;> rfl
    rw [hbits]
    exact bitmap.isLt
  rw [relocateBitmap_eq base (bitmapWords c) mem bitmap _ hlt, marked, List.foldl_map]
  simp only [BitVec.ofNat_add]

theorem relocateEntry_even (base : Addr c) {mem : Mem c} {next entry : Addr c}
    (h : entry.getLsbD 0 = false) : relocateEntry base (mem, next) entry =
      (applyRelrReloc base mem entry, entry + wordsize c) :=
  if_pos ((and_one_eq_zero entry).mpr h)

theorem relocateEntry_odd (base : Addr c) {mem : Mem c} {next entry : Addr c}
    (h : entry.getLsbD 0 = true) : relocateEntry base (mem, next) entry =
      (relocateBitmap base mem entry next,
        next + BitVec.ofNat c.bits ((8 * c.wordsize - 1) * c.wordsize)) := by
  apply if_neg
  rw [and_one_eq_zero, h]
  decide

theorem next_address (entry : Addr c) :
    entry + wordsize c = BitVec.ofNat c.bits (entry.toNat + c.wordsize) := by
  rw [BitVec.ofNat_add, BitVec.ofNat_toNat, BitVec.setWidth_eq, wordsize]

theorem next_bitmap (c : ElfClass) (start : ℕ) :
    BitVec.ofNat c.bits start + BitVec.ofNat c.bits ((8 * c.wordsize - 1) * c.wordsize) =
      BitVec.ofNat c.bits (start + c.wordsize * bitmapWords c) := by
  rw [BitVec.ofNat_add, Nat.mul_comm c.wordsize]
  rfl

theorem relocateEntries_eq (base : Addr c) {start : Option ℕ} {table : List (Addr c)}
    {offsets : List ℕ} (h : Encodes c start table offsets) (mem : Mem c) (next : Addr c)
    (hnext : ∀ s, start = some s → next = BitVec.ofNat c.bits s) :
    (table.foldl (relocateEntry base) (mem, next)).1 = offsets.foldl
      (fun m o => applyRelrReloc base m (BitVec.ofNat c.bits o)) mem := by
  induction h generalizing mem next with
  | done => rfl
  | @address start entry table offsets heven h ih =>
    rw [List.foldl_cons, List.foldl_cons, relocateEntry_even base heven, ih]
    · rw [BitVec.ofNat_toNat, BitVec.setWidth_eq]
    · rintro s hs
      cases hs
      exact next_address entry
  | @bitmap start entry table offsets hodd h ih =>
    rw [List.foldl_cons, List.foldl_append, relocateEntry_odd base hodd, ih, hnext start rfl,
      marked_foldl]
    rintro s hs
    cases hs
    rw [hnext start rfl]
    exact next_bitmap c start

def place (base : Addr c) (o : ℕ) : Addr c := BitVec.ofNat c.bits o + base

theorem applied_other {base : Addr c} {mem : Mem c} {o : ℕ} {a : Addr c}
    (h : ¬ Within (place base o) c.wordsize a) :
    applyRelrReloc base mem (BitVec.ofNat c.bits o) a = mem a := store_other h

theorem foldl_other {base : Addr c} {offsets : List ℕ} {mem : Mem c} {a : Addr c}
    (h : ∀ o ∈ offsets, ¬ Within (place base o) c.wordsize a) :
    offsets.foldl (fun m o => applyRelrReloc base m (BitVec.ofNat c.bits o)) mem a = mem a := by
  induction offsets generalizing mem with
  | nil => rfl
  | cons o offsets ih =>
    rw [List.foldl_cons, ih fun o' ho' => h o' (List.mem_cons_of_mem _ ho'),
      applied_other (h o List.mem_cons_self)]

theorem foldl_relocated {base : Addr c} {offsets : List ℕ} {mem : Mem c}
    (hapart : offsets.Pairwise fun o o' =>
      Apart (place base o) c.wordsize (place base o') c.wordsize) {o : ℕ} (ho : o ∈ offsets) :
    load c.wordsize (offsets.foldl
        (fun m o => applyRelrReloc base m (BitVec.ofNat c.bits o)) mem) (place base o) =
      load c.wordsize mem (place base o) + base := by
  induction offsets generalizing mem with
  | nil => cases ho
  | cons p offsets ih =>
    obtain ⟨hp, hrest⟩ := List.pairwise_cons.mp hapart
    rw [List.foldl_cons]
    rcases List.mem_cons.mp ho with rfl | ho
    · have hkeep : load c.wordsize (offsets.foldl
            (fun m o => applyRelrReloc base m (BitVec.ofNat c.bits o))
            (applyRelrReloc base mem (BitVec.ofNat c.bits o))) (place base o) =
          load c.wordsize (applyRelrReloc base mem (BitVec.ofNat c.bits o)) (place base o) :=
        load_congr (wordsize_le c) fun a ha => foldl_other fun o' ho' => hp o' ho' a ha
      rw [hkeep]
      exact load_store (wordsize_le c)
    · rw [ih hrest ho]
      congr 1
      exact load_store_apart (wordsize_le c) (hp o ho)

theorem place_toNat (base entry : Addr c) : place base entry.toNat = entry + base := by
  rw [place, BitVec.ofNat_toNat, BitVec.setWidth_eq]

theorem load_foldl {base a : Addr c} {offsets : List ℕ} {mem : Mem c}
    (h : ∀ o ∈ offsets, Apart (place base o) c.wordsize a c.wordsize) :
    load c.wordsize (offsets.foldl
        (fun m o => applyRelrReloc base m (BitVec.ofNat c.bits o)) mem) a =
      load c.wordsize mem a :=
  load_congr (wordsize_le c) fun _ hb => foldl_other fun o ho hw => h o ho _ hw hb

/-- Entries that are not relocated themselves can be read before. The induction is on what the
table stands for. -/
theorem entries_read {base : Addr c} {start : Option ℕ} {table : List (Addr c)}
    {offsets : List ℕ} (h : Encodes c start table offsets) {as : List (Addr c)} {mem : Mem c}
    {next : Addr c} (htable : as.map (load c.wordsize mem) = table)
    (hapart : ∀ o ∈ offsets, ∀ a ∈ as, Apart (place base o) c.wordsize a c.wordsize)
    (hnext : ∀ s, start = some s → next = BitVec.ofNat c.bits s) :
    as.foldl (fun s a => relocateEntry base s (load c.wordsize s.1 a)) (mem, next) =
      table.foldl (relocateEntry base) (mem, next) := by
  induction h generalizing as mem next with
  | done =>
    obtain rfl := List.map_eq_nil_iff.mp htable
    rfl
  | @address start entry table offsets heven h ih =>
    obtain ⟨a, as, rfl, hentry, hrest⟩ := List.map_eq_cons_iff.mp htable
    rw [List.foldl_cons, List.foldl_cons, hentry, relocateEntry_even base heven]
    apply ih
    · rw [← hrest]
      apply List.map_congr_left
      intro b hb
      have hb := hapart _ List.mem_cons_self b (List.mem_cons_of_mem _ hb)
      rw [place_toNat] at hb
      exact load_store_apart (wordsize_le c) hb
    · exact fun o ho b hb => hapart o (List.mem_cons_of_mem _ ho) b (List.mem_cons_of_mem _ hb)
    · rintro s hs
      cases hs
      exact next_address entry
  | @bitmap start entry table offsets hodd h ih =>
    obtain ⟨a, as, rfl, hentry, hrest⟩ := List.map_eq_cons_iff.mp htable
    rw [List.foldl_cons, List.foldl_cons, hentry, relocateEntry_odd base hodd, hnext start rfl,
      marked_foldl]
    apply ih
    · rw [← hrest]
      apply List.map_congr_left
      intro b hb
      apply load_foldl
      intro o ho
      exact hapart o (List.mem_append_left _ ho) b (List.mem_cons_of_mem _ hb)
    · exact fun o ho b hb => hapart o (List.mem_append_right _ ho) b (List.mem_cons_of_mem _ hb)
    · rintro s hs
      cases hs
      exact next_bitmap c start

/-- No relocation is of a word that the table lies in. -/
def TableApart (base relr : Addr c) (n : ℕ) (offsets : List ℕ) : Prop :=
  ∀ o ∈ offsets, ∀ i < n, Apart (place base o) c.wordsize (entryAt relr i) c.wordsize

theorem table_behind {base relr : Addr c} {n : ℕ} {offsets : List ℕ}
    (h : ∀ o ∈ offsets, ∀ i < n, c.wordsize ≤ (entryAt relr i - place base o).toNat ∧
      (entryAt relr i - place base o).toNat + c.wordsize ≤ 2 ^ c.bits) :
    TableApart base relr n offsets :=
  fun o ho i hi => apart_of_le (h o ho i hi).1 (h o ho i hi).2

theorem relocateRelr_eq {base relr : Addr c} {n : ℕ} {offsets : List ℕ} {mem : Mem c}
    (h : Encodes c none (tableWords relr n mem) offsets)
    (hapart : TableApart base relr n offsets) : relocateRelr base relr n mem =
      offsets.foldl (fun m o => applyRelrReloc base m (BitVec.ofNat c.bits o)) mem := by
  have hread : ∀ o ∈ offsets, ∀ a ∈ (List.range n).map (entryAt relr),
      Apart (place base o) c.wordsize a c.wordsize := by
    intro o ho a ha
    obtain ⟨i, hi, rfl⟩ := List.mem_map.mp ha
    exact hapart o ho i (List.mem_range.mp hi)
  have hnone : ∀ s, none = some s → (0 : Addr c) = BitVec.ofNat c.bits s := by
    intro s hs
    cases hs
  have htable : ((List.range n).map (entryAt relr)).map (load c.wordsize mem) =
      tableWords relr n mem := List.map_map
  have hloop := entries_read h htable hread hnone
  rw [List.foldl_map] at hloop
  rw [relocateRelr, hloop]
  exact relocateEntries_eq base h mem 0 hnone

theorem words_apart {base : Addr c} {o o' : ℕ} (h : o + c.wordsize ≤ o')
    (hfit : o' + c.wordsize ≤ 2 ^ c.bits) :
    Apart (place base o) c.wordsize (place base o') c.wordsize := by
  have hpos := wordsize_pos c
  have hdist : place base o' - place base o = BitVec.ofNat c.bits (o' - o) := by
    have hsum : o' = o + (o' - o) := by omega
    rw [place, place, add_sub_add_right_eq_sub, hsum, BitVec.ofNat_add, add_sub_cancel_left,
      ← hsum]
  have hnat : (place base o' - place base o).toNat = o' - o := by
    rw [hdist, BitVec.toNat_ofNat, Nat.mod_eq_of_lt (by omega)]
  exact apart_of_le (by omega) (by omega)

theorem marked_mem {start o : ℕ} {bitmap : Addr c} : o ∈ marked c start bitmap ↔
    ∃ i < bitmapWords c, bitmap.getLsbD (i + 1) = true ∧ start + c.wordsize * i = o := by
  simp [marked, and_assoc]

theorem bitmapWord_bit {start i : ℕ} {now : List ℕ} (hi : i < bitmapWords c) :
    (bitmapWord c start now).getLsbD (i + 1) = true ↔ start + c.wordsize * i ∈ now := by
  have hlt : i + 1 < c.bits := by
    cases c <;> simp only [bitmapWords] at hi <;> simp only [ElfClass.bits] <;> omega
  rw [bitmapWord, BitVec.getLsbD_ofFnLE, dif_pos hlt]
  simp

theorem bitmapWord_odd (start : ℕ) (now : List ℕ) :
    (bitmapWord c start now).getLsbD 0 = true := by
  have hpos : 0 < c.bits := by cases c <;> decide
  rw [bitmapWord, BitVec.getLsbD_ofFnLE, dif_pos hpos]
  simp

theorem marked_bitmapWord {start : ℕ} {now : List ℕ} (hinc : now.Pairwise (· < ·))
    (halign : ∀ o ∈ now, start ≤ o ∧ o < start + c.wordsize * bitmapWords c ∧
      c.wordsize ∣ o - start) : marked c start (bitmapWord c start now) = now := by
  have hmem : ∀ o, o ∈ marked c start (bitmapWord c start now) ↔ o ∈ now := by
    intro o
    rw [marked_mem]
    constructor
    · rintro ⟨i, hi, hbit, rfl⟩
      exact (bitmapWord_bit hi).mp hbit
    · intro ho
      obtain ⟨hle, hlt, i, hi⟩ := halign o ho
      have hlt' : i < bitmapWords c := by
        refine Nat.lt_of_mul_lt_mul_left (a := c.wordsize) ?_
        omega
      have hback : start + c.wordsize * i = o := by omega
      exact ⟨i, hlt', (bitmapWord_bit hlt').mpr (hback ▸ ho), hback⟩
  have hsorted : (marked c start (bitmapWord c start now)).Pairwise (· < ·) := by
    rw [marked, List.pairwise_map]
    refine (List.pairwise_lt_range.filter _).imp fun hab => ?_
    exact Nat.add_lt_add_left ((Nat.mul_lt_mul_left (wordsize_pos c)).mpr hab) start
  exact List.Perm.eq_of_pairwise' hsorted hinc ((List.perm_ext_iff_of_nodup
    (hsorted.imp fun hab => hab.ne) (hinc.imp fun hab => hab.ne)).mpr hmem)

theorem Encodes.later {start : Option ℕ} {table : List (Addr c)} {offsets : List ℕ}
    (h : Encodes c none table offsets) : Encodes c start table offsets := by
  cases h with
  | done => exact .done
  | address heven h => exact .address heven h

theorem dropWhile_ge {b : ℕ} {l : List ℕ} (h : l.Pairwise (· < ·)) :
    ∀ o ∈ l.dropWhile (· < b), b ≤ o := by
  induction l with
  | nil => simp
  | cons p l ih =>
    obtain ⟨hp, hl⟩ := List.pairwise_cons.mp h
    by_cases hb : p < b
    · rw [List.dropWhile_cons_of_pos (by simpa using hb)]
      exact ih hl
    · rw [List.dropWhile_cons_of_neg (by simpa using hb)]
      intro o ho
      rcases List.mem_cons.mp ho with rfl | ho
      · omega
      · have := hp o ho
        omega

/-- Offsets of words, in order and inside the address space. -/
structure Offsets (c : ElfClass) (offsets : List ℕ) : Prop where
  increasing : offsets.Pairwise (· < ·)
  aligned : ∀ o ∈ offsets, c.wordsize ∣ o
  fit : ∀ o ∈ offsets, o + c.wordsize ≤ 2 ^ c.bits

theorem Offsets.sublist {l offsets : List ℕ} (h : Offsets c offsets) (hs : l.Sublist offsets) :
    Offsets c l :=
  ⟨h.increasing.sublist hs, fun o ho => h.aligned o (hs.subset ho),
    fun o ho => h.fit o (hs.subset ho)⟩

theorem Offsets.step {o o' : ℕ} {offsets : List ℕ} (h : Offsets c (o :: offsets))
    (ho : o' ∈ offsets) : o + c.wordsize ≤ o' := by
  have hlt := (List.pairwise_cons.mp h.increasing).1 o' ho
  obtain ⟨i, rfl⟩ := h.aligned o List.mem_cons_self
  obtain ⟨j, rfl⟩ := h.aligned o' (List.mem_cons_of_mem _ ho)
  have hij : i + 1 ≤ j := Nat.lt_of_mul_lt_mul_left hlt
  calc c.wordsize * i + c.wordsize = c.wordsize * (i + 1) := by ring
    _ ≤ c.wordsize * j := Nat.mul_le_mul_left _ hij

theorem aligned_even {o : ℕ} (h : c.wordsize ∣ o) : (BitVec.ofNat c.bits o).getLsbD 0 = false := by
  have hpos : 0 < c.bits := by cases c <;> decide
  have heven : o % 2 = 0 := by cases c <;> simp only [ElfClass.wordsize] at h <;> omega
  rw [BitVec.getLsbD_ofNat, decide_eq_true hpos, Nat.testBit_zero, heven]
  rfl

theorem encode_encodes (start : Option ℕ) (offsets : List ℕ) (h : Offsets c offsets)
    (hstart : ∀ s, start = some s → c.wordsize ∣ s ∧ ∀ o ∈ offsets, s ≤ o) :
    Encodes c start (encode c start offsets) offsets := by
  induction start, offsets using encode.induct c with
  | case1 start =>
    rw [encode]
    exact .done
  | case2 o offsets ih =>
    have hpos := wordsize_pos c
    have hfit := h.fit o List.mem_cons_self
    have halign := h.aligned o List.mem_cons_self
    have hnat : (BitVec.ofNat c.bits o).toNat = o := by
      rw [BitVec.toNat_ofNat, Nat.mod_eq_of_lt (by omega)]
    have hrest := ih (h.sublist (List.sublist_cons_self _ _)) fun s hs => by
      cases hs
      exact ⟨Nat.dvd_add halign (dvd_refl _), fun o' ho' => h.step ho'⟩
    rw [encode]
    have haddr : Encodes c none _ _ := .address (aligned_even halign) (hnat.symm ▸ hrest)
    rwa [hnat] at haddr
  | case3 start o offsets covered hlt ih =>
    obtain ⟨hs, hge⟩ := hstart start rfl
    have hnow : marked c start (bitmapWord c start ((o :: offsets).takeWhile (· < covered))) =
        (o :: offsets).takeWhile (· < covered) := by
      have hsub := List.takeWhile_sublist (fun x => decide (x < covered)) (l := o :: offsets)
      refine marked_bitmapWord (h.sublist hsub).increasing fun o' ho' => ?_
      have hmem := hsub.subset ho'
      exact ⟨hge o' hmem, by simpa using List.mem_takeWhile_imp ho',
        Nat.dvd_sub (h.aligned o' hmem) hs⟩
    have hrest := ih (h.sublist (List.dropWhile_sublist _)) fun s hs' => by
      cases hs'
      exact ⟨Nat.dvd_add hs (Nat.dvd_mul_right _ _), dropWhile_ge h.increasing⟩
    have hword := Encodes.bitmap
      (bitmapWord_odd start ((o :: offsets).takeWhile (· < covered))) hrest
    rw [hnow, List.takeWhile_append_dropWhile] at hword
    rw [encode, if_pos hlt]
    exact hword
  | case4 start o offsets covered hge ih =>
    rw [encode, if_neg hge]
    exact (ih h fun s hs => (nomatch hs)).later

theorem Offsets.encodes {offsets : List ℕ} (h : Offsets c offsets) :
    Encodes c none (encode c none offsets) offsets :=
  encode_encodes none offsets h fun _ hs => (nomatch hs)

/-- The words at the offsets, and no other memory, are changed, each by adding the
base once. -/
def RelocatedOnce (base : Addr c) (offsets : List ℕ) (mem mem' : Mem c) : Prop :=
  (∀ o ∈ offsets, load c.wordsize mem' (place base o) =
    load c.wordsize mem (place base o) + base) ∧
  ∀ a, (∀ o ∈ offsets, ¬ Within (place base o) c.wordsize a) → mem' a = mem a

theorem offsets_apart {base : Addr c} {offsets : List ℕ} (h : Offsets c offsets) :
    offsets.Pairwise fun o o' =>
      Apart (place base o) c.wordsize (place base o') c.wordsize := by
  induction offsets with
  | nil => exact .nil
  | cons o offsets ih =>
    have hhead : ∀ o' ∈ offsets, Apart (place base o) c.wordsize (place base o') c.wordsize := by
      intro o' ho'
      exact words_apart (h.step ho') (h.fit o' (List.mem_cons_of_mem _ ho'))
    exact .cons hhead (ih (h.sublist (List.sublist_cons_self _ _)))

/-- A table in memory that stands for the offsets and is not relocated itself relocates each
of them once, and the standard encoder makes such a table. -/
theorem relr_relocates_once (base : Addr c) (offsets : List ℕ)
    (hinc : offsets.Pairwise (· < ·)) (halign : ∀ o ∈ offsets, c.wordsize ∣ o)
    (hfit : ∀ o ∈ offsets, base.toNat + o + c.wordsize ≤ 2 ^ c.bits) :
    Encodes c none (encode c none offsets) offsets ∧
    ∀ (relr : Addr c) (n : ℕ) (mem : Mem c), Encodes c none (tableWords relr n mem) offsets →
      TableApart base relr n offsets →
        RelocatedOnce base offsets mem (relocateRelr base relr n mem) := by
  have hoff : Offsets c offsets := by
    refine ⟨hinc, halign, fun o ho => ?_⟩
    have := hfit o ho
    omega
  refine ⟨hoff.encodes, fun relr n mem ht hapart => ?_⟩
  rw [relocateRelr_eq ht hapart]
  exact ⟨fun o ho => foldl_relocated (offsets_apart hoff) ho, fun a ha => foldl_other ha⟩

def tableMem (relr : Addr c) (table : List (Addr c)) : Mem c := fun a =>
  (table.getD ((a - relr).toNat / c.wordsize) 0).extractLsb' (8 * ((a - relr).toNat % c.wordsize)) 8

theorem tableWords_tableMem (relr : Addr c) {table : List (Addr c)}
    (hfit : c.wordsize * table.length ≤ 2 ^ c.bits) :
    tableWords relr table.length (tableMem relr table) = table := by
  apply List.ext_getElem (by simp [tableWords])
  intro i _ hi
  simp only [tableWords, List.getElem_map, List.getElem_range]
  apply BitVec.eq_of_getLsbD_eq
  intro k hk
  have hbyte : k / 8 < c.wordsize := by
    have hk' : k < 8 * c.wordsize := hk
    omega
  have hlt : c.wordsize * i + k / 8 < 2 ^ c.bits := by
    have hnext : c.wordsize * (i + 1) ≤ c.wordsize * table.length := Nat.mul_le_mul_left _ hi
    rw [Nat.mul_succ] at hnext
    omega
  have hdist : (entryAt relr i + BitVec.ofNat c.bits (k / 8) - relr).toNat =
      c.wordsize * i + k / 8 := by
    rw [entryAt, BitVec.add_assoc, ← BitVec.ofNat_add]
    exact toNat_add_sub hlt
  have hdiv : (c.wordsize * i + k / 8) / c.wordsize = i := by
    rw [Nat.mul_add_div (wordsize_pos c), Nat.div_eq_of_lt hbyte, Nat.add_zero]
  have hmod : (c.wordsize * i + k / 8) % c.wordsize = k / 8 := by
    rw [Nat.mul_add_mod, Nat.mod_eq_of_lt hbyte]
  rw [load_bit hk, tableMem, hdist, hdiv, hmod, List.getD_eq_getElem _ _ hi,
    BitVec.getLsbD_extractLsb']
  have hsplit : 8 * (k / 8) + k % 8 = k := Nat.div_add_mod k 8
  have hbit : k % 8 < 8 := Nat.mod_lt _ (by decide)
  rw [hsplit, decide_eq_true hbit, Bool.true_and]

theorem encode_run : encode .elf64 none [0x1000, 0x1008, 0x11f8, 0x1200] =
    [0x1000, 0x8000000000000003, 3] := by
  have hfirst : bitmapWord .elf64 0x1008 [0x1008, 0x11f8] = 0x8000000000000003 := by
    decide +kernel
  have hsecond : bitmapWord .elf64 0x1200 [0x1200] = 3 := by decide +kernel
  simp [encode, bitmapWords, ElfClass.wordsize, List.takeWhile, List.dropWhile, hfirst, hsecond]

/-- A run whose first bitmap marks its last word and whose second one marks the word behind
that, with the table behind them. -/
def runTable : Mem .elf64 := tableMem 0x70002000 [0x1000, 0x8000000000000003, 3]

theorem runTable_words : tableWords 0x70002000 3 runTable =
    encode .elf64 none [0x1000, 0x1008, 0x11f8, 0x1200] := by
  rw [encode_run]
  exact tableWords_tableMem (c := .elf64) 0x70002000 (by decide)

theorem runTable_encodes :
    Encodes .elf64 none (tableWords 0x70002000 3 runTable) [0x1000, 0x1008, 0x11f8, 0x1200] := by
  rw [runTable_words]
  exact Offsets.encodes ⟨by decide, by decide, by decide⟩

theorem relr_run_relocated :
    Encodes .elf64 none (encode .elf64 none [0x1000, 0x1008, 0x11f8, 0x1200])
      [0x1000, 0x1008, 0x11f8, 0x1200] ∧
    RelocatedOnce 0x70000000 [0x1000, 0x1008, 0x11f8, 0x1200] runTable
      (relocateRelr 0x70000000 0x70002000 3 runTable) := by
  obtain ⟨hencodes, hrun⟩ := relr_relocates_once (c := .elf64) 0x70000000
    [0x1000, 0x1008, 0x11f8, 0x1200] (by decide) (by decide) (by decide)
  exact ⟨hencodes, hrun _ 3 _ runTable_encodes (table_behind (by decide +kernel))⟩

theorem relocateRelr_pair {base relr address bitmap : Addr c} {mem : Mem c}
    (haddress : load c.wordsize mem (entryAt relr 0) = address)
    (hbitmap : load c.wordsize (applyRelrReloc base mem address) (entryAt relr 1) = bitmap)
    (heven : address.getLsbD 0 = false) (hodd : bitmap.getLsbD 0 = true) :
    relocateRelr base relr 2 mem =
      (marked c (address.toNat + c.wordsize) bitmap).foldl
        (fun m o => applyRelrReloc base m (BitVec.ofNat c.bits o))
        (applyRelrReloc base mem address) := by
  rw [relocateRelr, List.range_succ, List.range_one, List.foldl_append, List.foldl_cons,
    List.foldl_nil, List.foldl_cons, List.foldl_nil, haddress, relocateEntry_even base heven,
    hbitmap, relocateEntry_odd base hodd, next_address, marked_foldl]

/-- The packed table of two words, at 0x1000 of a library at 0x10000: its bitmap is the first
of the words. -/
def selfTable : Mem .elf64 := tableMem 0x11000 [0x1008, 3]

/-- The bitmap is read as 0x10003 when its turn comes, and the word at 0x1088 is relocated too. -/
theorem table_relocated :
    tableWords 0x11000 2 selfTable = encode .elf64 none [0x1008, 0x1010] ∧
      [0x1008, 0x1010].Pairwise (· < ·) ∧
      (∀ o ∈ [0x1008, 0x1010], ElfClass.elf64.wordsize ∣ o ∧
        (0x10000 : Addr .elf64).toNat + o + ElfClass.elf64.wordsize ≤ 2 ^ ElfClass.elf64.bits) ∧
      ¬ RelocatedOnce 0x10000 [0x1008, 0x1010] selfTable
        (relocateRelr 0x10000 0x11000 2 selfTable) := by
  have hencode : encode .elf64 none [0x1008, 0x1010] = [0x1008, 3] := by
    have hword : bitmapWord .elf64 0x1010 [0x1010] = 3 := by decide +kernel
    simp [encode, bitmapWords, ElfClass.wordsize, List.takeWhile, List.dropWhile, hword]
  refine ⟨?_, by decide, by decide, fun hrun => ?_⟩
  · rw [hencode]
    exact tableWords_tableMem (c := .elf64) 0x11000 (by decide)
  have hout : ∀ o ∈ [0x1008, 0x1010],
      ¬ Within (place (c := .elf64) 0x10000 o) ElfClass.elf64.wordsize 0x1108a := by decide +kernel
  have hkept := hrun.2 0x1108a hout
  have haddress : load 8 selfTable (entryAt (c := .elf64) 0x11000 0) = 0x1008 := by
    decide +kernel
  have hbitmap : load 8 (applyRelrReloc (c := .elf64) 0x10000 selfTable 0x1008)
      (entryAt (c := .elf64) 0x11000 1) = 0x10003 := by decide +kernel
  rw [relocateRelr_pair (c := .elf64) haddress hbitmap (by decide) (by decide)] at hkept
  revert hkept
  decide +kernel

end Bionic.Relr
