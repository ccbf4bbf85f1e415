import BionicTranslation.Relr
import BionicTranslation.X86Values
import BionicTranslation.Aarch64Values
import BionicTranslation.RelTables

/-!
# Packed tables against plain ones

A packed table is there to save space: what `apkenv_relocate_relr` does to memory is
what `apkenv_reloc_library` would do for a table with one RELATIVE entry at each
offset, as long as it does not change the packed table itself. The entries of the
64-bit builds carry the addend that the packed table leaves in the word.
-/

set_option autoImplicit false

namespace Bionic.RelativePacking
open Bionic.Bytes Bionic.Elf Bionic.Relr

section rela
open Bionic.RelaTables Bionic.RelocSymbols

def R_X86_64_RELATIVE : ℕ := 8

def R_AARCH64_RELATIVE : ℕ := 1027

def relativeRela (type : ℕ) (base : Addr64) (mem : Mem64) (o : ℕ) : Rela :=
  ⟨BitVec.ofNat 64 o, BitVec.ofNat 64 type, load 8 mem (place base o)⟩

def relativeRelas (type : ℕ) (base : Addr64) (mem : Mem64) (offsets : List ℕ) : List Rela :=
  offsets.map (relativeRela type base mem)

def StoresSum (entry : Entry) (type : ℕ) (base : Addr64) : Prop :=
  ∀ m mem o, entry (relativeRela type base mem o) m =
    some (store m (place base o) (base + load 8 mem (place base o)))

theorem x86_stores_sum (env : SymEnv .elf64) (base : Addr64) :
    StoresSum (X86Values.relocEntry env base) R_X86_64_RELATIVE base := by
  intro m mem o
  have htype : X86Values.relocType (relativeRela R_X86_64_RELATIVE base mem o).type =
    .relative := rfl
  have hsym : (relativeRela R_X86_64_RELATIVE base mem o).sym = 0 := by
    simp [relativeRela, Rela.sym, R_X86_64_RELATIVE]
  simp only [X86Values.relocEntry, symbolValue, htype, hsym]
  rfl

theorem aarch64_stores_sum (env : SymEnv .elf64) (base : Addr64) :
    StoresSum (Aarch64Values.relocEntry env base) R_AARCH64_RELATIVE base := by
  intro m mem o
  have htype : Aarch64Values.relocType (relativeRela R_AARCH64_RELATIVE base mem o).type =
    .relative := rfl
  have hsym : (relativeRela R_AARCH64_RELATIVE base mem o).sym = 0 := by
    simp [relativeRela, Rela.sym, R_AARCH64_RELATIVE]
  simp only [Aarch64Values.relocEntry, symbolValue, htype, hsym]
  rfl

theorem applied_entry {entry : Entry} {type : ℕ} {base : Addr64} (h : StoresSum entry type base)
    {m mem : Mem64} {o : ℕ} (hword : load 8 m (place base o) = load 8 mem (place base o)) :
    entry (relativeRela type base mem o) m =
      some (applyRelrReloc base m (BitVec.ofNat 64 o)) := by
  rw [h, ← hword, BitVec.add_comm base]
  rfl

theorem applied_apart {base : Addr64} {m : Mem64} {o o' : ℕ}
    (h : Apart (place base o) 8 (place base o') 8) :
    load 8 (applyRelrReloc base m (BitVec.ofNat 64 o)) (place base o') =
      load 8 m (place base o') :=
  load_store_apart (by decide) h

theorem relative_relas {entry : Entry} {type : ℕ} {base : Addr64}
    (h : StoresSum entry type base) {mem : Mem64} {offsets : List ℕ}
    (hapart : offsets.Pairwise fun o o' => Apart (place base o) 8 (place base o') 8) (m : Mem64)
    (hwords : ∀ o ∈ offsets, load 8 m (place base o) = load 8 mem (place base o)) :
    relocLibrary entry (relativeRelas type base mem offsets) m =
      (offsets.foldl (fun m o => applyRelrReloc base m (BitVec.ofNat 64 o)) m, true) := by
  induction offsets generalizing m with
  | nil => rfl
  | cons o offsets ih =>
    have hhead := applied_entry h (hwords o List.mem_cons_self)
    have hfirst := (List.pairwise_cons.mp hapart).1
    have hrest : ∀ o' ∈ offsets,
        load 8 (applyRelrReloc base m (BitVec.ofNat 64 o)) (place base o') =
          load 8 mem (place base o') := by
      intro o' ho'
      rw [applied_apart (hfirst o' ho')]
      exact hwords o' (List.mem_cons_of_mem _ ho')
    have htail := ih (List.pairwise_cons.mp hapart).2 _ hrest
    rw [relativeRelas, List.map_cons, relocLibrary, hhead]
    exact htail

end rela

/-- On both 64-bit machines every packed table that is not relocated itself does what the plain
table with its addends does, and that one is accepted. -/
theorem relr_eq_rela (env : RelocSymbols.SymEnv .elf64) (base relr : Addr .elf64) (n : ℕ)
    (mem : Mem .elf64) {offsets : List ℕ} (hoff : Offsets .elf64 offsets)
    (ht : Encodes .elf64 none (tableWords relr n mem) offsets)
    (hapart : TableApart base relr n offsets) :
    RelaTables.relocLibrary (X86Values.relocEntry env base)
        (relativeRelas R_X86_64_RELATIVE base mem offsets) mem =
      (relocateRelr base relr n mem, true) ∧
    RelaTables.relocLibrary (Aarch64Values.relocEntry env base)
        (relativeRelas R_AARCH64_RELATIVE base mem offsets) mem =
      (relocateRelr base relr n mem, true) := by
  rw [relocateRelr_eq ht hapart]
  constructor
  · exact relative_relas (x86_stores_sum env base) (offsets_apart hoff) mem fun o _ => rfl
  · exact relative_relas (aarch64_stores_sum env base) (offsets_apart hoff) mem fun o _ => rfl

theorem relr_eq_rela_run :
    RelaTables.relocLibrary (X86Values.relocEntry (RelocSymbols.noSymbols .elf64) 0x70000000)
        (relativeRelas R_X86_64_RELATIVE 0x70000000 runTable [0x1000, 0x1008, 0x11f8, 0x1200])
        runTable =
      (relocateRelr 0x70000000 0x70002000 3 runTable, true) ∧
    RelaTables.relocLibrary (Aarch64Values.relocEntry (RelocSymbols.noSymbols .elf64) 0x70000000)
        (relativeRelas R_AARCH64_RELATIVE 0x70000000 runTable [0x1000, 0x1008, 0x11f8, 0x1200])
        runTable =
      (relocateRelr 0x70000000 0x70002000 3 runTable, true) :=
  relr_eq_rela _ _ _ _ _ ⟨by decide, by decide, by decide⟩ runTable_encodes
    (table_behind (by decide +kernel))

section rel
open Bionic.RelTables Bionic.RelocSymbols

def relativeType : Arch → ℕ
  | .arm => 23
  | .i386 => 8

def relativeRel (arch : Arch) (o : ℕ) : Rel :=
  ⟨BitVec.ofNat 32 o, BitVec.ofNat 32 (relativeType arch)⟩

theorem applied_rel (arch : Arch) (env : SymEnv .elf32) (base : Addr32) (o : ℕ) (s : SymPtr)
    (m : Mem32) : RelTables.relocEntry arch env base (relativeRel arch o) s m =
      .done .null (applyRelrReloc base m (BitVec.ofNat 32 o)) := by
  have htype : relocType arch (relativeRel arch o).type = .relative := by cases arch <;> rfl
  have hsym : (relativeRel arch o).sym = 0 := by
    cases arch <;> simp [relativeRel, Rel.sym, relativeType]
  rw [RelTables.relocEntry, if_pos hsym]
  simp only [applyEntry, htype, hsym]
  rfl

theorem relative_rels (arch : Arch) (env : SymEnv .elf32) (base : Addr32) (offsets : List ℕ)
    (s : SymPtr) (m : Mem32) :
    ∃ s', RelTables.relocLibrary arch env base (offsets.map (relativeRel arch)) s m =
      .done s' (offsets.foldl (fun m o => applyRelrReloc base m (BitVec.ofNat 32 o)) m) := by
  induction offsets generalizing s m with
  | nil => exact ⟨s, rfl⟩
  | cons o offsets ih =>
    have htail := ih .null (applyRelrReloc base m (BitVec.ofNat 32 o))
    rw [List.map_cons, RelTables.relocLibrary, applied_rel]
    exact htail

/-- On both 32-bit machines the addends are in the words for either table, and every packed
table that is not relocated itself does what the plain one does, even where words overlap. -/
theorem relr_eq_rel (arch : Arch) (env : SymEnv .elf32) (base relr : Addr32) (n : ℕ) (mem : Mem32)
    {offsets : List ℕ} (ht : Encodes .elf32 none (tableWords relr n mem) offsets)
    (hapart : TableApart base relr n offsets) :
    ∃ s, RelTables.relocLibrary arch env base (offsets.map (relativeRel arch)) .unset mem =
      .done s (relocateRelr base relr n mem) := by
  rw [relocateRelr_eq ht hapart]
  exact relative_rels arch env base offsets .unset mem

/-- The last of a bitmap's words. -/
theorem relr_eq_rel_run :
    ∃ s, RelTables.relocLibrary .arm (noSymbols .elf32) 0x8000
        ([0x100, 0x17c].map (relativeRel .arm)) .unset (tableMem 0x9000 [0x100, 0x80000001]) =
      .done s (relocateRelr 0x8000 0x9000 2 (tableMem 0x9000 [0x100, 0x80000001])) := by
  have htable : tableWords 0x9000 2 (tableMem 0x9000 [0x100, 0x80000001]) =
      [0x100, 0x80000001] := tableWords_tableMem (c := .elf32) 0x9000 (by decide)
  have hencode : encode .elf32 none [0x100, 0x17c] = [0x100, 0x80000001] := by
    have hword : bitmapWord .elf32 0x104 [0x17c] = 0x80000001 := by decide +kernel
    simp [encode, bitmapWords, ElfClass.wordsize, List.takeWhile, List.dropWhile, hword]
  have hencodes : Encodes .elf32 none (encode .elf32 none [0x100, 0x17c]) [0x100, 0x17c] :=
    Offsets.encodes ⟨by decide, by decide, by decide⟩
  rw [hencode, ← htable] at hencodes
  exact relr_eq_rel .arm _ 0x8000 0x9000 2 _ hencodes (table_behind (by decide +kernel))

end rel

end Bionic.RelativePacking
