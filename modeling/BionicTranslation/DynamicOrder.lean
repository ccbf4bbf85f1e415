import BionicTranslation.LinkFrame

/-!
# The order of the dynamic section

The table extraction of `apkenv_link_image` as a function of the values of the tags,
which does not know the order of the entries. The two hash tags write the same fields;
the GNU table stays whichever of them comes first.
-/

set_option autoImplicit false

namespace Bionic.DynamicOrder
open Bionic.Slots Bionic.Records Bionic.Linker Bionic.LinkFrame

abbrev Entry := DynTag × ℕ

def dyns (ds : List Entry) : List Dyn := ds.map fun d => ⟨d.1, .val d.2⟩

def Once (ds : List Entry) : Prop := ((ds.filter fun d => d.1 ≠ .needed).map Prod.fst).Nodup

structure Orderly (s : Soinfo) (ds : List Entry) : Prop where
  once : Once ds
  relr : ∀ v w, (.relr, v) ∈ ds → (.androidRelr, w) ∉ ds
  relrsz : ∀ v w, (.relrsz, v) ∈ ds → (.androidRelrsz, w) ∉ ds
  no_rel : ∀ d ∈ ds, d.1 ≠ .rel ∧ d.1 ≠ .relsz
  hash : ∀ v, (.hash, v) ∈ ds → s.image.u32 v ≠ 0
  gnuHash : ∀ v, (.gnuHash, v) ∈ ds → s.image.u32 v ≠ 0 ∧ ∃ k, s.image.u32 (v + 8) = 2 ^ k

structure Unextracted (s : Soinfo) : Prop where
  nbucket : s.nbucket = 0
  nchain : s.nchain = 0
  gnuHash : s.flags.gnuHash = false

abbrev Values := DynTag → Option ℕ

def ptr (s : Soinfo) (old : ℕ) (v : Option ℕ) : ℕ := v.elim old s.addr

def count (size old : ℕ) (v : Option ℕ) : ℕ := v.elim old (· / size)

structure TableFields where
  gnuHash : Bool
  nbucket : ℕ
  nchain : ℕ
  bucket : ℕ
  chain : ℕ
  gnu_maskwords : ℕ
  gnu_shift2 : ℕ
  gnu_bloom_filter : ℕ
  deriving DecidableEq, Repr

def tableFields (s : Soinfo) : TableFields where
  gnuHash := s.flags.gnuHash
  nbucket := s.nbucket
  nchain := s.nchain
  bucket := s.bucket
  chain := s.chain
  gnu_maskwords := s.gnu_maskwords
  gnu_shift2 := s.gnu_shift2
  gnu_bloom_filter := s.gnu_bloom_filter

def withTable (s : Soinfo) (t : TableFields) : Soinfo :=
  { s with
    flags := { s.flags with gnuHash := t.gnuHash }
    nbucket := t.nbucket
    nchain := t.nchain
    bucket := t.bucket
    chain := t.chain
    gnu_maskwords := t.gnu_maskwords
    gnu_shift2 := t.gnu_shift2
    gnu_bloom_filter := t.gnu_bloom_filter }

def addrOf (base p : ℕ) : ℕ := (base + p) % 0x10000000000000000

def sysvFields (old : TableFields) (base : ℕ) (image : Image) (v : ℕ) : TableFields :=
  { old with
    nbucket := image.u32 v
    nchain := image.u32 (v + 4)
    bucket := addrOf base (v + 8)
    chain := addrOf base (v + 8 + image.u32 v * 4) }

/-- The table behind DT_GNU_HASH. `chain` is moved back by `symndx` entries. -/
def gnuFields (base : ℕ) (image : Image) (v : ℕ) : TableFields where
  gnuHash := true
  nbucket := image.u32 v
  nchain := 0
  bucket := addrOf base (v + 16 + image.u32 (v + 8) * 8)
  chain := (addrOf base (v + 16 + image.u32 (v + 8) * 8) + image.u32 v * 4 + 0x10000000000000000 -
    image.u32 (v + 4) * 4) % 0x10000000000000000
  gnu_maskwords := u32 (image.u32 (v + 8) + 0xffffffff)
  gnu_shift2 := image.u32 (v + 12)
  gnu_bloom_filter := addrOf base (v + 16)

def hashFields (s : Soinfo) (v : Values) : TableFields :=
  ((v .gnuHash).map (gnuFields s.base s.image)).getD
    (((v .hash).map (sysvFields (tableFields s) s.base s.image)).getD (tableFields s))

def otherFields (s : Soinfo) (v : Values) : Soinfo :=
  { s with
    strtab := ptr s s.strtab (v .strtab)
    symtab := ptr s s.symtab (v .symtab)
    plt_rela := ptr s s.plt_rela (v .jmprel)
    plt_rela_count := count 24 s.plt_rela_count (v .pltrelsz)
    plt_got := ptr s s.plt_got (v .pltgot)
    rela := ptr s s.rela (v .rela)
    rela_count := count 24 s.rela_count (v .relasz)
    relr := ptr s s.relr ((v .relr).or (v .androidRelr))
    relr_count := count 8 s.relr_count ((v .relrsz).or (v .androidRelrsz))
    init_func := ptr s s.init_func (v .init)
    fini_func := ptr s s.fini_func (v .fini)
    init_array := ptr s s.init_array (v .initArray)
    init_array_count := count 8 s.init_array_count (v .initArraysz)
    fini_array := ptr s s.fini_array (v .finiArray)
    fini_array_count := count 8 s.fini_array_count (v .finiArraysz)
    preinit_array := ptr s s.preinit_array (v .preinitArray)
    preinit_array_count := count 8 s.preinit_array_count (v .preinitArraysz) }

def extracted (s : Soinfo) (v : Values) : Soinfo := withTable (otherFields s v) (hashFields s v)

structure Fits (s : Soinfo) (v : Values) (d : Entry) : Prop where
  new : d.1 ≠ .needed → v d.1 = none
  relr : d.1 = .relr ∨ d.1 = .androidRelr → v .relr = none ∧ v .androidRelr = none
  relrsz : d.1 = .relrsz ∨ d.1 = .androidRelrsz → v .relrsz = none ∧ v .androidRelrsz = none
  no_rel : d.1 ≠ .rel ∧ d.1 ≠ .relsz
  gnuHash : d.1 = .gnuHash → powerof2 (s.image.u32 (d.2 + 8)) = true
  gnu : ∀ w, v .gnuHash = some w → s.image.u32 w ≠ 0
  sysv : ∀ w, v .hash = some w → s.image.u32 w ≠ 0

def put (v : Values) (d : Entry) : Values :=
  if d.1 = .needed then v else Function.update v d.1 (some d.2)

section entry
variable {s : Soinfo} {i x : ℕ}

theorem extractEntry_gnuHash (hi : s.entries[i]? = some ⟨.gnuHash, .val x⟩)
    (hn : s.nbucket = 0 → s.nchain = 0) (hpow : powerof2 (s.image.u32 (x + 8)) = true) (r : ℕ) :
    extractEntry r s i = .ok (withTable s (gnuFields s.base s.image x)) := by
  have hnchain : (if s.nbucket ≠ 0 then 0 else s.nchain) = 0 := by
    split_ifs with h
    · rfl
    · exact hn (not_not.mp h)
  unfold extractEntry
  rw [hi]
  simp only [hnchain, hpow, Bool.not_true, Bool.false_eq_true, if_false]
  rfl

theorem extractEntry_hash (hi : s.entries[i]? = some ⟨.hash, .val x⟩) (r : ℕ) :
    extractEntry r s i = .ok (if s.nbucket ≠ 0 then s
      else withTable s (sysvFields (tableFields s) s.base s.image x)) := by
  unfold extractEntry
  rw [hi]
  simp only
  split_ifs <;> rfl

end entry

section put
variable {s : Soinfo} {v : Values} {x : ℕ}

theorem put_or {t u : DynTag} (hu : u ≠ .needed) (htu : t ≠ u) (ht : v t = none) :
    (put v (u, x) t).or (put v (u, x) u) = some x := by
  rw [put, if_neg hu, Function.update_of_ne htu, ht, Function.update_self, Option.none_or]

theorem hashFields_put_hash (hs : Unextracted s) (hd : Fits s v (.hash, x)) :
    hashFields s (put v (.hash, x)) = if (hashFields s v).nbucket ≠ 0 then hashFields s v
      else sysvFields (hashFields s v) s.base s.image x := by
  have hv : v .hash = none := hd.new (by simp)
  have hput : hashFields s (put v (.hash, x)) =
      ((v .gnuHash).map (gnuFields s.base s.image)).getD
        (sysvFields (tableFields s) s.base s.image x) := rfl
  rw [hput]
  cases hg : v .gnuHash with
  | some w =>
    have hfields : hashFields s v = gnuFields s.base s.image w := by rw [hashFields, hg]; rfl
    have hne : (hashFields s v).nbucket ≠ 0 := hfields ▸ hd.gnu w hg
    rw [if_pos hne, hfields]
    rfl
  | none =>
    have hfields : hashFields s v = tableFields s := by rw [hashFields, hg, hv]; rfl
    have hzero : ¬ (hashFields s v).nbucket ≠ 0 := hfields ▸ not_not.mpr hs.nbucket
    rw [if_neg hzero, hfields]
    rfl

end put

theorem extractEntry_put {s : Soinfo} (hs : Unextracted s) {v : Values} {d : Entry}
    (hd : Fits s v d) {es : List Dyn} {i : ℕ} (hi : es[i]? = some ⟨d.1, .val d.2⟩) (r : ℕ) :
    ∃ es', extractEntry r ((extracted s v).setEntries es) i =
        .ok ((extracted s (put v d)).setEntries es') ∧ es'.length = es.length ∧
      ∀ j, j ≠ i → es'[j]? = es[j]? := by
  obtain ⟨tag, x⟩ := d
  have hentry : ((extracted s v).setEntries es).entries[i]? = some ⟨tag, .val x⟩ := hi
  cases tag with
  | gnuHash =>
    have hv : v .gnuHash = none := hd.new (by simp)
    have hn : (hashFields s v).nbucket = 0 → (hashFields s v).nchain = 0 := by
      rw [hashFields, hv]
      cases hh : v .hash with
      | some w => exact fun h0 => absurd h0 (hd.sysv w hh)
      | none => exact fun _ => hs.nchain
    exact ⟨es, extractEntry_gnuHash hentry hn (hd.gnuHash rfl) r, rfl, fun _ _ => rfl⟩
  | hash =>
    have hafter := congrArg (withTable (otherFields s v)) (hashFields_put_hash hs hd)
    change extracted s (put v (.hash, x)) = _ at hafter
    refine ⟨es, ?_, rfl, fun _ _ => rfl⟩
    rw [extractEntry_hash hentry r, hafter]
    by_cases hn : (hashFields s v).nbucket ≠ 0
    · rw [if_pos hn, if_pos (show ((extracted s v).setEntries es).nbucket ≠ 0 from hn)]
      rfl
    · rw [if_neg hn, if_neg (show ¬ ((extracted s v).setEntries es).nbucket ≠ 0 from hn)]
      rfl
  | rel => exact absurd rfl hd.no_rel.1
  | relsz => exact absurd rfl hd.no_rel.2
  | debug =>
    refine ⟨es.set i ⟨.debug, .val r⟩, ?_, List.length_set,
      fun j hj => List.getElem?_set_ne hj.symm⟩
    unfold extractEntry
    rw [hentry]
    rfl
  | androidRelr =>
    have hput := put_or (x := x) (t := .relr) (u := .androidRelr) (by simp) (by simp)
      (hd.relr (.inr rfl)).1
    have hother : otherFields s (put v (.androidRelr, x)) =
        { otherFields s v with relr := ptr s s.relr (some x) } := by
      rw [← hput]
      rfl
    refine ⟨es, ?_, rfl, fun _ _ => rfl⟩
    unfold extractEntry
    rw [hentry, extracted, extracted, hother]
    rfl
  | androidRelrsz =>
    have hput := put_or (x := x) (t := .relrsz) (u := .androidRelrsz) (by simp) (by simp)
      (hd.relrsz (.inr rfl)).1
    have hother : otherFields s (put v (.androidRelrsz, x)) =
        { otherFields s v with relr_count := count 8 s.relr_count (some x) } := by
      rw [← hput]
      rfl
    refine ⟨es, ?_, rfl, fun _ _ => rfl⟩
    unfold extractEntry
    rw [hentry, extracted, extracted, hother]
    rfl
  | _ =>
    unfold extractEntry
    rw [hentry]
    exact ⟨es, rfl, rfl, fun _ _ => rfl⟩

section values
variable {ds ds' l r : List Entry} {t : DynTag} {x : ℕ} {d : Entry}

def values (ds : List Entry) : Values := ds.foldl put fun _ => none

theorem values_concat (l : List Entry) (d : Entry) : values (l ++ [d]) = put (values l) d :=
  List.foldl_concat put _ d l

theorem once_concat (h : Once (l ++ [d])) :
    Once l ∧ (d.1 ≠ .needed → ∀ x, (d.1, x) ∉ l) := by
  rw [Once, List.filter_append, List.map_append, List.nodup_append] at h
  refine ⟨h.1, fun hd x hx => ?_⟩
  refine h.2.2 d.1 ?_ d.1 ?_ rfl
  · exact List.mem_map.mpr ⟨(d.1, x), List.mem_filter.mpr ⟨hx, by simpa using hd⟩, rfl⟩
  · exact List.mem_map.mpr ⟨d, List.mem_filter.mpr ⟨List.mem_cons_self, by simpa using hd⟩, rfl⟩

theorem values_eq_some (h : Once ds) :
    values ds t = some x ↔ t ≠ .needed ∧ (t, x) ∈ ds := by
  induction ds using List.reverseRecOn with
  | nil => simp [values]
  | append_singleton l d ih =>
    obtain ⟨hl, hnew⟩ := once_concat h
    rw [values_concat, put, List.mem_append, List.mem_singleton]
    by_cases hd : d.1 = .needed
    · rw [if_pos hd, ih hl]
      refine and_congr_right fun ht => (or_iff_left ?_).symm
      rintro rfl
      exact ht hd
    · rw [if_neg hd]
      by_cases ht : t = d.1
      · subst ht
        rw [Function.update_self, or_iff_right (hnew hd x)]
        exact ⟨fun hx => ⟨hd, Prod.ext rfl (Option.some.inj hx).symm⟩,
          fun hx => congrArg some (congrArg Prod.snd hx.2).symm⟩
      · rw [Function.update_of_ne ht, ih hl]
        refine and_congr_right fun _ => (or_iff_left ?_).symm
        intro hx
        exact ht (congrArg Prod.fst hx)

theorem Once.perm (h : Once ds) (hp : ds.Perm ds') : Once ds' :=
  ((hp.filter _).map _).nodup_iff.mp h

theorem values_perm (h : Once ds) (hp : ds.Perm ds') : values ds = values ds' := by
  ext t x
  rw [values_eq_some h, values_eq_some (h.perm hp), hp.mem_iff]

end values

section loop
variable {s : Soinfo} {ds ds' : List Entry}

theorem Orderly.perm (h : Orderly s ds) (hp : ds.Perm ds') : Orderly s ds' where
  once := Once.perm h.once hp
  relr v w hv hw := h.relr v w (hp.mem_iff.mpr hv) (hp.mem_iff.mpr hw)
  relrsz v w hv hw := h.relrsz v w (hp.mem_iff.mpr hv) (hp.mem_iff.mpr hw)
  no_rel d hd := h.no_rel d (hp.mem_iff.mpr hd)
  hash v hv := h.hash v (hp.mem_iff.mpr hv)
  gnuHash v hv := h.gnuHash v (hp.mem_iff.mpr hv)

theorem powerof2_two_pow (k : ℕ) : powerof2 (2 ^ k) = true := by
  rw [powerof2, Nat.and_two_pow_sub_one_eq_mod, Nat.mod_self]
  rfl

theorem fits_next {l r : List Entry} {d : Entry} (h : Orderly s (l ++ d :: r)) :
    Fits s (values l) d := by
  obtain ⟨tag, y⟩ := d
  have hpre : Once (l ++ [(tag, y)]) := by
    have hsub : (l ++ [(tag, y)]).Sublist (l ++ (tag, y) :: r) :=
      (List.singleton_sublist.mpr List.mem_cons_self).append_left l
    exact h.once.sublist ((hsub.filter _).map _)
  obtain ⟨hl, hnew⟩ := once_concat hpre
  have hmem {t : DynTag} {x : ℕ} (hx : values l t = some x) : (t, x) ∈ l ++ (tag, y) :: r :=
    List.mem_append_left _ ((values_eq_some hl).mp hx).2
  have hlast : (tag, y) ∈ l ++ (tag, y) :: r := List.mem_append_right l List.mem_cons_self
  have hnone (ht : tag ≠ .needed) : values l tag = none :=
    Option.eq_none_iff_forall_ne_some.mpr fun x hx => hnew ht x ((values_eq_some hl).mp hx).2
  -- of two tags that exclude each other, neither has a value when one of them comes
  have hpair {t u : DynTag} (ht : t ≠ .needed) (hu : u ≠ .needed)
      (hexcl : ∀ v w, (t, v) ∈ l ++ (tag, y) :: r → (u, w) ∉ l ++ (tag, y) :: r) :
      tag = t ∨ tag = u → values l t = none ∧ values l u = none := by
    rintro (rfl | rfl)
    · exact ⟨hnone ht, Option.eq_none_iff_forall_ne_some.mpr fun x hx =>
        hexcl y x hlast (hmem hx)⟩
    · exact ⟨Option.eq_none_iff_forall_ne_some.mpr fun x hx => hexcl x y (hmem hx) hlast,
        hnone hu⟩
  refine ⟨hnone, hpair (by simp) (by simp) h.relr, hpair (by simp) (by simp) h.relrsz,
    h.no_rel _ hlast, ?_, fun w hw => (h.gnuHash w (hmem hw)).1, fun w hw => h.hash w (hmem hw)⟩
  · rintro rfl
    obtain ⟨-, k, hk⟩ := h.gnuHash y hlast
    rw [hk]
    exact powerof2_two_pow k

theorem extract_prefix (hs : Unextracted s) (h : Orderly s ds) (r k : ℕ) (hk : k ≤ ds.length) :
    ∃ es, (List.range k).foldlM (extractEntry r) (s.setEntries (dyns ds)) =
        .ok ((extracted s (values (ds.take k))).setEntries es) ∧ es.length = ds.length ∧
      ∀ j, k ≤ j → es[j]? = (dyns ds)[j]? := by
  induction k with
  | zero => exact ⟨dyns ds, rfl, List.length_map _, fun _ _ => rfl⟩
  | succ k ih =>
    obtain ⟨es, hrun, hlen, hrest⟩ := ih (Nat.le_of_succ_le hk)
    have hsplit : ds.take k ++ ds[k] :: ds.drop (k + 1) = ds := by
      rw [← List.drop_eq_getElem_cons, List.take_append_drop]
    have hfits : Fits s (values (ds.take k)) ds[k] := fits_next (hsplit.symm ▸ h)
    have hentry : es[k]? = some ⟨ds[k].1, .val ds[k].2⟩ := by
      rw [hrest k (Nat.le_refl k), dyns, List.getElem?_map, List.getElem?_eq_getElem hk]
      rfl
    obtain ⟨es', hstep, hlen', hsame⟩ := extractEntry_put hs hfits hentry r
    refine ⟨es', ?_, hlen'.trans hlen, fun j hj => ?_⟩
    · rw [List.range_succ, List.foldlM_append, hrun, List.take_succ_eq_append_getElem hk,
        values_concat]
      show ([k].foldlM (extractEntry r) _ : Except Soinfo Soinfo) = _
      rw [List.foldlM_cons, hstep]
      rfl
    · rw [hsame j (by omega), hrest j (by omega)]

theorem extract_eq (hs : Unextracted s) (h : Orderly s ds) (r : ℕ) : ∃ es,
    extract r (s.setEntries (dyns ds)) = .ok ((extracted s (values ds)).setEntries es) := by
  obtain ⟨es, hrun, -, -⟩ := extract_prefix hs h r ds.length (Nat.le_refl _)
  rw [List.take_length] at hrun
  refine ⟨es, ?_⟩
  rw [extract, ← hrun]
  exact congrArg (fun n => (List.range n).foldlM _ _) (List.length_map _)

structure Precedence (s : Soinfo) (ds : List Entry) (t : TableFields) : Prop where
  gnu : ∀ v, (.gnuHash, v) ∈ ds → t = gnuFields s.base s.image v
  sysv : (∀ v, (.gnuHash, v) ∉ ds) → ∀ v, (.hash, v) ∈ ds →
    t = sysvFields (tableFields s) s.base s.image v
  none : (∀ v, (.gnuHash, v) ∉ ds) → (∀ v, (.hash, v) ∉ ds) → t = tableFields s

theorem hashFields_precedence (h : Orderly s ds) : Precedence s ds (hashFields s (values ds)) := by
  have hvalue {t : DynTag} {v : ℕ} (ht : t ≠ .needed) (hv : (t, v) ∈ ds) :
      values ds t = some v := (values_eq_some h.once).mpr ⟨ht, hv⟩
  have hnone {t : DynTag} (hv : ∀ v, (t, v) ∉ ds) : values ds t = none :=
    Option.eq_none_iff_forall_ne_some.mpr fun x hx => hv x ((values_eq_some h.once).mp hx).2
  refine ⟨fun v hv => ?_, fun hg v hv => ?_, fun hg hv => ?_⟩
  · rw [hashFields, hvalue (by simp) hv]
    rfl
  · rw [hashFields, hnone hg, hvalue (by simp) hv]
    rfl
  · rw [hashFields, hnone hg, hnone hv]
    rfl

/-- For every record without tables, and every order of the entries. -/
theorem extract_any_order (hs : Unextracted s) (h : Orderly s ds) (hp : ds.Perm ds') (r : ℕ) :
    ∃ t t', extract r (s.setEntries (dyns ds)) = .ok t ∧
      extract r (s.setEntries (dyns ds')) = .ok t' ∧ t.setEntries [] = t'.setEntries [] ∧
      Precedence s ds (tableFields t) := by
  obtain ⟨es, hrun⟩ := extract_eq hs h r
  obtain ⟨es', hrun'⟩ := extract_eq hs (h.perm hp) r
  refine ⟨_, _, hrun, hrun', ?_, hashFields_precedence h⟩
  rw [values_perm h.once hp]
  rfl

/-- A SysV and a GNU table, and two of the orders of their entries. -/
theorem gnu_table_kept :
    let image : Image := { u32 := fun o => if o = 0x208 then 4 else if o = 0x100 then 3 else 1 }
    let s : Soinfo := { base := 0x10000, image }
    ∃ t t',
      extract 0 (s.setEntries (dyns [(.hash, 0x100), (.needed, 1), (.gnuHash, 0x200)])) = .ok t ∧
      extract 0 (s.setEntries (dyns [(.gnuHash, 0x200), (.hash, 0x100), (.needed, 1)])) = .ok t' ∧
      t.setEntries [] = t'.setEntries [] ∧ t.flags.gnuHash = true ∧ t.nchain = 0 := by
  intro image s
  have horder : Orderly s [(.hash, 0x100), (.needed, 1), (.gnuHash, 0x200)] := by
    refine ⟨by unfold Once; decide, ?_, ?_, by decide, ?_, ?_⟩
    · simp
    · simp
    · intro v hv
      obtain rfl : v = 0x100 := by simpa using hv
      decide
    · intro v hv
      obtain rfl : v = 0x200 := by simpa using hv
      exact ⟨by decide, 2, by decide⟩
  have hperm : List.Perm [(DynTag.hash, 0x100), (.needed, 1), (.gnuHash, 0x200)]
      [(.gnuHash, 0x200), (.hash, 0x100), (.needed, 1)] := by decide
  obtain ⟨t, t', ht, ht', hsame, hfirst⟩ :=
    extract_any_order (s := s) ⟨rfl, rfl, rfl⟩ horder hperm 0
  have htable := hfirst.gnu 0x200 (by simp)
  exact ⟨t, t', ht, ht', hsame, congrArg TableFields.gnuHash htable,
    congrArg TableFields.nchain htable⟩

end loop

theorem loadLibrary_unextracted {w : World} {L L' : State} {lib : Name} {host : Option ℕ} {i : Slot}
    (h : loadLibrary w L lib = (L', some i, host)) : Unextracted (L'.info (.pool i)) ∧
      ∀ es, (L'.info (.pool i)).dynamic = .found es → ∃ ds, es = dyns ds := by
  unfold loadLibrary at h
  cases hf : w.openLibrary L.attempts lib with
  | none =>
    simp only [hf] at h
    cases h
  | some f =>
    cases hs : fileExtents f with
    | none =>
      simp only [hf, hs] at h
      cases h
    | some size =>
      cases ha : allocInfo { L with attempts := L.attempts + 1 } (basename lib) with
      | none =>
        simp only [hf, hs, ha] at h
        cases h
      | some p =>
        obtain ⟨L1, j⟩ := p
        obtain ⟨-, -, hL1⟩ := allocInfo_some ha
        cases hr : loadFile w L1 f size j with
        | mk L2 r =>
          simp only [hf, hs, ha, hr] at h
          cases h
          rcases loadFile_cases hr with ⟨hn, -⟩ | ⟨hj, -, -, -, b, st, mm, -, -, -, hown⟩
          · cases hn
          · cases hj
            rw [hown, hL1, set_same]
            refine ⟨⟨rfl, rfl, rfl⟩, fun es hes => ?_⟩
            unfold fillInfo at hes
            cases hd : st.dynamic with
            | none =>
              simp only [hd] at hes
              cases hes
            | some a =>
              simp only [hd] at hes
              cases hes
              exact ⟨_, rfl⟩

end Bionic.DynamicOrder
