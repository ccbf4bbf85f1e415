import BionicTranslation.Splitting
import BionicTranslation.Strlcpy

/-!
# The library path

`dl_parse_library_path` copies a path into a buffer of its own and cuts the copy
at the delimiters. It keeps room for eight entries and 511 characters, and judges
by one character whether the last entry was cut off.
-/

set_option autoImplicit false

namespace Bionic.LibraryPath
open Bionic.CStrings Bionic.Splitting Bionic.Strlcpy

def LDPATH_BUFSIZE : ℕ := 512
def LDPATH_MAX : ℕ := 8

variable {α : Type*}

section Source
variable [DecidableEq α]

def isDelim (delim : List α) (x : α) : Bool := decide (x ∈ delim)

/-- `apkenv_ldpaths_buf` and the offset of `apkenv_ldpaths_bufp` in it, `apkenv_ldpaths`
and `i`. -/
structure State (α : Type*) where
  buf : ℕ → α
  bufp : Option ℕ
  ldpaths : ℕ → Option ℕ
  i : ℕ

variable [Zero α]

def scan (buf : ℕ → α) (delim : List α) : ℕ → ℕ → Option ℕ
  | 0, _ => none
  | fuel + 1, p => if buf p = 0 ∨ buf p ∈ delim then some p else scan buf delim fuel (p + 1)

def strsep (fuel : ℕ) (buf : ℕ → α) (bufp : Option ℕ) (delim : List α) :
    Option (Option ℕ × (ℕ → α) × Option ℕ) :=
  bufp.elim (some (none, buf, none)) fun p => (scan buf delim fuel p).map fun e =>
    if buf e = 0 then (some p, buf, none)
    else (some p, Function.update buf e 0, some (e + 1))

def State.push (st : State α) (p : ℕ) (buf : ℕ → α) (bufp : Option ℕ) : State α where
  buf := buf
  bufp := bufp
  ldpaths := Function.update st.ldpaths st.i (some p)
  i := if buf p ≠ 0 then st.i + 1 else st.i

def pathLoop (delim : List α) : ℕ → State α → Option (State α)
  | 0, _ => none
  | fuel + 1, st =>
    if st.i < LDPATH_MAX then
      (strsep fuel st.buf st.bufp delim).bind fun r => r.1.elim
        (some { st with
          buf := r.2.1, bufp := r.2.2, ldpaths := Function.update st.ldpaths st.i none })
        fun p => pathLoop delim fuel (st.push p r.2.1 r.2.2)
    else some st

/-- The last entry is forgotten if the path was cut and there is something in front of the
end of the buffer. -/
def forget (st : State α) (len : ℕ) : State α :=
  if 0 < st.i ∧ LDPATH_BUFSIZE ≤ len ∧ st.buf (LDPATH_BUFSIZE - 2) ≠ 0 then
    { st with ldpaths := Function.update st.ldpaths (st.i - 1) none }
  else { st with ldpaths := Function.update st.ldpaths st.i none }

def dlParseLibraryPath (fuel : ℕ) (buf : ℕ → α) (ldpaths : ℕ → Option ℕ) (mem : ℕ → α)
    (path : ℕ) (delim : List α) : Option (State α) :=
  (strlcpy fuel buf 0 mem path LDPATH_BUFSIZE).bind fun r =>
    (pathLoop delim fuel ⟨r.1, some 0, ldpaths, 0⟩).map fun st => forget st r.2

end Source

variable {delim s r path : List α} {buf mem : ℕ → α} {st st' : State α} {b b' fuel p : ℕ}
  {ts ts' : List (List α)}

theorem take_concat (hlen : LDPATH_BUFSIZE ≤ path.length) : ∃ x,
    path.take (LDPATH_BUFSIZE - 1) = path.take (LDPATH_BUFSIZE - 2) ++ [x] :=
  ⟨_, List.take_succ_eq_append_getElem (i := 510) (Nat.lt_of_lt_of_le (by decide) hlen)⟩

variable [Zero α]

/-- Up to the first null pointer `apkenv_ldpaths` points at the strings `ts`. -/
structure Entries (st : State α) (ts : List (List α)) : Prop where
  entry : ∀ (j : ℕ) (t : List α), ts[j]? = some t →
    ∃ q, st.ldpaths j = some q ∧ Holds st.buf q t
  ends : st.ldpaths ts.length = none

theorem Entries.length_le (h : Entries st ts) (h' : Entries st ts') :
    ts.length ≤ ts'.length := by
  apply Nat.le_of_not_lt
  intro hlt
  obtain ⟨q, hq, -⟩ := h.entry ts'.length _ (List.getElem?_eq_getElem hlt)
  exact Option.some_ne_none q (hq.symm.trans h'.ends)

theorem Entries.unique (h : Entries st ts) (h' : Entries st ts') : ts = ts' := by
  have hlen := Nat.le_antisymm (h.length_le h') (h'.length_le h)
  apply List.ext_getElem hlen
  intro j hj hj'
  obtain ⟨q, hq, hs⟩ := h.entry j _ (List.getElem?_eq_getElem hj)
  obtain ⟨q', hq', hs'⟩ := h'.entry j _ (List.getElem?_eq_getElem hj')
  obtain rfl := Option.some.inj (hq.symm.trans hq')
  exact hs.unique hs'

/-- From `st` to `st'` the tokens `ts`, as far as there is room, became entries, and the
buffer below `b` stayed as it was. -/
structure Found (st : State α) (b : ℕ) (ts : List (List α)) (st' : State α) : Prop where
  i : st'.i = st.i + (ts.take (LDPATH_MAX - st.i)).length
  earlier : ∀ j < st.i, st'.ldpaths j = st.ldpaths j
  below : ∀ a < b, st'.buf a = st.buf a
  entry : ∀ (j : ℕ) (t : List α), (ts.take (LDPATH_MAX - st.i))[j]? = some t →
    ∃ q, st'.ldpaths (st.i + j) = some q ∧ Holds st'.buf q t

theorem found_null {ts : List (List α)} (hi : st'.i = st.i) (hbuf : st'.buf = st.buf)
    (hearlier : ∀ j < st.i, st'.ldpaths j = st.ldpaths j) (hts : ts.take (LDPATH_MAX - st.i) = [])
    (b : ℕ) : Found st b ts st' where
  i := by rw [hts, hi]; rfl
  earlier := hearlier
  below := fun a _ => congrFun hbuf a
  entry := by
    intro j t ht
    rw [hts] at ht
    cases ht

theorem Found.entries {n : ℕ} (h : Found st b ts st') (hi : st.i = 0)
    (hn : n ≤ (ts.take LDPATH_MAX).length) :
    Entries { st' with ldpaths := Function.update st'.ldpaths n none } (ts.take n) where
  entry := by
    intro j t ht
    have hj := (List.getElem?_eq_some_iff.mp ht).1
    rw [List.length_take] at hj hn
    have htake : (ts.take (LDPATH_MAX - st.i))[j]? = some t := by
      rw [List.getElem?_take_of_lt (by omega)] at ht ⊢
      exact ht
    obtain ⟨q, hq, hheld⟩ := h.entry j t htake
    rw [hi, Nat.zero_add] at hq
    exact ⟨q, (Function.update_of_ne (by omega) _ _).trans hq, hheld⟩
  ends := by
    rw [List.length_take_of_le (hn.trans (List.length_take_le' _ _))]
    exact Function.update_self _ _ _

theorem Found.count (h : Found st b ts st') (hi : st.i = 0) :
    st'.i = (ts.take LDPATH_MAX).length := by
  rw [h.i, hi, Nat.zero_add, Nat.sub_zero]

variable [DecidableEq α]

theorem scan_eq (hs : ∀ x ∈ s, isDelim delim x = false) (hblock : Block buf b s)
    (h0 : 0 ∉ s) (hend : buf (b + s.length) = 0 ∨ buf (b + s.length) ∈ delim)
    (hf : s.length < fuel) : scan buf delim fuel b = some (b + s.length) := by
  induction s generalizing b fuel with
  | nil =>
    obtain ⟨fuel, rfl⟩ := Nat.exists_eq_add_of_lt hf
    exact if_pos hend
  | cons x s ih =>
    obtain ⟨fuel, rfl⟩ := Nat.exists_eq_add_of_lt hf
    rw [List.length_cons] at hf hend ⊢
    have hnot : ¬ (buf b = 0 ∨ buf b ∈ delim) := by
      rw [hblock.1]
      rintro (h | h)
      · exact h0 (h ▸ List.mem_cons_self)
      · exact of_decide_eq_false (hs x List.mem_cons_self) h
    have hshift : b + 1 + s.length = b + (s.length + 1) := by omega
    rw [scan, if_neg hnot, ih (fun y hy => hs y (List.mem_cons_of_mem x hy)) hblock.2
      (fun h => h0 (List.mem_cons_of_mem x h)) (by rwa [hshift]) (by omega), hshift]

theorem pathLoop_last (hi : st.i < LDPATH_MAX) (hp : st.bufp = some b)
    (hs : ∀ x ∈ s, isDelim delim x = false) (h : Holds st.buf b s) (hf : s.length < fuel) :
    pathLoop delim (fuel + 1) st = pathLoop delim fuel (st.push b st.buf none) := by
  rw [pathLoop, if_pos hi, strsep, hp, Option.elim_some,
    scan_eq hs h.chars h.nonzero (.inl h.ends) hf, Option.map_some, if_pos h.ends]
  rfl

theorem pathLoop_next {d : α} (hi : st.i < LDPATH_MAX) (hp : st.bufp = some b)
    (hs : ∀ x ∈ s, isDelim delim x = false) (hd : isDelim delim d)
    (h : Holds st.buf b (s ++ d :: r)) (hf : s.length < fuel) :
    pathLoop delim (fuel + 1) st = pathLoop delim fuel
      (st.push b (Function.update st.buf (b + s.length) 0) (some (b + s.length + 1))) := by
  have hchars := block_append.mp h.chars
  have hne : st.buf (b + s.length) ≠ 0 := by
    rw [hchars.2.1]
    exact fun h0 => h.nonzero (h0 ▸ List.mem_append_right s List.mem_cons_self)
  have hmem : st.buf (b + s.length) ∈ delim := by
    rw [hchars.2.1]
    exact of_decide_eq_true hd
  rw [pathLoop, if_pos hi, strsep, hp, Option.elim_some,
    scan_eq hs hchars.1 (fun h0 => h.nonzero (List.mem_append_left _ h0)) (.inr hmem) hf,
    Option.map_some, if_neg hne]
  rfl

theorem pathLoop_null (delim : List α) (fuel : ℕ) (hp : st.bufp = none) : ∃ st',
    pathLoop delim (fuel + 1) st = some st' ∧ st'.i = st.i ∧ st'.buf = st.buf ∧
      ∀ j < st.i, st'.ldpaths j = st.ldpaths j := by
  rw [pathLoop, strsep, hp]
  split_ifs with hi
  · exact ⟨_, rfl, rfl, rfl, fun j hj => Function.update_of_ne hj.ne _ _⟩
  · exact ⟨st, rfl, rfl, rfl, fun j _ => rfl⟩

theorem push_i (st : State α) (h : Holds buf b s) (bufp : Option ℕ) :
    (st.push b buf bufp).i = st.i + ([s].filter (!·.isEmpty)).length := by
  cases s with
  | nil => exact if_neg (not_not.mpr h.ends)
  | cons x s => exact if_pos (h.ne_zero (i := 0) (Nat.succ_pos s.length))

theorem Found.push {ts : List (List α)} {bufp : Option ℕ}
    (h : Found (st.push b buf bufp) b' ts st') (hi : st.i < LDPATH_MAX) (hs : Holds buf b s)
    (hb : b + s.length < b') (hbuf : ∀ a < b, buf a = st.buf a) :
    Found st b ([s].filter (!·.isEmpty) ++ ts) st' := by
  have hpi := push_i st hs bufp
  have hearlier (j : ℕ) (hj : j < st.i) : st'.ldpaths j = st.ldpaths j := by
    rw [h.earlier j (by omega)]
    exact Function.update_of_ne hj.ne _ _
  have hbelow (a : ℕ) (ha : a < b) : st'.buf a = st.buf a :=
    (h.below a (by omega)).trans (hbuf a ha)
  cases s with
  | nil =>
    have hsame : (st.push b buf bufp).i = st.i := hpi
    have hii := h.i
    have hentry := h.entry
    rw [hsame] at hii hentry
    exact ⟨hii, hearlier, hbelow, hentry⟩
  | cons x s =>
    have hnext : (st.push b buf bufp).i = st.i + 1 := hpi
    have htake : ((x :: s) :: ts).take (LDPATH_MAX - st.i) =
        (x :: s) :: ts.take (LDPATH_MAX - (st.i + 1)) := by
      rw [show LDPATH_MAX - st.i = LDPATH_MAX - (st.i + 1) + 1 by omega, List.take_succ_cons]
    have hii := h.i
    have hentry := h.entry
    rw [hnext] at hii hentry
    change Found st b ((x :: s) :: ts) st'
    refine ⟨?_, hearlier, hbelow, fun j t ht => ?_⟩
    · rw [hii, htake, List.length_cons]
      omega
    · rw [htake] at ht
      cases j with
      | zero =>
        refine ⟨b, ?_, ?_⟩
        · rw [Nat.add_zero, h.earlier st.i (by omega)]
          exact Function.update_self _ _ _
        · rw [← Option.some.inj ht]
          exact hs.congr fun a _ ha => h.below a (by omega)
      | succ j =>
        obtain ⟨q, hq, hheld⟩ := hentry j t ht
        exact ⟨q, by rwa [Nat.add_right_comm] at hq, hheld⟩

/-- The last character of the buffer's string is a zero afterwards if it is a delimiter to
which the loop came. -/
def LastCut (delim : List α) (st : State α) (b : ℕ) (rest : List α) (st' : State α) : Prop :=
  ∀ r x, rest = r ++ [x] → (st'.buf (b + r.length) = 0 ↔
    isDelim delim x ∧ st.i + (ended (isDelim delim) r).length < LDPATH_MAX)

theorem pathLoop_full {rest : List α} (hi : LDPATH_MAX ≤ st.i) (h : Holds st.buf b rest) :
    pathLoop delim (fuel + 1) st = some st ∧
      Found st b (pieces (isDelim delim) rest) st ∧ LastCut delim st b rest st := by
  refine ⟨if_neg (Nat.not_lt_of_le hi), found_null rfl rfl (fun _ _ => rfl) ?_ b, ?_⟩
  · rw [Nat.sub_eq_zero_of_le hi, List.take_zero]
  · rintro r x rfl
    have hne : st.buf (b + r.length) ≠ 0 :=
      h.ne_zero (by rw [List.length_append, List.length_singleton]; omega)
    exact iff_of_false hne fun h => by omega

/-- The induction is on the segments; a pass that finds the table full ends it early. -/
theorem pathLoop_split {rest : List α} {segs : List (List α)}
    (hsplit : Split (isDelim delim) rest segs) (hp : st.bufp = some b) (h : Holds st.buf b rest)
    (hf : rest.length + 2 ≤ fuel) :
    ∃ st', pathLoop delim fuel st = some st' ∧
      Found st b (pieces (isDelim delim) rest) st' ∧ LastCut delim st b rest st' := by
  induction hsplit generalizing st b fuel with
  | @last s hs =>
    obtain ⟨fuel, rfl⟩ := Nat.exists_eq_add_of_le' (Nat.le_of_add_left_le hf)
    rcases Nat.lt_or_ge st.i LDPATH_MAX with hi | hi
    · obtain ⟨st', hrun, hsi, hbuf, hearlier⟩ :=
        pathLoop_null delim fuel (show (st.push b st.buf none).bufp = none from rfl)
      refine ⟨st', ?_, ?_, ?_⟩
      · rw [pathLoop_last hi hp hs h (by omega), hrun]
      · have hnull : Found (st.push b st.buf none) (b + s.length + 1) [] st' :=
          found_null hsi hbuf hearlier List.take_nil _
        rw [pieces_of_clean hs, ← List.append_nil (List.filter _ _)]
        exact hnull.push hi h (Nat.lt_succ_self _) fun _ _ => rfl
      · rintro r x rfl
        have hne : st.buf (b + r.length) ≠ 0 :=
          h.ne_zero (by rw [List.length_append, List.length_singleton]; omega)
        have hx : isDelim delim x = false := hs x (List.mem_append_right r List.mem_cons_self)
        rw [hbuf]
        exact iff_of_false hne fun hd => by rw [hx] at hd; exact Bool.false_ne_true hd.1
    · exact ⟨st, pathLoop_full hi h⟩
  | @next s r d segs hs hd hr ih =>
    rw [List.length_append, List.length_cons] at hf
    obtain ⟨fuel, rfl⟩ := Nat.exists_eq_add_of_le' (Nat.le_of_add_left_le hf)
    rcases Nat.lt_or_ge st.i LDPATH_MAX with hi | hi
    · obtain ⟨htoken, htail⟩ := h.cut
      have hbufp : (st.push b (Function.update st.buf (b + s.length) 0)
        (some (b + s.length + 1))).bufp = some (b + s.length + 1) := rfl
      have hleft : r.length + 2 ≤ fuel + 1 := by omega
      obtain ⟨st', hrun, hfound, hcut⟩ := ih hbufp htail hleft
      refine ⟨st', ?_, ?_, ?_⟩
      · rw [pathLoop_next hi hp hs hd h (by omega), hrun]
      · rw [pieces_append s r hd, pieces_of_clean hs]
        exact hfound.push hi htoken (Nat.lt_succ_self _)
          fun a ha => Function.update_of_ne (by omega) _ _
      · intro r' x hr'
        rcases List.eq_nil_or_concat' r with rfl | ⟨r, y, rfl⟩
        · obtain ⟨rfl, hxd⟩ := List.append_inj' hr' rfl
          obtain rfl : d = x := List.head_eq_of_cons_eq hxd
          rw [hfound.below _ (Nat.lt_succ_self _), ended_of_clean hs]
          exact iff_of_true (Function.update_self _ _ _) ⟨hd, hi⟩
        · rw [← List.cons_append, ← List.append_assoc] at hr'
          obtain ⟨rfl, hxy⟩ := List.append_inj' hr' rfl
          obtain rfl : y = x := List.head_eq_of_cons_eq hxy
          have hlast := hcut r y rfl
          rw [push_i st htoken, ← pieces_of_clean hs] at hlast
          rw [ended_append s r hd, List.length_append, List.length_append, List.length_cons,
            ← Nat.add_assoc st.i, show b + (s.length + (r.length + 1)) =
              b + s.length + 1 + r.length by omega]
          exact hlast
    · exact ⟨st, pathLoop_full hi h⟩

/-- The segments that the buffer does not cut off. -/
noncomputable def surviving (delim path : List α) : List (List α) :=
  if path.length < LDPATH_BUFSIZE then pieces (isDelim delim) path
  else ended (isDelim delim) (path.take (LDPATH_BUFSIZE - 1))

theorem parse_eq (ldpaths : ℕ → Option ℕ) (buf : ℕ → α) (delim : List α) (h : Holds mem p path)
    (hf : path.length + LDPATH_BUFSIZE < fuel) : ∃ st st',
      dlParseLibraryPath fuel buf ldpaths mem p delim = some (forget st' path.length) ∧
      st.i = 0 ∧
      Found st 0 (pieces (isDelim delim) (path.take (LDPATH_BUFSIZE - 1))) st' ∧
      LastCut delim st 0 (path.take (LDPATH_BUFSIZE - 1)) st' := by
  have hcopy : Holds (copied buf 0 path LDPATH_BUFSIZE) 0 (path.take (LDPATH_BUFSIZE - 1)) :=
    holds_write buf 0 fun h0 => h.nonzero (List.mem_of_mem_take h0)
  have hlen := List.length_take_le (LDPATH_BUFSIZE - 1) path
  have hbufp : (State.mk (copied buf 0 path LDPATH_BUFSIZE) (some 0) ldpaths 0).bufp = some 0 := rfl
  have hfuel : (path.take (LDPATH_BUFSIZE - 1)).length + 2 ≤ fuel := by
    rw [LDPATH_BUFSIZE] at hf hlen ⊢
    omega
  obtain ⟨st', hrun, hfound, hcut⟩ :=
    pathLoop_split (split_splitOnP (isDelim delim) _) hbufp hcopy hfuel
  refine ⟨_, st', ?_, rfl, hfound, hcut⟩
  rw [dlParseLibraryPath, strlcpy_eq h (by omega), Option.bind_some, hrun]
  rfl

theorem Found.kept {len : ℕ} (h : Found st b ts st') (hi : st.i = 0)
    (hk : LDPATH_BUFSIZE ≤ len → st'.buf (LDPATH_BUFSIZE - 2) = 0) :
    Entries (forget st' len) (ts.take LDPATH_MAX) := by
  have hnot : ¬ (0 < st'.i ∧ LDPATH_BUFSIZE ≤ len ∧ st'.buf (LDPATH_BUFSIZE - 2) ≠ 0) :=
    fun hc => hc.2.2 (hk hc.2.1)
  have htake : ts.take (ts.take LDPATH_MAX).length = ts.take LDPATH_MAX := by
    rw [List.length_take, ← List.take_eq_take_min]
  have hentries := h.entries hi (Nat.le_refl _)
  rw [htake, ← h.count hi] at hentries
  rwa [forget, if_neg hnot]

theorem Found.dropped {len : ℕ} (h : Found st b ts st') (hi : st.i = 0) (hts : ts ≠ [])
    (hlen : LDPATH_BUFSIZE ≤ len) (hbuf : st'.buf (LDPATH_BUFSIZE - 2) ≠ 0) :
    Entries (forget st' len) (ts.take ((ts.take LDPATH_MAX).length - 1)) := by
  have hpos : 0 < st'.i := by
    rw [h.count hi, List.length_take]
    exact lt_min (by decide) (List.length_pos_of_ne_nil hts)
  have hentries := h.entries hi (Nat.sub_le _ 1)
  rw [← h.count hi] at hentries ⊢
  rwa [forget, if_pos ⟨hpos, hlen, hbuf⟩]

/-- Fewer than eight segments have ended in front of the buffer's last two characters, or
the path fits. -/
def Roomy (delim path : List α) : Prop :=
  path.length < LDPATH_BUFSIZE ∨
    (ended (isDelim delim) (path.take (LDPATH_BUFSIZE - 2))).length < LDPATH_MAX

theorem parse_kept (ldpaths : ℕ → Option ℕ) (buf : ℕ → α) (h : Holds mem p path)
    (hf : path.length + LDPATH_BUFSIZE < fuel) (hroom : Roomy delim path) : ∃ st,
      dlParseLibraryPath fuel buf ldpaths mem p delim = some st ∧
      Entries st ((surviving delim path).take LDPATH_MAX) := by
  obtain ⟨st, st', hrun, hi, hfound, hcut⟩ := parse_eq ldpaths buf delim h hf
  refine ⟨_, hrun, ?_⟩
  rw [surviving]
  split_ifs with hlen
  · rw [List.take_of_length_le (by rw [LDPATH_BUFSIZE] at hlen ⊢; omega)] at hfound
    exact hfound.kept hi fun hle => absurd hle (Nat.not_le_of_lt hlen)
  · have hlong := Nat.le_of_not_lt hlen
    have hfew := hroom.resolve_left hlen
    obtain ⟨x, hx⟩ := take_concat hlong
    have hbuf := hcut _ x hx
    rw [List.length_take_of_le (Nat.le_trans (by decide) hlong), Nat.zero_add, hi,
      Nat.zero_add] at hbuf
    rw [hx] at hfound ⊢
    cases hd : isDelim delim x with
    | true =>
      rw [ended_concat_sep _ hd]
      rw [pieces_concat_sep _ hd] at hfound
      exact hfound.kept hi fun _ => hbuf.mpr ⟨hd, hfew⟩
    | false =>
      obtain ⟨t, ht⟩ := pieces_concat (path.take (LDPATH_BUFSIZE - 2)) hd
      rw [ended_concat _ hd]
      rw [ht] at hfound
      have hall : (ended (isDelim delim) (path.take (LDPATH_BUFSIZE - 2)) ++ [t]).take LDPATH_MAX =
          ended (isDelim delim) (path.take (LDPATH_BUFSIZE - 2)) ++ [t] := by
        apply List.take_of_length_le
        rw [List.length_append, List.length_singleton]
        exact hfew
      have hdrop := hfound.dropped hi (List.append_ne_nil_of_right_ne_nil _ (List.cons_ne_nil t []))
        hlong fun h0 => Bool.false_ne_true (hd.symm.trans (hbuf.mp h0).1)
      rw [hall, List.length_append, List.length_singleton, Nat.add_sub_cancel,
        List.take_left' rfl] at hdrop
      rwa [List.take_of_length_le hfew.le]

theorem parse_dropped (ldpaths : ℕ → Option ℕ) (buf : ℕ → α) (h : Holds mem p path)
    (hf : path.length + LDPATH_BUFSIZE < fuel) (hroom : ¬ Roomy delim path) : ∃ st,
      dlParseLibraryPath fuel buf ldpaths mem p delim = some st ∧
      LDPATH_MAX ≤ (surviving delim path).length ∧
      Entries st ((surviving delim path).take (LDPATH_MAX - 1)) := by
  obtain ⟨st, st', hrun, hi, hfound, hcut⟩ := parse_eq ldpaths buf delim h hf
  obtain ⟨hlen, hmany⟩ := not_or.mp hroom
  have hlong := Nat.le_of_not_lt hlen
  have hmany := Nat.le_of_not_lt hmany
  obtain ⟨x, hx⟩ := take_concat hlong
  have hbuf := hcut _ x hx
  rw [List.length_take_of_le (Nat.le_trans (by decide) hlong), Nat.zero_add, hi,
    Nat.zero_add] at hbuf
  have hne : st'.buf (LDPATH_BUFSIZE - 2) ≠ 0 := fun h0 => Nat.not_lt_of_le hmany (hbuf.mp h0).2
  rw [surviving, if_neg hlen, hx]
  rw [hx] at hfound
  generalize path.take (LDPATH_BUFSIZE - 2) = r at hmany hfound ⊢
  have hsub := ended_length_le (p := isDelim delim) (s := r)
  have hdrop (hfull : LDPATH_MAX ≤ (pieces (isDelim delim) (r ++ [x])).length) :
      Entries (forget st' path.length)
        ((pieces (isDelim delim) (r ++ [x])).take (LDPATH_MAX - 1)) := by
    have hentries := hfound.dropped hi
      (List.ne_nil_of_length_pos (Nat.lt_of_lt_of_le (by decide) hfull)) hlong hne
    rwa [List.length_take_of_le hfull] at hentries
  refine ⟨_, hrun, ?_⟩
  cases hd : isDelim delim x with
  | true =>
    rw [ended_concat_sep _ hd]
    rw [pieces_concat_sep _ hd] at hdrop
    exact ⟨hmany.trans hsub, hdrop (hmany.trans hsub)⟩
  | false =>
    obtain ⟨t, ht⟩ := pieces_concat r hd
    rw [ended_concat _ hd]
    rw [ht, List.take_append_of_le_length (Nat.le_trans (Nat.sub_le _ 1) hmany)] at hdrop
    exact ⟨hmany, hdrop (by rw [List.length_append]; omega)⟩

theorem library_path_right_iff (ldpaths : ℕ → Option ℕ) (buf : ℕ → α) (delim : List α)
    (h : Holds mem p path)
    (hf : path.length + LDPATH_BUFSIZE < fuel) : ∃ st,
      dlParseLibraryPath fuel buf ldpaths mem p delim = some st ∧
      (Entries st ((surviving delim path).take LDPATH_MAX) ↔ path.length < LDPATH_BUFSIZE ∨
        (ended (isDelim delim) (path.take (LDPATH_BUFSIZE - 2))).length < LDPATH_MAX) := by
  by_cases hroom : Roomy delim path
  · obtain ⟨st, hrun, hright⟩ := parse_kept ldpaths buf h hf hroom
    exact ⟨st, hrun, iff_of_true hright hroom⟩
  · obtain ⟨st, hrun, hfull, hseven⟩ := parse_dropped ldpaths buf h hf hroom
    refine ⟨st, hrun, iff_of_false (fun height => ?_) hroom⟩
    have hlen := congrArg List.length (height.unique hseven)
    rw [List.length_take_of_le hfull,
      List.length_take_of_le (Nat.le_trans (Nat.sub_le _ 1) hfull)] at hlen
    exact absurd hlen (by decide)

theorem two_entries_right : ∃ st,
    dlParseLibraryPath 517 (fun _ => 7) (fun _ => some 3)
      (write (fun _ => 7) 9 ([97, 58, 58, 98] ++ [0])) 9 [(58 : BitVec 8)] = some st ∧
    Entries st [[97], [98]] := by
  have hheld := holds_write (fun _ => (7 : BitVec 8)) 9 (s := [97, 58, 58, 98]) (by decide)
  have hfuel : [(97 : BitVec 8), 58, 58, 98].length + LDPATH_BUFSIZE < 517 := by decide
  obtain ⟨st, hrun, hright⟩ :=
    library_path_right_iff (fun _ => some 3) (fun _ => 7) [58] hheld hfuel
  have htwo : (surviving [(58 : BitVec 8)] [97, 58, 58, 98]).take LDPATH_MAX = [[97], [98]] := by
    decide
  exact ⟨st, hrun, htwo ▸ hright.mpr (.inl (by decide))⟩

def ninePath : List (BitVec 8) := (List.replicate 8 [97, 58]).flatten ++ List.replicate 500 98

theorem ninePath_length : ninePath.length = 516 := by
  rw [ninePath, List.length_append, List.length_replicate]
  rfl

theorem ninePath_nonzero : 0 ∉ ninePath := by
  rw [ninePath, List.mem_append, List.mem_replicate]
  rintro (h | h)
  · exact absurd h (by decide)
  · exact absurd h.2 (by decide)

theorem ended_repeated (n : ℕ) {t : List (BitVec 8)} (ht : ∀ x ∈ t, isDelim [58] x = false) :
    ended (isDelim [58]) ((List.replicate n [97, 58]).flatten ++ t) = List.replicate n [97] := by
  induction n with
  | zero => exact ended_of_clean ht
  | succ n ih =>
    rw [List.replicate_succ, List.flatten_cons, List.append_assoc, List.replicate_succ, ← ih]
    exact ended_append [97] _ rfl

theorem ended_ninePath {n : ℕ} (h : 16 ≤ n) :
    ended (isDelim [58]) (ninePath.take n) = List.replicate 8 [97] := by
  rw [ninePath, List.take_append, List.take_of_length_le h, List.take_replicate]
  exact ended_repeated 8 fun x hx => by rw [(List.mem_replicate.mp hx).2]; rfl

/-- The ninth entry does not fit, and the eighth one is forgotten for it. -/
theorem eighth_entry_forgotten : ∃ st,
    dlParseLibraryPath 1029 (fun _ => 0) (fun _ => none)
      (write (fun _ => 0) 0 (ninePath ++ [0])) 0 [58] = some st ∧
    (surviving [58] ninePath).take LDPATH_MAX = List.replicate 8 [97] ∧
    ¬ Entries st (List.replicate 8 [97]) ∧ Entries st (List.replicate 7 [97]) := by
  have hsurviving : surviving [58] ninePath = List.replicate 8 [97] := by
    rw [surviving, if_neg (by rw [ninePath_length]; decide)]
    exact ended_ninePath (by decide)
  have hroom : ¬ Roomy [58] ninePath := by
    rw [Roomy, ninePath_length, ended_ninePath (by decide)]
    decide
  have hfuel : ninePath.length + LDPATH_BUFSIZE < 1029 := by
    rw [ninePath_length]
    decide
  obtain ⟨st, hrun, -, hseven⟩ := parse_dropped (fun _ => none) (fun _ => 0)
    (holds_write (fun _ => 0) 0 ninePath_nonzero) hfuel hroom
  rw [hsurviving] at hseven ⊢
  refine ⟨st, hrun, rfl, fun height => ?_, hseven⟩
  exact absurd (congrArg List.length (height.unique hseven)) (by decide)

end Bionic.LibraryPath
