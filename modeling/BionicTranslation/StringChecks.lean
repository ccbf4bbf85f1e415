import BionicTranslation.CStrings

/-!
# `__strchr_chk` and `__strrchr_chk`

Both walk along the string and count `s_len` down. What they compare with `ch`, an `int`, is the
character after its promotion; whether `char` has a sign depends on the target.
-/

set_option autoImplicit false

namespace Bionic.StringChecks
open Bionic.CStrings

abbrev Byte := BitVec 8

inductive Result where
  | aborted (message : String)
  | returned (p : Option ℕ)
  deriving DecidableEq, Repr

structure Outcome where
  result : Result
  reads : List ℕ
  deriving DecidableEq, Repr

def Outcome.read (p : ℕ) (o : Outcome) : Outcome := { o with reads := p :: o.reads }

def promote (signed : Bool) (x : Byte) : BitVec 32 :=
  if signed then x.signExtend 32 else x.setWidth 32

def overrun : String := "*** strchr buffer overrun detected ***\n"

def strchrChk (signed : Bool) (mem : ℕ → Byte) (ch : BitVec 32) : ℕ → ℕ → Outcome
  | 0, _ => ⟨.aborted overrun, []⟩
  | sLen + 1, p =>
    if promote signed (mem p) = ch then ⟨.returned (some p), [p]⟩
    else if mem p = 0 then ⟨.returned none, [p]⟩
    else (strchrChk signed mem ch sLen (p + 1)).read p

def strrchrLoop (signed : Bool) (mem : ℕ → Byte) (ch : BitVec 32) :
    ℕ → ℕ → Option ℕ → Outcome
  | 0, _, _ => ⟨.aborted overrun, []⟩
  | sLen + 1, p, save =>
    if promote signed (mem p) = ch then
      (strrchrLoop signed mem ch sLen (p + 1) (some p)).read p
    else if mem p = 0 then ⟨.returned save, [p]⟩
    else (strrchrLoop signed mem ch sLen (p + 1) save).read p

def strrchrChk (signed : Bool) (mem : ℕ → Byte) (ch : BitVec 32) (sLen p : ℕ) : Outcome :=
  strrchrLoop signed mem ch sLen p none

variable {c x : Byte} {l t : List Byte} {i : ℕ}

def places (c : Byte) (l : List Byte) : Set ℕ := {i | l[i]? = some c}

theorem isLeast_places_self (c : Byte) (l : List Byte) : IsLeast (places c (c :: l)) 0 :=
  ⟨rfl, fun i _ => Nat.zero_le i⟩

theorem isLeast_places_cons (hx : x ≠ c) (h : IsLeast (places c l) i) :
    IsLeast (places c (x :: l)) (i + 1) := by
  refine ⟨h.1, fun j hj => ?_⟩
  cases j with
  | zero => exact absurd (Option.some.inj hj) hx
  | succ j => exact Nat.succ_le_succ (h.2 hj)

theorem isGreatest_places_cons (x : Byte) (h : IsGreatest (places c l) i) :
    IsGreatest (places c (x :: l)) (i + 1) := by
  refine ⟨h.1, fun j hj => ?_⟩
  cases j with
  | zero => exact Nat.zero_le _
  | succ j => exact Nat.succ_le_succ (h.2 hj)

theorem isGreatest_places_self (h : c ∉ l) : IsGreatest (places c (c :: l)) 0 := by
  refine ⟨rfl, fun j hj => ?_⟩
  cases j with
  | zero => exact Nat.le_refl 0
  | succ j => exact absurd (List.mem_of_getElem? (show l[j]? = some c from hj)) h

/-- The result for the string `t` at `p`: no pointer if `ch`, as a character, is not there, and
else a pointer to the one of its places that is `best`. -/
def Points (best : Set ℕ → ℕ → Prop) (t : List Byte) (ch : BitVec 32) (p : ℕ)
    (r : Option ℕ) : Prop :=
  r.elim (ch.setWidth 8 ∉ t ++ [0])
    fun q => ∃ i, q = p + i ∧ best (places (ch.setWidth 8) (t ++ [0])) i

/-- The call returns such a result, and reads nothing behind the terminator. -/
def Answers (best : Set ℕ → ℕ → Prop) (t : List Byte) (ch : BitVec 32) (p : ℕ)
    (o : Outcome) : Prop :=
  ∃ r, o.result = .returned r ∧ Points best t ch p r ∧ ∀ q ∈ o.reads, p ≤ q ∧ q ≤ p + t.length

variable {signed : Bool} {mem : ℕ → Byte} {ch : BitVec 32} {sLen p : ℕ} {save : Option ℕ}

theorem setWidth_promote (signed : Bool) (x : Byte) : (promote signed x).setWidth 8 = x := by
  ext i hi
  cases signed with
  | false => simp [promote]
  | true =>
    rw [BitVec.getElem_setWidth, promote, if_pos rfl, BitVec.getLsbD_signExtend]
    simp [hi, show i < 32 by omega]

theorem promote_zero (signed : Bool) : promote signed 0 = 0 := by
  cases signed <;> rfl

theorem eq_of_promote (h : promote signed x = ch) : x = ch.setWidth 8 := by
  rw [← h, setWidth_promote]

theorem promote_eq_iff (hc : promote signed (ch.setWidth 8) = ch) :
    promote signed x = ch ↔ x = ch.setWidth 8 :=
  ⟨eq_of_promote, fun h => h ▸ hc⟩

theorem promote_ne (hch : ¬ (promote signed (ch.setWidth 8) = ch ∧ ch.setWidth 8 ∈ l)) :
    ∀ x ∈ l, promote signed x ≠ ch := by
  intro x hx heq
  apply hch
  have h := eq_of_promote heq
  exact ⟨h ▸ heq, h ▸ hx⟩

theorem returned_of_passing {f : ℕ → ℕ → Outcome}
    (hf : ∀ n q, mem q ∈ t ++ [0] → f (n + 1) q =
      if mem q = 0 then ⟨.returned save, [q]⟩ else (f n (q + 1)).read q)
    (h : Holds mem p t) (hlen : t.length < sLen) :
    f sLen p = ⟨.returned save, List.range' p (t.length + 1)⟩ := by
  induction h, hlen using Holds.walk with
  | @stop p _ _ hz =>
    have hin : mem p ∈ [] ++ [0] := List.mem_singleton.mpr hz
    rw [hf _ p hin, if_pos hz]
    rfl
  | @step p sLen x t h _ ih =>
    have hx : mem p ∈ x :: t ++ [0] := h.chars.1 ▸ List.mem_cons_self
    rw [hf sLen p hx, if_neg h.head_ne, ih fun n q hq => hf n q (List.mem_cons_of_mem x hq)]
    rfl

theorem strchrChk_found (hc : promote signed (ch.setWidth 8) = ch) (h : Holds mem p t)
    (hmem : ch.setWidth 8 ∈ t ++ [0]) (hlen : t.length < sLen) :
    ∃ i, strchrChk signed mem ch sLen p = ⟨.returned (some (p + i)), List.range' p (i + 1)⟩ ∧
      i ≤ t.length ∧ IsLeast (places (ch.setWidth 8) (t ++ [0])) i := by
  induction h, hlen using Holds.walk with
  | stop _ hz =>
    have h0 : ch.setWidth 8 = 0 := List.mem_singleton.mp hmem
    refine ⟨0, ?_, Nat.le_refl 0, h0 ▸ isLeast_places_self 0 []⟩
    rw [strchrChk, if_pos ((promote_eq_iff hc).mpr (hz.trans h0.symm))]
    rfl
  | @step p _ x t h _ ih =>
    by_cases hx : x = ch.setWidth 8
    · refine ⟨0, ?_, Nat.zero_le _, hx ▸ isLeast_places_self x _⟩
      rw [strchrChk, h.chars.1, if_pos ((promote_eq_iff hc).mpr hx)]
      rfl
    · obtain ⟨i, hrun, hi, hleast⟩ := ih (List.mem_of_ne_of_mem (Ne.symm hx) hmem)
      refine ⟨i + 1, ?_, Nat.succ_le_succ hi, isLeast_places_cons hx hleast⟩
      have hne : ¬ promote signed (mem p) = ch := by
        rw [promote_eq_iff hc, h.chars.1]
        exact hx
      rw [strchrChk, if_neg hne, if_neg h.head_ne, hrun, Outcome.read, ← List.range'_succ,
        show p + 1 + i = p + (i + 1) by omega]

theorem strchrChk_null (hne : ∀ x ∈ t ++ [0], promote signed x ≠ ch) (h : Holds mem p t)
    (hlen : t.length < sLen) :
    strchrChk signed mem ch sLen p = ⟨.returned none, List.range' p (t.length + 1)⟩ := by
  apply returned_of_passing _ h hlen
  intro n q hq
  rw [strchrChk, if_neg (hne (mem q) hq)]

theorem strchrChk_abort (h : ∀ i < sLen, mem (p + i) ≠ 0 ∧ promote signed (mem (p + i)) ≠ ch) :
    strchrChk signed mem ch sLen p = ⟨.aborted overrun, List.range' p sLen⟩ := by
  induction sLen generalizing p with
  | zero => rfl
  | succ sLen ih =>
    have hfirst : mem p ≠ 0 ∧ promote signed (mem p) ≠ ch := h 0 (Nat.succ_pos sLen)
    rw [strchrChk, if_neg hfirst.2, if_neg hfirst.1, ih fun i hi => ?_]
    · rfl
    · rw [show p + 1 + i = p + (i + 1) by omega]
      exact h (i + 1) (Nat.succ_lt_succ hi)

theorem strrchrLoop_succ (h : mem p = 0 → promote signed (mem p) = ch) :
    strrchrLoop signed mem ch (sLen + 1) p save = (strrchrLoop signed mem ch sLen (p + 1)
      (if promote signed (mem p) = ch then some p else save)).read p := by
  rw [strrchrLoop]
  by_cases hmatch : promote signed (mem p) = ch
  · rw [if_pos hmatch, if_pos hmatch]
  · rw [if_neg hmatch, if_neg hmatch, if_neg (mt h hmatch)]

theorem strrchrLoop_null (hne : ∀ x ∈ t ++ [0], promote signed x ≠ ch) (h : Holds mem p t)
    (hlen : t.length < sLen) :
    strrchrLoop signed mem ch sLen p save =
      ⟨.returned save, List.range' p (t.length + 1)⟩ := by
  apply returned_of_passing (f := fun n q => strrchrLoop signed mem ch n q save) _ h hlen
  intro n q hq
  rw [strrchrLoop, if_neg (hne (mem q) hq)]

/-- A character other than the terminator is found at its last place, whatever was saved
before. -/
theorem strrchrLoop_found (hc : promote signed (ch.setWidth 8) = ch) (hch : ch ≠ 0)
    (h : Holds mem p t) (hmem : ch.setWidth 8 ∈ t) (hlen : t.length < sLen) :
    ∃ i, strrchrLoop signed mem ch sLen p save =
        ⟨.returned (some (p + i)), List.range' p (t.length + 1)⟩ ∧
      IsGreatest (places (ch.setWidth 8) (t ++ [0])) i := by
  induction h, hlen using Holds.walk generalizing save with
  | stop _ _ => cases hmem
  | @step p sLen x t h hlen ih =>
    rw [strrchrLoop_succ fun h0 => absurd h0 h.head_ne]
    by_cases hlast : ch.setWidth 8 ∈ t
    · obtain ⟨i, hrun, hgreatest⟩ := ih hlast
      refine ⟨i + 1, ?_, isGreatest_places_cons x hgreatest⟩
      rw [hrun, Outcome.read, ← List.range'_succ, show p + 1 + i = p + (i + 1) by omega]
      rfl
    · have hx : x = ch.setWidth 8 := ((List.mem_cons.mp hmem).resolve_right hlast).symm
      have hnot : ch.setWidth 8 ∉ t ++ [0] := by
        rw [List.mem_append, List.mem_singleton]
        rintro (hin | h0)
        · exact hlast hin
        · exact hch (by rw [← hc, h0, promote_zero])
      have hmatch : promote signed (mem p) = ch := by rw [h.chars.1, hx, hc]
      refine ⟨0, ?_, hx ▸ isGreatest_places_self (hx ▸ hnot)⟩
      rw [if_pos hmatch, strrchrLoop_null (promote_ne fun hin => hnot hin.2) h.tail hlen]
      rfl

theorem strrchrLoop_abort (h : ∀ i < sLen, mem (p + i) = 0 → promote signed (mem (p + i)) = ch) :
    strrchrLoop signed mem ch sLen p save = ⟨.aborted overrun, List.range' p sLen⟩ := by
  induction sLen generalizing p save with
  | zero => rfl
  | succ sLen ih =>
    have hfirst : mem p = 0 → promote signed (mem p) = ch := h 0 (Nat.succ_pos sLen)
    rw [strrchrLoop_succ hfirst, ih fun i hi => ?_]
    · rfl
    · rw [show p + 1 + i = p + (i + 1) by omega]
      exact h (i + 1) (Nat.succ_lt_succ hi)

theorem answers_of_found {best : Set ℕ → ℕ → Prop} {n : ℕ}
    (hbest : best (places (ch.setWidth 8) (t ++ [0])) i) (hn : n ≤ t.length + 1) :
    Answers best t ch p ⟨.returned (some (p + i)), List.range' p n⟩ := by
  refine ⟨some (p + i), rfl, ⟨i, rfl, hbest⟩, fun q hq => ?_⟩
  have hq := List.mem_range'_1.mp hq
  omega

theorem answers_null_iff {best : Set ℕ → ℕ → Prop} :
    Answers best t ch p ⟨.returned none, List.range' p (t.length + 1)⟩ ↔
      ch.setWidth 8 ∉ t ++ [0] := by
  constructor
  · rintro ⟨r, hr, hpoints, -⟩
    obtain rfl := Result.returned.inj hr
    exact hpoints
  · refine fun hnot => ⟨none, rfl, hnot, fun q hq => ?_⟩
    have hq := List.mem_range'_1.mp hq
    omega

theorem strchrChk_answers_iff (h : Holds mem p t) (hlen : t.length < sLen) :
    Answers IsLeast t ch p (strchrChk signed mem ch sLen p) ↔
      promote signed (ch.setWidth 8) = ch ∨ ch.setWidth 8 ∉ t ++ [0] := by
  by_cases hfound : promote signed (ch.setWidth 8) = ch ∧ ch.setWidth 8 ∈ t ++ [0]
  · obtain ⟨i, hrun, hi, hleast⟩ := strchrChk_found hfound.1 h hfound.2 hlen
    rw [hrun]
    exact iff_of_true (answers_of_found hleast (Nat.succ_le_succ hi)) (.inl hfound.1)
  · rw [strchrChk_null (promote_ne hfound) h hlen, answers_null_iff]
    exact ⟨.inr, fun hor => hor.elim (fun hc hin => hfound ⟨hc, hin⟩) id⟩

theorem strrchrChk_answers_iff (h : Holds mem p t) (hlen : t.length < sLen) :
    Answers IsGreatest t ch p (strrchrChk signed mem ch sLen p) ↔
      ch ≠ 0 ∧ (promote signed (ch.setWidth 8) = ch ∨ ch.setWidth 8 ∉ t ++ [0]) := by
  rw [strrchrChk]
  by_cases hch : ch = 0
  · subst hch
    rw [strrchrLoop_abort fun i _ h0 => by rw [h0, promote_zero]]
    exact iff_of_false (fun ⟨_, hr, _⟩ => Result.noConfusion hr) fun hand => hand.1 rfl
  rw [and_iff_right hch]
  by_cases hfound : promote signed (ch.setWidth 8) = ch ∧ ch.setWidth 8 ∈ t ++ [0]
  · have hmem : ch.setWidth 8 ∈ t := by
      apply (List.mem_append.mp hfound.2).resolve_right
      intro h0
      exact hch (by rw [← hfound.1, List.mem_singleton.mp h0, promote_zero])
    obtain ⟨i, hrun, hgreatest⟩ := strrchrLoop_found hfound.1 hch h hmem hlen
    rw [hrun]
    exact iff_of_true (answers_of_found hgreatest (Nat.le_refl _)) (.inl hfound.1)
  · rw [strrchrLoop_null (promote_ne hfound) h hlen, answers_null_iff]
    exact ⟨.inr, fun hor => hor.elim (fun hc hin => hfound ⟨hc, hin⟩) id⟩

/-- On a string that is shorter than `s_len` the calls are right just when `ch` is the value of a
character or that character is not there; `__strrchr_chk` also needs `ch` not to be 0. Without
a terminator both abort, after the `s_len` bytes. -/
theorem chk_answers_iff (signed : Bool) :
    (∀ mem p t ch sLen, Holds mem p t → t.length < sLen →
      (Answers IsLeast t ch p (strchrChk signed mem ch sLen p) ↔
        promote signed (ch.setWidth 8) = ch ∨ ch.setWidth 8 ∉ t ++ [0]) ∧
      (Answers IsGreatest t ch p (strrchrChk signed mem ch sLen p) ↔
        ch ≠ 0 ∧ (promote signed (ch.setWidth 8) = ch ∨ ch.setWidth 8 ∉ t ++ [0]))) ∧
    ∀ mem p ch sLen, (∀ i < sLen, mem (p + i) ≠ 0) →
      ((∀ i < sLen, mem (p + i) ≠ ch.setWidth 8) →
        strchrChk signed mem ch sLen p = ⟨.aborted overrun, List.range' p sLen⟩) ∧
      strrchrChk signed mem ch sLen p = ⟨.aborted overrun, List.range' p sLen⟩ := by
  constructor
  · intro mem p t ch sLen h hlen
    exact ⟨strchrChk_answers_iff h hlen, strrchrChk_answers_iff h hlen⟩
  · intro mem p ch sLen h0
    constructor
    · intro hne
      exact strchrChk_abort fun i hi => ⟨h0 i hi, mt eq_of_promote (hne i hi)⟩
    · exact strrchrLoop_abort fun i hi hz => absurd hz (h0 i hi)

def letterA : ℕ → Byte := write (fun _ => 0) 0 [65, 0]

/-- A character twice, and one between that a signed `char` makes negative. -/
def accented : List Byte := [65, 200, 65]

theorem accented_holds : Holds (write (fun _ => 0) 0 (accented ++ [0])) 0 accented := by
  have h0 : (0 : Byte) ∉ accented := by decide
  exact holds_write _ 0 h0

/-- The first and the last `A` and the terminator are found. Where `char` is signed, the character
between is found under its negative value only. -/
theorem chk_answers_letterA :
    let mem := write (fun _ => 0) 0 (accented ++ [0])
    Answers IsLeast accented 65 0 (strchrChk true mem 65 4 0) ∧
    Answers IsGreatest accented 65 0 (strrchrChk true mem 65 4 0) ∧
    Answers IsLeast accented 0 0 (strchrChk true mem 0 4 0) ∧
    Answers IsLeast accented 0xffffffc8 0 (strchrChk true mem 0xffffffc8 4 0) ∧
    ¬ Answers IsLeast accented 200 0 (strchrChk true mem 200 4 0) ∧
    Answers IsGreatest accented 200 0 (strrchrChk false mem 200 4 0) ∧
    strchrChk true (fun _ => 66) 65 2 0 = ⟨.aborted overrun, [0, 1]⟩ := by
  have hrun := fun signed ch => (chk_answers_iff signed).1 _ 0 accented ch 4 accented_holds
    (by decide)
  refine ⟨(hrun true 65).1.mpr (.inl rfl), (hrun true 65).2.mpr ⟨by decide, .inl rfl⟩,
    (hrun true 0).1.mpr (.inl rfl), (hrun true 0xffffffc8).1.mpr (.inl rfl), fun h => ?_,
    (hrun false 200).2.mpr ⟨by decide, .inl rfl⟩, ?_⟩
  · exact absurd ((hrun true 200).1.mp h) (by decide)
  · have habort := (chk_answers_iff true).2 (fun _ => 66) 0 65 2 fun _ _ => by decide
    exact habort.1 fun _ _ => by decide

/-- The terminator is passed by `__strrchr_chk` when it is looked for, and 256 more than `A` is
no character for `__strchr_chk`. -/
theorem chk_misses :
    (∀ signed, strrchrChk signed letterA 0 2 0 = ⟨.aborted overrun, [0, 1]⟩ ∧
      ¬ Answers IsGreatest [65] 0 0 (strrchrChk signed letterA 0 2 0)) ∧
    ∀ signed, strchrChk signed letterA 321 2 0 = ⟨.returned none, [0, 1]⟩ ∧
      ¬ Answers IsLeast [65] 321 0 (strchrChk signed letterA 321 2 0) := by
  constructor
  · intro signed
    have habort : strrchrChk signed letterA 0 2 0 = ⟨.aborted overrun, [0, 1]⟩ := by
      cases signed <;> decide
    refine ⟨habort, ?_⟩
    rw [habort]
    exact fun ⟨_, hr, _⟩ => Result.noConfusion hr
  · intro signed
    have hnull : strchrChk signed letterA 321 2 0 = ⟨.returned none, [0, 1]⟩ := by
      cases signed <;> decide
    refine ⟨hnull, ?_⟩
    rw [hnull]
    exact fun hans => answers_null_iff.mp hans (by decide)

end Bionic.StringChecks
