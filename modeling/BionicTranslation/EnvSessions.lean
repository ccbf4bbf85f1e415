import BionicTranslation.EnvInit
import BionicTranslation.Environ
import BionicTranslation.Substrings
import BionicTranslation.Traces

/-!
# The environment in use

After `apkenv_linker_env_init` the block is looked up and cut down by calls in any order. To
their caller it is a map from names to values. It stays inside the part of the block that the
definitions took.
-/

set_option autoImplicit false

namespace Bionic.EnvSessions
open Bionic.CStrings Bionic.Compaction Bionic.EnvInit Bionic.Environ Bionic.Substrings Bionic.Traces
open Bionic.Elf

inductive Request where
  | get (name : Option (List Byte))
  | unset (name : Option (List Byte))
  | secure

section Source
variable {M β : Type*} [Zero β] [DecidableEq β]

def step (S : Slots M β) (text : β → ℕ → Byte) (fuel : ℕ) (m : M) :
    Request → Option (M × Option (Option (β × ℕ)))
  | .get name => (linkerEnvGet S text fuel m name).map fun val => (m, some val)
  | .unset name => (linkerEnvUnset S text fuel m name).map fun m => (m, none)
  | .secure => (linkerEnvSecure S text fuel m).map fun m => (m, none)

end Source

section map
variable {V : Type*}

def erase (vars : List Byte → Option V) (name : List Byte) : List Byte → Option V :=
  Function.update vars name none

def answers : (List Byte → Option V) → List Request → List (Option V)
  | _, [] => []
  | vars, .get name :: reqs => name.bind vars :: answers vars reqs
  | vars, .unset name :: reqs => answers (name.elim vars (erase vars)) reqs
  | vars, .secure :: reqs => answers (unsecVars.foldl erase vars) reqs

end map

def IsName (name : List Byte) : Prop := 0 ∉ name ∧ 61 ∉ name

def Request.Clean : Request → Prop
  | .get name | .unset name => ∀ n ∈ name, IsName n
  | .secure => True

theorem unsecVars_names : ∀ v ∈ unsecVars, IsName v := by
  have hzero : ∀ v ∈ unsecVars, 0 ∉ v := by decide
  exact fun v hv => ⟨hzero v hv, unsecVars_clean v hv⟩

variable {M β : Type*} [Zero β] [DecidableEq β] {S : Slots M β} {text : β → ℕ → Byte}
  {m₀ m : M} {ps : List β} {fuel n : ℕ} {name : List Byte} {vars : List Byte → Option (β × ℕ)}
  {r : Request} {reqs : List Request}

/-- The array of definitions in a memory that from its end at the start on is as it was. -/
structure Keeps (S : Slots M β) (m₀ : M) (n : ℕ) (ps : List β) (m : M) : Prop where
  holds : Holds (S.get m) 0 ps
  length_le : ps.length ≤ n
  behind : ∀ i, n ≤ i → S.get m i = S.get m₀ i

theorem Keeps.unset (h : Keeps S m₀ n ps m) (hf : n < fuel) (text : β → ℕ → Byte)
    (name : List Byte) : ∃ m', linkerEnvUnset S text fuel m (some name) = some m' ∧
      Keeps S m₀ n (without text ps name) m' := by
  by_cases hname : name = []
  · have hall : without text ps name = ps := without_self fun p _ hdef => hdef.1 hname
    exact ⟨m, if_pos hname, by rwa [hall]⟩
  · rw [linkerEnvUnset_eq hname]
    obtain ⟨m', hrun, hheld, hframe⟩ :=
      compact_holds S _ h.holds (Nat.le_refl 0) (h.length_le.trans_lt hf)
    refine ⟨m', hrun, hheld, (List.length_filter_le _ _).trans h.length_le, fun i hi => ?_⟩
    have hle := h.length_le
    rw [hframe i (.inr (by omega)), h.behind i hi]

def Shows (S : Slots M β) (text : β → ℕ → Byte) (m₀ : M) (n : ℕ) (m : M)
    (vars : List Byte → Option (β × ℕ)) : Prop :=
  ∃ ps, Keeps S m₀ n ps m ∧ ∀ name, IsName name → valueOf text ps name = vars name

theorem Shows.get (h : Shows S text m₀ n m vars) (hf : n < fuel) (hname : IsName name) :
    linkerEnvGet S text fuel m (some name) = some (vars name) := by
  obtain ⟨ps, hkeeps, hvars⟩ := h
  rw [linkerEnvGet_eq name hkeeps.holds (hkeeps.length_le.trans_lt hf), hvars name hname]

theorem Shows.unset (h : Shows S text m₀ n m vars) (hf : n < fuel) (hname : IsName name) :
    ∃ m', linkerEnvUnset S text fuel m (some name) = some m' ∧
      Shows S text m₀ n m' (erase vars name) := by
  obtain ⟨ps, hkeeps, hvars⟩ := h
  obtain ⟨m', hrun, hkeeps'⟩ := hkeeps.unset hf text name
  refine ⟨m', hrun, _, hkeeps', fun other hother => ?_⟩
  by_cases hne : other = name
  · rw [hne, erase, Function.update_self]
    exact valueOf_none fun p hp => not_defines_of_mem text ps hp
  · rw [erase, Function.update_of_ne hne, ← hvars other hother]
    exact valueOf_without text ps hne hname.2 hother.2

theorem Shows.secureLoop (h : Shows S text m₀ n m vars) (hf : n < fuel)
    (names : List (List Byte)) (hnames : ∀ v ∈ names, IsName v) :
    ∃ m', secureLoop S text fuel names m = some m' ∧
      Shows S text m₀ n m' (names.foldl erase vars) := by
  induction names generalizing m vars with
  | nil => exact ⟨m, rfl, h⟩
  | cons v names ih =>
    obtain ⟨hv, hrest⟩ := List.forall_mem_cons.mp hnames
    obtain ⟨m₁, hunset, hshows⟩ := h.unset hf hv
    obtain ⟨m', hrun, hshows'⟩ := ih hshows hrest
    refine ⟨m', ?_, hshows'⟩
    rw [Environ.secureLoop, hunset, Option.bind_some, hrun]

/-- The calls give the answers of the map. The induction is on the calls, and each leaves the
array with the map that is left. -/
theorem Shows.run (h : Shows S text m₀ n m vars) (hf : n < fuel)
    (hclean : ∀ r ∈ reqs, r.Clean) :
    ∃ m', run (step S text fuel) m reqs = some (m', answers vars reqs) ∧
      ∀ i, n ≤ i → S.get m' i = S.get m₀ i := by
  induction reqs generalizing m vars with
  | nil =>
    obtain ⟨ps, hkeeps, -⟩ := h
    exact ⟨m, rfl, hkeeps.behind⟩
  | cons r reqs ih =>
    obtain ⟨hr, hrest⟩ := List.forall_mem_cons.mp hclean
    cases r with
    | get name =>
      have hget : linkerEnvGet S text fuel m name = some (name.bind vars) := by
        cases name with
        | none => rfl
        | some name => exact h.get hf (hr name rfl)
      obtain ⟨m', hrun, hbehind⟩ := ih h hrest
      refine ⟨m', ?_, hbehind⟩
      rw [Traces.run, step, hget, Option.map_some, Option.bind_some, hrun]
      rfl
    | unset name =>
      obtain ⟨m₁, hunset, hshows⟩ : ∃ m', linkerEnvUnset S text fuel m name = some m' ∧
          Shows S text m₀ n m' (name.elim vars (erase vars)) := by
        cases name with
        | none => exact ⟨m, rfl, h⟩
        | some name => exact h.unset hf (hr name rfl)
      obtain ⟨m', hrun, hbehind⟩ := ih hshows hrest
      refine ⟨m', ?_, hbehind⟩
      rw [Traces.run, step, hunset, Option.map_some, Option.bind_some, hrun]
      rfl
    | secure =>
      obtain ⟨m₁, hsecure, hshows⟩ := h.secureLoop hf unsecVars unsecVars_names
      obtain ⟨m', hrun, hbehind⟩ := ih hshows hrest
      refine ⟨m', ?_, hbehind⟩
      rw [Traces.run, step, linkerEnvSecure, hsecure, Option.map_some, Option.bind_some, hrun]
      rfl

def Short (str : ℕ → Byte) : Prop := ∃ s, Holds str 0 s ∧ s.length < MAX_ENV_LEN

variable {c : ElfClass} {txt : Pointer c → ℕ → Byte} {block : ℕ → BitVec 32}
  {qs : List (Pointer c)}

theorem valid_of_defines {p : Pointer c} (hp : p ≠ 0) (hshort : Short (txt p))
    (hname : IsName name) (hdef : Defines name (txt p)) : isValidDefinition txt p = true := by
  obtain ⟨s, hs, hlen⟩ := hshort
  obtain ⟨hne, hblock⟩ := hdef
  have hzero : 0 ∉ name ++ [61] := by
    rw [List.mem_append, List.mem_singleton, not_or]
    exact ⟨hname.1, by decide⟩
  obtain ⟨t, ht⟩ := (block_prefix_iff hs hzero).mp hblock
  obtain ⟨x, name', rfl⟩ := List.exists_cons_of_ne_nil hne
  have hx : x ≠ 61 := fun hx => hname.2 (hx ▸ List.mem_cons_self)
  rw [isValidDefinition_iff txt hp, valid_iff hs hlen, doubled_iff hs hlen, ← ht]
  constructor
  · simp
  · exact fun hhead => hx (Option.some.inj hhead.2)

theorem find_filter {p q : Pointer c → Bool} (h : ∀ x ∈ qs, p x = true → q x = true) :
    (qs.filter q).find? p = qs.find? p := by
  induction qs with
  | nil => rfl
  | cons x qs ih =>
    obtain ⟨hx, hqs⟩ := List.forall_mem_cons.mp h
    by_cases hq : q x = true
    · rw [List.filter_cons_of_pos hq, List.find?_cons, List.find?_cons, ih hqs]
    · have hp : ¬ p x = true := mt hx hq
      rw [List.filter_cons_of_neg hq, ih hqs, List.find?_cons_of_neg hp]

theorem valueOf_valid (h0 : 0 ∉ qs) (hshort : ∀ p ∈ qs, Short (txt p)) (hname : IsName name) :
    valueOf txt (qs.filter (isValidDefinition txt)) name = valueOf txt qs name := by
  rw [valueOf, find_filter fun p hp hdef => ?_]
  · rfl
  · have hne : p ≠ 0 := fun h => h0 (h ▸ hp)
    exact valid_of_defines hne (hshort p hp) hname (of_decide_eq_true hdef)

theorem units_behind {m m' : ℕ → BitVec 32}
    (h : ∀ i, n ≤ i → getPointer c m' i = getPointer c m i) (a : ℕ) (ha : n * units c ≤ a) :
    m' a = m a := by
  have hslot : n ≤ a / units c := (Nat.le_div_iff_mul_le (units_pos c)).mpr ha
  have hsame := congrFun (h (a / units c) hslot) ⟨a % units c, Nat.mod_lt a (units_pos c)⟩
  change m' (a / units c * units c + a % units c) = m (a / units c * units c + a % units c)
    at hsame
  rwa [Nat.div_add_mod'] at hsame

/-- A block of short strings is, from its initialisation on, the map of the first definitions:
calls in any order get its answers, what is behind the definitions stays as it was. -/
theorem sessions_answer (txt : Pointer c → ℕ → Byte) (h : Holds ((pointers c).get block) 0 qs)
    (hshort : ∀ p ∈ qs, Short (txt p)) (hf : (qs.length + 1) * units c < fuel)
    (hclean : ∀ r ∈ reqs, r.Clean) :
    ∃ started vecs ended, linkerEnvInit fuel txt block = some (started, vecs) ∧
      run (step (pointers c) txt fuel) started reqs =
        some (ended, answers (valueOf txt qs) reqs) ∧
      ∀ a, qs.length * units c ≤ a → ended a = block a := by
  have hpos := units_pos c
  rw [Nat.add_one_mul] at hf
  have hlen : qs.length < fuel := (Nat.le_mul_of_pos_right qs.length hpos).trans_lt (by omega)
  obtain ⟨vecs, hskip, -⟩ := skipLoop_right_iff h (show qs.length * units c < fuel by omega)
  obtain ⟨started, hinit, hheld, hframe⟩ :=
    compact_holds (pointers c) (isValidDefinition txt) h (Nat.le_refl 0) hlen
  have hshows : Shows (pointers c) txt block qs.length started (valueOf txt qs) := by
    refine ⟨_, ⟨hheld, List.length_filter_le _ _, fun i hi => hframe i (.inr (by omega))⟩, ?_⟩
    exact fun name hname => valueOf_valid h.nonzero hshort hname
  obtain ⟨ended, hrun, hbehind⟩ := hshows.run hlen hclean
  refine ⟨started, vecs + 1, ended, ?_, hrun, units_behind hbehind⟩
  rw [linkerEnvInit, hskip, Option.bind_some, hinit]
  rfl

def lookups : List Request := [.get (some [65]), .secure, .unset (some [65]), .get (some [65])]

theorem assignment_short : Short assignment := by
  have h0 : (0 : Byte) ∉ [65, 61, 98] := by decide
  exact ⟨_, holds_write _ 0 h0, by decide⟩

theorem sessions_answer_block : ∃ started vecs ended,
    linkerEnvInit (c := .elf64) 5 (fun _ => assignment) block64 = some (started, vecs) ∧
    run (step (pointers .elf64) (fun _ => assignment) 5) started lookups =
      some (ended, [some (![0x1000, 0x7fff], 2), none]) ∧
    ∀ a, 1 * units .elf64 ≤ a → ended a = block64 a := by
  have hclean : ∀ r ∈ lookups, r.Clean := by
    have hname : IsName [65] := ⟨by decide, by decide⟩
    have hall : ∀ n ∈ some [(65 : Byte)], IsName n := fun n hn => by
      cases hn
      exact hname
    simp only [lookups, List.forall_mem_cons]
    exact ⟨hall, trivial, hall, hall, List.forall_mem_nil _⟩
  have hanswers : answers (valueOf (fun _ => assignment) [![0x1000, 0x7fff]]) lookups =
      [some ((![0x1000, 0x7fff] : Pointer .elf64), 2), none] := by decide
  rw [← hanswers]
  exact sessions_answer (fun _ => assignment) block64_holds (fun _ _ => assignment_short)
    (by decide) hclean

end Bionic.EnvSessions
