import BionicTranslation.Compaction
import BionicTranslation.WrapperNames

/-!
# The environment

`apkenv__envp` points at an array of pointers to definitions. A variable is looked up by the
first definition of its name; to unset it, all of them are taken out of the array.
-/

set_option autoImplicit false

namespace Bionic.Environ
open Bionic.CStrings Bionic.Compaction Bionic.WrapperNames

/-- `apkenv_env_match` from `cnt` on, where the rest of the name is given. The result is the
offset of the value. -/
def envMatch (envstr : ℕ → Byte) : List Byte → ℕ → Option ℕ
  | [], cnt => if envstr cnt = 61 then some (cnt + 1) else none
  | ch :: name, cnt => if envstr cnt = ch then envMatch envstr name (cnt + 1) else none

def unsecVars : List (List Byte) := [
  bytes "GCONV_PATH".toList,
  bytes "GETCONF_DIR".toList,
  bytes "HOSTALIASES".toList,
  bytes "LD_AUDIT".toList,
  bytes "LD_DEBUG".toList,
  bytes "LD_DEBUG_OUTPUT".toList,
  bytes "LD_DYNAMIC_WEAK".toList,
  bytes "LD_LIBRARY_PATH".toList,
  bytes "LD_ORIGIN_PATH".toList,
  bytes "LD_PRELOAD".toList,
  bytes "LD_PROFILE".toList,
  bytes "LD_SHOW_AUXV".toList,
  bytes "LD_USE_LOAD_BIAS".toList,
  bytes "LOCALDOMAIN".toList,
  bytes "LOCPATH".toList,
  bytes "MALLOC_TRACE".toList,
  bytes "MALLOC_CHECK_".toList,
  bytes "NIS_PATH".toList,
  bytes "NLSPATH".toList,
  bytes "RESOLV_HOST_CONF".toList,
  bytes "RES_OPTIONS".toList,
  bytes "TMPDIR".toList,
  bytes "TZDIR".toList,
  bytes "LD_AOUT_LIBRARY_PATH".toList,
  bytes "LD_AOUT_PRELOAD".toList]

section Source
variable {M β : Type*} [Zero β] [DecidableEq β] (S : Slots M β) (text : β → ℕ → Byte)

/-- The loop of `apkenv_linker_env_get`. A value is a pointer and an offset; an empty one is no
value. -/
def getLoop (name : List Byte) : ℕ → M → ℕ → Option (Option (β × ℕ))
  | 0, _, _ => none
  | fuel + 1, m, readp =>
    if S.get m readp = 0 then some none
    else (envMatch (text (S.get m readp)) name 0).elim (getLoop name fuel m (readp + 1)) fun val =>
      if text (S.get m readp) val = 0 then some none else some (some (S.get m readp, val))

def linkerEnvGet (fuel : ℕ) (m : M) (name : Option (List Byte)) : Option (Option (β × ℕ)) :=
  name.elim (some none) fun name => if name = [] then some none else getLoop S text name fuel m 0

def linkerEnvUnset (fuel : ℕ) (m : M) (name : Option (List Byte)) : Option M :=
  name.elim (some m) fun name =>
    if name = [] then some m
    else compact S (fun p => (envMatch (text p) name 0).isNone) fuel m 0 0

def secureLoop (fuel : ℕ) : List (List Byte) → M → Option M
  | [], m => some m
  | cp :: vars, m => (linkerEnvUnset S text fuel m (some cp)).bind (secureLoop fuel vars)

def linkerEnvSecure (fuel : ℕ) (m : M) : Option M := secureLoop S text fuel unsecVars m

end Source

variable {envstr : ℕ → Byte} {name other : List Byte}

/-- The string is the name, an equal sign and a value. The empty name is not defined by any. -/
def Defines (name : List Byte) (envstr : ℕ → Byte) : Prop :=
  name ≠ [] ∧ Block envstr 0 (name ++ [61])

instance (name : List Byte) (envstr : ℕ → Byte) : Decidable (Defines name envstr) :=
  inferInstanceAs (Decidable (_ ∧ _))

theorem envMatch_eq (envstr : ℕ → Byte) (name : List Byte) (cnt : ℕ) :
    envMatch envstr name cnt =
      if Block envstr cnt (name ++ [61]) then some (cnt + name.length + 1) else none := by
  induction name generalizing cnt with
  | nil =>
    rw [envMatch, List.nil_append]
    exact if_congr (and_iff_left trivial).symm rfl rfl
  | cons ch name ih =>
    have hblock : Block envstr cnt (ch :: name ++ [61]) ↔
        envstr cnt = ch ∧ Block envstr (cnt + 1) (name ++ [61]) := Iff.rfl
    rw [envMatch, ih, List.length_cons, if_congr hblock rfl rfl, ite_and,
      show cnt + 1 + name.length + 1 = cnt + (name.length + 1) + 1 by omega]

theorem length_le_of_block (h : Block envstr 0 (name ++ [61])) (h' : Block envstr 0 (other ++ [61]))
    (hother : 61 ∉ other) : other.length ≤ name.length := by
  apply Nat.le_of_not_lt
  intro hlt
  have hend : envstr (0 + name.length) = 61 := (block_append.mp h).2.1
  rw [(block_append.mp h').1.get hlt] at hend
  exact hother (hend ▸ List.getElem_mem hlt)

theorem Defines.unique (h : Defines name envstr) (h' : Defines other envstr)
    (hname : 61 ∉ name) (hother : 61 ∉ other) : name = other := by
  have hlen := Nat.le_antisymm (length_le_of_block h'.2 h.2 hname)
    (length_le_of_block h.2 h'.2 hother)
  apply List.ext_getElem hlen
  intro i hi hi'
  rw [← (block_append.mp h.2).1.get hi, ← (block_append.mp h'.2).1.get hi']

section values
variable {β : Type*} (text : β → ℕ → Byte) (ps : List β)

/-- The value in the first definition of the name, unless it is empty. -/
def valueOf (name : List Byte) : Option (β × ℕ) :=
  (ps.find? fun p => Defines name (text p)).bind fun p =>
    if text p (name.length + 1) = 0 then none else some (p, name.length + 1)

def without (name : List Byte) : List β := ps.filter fun p => ¬ Defines name (text p)

variable {text ps} in
theorem valueOf_none (h : ∀ p ∈ ps, ¬ Defines name (text p)) : valueOf text ps name = none := by
  have hnone : ps.find? (fun p => Defines name (text p)) = none :=
    List.find?_eq_none.mpr fun p hp hdef => h p hp (of_decide_eq_true hdef)
  rw [valueOf, hnone]
  rfl

theorem not_defines_of_mem {p : β} (hp : p ∈ without text ps name) : ¬ Defines name (text p) :=
  of_decide_eq_true (List.mem_filter.mp hp).2

variable {text ps} in
theorem without_self (h : ∀ p ∈ ps, ¬ Defines name (text p)) : without text ps name = ps :=
  List.filter_eq_self.mpr fun p hp => decide_eq_true (h p hp)

theorem valueOf_without (hne : other ≠ name) (hname : 61 ∉ name) (hother : 61 ∉ other) :
    valueOf text (without text ps name) other = valueOf text ps other := by
  have hfind : (without text ps name).find? (fun p => Defines other (text p)) =
      ps.find? fun p => Defines other (text p) := by
    rw [without, List.find?_filter]
    congr 1
    ext1 p
    have hother' (h : Defines other (text p)) : ¬ Defines name (text p) :=
      fun h' => hne (h.unique h' hother hname)
    simpa using hother'
  rw [valueOf, hfind]
  rfl

def secured (vars : List (List Byte)) : List β :=
  ps.filter fun p => ∀ v ∈ vars, ¬ Defines v (text p)

theorem secured_nil : secured text ps [] = ps :=
  List.filter_eq_self.mpr fun _ _ => decide_eq_true (List.forall_mem_nil _)

theorem secured_cons (v : List Byte) (vars : List (List Byte)) :
    secured text ps (v :: vars) = secured text (without text ps v) vars := by
  rw [secured, secured, without, List.filter_filter]
  congr 1
  ext1 p
  rw [decide_eq_decide.mpr List.forall_mem_cons, Bool.decide_and, Bool.and_comm]

theorem valueOf_secured (vars : List (List Byte)) (hvars : ∀ v ∈ vars, 61 ∉ v)
    (hother : 61 ∉ other) (hne : other ∉ vars) :
    valueOf text (secured text ps vars) other = valueOf text ps other := by
  induction vars generalizing ps with
  | nil => rw [secured_nil]
  | cons v vars ih =>
    rw [List.mem_cons, not_or] at hne
    rw [secured_cons, ih _ (fun u hu => hvars u (List.mem_cons_of_mem v hu)) hne.2,
      valueOf_without text ps hne.1 (hvars v List.mem_cons_self) hother]

end values

variable {M β : Type*} [Zero β] [DecidableEq β] {S : Slots M β} {text : β → ℕ → Byte} {m : M}
  {ps : List β} {fuel readp : ℕ}

theorem envMatch_defines (hname : name ≠ []) (envstr : ℕ → Byte) :
    envMatch envstr name 0 = if Defines name envstr then some (name.length + 1) else none := by
  rw [envMatch_eq, Nat.zero_add]
  exact if_congr (and_iff_right hname).symm rfl rfl

theorem getLoop_eq (hname : name ≠ []) (h : Holds (S.get m) readp ps) (hf : ps.length < fuel) :
    getLoop S text name fuel m readp = some (valueOf text ps name) := by
  induction h, hf using Holds.walk with
  | stop _ hz => exact if_pos hz
  | @step _ _ p ps h _ ih =>
    rw [getLoop, if_neg h.head_ne, h.chars.1, envMatch_defines hname, valueOf]
    by_cases hp : Defines name (text p)
    · rw [if_pos hp, List.find?_cons_of_pos (by simpa using hp), Option.elim_some,
        Option.bind_some]
      split_ifs <;> rfl
    · rw [if_neg hp, List.find?_cons_of_neg (by simpa using hp), Option.elim_none, ih]
      rfl

theorem linkerEnvGet_eq (name : List Byte) (h : Holds (S.get m) 0 ps) (hf : ps.length < fuel) :
    linkerEnvGet S text fuel m (some name) = some (valueOf text ps name) := by
  rw [linkerEnvGet, Option.elim_some]
  by_cases hname : name = []
  · rw [if_pos hname, valueOf_none fun p _ hdef => hdef.1 hname]
  · rw [if_neg hname, getLoop_eq hname h hf]

theorem linkerEnvUnset_eq (hname : name ≠ []) (fuel : ℕ) (m : M) :
    linkerEnvUnset S text fuel m (some name) =
      compact S (fun p => ¬ Defines name (text p)) fuel m 0 0 := by
  have hkeep : (fun p => (envMatch (text p) name 0).isNone) =
      fun p => decide (¬ Defines name (text p)) := by
    ext1 p
    rw [envMatch_defines hname]
    by_cases hp : Defines name (text p) <;> simp [hp]
  rw [linkerEnvUnset, Option.elim_some, if_neg hname, hkeep]

theorem linkerEnvUnset_holds (text : β → ℕ → Byte) (name : List Byte) (h : Holds (S.get m) 0 ps)
    (hf : ps.length < fuel) :
    ∃ m', linkerEnvUnset S text fuel m (some name) = some m' ∧
      Holds (S.get m') 0 (without text ps name) := by
  by_cases hname : name = []
  · have hall : without text ps name = ps := without_self fun p _ hdef => hdef.1 hname
    exact ⟨m, if_pos hname, by rwa [hall]⟩
  · rw [linkerEnvUnset_eq hname]
    obtain ⟨m', hrun, hheld, -⟩ := compact_holds S _ h (Nat.le_refl 0) hf
    exact ⟨m', hrun, hheld⟩

theorem linkerEnvUnset_self (h : Holds (S.get m) 0 ps) (hf : ps.length < fuel)
    (hnone : ∀ p ∈ ps, ¬ Defines name (text p)) :
    linkerEnvUnset S text fuel m (some name) = some m := by
  by_cases hname : name = []
  · exact if_pos hname
  · rw [linkerEnvUnset_eq hname]
    exact compact_self S _ h (fun p hp => decide_eq_true (hnone p hp)) hf

theorem secureLoop_holds (text : β → ℕ → Byte) (vars : List (List Byte))
    (h : Holds (S.get m) 0 ps) (hf : ps.length < fuel) :
    ∃ m', secureLoop S text fuel vars m = some m' ∧ Holds (S.get m') 0 (secured text ps vars) := by
  induction vars generalizing m ps with
  | nil => exact ⟨m, rfl, by rwa [secured_nil]⟩
  | cons v vars ih =>
    obtain ⟨m₁, hunset, hheld⟩ := linkerEnvUnset_holds text v h hf
    obtain ⟨m', hrun, hsecured⟩ := ih hheld ((List.length_filter_le _ _).trans_lt hf)
    refine ⟨m', ?_, ?_⟩
    · rw [secureLoop, hunset, Option.bind_some, hrun]
    · rwa [secured_cons]

theorem secureLoop_self {vars : List (List Byte)} (h : Holds (S.get m) 0 ps)
    (hf : ps.length < fuel) (hnone : ∀ v ∈ vars, ∀ p ∈ ps, ¬ Defines v (text p)) :
    secureLoop S text fuel vars m = some m := by
  induction vars with
  | nil => rfl
  | cons v vars ih =>
    obtain ⟨hv, hvars⟩ := List.forall_mem_cons.mp hnone
    rw [secureLoop, linkerEnvUnset_self h hf hv, Option.bind_some, ih hvars]

theorem unsecVars_clean : ∀ v ∈ unsecVars, 61 ∉ v := by decide

/-- After a name was unset it has no value, the other definitions are there in their order, and
other names have the values that they had. The same goes for all of the unsafe names together,
and to take them out once more changes nothing. -/
theorem unset_secure (S : Slots M β) (text : β → ℕ → Byte) (h : Holds (S.get m) 0 ps)
    (hf : ps.length < fuel) :
    (∀ name, 61 ∉ name → ∃ m', linkerEnvUnset S text fuel m (some name) = some m' ∧
      linkerEnvGet S text fuel m' (some name) = some none ∧
      Holds (S.get m') 0 (without text ps name) ∧
      ∀ other, 61 ∉ other → other ≠ name →
        linkerEnvGet S text fuel m' (some other) = some (valueOf text ps other) ∧
        linkerEnvGet S text fuel m (some other) = some (valueOf text ps other)) ∧
    ∃ m', linkerEnvSecure S text fuel m = some m' ∧
      (∀ v ∈ unsecVars, linkerEnvGet S text fuel m' (some v) = some none) ∧
      (∀ other, 61 ∉ other → other ∉ unsecVars →
        linkerEnvGet S text fuel m' (some other) = some (valueOf text ps other) ∧
        linkerEnvGet S text fuel m (some other) = some (valueOf text ps other)) ∧
      linkerEnvSecure S text fuel m' = some m' := by
  constructor
  · intro name hname
    obtain ⟨m', hrun, hheld⟩ := linkerEnvUnset_holds text name h hf
    have hf' : (without text ps name).length < fuel := (List.length_filter_le _ _).trans_lt hf
    refine ⟨m', hrun, ?_, hheld, fun other hother hne => ⟨?_, linkerEnvGet_eq other h hf⟩⟩
    · rw [linkerEnvGet_eq name hheld hf', valueOf_none fun p hp => not_defines_of_mem text ps hp]
    · rw [linkerEnvGet_eq other hheld hf', valueOf_without text ps hne hname hother]
  · obtain ⟨m', hrun, hheld⟩ := secureLoop_holds text unsecVars h hf
    have hf' : (secured text ps unsecVars).length < fuel :=
      (List.length_filter_le _ _).trans_lt hf
    have hnone (v : List Byte) (hv : v ∈ unsecVars) :
        ∀ p ∈ secured text ps unsecVars, ¬ Defines v (text p) :=
      fun p hp => of_decide_eq_true (List.mem_filter.mp hp).2 v hv
    refine ⟨m', hrun, fun v hv => ?_, fun other hother hne => ⟨?_, linkerEnvGet_eq other h hf⟩,
      secureLoop_self hheld hf' hnone⟩
    · rw [linkerEnvGet_eq v hheld hf', valueOf_none (hnone v hv)]
    · rw [linkerEnvGet_eq other hheld hf',
        valueOf_secured text ps unsecVars unsecVars_clean hother hne]

def preloads (p : ℕ) : ℕ → Byte :=
  write (fun _ => 0) 0 (bytes (if p = 2 then "LD=a" else "LD_PRELOAD=b").toList)

theorem preloads_secured : ∃ m', linkerEnvSecure (Slots.ofArray ℕ) preloads 4
      (write (fun _ => 0) 0 [1, 2, 3, 0]) = some m' ∧
    linkerEnvGet (Slots.ofArray ℕ) preloads 4 m' (some (bytes "LD_PRELOAD".toList)) = some none ∧
    linkerEnvGet (Slots.ofArray ℕ) preloads 4 m' (some (bytes "LD".toList)) =
      some (some (2, 3)) := by
  have h0 : 0 ∉ [1, 2, 3] := by decide
  have h : Holds ((Slots.ofArray ℕ).get (write (fun _ => 0) 0 [1, 2, 3, 0])) 0 [1, 2, 3] :=
    holds_write _ 0 h0
  obtain ⟨m', hrun, hnone, hsame, -⟩ :=
    (unset_secure (Slots.ofArray ℕ) preloads h (show [1, 2, 3].length < 4 by decide)).2
  refine ⟨m', hrun, hnone _ (by decide), ?_⟩
  rw [(hsame (bytes "LD".toList) (by decide) (by decide)).1]
  decide

end Bionic.Environ
