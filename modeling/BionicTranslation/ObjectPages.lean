import Mathlib
import BionicTranslation.Traces
import BionicTranslation.PthreadCalls

/-!
# The pages of the bionic objects

One thread declares, initialises, uses and destroys objects in the order POSIX allows.
An object has a page from its initialisation or first use to its destruction, and no two
objects share one, whatever old pointers destroyed objects still hold.
-/

set_option autoImplicit false

namespace Bionic.ObjectPages
open Bionic.Ledger Bionic.PthreadCalls Bionic.Traces

inductive WaitCall where
  | wait
  | timedwait (abs_timeout : Timespec)
  | timedwaitRelativeNp (reltime : Timespec)
  | timedwaitMonotonicNp (abstime : Timespec)
  | timedwaitMonotonic (abstime : Timespec)
  deriving DecidableEq, Repr

/-- What the program does. A static initializer may stand in an object, and other code may
map and unmap pages. -/
inductive Call (O : Type) where
  | declare (type : MutexType) (x : O)
  | foreign (page : ℕ) (mapped : Bool)
  | init (f : Init) (x : O) (attr : Option O)
  | use (f : Use) (x : O)
  | wait (f : WaitCall) (cond mutex : O)
  | destroy (family : Family) (x : O)
  deriving DecidableEq, Repr

variable {O B : Type} [DecidableEq O]

section calls
variable (host : Host B) (n : ℕ) (s : State O B) (x : O)

def initCall (attr : Option O) : Init → Except Fault (State O B × Reply)
  | .sem pshared value => bionicSemInit host s x pshared value
  | .rwlock attr => bionicPthreadRwlockInit host s x attr
  | .attr => bionicPthreadAttrInit host s x
  | .getattrNp thread => bionicPthreadGetattrNp host s x thread
  | .mutexattr => bionicPthreadMutexattrInit host s x
  | .mutex => bionicPthreadMutexInit host s x attr
  | .condattr => bionicPthreadCondattrInit host s x
  | .cond => bionicPthreadCondInit host s x attr

def useCall : Use → Except Fault (State O B × Reply)
  | .semPost => bionicSemPost host s x
  | .semWait => bionicSemWait host s x
  | .semTrywait => bionicSemTrywait host s x
  | .semTimedwait abs_timeout => bionicSemTimedwait host s x abs_timeout
  | .rwlockRdlock => bionicPthreadRwlockRdlock host s x
  | .rwlockUnlock => bionicPthreadRwlockUnlock host s x
  | .rwlockWrlock => bionicPthreadRwlockWrlock host s x
  | .attrSetstack stackaddr stacksize =>
    bionicPthreadAttrSettstack host s x stackaddr stacksize
  | .attrGetstack => bionicPthreadAttrGetstack host s x
  | .attrSetstacksize stacksize => bionicPthreadAttrSetstacksize host s x stacksize
  | .attrGetstacksize => bionicPthreadAttrGetstacksize host s x
  | .attrSetschedpolicy policy => bionicPthreadAttrSetschedpolicy host s x policy
  | .attrGetschedpolicy => bionicPthreadAttrGetschedpolicy host s x
  | .attrSetschedparam sched_priority => bionicPthreadAttrSetschedparam host s x sched_priority
  | .attrGetschedparam => bionicPthreadAttrGetschedparam host s x
  | .attrSetdetachstate detachstate => bionicPthreadAttrSetdetachstate host s x detachstate
  | .attrGetdetachstate => bionicPthreadAttrGetdetachstate host s x
  | .mutexattrSettype type => bionicPthreadMutexattrSettype host s x type
  | .mutexLock => bionicPthreadMutexLock host n s x
  | .mutexTrylock => bionicPthreadMutexTrylock host n s x
  | .mutexUnlock => bionicPthreadMutexUnlock host n s x
  | .condattrSetclock clock_id => bionicPthreadCondattrSetclock host s x clock_id
  | .condBroadcast => bionicPthreadCondBroadcast host s x
  | .condSignal => bionicPthreadCondSignal host s x

def waitCall (mutex : O) : WaitCall → Except Fault (State O B × Reply)
  | .wait => bionicPthreadCondWait host n s x mutex
  | .timedwait abs_timeout => bionicPthreadCondTimedwait host n s x mutex abs_timeout
  | .timedwaitRelativeNp reltime => bionicPthreadCondTimedwaitRelativeNp host n s x mutex reltime
  | .timedwaitMonotonicNp abstime =>
    bionicPthreadCondTimedwaitMonotonicNp host n s x mutex abstime
  | .timedwaitMonotonic abstime => bionicPthreadCondTimedwaitMonotonic host n s x mutex abstime

def destroyCall : Family → Except Fault (State O B × Reply)
  | .sem => bionicSemDestroy host s x
  | .rwlock => bionicPthreadRwlockDestroy host s x
  | .attr => bionicPthreadAttrDestroy host s x
  | .mutexattr => bionicPthreadMutexattrDestroy host s x
  | .mutex => bionicPthreadMutexDestroy host s x
  | .condattr => bionicPthreadCondattrDestroy host s x
  | .cond => bionicPthreadCondDestroy host s x

def declare (type : MutexType) : State O B :=
  { s with object := Function.update s.object x (initializer n type) }

def foreign (page : ℕ) (mapped : Bool) : State O B :=
  { s with pages := Function.update s.pages page mapped }

def perform : Call O → Except Fault (State O B × Reply)
  | .declare type x => .ok (declare n s x type, ⟨0, []⟩)
  | .foreign page mapped => .ok (foreign s page mapped, ⟨0, []⟩)
  | .init f x attr => initCall host s x attr f
  | .use f x => useCall host n s x f
  | .wait f cond mutex => waitCall host n s cond mutex f
  | .destroy family x => destroyCall host s x family

end calls

/-- The life cycle of an object. `declared` has its static initializer and has not been used,
`used` was initialised by its first use, and `live` by an initialiser. -/
inductive Life where
  | dead
  | declared (type : MutexType)
  | used (type : MutexType)
  | live
  deriving DecidableEq, Repr

def Life.afterUse : Life → Life
  | .declared type => .used type
  | l => l

def Life.Owns : Life → Prop
  | .dead => False
  | .declared _ => False
  | .used _ => True
  | .live => True

/-- The program: its objects and where they are in their life cycles. -/
structure Sys (O B : Type) where
  state : State O B
  life : O → Life

def lives (life : O → Life) : Call O → O → Life
  | .declare type x => Function.update life x (.declared type)
  | .foreign _ _ => life
  | .init _ x _ => Function.update life x .live
  | .use _ x => Function.update life x (life x).afterUse
  | .wait _ cond mutex =>
    Function.update (Function.update life cond (life cond).afterUse) mutex (life mutex).afterUse
  | .destroy _ x => Function.update life x .dead

def step (host : Host B) (n : ℕ) (y : Sys O B) (c : Call O) : Option (Sys O B) :=
  match perform host n y.state c with
  | .ok r => some ⟨r.1, lives y.life c⟩
  | .error _ => none

/-- Only mutexes, read-write locks and condition variables have a static initializer. -/
def Static (family : Family) (type : MutexType) : Prop :=
  family = .mutex ∨ (family = .rwlock ∨ family = .cond) ∧ type = .normal

def Takes (f : Init) (family : Family) : Prop :=
  f = .mutex ∧ family = .mutexattr ∨ f = .cond ∧ family = .condattr

/-- The POSIX life cycle: what a call may be given. -/
def Legal (fam : O → Family) (y : Sys O B) : Call O → Prop
  | .declare type x => y.life x = .dead ∧ Static (fam x) type
  | .foreign page _ => page ∉ lowPages ∧ ∀ x, y.life x ≠ .dead → y.state.word x ≠ page
  | .init f x attr => fam x = f.family ∧ y.life x = .dead ∧ f ≠ .getattrNp 0 ∧
      ∀ a ∈ attr, y.life a = .live ∧ Takes f (fam a)
  | .use f x => fam x = f.family ∧ y.life x ≠ .dead
  | .wait _ cond mutex => (fam cond = .cond ∧ y.life cond ≠ .dead) ∧
      fam mutex = .mutex ∧ y.life mutex ≠ .dead
  | .destroy family x => fam x = family ∧ y.life x ≠ .dead

instance [Fintype O] (fam : O → Family) (y : Sys O B) (c : Call O) : Decidable (Legal fam y c) :=
  match c with
  | .declare type x =>
    inferInstanceAs (Decidable (y.life x = .dead ∧ (fam x = .mutex ∨
      (fam x = .rwlock ∨ fam x = .cond) ∧ type = .normal)))
  | .foreign page _ =>
    inferInstanceAs (Decidable (page ∉ lowPages ∧ ∀ x, y.life x ≠ .dead → y.state.word x ≠ page))
  | .init f x attr =>
    inferInstanceAs (Decidable (fam x = f.family ∧ y.life x = .dead ∧ f ≠ .getattrNp 0 ∧
      ∀ a ∈ attr, y.life a = .live ∧
        (f = .mutex ∧ fam a = .mutexattr ∨ f = .cond ∧ fam a = .condattr)))
  | .use f x => inferInstanceAs (Decidable (fam x = f.family ∧ y.life x ≠ .dead))
  | .wait _ cond mutex =>
    inferInstanceAs (Decidable ((fam cond = .cond ∧ y.life cond ≠ .dead) ∧
      fam mutex = .mutex ∧ y.life mutex ≠ .dead))
  | .destroy family x => inferInstanceAs (Decidable (fam x = family ∧ y.life x ≠ .dead))

def nativePage (y : Sys O B) (x : O) : Option ℕ :=
  if y.life x = .dead then none
  else if y.state.isMapped x then some (y.state.word x) else none

def unmaps (y : Sys O B) : Call O → List (Entry O ℕ)
  | .destroy _ x => (nativePage y x).toList.map (.give x)
  | _ => []

def start (object : O → Object) (pages : ℕ → Bool) (contents : ℕ → B) (kernel : ℕ → ℕ) :
    Sys O B := ⟨⟨object, pages, contents, kernel, []⟩, fun _ => .dead⟩

/-- What the claims about types take from the native library: an initializer is of its type,
and no use of a mutex changes its type. -/
structure Host.Lawful (host : Host B) : Prop where
  initializer : ∀ t, host.typeOf (host.initializer t) = t
  use : ∀ f b, f.family = .mutex → host.typeOf (host.use f b).1 = host.typeOf b
  wait : ∀ f c m, host.typeOf (host.wait f c m).1.2 = host.typeOf m

/-- The call asserts nothing that fails, and unless the kernel breaks its word `P` holds of
its result. -/
def Yields {α : Type} (r : Except Fault α) (P : α → Prop) : Prop :=
  match r with
  | .ok a => P a
  | .error .kernel => True
  | .error .assertion => False

section yields
variable {α β : Type} {r : Except Fault α} {f : α → Except Fault β} {P P' : α → Prop}
  {Q : β → Prop}

theorem Yields.mono (h : Yields r P) (hp : ∀ a, P a → P' a) : Yields r P' := by
  cases r with
  | ok a => exact hp a h
  | error e => cases e <;> exact h

theorem Yields.bind (h : Yields r P) (hf : ∀ a, P a → Yields (f a) Q) : Yields (r >>= f) Q := by
  cases r with
  | ok a => exact hf a h
  | error e => cases e <;> exact h

end yields

variable {host : Host B} {n : ℕ} {fam : O → Family} {s : State O B} {life : O → Life} {x z : O}
  {b : B}

def Fresh (s : State O B) : Prop := s.pages (s.kernel 0) = false ∧ s.kernel 0 ∉ lowPages

def taken (s : State O B) (x : O) (b : B) : State O B where
  object := Function.update s.object x { s.object x with glibc := s.kernel 0 }
  pages := Function.update s.pages (s.kernel 0) true
  contents := Function.update s.contents (s.kernel 0) b
  kernel := fun k => s.kernel (k + 1)
  log := .take x (s.kernel 0) :: s.log

@[simp] theorem taken_word : (taken s x b).word x = s.kernel 0 := by
  simp [State.word, taken]

theorem taken_contents :
    (taken s x b).contents = Function.update s.contents (s.kernel 0) b := rfl

theorem taken_object (h : z ≠ x) : (taken s x b).object z = s.object z :=
  Function.update_of_ne h ..

theorem taken_word_other (h : z ≠ x) : (taken s x b).word z = s.word z :=
  congrArg Object.glibc (taken_object h)

theorem yields_mmap : Yields (mmap host s x) fun s' =>
    Fresh s ∧ s'.word x = s.kernel 0 ∧ ∀ b, s'.put (s'.word x) b = taken s x b := by
  rw [mmap]
  split_ifs with h
  · exact trivial
  · obtain ⟨hp, hl⟩ := not_or.mp h
    refine ⟨⟨Bool.eq_false_iff.mpr hp, hl⟩, taken_word, fun b => ?_⟩
    show (taken s x host.zeros).put ((taken s x host.zeros).word x) b = _
    rw [taken_word]
    simp [State.put, taken]

theorem yields_zeroInit : Yields (zeroInit host s x) fun s' =>
    Fresh s ∧ s' = taken s x host.zeros :=
  yields_mmap.bind fun _ h => ⟨h.1, h.2.2 _⟩

theorem yields_mutexInit {t : MutexType} (h : s.object x = initializer n t) :
    Yields (defaultPthreadMutexInit host n s x) fun s' =>
      Fresh s ∧ s' = taken s x (host.initializer t) := by
  rw [defaultPthreadMutexInit, h, find_initializer]
  exact yields_mmap.bind fun _ h => ⟨h.1, h.2.2 _⟩

theorem yields_create (f : Init) (attr : Option O) : Yields (create host s x f attr) fun r =>
    Fresh s ∧ ∃ b, r.1 = taken s x b :=
  yields_mmap.bind fun _ h => ⟨h.1, _, h.2.2 _⟩

/-- The ledger names the pages of the objects, and a used mutex has its type. -/
structure Sound (host : Host B) (n : ℕ) (fam : O → Family) (s : State O B) (life : O → Life) :
    Prop where
  low : ∀ p ∈ lowPages, s.pages p = false
  balanced : Balanced s.log
  static : ∀ x t, life x = .declared t → s.object x = initializer n t ∧ Static (fam x) t
  owned : ∀ x, (life x).Owns → holder s.log (s.word x) = some x
  typed : ∀ x t, life x = .used t → fam x = .mutex → host.typeOf (s.contents (s.word x)) = t
  held : ∀ p x, holder s.log p = some x → (life x).Owns ∧ s.word x = p ∧ s.pages p = true

omit [DecidableEq O] in
theorem sound_start {object : O → Object} {pages : ℕ → Bool} {contents : ℕ → B}
    {kernel : ℕ → ℕ} (hlow : ∀ p ∈ lowPages, pages p = false) :
    Sound host n fam (start object pages contents kernel).state fun _ => .dead where
  low := hlow
  balanced := trivial
  static _ _ h := nomatch h
  owned _ h := h.elim
  typed _ _ h := nomatch h
  held _ _ h := nomatch h

theorem initializer_low (t : MutexType) : (initializer n t).glibc ∈ lowPages := by
  cases t <;> simp [initializer, MutexType.code, lowPages]

omit [DecidableEq O] in
theorem Sound.isMapped (h : Sound host n fam s life) (hx : life x ≠ .dead) :
    s.isMapped x = true ↔ (life x).Owns := by
  constructor
  · intro hm
    cases hl : life x with
    | dead => exact absurd hl hx
    | declared t =>
      have hlow := h.low _ (initializer_low (n := n) t)
      rw [← (h.static x t hl).1] at hlow
      exact Bool.false_ne_true (hlow.symm.trans hm)
    | used t => trivial
    | live => trivial
  · intro ho
    exact (h.held _ x (h.owned x ho)).2.2

omit [DecidableEq O] in
theorem Sound.apart (h : Sound host n fam s life) (hx : (life x).Owns) (hz : (life z).Owns)
    (hw : s.word z = s.word x) : z = x := by
  have hown := h.owned z hz
  rw [hw, h.owned x hx] at hown
  exact (Option.some.inj hown).symm

def Filled (host : Host B) (fam : O → Family) (x : O) (b : B) (l : Life) : Prop :=
  l.Owns ∧ ∀ t, l = .used t → fam x = .mutex → host.typeOf b = t

theorem Sound.take (h : Sound host n fam s life) (hx : ¬ (life x).Owns) (hf : Fresh s) {l : Life}
    (hl : Filled host fam x b l) :
    Sound host n fam (taken s x b) (Function.update life x l) := by
  obtain ⟨hfree, hlow⟩ := hf
  have hnew : holder s.log (s.kernel 0) = none := by
    cases hh : holder s.log (s.kernel 0) with
    | none => rfl
    | some z => exact absurd ((h.held _ z hh).2.2) (hfree ▸ Bool.false_ne_true)
  have hpage : ∀ z, (life z).Owns → s.word z ≠ s.kernel 0 := by
    intro z hz he
    have hown := h.owned z hz
    rw [he, hnew] at hown
    cases hown
  refine ⟨fun p hp => ?_, ⟨hnew, h.balanced⟩, fun z t hz => ?_, fun z hz => ?_,
    fun z t hz hm => ?_, fun p z hz => ?_⟩
  · have hne : p ≠ s.kernel 0 := fun e => hlow (e ▸ hp)
    exact (Function.update_of_ne hne ..).trans (h.low p hp)
  · by_cases hzx : z = x
    · rw [hzx, Function.update_self] at hz
      rw [hz] at hl
      exact hl.1.elim
    · rw [Function.update_of_ne hzx] at hz
      rw [taken_object hzx]
      exact h.static z t hz
  · by_cases hzx : z = x
    · rw [hzx, taken_word]
      exact holder_take_same
    · rw [Function.update_of_ne hzx] at hz
      rw [taken_word_other hzx]
      exact (holder_take_other (hpage z hz)).trans (h.owned z hz)
  · by_cases hzx : z = x
    · rw [hzx, Function.update_self] at hz
      rw [hzx, taken_word, taken_contents, Function.update_self]
      exact hl.2 t hz (hzx ▸ hm)
    · rw [Function.update_of_ne hzx] at hz
      have hne := hpage z (hz ▸ trivial)
      rw [taken_word_other hzx, taken_contents, Function.update_of_ne hne]
      exact h.typed z t hz hm
  · by_cases hp : p = s.kernel 0
    · subst hp
      obtain rfl : x = z := Option.some.inj (holder_take_same.symm.trans hz)
      exact ⟨(Function.update_self x l life).symm ▸ hl.1, taken_word, Function.update_self ..⟩
    · have hold := h.held p z ((holder_take_other hp).symm.trans hz)
      have hzx : z ≠ x := fun e => hx (e ▸ hold.1)
      rw [Function.update_of_ne hzx, taken_word_other hzx]
      exact ⟨hold.1, hold.2.1, (Function.update_of_ne hp ..).trans hold.2.2⟩

omit [DecidableEq O] in
theorem Sound.put {page : ℕ} (h : Sound host n fam s life)
    (hb : ∀ z t, life z = .used t → fam z = .mutex → s.word z = page → host.typeOf b = t) :
    Sound host n fam (s.put page b) life where
  low := h.low
  balanced := h.balanced
  static := h.static
  owned := h.owned
  typed z t hz hm := by
    show host.typeOf (Function.update s.contents page b (s.word z)) = t
    by_cases hp : s.word z = page
    · rw [hp, Function.update_self]
      exact hb z t hz hm hp
    · rw [Function.update_of_ne hp]
      exact h.typed z t hz hm
  held := h.held

omit [DecidableEq O] in
theorem Sound.put_own (h : Sound host n fam s life) (hx : (life x).Owns)
    (hb : fam x = .mutex → host.typeOf b = host.typeOf (s.contents (s.word x))) :
    Sound host n fam (s.put (s.word x) b) life := by
  refine h.put fun z t hz hm hw => ?_
  obtain rfl : z = x := h.apart hx (hz ▸ trivial) hw
  rw [hb hm]
  exact h.typed z t hz hm

theorem Sound.munmap (h : Sound host n fam s life) (hx : (life x).Owns) :
    Sound host n fam (munmap s x) (Function.update life x .dead) where
  low p hp := by
    show Function.update s.pages (s.word x) false p = false
    by_cases hpx : p = s.word x
    · rw [hpx, Function.update_self]
    · rw [Function.update_of_ne hpx]
      exact h.low p hp
  balanced := ⟨h.owned x hx, h.balanced⟩
  static z t hz := by
    by_cases hzx : z = x
    · rw [hzx, Function.update_self] at hz
      cases hz
    · rw [Function.update_of_ne hzx] at hz
      exact h.static z t hz
  owned z hz := by
    by_cases hzx : z = x
    · rw [hzx, Function.update_self] at hz
      exact hz.elim
    · rw [Function.update_of_ne hzx] at hz
      have hne : s.word z ≠ s.word x := fun e => hzx (h.apart hx hz e)
      exact (holder_give_other hne).trans (h.owned z hz)
  typed z t hz hm := by
    by_cases hzx : z = x
    · rw [hzx, Function.update_self] at hz
      cases hz
    · rw [Function.update_of_ne hzx] at hz
      exact h.typed z t hz hm
  held p z hz := by
    by_cases hp : p = s.word x
    · rw [hp] at hz
      cases holder_give_same.symm.trans hz
    · have hold := h.held p z ((holder_give_other hp).symm.trans hz)
      have hzx : z ≠ x := fun e => hp (hold.2.1.symm.trans (congrArg s.word e))
      rw [Function.update_of_ne hzx]
      exact ⟨hold.1, hold.2.1, (Function.update_of_ne hp ..).trans hold.2.2⟩

theorem Sound.renew (h : Sound host n fam s life) (ob : Object) {l : Life}
    (hx : ¬ (life x).Owns) (hl : ¬ l.Owns)
    (hst : ∀ t, l = .declared t → ob = initializer n t ∧ Static (fam x) t) :
    Sound host n fam { s with object := Function.update s.object x ob }
      (Function.update life x l) where
  low := h.low
  balanced := h.balanced
  static z t hz := by
    show Function.update s.object x ob z = _ ∧ _
    by_cases hzx : z = x
    · rw [hzx, Function.update_self] at hz ⊢
      exact hst t hz
    · rw [Function.update_of_ne hzx] at hz ⊢
      exact h.static z t hz
  owned z hz := by
    show holder s.log (Function.update s.object x ob z).glibc = _
    by_cases hzx : z = x
    · rw [hzx, Function.update_self] at hz
      exact absurd hz hl
    · rw [Function.update_of_ne hzx] at hz ⊢
      exact h.owned z hz
  typed z t hz hm := by
    show host.typeOf (s.contents (Function.update s.object x ob z).glibc) = t
    by_cases hzx : z = x
    · rw [hzx, Function.update_self] at hz
      rw [hz] at hl
      exact absurd trivial hl
    · rw [Function.update_of_ne hzx] at hz ⊢
      exact h.typed z t hz hm
  held p z hz := by
    have hold := h.held p z hz
    have hzx : z ≠ x := fun e => hx (e ▸ hold.1)
    show _ ∧ (Function.update s.object x ob z).glibc = p ∧ _
    rw [Function.update_of_ne hzx, Function.update_of_ne hzx]
    exact hold

omit [DecidableEq O] in
theorem Sound.foreign {page : ℕ} {mapped : Bool} (h : Sound host n fam s life)
    (hlow : page ∉ lowPages) (hx : ∀ x, life x ≠ .dead → s.word x ≠ page) :
    Sound host n fam (foreign s page mapped) life where
  low p hp := by
    have hne : p ≠ page := fun e => hlow (e ▸ hp)
    exact (Function.update_of_ne hne ..).trans (h.low p hp)
  balanced := h.balanced
  static := h.static
  owned := h.owned
  typed := h.typed
  held p z hz := by
    obtain ⟨ho, hw, hp⟩ := h.held p z hz
    have hdead : life z ≠ .dead := fun e => (e ▸ ho : Life.dead.Owns).elim
    have hne : p ≠ page := fun e => hx z hdead (hw.trans e)
    exact ⟨ho, hw, (Function.update_of_ne hne ..).trans hp⟩

theorem useCall_eq (f : Use) : useCall host n s x f =
    match f.family with
    | .sem => lazily host s x (defaultSemInit host) f
    | .rwlock => lazily host s x (defaultRwlockInit host) f
    | .mutex => lazily host s x (defaultPthreadMutexInit host n) f
    | .cond => lazily host s x (defaultPthreadCondInit host) f
    | .attr => checked host s x f
    | .mutexattr => checked host s x f
    | .condattr => checked host s x f := by
  cases f <;> rfl

theorem waitCall_eq (host : Host B) (n : ℕ) (s : State O B) (x mutex : O) (f : WaitCall) :
    ∃ f', waitCall host n s x mutex f = waiting host n s x mutex f' := by
  cases f <;> exact ⟨_, rfl⟩

omit [DecidableEq O] in
theorem destroyCall_eq (family : Family) :
    destroyCall host s x family = destroy host s x family := by
  cases family <;> rfl

/-- An initialiser whose assertion holds maps a page, after it has set its object to zero
or without that. -/
theorem initCall_eq (host : Host B) (x : O) {f : Init} {attr : Option O} (hf : f ≠ .getattrNp 0)
    (ha : ∀ a ∈ attr, s.isMapped a = true) :
    ∃ s0 attr', (s0 = s ∨ s0 = s.erase x) ∧
      initCall host s x attr f = create host s0 x f attr' := by
  cases f with
  | rwlock a => exact ⟨s, none, Or.inl rfl, rfl⟩
  | getattrNp thread =>
    have hne : thread ≠ 0 := fun e => hf (congrArg Init.getattrNp e)
    exact ⟨s.erase x, none, Or.inr rfl, if_neg hne⟩
  | mutex =>
    have hall : attr.all s.isMapped = true := by
      cases attr with
      | none => rfl
      | some a => exact ha a rfl
    exact ⟨s.erase x, attr, Or.inr rfl, if_pos hall⟩
  | _ => exact ⟨s.erase x, _, Or.inr rfl, rfl⟩

theorem afterUse_owns {l : Life} (h : l ≠ .dead) : l.afterUse.Owns := by
  cases l with
  | dead => exact absurd rfl h
  | _ => trivial

theorem afterUse_same {l : Life} (h : l.Owns) : l.afterUse = l := by
  cases l with
  | declared t => exact h.elim
  | _ => rfl

def Initialises (host : Host B) (fam : O → Family) (s : State O B) (life : O → Life) (x : O)
    (init : State O B → O → Except Fault (State O B)) : Prop :=
  ∀ t, life x = .declared t → Yields (init s x) fun s' =>
    Fresh s ∧ ∃ b, s' = taken s x b ∧ (fam x = .mutex → host.typeOf b = t)

theorem initialises_zero (hx : fam x ≠ .mutex) :
    Initialises host fam s life x (zeroInit host) :=
  fun _ _ => yields_zeroInit.mono fun _ h => ⟨h.1, _, h.2, fun e => absurd e hx⟩

theorem Sound.initialises (h : Sound host n fam s life) (hl : Host.Lawful host) :
    Initialises host fam s life x (defaultPthreadMutexInit host n) :=
  fun t ht => (yields_mutexInit (h.static x t ht).1).mono
    fun _ h => ⟨h.1, _, h.2, fun _ => hl.initializer t⟩

theorem Sound.ready {init : State O B → O → Except Fault (State O B)}
    (h : Sound host n fam s life) (hx : life x ≠ .dead)
    (hi : Initialises host fam s life x init) :
    Yields (initIfNotMapped s x init) fun s' =>
      Sound host n fam s' (Function.update life x (life x).afterUse) ∧
        returns s'.log = returns s.log := by
  rw [initIfNotMapped]
  split_ifs with hm
  · rw [afterUse_same ((h.isMapped hx).mp hm), Function.update_eq_self]
    exact ⟨h, rfl⟩
  · have ho : ¬ (life x).Owns := fun e => hm ((h.isMapped hx).mpr e)
    cases hl : life x with
    | dead => exact absurd hl hx
    | declared t =>
      refine (hi t hl).mono fun s' hs => ?_
      obtain ⟨hf, b, rfl, hb⟩ := hs
      refine ⟨h.take ho hf ⟨trivial, fun t' ht' => ?_⟩, returns_take⟩
      cases ht'
      exact hb
    | used t => exact absurd (hl ▸ trivial) ho
    | live => exact absurd (hl ▸ trivial) ho

def Done (host : Host B) (n : ℕ) (fam : O → Family) (y : Sys O B) (c : Call O)
    (r : State O B × Reply) : Prop :=
  Sound host n fam r.1 (lives y.life c) ∧
    returns r.1.log = unmaps y c ++ returns y.state.log

theorem Sound.lazily {f : Use} {init : State O B → O → Except Fault (State O B)}
    (h : Sound host n fam s life) (hl : Host.Lawful host) (hf : fam x = f.family)
    (hx : life x ≠ .dead) (hi : Initialises host fam s life x init) :
    Yields (lazily host s x init f) (Done host n fam ⟨s, life⟩ (.use f x)) := by
  refine (h.ready hx hi).bind fun s' hs => ⟨hs.1.put_own ?_ fun hm => ?_, hs.2⟩
  · rw [Function.update_self]
    exact afterUse_owns hx
  · exact hl.use f _ (hf ▸ hm)

theorem Sound.checked {f : Use} (h : Sound host n fam s life)
    (hx : life x ≠ .dead) (hs : ∀ t, ¬ Static (fam x) t) (hm : fam x ≠ .mutex) :
    Yields (checked host s x f) (Done host n fam ⟨s, life⟩ (.use f x)) := by
  have ho : (life x).Owns := by
    cases hl : life x with
    | dead => exact absurd hl hx
    | declared t => exact absurd (h.static x t hl).2 (hs t)
    | _ => trivial
  rw [PthreadCalls.checked, if_pos ((h.isMapped hx).mpr ho)]
  refine ⟨?_, rfl⟩
  show Sound host n fam _ (Function.update life x (life x).afterUse)
  rw [afterUse_same ho, Function.update_eq_self]
  exact h.put_own ho fun e => absurd e hm

theorem Sound.use {f : Use} (h : Sound host n fam s life) (hl : Host.Lawful host)
    (hf : fam x = f.family) (hx : life x ≠ .dead) :
    Yields (useCall host n s x f) (Done host n fam ⟨s, life⟩ (.use f x)) := by
  rw [useCall_eq, ← hf]
  cases hfx : fam x with
  | sem => exact h.lazily hl hf hx (initialises_zero (by simp [hfx]))
  | rwlock => exact h.lazily hl hf hx (initialises_zero (by simp [hfx]))
  | mutex => exact h.lazily hl hf hx (h.initialises hl)
  | cond => exact h.lazily hl hf hx (initialises_zero (by simp [hfx]))
  | _ => exact h.checked hx (by simp [Static, hfx]) (by simp [hfx])

theorem Sound.wait {f : WaitCall} {mutex : O} (h : Sound host n fam s life)
    (hl : Host.Lawful host) (hc : fam x = .cond) (hx : life x ≠ .dead)
    (hm : fam mutex = .mutex) (hz : life mutex ≠ .dead) :
    Yields (waitCall host n s x mutex f) (Done host n fam ⟨s, life⟩ (.wait f x mutex)) := by
  obtain ⟨f', hf⟩ := waitCall_eq host n s x mutex f
  rw [hf]
  have hne : mutex ≠ x := by
    rintro rfl
    cases hc.symm.trans hm
  refine (h.ready hx (initialises_zero (by simp [hc]))).bind fun s1 hs1 => ?_
  obtain ⟨h1, hlog1⟩ := hs1
  have hz1 : Function.update life x (life x).afterUse mutex ≠ .dead := by
    rwa [Function.update_of_ne hne]
  refine (h1.ready hz1 (h1.initialises hl)).bind fun s2 hs2 => ?_
  obtain ⟨h2, hlog2⟩ := hs2
  rw [Function.update_of_ne hne] at h2
  have hox : (lives life (.wait f x mutex) x).Owns := by
    rw [lives, Function.update_of_ne hne.symm, Function.update_self]
    exact afterUse_owns hx
  have hom : (lives life (.wait f x mutex) mutex).Owns := by
    rw [lives, Function.update_self]
    exact afterUse_owns hz
  have hapart : s2.word mutex ≠ s2.word x := fun e => hne (h2.apart hox hom e)
  have hput := h2.put_own (b := (host.wait f' (s2.contents (s2.word x))
    (s2.contents (s2.word mutex))).1.1) hox fun e => by rw [hc] at e; cases e
  refine ⟨hput.put_own (x := mutex) hom fun _ => ?_, hlog2.trans hlog1⟩
  show _ = host.typeOf (Function.update s2.contents (s2.word x) _ (s2.word mutex))
  rw [Function.update_of_ne hapart]
  exact hl.wait f' _ _

theorem Sound.init {f : Init} {attr : Option O} (h : Sound host n fam s life)
    (hx : life x = .dead) (hf : f ≠ .getattrNp 0) (ha : ∀ a ∈ attr, life a = .live) :
    Yields (initCall host s x attr f) (Done host n fam ⟨s, life⟩ (.init f x attr)) := by
  obtain ⟨s0, attr', hs0, he⟩ := initCall_eq host x hf fun a haa =>
    (h.isMapped (by rw [ha a haa]; exact nofun)).mpr (by rw [ha a haa]; trivial)
  rw [he]
  have hno : ¬ (life x).Owns := by
    rw [hx]
    exact id
  have h0 : Sound host n fam s0 life ∧ s0.log = s.log := by
    rcases hs0 with rfl | rfl
    · exact ⟨h, rfl⟩
    · have hr := h.renew (s.object x).zero (l := .dead) hno id nofun
      rw [← hx, Function.update_eq_self] at hr
      exact ⟨hr, rfl⟩
  refine (yields_create f attr').mono fun r hr => ?_
  obtain ⟨hfresh, b, hr⟩ := hr
  rw [Done, hr]
  exact ⟨h0.1.take hno hfresh ⟨trivial, nofun⟩, returns_take.trans (congrArg returns h0.2)⟩

theorem Sound.destroy {family : Family} (h : Sound host n fam s life) (hx : life x ≠ .dead) :
    Yields (destroyCall host s x family) (Done host n fam ⟨s, life⟩ (.destroy family x)) := by
  rw [destroyCall_eq, PthreadCalls.destroy]
  have hpage : nativePage ⟨s, life⟩ x = if s.isMapped x then some (s.word x) else none :=
    if_neg hx
  split_ifs with hm
  · rw [if_pos hm] at hpage
    have hgone := h.munmap ((h.isMapped hx).mp hm)
    refine ⟨hgone.put fun z t hz _ hw => ?_, ?_⟩
    · -- nobody else has the page
      have hown := hgone.owned z (hz ▸ trivial)
      rw [show (PthreadCalls.munmap s x).word z = s.word x from hw] at hown
      cases holder_give_same.symm.trans hown
    · rw [unmaps, hpage]
      exact returns_give
  · rw [if_neg hm] at hpage
    have hno : ¬ (life x).Owns := fun e => hm ((h.isMapped hx).mpr e)
    refine ⟨?_, ?_⟩
    · have hr := h.renew (s.object x) (l := .dead) hno id nofun
      rwa [Function.update_eq_self] at hr
    · rw [unmaps, hpage]
      rfl

theorem Sound.perform {y : Sys O B} {c : Call O} (h : Sound host n fam y.state y.life)
    (hl : Host.Lawful host) (hc : Legal fam y c) :
    Yields (perform host n y.state c) (Done host n fam y c) := by
  cases c with
  | declare type x =>
    obtain ⟨hx, hst⟩ := hc
    have hno : ¬ (y.life x).Owns := by
      rw [hx]
      exact id
    refine ⟨h.renew _ hno id fun t ht => ?_, rfl⟩
    cases ht
    exact ⟨rfl, hst⟩
  | foreign page mapped => exact ⟨h.foreign hc.1 hc.2, rfl⟩
  | init f x attr =>
    obtain ⟨-, hx, hf, ha⟩ := hc
    exact h.init hx hf fun a haa => (ha a haa).1
  | use f x => exact h.use hl hc.1 hc.2
  | wait f cond mutex => exact h.wait hl hc.1.1 hc.1.2 hc.2.1 hc.2.2
  | destroy family x => exact h.destroy hc.2

theorem step_done {y y' : Sys O B} {c : Call O} (h : Sound host n fam y.state y.life)
    (hl : Host.Lawful host) (hc : Legal fam y c) (hs : step host n y c = some y') :
    Sound host n fam y'.state y'.life ∧
      returns y'.state.log = unmaps y c ++ returns y.state.log := by
  have hp := h.perform hl hc
  rw [step] at hs
  cases hr : ObjectPages.perform host n y.state c with
  | error e =>
    simp only [hr] at hs
    cases hs
  | ok r =>
    simp only [hr] at hs
    rw [hr] at hp
    cases hs
    exact hp

theorem reaches_sound {y0 y : Sys O B} (hl : Host.Lawful host)
    (hr : Reaches (step host n) (Legal fam) y0 y) (h0 : Sound host n fam y0.state y0.life) :
    Sound host n fam y.state y.life :=
  hr.invariant (fun _ _ _ h hc hs => (step_done h hl hc hs).1) h0

omit [DecidableEq O] in
theorem Sound.nativePage {y : Sys O B} (h : Sound host n fam y.state y.life) {p : ℕ} :
    nativePage y x = some p ↔ holder y.state.log p = some x := by
  rw [ObjectPages.nativePage]
  constructor
  · intro hp
    split_ifs at hp with hx hm
    cases hp
    exact h.owned x ((h.isMapped hx).mp hm)
  · intro hp
    obtain ⟨ho, hw, -⟩ := h.held p x hp
    have hx : y.life x ≠ .dead := fun e => (e ▸ ho : Life.dead.Owns).elim
    rw [if_neg hx, if_pos ((h.isMapped hx).mpr ho), hw]

/-- After every legal sequence of calls the ledger of `mmap` and `munmap` is balanced and
names the page of each object: an object has one from its initialisation or first use on,
two objects never share one, and only the destroyer of the object that has it unmaps it.
A mutex has the type of its static initializer, and no assertion of the wrapper fails. -/
theorem pages_accounted (host : Host B) (hl : Host.Lawful host) (n : ℕ) (fam : O → Family)
    (object : O → Object) (pages : ℕ → Bool) (contents : ℕ → B) (kernel : ℕ → ℕ)
    (hlow : ∀ p ∈ lowPages, pages p = false) (y : Sys O B)
    (hr : Reaches (step host n) (Legal fam) (start object pages contents kernel) y) :
    (∀ x z p, nativePage y x = some p → nativePage y z = some p → x = z) ∧
      Balanced y.state.log ∧
      (∀ x p, y.state.log.count (.take x p) =
        y.state.log.count (.give x p) + if nativePage y x = some p then 1 else 0) ∧
      (∀ x, (nativePage y x).isSome ↔ (y.life x).Owns) ∧
      (∀ x t p, fam x = .mutex → y.life x = .used t → nativePage y x = some p →
        host.typeOf (y.state.contents p) = t) ∧
      ∀ c, Legal fam y c → Yields (perform host n y.state c) fun r =>
        returns r.1.log = unmaps y c ++ returns y.state.log := by
  have h : Sound host n fam y.state y.life := reaches_sound hl hr (sound_start hlow)
  refine ⟨fun x z p hx hz => ?_, h.balanced, fun x p => ?_, fun x => ?_, fun x t p hm hu hp => ?_,
    fun c hc => (h.perform hl hc).mono fun _ hd => hd.2⟩
  · have hhx := h.nativePage.mp hx
    rw [h.nativePage.mp hz] at hhx
    exact (Option.some.inj hhx).symm
  · rw [if_congr h.nativePage rfl rfl]
    exact count_take h.balanced x p
  · constructor
    · intro hsome
      obtain ⟨p, hp⟩ := Option.isSome_iff_exists.mp hsome
      exact (h.held p x (h.nativePage.mp hp)).1
    · intro ho
      rw [h.nativePage.mpr (h.owned x ho)]
      rfl
  · have hw := (h.held p x (h.nativePage.mp hp)).2.1
    rw [← hw]
    exact h.typed x t hu hm

def typeHost : Host MutexType where
  zeros := .normal
  initializer t := t
  init _ _ attr := (attr.getD .normal, ⟨0, []⟩)
  use f b :=
    match f with
    | .mutexattrSettype type => (if type = 1 then .recursive else if type = 2 then .errorcheck
        else .normal, ⟨0, []⟩)
    | _ => (b, ⟨0, []⟩)
  wait _ c m := ((c, m), ⟨0, []⟩)
  destroy _ b := (b, ⟨0, []⟩)
  clockGettime _ := ⟨0, 0⟩
  typeOf b := b

theorem typeHost_lawful : Host.Lawful typeHost where
  initializer _ := rfl
  use f b hf := by cases f <;> first | rfl | cases hf
  wait _ _ _ := rfl

def reuse : List (Call Bool) :=
  [.declare .recursive false, .use .mutexLock false, .use .mutexUnlock false,
    .destroy .mutex false, .init (.sem 0 1) true none, .use .semWait true]

theorem reuse_accounted : ∃ y : Sys Bool MutexType,
    y.state.word false = y.state.word true ∧ nativePage y true = some 0x1000 ∧
      y.state.log.count (.take false 0x1000) = y.state.log.count (.give false 0x1000) := by
  have h : ((reuse.foldlM
      (fun y c => if Legal (cond · .sem .mutex) y c then step typeHost 8 y c else none)
      (start (fun _ => initializer 8 .normal) (fun _ => false) (fun _ => .normal)
        fun _ => 0x1000)).map fun y => (y.state.word false, y.state.word true,
          nativePage y true, nativePage y false)) =
      some (0x1000, 0x1000, some 0x1000, none) := by decide +kernel
  obtain ⟨y, hy, he⟩ := Option.map_eq_some_iff.mp h
  simp only [Prod.mk.injEq] at he
  obtain ⟨hf, ht, hp, hno⟩ := he
  have hcount := (pages_accounted typeHost typeHost_lawful 8 _ _ _ _ _ (fun _ _ => rfl) y
    (reaches_of_list hy)).2.2.1 false 0x1000
  refine ⟨y, hf.trans ht.symm, hp, ?_⟩
  rw [hcount, hno]
  rfl

end Bionic.ObjectPages
