import Mathlib.Data.Nat.Bitwise
import Mathlib.Data.List.Count
import Mathlib.Tactic.SplitIfs
import Mathlib.Logic.Function.Basic

/-!
# The functions of libpthread.c

Semaphores, locks, condition variables and attributes are wrapped in the same ways: the
initialisers map a page, the uses of some families do so when there is none, those of the
others assert that there is one, and the destroyers unmap it. What the native functions do
to their pages is a parameter. A bionic object keeps the pointer to its native object over
its first private word; whether it has one is decided by probing whether that word is the
address of a mapped page. The ledger of takings and returns comes first and names nothing
of the wrapper.
-/

set_option autoImplicit false

namespace Bionic.Ledger

inductive Entry (O R : Type*) where
  | take (o : O) (r : R)
  | give (o : O) (r : R)
  deriving DecidableEq, Repr

variable {O R : Type*} [DecidableEq R] {l : List (Entry O R)} {o o' : O} {r q : R}

def holder : List (Entry O R) → R → Option O
  | [], _ => none
  | .take o q :: l, r => if r = q then some o else holder l r
  | .give _ q :: l, r => if r = q then none else holder l r

def returns (l : List (Entry O R)) : List (Entry O R) :=
  l.filter fun e =>
    match e with
    | .take _ _ => false
    | .give _ _ => true

def Balanced : List (Entry O R) → Prop
  | [] => True
  | .take _ r :: l => holder l r = none ∧ Balanced l
  | .give o r :: l => holder l r = some o ∧ Balanced l

omit [DecidableEq R] in
@[simp] theorem returns_take : returns (.take o r :: l) = returns l := rfl

omit [DecidableEq R] in
@[simp] theorem returns_give : returns (.give o r :: l) = .give o r :: returns l := rfl

@[simp] theorem holder_take_same : holder (.take o r :: l) r = some o := if_pos rfl
@[simp] theorem holder_give_same : holder (.give o r :: l) r = none := if_pos rfl
theorem holder_take_other (h : r ≠ q) : holder (.take o q :: l) r = holder l r := if_neg h
theorem holder_give_other (h : r ≠ q) : holder (.give o q :: l) r = holder l r := if_neg h

variable [DecidableEq O]

theorem count_take (h : Balanced l) (o : O) (r : R) :
    l.count (.take o r) = l.count (.give o r) + if holder l r = some o then 1 else 0 := by
  induction l with
  | nil => rfl
  | cons e l ih =>
    cases e with
    | take o' q =>
      have hih := ih h.2
      by_cases hr : r = q
      · subst hr
        rw [h.1, if_neg (by simp)] at hih
        by_cases ho : o' = o
        · subst ho
          simp [hih]
        · simp [hih, ho]
      · rw [holder_take_other hr]
        simpa [List.count_cons, Ne.symm hr] using hih
    | give o' q =>
      have hih := ih h.2
      by_cases hr : r = q
      · subst hr
        rw [h.1] at hih
        by_cases ho : o' = o
        · subst ho
          simpa [List.count_cons] using hih
        · simpa [List.count_cons, ho] using hih
      · rw [holder_give_other hr]
        simpa [List.count_cons, Ne.symm hr] using hih

end Bionic.Ledger

namespace Bionic.PthreadCalls
open Bionic.Ledger

inductive MutexType where
  | normal
  | recursive
  | errorcheck
  deriving DecidableEq, Repr

/-- The values of `PTHREAD_MUTEX_NORMAL` and the others, the same in bionic and in the host. -/
def MutexType.code : MutexType → ℕ
  | .normal => 0
  | .recursive => 1
  | .errorcheck => 2

/-- `bionic_mutex_t` and the other unions: the word that `glibc` lies over and the
words of `__private` behind it. -/
structure Object where
  glibc : ℕ
  rest : List ℕ
  deriving DecidableEq, Repr

def Object.zero (x : Object) : Object := ⟨0, x.rest.map fun _ => 0⟩

/-- `{{{ ((type & 3) << 14) }}}` of an object with `n` more words. -/
def initializer (n : ℕ) (type : MutexType) : Object :=
  ⟨(type.code &&& 3) <<< 14, List.replicate n 0⟩

def bionicMutexInitMap (n : ℕ) : List (Object × MutexType) :=
  [(initializer n .normal, .normal),
    (initializer n .recursive, .recursive),
    (initializer n .errorcheck, .errorcheck)]

/-- `mincore` succeeds on the address of a mapped page, and fails on one that is not aligned
or not mapped. -/
def isMapped (pages : ℕ → Bool) (mem : ℕ) : Bool := pages mem

theorem find_initializer (n : ℕ) (t : MutexType) :
    (bionicMutexInitMap n).find? (fun e => e.1 = initializer n t) = some (initializer n t, t) := by
  cases t <;> simp [bionicMutexInitMap, initializer, MutexType.code]

inductive Family where
  | sem
  | rwlock
  | attr
  | mutexattr
  | mutex
  | condattr
  | cond
  deriving DecidableEq, Repr

structure Timespec where
  tv_sec : ℤ
  tv_nsec : ℤ
  deriving DecidableEq, Repr

inductive Clock where
  | realtime
  | monotonic
  deriving DecidableEq, Repr

inductive Init where
  | sem (pshared : ℤ) (value : ℕ)
  | rwlock (attr : Option ℕ)
  | attr
  | getattrNp (thread : ℕ)
  | mutexattr
  | mutex
  | condattr
  | cond
  deriving DecidableEq, Repr

inductive Use where
  | semPost
  | semWait
  | semTrywait
  | semTimedwait (abs_timeout : Timespec)
  | rwlockRdlock
  | rwlockUnlock
  | rwlockWrlock
  | attrSetstack (stackaddr stacksize : ℕ)
  | attrGetstack
  | attrSetstacksize (stacksize : ℕ)
  | attrGetstacksize
  | attrSetschedpolicy (policy : ℤ)
  | attrGetschedpolicy
  | attrSetschedparam (sched_priority : ℤ)
  | attrGetschedparam
  | attrSetdetachstate (detachstate : ℤ)
  | attrGetdetachstate
  | mutexattrSettype (type : ℤ)
  | mutexLock
  | mutexTrylock
  | mutexUnlock
  | condattrSetclock (clock_id : ℤ)
  | condBroadcast
  | condSignal
  deriving DecidableEq, Repr

inductive Wait where
  | condWait
  | condTimedwait (abs_timeout : Timespec)
  deriving DecidableEq, Repr

def Init.family : Init → Family
  | .sem _ _ => .sem
  | .rwlock _ => .rwlock
  | .attr => .attr
  | .getattrNp _ => .attr
  | .mutexattr => .mutexattr
  | .mutex => .mutex
  | .condattr => .condattr
  | .cond => .cond

def Use.family : Use → Family
  | .semPost | .semWait | .semTrywait | .semTimedwait _ => .sem
  | .rwlockRdlock | .rwlockUnlock | .rwlockWrlock => .rwlock
  | .attrSetstack _ _ | .attrGetstack | .attrSetstacksize _ | .attrGetstacksize
  | .attrSetschedpolicy _ | .attrGetschedpolicy | .attrSetschedparam _ | .attrGetschedparam
  | .attrSetdetachstate _ | .attrGetdetachstate => .attr
  | .mutexattrSettype _ => .mutexattr
  | .mutexLock | .mutexTrylock | .mutexUnlock => .mutex
  | .condattrSetclock _ => .condattr
  | .condBroadcast | .condSignal => .cond

structure Reply where
  ret : ℤ
  out : List ℤ
  deriving DecidableEq, Repr

/-- The native library. `B` is what a page can hold. -/
structure Host (B : Type) where
  zeros : B
  initializer : MutexType → B
  init : Init → B → Option B → B × Reply
  use : Use → B → B × Reply
  wait : Wait → B → B → (B × B) × Reply
  destroy : Family → B → B × Reply
  clockGettime : Clock → Timespec
  typeOf : B → MutexType

/-- The bionic objects `O`, the pages with what they hold, the pages that `mmap` is going
to return, and what has been mapped and unmapped. -/
structure State (O B : Type) where
  object : O → Object
  pages : ℕ → Bool
  contents : ℕ → B
  kernel : ℕ → ℕ
  log : List (Entry O ℕ)

inductive Fault where
  | assertion
  | kernel
  deriving DecidableEq, Repr

/-- Addresses that are never mapped: the words of the initializers. -/
def lowPages : List ℕ := [0, 0x4000, 0x8000]

variable {O B : Type} [DecidableEq O] (host : Host B) (n : ℕ) (s : State O B) (x : O)

def State.word : ℕ := (s.object x).glibc

def State.isMapped : Bool := PthreadCalls.isMapped s.pages (s.word x)

def State.erase : State O B :=
  { s with object := Function.update s.object x (s.object x).zero }

def State.put (page : ℕ) (b : B) : State O B :=
  { s with contents := Function.update s.contents page b }

/-- `x->glibc = mmap(...)`. The kernel returns a page that is not mapped. -/
def mmap : Except Fault (State O B) :=
  let page := s.kernel 0
  if s.pages page = true ∨ page ∈ lowPages then .error .kernel
  else .ok
    { object := Function.update s.object x { s.object x with glibc := page }
      pages := Function.update s.pages page true
      contents := Function.update s.contents page host.zeros
      kernel := fun k => s.kernel (k + 1)
      log := .take x page :: s.log }

def munmap : State O B :=
  { s with
    pages := Function.update s.pages (s.word x) false
    log := .give x (s.word x) :: s.log }

def native (f : Use) : State O B × Reply :=
  let r := host.use f (s.contents (s.word x))
  (s.put (s.word x) r.1, r.2)

def initIfNotMapped (init : State O B → O → Except Fault (State O B)) :
    Except Fault (State O B) :=
  if s.isMapped x then .ok s else init s x

def zeroInit : Except Fault (State O B) := do
  let s ← mmap host s x
  return s.put (s.word x) host.zeros

def defaultSemInit : Except Fault (State O B) := zeroInit host s x
def defaultRwlockInit : Except Fault (State O B) := zeroInit host s x
def defaultPthreadCondInit : Except Fault (State O B) := zeroInit host s x

def defaultPthreadMutexInit : Except Fault (State O B) :=
  match (bionicMutexInitMap n).find? fun e => e.1 = s.object x with
  | some e => do
    let s ← mmap host s x
    return s.put (s.word x) (host.initializer e.2)
  | none => .error .assertion

def lazily (init : State O B → O → Except Fault (State O B)) (f : Use) :
    Except Fault (State O B × Reply) := do
  let s ← initIfNotMapped s x init
  return native host s x f

def checked (f : Use) : Except Fault (State O B × Reply) :=
  if s.isMapped x then .ok (native host s x f) else .error .assertion

def create (f : Init) (attr : Option O) : Except Fault (State O B × Reply) := do
  let s ← mmap host s x
  let r := host.init f (s.contents (s.word x)) (attr.map fun a => s.contents (s.word a))
  return (s.put (s.word x) r.1, r.2)

/-- A destroyer leaves the pointer in the object. -/
def destroy (family : Family) : Except Fault (State O B × Reply) :=
  if s.isMapped x then
    let r := host.destroy family (s.contents (s.word x))
    .ok (munmap (s.put (s.word x) r.1) x, r.2)
  else .ok (s, ⟨0, []⟩)

section sem

def bionicSemDestroy := destroy host s x .sem
def bionicSemInit (pshared : ℤ) (value : ℕ) :=
  create host (s.erase x) x (.sem pshared value) none
def bionicSemPost := lazily host s x (defaultSemInit host) .semPost
def bionicSemWait := lazily host s x (defaultSemInit host) .semWait
def bionicSemTrywait := lazily host s x (defaultSemInit host) .semTrywait
def bionicSemTimedwait (abs_timeout : Timespec) :=
  lazily host s x (defaultSemInit host) (.semTimedwait abs_timeout)

end sem

section rwlock

def bionicPthreadRwlockDestroy := destroy host s x .rwlock
/-- The only initialiser that does not set its object to zero. -/
def bionicPthreadRwlockInit (attr : Option ℕ) := create host s x (.rwlock attr) none
def bionicPthreadRwlockRdlock := lazily host s x (defaultRwlockInit host) .rwlockRdlock
def bionicPthreadRwlockUnlock := lazily host s x (defaultRwlockInit host) .rwlockUnlock
def bionicPthreadRwlockWrlock := lazily host s x (defaultRwlockInit host) .rwlockWrlock

end rwlock

section attr

def bionicPthreadAttrDestroy := destroy host s x .attr
def bionicPthreadAttrInit := create host (s.erase x) x .attr none
def bionicPthreadGetattrNp (thread : ℕ) : Except Fault (State O B × Reply) :=
  if thread = 0 then .error .assertion
  else create host (s.erase x) x (.getattrNp thread) none
def bionicPthreadAttrSettstack (stackaddr stacksize : ℕ) :=
  checked host s x (.attrSetstack stackaddr stacksize)
def bionicPthreadAttrGetstack := checked host s x .attrGetstack
def bionicPthreadAttrSetstacksize (stacksize : ℕ) :=
  checked host s x (.attrSetstacksize stacksize)
def bionicPthreadAttrGetstacksize := checked host s x .attrGetstacksize
def bionicPthreadAttrSetschedpolicy (policy : ℤ) :=
  checked host s x (.attrSetschedpolicy policy)
def bionicPthreadAttrGetschedpolicy := checked host s x .attrGetschedpolicy
def bionicPthreadAttrSetschedparam (sched_priority : ℤ) :=
  checked host s x (.attrSetschedparam sched_priority)
def bionicPthreadAttrGetschedparam := checked host s x .attrGetschedparam
def bionicPthreadAttrSetdetachstate (detachstate : ℤ) :=
  checked host s x (.attrSetdetachstate detachstate)
def bionicPthreadAttrGetdetachstate := checked host s x .attrGetdetachstate

end attr

section mutex

def bionicPthreadMutexattrSettype (type : ℤ) := checked host s x (.mutexattrSettype type)
def bionicPthreadMutexattrDestroy := destroy host s x .mutexattr
def bionicPthreadMutexattrInit := create host (s.erase x) x .mutexattr none
def bionicPthreadMutexDestroy := destroy host s x .mutex
def bionicPthreadMutexInit (attr : Option O) : Except Fault (State O B × Reply) :=
  if attr.all s.isMapped then create host (s.erase x) x .mutex attr else .error .assertion
def bionicPthreadMutexLock := lazily host s x (defaultPthreadMutexInit host n) .mutexLock
def bionicPthreadMutexTrylock :=
  lazily host s x (defaultPthreadMutexInit host n) .mutexTrylock
def bionicPthreadMutexUnlock := lazily host s x (defaultPthreadMutexInit host n) .mutexUnlock

end mutex

section cond

def bionicPthreadCondattrDestroy := destroy host s x .condattr
def bionicPthreadCondattrInit := create host (s.erase x) x .condattr none
def bionicPthreadCondattrSetclock (clock_id : ℤ) := checked host s x (.condattrSetclock clock_id)
def bionicPthreadCondDestroy := destroy host s x .cond
/-- The assertion on the attribute is commented out. -/
def bionicPthreadCondInit (attr : Option O) := create host (s.erase x) x .cond attr
def bionicPthreadCondBroadcast :=
  lazily host s x (defaultPthreadCondInit host) .condBroadcast
def bionicPthreadCondSignal := lazily host s x (defaultPthreadCondInit host) .condSignal

variable (mutex : O)

def waiting (f : Wait) : Except Fault (State O B × Reply) := do
  let s ← initIfNotMapped s x (defaultPthreadCondInit host)
  let s ← initIfNotMapped s mutex (defaultPthreadMutexInit host n)
  let r := host.wait f (s.contents (s.word x)) (s.contents (s.word mutex))
  return ((s.put (s.word x) r.1.1).put (s.word mutex) r.1.2, r.2)

def bionicPthreadCondWait := waiting host n s x mutex .condWait
def bionicPthreadCondTimedwait (abs_timeout : Timespec) :=
  waiting host n s x mutex (.condTimedwait abs_timeout)

def Timespec.plus (tv time : Timespec) : Timespec :=
  if tv.tv_nsec + time.tv_nsec ≥ 1000000000 then
    ⟨tv.tv_sec + time.tv_sec + 1, tv.tv_nsec + time.tv_nsec - 1000000000⟩
  else ⟨tv.tv_sec + time.tv_sec, tv.tv_nsec + time.tv_nsec⟩

def bionicPthreadCondTimedwaitRelativeNp (reltime : Timespec) :=
  bionicPthreadCondTimedwait host n s x mutex ((host.clockGettime .realtime).plus reltime)
def bionicPthreadCondTimedwaitMonotonicNp (abstime : Timespec) :=
  bionicPthreadCondTimedwait host n s x mutex ((host.clockGettime .monotonic).plus abstime)
def bionicPthreadCondTimedwaitMonotonic (abstime : Timespec) :=
  bionicPthreadCondTimedwaitMonotonicNp host n s x mutex abstime

end cond

end Bionic.PthreadCalls
