import Mathlib
import BionicTranslation.Traces

/-!
# One-time construction

Any number of threads come to one guard. Compiled code tests it and calls
`__cxa_guard_acquire`; a thread that this lets construct calls `__cxa_guard_release`
or, when the constructor throws, `__cxa_guard_abort`. Each access to the guard, and each
futex call on it, is a step of its own.
-/

set_option autoImplicit false

namespace Bionic.OneTimeGuard
open Bionic.Traces

abbrev Word := BitVec 32

def constructionNotYetStarted : Word := 0
def constructionComplete : Word := 1
def constructionUnderwayWithoutWaiter : Word := 0x100
def constructionUnderwayWithWaiter : Word := 0x200

inductive Place where
  | idle
  | loading
  | looping (oldValue : Word)
  | waiting
  | asleep
  | constructing
  | waking (released : Bool)
  | passed
  deriving DecidableEq, Repr

structure State (T : Type) where
  state : Word
  place : T → Place

/-- What the guard is for: `passed` goes on to use the object without constructing it. -/
inductive Event (T : Type) where
  | began (t : T)
  | finished (t : T)
  | failed (t : T)
  | passed (t : T)
  deriving DecidableEq, Repr

inductive Once (T : Type) where
  | fresh
  | underway (t : T)
  | complete
  deriving DecidableEq, Repr

variable {T : Type}

def start : State T := ⟨constructionNotYetStarted, fun _ => .idle⟩

section steps
variable [DecidableEq T]

/-- One thread constructs at a time, until one has finished; nobody passes before that. -/
def Once.step : Once T → Event T → Option (Once T)
  | .fresh, .began t => some (.underway t)
  | .underway u, .finished t => if u = t then some .complete else none
  | .underway u, .failed t => if u = t then some .fresh else none
  | .complete, .passed _ => some .complete
  | _, _ => none

def State.go (s : State T) (t : T) (p : Place) : State T :=
  { s with place := Function.update s.place t p }

def State.set (s : State T) (value : Word) : State T := { s with state := value }

/-- The test in compiled code: of the lowest bit on ARM, of the lowest byte elsewhere. -/
def tested (arm : Bool) (state : Word) : Bool := state &&& (if arm then 1 else 0xff) != 0

def test (arm : Bool) (s : State T) (t : T) : Option (State T × Option (Event T)) :=
  match s.place t with
  | .idle =>
    if tested arm s.state then some (s.go t .passed, some (.passed t))
    else some (s.go t .loading, none)
  | _ => none

def load (s : State T) (t : T) : Option (State T × Option (Event T)) :=
  match s.place t with
  | .loading => some (s.go t (.looping s.state), none)
  | _ => none

/-- `atomic_compare_exchange_weak_explicit`: what the state is after it when it has succeeded,
or else what is stored in `expected`. It may fail on a state that it expects. -/
def compareExchangeWeak (state expected desired : Word) (spurious : Bool) : Except Word Word :=
  if state = expected ∧ ¬ spurious then .ok desired else .error state

def loop (s : State T) (t : T) (spurious : Bool) : Option (State T × Option (Event T)) :=
  match s.place t with
  | .looping oldValue =>
    if oldValue = constructionComplete then some (s.go t .passed, some (.passed t))
    else if oldValue = constructionNotYetStarted then
      match compareExchangeWeak s.state oldValue constructionUnderwayWithoutWaiter spurious with
      | .error state => some (s.go t (.looping state), none)
      | .ok state => some ((s.go t .constructing).set state, some (.began t))
    else if oldValue = constructionUnderwayWithoutWaiter then
      match compareExchangeWeak s.state oldValue constructionUnderwayWithWaiter spurious with
      | .error state => some (s.go t (.looping state), none)
      | .ok state => some ((s.go t .waiting).set state, none)
    else some (s.go t .waiting, none)
  | _ => none

/-- `FUTEX_WAIT` returns at once when the state is not the one the caller expects. -/
def futexWait (s : State T) (t : T) : Option (State T × Option (Event T)) :=
  match s.place t with
  | .waiting =>
    some (s.go t (if s.state = constructionUnderwayWithWaiter then .asleep else .loading), none)
  | _ => none

def interrupt (s : State T) (t : T) : Option (State T × Option (Event T)) :=
  match s.place t with
  | .asleep => some (s.go t .loading, none)
  | _ => none

def Place.behind (released : Bool) : Place := if released then .passed else .idle

def State.exchange (s : State T) (t : T) (value : Word) (released : Bool) : State T :=
  (s.go t (if s.state = constructionUnderwayWithWaiter then .waking released
    else .behind released)).set value

def cxaGuardRelease (s : State T) (t : T) : Option (State T × Option (Event T)) :=
  match s.place t with
  | .constructing => some (s.exchange t constructionComplete true, some (.finished t))
  | _ => none

def cxaGuardAbort (s : State T) (t : T) : Option (State T × Option (Event T)) :=
  match s.place t with
  | .constructing => some (s.exchange t constructionNotYetStarted false, some (.failed t))
  | _ => none

def Place.woken (p : Place) : Place := if p = .asleep then .loading else p

def State.wakeAll (s : State T) : State T := { s with place := fun t => (s.place t).woken }

/-- A wake of up to `INT_MAX` threads, which is all of them. -/
def futexWake (s : State T) (t : T) : Option (State T × Option (Event T)) :=
  match s.place t with
  | .waking released => some (s.wakeAll.go t (.behind released), none)
  | _ => none

def leave (s : State T) (t : T) : Option (State T × Option (Event T)) :=
  match s.place t with
  | .passed => some (s.go t .idle, none)
  | _ => none

inductive Step where
  | test
  | load
  | loop (spurious : Bool)
  | futexWait
  | interrupt
  | cxaGuardRelease
  | cxaGuardAbort
  | futexWake
  | leave
  deriving DecidableEq, Repr

def step (arm : Bool) (s : State T) (a : T × Step) : Option (State T × Option (Event T)) :=
  match a.2 with
  | .test => test arm s a.1
  | .load => load s a.1
  | .loop spurious => loop s a.1 spurious
  | .futexWait => futexWait s a.1
  | .interrupt => interrupt s a.1
  | .cxaGuardRelease => cxaGuardRelease s a.1
  | .cxaGuardAbort => cxaGuardAbort s a.1
  | .futexWake => futexWake s a.1
  | .leave => leave s a.1

end steps

/-- The values of the state that stand for a stage of the construction. -/
def Once.Shows : Once T → Word → Prop
  | .fresh, w => w = constructionNotYetStarted
  | .underway _, w =>
    w = constructionUnderwayWithoutWaiter ∨ w = constructionUnderwayWithWaiter
  | .complete, w => w = constructionComplete

def Place.Knows (o : Once T) : Place → Prop
  | .looping oldValue => (∃ p : Once T, p.Shows oldValue) ∧
      (oldValue = constructionComplete → o = .complete)
  | .passed => o = .complete
  | .waking released => released = true → o = .complete
  | _ => True

/-- The guard is at a stage. Whoever sleeps is one that the thread at work will find in the
state, or that a thread is about to wake. -/
structure Refines (s : State T) (o : Once T) : Prop where
  shows : o.Shows s.state
  constructing : ∀ t, s.place t = .constructing ↔ o = .underway t
  knows : ∀ t, (s.place t).Knows o
  sleeps : ∀ t, s.place t = .asleep → s.state = constructionUnderwayWithWaiter ∨
    ∃ u released, s.place u = .waking released

variable {s : State T} {o o' : Once T} {t u : T} {p : Place} {w : Word}

theorem shows_complete (h : o.Shows constructionComplete) : o = .complete := by
  cases o with
  | fresh =>
    rw [Once.Shows] at h
    exact absurd h (by decide)
  | underway t =>
    rw [Once.Shows] at h
    exact absurd h (by decide)
  | complete => rfl

theorem shows_fresh (h : o.Shows constructionNotYetStarted) : o = .fresh := by
  cases o with
  | fresh => rfl
  | underway t =>
    rw [Once.Shows] at h
    exact absurd h (by decide)
  | complete =>
    rw [Once.Shows] at h
    exact absurd h (by decide)

theorem shows_underway (h : o.Shows w)
    (hw : w = constructionUnderwayWithoutWaiter ∨ w = constructionUnderwayWithWaiter) :
    ∃ t, o = .underway t := by
  cases o with
  | fresh =>
    rw [Once.Shows] at h
    rw [h] at hw
    exact absurd hw (by decide)
  | underway t => exact ⟨t, rfl⟩
  | complete =>
    rw [Once.Shows] at h
    rw [h] at hw
    exact absurd hw (by decide)

theorem tested_iff (arm : Bool) (h : o.Shows w) : tested arm w = true ↔ o = .complete := by
  cases o with
  | fresh =>
    rw [Once.Shows] at h
    subst h
    cases arm <;> simp [tested, constructionNotYetStarted]
  | underway t => rcases h with rfl | rfl <;> cases arm <;> simp <;> decide
  | complete =>
    rw [Once.Shows] at h
    subst h
    cases arm <;> simp <;> decide

theorem refines_start : Refines (start : State T) .fresh where
  shows := rfl
  constructing t := by simp [start]
  knows _ := trivial
  sleeps _ h := nomatch h

theorem Place.Knows.mono (h : p.Knows o) (hc : o = .complete → o' = .complete) : p.Knows o' := by
  cases p with
  | looping old => exact ⟨h.1, fun e => hc (h.2 e)⟩
  | passed => exact hc h
  | waking released => exact fun e => hc (h e)
  | _ => trivial

@[simp] theorem set_place (s : State T) (w : Word) : (s.set w).place = s.place := rfl
@[simp] theorem set_state (s : State T) (w : Word) : (s.set w).state = w := rfl

variable [DecidableEq T]

@[simp] theorem go_state (s : State T) (t : T) (p : Place) : (s.go t p).state = s.state := rfl
@[simp] theorem go_same (s : State T) (t : T) (p : Place) : (s.go t p).place t = p :=
  Function.update_self ..
theorem go_other (s : State T) (p : Place) (h : u ≠ t) : (s.go t p).place u = s.place u :=
  Function.update_of_ne h ..
theorem Refines.move (h : Refines s o) (hw : o'.Shows w)
    (hat : p = .constructing ↔ o' = .underway t)
    (hothers : ∀ u, u ≠ t → (o' = .underway u ↔ o = .underway u))
    (hc : o = .complete → o' = .complete) (hp : p.Knows o')
    (hnot : ∀ released, s.place t ≠ .waking released)
    (hs : p = .asleep → w = constructionUnderwayWithWaiter)
    (hk : s.state = constructionUnderwayWithWaiter →
      w = constructionUnderwayWithWaiter ∨ ∃ released, p = .waking released) :
    Refines ((s.go t p).set w) o' where
  shows := hw
  constructing u := by
    rw [set_place]
    by_cases hu : u = t
    · rw [hu, go_same]
      exact hat
    · rw [go_other s p hu, h.constructing u, hothers u hu]
  knows u := by
    rw [set_place]
    by_cases hu : u = t
    · rw [hu, go_same]
      exact hp
    · rw [go_other s p hu]
      exact (h.knows u).mono hc
  sleeps u hu := by
    rw [set_state, set_place]
    rw [set_place] at hu
    by_cases hut : u = t
    · rw [hut, go_same] at hu
      exact Or.inl (hs hu)
    · rw [go_other s p hut] at hu
      rcases h.sleeps u hu with hst | ⟨v, released, hv⟩
      · apply (hk hst).imp_right
        rintro ⟨released, rfl⟩
        exact ⟨t, released, go_same s t _⟩
      · -- whoever was about to wake it still is
        have hvt : v ≠ t := by
          rintro rfl
          exact hnot released hv
        exact Or.inr ⟨v, released, (go_other s p hvt).trans hv⟩

theorem Refines.go (h : Refines s o) (hfrom : s.place t ≠ .constructing)
    (hto : p ≠ .constructing) (hp : p.Knows o) (hnot : ∀ released, s.place t ≠ .waking released)
    (hs : p = .asleep → s.state = constructionUnderwayWithWaiter) : Refines (s.go t p) o := by
  have hat : p = .constructing ↔ o = .underway t :=
    ⟨fun e => absurd e hto, fun e => absurd ((h.constructing t).mpr e) hfrom⟩
  exact h.move h.shows hat (fun _ _ => Iff.rfl) id hp hnot hs Or.inl

variable {arm spurious : Bool} {s' : State T} {e : Option (Event T)}

theorem Refines.test (h : Refines s o) (hs : test arm s t = some (s', e)) :
    ∃ o', e.toList.foldlM Once.step o = some o' ∧ Refines s' o' := by
  cases hp : s.place t with
  | idle =>
    simp only [OneTimeGuard.test, hp] at hs
    split_ifs at hs with ht
    · cases hs
      have ho := (tested_iff arm h.shows).mp ht
      refine ⟨o, ?_, h.go (by simp [hp]) nofun ho (by simp [hp]) nofun⟩
      subst ho
      rfl
    · cases hs
      exact ⟨o, rfl, h.go (by simp [hp]) nofun trivial (by simp [hp]) nofun⟩
  | _ => simp [OneTimeGuard.test, hp] at hs

theorem Refines.load (h : Refines s o) (hs : load s t = some (s', e)) :
    ∃ o', e.toList.foldlM Once.step o = some o' ∧ Refines s' o' := by
  cases hp : s.place t with
  | loading =>
    simp only [OneTimeGuard.load, hp] at hs
    cases hs
    have hk : (Place.looping s.state).Knows o :=
      ⟨⟨o, h.shows⟩, fun he => shows_complete (he ▸ h.shows)⟩
    exact ⟨o, rfl, h.go (by simp [hp]) nofun hk (by simp [hp]) nofun⟩
  | _ => simp [OneTimeGuard.load, hp] at hs

theorem compareExchangeWeak_ok {state expected desired r : Word}
    (h : compareExchangeWeak state expected desired spurious = .ok r) :
    state = expected ∧ r = desired := by
  rw [compareExchangeWeak] at h
  split_ifs at h with hc
  cases h
  exact ⟨hc.1, rfl⟩

theorem compareExchangeWeak_error {state expected desired r : Word}
    (h : compareExchangeWeak state expected desired spurious = .error r) : r = state := by
  rw [compareExchangeWeak] at h
  split_ifs at h with hc
  cases h
  rfl

theorem Refines.loop (h : Refines s o) (hs : loop s t spurious = some (s', e)) :
    ∃ o', e.toList.foldlM Once.step o = some o' ∧ Refines s' o' := by
  cases hp : s.place t with
  | looping old =>
    have hold := h.knows t
    rw [hp] at hold
    -- after a failed exchange the thread knows the state it has found
    have hstay : Refines (s.go t (.looping s.state)) o :=
      h.go (by simp [hp]) nofun ⟨⟨o, h.shows⟩, fun he => shows_complete (he ▸ h.shows)⟩
        (by simp [hp]) nofun
    simp only [OneTimeGuard.loop, hp] at hs
    by_cases h1 : old = constructionComplete
    · rw [if_pos h1] at hs
      cases hs
      have ho := hold.2 h1
      refine ⟨o, ?_, h.go (by simp [hp]) nofun ho (by simp [hp]) nofun⟩
      subst ho
      rfl
    rw [if_neg h1] at hs
    by_cases h2 : old = constructionNotYetStarted
    · rw [if_pos h2] at hs
      cases hx : compareExchangeWeak s.state old constructionUnderwayWithoutWaiter spurious with
      | error r =>
        rw [hx] at hs
        cases hs
        rw [compareExchangeWeak_error hx]
        exact ⟨o, rfl, hstay⟩
      | ok r =>
        rw [hx] at hs
        cases hs
        obtain ⟨hst, rfl⟩ := compareExchangeWeak_ok hx
        have hfresh := shows_fresh (show o.Shows constructionNotYetStarted from
          h2 ▸ hst ▸ h.shows)
        subst hfresh
        refine ⟨.underway t, rfl, h.move (Or.inl rfl) (by simp) ?_ nofun trivial (by simp [hp])
          nofun fun hw => ?_⟩
        · intro u hu
          simp [Ne.symm hu]
        · rw [hst, h2] at hw
          exact absurd hw (by decide)
    rw [if_neg h2] at hs
    by_cases h3 : old = constructionUnderwayWithoutWaiter
    · rw [if_pos h3] at hs
      cases hx : compareExchangeWeak s.state old constructionUnderwayWithWaiter spurious with
      | error r =>
        rw [hx] at hs
        cases hs
        rw [compareExchangeWeak_error hx]
        exact ⟨o, rfl, hstay⟩
      | ok r =>
        rw [hx] at hs
        cases hs
        obtain ⟨hst, rfl⟩ := compareExchangeWeak_ok hx
        obtain ⟨u, rfl⟩ := shows_underway h.shows (Or.inl (hst.trans h3))
        have hut : ¬ Once.underway u = .underway t := by
          intro he
          have hc := (h.constructing t).mpr he
          rw [hp] at hc
          cases hc
        refine ⟨.underway u, rfl, h.move (Or.inr rfl) (iff_of_false nofun hut)
          (fun _ _ => Iff.rfl) id trivial (by simp [hp]) nofun fun _ => Or.inl rfl⟩
    · rw [if_neg h3] at hs
      cases hs
      exact ⟨o, rfl, h.go (by simp [hp]) nofun trivial (by simp [hp]) nofun⟩
  | _ => simp [OneTimeGuard.loop, hp] at hs

theorem Refines.futexWait (h : Refines s o) (hs : futexWait s t = some (s', e)) :
    ∃ o', e.toList.foldlM Once.step o = some o' ∧ Refines s' o' := by
  cases hp : s.place t with
  | waiting =>
    simp only [OneTimeGuard.futexWait, hp] at hs
    cases hs
    refine ⟨o, rfl, ?_⟩
    by_cases hw : s.state = constructionUnderwayWithWaiter
    · rw [if_pos hw]
      exact h.go (by simp [hp]) nofun trivial (by simp [hp]) fun _ => hw
    · rw [if_neg hw]
      exact h.go (by simp [hp]) nofun trivial (by simp [hp]) nofun
  | _ => simp [OneTimeGuard.futexWait, hp] at hs

theorem Refines.interrupt (h : Refines s o) (hs : interrupt s t = some (s', e)) :
    ∃ o', e.toList.foldlM Once.step o = some o' ∧ Refines s' o' := by
  cases hp : s.place t with
  | asleep =>
    simp only [OneTimeGuard.interrupt, hp] at hs
    cases hs
    exact ⟨o, rfl, h.go (by simp [hp]) nofun trivial (by simp [hp]) nofun⟩
  | _ => simp [OneTimeGuard.interrupt, hp] at hs

theorem Refines.leave (h : Refines s o) (hs : leave s t = some (s', e)) :
    ∃ o', e.toList.foldlM Once.step o = some o' ∧ Refines s' o' := by
  cases hp : s.place t with
  | passed =>
    simp only [OneTimeGuard.leave, hp] at hs
    cases hs
    exact ⟨o, rfl, h.go (by simp [hp]) nofun trivial (by simp [hp]) nofun⟩
  | _ => simp [OneTimeGuard.leave, hp] at hs

theorem Refines.exchange {released : Bool} (h : Refines s (.underway t))
    (hw : o'.Shows w) (ho : ∀ u, o' ≠ .underway u) (hr : released = true → o' = .complete) :
    Refines (s.exchange t w released) o' := by
  have hp := (h.constructing t).mpr rfl
  rw [State.exchange]
  apply h.move hw
  · refine iff_of_false ?_ (ho t)
    split_ifs
    · nofun
    · cases released <;> nofun
  · intro u hu
    exact iff_of_false (ho u) fun e => hu (Once.underway.inj e).symm
  · nofun
  · split_ifs
    · exact hr
    · cases released with
      | true => exact hr rfl
      | false => trivial
  · simp [hp]
  · intro he
    split_ifs at he
    cases released <;> cases he
  · intro hwait
    rw [if_pos hwait]
    exact Or.inr ⟨released, rfl⟩

theorem Refines.cxaGuardRelease (h : Refines s o) (hs : cxaGuardRelease s t = some (s', e)) :
    ∃ o', e.toList.foldlM Once.step o = some o' ∧ Refines s' o' := by
  cases hp : s.place t with
  | constructing =>
    simp only [OneTimeGuard.cxaGuardRelease, hp] at hs
    cases hs
    obtain rfl := (h.constructing t).mp hp
    exact ⟨.complete, by simp [Once.step], h.exchange rfl nofun fun _ => rfl⟩
  | _ => simp [OneTimeGuard.cxaGuardRelease, hp] at hs

theorem Refines.cxaGuardAbort (h : Refines s o) (hs : cxaGuardAbort s t = some (s', e)) :
    ∃ o', e.toList.foldlM Once.step o = some o' ∧ Refines s' o' := by
  cases hp : s.place t with
  | constructing =>
    simp only [OneTimeGuard.cxaGuardAbort, hp] at hs
    cases hs
    obtain rfl := (h.constructing t).mp hp
    exact ⟨.fresh, by simp [Once.step], h.exchange rfl nofun nofun⟩
  | _ => simp [OneTimeGuard.cxaGuardAbort, hp] at hs

omit [DecidableEq T] in
@[simp] theorem wakeAll_place (s : State T) (t : T) : s.wakeAll.place t = (s.place t).woken := rfl

theorem woken_asleep : p.woken ≠ .asleep := by
  rw [Place.woken]
  split_ifs with h
  · nofun
  · exact h

theorem woken_sleeper (h : p = .asleep) : p.woken = .loading := if_pos h

theorem woken_other (h : p ≠ .asleep) : p.woken = p := if_neg h

theorem Refines.futexWake (h : Refines s o) (hs : futexWake s t = some (s', e)) :
    ∃ o', e.toList.foldlM Once.step o = some o' ∧ Refines s' o' := by
  cases hp : s.place t with
  | waking released =>
    simp only [OneTimeGuard.futexWake, hp] at hs
    cases hs
    have hk := h.knows t
    rw [hp] at hk
    refine ⟨o, rfl, h.shows, fun u => ?_, fun u => ?_, fun u hu => ?_⟩
    · rw [← h.constructing u]
      by_cases hut : u = t
      · subst hut
        rw [go_same, hp]
        cases released <;> simp [Place.behind]
      · rw [go_other _ _ hut, wakeAll_place]
        by_cases ha : s.place u = .asleep
        · rw [woken_sleeper ha, ha]
          exact iff_of_false nofun nofun
        · rw [woken_other ha]
    · by_cases hut : u = t
      · subst hut
        rw [go_same]
        cases released with
        | true => exact hk rfl
        | false => trivial
      · rw [go_other _ _ hut, wakeAll_place]
        by_cases ha : s.place u = .asleep
        · rw [woken_sleeper ha]
          trivial
        · rw [woken_other ha]
          exact h.knows u
    · by_cases hut : u = t
      · subst hut
        rw [go_same] at hu
        cases released <;> cases hu
      · rw [go_other _ _ hut, wakeAll_place] at hu
        exact absurd hu woken_asleep
  | _ => simp [OneTimeGuard.futexWake, hp] at hs

theorem Refines.keep {a : T × Step} (h : Refines s o) (hs : step arm s a = some (s', e)) :
    ∃ o', e.toList.foldlM Once.step o = some o' ∧ Refines s' o' := by
  obtain ⟨t, a⟩ := a
  cases a with
  | test => exact h.test hs
  | load => exact h.load hs
  | loop spurious => exact h.loop hs
  | futexWait => exact h.futexWait hs
  | interrupt => exact h.interrupt hs
  | cxaGuardRelease => exact h.cxaGuardRelease hs
  | cxaGuardAbort => exact h.cxaGuardAbort hs
  | futexWake => exact h.futexWake hs
  | leave => exact h.leave hs

variable {as : List (T × Step)} {es : List (Event T)}

theorem run_refines (h : run (step arm) start as = some (s, es)) :
    ∃ o, es.foldlM Once.step .fresh = some o ∧ Refines s o :=
  run_simulates (fun _ _ _ _ _ => Refines.keep) h refines_start

def Event.finishes : Event T → Bool
  | .finished _ => true
  | _ => false

theorem once_complete (h : es.foldlM Once.step .complete = some o) :
    o = .complete ∧ es.countP Event.finishes = 0 := by
  induction es with
  | nil =>
    cases h
    exact ⟨rfl, rfl⟩
  | cons e es ih =>
    rw [List.foldlM_cons] at h
    cases e with
    | passed t => exact ih h
    | _ => cases h

theorem once_finished (h : es.foldlM Once.step o = some o') (ho : o ≠ .complete) :
    es.countP Event.finishes = if o' = .complete then 1 else 0 := by
  induction es generalizing o with
  | nil =>
    cases h
    rw [if_neg ho]
    rfl
  | cons e es ih =>
    rw [List.foldlM_cons] at h
    obtain ⟨o₁, hfirst, hrest⟩ := Option.bind_eq_some_iff.mp h
    cases o with
    | complete => exact absurd rfl ho
    | fresh =>
      cases e with
      | began t =>
        cases hfirst
        exact ih hrest nofun
      | _ => cases hfirst
    | underway u =>
      cases e with
      | finished t =>
        rw [Once.step] at hfirst
        split_ifs at hfirst
        cases hfirst
        obtain ⟨rfl, hzero⟩ := once_complete hrest
        rw [List.countP_cons_of_pos rfl, hzero, if_pos rfl]
      | failed t =>
        rw [Once.step] at hfirst
        split_ifs at hfirst
        cases hfirst
        exact ih hrest nofun
      | _ => cases hfirst

theorem once_passed {es₁ es₂ : List (Event T)}
    (h : (es₁ ++ .passed t :: es₂).foldlM Once.step .fresh = some o) :
    es₁.countP Event.finishes = 1 := by
  rw [List.foldlM_append] at h
  obtain ⟨o₁, hfirst, hrest⟩ := Option.bind_eq_some_iff.mp h
  have hc : o₁ = .complete := by
    rw [List.foldlM_cons] at hrest
    cases o₁ with
    | complete => rfl
    | _ => cases hrest
  rw [once_finished hfirst nofun, if_pos hc]

/-- Whatever threads come to a guard in whatever order, with constructors that throw and
exchanges that fail: one thread at a time constructs, one at most finishes, nobody passes before
that, and both tests of the state tell whether somebody has finished. -/
theorem run_once (h : run (step arm) start as = some (s, es)) :
    (∀ t u, s.place t = .constructing → s.place u = .constructing → t = u) ∧
      es.countP Event.finishes = (if tested arm s.state then 1 else 0) ∧
      (∀ es₁ t es₂, es = es₁ ++ .passed t :: es₂ → es₁.countP Event.finishes = 1) ∧
      ∃ o, es.foldlM Once.step .fresh = some o ∧ o.Shows s.state ∧
        ∀ t, s.place t = .constructing ↔ o = .underway t := by
  obtain ⟨o, hacc, hr⟩ := run_refines h
  refine ⟨fun t u ht hu => ?_, ?_, ?_, o, hacc, hr.shows, hr.constructing⟩
  · have hto := (hr.constructing t).mp ht
    rw [(hr.constructing u).mp hu] at hto
    exact (Once.underway.inj hto).symm
  · rw [once_finished hacc nofun]
    exact if_congr (tested_iff arm hr.shows).symm rfl rfl
  · rintro es₁ t es₂ rfl
    exact once_passed hacc

def pairRun : List (Bool × Step) :=
  [(false, .test), (false, .load), (false, .loop false), (true, .test), (true, .load),
    (true, .loop true), (true, .loop false), (true, .futexWait), (false, .cxaGuardRelease),
    (false, .futexWake), (true, .load), (true, .loop false)]

theorem run_once_pair : ∃ s es, run (step false) (start : State Bool) pairRun = some (s, es) ∧
    es = [.began false, .finished false, .passed true] ∧
    es.countP Event.finishes = (if tested false s.state then 1 else 0) := by
  have h : run (step false) (start : State Bool) pairRun =
      some (_, [.began false, .finished false, .passed true]) := rfl
  exact ⟨_, _, h, rfl, (run_once h).2.1⟩

theorem futexWake_wakes {released : Bool} (hu : s.place u = .waking released) (hut : u ≠ t)
    (ht : s.place t = .asleep) :
    ∃ s', futexWake s u = some (s', none) ∧ s'.place t = .loading := by
  refine ⟨s.wakeAll.go u (.behind released), by simp only [futexWake, hu], ?_⟩
  rw [go_other _ _ hut.symm, wakeAll_place, woken_sleeper ht]

/-- For a thread that sleeps there is always another that will wake it: one about to, or the one
that constructs, whether it goes on to release the guard or to abort. -/
theorem asleep_woken (h : run (step arm) start as = some (s, es)) (ht : s.place t = .asleep) :
    ∃ u, u ≠ t ∧
      ((∃ s', run (step arm) s [(u, .futexWake)] = some (s', []) ∧ s'.place t = .loading) ∨
        s.place u = .constructing ∧ ∀ a, a = .cxaGuardRelease ∨ a = .cxaGuardAbort →
          ∃ s' e, run (step arm) s [(u, a), (u, .futexWake)] = some (s', [e]) ∧
            s'.place t = .loading) := by
  obtain ⟨o, -, hr⟩ := run_refines h
  rcases hr.sleeps t ht with hw | ⟨u, released, hu⟩
  · obtain ⟨u, rfl⟩ := shows_underway hr.shows (Or.inr hw)
    have hu := (hr.constructing u).mpr rfl
    have hut : u ≠ t := by
      rintro rfl
      rw [ht] at hu
      cases hu
    refine ⟨u, hut, Or.inr ⟨hu, fun a ha => ?_⟩⟩
    -- the exchange finds that somebody waits
    have hex : ∀ w released, ∃ s', futexWake (s.exchange u w released) u = some (s', none) ∧
        s'.place t = .loading := by
      intro w released
      apply futexWake_wakes _ hut
      · rw [State.exchange, set_place, go_other _ _ hut.symm, ht]
      · exact released
      · rw [State.exchange, set_place, go_same, if_pos hw]
    rcases ha with rfl | rfl
    · obtain ⟨s', hs', hload⟩ := hex constructionComplete true
      refine ⟨s', .finished u, ?_, hload⟩
      simp [run, step, cxaGuardRelease, hu, hs']
    · obtain ⟨s', hs', hload⟩ := hex constructionNotYetStarted false
      refine ⟨s', .failed u, ?_, hload⟩
      simp [run, step, cxaGuardAbort, hu, hs']
  · have hut : u ≠ t := by
      rintro rfl
      rw [ht] at hu
      cases hu
    obtain ⟨s', hs', hload⟩ := futexWake_wakes hu hut ht
    refine ⟨u, hut, Or.inl ⟨s', ?_, hload⟩⟩
    simp [run, step, hs']

theorem asleep_woken_pair : ∃ s es,
    run (step true) (start : State Bool) (pairRun.take 8) = some (s, es) ∧
      ∃ u, u ≠ true ∧
        ((∃ s', run (step true) s [(u, .futexWake)] = some (s', []) ∧ s'.place true = .loading) ∨
          s.place u = .constructing ∧ ∀ a, a = .cxaGuardRelease ∨ a = .cxaGuardAbort →
            ∃ s' e, run (step true) s [(u, a), (u, .futexWake)] = some (s', [e]) ∧
              s'.place true = .loading) := by
  have h : run (step true) (start : State Bool) (pairRun.take 8) = some (_, [.began false]) := rfl
  exact ⟨_, _, h, asleep_woken h rfl⟩

/-- The steps a thread at a place still takes when the construction is complete. -/
def Place.remaining : Place → ℕ
  | .idle => 1
  | .loading => 2
  | .looping oldValue =>
    if oldValue = constructionComplete then 1
    else if oldValue = constructionUnderwayWithWaiter then 4 else 2
  | .waiting => 3
  | .asleep => 3
  | .constructing => 0
  | .waking released => if released then 1 else 2
  | .passed => 0

theorem remaining_le (p : Place) : p.remaining ≤ 4 := by
  cases p with
  | looping old =>
    rw [Place.remaining]
    split_ifs <;> decide
  | waking released => cases released <;> decide
  | _ => simp [Place.remaining]

theorem remaining_woken (p : Place) : p.woken.remaining ≤ p.remaining := by
  by_cases h : p = .asleep
  · subst h
    decide
  · rw [woken_other h]

theorem loop_moves (hs : loop s t spurious = some (s', e)) : ∃ p w, s' = (s.go t p).set w := by
  cases hp : s.place t with
  | looping old =>
    simp only [loop, hp] at hs
    split_ifs at hs
    · cases hs
      exact ⟨_, s.state, rfl⟩
    · cases hx : compareExchangeWeak s.state old constructionUnderwayWithoutWaiter spurious with
      | error r =>
        rw [hx] at hs
        cases hs
        exact ⟨_, s.state, rfl⟩
      | ok r =>
        rw [hx] at hs
        cases hs
        exact ⟨_, _, rfl⟩
    · cases hx : compareExchangeWeak s.state old constructionUnderwayWithWaiter spurious with
      | error r =>
        rw [hx] at hs
        cases hs
        exact ⟨_, s.state, rfl⟩
      | ok r =>
        rw [hx] at hs
        cases hs
        exact ⟨_, _, rfl⟩
    · cases hs
      exact ⟨_, s.state, rfl⟩
  | _ => simp [loop, hp] at hs

theorem step_cases {a : Step} (hs : step arm s (t, a) = some (s', e)) :
    (∃ p w, s' = (s.go t p).set w) ∨ ∃ released, s' = s.wakeAll.go t (.behind released) := by
  cases a with
  | test =>
    cases hp : s.place t with
    | idle =>
      simp only [step, test, hp] at hs
      split_ifs at hs <;> cases hs <;> exact Or.inl ⟨_, s.state, rfl⟩
    | _ => simp [step, test, hp] at hs
  | load =>
    cases hp : s.place t with
    | loading =>
      simp only [step, load, hp] at hs
      cases hs
      exact Or.inl ⟨_, s.state, rfl⟩
    | _ => simp [step, load, hp] at hs
  | loop spurious => exact Or.inl (loop_moves hs)
  | futexWait =>
    cases hp : s.place t with
    | waiting =>
      simp only [step, futexWait, hp] at hs
      cases hs
      exact Or.inl ⟨_, s.state, rfl⟩
    | _ => simp [step, futexWait, hp] at hs
  | interrupt =>
    cases hp : s.place t with
    | asleep =>
      simp only [step, interrupt, hp] at hs
      cases hs
      exact Or.inl ⟨_, s.state, rfl⟩
    | _ => simp [step, interrupt, hp] at hs
  | cxaGuardRelease =>
    cases hp : s.place t with
    | constructing =>
      simp only [step, cxaGuardRelease, hp] at hs
      cases hs
      exact Or.inl ⟨_, _, rfl⟩
    | _ => simp [step, cxaGuardRelease, hp] at hs
  | cxaGuardAbort =>
    cases hp : s.place t with
    | constructing =>
      simp only [step, cxaGuardAbort, hp] at hs
      cases hs
      exact Or.inl ⟨_, _, rfl⟩
    | _ => simp [step, cxaGuardAbort, hp] at hs
  | futexWake =>
    cases hp : s.place t with
    | waking released =>
      simp only [step, futexWake, hp] at hs
      cases hs
      exact Or.inr ⟨released, rfl⟩
    | _ => simp [step, futexWake, hp] at hs
  | leave =>
    cases hp : s.place t with
    | passed =>
      simp only [step, leave, hp] at hs
      cases hs
      exact Or.inl ⟨_, s.state, rfl⟩
    | _ => simp [step, leave, hp] at hs

theorem step_others {a : Step} (hs : step arm s (u, a) = some (s', e)) (hu : t ≠ u) :
    (s'.place t).remaining ≤ (s.place t).remaining := by
  rcases step_cases hs with ⟨p, w, rfl⟩ | ⟨released, rfl⟩
  · rw [set_place, go_other s p hu]
  · rw [go_other _ _ hu, wakeAll_place]
    exact remaining_woken _

omit [DecidableEq T] in
theorem Refines.not_exchanged (h : Refines s .complete) {old desired : Word}
    (hne : old ≠ constructionComplete) (spurious : Bool) :
    compareExchangeWeak s.state old desired spurious = .error s.state :=
  if_neg fun hc => hne (hc.1.symm.trans h.shows)

theorem Refines.loop_lowers (h : Refines s .complete)
    (hs : OneTimeGuard.loop s t spurious = some (s', e)) :
    (s'.place t).remaining + 1 ≤ (s.place t).remaining := by
  have hstate : s.state = constructionComplete := h.shows
  cases hp : s.place t with
  | looping old =>
    simp only [OneTimeGuard.loop, hp] at hs
    split_ifs at hs with h1 h2 h3
    · cases hs
      rw [go_same, h1]
      decide
    · rw [h.not_exchanged h1] at hs
      cases hs
      rw [go_same, hstate, h2]
      decide
    · rw [h.not_exchanged h1] at hs
      cases hs
      rw [go_same, hstate, h3]
      decide
    · cases hs
      have hk := h.knows t
      rw [hp] at hk
      obtain ⟨⟨p, hshows⟩, -⟩ := hk
      have hw : old = constructionUnderwayWithWaiter := by
        cases p with
        | fresh => exact absurd hshows h2
        | underway u => exact hshows.resolve_left h3
        | complete => exact absurd hshows h1
      rw [go_same, hw]
      decide
  | _ => simp [OneTimeGuard.loop, hp] at hs

/-- With the construction complete every step of a thread brings it closer to passing. -/
theorem Refines.lowers {a : Step} (h : Refines s .complete) (ha : a ≠ .leave)
    (hs : step arm s (t, a) = some (s', e)) :
    (s'.place t).remaining + 1 ≤ (s.place t).remaining := by
  have hstate : s.state = constructionComplete := h.shows
  have hnot : s.place t ≠ .constructing := fun hp => nomatch (h.constructing t).mp hp
  cases a with
  | leave => exact absurd rfl ha
  | test =>
    cases hp : s.place t with
    | idle =>
      simp only [step, OneTimeGuard.test, hp] at hs
      rw [if_pos ((tested_iff arm h.shows).mpr rfl)] at hs
      cases hs
      rw [go_same]
      decide
    | _ => simp [step, OneTimeGuard.test, hp] at hs
  | load =>
    cases hp : s.place t with
    | loading =>
      simp only [step, OneTimeGuard.load, hp] at hs
      cases hs
      rw [go_same, hstate]
      decide
    | _ => simp [step, OneTimeGuard.load, hp] at hs
  | loop spurious => exact h.loop_lowers hs
  | futexWait =>
    cases hp : s.place t with
    | waiting =>
      simp only [step, OneTimeGuard.futexWait, hp] at hs
      cases hs
      rw [go_same, hstate]
      decide
    | _ => simp [step, OneTimeGuard.futexWait, hp] at hs
  | interrupt =>
    cases hp : s.place t with
    | asleep =>
      simp only [step, OneTimeGuard.interrupt, hp] at hs
      cases hs
      rw [go_same]
      decide
    | _ => simp [step, OneTimeGuard.interrupt, hp] at hs
  | cxaGuardRelease =>
    cases hp : s.place t with
    | constructing => exact absurd hp hnot
    | _ => simp [step, OneTimeGuard.cxaGuardRelease, hp] at hs
  | cxaGuardAbort =>
    cases hp : s.place t with
    | constructing => exact absurd hp hnot
    | _ => simp [step, OneTimeGuard.cxaGuardAbort, hp] at hs
  | futexWake =>
    cases hp : s.place t with
    | waking released =>
      simp only [step, OneTimeGuard.futexWake, hp] at hs
      cases hs
      rw [go_same]
      cases released <;> decide
    | _ => simp [step, OneTimeGuard.futexWake, hp] at hs

theorem Refines.step_complete {a : T × Step} (h : Refines s .complete)
    (hs : step arm s a = some (s', e)) : Refines s' .complete := by
  obtain ⟨o', hacc, hr⟩ := h.keep hs
  rwa [(once_complete hacc).1] at hr

theorem loop_some (spurious : Bool) {old : Word} (hp : s.place t = .looping old) :
    ∃ r, loop s t spurious = some r := by
  simp only [loop, hp]
  split_ifs
  · exact ⟨_, rfl⟩
  · cases compareExchangeWeak s.state old constructionUnderwayWithoutWaiter spurious with
    | error r => exact ⟨_, rfl⟩
    | ok r => exact ⟨_, rfl⟩
  · cases compareExchangeWeak s.state old constructionUnderwayWithWaiter spurious with
    | error r => exact ⟨_, rfl⟩
    | ok r => exact ⟨_, rfl⟩
  · exact ⟨_, rfl⟩

theorem Refines.awake (h : Refines s .complete) (hp : s.place t ≠ .passed)
    (ha : s.place t ≠ .asleep) : ∃ a r, a ≠ .leave ∧ step arm s (t, a) = some r := by
  cases hat : s.place t with
  | idle =>
    refine ⟨.test, (s.go t .passed, some (.passed t)), nofun, ?_⟩
    simp only [step, OneTimeGuard.test, hat]
    exact if_pos ((tested_iff arm h.shows).mpr rfl)
  | loading => exact ⟨.load, _, nofun, by simp only [step, OneTimeGuard.load, hat]; rfl⟩
  | looping old =>
    obtain ⟨r, hr⟩ := loop_some false hat
    exact ⟨.loop false, r, nofun, hr⟩
  | waiting => exact ⟨.futexWait, _, nofun, by simp only [step, OneTimeGuard.futexWait, hat]; rfl⟩
  | asleep => exact absurd hat ha
  | constructing => exact nomatch (h.constructing t).mp hat
  | waking released =>
    exact ⟨.futexWake, _, nofun, by simp only [step, OneTimeGuard.futexWake, hat]; rfl⟩
  | passed => exact absurd hat hp

omit [DecidableEq T] in
theorem passed_of_remaining (h : Refines s .complete) (hp : (s.place t).remaining = 0) :
    s.place t = .passed := by
  cases hat : s.place t with
  | passed => rfl
  | constructing => exact nomatch (h.constructing t).mp hat
  | looping old =>
    rw [hat, Place.remaining] at hp
    split_ifs at hp
  | waking released =>
    rw [hat] at hp
    cases released <;> cases hp
  | _ =>
    rw [hat] at hp
    cases hp

/-- After somebody has finished a thread needs at most four steps of its own to pass, whatever
the others do meanwhile. It can always take the next one, or sleeps while another is about to
wake it. -/
theorem complete_passes {bs : List (T × Step)} {fs : List (Event T)}
    (h : run (step arm) start as = some (s, es)) (hc : s.state = constructionComplete)
    (hr : run (step arm) s bs = some (s', fs)) (hl : (t, .leave) ∉ bs) :
    bs.countP (fun a => a.1 = t) ≤ 4 ∧
      (bs.countP (fun a => a.1 = t) = 4 → s'.place t = .passed) ∧
      (s'.place t = .passed ∨ (∃ a r, a ≠ .leave ∧ step arm s' (t, a) = some r) ∨
        s'.place t = .asleep ∧ ∃ u released, s'.place u = .waking released) := by
  obtain ⟨o, -, hs⟩ := run_refines h
  obtain rfl := shows_complete (hc ▸ hs.shows)
  obtain ⟨o', hacc, hs'⟩ := run_simulates (fun _ _ _ _ _ => Refines.keep) hr hs
  obtain rfl := (once_complete hacc).1
  have hbound : bs.countP (fun a => a.1 = t) + (s'.place t).remaining ≤ (s.place t).remaining := by
    apply run_bounded (P := fun s => Refines s .complete) (m := fun s => (s.place t).remaining)
      _ _ _ hr hs
    · exact fun _ _ _ _ hs hstep => hs.step_complete hstep
    · rintro s ⟨u, a⟩ s' e hs hmem hown hstep
      obtain rfl : u = t := of_decide_eq_true hown
      exact hs.lowers (fun ha => hl (ha ▸ hmem)) hstep
    · rintro s ⟨u, a⟩ s' e hs hown hstep
      have hut : ¬ u = t := fun he => hown (decide_eq_true he)
      exact step_others hstep (Ne.symm hut)
  have h4 := remaining_le (s.place t)
  refine ⟨by omega, fun hfour => passed_of_remaining hs' (by omega), ?_⟩
  by_cases hp : s'.place t = .passed
  · exact Or.inl hp
  by_cases ha : s'.place t = .asleep
  · apply (hs'.sleeps t ha).elim
    · intro hw
      have hstate : s'.state = constructionComplete := hs'.shows
      rw [hstate] at hw
      exact absurd hw (by decide)
    · exact fun hw => Or.inr (Or.inr ⟨ha, hw⟩)
  · exact Or.inr (Or.inl (hs'.awake hp ha))

/-- The second thread wakes up late, the first one having finished. -/
theorem complete_passes_pair : ∃ s es s' fs,
    run (step false) (start : State Bool) (pairRun.take 9) = some (s, es) ∧
      run (step false) s [(true, .interrupt), (true, .load), (true, .loop false)] =
        some (s', fs) ∧
      [(true, Step.interrupt), (true, .load), (true, .loop false)].countP
        (fun a => a.1 = true) ≤ 4 := by
  have h : run (step false) (start : State Bool) (pairRun.take 9) =
      some (_, [.began false, .finished false]) := rfl
  refine ⟨_, _, _, _, h, rfl, ?_⟩
  exact (complete_passes (t := true) h rfl rfl (by decide)).1

end Bionic.OneTimeGuard
