import Mathlib
import BionicTranslation.Traces
import BionicTranslation.PthreadCalls

/-!
# Lazy initialisation of a mutex

Threads lock and unlock one statically initialised mutex. Whoever finds it without a
native mutex maps one, stores its address and copies the initializer, each in a step
of its own, so two threads can find the mutex without one.
-/

set_option autoImplicit false

namespace Bionic.LazyMutex
open Bionic.PthreadCalls Bionic.Traces

structure NativeMutex (T : Type) where
  type : MutexType
  owner : Option T
  count : ℕ
  deriving DecidableEq, Repr

variable {T : Type}

/-- What the native initializer of a type holds. A page of zeros is that of the normal one. -/
def NativeMutex.unlocked (type : MutexType) : NativeMutex T := ⟨type, none, 0⟩

inductive Call where
  | lock
  | trylock
  | unlock
  deriving DecidableEq, Repr

/-- Where a thread is. Behind `testing` it is in `INIT_IF_NOT_MAPPED`, and from `comparing`
to `filling` in `default_pthread_mutex_init`. -/
inductive Place where
  | idle
  | testing (c : Call)
  | comparing (c : Call) (i : ℕ)
  | mapping (c : Call) (type : MutexType)
  | storing (c : Call) (type : MutexType) (page : ℕ)
  | filling (c : Call) (type : MutexType)
  | reading (c : Call)
  | calling (c : Call) (page : ℕ)
  deriving DecidableEq, Repr

def Place.calls : Place → Bool
  | .calling _ _ => true
  | _ => false

/-- `held` counts the successful locks of a thread that it has not undone. -/
structure State (T : Type) where
  mutex : Object
  pages : ℕ → Bool
  native : ℕ → NativeMutex T
  place : T → Place
  held : T → ℕ
  aborted : Bool

def start (mutex : Object) (pages : ℕ → Bool) : State T :=
  ⟨mutex, pages, fun _ => .unlocked .normal, fun _ => .idle, fun _ => 0, false⟩

/-- Nobody but one thread is between a successful lock and its unlock. -/
def AtMostOne (s : State T) : Prop := ∀ t u, 0 < s.held t → 0 < s.held u → t = u

section steps
variable [DecidableEq T]

/-- The native calls that return, with the mutex they leave and the locks the thread has.
A call that waits has no result. -/
def NativeMutex.call (m : NativeMutex T) (t : T) (held : ℕ) : Call → Option (NativeMutex T × ℕ)
  | .lock =>
    match m.owner with
    | none => some (⟨m.type, some t, 1⟩, held + 1)
    | some u =>
      if u = t then
        match m.type with
        | .normal => none
        | .recursive => some (⟨m.type, some t, m.count + 1⟩, held + 1)
        | .errorcheck => some (m, held)
      else none
  | .trylock =>
    match m.owner with
    | none => some (⟨m.type, some t, 1⟩, held + 1)
    | some u =>
      if u = t ∧ m.type = .recursive then some (⟨m.type, some t, m.count + 1⟩, held + 1)
      else some (m, held)
  | .unlock =>
    if m.owner = some t then
      if m.count ≤ 1 then some (.unlocked m.type, held - 1)
      else some (⟨m.type, some t, m.count - 1⟩, held - 1)
    else if m.type = .normal then some (.unlocked m.type, held - 1)
    else some (m, held - 1)

def State.go (s : State T) (t : T) (p : Place) : State T :=
  { s with place := Function.update s.place t p }

def State.put (s : State T) (page : ℕ) (m : NativeMutex T) : State T :=
  { s with native := Function.update s.native page m }

def State.mapPage (s : State T) (page : ℕ) : State T :=
  { s with pages := Function.update s.pages page true }

def State.point (s : State T) (page : ℕ) : State T :=
  { s with mutex := { s.mutex with glibc := page } }

def State.hold (s : State T) (t : T) (held : ℕ) : State T :=
  { s with held := Function.update s.held t held }

/-- `bionic_pthread_mutex_lock` and the others are entered; only who has a lock unlocks. -/
def enter (s : State T) (t : T) (c : Call) : Option (State T) :=
  match s.place t with
  | .idle => if c = .unlock ∧ s.held t = 0 then none else some (s.go t (.testing c))
  | _ => none

def test (s : State T) (t : T) : Option (State T) :=
  match s.place t with
  | .testing c =>
    some (s.go t (if isMapped s.pages s.mutex.glibc then .reading c else .comparing c 0))
  | _ => none

/-- One round of the loop over `bionic_mutex_init_map`; behind the last entry is the assertion. -/
def compare (n : ℕ) (s : State T) (t : T) : Option (State T) :=
  match s.place t with
  | .comparing c i =>
    match (bionicMutexInitMap n)[i]? with
    | some (bionic, type) =>
      some (s.go t (if bionic = s.mutex then .mapping c type else .comparing c (i + 1)))
    | none => some { s with aborted := true }
  | _ => none

/-- `mmap` returns a page that is not mapped. -/
def map (s : State T) (t : T) (page : ℕ) : Option (State T) :=
  match s.place t with
  | .mapping c type =>
    if s.pages page then none
    else some (((s.go t (.storing c type page)).mapPage page).put page (.unlocked .normal))
  | _ => none

def store (s : State T) (t : T) : Option (State T) :=
  match s.place t with
  | .storing c type page =>
    some ((s.go t (.filling c type)).point page)
  | _ => none

def fill (s : State T) (t : T) : Option (State T) :=
  match s.place t with
  | .filling c type =>
    some ((s.go t (.reading c)).put s.mutex.glibc (.unlocked type))
  | _ => none

def read (s : State T) (t : T) : Option (State T) :=
  match s.place t with
  | .reading c => some (s.go t (.calling c s.mutex.glibc))
  | _ => none

def call (s : State T) (t : T) : Option (State T) :=
  match s.place t with
  | .calling c page =>
    ((s.native page).call t (s.held t) c).map fun r =>
      ((s.go t .idle).put page r.1).hold t r.2
  | _ => none

inductive Step where
  | enter (c : Call)
  | test
  | compare
  | map (page : ℕ)
  | store
  | fill
  | read
  | call
  deriving DecidableEq, Repr

def step (n : ℕ) (s : State T) (a : T × Step) : Option (State T) :=
  if s.aborted then none
  else match a.2 with
    | .enter c => enter s a.1 c
    | .test => test s a.1
    | .compare => compare n s a.1
    | .map page => map s a.1 page
    | .store => store s a.1
    | .fill => fill s a.1
    | .read => read s a.1
    | .call => call s a.1

end steps

/-- A pointer is stored only while nobody has the mutex or is at a native call with an earlier
pointer, and an initializer copied only while nobody has the native mutex it goes to. -/
def Unraced (s : State T) (a : T × Step) : Prop :=
  match a.2 with
  | .store => ∀ u, s.held u = 0 ∧ (s.place u).calls = false
  | .fill => (s.native s.mutex.glibc).owner = none
  | .enter _ => True
  | .test => True
  | .compare => True
  | .map _ => True
  | .read => True
  | .call => True

instance [Fintype T] (s : State T) (a : T × Step) : Decidable (Unraced s a) :=
  match a with
  | (_, .store) => inferInstanceAs (Decidable (∀ u, s.held u = 0 ∧ (s.place u).calls = false))
  | (_, .fill) => decidable_of_iff _ Option.isNone_iff_eq_none
  | (_, .enter _) => inferInstanceAs (Decidable True)
  | (_, .test) => inferInstanceAs (Decidable True)
  | (_, .compare) => inferInstanceAs (Decidable True)
  | (_, .map _) => inferInstanceAs (Decidable True)
  | (_, .read) => inferInstanceAs (Decidable True)
  | (_, .call) => inferInstanceAs (Decidable True)

def Fits (s : State T) (t : T) : Place → Prop
  | .idle => True
  | .testing c => c = .unlock → 0 < s.held t
  | .comparing c _ => c ≠ .unlock ∧ s.held t = 0
  | .mapping c _ => c ≠ .unlock ∧ s.held t = 0
  | .storing c _ page => (c ≠ .unlock ∧ s.held t = 0) ∧ s.pages page = true
  | .filling c _ => (c ≠ .unlock ∧ s.held t = 0) ∧ s.pages s.mutex.glibc = true
  | .reading c => (c = .unlock → 0 < s.held t) ∧ s.pages s.mutex.glibc = true
  | .calling c page => (c = .unlock → 0 < s.held t) ∧ s.pages s.mutex.glibc = true ∧
      page = s.mutex.glibc

/-- The threads that have the mutex have the native one it points to. -/
structure Sound (s : State T) : Prop where
  fits : ∀ t, Fits s t (s.place t)
  owned : ∀ page u, (s.native page).owner = some u → page = s.mutex.glibc ∧ 0 < s.held u
  holder : ∀ t, 0 < s.held t → s.pages s.mutex.glibc = true ∧
    (s.native s.mutex.glibc).owner = some t ∧ (s.native s.mutex.glibc).count = s.held t

variable {n : ℕ} {s s' : State T} {t u : T} {c : Call} {p : Place}

theorem sound_start (mutex : Object) (pages : ℕ → Bool) :
    Sound (start mutex pages : State T) where
  fits _ := trivial
  owned _ _ h := nomatch h
  holder _ h := absurd h (lt_irrefl 0)

theorem Sound.at_most_one (h : Sound s) : AtMostOne s := by
  intro t u ht hu
  have hto := (h.holder t ht).2.1
  have huo := (h.holder u hu).2.1
  exact Option.some.inj (hto.symm.trans huo)

theorem Fits.keep (hf : Fits s u p) (hh : s'.held u = s.held u)
    (hm : s'.mutex.glibc = s.mutex.glibc)
    (hp : ∀ page, s.pages page = true → s'.pages page = true) : Fits s' u p := by
  cases p with
  | idle => trivial
  | testing c =>
    rw [Fits, hh]
    exact hf
  | comparing c i =>
    rw [Fits, hh]
    exact hf
  | mapping c type =>
    rw [Fits, hh]
    exact hf
  | storing c type page =>
    rw [Fits, hh]
    exact ⟨hf.1, hp _ hf.2⟩
  | filling c type =>
    rw [Fits, hh, hm]
    exact ⟨hf.1, hp _ hf.2⟩
  | reading c =>
    rw [Fits, hh, hm]
    exact ⟨hf.1, hp _ hf.2⟩
  | calling c page =>
    rw [Fits, hh, hm]
    exact ⟨hf.1, hp _ hf.2.1, hf.2.2⟩

section pages
variable (s) (page : ℕ) (m : NativeMutex T)

@[simp] theorem put_mutex : (s.put page m).mutex = s.mutex := rfl
@[simp] theorem put_pages : (s.put page m).pages = s.pages := rfl
@[simp] theorem put_place : (s.put page m).place = s.place := rfl
@[simp] theorem put_held : (s.put page m).held = s.held := rfl
@[simp] theorem put_same : (s.put page m).native page = m := Function.update_self ..
theorem put_other {q : ℕ} (h : q ≠ page) : (s.put page m).native q = s.native q :=
  Function.update_of_ne h ..

@[simp] theorem mapPage_mutex : (s.mapPage page).mutex = s.mutex := rfl
@[simp] theorem mapPage_native : (s.mapPage page).native = s.native := rfl
@[simp] theorem mapPage_place : (s.mapPage page).place = s.place := rfl
@[simp] theorem mapPage_held : (s.mapPage page).held = s.held := rfl
@[simp] theorem mapPage_same : (s.mapPage page).pages page = true := Function.update_self ..

theorem mapPage_mapped {q : ℕ} (h : s.pages q = true) : (s.mapPage page).pages q = true := by
  by_cases hq : q = page
  · rw [hq, mapPage_same]
  · exact (Function.update_of_ne hq ..).trans h

@[simp] theorem point_glibc : (s.point page).mutex.glibc = page := rfl
@[simp] theorem point_pages : (s.point page).pages = s.pages := rfl
@[simp] theorem point_native : (s.point page).native = s.native := rfl
@[simp] theorem point_place : (s.point page).place = s.place := rfl
@[simp] theorem point_held : (s.point page).held = s.held := rfl

end pages

theorem Sound.put_free {page : ℕ} {type : MutexType} (h : Sound s)
    (hfree : ∀ u, 0 < s.held u → s.mutex.glibc ≠ page) :
    Sound (s.put page (.unlocked type)) where
  fits u := (h.fits u).keep rfl rfl fun _ => id
  owned q u hq := by
    by_cases hqp : q = page
    · rw [hqp, put_same] at hq
      cases hq
    · rw [put_other _ _ _ hqp] at hq
      exact h.owned q u hq
  holder u hu := by
    rw [put_mutex, put_other _ _ _ (hfree u hu)]
    exact h.holder u hu

variable [DecidableEq T]

section places
variable (s t p) (k : ℕ)

@[simp] theorem go_mutex : (s.go t p).mutex = s.mutex := rfl
@[simp] theorem go_pages : (s.go t p).pages = s.pages := rfl
@[simp] theorem go_native : (s.go t p).native = s.native := rfl
@[simp] theorem go_held : (s.go t p).held = s.held := rfl
@[simp] theorem go_same : (s.go t p).place t = p := Function.update_self ..
theorem go_other (h : u ≠ t) : (s.go t p).place u = s.place u := Function.update_of_ne h ..

@[simp] theorem hold_mutex : (s.hold t k).mutex = s.mutex := rfl
@[simp] theorem hold_pages : (s.hold t k).pages = s.pages := rfl
@[simp] theorem hold_native : (s.hold t k).native = s.native := rfl
@[simp] theorem hold_place : (s.hold t k).place = s.place := rfl
@[simp] theorem hold_same : (s.hold t k).held t = k := Function.update_self ..
theorem hold_other (h : u ≠ t) : (s.hold t k).held u = s.held u := Function.update_of_ne h ..

end places

theorem enter_spec (h : enter s t c = some s') :
    s.place t = .idle ∧ (c = .unlock → 0 < s.held t) ∧ s' = s.go t (.testing c) := by
  cases hp : s.place t with
  | idle =>
    simp only [enter, hp] at h
    split_ifs at h with hc
    cases h
    exact ⟨rfl, fun hu => Nat.pos_of_ne_zero fun h0 => hc ⟨hu, h0⟩, rfl⟩
  | _ => simp [enter, hp] at h

theorem test_spec (h : test s t = some s') : ∃ c, s.place t = .testing c ∧
    s' = s.go t (if isMapped s.pages s.mutex.glibc then .reading c else .comparing c 0) := by
  cases hp : s.place t with
  | testing c =>
    simp only [test, hp] at h
    exact ⟨c, rfl, (Option.some.inj h).symm⟩
  | _ => simp [test, hp] at h

theorem compare_spec (h : compare n s t = some s') : ∃ c i, s.place t = .comparing c i ∧
    ((∃ type, s' = s.go t (.mapping c type)) ∨ s' = s.go t (.comparing c (i + 1)) ∨
      s' = { s with aborted := true }) := by
  cases hp : s.place t with
  | comparing c i =>
    refine ⟨c, i, rfl, ?_⟩
    simp only [compare, hp] at h
    cases he : (bionicMutexInitMap n)[i]? with
    | none =>
      simp only [he] at h
      exact Or.inr (Or.inr (Option.some.inj h).symm)
    | some e =>
      simp only [he] at h
      split_ifs at h
      · exact Or.inl ⟨e.2, (Option.some.inj h).symm⟩
      · exact Or.inr (Or.inl (Option.some.inj h).symm)
  | _ => simp [compare, hp] at h

theorem map_spec {page : ℕ} (h : map s t page = some s') : ∃ c type,
    s.place t = .mapping c type ∧ s.pages page = false ∧
      s' = ((s.go t (.storing c type page)).mapPage page).put page (.unlocked .normal) := by
  cases hp : s.place t with
  | mapping c type =>
    simp only [map, hp] at h
    split_ifs at h with hm
    exact ⟨c, type, rfl, Bool.eq_false_iff.mpr hm, (Option.some.inj h).symm⟩
  | _ => simp [map, hp] at h

theorem store_spec (h : store s t = some s') : ∃ c type page,
    s.place t = .storing c type page ∧ s' = (s.go t (.filling c type)).point page := by
  cases hp : s.place t with
  | storing c type page =>
    simp only [store, hp] at h
    exact ⟨c, type, page, rfl, (Option.some.inj h).symm⟩
  | _ => simp [store, hp] at h

theorem fill_spec (h : fill s t = some s') : ∃ c type, s.place t = .filling c type ∧
    s' = (s.go t (.reading c)).put s.mutex.glibc (.unlocked type) := by
  cases hp : s.place t with
  | filling c type =>
    simp only [fill, hp] at h
    exact ⟨c, type, rfl, (Option.some.inj h).symm⟩
  | _ => simp [fill, hp] at h

theorem read_spec (h : read s t = some s') : ∃ c, s.place t = .reading c ∧
    s' = s.go t (.calling c s.mutex.glibc) := by
  cases hp : s.place t with
  | reading c =>
    simp only [read, hp] at h
    exact ⟨c, rfl, (Option.some.inj h).symm⟩
  | _ => simp [read, hp] at h

theorem call_spec (h : call s t = some s') : ∃ c page r, s.place t = .calling c page ∧
    (s.native page).call t (s.held t) c = some r ∧
      s' = ((s.go t .idle).put page r.1).hold t r.2 := by
  cases hp : s.place t with
  | calling c page =>
    simp only [call, hp] at h
    obtain ⟨r, hr, rfl⟩ := Option.map_eq_some_iff.mp h
    exact ⟨c, page, r, rfl, hr, rfl⟩
  | _ => simp [call, hp] at h

theorem Sound.fits_turn (h : Sound s) (ht : Fits s' t (s'.place t))
    (ho : ∀ u, u ≠ t → s'.place u = s.place u ∧ s'.held u = s.held u)
    (hm : s'.mutex.glibc = s.mutex.glibc)
    (hp : ∀ page, s.pages page = true → s'.pages page = true) (u : T) :
    Fits s' u (s'.place u) := by
  by_cases hu : u = t
  · rw [hu]
    exact ht
  · obtain ⟨hpl, hh⟩ := ho u hu
    rw [hpl]
    exact (h.fits u).keep hh hm hp

theorem Sound.go (h : Sound s) (hf : Fits s t p) : Sound (s.go t p) where
  fits := h.fits_turn (by rw [go_same]; exact hf.keep rfl rfl fun _ => id)
    (fun _ hu => ⟨go_other s t p hu, rfl⟩) rfl fun _ => id
  owned := h.owned
  holder := h.holder

theorem Sound.enter (h : Sound s) (hs : enter s t c = some s') : Sound s' := by
  obtain ⟨-, hc, rfl⟩ := enter_spec hs
  exact h.go hc

theorem Sound.test (h : Sound s) (hs : test s t = some s') : Sound s' := by
  obtain ⟨c, hp, rfl⟩ := test_spec hs
  have hf := h.fits t
  rw [hp] at hf
  apply h.go
  split_ifs with hm
  · exact ⟨hf, hm⟩
  · have h0 : s.held t = 0 := by
      by_contra hne
      exact hm (h.holder t (Nat.pos_of_ne_zero hne)).1
    exact ⟨fun hc => (hf hc).ne' h0, h0⟩

theorem Sound.compare (h : Sound s) (hs : compare n s t = some s') : Sound s' := by
  obtain ⟨c, i, hp, hs⟩ := compare_spec hs
  have hf := h.fits t
  rw [hp] at hf
  rcases hs with ⟨type, rfl⟩ | rfl | rfl
  · exact h.go hf
  · exact h.go hf
  · exact ⟨fun u => (h.fits u).keep rfl rfl fun _ => id, h.owned, h.holder⟩

theorem Sound.map {page : ℕ} (h : Sound s) (hs : map s t page = some s') : Sound s' := by
  obtain ⟨c, type, hp, hfree, rfl⟩ := map_spec hs
  have hf := h.fits t
  rw [hp] at hf
  have hmap : Sound (s.mapPage page) :=
    ⟨fun u => (h.fits u).keep rfl rfl fun _ => mapPage_mapped s page, h.owned,
      fun u hu => (h.holder u hu).imp_left (mapPage_mapped s page)⟩
  have hgo : Sound ((s.mapPage page).go t (.storing c type page)) :=
    hmap.go ⟨hf, mapPage_same s page⟩
  refine hgo.put_free fun u hu he => ?_
  -- the page of a mutex that somebody has was mapped before
  have hm := (h.holder u hu).1
  rw [show s.mutex.glibc = page from he, hfree] at hm
  cases hm

theorem Sound.store (h : Sound s) (hs : store s t = some s') (hu : Unraced s (t, .store)) :
    Sound s' := by
  obtain ⟨c, type, page, hp, rfl⟩ := store_spec hs
  have hf := h.fits t
  rw [hp] at hf
  refine ⟨fun u => ?_, fun q u hq => ?_, fun u hheld => absurd (hu u).1 hheld.ne'⟩
  · by_cases hut : u = t
    · rw [hut, point_place, go_same]
      exact hf
    · rw [point_place, go_other _ _ _ hut]
      have hfu := h.fits u
      cases hpu : s.place u with
      | filling d ty =>
        rw [hpu] at hfu
        exact ⟨hfu.1, hf.2⟩
      | reading d =>
        rw [hpu] at hfu
        exact ⟨hfu.1, hf.2⟩
      | calling d q =>
        have hno := (hu u).2
        rw [hpu] at hno
        cases hno
      | _ =>
        rw [hpu] at hfu
        exact hfu
  · exact absurd (hu u).1 (h.owned q u hq).2.ne'

theorem Sound.fill (h : Sound s) (hs : fill s t = some s') (hu : Unraced s (t, .fill)) :
    Sound s' := by
  obtain ⟨c, type, hp, rfl⟩ := fill_spec hs
  have hf := h.fits t
  rw [hp] at hf
  have hgo : Sound (s.go t (.reading c)) := h.go ⟨fun hc => absurd hc hf.1.1, hf.2⟩
  refine hgo.put_free fun u hheld _ => ?_
  have hown := (h.holder u hheld).2.1
  rw [show (s.native s.mutex.glibc).owner = none from hu] at hown
  cases hown

theorem Sound.read (h : Sound s) (hs : read s t = some s') : Sound s' := by
  obtain ⟨c, hp, rfl⟩ := read_spec hs
  have hf := h.fits t
  rw [hp] at hf
  exact h.go ⟨hf.1, hf.2, rfl⟩

variable {m m' : NativeMutex T} {k k' : ℕ}

theorem call_keeps (hc : m.call t k c = some (m', k')) (ho : m.owner = some t → 0 < k)
    (hk : 0 < k → m.owner = some t ∧ m.count = k) (hu : c = .unlock → 0 < k) :
    (∀ u, u ≠ t → m.owner = some u → m' = m) ∧
      (∀ u, m'.owner = some u → u = t ∧ 0 < k' ∨ u ≠ t ∧ m.owner = some u) ∧
      (0 < k' → m'.owner = some t ∧ m'.count = k') := by
  obtain ⟨type, owner, count⟩ := m
  rcases Nat.eq_zero_or_pos k with rfl | hpos
  · -- a thread without it takes it when it is free, and changes nothing otherwise
    have hne : owner ≠ some t := fun e => absurd (ho e) (lt_irrefl 0)
    cases owner with
    | none =>
      cases c with
      | unlock => exact absurd (hu rfl) (lt_irrefl 0)
      | _ =>
        simp only [NativeMutex.call, Option.some.injEq, Prod.mk.injEq] at hc
        obtain ⟨rfl, rfl⟩ := hc
        simp
    | some v =>
      have hv : v ≠ t := fun e => hne (congrArg some e)
      cases c with
      | lock => simp [NativeMutex.call, hv] at hc
      | trylock =>
        simp only [NativeMutex.call, hv, false_and, if_false, Option.some.injEq,
          Prod.mk.injEq] at hc
        obtain ⟨rfl, rfl⟩ := hc
        refine ⟨fun _ _ _ => rfl, fun u hown => Or.inr ⟨?_, hown⟩,
          fun h => absurd h (lt_irrefl 0)⟩
        rintro rfl
        exact hne hown
      | unlock => exact absurd (hu rfl) (lt_irrefl 0)
  · obtain ⟨rfl, rfl⟩ := hk hpos
    have hother : ∀ u, u ≠ t → some t = some u → m' = ⟨type, some t, count⟩ :=
      fun u hut e => absurd (Option.some.inj e).symm hut
    refine ⟨hother, ?_⟩
    cases c with
    | lock =>
      cases type with
      | normal => simp [NativeMutex.call] at hc
      | recursive =>
        simp only [NativeMutex.call, if_true, Option.some.injEq, Prod.mk.injEq] at hc
        obtain ⟨rfl, rfl⟩ := hc
        simp
      | errorcheck =>
        simp only [NativeMutex.call, if_true, Option.some.injEq, Prod.mk.injEq] at hc
        obtain ⟨rfl, rfl⟩ := hc
        simpa using hpos
    | trylock =>
      by_cases hr : type = .recursive
      · simp only [NativeMutex.call, hr, and_self, if_true, Option.some.injEq,
          Prod.mk.injEq] at hc
        obtain ⟨rfl, rfl⟩ := hc
        simp
      · simp only [NativeMutex.call, hr, and_false, if_false, Option.some.injEq,
          Prod.mk.injEq] at hc
        obtain ⟨rfl, rfl⟩ := hc
        simpa using hpos
    | unlock =>
      simp only [NativeMutex.call, if_true] at hc
      split_ifs at hc with hle
      · cases hc
        have h1 : count - 1 = 0 := by omega
        simp [NativeMutex.unlocked, h1]
      · cases hc
        have h1 : 0 < count - 1 := by omega
        simpa using h1

theorem Sound.call (h : Sound s) (hs : call s t = some s') : Sound s' := by
  obtain ⟨c, page, ⟨m', k'⟩, hp, hc, rfl⟩ := call_spec hs
  have hf := h.fits t
  rw [hp] at hf
  obtain ⟨hu, hm, rfl⟩ := hf
  obtain ⟨hsame, hown, hcount⟩ := call_keeps hc (fun e => (h.owned _ t e).2)
    (fun e => (h.holder t e).2) hu
  refine ⟨h.fits_turn ?_ (fun u hut => ⟨go_other s t _ hut, hold_other _ _ _ hut⟩) rfl
    fun _ => id, fun q u hq => ?_, fun u hheld => ?_⟩
  · rw [hold_place, put_place, go_same]
    trivial
  · by_cases hqm : q = s.mutex.glibc
    · refine ⟨hqm, ?_⟩
      rw [hold_native, hqm, put_same] at hq
      rcases hown u hq with ⟨rfl, hk⟩ | ⟨hut, hold⟩
      · rwa [hold_same]
      · rw [hold_other _ _ _ hut]
        exact (h.owned _ u hold).2
    · rw [hold_native, put_other _ _ _ hqm] at hq
      exact absurd (h.owned q u hq).1 hqm
  · refine ⟨hm, ?_⟩
    rw [hold_native, hold_mutex, put_mutex, go_mutex, put_same]
    by_cases hut : u = t
    · rw [hut, hold_same] at hheld ⊢
      exact hcount hheld
    · rw [hold_other _ _ _ hut] at hheld ⊢
      have hold := (h.holder u hheld).2
      rw [hsame u hut hold.1]
      exact hold

theorem Sound.step {a : T × Step} (h : Sound s) (hu : Unraced s a)
    (hs : step n s a = some s') : Sound s' := by
  obtain ⟨t, a⟩ := a
  rw [LazyMutex.step] at hs
  split_ifs at hs
  cases a with
  | enter c => exact h.enter hs
  | test => exact h.test hs
  | compare => exact h.compare hs
  | map page => exact h.map hs
  | store => exact h.store hs hu
  | fill => exact h.fill hs hu
  | read => exact h.read hs
  | call => exact h.call hs

theorem reaches_sound {mutex : Object} {pages : ℕ → Bool}
    (hr : Reaches (step n) Unraced (start mutex pages) s) : Sound s :=
  hr.invariant (fun _ _ _ h hu hs => h.step hu hs) (sound_start mutex pages)

theorem call_free (ho : m.owner = none) (hc : c ≠ .unlock) :
    m.call t k c = some (⟨m.type, some t, 1⟩, k + 1) := by
  obtain ⟨type, owner, count⟩ := m
  cases ho
  cases c with
  | unlock => exact absurd rfl hc
  | _ => rfl

theorem locks_free {page : ℕ} (hp : s.place t = .calling c page) (hc : c ≠ .unlock)
    (ha : s.aborted = false) (ho : (s.native page).owner = none) :
    ∃ s', step n s (t, .call) = some s' ∧ s'.place = (s.go t .idle).place ∧
      s'.aborted = false ∧ 0 < s'.held t ∧ ∀ u, u ≠ t → s'.held u = s.held u := by
  refine ⟨((s.go t .idle).put page ⟨(s.native page).type, some t, 1⟩).hold t (s.held t + 1),
    ?_, rfl, ha, ?_, fun u hu => hold_other _ _ _ hu⟩
  · simp [LazyMutex.step, LazyMutex.call, ha, hp, call_free ho hc]
  · rw [hold_same]
    exact Nat.succ_pos _

theorem locks_read (hp : s.place t = .reading c) (hc : c ≠ .unlock) (ha : s.aborted = false)
    (ho : (s.native s.mutex.glibc).owner = none) :
    ∃ s', Reaches (step n) Free s s' ∧ 0 < s'.held t ∧ ∀ u, u ≠ t → s'.held u = s.held u := by
  have hread : step n s (t, .read) = some (s.go t (.calling c s.mutex.glibc)) := by
    simp [LazyMutex.step, LazyMutex.read, ha, hp]
  obtain ⟨s', hs, -, -, ht, hu⟩ := locks_free (n := n) (go_same s t _) hc ha ho
  exact ⟨s', (Reaches.single trivial hread).tail trivial hs, ht, hu⟩

theorem locks_filled {type : MutexType} (hp : s.place t = .filling c type) (hc : c ≠ .unlock)
    (ha : s.aborted = false) :
    ∃ s', Reaches (step n) Free s s' ∧ 0 < s'.held t ∧ ∀ u, u ≠ t → s'.held u = s.held u := by
  have hfill : step n s (t, .fill) =
      some ((s.go t (.reading c)).put s.mutex.glibc (.unlocked type)) := by
    simp [LazyMutex.step, LazyMutex.fill, ha, hp]
  obtain ⟨s', hs, ht, hu⟩ := locks_read (n := n)
    (s := (s.go t (.reading c)).put s.mutex.glibc (.unlocked type)) (go_same s t _) hc ha
    (by rw [put_mutex, go_mutex, put_same]; rfl)
  exact ⟨s', (Reaches.single trivial hfill).trans hs, ht, hu⟩

def Doomed (n : ℕ) (s : State T) : Prop :=
  ∃ s', Reaches (step n) Free s s' ∧ ¬ AtMostOne s'

/-- A pointer that is stored while another thread has the mutex, or is about to lock it,
lets both of them in. -/
theorem Sound.store_doomed (h : Sound s) (ha : s.aborted = false)
    (hs : LazyMutex.store s t = some s') (hu : ¬ Unraced s (t, .store)) : Doomed n s' := by
  obtain ⟨c, type, page, hp, rfl⟩ := store_spec hs
  have hf := h.fits t
  rw [hp] at hf
  obtain ⟨⟨hc, h0⟩, -⟩ := hf
  have hplace : ((s.go t (.filling c type)).point page).place t = .filling c type := go_same ..
  by_cases hheld : ∀ u, s.held u = 0
  · have hcall : ∃ u d q, s.place u = .calling d q := by
      obtain ⟨u, hno⟩ := not_forall.mp hu
      cases hpu : s.place u with
      | calling d q => exact ⟨u, d, q, hpu⟩
      | _ =>
        rw [hpu] at hno
        exact absurd ⟨hheld u, rfl⟩ hno
    obtain ⟨u, d, q, hpu⟩ := hcall
    have hut : u ≠ t := by
      rintro rfl
      rw [hp] at hpu
      cases hpu
    have hd : d ≠ .unlock := by
      have hfu := h.fits u
      rw [hpu] at hfu
      exact fun e => (hfu.1 e).ne' (hheld u)
    have hfree : (s.native q).owner = none := by
      cases ho : (s.native q).owner with
      | none => rfl
      | some v => exact absurd (hheld v) (h.owned q v ho).2.ne'
    -- first the thread with the old pointer, then the one with the new page
    obtain ⟨s1, hs1, hp1, ha1, hu1, ho1⟩ := locks_free (n := n)
      (s := (s.go t (.filling c type)).point page) (t := u)
      (by rw [point_place, go_other _ _ _ hut]; exact hpu) hd ha hfree
    obtain ⟨s2, hs2, ht2, ho2⟩ := locks_filled (n := n) (s := s1) (t := t)
      (by rw [hp1, go_other _ _ _ hut.symm]; exact hplace) hc ha1
    refine ⟨s2, (Reaches.single trivial hs1).trans hs2, fun hone => hut (hone u t ?_ ht2)⟩
    rwa [ho2 u hut]
  · obtain ⟨u, hne⟩ := not_forall.mp hheld
    have hut : u ≠ t := by
      rintro rfl
      exact hne h0
    obtain ⟨s2, hs2, ht2, ho2⟩ := locks_filled (n := n) hplace hc ha
    refine ⟨s2, hs2, fun hone => hut (hone u t ?_ ht2)⟩
    rw [ho2 u hut]
    exact Nat.pos_of_ne_zero hne

theorem Sound.fill_doomed (h : Sound s) (ha : s.aborted = false)
    (hs : LazyMutex.fill s t = some s') (hu : ¬ Unraced s (t, .fill)) : Doomed n s' := by
  obtain ⟨c, type, hp, rfl⟩ := fill_spec hs
  have hf := h.fits t
  rw [hp] at hf
  obtain ⟨⟨hc, h0⟩, -⟩ := hf
  obtain ⟨u, hown⟩ := Option.ne_none_iff_exists'.mp hu
  have hheld := (h.owned _ u hown).2
  have hut : u ≠ t := by
    rintro rfl
    exact hheld.ne' h0
  obtain ⟨s2, hs2, ht2, ho2⟩ := locks_read (n := n)
    (s := (s.go t (.reading c)).put s.mutex.glibc (.unlocked type)) (go_same s t _) hc ha
    (by rw [put_mutex, go_mutex, put_same]; rfl)
  refine ⟨s2, hs2, fun hone => hut (hone u t ?_ ht2)⟩
  rw [ho2 u hut]
  exact hheld

theorem Sound.doomed {a : T × Step} (h : Sound s) (hs : LazyMutex.step n s a = some s')
    (hu : ¬ Unraced s a) : Doomed n s' := by
  obtain ⟨t, a⟩ := a
  rw [LazyMutex.step] at hs
  split_ifs at hs with ha
  have ha' : s.aborted = false := Bool.eq_false_iff.mpr ha
  cases a with
  | store => exact h.store_doomed ha' hs hu
  | fill => exact h.fill_doomed ha' hs hu
  | _ => exact absurd trivial hu

/-- In every run whose steps are unraced at most one thread has the mutex, and from the
first step on that is not two threads can have it. -/
theorem at_most_one_holder (n : ℕ) (type : MutexType) (pages : ℕ → Bool) (s : State T)
    (hr : Reaches (step n) Unraced (start (initializer n type) pages) s) :
    AtMostOne s ∧ ∀ a s', step n s a = some s' → ¬ Unraced s a → Doomed n s' := by
  have h := reaches_sound hr
  exact ⟨h.at_most_one, fun a s' hs hu => h.doomed hs hu⟩

def turns (t : Bool) (l : List Step) : List (Bool × Step) := l.map fun a => (t, a)

def soloLock : List (Bool × Step) :=
  turns false [.enter .lock, .test, .compare, .compare, .map 0x1000, .store, .fill, .read, .call] ++
    turns true [.enter .trylock, .test, .read, .call]

def racingLocks : List (Bool × Step) :=
  [(false, .enter .lock), (true, .enter .lock), (false, .test), (true, .test),
    (false, .compare), (true, .compare)] ++
    turns false [.map 0x1000, .store, .fill, .read, .call] ++
    turns true [.map 0x2000, .store, .fill, .read, .call]

theorem solo_lock_alone : ∃ s : State Bool, s.held false = 1 ∧ AtMostOne s := by
  have h : ((soloLock.foldlM (fun s a => if Unraced s a then step 8 s a else none)
      (start (initializer 8 .recursive) fun _ => false)).map fun s => s.held false) =
      some 1 := by decide +kernel
  obtain ⟨s, hs, he⟩ := Option.map_eq_some_iff.mp h
  exact ⟨s, he, (at_most_one_holder 8 .recursive (fun _ => false) s (reaches_of_list hs)).1⟩

theorem racing_locks_meet : ∃ s : State Bool,
    Reaches (step 8) Free (start (initializer 8 .normal) fun _ => false) s ∧ ¬ AtMostOne s := by
  have h : ((racingLocks.foldlM (fun s a => if Free s a then step 8 s a else none)
      (start (initializer 8 .normal) fun _ => false)).map fun s => (s.held false, s.held true)) =
      some (1, 1) := by decide +kernel
  obtain ⟨s, hs, he⟩ := Option.map_eq_some_iff.mp h
  obtain ⟨hfalse, htrue⟩ := Prod.mk.inj he
  refine ⟨s, reaches_of_list hs, fun hone => Bool.false_ne_true (hone false true ?_ ?_)⟩
  · exact hfalse ▸ Nat.one_pos
  · exact htrue ▸ Nat.one_pos

end Bionic.LazyMutex
