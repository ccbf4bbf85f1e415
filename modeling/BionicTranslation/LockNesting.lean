import BionicTranslation.Dlfcn

/-!
# The lock of the dl functions

`apkenv_dl_lock` is a default mutex, and it is held while initialisers and finalisers
run. Threads take turns with it; a thread that calls one of the functions from such a
body waits for itself.
-/

set_option autoImplicit false

namespace Bionic.LockNesting
open Bionic.Slots Bionic.Records Bionic.Linker Bionic.Unload Bionic.Dlfcn Bionic.FindSound

inductive DlCall where
  | dlopen (w : World) (filename : Option Name)
  | dlsym (ret_addr : ℕ) (handle : DlHandle) (symbol : Option Name)
  | dladdr (addr : ℕ)
  | dlclose (foreign : ℕ → Option ℕ) (handle : Handle)

/-- What happens inside of a call: the lock operations, and the initialisers and finalisers
that are run. -/
inductive Act where
  | op (o : LockOp)
  | run (func : ℕ)
  deriving DecidableEq, Repr

def newCalls (L L' : State) : List ℕ :=
  (L'.events.take (L'.events.length - L.events.length)).reverse.filterMap fun e =>
    match e with
    | .call _ func => some func
    | .linkFailed _ => none
    | .decrement _ _ => none
    | .free _ _ => none

/-- The lock is taken before the state is read and given back after the last function. -/
def locked (funcs : List ℕ) : List Act := .op .lock :: funcs.map .run ++ [.op .unlock]

inductive Path (h : Host) : State → DlCall → State → List Act → Prop where
  | dlopen {L L' : State} {w : World} {filename : Option Name} {fuel : ℕ} {r : Option Handle}
      (ho : bionicDlopen w fuel L filename = some (L', r)) :
      Path h L (.dlopen w filename) L' (locked (newCalls L L'))
  | dlsym {L : State} {ret_addr fuel : ℕ} {handle : DlHandle} {symbol : Option Name} {e : Exit}
      (he : bionicDlsym h fuel L ret_addr handle symbol = .ok e) :
      Path h L (.dlsym ret_addr handle symbol) L (e.ops.map .op)
  | dladdr {L : State} {addr : ℕ} : Path h L (.dladdr addr) L (locked [])
  | dlclose {L L' : State} {foreign : ℕ → Option ℕ} {handle : Handle} {fuel : ℕ}
      (hc : bionicDlclose foreign fuel L handle = .ok L') :
      Path h L (.dlclose foreign handle) L' (locked (newCalls L L'))

inductive Item where
  | call (c : DlCall)
  | act (a : Act)

/-- The threads `T`. `owner` is the one that holds the lock. -/
structure Config (T : Type) where
  linker : State
  owner : Option T
  todo : T → List Item

variable {T : Type} {s s' : Config T}

def start (L : State) (calls : T → List DlCall) : Config T :=
  ⟨L, none, fun t => (calls t).map .call⟩

/-- A thread is about to take the lock it holds. -/
def Relocks (s : Config T) : Prop :=
  ∃ t c rest, s.todo t = .call c :: rest ∧ s.owner = some t

def inside (funcs : List ℕ) (calls : List DlCall) : List Item :=
  funcs.map (fun f => .act (.run f)) ++ .act (.op .unlock) :: calls.map .call

/-- Only the thread that holds the lock is inside of a call. -/
structure Guarded (s : Config T) : Prop where
  owner : ∀ t, s.owner = some t → ∃ funcs calls, s.todo t = inside funcs calls
  others : ∀ t, s.owner ≠ some t → ∃ calls : List DlCall, s.todo t = calls.map .call

theorem guarded_start (L : State) (calls : T → List DlCall) : Guarded (start L calls) :=
  ⟨fun _ ht => (nomatch ht), fun t _ => ⟨calls t, rfl⟩⟩

theorem Guarded.holds (hg : Guarded s) {t : T} {a : Act} {rest : List Item}
    (ht : s.todo t = .act a :: rest) : s.owner = some t := by
  by_contra hno
  obtain ⟨calls, hcalls⟩ := hg.others t hno
  rw [ht] at hcalls
  cases calls <;> cases hcalls

theorem Guarded.no_relock (hg : Guarded s) : ¬ Relocks s := by
  rintro ⟨t, c, rest, ht, ho⟩
  obtain ⟨funcs, calls, hin⟩ := hg.owner t ho
  rw [ht, inside] at hin
  cases funcs <;> cases hin

theorem path_locked {h : Host} {L L' : State} {c : DlCall} {as : List Act}
    (hp : Path h L c L' as) : ∃ funcs, as = locked funcs := by
  cases hp with
  | dlopen ho => exact ⟨_, rfl⟩
  | dlsym he =>
    refine ⟨[], ?_⟩
    rw [dlsym_unlocks he]
    rfl
  | dladdr => exact ⟨[], rfl⟩
  | dlclose hc => exact ⟨_, rfl⟩

inductive Label (T : Type) where
  | enter (t : T) (c : DlCall)
  | run (t : T) (func : ℕ)
  | unlock (t : T)

variable [DecidableEq T]

def Config.turn (s : Config T) (L : State) (owner : Option T) (t : T) (items : List Item) :
    Config T := ⟨L, owner, Function.update s.todo t items⟩

section turn
variable (s : Config T) (L : State) (owner : Option T) {t t' : T} (items : List Item)

@[simp] theorem turn_linker : (s.turn L owner t items).linker = L := rfl
@[simp] theorem turn_owner : (s.turn L owner t items).owner = owner := rfl
@[simp] theorem turn_same : (s.turn L owner t items).todo t = items := Function.update_self ..
theorem turn_other (h : t' ≠ t) : (s.turn L owner t items).todo t' = s.todo t' :=
  Function.update_of_ne h ..

end turn

/-- A call waits until nobody holds the lock, not even its own thread. What it does to the
linker is seen by nobody before the lock is given back. `bodies` are the calls that an
initialiser or finaliser makes. -/
inductive Step (h : Host) (bodies : ℕ → List DlCall) : Config T → Label T → Config T → Prop where
  | enter {s : Config T} {t : T} {c : DlCall} {rest : List Item} {L : State} {as : List Act}
      (ht : s.todo t = .call c :: rest) (hp : Path h s.linker c L (.op .lock :: as))
      (ho : s.owner = none) :
      Step h bodies s (.enter t c) (s.turn L (some t) t (as.map .act ++ rest))
  | run {s : Config T} {t : T} {func : ℕ} {rest : List Item}
      (ht : s.todo t = .act (.run func) :: rest) :
      Step h bodies s (.run t func)
        (s.turn s.linker s.owner t ((bodies func).map .call ++ rest))
  | unlock {s : Config T} {t : T} {rest : List Item}
      (ht : s.todo t = .act (.op .unlock) :: rest) :
      Step h bodies s (.unlock t) (s.turn s.linker none t rest)

/-- The configurations of the runs whose steps all satisfy `C`. -/
inductive Reachable (h : Host) (bodies : ℕ → List DlCall) (C : Label T → Prop) :
    Config T → Prop where
  | start (L : State) (calls : T → List DlCall) : Reachable h bodies C (start L calls)
  | step {s s' : Config T} {l : Label T} (hr : Reachable h bodies C s) (hc : C l)
      (hs : Step h bodies s l s') : Reachable h bodies C s'

/-- An initialiser or finaliser that is run makes no dl call. -/
def Quiet (bodies : ℕ → List DlCall) : Label T → Prop
  | .run _ func => bodies func = []
  | .enter _ _ => True
  | .unlock _ => True

variable {h : Host} {bodies : ℕ → List DlCall}

theorem Guarded.step {l : Label T} (hg : Guarded s) (hs : Step h bodies s l s')
    (hq : Quiet bodies l) : Guarded s' := by
  cases hs with
  | @enter t c rest L as ht hp ho =>
    obtain ⟨calls, hcalls⟩ := hg.others t (ho ▸ nofun)
    obtain ⟨funcs, has⟩ := path_locked hp
    obtain ⟨calls, rfl⟩ : ∃ calls' : List DlCall, rest = calls'.map .call := by
      rw [ht] at hcalls
      cases calls with
      | nil => cases hcalls
      | cons c' calls =>
        cases hcalls
        exact ⟨calls, rfl⟩
    cases has
    refine ⟨fun t' ht' => ?_, fun t' ht' => ?_⟩
    · cases ht'
      refine ⟨funcs, calls, ?_⟩
      rw [turn_same]
      simp [inside]
    · have hne : t' ≠ t := fun e => ht' (e ▸ rfl)
      rw [turn_other _ _ _ _ hne]
      exact hg.others t' (ho ▸ nofun)
  | @run t func rest ht =>
    have ho := hg.holds ht
    obtain ⟨funcs, calls, hin⟩ := hg.owner t ho
    have hbody : bodies func = [] := hq
    refine ⟨fun t' ht' => ?_, fun t' ht' => ?_⟩
    · obtain rfl : t' = t := Option.some.inj (ht'.symm.trans ho)
      rw [turn_same, hbody]
      rw [ht, inside] at hin
      cases funcs with
      | nil => cases hin
      | cons f funcs =>
        cases hin
        exact ⟨funcs, calls, rfl⟩
    · have hne : t' ≠ t := fun e => ht' (e ▸ ho)
      rw [turn_other _ _ _ _ hne]
      exact hg.others t' ht'
  | @unlock t rest ht =>
    have ho := hg.holds ht
    obtain ⟨funcs, calls, hin⟩ := hg.owner t ho
    refine ⟨fun t' ht' => (nomatch ht'), fun t' _ => ?_⟩
    by_cases hne : t' = t
    · subst hne
      rw [turn_same]
      rw [ht, inside] at hin
      cases funcs with
      | nil =>
        cases hin
        exact ⟨calls, rfl⟩
      | cons f funcs => cases hin
    · rw [turn_other _ _ _ _ hne]
      exact hg.others t' fun e => hne (Option.some.inj (e.symm.trans ho))

theorem reachable_guarded (hr : Reachable h bodies (Quiet bodies) s) : Guarded s := by
  induction hr with
  | start L calls => exact guarded_start L calls
  | step _ hq hs ih => exact ih.step hs hq

theorem Guarded.relocks {l : Label T} (hg : Guarded s) (hs : Step h bodies s l s')
    (hq : ¬ Quiet bodies l) : Relocks s' := by
  cases hs with
  | enter ht hp ho => exact absurd trivial hq
  | @run t func rest ht =>
    cases hbody : bodies func with
    | nil => exact absurd hbody hq
    | cons c cs =>
      refine ⟨t, c, cs.map .call ++ rest, ?_, hg.holds ht⟩
      rw [turn_same]
      rfl
  | unlock ht => exact absurd trivial hq

/-- On every path a call gives the lock back once, and in the runs whose initialisers and
finalisers make no dl calls no thread takes the lock it holds. The first body that makes
one does. -/
theorem lock_not_nested (h : Host) (bodies : ℕ → List DlCall) :
    (∀ L c L' as, Path h L c L' as → ∃ funcs, as = locked funcs) ∧
      ∀ s : Config T, Reachable h bodies (Quiet bodies) s → ¬ Relocks s ∧
        ∀ l s', Step h bodies s l s' → (¬ Relocks s' ↔ Quiet bodies l) := by
  refine ⟨fun L c L' as hp => path_locked hp, fun s hr => ?_⟩
  have hg := reachable_guarded hr
  refine ⟨hg.no_relock, fun l s' hs => ⟨fun hno => ?_, fun hq => (hg.step hs hq).no_relock⟩⟩
  by_contra hq
  exact hno (hg.relocks hs hq)

def initWorld : World := sampleWorld fun name =>
  if name = ['a'] then some (sampleFile [(.init, 0x300)])
  else if name = ['b'] then some (sampleFile []) else none

theorem init_path : ∃ L, Path noHost initial (.dlopen initWorld (some ['a'])) L
    (locked [0x20300]) := by
  have h : (bionicDlopen initWorld 3 initial (some ['a'])).map (fun p => newCalls initial p.1) =
      some [0x20300] := by decide +kernel
  obtain ⟨⟨L, r⟩, hf, he⟩ := Option.map_eq_some_iff.mp h
  exact ⟨L, he ▸ .dlopen hf⟩

theorem init_entered (bodies : ℕ → List DlCall) (C : Label Unit → Prop)
    (hC : ∀ c, C (.enter () c)) :
    ∃ s : Config Unit, Reachable noHost bodies C s ∧ s.owner = some () ∧
      s.todo () = inside [0x20300] [] := by
  obtain ⟨L, hL⟩ := init_path
  refine ⟨_, .step (.start initial fun _ => [.dlopen initWorld (some ['a'])]) (hC _)
    (.enter rfl hL rfl), rfl, ?_⟩
  rw [turn_same]
  rfl

theorem quiet_init_safe : ∃ s s' : Config Unit, s.owner = some () ∧ s'.owner = some () ∧
    (∃ L, ∃ funcs, Path noHost initial (.dlopen initWorld (some ['a'])) L (locked funcs)) ∧
    ¬ Relocks s ∧ ¬ Relocks s' := by
  have hmain := lock_not_nested (T := Unit) noHost fun _ => []
  obtain ⟨L, hL⟩ := init_path
  obtain ⟨funcs, hfuncs⟩ := hmain.1 _ _ _ _ hL
  obtain ⟨s, hr, ho, ht⟩ := init_entered (fun _ => []) (Quiet fun _ => []) fun _ => trivial
  obtain ⟨hno, hiff⟩ := hmain.2 s hr
  refine ⟨s, s.turn s.linker s.owner () ([] ++ [.act (.op .unlock)]), ho, ho, ⟨L, funcs, ?_⟩,
    hno, ?_⟩
  · rw [← hfuncs]
    exact hL
  · exact (hiff _ _ (.run ht)).mpr rfl

/-- An initialiser that opens a library: its thread waits for the lock it holds. -/
theorem opening_init_relocks : ∃ s : Config Unit, Reachable noHost
    (fun _ => [.dlopen initWorld (some ['b'])]) (fun _ => True) s ∧ Relocks s := by
  obtain ⟨s, hr, ho, ht⟩ := init_entered (fun _ => [.dlopen initWorld (some ['b'])])
    (fun _ => True) fun _ => trivial
  exact ⟨_, .step hr trivial (.run ht), (), .dlopen initWorld (some ['b']),
    [.act (.op .unlock)], turn_same .., ho⟩

end Bionic.LockNesting
