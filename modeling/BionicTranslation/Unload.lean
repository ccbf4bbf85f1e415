import BionicTranslation.Linker

/-!
# Unloading, and runs of opens and closes

`apkenv_unload_library` works on whatever pointer it is given. The model
follows it for the statically allocated soinfo and for every pool slot, on the
list or not; for a pointer of the host only the word at the place of the
reference count matters. A teardown that has to walk a dynamic section that is
not there is a fault, and so is running out of fuel.
-/

set_option autoImplicit false

namespace Bionic.Unload
open Bionic.Slots Bionic.Records Bionic.Linker

inductive Fault where
  | fuel
  | segv
  | badTeardown (h : Handle)
  deriving DecidableEq, Repr

/-- `refcount--` on an unsigned counter. -/
def decrement (refcount : ℕ) : ℕ := if refcount = 0 then 0xffffffffffffffff else refcount - 1

def callDestructors (L : State) (si : So) : State :=
  let s := L.info si
  let L := callAll L si
    (if s.fini_array ≠ 0 then (arrayFuncs s s.fini_array s.fini_array_count).reverse else [])
  callAll L si (if s.fini_func ≠ 0 then [s.fini_func] else [])

/-- One DT_NEEDED entry: the payload is cleared before the library it pointed to
is unloaded. A value that was never replaced is not a pool pointer. -/
def unloadNeeded (unload : State → So → Except Fault State) (si : So) (L : State) (i : ℕ) :
    Except Fault State :=
  let s := L.info si
  match s.entries[i]? with
  | some ⟨.needed, v⟩ =>
    let L := L.modify si fun s => s.setEntries (s.entries.set i ⟨.needed, .val 0⟩)
    match v with
    | .so lsi => unload L lsi
    | .val _ => .ok L
  | _ => .ok L

def linkedIn (L : State) (x : So) : Bool := (L.info x).flags.linked

def clearRefcount (L : State) (si : So) : State :=
  L.modify si fun s => { s with refcount := 0 }

def release (L : State) (si : So) : State :=
  let s := L.info si
  let L := L.munmap s.base s.size
  match si with
  | .libdl => clearRefcount L si
  | .pool i => clearRefcount (freeInfo (L.log [.free i (L.refs (linkedIn L) si)]) i) si

def keepLoaded (L : State) (si : So) : State :=
  (L.modify si fun s => { s with refcount := decrement s.refcount }).log
    [.decrement si (L.info si).refcount]

def unloadLibrary : ℕ → State → So → Except Fault State
  | 0 => fun _ _ => .error .fuel
  | fuel + 1 => fun L si =>
    if (L.info si).refcount = 1 then
      match (L.info si).dynamic with
      | .null => .error (.badTeardown (.so si))
      | .missing => .error (.badTeardown (.so si))
      | .found ds => do
        let L ← (List.range ds.length).foldlM (unloadNeeded (unloadLibrary fuel) si)
          (callDestructors L si)
        pure (release L si)
    else .ok (keepLoaded L si)

/-- `foreign` is the word a pointer of the host has where a soinfo has its
reference count; the decrement of that word is outside the linker's state. -/
def bionicDlclose (foreign : ℕ → Option ℕ) (fuel : ℕ) (L : State) :
    Handle → Except Fault State
  | .so si => unloadLibrary fuel L si
  | .host n =>
    match foreign n with
    | none => .error .segv
    | some r => if r = 1 then .error (.badTeardown (.host n)) else .ok L

/-- The linker and how often each handle is open. -/
structure Sys where
  linker : State
  opens : Handle → ℕ

def initialSys : Sys := ⟨initial, fun _ => 0⟩

inductive Act where
  | dlopen (w : World) (filename : Option Name)
  | dlclose (foreign : ℕ → Option ℕ) (h : Handle)

def opened (opens : Handle → ℕ) : Option Handle → Handle → ℕ
  | none => opens
  | some h => fun x => if x = h then opens x + 1 else opens x

def closed (opens : Handle → ℕ) (h : Handle) : Handle → ℕ :=
  fun x => if x = h then opens x - 1 else opens x

inductive Step : Sys → Act → Sys → Prop where
  | dlopen {s : Sys} {w : World} {fuel : ℕ} {filename : Option Name} {L : State}
      {r : Option Handle} (h : bionicDlopen w fuel s.linker filename = some (L, r)) :
      Step s (.dlopen w filename) ⟨L, opened s.opens r⟩
  | dlclose {s : Sys} {foreign : ℕ → Option ℕ} {fuel : ℕ} {h : Handle} {L : State}
      (hc : bionicDlclose foreign fuel s.linker h = .ok L) :
      Step s (.dlclose foreign h) ⟨L, closed s.opens h⟩

/-- The states of the runs whose steps all satisfy `C`. -/
inductive Reachable (C : Sys → Act → Sys → Prop) : Sys → Prop where
  | initial : Reachable C initialSys
  | step {s s' : Sys} {a : Act} (h : Reachable C s) (hc : C s a s') (hs : Step s a s') :
      Reachable C s'

/-- Each handle is closed at most as often as it was returned. -/
def Balanced (s : Sys) : Act → Prop
  | .dlopen .. => True
  | .dlclose _ h => 0 < s.opens h

theorem Reachable.mono {C D : Sys → Act → Sys → Prop} (h : ∀ s a s', C s a s' → D s a s')
    {s : Sys} (hr : Reachable C s) : Reachable D s := by
  induction hr with
  | initial => exact .initial
  | step _ hc hs ih => exact .step ih (h _ _ _ hc) hs

/-- What holds at the start and is kept by every step holds in every run. -/
theorem Reachable.invariant {C : Sys → Act → Sys → Prop} {P : Sys → Prop} (h0 : P initialSys)
    (hstep : ∀ s a s', P s → C s a s' → Step s a s' → P s') {s : Sys} (hr : Reachable C s) :
    P s := by
  induction hr with
  | initial => exact h0
  | step _ hc hs ih => exact hstep _ _ _ ih hc hs

end Bionic.Unload
