import BionicTranslation.Records

/-!
# Finding, loading and linking libraries

The state of the linker and the functions behind `bionic_dlopen`. What the
kernel, the file system and the host linker answer is a parameter, the world;
its answers may depend on the whole state, and every attempt to open a file
ticks a counter, so equal questions need not get equal answers. Recursion
through DT_NEEDED is bounded by fuel and a run out of it has no result.
-/

set_option autoImplicit false

namespace Bionic.Linker
open Bionic.Segments Bionic.Slots Bionic.Records

/-- What a trace of a run shows. For a slot put on the free list it also counts
the payloads of linked libraries on the list that point to it at that moment. -/
inductive Event where
  | call (si : So) (func : ℕ)
  | linkFailed (i : Slot)
  | decrement (si : So) (refcount : ℕ)
  | free (i : Slot) (refs : ℕ)
  deriving DecidableEq, Repr

structure State where
  pool : Pool
  info : So → Soinfo
  mapped : ℕ → Bool
  attempts : ℕ
  events : List Event

namespace State

/-- `apkenv_solist`: the static entry always comes first. -/
def solist (L : State) : List So := .libdl :: L.pool.loaded.map .pool

def set (L : State) (si : So) (s : Soinfo) : State :=
  { L with info := fun x => if x = si then s else L.info x }

def modify (L : State) (si : So) (f : Soinfo → Soinfo) : State := L.set si (f (L.info si))

def log (L : State) (es : List Event) : State := { L with events := es ++ L.events }

def mmap (L : State) (base size : ℕ) : State :=
  { L with mapped := fun a => decide (base ≤ a ∧ a < base + size) || L.mapped a }

def munmap (L : State) (base size : ℕ) : State :=
  { L with mapped := fun a => !decide (base ≤ a ∧ a < base + size) && L.mapped a }

/-- Payloads pointing to `y` in the libraries on the list that `src` selects. -/
def refs (L : State) (src : So → Bool) (y : So) : ℕ :=
  (L.solist.map fun x => if src x then (L.info x).payloads y else 0).sum

end State

def initial : State where
  pool := Slots.empty
  info := fun x => match x with
    | .libdl => libdlInfo
    | .pool _ => {}
  mapped := fun _ => false
  attempts := 0
  events := []

/-- The answers from outside. `mmapRegion` gets the requested address, 0 for any. -/
structure World where
  overrides : List (Name × Name)
  openLibrary : ℕ → Name → Option LibFile
  hostDlopen : ℕ → Name → Option ℕ
  mmapRegion : State → ℕ → ℕ → Option ℕ
  mmapSegment : State → MemCall → Bool
  relocate : State → So → RelocTable → Bool
  protectRelro : State → So → Bool
  r_debug : ℕ

def allocInfo (L : State) (name : Name) : Option (State × Slot) :=
  if name.length ≥ 128 then none else
    L.pool.alloc.map fun (pool, i) => ({ L with pool }.set (.pool i) { name }, i)

def freeInfo (L : State) (i : Slot) : State := { L with pool := L.pool.free i }

/-- Prelinked libraries get the address they ask for, the others any address.
An error is the return value -1. -/
def allocMemRegion (w : World) (L : State) (si : So) : Except State State :=
  let s := L.info si
  match w.mmapRegion L s.base s.size with
  | none => .error L
  | some b =>
    if s.base ≠ 0 then
      if b = s.base then .ok (L.mmap b s.size) else .error (L.munmap b s.size)
    else .ok ((L.mmap b s.size).modify si fun s => { s with base := b })

/-- `apkenv_get_lib_extents` with the checks before it. -/
def fileExtents (f : LibFile) : Option ℕ :=
  if !f.elf then none
  else if f.prelink = 0xffffffffffffffff then none
  else getLibExtents f.phdrs

def fillInfo (f : LibFile) (st : Loading) (s : Soinfo) : Soinfo :=
  { s with
    dynamic := match st.dynamic with
      | none => .missing
      | some a => .found ((f.image.dyn (s.offset a)).map fun d => ⟨d.1, .val d.2⟩)
    wrprotect_start := st.wrprotect_start
    wrprotect_end := st.wrprotect_end
    gnu_relro_start := st.gnu_relro_start
    gnu_relro_len := st.gnu_relro_len
    phdr := s.addr f.image.e_phoff
    phnum := f.image.e_phnum
    image := f.image }

def loadFile (w : World) (L : State) (f : LibFile) (size : ℕ) (i : Slot) :
    State × Option Slot :=
  let L := L.modify (.pool i) fun s =>
    { s with fullpath := f.path.take 127, base := f.prelink, size, dynamic := .missing }
  match allocMemRegion w L (.pool i) with
  | .error L => (freeInfo L i, none)
  | .ok L =>
    let s := L.info (.pool i)
    match loadSegments (w.mmapSegment L) s.base s.size f.phdrs with
    | .error _ =>
      let L := (L.munmap s.base s.size).modify (.pool i) fun s =>
        { s with flags := { s.flags with error := true } }
      (freeInfo L i, none)
    | .ok st => (L.modify (.pool i) (fillInfo f st), some i)

/-- The slot of the new library, or the handle the host linker gave instead. -/
def loadLibrary (w : World) (L : State) (name : Name) : State × Option Slot × Option ℕ :=
  let file := w.openLibrary L.attempts name
  let L := { L with attempts := L.attempts + 1 }
  match file with
  | none => (L, none, w.hostDlopen L.attempts name)
  | some f =>
    match fileExtents f with
    | none => (L, none, none)
    | some size =>
      match allocInfo L (basename name) with
      | none => (L, none, none)
      | some (L, i) =>
        let (L, r) := loadFile w L f size i
        (L, r, none)

/-- A function that finds libraries: the new state, the library, and the handle
of the host when the host linker has loaded it instead. -/
abbrev Find := State → Name → Option (State × Option So × Option ℕ)

/-- `si->refcount++`. The counter is a `size_t` of 64 bits; here it does not wrap, which would take
2^64 references that are open at once. -/
def addRef (L : State) (si : So) : State :=
  L.modify si fun s => { s with refcount := s.refcount + 1 }

/-- One DT_NEEDED entry. A library that is not found is replaced by libdl. -/
def linkNeeded (find : Find) (si : So) (L : State) (i : ℕ) : Option State :=
  let s := L.info si
  match s.entries[i]? with
  | some ⟨.needed, .val v⟩ => do
    let (L, r, _) ← find L (s.image.str (s.offset (s.strtab + v)))
    let lsi := r.getD .libdl
    let L := L.modify si fun s => s.setEntries (s.entries.set i ⟨.needed, .so lsi⟩)
    pure (addRef L lsi)
  | _ => some L

def applyTables (w : World) (si : So) : List RelocTable → State → State × Bool
  | [], L => (L, true)
  | t :: ts, L =>
    if w.relocate L si t then
      applyTables w si ts (L.modify si fun s => { s with applied := s.applied ++ [t] })
    else (L, false)

def markError (L : State) (si : So) : State :=
  L.modify si fun s => { s with flags := { s.flags with error := true } }

def markLinked (L : State) (si : So) : State :=
  L.modify si fun s => { s with flags := { s.flags with linked := true } }

def fillLinkmap (L : State) (si : So) : State :=
  L.modify si fun s => { s with l_addr := s.base, l_name := s.fullpath }

def relroProtected (w : World) (L : State) (si : So) : Bool :=
  let s := L.info si
  s.gnu_relro_start = 0 || s.gnu_relro_len = 0 || w.protectRelro L si

def finishLink (w : World) (L : State) (si : So) : State × Bool :=
  match applyTables w si (L.info si).relocTables L with
  | (L, false) => (markError L si, false)
  | (L, true) =>
    let L := markLinked L si
    if !relroProtected w L si then (markError L si, false) else (fillLinkmap L si, true)

/-- `true` stands for the return value 0, which is also the value of the two
`return false` in the extraction loop. -/
def linkImage (find : Find) (w : World) (L : State) (si : So) : Option (State × Bool) :=
  match (L.info si).dynamic with
  | .null => some (markError L si, false)
  | .missing => some (markError L si, false)
  | .found ds =>
    match extract w.r_debug (L.info si) with
    | .error s => some (L.set si s, true)
    | .ok s =>
      let L := L.set si s
      if s.strtab = 0 ∨ s.symtab = 0 then some (markError L si, false) else do
        let L ← (List.range ds.length).foldlM (linkNeeded find si) L
        pure (finishLink w L si)

def initLibrary (find : Find) (w : World) (L : State) (i : Slot) :
    Option (State × Option So) :=
  (linkImage find w L (.pool i)).map fun (L, ok) =>
    if ok then (L, some (.pool i)) else
      let s := L.info (.pool i)
      ((L.munmap s.base s.size).log [.linkFailed i], none)

def lookupName (L : State) (bname : Name) : Option So :=
  L.solist.find? fun x => (L.info x).name = bname

def findLibrary (w : World) : ℕ → Find
  | 0 => fun _ _ => none
  | fuel + 1 => fun L name =>
    let name := resolve w.overrides name
    match lookupName L (basename name) with
    | some si => some (L, if (L.info si).Live then some si else none, none)
    | none =>
      match loadLibrary w L name with
      | (L, none, host) => some (L, none, host)
      | (L, some i, _) => (initLibrary (findLibrary w fuel) w L i).map fun (L, r) => (L, r, none)

/-- `size_t` passed as `int`: a negative count runs no loop. -/
def intCount (n : ℕ) : ℕ := if u32 n < 0x80000000 then u32 n else 0

def arrayFuncs (s : Soinfo) (ctor count : ℕ) : List ℕ :=
  ((List.range (intCount count)).map fun k => s.image.word (s.offset (ctor + 8 * k))).filter
    fun f => f ≠ 0 ∧ f ≠ 0xffffffffffffffff

def callAll (L : State) (si : So) (fs : List ℕ) : State :=
  L.log (fs.reverse.map (.call si))

def constructNeeded (construct : State → So → Option State) (si : So) (L : State) (i : ℕ) :
    Option State :=
  match (L.info si).entries[i]? with
  | some ⟨.needed, .so lsi⟩ => construct L lsi
  | _ => some L

def callConstructorsRecursive : ℕ → State → So → Option State
  | 0 => fun _ _ => none
  | fuel + 1 => fun L si =>
    if (L.info si).constructors_called then some L else do
      let L := L.modify si fun s => { s with constructors_called := true }
      let s := L.info si
      let L := callAll L si (arrayFuncs s s.preinit_array s.preinit_array_count)
      let L ← (List.range s.entries.length).foldlM
        (constructNeeded (callConstructorsRecursive fuel) si) L
      let s := L.info si
      let L := callAll L si (if s.init_func ≠ 0 then [s.init_func] else [])
      pure (callAll L si (if s.init_array ≠ 0 then arrayFuncs s s.init_array s.init_array_count
        else []))

/-- What `bionic_dlopen` returns through one pointer type. -/
inductive Handle where
  | so (si : So)
  | host (n : ℕ)
  deriving DecidableEq, Repr

/-- A NULL name asks for the main program, which this linker never has. -/
def bionicDlopen (w : World) (fuel : ℕ) (L : State) (filename : Option Name) :
    Option (State × Option Handle) :=
  match filename with
  | none => some (L, none)
  | some name => do
    let (L, r, host) ← findLibrary w fuel L name
    match r with
    | some si =>
      let L ← callConstructorsRecursive fuel L si
      pure (addRef L si, some (.so si))
    | none => pure (L, host.map .host)

end Bionic.Linker
