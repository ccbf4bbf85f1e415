import BionicTranslation.AddressQueries
import BionicTranslation.OpenLibrary
import BionicTranslation.Traces
import BionicTranslation.WrapperNames

/-!
# The last error

A call that fails leaves a text in a buffer, where `bionic_dlerror` finds it once. The text is
put together from the kind of the failure and from what the linker has last written into a
buffer of its own, in this call or an earlier one.
-/

set_option autoImplicit false

namespace Bionic.LastError
open Bionic.CStrings Bionic.WrapperNames Bionic.Records Bionic.Linker Bionic.Unload Bionic.Dlfcn
open Bionic.RelaTables Bionic.AddressQueries Bionic.OpenLibrary Bionic.Traces

/-- `DL_ERR_CANNOT_LOAD_LIBRARY`, or what `bionic_dlsym` fails with. -/
inductive Failure where
  | cannotLoadLibrary
  | dlsym (e : DlError)
  deriving DecidableEq, Repr

def dlErrors : Failure → List Byte
  | .cannotLoadLibrary => bytes "Cannot load library".toList
  | .dlsym .invalidLibraryHandle => bytes "Invalid library handle".toList
  | .dlsym .badSymbolName => bytes "Invalid symbol name".toList
  | .dlsym .symbolNotFound => bytes "Symbol not found".toList
  | .dlsym .symbolNotGlobal => bytes "Symbol is not global".toList

def separator : List Byte := [58, 32]

def DL_ERR_BUF : ℕ := 1024
def LINKER_DL_ERR_BUF : ℕ := 768

/-- The buffers and whether `dl_err_str` points at the first one or is NULL. -/
structure Errors where
  dlErrBuf : ℕ → Byte
  dlErrStr : Bool
  linkerDlErrBuf : ℕ → Byte

def snprintf (buffer : ℕ → Byte) (bufsize : ℕ) (chars : List Byte) : ℕ → Byte :=
  write buffer 0 (chars.take (bufsize - 1) ++ [0])

def dlErr (e : Errors) (chars : CString Byte) : Errors :=
  { e with linkerDlErrBuf := snprintf e.linkerDlErrBuf LINKER_DL_ERR_BUF chars.chars }

def linkerGetError (e : Errors) : List Byte := text e.linkerDlErrBuf LINKER_DL_ERR_BUF

def setDlerror (e : Errors) (err : Failure) : Errors :=
  { e with
    dlErrBuf := snprintf e.dlErrBuf DL_ERR_BUF (dlErrors err ++ separator ++ linkerGetError e)
    dlErrStr := true }

def bionicDlerror (e : Errors) : Errors × Option (List Byte) :=
  ({ e with dlErrStr := false }, if e.dlErrStr then some (text e.dlErrBuf DL_ERR_BUF) else none)

inductive Call where
  | dlopen (w : World) (filename : Option Name)
  | dlsym (h : Host) (ret_addr : ℕ) (handle : DlHandle) (symbol : Option Name)
  | dladdr (h : Host) (addr : Addr64)
  | dlclose (foreign : ℕ → Option ℕ) (handle : Handle)

def outcome (fuel : ℕ) (L : Linker.State) : Call → Option (Linker.State × Option Failure)
  | .dlopen w filename => (bionicDlopen w fuel L filename).map fun r =>
      (r.1, if r.2 = none then some .cannotLoadLibrary else none)
  | .dlsym h ret_addr handle symbol =>
      (bionicDlsym h fuel L ret_addr handle symbol).toOption.map fun e =>
        (L, match e.ret with | .ok _ => none | .error err => some (.dlsym err))
  | .dladdr h addr => (bionicDladdr h fuel L addr).map fun _ => (L, none)
  | .dlclose foreign handle => (bionicDlclose foreign fuel L handle).toOption.map fun L => (L, none)

/-- A call with the texts that the linker reports while it runs, or a question for the error. -/
inductive Request where
  | call (c : Call) (reported : List (CString Byte))
  | dlerror

structure Session where
  linker : Linker.State
  errors : Errors

def step (fuel : ℕ) (s : Session) : Request → Option (Session × Option (Option (List Byte)))
  | .call c reported => (outcome fuel s.linker c).map fun r =>
      let errors := reported.foldl dlErr s.errors
      (⟨r.1, r.2.elim errors (setDlerror errors)⟩, none)
  | .dlerror =>
      let r := bionicDlerror s.errors
      some (⟨s.linker, r.1⟩, some r.2)

def start : Session := ⟨initial, ⟨fun _ => 0, false, fun _ => 0⟩⟩

/-- The text the linker reported last, as far as it keeps it, and the error that nobody has
asked for. -/
structure Latch where
  reported : List Byte
  pending : Option (List Byte)

def Latch.report (l : Latch) (chars : CString Byte) : Latch :=
  { l with reported := chars.chars.take (LINKER_DL_ERR_BUF - 1) }

def Latch.fail (l : Latch) (err : Failure) : Latch :=
  { l with pending := some (dlErrors err ++ separator ++ l.reported) }

def Latch.step (fuel : ℕ) (s : Linker.State × Latch) :
    Request → Option ((Linker.State × Latch) × Option (Option (List Byte)))
  | .call c reported => (outcome fuel s.1 c).map fun r =>
      let l := reported.foldl Latch.report s.2
      ((r.1, r.2.elim l l.fail), none)
  | .dlerror => some ((s.1, { s.2 with pending := none }), some s.2.pending)

section buffers
variable {buffer : ℕ → Byte} {bufsize : ℕ} {chars : List Byte}

theorem holds_snprintf (buffer : ℕ → Byte) (bufsize : ℕ) (h : 0 ∉ chars) :
    Holds (snprintf buffer bufsize chars) 0 (chars.take (bufsize - 1)) :=
  holds_write buffer 0 fun h0 => h (List.mem_of_mem_take h0)

theorem dlErrors_length (err : Failure) : (dlErrors err ++ separator).length ≤ 24 := by
  cases err with
  | cannotLoadLibrary => decide
  | dlsym e => cases e <;> decide

theorem dlErrors_nonzero (err : Failure) : 0 ∉ dlErrors err ++ separator := by
  cases err with
  | cannotLoadLibrary => decide
  | dlsym e => cases e <;> decide

end buffers

/-- The buffers hold the texts of the latch, and the linker's leaves room for the kind. -/
structure Holding (e : Errors) (l : Latch) : Prop where
  linker : Holds e.linkerDlErrBuf 0 l.reported
  short : l.reported.length < LINKER_DL_ERR_BUF
  str : e.dlErrStr = l.pending.isSome
  pending : ∀ t ∈ l.pending, Holds e.dlErrBuf 0 t ∧ t.length < DL_ERR_BUF

variable {e : Errors} {l : Latch} {fuel : ℕ} {s : Session} {reqs : List Request}

theorem Holding.dlErr (h : Holding e l) (chars : CString Byte) :
    Holding (dlErr e chars) (l.report chars) where
  linker := holds_snprintf _ _ chars.nonzero
  short := by
    rw [Latch.report, List.length_take]
    exact (Nat.min_le_left _ _).trans_lt (by decide)
  str := h.str
  pending := h.pending

theorem Holding.foldl (h : Holding e l) (reported : List (CString Byte)) :
    Holding (reported.foldl LastError.dlErr e) (reported.foldl Latch.report l) := by
  induction reported generalizing e l with
  | nil => exact h
  | cons chars reported ih => exact ih (h.dlErr chars)

theorem Holding.setDlerror (h : Holding e l) (err : Failure) :
    Holding (setDlerror e err) (l.fail err) := by
  have hlinker : linkerGetError e = l.reported := text_holds h.linker h.short.le
  have hlen : (dlErrors err ++ separator ++ l.reported).length ≤ DL_ERR_BUF - 1 := by
    have hkind := dlErrors_length err
    have hshort := h.short
    rw [LINKER_DL_ERR_BUF] at hshort
    rw [List.length_append, DL_ERR_BUF]
    omega
  have hzero : 0 ∉ dlErrors err ++ separator ++ l.reported := by
    rw [List.mem_append, not_or]
    exact ⟨dlErrors_nonzero err, h.linker.nonzero⟩
  refine ⟨h.linker, h.short, rfl, fun t ht => ?_⟩
  cases ht
  have hholds := holds_snprintf e.dlErrBuf DL_ERR_BUF hzero
  rw [List.take_of_length_le hlen] at hholds
  rw [LastError.setDlerror, hlinker]
  exact ⟨hholds, Nat.lt_of_le_pred (by decide) hlen⟩

theorem Holding.dlerror (h : Holding e l) : (bionicDlerror e).2 = l.pending ∧
    Holding (bionicDlerror e).1 { l with pending := none } := by
  refine ⟨?_, h.linker, h.short, rfl, nofun⟩
  rw [bionicDlerror, h.str]
  cases hp : l.pending with
  | none => rfl
  | some t =>
    obtain ⟨hholds, hlen⟩ := h.pending t hp
    exact congrArg some (text_holds hholds hlen.le)

/-- A step of the code and one of the latch do the same to the linker, show the same and keep
the buffers holding the texts of the latch. -/
theorem Holding.step (fuel : ℕ) (r : Request) (h : Holding s.errors l) :
    Option.Rel (fun p q => (p.1.linker = q.1.1 ∧ Holding p.1.errors q.1.2) ∧ p.2 = q.2)
      (step fuel s r) (Latch.step fuel (s.linker, l) r) := by
  cases r with
  | call c reported =>
    rw [LastError.step, Latch.step]
    cases ho : outcome fuel s.linker c with
    | none => exact .none
    | some r =>
      have hreported := h.foldl reported
      obtain ⟨L', failure⟩ := r
      refine .some ⟨⟨rfl, ?_⟩, rfl⟩
      cases failure with
      | none => exact hreported
      | some err => exact hreported.setDlerror err
  | dlerror =>
    obtain ⟨hanswer, hcleared⟩ := h.dlerror
    exact .some ⟨⟨rfl, hcleared⟩, congrArg some hanswer⟩

theorem Holding.start : Holding start.errors ⟨[], none⟩ where
  linker := ⟨trivial, List.not_mem_nil, rfl⟩
  short := by decide
  str := rfl
  pending := nofun

/-- In every run of `dlopen`, `dlsym`, `dladdr`, `dlclose` and `dlerror` the questions are
answered as by a latch: with the kind of the last call that failed since the last question
and what the linker had reported by then, and with NULL where none has failed. Neither
buffer cuts a text of the other. -/
theorem dlerror_latch (fuel : ℕ) (reqs : List Request) :
    (run (step fuel) start reqs).map Prod.snd =
      (run (Latch.step fuel) (initial, ⟨[], none⟩) reqs).map Prod.snd := by
  have hstep : ∀ (s : Session) (o : Linker.State × Latch) (r : Request),
      s.linker = o.1 ∧ Holding s.errors o.2 →
      Option.Rel (fun p q => (p.1.linker = q.1.1 ∧ Holding p.1.errors q.1.2) ∧ p.2 = q.2)
        (step fuel s r) (Latch.step fuel o r) := by
    rintro s ⟨L, l⟩ r ⟨rfl, h⟩
    exact h.step fuel r
  exact run_events hstep ⟨rfl, Holding.start⟩

end Bionic.LastError
