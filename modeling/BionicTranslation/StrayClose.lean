import BionicTranslation.Bytes
import BionicTranslation.RefCounts

/-!
# Closing a handle that is not open

`bionic_dlclose` does not check its argument. A slot that is off the list always has its counter
changed, and a library on the list is safe to close unless its counter already is zero. Behind
any other pointer there is a word at the place of the counter, in memory that may belong to the
host or to a soinfo.
-/

set_option autoImplicit false

namespace Bionic.StrayClose
open Bionic.Slots Bionic.Records Bionic.Linker Bionic.Unload Bionic.FoldRules Bionic.LinkFrame
open Bionic.LinkSteps Bionic.CallFrame Bionic.LinkFlags Bionic.RefLedger Bionic.RefCounts
open Bionic.FindSound Bionic.Bytes

def OnList (L : State) : Handle → Prop
  | .so si => si ∈ L.solist
  | .host _ => False

/-- Where the soinfos are, the place of the counter in one, and the variables that hold the ends
of the two lists. -/
structure Layout where
  address : So → BitVec 64
  size : ℕ
  refcount : ℕ
  heads : List (BitVec 64)

def soinfos : List So := .libdl :: (List.finRange soMax).map .pool

namespace Layout
variable (lay : Layout) (mem : Memory 64) (usable : BitVec 64 → Bool) (p : BitVec 64)

/-- What is at the address `p`: a soinfo, or something else. -/
def handle : Handle :=
  match soinfos.find? fun x => lay.address x = p with
  | some x => .so x
  | none => .host p.toNat

/-- The bytes of the soinfos and of the ends of the lists. -/
def Own (a : BitVec 64) : Prop :=
  (∃ x, Within (lay.address x) lay.size a) ∨ ∃ h ∈ lay.heads, Within h 8 a

def place : BitVec 64 := p + BitVec.ofNat 64 lay.refcount

def counter : BitVec 64 := load 8 mem (lay.place p)

/-- The word that a pointer has at the place of the counter, where memory can be used. -/
def foreign (n : ℕ) : Option ℕ :=
  if (List.range 8).all fun i => usable (lay.place (BitVec.ofNat 64 n) + BitVec.ofNat 64 i) then
    some (lay.counter mem (BitVec.ofNat 64 n)).toNat
  else none

def closed : Memory 64 :=
  match lay.handle p with
  | .so _ => mem
  | .host _ => store (n := 8) mem (lay.place p) (lay.counter mem p - 1#64)

end Layout

/-- Closing `p` changes nothing if it is no library on the list, and decrements no counter below
zero if it is one. -/
structure CloseSafe (lay : Layout) (mem : Memory 64) (usable : BitVec 64 → Bool) (L : State)
    (p : BitVec 64) : Prop where
  stray : ¬ OnList L (lay.handle p) → ∀ fuel, ∃ L',
    bionicDlclose (lay.foreign mem usable) (fuel + 1) L (lay.handle p) = .ok L' ∧
      L'.pool = L.pool ∧ L'.info = L.info ∧ ∀ a, lay.Own a → lay.closed mem p a = mem a
  counts : OnList L (lay.handle p) → ∀ fuel L',
    bionicDlclose (lay.foreign mem usable) fuel L (lay.handle p) = .ok L' →
      ∀ x, L'.events.count (.decrement x 0) = L.events.count (.decrement x 0)

/-- A library on the list whose counter is not zero, or a pointer to something else: its word can
be used and is not 1, and neither its first byte nor a byte that has only zeros below it is one
of a soinfo or of the ends of the lists. -/
def SafeToClose (lay : Layout) (mem : Memory 64) (usable : BitVec 64 → Bool) (L : State)
    (p : BitVec 64) : Prop :=
  match lay.handle p with
  | .so si => si ∈ L.solist ∧ (L.info si).refcount ≠ 0
  | .host _ => (∀ i < 8, usable (lay.place p + BitVec.ofNat 64 i) = true) ∧
      lay.counter mem p ≠ 1 ∧ ∀ i < 8, (lay.counter mem p).toNat % 2 ^ (8 * i) = 0 →
        ¬ lay.Own (lay.place p + BitVec.ofNat 64 i)

theorem unload_refcount {fuel : ℕ} {L L' : State} {si : So}
    (h : unloadLibrary fuel L si = .ok L') :
    (L'.info si).refcount =
      if (L.info si).refcount = 1 then 0 else decrement (L.info si).refcount := by
  cases fuel with
  | zero => cases h
  | succ fuel =>
    rcases unload_cases h with ⟨hone, rfl⟩ | ⟨hone, ds, M, -, -, rfl⟩
    · rw [keepLoaded_info, if_pos rfl, if_neg hone]
    · rw [release_info, if_pos rfl, if_pos hone]

theorem decrement_ne (n : ℕ) : decrement n ≠ n := by
  unfold decrement
  split_ifs <;> omega

theorem unload_changes {fuel : ℕ} {L L' : State} {si : So}
    (h : unloadLibrary fuel L si = .ok L') : L'.info ≠ L.info := by
  intro he
  have hrc := unload_refcount h
  rw [he] at hrc
  split_ifs at hrc with hone
  · omega
  · exact decrement_ne _ hrc.symm

theorem release_events {L : State} {si : So} {e : Event} (h : e ∈ (release L si).events) :
    (∃ i refs, e = .free i refs) ∨ e ∈ L.events := by
  cases si with
  | libdl => exact Or.inr h
  | pool i =>
    rcases List.mem_cons.mp h with rfl | h
    · exact Or.inl ⟨i, _, rfl⟩
    · exact Or.inr h

/-- Closing a library on the list, with or without a reference of its own. -/
theorem unload_no_underflow {fuel : ℕ} {L L' : State} {si : So} (hL : Counted (fun _ => 0) L)
    (hrc : (L.info si).refcount ≠ 0) (h : unloadLibrary fuel L si = .ok L') (x : So) :
    .decrement x 0 ∉ L'.events := by
  have hclean : ∀ {M : State}, Counted (fun _ => 0) M → .decrement x 0 ∉ M.events :=
    fun hM he => hM.sane (fun _ => ⟨rfl, trivial⟩) _ he rfl
  cases fuel with
  | zero => cases h
  | succ fuel =>
    unfold unloadLibrary at h
    split_ifs at h with hone
    · cases hd : (L.info si).dynamic with
      | null =>
        simp only [hd] at h
        cases h
      | missing =>
        simp only [hd] at h
        cases h
      | found ds =>
        simp only [hd] at h
        obtain ⟨M, hM, hend⟩ := except_bind_ok h
        cases hend
        have hpays := unloadLoop_pays (unload_pays fuel) (fun _ => Or.inl rfl) rfl
          (hL.destructors si) hM
        intro he
        rcases release_events he with ⟨i, refs, hf⟩ | he
        · cases hf
        · exact hclean hpays.1 he
    · cases h
      intro he
      rcases List.mem_cons.mp he with he | he
      · rw [Event.decrement.injEq] at he
        exact hrc he.2.symm
      · exact hclean hL he

def Proper (s : Sys) : Act → Prop
  | .dlclose _ (.so si) => si ∈ s.linker.solist ∧
      s.linker.refs (fun _ => true) si < (s.linker.info si).refcount
  | _ => True

abbrev ProperRun : Sys → Prop := Reachable fun s a _ => Proper s a

theorem proper_owe {L : State} {si : So} (h : Counted (fun _ => 0) L)
    (hp : L.refs (fun _ => true) si < (L.info si).refcount) :
    Counted (owe (fun _ => 0) si) L := by
  refine ⟨fun z _ => ?_, h.idle, h.clear, h.sane⟩
  have hz := h.covered z trivial
  simp only [owe, Nat.zero_add] at hz ⊢
  split_ifs with he
  · subst he
    omega
  · rwa [Nat.zero_add]

theorem proper_counted {s : Sys} (h : ProperRun s) : Counted (fun _ => 0) s.linker := by
  induction h with
  | initial => exact counted_initial.mono fun _ => Nat.zero_le _
  | step hr hp hs ih =>
    cases hs with
    | dlopen ho =>
      exact (counted_dlopen ih (reachable_tidy hr).live ho).mono fun _ => Nat.zero_le _
    | dlclose hc =>
      rename_i s foreign fuel h L
      cases h with
      | so si =>
        have howe := proper_owe ih hp.2
        exact (unload_pays fuel (fun _ => Or.inl rfl) howe hc).1
      | host n =>
        rw [(dlclose_host hc).1]
        exact ih

theorem balanced_proper {s : Sys} (h : BalancedRun s) : ProperRun s := by
  induction h with
  | initial => exact .initial
  | step hr hb hs ih =>
    refine .step ih ?_ hs
    cases hs with
    | dlopen ho => trivial
    | dlclose hc =>
      rename_i s foreign fuel h L
      have hL := balanced_counted hr
      cases h with
      | so si =>
        have hc := hL.covered si trivial
        have hh : 0 < held s.opens si := hb
        refine ⟨by_contra fun hno => ?_, by omega⟩
        have := (hL.zero hno).1
        omega
      | host n => trivial

theorem handle_host {lay : Layout} {p : BitVec 64} {n : ℕ} (h : lay.handle p = .host n) :
    n = p.toNat := by
  unfold Layout.handle at h
  split at h
  · cases h
  · exact (Handle.host.inj h).symm

theorem foreign_iff {lay : Layout} {mem : Memory 64} {usable : BitVec 64 → Bool} {p : BitVec 64}
    {r : ℕ} : lay.foreign mem usable p.toNat = some r ↔
      (∀ i < 8, usable (lay.place p + BitVec.ofNat 64 i) = true) ∧
        (lay.counter mem p).toNat = r := by
  simp only [Layout.foreign, BitVec.ofNat_toNat, BitVec.setWidth_eq, List.all_eq_true,
    List.mem_range, Option.ite_none_right_eq_some, Option.some.injEq]

theorem closed_keeps {lay : Layout} {mem : Memory 64} {p : BitVec 64} {n : ℕ}
    (h : lay.handle p = .host n) : (∀ a, lay.Own a → lay.closed mem p a = mem a) ↔
      ∀ i < 8, (lay.counter mem p).toNat % 2 ^ (8 * i) = 0 →
        ¬ lay.Own (lay.place p + BitVec.ofNat 64 i) := by
  have hclosed : lay.closed mem p =
      store (n := 8) mem (lay.place p) (lay.counter mem p - 1#64) := by
    simp only [Layout.closed, h]
  have hbyte : ∀ i < 8, mem (lay.place p + BitVec.ofNat 64 i) =
      (lay.counter mem p).extractLsb' (8 * i) 8 := by
    intro i hi
    have hsame := congrFun (store_load (n := 8) (m := mem) (p := lay.place p))
      (lay.place p + BitVec.ofNat 64 i)
    rw [store_at hi (by decide)] at hsame
    exact hsame.symm
  rw [hclosed]
  constructor
  · intro hk i hi hz hown
    have hsame := hk _ hown
    rw [store_at (n := 8) hi (by decide), hbyte i hi, decrement_byte_iff (by omega)] at hsame
    exact hsame hz
  · intro hno a ha
    by_cases hin : Within (lay.place p) 8 a
    · have hadd := add_sub_toNat (lay.place p) a
      have hlt : (a - lay.place p).toNat < 8 := hin
      rw [← hadd] at ha ⊢
      generalize (a - lay.place p).toNat = i at hlt ha
      rw [store_at (n := 8) hlt (by decide), hbyte i hlt, decrement_byte_iff (by omega)]
      exact fun hz => hno i hlt hz ha
    · exact store_other hin

def sampleLayout : Layout where
  address := fun x => match x with
    | .libdl => 0x1000
    | .pool i => 0x10000 + BitVec.ofNat 64 (0x200 * i)
  size := 0x200
  refcount := 0x170
  heads := [0x800, 0x808, 0x810]

end Bionic.StrayClose
