import BionicTranslation.Records
import BionicTranslation.PthreadCalls

/-!
# Deadlines of timed waits

`time_t` and `long` are machine words with a sign, so the sums that make a deadline may overflow.
Where they do not, the deadline is the sum of a clock reading and the caller's time. For the
wait until an instant of the monotonic clock that is not the deadline that is meant.
-/

set_option autoImplicit false

namespace Bionic.TimedWaits
open Bionic.Elf Bionic.PthreadCalls

def InWord (c : ElfClass) (x : ℤ) : Prop := -2 ^ (c.bits - 1) ≤ x ∧ x < 2 ^ (c.bits - 1)

instance (c : ElfClass) (x : ℤ) : Decidable (InWord c x) :=
  inferInstanceAs (Decidable (_ ∧ _))

/-- Signed addition, undefined on overflow. -/
def add (c : ElfClass) (x y : ℤ) : Option ℤ := if InWord c (x + y) then some (x + y) else none

def addTime (c : ElfClass) (tv time : Timespec) : Option Timespec :=
  (add c tv.tv_sec time.tv_sec).bind fun sec => (add c tv.tv_nsec time.tv_nsec).bind fun nsec =>
    if nsec ≥ 1000000000 then
      (add c sec 1).bind fun sec => (add c nsec (-1000000000)).map fun nsec => ⟨sec, nsec⟩
    else some ⟨sec, nsec⟩

def relativeDeadline (c : ElfClass) (clock : Clock → Timespec) (reltime : Timespec) :
    Option Timespec :=
  addTime c (clock .realtime) reltime

def monotonicDeadline (c : ElfClass) (clock : Clock → Timespec) (abstime : Timespec) :
    Option Timespec :=
  addTime c (clock .monotonic) abstime

def Normal (tv : Timespec) : Prop := 0 ≤ tv.tv_nsec ∧ tv.tv_nsec < 1000000000

def instant (tv : Timespec) : ℤ := 1000000000 * tv.tv_sec + tv.tv_nsec

def Fits (c : ElfClass) (tv time : Timespec) : Prop :=
  -2 ^ (c.bits - 1) ≤ tv.tv_sec + time.tv_sec ∧
    instant tv + instant time < 1000000000 * 2 ^ (c.bits - 1)

/-- There is a deadline, it is normal, and it is the instant `t`. -/
def Denotes (d : Option Timespec) (t : ℤ) : Prop := ∃ tv, d = some tv ∧ Normal tv ∧ instant tv = t

variable {c : ElfClass} {tv time : Timespec} {x y t : ℤ}

theorem add_eq (h : InWord c (x + y)) : add c x y = some (x + y) := if_pos h

theorem add_none (h : ¬ InWord c (x + y)) : add c x y = none := if_neg h

theorem eq_of_add {z : ℤ} (h : add c x y = some z) : z = x + y :=
  (Option.some.inj (Option.ite_none_right_eq_some.mp h).2).symm

theorem eq_plus {d : Timespec} (h : addTime c tv time = some d) : d = tv.plus time := by
  obtain ⟨sec, hsec, h⟩ := Option.bind_eq_some_iff.mp h
  obtain ⟨nsec, hnsec, h⟩ := Option.bind_eq_some_iff.mp h
  obtain rfl := eq_of_add hsec
  obtain rfl := eq_of_add hnsec
  rw [Timespec.plus]
  split_ifs at h ⊢ with hcarry
  · obtain ⟨sec, hsec, h⟩ := Option.bind_eq_some_iff.mp h
    obtain ⟨nsec, hnsec, rfl⟩ := Option.map_eq_some_iff.mp h
    rw [eq_of_add hsec, eq_of_add hnsec]
    rfl
  · exact (Option.some.inj h).symm

theorem normal_plus (htv : Normal tv) (htime : Normal time) : Normal (tv.plus time) := by
  have h0 := htv.1
  have h1 := htime.1
  have h2 := htv.2
  have h3 := htime.2
  rw [Timespec.plus, Normal]
  split_ifs with h <;> constructor <;> simp only <;> omega

theorem instant_plus (tv time : Timespec) :
    instant (tv.plus time) = instant tv + instant time := by
  rw [Timespec.plus, instant, instant, instant]
  split_ifs with h <;> simp only <;> ring

theorem inWord_nsec (h : -1000000000 ≤ x) (h' : x < 2000000000) : InWord c x := by
  cases c with
  | elf32 => exact ⟨by norm_num; omega, by norm_num; omega⟩
  | elf64 => exact ⟨by norm_num; omega, by norm_num; omega⟩

theorem addTime_eq (htv : Normal tv) (htime : Normal time) (h : Fits c tv time) :
    addTime c tv time = some (tv.plus time) := by
  obtain ⟨hlow, hhigh⟩ := h
  have h0 := htv.1
  have h1 := htime.1
  have h2 := htv.2
  have h3 := htime.2
  rw [instant, instant] at hhigh
  have hsec : InWord c (tv.tv_sec + time.tv_sec) := ⟨hlow, by omega⟩
  have hnsec : InWord c (tv.tv_nsec + time.tv_nsec) := inWord_nsec (by omega) (by omega)
  rw [addTime, Timespec.plus, add_eq hsec, Option.bind_some, add_eq hnsec, Option.bind_some]
  by_cases hcarry : tv.tv_nsec + time.tv_nsec ≥ 1000000000
  · have hsucc : InWord c (tv.tv_sec + time.tv_sec + 1) := ⟨by omega, by omega⟩
    have hrest : InWord c (tv.tv_nsec + time.tv_nsec + -1000000000) :=
      inWord_nsec (by omega) (by omega)
    rw [if_pos hcarry, if_pos hcarry, add_eq hsucc, Option.bind_some, add_eq hrest]
    rfl
  · rw [if_neg hcarry, if_neg hcarry]

theorem addTime_none (htv : Normal tv) (htime : Normal time) (h : ¬ Fits c tv time) :
    addTime c tv time = none := by
  have h0 := htv.1
  have h1 := htime.1
  have h2 := htv.2
  have h3 := htime.2
  rw [Fits, instant, instant] at h
  rw [addTime]
  by_cases hsec : InWord c (tv.tv_sec + time.tv_sec)
  · obtain ⟨hlow, hhigh⟩ := hsec
    have hnsec : InWord c (tv.tv_nsec + time.tv_nsec) := inWord_nsec (by omega) (by omega)
    have hcarry : tv.tv_nsec + time.tv_nsec ≥ 1000000000 := by omega
    have hsucc : ¬ InWord c (tv.tv_sec + time.tv_sec + 1) := fun hin => by
      have hlt := hin.2
      omega
    rw [add_eq ⟨hlow, hhigh⟩, Option.bind_some, add_eq hnsec, Option.bind_some, if_pos hcarry,
      add_none hsucc]
    rfl
  · rw [add_none hsec]
    rfl

theorem addTime_denotes_iff (htv : Normal tv) (htime : Normal time) (t : ℤ) :
    Denotes (addTime c tv time) t ↔ Fits c tv time ∧ instant tv + instant time = t := by
  constructor
  · rintro ⟨d, hd, -, ht⟩
    have hfits : Fits c tv time := by
      by_contra h
      rw [addTime_none htv htime h] at hd
      cases hd
    exact ⟨hfits, by rw [← ht, eq_plus hd, instant_plus]⟩
  · rintro ⟨h, rfl⟩
    exact ⟨_, addTime_eq htv htime h, normal_plus htv htime, instant_plus tv time⟩

/-- The deadlines are what is waited for. -/
theorem deadline_handed {O B : Type} [DecidableEq O] (c : ElfClass) (host : Host B) (n : ℕ)
    (s : State O B) (x mutex : O) (time d : Timespec) :
    (relativeDeadline c host.clockGettime time = some d →
      bionicPthreadCondTimedwaitRelativeNp host n s x mutex time =
        bionicPthreadCondTimedwait host n s x mutex d) ∧
    (monotonicDeadline c host.clockGettime time = some d →
      bionicPthreadCondTimedwaitMonotonicNp host n s x mutex time =
        bionicPthreadCondTimedwait host n s x mutex d) := by
  constructor
  · intro h
    rw [eq_plus h]
    rfl
  · intro h
    rw [eq_plus h]
    rfl

/-- The relative deadline is right as long as nothing overflows. The other one also needs a
realtime clock that reads just twice what the monotonic clock does. -/
theorem deadline_denotes_iff (c : ElfClass) (clock : Clock → Timespec)
    (hclock : ∀ k, Normal (clock k)) (time : Timespec) (htime : Normal time) :
    (Denotes (relativeDeadline c clock time) (instant (clock .realtime) + instant time) ↔
      Fits c (clock .realtime) time) ∧
    (Denotes (monotonicDeadline c clock time)
        (instant (clock .realtime) + (instant time - instant (clock .monotonic))) ↔
      Fits c (clock .monotonic) time ∧
        2 * instant (clock .monotonic) = instant (clock .realtime)) := by
  rw [relativeDeadline, monotonicDeadline, addTime_denotes_iff (hclock _) htime,
    addTime_denotes_iff (hclock _) htime]
  constructor
  · exact and_iff_left rfl
  · apply and_congr_right
    intro _
    constructor <;> intro h <;> omega

def clocks : Clock → Timespec
  | .realtime => ⟨1700000000, 999999999⟩
  | .monotonic => ⟨100, 0⟩

theorem clocks_normal (k : Clock) : Normal (clocks k) := by
  cases k <;> constructor <;> decide

def doubled : Clock → Timespec
  | .realtime => ⟨200, 500000000⟩
  | .monotonic => ⟨100, 250000000⟩

theorem doubled_normal (k : Clock) : Normal (doubled k) := by
  cases k <;> constructor <;> decide

/-- Half a second from now, over the end of a second; and, where one clock is twice the other, the
instant at which the monotonic clock reads 101 s. -/
theorem relative_half_second :
    Denotes (relativeDeadline .elf32 clocks ⟨0, 500000000⟩)
      (instant (clocks .realtime) + 500000000) ∧
    Denotes (monotonicDeadline .elf32 doubled ⟨101, 0⟩) (instant ⟨201, 250000000⟩) := by
  have hrel := deadline_denotes_iff .elf32 clocks clocks_normal ⟨0, 500000000⟩
    (by constructor <;> decide)
  have habs := deadline_denotes_iff .elf32 doubled doubled_normal ⟨101, 0⟩
    (by constructor <;> decide)
  exact ⟨hrel.1.mpr (by constructor <;> decide), habs.2.mpr ⟨by constructor <;> decide, by decide⟩⟩

/-- A wait until the monotonic clock reads 101 s waits for an instant in the year 1970. -/
theorem monotonic_long_past :
    monotonicDeadline .elf64 clocks ⟨101, 0⟩ = some ⟨201, 0⟩ ∧
    ¬ Denotes (monotonicDeadline .elf64 clocks ⟨101, 0⟩)
      (instant (clocks .realtime) + (instant ⟨101, 0⟩ - instant (clocks .monotonic))) := by
  have hrun : monotonicDeadline .elf64 clocks ⟨101, 0⟩ = some ⟨201, 0⟩ := by decide
  refine ⟨hrun, ?_⟩
  rw [hrun]
  rintro ⟨d, hd, -, ht⟩
  obtain rfl := Option.some.inj hd
  exact absurd ht (by decide)

end Bionic.TimedWaits
