import Mathlib

/-!
# Reads from a buffer

Code that reads fields at places that are themselves read from the buffer. A read that leaves
the buffer is told apart from a refusal by the code, and the precondition of a computation is
computed rule by rule. Nothing here names the linker.
-/

set_option autoImplicit false

namespace Bionic.Buffers

universe u

inductive Stop where
  | outOfBounds
  | refused
  deriving DecidableEq, Repr

abbrev Buffer := List (BitVec 8)

def littleEndian : Buffer → ℕ
  | [] => 0
  | b :: bs => b.toNat + 256 * littleEndian bs

def field (b : Buffer) (off n : ℕ) : ℕ := littleEndian ((b.drop off).take n)

def read (b : Buffer) (off n : ℕ) : Except Stop ℕ :=
  if off + n ≤ b.length then .ok (field b off n) else .error .outOfBounds

def accept (c : Prop) [Decidable c] : Except Stop Unit :=
  if c then .ok () else .error .refused

def demand {α : Type*} (o : Option α) : Except Stop α := o.elim (.error .refused) .ok

def readAll (b : Buffer) : List (ℕ × ℕ) → Except Stop Unit
  | [] => .ok ()
  | f :: fs => read b f.1 f.2 >>= fun _ => readAll b fs

/-- Every read was inside the buffer, up to the end or to a refusal. -/
def Safe {α : Type*} (r : Except Stop α) : Prop := r ≠ .error .outOfBounds

/-- The computation is safe, and what it gives satisfies `Q`. -/
def Meets {α : Type*} (r : Except Stop α) (Q : α → Prop) : Prop :=
  Safe r ∧ ∀ a, r = .ok a → Q a

variable {α β : Type u} {b : Buffer} {off n : ℕ}

theorem littleEndian_lt (bs : Buffer) : littleEndian bs < 256 ^ bs.length := by
  induction bs with
  | nil => exact Nat.one_pos
  | cons b bs ih =>
    have hb : b.toNat < 256 := b.isLt
    rw [littleEndian, List.length_cons, pow_succ]
    omega

theorem field_lt (b : Buffer) (off n : ℕ) : field b off n < 256 ^ n := by
  refine (littleEndian_lt _).trans_le (Nat.pow_le_pow_right (by decide) ?_)
  exact List.length_take_le n _

section rules
variable {Q : α → Prop}

theorem meets_true (r : Except Stop α) : Meets r (fun _ => True) ↔ Safe r := by
  simp [Meets]

theorem Safe.eq_ok_iff {r : Except Stop α} (h : Safe r) (a : α) :
    r = .ok a ↔ ¬ Meets r (· ≠ a) := by
  rw [Meets, not_and, not_forall]
  constructor
  · exact fun hr _ => ⟨a, fun hne => hne hr rfl⟩
  · intro hm
    obtain ⟨c, hc⟩ := hm h
    simp only [Classical.not_imp, ne_eq, not_not] at hc
    rw [hc.1, hc.2]

@[simp] theorem meets_ok (a : α) : Meets (.ok a) Q ↔ Q a := by
  simp [Meets, Safe]

@[simp] theorem meets_pure (a : α) : Meets (pure a) Q ↔ Q a := meets_ok a

@[simp] theorem meets_refused : Meets (.error .refused) Q ↔ True := by
  simp [Meets, Safe]

@[simp] theorem meets_outOfBounds : Meets (.error .outOfBounds) Q ↔ False := by
  simp [Meets, Safe]

@[simp] theorem meets_bind (r : Except Stop β) (f : β → Except Stop α) :
    Meets (r >>= f) Q ↔ Meets r fun a => Meets (f a) Q := by
  cases r with
  | ok a =>
    rw [meets_ok]
    rfl
  | error e =>
    cases e with
    | outOfBounds =>
      rw [meets_outOfBounds]
      exact meets_outOfBounds
    | refused =>
      rw [meets_refused]
      exact meets_refused

end rules

@[simp] theorem meets_read {Q : ℕ → Prop} :
    Meets (read b off n) Q ↔ off + n ≤ b.length ∧ Q (field b off n) := by
  rw [read]
  split_ifs with h <;> simp [h]

@[simp] theorem meets_accept {Q : Unit → Prop} (c : Prop) [Decidable c] :
    Meets (accept c) Q ↔ (c → Q ()) := by
  rw [accept]
  split_ifs with h <;> simp [h]

@[simp] theorem meets_demand {Q : α → Prop} (o : Option α) :
    Meets (demand o) Q ↔ ∀ a, o = some a → Q a := by
  cases o <;> simp [demand]

theorem meets_readAll {Q : Unit → Prop} (fs : List (ℕ × ℕ)) :
    Meets (readAll b fs) Q ↔ (∀ f ∈ fs, f.1 + f.2 ≤ b.length) ∧ Q () := by
  induction fs with
  | nil => simp [readAll]
  | cons f fs ih => rw [readAll, meets_bind, meets_read, ih, List.forall_mem_cons, and_assoc]

end Bionic.Buffers
