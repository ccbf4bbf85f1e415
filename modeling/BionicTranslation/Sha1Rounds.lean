import Mathlib

/-!
# The compression function of SHA-1

`SHA1Transform` keeps sixteen words that it overwrites as it goes, and instead of moving
its five variables gives them other roles in every round. The standard has eighty words
and moves the variables; it is written down beside the code and the two are compared.
-/

set_option autoImplicit false

namespace Bionic.Sha1Rounds

abbrev Byte := BitVec 8

abbrev Word := BitVec 32

def bytesWord (b₀ b₁ b₂ b₃ : Byte) : Word :=
  b₀.setWidth 32 <<< 24 ||| b₁.setWidth 32 <<< 16 ||| b₂.setWidth 32 <<< 8 ||| b₃.setWidth 32

/-- `block->l[i]` after the copy of the buffer, in the byte order of the machine. -/
def loadWord (littleEndian : Bool) (buffer : ℕ → Byte) (i : ℕ) : Word :=
  if littleEndian then
    bytesWord (buffer (4 * i + 3)) (buffer (4 * i + 2)) (buffer (4 * i + 1)) (buffer (4 * i))
  else bytesWord (buffer (4 * i)) (buffer (4 * i + 1)) (buffer (4 * i + 2)) (buffer (4 * i + 3))

def rol (value : Word) (bits : ℕ) : Word := value <<< bits ||| value >>> (32 - bits)

inductive Var where
  | a
  | b
  | c
  | d
  | e
  deriving DecidableEq, Repr

structure Work where
  var : Var → Word
  l : Fin 16 → Word

/-- The test `BYTE_ORDER == LITTLE_ENDIAN`, taken to say what the machine is. Where no header
defines the two macros it holds on every machine. -/
def blk0 (littleEndian : Bool) (l : Fin 16 → Word) (i : ℕ) : Word :=
  let x := l (Fin.ofNat 16 i)
  if littleEndian then (rol x 24 &&& 0xFF00FF00) ||| (rol x 8 &&& 0x00FF00FF) else x

def blk (l : Fin 16 → Word) (i : ℕ) : Word :=
  rol (l (Fin.ofNat 16 (i + 13)) ^^^ l (Fin.ofNat 16 (i + 8)) ^^^ l (Fin.ofNat 16 (i + 2)) ^^^
    l (Fin.ofNat 16 i)) 1

section round
variable (mix : Word → Word → Word → Word) (expand : (Fin 16 → Word) → ℕ → Word)
  (constant : Word) (v w x y z : Var) (i : ℕ)

/-- What the five macros have in common: `expand` is stored where it is used. -/
def round (s : Work) : Work :=
  let word := expand s.l i
  let var := Function.update s.var z
    (s.var z + (mix (s.var w) (s.var x) (s.var y) + word + constant + rol (s.var v) 5))
  { var := Function.update var w (rol (var w) 30)
    l := Function.update s.l (Fin.ofNat 16 i) word }

end round

def R0 (littleEndian : Bool) : Var → Var → Var → Var → Var → ℕ → Work → Work :=
  round (fun w x y => (w &&& (x ^^^ y)) ^^^ y) (blk0 littleEndian) 0x5A827999

def R1 : Var → Var → Var → Var → Var → ℕ → Work → Work :=
  round (fun w x y => (w &&& (x ^^^ y)) ^^^ y) blk 0x5A827999

def R2 : Var → Var → Var → Var → Var → ℕ → Work → Work :=
  round (fun w x y => w ^^^ x ^^^ y) blk 0x6ED9EBA1

def R3 : Var → Var → Var → Var → Var → ℕ → Work → Work :=
  round (fun w x y => ((w ||| x) &&& y) ||| (w &&& x)) blk 0x8F1BBCDC

def R4 : Var → Var → Var → Var → Var → ℕ → Work → Work :=
  round (fun w x y => w ^^^ x ^^^ y) blk 0xCA62C1D6

open Var in
def rounds (littleEndian : Bool) : List (Work → Work) :=
  let R0 := R0 littleEndian
  [R0 a b c d e 0, R0 e a b c d 1, R0 d e a b c 2, R0 c d e a b 3, R0 b c d e a 4,
    R0 a b c d e 5, R0 e a b c d 6, R0 d e a b c 7, R0 c d e a b 8, R0 b c d e a 9,
    R0 a b c d e 10, R0 e a b c d 11, R0 d e a b c 12, R0 c d e a b 13, R0 b c d e a 14,
    R0 a b c d e 15, R1 e a b c d 16, R1 d e a b c 17, R1 c d e a b 18, R1 b c d e a 19,
    R2 a b c d e 20, R2 e a b c d 21, R2 d e a b c 22, R2 c d e a b 23, R2 b c d e a 24,
    R2 a b c d e 25, R2 e a b c d 26, R2 d e a b c 27, R2 c d e a b 28, R2 b c d e a 29,
    R2 a b c d e 30, R2 e a b c d 31, R2 d e a b c 32, R2 c d e a b 33, R2 b c d e a 34,
    R2 a b c d e 35, R2 e a b c d 36, R2 d e a b c 37, R2 c d e a b 38, R2 b c d e a 39,
    R3 a b c d e 40, R3 e a b c d 41, R3 d e a b c 42, R3 c d e a b 43, R3 b c d e a 44,
    R3 a b c d e 45, R3 e a b c d 46, R3 d e a b c 47, R3 c d e a b 48, R3 b c d e a 49,
    R3 a b c d e 50, R3 e a b c d 51, R3 d e a b c 52, R3 c d e a b 53, R3 b c d e a 54,
    R3 a b c d e 55, R3 e a b c d 56, R3 d e a b c 57, R3 c d e a b 58, R3 b c d e a 59,
    R4 a b c d e 60, R4 e a b c d 61, R4 d e a b c 62, R4 c d e a b 63, R4 b c d e a 64,
    R4 a b c d e 65, R4 e a b c d 66, R4 d e a b c 67, R4 c d e a b 68, R4 b c d e a 69,
    R4 a b c d e 70, R4 e a b c d 71, R4 d e a b c 72, R4 c d e a b 73, R4 b c d e a 74,
    R4 a b c d e 75, R4 e a b c d 76, R4 d e a b c 77, R4 c d e a b 78, R4 b c d e a 79]

structure Chain where
  s0 : Word
  s1 : Word
  s2 : Word
  s3 : Word
  s4 : Word
  deriving DecidableEq, Repr

def Chain.vars (state : Chain) : Var → Word
  | .a => state.s0
  | .b => state.s1
  | .c => state.s2
  | .d => state.s3
  | .e => state.s4

def SHA1Transform (littleEndian : Bool) (state : Chain) (buffer : ℕ → Byte) : Chain :=
  let start : Work := ⟨state.vars, fun i => loadWord littleEndian buffer i⟩
  let s := (rounds littleEndian).foldl (fun s round => round s) start
  ⟨state.s0 + s.var .a, state.s1 + s.var .b, state.s2 + s.var .c, state.s3 + s.var .d,
    state.s4 + s.var .e⟩

def f (t : ℕ) (B C D : Word) : Word :=
  if t < 20 then (B &&& C) ||| (~~~B &&& D)
  else if t < 40 then B ^^^ C ^^^ D
  else if t < 60 then (B &&& C) ||| (B &&& D) ||| (C &&& D)
  else B ^^^ C ^^^ D

def K (t : ℕ) : Word :=
  if t < 20 then 0x5A827999
  else if t < 40 then 0x6ED9EBA1
  else if t < 60 then 0x8F1BBCDC
  else 0xCA62C1D6

def W (M : ℕ → Word) (t : ℕ) : Word :=
  if t < 16 then M t
  else (W M (t - 3) ^^^ W M (t - 8) ^^^ W M (t - 14) ^^^ W M (t - 16)).rotateLeft 1

def advance (M : ℕ → Word) (h : Chain) (t : ℕ) : Chain :=
  ⟨h.s0.rotateLeft 5 + f t h.s1 h.s2 h.s3 + h.s4 + W M t + K t, h.s0, h.s1.rotateLeft 30, h.s2,
    h.s3⟩

def blockWords (buffer : ℕ → Byte) (t : ℕ) : Word :=
  bytesWord (buffer (4 * t)) (buffer (4 * t + 1)) (buffer (4 * t + 2)) (buffer (4 * t + 3))

def compress (H : Chain) (buffer : ℕ → Byte) : Chain :=
  let h := (List.range 80).foldl (advance (blockWords buffer)) H
  ⟨H.s0 + h.s0, H.s1 + h.s1, H.s2 + h.s2, H.s3 + h.s3, H.s4 + h.s4⟩

theorem rol_eq {bits : ℕ} (x : Word) (h : bits < 32) : rol x bits = x.rotateLeft bits := by
  rw [BitVec.rotateLeft_def, Nat.mod_eq_of_lt h, rol]

theorem swap_bytes (b₀ b₁ b₂ b₃ : Byte) : (rol (bytesWord b₃ b₂ b₁ b₀) 24 &&& 0xFF00FF00) |||
    (rol (bytesWord b₃ b₂ b₁ b₀) 8 &&& 0x00FF00FF) = bytesWord b₀ b₁ b₂ b₃ := by
  apply BitVec.eq_of_getLsbD_eq
  intro k hk
  interval_cases k <;> simp [rol, bytesWord]

theorem mux_eq (w x y : Word) : (w &&& (x ^^^ y)) ^^^ y = (w &&& x) ||| (~~~w &&& y) := by
  ext i hi
  simp only [BitVec.getElem_xor, BitVec.getElem_and, BitVec.getElem_or, BitVec.getElem_not]
  cases w[i] <;> simp

theorem majority_eq (w x y : Word) :
    ((w ||| x) &&& y) ||| (w &&& x) = (w &&& x) ||| (w &&& y) ||| (x &&& y) := by
  ext i hi
  simp only [BitVec.getElem_and, BitVec.getElem_or]
  cases w[i] <;> cases x[i] <;> simp

theorem blk0_load (littleEndian : Bool) {buffer : ℕ → Byte} {l : Fin 16 → Word} {t : ℕ}
    (h : l (Fin.ofNat 16 t) = loadWord littleEndian buffer t) :
    blk0 littleEndian l t = blockWords buffer t := by
  rw [blk0, h]
  cases littleEndian with
  | true => exact swap_bytes _ _ _ _
  | false => rfl

theorem W_first {M : ℕ → Word} {t : ℕ} (h : t < 16) : W M t = M t := by
  rw [W, if_pos h]

theorem W_next {M : ℕ → Word} {t : ℕ} (h : 16 ≤ t) : W M t =
    (W M (t - 3) ^^^ W M (t - 8) ^^^ W M (t - 14) ^^^ W M (t - 16)).rotateLeft 1 := by
  rw [W, if_neg (Nat.not_lt.mpr h)]

theorem W_congr {M N : ℕ → Word} (h : ∀ t < 16, M t = N t) (t : ℕ) : W M t = W N t := by
  induction t using Nat.strong_induction_on with
  | _ t ih =>
    by_cases ht : t < 16
    · rw [W_first ht, W_first ht, h t ht]
    · rw [W_next (Nat.not_lt.mp ht), W_next (Nat.not_lt.mp ht), ih (t - 3) (by omega),
        ih (t - 8) (by omega), ih (t - 14) (by omega), ih (t - 16) (by omega)]

theorem compress_congr {b b' : ℕ → Byte} (H : Chain) (h : ∀ k < 64, b k = b' k) :
    compress H b = compress H b' := by
  have hW : W (blockWords b) = W (blockWords b') := by
    funext t
    apply W_congr
    intro i hi
    rw [blockWords, blockWords, h _ (by omega), h _ (by omega), h _ (by omega), h _ (by omega)]
  have hadv : advance (blockWords b) = advance (blockWords b') := by
    funext h t
    rw [advance, advance, hW]
  rw [compress, compress, hadv]

def Var.nth (n : ℕ) : Var :=
  match n % 5 with
  | 0 => .a
  | 1 => .b
  | 2 => .c
  | 3 => .d
  | _ => .e

theorem nth_congr {m n : ℕ} (h : m % 5 = n % 5) : Var.nth m = Var.nth n := by
  rw [Var.nth, Var.nth, h]

theorem nth_ne {m n : ℕ} (h : m % 5 ≠ n % 5) : Var.nth m ≠ Var.nth n := by
  have hm := Nat.mod_lt m (show 0 < 5 by decide)
  have hn := Nat.mod_lt n (show 0 < 5 by decide)
  rw [Var.nth, Var.nth]
  generalize m % 5 = i at h hm ⊢
  generalize n % 5 = j at h hn ⊢
  interval_cases i <;> interval_cases j <;> simp at h ⊢

def roundAt (littleEndian : Bool) (t : ℕ) : Work → Work :=
  (if t < 16 then R0 littleEndian else if t < 20 then R1 else if t < 40 then R2
    else if t < 60 then R3 else R4)
    (.nth (4 * t)) (.nth (4 * t + 1)) (.nth (4 * t + 2)) (.nth (4 * t + 3)) (.nth (4 * t + 4)) t

theorem rounds_eq (littleEndian : Bool) :
    rounds littleEndian = (List.range 80).map (roundAt littleEndian) := rfl

/-- Before round `t` the variables have gone round, and of the words those from `t` on are as
they were loaded and the last sixteen before are words of the schedule. -/
structure Sim (littleEndian : Bool) (buffer : ℕ → Byte) (t : ℕ) (s : Work) (h : Chain) : Prop where
  A : s.var (.nth (4 * t)) = h.s0
  B : s.var (.nth (4 * t + 1)) = h.s1
  C : s.var (.nth (4 * t + 2)) = h.s2
  D : s.var (.nth (4 * t + 3)) = h.s3
  E : s.var (.nth (4 * t + 4)) = h.s4
  made : ∀ j < t, t ≤ j + 16 → s.l (Fin.ofNat 16 j) = W (blockWords buffer) j
  loaded : ∀ j, t ≤ j → j < 16 → s.l (Fin.ofNat 16 j) = loadWord littleEndian buffer j

variable {littleEndian : Bool} {buffer : ℕ → Byte} {t : ℕ} {s : Work} {h : Chain}

theorem Sim.blk0 (hs : Sim littleEndian buffer t s h) (ht : t < 16) :
    blk0 littleEndian s.l t = W (blockWords buffer) t := by
  rw [blk0_load littleEndian (hs.loaded t le_rfl ht), W_first ht]

theorem Sim.blk (hs : Sim littleEndian buffer t s h) (ht : 16 ≤ t) :
    blk s.l t = W (blockWords buffer) t := by
  have hback : ∀ k n, t + k = n + 16 → n < t → t ≤ n + 16 →
      s.l (Fin.ofNat 16 (t + k)) = W (blockWords buffer) n := by
    intro k n hk hlt hle
    have hsame : Fin.ofNat 16 (t + k) = Fin.ofNat 16 n := by
      rw [hk]
      exact Fin.ext (Nat.add_mod_right n 16)
    rw [hsame, hs.made n hlt hle]
  rw [Sha1Rounds.blk, W_next ht, ← rol_eq _ (by decide),
    hback 13 (t - 3) (by omega) (by omega) (by omega),
    hback 8 (t - 8) (by omega) (by omega) (by omega),
    hback 2 (t - 14) (by omega) (by omega) (by omega)]
  have hlast := hback 0 (t - 16) (by omega) (by omega) (by omega)
  rw [Nat.add_zero] at hlast
  rw [hlast]

theorem ring_ne {j k : ℕ} (h : j % 16 ≠ k % 16) : Fin.ofNat 16 j ≠ Fin.ofNat 16 k :=
  fun he => h (congrArg Fin.val he)

/-- A round of the code that mixes, expands and adds what the standard has for it. -/
theorem Sim.round {mix : Word → Word → Word → Word} {expand : (Fin 16 → Word) → ℕ → Word}
    {constant : Word} (hs : Sim littleEndian buffer t s h)
    (hmix : ∀ w x y, mix w x y = f t w x y) (hexp : expand s.l t = W (blockWords buffer) t)
    (hconst : constant = K t) :
    Sim littleEndian buffer (t + 1) (round mix expand constant (.nth (4 * t)) (.nth (4 * t + 1))
      (.nth (4 * t + 2)) (.nth (4 * t + 3)) (.nth (4 * t + 4)) t s)
      (advance (blockWords buffer) h t) := by
  have hA : Var.nth (4 * (t + 1)) = .nth (4 * t + 4) := nth_congr (by omega)
  have hB : Var.nth (4 * (t + 1) + 1) = .nth (4 * t) := nth_congr (by omega)
  have hC : Var.nth (4 * (t + 1) + 2) = .nth (4 * t + 1) := nth_congr (by omega)
  have hD : Var.nth (4 * (t + 1) + 3) = .nth (4 * t + 2) := nth_congr (by omega)
  have hE : Var.nth (4 * (t + 1) + 4) = .nth (4 * t + 3) := nth_congr (by omega)
  have hzw : Var.nth (4 * t + 4) ≠ .nth (4 * t + 1) := nth_ne (by omega)
  have hother : ∀ k, (4 * t + k) % 5 ≠ (4 * t + 1) % 5 → (4 * t + k) % 5 ≠ (4 * t + 4) % 5 →
      (Sha1Rounds.round mix expand constant (.nth (4 * t)) (.nth (4 * t + 1)) (.nth (4 * t + 2))
        (.nth (4 * t + 3)) (.nth (4 * t + 4)) t s).var (.nth (4 * t + k)) =
        s.var (.nth (4 * t + k)) := by
    intro k h1 h4
    rw [Sha1Rounds.round]
    simp only
    rw [Function.update_of_ne (nth_ne h1), Function.update_of_ne (nth_ne h4)]
  refine ⟨?_, ?_, ?_, ?_, ?_, fun j hj hle => ?_, fun j hj hlt => ?_⟩
  · rw [hA, Sha1Rounds.round]
    simp only
    rw [Function.update_of_ne hzw, Function.update_self, hmix, hexp, hconst, hs.A, hs.B, hs.C,
      hs.D, hs.E, rol_eq _ (by decide)]
    simp only [advance]
    ac_rfl
  · rw [hB]
    exact (hother 0 (by omega) (by omega)).trans hs.A
  · rw [hC, Sha1Rounds.round]
    simp only
    rw [Function.update_self, Function.update_of_ne hzw.symm, hs.B, rol_eq _ (by decide)]
    rfl
  · rw [hD]
    exact (hother 2 (by omega) (by omega)).trans hs.C
  · rw [hE]
    exact (hother 3 (by omega) (by omega)).trans hs.D
  · rw [Sha1Rounds.round]
    by_cases hjt : j = t
    · rw [hjt]
      exact (Function.update_self ..).trans hexp
    · have hne : Fin.ofNat 16 j ≠ Fin.ofNat 16 t := ring_ne (by omega)
      exact (Function.update_of_ne hne ..).trans (hs.made j (by omega) (by omega))
  · rw [Sha1Rounds.round]
    have hne : Fin.ofNat 16 j ≠ Fin.ofNat 16 t := ring_ne (by omega)
    exact (Function.update_of_ne hne ..).trans (hs.loaded j (by omega) hlt)

theorem Sim.roundAt (hs : Sim littleEndian buffer t s h) :
    Sim littleEndian buffer (t + 1) (roundAt littleEndian t s)
      (advance (blockWords buffer) h t) := by
  rw [Sha1Rounds.roundAt]
  split_ifs with h16 h20 h40 h60
  · have h20 : t < 20 := by omega
    exact hs.round (fun w x y => by rw [f, if_pos h20, mux_eq]) (hs.blk0 h16)
      (by rw [K, if_pos h20])
  · exact hs.round (fun w x y => by rw [f, if_pos h20, mux_eq]) (hs.blk (by omega))
      (by rw [K, if_pos h20])
  · exact hs.round (fun w x y => by rw [f, if_neg h20, if_pos h40]) (hs.blk (by omega))
      (by rw [K, if_neg h20, if_pos h40])
  · exact hs.round (fun w x y => by rw [f, if_neg h20, if_neg h40, if_pos h60, majority_eq])
      (hs.blk (by omega)) (by rw [K, if_neg h20, if_neg h40, if_pos h60])
  · exact hs.round (fun w x y => by rw [f, if_neg h20, if_neg h40, if_neg h60])
      (hs.blk (by omega)) (by rw [K, if_neg h20, if_neg h40, if_neg h60])

theorem sim_start (littleEndian : Bool) (buffer : ℕ → Byte) (state : Chain) :
    Sim littleEndian buffer 0 ⟨state.vars, fun i => loadWord littleEndian buffer i⟩ state where
  A := rfl
  B := rfl
  C := rfl
  D := rfl
  E := rfl
  made j hj := absurd hj (Nat.not_lt_zero j)
  loaded j _ hj := by
    show loadWord littleEndian buffer (j % 16) = loadWord littleEndian buffer j
    rw [Nat.mod_eq_of_lt hj]

theorem sim_rounds (littleEndian : Bool) (buffer : ℕ → Byte) (state : Chain) (n : ℕ) :
    Sim littleEndian buffer n
      ((List.range n).foldl (fun s t => roundAt littleEndian t s)
        ⟨state.vars, fun i => loadWord littleEndian buffer i⟩)
      ((List.range n).foldl (advance (blockWords buffer)) state) := by
  induction n with
  | zero => exact sim_start littleEndian buffer state
  | succ n ih =>
    rw [List.range_succ, List.foldl_append, List.foldl_append]
    exact ih.roundAt

/-- On a machine of either byte order the unrolled loop over sixteen words is the compression
function of the standard, for every state and every block. -/
theorem SHA1Transform_eq (littleEndian : Bool) (state : Chain) (buffer : ℕ → Byte) :
    SHA1Transform littleEndian state buffer = compress state buffer := by
  have hs := sim_rounds littleEndian buffer state 80
  rw [SHA1Transform, compress, rounds_eq, List.foldl_map]
  simp only [Chain.mk.injEq]
  exact ⟨congrArg _ hs.A, congrArg _ hs.B, congrArg _ hs.C, congrArg _ hs.D, congrArg _ hs.E⟩

end Bionic.Sha1Rounds
