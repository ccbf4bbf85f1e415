import BionicTranslation.Sha1Rounds

/-!
# Hashing in pieces

`SHA1Update` takes any number of bytes and keeps what does not fill a block in a buffer of
64 bytes, into which it copies at a place computed from a 32-bit counter. `SHA1Final` pads
with further updates. A copy or a read that leaves the buffer or the data has no result.
How a state takes in a list block by block is stated first, for any state.
-/

set_option autoImplicit false

namespace Bionic.BlockStream

variable {σ α : Type*} {n : ℕ} {f : σ → List α → σ} {s : σ} {xs ys : List α}

def absorb (n : ℕ) (f : σ → List α → σ) (s : σ) (xs : List α) : σ × List α :=
  if n < xs.length then absorb n f (f s (xs.take (n + 1))) (xs.drop (n + 1)) else (s, xs)
termination_by xs.length
decreasing_by
  rw [List.length_drop]
  omega

theorem absorb_short (h : xs.length ≤ n) : absorb n f s xs = (s, xs) := by
  rw [absorb, if_neg (Nat.not_lt.mpr h)]

theorem absorb_block (h : n < xs.length) :
    absorb n f s xs = absorb n f (f s (xs.take (n + 1))) (xs.drop (n + 1)) := by
  rw [absorb, if_pos h]

theorem absorb_cons_block (h : xs.length = n + 1) :
    absorb n f s (xs ++ ys) = absorb n f (f s xs) ys := by
  rw [absorb_block (by rw [List.length_append]; omega), List.take_left' h, List.drop_left' h]

theorem absorb_append : absorb n f s (xs ++ ys) =
    absorb n f (absorb n f s xs).1 ((absorb n f s xs).2 ++ ys) := by
  induction hl : xs.length using Nat.strong_induction_on generalizing s xs with
  | _ l ih =>
    by_cases h : n < xs.length
    · have hdrop : (xs.drop (n + 1)).length < l := by
        rw [List.length_drop]
        omega
      have hsplit : xs ++ ys = xs.take (n + 1) ++ (xs.drop (n + 1) ++ ys) := by
        rw [← List.append_assoc, List.take_append_drop]
      rw [absorb_block h, ← ih _ hdrop rfl, hsplit, absorb_cons_block]
      rw [List.length_take]
      omega
    · rw [absorb_short (Nat.not_lt.mp h)]

theorem absorb_left_length : (absorb n f s xs).2.length = xs.length % (n + 1) := by
  induction hl : xs.length using Nat.strong_induction_on generalizing s xs with
  | _ l ih =>
    by_cases h : n < xs.length
    · have hdrop : (xs.drop (n + 1)).length < l := by
        rw [List.length_drop]
        omega
      rw [absorb_block h, ih _ hdrop rfl, List.length_drop, hl, ← Nat.mod_eq_sub_mod (by omega)]
    · rw [absorb_short (Nat.not_lt.mp h), Nat.mod_eq_of_lt (by omega), hl]

end Bionic.BlockStream

namespace Bionic.Sha1Stream
open Bionic.Sha1Rounds Bionic.BlockStream

structure Context where
  state : Chain
  count0 : Word
  count1 : Word
  buffer : Vector Byte 64

def initialState : Chain := ⟨0x67452301, 0xEFCDAB89, 0x98BADCFE, 0x10325476, 0xC3D2E1F0⟩

def SHA1Init (context : Context) : Context :=
  { context with state := initialState, count0 := 0, count1 := 0 }

def copyIn (buffer : Vector Byte 64) (j : ℕ) (data : List Byte) (i n : ℕ) :
    Option (Vector Byte 64) :=
  if h : j + n ≤ 64 ∧ i + n ≤ data.length then
    some ⟨(buffer.toList.take j ++ (data.drop i).take n ++ buffer.toList.drop (j + n)).toArray, by
      simp
      omega⟩
  else none

def bytesAt (data : List Byte) (i : ℕ) : ℕ → Byte := fun k => data.getD (i + k) 0

variable (littleEndian : Bool)

def feed (data : List Byte) (len : Word) : ℕ → Chain → Word → Option (Chain × Word)
  | 0, _, _ => none
  | fuel + 1, state, i =>
    if i + 63 < len then
      if i.toNat + 64 ≤ data.length then
        feed data len fuel (SHA1Transform littleEndian state (bytesAt data i.toNat)) (i + 64)
      else none
    else some (state, i)

def Context.counted (context : Context) (len : Word) : Context :=
  let count0 := context.count0 + (len <<< 3)
  let count1 := if count0 < context.count0 then context.count1 + 1 else context.count1
  { context with count0, count1 := count1 + len >>> 29 }

def SHA1Update (context : Context) (data : List Byte) (len : Word) : Option Context :=
  let j := (context.count0 >>> 3) &&& 63
  let context := context.counted len
  if 63 < j + len then do
    let i := 64 - j
    let buffer ← copyIn context.buffer j.toNat data 0 i.toNat
    let state := SHA1Transform littleEndian context.state (bytesAt buffer.toList 0)
    let (state, i) ← feed littleEndian data len (len.toNat + 1) state i
    let buffer ← copyIn buffer 0 data i.toNat (len - i).toNat
    pure { context with state, buffer }
  else do
    let buffer ← copyIn context.buffer j.toNat data 0 len.toNat
    pure { context with buffer }

def byteOf (w : Word) (i : ℕ) : Byte := ((w >>> ((3 - i % 4) * 8)) &&& 255).setWidth 8

def finalcount (context : Context) : List Byte :=
  (List.range 8).map fun i => byteOf (if 4 ≤ i then context.count0 else context.count1) i

def padZeros : ℕ → Context → Option Context
  | 0, _ => none
  | fuel + 1, context =>
    if context.count0 &&& 504 = 448 then some context
    else (SHA1Update littleEndian context [0] 1).bind (padZeros fuel)

def Chain.word (state : Chain) (i : ℕ) : Word :=
  match i with
  | 0 => state.s0
  | 1 => state.s1
  | 2 => state.s2
  | 3 => state.s3
  | _ => state.s4

def digest (state : Chain) : List Byte :=
  (List.range 20).map fun i => byteOf (Chain.word state (i / 4)) i

def SHA1Final (context : Context) : Option (List Byte) := do
  let count := finalcount context
  let context ← SHA1Update littleEndian context [0x80] 1
  let context ← padZeros littleEndian 64 context
  let context ← SHA1Update littleEndian context count 8
  pure (digest context.state)

/-- The 21 bytes stored at `hash_out`. A negative `len` is as good as 0. -/
def SHA1 (ctx : Context) (str : List Byte) (len : ℤ) : Option (List Byte) := do
  let ctx ← (List.range len.toNat).foldlM
    (fun ctx ii => SHA1Update littleEndian ctx (str.drop ii) 1) (SHA1Init ctx)
  let hash ← SHA1Final littleEndian ctx
  pure (hash ++ [0])

def wordBytes (w : Word) : List Byte :=
  [w.extractLsb' 24 8, w.extractLsb' 16 8, w.extractLsb' 8 8, w.extractLsb' 0 8]

def compressBlock (H : Chain) (block : List Byte) : Chain := compress H (bytesAt block 0)

/-- The state after the full blocks of a message, and the bytes left over. -/
def hashed (message : List Byte) : Chain × List Byte :=
  absorb 63 compressBlock initialState message

def padded (message : List Byte) : List Byte :=
  let bits := BitVec.ofNat 64 (8 * message.length)
  message ++ 0x80 :: (List.replicate ((119 - message.length % 64) % 64) 0 ++
    (wordBytes (bits.extractLsb' 32 32) ++ wordBytes (bits.extractLsb' 0 32)))

def sha1 (message : List Byte) : List Byte :=
  let H := (hashed (padded message)).1
  wordBytes H.s0 ++ wordBytes H.s1 ++ wordBytes H.s2 ++ wordBytes H.s3 ++ wordBytes H.s4

variable {littleEndian} {context c' : Context} {message data : List Byte} {len i : Word}
  {state : Chain} {buffer : Vector Byte 64} {fuel : ℕ}

theorem copyIn_some (buffer : Vector Byte 64) (data : List Byte) {j n k : ℕ}
    (hj : j + n ≤ 64) (hk : k + n ≤ data.length) :
    ∃ b, copyIn buffer j data k n = some b ∧
      b.toList = buffer.toList.take j ++ (data.drop k).take n ++ buffer.toList.drop (j + n) := by
  refine ⟨_, dif_pos ⟨hj, hk⟩, ?_⟩
  simp [Vector.toList]

theorem copyIn_take (buffer : Vector Byte 64) (data : List Byte) {j n k : ℕ}
    (hj : j + n ≤ 64) (hk : k + n ≤ data.length) :
    ∃ b, copyIn buffer j data k n = some b ∧
      b.toList.take (j + n) = buffer.toList.take j ++ (data.drop k).take n := by
  obtain ⟨b, hb, hlist⟩ := copyIn_some buffer data hj hk
  refine ⟨b, hb, ?_⟩
  rw [hlist]
  apply List.take_left'
  simp
  omega

theorem transform_at (h : i.toNat + 64 ≤ len.toNat) :
    SHA1Transform littleEndian state (bytesAt data i.toNat) =
      compressBlock state (((data.take len.toNat).drop i.toNat).take 64) := by
  rw [SHA1Transform_eq, compressBlock]
  apply compress_congr
  intro k hk
  simp only [bytesAt, List.getD_eq_getElem?_getD, Nat.zero_add]
  rw [List.getElem?_take_of_lt hk, List.getElem?_drop, List.getElem?_take_of_lt (by omega)]

/-- The loop takes in the blocks behind the first `i` bytes and stops where no block is left.
Neither `i` nor `i + 63` wraps around. -/
theorem feed_spec (littleEndian : Bool) (state : Chain) {j : ℕ}
    (hl : len.toNat ≤ data.length) (hi : i.toNat ≤ len.toNat)
    (hj : j + len.toNat < 0x100000000) (hdvd : 64 ∣ i.toNat + j)
    (hfuel : len.toNat - i.toNat < fuel) :
    ∃ i', feed littleEndian data len fuel state i =
        some ((absorb 63 compressBlock state ((data.take len.toNat).drop i.toNat)).1, i') ∧
      (data.take len.toNat).drop i'.toNat =
        (absorb 63 compressBlock state ((data.take len.toNat).drop i.toNat)).2 ∧
      i'.toNat ≤ len.toNat ∧ len.toNat < i'.toNat + 64 := by
  induction fuel generalizing i state with
  | zero => exact absurd hfuel (Nat.not_lt_zero _)
  | succ fuel ih =>
    have h63 : (i + 63).toNat = i.toNat + 63 := by
      rw [BitVec.toNat_add, show (63 : Word).toNat = 63 from rfl]
      omega
    have hlength : ((data.take len.toNat).drop i.toNat).length = len.toNat - i.toNat := by
      rw [List.length_drop, List.length_take, Nat.min_eq_left hl]
    rw [feed]
    by_cases hblock : i + 63 < len
    · rw [if_pos hblock]
      rw [BitVec.lt_def, h63] at hblock
      have h64 : (i + 64).toNat = i.toNat + 64 := by
        rw [BitVec.toNat_add, show (64 : Word).toNat = 64 from rfl]
        omega
      have hend : i.toNat + 64 ≤ len.toNat := hblock
      have hstep : ∀ xs : List Byte, 63 < xs.length → absorb 63 compressBlock state xs =
          absorb 63 compressBlock (compressBlock state (xs.take 64)) (xs.drop 64) :=
        fun _ => absorb_block
      rw [if_pos (hend.trans hl), transform_at hend, hstep _ (by omega), List.drop_drop, ← h64]
      exact ih _ (by omega) (by omega) (by omega)
    · rw [if_neg hblock]
      rw [BitVec.lt_def, h63] at hblock
      rw [absorb_short (by omega)]
      exact ⟨i, rfl, rfl, hi, by omega⟩

/-- The context is that of a message of which all full blocks have been taken in. -/
structure Represents (context : Context) (message : List Byte) : Prop where
  state : context.state = (hashed message).1
  pending : context.buffer.toList.take (message.length % 64) = (hashed message).2
  count : context.count1.toNat * 0x100000000 + context.count0.toNat =
    8 * message.length % 0x10000000000000000

theorem represents_init (context : Context) : Represents (SHA1Init context) [] where
  state := by
    rw [hashed, absorb_short (Nat.zero_le _)]
    rfl
  pending := by
    rw [hashed, absorb_short (Nat.zero_le _)]
    rfl
  count := by simp [SHA1Init]

theorem Represents.place (h : Represents context message) :
    ((context.count0 >>> 3) &&& 63).toNat = message.length % 64 := by
  have hc := h.count
  have hlt := context.count0.isLt
  rw [BitVec.toNat_and, BitVec.toNat_ushiftRight, show (63 : Word).toNat = 2 ^ 6 - 1 from rfl,
    Nat.and_two_pow_sub_one_eq_mod, Nat.shiftRight_eq_div_pow]
  omega

theorem two_words {x s : ℕ} (hs : s < 0x100000000) :
    x % 0x100000000 * 0x100000000 + s = (x * 0x100000000 + s) % 0x10000000000000000 := by
  omega

theorem carry_eq {c n : ℕ} (hc : c < 0x100000000) (hn : n < 0x100000000) :
    (if (c + n) % 0x100000000 < c then 1 else 0) * 0x100000000 + (c + n) % 0x100000000 =
      c + n := by
  split_ifs <;> omega

theorem count_bits {c₀ c₁ m n k : ℕ}
    (hc : c₁ * 0x100000000 + c₀ = 8 * m % 0x10000000000000000) (h₀ : c₀ < 0x100000000)
    (hk : k = if (c₀ + n * 8 % 0x100000000) % 0x100000000 < c₀ then 1 else 0) :
    (c₁ + k + n / 0x20000000) % 0x100000000 * 0x100000000 +
      (c₀ + n * 8 % 0x100000000) % 0x100000000 = 8 * (m + n) % 0x10000000000000000 := by
  have hn : n * 8 = n / 0x20000000 * 0x100000000 + n * 8 % 0x100000000 := by omega
  have hcarry := carry_eq h₀ (Nat.mod_lt (n * 8) (by decide))
  rw [← hk] at hcarry
  have hsum : (c₁ + k + n / 0x20000000) * 0x100000000 + (c₀ + n * 8 % 0x100000000) % 0x100000000 =
      c₁ * 0x100000000 + c₀ + 8 * n := by
    linarith only [hn, hcarry]
  rw [two_words (Nat.mod_lt _ (by decide)), hsum, hc, Nat.mod_add_mod, ← Nat.mul_add]

theorem Represents.counts (h : Represents context message) (len : Word) :
    (context.counted len).count1.toNat * 0x100000000 + (context.counted len).count0.toNat =
      8 * (message.length + len.toNat) % 0x10000000000000000 := by
  have hsum : (context.count0 + (len <<< 3)).toNat =
      (context.count0.toNat + len.toNat * 8 % 0x100000000) % 0x100000000 := by
    rw [BitVec.toNat_add, BitVec.toNat_shiftLeft, Nat.shiftLeft_eq]
  have hshift : (len >>> 29).toNat = len.toNat / 0x20000000 := by
    rw [BitVec.toNat_ushiftRight, Nat.shiftRight_eq_div_pow]
  have hlt : context.count0 + (len <<< 3) < context.count0 ↔
      (context.count0.toNat + len.toNat * 8 % 0x100000000) % 0x100000000 <
        context.count0.toNat := by
    rw [BitVec.lt_def, hsum]
  have hk : (context.counted len).count1.toNat =
      (context.count1.toNat + (if (context.count0.toNat + len.toNat * 8 % 0x100000000) %
        0x100000000 < context.count0.toNat then 1 else 0) + len.toNat / 0x20000000) %
        0x100000000 := by
    simp only [Context.counted]
    rw [BitVec.toNat_add, hshift]
    by_cases hcarry : context.count0 + (len <<< 3) < context.count0
    · rw [if_pos hcarry, if_pos (hlt.mp hcarry), BitVec.toNat_add, Nat.mod_add_mod]
      rfl
    · rw [if_neg hcarry, if_neg fun h => hcarry (hlt.mpr h), Nat.add_zero]
  rw [hk, show (context.counted len).count0.toNat = _ from hsum]
  exact count_bits h.count context.count0.isLt rfl

theorem hashed_append (message data : List Byte) : hashed (message ++ data) =
    absorb 63 compressBlock (hashed message).1 ((hashed message).2 ++ data) :=
  absorb_append

theorem hashed_left (message : List Byte) : (hashed message).2.length = message.length % 64 :=
  absorb_left_length

theorem Represents.update_short (h : Represents context message) (hl : len.toNat ≤ data.length)
    (hfit : message.length % 64 + len.toNat < 64) :
    ∃ c', SHA1Update littleEndian context data len = some c' ∧
      Represents c' (message ++ data.take len.toNat) := by
  have hj := h.place
  have hd : (data.take len.toNat).length = len.toNat := by
    rw [List.length_take, Nat.min_eq_left hl]
  have hsum : (((context.count0 >>> 3) &&& 63) + len).toNat = message.length % 64 + len.toNat := by
    rw [BitVec.toNat_add, hj]
    omega
  have hsmall : ¬ (63 : Word) < ((context.count0 >>> 3) &&& 63) + len := by
    rw [BitVec.lt_def, hsum, show (63 : Word).toNat = 63 from rfl]
    omega
  obtain ⟨b, hb, htake⟩ := copyIn_take context.buffer data (k := 0)
    (j := message.length % 64) (n := len.toNat) (by omega) (by omega)
  have hshort : absorb 63 compressBlock (hashed message).1
      ((hashed message).2 ++ data.take len.toNat) =
      ((hashed message).1, (hashed message).2 ++ data.take len.toNat) := by
    apply absorb_short
    rw [List.length_append, hashed_left, hd]
    omega
  refine ⟨{ context.counted len with buffer := b }, ?_, ?_, ?_, ?_⟩
  · have hb' : copyIn (context.counted len).buffer (message.length % 64) data 0 len.toNat =
        some b := hb
    rw [SHA1Update, if_neg hsmall, hj, hb']
    rfl
  · rw [hashed_append, hshort]
    exact h.state
  · rw [hashed_append, hshort]
    show b.toList.take _ = _
    rw [List.length_append, hd, Nat.add_mod, Nat.mod_eq_of_lt (show len.toNat < 64 by omega),
      Nat.mod_eq_of_lt hfit, htake, h.pending, List.drop_zero]
  · have hcount := h.counts len
    rw [List.length_append, hd]
    exact hcount

theorem Represents.update_long (h : Represents context message) (hl : len.toNat ≤ data.length)
    (hfill : 64 ≤ message.length % 64 + len.toNat)
    (hfit : message.length % 64 + len.toNat < 0x100000000) :
    ∃ c', SHA1Update littleEndian context data len = some c' ∧
      Represents c' (message ++ data.take len.toNat) := by
  have hj := h.place
  have hmod : message.length % 64 < 64 := Nat.mod_lt _ (by decide)
  generalize hjm : message.length % 64 = j at hj hmod hfill hfit
  have hd : (data.take len.toNat).length = len.toNat := by
    rw [List.length_take, Nat.min_eq_left hl]
  have hlarge : (63 : Word) < ((context.count0 >>> 3) &&& 63) + len := by
    rw [BitVec.lt_def, BitVec.toNat_add, hj, show (63 : Word).toNat = 63 from rfl,
      Nat.mod_eq_of_lt hfit]
    exact hfill
  have hi₀ : ((64 : Word) - ((context.count0 >>> 3) &&& 63)).toNat = 64 - j := by
    rw [BitVec.toNat_sub, hj, show (64 : Word).toNat = 64 from rfl]
    omega
  obtain ⟨b, hb, htake⟩ := copyIn_take context.buffer data (k := 0)
    (j := j) (n := 64 - j) (by omega) (by omega)
  have hblock : b.toList = (hashed message).2 ++ (data.take len.toNat).take (64 - j) := by
    rw [List.take_take, Nat.min_eq_left (by omega), ← h.pending, hjm, ← List.drop_zero (l := data),
      ← htake, Nat.add_sub_cancel' hmod.le]
    exact (List.take_of_length_le (by simp)).symm
  have hbuffer : ∀ n, copyIn (context.counted len).buffer j data 0 n =
      copyIn context.buffer j data 0 n := fun _ => rfl
  generalize hi : (64 : Word) - ((context.count0 >>> 3) &&& 63) = i at hi₀
  obtain ⟨i', hfeed, hrest, hle, hlt⟩ := feed_spec littleEndian
    (compressBlock (hashed message).1 b.toList) (i := i) (j := j) hl (by omega) (by omega)
    (by omega) (show len.toNat - i.toNat < len.toNat + 1 by omega)
  have hn : (len - i').toNat = len.toNat - i'.toNat := by
    rw [BitVec.toNat_sub]
    have := i'.isLt
    omega
  obtain ⟨b', hb', htake'⟩ := copyIn_take b data (k := i'.toNat)
    (j := 0) (n := len.toNat - i'.toNat) (by omega) (by omega)
  have hhash : hashed (message ++ data.take len.toNat) = absorb 63 compressBlock
      (compressBlock (hashed message).1 b.toList) ((data.take len.toNat).drop i.toNat) := by
    rw [hashed_append, hi₀, hblock, ← absorb_cons_block (by rw [← hblock]; simp),
      List.append_assoc, List.take_append_drop]
  refine ⟨{ context.counted len with
    state := (hashed (message ++ data.take len.toNat)).1, buffer := b' }, ?_, rfl, ?_, ?_⟩
  · have hstate : SHA1Transform littleEndian (context.counted len).state (bytesAt b.toList 0) =
        compressBlock (hashed message).1 b.toList := by
      rw [SHA1Transform_eq, compressBlock, ← h.state]
      rfl
    rw [SHA1Update, if_pos hlarge]
    simp only [hj, hi, hi₀, hbuffer, hb, hstate, hfeed, hn, hb', Option.bind_eq_bind,
      Option.bind_some, hhash]
    rfl
  · have hlength := hashed_left (message ++ data.take len.toNat)
    rw [← hlength]
    rw [hhash, ← hrest]
    show b'.toList.take _ = _
    rw [List.length_drop, hd]
    rw [Nat.zero_add, List.take_zero, List.nil_append] at htake'
    rw [htake', ← List.drop_take]
  · have hcount := h.counts len
    rw [List.length_append, hd]
    exact hcount

/-- With the buffered bytes and the new ones below 2^32 every copy and read is in bounds, and
the update takes the new bytes in. -/
theorem Represents.update (h : Represents context message) (littleEndian : Bool)
    (data : List Byte) (len : Word) (hl : len.toNat ≤ data.length)
    (hfit : message.length % 64 + len.toNat < 0x100000000) :
    ∃ c', SHA1Update littleEndian context data len = some c' ∧
      Represents c' (message ++ data.take len.toNat) := by
  by_cases hfill : message.length % 64 + len.toNat < 64
  · exact h.update_short hl hfill
  · exact h.update_long hl (Nat.not_lt.mp hfill) hfit

theorem Represents.overrun (h : Represents context message)
    (hbig : 0x100000000 ≤ message.length % 64 + len.toNat) :
    SHA1Update littleEndian context data len = none := by
  have hj := h.place
  have hmod : message.length % 64 < 64 := Nat.mod_lt _ (by decide)
  have hlen := len.isLt
  have hsmall : ¬ (63 : Word) < ((context.count0 >>> 3) &&& 63) + len := by
    rw [BitVec.lt_def, BitVec.toNat_add, hj, show (63 : Word).toNat = 63 from rfl]
    omega
  rw [SHA1Update, if_neg hsmall, hj, copyIn, dif_neg (by omega)]
  rfl

/-- Each chunk is short enough for what the chunks before it have left in the buffer. -/
def Fits : ℕ → List (List Byte) → Prop
  | _, [] => True
  | n, d :: ds => n % 64 + d.length < 0x100000000 ∧ Fits (n + d.length) ds

def updates (littleEndian : Bool) (context : Context) (chunks : List (List Byte)) :
    Option Context :=
  chunks.foldlM (fun c d => SHA1Update littleEndian c d (BitVec.ofNat 32 d.length)) context

variable {chunks : List (List Byte)}

theorem toNat_length {d : List Byte} (hd : d.length < 0x100000000) :
    (BitVec.ofNat 32 d.length).toNat = d.length := by
  rw [BitVec.toNat_ofNat, Nat.mod_eq_of_lt hd]

theorem Represents.updates (h : Represents context message) (littleEndian : Bool)
    (hf : Fits message.length chunks) :
    ∃ c', updates littleEndian context chunks = some c' ∧
      Represents c' (message ++ chunks.flatten) := by
  induction chunks generalizing context message with
  | nil =>
    rw [List.flatten_nil, List.append_nil]
    exact ⟨context, rfl, h⟩
  | cons d ds ih =>
    have hd : d.length < 0x100000000 := (Nat.le_add_left _ _).trans_lt hf.1
    have hlen := toNat_length hd
    obtain ⟨c₁, hc₁, h₁⟩ := h.update littleEndian d _ hlen.le
      (by rw [hlen]; exact hf.1)
    rw [hlen, List.take_length] at h₁
    obtain ⟨c', hc', h'⟩ := ih h₁ (by rw [List.length_append]; exact hf.2)
    refine ⟨c', ?_, ?_⟩
    · rw [Sha1Stream.updates, List.foldlM_cons, hc₁]
      exact hc'
    · rw [List.flatten_cons, ← List.append_assoc]
      exact h'

theorem Represents.updates_none (h : Represents context message)
    (hd : ∀ d ∈ chunks, d.length < 0x100000000) (hf : ¬ Fits message.length chunks) :
    Sha1Stream.updates littleEndian context chunks = none := by
  induction chunks generalizing context message with
  | nil => exact absurd trivial hf
  | cons d ds ih =>
    have hlen := toNat_length (hd d List.mem_cons_self)
    rw [Sha1Stream.updates, List.foldlM_cons]
    by_cases hfirst : message.length % 64 + d.length < 0x100000000
    · obtain ⟨c₁, hc₁, h₁⟩ := h.update littleEndian d _ hlen.le
        (by rw [hlen]; exact hfirst)
      rw [hlen, List.take_length] at h₁
      rw [hc₁]
      refine ih h₁ (fun d hm => hd d (List.mem_cons_of_mem _ hm)) fun hrest => ?_
      rw [List.length_append] at hrest
      exact hf ⟨hfirst, hrest⟩
    · rw [h.overrun (by rw [hlen]; exact Nat.not_lt.mp hfirst)]
      rfl

theorem byteOf_eq (w : Word) (i : ℕ) : byteOf w i = w.extractLsb' ((3 - i % 4) * 8) 8 := by
  ext k hk
  have hmask : (255 : Word).getLsbD k = true := by interval_cases k <;> rfl
  rw [byteOf, BitVec.getElem_setWidth, BitVec.getLsbD_and, hmask, BitVec.getLsbD_ushiftRight,
    BitVec.getElem_extractLsb', Bool.and_true]

theorem finalcount_eq (context : Context) :
    finalcount context = wordBytes context.count1 ++ wordBytes context.count0 := by
  simp only [finalcount, byteOf_eq]
  rfl

theorem digest_eq (state : Chain) : digest state = wordBytes state.s0 ++ wordBytes state.s1 ++
    wordBytes state.s2 ++ wordBytes state.s3 ++ wordBytes state.s4 := by
  simp only [digest, byteOf_eq]
  rfl

theorem Represents.halves (h : Represents context message) :
    (BitVec.ofNat 64 (8 * message.length)).extractLsb' 32 32 = context.count1 ∧
      (BitVec.ofNat 64 (8 * message.length)).extractLsb' 0 32 = context.count0 := by
  have hc := h.count
  have h0 := context.count0.isLt
  have h1 := context.count1.isLt
  constructor <;> apply BitVec.eq_of_toNat_eq <;>
    rw [BitVec.extractLsb'_toNat, BitVec.toNat_ofNat, Nat.shiftRight_eq_div_pow] <;> omega

theorem count_mask (c : Word) : c &&& 504 = 448 ↔ (c >>> 3) &&& 63 = 56 := by
  have hdown : (c &&& 504) >>> 3 = (c >>> 3) &&& 63 := by
    apply BitVec.eq_of_getLsbD_eq
    intro k hk
    interval_cases k <;> simp
  have hup : ((c >>> 3) &&& 63) <<< 3 = c &&& 504 := by
    apply BitVec.eq_of_getLsbD_eq
    intro k hk
    interval_cases k <;> simp
  constructor
  · intro h
    rw [← hdown, h]
    rfl
  · intro h
    rw [← hup, h]
    rfl

theorem Represents.padded_iff (h : Represents context message) :
    context.count0 &&& 504 = 448 ↔ message.length % 64 = 56 := by
  rw [count_mask, ← h.place]
  exact ⟨fun he => congrArg BitVec.toNat he, fun he => BitVec.eq_of_toNat_eq he⟩

theorem Represents.byte (h : Represents context message) (littleEndian : Bool) (b : Byte) :
    ∃ c', SHA1Update littleEndian context [b] 1 = some c' ∧ Represents c' (message ++ [b]) :=
  h.update littleEndian [b] 1 le_rfl (by
    have := Nat.mod_lt message.length (show 0 < 64 by decide)
    rw [show (1 : Word).toNat = 1 from rfl]
    omega)

theorem Represents.padZeros (h : Represents context message) (littleEndian : Bool) {z : ℕ}
    (hz : z = (120 - message.length % 64) % 64) (hfuel : z < fuel) :
    ∃ c', padZeros littleEndian fuel context = some c' ∧
      Represents c' (message ++ List.replicate z 0) := by
  induction fuel generalizing context message z with
  | zero => exact absurd hfuel (Nat.not_lt_zero z)
  | succ fuel ih =>
    have hmod := Nat.mod_lt message.length (show 0 < 64 by decide)
    rw [Sha1Stream.padZeros]
    by_cases hend : message.length % 64 = 56
    · have h0 : z = 0 := by omega
      rw [if_pos (h.padded_iff.mpr hend), h0, List.replicate_zero, List.append_nil]
      exact ⟨context, rfl, h⟩
    · obtain ⟨y, rfl⟩ : ∃ y, z = y + 1 := ⟨z - 1, by omega⟩
      obtain ⟨c₁, hc₁, h₁⟩ := h.byte littleEndian 0
      have hy : y = (120 - (message ++ [0]).length % 64) % 64 := by
        rw [List.length_append, List.length_singleton]
        omega
      obtain ⟨c', hc', h'⟩ := ih h₁ hy (Nat.lt_of_succ_lt_succ hfuel)
      refine ⟨c', ?_, ?_⟩
      · rw [if_neg fun he => hend (h.padded_iff.mp he), hc₁]
        exact hc'
      · rwa [List.replicate_succ, ← List.singleton_append, ← List.append_assoc]

theorem Represents.final (h : Represents context message) (littleEndian : Bool) :
    SHA1Final littleEndian context = some (sha1 message) := by
  have hmod := Nat.mod_lt message.length (show 0 < 64 by decide)
  obtain ⟨c₁, hc₁, h₁⟩ := h.byte littleEndian 0x80
  have hz : (119 - message.length % 64) % 64 = (120 - (message ++ [0x80]).length % 64) % 64 := by
    rw [List.length_append, List.length_singleton]
    omega
  obtain ⟨c₂, hc₂, h₂⟩ := h₁.padZeros littleEndian hz
    (show (119 - message.length % 64) % 64 < 64 from Nat.mod_lt _ (by decide))
  have hlength : (finalcount context).length = 8 := rfl
  obtain ⟨c₃, hc₃, h₃⟩ := h₂.update littleEndian (finalcount context) 8 le_rfl (by
    have := Nat.mod_lt (message ++ [0x80] ++
      List.replicate ((119 - message.length % 64) % 64) 0).length (show 0 < 64 by decide)
    rw [show (8 : Word).toNat = 8 from rfl]
    omega)
  have hpadded : message ++ [0x80] ++ List.replicate ((119 - message.length % 64) % 64) 0 ++
      (finalcount context).take (8 : Word).toNat = padded message := by
    rw [show (8 : Word).toNat = 8 from rfl, List.take_of_length_le hlength.le, finalcount_eq,
      ← h.halves.1, ← h.halves.2, padded]
    simp
  rw [hpadded] at h₃
  simp only [SHA1Final, hc₁, hc₂, hc₃, Option.bind_eq_bind, Option.bind_some]
  rw [digest_eq, h₃.state]
  rfl

/-- However a message is cut into chunks, its digest is that of the standard, on a machine of
either byte order and whatever was in the context; and there is none exactly when a chunk
and what is in the buffer before it come to 2^32 bytes. -/
theorem updates_final (littleEndian : Bool) (context : Context) (chunks : List (List Byte))
    (hd : ∀ d ∈ chunks, d.length < 0x100000000) :
    (Fits 0 chunks → (updates littleEndian (SHA1Init context) chunks).bind
        (SHA1Final littleEndian) = some (sha1 chunks.flatten)) ∧
      (¬ Fits 0 chunks → updates littleEndian (SHA1Init context) chunks = none) := by
  have h := represents_init context
  constructor
  · intro hf
    obtain ⟨c, hc, hr⟩ := h.updates littleEndian hf
    rw [hc, Option.bind_some, hr.final, List.nil_append]
  · exact h.updates_none hd

theorem updates_final_abc :
    (updates false (SHA1Init ⟨⟨1, 2, 3, 4, 5⟩, 6, 7, .replicate 64 8⟩) [[0x61], [0x62, 0x63]]).bind
      (SHA1Final false) = some (sha1 [0x61, 0x62, 0x63]) :=
  (updates_final false _ [[0x61], [0x62, 0x63]] (by decide)).1
    ⟨by decide, by decide, trivial⟩

/-- Byte by byte, and a zero behind the digest. -/
theorem SHA1_eq (littleEndian : Bool) (ctx : Context) (str : List Byte) (len : ℤ)
    (hl : len ≤ str.length) :
    SHA1 littleEndian ctx str len = some (sha1 (str.take len.toNat) ++ [0]) := by
  have hloop : ∀ n ≤ str.length, ∃ c, (List.range n).foldlM
      (fun ctx ii => SHA1Update littleEndian ctx (str.drop ii) 1) (SHA1Init ctx) = some c ∧
      Represents c (str.take n) := by
    intro n hn
    induction n with
    | zero => exact ⟨_, rfl, represents_init ctx⟩
    | succ n ih =>
      obtain ⟨c, hc, hr⟩ := ih (Nat.le_of_succ_le hn)
      have hmod := Nat.mod_lt (str.take n).length (show 0 < 64 by decide)
      obtain ⟨c', hc', hr'⟩ := hr.update littleEndian (str.drop n) 1
        (by rw [List.length_drop, show (1 : Word).toNat = 1 from rfl]; omega)
        (by rw [show (1 : Word).toNat = 1 from rfl]; omega)
      refine ⟨c', ?_, ?_⟩
      · rw [List.range_succ, List.foldlM_append, hc]
        show (SHA1Update littleEndian c (str.drop n) 1).bind _ = _
        rw [hc']
        rfl
      · rwa [← List.take_add] at hr'
  obtain ⟨c, hc, hr⟩ := hloop len.toNat (by omega)
  simp only [SHA1, hc, hr.final, Option.bind_eq_bind, Option.bind_some]
  rfl

def blank : Context := ⟨⟨0, 0, 0, 0, 0⟩, 0, 0, .replicate 64 0⟩

theorem SHA1_eq_abc : SHA1 true blank [0x61, 0x62, 0x63] 3 =
    some (sha1 [0x61, 0x62, 0x63] ++ [0]) := SHA1_eq true blank _ 3 (by decide)

example : SHA1 true blank [0x61, 0x62, 0x63] 3 = some [0xA9, 0x99, 0x3E, 0x36, 0x47, 0x06, 0x81,
    0x6A, 0xBA, 0x3E, 0x25, 0x71, 0x78, 0x50, 0xC2, 0x6C, 0x9C, 0xD0, 0xD8, 0x9D, 0] := by
  decide +kernel

end Bionic.Sha1Stream
