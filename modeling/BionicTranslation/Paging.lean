import Mathlib

/-!
# Page rounding and interval packing

Addresses are natural numbers, pages have 4096 bytes. Besides the roundings
this file bounds the total length of disjoint intervals that lie in a common
region. It names nothing of the linker.
-/

set_option autoImplicit false

namespace Bionic.Paging

def pageDown (a : ℕ) : ℕ := a / 4096 * 4096

def pageUp (a : ℕ) : ℕ := pageDown (a + 4095)

def Aligned (a : ℕ) : Prop := a % 4096 = 0

instance (a : ℕ) : Decidable (Aligned a) := inferInstanceAs (Decidable (_ = _))

theorem pageDown_le (a : ℕ) : pageDown a ≤ a := by
  unfold pageDown; omega

theorem pageDown_gap (a : ℕ) : a < pageDown a + 4096 := by
  unfold pageDown; omega

theorem pageDown_add_offset (a : ℕ) : pageDown a + a % 4096 = a := by
  unfold pageDown; omega

theorem pageDown_aligned (a : ℕ) : Aligned (pageDown a) := by
  unfold Aligned pageDown; omega

theorem pageDown_of_aligned {a : ℕ} (h : Aligned a) : pageDown a = a := by
  unfold Aligned at h; unfold pageDown; omega

theorem aligned_add {a b : ℕ} (ha : Aligned a) (hb : Aligned b) : Aligned (a + b) := by
  unfold Aligned at *; omega

theorem le_pageUp (a : ℕ) : a ≤ pageUp a := by
  unfold pageUp pageDown; omega

theorem pageUp_gap (a : ℕ) : pageUp a < a + 4096 := by
  unfold pageUp pageDown; omega

theorem le_pageDown_iff {a b : ℕ} (ha : Aligned a) : a ≤ pageDown b ↔ a ≤ b := by
  unfold Aligned at ha; unfold pageDown; omega

theorem pageUp_le_iff {a b : ℕ} (hb : Aligned b) : pageUp a ≤ b ↔ a ≤ b := by
  unfold Aligned at hb; unfold pageUp pageDown; omega

theorem pageDown_add {a b : ℕ} (ha : Aligned a) : pageDown (a + b) = a + pageDown b := by
  unfold Aligned at ha; unfold pageDown; omega

theorem pageUp_add {a b : ℕ} (ha : Aligned a) : pageUp (a + b) = a + pageUp b := by
  unfold pageUp
  rw [Nat.add_assoc, pageDown_add ha]

theorem pageDown_mono {a b : ℕ} (h : a ≤ b) : pageDown a ≤ pageDown b := by
  unfold pageDown; omega

def Apart (p q : ℕ × ℕ) : Prop := p.2 ≤ q.1 ∨ q.2 ≤ p.1

theorem apart_disjoint {p q : ℕ × ℕ} (h : Apart p q) :
    Disjoint (Finset.Ico p.1 p.2) (Finset.Ico q.1 q.2) := by
  rw [Finset.disjoint_left]
  intro a ha hb
  rw [Finset.mem_Ico] at ha hb
  rcases h with h | h <;> omega

theorem card_cover (l : List (ℕ × ℕ)) (hp : l.Pairwise Apart) :
    ∃ s : Finset ℕ, s.card = (l.map fun p => p.2 - p.1).sum ∧
      ∀ a, a ∈ s ↔ ∃ p ∈ l, p.1 ≤ a ∧ a < p.2 := by
  induction l with
  | nil => exact ⟨∅, by simp⟩
  | cons p l ih =>
    obtain ⟨hpl, hl⟩ := List.pairwise_cons.mp hp
    obtain ⟨s, hs, hm⟩ := ih hl
    refine ⟨Finset.Ico p.1 p.2 ∪ s, ?_, ?_⟩
    · rw [Finset.card_union_of_disjoint, Nat.card_Ico, hs]
      · simp
      · rw [Finset.disjoint_left]
        intro a ha has
        obtain ⟨q, hq, hqa⟩ := (hm a).mp has
        exact Finset.disjoint_left.mp (apart_disjoint (hpl q hq)) ha (Finset.mem_Ico.mpr hqa)
    · intro a
      simp [hm]

/-- Disjoint intervals inside `[0, size)` have total length at most `size`. -/
theorem packing (l : List (ℕ × ℕ)) (size : ℕ) (hp : l.Pairwise Apart)
    (hs : ∀ p ∈ l, p.2 ≤ size) : (l.map fun p => p.2 - p.1).sum ≤ size := by
  obtain ⟨s, hc, hm⟩ := card_cover l hp
  rw [← hc, ← Finset.card_range size]
  apply Finset.card_le_card
  intro a ha
  obtain ⟨p, hpl, -, ha⟩ := (hm a).mp ha
  exact Finset.mem_range.mpr (lt_of_lt_of_le ha (hs p hpl))

end Bionic.Paging
