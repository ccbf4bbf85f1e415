import BionicTranslation.Ranges
import BionicTranslation.LinkStack

/-!
# Ranges of the libraries that have not failed

A library that fails to link stays on the list without its range. The ranges of
the others, and of those that are being linked, are mapped and pairwise disjoint
in every run with a kernel that gives free regions only, so no failure and no
unloading takes the range of another library.
-/

set_option autoImplicit false

namespace Bionic.LiveRanges
open Bionic.Slots Bionic.Records Bionic.Linker Bionic.Unload Bionic.LinkFrame Bionic.LinkSteps
open Bionic.CallFrame Bionic.Regions Bionic.Ranges Bionic.LinkStack

/-- The slots whose range is in use, with the libraries `b` being linked. -/
def Holds (b : List So) (L : State) (i : Slot) : Prop :=
  i ∈ L.pool.loaded ∧ (.pool i ∈ b ∨ (L.info (.pool i)).flags.error = false)

structure Standing (b : List So) (L : State) : Prop where
  mapped : ∀ i, Holds b L i → ∀ a, Inside (L.info (.pool i)) a → L.mapped a = true
  disjoint : ∀ i j, Holds b L i → Holds b L j → i ≠ j → ∀ a,
    Inside (L.info (.pool i)) a → ¬ Inside (L.info (.pool j)) a

variable {w : World} {L M : State} {b c : List So}

theorem Standing.keep (h : Standing b L)
    (hl : ∀ i, Holds c M i → Holds b L i ∧
      ∀ a, Inside (M.info (.pool i)) a ↔ Inside (L.info (.pool i)) a)
    (hm : ∀ i, Holds c M i → ∀ a, Inside (L.info (.pool i)) a → L.mapped a = true →
      M.mapped a = true) : Standing c M where
  mapped i hi a ha := by
    obtain ⟨hold, hin⟩ := hl i hi
    rw [hin] at ha
    exact hm i hi a ha (h.mapped i hold a ha)
  disjoint i j hi hj hij a ha := by
    rw [(hl i hi).2] at ha
    rw [(hl j hj).2]
    exact h.disjoint i j (hl i hi).1 (hl j hj).1 hij a ha

theorem Standing.change {si : So} (h : Standing b L) (hb : si ∈ b) (hp : M.pool = L.pool)
    (hm : M.mapped = L.mapped) (ho : ∀ x, x ≠ si → M.info x = L.info x)
    (hs : Placed (L.info si) (M.info si)) : Standing b M := by
  refine h.keep (fun i hi => ?_) fun i _ a _ ha => hm ▸ ha
  obtain ⟨hload, hi⟩ := hi
  rw [hp] at hload
  by_cases hsi : .pool i = si
  · exact ⟨⟨hload, Or.inl (hsi ▸ hb)⟩, hsi ▸ inside_congr hs.base hs.size⟩
  · rw [ho _ hsi] at hi ⊢
    exact ⟨⟨hload, hi⟩, fun _ => Iff.rfl⟩

theorem standing_same (h : Standing b L) (hp : M.pool = L.pool) (hm : M.mapped = L.mapped)
    (hi : ∀ x, (M.info x).base = (L.info x).base ∧ (M.info x).size = (L.info x).size ∧
      (M.info x).flags = (L.info x).flags) : Standing b M := by
  refine h.keep (fun i hh => ?_) fun _ _ a _ hma => hm ▸ hma
  obtain ⟨hb, hs, hf⟩ := hi (.pool i)
  rw [Holds, hp, hf] at hh
  exact ⟨hh, inside_congr hb hs⟩

theorem standing_attempt (hk : Strict w) (h : Standing b L) (ha : Attempted w L M) :
    Standing b M := by
  refine h.keep (fun i hi => ?_) fun i _ a _ hma => returned_keeps hk ha.mapped hma
  obtain ⟨hload, hi⟩ := hi
  rw [ha.loaded] at hload
  rw [ha.info _ (pool_mem_solist.mpr hload)] at hi ⊢
  exact ⟨⟨hload, hi⟩, fun _ => Iff.rfl⟩

theorem standing_push {lib : Name} {i : Slot} (hk : Strict w) (h : Standing b L)
    (ha : Appended w L M lib i) : Standing (.pool i :: b) M := by
  obtain ⟨K, hint, hK, hreg⟩ := ha.region
  have hfree := (hk K hint _ _ hreg).2.2
  rw [Unmapped, hK] at hfree
  -- a slot other than the new one has been in use before
  have hold : ∀ j, j ≠ i → Holds (.pool i :: b) M j →
      Holds b L j ∧ M.info (.pool j) = L.info (.pool j) := by
    rintro j hj ⟨hload, hin⟩
    have hne : So.pool j ≠ .pool i := fun e => hj (So.pool.inj e)
    rw [ha.loaded, List.mem_append, List.mem_singleton] at hload
    rw [List.mem_cons, or_iff_right hne, ha.info _ hne] at hin
    exact ⟨⟨hload.resolve_right hj, hin⟩, ha.info _ hne⟩
  have hsep : ∀ j, j ≠ i → Holds (.pool i :: b) M j → ∀ a, Inside (M.info (.pool j)) a →
      ¬ Inside (M.info (.pool i)) a := by
    intro j hj hh a hja hia
    obtain ⟨hh, he⟩ := hold j hj hh
    have hno := hfree a hia.1 hia.2
    rw [h.mapped j hh a (he ▸ hja)] at hno
    cases hno
  refine ⟨fun j hj a hin => ?_, fun j k hj hk' hjk a hin => ?_⟩
  · rw [ha.mapped]
    by_cases hji : j = i
    · exact Or.inl (hji ▸ hin)
    · obtain ⟨hh, he⟩ := hold j hji hj
      exact Or.inr (h.mapped j hh a (he ▸ hin))
  · by_cases hji : j = i
    · subst hji
      exact fun hka => hsep k hjk.symm hk' a hka hin
    · by_cases hki : k = i
      · subst hki
        exact hsep j hji hj a hin
      · obtain ⟨hhj, hej⟩ := hold j hji hj
        obtain ⟨hhk, hek⟩ := hold k hki hk'
        rw [hej] at hin
        rw [hek]
        exact h.disjoint j k hhj hhk hjk a hin

theorem StackStep.standing {old : List So} {p q : State × List So} (hk : Strict w)
    (h : Standing p.2 p.1) (hs : StackStep w old p q) : Standing q.2 q.1 := by
  cases hs with
  | attempt ha => exact standing_attempt hk h (loadLibrary_none ha)
  | push _ ha => exact standing_push hk h (loadLibrary_some ha)
  | extract hf hx =>
    have hstep := LinkStep.extract (w := w) hf hx
    exact h.change List.mem_cons_self rfl rfl (fun x hx => set_other _ _ hx)
      (hstep.placed hf.mem)
  | need hf he hm ht hb hc =>
    rename_i L b si lsi i v
    refine standing_same h rfl rfl fun x => ?_
    obtain ⟨dynamic, refcount, hx⟩ := attach_rest L si i lsi x
    rw [hx]
    exact ⟨rfl, rfl, rfl⟩
  | finish hf hd hr =>
    have hstep := LinkStep.finish (w := w) hf hd hr
    exact h.change List.mem_cons_self (finishLink_pool w _ _) (finishLink_mapped w _ _)
      (fun x hx => finishLink_other w _ hx) (hstep.placed hf.mem)
  | fail hf =>
    have hstep := LinkStep.fail (w := w) hf
    exact h.change List.mem_cons_self rfl rfl (fun x hx => markError_other _ hx)
      (hstep.placed hf.mem)
  | keep hc =>
    refine h.keep (fun i hi => ⟨⟨hi.1, ?_⟩, fun _ => Iff.rfl⟩) fun _ _ _ _ hma => hma
    exact hi.2.imp_left (List.mem_cons_of_mem _)
  | drop hm hn hb he =>
    rename_i L b i
    have hi : Holds (.pool i :: b) L i := ⟨pool_mem_solist.mp hm, Or.inl List.mem_cons_self⟩
    have hup : ∀ j, Holds b L j → Holds (.pool i :: b) L j ∧ j ≠ i := by
      rintro j ⟨hload, hj⟩
      refine ⟨⟨hload, hj.imp_left (List.mem_cons_of_mem _)⟩, ?_⟩
      rintro rfl
      rcases hj with hj | hj
      · exact hb hj
      · exact Bool.false_ne_true (hj.symm.trans he)
    refine h.keep (fun j hj => ⟨(hup j hj).1, fun _ => Iff.rfl⟩) fun j hj a hin hma => ?_
    refine (munmap_mapped L _ _ a).mpr ⟨fun hia => ?_, hma⟩
    exact h.disjoint j i (hup j hj).1 hi (hup j hj).2 a hin hia

theorem StackRun.standing {old : List So} {p q : State × List So} (hk : Strict w)
    (h : Standing p.2 p.1) (hs : StackRun w old p q) : Standing q.2 q.1 := by
  induction hs with
  | refl => exact h
  | tail _ hs ih => exact StackStep.standing hk ih hs

theorem standing_fades {E : So → Prop} (h : Standing b L) (hf : FadesBut E L M)
    (hm : M.mapped = L.mapped) : Standing b M := by
  refine h.keep (fun i hh => ?_) fun _ _ a _ hma => hm ▸ hma
  rw [Holds, (hf.info _).flags] at hh
  exact ⟨⟨hf.loaded.subset hh.1, hh.2⟩, fun a => (faded_inside (hf.info _) a).1⟩

theorem standing_release {j : Slot} (h : Standing b L) (hj : Holds b L j) :
    Standing b (release L (.pool j)) := by
  have hf : FadesBut (fun _ => True) L (release L (.pool j)) := fades_release L (.pool j)
  have hold : ∀ i, Holds b (release L (.pool j)) i → Holds b L i ∧ i ≠ j := by
    rintro i ⟨hload, hi⟩
    rw [(hf.info _).flags] at hi
    rw [release_loaded, mem_free_loaded] at hload
    exact ⟨⟨hload.2, hi⟩, hload.1⟩
  refine h.keep (fun i hi => ⟨(hold i hi).1, fun a => (faded_inside (hf.info _) a).1⟩)
    fun i hi a hin hma => (munmap_mapped L _ _ a).mpr ⟨fun hjn => ?_, hma⟩
  exact h.disjoint i j (hold i hi).1 hj (hold i hi).2 a hin hjn

end Bionic.LiveRanges
