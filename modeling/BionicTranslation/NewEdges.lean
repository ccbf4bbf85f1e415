import BionicTranslation.LinkStack
import BionicTranslation.Constructors
import BionicTranslation.RefLedger

/-!
# Payload edges of the libraries a search brings in

A library gets its payloads while it is on the stack of a search, and until then no
new payload points to it. So the edges out of the new libraries close no cycle,
whatever the edges between the old ones are.
-/

set_option autoImplicit false

namespace Bionic.NewEdges
open Bionic.Slots Bionic.Records Bionic.Linker Bionic.Unload Bionic.LinkFrame Bionic.LinkSteps
open Bionic.CallFrame Bionic.RefLedger Bionic.LinkStack Bionic.Constructors Bionic.DepthFirst

variable {L M : State} {old b c : List So}

theorem payload_eq_some {d : Dyn} {y : So} : payload d = some y ↔ hits y d = true := by
  obtain ⟨tag, v⟩ := d
  cases v with
  | val n => cases tag <;> simp [payload, hits]
  | so x => cases tag <;> simp [payload, hits]

theorem needs_iff {x y : So} : Needs L x y ↔ 0 < (L.info x).payloads y := by
  rw [payloads_eq, List.countP_pos_iff]
  simp only [Needs, DepthFirst.Leads, needed, List.mem_filterMap, payload_eq_some]

theorem needs_entry {x y : So} {i : ℕ} (h : (L.info x).entries[i]? = some ⟨.needed, .so y⟩) :
    Needs L x y :=
  List.mem_filterMap.mpr ⟨_, List.mem_of_getElem? h, rfl⟩

theorem needs_fades {E : So → Prop} (h : FadesBut E L M) {x y : So} (hn : Needs M x y) :
    Needs L x y := by
  rw [needs_iff] at hn ⊢
  exact hn.trans_le ((h.info x).payloads y)

theorem rank_le {r : So → So → Prop} (h : Acyclic r) (x : So) : rank r x ≤ soMax := by
  have hlt := rank_lt_card h x
  rw [Nat.card_eq_fintype_card, card_so] at hlt
  exact Nat.le_of_lt_succ hlt

/-- The payloads of the libraries on the list that are not among the old ones. -/
def NewNeeds (old : List So) (L : State) (x y : So) : Prop := x ∈ L.solist ∧ x ∉ old ∧ Needs L x y

/-- No cycles, and no new payload points to a library on the stack, to one that failed, or
off the list. -/
structure Sprung (old b : List So) (L : State) : Prop where
  acyclic : Acyclic (NewNeeds old L)
  root : ∀ x, x ∈ b ∨ (L.info x).flags.error = true → ∀ y, ¬ NewNeeds old L y x
  listed : ∀ x y, NewNeeds old L x y → y ∈ L.solist

theorem sprung_start (h : ∀ x ∈ L.solist, x ∈ old) : Sprung old b L := by
  have hno : ∀ x y, ¬ NewNeeds old L x y := fun x y hn => hn.2.1 (h x hn.1)
  refine ⟨fun x hx => ?_, fun x _ y => hno y x, fun x y hn => absurd hn (hno x y)⟩
  obtain ⟨y, -, hy⟩ := Relation.TransGen.tail'_iff.mp hx
  exact hno y x hy

theorem Sprung.mono (h : Sprung old b L) (hn : ∀ x y, NewNeeds old M x y → NewNeeds old L x y)
    (hr : ∀ x y, x ∈ c ∨ (M.info x).flags.error = true → NewNeeds old M y x →
      x ∈ b ∨ (L.info x).flags.error = true) (hl : ∀ x ∈ L.solist, x ∈ M.solist) :
    Sprung old c M where
  acyclic := h.acyclic.mono hn
  root x hx y hy := h.root x (hr x y hx hy) y (hn y x hy)
  listed x y hxy := hl y (h.listed x y (hn x y hxy))

theorem Sprung.change {si : So} (h : Sprung old b L) (hb : si ∈ b) (hs : M.solist = L.solist)
    (ho : ∀ x, x ≠ si → M.info x = L.info x)
    (hp : ∀ y, (M.info si).payloads y = (L.info si).payloads y) : Sprung old b M := by
  refine h.mono (fun x y hn => ?_) (fun x y hx _ => ?_) fun x hx => hs ▸ hx
  · obtain ⟨hm, hnew, hn⟩ := hn
    refine ⟨hs ▸ hm, hnew, ?_⟩
    rw [needs_iff] at hn ⊢
    by_cases hxs : x = si
    · rw [hxs] at hn ⊢
      exact hp y ▸ hn
    · exact ho x hxs ▸ hn
  · by_cases hxs : x = si
    · exact Or.inl (hxs ▸ hb)
    · rwa [ho x hxs] at hx

theorem sprung_attempt {w : World} (h : Sprung old b L) (ha : Attempted w L M) :
    Sprung old b M := by
  have hsub : ∀ x y, NewNeeds old M x y → NewNeeds old L x y := by
    rintro x y ⟨hm, hnew, hn⟩
    rw [ha.solist] at hm
    refine ⟨hm, hnew, ?_⟩
    rw [needs_iff] at hn ⊢
    rwa [ha.info x hm] at hn
  refine h.mono hsub (fun x y hx hn => ?_) fun x hx => ha.solist ▸ hx
  rwa [ha.info x (h.listed y x (hsub y x hn))] at hx

theorem sprung_push {w : World} {lib : Name} {i : Slot} (h : Sprung old b L)
    (ha : Appended w L M lib i) : Sprung old (.pool i :: b) M := by
  have hsub : ∀ x y, NewNeeds old M x y → NewNeeds old L x y := by
    rintro x y ⟨hm, hnew, hn⟩
    rw [needs_iff] at hn
    by_cases hx : x = .pool i
    · rw [hx, ha.payloads y] at hn
      cases hn
    · refine ⟨ha.mem_old hm hx, hnew, ?_⟩
      rw [needs_iff]
      exact ha.info x hx ▸ hn
  refine h.mono hsub (fun x y hx hn => ?_) fun x hx => ?_
  · have hxi : x ≠ .pool i := by
      rintro rfl
      exact ha.not_mem (h.listed y _ (hsub y _ hn))
    rw [ha.info x hxi] at hx
    exact hx.imp_left fun hm => (List.mem_cons.mp hm).resolve_left hxi
  · rw [ha.solist]
    exact List.mem_append_left _ hx

theorem attach_flags (L : State) (si : So) (i : ℕ) (lsi x : So) :
    ((attach L si i lsi).info x).flags = (L.info x).flags := by
  obtain ⟨dynamic, refcount, hx⟩ := attach_rest L si i lsi x
  rw [hx]

theorem sprung_attach {si lsi : So} {i v : ℕ} (h : Sprung old (si :: b) L)
    (he : (L.info si).entries[i]? = some ⟨.needed, .val v⟩) (hm : lsi ∈ L.solist)
    (hb : lsi ∉ si :: b) (hc : (L.info lsi).flags.error = false) :
    Sprung old (si :: b) (attach L si i lsi) := by
  have hnew : ∀ {x y}, NewNeeds old (attach L si i lsi) x y →
      NewNeeds old L x y ∨ (x = si ∧ y = lsi) := by
    rintro x y ⟨hx, hnew, hn⟩
    rw [needs_iff, attach_payloads he] at hn
    by_cases hxy : x = si ∧ y = lsi
    · exact Or.inr hxy
    · rw [if_neg hxy] at hn
      exact Or.inl ⟨hx, hnew, needs_iff.mpr hn⟩
  have hroot : ∀ x, x ∈ si :: b ∨ ((attach L si i lsi).info x).flags.error = true →
      ∀ y, ¬ NewNeeds old (attach L si i lsi) y x := by
    intro x hx y hn
    rw [attach_flags] at hx
    rcases hnew hn with hn | ⟨-, rfl⟩
    · exact h.root x hx y hn
    · rcases hx with hx | hx
      · exact hb hx
      · exact Bool.false_ne_true (hc.symm.trans hx)
  refine ⟨h.acyclic.source (fun x y hx hn => ?_) (hroot si (Or.inl List.mem_cons_self)), hroot,
    fun x y hn => ?_⟩
  · exact (hnew hn).resolve_right fun hxy => hx hxy.1
  · rcases hnew hn with hn | ⟨-, rfl⟩
    · exact h.listed x y hn
    · exact hm

theorem StackStep.sprung {w : World} {p q : State × List So} (h : Sprung old p.2 p.1)
    {old' : List So} (hs : StackStep w old' p q) : Sprung old q.2 q.1 := by
  cases hs with
  | attempt ha => exact sprung_attempt h (loadLibrary_none ha)
  | push _ ha => exact sprung_push h (loadLibrary_some ha)
  | extract hf hx =>
    refine h.change List.mem_cons_self rfl (fun x hx => set_other _ _ hx) fun y => ?_
    rw [set_same]
    exact (extract_same hx).payloads y
  | need hf he hm ht hb hclean => exact sprung_attach h he hm hb hclean
  | finish hf hd hr =>
    rename_i L b si
    obtain ⟨ts, flags, l_addr, l_name, hown, -⟩ := finishLink_own w L si
    refine h.change List.mem_cons_self (solist_congr (by rw [finishLink_pool]))
      (fun x hx => finishLink_other w L hx) fun y => ?_
    rw [hown]
    rfl
  | fail hf =>
    refine h.change List.mem_cons_self rfl (fun x hx => markError_other _ hx) fun y => ?_
    rw [markError, modify_same]
    rfl
  | keep hclean =>
    exact h.mono (fun _ _ => id) (fun x y hx _ => hx.imp_left (List.mem_cons_of_mem _))
      fun x hx => hx
  | drop hm hn hb he =>
    exact h.mono (fun _ _ => id) (fun x y hx _ => hx.imp_left (List.mem_cons_of_mem _))
      fun x hx => hx

theorem StackRun.sprung {w : World} {old' : List So} {p q : State × List So}
    (h : Sprung old p.2 p.1) (hs : StackRun w old' p q) : Sprung old q.2 q.1 := by
  induction hs with
  | refl => exact h
  | tail _ hs ih => exact StackStep.sprung ih hs

end Bionic.NewEdges
