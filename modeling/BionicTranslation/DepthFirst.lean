import Mathlib

/-!
# Depth-first traversal with marks

A traversal marks a node when it enters it, before it visits the children, and
leaves it after them. `Visits` describes it without fuel. Each node that was not
marked before is entered and left once, and in a graph without cycles it is left
after everything it leads to. New edges out of a node that no edge leads to close no
cycle, and in a finite graph without cycles a recursion along the edges ends. Nothing
here names the linker.
-/

set_option autoImplicit false

namespace Bionic.DepthFirst
open Relation

variable {ν : Type*}

inductive Mark (ν : Type*)
  | enter (v : ν)
  | leave (v : ν)
  deriving DecidableEq

def Mark.node : Mark ν → ν
  | .enter v => v
  | .leave v => v

/-- With the nodes `m` marked, visiting a list of nodes one after the other makes the
marks `es` and ends with the nodes `m'` marked. -/
inductive Visits (children : ν → List ν) : Set ν → List ν → List (Mark ν) → Set ν → Prop
  | nil (m : Set ν) : Visits children m [] [] m
  | skip {m m' : Set ν} {v : ν} {vs : List ν} {es : List (Mark ν)} (hv : v ∈ m)
      (hs : Visits children m vs es m') : Visits children m (v :: vs) es m'
  | enter {m m' m'' : Set ν} {v : ν} {vs : List ν} {es fs : List (Mark ν)} (hv : v ∉ m)
      (hc : Visits children (insert v m) (children v) es m') (hs : Visits children m' vs fs m'') :
      Visits children m (v :: vs) (.enter v :: es ++ .leave v :: fs) m''

variable {children : ν → List ν} {m m' m'' : Set ν} {vs ws : List ν} {es fs : List (Mark ν)}
  {x y v : ν}

theorem Visits.append (h : Visits children m vs es m') (k : Visits children m' ws fs m'') :
    Visits children m (vs ++ ws) (es ++ fs) m'' := by
  induction h with
  | nil => exact k
  | skip hv _ ih => exact .skip hv (ih k)
  | enter hv hc _ _ ih =>
    simpa only [List.append_assoc, List.cons_append] using Visits.enter hv hc (ih k)

theorem Visits.mono (h : Visits children m vs es m') : m ⊆ m' := by
  induction h with
  | nil => exact subset_rfl
  | skip _ _ ih => exact ih
  | enter _ _ _ ihc ihs => exact (Set.subset_insert _ _).trans (ihc.trans ihs)

theorem Visits.marked (h : Visits children m vs es m') : ∀ v ∈ vs, v ∈ m' := by
  induction h with
  | nil => simp
  | skip hv hs ih =>
    intro u hu
    rcases List.mem_cons.mp hu with rfl | hu
    · exact hs.mono hv
    · exact ih u hu
  | enter hv hc hs _ ih =>
    intro u hu
    rcases List.mem_cons.mp hu with rfl | hu
    · exact hs.mono (hc.mono (Set.mem_insert _ _))
    · exact ih u hu

def Leads (children : ν → List ν) (x y : ν) : Prop := y ∈ children x

theorem Visits.reachable (h : Visits children m vs es m') (hx : x ∈ m') (hn : x ∉ m) :
    ∃ v ∈ vs, ReflTransGen (Leads children) v x := by
  induction h with
  | nil => exact absurd hx hn
  | skip _ _ ih =>
    obtain ⟨v, hv, hr⟩ := ih hx hn
    exact ⟨v, List.mem_cons_of_mem _ hv, hr⟩
  | @enter m m' m'' v vs es fs hv hc hs ihc ihs =>
    by_cases hm : x ∈ m'
    · refine ⟨v, List.mem_cons_self, ?_⟩
      by_cases hxv : x = v
      · exact hxv ▸ .refl
      · obtain ⟨u, hu, hr⟩ := ihc hm fun hi => hi.elim hxv hn
        exact .head hu hr
    · obtain ⟨u, hu, hr⟩ := ihs hx hm
      exact ⟨u, List.mem_cons_of_mem _ hu, hr⟩

theorem Visits.children_marked (h : Visits children m vs es m') (hx : x ∈ m') (hn : x ∉ m)
    (hy : Leads children x y) : y ∈ m' := by
  induction h with
  | nil => exact absurd hx hn
  | skip _ _ ih => exact ih hx hn
  | @enter m m' m'' v vs es fs hv hc hs ihc ihs =>
    by_cases hm : x ∈ m'
    · by_cases hxv : x = v
      · subst hxv
        exact hs.mono (hc.marked y hy)
      · exact hs.mono (ihc hm fun hi => hi.elim hxv hn)
    · exact ihs hx hm

theorem Visits.mem_iff (h : Visits children m vs es m')
    (hclosed : ∀ x ∈ m, ∀ y, Leads children x y → y ∈ m) :
    x ∈ m' ↔ x ∈ m ∨ ∃ v ∈ vs, ReflTransGen (Leads children) v x := by
  constructor
  · intro hx
    by_cases hn : x ∈ m
    · exact .inl hn
    · exact .inr (h.reachable hx hn)
  · rintro (hx | ⟨v, hv, hr⟩)
    · exact h.mono hx
    · induction hr with
      | refl => exact h.marked v hv
      | @tail y z _ hyz ih =>
        by_cases hn : y ∈ m
        · exact h.mono (hclosed y hn z hyz)
        · exact h.children_marked ih hn hyz

theorem Visits.filter_node [DecidableEq ν] (h : Visits children m vs es m') (x : ν) :
    (x ∈ m' ∧ x ∉ m → es.filter (fun e => e.node = x) = [.enter x, .leave x]) ∧
      (¬ (x ∈ m' ∧ x ∉ m) → es.filter (fun e => e.node = x) = []) := by
  induction h with
  | nil m => exact ⟨fun h => absurd h.1 h.2, fun _ => rfl⟩
  | skip _ _ ih => exact ih
  | @enter m m' m'' v vs es fs hv hc hs ihc ihs =>
    have hcons : ∀ (e : Mark ν) (gs : List (Mark ν)), (e :: gs).filter (fun e => e.node = x) =
        if e.node = x then e :: gs.filter (fun e => e.node = x)
        else gs.filter (fun e => e.node = x) := fun e gs => by simp [List.filter_cons]
    rw [List.filter_append, hcons, hcons]
    by_cases hxv : v = x
    · subst hxv
      have hin : v ∈ m' := hc.mono (Set.mem_insert _ _)
      rw [ihc.2 fun h => h.2 (Set.mem_insert _ _), ihs.2 fun h => h.2 hin]
      exact ⟨fun _ => by simp [Mark.node], fun h => absurd ⟨hs.mono hin, hv⟩ h⟩
    · rw [if_neg (show (Mark.enter v).node ≠ x from hxv),
        if_neg (show (Mark.leave v).node ≠ x from hxv)]
      have hins : x ∈ insert v m ↔ x ∈ m :=
        ⟨fun h => h.elim (fun h => absurd h.symm hxv) id, Set.mem_insert_of_mem _⟩
      rw [hins] at ihc
      by_cases hm : x ∈ m'
      · rw [ihs.2 fun h => h.2 hm, List.append_nil]
        have hm' : x ∈ m'' := hs.mono hm
        exact ⟨fun h => ihc.1 ⟨hm, h.2⟩, fun h => ihc.2 fun h' => h ⟨hm', h'.2⟩⟩
      · rw [ihc.2 fun h => hm h.1, List.nil_append]
        have hn : x ∉ m := fun h => hm (hc.mono (Set.mem_insert_of_mem _ h))
        exact ⟨fun h => ihs.1 ⟨h.1, hm⟩, fun h => ihs.2 fun h' => h ⟨h'.1, hn⟩⟩

theorem Visits.mem_entries (h : Visits children m vs es m') {e : Mark ν} (he : e ∈ es) :
    e.node ∈ m' ∧ e.node ∉ m := by
  classical
  by_contra hno
  have hnil := (h.filter_node e.node).2 hno
  have hmem : e ∈ es.filter (fun f => f.node = e.node) := List.mem_filter.mpr ⟨he, by simp⟩
  rw [hnil] at hmem
  cases hmem

/-- Nodes in progress, which lead to the nodes to be visited; all other marked nodes have
marked children. -/
structure InProgress (children : ν → List ν) (m g : Set ν) (vs : List ν) : Prop where
  closed : ∀ x ∈ m, x ∉ g → ∀ y, Leads children x y → y ∈ m
  above : ∀ z ∈ g, ∀ v ∈ vs, TransGen (Leads children) z v

variable {g : Set ν}

theorem InProgress.enter (h : InProgress children m g (v :: vs)) :
    InProgress children (insert v m) (insert v g) (children v) where
  closed x hx hn y hy := by
    rw [Set.mem_insert_iff, not_or] at hn
    exact Set.mem_insert_of_mem _ (h.closed x (hx.resolve_left hn.1) hn.2 y hy)
  above z hz u hu := by
    rcases hz with rfl | hz
    · exact .single hu
    · exact (h.above z hz v List.mem_cons_self).tail hu

theorem InProgress.tail (h : InProgress children m g (v :: vs)) : InProgress children m g vs :=
  ⟨h.closed, fun z hz u hu => h.above z hz u (List.mem_cons_of_mem _ hu)⟩

theorem InProgress.left (h : InProgress children m g (v :: vs))
    (hc : Visits children (insert v m) (children v) es m') : InProgress children m' g vs where
  closed x hx hn y hy := by
    by_cases hm : x ∈ insert v m
    · by_cases hxv : x = v
      · subst hxv
        exact hc.marked y hy
      · exact hc.mono (Set.mem_insert_of_mem _ (h.closed x (hm.resolve_left hxv) hn y hy))
    · exact hc.children_marked hx hm hy
  above := h.tail.above

/-- What a node leads to is marked, unless there is a cycle through a node in progress. -/
theorem InProgress.reaches (h : InProgress children m g vs)
    (hac : ∀ x, ¬ TransGen (Leads children) x x) (hx : x ∈ m)
    (hg : ∀ z ∈ g, TransGen (Leads children) z x) (hy : ReflTransGen (Leads children) x y) :
    y ∈ m := by
  induction hy with
  | refl => exact hx
  | @tail y z hxy hyz ih => exact h.closed y ih (fun hy => hac y ((hg y hy).trans_left hxy)) z hyz

def Settled (children : ν → List ν) (e f : Mark ν) : Prop :=
  ∀ x, e = .leave x → ¬ TransGen (Leads children) x f.node

theorem Visits.settled (h : Visits children m vs es m')
    (hac : ∀ x, ¬ TransGen (Leads children) x x) :
    ∀ g, InProgress children m g vs → es.Pairwise (Settled children) := by
  induction h with
  | nil => exact fun _ _ => .nil
  | skip _ _ ih => exact fun g hg => ih g hg.tail
  | @enter m m' m'' v vs es fs hv hc hs ihc ihs =>
    intro g hg
    have hdone := hg.left hc
    -- whatever is entered from `v` on leads only to marked nodes
    have hmarked : ∀ x ∈ m', ReflTransGen (Leads children) v x → ∀ f ∈ fs,
        ¬ TransGen (Leads children) x f.node := by
      intro x hx hvx f hf hxf
      refine (hs.mem_entries hf).2 (hdone.reaches hac hx (fun z hz => ?_) hxf.to_reflTransGen)
      exact (hg.above z hz v List.mem_cons_self).trans_left hvx
    have hinner : ∀ x, Mark.leave x ∈ es → x ∈ m' ∧ TransGen (Leads children) v x := by
      intro x hx
      obtain ⟨hm, hn⟩ := hc.mem_entries hx
      obtain ⟨u, hu, hr⟩ := hc.reachable hm hn
      exact ⟨hm, .head' hu hr⟩
    have hlast : (Mark.leave v :: fs).Pairwise (Settled children) := by
      refine List.pairwise_cons.mpr ⟨fun f hf x hx => ?_, ihs g hdone⟩
      cases hx
      exact hmarked v (hc.mono (Set.mem_insert _ _)) .refl f hf
    refine List.pairwise_append.mpr ⟨?_, hlast, ?_⟩
    · refine List.pairwise_cons.mpr ⟨fun f _ x hx => ?_, ihc _ hg.enter⟩
      cases hx
    · rintro e he f hf x rfl
      have he : Mark.leave x ∈ es := (List.mem_cons.mp he).resolve_left (by simp)
      obtain ⟨hm, hvx⟩ := hinner x he
      rcases List.mem_cons.mp hf with rfl | hf
      · exact fun hxv => hac v (hvx.trans hxv)
      · exact hmarked x hm hvx.to_reflTransGen f hf

/-- In a graph without cycles, with the marks closed, everything a node leads to was left
before it. -/
theorem Visits.left_after (h : Visits children m vs es m')
    (hac : ∀ x, ¬ TransGen (Leads children) x x)
    (hclosed : ∀ x ∈ m, ∀ y, Leads children x y → y ∈ m) (hx : Mark.leave x ∈ es) :
    ∃ before after, es = before ++ .leave x :: after ∧
      ∀ e ∈ after, e.node ≠ x ∧ ¬ TransGen (Leads children) x e.node := by
  classical
  obtain ⟨before, after, hes⟩ := List.append_of_mem hx
  have hpair := h.settled hac ∅ ⟨fun y hy _ z hz => hclosed y hy z hz, fun z hz => hz.elim⟩
  have hfilter := (h.filter_node x).1 (h.mem_entries hx)
  rw [hes] at hpair hfilter
  refine ⟨before, after, hes, fun e he => ⟨fun hex => ?_, ?_⟩⟩
  · -- a second mark of `x` after the first one
    have hpos : 0 < (after.filter fun e => e.node = x).length :=
      List.length_pos_of_mem (List.mem_filter.mpr ⟨he, by simpa using hex⟩)
    have hlen := congrArg List.length hfilter
    have hsplit : (before ++ Mark.leave x :: after).filter (fun e => e.node = x) =
        before.filter (fun e => e.node = x) ++
          Mark.leave x :: after.filter fun e => e.node = x := by
      simp [List.filter_append, Mark.node]
    rw [hsplit] at hfilter
    cases hb : before.filter (fun e => e.node = x) with
    | nil =>
      rw [hb] at hfilter
      cases hfilter
    | cons f gs =>
      rw [hsplit, hb] at hlen
      simp only [List.length_append, List.length_cons, List.length_nil] at hlen
      omega
  · exact (List.pairwise_cons.mp (List.pairwise_append.mp hpair).2.1).1 e he x rfl

section acyclic
variable {ν : Type*} {r s : ν → ν → Prop} {a x y : ν}

def Acyclic (r : ν → ν → Prop) : Prop := ∀ x, ¬ TransGen r x x

theorem Acyclic.mono (h : Acyclic r) (hs : ∀ x y, s x y → r x y) : Acyclic s :=
  fun x hx => h x (TransGen.mono hs x x hx)

theorem path_avoids (hs : ∀ x y, x ≠ a → s x y → r x y) (ha : ∀ x, ¬ s x a) (hx : x ≠ a)
    (h : TransGen s x y) : TransGen r x y := by
  induction h with
  | single hxy => exact .single (hs _ _ hx hxy)
  | @tail y z hxy hyz ih =>
    have hy : y ≠ a := by
      rintro rfl
      obtain ⟨u, -, hu⟩ := TransGen.tail'_iff.mp hxy
      exact ha u hu
    exact ih.tail (hs y z hy hyz)

theorem Acyclic.source (h : Acyclic r) (hs : ∀ x y, x ≠ a → s x y → r x y)
    (ha : ∀ x, ¬ s x a) : Acyclic s := by
  intro x hx
  have hxa : x ≠ a := by
    rintro rfl
    obtain ⟨u, -, hu⟩ := TransGen.tail'_iff.mp hx
    exact ha u hu
  exact h x (path_avoids hs ha hxa hx)

noncomputable def rank (r : ν → ν → Prop) (x : ν) : ℕ := {y | TransGen r x y}.ncard

variable [Finite ν]

theorem rank_lt (h : Acyclic r) (hxy : r x y) : rank r y < rank r x := by
  refine Set.ncard_lt_ncard ⟨fun z hz => TransGen.head hxy hz, fun hsub => ?_⟩
  exact h y (hsub (TransGen.single hxy))

theorem rank_lt_card (h : Acyclic r) (x : ν) : rank r x < Nat.card ν := by
  rw [← Set.ncard_univ]
  exact Set.ncard_lt_ncard ⟨fun _ _ => trivial, fun hsub => h x (hsub (Set.mem_univ x))⟩

/-- When every node of a set is a root or has a predecessor in the set, every node of it is
reached from a root in it. -/
theorem Acyclic.from_root {P root : ν → Prop} (h : Acyclic r)
    (hpred : ∀ x, P x → root x ∨ ∃ y, P y ∧ r y x) (hx : P x) :
    ∃ y, P y ∧ root y ∧ ReflTransGen r y x := by
  have hflip : Acyclic (Function.swap r) := fun x hc => h x (transGen_swap.mp hc)
  induction hn : rank (Function.swap r) x using Nat.strong_induction_on generalizing x with
  | _ n ih =>
    rcases hpred x hx with hroot | ⟨y, hy, hyx⟩
    · exact ⟨x, hx, hroot, .refl⟩
    · have hlt : rank (Function.swap r) y < n := hn ▸ rank_lt hflip hyx
      obtain ⟨z, hz, hroot, hzy⟩ := ih _ hlt hy rfl
      exact ⟨z, hz, hroot, hzy.tail hyx⟩

end acyclic

end Bionic.DepthFirst
