import BionicTranslation.HeapList
import BionicTranslation.LinkFrame

/-!
# The two lists of soinfos

`apkenv_solist` and `apkenv_freelist` are threaded through one `next` field. Here they
are followed pointer by pointer. The list operations of the linker's state are what
these writes amount to, after any sequence of them.
-/

set_option autoImplicit false

namespace Bionic.SoinfoLists
open Bionic.HeapList Bionic.Slots Bionic.Records Bionic.Linker Bionic.LinkFrame

/-- The static variables and the records, with their `next` fields kept apart. -/
structure Heap where
  next : So → Option So
  info : So → Soinfo
  freelist : Option So
  sonext : So
  socount : ℕ

/-- `apkenv_solist`, which is never assigned. -/
def solist : Option So := some .libdl

def initialHeap : Heap where
  next := fun _ => none
  info := initial.info
  freelist := none
  sonext := .libdl
  socount := 0

namespace Heap

def setNext (h : Heap) (si : So) (v : Option So) : Heap :=
  { h with next := Function.update h.next si v }

def clear (h : Heap) (si : So) (name : Name) : Heap :=
  { h.setNext si none with info := fun x => if x = si then { name } else h.info x }

def refill (h : Heap) : Option Heap :=
  match h.freelist with
  | some _ => some h
  | none =>
    if hs : h.socount < soMax then
      let si := So.pool ⟨h.socount, hs⟩
      some ({ h with freelist := some si, socount := h.socount + 1 }.setNext si none)
    else none

def allocInfo (h : Heap) (name : Name) : Option (Heap × So) :=
  if name.length ≥ 128 then none else do
    let h ← h.refill
    let si ← h.freelist
    let h := { h with freelist := h.next si }
    let h := h.clear si name
    let h := h.setNext h.sonext (some si)
    let h := h.setNext si none
    pure ({ h with sonext := si }, si)

end Heap

def walk (next : So → Option So) (si : So) :
    ℕ → Option So → Option So → Option (Option So × Option So)
  | 0, _, _ => none
  | fuel + 1, prev, trav =>
    match trav with
    | none => some (prev, none)
    | some x => if x = si then some (prev, some x) else walk next si fuel (some x) (next x)

def Heap.unlink (h : Heap) (prev si : So) : Heap :=
  let h := h.setNext prev (h.next si)
  let h := { h with sonext := if si = h.sonext then prev else h.sonext }
  let h := h.setNext si h.freelist
  { h with freelist := some si }

/-- `apkenv_free_info`. There is no result without a predecessor to write to. -/
def Heap.freeInfo (fuel : ℕ) (h : Heap) (si : So) : Option Heap :=
  match walk h.next si fuel none solist with
  | some (_, none) => some h
  | some (some prev, some _) => some (h.unlink prev si)
  | some (none, some _) => none
  | none => none

inductive Op where
  | alloc (name : Name)
  | free (i : Slot)

/-- The second part has the soinfos that calls have handed out and that were not given back
since. A failed allocation leaves the heap as it is. -/
def step (fuel : ℕ) (s : Heap × List So) : Op → Option (Heap × List So)
  | .alloc name =>
    match s.1.allocInfo name with
    | some (h, si) => some (h, s.2 ++ [si])
    | none => some s
  | .free i => (s.1.freeInfo fuel (.pool i)).map fun h => (h, s.2.erase (.pool i))

def run (fuel : ℕ) (ops : List Op) : Option (Heap × List So) :=
  ops.foldlM (step fuel) (initialHeap, [])

/-- The heap holds the lists of the linker's state. -/
structure Represents (h : Heap) (L : State) : Prop where
  solist : Chain h.next solist L.solist
  sonext : L.solist.getLast? = some h.sonext
  freelist : Chain h.next h.freelist (L.pool.freelist.map .pool)
  socount : h.socount = L.pool.socount
  info : h.info = L.info

theorem represents_initial : Represents initialHeap initial :=
  ⟨⟨rfl, rfl⟩, rfl, rfl, rfl, rfl⟩

variable {h : Heap} {L : State}

theorem walk_absent {next : So → Option So} {si : So} {l : List So} {fuel : ℕ}
    {trav : Option So} (prev : Option So) (hc : Chain next trav l) (hm : si ∉ l)
    (hf : l.length < fuel) : ∃ p, walk next si fuel prev trav = some (p, none) := by
  induction l generalizing fuel prev trav with
  | nil =>
    obtain ⟨fuel, rfl⟩ := Nat.exists_eq_succ_of_ne_zero (Nat.ne_of_gt hf)
    cases hc
    exact ⟨prev, rfl⟩
  | cons x l ih =>
    obtain ⟨fuel, rfl⟩ := Nat.exists_eq_succ_of_ne_zero (Nat.ne_of_gt (Nat.zero_lt_of_lt hf))
    obtain ⟨rfl, hc⟩ := hc
    obtain ⟨hx, hm⟩ := not_or.mp (mt List.mem_cons.mpr hm)
    obtain ⟨p, hp⟩ := ih (some x) hc hm (Nat.lt_of_succ_lt_succ hf)
    refine ⟨p, ?_⟩
    rw [walk, if_neg (Ne.symm hx)]
    exact hp

theorem walk_found {next : So → Option So} {si p : So} {l k : List So} {fuel : ℕ}
    {prev trav : Option So} (hc : Chain next trav (l ++ p :: si :: k)) (hf : l.length + 2 ≤ fuel) :
    walk next si fuel prev trav = some (some p, some si) := by
  induction l generalizing fuel prev trav with
  | nil =>
    obtain ⟨fuel, rfl⟩ := Nat.exists_eq_add_of_le' hf
    have hp : p ≠ si := fun e => (List.nodup_cons.mp (chain_nodup hc)).1 (e ▸ List.mem_cons_self)
    obtain ⟨rfl, hn, -⟩ := hc
    show walk next si (fuel + 1 + 1) prev (some p) = _
    rw [walk, if_neg hp, hn, walk, if_pos rfl]
  | cons x l ih =>
    obtain ⟨fuel, rfl⟩ := Nat.exists_eq_succ_of_ne_zero (Nat.ne_of_gt (Nat.zero_lt_of_lt hf))
    have hx : x ≠ si := by
      rintro rfl
      refine (List.nodup_cons.mp (chain_nodup hc)).1 ?_
      exact List.mem_append_right _ (List.mem_cons_of_mem _ List.mem_cons_self)
    obtain ⟨rfl, hc⟩ := hc
    rw [walk, if_neg hx]
    exact ih hc (by simpa using hf)

theorem listed_not_free {x : So} (hx : x ∈ L.solist) : x ∉ L.pool.freelist.map So.pool := by
  intro hf
  obtain ⟨i, hi, rfl⟩ := List.mem_map.mp hf
  exact Pool.not_free (pool_mem_solist.mp hx) hi

/-- The heap with a slot to take from the free list, and the pool after it is taken. -/
structure Ready (h h1 : Heap) (L : State) (pool : Pool) (i : Slot) : Prop where
  alloc : L.pool.alloc = some (pool, i)
  loaded : pool.loaded = L.pool.loaded ++ [i]
  fresh : .pool i ∉ L.solist
  solist : Chain h1.next solist L.solist
  sonext : h1.sonext = h.sonext
  head : h1.freelist = some (.pool i)
  freelist : Chain h1.next (h1.next (.pool i)) (pool.freelist.map .pool)
  socount : h1.socount = pool.socount
  info : h1.info = h.info

theorem refill_free {i : Slot} {rest : List Slot} (hr : Represents h L)
    (hf : L.pool.freelist = i :: rest) :
    h.refill = some h ∧ Ready h h L (L.pool.takeFree i rest hf) i := by
  have hchain := hr.freelist
  rw [hf] at hchain
  obtain ⟨hhead, hnext⟩ := hchain
  refine ⟨?_, ?_, rfl, fun hm => ?_, hr.solist, rfl, hhead, hnext, hr.socount, rfl⟩
  · rw [Heap.refill, hhead]
  · unfold Pool.alloc
    split
    · next j rest' hf' =>
      cases hf.symm.trans hf'
      rfl
    · next hf' => cases hf.symm.trans hf'
  · exact Pool.head_free hf (pool_mem_solist.mp hm)

theorem refill_fresh (hr : Represents h L) (hf : L.pool.freelist = [])
    (hs : L.pool.socount < soMax) : ∃ h1, h.refill = some h1 ∧
      Ready h h1 L (L.pool.takeFresh hf hs) ⟨L.pool.socount, hs⟩ := by
  have hchain := hr.freelist
  rw [hf] at hchain
  have hnew : So.pool ⟨L.pool.socount, hs⟩ ∉ L.solist := fun hm =>
    Nat.lt_irrefl _ ((L.pool.mem_iff _).mp (List.mem_append_left _ (pool_mem_solist.mp hm)))
  have hsc := hr.socount
  refine ⟨{ h with freelist := some (.pool ⟨L.pool.socount, hs⟩), socount := L.pool.socount + 1 }
    |>.setNext (.pool ⟨L.pool.socount, hs⟩) none, ?_, ?_, rfl, hnew,
    chain_update hnew hr.solist, rfl, rfl, ?_, rfl, rfl⟩
  · obtain ⟨next, info, freelist, sonext, socount⟩ := h
    cases hsc
    cases hchain
    rw [Heap.refill]
    exact dif_pos hs
  · unfold Pool.alloc
    split
    · next j rest' hf' => cases hf.symm.trans hf'
    · exact dif_pos hs
  · exact Function.update_self ..

theorem refill_none (hr : Represents h L) (hf : L.pool.freelist = [])
    (hs : ¬ L.pool.socount < soMax) : h.refill = none ∧ L.pool.alloc = none := by
  have hchain := hr.freelist
  rw [hf] at hchain
  have hnone : h.freelist = none := hchain
  refine ⟨?_, ?_⟩
  · unfold Heap.refill
    rw [hnone]
    exact dif_neg (hr.socount ▸ hs)
  · unfold Pool.alloc
    split
    · next j rest' hf' => cases hf.symm.trans hf'
    · exact dif_neg hs

theorem refill_cases (hr : Represents h L) :
    (h.refill = none ∧ L.pool.alloc = none) ∨
      ∃ h1 pool i, h.refill = some h1 ∧ Ready h h1 L pool i := by
  cases hf : L.pool.freelist with
  | cons i rest =>
    obtain ⟨h1, h2⟩ := refill_free hr hf
    exact Or.inr ⟨h, _, i, h1, h2⟩
  | nil =>
    by_cases hs : L.pool.socount < soMax
    · obtain ⟨h1, h2, h3⟩ := refill_fresh hr hf hs
      exact Or.inr ⟨h1, _, _, h2, h3⟩
    · exact Or.inl (refill_none hr hf hs)

theorem represents_take {h1 : Heap} {pool : Pool} {i : Slot} (name : Name) (hr : Represents h L)
    (hd : Ready h h1 L pool i) : Represents
      { (({ h1 with freelist := h1.next (.pool i) }.clear (.pool i) name).setNext h1.sonext
          (some (.pool i))).setNext (.pool i) none with sonext := .pool i }
      ({ L with pool }.set (.pool i) { name }) := by
  obtain ⟨l, hl⟩ : ∃ l, L.solist = l ++ [h1.sonext] :=
    ⟨_, (List.dropLast_append_getLast? _ (hd.sonext ▸ hr.sonext)).symm⟩
  have hlast : h1.sonext ∈ L.solist := hl ▸ List.mem_append_right _ List.mem_cons_self
  have hsolist : ({ L with pool }.set (.pool i) { name }).solist = L.solist ++ [.pool i] := by
    rw [set_solist, State.solist, hd.loaded, State.solist, List.map_append]
    rfl
  have hnot : ∀ {x}, x ∈ L.solist ++ [.pool i] → x ∉ pool.freelist.map So.pool := by
    intro x hx
    rw [← hsolist] at hx
    exact listed_not_free hx
  refine ⟨?_, ?_, ?_, hd.socount, ?_⟩
  · rw [hsolist, hl, List.append_assoc]
    have hchain := chain_update (v := none) hd.fresh hd.solist
    rw [hl] at hchain
    exact chain_snoc hchain (hl ▸ hd.fresh)
  · rw [hsolist]
    exact List.getLast?_concat
  · have hi : .pool i ∉ pool.freelist.map So.pool :=
      hnot (List.mem_append_right _ List.mem_cons_self)
    have ht := hnot (List.mem_append_left _ hlast)
    exact chain_update hi (chain_update ht (chain_update hi hd.freelist))
  · funext x
    show (if x = .pool i then _ else h1.info x) = if x = .pool i then _ else L.info x
    rw [hd.info, hr.info]

theorem represents_alloc (name : Name) (hr : Represents h L) :
    (h.allocInfo name = none ∧ allocInfo L name = none) ∨
      ∃ h' L' i, h.allocInfo name = some (h', .pool i) ∧ allocInfo L name = some (L', i) ∧
        Represents h' L' := by
  unfold Heap.allocInfo allocInfo
  split_ifs with hn
  · exact Or.inl ⟨rfl, rfl⟩
  · rcases refill_cases hr with ⟨h1, h2⟩ | ⟨h1, pool, i, h2, h3⟩
    · exact Or.inl ⟨by rw [h1]; rfl, by rw [h2]; rfl⟩
    · refine Or.inr ⟨_, _, i, ?_, ?_, represents_take name hr h3⟩
      · rw [h2]
        simp only [Option.bind_eq_bind, Option.bind_some, h3.head]
        rfl
      · rw [h3.alloc]
        rfl

theorem listed_split {i : Slot} (hi : i ∈ L.pool.loaded) : ∃ l p k,
    L.solist = l ++ p :: .pool i :: k ∧ (freeInfo L i).solist = l ++ p :: k := by
  obtain ⟨a, b, hab⟩ := List.append_of_mem hi
  obtain ⟨l, p, hl⟩ : ∃ l p, So.libdl :: a.map So.pool = l ++ [p] :=
    ⟨_, _, (List.dropLast_append_getLast (List.cons_ne_nil _ _)).symm⟩
  refine ⟨l, p, b.map So.pool, ?_, ?_⟩
  · rw [State.solist, hab, List.map_append, List.map_cons, ← List.cons_append, hl,
      List.append_assoc]
    rfl
  · have hia : i ∉ a := fun ha => by
      have hn := hab ▸ L.pool.loaded_nodup
      exact (List.nodup_append'.mp hn).2.2 ha List.mem_cons_self
    rw [State.solist, freeInfo, free_loaded, hab, List.erase_append_right _ hia,
      List.erase_cons_head, List.map_append, ← List.cons_append, hl, List.append_assoc]
    rfl

theorem represents_unlink {i : Slot} {l k : List So} {p : So} (hr : Represents h L)
    (hi : i ∈ L.pool.loaded) (hl : L.solist = l ++ p :: .pool i :: k)
    (hl' : (freeInfo L i).solist = l ++ p :: k) :
    Represents (h.unlink p (.pool i)) (freeInfo L i) := by
  have hchain := hr.solist
  rw [hl] at hchain
  have hp : p ∈ L.solist := hl ▸ List.mem_append_right _ List.mem_cons_self
  have hout : So.pool i ∉ l ++ p :: k := by
    rw [← hl', pool_mem_solist, freeInfo, mem_free_loaded]
    exact fun h => h.1 rfl
  refine ⟨?_, ?_, ?_, ?_, ?_⟩
  · rw [hl']
    exact chain_update hout (chain_unlink hchain)
  · have hlast := hr.sonext
    rw [hl, List.getLast?_append_cons] at hlast
    rw [hl', List.getLast?_append_cons]
    show _ = some (if .pool i = h.sonext then p else h.sonext)
    cases k with
    | nil =>
      have hi : .pool i = h.sonext := Option.some.inj hlast
      rw [if_pos hi]
      rfl
    | cons x k =>
      have hne : .pool i ≠ h.sonext := by
        intro e
        refine hout (List.mem_append_right _ (List.mem_cons_of_mem _ ?_))
        rw [e]
        exact List.mem_of_getLast? hlast
      rw [if_neg hne]
      exact hlast
  · rw [freeInfo, free_freelist hi]
    refine ⟨rfl, ?_⟩
    have hif := listed_not_free (pool_mem_solist.mpr hi)
    have hfree := chain_update (v := h.next (.pool i)) (listed_not_free hp) hr.freelist
    have hhead : (h.unlink p (.pool i)).next (.pool i) = h.freelist := Function.update_self ..
    rw [hhead]
    exact chain_update hif hfree
  · show h.socount = (L.pool.free i).socount
    rw [free_socount, hr.socount]
  · exact hr.info

theorem represents_free (i : Slot) {fuel : ℕ} (hr : Represents h L)
    (hf : L.solist.length < fuel) :
    ∃ h', h.freeInfo fuel (.pool i) = some h' ∧ Represents h' (freeInfo L i) ∧
      (i ∉ L.pool.loaded → h' = h) := by
  by_cases hi : i ∈ L.pool.loaded
  · obtain ⟨l, p, k, hl, hl'⟩ := listed_split hi
    have hchain := hr.solist
    rw [hl] at hchain
    have hlen : l.length + 2 ≤ fuel := by
      rw [hl, List.length_append, List.length_cons, List.length_cons] at hf
      omega
    refine ⟨h.unlink p (.pool i), ?_, represents_unlink hr hi hl hl', fun hn => absurd hi hn⟩
    rw [Heap.freeInfo, walk_found hchain hlen]
  · obtain ⟨p, hp⟩ := walk_absent none hr.solist (mt pool_mem_solist.mp hi) hf
    refine ⟨h, by rw [Heap.freeInfo, hp], ?_, fun _ => rfl⟩
    rw [freeInfo, free_unlisted hi]
    exact hr

theorem solist_length (L : State) : L.solist.length ≤ soMax + 1 := by
  rw [State.solist, List.length_cons, List.length_map]
  have := L.pool.loaded_nodup.length_le_card
  rw [Fintype.card_fin] at this
  exact Nat.succ_le_succ this

def live (L : State) : List So := L.pool.loaded.map .pool

theorem represents_step (n : ℕ) (op : Op) (hr : Represents h L) : ∃ h' L',
    step (soMax + 2 + n) (h, live L) op = some (h', live L') ∧ Represents h' L' := by
  cases op with
  | alloc name =>
    rcases represents_alloc name hr with ⟨h1, -⟩ | ⟨h', L', i, h1, h2, h3⟩
    · exact ⟨h, L, by rw [step, h1], hr⟩
    · refine ⟨h', L', ?_, h3⟩
      simp only [step, h1, live, (allocInfo_some h2).1, List.map_append, List.map_cons,
        List.map_nil]
  | free i =>
    have hlen := solist_length L
    obtain ⟨h', h1, h2, -⟩ := represents_free i hr
      (show L.solist.length < soMax + 2 + n by omega)
    refine ⟨h', _, ?_, h2⟩
    have hpool : Function.Injective So.pool := fun _ _ e => So.pool.inj e
    simp only [step, h1, Option.map_some, live, freeInfo, free_loaded, List.map_erase hpool]

theorem represents_run (n : ℕ) (ops : List Op) :
    ∃ h L, run (soMax + 2 + n) ops = some (h, live L) ∧ Represents h L := by
  have hall : ∀ (ops : List Op) (h : Heap) (L : State), Represents h L → ∃ h' L',
      ops.foldlM (step (soMax + 2 + n)) (h, live L) = some (h', live L') ∧ Represents h' L' := by
    intro ops
    induction ops with
    | nil => exact fun h L hr => ⟨h, L, rfl, hr⟩
    | cons op ops ih =>
      intro h L hr
      obtain ⟨h1, L1, hs, hr1⟩ := represents_step n op hr
      rw [List.foldlM_cons, hs]
      exact ih h1 L1 hr1
  exact hall ops initialHeap initial represents_initial

/-- The two lists: the slots on each, where they start and end, and that together they
hold just the slots below `apkenv_socount`. -/
structure Threaded (h : Heap) (loaded free : List Slot) : Prop where
  solist : Chain h.next solist (.libdl :: loaded.map .pool)
  solist_nodup : (So.libdl :: loaded.map So.pool).Nodup
  last : (So.libdl :: loaded.map So.pool).getLast? = some h.sonext
  tail : h.next h.sonext = none
  freelist : Chain h.next h.freelist (free.map .pool)
  freelist_nodup : (free.map So.pool).Nodup
  used : ∀ i : Slot, i.val < h.socount → (i ∈ loaded ↔ i ∉ free)
  unused : ∀ i : Slot, h.socount ≤ i.val → i ∉ loaded ∧ i ∉ free

theorem represents_threaded (hr : Represents h L) :
    Threaded h L.pool.loaded L.pool.freelist where
  solist := hr.solist
  solist_nodup := solist_nodup L
  last := hr.sonext
  tail := by
    have hsolist := hr.solist
    rw [← List.dropLast_append_getLast? _ hr.sonext] at hsolist
    exact chain_last hsolist
  freelist := hr.freelist
  freelist_nodup := chain_nodup hr.freelist
  used i hi := by
    rw [hr.socount, ← L.pool.mem_iff, List.mem_append] at hi
    exact ⟨Pool.not_free, fun hn => hi.resolve_right hn⟩
  unused i hi := by
    rw [hr.socount] at hi
    exact not_or.mp (mt List.mem_append.mpr fun hm => absurd ((L.pool.mem_iff i).mp hm) hi.not_gt)

theorem pool_count (p : Pool) : p.loaded.length + p.freelist.length = p.socount := by
  have hset : (p.loaded ++ p.freelist).toFinset = Finset.univ.filter (·.val < p.socount) := by
    ext i
    simp only [List.mem_toFinset, Finset.mem_filter, Finset.mem_univ, true_and]
    exact p.mem_iff i
  have hcard := congrArg Finset.card hset
  rw [List.toFinset_card_of_nodup p.nodup, List.length_append, Fin.card_filter_val_lt] at hcard
  rw [hcard]
  exact min_eq_right p.bound

theorem alloc_none_iff (p : Pool) : p.alloc = none ↔ p.loaded.length = soMax := by
  have hcount := pool_count p
  have hbound := p.bound
  rw [alloc_none, ← List.length_eq_zero_iff]
  omega

theorem alloc_freelist {p q : Pool} {i : Slot} (h : p.alloc = some (q, i)) :
    q.freelist = p.freelist.tail := by
  unfold Pool.alloc at h
  split at h
  · next j rest hf =>
    cases h
    exact (congrArg List.tail hf).symm
  · next hf =>
    split_ifs at h
    cases h
    exact (congrArg List.tail hf).symm

theorem allocInfo_none_iff (name : Name) (hr : Represents h L) :
    h.allocInfo name = none ↔ 128 ≤ name.length ∨ L.pool.loaded.length = 128 := by
  have halloc : h.allocInfo name = none ↔ allocInfo L name = none := by
    rcases represents_alloc name hr with ⟨h1, h2⟩ | ⟨h', L', i, h1, h2, -⟩
    · exact iff_of_true h1 h2
    · rw [h1, h2]
      simp
  rw [halloc, allocInfo]
  split_ifs with hn
  · exact iff_of_true rfl (Or.inl hn)
  · rw [Option.map_eq_none_iff, alloc_none_iff]
    exact (or_iff_right hn).symm

/-- What an allocation that succeeds has done: a slot that is not loaded, cleared and named, is
the new end of the list, and the free list has lost its head. -/
structure Allocated (h h' : Heap) (loaded free : List Slot) (name : Name) (i : Slot) : Prop where
  unused : i ∉ loaded
  lists : Threaded h' (loaded ++ [i]) free.tail
  info : ∀ si, h'.info si = if si = .pool i then { name } else h.info si

theorem represents_allocated {h' : Heap} {si : So} {name : Name} (hr : Represents h L)
    (ha : h.allocInfo name = some (h', si)) :
    ∃ i, si = .pool i ∧ Allocated h h' L.pool.loaded L.pool.freelist name i := by
  rcases represents_alloc name hr with ⟨h1, -⟩ | ⟨h'', L', i, h1, h2, h3⟩
  · cases h1.symm.trans ha
  cases h1.symm.trans ha
  obtain ⟨hloaded, hfresh, hL⟩ := allocInfo_some h2
  refine ⟨i, rfl, hfresh, ?_, fun si => ?_⟩
  · have hfree : L'.pool.freelist = L.pool.freelist.tail := by
      unfold allocInfo at h2
      split_ifs at h2
      obtain ⟨⟨pool, j⟩, hp, he⟩ := Option.map_eq_some_iff.mp h2
      cases he
      exact alloc_freelist hp
    rw [← hloaded, ← hfree]
    exact represents_threaded h3
  · rw [h3.info, hL, hr.info]
    rfl

/-- What giving a slot back has done. -/
structure Freed (h h' : Heap) (loaded free : List Slot) (i : Slot) : Prop where
  listed : i ∈ loaded → Threaded h' (loaded.erase i) (i :: free)
  unlisted : i ∉ loaded → h' = h
  info : h'.info = h.info

theorem represents_freed (i : Slot) {fuel : ℕ} (hr : Represents h L)
    (hf : L.solist.length < fuel) : ∃ h', h.freeInfo fuel (.pool i) = some h' ∧
      Freed h h' L.pool.loaded L.pool.freelist i := by
  obtain ⟨h', h1, h2, h3⟩ := represents_free i hr hf
  refine ⟨h', h1, fun hi => ?_, h3, ?_⟩
  · rw [← free_loaded, ← free_freelist hi]
    exact represents_threaded h2
  · rw [h2.info, hr.info]
    rfl

/-- After any sequence of allocations and frees, with any names and any slots: what is on the
list is what calls have handed out and not taken back, and the next call does what it should. -/
theorem run_threaded (n : ℕ) (ops : List Op) : ∃ h loaded free,
    run (soMax + 2 + n) ops = some (h, loaded.map .pool) ∧ Threaded h loaded free ∧
      (∀ name, h.allocInfo name = none ↔ 128 ≤ name.length ∨ loaded.length = 128) ∧
      (∀ name h' si, h.allocInfo name = some (h', si) →
        ∃ i, si = .pool i ∧ Allocated h h' loaded free name i) ∧
      ∀ i, ∃ h', h.freeInfo (soMax + 2 + n) (.pool i) = some h' ∧ Freed h h' loaded free i := by
  obtain ⟨h, L, hrun, hr⟩ := represents_run n ops
  have hlen := solist_length L
  exact ⟨h, _, _, hrun, represents_threaded hr, fun name => allocInfo_none_iff name hr,
    fun name h' si => represents_allocated hr,
    fun i => represents_freed i hr (show L.solist.length < soMax + 2 + n by omega)⟩

end Bionic.SoinfoLists
