import BionicTranslation.HeapList

/-!
# The link_map list published to gdb

Loaded libraries are kept on a doubly linked list headed by
`apkenv_r_debug_head`. Every notification splices that list behind the last
entry of the host's own list, lets gdb look, and cuts it off again. Nodes of
both lists live in one heap, so a wrong write can reach either of them. The
mutex around the notifications is not part of this model.
-/

set_option autoImplicit false

namespace Bionic.DebugMap
open Bionic.HeapList

structure LinkMap (N : Type*) where
  l_addr : ℕ
  l_name : List Char
  l_ld : ℕ
  l_next : Option N
  l_prev : Option N

inductive RState where
  | rtConsistent
  | rtAdd
  | rtDelete
  deriving DecidableEq, Repr

structure Info (N : Type*) where
  linkmap : N
  base : ℕ
  fullpath : List Char
  dynamic : ℕ
  exe : Bool

/-- `_r_debug_ptr`, the two static list ends and the heap of nodes. The field
`activity` records the state shown at each call of `rtld_db_dlactivity`. -/
structure RDebug (N : Type*) where
  heap : N → LinkMap N
  r_map : N
  r_state : RState
  activity : List RState
  head : Option N
  tail : Option N

variable {N : Type*}

def next (heap : N → LinkMap N) : N → Option N := fun n => (heap n).l_next

def prev (heap : N → LinkMap N) : N → Option N := fun n => (heap n).l_prev

def rtldDbDlactivity (d : RDebug N) : RDebug N :=
  { d with activity := d.activity ++ [d.r_state] }

def setState (r : RState) (d : RDebug N) : RDebug N := { d with r_state := r }

variable [DecidableEq N]

def setNext (n : N) (v : Option N) (heap : N → LinkMap N) : N → LinkMap N :=
  Function.update heap n { heap n with l_next := v }

def setPrev (n : N) (v : Option N) (heap : N → LinkMap N) : N → LinkMap N :=
  Function.update heap n { heap n with l_prev := v }

def describe (info : Info N) (heap : N → LinkMap N) : N → LinkMap N :=
  Function.update heap info.linkmap
    { heap info.linkmap with
      l_addr := info.base, l_name := info.fullpath, l_ld := info.dynamic }

@[simp] theorem next_setNext (n : N) (v : Option N) (heap : N → LinkMap N) :
    next (setNext n v heap) = Function.update (next heap) n v := by
  funext m
  by_cases h : m = n
  · subst h; simp [next, setNext]
  · simp [next, setNext, h]

@[simp] theorem next_setPrev (n : N) (v : Option N) (heap : N → LinkMap N) :
    next (setPrev n v heap) = next heap := by
  funext m
  by_cases h : m = n
  · subst h; simp [next, setPrev]
  · simp [next, setPrev, h]

@[simp] theorem prev_setNext (n : N) (v : Option N) (heap : N → LinkMap N) :
    prev (setNext n v heap) = prev heap := by
  funext m
  by_cases h : m = n
  · subst h; simp [prev, setNext]
  · simp [prev, setNext, h]

@[simp] theorem prev_setPrev (n : N) (v : Option N) (heap : N → LinkMap N) :
    prev (setPrev n v heap) = Function.update (prev heap) n v := by
  funext m
  by_cases h : m = n
  · subst h; simp [prev, setPrev]
  · simp [prev, setPrev, h]

@[simp] theorem next_describe (info : Info N) (heap : N → LinkMap N) :
    next (describe info heap) = next heap := by
  funext m
  by_cases h : m = info.linkmap
  · subst h; simp [next, describe]
  · simp [next, describe, h]

@[simp] theorem prev_describe (info : Info N) (heap : N → LinkMap N) :
    prev (describe info heap) = prev heap := by
  funext m
  by_cases h : m = info.linkmap
  · subst h; simp [prev, describe]
  · simp [prev, describe, h]

def insertSoinfoIntoDebugMap (info : Info N) (d : RDebug N) : RDebug N :=
  let map := info.linkmap
  let heap := describe info d.heap
  match d.tail with
  | some t =>
    { d with
      heap := setNext map none (setPrev map (some t) (setNext t (some map) heap))
      tail := some map }
  | none =>
    { d with
      heap := setNext map none (setPrev map none heap)
      head := some map
      tail := some map }

/-- The neighbours are read again after each write, as the source does. -/
def removeSoinfoFromDebugMap (info : Info N) (d : RDebug N) : RDebug N :=
  let map := info.linkmap
  let tail := if d.tail = some map then prev d.heap map else d.tail
  let heap := match prev d.heap map with
    | some p => setNext p (next d.heap map) d.heap
    | none => d.heap
  let heap := match next heap map with
    | some q => setPrev q (prev heap map) heap
    | none => heap
  { d with heap := heap, tail := tail }

/-- `none` when the walk to the end of the host list exceeds `fuel`, and when
the head written through is NULL. -/
def notifyGdbOfLibraries (fuel : ℕ) (d : RDebug N) : Option (RDebug N) := do
  let tmap ← lastNode (next d.heap) fuel d.r_map
  let d := rtldDbDlactivity (setState .rtAdd d)
  let head ← d.head
  let d := { d with heap := setPrev head (some tmap) (setNext tmap (some head) d.heap) }
  let d := rtldDbDlactivity (setState .rtConsistent d)
  pure { d with heap := setNext tmap none d.heap }

def notifyGdbOfLoad (fuel : ℕ) (info : Info N) (d : RDebug N) : Option (RDebug N) :=
  -- gdb already knows about the main executable
  if info.exe then some d else
    let d := rtldDbDlactivity (setState .rtAdd d)
    let d := insertSoinfoIntoDebugMap info d
    let d := rtldDbDlactivity (setState .rtConsistent d)
    notifyGdbOfLibraries fuel d

def notifyGdbOfUnload (fuel : ℕ) (info : Info N) (d : RDebug N) : Option (RDebug N) :=
  if info.exe then some d else
    let d := rtldDbDlactivity (setState .rtDelete d)
    let d := removeSoinfoFromDebugMap info d
    let d := rtldDbDlactivity (setState .rtConsistent d)
    notifyGdbOfLibraries fuel d

inductive Op (N : Type*) where
  | load (info : Info N)
  | unload (info : Info N)

def notify (fuel : ℕ) : Op N → RDebug N → Option (RDebug N)
  | .load info, d => notifyGdbOfLoad fuel info d
  | .unload info, d => notifyGdbOfUnload fuel info d

def loadedAfter : Op N → List N → List N
  | .load info, loaded => if info.exe then loaded else loaded ++ [info.linkmap]
  | .unload info, loaded => if info.exe then loaded else loaded.erase info.linkmap

/-- What gdb and the host's own loader rely on between notifications. -/
structure Good (hosts loaded : List N) (d : RDebug N) : Prop where
  hostList : Chain (next d.heap) (some d.r_map) hosts
  libList : Chain (next d.heap) d.head loaded
  tailLast : d.tail = loaded.getLast?
  inverse : ∀ x ∈ loaded, ∀ y ∈ loaded, next d.heap x = some y ↔ prev d.heap y = some x

/-- A load names a node that is on neither list, an unload one that is loaded. -/
def Valid (hosts : List N) : List (Op N) → List N → Prop
  | [], _ => True
  | .load info :: ops, loaded =>
    (info.exe = false → info.linkmap ∉ hosts ∧ info.linkmap ∉ loaded) ∧
      Valid hosts ops (loadedAfter (.load info) loaded)
  | .unload info :: ops, loaded =>
    (info.exe = false → info.linkmap ∈ loaded) ∧
      Valid hosts ops (loadedAfter (.unload info) loaded)

/-- Every notification of the run returns and leaves both lists as they should be. -/
def AllGood (fuel : ℕ) (hosts : List N) : List (Op N) → RDebug N → List N → Prop
  | [], _, _ => True
  | op :: ops, d, loaded => ∃ d', notify fuel op d = some d' ∧
      Good hosts (loadedAfter op loaded) d' ∧ AllGood fuel hosts ops d' (loadedAfter op loaded)

/-- No unload hits the library that was loaded first among those loaded. -/
def KeepsHead : List (Op N) → List N → Prop
  | [], _ => True
  | .load info :: ops, loaded => KeepsHead ops (loadedAfter (.load info) loaded)
  | .unload info :: ops, loaded =>
    (info.exe = false → loaded.head? ≠ some info.linkmap) ∧
      KeepsHead ops (loadedAfter (.unload info) loaded)

theorem libraries_restores {fuel : ℕ} {hosts : List N} {d : RDebug N} {h : N}
    (hc : Chain (next d.heap) (some d.r_map) hosts) (hh : d.head = some h)
    (hf : hosts.length ≤ fuel) :
    ∃ d' t, notifyGdbOfLibraries fuel d = some d' ∧ t ∈ hosts ∧
      next d'.heap = next d.heap ∧ prev d'.heap = Function.update (prev d.heap) h (some t) ∧
      d'.r_map = d.r_map ∧ d'.head = d.head ∧ d'.tail = d.tail := by
  rcases List.eq_nil_or_concat hosts with rfl | ⟨l, t, rfl⟩
  · exact absurd hc (by simp [Chain])
  · have ht : next d.heap t = none := chain_last (l := l) (by simpa using hc)
    have hw := lastNode_chain (l := l) (by simpa using hc)
      (show l.length < fuel by simp at hf; omega)
    refine ⟨{ d with
      heap := setNext t none (setPrev h (some t) (setNext t (some h) d.heap))
      r_state := .rtConsistent
      activity := d.activity ++ [.rtAdd] ++ [.rtConsistent] },
      t, ?_, by simp, ?_, ?_, rfl, rfl, rfl⟩
    · simp [notifyGdbOfLibraries, hw, rtldDbDlactivity, setState, hh]
    · simp only [next_setNext, next_setPrev, Function.update_idem]
      exact Function.update_eq_self_iff.mpr ht.symm
    · simp

/-- The lists between notifications, and what a stale `l_prev` may still name. -/
structure Inv (hosts loaded : List N) (d : RDebug N) : Prop extends Good hosts loaded d where
  anchored : ∀ y ∈ loaded, ∀ x, prev d.heap y = some x → x ∈ hosts ∨ x ∈ loaded

theorem inv_libraries {fuel : ℕ} {hosts loaded : List N} {d : RDebug N}
    (hg : Inv hosts loaded d) (hl : loaded ≠ []) (hd : ∀ x ∈ loaded, x ∉ hosts)
    (hf : hosts.length ≤ fuel) :
    ∃ d', notifyGdbOfLibraries fuel d = some d' ∧ Inv hosts loaded d' := by
  obtain ⟨h, hh⟩ : ∃ h, d.head = some h := by
    rw [chain_head hg.libList]
    exact Option.ne_none_iff_exists'.mp (by simpa using hl)
  have hc := hg.libList
  rw [hh] at hc
  obtain ⟨d', t, hn, ht, hnext, hprev, hr, hhead, htail⟩ :=
    libraries_restores hg.hostList hh hf
  refine ⟨d', hn, ⟨?_, ?_, ?_, ?_⟩, ?_⟩
  · rw [hnext, hr]; exact hg.hostList
  · rw [hnext, hhead]; exact hg.libList
  · rw [htail]; exact hg.tailLast
  · intro x hx y hy
    rw [hnext, hprev]
    by_cases hyh : y = h
    · -- the first library has no predecessor, before and after the splice
      subst hyh
      have hxt : t ≠ x := by rintro rfl; exact hd t hx ht
      simp [chain_next_ne_head hc hx, hxt]
    · rw [Function.update_of_ne hyh]
      exact hg.inverse x hx y hy
  · intro y hy x hx
    rw [hprev] at hx
    by_cases hyh : y = h
    · rw [hyh, Function.update_self] at hx
      exact Or.inl (Option.some.inj hx ▸ ht)
    · rw [Function.update_of_ne hyh] at hx
      exact hg.anchored y hy x hx

omit [DecidableEq N] in
theorem inv_states {hosts loaded : List N} {d : RDebug N} (hg : Inv hosts loaded d)
    (r : RState) : Inv hosts loaded (rtldDbDlactivity (setState r d)) :=
  ⟨⟨hg.hostList, hg.libList, hg.tailLast, hg.inverse⟩, hg.anchored⟩

theorem insert_next_first {info : Info N} {d : RDebug N} (ht : d.tail = none) :
    next (insertSoinfoIntoDebugMap info d).heap =
      Function.update (next d.heap) info.linkmap none := by
  simp [insertSoinfoIntoDebugMap, ht]

theorem insert_next_behind {info : Info N} {d : RDebug N} {t : N} (ht : d.tail = some t) :
    next (insertSoinfoIntoDebugMap info d).heap = Function.update
      (Function.update (next d.heap) t (some info.linkmap)) info.linkmap none := by
  simp [insertSoinfoIntoDebugMap, ht]

theorem insert_prev (info : Info N) (d : RDebug N) :
    prev (insertSoinfoIntoDebugMap info d).heap =
      Function.update (prev d.heap) info.linkmap d.tail := by
  cases ht : d.tail <;> simp [insertSoinfoIntoDebugMap, ht]

theorem insert_r_map (info : Info N) (d : RDebug N) :
    (insertSoinfoIntoDebugMap info d).r_map = d.r_map := by
  cases ht : d.tail <;> simp [insertSoinfoIntoDebugMap, ht]

theorem insert_first {hosts : List N} {info : Info N} {d : RDebug N}
    (hg : Inv hosts [] d) (hx : info.linkmap ∉ hosts) :
    Inv hosts [info.linkmap] (insertSoinfoIntoDebugMap info d) := by
  have ht : d.tail = none := hg.tailLast
  have hn : next (insertSoinfoIntoDebugMap info d).heap = _ := insert_next_first ht
  refine ⟨⟨?_, ?_, ?_, ?_⟩, ?_⟩
  · rw [insert_r_map, hn]
    exact chain_update hx hg.hostList
  · rw [hn]
    simp [insertSoinfoIntoDebugMap, ht, Chain]
  · simp [insertSoinfoIntoDebugMap, ht]
  · simp [hn, insert_prev, ht]
  · simp [insert_prev, ht]

theorem insert_behind {hosts l : List N} {t : N} {info : Info N} {d : RDebug N}
    (hg : Inv hosts (l ++ [t]) d) (hd : ∀ x ∈ l ++ [t], x ∉ hosts)
    (hx : info.linkmap ∉ hosts) (hl : info.linkmap ∉ l ++ [t]) :
    Inv hosts (l ++ [t, info.linkmap]) (insertSoinfoIntoDebugMap info d) := by
  have ht : d.tail = some t := by simpa using hg.tailLast
  have htx : t ≠ info.linkmap := by rintro rfl; simp at hl
  have hlast : next d.heap t = none := chain_last hg.libList
  have hmem : ∀ z, z ∈ l ++ [t, info.linkmap] → z ≠ info.linkmap → z ∈ l ++ [t] := by
    intro z hz hne
    simpa [hne] using hz
  have hn : next (insertSoinfoIntoDebugMap info d).heap = _ := insert_next_behind ht
  have hp := insert_prev info d
  rw [ht] at hp
  refine ⟨⟨?_, ?_, ?_, ?_⟩, ?_⟩
  · rw [insert_r_map, hn]
    exact chain_update hx (chain_update (hd t (by simp)) hg.hostList)
  · rw [hn]
    have hh : (insertSoinfoIntoDebugMap info d).head = d.head := by
      simp [insertSoinfoIntoDebugMap, ht]
    rw [hh]
    exact chain_snoc hg.libList hl
  · simp [insertSoinfoIntoDebugMap, ht]
  · intro x hx' y hy'
    rw [hn, hp]
    by_cases hxi : x = info.linkmap
    · -- the new node ends the list, and no node has it as predecessor yet
      subst hxi
      by_cases hyi : y = info.linkmap
      · simp [hyi, htx]
      · have hpy : prev d.heap y ≠ some info.linkmap := fun h =>
          (hg.anchored y (hmem y hy' hyi) _ h).elim hx hl
        simp [hyi, hpy]
    · have hx2 := hmem x hx' hxi
      rw [Function.update_of_ne hxi]
      by_cases hyi : y = info.linkmap
      · subst hyi
        have hne : next d.heap x ≠ some info.linkmap := fun h =>
          hl (chain_next_mem hg.libList hx2 h)
        by_cases hxt : x = t
        · simp [hxt]
        · simp [hxt, Ne.symm hxt, hne]
      · rw [Function.update_of_ne hyi, ← hg.inverse x hx2 y (hmem y hy' hyi)]
        by_cases hxt : x = t
        · simp [hxt, hlast, Ne.symm hyi]
        · rw [Function.update_of_ne hxt]
  · intro y hy x hpy
    rw [hp] at hpy
    by_cases hyi : y = info.linkmap
    · rw [hyi, Function.update_self] at hpy
      simp [← Option.some.inj hpy]
    · rw [Function.update_of_ne hyi] at hpy
      have := hg.anchored y (hmem y hy hyi) x hpy
      simp only [List.mem_append, List.mem_cons] at this ⊢
      tauto

theorem remove_fields {info : Info N} {d : RDebug N} {p : N}
    (hp : prev d.heap info.linkmap = some p) (hne : p ≠ info.linkmap) :
    next (removeSoinfoFromDebugMap info d).heap =
        Function.update (next d.heap) p (next d.heap info.linkmap) ∧
      prev (removeSoinfoFromDebugMap info d).heap =
        (match next d.heap info.linkmap with
          | some q => Function.update (prev d.heap) q (some p)
          | none => prev d.heap) ∧
      (removeSoinfoFromDebugMap info d).tail =
        if d.tail = some info.linkmap then some p else d.tail := by
  have hn : Function.update (next d.heap) p (next d.heap info.linkmap) info.linkmap =
      next d.heap info.linkmap := Function.update_of_ne (Ne.symm hne) _ _
  cases hq : next d.heap info.linkmap <;>
    rw [hq] at hn <;> simp [removeSoinfoFromDebugMap, hp, hq, hn]

omit [DecidableEq N] in
theorem remove_kept {l k : List N} {p x : N} (hnd : (l ++ p :: x :: k).Nodup) :
    p ≠ x ∧ ∀ z, z ∈ l ++ p :: k ↔ z ∈ l ++ p :: x :: k ∧ z ≠ x := by
  have hpx : (l ++ p :: x :: k).Perm (x :: (l ++ p :: k)) := by
    have hmid : (l ++ [p] ++ x :: k).Perm (x :: (l ++ [p] ++ k)) := List.perm_middle
    simpa using hmid
  have hx := (List.nodup_cons.mp (hpx.nodup_iff.mp hnd)).1
  refine ⟨fun h => hx (by simp [h]), fun z => ?_⟩
  rw [hpx.mem_iff, List.mem_cons]
  constructor
  · intro hz
    exact ⟨Or.inr hz, fun h => hx (h ▸ hz)⟩
  · rintro ⟨h | h, hne⟩
    · exact absurd h hne
    · exact h

theorem remove_last {l k : List N} {p x : N} (hnd : (l ++ p :: x :: k).Nodup) :
    (if (l ++ p :: x :: k).getLast? = some x then some p else (l ++ p :: x :: k).getLast?) =
      (l ++ p :: k).getLast? := by
  cases k with
  | nil => simp
  | cons q k =>
    have hl : (l ++ p :: x :: q :: k).getLast? = (l ++ p :: q :: k).getLast? := by
      simp [List.getLast?_append, List.getLast?_cons_cons]
    have hne : (l ++ p :: q :: k).getLast? ≠ some x := fun h =>
      (((remove_kept hnd).2 x).mp (List.mem_of_getLast? h)).2 rfl
    rw [hl, if_neg hne]

theorem remove_interior {hosts l k : List N} {p : N} {info : Info N} {d : RDebug N}
    (hg : Inv hosts (l ++ p :: info.linkmap :: k) d)
    (hd : ∀ x ∈ l ++ p :: info.linkmap :: k, x ∉ hosts) :
    Inv hosts (l ++ p :: k) (removeSoinfoFromDebugMap info d) := by
  have hnd := chain_nodup hg.libList
  obtain ⟨hne, hkept⟩ := remove_kept hnd
  have hpn : next d.heap p = some info.linkmap := chain_next hg.libList
  have hp : prev d.heap info.linkmap = some p :=
    (hg.inverse p (by simp) info.linkmap (by simp)).mp hpn
  have hk : next d.heap info.linkmap = k.head? :=
    chain_head (chain_suffix (l := l ++ [p]) (by simpa using hg.libList))
  obtain ⟨hn', hp', ht'⟩ := remove_fields hp hne
  have hprev : ∀ y, prev (removeSoinfoFromDebugMap info d).heap y =
      if k.head? = some y then some p else prev d.heap y := by
    intro y
    rw [hp', hk]
    cases hkh : k.head? with
    | none => simp
    | some q => by_cases hq : q = y <;> simp [hq, Function.update_of_ne, Ne.symm]
  have hback : ∀ y ∈ l ++ p :: k, prev d.heap y = some info.linkmap → k.head? = some y := by
    intro y hy hpy
    rw [← hk]
    exact (hg.inverse info.linkmap (by simp) y ((hkept y).mp hy).1).mpr hpy
  refine ⟨⟨?_, ?_, ?_, ?_⟩, ?_⟩
  · rw [hn']
    exact chain_update (hd p (by simp)) hg.hostList
  · rw [hn']
    exact chain_unlink hg.libList
  · rw [ht', hg.tailLast]
    exact remove_last hnd
  · intro x hx y hy
    have hxy := hg.inverse x ((hkept x).mp hx).1 y ((hkept y).mp hy).1
    rw [hn', hprev, hk]
    by_cases hxp : x = p
    · subst hxp
      rw [Function.update_self]
      split_ifs with hky
      · simp [hky]
      · -- the removed node was the only one whose predecessor was `x`
        rw [← hxy, hpn]
        simp [hky, Ne.symm ((hkept y).mp hy).2]
    · rw [Function.update_of_ne hxp]
      split_ifs with hky
      · have hny : prev d.heap y = some info.linkmap :=
          (hg.inverse info.linkmap (by simp) y ((hkept y).mp hy).1).mp (hk.trans hky)
        rw [hxy, hny]
        simp [Ne.symm hxp, Ne.symm ((hkept x).mp hx).2]
      · exact hxy
  · intro y hy x hpy
    rw [hprev] at hpy
    split_ifs at hpy with hky
    · exact Or.inr (by simp [← Option.some.inj hpy])
    · rcases hg.anchored y ((hkept y).mp hy).1 x hpy with hx | hx
      · exact Or.inl hx
      · refine Or.inr ((hkept x).mpr ⟨hx, ?_⟩)
        rintro rfl
        exact hky (hback y hy hpy)

/-- A load notification appends its library and restores the host list. -/
theorem load_inv {fuel : ℕ} {hosts loaded : List N} {info : Info N} {d : RDebug N}
    (hg : Inv hosts loaded d) (hd : ∀ x ∈ loaded, x ∉ hosts) (hf : hosts.length ≤ fuel)
    (hv : info.exe = false → info.linkmap ∉ hosts ∧ info.linkmap ∉ loaded) :
    ∃ d', notifyGdbOfLoad fuel info d = some d' ∧
      Inv hosts (loadedAfter (.load info) loaded) d' := by
  cases he : info.exe with
  | true => exact ⟨d, by simp [notifyGdbOfLoad, he], by simpa [loadedAfter, he] using hg⟩
  | false =>
    obtain ⟨hx, hl⟩ := hv he
    have hi : Inv hosts (loaded ++ [info.linkmap])
        (insertSoinfoIntoDebugMap info (rtldDbDlactivity (setState .rtAdd d))) := by
      rcases List.eq_nil_or_concat loaded with rfl | ⟨l, t, rfl⟩
      · exact insert_first (inv_states hg _) hx
      · rw [List.concat_eq_append] at hg hd hl ⊢
        simpa using insert_behind (inv_states hg _) hd hx hl
    have hd' : ∀ x ∈ loaded ++ [info.linkmap], x ∉ hosts := by
      intro x hm
      rcases List.mem_append.mp hm with h | h
      · exact hd x h
      · simpa using (List.mem_singleton.mp h) ▸ hx
    obtain ⟨d', hn, hg'⟩ := inv_libraries (inv_states hi .rtConsistent) (by simp) hd' hf
    exact ⟨d', by simpa [notifyGdbOfLoad, he] using hn, by simpa [loadedAfter, he] using hg'⟩

/-- An unload notification that spares the first library drops just its own. -/
theorem unload_inv {fuel : ℕ} {hosts loaded : List N} {info : Info N} {d : RDebug N}
    (hg : Inv hosts loaded d) (hd : ∀ x ∈ loaded, x ∉ hosts) (hf : hosts.length ≤ fuel)
    (hv : info.exe = false → info.linkmap ∈ loaded)
    (hk : info.exe = false → loaded.head? ≠ some info.linkmap) :
    ∃ d', notifyGdbOfUnload fuel info d = some d' ∧
      Inv hosts (loadedAfter (.unload info) loaded) d' := by
  cases he : info.exe with
  | true => exact ⟨d, by simp [notifyGdbOfUnload, he], by simpa [loadedAfter, he] using hg⟩
  | false =>
    obtain ⟨l, k, rfl⟩ := List.append_of_mem (hv he)
    rcases List.eq_nil_or_concat l with rfl | ⟨l, p, rfl⟩
    · exact (hk he rfl).elim
    · have hs : l.concat p ++ info.linkmap :: k = l ++ p :: info.linkmap :: k := by simp
      rw [hs] at hg hd ⊢
      have hi := remove_interior (inv_states hg .rtDelete) hd
      obtain ⟨hne, hkept⟩ := remove_kept (chain_nodup hg.libList)
      have hd' : ∀ x ∈ l ++ p :: k, x ∉ hosts := fun x hx => hd x ((hkept x).mp hx).1
      obtain ⟨d', hn, hg'⟩ := inv_libraries (inv_states hi .rtConsistent) (by simp) hd' hf
      refine ⟨d', by simpa [notifyGdbOfUnload, he] using hn, ?_⟩
      have herase : (l ++ p :: info.linkmap :: k).erase info.linkmap = l ++ p :: k := by
        have hl : info.linkmap ∉ l ++ [p] := by
          intro h
          exact ((hkept info.linkmap).mp (by simp at h ⊢; tauto)).2 rfl
        have := List.erase_append_right (info.linkmap :: k) hl
        simpa using this
      simpa [loadedAfter, he, herase] using hg'

theorem libraries_head {fuel : ℕ} {d d' : RDebug N}
    (h : notifyGdbOfLibraries fuel d = some d') : d'.head = d.head := by
  simp only [notifyGdbOfLibraries, Option.bind_eq_bind, Option.bind_eq_some_iff] at h
  obtain ⟨t, -, h, hh, h'⟩ := h
  cases h'
  rfl

theorem unload_head {fuel : ℕ} {info : Info N} {d d' : RDebug N}
    (h : notifyGdbOfUnload fuel info d = some d') : d'.head = d.head := by
  unfold notifyGdbOfUnload at h
  split_ifs at h with he
  · cases h; rfl
  · exact (libraries_head h).trans rfl

theorem unload_first_breaks {fuel : ℕ} {hosts k : List N} {info : Info N} {d d' : RDebug N}
    (hg : Good hosts (info.linkmap :: k) d) (h : notifyGdbOfUnload fuel info d = some d') :
    ¬ Good hosts k d' := by
  intro hg'
  have hh : k.head? = some info.linkmap := by
    rw [← chain_head hg'.libList, unload_head h, chain_head hg.libList]
    rfl
  exact (List.nodup_cons.mp (chain_nodup hg.libList)).1 (List.mem_of_mem_head? hh)

theorem valid_disjoint {hosts loaded : List N} {op : Op N} {ops : List (Op N)}
    (hv : Valid hosts (op :: ops) loaded) (hd : ∀ x ∈ loaded, x ∉ hosts) :
    Valid hosts ops (loadedAfter op loaded) ∧ ∀ x ∈ loadedAfter op loaded, x ∉ hosts := by
  cases op with
  | load info =>
    refine ⟨hv.2, fun x hx => ?_⟩
    simp only [loadedAfter] at hx
    split_ifs at hx with he
    · exact hd x hx
    · rcases List.mem_append.mp hx with h | h
      · exact hd x h
      · exact List.mem_singleton.mp h ▸ (hv.1 (by simpa using he)).1
  | unload info =>
    refine ⟨hv.2, fun x hx => ?_⟩
    simp only [loadedAfter] at hx
    split_ifs at hx with he
    · exact hd x hx
    · exact hd x (List.mem_of_mem_erase hx)

theorem allGood_of_keepsHead {fuel : ℕ} {hosts : List N} (hf : hosts.length ≤ fuel)
    {ops : List (Op N)} {loaded : List N} {d : RDebug N} (hg : Inv hosts loaded d)
    (hd : ∀ x ∈ loaded, x ∉ hosts) (hv : Valid hosts ops loaded) (hk : KeepsHead ops loaded) :
    AllGood fuel hosts ops d loaded := by
  induction ops generalizing d loaded with
  | nil => trivial
  | cons op ops ih =>
    obtain ⟨hv', hd'⟩ := valid_disjoint hv hd
    cases op with
    | load info =>
      obtain ⟨d', hn, hg'⟩ := load_inv hg hd hf hv.1
      exact ⟨d', hn, hg'.toGood, ih hg' hd' hv' hk⟩
    | unload info =>
      obtain ⟨d', hn, hg'⟩ := unload_inv hg hd hf hv.1 hk.1
      exact ⟨d', hn, hg'.toGood, ih hg' hd' hv' hk.2⟩

theorem keepsHead_of_allGood {fuel : ℕ} {hosts : List N} {ops : List (Op N)}
    {loaded : List N} {d : RDebug N} (hg : Good hosts loaded d)
    (ha : AllGood fuel hosts ops d loaded) : KeepsHead ops loaded := by
  induction ops generalizing d loaded with
  | nil => trivial
  | cons op ops ih =>
    obtain ⟨d', hn, hg', ha'⟩ := ha
    cases op with
    | load info => exact ih hg' ha'
    | unload info =>
      refine ⟨fun he hh => ?_, ih hg' ha'⟩
      cases loaded with
      | nil => simp at hh
      | cons x k =>
        cases Option.some.inj hh
        exact unload_first_breaks hg hn (by simpa [loadedAfter, he] using hg')

/-- Starting from any host list and no library, a run of notifications leaves
both lists as they should be after every call exactly when no unload hits the
first of the loaded libraries. Its removal never moves `apkenv_r_debug_head`. -/
theorem allGood_iff_keepsHead {fuel : ℕ} {hosts : List N} {ops : List (Op N)} {d : RDebug N}
    (hf : hosts.length ≤ fuel) (hc : Chain (next d.heap) (some d.r_map) hosts)
    (hh : d.head = none) (ht : d.tail = none) (hv : Valid hosts ops []) :
    AllGood fuel hosts ops d [] ↔ KeepsHead ops [] := by
  have hg : Inv hosts [] d := ⟨⟨hc, hh, ht, by simp⟩, by simp⟩
  exact ⟨keepsHead_of_allGood hg.toGood, allGood_of_keepsHead hf hg (by simp) hv⟩

def start : RDebug ℕ where
  heap _ := ⟨0, [], 0, none, none⟩
  r_map := 0
  r_state := .rtConsistent
  activity := []
  head := none
  tail := none

def library (n : ℕ) : Info ℕ := ⟨n, 0, [], 0, false⟩

theorem start_hosts : Chain (next start.heap) (some start.r_map) [0] := ⟨rfl, rfl⟩

/-- Two libraries, the second unloaded, the freed node loaded again. -/
theorem allGood_second_reloaded :
    AllGood 1 [0] [.load (library 1), .load (library 2), .unload (library 2),
      .load (library 2)] start [] :=
  (allGood_iff_keepsHead (by decide) start_hosts rfl rfl
    (by simp [Valid, library, loadedAfter])).mpr (by simp [KeepsHead, library, loadedAfter])

/-- Unloading the first of two libraries leaves the second on the host's list. -/
theorem first_unload_corrupts :
    Valid [0] [.load (library 1), .load (library 2), .unload (library 1)] [] ∧
      ¬ AllGood 8 [0] [.load (library 1), .load (library 2), .unload (library 1)] start [] ∧
      (((notify 8 (.load (library 1)) start).bind (notify 8 (.load (library 2)))).bind
        (notify 8 (.unload (library 1)))).map (fun d => next d.heap 0) = some (some 2) := by
  refine ⟨by simp [Valid, library, loadedAfter], fun ha => ?_, by decide +kernel⟩
  have hg : Good [0] [] start := ⟨start_hosts, rfl, rfl, by simp⟩
  have hk := keepsHead_of_allGood hg ha
  simp [KeepsHead, library, loadedAfter] at hk

end Bionic.DebugMap
