import BionicTranslation.Dlfcn
import BionicTranslation.LookupAgree

/-!
# The scope of a library that is linked

`apkenv__do_lookup` with everything it walks: the library, the preloads, what its
DT_NEEDED entries point at and the main program. One `struct symbol_name` goes through
all lookups, and one variable says where the last of them looked.
-/

set_option autoImplicit false

namespace Bionic.LookupScopes
open Bionic.Bytes Bionic.Slots Bionic.Records Bionic.Linker Bionic.Elf Bionic.Loops
open Bionic.SymbolLookup Bionic.HashSections Bionic.LookupAgree Bionic.Dlfcn

variable {c : ElfClass}

structure SymbolName where
  name : Name
  has_sysv_hash : Bool := false
  sysv_hash : BitVec 32 := 0
  has_gnu_hash : Bool := false
  gnu_hash : BitVec 32 := 0

namespace SymbolName

def sysvHash (sn : SymbolName) : BitVec 32 × SymbolName :=
  let sn := if !sn.has_sysv_hash then { sn with sysv_hash := sysvhash sn.name } else sn
  (sn.sysv_hash, sn)

def gnuHash (sn : SymbolName) : BitVec 32 × SymbolName :=
  let sn := if !sn.has_gnu_hash then { sn with gnu_hash := gnuhash sn.name } else sn
  (sn.gnu_hash, sn)

structure Valid (sn : SymbolName) : Prop where
  sysv : sn.has_sysv_hash = true → sn.sysv_hash = sysvhash sn.name
  gnu : sn.has_gnu_hash = true → sn.gnu_hash = gnuhash sn.name

theorem sysvHash_spec {sn : SymbolName} (h : sn.Valid) :
    sn.sysvHash.1 = sysvhash sn.name ∧ sn.sysvHash.2.Valid ∧ sn.sysvHash.2.name = sn.name := by
  cases hs : sn.has_sysv_hash with
  | true =>
    rw [sysvHash, hs]
    exact ⟨h.sysv hs, h, rfl⟩
  | false =>
    rw [sysvHash, hs]
    exact ⟨rfl, ⟨fun _ => rfl, h.gnu⟩, rfl⟩

theorem gnuHash_spec {sn : SymbolName} (h : sn.Valid) :
    sn.gnuHash.1 = gnuhash sn.name ∧ sn.gnuHash.2.Valid ∧ sn.gnuHash.2.name = sn.name := by
  cases hs : sn.has_gnu_hash with
  | true =>
    rw [gnuHash, hs]
    exact ⟨h.gnu hs, h, rfl⟩
  | false =>
    rw [gnuHash, hs]
    exact ⟨rfl, ⟨h.sysv, fun _ => rfl⟩, rfl⟩

end SymbolName

structure Lib (c : ElfClass) where
  name : Name
  base : Addr c
  reads : Reads c
  table : HashTable c

namespace Lib

def elfLookupSysv (l : Lib c) (fuel : ℕ) (sn : SymbolName) : Lookup c × SymbolName :=
  let hash := sn.sysvHash
  (if l.table.nbucket = 0 then ([], some .divByZero) else
    ofRun [(l.table.bucketAt hash.1, 4)]
      (run (sysvPass l.reads l.table sn.name) fuel (l.reads.u32 (l.table.bucketAt hash.1))),
    hash.2)

def gnuPass (l : Lib c) (name : Name) (hash : BitVec 32) :
    Body (BitVec 32) (Field c) (Option (Addr c)) := fun n =>
  let fits : Bool := (l.reads.u32 (l.table.chainAt n) ^^^ hash) >>> 1 = 0
  let reads := (l.table.chainAt n, 4) :: if fits then [(l.table.symAt n, symSize c)] else []
  if fits && isNamed l.reads l.table name n then (reads, .inr (some (l.table.symAt n)))
  else (reads, if l.reads.u32 (l.table.chainAt n) &&& 1 = 0 then .inl (n + 1) else .inr none)

def elfLookupGnu (l : Lib c) (fuel : ℕ) (sn : SymbolName) : Lookup c × SymbolName :=
  let hash := sn.gnuHash
  let bloom := (l.table.bloomAt hash.1, c.wordsize)
  let bucket := (l.table.bucketAt hash.1, 4)
  (if l.table.nbucket = 0 then ([bloom], some .divByZero)
  else if !bloomTest l.reads l.table hash.1 then ([bloom], some (.returned none))
  else
    let n := l.reads.u32 (l.table.bucketAt hash.1)
    if n = 0 then ([bloom, bucket], some (.returned none))
    else ofRun [bloom, bucket] (run (l.gnuPass sn.name hash.1) fuel n),
    hash.2)

def elfLookup (l : Lib c) (fuel : ℕ) (sn : SymbolName) : Lookup c × SymbolName :=
  if l.table.gnuHash then l.elfLookupGnu fuel sn else l.elfLookupSysv fuel sn

theorem elfLookup_spec (l : Lib c) (fuel : ℕ) {sn : SymbolName} (h : sn.Valid) :
    (l.elfLookup fuel sn).1 = SymbolLookup.elfLookup l.reads l.table fuel sn.name ∧
      (l.elfLookup fuel sn).2.Valid ∧ (l.elfLookup fuel sn).2.name = sn.name := by
  rw [elfLookup, SymbolLookup.elfLookup]
  split_ifs with hg
  · obtain ⟨hhash, hspec⟩ := SymbolName.gnuHash_spec h
    refine ⟨?_, hspec⟩
    rw [elfLookupGnu, hhash]
    rfl
  · obtain ⟨hhash, hspec⟩ := SymbolName.sysvHash_spec h
    refine ⟨?_, hspec⟩
    rw [elfLookupSysv, hhash]
    rfl

end Lib

def ended : Option (Ended c) → Except LookupFault (Option (Addr c))
  | some (.returned r) => .ok r
  | some .divByZero => .error .divByZero
  | none => .error .fuel

structure Locals (c : ElfClass) where
  s : Option (Addr c)
  lsi : So
  symbol_name : SymbolName

/-- `*base`, the returned pointer and `apkenv_last_library_used`. -/
@[ext]
structure Found (c : ElfClass) where
  s : Addr c
  base : Addr c
  last_library_used : Name

def validateSoinfo : DVal → Option So
  | .val _ => none
  | .so si => some si

section source
variable (lib : So → Lib c) (fuel : ℕ)

def lookIn (lsi : So) (sn : SymbolName) : Except LookupFault (Locals c) :=
  (ended ((lib lsi).elfLookup fuel sn).1.2).map fun s =>
    ⟨s, lsi, ((lib lsi).elfLookup fuel sn).2⟩

def preloadLoop : List So → Locals c → Except LookupFault (Locals c × Bool)
  | [], l => .ok (l, false)
  | lsi :: rest, l => (lookIn lib fuel lsi l.symbol_name).bind fun l =>
    if l.s.isSome then .ok (l, true) else preloadLoop rest l

def neededLoop : List Dyn → Locals c → Except LookupFault (Option (Locals c × Bool))
  | [], l => .ok (some (l, false))
  | d :: ds, l =>
    if d.d_tag = .needed then
      (validateSoinfo d.d_un).elim (.ok none) fun lsi =>
        (lookIn lib fuel lsi l.symbol_name).bind fun l =>
          if l.s.any fun p => ((lib lsi).reads.sym p).st_shndx ≠ shnUndef then
            .ok (some (l, true))
          else neededLoop ds l
    else neededLoop ds l

variable (preloads : List So) (somain : Option So)

def search (si : So) (dynamic : List Dyn) (name : Name) :
    Except LookupFault (Option (Locals c)) :=
  (lookIn lib fuel si { name }).bind fun l =>
    if l.s.isSome then .ok (some l) else
      (preloadLoop lib fuel preloads l).bind fun r =>
        if r.2 then .ok (some r.1) else
          (neededLoop lib fuel dynamic r.1).bind fun r => r.elim (.ok none) fun r =>
            if r.2 then .ok (some r.1) else
              somain.elim (.ok (some r.1)) fun lsi =>
                (lookIn lib fuel lsi r.1.symbol_name).bind fun l => .ok (some l)

def finish (l : Locals c) : Option (Found c) :=
  l.s.map fun s => ⟨s, (lib l.lsi).base, (lib l.lsi).name⟩

def doLookup (si : So) (dynamic : List Dyn) (name : Name) :
    Except LookupFault (Option (Found c)) :=
  (search lib fuel preloads somain si dynamic name).map fun l => l.bind (finish lib)

end source

def ValidPayloads (dynamic : List Dyn) : Prop :=
  ∀ d ∈ dynamic, d.d_tag = .needed → (validateSoinfo d.d_un).isSome

def needed (dynamic : List Dyn) : List So :=
  (dynamic.filter fun d => d.d_tag = .needed).filterMap fun d => validateSoinfo d.d_un

def scope (preloads : List So) (somain : Option So) (si : So) (dynamic : List Dyn) : List So :=
  si :: (preloads ++ (needed dynamic ++ somain.toList))

def firstIn (lib : So → Lib c) (fuel : ℕ) (name : Name) :
    List So → Except LookupFault (Option (Found c))
  | [] => .ok none
  | x :: rest =>
    (ended (elfLookup (lib x).reads (lib x).table fuel name).2).bind fun s =>
      s.elim (firstIn lib fuel name rest) fun s => .ok (some ⟨s, (lib x).base, (lib x).name⟩)

section walk
variable {lib : So → Lib c} {fuel : ℕ} {name : Name} {rd : Reads c} {t : HashTable c}

theorem sysvPass_some {n : BitVec 32} {p : Addr c}
    (h : (sysvPass rd t name n).2 = .inr (some p)) :
    isNamed rd t name n = true ∧ p = t.symAt n := by
  rw [sysvPass] at h
  split_ifs at h with h0 hn
  · cases h
  · exact ⟨hn, (Option.some.inj (Sum.inr.inj h)).symm⟩

theorem gnuPass_some {n : BitVec 32} {p : Addr c}
    (h : (SymbolLookup.gnuPass rd t name n).2 = .inr (some p)) :
    isNamed rd t name n = true ∧ p = t.symAt n := by
  cases hd : hashFits rd t name n && isNamed rd t name n with
  | true =>
    rw [gnuPass_found hd] at h
    exact ⟨(Bool.and_eq_true_iff.mp hd).2, (Option.some.inj (Sum.inr.inj h)).symm⟩
  | false =>
    have hnot : ¬ (hashFits rd t name n && isNamed rd t name n) = true := by
      rw [hd]
      exact Bool.false_ne_true
    cases hs : (rd.u32 (t.chainAt n)).getLsbD 0 with
    | true => rw [gnuPass_stop hnot hs] at h; cases h
    | false => rw [gnuPass_next hnot hs] at h; cases h

theorem isNamed_defined {n : BitVec 32} (h : isNamed rd t name n = true) :
    (rd.sym (t.symAt n)).st_shndx ≠ shnUndef := by
  have hglobal : isSymbolGlobalAndDefined (rd.sym (t.symAt n)) = true := by
    simp only [isNamed, Bool.and_eq_true] at h
    exact h.2
  exact ((isSymbolGlobalAndDefined_iff _).mp hglobal).2

theorem run_some {body : Body (BitVec 32) (Field c) (Option (Addr c))} {n : BitVec 32} {p : Addr c}
    (h : (run body fuel n).2 = some (some p)) : ∃ m, (body m).2 = .inr (some p) := by
  obtain ⟨ss, hss, -⟩ := passes_of_run (Prod.ext rfl h)
  obtain ⟨m, -, hm⟩ := hss.ended
  exact ⟨m, hm⟩

theorem elfLookup_defined {p : Addr c}
    (h : (elfLookup rd t fuel name).2 = some (.returned (some p))) :
    (rd.sym p).st_shndx ≠ shnUndef := by
  have hpass {body : Body (BitVec 32) (Field c) (Option (Addr c))} {before : List (Field c)}
      {n : BitVec 32} (hr : (ofRun before (run body fuel n)).2 = some (.returned (some p))) :
      ∃ m, (body m).2 = .inr (some p) := by
    obtain ⟨r, hrun, hp⟩ := Option.map_eq_some_iff.mp hr
    cases hp
    exact run_some hrun
  rw [elfLookup] at h
  split_ifs at h
  · rw [elfLookupGnu] at h
    split_ifs at h
    · cases h
    · cases h
    · simp only at h
      split_ifs at h
      · cases h
      · obtain ⟨m, hm⟩ := hpass h
        obtain ⟨hnamed, rfl⟩ := gnuPass_some hm
        exact isNamed_defined hnamed
  · rw [elfLookupSysv] at h
    split_ifs at h
    · cases h
    · obtain ⟨m, hm⟩ := hpass h
      obtain ⟨hnamed, rfl⟩ := sysvPass_some hm
      exact isNamed_defined hnamed

theorem ended_some {o : Option (Ended c)} {p : Addr c} (h : ended o = .ok (some p)) :
    o = some (.returned (some p)) := by
  rcases o with - | ⟨r⟩ | -
  · cases h
  · cases h
    rfl
  · cases h

structure Ready (name : Name) (l : Locals c) : Prop where
  s : l.s = none
  valid : l.symbol_name.Valid
  named : l.symbol_name.name = name

def outcome (lib : So → Lib c) (o : Option (Locals c)) : Option (Found c) := o.bind (finish lib)

theorem lookIn_first {x : So} {ys : List So} {sn : SymbolName}
    {rest : Locals c → Except LookupFault (Option (Locals c))} (hv : sn.Valid) (hn : sn.name = name)
    (hfound : ∀ p sn, ((lib x).reads.sym p).st_shndx ≠ shnUndef →
      rest ⟨some p, x, sn⟩ = .ok (some ⟨some p, x, sn⟩))
    (hnone : ∀ l, Ready name l → (rest l).map (outcome lib) = firstIn lib fuel name ys) :
    ((lookIn lib fuel x sn).bind rest).map (outcome lib) = firstIn lib fuel name (x :: ys) := by
  obtain ⟨hrun, hv', hn'⟩ := (lib x).elfLookup_spec fuel hv
  rw [hn] at hrun hn'
  rw [lookIn, hrun, firstIn]
  cases he : ended (elfLookup (lib x).reads (lib x).table fuel name).2 with
  | error e => rfl
  | ok s =>
    cases s with
    | none => exact hnone ⟨none, x, _⟩ ⟨rfl, hv', hn'⟩
    | some p =>
      have hdefined := elfLookup_defined (ended_some he)
      show (rest ⟨some p, x, _⟩).map (outcome lib) = _
      rw [hfound p _ hdefined]
      rfl

theorem except_bind_assoc {ε α β γ : Type} (m : Except ε α) (f : α → Except ε β)
    (g : β → Except ε γ) : (m.bind f).bind g = m.bind fun a => (f a).bind g :=
  bind_assoc m f g

theorem preloadLoop_first {ys : List So}
    {rest : Locals c → Except LookupFault (Option (Locals c))}
    (hrest : ∀ l, Ready name l → (rest l).map (outcome lib) = firstIn lib fuel name ys)
    (xs : List So) {l : Locals c} (hl : Ready name l) :
    ((preloadLoop lib fuel xs l).bind fun r => if r.2 then .ok (some r.1) else rest r.1).map
      (outcome lib) = firstIn lib fuel name (xs ++ ys) := by
  induction xs generalizing l with
  | nil => exact hrest l hl
  | cons x xs ih =>
    rw [preloadLoop, except_bind_assoc]
    exact lookIn_first hl.valid hl.named (fun p sn _ => rfl) fun l hl => by
      rw [hl.s]
      exact ih hl

/-- The induction is on the entries; those with another tag are passed over. -/
theorem neededLoop_first {ys : List So}
    {rest : Locals c → Except LookupFault (Option (Locals c))}
    (hrest : ∀ l, Ready name l → (rest l).map (outcome lib) = firstIn lib fuel name ys)
    {ds : List Dyn} (hds : ValidPayloads ds) {l : Locals c} (hl : Ready name l) :
    ((neededLoop lib fuel ds l).bind fun r => r.elim (.ok none) fun r =>
      if r.2 then .ok (some r.1) else rest r.1).map (outcome lib) =
        firstIn lib fuel name (needed ds ++ ys) := by
  induction ds generalizing l with
  | nil => exact hrest l hl
  | cons d ds ih =>
    have ih := fun {l} => ih (l := l) fun d hd => hds d (List.mem_cons_of_mem _ hd)
    rw [neededLoop]
    by_cases htag : d.d_tag = .needed
    · obtain ⟨lsi, hlsi⟩ := Option.isSome_iff_exists.mp (hds d List.mem_cons_self htag)
      have hneeded : needed (d :: ds) = lsi :: needed ds := by simp [needed, htag, hlsi]
      rw [if_pos htag, hlsi, Option.elim_some, except_bind_assoc, hneeded]
      refine lookIn_first hl.valid hl.named (fun p sn hp => ?_) fun l hl => ?_
      · simp [hp, Except.bind]
      · rw [hl.s]
        exact ih hl
    · have hneeded : needed (d :: ds) = needed ds := by simp [needed, htag]
      rw [if_neg htag, hneeded]
      exact ih hl

theorem doLookup_eq {preloads : List So} {somain : Option So} {si : So} {dynamic : List Dyn}
    (hd : ValidPayloads dynamic) (lib : So → Lib c) (fuel : ℕ) (name : Name) :
    doLookup lib fuel preloads somain si dynamic name =
      firstIn lib fuel name (scope preloads somain si dynamic) := by
  show (search lib fuel preloads somain si dynamic name).map (outcome lib) = _
  have hnothing (l : Locals c) (hl : Ready name l) :
      (Except.ok (ε := LookupFault) (some l)).map (outcome lib) = firstIn lib fuel name [] := by
    simp [Except.map, outcome, finish, hl.s, firstIn]
  have hmain (l : Locals c) (hl : Ready name l) :
      (somain.elim (.ok (some l)) fun lsi => (lookIn lib fuel lsi l.symbol_name).bind fun l =>
        .ok (some l)).map (outcome lib) = firstIn lib fuel name somain.toList := by
    cases somain with
    | none => exact hnothing l hl
    | some m => exact lookIn_first hl.valid hl.named (fun _ _ _ => rfl) hnothing
  have hneeded (l : Locals c) (hl : Ready name l) := neededLoop_first hmain hd hl
  rw [search, scope]
  refine lookIn_first ⟨nofun, nofun⟩ rfl (fun p sn _ => rfl) fun l hl => ?_
  rw [hl.s]
  exact preloadLoop_first hneeded preloads hl

end walk

/-- The library has a symbol table that its hash table, of either kind, is over. -/
inductive Indexed (l : Lib c) (T : SymTable c) : Prop
  | sysv (symtab a : Addr c) (hT : T.Holds l.reads symtab) (hS : (sysvSection l.reads a).Over T)
      (ht : l.table = sysvTable l.reads symtab a)
  | gnu (symtab a : Addr c) (hT : T.Holds l.reads symtab) (hG : (gnuSection l.reads a).Over T)
      (ht : l.table = gnuTable l.reads symtab a)

def FirstDefinition (lib : So → Lib c) (T : So → SymTable c) (name : Name) (xs : List So)
    (r : Found c) : Prop :=
  ∃ before x after n, xs = before ++ x :: after ∧
    (∀ y ∈ before, ∀ m, ¬ (T y).Defines name m) ∧ (T x).Defines name n ∧
    r = ⟨nth (lib x).table.symtab (symSize c) n, (lib x).base, (lib x).name⟩

section definitions
variable {lib : So → Lib c} {T : So → SymTable c} {name : Name}

theorem indexed_lookup {l : Lib c} {S : SymTable c} (h : Indexed l S) (name : Name) :
    ∃ r k, S.Answer l.table.symtab name r ∧ ∀ fuel, k ≤ fuel →
      ended (elfLookup l.reads l.table fuel name).2 = .ok r := by
  cases h with
  | sysv symtab a hT hS ht =>
    obtain ⟨r, k, hr, hk⟩ := lookup_sysv hT hS name
    rw [ht]
    refine ⟨r, k, hr, fun fuel hf => ?_⟩
    show ended (SymbolLookup.elfLookupSysv _ _ _ _).2 = _
    rw [hk fuel hf]
    rfl
  | gnu symtab a hT hG ht =>
    obtain ⟨r, k, hr, hk⟩ := lookup_gnu hT hG name
    rw [ht]
    refine ⟨r, k, hr, fun fuel hf => ?_⟩
    show ended (SymbolLookup.elfLookupGnu _ _ _ _).2 = _
    rw [hk fuel hf]
    rfl

structure Right (lib : So → Lib c) (T : So → SymTable c) (name : Name) (xs : List So)
    (o : Option (Found c)) : Prop where
  first : ∀ r, o = some r ↔ FirstDefinition lib T name xs r
  none : o = none ↔ ∀ x ∈ xs, ∀ n, ¬ (T x).Defines name n

theorem right_skip {x : So} {xs : List So} {o : Option (Found c)}
    (hx : ∀ n, ¬ (T x).Defines name n) (h : Right lib T name xs o) :
    Right lib T name (x :: xs) o where
  first := by
    intro r
    rw [h.first]
    constructor
    · rintro ⟨before, y, after, n, rfl, hbefore, hrest⟩
      exact ⟨x :: before, y, after, n, rfl, List.forall_mem_cons.mpr ⟨hx, hbefore⟩, hrest⟩
    · rintro ⟨before, y, after, n, heq, hbefore, hn, hr⟩
      cases before with
      | nil =>
        obtain ⟨rfl, rfl⟩ := List.cons.inj heq
        exact absurd hn (hx n)
      | cons z before =>
        obtain ⟨rfl, rfl⟩ := List.cons.inj heq
        exact ⟨before, y, after, n, rfl, (List.forall_mem_cons.mp hbefore).2, hn, hr⟩
  none := by
    rw [h.none, List.forall_mem_cons]
    exact (and_iff_right hx).symm

theorem right_found {x : So} {xs : List So} {n : ℕ} (hn : (T x).Defines name n) :
    Right lib T name (x :: xs)
      (some ⟨nth (lib x).table.symtab (symSize c) n, (lib x).base, (lib x).name⟩) where
  first := by
    intro r
    constructor
    · intro hr
      exact ⟨[], x, xs, n, rfl, List.forall_mem_nil _, hn, (Option.some.inj hr).symm⟩
    · rintro ⟨before, y, after, m, heq, hbefore, hm, rfl⟩
      cases before with
      | nil =>
        obtain ⟨rfl, rfl⟩ := List.cons.inj heq
        rw [hn.unique hm]
      | cons z before =>
        obtain ⟨rfl, rfl⟩ := List.cons.inj heq
        exact absurd hn (hbefore x List.mem_cons_self n)
  none := iff_of_false nofun fun h => h x List.mem_cons_self n hn

theorem firstIn_right (name : Name) {xs : List So} (h : ∀ x ∈ xs, Indexed (lib x) (T x)) :
    ∃ o k, Right lib T name xs o ∧ ∀ fuel, k ≤ fuel → firstIn lib fuel name xs = .ok o := by
  induction xs with
  | nil =>
    refine ⟨none, 0, ⟨fun r => ⟨nofun, ?_⟩, ?_⟩, fun fuel _ => rfl⟩
    · rintro ⟨before, x, after, n, heq, -⟩
      exact absurd heq (List.append_ne_nil_of_right_ne_nil _ (List.cons_ne_nil x after)).symm
    · simp
  | cons x xs ih =>
    obtain ⟨r, k, hr, hk⟩ := indexed_lookup (h x List.mem_cons_self) name
    cases r with
    | none =>
      obtain ⟨o, j, ho, hj⟩ := ih fun y hy => h y (List.mem_cons_of_mem _ hy)
      have hno (n : ℕ) (hn : (T x).Defines name n) : False :=
        Option.some_ne_none _ ((hr _).mpr ⟨n, hn, rfl⟩).symm
      refine ⟨o, max k j, right_skip hno ho, fun fuel hf => ?_⟩
      rw [firstIn, hk fuel ((Nat.le_max_left _ _).trans hf)]
      exact hj fuel ((Nat.le_max_right _ _).trans hf)
    | some p =>
      obtain ⟨n, hn, rfl⟩ := (hr p).mp rfl
      refine ⟨_, k, right_found hn, fun fuel hf => ?_⟩
      rw [firstIn, hk fuel hf]
      rfl

/-- For every table, and where the scope is indexed for every name. -/
theorem do_lookup_first (preloads : List So) (somain : Option So) (si : So) {dynamic : List Dyn}
    (hd : ValidPayloads dynamic) (lib : So → Lib c) (name : Name) :
    (∀ fuel, doLookup lib fuel preloads somain si dynamic name =
      firstIn lib fuel name (scope preloads somain si dynamic)) ∧
    ∀ T : So → SymTable c, (∀ x ∈ scope preloads somain si dynamic, Indexed (lib x) (T x)) →
      ∃ o k, Right lib T name (scope preloads somain si dynamic) o ∧
        ∀ fuel, k ≤ fuel → doLookup lib fuel preloads somain si dynamic name = .ok o := by
  refine ⟨fun fuel => doLookup_eq hd lib fuel name, fun T hT => ?_⟩
  obtain ⟨o, k, ho, hk⟩ := firstIn_right name hT
  exact ⟨o, k, ho, fun fuel hf => (doLookup_eq hd lib fuel name).trans (hk fuel hf)⟩

end definitions

def emptySymbols : SymTable .elf64 where
  nsyms := 1
  sym _ := ⟨[], 0, 0, shnUndef, 0, 0⟩
  nsyms_le := by decide
  distinct n m hn hm _ _ _ := (Nat.lt_one_iff.mp hn).trans (Nat.lt_one_iff.mp hm).symm

def emptyImage : Reads .elf64 where
  u32 a := if a = 0x100 then 1 else 0
  word _ := 0
  sym _ := ⟨[], 0, 0, shnUndef, 0, 0⟩

def twoLibs : So → Lib .elf64
  | .libdl => ⟨['l'], 0x10000, emptyImage, sysvTable emptyImage 0x400 0x100⟩
  | .pool _ => ⟨['m'], 0x20000, sampleImage, gnuTable sampleImage 0x400 0x200⟩

def twoTables : So → SymTable .elf64
  | .libdl => emptySymbols
  | .pool _ => sampleSymbols

theorem empty_sysv : (sysvSection emptyImage 0x100).Over emptySymbols where
  nbucket_pos := by decide
  visits := by
    intro i hi
    obtain rfl : i = 0 := Nat.lt_one_iff.mp hi
    refine ⟨[], .done, by decide, fun n hn hexp => ?_⟩
    exact absurd hexp fun h => h.2 rfl

theorem twoLibs_indexed (x : So) : Indexed (twoLibs x) (twoTables x) := by
  cases x with
  | libdl => exact .sysv 0x400 0x100 (fun _ _ => rfl) empty_sysv rfl
  | pool i => exact .gnu 0x400 0x200 sample_tables.symbols sample_gnu rfl

/-- The symbol and the base are those of the needed library. -/
theorem needed_definition_found : ∃ k, ∀ fuel, k ≤ fuel →
    doLookup twoLibs fuel [] none .libdl [⟨.needed, .so (.pool FindSound.firstSlot)⟩] ['b'] =
      .ok (some ⟨0x430, 0x20000, ['m']⟩) := by
  have hd : ValidPayloads [⟨.needed, .so (.pool FindSound.firstSlot)⟩] := by
    intro d h _
    rw [List.mem_singleton.mp h]
    rfl
  obtain ⟨o, k, ho, hk⟩ := (do_lookup_first [] none .libdl hd twoLibs ['b']).2 twoTables
    fun x _ => twoLibs_indexed x
  have hfirst := (ho.first ⟨0x430, 0x20000, ['m']⟩).mpr
    ⟨[.libdl], .pool FindSound.firstSlot, [], 2, rfl, fun y hy m hm => ?_, ?_, rfl⟩
  · exact ⟨k, fun fuel hf => (hk fuel hf).trans (congrArg Except.ok hfirst)⟩
  · rw [List.mem_singleton.mp hy] at hm
    exact hm.2.1.2 rfl
  · show sampleSymbols.Defines ['b'] 2
    decide

section linker
variable {h : Host} {fuel : ℕ} {L : State} {name : Name}

def soLib (h : Host) (L : State) (x : So) : Lib .elf64 where
  name := (L.info x).name
  base := soBase L x
  reads := soReads h L x
  table := soTable L x

def symbolOf (h : Host) (L : State) (l : Locals .elf64) : Option (Sym .elf64 × So) :=
  l.s.map fun p => ((soReads h L l.lsi).sym p, l.lsi)

theorem lookupInLibrary_eq (si : So) : lookupInLibrary h fuel L si name =
    (ended (elfLookup (soReads h L si) (soTable L si) fuel name).2).map
      (Option.map (soReads h L si).sym) := by
  rw [lookupInLibrary]
  rcases (elfLookup (soReads h L si) (soTable L si) fuel name).2 with - | ⟨r⟩ | - <;> rfl

theorem lookupNeeded_eq (fuel : ℕ) (ds : List Dyn) {l : Locals .elf64} (hv : l.symbol_name.Valid)
    (hn : l.symbol_name.name = name) : lookupNeeded h fuel L name (symbolOf h L l) ds =
      (neededLoop (soLib h L) fuel ds l).map fun o => o.bind fun r => symbolOf h L r.1 := by
  induction ds generalizing l with
  | nil => rfl
  | cons d ds ih =>
    obtain ⟨tag, un⟩ := d
    by_cases htag : tag = .needed
    · subst htag
      cases un with
      | val n => rfl
      | so lsi =>
        obtain ⟨hrun, hv', hn'⟩ := (soLib h L lsi).elfLookup_spec fuel hv
        rw [hn] at hrun hn'
        rw [lookupNeeded, lookupInLibrary_eq, neededLoop, if_pos rfl, validateSoinfo,
          Option.elim_some, lookIn, hrun]
        show _ = Except.map _ (((ended (elfLookup (soReads h L lsi) (soTable L lsi) fuel
          name).2).map _).bind _)
        cases ended (elfLookup (soReads h L lsi) (soTable L lsi) fuel name).2 with
        | error e => rfl
        | ok s =>
          cases s with
          | none => exact ih (l := ⟨none, lsi, _⟩) hv' hn'
          | some p =>
            have hnext := ih (l := ⟨some p, lsi, _⟩) hv' hn'
            by_cases hu : ((soReads h L lsi).sym p).st_shndx = shnUndef
            · simpa [Except.map, Except.bind, bind, hu, soLib, symbolOf] using hnext
            · simp [Except.map, Except.bind, bind, hu, soLib, symbolOf, pure, Except.pure]
    · rw [neededLoop, if_neg htag, ← ih hv hn]
      cases tag with
      | needed => exact absurd rfl htag
      | _ => rfl

/-- There are neither preloads nor a main program in a state of the linker. -/
theorem doLookup_state {si : So} {ds : List Dyn} (hds : (L.info si).dynamic = .found ds)
    (name : Name) : Dlfcn.doLookup h fuel L si name =
      (search (soLib h L) fuel [] none si ds name).map fun o =>
        (o.bind (symbolOf h L)).map fun p => (p.1, soBase L p.2) := by
  have hfresh : SymbolName.Valid { name } := ⟨nofun, nofun⟩
  obtain ⟨hrun, hv, hn⟩ := (soLib h L si).elfLookup_spec fuel hfresh
  rw [Dlfcn.doLookup, lookupInLibrary_eq, search, lookIn, hrun, hds]
  show _ = Except.map _ (((ended (elfLookup (soReads h L si) (soTable L si) fuel
    name).2).map _).bind _)
  cases ended (elfLookup (soReads h L si) (soTable L si) fuel name).2 with
  | error e => rfl
  | ok s =>
    cases s with
    | some p => rfl
    | none =>
      have hloop := lookupNeeded_eq (h := h) (L := L) fuel ds
        (l := ⟨none, si, ((soLib h L si).elfLookup fuel { name }).2⟩) hv hn
      change lookupNeeded h fuel L name none ds = _ at hloop
      simp only [Except.map, Except.bind, bind, pure, Except.pure, Option.map_none, hloop,
        preloadLoop, Option.isSome_none, Bool.false_eq_true, if_false]
      rcases neededLoop (soLib h L) fuel ds _ with e | (- | ⟨l, done⟩)
      · rfl
      · rfl
      · cases done <;> rfl

end linker

end Bionic.LookupScopes
