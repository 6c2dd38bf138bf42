import FrankenFs.Btrfs.CowTree
import FrankenFs.Lib.OrdMap
import FrankenFs.Lib.Outcome
import Mathlib.Data.List.Induction
import Mathlib.Data.List.Pairwise
import Mathlib.Data.List.Sort

/-!
# Delayed references

References are queued by extent. A batch takes the first entries of each extent in the order of the
keys, works on a copy of the counts, and drains the queue when all of them went through.
-/

open FrankenFs.Lib

namespace FrankenFs.Btrfs

structure ExtentKey where
  bytenr : Nat
  numBytes : Nat
deriving Repr

def ExtentKey.fields (k : ExtentKey) : Nat ×ₗ Nat := toLex (k.bytenr, k.numBytes)

theorem ExtentKey.fields_injective : Function.Injective ExtentKey.fields := by
  rintro ⟨bytenr, numBytes⟩ ⟨bytenr', numBytes'⟩ h
  simpa [fields] using h

instance : LinearOrder ExtentKey := LinearOrder.lift' ExtentKey.fields ExtentKey.fields_injective

inductive BtrfsRef where
  | treeBlock (root owner offset level : Nat)
  | dataExtent (root objectid offset : Nat)
  | sharedTreeBlock (parent level : Nat)
  | sharedDataExtent (parent : Nat)
deriving DecidableEq, Repr

inductive RefAction where
  | insert
  | delete
deriving DecidableEq, Repr

structure DelayedRef where
  extent : ExtentKey
  refType : BtrfsRef
  action : RefAction
  sequence : Nat
deriving DecidableEq, Repr

structure DelayedRefQueue where
  refs : OrdMap ExtentKey (List DelayedRef)
  pendingCount : Nat
  nextSequence : Nat

def bump (n : Nat) : Nat := min (n + 1) (2 ^ 64 - 1)

namespace DelayedRefQueue

def new : DelayedRefQueue := ⟨∅, 0, 0⟩

def queue (q : DelayedRefQueue) (extent : ExtentKey) (refType : BtrfsRef) (action : RefAction) :
    DelayedRefQueue where
  refs := q.refs.alter extent fun entries =>
    some (entries.getD [] ++ [⟨extent, refType, action, q.nextSequence⟩])
  pendingCount := bump q.pendingCount
  nextSequence := bump q.nextSequence

def pendingFor (q : DelayedRefQueue) (extent : ExtentKey) : List DelayedRef :=
  (q.refs.get? extent).getD []

abbrev Refcounts := OrdMap ExtentKey Nat

def applyDelete (refcounts : Refcounts) (extent : ExtentKey) :
    Option Nat → Except BtrfsMutationError Refcounts
  | none => .error (.brokenInvariant "delayed ref delete without prior refcount")
  | some 0 => .error (.brokenInvariant "delayed ref delete underflow")
  | some (next + 1) =>
    if next = 0 then .ok (refcounts.erase extent) else .ok (refcounts.insert extent next)

def applyInsert (refcounts : Refcounts) (extent : ExtentKey) (counter : Nat) :
    Except BtrfsMutationError Refcounts :=
  if counter + 1 < 2 ^ 64 then .ok (refcounts.insert extent (counter + 1))
  else .error (.brokenInvariant "delayed ref insert overflow")

def applyRef (refcounts : Refcounts) (entry : DelayedRef) : Except BtrfsMutationError Refcounts :=
  match entry.action with
  | .insert => applyInsert refcounts entry.extent ((refcounts.get? entry.extent).getD 0)
  | .delete => applyDelete refcounts entry.extent (refcounts.get? entry.extent)

/-- A batch as far as it is put together: the counts, what it takes of which extent, and how much
that is. -/
structure Batch where
  refcounts : Refcounts
  selected : List (ExtentKey × Nat)
  flushed : Nat

def selectExtent (limit : Nat) (batch : Batch) (extent : ExtentKey) (entries : List DelayedRef) :
    Except BtrfsMutationError Batch := do
  let takeN := min (limit - batch.flushed) entries.length
  let refcounts ← (entries.take takeN).foldlM applyRef batch.refcounts
  return ⟨refcounts, batch.selected ++ [(extent, takeN)], batch.flushed + takeN⟩

def select (refs : OrdMap ExtentKey (List DelayedRef)) (limit : Nat) :
    List ExtentKey → Batch → Except BtrfsMutationError Batch
  | [], batch => .ok batch
  | extent :: extents, batch =>
    if limit ≤ batch.flushed then .ok batch
    else (refs.get? extent).elim (select refs limit extents batch) fun entries => do
      select refs limit extents (← selectExtent limit batch extent entries)

def drainExtent (q : DelayedRefQueue) (taken : ExtentKey × Nat) : DelayedRefQueue :=
  (q.refs.get? taken.1).elim q fun entries =>
    { q with
      refs := q.refs.insert taken.1 (entries.drop taken.2)
      pendingCount := q.pendingCount - taken.2 }

def toPrune (q : DelayedRefQueue) (selected : List (ExtentKey × Nat)) : List ExtentKey :=
  (selected.map Prod.fst).filter fun extent => q.refs.get? extent = some []

def prune (q : DelayedRefQueue) (extents : List ExtentKey) : DelayedRefQueue :=
  { q with refs := extents.foldl OrdMap.erase q.refs }

def drainSelected (q : DelayedRefQueue) (selected : List (ExtentKey × Nat)) : DelayedRefQueue :=
  (selected.foldl drainExtent q).prune ((selected.foldl drainExtent q).toPrune selected)

structure Books where
  queue : DelayedRefQueue
  refcounts : Refcounts

def flush (limit : Nat) : EStateM BtrfsMutationError Books Nat := do
  let s ← get
  if limit = 0 ∨ s.queue.pendingCount = 0 then return 0
  else
    let batch ← MonadExcept.ofExcept
      (select s.queue.refs limit s.queue.refs.keys ⟨s.refcounts, [], 0⟩)
    set (⟨s.queue.drainSelected batch.selected, batch.refcounts⟩ : Books)
    return batch.flushed

def entries (q : DelayedRefQueue) : List DelayedRef := q.refs.entries.flatMap Prod.snd

def drainAll (q : DelayedRefQueue) : List DelayedRef × DelayedRefQueue :=
  (q.entries.mergeSort fun a b => a.sequence ≤ b.sequence, { q with refs := ∅, pendingCount := 0 })

/-! ## Counts -/

def RefAction.sign : RefAction → Int
  | .insert => 1
  | .delete => -1

def balance (l : List DelayedRef) : Int := (l.map fun entry => RefAction.sign entry.action).sum

/-- The references went into the count of an extent, and a count that became zero is gone. -/
structure Tallied (l : List DelayedRef) (slot slot' : Option Nat) : Prop where
  value : ((slot'.getD 0 : Nat) : Int) = (slot.getD 0 : Nat) + balance l
  untouched : l = [] → slot' = slot
  touched : l ≠ [] → slot' ≠ some 0

theorem Tallied.refl (slot : Option Nat) : Tallied [] slot slot :=
  ⟨by simp [balance], fun _ => rfl, fun h => absurd rfl h⟩

theorem Tallied.trans {l l' : List DelayedRef} {a b c : Option Nat} (hfirst : Tallied l a b)
    (hlast : Tallied l' b c) : Tallied (l ++ l') a c := by
  refine ⟨?_, fun hnil => ?_, fun hne => ?_⟩
  · rw [hlast.value, hfirst.value]
    simp [balance, add_assoc]
  · rw [List.append_eq_nil_iff] at hnil
    rw [hlast.untouched hnil.2, hfirst.untouched hnil.1]
  · by_cases hnil : l' = []
    · rw [hlast.untouched hnil]
      exact hfirst.touched fun hl => hne (by rw [hl, hnil]; rfl)
    · exact hlast.touched hnil

variable {entry : DelayedRef}

theorem tallied_some {slot : Option Nat} {n : Nat} (hn : n ≠ 0)
    (hvalue : (n : Int) = (slot.getD 0 : Nat) + RefAction.sign entry.action) :
    Tallied [entry] slot (some n) :=
  ⟨by simpa [balance] using hvalue, nofun, fun _ => by simpa using hn⟩

theorem tallied_none {slot : Option Nat}
    (hvalue : (0 : Int) = (slot.getD 0 : Nat) + RefAction.sign entry.action) :
    Tallied [entry] slot none :=
  ⟨by simpa [balance] using hvalue, nofun, fun _ => by simp⟩

theorem applyRef_tallied {refcounts refcounts' : Refcounts}
    (h : applyRef refcounts entry = .ok refcounts') :
    (∀ e, e ≠ entry.extent → refcounts'.get? e = refcounts.get? e) ∧
      Tallied [entry] (refcounts.get? entry.extent) (refcounts'.get? entry.extent) := by
  have hinsert : ∀ n, (∀ e, e ≠ entry.extent →
      (refcounts.insert entry.extent n).get? e = refcounts.get? e) ∧
      (refcounts.insert entry.extent n).get? entry.extent = some n := fun n =>
    ⟨fun e he => by rw [OrdMap.get?_insert, if_neg he], by rw [OrdMap.get?_insert, if_pos rfl]⟩
  unfold applyRef at h
  cases haction : entry.action with
  | insert =>
    rw [haction] at h
    unfold applyInsert at h
    dsimp only at h
    split_ifs at h with hroom
    injection h with h
    rw [← h]
    refine ⟨(hinsert _).1, ?_⟩
    rw [(hinsert _).2]
    exact tallied_some (Nat.succ_ne_zero _) (by simp [haction, RefAction.sign])
  | delete =>
    rw [haction] at h
    dsimp only at h
    cases hget : refcounts.get? entry.extent with
    | none =>
      rw [hget] at h
      cases h
    | some n =>
      rw [hget] at h
      cases n with
      | zero => cases h
      | succ next =>
        have hvalue : (next : Int) = ((some (next + 1)).getD 0 : Nat) + RefAction.sign entry.action := by
          simp [haction, RefAction.sign]
        have h : (if next = 0 then .ok (refcounts.erase entry.extent)
          else .ok (refcounts.insert entry.extent next)) = Except.ok refcounts' := h
        split_ifs at h with hzero
        · injection h with h
          rw [← h]
          refine ⟨fun e he => by rw [OrdMap.get?_erase, if_neg he], ?_⟩
          rw [OrdMap.get?_erase, if_pos rfl]
          exact tallied_none (by rw [← hvalue, hzero]; rfl)
        · injection h with h
          rw [← h]
          refine ⟨(hinsert _).1, ?_⟩
          rw [(hinsert _).2]
          exact tallied_some hzero hvalue

theorem foldlM_applyRef {extent : ExtentKey} {l : List DelayedRef}
    (hl : ∀ entry ∈ l, entry.extent = extent) {refcounts refcounts' : Refcounts}
    (h : l.foldlM applyRef refcounts = .ok refcounts') :
    (∀ e, e ≠ extent → refcounts'.get? e = refcounts.get? e) ∧
      Tallied l (refcounts.get? extent) (refcounts'.get? extent) := by
  induction l generalizing refcounts with
  | nil =>
    injection h with h
    rw [← h]
    exact ⟨fun _ _ => rfl, Tallied.refl _⟩
  | cons entry l ih =>
    rw [List.foldlM_cons] at h
    obtain ⟨mid, hmid, hrest⟩ := bind_ok.mp h
    have hfirst := applyRef_tallied hmid
    rw [hl entry List.mem_cons_self] at hfirst
    have hlast := ih (fun e he => hl e (List.mem_cons_of_mem _ he)) hrest
    exact ⟨fun e he => (hlast.1 e he).trans (hfirst.1 e he), hfirst.2.trans hlast.2⟩

/-! ## Batches -/

def taken (selected : List (ExtentKey × Nat)) (extent : ExtentKey) : Nat :=
  (selected.lookup extent).getD 0

theorem taken_cons (p : ExtentKey × Nat) (selected : List (ExtentKey × Nat)) (extent : ExtentKey) :
    taken (p :: selected) extent = if extent = p.1 then p.2 else taken selected extent := by
  obtain ⟨e, n⟩ := p
  unfold taken
  rw [List.lookup_cons]
  by_cases h : extent = e
  · simp [h]
  · rw [beq_false_of_ne h, if_neg h]

variable {selected : List (ExtentKey × Nat)}

theorem taken_eq_zero {extent : ExtentKey} (h : extent ∉ selected.map Prod.fst) :
    taken selected extent = 0 := by
  induction selected with
  | nil => rfl
  | cons p selected ih =>
    rw [List.map_cons, List.mem_cons, not_or] at h
    rw [taken_cons, if_neg h.1, ih h.2]

def Available (refs : OrdMap ExtentKey (List DelayedRef)) (selected : List (ExtentKey × Nat)) : Prop :=
  ∀ p ∈ selected, ∃ entries, refs.get? p.1 = some entries ∧ p.2 ≤ entries.length

theorem select_spec {refs : OrdMap ExtentKey (List DelayedRef)} {limit : Nat}
    (hown : ∀ e entries, refs.get? e = some entries → ∀ x ∈ entries, x.extent = e)
    {extents : List ExtentKey} (hnodup : extents.Nodup) {batch batch' : Batch}
    (h : select refs limit extents batch = .ok batch') :
    ∃ more, batch'.selected = batch.selected ++ more ∧ (more.map Prod.fst).Sublist extents ∧
      Available refs more ∧
      ∀ e, Tallied (((refs.get? e).getD []).take (taken more e)) (batch.refcounts.get? e)
        (batch'.refcounts.get? e) := by
  have hstop : ∀ {b : Batch}, b = batch' → ∃ more, batch'.selected = b.selected ++ more ∧
      (more.map Prod.fst).Sublist [] ∧ Available refs more ∧
      ∀ e, Tallied (((refs.get? e).getD []).take (taken more e)) (b.refcounts.get? e)
        (batch'.refcounts.get? e) := by
    rintro b rfl
    exact ⟨[], (List.append_nil _).symm, List.Sublist.slnil, nofun, fun e => Tallied.refl _⟩
  induction extents generalizing batch with
  | nil =>
    injection h with h
    exact hstop h
  | cons extent extents ih =>
    rw [List.nodup_cons] at hnodup
    unfold select at h
    split_ifs at h with hlimit
    · injection h with h
      obtain ⟨more, hmore, hsub, hrest⟩ := hstop h
      exact ⟨more, hmore, hsub.trans (List.nil_sublist _), hrest⟩
    · cases hget : refs.get? extent with
      | none =>
        rw [hget] at h
        obtain ⟨more, hmore, hsub, hrest⟩ := ih hnodup.2 h
        exact ⟨more, hmore, hsub.cons _, hrest⟩
      | some entries =>
        rw [hget] at h
        obtain ⟨mid, hmid, hrest⟩ := bind_ok.mp h
        obtain ⟨refcounts, hcounts, hpure⟩ := bind_ok.mp hmid
        injection hpure with hpure
        subst hpure
        have hfirst := foldlM_applyRef (fun x hx => hown extent entries hget x (List.mem_of_mem_take hx))
          hcounts
        obtain ⟨more, hmore, hsub, havail, htally⟩ := ih hnodup.2 hrest
        refine ⟨(extent, min (limit - batch.flushed) entries.length) :: more, ?_, hsub.cons_cons _,
          ?_, fun e => ?_⟩
        · rw [hmore, List.append_assoc]
          rfl
        · intro p hp
          rcases List.mem_cons.mp hp with rfl | hp
          · exact ⟨entries, hget, Nat.min_le_right _ _⟩
          · exact havail p hp
        · have hlast := htally e
          rw [taken_cons]
          by_cases he : e = extent
          · subst he
            rw [if_pos rfl, hget]
            rw [taken_eq_zero fun hmem => hnodup.1 (hsub.subset hmem), List.take_zero] at hlast
            simpa using hfirst.2.trans hlast
          · rw [if_neg he]
            rwa [← hfirst.1 e he]

/-! ## Draining -/

def Exact (q : DelayedRefQueue) : Prop := q.pendingCount = q.refs.total List.length

variable {q : DelayedRefQueue}

theorem drainExtent_exact {p : ExtentKey × Nat} {entries : List DelayedRef} (hexact : q.Exact)
    (hget : q.refs.get? p.1 = some entries) (hle : p.2 ≤ entries.length) :
    (q.drainExtent p).Exact := by
  unfold Exact at hexact ⊢
  unfold drainExtent
  rw [hget, Option.elim_some]
  have htotal := q.refs.total_alter List.length p.1 fun _ => some (entries.drop p.2)
  rw [hget, Option.elim_some, Option.elim_some, List.length_drop] at htotal
  show q.pendingCount - p.2 = (q.refs.alter p.1 fun _ => some (entries.drop p.2)).total List.length
  omega

theorem foldl_drainExtent (hnodup : (selected.map Prod.fst).Nodup)
    (havail : Available q.refs selected) (hexact : q.Exact)
    :
    (∀ e, (selected.foldl drainExtent q).refs.get? e =
      (q.refs.get? e).map (List.drop (taken selected e))) ∧
      (selected.foldl drainExtent q).Exact ∧
      (selected.foldl drainExtent q).nextSequence = q.nextSequence ∧
      (selected.foldl drainExtent q).pendingCount ≤ q.pendingCount := by
  induction selected generalizing q with
  | nil =>
    refine ⟨fun e => ?_, hexact, rfl, Nat.le_refl _⟩
    show q.refs.get? e = (q.refs.get? e).map (List.drop 0)
    cases q.refs.get? e <;> rfl
  | cons p selected ih =>
    rw [List.map_cons, List.nodup_cons] at hnodup
    obtain ⟨entries, hget, hle⟩ := havail p List.mem_cons_self
    have hdrained : ∀ e, (q.drainExtent p).refs.get? e =
        if e = p.1 then some (entries.drop p.2) else q.refs.get? e := by
      intro e
      unfold drainExtent
      rw [hget]
      exact q.refs.get?_insert _ _ _
    have hrest : Available (q.drainExtent p).refs selected := by
      intro p' hp'
      have hne : p'.1 ≠ p.1 := fun heq => hnodup.1 (heq ▸ List.mem_map_of_mem hp')
      rw [hdrained, if_neg hne]
      exact havail p' (List.mem_cons_of_mem _ hp')
    obtain ⟨hrefs, hexact', hnext, hpending⟩ := ih hnodup.2 hrest (drainExtent_exact hexact hget hle)
    have hsame : (q.drainExtent p).nextSequence = q.nextSequence ∧
        (q.drainExtent p).pendingCount ≤ q.pendingCount := by
      unfold drainExtent
      rw [hget]
      exact ⟨rfl, Nat.sub_le _ _⟩
    refine ⟨fun e => ?_, hexact', hnext.trans hsame.1, hpending.trans hsame.2⟩
    show (selected.foldl drainExtent (q.drainExtent p)).refs.get? e = _
    rw [hrefs, hdrained, taken_cons]
    split_ifs with he
    · rw [he, hget, taken_eq_zero hnodup.1]
      rfl
    · rfl

theorem prune_spec (extents : List ExtentKey) (hempty : ∀ e ∈ extents, q.refs.get? e = some [])
    (hnodup : extents.Nodup) (hexact : q.Exact) :
    (∀ e, (q.prune extents).refs.get? e = if e ∈ extents then none else q.refs.get? e) ∧
      (q.prune extents).Exact := by
  refine ⟨fun e => ?_, ?_⟩
  · exact OrdMap.get?_foldl_alter hnodup (fun _ => none) q.refs e
  · unfold Exact at hexact ⊢
    rw [prune, hexact]
    show _ = (extents.foldl OrdMap.erase q.refs).total List.length
    generalize q.refs = refs at hempty
    induction extents generalizing refs with
    | nil => rfl
    | cons e extents ih =>
      rw [List.nodup_cons] at hnodup
      have htotal := refs.total_alter List.length e fun _ => none
      rw [hempty e List.mem_cons_self] at htotal
      rw [List.foldl_cons, ← ih hnodup.2 (refs.erase e) fun e' he' => ?_]
      · exact htotal.symm
      · have hne : e' ≠ e := fun heq => hnodup.1 (heq ▸ he')
        rw [OrdMap.get?_erase, if_neg hne]
        exact hempty e' (List.mem_cons_of_mem _ he')

theorem drainSelected_spec (hnodup : (selected.map Prod.fst).Nodup)
    (havail : Available q.refs selected) (hexact : q.Exact) (hfull : ∀ e, q.refs.get? e ≠ some []) :
    (∀ e, (q.drainSelected selected).pendingFor e = (q.pendingFor e).drop (taken selected e)) ∧
      (∀ e, (q.drainSelected selected).refs.get? e ≠ some []) ∧ (q.drainSelected selected).Exact ∧
      (q.drainSelected selected).nextSequence = q.nextSequence ∧
      (q.drainSelected selected).pendingCount ≤ q.pendingCount := by
  obtain ⟨hrefs, hexact', hnext, hpending⟩ := foldl_drainExtent hnodup havail hexact
  obtain ⟨hpruned, hexact''⟩ := prune_spec (q := selected.foldl drainExtent q)
    ((selected.foldl drainExtent q).toPrune selected)
    (fun e he => of_decide_eq_true (List.mem_filter.mp he).2) (hnodup.filter _) hexact'
  refine ⟨fun e => ?_, fun e => ?_, hexact'', hnext, hpending⟩
  · unfold pendingFor drainSelected
    rw [hpruned]
    split_ifs with he
    · have hnil := of_decide_eq_true (List.mem_filter.mp he).2
      rw [hrefs, Option.map_eq_some_iff] at hnil
      obtain ⟨entries, hget, hdrop⟩ := hnil
      rw [hget, Option.getD_some, hdrop]
      rfl
    · rw [hrefs]
      cases q.refs.get? e with
      | none => exact List.drop_nil.symm
      | some entries => rfl
  · unfold drainSelected
    rw [hpruned]
    split_ifs with he
    · simp
    · intro hnil
      -- an extent that the batch did not touch is as it was
      by_cases hsel : e ∈ selected.map Prod.fst
      · exact he (List.mem_filter.mpr ⟨hsel, decide_eq_true hnil⟩)
      · rw [hrefs, taken_eq_zero hsel] at hnil
        cases hget : q.refs.get? e with
        | none =>
          rw [hget] at hnil
          cases hnil
        | some entries =>
          rw [hget] at hnil
          exact hfull e (hget.trans hnil)

/-! ## Runs -/

inductive Op where
  | queue (extent : ExtentKey) (refType : BtrfsRef) (action : RefAction)
  | flush (limit : Nat)
deriving DecidableEq, Repr

def left {α : Type} : EStateM.Result BtrfsMutationError Books α → Books
  | .ok _ s => s
  | .error _ s => s

def Op.run (s : Books) : Op → Books
  | .queue extent refType action => { s with queue := s.queue.queue extent refType action }
  | .flush limit => left (DelayedRefQueue.flush limit s)

def run (start : Refcounts) (ops : List Op) : Books := ops.foldl Op.run ⟨new, start⟩

def queued (ops : List Op) : List (ExtentKey × BtrfsRef × RefAction) :=
  ops.filterMap fun op =>
    match op with
    | .queue extent refType action => some (extent, refType, action)
    | .flush _ => none

def history (ops : List Op) : List DelayedRef :=
  (queued ops).mapIdx fun i call => ⟨call.1, call.2.1, call.2.2, i⟩

/-- What was queued for an extent is counted, or still waits. -/
structure Balanced (start : Refcounts) (hist : List DelayedRef) (s : Books) : Prop where
  exact : s.queue.Exact
  full : ∀ e, s.queue.refs.get? e ≠ some []
  split : ∀ e, ∃ done, hist.filter (fun x => x.extent = e) = done ++ s.queue.pendingFor e ∧
    Tallied done (start.get? e) (s.refcounts.get? e)
  next : s.queue.nextSequence = hist.length
  bound : s.queue.pendingCount ≤ hist.length
  numbered : hist.Pairwise fun x y => x.sequence < y.sequence
  below : ∀ x ∈ hist, x.sequence < hist.length

theorem balanced_new (start : Refcounts) : Balanced start [] ⟨new, start⟩ where
  exact := rfl
  full _ := nofun
  split _ := ⟨[], rfl, Tallied.refl _⟩
  next := rfl
  bound := Nat.le_refl _
  numbered := .nil
  below := nofun

variable {start : Refcounts} {hist : List DelayedRef} {s : Books}

theorem Balanced.mem_pendingFor (hs : Balanced start hist s) {e : ExtentKey} {x : DelayedRef}
    (hx : x ∈ s.queue.pendingFor e) : x ∈ hist ∧ x.extent = e := by
  obtain ⟨done, hsplit, -⟩ := hs.split e
  have hmem : x ∈ hist.filter fun x => x.extent = e := by
    rw [hsplit]
    exact List.mem_append_right _ hx
  rw [List.mem_filter] at hmem
  exact ⟨hmem.1, of_decide_eq_true hmem.2⟩

theorem Balanced.queue (hs : Balanced start hist s) (hfew : hist.length + 1 < 2 ^ 64)
    (extent : ExtentKey) (refType : BtrfsRef) (action : RefAction) :
    Balanced start (hist ++ [⟨extent, refType, action, hist.length⟩])
      { s with queue := s.queue.queue extent refType action } := by
  have hbump : ∀ n, n ≤ hist.length → bump n = n + 1 := by
    intro n hn
    unfold bump
    omega
  have hget : ∀ e, (s.queue.queue extent refType action).refs.get? e =
      if e = extent then some (s.queue.pendingFor extent ++ [⟨extent, refType, action, hist.length⟩])
      else s.queue.refs.get? e := by
    intro e
    show (s.queue.refs.alter _ _).get? e = _
    rw [OrdMap.get?_alter, hs.next]
    rfl
  constructor
  · have htotal := s.queue.refs.total_alter List.length extent fun entries =>
      some (entries.getD [] ++ [⟨extent, refType, action, s.queue.nextSequence⟩])
    have hold : (s.queue.refs.get? extent).elim 0 List.length =
        ((s.queue.refs.get? extent).getD []).length := by
      cases s.queue.refs.get? extent <;> rfl
    rw [hold, Option.elim_some, List.length_append, List.length_singleton] at htotal
    have hpending := hs.exact
    unfold Exact at hpending ⊢
    show bump s.queue.pendingCount = (s.queue.refs.alter _ _).total List.length
    rw [hbump _ hs.bound]
    omega
  · intro e
    rw [hget]
    split_ifs
    · simp
    · exact hs.full e
  · intro e
    obtain ⟨done, hsplit, htally⟩ := hs.split e
    refine ⟨done, ?_, htally⟩
    unfold pendingFor at hsplit ⊢
    rw [hget, List.filter_append, hsplit]
    by_cases he : e = extent
    · subst he
      simp [pendingFor]
    · simp [he, Ne.symm he]
  · show bump s.queue.nextSequence = _
    rw [hs.next, hbump _ (Nat.le_refl _), List.length_append, List.length_singleton]
  · show bump s.queue.pendingCount ≤ _
    rw [hbump _ hs.bound, List.length_append, List.length_singleton]
    exact Nat.succ_le_succ hs.bound
  · refine List.pairwise_append.mpr ⟨hs.numbered, List.pairwise_singleton _ _, fun x hx y hy => ?_⟩
    rw [List.mem_singleton.mp hy]
    exact hs.below x hx
  · intro x hx
    rw [List.length_append, List.length_singleton]
    rcases List.mem_append.mp hx with hx | hx
    · exact Nat.lt_succ_of_lt (hs.below x hx)
    · rw [List.mem_singleton.mp hx]
      exact Nat.lt_succ_self _

theorem flush_outcome (limit : Nat) (s : Books) :
    Ensures (flush limit) s
      (fun _ s' => s' = s ∨ ∃ batch,
        select s.queue.refs limit s.queue.refs.keys ⟨s.refcounts, [], 0⟩ = .ok batch ∧
          s' = ⟨s.queue.drainSelected batch.selected, batch.refcounts⟩)
      fun _ s' => s' = s := by
  refine ensures_get_bind.mpr (ensures_ite (fun _ => Or.inl rfl) fun _ => ?_)
  refine (ensures_ofExcept (Q := fun batch s' => s' = s ∧
    select s.queue.refs limit s.queue.refs.keys ⟨s.refcounts, [], 0⟩ = .ok batch)
    (E := fun _ s' => s' = s) (fun batch hbatch => ⟨rfl, hbatch⟩) fun _ _ => rfl).bind ?_
  rintro batch s' ⟨rfl, hbatch⟩
  exact Or.inr ⟨batch, hbatch, rfl⟩

theorem Balanced.flush (hs : Balanced start hist s) (limit : Nat) :
    Balanced start hist (left (DelayedRefQueue.flush limit s)) := by
  have houtcome := flush_outcome limit s
  unfold Ensures at houtcome
  cases hrun : DelayedRefQueue.flush limit s with
  | error err s' =>
    rw [hrun] at houtcome
    obtain rfl : s' = s := houtcome
    exact hs
  | ok n s' =>
    rw [hrun] at houtcome
    rcases houtcome with rfl | ⟨batch, hbatch, rfl⟩
    · exact hs
    · have hown : ∀ e entries, s.queue.refs.get? e = some entries → ∀ x ∈ entries, x.extent = e := by
        intro e entries hget x hx
        refine (hs.mem_pendingFor (e := e) ?_).2
        unfold pendingFor
        rwa [hget]
      obtain ⟨selected, hselected, hsub, havail, htally⟩ :=
        select_spec hown s.queue.refs.keys_nodup hbatch
      rw [List.nil_append] at hselected
      obtain ⟨hpending, hfull, hexact, hnext, hbound⟩ := drainSelected_spec
        (s.queue.refs.keys_nodup.sublist hsub) havail hs.exact hs.full
      rw [← hselected] at hpending hfull hexact hnext hbound htally
      refine ⟨hexact, hfull, fun e => ?_, hnext.trans hs.next, hbound.trans hs.bound, hs.numbered,
        hs.below⟩
      obtain ⟨done, hsplit, hdone⟩ := hs.split e
      refine ⟨done ++ (s.queue.pendingFor e).take (taken batch.selected e), ?_,
        hdone.trans (htally e)⟩
      show _ = _ ++ (s.queue.drainSelected batch.selected).pendingFor e
      rw [hpending, hsplit, List.append_assoc, List.take_append_drop]

theorem length_history (ops : List Op) : (history ops).length = (queued ops).length :=
  List.length_mapIdx

theorem balanced_run (start : Refcounts) {ops : List Op} (hfew : (queued ops).length < 2 ^ 64) :
    Balanced start (history ops) (run start ops) := by
  induction ops using List.reverseRecOn with
  | nil => exact balanced_new start
  | append_singleton ops op ih =>
    have hrun : run start (ops ++ [op]) = op.run (run start ops) := by
      unfold run
      rw [List.foldl_append]
      rfl
    rw [hrun]
    cases op with
    | queue extent refType action =>
      have hqueued : queued (ops ++ [.queue extent refType action]) =
          queued ops ++ [(extent, refType, action)] := List.filterMap_append
      have hhistory : history (ops ++ [.queue extent refType action]) =
          history ops ++ [⟨extent, refType, action, (history ops).length⟩] := by
        unfold history
        rw [hqueued, List.mapIdx_concat, List.length_mapIdx]
      rw [hqueued, List.length_append, List.length_singleton] at hfew
      rw [hhistory]
      exact (ih (by omega)).queue (by rw [length_history]; exact hfew) extent refType action
    | flush limit =>
      have hqueued : queued (ops ++ [.flush limit]) = queued ops := by
        unfold queued
        rw [List.filterMap_append]
        exact List.append_nil _
      rw [hqueued] at hfew
      have hhistory : history (ops ++ [.flush limit]) = history ops := by
        unfold history
        rw [hqueued]
      rw [hhistory]
      exact (ih hfew).flush limit

/-! ## What is left -/

theorem mem_entries {x : DelayedRef} : x ∈ q.entries ↔ ∃ e, x ∈ q.pendingFor e := by
  unfold entries
  rw [List.mem_flatMap]
  constructor
  · rintro ⟨⟨e, l⟩, hmem, hx⟩
    refine ⟨e, ?_⟩
    unfold pendingFor
    rwa [(q.refs.mem_entries).mp hmem]
  · rintro ⟨e, hx⟩
    unfold pendingFor at hx
    cases hget : q.refs.get? e with
    | none =>
      rw [hget] at hx
      cases hx
    | some l =>
      rw [hget] at hx
      exact ⟨(e, l), q.refs.mem_entries.mpr hget, hx⟩

theorem Balanced.nodup_entries (hs : Balanced start hist s) : s.queue.entries.Nodup := by
  have hhist : hist.Nodup := hs.numbered.imp fun hlt heq => by
    rw [heq] at hlt
    exact Nat.lt_irrefl _ hlt
  have hlist : ∀ p ∈ s.queue.refs.entries, p.2 = s.queue.pendingFor p.1 := by
    rintro ⟨e, l⟩ hp
    unfold pendingFor
    rw [s.queue.refs.mem_entries.mp hp]
    rfl
  refine List.nodup_flatMap.mpr ⟨fun p hp => ?_, ?_⟩
  · obtain ⟨done, hsplit, -⟩ := hs.split p.1
    rw [hlist p hp]
    refine (hhist.sublist ?_)
    exact (List.sublist_append_right done _).trans (hsplit ▸ List.filter_sublist)
  · refine s.queue.refs.sorted.imp_of_mem fun {p p'} hp hp' hlt x hx hx' => ?_
    rw [hlist p hp] at hx
    rw [hlist p' hp'] at hx'
    rw [← (hs.mem_pendingFor hx).2, ← (hs.mem_pendingFor hx').2] at hlt
    exact lt_irrefl _ hlt

theorem Balanced.drainAll_sublist (hs : Balanced start hist s) :
    s.queue.drainAll.1.Sublist hist := by
  have hperm : (hist.filter fun x => x ∈ s.queue.entries).Perm s.queue.drainAll.1 := by
    have hhist : hist.Nodup := hs.numbered.imp fun hlt heq => by
      rw [heq] at hlt
      exact Nat.lt_irrefl _ hlt
    refine List.Perm.trans ?_ (List.mergeSort_perm _ _).symm
    refine (List.perm_ext_iff_of_nodup (hhist.filter _) hs.nodup_entries).mpr fun x => ?_
    rw [List.mem_filter, decide_eq_true_eq, and_iff_right_iff_imp]
    intro hx
    obtain ⟨e, he⟩ := mem_entries.mp hx
    exact (hs.mem_pendingFor he).1
  have hsorted : s.queue.drainAll.1.Pairwise fun x y => x.sequence ≤ y.sequence := by
    have hle : s.queue.drainAll.1.Pairwise fun x y => decide (x.sequence ≤ y.sequence) = true := by
      refine List.pairwise_mergeSort (fun a b c hab hbc => ?_) (fun a b => ?_) s.queue.entries
      · simp only [decide_eq_true_eq] at hab hbc ⊢
        exact hab.trans hbc
      · simp only [Bool.or_eq_true, decide_eq_true_eq]
        exact Nat.le_total _ _
    exact hle.imp of_decide_eq_true
  have hstrict := hs.numbered.sublist (List.filter_sublist (p := fun x => decide (x ∈ s.queue.entries)))
  have hapart : ∀ x ∈ hist, ∀ y ∈ hist, x ≠ y → x.sequence ≠ y.sequence := by
    have hsymm : Std.Symm fun x y : DelayedRef => x.sequence ≠ y.sequence := ⟨fun _ _ => Ne.symm⟩
    exact fun x hx y hy => (hs.numbered.imp Nat.ne_of_lt).forall hx hy
  rw [← hperm.eq_of_pairwise (fun x y hx hy hxy hyx => ?_) (hstrict.imp Nat.le_of_lt) hsorted]
  · exact List.filter_sublist
  · by_contra hne
    exact hapart x (List.mem_filter.mp hx).1 y (List.mem_filter.mp (hperm.mem_iff.mpr hy)).1 hne
      (Nat.le_antisymm hxy hyx)

theorem Balanced.length_entries (hs : Balanced start hist s) :
    s.queue.entries.length = s.queue.pendingCount := by
  rw [hs.exact, entries]
  unfold OrdMap.total
  generalize s.queue.refs.entries = l
  induction l with
  | nil => rfl
  | cons p l ih => rw [List.flatMap_cons, List.length_append, ih, OrdMap.weighEntries]

/-- **Batches do not matter.** After any calls, fewer than there are sequence numbers, the count of
pending entries is exact, a flush that fails changes nothing, and the entries come out in the order
in which they were queued. If none is left, every count is what it was at the start with the
insertions and without the deletions, and a count that came to zero is gone. -/
theorem delayedRefs_exact (start : Refcounts) (ops : List Op)
    (hfew : (queued ops).length < 2 ^ 64) :
    (run start ops).queue.pendingCount = (run start ops).queue.entries.length ∧
      (∀ limit err s', flush limit (run start ops) = .error err s' → s' = run start ops) ∧
      (run start ops).queue.drainAll.1.Perm (run start ops).queue.entries ∧
      (run start ops).queue.drainAll.1.Sublist (history ops) ∧
      ((run start ops).queue.entries = [] → ∀ e,
        Tallied ((history ops).filter fun x => x.extent = e) (start.get? e)
          ((run start ops).refcounts.get? e)) := by
  have hs := balanced_run start hfew
  refine ⟨hs.length_entries.symm, fun limit err s' => (flush_outcome limit _).error,
    List.mergeSort_perm _ _, hs.drainAll_sublist, fun hnone e => ?_⟩
  obtain ⟨done, hsplit, htally⟩ := hs.split e
  have hpending : (run start ops).queue.pendingFor e = [] := by
    refine List.eq_nil_iff_forall_not_mem.mpr fun x hx => ?_
    have := mem_entries.mpr ⟨e, hx⟩
    rw [hnone] at this
    cases this
  rw [hsplit, hpending, List.append_nil]
  exact htally

def sampleOps : List Op :=
  [.queue ⟨8, 4⟩ (.sharedDataExtent 0) .insert, .queue ⟨4, 4⟩ (.sharedDataExtent 1) .delete,
    .queue ⟨8, 4⟩ (.sharedDataExtent 2) .insert, .flush 2,
    .queue ⟨8, 4⟩ (.sharedDataExtent 0) .delete]

theorem delayedRefs_exact_sample :
    ∃ start : Refcounts, start.get? ⟨4, 4⟩ = some 1 ∧ start.get? ⟨8, 4⟩ = none ∧
      (run start sampleOps).queue.pendingCount = 2 ∧
      (run start sampleOps).queue.drainAll.1.Sublist (history sampleOps) ∧
      ∃ books, run start (sampleOps ++ [.flush 1, .flush 1]) = books ∧
        books.refcounts.get? ⟨4, 4⟩ = none ∧ books.refcounts.get? ⟨8, 4⟩ = some 1 ∧
        ∀ e, Tallied ((history sampleOps).filter fun x => x.extent = e) (start.get? e)
          (books.refcounts.get? e) := by
  obtain ⟨hcount, -, -, horder, -⟩ :=
    delayedRefs_exact (OrdMap.insert ∅ ⟨4, 4⟩ 1) sampleOps (by decide)
  obtain ⟨-, -, -, -, htally⟩ := delayedRefs_exact (OrdMap.insert ∅ ⟨4, 4⟩ 1)
    (sampleOps ++ [.flush 1, .flush 1]) (by decide)
  exact ⟨_, by decide, by decide, hcount.trans (by decide), horder, _, rfl, by decide, by decide,
    htally (by decide)⟩

/-! ## Sequence numbers run out -/

def comeAndGo : List Op :=
  [.queue ⟨0, 1⟩ (.sharedDataExtent 0) .insert, .queue ⟨0, 1⟩ (.sharedDataExtent 0) .delete, .flush 2]

theorem run_comeAndGo (k : Nat) :
    comeAndGo.foldl Op.run ⟨⟨∅, 0, k⟩, ∅⟩ = ⟨⟨∅, 0, bump (bump k)⟩, ∅⟩ := rfl

theorem run_comeAndGo_repeat (n k : Nat) (hk : k ≤ 2 ^ 64 - 1) :
    (List.replicate n comeAndGo).flatten.foldl Op.run ⟨⟨∅, 0, k⟩, ∅⟩ =
      ⟨⟨∅, 0, min (k + 2 * n) (2 ^ 64 - 1)⟩, ∅⟩ := by
  induction n generalizing k with
  | zero =>
    rw [Nat.mul_zero, Nat.add_zero, Nat.min_eq_left hk]
    rfl
  | succ n ih =>
    rw [List.replicate_succ, List.flatten_cons, List.foldl_append, run_comeAndGo,
      ih (bump (bump k)) (Nat.min_le_right _ _)]
    unfold bump
    congr 2
    omega

/-- When the sequence numbers have run out, entries come out in the order of their extents. -/
theorem drainAll_out_of_order :
    ∃ ops, (run ∅ ops).queue.entries = [] ∧
      ((run ∅ (ops ++ [.queue ⟨9, 1⟩ (.sharedDataExtent 0) .insert,
        .queue ⟨0, 1⟩ (.sharedDataExtent 0) .insert])).queue.drainAll.1.map DelayedRef.extent) =
        [⟨0, 1⟩, ⟨9, 1⟩] := by
  have hrun := run_comeAndGo_repeat (2 ^ 63) 0 (Nat.zero_le _)
  refine ⟨(List.replicate (2 ^ 63) comeAndGo).flatten, ?_, ?_⟩
  · unfold run
    rw [new, hrun]
    rfl
  · unfold run
    rw [List.foldl_append, new, hrun]
    unfold drainAll
    rw [List.mergeSort_of_pairwise]
    · rfl
    · refine List.pairwise_cons.mpr ⟨fun x hx => ?_, List.pairwise_singleton _ _⟩
      rw [List.mem_singleton.mp hx]
      rfl

end DelayedRefQueue

end FrankenFs.Btrfs
