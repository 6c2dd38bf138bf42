import FrankenFs.Mvcc.History
import FrankenFs.Mvcc.Ssi

/-!
# No lost update under eviction and pruning

Eviction may forget the version that the conflict test would look at, but only where every live
transaction already sees it.
-/

open FrankenFs.Lib

namespace FrankenFs.Mvcc.LostUpdate

structure Writer where
  snapshot : Nat
  seq : Nat
  writes : List Nat
deriving DecidableEq

section Runs

variable [Platform]

/-- The store, the transactions that have begun and not ended, and those that committed. -/
structure Clients where
  store : MvccStore
  live : List (Nat × Snapshot)
  committed : List Writer

inductive ClientOp where
  | begin
  /-- By `commit`, or by `commit_ssi`. -/
  | commit (txn : Transaction) (useSsi : Bool)
  | abort (id : Nat) (snapshot : Snapshot)
  | register (snapshot : Snapshot)
  | release (snapshot : Snapshot)
  | pruneSafe
  | evict (durableThrough : Nat)

namespace Clients

def commitResult (x : Clients) (txn : Transaction) (r : MvccStore × Except Stop Nat) : Clients :=
  let live := x.live.erase (txn.id, txn.snapshot)
  match r with
  | (s, .ok c) => ⟨s, live, ⟨txn.snapshot.high, c, txn.writeSet⟩ :: x.committed⟩
  | (s, .error _) => ⟨s, live, x.committed⟩

/-- `none` where the call is not one of this run's: a transaction that has not begun, or an
eviction bound in the future. -/
def step (x : Clients) : ClientOp → Option Clients
  | .begin =>
    let (s, txn) := x.store.begin
    some ⟨s.registerSnapshot txn.snapshot, (txn.id, txn.snapshot) :: x.live, x.committed⟩
  | .commit txn useSsi =>
    if (txn.id, txn.snapshot) ∈ x.live then
      some (x.commitResult txn (if useSsi then x.store.commitSsi txn else x.store.commit txn))
    else none
  | .abort id snapshot => some { x with live := x.live.erase (id, snapshot) }
  | .register snapshot => some { x with store := x.store.registerSnapshot snapshot }
  | .release snapshot => some { x with store := (x.store.releaseSnapshot snapshot).1 }
  | .pruneSafe => some { x with store := x.store.pruneSafe.1 }
  | .evict d =>
    if d ≤ x.store.currentSnapshot.high then some { x with store := x.store.evictDurableChains d }
    else none

def held (x : Clients) : Bool :=
  x.live.all fun t => (x.store.activeSnapshots.get? t.2.high).isSome

def run (x : Clients) : List ClientOp → Option Clients
  | [] => some x
  | op :: ops => (x.step op).bind fun x' => if x'.held then x'.run ops else none

/-- Commits above `floor` are still the newest of their chain or below it. -/
structure Inv (x : Clients) (floor : Nat) : Prop where
  strict : x.store.conflictPolicy = .strict
  current : floor ≤ x.store.nextCommit - 1
  live : ∀ t ∈ x.live, floor ≤ t.2.high
  below : ∀ t ∈ x.committed, t.seq < x.store.nextCommit
  covered : ∀ t ∈ x.committed, ∀ b ∈ t.writes, t.seq ≤ floor ∨ t.seq ≤ x.store.latestCommitSeq b
  fcw : ∀ t₁ ∈ x.committed, ∀ t₂ ∈ x.committed, t₁.seq < t₂.seq →
    ∀ b ∈ t₁.writes, b ∈ t₂.writes → t₁.seq ≤ t₂.snapshot

variable {x : Clients} {floor : Nat}

theorem Inv.sameData (h : Inv x floor) {s : MvccStore} (hs : x.store.SameData s)
    (live : List (Nat × Snapshot)) (hl : ∀ t ∈ live, t ∈ x.live) :
    Inv ⟨s, live, x.committed⟩ floor where
  strict := hs.conflictPolicy.trans h.strict
  current := by simpa only [hs.nextCommit] using h.current
  live t ht := h.live t (hl t ht)
  below := by simpa only [hs.nextCommit] using h.below
  covered := by simpa only [hs.latestCommitSeq] using h.covered
  fcw := h.fcw

theorem Inv.installed (h : Inv x floor) {s : MvccStore} {txn : Transaction} {c : Nat}
    {ws : List (Nat × Bytes)} {live : List (Nat × Snapshot)} (hl : ∀ t ∈ live, t ∈ x.live)
    (htxn : floor ≤ txn.snapshot.high) (hws : x.store.versionBytes txn = .ok ws)
    (hi : x.store.Installed s txn c ws) :
    Inv ⟨s, live, ⟨txn.snapshot.high, c, txn.writeSet⟩ :: x.committed⟩ floor := by
  have hseq := hi.seq
  -- Whatever was committed on a block of the write set, the snapshot sees it.
  have hseen : ∀ t ∈ x.committed, ∀ b ∈ t.writes, b ∈ txn.writeSet → t.seq ≤ txn.snapshot.high := by
    intro t ht b hb hbw
    have hle := MvccStore.versionBytes_strict hws h.strict hbw
    rcases h.covered t ht b hb with hc | hc
    · exact hc.trans htxn
    · exact hc.trans hle
  refine ⟨hi.conflictPolicy.trans h.strict, ?_, fun t ht => h.live t (hl t ht), ?_, ?_, ?_⟩
  · have := h.current
    simp only [hi.nextCommit]
    omega
  · intro t ht
    simp only [hi.nextCommit]
    rcases List.mem_cons.mp ht with rfl | ht
    · exact Nat.lt_succ_self c
    · have := h.below t ht; omega
  · intro t ht b hb
    rcases List.mem_cons.mp ht with rfl | ht
    · exact Or.inr (le_of_eq (hi.latest_writeSet hb).symm)
    · exact (h.covered t ht b hb).imp_right (hi.covered (h.below t ht))
  · intro t₁ h₁ t₂ h₂ hlt b hb₁ hb₂
    rcases List.mem_cons.mp h₁ with rfl | h₁ <;> rcases List.mem_cons.mp h₂ with rfl | h₂
    · exact absurd hlt (lt_irrefl _)
    · have := h.below t₂ h₂
      simp only at hlt
      omega
    · exact hseen t₁ h₁ b hb₁ hb₂
    · exact h.fcw t₁ h₁ t₂ h₂ hlt b hb₁ hb₂

theorem Inv.evict {d : Nat} (h : Inv x floor) (hheld : x.held = true)
    (hd : d ≤ x.store.currentSnapshot.high) :
    ∃ floor', Inv { x with store := x.store.evictDurableChains d } floor' := by
  obtain ⟨hbd, hba⟩ := x.store.evictBound_le d
  -- The new floor is as high as the eviction bound.
  refine ⟨max floor (x.store.evictBound d), h.strict, max_le h.current (hbd.trans hd),
    fun t ht => ?_, h.below, fun t ht b hb => ?_, h.fcw⟩
  · exact max_le (h.live t ht) (hba _ (List.all_eq_true.mp hheld t ht))
  · rcases h.covered t ht b hb with hc | hc
    · exact Or.inl (hc.trans (le_max_left _ _))
    · rcases x.store.evictDurableChains_latest d b with he | he
      · exact Or.inr (by simpa only [he] using hc)
      · exact Or.inl ((hc.trans he).trans (le_max_right _ _))

theorem Inv.step {x' : Clients} {op : ClientOp} (h : Inv x floor) (hheld : x.held = true)
    (hstep : x.step op = some x') : ∃ floor', Inv x' floor' := by
  cases op with
  | «begin» =>
    cases hstep
    refine ⟨floor, h.strict, h.current, fun t ht => ?_, h.below, h.covered, h.fcw⟩
    rcases List.mem_cons.mp ht with rfl | ht
    · exact h.current
    · exact h.live t ht
  | commit txn useSsi =>
    simp only [Clients.step, Option.ite_none_right_eq_some, Option.some.injEq] at hstep
    obtain ⟨hlive, rfl⟩ := hstep
    have herase : ∀ t ∈ x.live.erase (txn.id, txn.snapshot), t ∈ x.live := fun t ht =>
      List.mem_of_mem_erase ht
    refine ⟨floor, ?_⟩
    unfold commitResult
    rcases hc : (if useSsi then x.store.commitSsi txn else x.store.commit txn) with ⟨s, e | c⟩
    · exact h.sameData (MvccStore.commitWith_error hc) _ herase
    · obtain ⟨sp, ws, -, hsame, hws, hi⟩ := MvccStore.commitWith_ok hc
      exact (h.sameData hsame x.live fun _ ht => ht).installed herase (h.live _ hlive) hws hi
  | abort id snapshot =>
    cases hstep
    exact ⟨floor, h.sameData (MvccStore.SameData.refl _) _ fun t ht => List.mem_of_mem_erase ht⟩
  | register snapshot =>
    cases hstep
    exact ⟨floor, h.strict, h.current, h.live, h.below, h.covered, h.fcw⟩
  | release snapshot =>
    cases hstep
    exact ⟨floor, h.sameData (x.store.releaseSnapshot_sameData snapshot) _ fun _ ht => ht⟩
  | pruneSafe =>
    cases hstep
    refine ⟨floor, h.strict, h.current, h.live, h.below, ?_, h.fcw⟩
    simpa only [MvccStore.pruneSafe_latest] using h.covered
  | evict d =>
    simp only [Clients.step, Option.ite_none_right_eq_some, Option.some.injEq] at hstep
    obtain ⟨hd, rfl⟩ := hstep
    exact h.evict hheld hd

theorem Inv.run {y : Clients} {ops : List ClientOp} (h : Inv x floor) (hheld : x.held = true)
    (hrun : x.run ops = some y) : ∃ floor', Inv y floor' := by
  induction ops generalizing x floor with
  | nil =>
    simp only [Clients.run, Option.some.injEq] at hrun
    exact ⟨floor, hrun ▸ h⟩
  | cons op ops ih =>
    simp only [Clients.run, Option.bind_eq_some_iff, Option.ite_none_right_eq_some] at hrun
    obtain ⟨x', hstep, hheld', hrun⟩ := hrun
    obtain ⟨floor', h'⟩ := h.step hheld hstep
    exact ih h' hheld' hrun

def new (compression : CompressionPolicy) (config : AdaptivePolicyConfig) : Clients :=
  ⟨MvccStore.new compression .strict config, [], []⟩

/-- **No lost update.** Of two committed writers of a block, the later one read at or after
the commit of the earlier one. -/
theorem no_lost_update (compression : CompressionPolicy) (config : AdaptivePolicyConfig)
    (ops : List ClientOp) (x : Clients) (hrun : (new compression config).run ops = some x)
    (t₁ t₂ : Writer) (h₁ : t₁ ∈ x.committed) (h₂ : t₂ ∈ x.committed) (hlt : t₁.seq < t₂.seq)
    (b : Nat) (hb₁ : b ∈ t₁.writes) (hb₂ : b ∈ t₂.writes) : t₁.seq ≤ t₂.snapshot := by
  have hnew : Inv (new compression config) 0 :=
    ⟨rfl, Nat.zero_le _, by simp [new], by simp [new], by simp [new], by simp [new]⟩
  obtain ⟨floor, h⟩ := hnew.run rfl hrun
  exact h.fcw t₁ h₁ t₂ h₂ hlt b hb₁ hb₂

end Clients

end Runs

def evictBetween : List ClientOp :=
  [.begin, .commit ((Transaction.new 1 ⟨0⟩).stageWrite 5 [1]) false, .release ⟨0⟩, .evict 1, .begin,
    .commit ((Transaction.new 2 ⟨1⟩).stageWrite 5 [2]) true]

theorem no_lost_update_evictBetween :
    let _ := exactPlatform
    ∃ x, (Clients.new default exactConfig).run evictBetween = some x ∧
      x.committed = [⟨1, 2, [5]⟩, ⟨0, 1, [5]⟩] ∧
      (⟨0, 1, [5]⟩ : Writer).seq ≤ (⟨1, 2, [5]⟩ : Writer).snapshot := by
  let _ := exactPlatform
  have hmap : ((Clients.new default exactConfig).run evictBetween).map Clients.committed =
      some [⟨1, 2, [5]⟩, ⟨0, 1, [5]⟩] := by decide
  obtain ⟨x, hrun, hcom⟩ := Option.map_eq_some_iff.mp hmap
  refine ⟨x, hrun, hcom, ?_⟩
  exact Clients.no_lost_update default exactConfig evictBetween x hrun ⟨0, 1, [5]⟩ ⟨1, 2, [5]⟩
    (by rw [hcom]; decide) (by rw [hcom]; decide) (by decide) 5 (by decide) (by decide)

end FrankenFs.Mvcc.LostUpdate
