import FrankenFs.Lib.SerialGraph
import FrankenFs.Mvcc.History
import FrankenFs.Mvcc.Ssi

/-!
# Serializability of `commit_ssi`

The check looks for two antidependencies that meet in the committing transaction. A structure whose
pivot has committed already, and that is closed by its reader, goes undetected.
-/

open FrankenFs.Lib

namespace FrankenFs.Mvcc.Serializability

open SnapshotTxn (Precedes Acyclic)

def asCommitted (txn : Transaction) (commitSeq : Nat) : SnapshotTxn Nat :=
  ⟨txn.snapshot.high, commitSeq, txn.reads.keys, txn.writeSet⟩

/-- `w` read around a committed `u` that itself read around a `v` that committed before it. If
`w` writes nothing, it also has to see `v`. -/
def closesStructure (committed : List (SnapshotTxn Nat)) (w : SnapshotTxn Nat) : Prop :=
  ∃ u ∈ committed, ∃ v ∈ committed, v.commit < u.commit ∧
    (w.writes = [] → v.commit ≤ w.snapshot) ∧ Precedes w u ∧ Precedes u v

instance (committed : List (SnapshotTxn Nat)) (w : SnapshotTxn Nat) :
    Decidable (closesStructure committed w) :=
  inferInstanceAs (Decidable (∃ u ∈ committed, ∃ v ∈ committed, _))

def Recorded (log : List CommittedTxnRecord) (t : SnapshotTxn Nat) : Prop :=
  ∃ r ∈ log, r.commitSeq = t.commit ∧ (∀ b ∈ t.reads, (r.readSet.get? b).isSome) ∧
    ∀ b ∈ t.writes, (r.writeSet.get? b).isSome

theorem Recorded.mono {log log' : List CommittedTxnRecord} {t : SnapshotTxn Nat}
    (h : Recorded log t) (hsub : ∀ r ∈ log, r.commitSeq = t.commit → r ∈ log') :
    Recorded log' t := by
  obtain ⟨r, hr, hseq, hrw⟩ := h
  exact ⟨r, hsub r hr hseq, hseq, hrw⟩

theorem recorded_ssiRecord (txn : Transaction) (c : Nat) (log : List CommittedTxnRecord) :
    Recorded (log ++ [MvccStore.ssiRecord txn c]) (asCommitted txn c) := by
  refine ⟨MvccStore.ssiRecord txn c, by simp, rfl, fun b hb => ?_, fun b hb => ?_⟩
  · exact (OrdMap.mem_keys _).mp hb
  · rw [MvccStore.ssiRecord, OrdMap.get?_map, Option.isSome_map]
    exact (OrdMap.mem_keys _).mp hb

section Runs

variable [Platform]

structure Clients where
  store : MvccStore
  live : List (Nat × Snapshot)
  committed : List (SnapshotTxn Nat)

inductive ClientOp where
  | begin
  | commitSsi (txn : Transaction)
  | abort (id : Nat) (snapshot : Snapshot)
  | register (snapshot : Snapshot)
  | release (snapshot : Snapshot)
  | pruneSafe
  | pruneSsiLog (watermark : Nat)

namespace Clients

def new (compression : CompressionPolicy) (config : AdaptivePolicyConfig) : Clients :=
  ⟨MvccStore.new compression .strict config, [], []⟩

def commitResult (x : Clients) (txn : Transaction) (r : MvccStore × Except Stop Nat) : Clients :=
  let live := x.live.erase (txn.id, txn.snapshot)
  match r with
  | (s, .ok c) => ⟨s, live, asCommitted txn c :: x.committed⟩
  | (s, .error _) => ⟨s, live, x.committed⟩

/-- `none` where the call is not one of this run's: a transaction that has not begun, or a
log pruned above a live snapshot. -/
def step (x : Clients) : ClientOp → Option Clients
  | .begin =>
    let begun := x.store.begin
    some ⟨begun.1, (begun.2.id, begun.2.snapshot) :: x.live, x.committed⟩
  | .commitSsi txn =>
    if x.live.contains (txn.id, txn.snapshot) then
      some (x.commitResult txn (x.store.commitSsi txn))
    else none
  | .abort id snapshot => some { x with live := x.live.erase (id, snapshot) }
  | .register snapshot => some { x with store := x.store.registerSnapshot snapshot }
  | .release snapshot => some { x with store := (x.store.releaseSnapshot snapshot).1 }
  | .pruneSafe => some { x with store := x.store.pruneSafe.1 }
  | .pruneSsiLog watermark =>
    if ∀ t ∈ x.live, watermark ≤ t.2.high then
      some { x with store := x.store.pruneSsiLog watermark }
    else none

def run (x : Clients) : List ClientOp → Option Clients
  | [] => some x
  | op :: ops => (x.step op).bind fun x' => x'.run ops

/-- The step is no commit that closes a structure around a committed pivot. -/
def clean (x : Clients) : ClientOp → Bool
  | .commitSsi txn => !decide (closesStructure x.committed (asCommitted txn x.store.nextCommit))
  | _ => true

def cleanRun (x : Clients) : List ClientOp → Bool
  | [] => true
  | op :: ops => x.clean op && ((x.step op).all fun x' => x'.cleanRun ops)

/-! ## The invariant -/

structure Inv (x : Clients) : Prop where
  strict : x.store.conflictPolicy = .strict
  positive : 0 < x.store.nextCommit
  live : ∀ t ∈ x.live, t.2.high < x.store.nextCommit
  span : ∀ t ∈ x.committed, t.snapshot < t.commit
  below : ∀ t ∈ x.committed, t.commit < x.store.nextCommit
  inj : ∀ a ∈ x.committed, ∀ b ∈ x.committed, a.commit = b.commit → a = b
  covered : ∀ t ∈ x.committed, ∀ b ∈ t.writes, t.commit ≤ x.store.latestCommitSeq b
  fcw : ∀ t₁ ∈ x.committed, ∀ t₂ ∈ x.committed, t₁.commit < t₂.commit →
    ∀ b ∈ t₁.writes, b ∈ t₂.writes → t₁.commit ≤ t₂.snapshot
  logOrder : x.store.ssiLog.Pairwise fun a b => a.commitSeq < b.commitSeq
  logBelow : ∀ r ∈ x.store.ssiLog, r.commitSeq < x.store.nextCommit
  recorded : ∀ l ∈ x.live, ∀ t ∈ x.committed, l.2.high < t.commit → Recorded x.store.ssiLog t
  pivot : ∀ w ∈ x.committed, ∀ u ∈ x.committed, ∀ v ∈ x.committed, w ≠ u → v.commit < u.commit →
    v.commit ≤ w.commit → (w.writes = [] → v.commit ≤ w.snapshot) →
      Precedes w u → ¬ Precedes u v

theorem Inv.sameData {x : Clients} (h : Inv x) {s : MvccStore} (hs : x.store.SameData s)
    (live : List (Nat × Snapshot)) (hl : ∀ t ∈ live, t ∈ x.live) : Inv ⟨s, live, x.committed⟩ where
  strict := hs.conflictPolicy.trans h.strict
  positive := by simpa only [hs.nextCommit] using h.positive
  live t ht := by simpa only [hs.nextCommit] using h.live t (hl t ht)
  span := h.span
  below := by simpa only [hs.nextCommit] using h.below
  inj := h.inj
  covered := by simpa only [hs.latestCommitSeq] using h.covered
  fcw := h.fcw
  logOrder := by simpa only [hs.ssiLog] using h.logOrder
  logBelow := by simpa only [hs.ssiLog, hs.nextCommit] using h.logBelow
  recorded l hl' := by simpa only [hs.ssiLog] using h.recorded l (hl l hl')
  pivot := h.pivot

theorem Inv.not_pivot {x : Clients} (h : Inv x) {txn : Transaction} {n c : Nat}
    (hlive : (txn.id, txn.snapshot) ∈ x.live) (hv : x.store.validateSsiReadSet txn = .ok n)
    {t₁ t₃ : SnapshotTxn Nat} (h₁ : t₁ ∈ x.committed) (h₃ : t₃ ∈ x.committed)
    (hle : t₃.commit ≤ t₁.commit) (hin : Precedes t₁ (asCommitted txn c)) :
    ¬ Precedes (asCommitted txn c) t₃ := by
  rintro ⟨hseq₃, y, hy, hyw⟩
  obtain ⟨-, z, hz, hzw⟩ := hin
  have hseq₁ : txn.snapshot.high < t₁.commit := lt_of_lt_of_le hseq₃ hle
  obtain ⟨r₁, hr₁, hc₁, hreads, -⟩ := h.recorded _ hlive t₁ h₁ hseq₁
  obtain ⟨r₃, hr₃, hc₃, -, hwrites⟩ := h.recorded _ hlive t₃ h₃ hseq₃
  have hnone := MvccStore.validateSsiReadSet_ok hv h.logOrder hr₁ hr₃ (hc₁ ▸ hseq₁) (hc₃ ▸ hseq₃)
    (hreads z hz) hzw ((OrdMap.mem_keys _).mp hy)
  simpa [hnone] using hwrites y hyw

theorem Inv.installed {x : Clients} (h : Inv x) {s : MvccStore} {txn : Transaction} {n c : Nat}
    {ws : List (Nat × Bytes)} (hlive : (txn.id, txn.snapshot) ∈ x.live)
    (hclean : ¬ closesStructure x.committed (asCommitted txn c))
    (hv : x.store.validateSsiReadSet txn = .ok n) (hws : x.store.versionBytes txn = .ok ws)
    (hi : x.store.Installed s txn c ws)
    (hlog : s.ssiLog = x.store.ssiLog ++ [MvccStore.ssiRecord txn c]) :
    Inv ⟨s, x.live.erase (txn.id, txn.snapshot), asCommitted txn c :: x.committed⟩ := by
  have hnext : s.nextCommit = x.store.nextCommit + 1 := by rw [hi.nextCommit, hi.seq]
  have hc : c = x.store.nextCommit := hi.seq
  have hlt : ∀ t ∈ x.committed, t.commit < c := hc ▸ h.below
  refine ⟨hi.conflictPolicy.trans h.strict, by simp only [hnext]; omega, ?_, ?_, ?_, ?_, ?_, ?_,
    ?_, ?_, ?_, ?_⟩
  · intro t ht
    have := h.live t (List.mem_of_mem_erase ht)
    simp only [hnext]
    omega
  · have := h.live _ hlive
    simp only [List.forall_mem_cons]
    exact ⟨by simpa only [asCommitted, hc] using this, h.span⟩
  · simp only [List.forall_mem_cons, hi.nextCommit]
    exact ⟨Nat.lt_succ_self c, fun t ht => Nat.lt_succ_of_lt (hlt t ht)⟩
  · simp only [List.forall_mem_cons]
    refine ⟨⟨fun _ => trivial, fun t ht heq => ?_⟩, fun t ht => ⟨fun heq => ?_, h.inj t ht⟩⟩
    · exact absurd heq.symm (Nat.ne_of_lt (hlt t ht))
    · exact absurd heq (Nat.ne_of_lt (hlt t ht))
  · simp only [List.forall_mem_cons]
    refine ⟨fun b hb => le_of_eq (hi.latest_writeSet hb).symm, fun t ht b hb => ?_⟩
    exact hi.covered (h.below t ht) (h.covered t ht b hb)
  · simp only [List.forall_mem_cons]
    refine ⟨⟨fun hself => absurd hself (lt_irrefl _), fun t ht hgt => ?_⟩,
      fun t ht => ⟨fun _ b hb hbw => ?_, h.fcw t ht⟩⟩
    · exact absurd hgt (Nat.lt_asymm (hlt t ht))
    · exact (h.covered t ht b hb).trans (MvccStore.versionBytes_strict hws h.strict hbw)
  · simp only [hlog, List.pairwise_append]
    refine ⟨h.logOrder, List.pairwise_singleton _ _, fun r hr r' hr' => ?_⟩
    rw [List.mem_singleton.mp hr']
    simpa only [MvccStore.ssiRecord, hc] using h.logBelow r hr
  · intro r hr
    simp only [hlog, List.mem_append, List.mem_singleton] at hr
    simp only [hi.nextCommit]
    rcases hr with hr | rfl
    · have := h.logBelow r hr; omega
    · exact Nat.lt_succ_self c
  · intro l hl t ht hlt'
    rw [hlog]
    rcases List.mem_cons.mp ht with rfl | ht
    · exact recorded_ssiRecord txn c _
    · exact (h.recorded l (List.mem_of_mem_erase hl) t ht hlt').mono fun r hr _ => by simp [hr]
  · -- The new transaction committed last, so it is not the first committer. As the pivot it
    -- was checked, and as the reader in front of a committed pivot it is excluded.
    intro w hw u hu v hv' hne hvu hvw hro hwu huv
    have hvold : v ∈ x.committed := by
      rcases List.mem_cons.mp hv' with rfl | hv'
      · rcases List.mem_cons.mp hu with rfl | hu
        · exact absurd hvu (lt_irrefl _)
        · exact absurd hvu (Nat.lt_asymm (hlt u hu))
      · exact hv'
    rcases List.mem_cons.mp hu with rfl | hu <;> rcases List.mem_cons.mp hw with rfl | hw
    · exact hne rfl
    · exact h.not_pivot hlive hv hw hvold hvw hwu huv
    · exact hclean ⟨u, hu, v, hvold, hvu, hro, hwu, huv⟩
    · exact h.pivot w hw u hu v hvold hne hvu hvw hro hwu huv

theorem Inv.step {x x' : Clients} {op : ClientOp} (h : Inv x) (hclean : x.clean op = true)
    (hstep : x.step op = some x') : Inv x' := by
  cases op with
  | «begin» =>
    cases hstep
    have hcur : x.store.currentSnapshot.high < x.store.nextCommit := by
      have := h.positive
      simp only [MvccStore.currentSnapshot]
      omega
    refine ⟨h.strict, h.positive, ?_, h.span, h.below, h.inj, h.covered, h.fcw, h.logOrder,
      h.logBelow, ?_, h.pivot⟩
    · exact List.forall_mem_cons.mpr ⟨hcur, h.live⟩
    · refine List.forall_mem_cons.mpr ⟨fun t ht hlt => ?_, h.recorded⟩
      have := h.below t ht
      simp only [MvccStore.begin, Transaction.new, MvccStore.currentSnapshot] at hlt
      omega
  | commitSsi txn =>
    simp only [Clients.step, Option.ite_none_right_eq_some, Option.some.injEq] at hstep
    obtain ⟨hlive, rfl⟩ := hstep
    replace hlive := List.contains_iff_mem.mp hlive
    unfold commitResult
    cases hc : x.store.commitSsi txn with
    | mk s r =>
      cases r with
      | error e =>
        exact h.sameData (MvccStore.commitSsi_error hc) _ fun t ht => List.mem_of_mem_erase ht
      | ok c =>
        obtain ⟨sp, ws, n, -, hsame, hval, hws, hi, hlog⟩ := MvccStore.commitSsi_ok hc
        have hsp := h.sameData hsame x.live fun _ ht => ht
        have hseq : c = x.store.nextCommit := hi.seq.trans hsame.nextCommit
        refine hsp.installed hlive ?_ hval hws hi (by simpa only [hsame.ssiLog] using hlog)
        simpa [clean, ← hseq] using hclean
  | abort id snapshot =>
    cases hstep
    exact h.sameData (MvccStore.SameData.refl _) _ fun t ht => List.mem_of_mem_erase ht
  | register snapshot =>
    cases hstep
    exact ⟨h.strict, h.positive, h.live, h.span, h.below, h.inj, h.covered, h.fcw, h.logOrder,
      h.logBelow, h.recorded, h.pivot⟩
  | release snapshot =>
    cases hstep
    exact h.sameData (x.store.releaseSnapshot_sameData snapshot) _ fun _ ht => ht
  | pruneSafe =>
    cases hstep
    refine ⟨h.strict, h.positive, h.live, h.span, h.below, h.inj, ?_, h.fcw, h.logOrder,
      h.logBelow, h.recorded, h.pivot⟩
    simpa only [MvccStore.pruneSafe_latest] using h.covered
  | pruneSsiLog watermark =>
    simp only [Clients.step, Option.ite_none_right_eq_some, Option.some.injEq] at hstep
    obtain ⟨hwm, rfl⟩ := hstep
    refine ⟨h.strict, h.positive, h.live, h.span, h.below, h.inj, h.covered, h.fcw,
      h.logOrder.filter _, fun r hr => h.logBelow r (List.mem_of_mem_filter hr), ?_, h.pivot⟩
    -- Records a live transaction may need are above the watermark.
    intro l hl t ht hlt
    refine (h.recorded l hl t ht hlt).mono fun r hr hseq => List.mem_filter.mpr ⟨hr, ?_⟩
    have := hwm l hl
    rw [decide_eq_true_eq, hseq]
    omega

theorem Inv.run {x y : Clients} {ops : List ClientOp} (h : Inv x) (hclean : x.cleanRun ops = true)
    (hrun : x.run ops = some y) : Inv y := by
  induction ops generalizing x with
  | nil =>
    simp only [Clients.run, Option.some.injEq] at hrun
    exact hrun ▸ h
  | cons op ops ih =>
    simp only [Clients.run, Option.bind_eq_some_iff] at hrun
    obtain ⟨x', hstep, hrun⟩ := hrun
    simp only [cleanRun, hstep, Option.all_some, Bool.and_eq_true] at hclean
    exact ih (h.step hclean.1 hstep) hclean.2 hrun

theorem Inv.acyclic {x : Clients} (h : Inv x) : Acyclic x.committed :=
  SnapshotTxn.acyclic_of_no_pivot h.span h.inj h.fcw h.pivot

/-- **Serializability.** The committed transactions of a clean run have an acyclic direct
serialization graph. -/
theorem acyclic_of_cleanRun (compression : CompressionPolicy) (config : AdaptivePolicyConfig)
    (ops : List ClientOp) (x : Clients) (hrun : (new compression config).run ops = some x)
    (hclean : (new compression config).cleanRun ops = true) : Acyclic x.committed := by
  have hnew : Inv (new compression config) := by
    refine ⟨rfl, Nat.one_pos, ?_, ?_, ?_, ?_, ?_, ?_, List.Pairwise.nil, ?_, ?_, ?_⟩ <;>
      simp [new, MvccStore.new]
  exact (hnew.run hclean hrun).acyclic

end Clients

end Runs

/-! ## A report between two writers -/

def twoWriters : List ClientOp :=
  [.begin, .begin, .commitSsi ((Transaction.new 2 ⟨0⟩).stageWrite 6 [1]), .begin,
    .commitSsi (((Transaction.new 1 ⟨0⟩).recordRead 6 0).stageWrite 5 [1])]

def readOnlyReport : List ClientOp :=
  twoWriters ++ [.commitSsi (((Transaction.new 3 ⟨1⟩).recordRead 6 1).recordRead 5 0)]

theorem acyclic_of_cleanRun_twoWriters :
    let _ := exactPlatform
    ∃ x, (Clients.new default exactConfig).run twoWriters = some x ∧
      x.committed = [⟨0, 2, [6], [5]⟩, ⟨0, 1, [], [6]⟩] ∧ Acyclic x.committed := by
  let _ := exactPlatform
  have hmap : ((Clients.new default exactConfig).run twoWriters).map Clients.committed =
      some [⟨0, 2, [6], [5]⟩, ⟨0, 1, [], [6]⟩] := by decide
  obtain ⟨x, hrun, hcom⟩ := Option.map_eq_some_iff.mp hmap
  exact ⟨x, hrun, hcom,
    Clients.acyclic_of_cleanRun default exactConfig twoWriters x hrun (by decide)⟩

/-- All three commits of the report go through, and the report is in a cycle: it precedes
transaction 1, which precedes transaction 2, whose write the report read. -/
theorem readOnlyReport_cyclic :
    let _ := exactPlatform
    ∃ x, (Clients.new default exactConfig).run readOnlyReport = some x ∧
      ¬ Acyclic x.committed := by
  let _ := exactPlatform
  have hmap : ((Clients.new default exactConfig).run readOnlyReport).map Clients.committed =
      some [⟨1, 3, [5, 6], []⟩, ⟨0, 2, [6], [5]⟩, ⟨0, 1, [], [6]⟩] := by decide
  obtain ⟨x, hrun, hcom⟩ := Option.map_eq_some_iff.mp hmap
  refine ⟨x, hrun, fun hacyclic => hacyclic ⟨1, 3, [5, 6], []⟩ ?_⟩
  rw [hcom]
  have h₁ : SnapshotTxn.Edge [⟨1, 3, [5, 6], []⟩, ⟨0, 2, [6], [5]⟩, ⟨0, 1, [], [6]⟩]
      ⟨1, 3, [5, 6], []⟩ ⟨0, 2, [6], [5]⟩ :=
    ⟨by decide, by decide, by decide, 5, Or.inr (Or.inr (by decide))⟩
  have h₂ : SnapshotTxn.Edge [⟨1, 3, [5, 6], []⟩, ⟨0, 2, [6], [5]⟩, ⟨0, 1, [], [6]⟩]
      ⟨0, 2, [6], [5]⟩ ⟨0, 1, [], [6]⟩ :=
    ⟨by decide, by decide, by decide, 6, Or.inr (Or.inr (by decide))⟩
  have h₃ : SnapshotTxn.Edge [⟨1, 3, [5, 6], []⟩, ⟨0, 2, [6], [5]⟩, ⟨0, 1, [], [6]⟩]
      ⟨0, 1, [], [6]⟩ ⟨1, 3, [5, 6], []⟩ :=
    ⟨by decide, by decide, by decide, 6, Or.inr (Or.inl (by decide))⟩
  exact ((Relation.TransGen.single h₁).tail h₂).tail h₃

end FrankenFs.Mvcc.Serializability
