import FrankenFs.Mvcc.Sharded
import FrankenFs.Mvcc.History

/-!
# Interleaved commits on the sharded store

A commit locks its shards, checks, draws a sequence, installs block by block, unlocks, and
publishes. Anything that needs none of its locks may happen in between.
-/

open FrankenFs.Lib

namespace FrankenFs.Mvcc

/-! ## The system -/

structure InFlight where
  txn : Transaction
  guards : List Nat
  pending : List (Nat × StagedWrite)

/-- A commit that drew its sequence, with the blocks whose conflict it merged. -/
structure CommitRecord where
  seq : Nat
  txn : Transaction
  merged : List Nat

structure Pruning where
  watermark : Nat
  nextShard : Nat

structure ShardedSystem where
  store : ShardedMvccStore
  inFlight : OrdMap Nat InFlight
  unpublished : List Nat
  pruning : Option Pruning
  commits : List CommitRecord
  history : Nat → Entries

inductive ShardedStep where
  | beginRegistered
  | release (snapshot : Snapshot)
  /-- Validation, the shard locks, the preflight and the draw. -/
  | commit (txn : Transaction) (effective : ConflictPolicy)
  | install (seq : Nat)
  | unlock (seq : Nat)
  | announce (seq : Nat)
  | advance
  | pruneSafe
  | pruneShard
  | pruneDone

namespace ShardedSystem

def new (shardCount : Nat) (policy : CompressionPolicy) (mode : PublicationMode) :
    ShardedSystem :=
  ⟨.withCompressionPolicy shardCount policy mode, ∅, [], none, [], fun _ => []⟩

def locked (x : ShardedSystem) (idx : Nat) : Bool :=
  x.inFlight.entries.any fun e => e.2.guards.contains idx

theorem not_mem_of_not_locked {x : ShardedSystem} {idx : Nat} (h : x.locked idx = false) {c : Nat} {f : InFlight}
    (hf : x.inFlight.get? c = some f) : idx ∉ f.guards := by
  intro hmem
  have hany : x.locked idx = true :=
    List.any_eq_true.mpr ⟨(c, f), (OrdMap.mem_entries _).mpr hf, by simpa using hmem⟩
  rw [h] at hany
  cases hany

def chain (x : ShardedSystem) (block : Nat) : List BlockVersion :=
  (x.store.shardOf block).chain block

theorem chain_setShard (x : ShardedSystem) (idx : Nat) (shard : MvccShard) (b : Nat) :
    ((x.store.setShard idx shard).shardOf b).chain b =
      if x.store.shardIndex b = idx then shard.chain b else x.chain b := by
  show (Function.update x.store.shards idx shard (x.store.shardIndex b)).chain b = _
  rw [Function.update_apply]
  split_ifs <;> rfl

def commitsOf (x : ShardedSystem) (block : Nat) : List (Nat × CommitRecord) :=
  x.commits.filterMap fun r => if block ∈ r.txn.writeSet then some (r.seq, r) else none

theorem mem_commitsOf {x : ShardedSystem} {block c : Nat} {r : CommitRecord} :
    (c, r) ∈ x.commitsOf block ↔ r ∈ x.commits ∧ block ∈ r.txn.writeSet ∧ r.seq = c := by
  simp only [commitsOf, List.mem_filterMap]
  constructor
  · rintro ⟨r', hr', heq⟩
    split_ifs at heq with hb
    cases heq
    exact ⟨hr', hb, rfl⟩
  · rintro ⟨hr, hb, rfl⟩
    exact ⟨r, hr, if_pos hb⟩

theorem installed_same (x : ShardedSystem) {block : Nat} {shard : MvccShard} {entries : Entries}
    (hother : ∀ b, b ≠ block → shard.chain b = (x.store.shardOf block).chain b) {b : Nat}
    (hb : b ≠ block) :
    Function.update x.history block entries b = x.history b ∧
      ((x.store.setShard (x.store.shardIndex block) shard).shardOf b).chain b = x.chain b := by
  refine ⟨Function.update_of_ne hb _ _, ?_⟩
  rw [chain_setShard]
  split_ifs with heq
  · rw [hother b hb, chain, ShardedMvccStore.shardOf, ShardedMvccStore.shardOf, heq]
  · rfl

variable [Platform]

/-- The commit up to its draw, with every lock it needs free. An error or a panic releases
the locks, also the panic of `into_staged_writes`, which comes after the draw. -/
def startCommit (x : ShardedSystem) (txn : Transaction) (effective : ConflictPolicy) :
    ShardedSystem :=
  match x.store.preflightFcwLocked txn (x.store.involvedShards txn) effective with
  | .error _ => x
  | .ok () =>
    match x.store.nextCommitSeq with
    | .error _ => x
    | .ok (store, seq) =>
      if txn.cowWrites.entries.isEmpty && txn.cowOrphans.entries.isEmpty then
        { x with
          store := store
          inFlight := x.inFlight.insert seq
            ⟨txn, x.store.involvedShards txn, txn.stagedWrites.entries⟩
          commits := x.commits ++ [⟨seq, txn, x.store.conflictingBlocks txn⟩] }
      else { x with store := store }

def installNext (x : ShardedSystem) (seq : Nat) (f : InFlight) (block : Nat)
    (staged : StagedWrite) (pending : List (Nat × StagedWrite)) : ShardedSystem :=
  match (x.store.shardOf block).installCommittedVersionLocked block staged f.txn.snapshot seq
      f.txn.id x.store.compressionPolicy.dedupIdentical with
  | none => { x with inFlight := x.inFlight.erase seq }
  | some (shard, bytes) =>
    { x with
      store := x.store.setShard (x.store.shardIndex block) shard
      inFlight := x.inFlight.insert seq { f with pending := pending }
      history := Function.update x.history block (x.history block ++ [(seq, bytes)]) }

/-- `none` where the step has to wait, or is not there to be taken. -/
def step (x : ShardedSystem) : ShardedStep → Option ShardedSystem
  | .beginRegistered =>
    if x.pruning.isNone then some { x with store := x.store.beginRegistered.1 } else none
  | .release snapshot =>
    if x.pruning.isNone then some { x with store := x.store.releaseSnapshot snapshot } else none
  | .commit txn effective =>
    match validateTransactionId txn.id with
    | .error _ => some x
    | .ok () =>
      if txn.writeSet.isEmpty then some x
      else if (x.store.involvedShards txn).any x.locked then none
      else some (x.startCommit txn effective)
  | .install seq =>
    match x.inFlight.get? seq with
    | some f =>
      match f.pending with
      | (block, staged) :: pending => some (x.installNext seq f block staged pending)
      | [] => none
    | none => none
  | .unlock seq =>
    match x.inFlight.get? seq with
    | some f =>
      if f.pending.isEmpty then
        some
          { x with
            store := { x.store with anyVersionInstalled := true }
            inFlight := x.inFlight.erase seq
            unpublished := seq :: x.unpublished }
      else none
    | none => none
  | .announce seq =>
    if x.unpublished.contains seq then
      (x.store.publicationGate.announce seq).map fun gate =>
        { x with
          store := { x.store with publicationGate := gate }
          unpublished := x.unpublished.erase seq }
    else none
  | .advance =>
    x.store.publicationGate.advance.map fun gate =>
      { x with store := { x.store with publicationGate := gate } }
  | .pruneSafe =>
    if x.pruning.isNone then some { x with pruning := some ⟨x.store.pruneWatermark, 0⟩ } else none
  | .pruneShard =>
    match x.pruning with
    | some p =>
      if p.nextShard < x.store.shardCount ∧ !x.locked p.nextShard then
        some
          { x with
            store := x.store.setShard p.nextShard
              ((x.store.shards p.nextShard).pruneOlderThan p.watermark)
            pruning := some { p with nextShard := p.nextShard + 1 } }
      else none
    | none => none
  | .pruneDone =>
    match x.pruning with
    | some p => if p.nextShard = x.store.shardCount then some { x with pruning := none } else none
    | none => none

def run (x : ShardedSystem) : List ShardedStep → Option ShardedSystem
  | [] => some x
  | op :: ops => (x.step op).bind fun x' => x'.run ops

/-! ## The invariant -/

def completed (x : ShardedSystem) : Nat := x.store.publicationGate.completedCommit

def active (x : ShardedSystem) (k : Nat) : Prop := (x.store.activeSnapshots.get? k).isSome

def Complete (x : ShardedSystem) (r : CommitRecord) : Prop :=
  ∀ b ∈ r.txn.writeSet, ∃ bytes, (r.seq, bytes) ∈ x.history b

/-- On its way to readers: unlocked, announced or published. -/
def Ready (x : ShardedSystem) (c : Nat) : Prop :=
  c ∈ x.unpublished ∨ x.store.publicationGate.Announced c ∨ 1 ≤ c ∧ c ≤ x.completed

/-- A commit that holds its locks. What it has not installed yet is as its preflight saw it. -/
structure Flight (x : ShardedSystem) (c : Nat) (f : InFlight) : Prop where
  record : ∃ r ∈ x.commits, r.seq = c ∧ r.txn = f.txn ∧ ∀ e ∈ f.pending, e.1 ∉ r.merged →
    (x.store.shardOf e.1).latestCommitSeqInShard e.1 ≤ f.txn.snapshot.high
  guards : ∀ b ∈ f.txn.writeSet, x.store.shardIndex b ∈ f.guards
  split : ∃ done, f.txn.stagedWrites.entries = done ++ f.pending ∧
    ∀ e ∈ done, ∃ bytes, (c, bytes) ∈ x.history e.1
  above : ∀ e ∈ f.pending, ∀ h ∈ x.history e.1, h.1 < c
  mergeable : ∀ e ∈ f.pending,
    ((x.store.shardOf e.1).mergedWriteBytesLocked e.1 f.txn.snapshot e.2).isSome

structure Inv (x : ShardedSystem) (floor : Nat) : Prop where
  bound : 0 < x.store.nextCommit ∧ x.store.nextCommit ≤ u64Max
  drawn : ∀ r ∈ x.commits, 0 < r.seq ∧ r.seq < x.store.nextCommit
  ordered : x.commits.Pairwise fun r r' => r.seq < r'.seq
  ascending : ∀ b, Ascending (x.history b)
  source : ∀ b c bytes, (c, bytes) ∈ x.history b → ∃ r ∈ x.commits, r.seq = c ∧
    b ∈ r.txn.writeSet ∧ (b ∉ r.merged → r.txn.stagedWrite b = some bytes)
  flights : ∀ c f, x.inFlight.get? c = some f → x.Flight c f
  exclusive : ∀ c c' f f', x.inFlight.get? c = some f → x.inFlight.get? c' = some f' → c ≠ c' →
    ∀ i ∈ f.guards, i ∉ f'.guards
  placed : ∀ r ∈ x.commits, (x.inFlight.get? r.seq).isSome ∨ x.Complete r
  ready : ∀ c, x.Ready c → x.inFlight.get? c = none ∧ (∃ r ∈ x.commits, r.seq = c) ∧
    x.store.anyVersionInstalled = true
  current : floor ≤ x.completed
  snapshots : ∀ k, x.active k → floor ≤ k ∧ k ≤ x.completed
  pruning : ∀ p, x.pruning = some p → p.watermark = floor
  home : ∀ i b, (x.store.shards i).chain b ≠ [] → x.store.shardIndex b = i
  chains : ∀ b, ∃ post, Trimmed floor (x.history b) post ∧ Stores (x.chain b) post
  firstCommitterWins : ∀ r ∈ x.commits, ∀ r' ∈ x.commits, r.seq < r'.seq →
    ∀ b ∈ r.txn.writeSet, b ∈ r'.txn.writeSet → b ∉ r'.merged → r.seq ≤ r'.txn.snapshot.high

section Steps

variable {x : ShardedSystem} {floor : Nat}

variable {f : InFlight}

theorem Flight.frame {c : Nat} {f : InFlight} (h : x.Flight c f) {x' : ShardedSystem}
    (hmask : x'.store.shardMask = x.store.shardMask) (hcommits : ∀ r ∈ x.commits, r ∈ x'.commits)
    (hsame : ∀ b, x.store.shardIndex b ∈ f.guards →
      x'.history b = x.history b ∧ x'.chain b = x.chain b) : x'.Flight c f := by
  have hin : ∀ e ∈ f.txn.stagedWrites.entries, x.store.shardIndex e.1 ∈ f.guards := fun e he =>
    h.guards e.1 (List.mem_map_of_mem he)
  obtain ⟨done, hsplit, hdone⟩ := h.split
  have hpend : ∀ e ∈ f.pending, x.store.shardIndex e.1 ∈ f.guards := fun e he =>
    hin e (by rw [hsplit]; simp [he])
  refine ⟨?_, fun b hb => ?_, ⟨done, hsplit, fun e he => ?_⟩, fun e he => ?_, fun e he => ?_⟩
  · obtain ⟨r, hr, hseq, htxn, hmerged⟩ := h.record
    refine ⟨r, hcommits r hr, hseq, htxn, fun e he hne => ?_⟩
    have := hmerged e he hne
    rwa [MvccShard.latestCommitSeqInShard_eq, show (x'.store.shardOf e.1).chain e.1 =
      (x.store.shardOf e.1).chain e.1 from (hsame e.1 (hpend e he)).2,
      ← MvccShard.latestCommitSeqInShard_eq]
  · rw [ShardedMvccStore.shardIndex, hmask]
    exact h.guards b hb
  · rw [(hsame e.1 (hin e (by rw [hsplit]; simp [he]))).1]
    exact hdone e he
  · rw [(hsame e.1 (hpend e he)).1]
    exact h.above e he
  · rw [MvccShard.mergedWriteBytesLocked_congr (hsame e.1 (hpend e he)).2]
    exact h.mergeable e he

theorem Inv.completed_lt (h : Inv x floor) : x.completed < x.store.nextCommit := by
  rcases Nat.eq_zero_or_pos x.completed with hz | hpos
  · rw [hz]
    exact h.bound.1
  · obtain ⟨-, ⟨r, hr, hseq⟩, -⟩ := h.ready x.completed (Or.inr (Or.inr ⟨hpos, le_rfl⟩))
    rw [← hseq]
    exact (h.drawn r hr).2

/-! ## Snapshots, publication and pruning -/

theorem Inv.setSnapshots (h : Inv x floor) {s : ShardedMvccStore} {active : OrdMap Nat Nat}
    {nextTxn : Nat} (hs : s = { x.store with activeSnapshots := active, nextTxn := nextTxn })
    (hactive : ∀ k, (active.get? k).isSome → x.active k ∨ k = x.completed) :
    Inv { x with store := s } floor := by
  subst hs
  refine { h with
    flights := fun c f hf => (h.flights c f hf).frame rfl (fun _ hr => hr) fun _ _ => ⟨rfl, rfl⟩
    snapshots := fun k hk => ?_ }
  rcases hactive k hk with hk | rfl
  · exact h.snapshots k hk
  · exact ⟨h.current, le_rfl⟩

variable {gate : CommitPublicationGate}

theorem Inv.setGate (h : Inv x floor) {gate : CommitPublicationGate} {unpublished : List Nat}
    (hcompleted : x.completed ≤ gate.completedCommit)
    (hready : ∀ c, c ∈ unpublished ∨ gate.Announced c ∨ 1 ≤ c ∧ c ≤ gate.completedCommit →
      x.Ready c) :
    Inv { x with
      store := { x.store with publicationGate := gate }
      unpublished := unpublished } floor :=
  { h with
    flights := fun c f hf => (h.flights c f hf).frame rfl (fun _ hr => hr) fun _ _ => ⟨rfl, rfl⟩
    ready := fun c hc => h.ready c (hready c hc)
    current := h.current.trans hcompleted
    snapshots := fun k hk => ⟨(h.snapshots k hk).1, (h.snapshots k hk).2.trans hcompleted⟩ }

variable {seq : Nat}

theorem Inv.announce (h : Inv x floor) (hmem : seq ∈ x.unpublished)
    (hg : x.store.publicationGate.announce seq = some gate) :
    Inv { x with
      store := { x.store with publicationGate := gate }
      unpublished := x.unpublished.erase seq } floor := by
  obtain ⟨hcompleted, hannounced⟩ := CommitPublicationGate.announce_cases hg
  refine h.setGate hcompleted.ge fun c hc => ?_
  rcases hc with hc | hc | hc
  · exact Or.inl (List.mem_of_mem_erase hc)
  · rcases hannounced c hc with hc | rfl
    · exact Or.inr (Or.inl hc)
    · exact Or.inl hmem
  · rw [hcompleted] at hc
    exact Or.inr (Or.inr hc)

theorem Inv.advance (h : Inv x floor) (hg : x.store.publicationGate.advance = some gate) :
    Inv { x with store := { x.store with publicationGate := gate } } floor := by
  have hlt := h.completed_lt
  have hbound := h.bound.2
  obtain ⟨hcompleted, hnext, hannounced⟩ :=
    CommitPublicationGate.advance_cases hg (show x.completed < u64Max by omega)
  refine h.setGate (by rw [hcompleted]; exact Nat.le_succ _) fun c hc => ?_
  rcases hc with hc | hc | ⟨hpos, hle⟩
  · exact Or.inl hc
  · exact Or.inr (Or.inl (hannounced c hc))
  · rcases Nat.lt_or_ge x.completed c with hgt | hge
    · have hc : c = x.store.publicationGate.completedCommit + 1 := by
        have : x.completed = x.store.publicationGate.completedCommit := rfl
        omega
      exact Or.inr (Or.inl (hc ▸ hnext))
    · exact Or.inr (Or.inr ⟨hpos, hge⟩)

theorem Inv.pruneSafe (h : Inv x floor) :
    Inv { x with pruning := some ⟨x.store.pruneWatermark, 0⟩ } x.store.pruneWatermark := by
  have hw : floor ≤ x.store.pruneWatermark ∧ x.store.pruneWatermark ≤ x.completed ∧
      ∀ k, x.active k → x.store.pruneWatermark ≤ k := by
    unfold ShardedMvccStore.pruneWatermark
    cases hmin : x.store.activeSnapshots.minKey? with
    | none =>
      refine ⟨h.current, le_rfl, fun k hk => ?_⟩
      have := (OrdMap.minKey?_eq_none _).mp hmin k
      rw [active, this] at hk
      cases hk
    | some k₀ =>
      have hk₀ := h.snapshots k₀ (OrdMap.get?_of_minKey? _ hmin)
      exact ⟨hk₀.1, hk₀.2, fun k hk => OrdMap.minKey?_le _ hmin hk⟩
  exact
    { h with
      flights := fun c f hf => (h.flights c f hf).frame rfl (fun _ hr => hr) fun _ _ => ⟨rfl, rfl⟩
      current := hw.2.1
      snapshots := fun k hk => ⟨hw.2.2 k hk, (h.snapshots k hk).2⟩
      pruning := fun p hp => by cases hp; rfl
      chains := fun b => by
        obtain ⟨post, htrim, hst⟩ := h.chains b
        exact ⟨post, htrim.mono hw.1, hst⟩ }

theorem Inv.pruneShard (h : Inv x floor) {p : Pruning} (hp : x.pruning = some p)
    (hfree : x.locked p.nextShard = false) :
    Inv { x with
      store := x.store.setShard p.nextShard
        ((x.store.shards p.nextShard).pruneOlderThan p.watermark)
      pruning := some { p with nextShard := p.nextShard + 1 } } floor := by
  have hw := h.pruning p hp
  refine { h with
    flights := fun c f hf => ?_
    pruning := fun p' hp' => ?_
    home := fun i b hb => ?_
    chains := fun b => ?_ }
  · refine (h.flights c f hf).frame rfl (fun _ hr => hr) fun b hb => ⟨rfl, ?_⟩
    refine (chain_setShard x _ _ b).trans (if_neg fun heq => ?_)
    exact not_mem_of_not_locked hfree hf (heq ▸ hb)
  · cases hp'
    exact hw
  · refine h.home i b fun hnil => hb ?_
    simp only [ShardedMvccStore.setShard, Function.update_apply]
    split_ifs with heq
    · subst heq
      rw [MvccShard.pruneOlderThan_chain, hnil]
      split_ifs <;> rfl
    · exact hnil
  · obtain ⟨post, htrim, hst⟩ := h.chains b
    simp only [chain, chain_setShard]
    split_ifs with heq
    · obtain ⟨post', htrim', hst'⟩ := MvccShard.pruneOlderThan_stores hst p.watermark
      rw [hw] at htrim'
      refine ⟨post', htrim.trans htrim', ?_⟩
      rw [← heq]
      exact hst'
    · exact ⟨post, htrim, hst⟩

/-! ## Commits -/

theorem Inv.record_unique (h : Inv x floor) {r r' : CommitRecord} (hr : r ∈ x.commits)
    (hr' : r' ∈ x.commits) (heq : r.seq = r'.seq) : r = r' := by
  have hnd : (x.commits.map CommitRecord.seq).Nodup := by
    rw [List.Nodup, List.pairwise_map]
    exact h.ordered.imp ne_of_lt
  exact List.inj_on_of_nodup_map hnd hr hr' heq

theorem Inv.history_lt (h : Inv x floor) {b : Nat} {e : Nat × Bytes} (he : e ∈ x.history b) :
    e.1 < x.store.nextCommit := by
  obtain ⟨r, hr, hseq, -⟩ := h.source b e.1 e.2 he
  rw [← hseq]
  exact (h.drawn r hr).2

theorem Inv.latest (h : Inv x floor) (b : Nat) :
    (x.store.shardOf b).latestCommitSeqInShard b =
      ((x.history b).getLast?.map Prod.fst).getD 0 := by
  obtain ⟨post, ⟨pre, heq, hpre⟩, hst⟩ := h.chains b
  rw [MvccShard.latestCommitSeqInShard_eq, show (x.store.shardOf b).chain b = x.chain b from rfl,
    hst.latest, heq]
  rcases hpre with rfl | ⟨e, he, -⟩
  · rfl
  · have hne : post ≠ [] := by
      rintro rfl
      cases he
    rw [List.getLast?_append_of_ne_nil pre hne]

theorem Inv.le_latest (h : Inv x floor) {b : Nat} {e : Nat × Bytes} (he : e ∈ x.history b) :
    e.1 ≤ (x.store.shardOf b).latestCommitSeqInShard b := by
  rw [h.latest]
  cases hl : (x.history b).getLast? with
  | none =>
    rw [List.getLast?_eq_none_iff.mp hl] at he
    cases he
  | some last => exact (h.ascending b).le_last hl e he

theorem Inv.unlock (h : Inv x floor) (hf : x.inFlight.get? seq = some f) (hdone : f.pending = []) :
    Inv { x with
      store := { x.store with anyVersionInstalled := true }
      inFlight := x.inFlight.erase seq
      unpublished := seq :: x.unpublished } floor := by
  have hflight := h.flights seq f hf
  obtain ⟨r₀, hr₀, hseq₀, htxn₀, -⟩ := hflight.record
  have hget : ∀ c, (x.inFlight.erase seq).get? c = if c = seq then none else x.inFlight.get? c :=
    fun c => OrdMap.get?_erase ..
  refine { h with
    flights := fun c f' hf' => ?_
    exclusive := fun c c' f₁ f₂ h₁ h₂ => ?_
    placed := fun r hr => ?_
    ready := fun c hc => ?_ }
  · rw [hget] at hf'
    split_ifs at hf'
    exact (h.flights c f' hf').frame rfl (fun _ hr => hr) fun _ _ => ⟨rfl, rfl⟩
  · rw [hget] at h₁ h₂
    split_ifs at h₁ h₂
    exact h.exclusive c c' f₁ f₂ h₁ h₂
  · rw [hget]
    split_ifs with heq
    · -- Nothing is pending, so every block is done.
      right
      obtain rfl := h.record_unique hr hr₀ (heq.trans hseq₀.symm)
      obtain ⟨done, hsplit, hdone'⟩ := hflight.split
      rw [hdone, List.append_nil] at hsplit
      intro b hb
      rw [htxn₀, Transaction.writeSet, OrdMap.keys, hsplit] at hb
      obtain ⟨e, he, rfl⟩ := List.mem_map.mp hb
      rw [heq]
      exact hdone' e he
    · exact h.placed r hr
  · have hcases : c = seq ∨ x.Ready c := by
      rcases hc with hc | hc
      · exact (List.mem_cons.mp hc).imp_right Or.inl
      · exact Or.inr (Or.inr hc)
    rw [hget]
    rcases hcases with rfl | hc
    · exact ⟨if_pos rfl, ⟨r₀, hr₀, hseq₀⟩, rfl⟩
    · obtain ⟨hnone, hrec, -⟩ := h.ready c hc
      refine ⟨?_, hrec, rfl⟩
      rw [hnone, ite_self]

theorem Inv.draw (h : Inv x floor) {txn : Transaction} {effective : ConflictPolicy}
    (hfree : ∀ i ∈ x.store.involvedShards txn, x.locked i = false)
    (hpre : x.store.preflightFcwLocked txn (x.store.involvedShards txn) effective = .ok ())
    (hseq : x.store.nextCommit + 1 ≤ u64Max) :
    Inv { x with
      store := { x.store with nextCommit := x.store.nextCommit + 1 }
      inFlight := x.inFlight.insert x.store.nextCommit
        ⟨txn, x.store.involvedShards txn, txn.stagedWrites.entries⟩
      commits := x.commits ++
        [⟨x.store.nextCommit, txn, x.store.conflictingBlocks txn⟩] } floor := by
  have hget := fun c => OrdMap.get?_insert x.inFlight x.store.nextCommit c
    ⟨txn, x.store.involvedShards txn, txn.stagedWrites.entries⟩
  have hold : ∀ r ∈ x.commits, r ∈ x.commits ++
      [⟨x.store.nextCommit, txn, x.store.conflictingBlocks txn⟩] := fun r hr =>
    List.mem_append_left _ hr
  refine { h with
    bound := ⟨Nat.succ_pos _, hseq⟩
    drawn := fun r hr => ?_
    ordered := ?_
    source := fun b c bytes hb => ?_
    flights := fun c f hf => ?_
    exclusive := fun c c' f₁ f₂ h₁ h₂ hne => ?_
    placed := fun r hr => ?_
    ready := fun c hc => ?_
    firstCommitterWins := fun r hr r' hr' hlt b hb hb' hm => ?_ }
  · rcases List.mem_append.mp hr with hr | hr
    · exact ⟨(h.drawn r hr).1, Nat.lt_succ_of_lt (h.drawn r hr).2⟩
    · rw [List.mem_singleton.mp hr]
      exact ⟨h.bound.1, Nat.lt_succ_self _⟩
  · refine List.pairwise_append.mpr ⟨h.ordered, List.pairwise_singleton _ _, fun r hr r' hr' => ?_⟩
    rw [List.mem_singleton.mp hr']
    exact (h.drawn r hr).2
  · obtain ⟨r, hr, hrest⟩ := h.source b c bytes hb
    exact ⟨r, hold r hr, hrest⟩
  · rw [hget] at hf
    split_ifs at hf with hc
    · subst hc
      cases hf
      have hmem : ∀ e ∈ txn.stagedWrites.entries, e.1 ∈ txn.writeSet := fun e he =>
        List.mem_map_of_mem he
      refine ⟨⟨_, List.mem_append_right _ (List.mem_singleton_self _), rfl, rfl, fun e he hm => ?_⟩,
        fun b hb => x.store.mem_involvedShards hb, ⟨[], rfl, by simp⟩,
        fun e _ e' he' => h.history_lt he', fun e he => ?_⟩
      · by_contra hlt
        exact hm (List.mem_filter.mpr ⟨hmem e he, decide_eq_true (not_le.mp hlt)⟩)
      · exact ShardedMvccStore.preflightFcwLocked_ok hpre ((OrdMap.mem_entries _).mp he)
    · exact (h.flights c f hf).frame rfl hold fun _ _ => ⟨rfl, rfl⟩
  · rw [hget] at h₁ h₂
    split_ifs at h₁ h₂ with hc hc' hc'
    · exact absurd (hc.trans hc'.symm) hne
    · cases h₁
      exact fun i hi => not_mem_of_not_locked (hfree i hi) h₂
    · cases h₂
      exact fun i hi hi' => not_mem_of_not_locked (hfree i hi') h₁ hi
    · exact h.exclusive c c' f₁ f₂ h₁ h₂ hne
  · rw [hget]
    rcases List.mem_append.mp hr with hr | hr
    · rw [if_neg (ne_of_lt (h.drawn r hr).2)]
      exact h.placed r hr
    · rw [List.mem_singleton.mp hr, if_pos rfl]
      exact Or.inl rfl
  · obtain ⟨hnone, ⟨r, hr, hrc⟩, hflag⟩ := h.ready c hc
    refine ⟨?_, ⟨r, hold r hr, hrc⟩, hflag⟩
    rw [hget, if_neg (hrc ▸ ne_of_lt (h.drawn r hr).2)]
    exact hnone
  · have hr : r ∈ x.commits := by
      rcases List.mem_append.mp hr with hr | hr
      · exact hr
      · rw [List.mem_singleton.mp hr] at hlt
        rcases List.mem_append.mp hr' with hr' | hr'
        · exact absurd hlt (not_lt.mpr (le_of_lt (h.drawn r' hr').2))
        · rw [List.mem_singleton.mp hr'] at hlt
          exact absurd hlt (lt_irrefl _)
    rcases List.mem_append.mp hr' with hr' | hr'
    · exact h.firstCommitterWins r hr r' hr' hlt b hb hb' hm
    · rw [List.mem_singleton.mp hr'] at hb' hm ⊢
      -- The earlier commit left its locks, so its version of the block is in the chain.
      have hdone : x.Complete r := by
        refine (h.placed r hr).resolve_left fun hfly => ?_
        obtain ⟨f, hf⟩ := Option.isSome_iff_exists.mp hfly
        obtain ⟨r₀, hr₀, hseq₀, htxn₀, -⟩ := (h.flights _ f hf).record
        obtain rfl := h.record_unique hr₀ hr hseq₀
        rw [htxn₀] at hb
        exact not_mem_of_not_locked (hfree _ (x.store.mem_involvedShards hb')) hf
          ((h.flights _ f hf).guards b hb)
      obtain ⟨bytes, hbytes⟩ := hdone b hb
      refine (h.le_latest hbytes).trans ?_
      by_contra hgt
      exact hm (List.mem_filter.mpr ⟨hb', by simpa using hgt⟩)

theorem Inv.installed (h : Inv x floor) {seq : Nat} {f : InFlight}
    (hf : x.inFlight.get? seq = some f) {block : Nat} {staged : StagedWrite}
    {pending : List (Nat × StagedWrite)} (hp : f.pending = (block, staged) :: pending)
    (hne : ∀ e ∈ pending, e.1 ≠ block) (hguard : x.store.shardIndex block ∈ f.guards)
    (hstaged : f.txn.stagedWrites.get? block = some staged) {bytes : Bytes}
    (hbytes : (x.store.shardOf block).mergedWriteBytesLocked block f.txn.snapshot staged =
      some bytes)
    {post : Entries} (htrim : Trimmed floor (x.history block) post) {shard : MvccShard}
    (hstores : Stores (shard.chain block) (post ++ [(seq, bytes)]))
    (hother : ∀ b, b ≠ block → shard.chain b = (x.store.shardOf block).chain b) :
    Inv { x with
      store := x.store.setShard (x.store.shardIndex block) shard
      inFlight := x.inFlight.insert seq { f with pending := pending }
      history := Function.update x.history block (x.history block ++ [(seq, bytes)]) } floor := by
  have hflight := h.flights seq f hf
  have hhead : (block, staged) ∈ f.pending := by rw [hp]; exact List.mem_cons_self
  have htail : ∀ e ∈ pending, e ∈ f.pending := fun e he => by rw [hp]; exact List.mem_cons_of_mem _ he
  have hget := fun c => OrdMap.get?_insert x.inFlight seq c { f with pending := pending }
  have hsame : ∀ b, b ≠ block →
      Function.update x.history block (x.history block ++ [(seq, bytes)]) b = x.history b ∧ _ :=
    fun b hb => x.installed_same hother hb
  have hgrow : ∀ b e, e ∈ x.history b →
      e ∈ Function.update x.history block (x.history block ++ [(seq, bytes)]) b := by
    intro b e he
    rw [Function.update_apply]
    split_ifs with hb
    · subst hb
      exact List.mem_append_left _ he
    · exact he
  obtain ⟨r₀, hr₀, hseq₀, htxn₀, hmerged₀⟩ := hflight.record
  refine { h with
    ascending := fun b => ?_
    source := fun b c bytes' hb => ?_
    flights := fun c f' hf' => ?_
    exclusive := fun c c' f₁ f₂ h₁ h₂ hcc => ?_
    placed := fun r hr => ?_
    ready := fun c hc => ?_
    home := fun i b hb => ?_
    chains := fun b => ?_ }
  · by_cases hb : b = block
    · subst hb
      simp only [Function.update_self]
      refine List.pairwise_append.mpr ⟨h.ascending b, List.pairwise_singleton _ _, ?_⟩
      intro e he e' he'
      rw [List.mem_singleton.mp he']
      exact hflight.above _ hhead e he
    · simp only [(hsame b hb).1]
      exact h.ascending b
  · by_cases hnew : b = block ∧ (c, bytes') = (seq, bytes)
    · obtain ⟨rfl, hnew⟩ := hnew
      cases hnew
      refine ⟨r₀, hr₀, hseq₀, ?_, fun hm => ?_⟩
      · rw [htxn₀]
        exact (OrdMap.mem_keys _).mpr (by rw [hstaged]; rfl)
      · -- Without a conflict the staged bytes are installed as they are.
        rw [htxn₀, Transaction.stagedWrite, hstaged, Option.map_some, ← hbytes]
        simp only [MvccShard.mergedWriteBytesLocked, if_pos (hmerged₀ _ hhead hm)]
    · refine h.source b c bytes' ?_
      simp only [Function.update_apply] at hb
      split_ifs at hb with heq
      · subst heq
        exact (List.mem_append.mp hb).resolve_right fun hlast =>
          hnew ⟨rfl, List.mem_singleton.mp hlast⟩
      · exact hb
  · rw [hget] at hf'
    split_ifs at hf' with hc
    · subst hc
      cases hf'
      obtain ⟨done, hsplit, hdone⟩ := hflight.split
      refine ⟨⟨r₀, hr₀, hseq₀, htxn₀, fun e he hm => ?_⟩, hflight.guards,
        ⟨done ++ [(block, staged)], by simp [hsplit, hp], fun e he => ?_⟩, fun e he => ?_,
        fun e he => ?_⟩
      · have := hmerged₀ e (htail e he) hm
        rw [MvccShard.latestCommitSeqInShard_eq] at this ⊢
        rwa [(hsame e.1 (hne e he)).2]
      · rcases List.mem_append.mp he with he | he
        · obtain ⟨old, hold⟩ := hdone e he
          exact ⟨old, hgrow _ _ hold⟩
        · rw [List.mem_singleton.mp he]
          exact ⟨bytes, by simp⟩
      · simp only [(hsame e.1 (hne e he)).1]
        exact hflight.above e (htail e he)
      · rw [MvccShard.mergedWriteBytesLocked_congr (hsame e.1 (hne e he)).2]
        exact hflight.mergeable e (htail e he)
    · -- Another flight holds other shards.
      refine (h.flights c f' hf').frame rfl (fun _ hr => hr) fun b hb => hsame b ?_
      rintro rfl
      exact h.exclusive seq c f f' hf hf' (Ne.symm hc) _ hguard hb
  · have hflies : ∀ c f', (x.inFlight.insert seq { f with pending := pending }).get? c = some f' →
        ∃ f₀, x.inFlight.get? c = some f₀ ∧ f'.guards = f₀.guards := by
      intro c f' hf'
      rw [hget] at hf'
      split_ifs at hf' with hc
      · cases hf'
        exact ⟨f, hc ▸ hf, rfl⟩
      · exact ⟨f', hf', rfl⟩
    obtain ⟨g₁, hg₁, heq₁⟩ := hflies c f₁ h₁
    obtain ⟨g₂, hg₂, heq₂⟩ := hflies c' f₂ h₂
    rw [heq₁, heq₂]
    exact h.exclusive c c' g₁ g₂ hg₁ hg₂ hcc
  · rcases h.placed r hr with hfly | hcomplete
    · left
      rw [hget]
      split_ifs
      · rfl
      · exact hfly
    · right
      intro b hb
      obtain ⟨old, hold⟩ := hcomplete b hb
      exact ⟨old, hgrow b _ hold⟩
  · obtain ⟨hnone, hrec, hflag⟩ := h.ready c hc
    refine ⟨?_, hrec, hflag⟩
    rw [hget, if_neg, hnone]
    rintro rfl
    rw [hnone] at hf
    cases hf
  · simp only [ShardedMvccStore.setShard, Function.update_apply] at hb
    split_ifs at hb with heq
    · by_cases hbb : b = block
      · rw [hbb, heq]
        rfl
      · rw [hother b hbb] at hb
        exact (h.home _ b hb).trans heq.symm
    · exact h.home i b hb
  · by_cases hb : b = block
    · subst hb
      refine ⟨post ++ [(seq, bytes)], ?_, ?_⟩
      · simp only [Function.update_self]
        exact htrim.snoc _
      · simp only [chain, chain_setShard, if_true]
        exact hstores
    · obtain ⟨post', htrim', hst'⟩ := h.chains b
      refine ⟨post', ?_, ?_⟩
      · simp only [(hsame b hb).1]
        exact htrim'
      · simp only [chain, (hsame b hb).2]
        exact hst'

theorem Inv.installNext (h : Inv x floor) (hf : x.inFlight.get? seq = some f) {block : Nat}
    {staged : StagedWrite} {pending : List (Nat × StagedWrite)}
    (hp : f.pending = (block, staged) :: pending) :
    Inv (x.installNext seq f block staged pending) floor := by
  have hflight := h.flights seq f hf
  obtain ⟨done, hsplit, hdone⟩ := hflight.split
  have hhead : (block, staged) ∈ f.pending := by rw [hp]; exact List.mem_cons_self
  have htail : ∀ e ∈ pending, e ∈ f.pending := fun e he => by rw [hp]; exact List.mem_cons_of_mem _ he
  have hstaged : f.txn.stagedWrites.get? block = some staged :=
    (OrdMap.mem_entries _).mp (by rw [hsplit]; exact List.mem_append_right _ hhead)
  have hwrites : block ∈ f.txn.writeSet := (OrdMap.mem_keys _).mpr (by rw [hstaged]; rfl)
  have hguard := hflight.guards block hwrites
  -- A block is staged once.
  have hne : ∀ e ∈ pending, e.1 ≠ block := by
    intro e he
    have hs := f.txn.stagedWrites.sorted
    rw [hsplit, hp] at hs
    exact (ne_of_lt ((List.pairwise_cons.mp (List.pairwise_append.mp hs).2.1).1 e he)).symm
  obtain ⟨bytes, hbytes⟩ := Option.isSome_iff_exists.mp (hflight.mergeable _ hhead)
  obtain ⟨post, htrim, hst⟩ := h.chains block
  have hpost : ∀ e ∈ post, e.1 < seq := by
    obtain ⟨pre, heq, -⟩ := htrim
    exact fun e he => hflight.above _ hhead e (by rw [heq]; exact List.mem_append_right _ he)
  unfold ShardedSystem.installNext
  cases hi : (x.store.shardOf block).installCommittedVersionLocked block staged f.txn.snapshot seq
      f.txn.id x.store.compressionPolicy.dedupIdentical with
  | none =>
    rw [MvccShard.installCommittedVersionLocked, hbytes] at hi
    cases hi
  | some res =>
    obtain ⟨shard, bytes'⟩ := res
    obtain ⟨hmerged, hstores, hother⟩ :=
      MvccShard.installCommittedVersionLocked_spec hi hst hpost
    obtain rfl : bytes' = bytes := by rw [hbytes] at hmerged; exact (Option.some.inj hmerged).symm
    exact h.installed hf hp hne hguard hstaged hbytes htrim hstores hother

/-! ## Runs -/

theorem Inv.startCommit (h : Inv x floor) {txn : Transaction} {effective : ConflictPolicy}
    (hfree : ∀ i ∈ x.store.involvedShards txn, x.locked i = false) :
    Inv (x.startCommit txn effective) floor := by
  unfold ShardedSystem.startCommit
  split
  · exact h
  · rename_i hpre
    unfold ShardedMvccStore.nextCommitSeq
    by_cases hseq : x.store.nextCommit + 1 ≤ u64Max
    · simp only [if_pos hseq]
      split_ifs
      · exact h.draw hfree hpre hseq
      · -- The sequence is lost: no commit has it.
        exact
          { h with
            bound := ⟨Nat.succ_pos _, hseq⟩
            drawn := fun r hr => ⟨(h.drawn r hr).1, Nat.lt_succ_of_lt (h.drawn r hr).2⟩
            flights := fun c f hf =>
              (h.flights c f hf).frame rfl (fun _ hr => hr) fun _ _ => ⟨rfl, rfl⟩ }
    · simp only [if_neg hseq]
      exact h

theorem Inv.beginRegistered (h : Inv x floor) :
    Inv { x with store := x.store.beginRegistered.1 } floor := by
  obtain ⟨nextTxn, active, hstore, hactive⟩ := x.store.beginRegistered_store
  exact h.setSnapshots hstore hactive

theorem Inv.step (h : Inv x floor) {op : ShardedStep} {x' : ShardedSystem}
    (hstep : x.step op = some x') : ∃ floor', Inv x' floor' := by
  cases op with
  | beginRegistered =>
    simp only [ShardedSystem.step] at hstep
    split_ifs at hstep
    cases hstep
    exact ⟨floor, h.beginRegistered⟩
  | release snapshot =>
    simp only [ShardedSystem.step] at hstep
    split_ifs at hstep
    cases hstep
    refine ⟨floor, h.setSnapshots rfl fun k hk => Or.inl ?_⟩
    simp only [OrdMap.get?_alter] at hk
    split_ifs at hk with heq
    · subst heq
      cases hc : x.store.activeSnapshots.get? snapshot.high with
      | none => rw [hc] at hk; cases hk
      | some n => rw [active, hc]; rfl
    · exact hk
  | commit txn effective =>
    simp only [ShardedSystem.step] at hstep
    split at hstep
    · cases hstep
      exact ⟨floor, h⟩
    · split_ifs at hstep with hempty hlocked
      · cases hstep
        exact ⟨floor, h⟩
      · cases hstep
        refine ⟨floor, h.startCommit fun i hi => ?_⟩
        by_contra hl
        exact hlocked (List.any_eq_true.mpr ⟨i, hi, by simpa using hl⟩)
  | install seq =>
    simp only [ShardedSystem.step] at hstep
    split at hstep
    · rename_i f hf
      split at hstep
      · rename_i hp
        cases hstep
        exact ⟨floor, h.installNext hf hp⟩
      · cases hstep
    · cases hstep
  | unlock seq =>
    simp only [ShardedSystem.step] at hstep
    split at hstep
    · rename_i f hf
      split_ifs at hstep with hdone
      cases hstep
      exact ⟨floor, h.unlock hf (List.isEmpty_iff.mp hdone)⟩
    · cases hstep
  | announce seq =>
    simp only [ShardedSystem.step] at hstep
    split_ifs at hstep with hmem
    obtain ⟨gate, hg, rfl⟩ := Option.map_eq_some_iff.mp hstep
    exact ⟨floor, h.announce (by simpa using hmem) hg⟩
  | advance =>
    obtain ⟨gate, hg, rfl⟩ := Option.map_eq_some_iff.mp hstep
    exact ⟨floor, h.advance hg⟩
  | pruneSafe =>
    simp only [ShardedSystem.step] at hstep
    split_ifs at hstep
    cases hstep
    exact ⟨_, h.pruneSafe⟩
  | pruneShard =>
    simp only [ShardedSystem.step] at hstep
    split at hstep
    · rename_i p hp
      split_ifs at hstep with hfree
      cases hstep
      exact ⟨floor, h.pruneShard hp (by simpa using hfree.2)⟩
    · cases hstep
  | pruneDone =>
    simp only [ShardedSystem.step] at hstep
    split at hstep
    · split_ifs at hstep
      cases hstep
      refine ⟨floor, { h with flights := fun c f hf => ?_, pruning := fun p hp => ?_ }⟩
      · exact (h.flights c f hf).frame rfl (fun _ hr => hr) fun _ _ => ⟨rfl, rfl⟩
      · cases hp
    · cases hstep

theorem Inv.run (h : Inv x floor) {ops : List ShardedStep} {x' : ShardedSystem}
    (hrun : x.run ops = some x') : ∃ floor', Inv x' floor' := by
  induction ops generalizing x floor with
  | nil =>
    cases hrun
    exact ⟨floor, h⟩
  | cons op ops ih =>
    obtain ⟨mid, hmid, hrest⟩ := Option.bind_eq_some_iff.mp hrun
    obtain ⟨floor', h'⟩ := h.step hmid
    exact ih h' hrest

end Steps

theorem inv_new (shardCount : Nat) (policy : CompressionPolicy) (mode : PublicationMode) :
    Inv (new shardCount policy mode) 0 where
  bound := ⟨Nat.one_pos, show 1 ≤ u64Max by decide⟩
  drawn r hr := by cases hr
  ordered := List.Pairwise.nil
  ascending b := List.Pairwise.nil
  source b c bytes hb := by cases hb
  flights c f hf := by cases hf
  exclusive c c' f f' hf := by cases hf
  placed r hr := by cases hr
  ready c hc := by
    rcases hc with hc | (hc | ⟨hne, slot, hc⟩) | ⟨hpos, hle⟩
    · cases hc
    · cases hc
    · exact absurd hc.symm hne
    · exact absurd (hpos.trans hle) (show ¬ 1 ≤ 0 by decide)
  current := le_rfl
  snapshots k hk := by cases hk
  pruning p hp := by cases hp
  home i b hb := absurd rfl hb
  chains b := ⟨[], Trimmed.refl _ _, stores_nil⟩
  firstCommitterWins r hr := by cases hr

/-! ## What a snapshot sees -/

def newestCommit (x : ShardedSystem) (block s : Nat) : Option CommitRecord :=
  asOf (x.commitsOf block) s

def installedBytes (x : ShardedSystem) (block : Nat) (r : CommitRecord) : Option Bytes :=
  (x.history block).lookup r.seq

/-- A snapshot of a transaction that is registered, or one taken now. -/
def Taken (x : ShardedSystem) (s : Nat) : Prop := x.active s ∨ s = x.completed

section Reads

variable {x : ShardedSystem} {floor : Nat}

theorem Inv.commitsOf_sorted (h : Inv x floor) (block : Nat) :
    (x.commitsOf block).Pairwise fun a b => a.1 < b.1 := by
  refine List.Pairwise.filterMap _ ?_ h.ordered
  intro r r' hlt e he e' he'
  split_ifs at he he'
  cases he
  cases he'
  exact hlt

variable {s : Nat}

theorem Inv.taken (h : Inv x floor) (hs : x.Taken s) : floor ≤ s ∧ s ≤ x.completed := by
  rcases hs with hs | rfl
  · exact h.snapshots s hs
  · exact ⟨h.current, le_rfl⟩

theorem Inv.newest (h : Inv x floor) (hs : s ≤ x.completed) (b : Nat) :
    (x.newestCommit b s = none ∧ asOf (x.history b) s = none) ∨
      ∃ r bytes, x.newestCommit b s = some r ∧ (r.seq, bytes) ∈ x.history b ∧ r.seq ≤ s ∧
        (∀ e ∈ x.history b, e.1 ≤ s → e.1 ≤ r.seq) ∧ asOf (x.history b) s = some bytes := by
  have hcommit : ∀ e ∈ x.history b, ∃ r, (e.1, r) ∈ x.commitsOf b := by
    intro e he
    obtain ⟨r, hr, hseq, hb, -⟩ := h.source b e.1 e.2 he
    exact ⟨r, mem_commitsOf.mpr ⟨hr, hb, hseq⟩⟩
  cases hn : x.newestCommit b s with
  | none =>
    refine Or.inl ⟨rfl, asOf_eq_none.mpr fun e he => ?_⟩
    obtain ⟨r, hr⟩ := hcommit e he
    exact asOf_eq_none.mp hn _ hr
  | some r =>
    obtain ⟨c, hmem, hle, hmax⟩ := (asOf_eq_some (h.commitsOf_sorted b)).mp hn
    obtain ⟨hr, hb, rfl⟩ := mem_commitsOf.mp hmem
    -- A published commit has left its locks, so it is installed.
    have hready : x.Ready r.seq := Or.inr (Or.inr ⟨(h.drawn r hr).1, hle.trans hs⟩)
    have hcomplete : x.Complete r := (h.placed r hr).resolve_left (by
      rw [(h.ready _ hready).1]
      exact Bool.false_ne_true)
    obtain ⟨bytes, hbytes⟩ := hcomplete b hb
    have hnewest : ∀ e ∈ x.history b, e.1 ≤ s → e.1 ≤ r.seq := by
      intro e he hes
      obtain ⟨r', hr'⟩ := hcommit e he
      exact hmax _ hr' hes
    refine Or.inr ⟨r, bytes, rfl, hbytes, hle, hnewest, ?_⟩
    exact (asOf_eq_some (h.ascending b)).mpr ⟨r.seq, hbytes, hle, hnewest⟩

theorem Inv.readVisible (h : Inv x floor) (hs : x.Taken s) (b : Nat) :
    x.store.readVisible b ⟨s⟩ = (x.newestCommit b s).bind (x.installedBytes b) := by
  obtain ⟨hfloor, hcompleted⟩ := h.taken hs
  have hread : x.store.readVisible b ⟨s⟩ = asOf (x.history b) s := by
    obtain ⟨post, htrim, hst⟩ := h.chains b
    have hasc : Ascending post := by
      obtain ⟨pre, heq, -⟩ := htrim
      have := h.ascending b
      rw [heq] at this
      exact this.sublist (List.sublist_append_right _ _)
    unfold ShardedMvccStore.readVisible
    split_ifs with hflag
    · rw [MvccShard.bytesAtOrBefore_eq, ← htrim.asOf hfloor]
      exact hst.read hasc s
    · -- Nothing was published, and no commit has sequence 0.
      refine (asOf_eq_none.mpr fun e he => ?_).symm
      obtain ⟨r, hr, hseq, -⟩ := h.source b e.1 e.2 he
      have hpos := (h.drawn r hr).1
      have hzero : x.completed = 0 := by
        by_contra hne
        refine hflag (h.ready x.completed (Or.inr (Or.inr ⟨?_, le_rfl⟩))).2.2
        omega
      omega
  rw [hread]
  rcases h.newest hcompleted b with ⟨hn, hnone⟩ | ⟨r, bytes, hn, hmem, -, -, hsome⟩
  · rw [hn, hnone]
    rfl
  · have hnd : ((x.history b).map Prod.fst).Nodup := by
      rw [List.Nodup, List.pairwise_map]
      exact (h.ascending b).imp ne_of_lt
    rw [hn, hsome, Option.bind_some, installedBytes, lookup_of_mem hnd hmem]

theorem Inv.visibleSeq (h : Inv x floor) (hs : x.Taken s) (b : Nat) :
    (x.store.shardOf b).latestPublishedCommitSeqInShard b s =
      ((x.newestCommit b s).map CommitRecord.seq).getD 0 := by
  obtain ⟨hfloor, hcompleted⟩ := h.taken hs
  obtain ⟨post, htrim, hst⟩ := h.chains b
  have hasOf := htrim.asOf hfloor
  obtain ⟨pre, heq, -⟩ := htrim
  have hasc := h.ascending b
  rw [heq] at hasc
  have hasc' : Ascending post := hasc.sublist (List.sublist_append_right _ _)
  rw [MvccShard.latestPublishedCommitSeqInShard_eq]
  rcases hst.visible hasc' s with ⟨hidx, hnone⟩ | ⟨i, v, e, hidx, hv, he, hve, hle, hmax, hsome⟩
  · rcases h.newest hcompleted b with ⟨hn, -⟩ | ⟨r, bytes, -, -, -, -, hsome⟩
    · rw [hn, show newestVisibleIndex ((x.store.shardOf b).chain b) s = none from hidx]
      rfl
    · rw [← hasOf, hnone] at hsome
      cases hsome
  · rcases h.newest hcompleted b with ⟨-, hnone⟩ | ⟨r, bytes, hn, hmem, hrs, hnewest, -⟩
    · rw [← hasOf, hsome] at hnone
      cases hnone
    · have hpost : e ∈ post := List.mem_of_getElem? he
      have h1 : e.1 ≤ r.seq := hnewest e (by rw [heq]; exact List.mem_append_right _ hpost) hle
      have h2 : r.seq ≤ e.1 := by
        rw [heq] at hmem
        rcases List.mem_append.mp hmem with hmem | hmem
        · exact le_of_lt ((List.pairwise_append.mp hasc).2.2 _ hmem e hpost)
        · exact hmax _ hmem hrs
      rw [hn, show newestVisibleIndex ((x.store.shardOf b).chain b) s = some i from hidx,
        Option.bind_some, show ((x.store.shardOf b).chain b)[i]? = some v from hv]
      simp only [Option.map_some, Option.getD_some]
      omega

theorem Inv.allOrNone (h : Inv x floor) (hs : x.Taken s) {r : CommitRecord} (hr : r ∈ x.commits) :
    (∀ b ∈ r.txn.writeSet, r.seq ≤ (x.store.shardOf b).latestPublishedCommitSeqInShard b s) ∨
      ∀ b ∈ r.txn.writeSet, (x.store.shardOf b).latestPublishedCommitSeqInShard b s < r.seq := by
  rcases Nat.lt_or_ge s r.seq with hlt | hge
  · right
    intro b _
    rw [h.visibleSeq hs]
    cases hn : x.newestCommit b s with
    | none => exact (h.drawn r hr).1
    | some r' =>
      obtain ⟨c, hmem, hle, -⟩ := (asOf_eq_some (h.commitsOf_sorted b)).mp hn
      obtain ⟨-, -, rfl⟩ := mem_commitsOf.mp hmem
      exact lt_of_le_of_lt hle hlt
  · left
    intro b hb
    rw [h.visibleSeq hs]
    have hmine : (r.seq, r) ∈ x.commitsOf b := mem_commitsOf.mpr ⟨hr, hb, rfl⟩
    cases hn : x.newestCommit b s with
    | none => exact absurd (asOf_eq_none.mp hn _ hmine) (not_lt.mpr hge)
    | some r' =>
      obtain ⟨c, hmem, -, hmax⟩ := (asOf_eq_some (h.commitsOf_sorted b)).mp hn
      obtain ⟨-, -, rfl⟩ := mem_commitsOf.mp hmem
      exact hmax _ hmine hge

theorem Inv.unmerged (h : Inv x floor) {r : CommitRecord} (hr : r ∈ x.commits) {b : Nat}
    (hm : b ∉ r.merged) {bytes : Bytes} (hb : x.installedBytes b r = some bytes) :
    r.txn.stagedWrite b = some bytes := by
  obtain ⟨l₁, l₂, heq, -⟩ := List.lookup_eq_some_iff.mp hb
  obtain ⟨r', hr', hseq, -, hstaged⟩ := h.source b r.seq bytes (by rw [heq]; simp)
  obtain rfl := h.record_unique hr' hr hseq
  exact hstaged hm

theorem Inv.shardAscending (h : Inv x floor) (i b : Nat) :
    ((x.store.shards i).chain b).Pairwise fun v w => v.commitSeq < w.commitSeq := by
  by_cases hnil : (x.store.shards i).chain b = []
  · rw [hnil]
    exact List.Pairwise.nil
  · obtain ⟨post, ⟨pre, heq, -⟩, hst⟩ := h.chains b
    have hasc := h.ascending b
    rw [heq] at hasc
    have := hst.ascending (hasc.sublist (List.sublist_append_right _ _))
    rwa [chain, ShardedMvccStore.shardOf, h.home i b hnil] at this

end Reads

/-- **Atomic prefix visibility and first committer wins**, for every interleaving. A snapshot
sees the newest commit at or before it in each block, hence all or none of each commit. -/
theorem atomic_prefix_visibility (shardCount : Nat) (policy : CompressionPolicy)
    (mode : PublicationMode) {ops : List ShardedStep} {x : ShardedSystem}
    (hrun : (new shardCount policy mode).run ops = some x) :
    (∀ s, x.Taken s → ∀ b,
      x.store.readVisible b ⟨s⟩ = (x.newestCommit b s).bind (x.installedBytes b)) ∧
    (∀ r ∈ x.commits, ∀ b ∈ r.txn.writeSet, b ∉ r.merged → ∀ bytes,
      x.installedBytes b r = some bytes → r.txn.stagedWrite b = some bytes) ∧
    (∀ s, x.Taken s → ∀ r ∈ x.commits,
      (∀ b ∈ r.txn.writeSet,
        r.seq ≤ (x.store.shardOf b).latestPublishedCommitSeqInShard b s) ∨
      ∀ b ∈ r.txn.writeSet,
        (x.store.shardOf b).latestPublishedCommitSeqInShard b s < r.seq) ∧
    (∀ i b, ((x.store.shards i).chain b).Pairwise fun v w => v.commitSeq < w.commitSeq) ∧
    ∀ r ∈ x.commits, ∀ r' ∈ x.commits, r.seq < r'.seq →
      ∀ b ∈ r.txn.writeSet, b ∈ r'.txn.writeSet → b ∉ r'.merged →
        r.seq ≤ r'.txn.snapshot.high := by
  obtain ⟨floor, h⟩ := (inv_new shardCount policy mode).run hrun
  exact ⟨fun s hs b => h.readVisible hs b, fun r hr b _ hm bytes => h.unmerged hr hm,
    fun s hs r hr => h.allOrNone hs hr, h.shardAscending, h.firstCommitterWins⟩

/-! ## Two reads of one snapshot -/

section Repeats

variable {x x' : ShardedSystem} {floor : Nat}

structure Extends (x x' : ShardedSystem) : Prop where
  completed : x.completed ≤ x'.completed
  history : ∀ b, ∃ more, x'.history b = x.history b ++ more ∧ ∀ e ∈ more, x.completed < e.1

omit [Platform] in
theorem extends_of_same (hcompleted : x'.completed = x.completed) (hhistory : x'.history = x.history) :
    x.Extends x' :=
  ⟨hcompleted.ge, fun b => ⟨[], by rw [hhistory, List.append_nil], fun _ he => (by cases he)⟩⟩

omit [Platform] in
theorem Extends.trans {x'' : ShardedSystem} (h : x.Extends x') (h' : x'.Extends x'') :
    x.Extends x'' := by
  refine ⟨h.completed.trans h'.completed, fun b => ?_⟩
  obtain ⟨more, hmore, habove⟩ := h.history b
  obtain ⟨more', hmore', habove'⟩ := h'.history b
  refine ⟨more ++ more', by rw [hmore', hmore, List.append_assoc], fun e he => ?_⟩
  rcases List.mem_append.mp he with he | he
  · exact habove e he
  · exact lt_of_le_of_lt h.completed (habove' e he)

theorem Inv.extends_installNext (h : Inv x floor) {seq : Nat} {f : InFlight} {block : Nat}
    (hf : x.inFlight.get? seq = some f) (staged : StagedWrite) (pending : List (Nat × StagedWrite)) :
    x.Extends (x.installNext seq f block staged pending) := by
  unfold ShardedSystem.installNext
  split
  · exact extends_of_same rfl rfl
  · rename_i shard bytes _
    -- a commit that holds its locks is not published
    have habove : x.completed < seq := by
      by_contra hle
      obtain ⟨r, hr, hseq, -⟩ := (h.flights seq f hf).record
      have hpos : 0 < seq := hseq ▸ (h.drawn r hr).1
      have hnone := (h.ready seq (Or.inr (Or.inr ⟨hpos, not_lt.mp hle⟩))).1
      rw [hf] at hnone
      cases hnone
    refine ⟨le_rfl, fun b => ?_⟩
    by_cases hb : b = block
    · subst hb
      refine ⟨[(seq, bytes)], Function.update_self .., fun e he => ?_⟩
      rw [List.mem_singleton.mp he]
      exact habove
    · exact ⟨[], by rw [List.append_nil]; exact Function.update_of_ne hb ..,
        fun _ he => (by cases he)⟩

theorem Inv.extends_step (h : Inv x floor) {op : ShardedStep} (hstep : x.step op = some x') :
    x.Extends x' := by
  cases op with
  | beginRegistered =>
    simp only [ShardedSystem.step] at hstep
    split_ifs at hstep
    cases hstep
    obtain ⟨nextTxn, active, hstore, -⟩ := x.store.beginRegistered_store
    exact extends_of_same (by rw [completed, hstore]; rfl) rfl
  | commit txn effective =>
    simp only [ShardedSystem.step] at hstep
    split at hstep
    · cases hstep
      exact extends_of_same rfl rfl
    · split_ifs at hstep
      · cases hstep
        exact extends_of_same rfl rfl
      · cases hstep
        unfold ShardedSystem.startCommit ShardedMvccStore.nextCommitSeq
        grind [extends_of_same, completed]
  | install seq =>
    simp only [ShardedSystem.step] at hstep
    split at hstep
    · rename_i f hf
      split at hstep
      · cases hstep
        exact h.extends_installNext hf _ _
      · cases hstep
    · cases hstep
  | announce seq =>
    simp only [ShardedSystem.step] at hstep
    split_ifs at hstep
    obtain ⟨gate, hg, rfl⟩ := Option.map_eq_some_iff.mp hstep
    exact extends_of_same (CommitPublicationGate.announce_cases hg).1 rfl
  | advance =>
    obtain ⟨gate, hg, rfl⟩ := Option.map_eq_some_iff.mp hstep
    have hlt := h.completed_lt
    have hbound := h.bound.2
    have hnext := (CommitPublicationGate.advance_cases hg (show x.completed < u64Max by omega)).1
    refine ⟨(Nat.le_succ _).trans hnext.ge, fun b => ⟨[], (List.append_nil _).symm, ?_⟩⟩
    exact fun _ he => (by cases he)
  | release | unlock | pruneSafe | pruneShard | pruneDone =>
    simp only [ShardedSystem.step] at hstep
    grind [extends_of_same, completed, ShardedMvccStore.releaseSnapshot, ShardedMvccStore.setShard]

theorem Inv.extends_run (h : Inv x floor) {ops : List ShardedStep} (hrun : x.run ops = some x') :
    x.Extends x' := by
  induction ops generalizing x floor with
  | nil =>
    cases hrun
    exact extends_of_same rfl rfl
  | cons op ops ih =>
    obtain ⟨mid, hmid, hrest⟩ := Option.bind_eq_some_iff.mp hrun
    obtain ⟨floor', h'⟩ := h.step hmid
    exact (h.extends_step hmid).trans (ih h' hrest)

theorem Inv.readVisible_asOf (h : Inv x floor) {s : Nat} (hs : x.Taken s) (b : Nat) :
    x.store.readVisible b ⟨s⟩ = asOf (x.history b) s := by
  rw [h.readVisible hs]
  rcases h.newest (h.taken hs).2 b with ⟨hn, hnone⟩ | ⟨r, bytes, hn, hmem, -, -, hsome⟩
  · rw [hn, hnone]
    rfl
  · have hnd : ((x.history b).map Prod.fst).Nodup := by
      rw [List.Nodup, List.pairwise_map]
      exact (h.ascending b).imp ne_of_lt
    rw [hn, hsome, Option.bind_some, installedBytes, lookup_of_mem hnd hmem]

end Repeats

/-- **Reads of a snapshot repeat**, whatever commits, publications and prunings come between two of
them, while the snapshot is registered. -/
theorem snapshot_reads_repeat (shardCount : Nat) (policy : CompressionPolicy)
    (mode : PublicationMode) {ops more : List ShardedStep} {x x' : ShardedSystem}
    (hrun : (new shardCount policy mode).run ops = some x) (hmore : x.run more = some x') {s : Nat}
    (hs : x.Taken s) (hs' : x'.Taken s) (b : Nat) :
    x'.store.readVisible b ⟨s⟩ = x.store.readVisible b ⟨s⟩ := by
  obtain ⟨floor, h⟩ := (inv_new shardCount policy mode).run hrun
  obtain ⟨floor', h'⟩ := h.run hmore
  obtain ⟨versions, hversions, habove⟩ := (h.extends_run hmore).history b
  rw [h'.readVisible_asOf hs', h.readVisible_asOf hs, hversions]
  exact asOf_append_left fun e he => lt_of_le_of_lt (h.taken hs).2 (habove e he)

end ShardedSystem

/-! ## Two commits published out of order -/

section Examples

local instance shardedPlatform : Platform := exactPlatform

def crossedCommits : List ShardedStep :=
  [.beginRegistered,
    .commit (((Transaction.new 1 ⟨0⟩).stageWrite 0 [1]).stageWrite 1 [1]) .strict,
    .commit (((Transaction.new 2 ⟨0⟩).stageWrite 2 [2]).stageWrite 3 [2]) .strict,
    .install 2, .install 1, .install 2, .install 1, .unlock 2, .announce 2, .unlock 1,
    .announce 1, .advance, .beginRegistered, .advance, .pruneSafe, .pruneShard]

theorem atomic_prefix_visibility_crossedCommits :
    ∃ x, (ShardedSystem.new 4 default .waitFree).run crossedCommits = some x ∧ x.Taken 1 ∧
      x.store.readVisible 0 ⟨1⟩ = (x.newestCommit 0 1).bind (x.installedBytes 0) ∧
      x.store.readVisible 0 ⟨1⟩ = some [1] ∧ x.store.readVisible 2 ⟨1⟩ = none := by
  have h : ((ShardedSystem.new 4 default .waitFree).run crossedCommits).map
      (fun x => ((x.store.activeSnapshots.get? 1).isSome, x.store.readVisible 0 ⟨1⟩,
        x.store.readVisible 2 ⟨1⟩)) = some (true, some [1], none) := by decide
  obtain ⟨x, hrun, hx⟩ := Option.map_eq_some_iff.mp h
  simp only [Prod.mk.injEq] at hx
  refine ⟨x, hrun, Or.inl hx.1, ?_, hx.2.1, hx.2.2⟩
  exact (ShardedSystem.atomic_prefix_visibility 4 default .waitFree hrun).1 1 (Or.inl hx.1) 0

theorem snapshot_reads_repeat_crossedCommits :
    ∃ x x', (ShardedSystem.new 4 default .waitFree).run (crossedCommits.take 13) = some x ∧
      x.run (crossedCommits.drop 13) = some x' ∧ x.completed = 1 ∧ x'.completed = 2 ∧
      x'.store.readVisible 2 ⟨1⟩ = x.store.readVisible 2 ⟨1⟩ := by
  have h : (((ShardedSystem.new 4 default .waitFree).run (crossedCommits.take 13)).bind fun x =>
      (x.run (crossedCommits.drop 13)).map fun x' => (x.completed, x'.completed,
        (x'.store.activeSnapshots.get? 1).isSome)) = some (1, 2, true) := by decide
  obtain ⟨x, hrun, hx⟩ := Option.bind_eq_some_iff.mp h
  obtain ⟨x', hmore, hx'⟩ := Option.map_eq_some_iff.mp hx
  simp only [Prod.mk.injEq] at hx'
  refine ⟨x, x', hrun, hmore, hx'.1, hx'.2.1, ?_⟩
  exact ShardedSystem.snapshot_reads_repeat 4 default .waitFree hrun hmore (Or.inr hx'.1.symm)
    (Or.inl hx'.2.2) 2

end Examples

end FrankenFs.Mvcc
