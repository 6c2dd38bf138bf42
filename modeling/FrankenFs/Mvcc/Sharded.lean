import FrankenFs.Mvcc.Chain
import FrankenFs.Mvcc.Transaction
import Mathlib.Data.List.Dedup
import Mathlib.Data.List.Sort
import Mathlib.Data.List.TakeWhile
import Mathlib.Logic.Function.Basic

/-!
# `ShardedMvccStore`

The store of `sharded.rs`, cut where its locks are cut. Left out are the evidence sink, the counters,
the SSI log and the contention metrics. The metrics only choose the policy that a commit reads before
it takes its locks, so that policy is an argument here.
-/

open FrankenFs.Lib

namespace FrankenFs.Mvcc

/-! ## The publication gate -/

inductive PublicationMode where
  | mutex
  | waitFree
  | waitFreeNoSpin
deriving DecidableEq, Repr

def publicationRingSlots : Nat := 1024
def publicationRingMask : Nat := publicationRingSlots - 1

structure CommitPublicationGate where
  completedCommit : Nat
  mode : PublicationMode
  readyCommits : OrdMap Nat Unit
  /-- A slot that was never written holds 0. -/
  ring : Nat → Nat

namespace CommitPublicationGate

def withMode (mode : PublicationMode) : CommitPublicationGate := ⟨0, mode, ∅, fun _ => 0⟩

def announce (g : CommitPublicationGate) (seq : Nat) : Option CommitPublicationGate :=
  if g.completedCommit ≥ seq then some g
  else
    match g.mode with
    | .mutex => some { g with readyCommits := g.readyCommits.insert seq () }
    | .waitFree | .waitFreeNoSpin =>
      if seq - g.completedCommit ≥ publicationRingSlots then none
      else some { g with ring := Function.update g.ring (seq &&& publicationRingMask) seq }

/-- One turn of the loop of `advance_ready_prefix` or `drain_ready_prefix`. `none` where the
loop ends. -/
def advance (g : CommitPublicationGate) : Option CommitPublicationGate :=
  match g.mode with
  | .mutex =>
    let next := u64SaturatingAdd g.completedCommit 1
    if (g.readyCommits.get? next).isSome then
      some { g with completedCommit := next, readyCommits := g.readyCommits.erase next }
    else none
  | .waitFree | .waitFreeNoSpin =>
    let next := (g.completedCommit + 1) % 2 ^ 64
    if g.ring (next &&& publicationRingMask) = next then
      some { g with completedCommit := next }
    else none

def Announced (g : CommitPublicationGate) (c : Nat) : Prop :=
  (g.readyCommits.get? c).isSome ∨ c ≠ 0 ∧ ∃ slot, g.ring slot = c

theorem announce_cases {g g' : CommitPublicationGate} {seq : Nat} (h : g.announce seq = some g') :
    g'.completedCommit = g.completedCommit ∧ ∀ c, g'.Announced c → g.Announced c ∨ c = seq := by
  unfold announce at h
  split at h
  · cases h
    exact ⟨rfl, fun c hc => Or.inl hc⟩
  · cases hm : g.mode with
    | mutex =>
      simp only [hm, Option.some.injEq] at h
      subst h
      refine ⟨rfl, fun c hc => ?_⟩
      rcases hc with hc | hc
      · simp only [OrdMap.get?_insert] at hc
        split_ifs at hc with heq
        · exact Or.inr heq
        · exact Or.inl (Or.inl hc)
      · exact Or.inl (Or.inr hc)
    | waitFree | waitFreeNoSpin =>
      simp only [hm] at h
      split_ifs at h
      cases h
      refine ⟨rfl, fun c hc => ?_⟩
      rcases hc with hc | ⟨h0, slot, hc⟩
      · exact Or.inl (Or.inl hc)
      · by_cases hs : slot = seq &&& publicationRingMask
        · subst hs
          simp only [Function.update_self] at hc
          exact Or.inr hc.symm
        · simp only [Function.update_of_ne hs] at hc
          exact Or.inl (Or.inr ⟨h0, slot, hc⟩)

theorem advance_cases {g g' : CommitPublicationGate} (h : g.advance = some g')
    (hlt : g.completedCommit < u64Max) :
    g'.completedCommit = g.completedCommit + 1 ∧ g.Announced (g.completedCommit + 1) ∧
      ∀ c, g'.Announced c → g.Announced c := by
  have hbound : u64Max = 2 ^ 64 - 1 := rfl
  unfold advance at h
  cases hm : g.mode with
  | mutex =>
    have hnext : u64SaturatingAdd g.completedCommit 1 = g.completedCommit + 1 := by
      unfold u64SaturatingAdd
      omega
    simp only [hm, hnext] at h
    split_ifs at h with hready
    cases h
    refine ⟨rfl, Or.inl hready, fun c hc => ?_⟩
    rcases hc with hc | hc
    · simp only [OrdMap.get?_erase] at hc
      split_ifs at hc
      · simp at hc
      · exact Or.inl hc
    · exact Or.inr hc
  | waitFree | waitFreeNoSpin =>
    have hnext : (g.completedCommit + 1) % 2 ^ 64 = g.completedCommit + 1 :=
      Nat.mod_eq_of_lt (by omega)
    simp only [hm, hnext] at h
    split_ifs at h with hready
    cases h
    exact ⟨rfl, Or.inr ⟨by omega, _, hready⟩, fun c hc => hc⟩

end CommitPublicationGate

/-! ## Shards -/

structure MvccShard where
  versions : OrdMap Nat (List BlockVersion)
  pruneCandidates : OrdMap Nat Unit

def maxMvccShards : Nat := 1024

/-- `usize::next_power_of_two`. -/
def nextPowerOfTwo (n : Nat) : Nat := if n ≤ 1 then 1 else 2 ^ (Nat.log2 (n - 1) + 1)

structure ShardedMvccStore where
  shards : Nat → MvccShard
  shardCount : Nat
  shardMask : Nat
  nextTxn : Nat
  nextCommit : Nat
  publicationGate : CommitPublicationGate
  anyVersionInstalled : Bool
  activeSnapshots : OrdMap Nat Nat
  compressionPolicy : CompressionPolicy

namespace MvccShard

variable [Platform]

def chain (shard : MvccShard) (block : Nat) : List BlockVersion :=
  (shard.versions.get? block).getD []

def latestCommitSeqInShard (shard : MvccShard) (block : Nat) : Nat :=
  (((shard.versions.get? block).bind List.getLast?).map BlockVersion.commitSeq).getD 0

def latestPublishedCommitSeqInShard (shard : MvccShard) (block publishedHigh : Nat) : Nat :=
  ((shard.versions.get? block).bind fun versions =>
    (newestVisibleIndex versions publishedHigh).bind fun idx =>
      versions[idx]?.map BlockVersion.commitSeq).getD 0

def bytesAtOrBefore (shard : MvccShard) (block visibleHigh : Nat) : Option Bytes :=
  (shard.versions.get? block).bind fun versions => resolveVersionBytesAtOrBefore versions visibleHigh

def checkWriteMergeableLocked (txn : Transaction) (block : Nat) (shard : MvccShard) :
    Except Stop Unit :=
  match txn.stagedWrite block with
  | none =>
    .error (.error (.durabilityFailure
      s!"write_set keys must have staged bytes: BlockNumber({block})"))
  | some staged =>
    let observed := shard.latestCommitSeqInShard block
    if observed ≤ txn.snapshot.high then .ok ()
    else
      let proof := (txn.mergeProof block).getD default
      let base := ((shard.bytesAtOrBefore block txn.snapshot.high).or (txn.stagedBase block)).getD []
      let latest := (shard.bytesAtOrBefore block observed).getD []
      match proof.mergeValid base latest staged with
      | some true => .ok ()
      | some false => .error (.error (.conflict block txn.snapshot.high observed))
      | none => .error .panic

/-- `none` is a panic of the merge. -/
def mergedWriteBytesLocked (shard : MvccShard) (block : Nat) (snapshot : Snapshot)
    (staged : StagedWrite) : Option Bytes :=
  let observed := shard.latestCommitSeqInShard block
  if observed ≤ snapshot.high then some staged.bytes
  else
    let base := ((shard.bytesAtOrBefore block snapshot.high).or staged.base).getD []
    let latest := (shard.bytesAtOrBefore block observed).getD []
    (staged.mergeProof.mergeBytes base latest staged.bytes).map fun merged =>
      merged.getD staged.bytes

def latestPayloadMatches (versions : List BlockVersion) (bytes : Bytes) : Bool :=
  !versions.isEmpty && resolveData versions (versions.length - 1) == some bytes

def buildVersionData (existingVersions : Option (List BlockVersion)) (bytes : Bytes)
    (dedupEnabled : Bool) : VersionData :=
  if dedupEnabled && (existingVersions.any fun versions => latestPayloadMatches versions bytes) then
    .identical
  else .full bytes

/-- Also returns the bytes of the new version. -/
def installCommittedVersionLocked (shard : MvccShard) (block : Nat) (staged : StagedWrite)
    (snapshot : Snapshot) (commitSeq txnId : Nat) (dedupEnabled : Bool) :
    Option (MvccShard × Bytes) :=
  (shard.mergedWriteBytesLocked block snapshot staged).map fun versionBytes =>
    let data := buildVersionData (shard.versions.get? block) versionBytes dedupEnabled
    let pos := partitionPoint (shard.chain block) fun v => decide (v.commitSeq < commitSeq)
    let versions := (shard.chain block).insertIdx pos ⟨block, commitSeq, txnId, data⟩
    ({ versions := shard.versions.insert block versions
       pruneCandidates :=
        if versions.length = 2 then shard.pruneCandidates.insert block ()
        else shard.pruneCandidates }, versionBytes)

/-- One shard of `prune_versions_older_than`. Only candidates are visited, and a candidate
stays one while its chain has more than one version. -/
def pruneOlderThan (shard : MvccShard) (watermark : Nat) : MvccShard where
  versions := shard.versions.map fun block versions =>
    if (shard.pruneCandidates.get? block).isSome then pruneChain versions watermark else versions
  pruneCandidates := shard.pruneCandidates.filter fun block _ =>
    decide (1 < (pruneChain (shard.chain block) watermark).length)

end MvccShard

namespace ShardedMvccStore

variable [Platform]

def withCompressionPolicy (shardCount : Nat) (policy : CompressionPolicy)
    (mode : PublicationMode) : ShardedMvccStore :=
  let count := nextPowerOfTwo (max 1 (min shardCount maxMvccShards))
  { shards := fun _ => ⟨∅, ∅⟩
    shardCount := count
    shardMask := count - 1
    nextTxn := 1
    nextCommit := 1
    publicationGate := .withMode mode
    anyVersionInstalled := false
    activeSnapshots := ∅
    compressionPolicy := policy }

omit [Platform] in
theorem shardMask_lt (shardCount : Nat) (policy : CompressionPolicy) (mode : PublicationMode) :
    (withCompressionPolicy shardCount policy mode).shardMask <
      (withCompressionPolicy shardCount policy mode).shardCount := by
  refine Nat.sub_lt ?_ Nat.one_pos
  unfold nextPowerOfTwo
  split_ifs
  · exact Nat.one_pos
  · exact Nat.two_pow_pos _

def shardIndex (s : ShardedMvccStore) (block : Nat) : Nat := block &&& s.shardMask

def shardOf (s : ShardedMvccStore) (block : Nat) : MvccShard := s.shards (s.shardIndex block)

def currentSnapshot (s : ShardedMvccStore) : Snapshot := ⟨s.publicationGate.completedCommit⟩

def readVisible (s : ShardedMvccStore) (block : Nat) (snapshot : Snapshot) : Option Bytes :=
  if s.anyVersionInstalled then (s.shardOf block).bytesAtOrBefore block snapshot.high else none

/-- The transaction identifiers run from 1 and end at the sentinel. -/
def begin (s : ShardedMvccStore) : ShardedMvccStore × Transaction :=
  if 1 ≤ s.nextTxn ∧ s.nextTxn < u64Max then
    ({ s with nextTxn := s.nextTxn + 1 }, Transaction.new s.nextTxn s.currentSnapshot)
  else (s, Transaction.new u64Max s.currentSnapshot)

def registerSnapshot (s : ShardedMvccStore) (snapshot : Snapshot) : ShardedMvccStore :=
  { s with
    activeSnapshots := s.activeSnapshots.alter snapshot.high fun
      | some count => some (u64SaturatingAdd count 1)
      | none => some 1 }

def beginRegistered (s : ShardedMvccStore) : ShardedMvccStore × Transaction :=
  let (s, txn) := s.begin
  (s.registerSnapshot txn.snapshot, txn)

def releaseSnapshot (s : ShardedMvccStore) (snapshot : Snapshot) : ShardedMvccStore :=
  { s with
    activeSnapshots := s.activeSnapshots.alter snapshot.high fun count =>
      count.bind fun c => if c ≤ 1 then none else some (c - 1) }

def pruneWatermark (s : ShardedMvccStore) : Nat :=
  s.activeSnapshots.minKey?.getD s.currentSnapshot.high

def involvedShards (s : ShardedMvccStore) (txn : Transaction) : List Nat :=
  ((txn.writeSet.map s.shardIndex).insertionSort (· ≤ ·)).dedup

def preflightBlockLocked (s : ShardedMvccStore) (txn : Transaction) (guards : List Nat)
    (effective : ConflictPolicy) (block : Nat) : Except Stop Unit :=
  if !guards.contains (s.shardIndex block) then
    .error (.error (.durabilityFailure "shard guard missing"))
  else
    let shard := s.shardOf block
    let latest := shard.latestCommitSeqInShard block
    if latest > txn.snapshot.high then
      if effective = .strict then .error (.error (.conflict block txn.snapshot.high latest))
      else
        match MvccShard.checkWriteMergeableLocked txn block shard with
        | .ok () => .ok ()
        | .error .panic => .error .panic
        | .error (.error _) => .error (.error (.conflict block txn.snapshot.high latest))
    else .ok ()

def preflightFcwLocked (s : ShardedMvccStore) (txn : Transaction) (guards : List Nat)
    (effective : ConflictPolicy) : Except Stop Unit :=
  forM txn.writeSet (s.preflightBlockLocked txn guards effective)

def conflictingBlocks (s : ShardedMvccStore) (txn : Transaction) : List Nat :=
  txn.writeSet.filter fun block =>
    decide ((s.shardOf block).latestCommitSeqInShard block > txn.snapshot.high)

def nextCommitSeq (s : ShardedMvccStore) : Except Stop (ShardedMvccStore × Nat) :=
  if s.nextCommit + 1 ≤ u64Max then .ok ({ s with nextCommit := s.nextCommit + 1 }, s.nextCommit)
  else .error (.error (.durabilityFailure s!"commit sequence exhausted at {s.nextCommit}"))

def setShard (s : ShardedMvccStore) (idx : Nat) (shard : MvccShard) : ShardedMvccStore :=
  { s with shards := Function.update s.shards idx shard }

end ShardedMvccStore

/-! ## What the functions do -/

namespace MvccShard

variable {shard : MvccShard} {block : Nat}

theorem latestCommitSeqInShard_eq (shard : MvccShard) (block : Nat) :
    shard.latestCommitSeqInShard block =
      ((shard.chain block).getLast?.map BlockVersion.commitSeq).getD 0 := by
  unfold latestCommitSeqInShard chain
  cases shard.versions.get? block <;> rfl

theorem latestPublishedCommitSeqInShard_eq (shard : MvccShard) (block s : Nat) :
    shard.latestPublishedCommitSeqInShard block s =
      ((newestVisibleIndex (shard.chain block) s).bind fun idx =>
        (shard.chain block)[idx]?.map BlockVersion.commitSeq).getD 0 := by
  unfold latestPublishedCommitSeqInShard chain
  cases shard.versions.get? block <;> rfl

theorem partitionPoint_end {versions : List BlockVersion} {c : Nat}
    (h : ∀ v ∈ versions, v.commitSeq < c) :
    partitionPoint versions (fun v => decide (v.commitSeq < c)) = versions.length := by
  unfold partitionPoint
  rw [List.takeWhile_eq_self_iff.mpr fun v hv => by simpa using h v hv]

variable [Platform]

theorem bytesAtOrBefore_eq (shard : MvccShard) (block s : Nat) :
    shard.bytesAtOrBefore block s = resolveVersionBytesAtOrBefore (shard.chain block) s := by
  unfold bytesAtOrBefore chain
  cases shard.versions.get? block <;> rfl

theorem mergedWriteBytesLocked_congr {shard' : MvccShard} (h : shard.chain block = shard'.chain block)
    (snapshot : Snapshot) (staged : StagedWrite) :
    shard.mergedWriteBytesLocked block snapshot staged =
      shard'.mergedWriteBytesLocked block snapshot staged := by
  simp only [mergedWriteBytesLocked, latestCommitSeqInShard_eq, bytesAtOrBefore_eq, h]

theorem buildVersionData_encodes (shard : MvccShard) (block : Nat) (bytes : Bytes)
    (dedupEnabled : Bool) : Encodes (shard.chain block)
      (buildVersionData (shard.versions.get? block) bytes dedupEnabled) bytes := by
  unfold buildVersionData
  split_ifs with hdup
  · rw [Bool.and_eq_true] at hdup
    cases hv : shard.versions.get? block with
    | none => simp [hv] at hdup
    | some versions =>
      have hmatch := hdup.2
      rw [hv, Option.any_some, latestPayloadMatches, Bool.and_eq_true] at hmatch
      refine Or.inr ⟨rfl, ?_⟩
      simp only [chain, hv, Option.getD_some]
      simpa using hmatch.2
  · exact Or.inl rfl

theorem installCommittedVersionLocked_spec {staged : StagedWrite} {snapshot : Snapshot}
    {c txnId : Nat} {dedup : Bool} {shard' : MvccShard} {bytes : Bytes} {es : Entries}
    (h : shard.installCommittedVersionLocked block staged snapshot c txnId dedup =
      some (shard', bytes))
    (hst : Stores (shard.chain block) es) (hlt : ∀ e ∈ es, e.1 < c) :
    shard.mergedWriteBytesLocked block snapshot staged = some bytes ∧
      Stores (shard'.chain block) (es ++ [(c, bytes)]) ∧
      ∀ b, b ≠ block → shard'.chain b = shard.chain b := by
  obtain ⟨versionBytes, hbytes, heq⟩ := Option.map_eq_some_iff.mp h
  simp only [Prod.mk.injEq] at heq
  obtain ⟨rfl, rfl⟩ := heq
  have hbelow : ∀ v ∈ shard.chain block, v.commitSeq < c := by
    intro v hv
    have hmem : v.commitSeq ∈ es.map Prod.fst := hst.seqs ▸ List.mem_map_of_mem hv
    obtain ⟨e, he, heq⟩ := List.mem_map.mp hmem
    exact heq ▸ hlt e he
  refine ⟨hbytes, ?_, fun b hb => ?_⟩
  · show Stores (((shard.versions.insert block _).get? block).getD []) _
    rw [OrdMap.get?_insert, if_pos rfl, Option.getD_some, partitionPoint_end hbelow,
      List.insertIdx_length_self]
    exact hst.push (buildVersionData_encodes shard block versionBytes dedup)
  · simp only [chain, OrdMap.get?_insert, if_neg hb]

theorem pruneOlderThan_chain (shard : MvccShard) (watermark block : Nat) :
    (shard.pruneOlderThan watermark).chain block =
      if (shard.pruneCandidates.get? block).isSome then pruneChain (shard.chain block) watermark
      else shard.chain block := by
  unfold pruneOlderThan chain
  cases hv : shard.versions.get? block with
  | none =>
    simp only [OrdMap.get?_map, hv, Option.map_none, Option.getD_none]
    split_ifs <;> rfl
  | some versions =>
    simp only [OrdMap.get?_map, hv, Option.map_some, Option.getD_some]

theorem pruneOlderThan_stores {es : Entries} (hst : Stores (shard.chain block) es)
    (watermark : Nat) : ∃ post, Trimmed watermark es post ∧
      Stores ((shard.pruneOlderThan watermark).chain block) post := by
  rw [pruneOlderThan_chain]
  split_ifs
  · exact hst.prune watermark
  · exact ⟨es, Trimmed.refl _ _, hst⟩

end MvccShard

namespace ShardedMvccStore

theorem forM_ok {α ε : Type} {f : α → Except ε Unit} {l : List α} (h : forM l f = .ok ()) :
    ∀ a ∈ l, f a = .ok () := by
  induction l with
  | nil => simp
  | cons a rest ih =>
    rw [List.forM_cons] at h
    cases hf : f a with
    | error e => rw [hf] at h; cases h
    | ok u =>
      rw [hf] at h
      intro a' ha'
      rcases List.mem_cons.mp ha' with rfl | ha'
      · exact hf
      · exact ih h a' ha'

theorem beginRegistered_store (s : ShardedMvccStore) :
    ∃ nextTxn active,
      s.beginRegistered.1 = { s with activeSnapshots := active, nextTxn := nextTxn } ∧
        ∀ k, (active.get? k).isSome →
          (s.activeSnapshots.get? k).isSome ∨ k = s.currentSnapshot.high := by
  have hreg : ∀ k, ((s.activeSnapshots.alter s.currentSnapshot.high fun
      | some count => some (u64SaturatingAdd count 1)
      | none => some 1).get? k).isSome →
        (s.activeSnapshots.get? k).isSome ∨ k = s.currentSnapshot.high := by
    intro k hk
    rw [OrdMap.get?_alter] at hk
    split_ifs at hk with heq
    · exact Or.inr heq
    · exact Or.inl hk
  unfold beginRegistered begin registerSnapshot
  split_ifs
  · exact ⟨_, _, rfl, hreg⟩
  · exact ⟨s.nextTxn, _, rfl, hreg⟩

theorem mem_involvedShards (s : ShardedMvccStore) {txn : Transaction} {block : Nat}
    (h : block ∈ txn.writeSet) : s.shardIndex block ∈ s.involvedShards txn := by
  unfold involvedShards
  rw [List.mem_dedup, List.mem_insertionSort]
  exact List.mem_map_of_mem h

variable [Platform]

theorem preflightFcwLocked_ok {s : ShardedMvccStore} {txn : Transaction} {guards : List Nat}
    {effective : ConflictPolicy} (h : s.preflightFcwLocked txn guards effective = .ok ())
    {block : Nat} {staged : StagedWrite} (hb : txn.stagedWrites.get? block = some staged) :
    ((s.shardOf block).mergedWriteBytesLocked block txn.snapshot staged).isSome := by
  have hmem : block ∈ txn.writeSet := (OrdMap.mem_keys _).mpr (by rw [hb]; rfl)
  have hok := forM_ok h block hmem
  simp only [MvccShard.mergedWriteBytesLocked]
  split_ifs with hle
  · rfl
  -- The preflight and the install merge the same bytes.
  have hcheck : MvccShard.checkWriteMergeableLocked txn block (s.shardOf block) = .ok () := by
    simp only [preflightBlockLocked, gt_iff_lt, if_pos (not_le.mp hle)] at hok
    split_ifs at hok
    split at hok
    · assumption
    all_goals cases hok
  simp only [MvccShard.checkWriteMergeableLocked, Transaction.stagedWrite,
    Transaction.mergeProof, Transaction.stagedBase, hb, Option.map_some, Option.bind_some,
    Option.getD_some, if_neg hle, mergeValid_eq] at hcheck
  rw [Option.isSome_map]
  rw [← Option.ne_none_iff_isSome]
  intro hnone
  rw [hnone] at hcheck
  cases hcheck

end ShardedMvccStore

end FrankenFs.Mvcc
