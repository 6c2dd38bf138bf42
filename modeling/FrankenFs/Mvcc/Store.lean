import FrankenFs.Mvcc.Compression
import FrankenFs.Mvcc.Transaction
import FrankenFs.Mvcc.Policy

/-!
# `MvccStore`

The store of `store.rs`, less what no result depends on: log lines, the evidence sink, the runtime
counters, and the reclaimer, which only delays freeing memory. A method on `&mut self` returns the
store it leaves behind, also when it fails.
-/

open FrankenFs.Lib

namespace FrankenFs.Mvcc

structure CommittedTxnRecord where
  txnId : Nat
  commitSeq : Nat
  snapshot : Snapshot
  writeSet : OrdMap Nat Unit
  readSet : OrdMap Nat Nat

variable [Platform]

structure MvccStore where
  nextTxn : Nat
  nextCommit : Nat
  versions : OrdMap Nat (List BlockVersion)
  physicalVersions : OrdMap Nat (List PhysicalBlockVersion)
  activeSnapshots : OrdMap Nat Nat
  forceAdvancedReleases : OrdMap Nat Nat
  ssiLog : List CommittedTxnRecord
  compressionPolicy : CompressionPolicy
  conflictPolicy : ConflictPolicy
  adaptiveConfig : AdaptivePolicyConfig
  contentionMetrics : ContentionMetrics

namespace MvccStore

/-! ## Snapshots -/

def currentSnapshot (s : MvccStore) : Snapshot := ⟨s.nextCommit - 1⟩

def begin (s : MvccStore) : MvccStore × Transaction :=
  ({ s with nextTxn := u64SaturatingAdd s.nextTxn 1 }, Transaction.new s.nextTxn s.currentSnapshot)

def watermark (s : MvccStore) : Option Nat := s.activeSnapshots.minKey?

/-- `self.watermark().unwrap_or_else(|| self.current_snapshot().high)`. -/
def gcWatermark (s : MvccStore) : Nat := s.watermark.getD s.currentSnapshot.high

def registerSnapshot (s : MvccStore) (snapshot : Snapshot) : MvccStore :=
  { s with
    activeSnapshots := s.activeSnapshots.alter snapshot.high fun count =>
      some (u64SaturatingAdd (count.getD 0) 1) }

def dropRef (count : Option Nat) : Option Nat :=
  count.bind fun c => if c - 1 = 0 then none else some (c - 1)

def releaseSnapshot (s : MvccStore) (snapshot : Snapshot) : MvccStore × Bool :=
  if (s.activeSnapshots.get? snapshot.high).isSome then
    ({ s with activeSnapshots := s.activeSnapshots.alter snapshot.high dropRef }, true)
  else if (s.forceAdvancedReleases.get? snapshot.high).isSome then
    ({ s with
        forceAdvancedReleases := s.forceAdvancedReleases.alter snapshot.high dropRef }, true)
  else (s, false)

/-- Chain pressure takes one reference from the oldest snapshot. -/
def forceAdvanceOldestSnapshot (s : MvccStore) : Option MvccStore :=
  s.watermark.map fun oldest =>
    { s with
      forceAdvancedReleases := s.forceAdvancedReleases.alter oldest fun n => some (n.getD 0 + 1)
      activeSnapshots := s.activeSnapshots.alter oldest fun refs =>
        refs.bind fun r => if r > 1 then some (r - 1) else none }

/-! ## Reading -/

def chain (s : MvccStore) (block : Nat) : List BlockVersion := (s.versions.get? block).getD []

def latestCommitSeq (s : MvccStore) (block : Nat) : Nat :=
  (((s.versions.get? block).bind List.getLast?).map BlockVersion.commitSeq).getD 0

/-- `read_visible`. Its copies `read_visible_block_buf` and `version_bytes_at` differ in the
buffer type they return. -/
def readVisible (s : MvccStore) (block : Nat) (snapshot : Snapshot) : Option Bytes :=
  (s.versions.get? block).bind fun versions => resolveVersionBytesAtOrBefore versions snapshot.high

def versionBytesAt (s : MvccStore) (block visibleHigh : Nat) : Option Bytes :=
  s.readVisible block ⟨visibleHigh⟩

def readVisiblePhysical (s : MvccStore) (logical : Nat) (snapshot : Snapshot) : Option Nat :=
  let physical := (s.physicalVersions.get? logical).bind fun versions =>
    (newestVisibleIndexBy versions snapshot.high PhysicalBlockVersion.commitSeq).bind fun idx =>
      versions[idx]?.map PhysicalBlockVersion.physical
  physical.or ((s.readVisible logical snapshot).map fun _ => logical)

/-! ## Resolving a write against the latest version -/

def effectivePolicy (s : MvccStore) : ConflictPolicy :=
  match s.conflictPolicy with
  | .adaptive => s.contentionMetrics.selectPolicy s.adaptiveConfig
  | other => other

/-- The common ancestor of `resolved_write_bytes_with_policy`: the version at the snapshot,
else the base recorded when the block was staged, else nothing. -/
def mergeBase (s : MvccStore) (txn : Transaction) (block : Nat) : Bytes :=
  ((s.versionBytesAt block txn.snapshot.high).or (txn.stagedBase block)).getD []

def mergeLatest (s : MvccStore) (block : Nat) : Bytes :=
  (s.versionBytesAt block (s.latestCommitSeq block)).getD []

def conflictOn (s : MvccStore) (txn : Transaction) (block : Nat) : Stop :=
  .error (.conflict block txn.snapshot.high (s.latestCommitSeq block))

def resolvedWriteBytesWithPolicy (s : MvccStore) (txn : Transaction) (block : Nat)
    (effective : ConflictPolicy) : Except Stop Bytes :=
  match txn.stagedWrite block with
  | none =>
    .error (.error (.durabilityFailure
      s!"write_set keys must have staged bytes: BlockNumber({block})"))
  | some staged =>
    if s.latestCommitSeq block ≤ txn.snapshot.high then .ok staged
    else if effective = .strict then .error (s.conflictOn txn block)
    else
      let proof := (txn.mergeProof block).getD default
      match proof.mergeBytes (s.mergeBase txn block) (s.mergeLatest block) staged with
      | some (some merged) => .ok merged
      | some none => .error (s.conflictOn txn block)
      | none => .error .panic

def resolvedWriteBytes (s : MvccStore) (txn : Transaction) (block : Nat) : Except Stop Bytes :=
  s.resolvedWriteBytesWithPolicy txn block s.effectivePolicy

def resolvedWriteValidWithPolicy (s : MvccStore) (txn : Transaction) (block : Nat)
    (effective : ConflictPolicy) : Except Stop Unit :=
  match txn.stagedWrite block with
  | none =>
    .error (.error (.durabilityFailure
      s!"write_set keys must have staged bytes: BlockNumber({block})"))
  | some staged =>
    if s.latestCommitSeq block ≤ txn.snapshot.high then .ok ()
    else if effective = .strict then .error (s.conflictOn txn block)
    else
      let proof := (txn.mergeProof block).getD default
      match proof.mergeValid (s.mergeBase txn block) (s.mergeLatest block) staged with
      | some true => .ok ()
      | some false => .error (s.conflictOn txn block)
      | none => .error .panic

def resolvedWritesForCommit (s : MvccStore) (txn : Transaction) :
    Except Stop (List (Nat × Bytes)) :=
  txn.writeSet.mapM fun block => (s.resolvedWriteBytes txn block).map (Prod.mk block)

/-! ## Chain pressure -/

def criticalChainLen (maxLen : Nat) : Nat :=
  let cap := max maxLen 1
  max (usizeSaturatingMul cap 4) (usizeSaturatingAdd cap 1)

def chainTrimBlockedBySnapshot (s : MvccStore) (block watermark : Nat) : Bool :=
  match (s.chain block)[1]? with
  | some second => decide (second.commitSeq > watermark)
  | none => false

def chainBackpressure (s : MvccStore) (block maxLen : Nat) : Stop :=
  .error (.chainBackpressure block (s.chain block).length (max maxLen 1)
    (criticalChainLen (max maxLen 1)) s.gcWatermark)

def enforceChainPressure (s : MvccStore) (block maxLen : Nat) : MvccStore × Except Stop Unit :=
  let chainLen := (s.chain block).length
  if chainLen = 0 ∨ chainLen < criticalChainLen (max maxLen 1) then (s, .ok ())
  else if !s.chainTrimBlockedBySnapshot block s.gcWatermark then (s, .ok ())
  else
    match s.forceAdvanceOldestSnapshot with
    | some advanced =>
      if !advanced.chainTrimBlockedBySnapshot block advanced.gcWatermark then (advanced, .ok ())
      else (advanced, .error (s.chainBackpressure block maxLen))
    | none => (s, .error (s.chainBackpressure block maxLen))

/-! ## The preflight -/

/-- A conflict seen by the preflight. A merge that does not go through is a conflict. -/
def preflightResolveBlockConflict (s : MvccStore) (txn : Transaction) (block : Nat)
    (effective : ConflictPolicy) : Except Stop Unit :=
  if effective = .strict then .error (s.conflictOn txn block)
  else
    match s.resolvedWriteValidWithPolicy txn block effective with
    | .ok () => .ok ()
    | .error .panic => .error .panic
    | .error (.error _) => .error (s.conflictOn txn block)

/-- Contention metrics are only kept under `Adaptive`. -/
def recordMetrics (s : MvccStore) (hadConflict mergeSucceeded aborted : Bool) : MvccStore :=
  match s.conflictPolicy with
  | .adaptive =>
    let metrics := s.contentionMetrics.recordCommit s.adaptiveConfig.emaAlpha hadConflict
      mergeSucceeded aborted
    { s with
      contentionMetrics :=
        { metrics with lastSelected := some (metrics.selectPolicy s.adaptiveConfig) } }
  | _ => s

/-- The block loop of `preflight_fcw`, with its two flags. -/
def preflightLoop (txn : Transaction) (effective : ConflictPolicy) :
    List Nat → MvccStore → Bool → Bool → MvccStore × Except Stop (Bool × Bool)
  | [], s, hadConflict, mergeSucceeded => (s, .ok (hadConflict, mergeSucceeded))
  | block :: rest, s, hadConflict, mergeSucceeded =>
    let conflicting := decide (s.latestCommitSeq block > txn.snapshot.high)
    let resolution :=
      if conflicting then s.preflightResolveBlockConflict txn block effective else .ok ()
    match resolution with
    | .error .panic => (s, .error .panic)
    | .error e => (s.recordMetrics true false true, .error e)
    | .ok () =>
      let hadConflict := hadConflict || conflicting
      let mergeSucceeded := mergeSucceeded || conflicting
      match s.compressionPolicy.maxChainLength with
      | none => preflightLoop txn effective rest s hadConflict mergeSucceeded
      | some cap =>
        match s.enforceChainPressure block cap with
        | (s, .error e) => (s.recordMetrics hadConflict mergeSucceeded true, .error e)
        | (s, .ok ()) => preflightLoop txn effective rest s hadConflict mergeSucceeded

def preflightFcw (s : MvccStore) (txn : Transaction) : MvccStore × Except Stop Unit :=
  match validateTransactionId txn.id with
  | .error e => (s, .error e)
  | .ok () =>
    match preflightLoop txn s.effectivePolicy txn.writeSet s false false with
    | (s, .error e) => (s, .error e)
    | (s, .ok (hadConflict, mergeSucceeded)) =>
      (s.recordMetrics hadConflict mergeSucceeded false, .ok ())

/-- `preflight_commit_fcw`, the public name of the preflight. -/
def preflightCommitFcw (s : MvccStore) (txn : Transaction) : MvccStore × Except Stop Unit :=
  s.preflightFcw txn

/-! ## Installing a commit -/

def nextCommitSeq (s : MvccStore) : Except Stop (MvccStore × Nat) :=
  if s.nextCommit + 1 ≤ u64Max then .ok ({ s with nextCommit := s.nextCommit + 1 }, s.nextCommit)
  else .error (.error (.durabilityFailure s!"commit sequence exhausted at {s.nextCommit}"))

/-- The merge of one staged write at install time. The ancestor is the version at the
snapshot or nothing: the recorded base is not read here. -/
def mergedWrite (s : MvccStore) (txn : Transaction) (block : Nat) (staged : StagedWrite)
    (effective : ConflictPolicy) : Except Stop (Option Bytes) :=
  if s.latestCommitSeq block ≤ txn.snapshot.high then .ok none
  else if effective = .strict then .error (s.conflictOn txn block)
  else
    match staged.mergeProof.mergeBytes ((s.versionBytesAt block txn.snapshot.high).getD [])
        (s.mergeLatest block) staged.bytes with
    | some (some merged) => .ok (some merged)
    | some none => .error (s.conflictOn txn block)
    | none => .error .panic

/-- The bytes each staged block gets: `merged_writes_after_preflight`, and the same loop in
`apply_fcw_commit`, with `merged_writes.remove(&block).unwrap_or(staged.bytes)`. -/
def versionBytes (s : MvccStore) (txn : Transaction) : Except Stop (List (Nat × Bytes)) :=
  txn.stagedWrites.entries.mapM fun e =>
    (s.mergedWrite txn e.1 e.2 s.effectivePolicy).map fun merged =>
      (e.1, merged.getD e.2.bytes)

def isIdenticalToLatest (s : MvccStore) (block : Nat) (bytes : Bytes) : Bool :=
  match s.versions.get? block with
  | none => false
  | some versions =>
    if versions.isEmpty then false
    else resolveData versions (versions.length - 1) == some bytes

def compressData (s : MvccStore) (bytes : Bytes) : VersionData :=
  match s.compressionPolicy.algo with
  | .none => .full bytes
  | .zstd level =>
    match Platform.zstdEncode level bytes with
    | some compressed => if compressed.length < bytes.length then .zstd compressed else .full bytes
    | none => .full bytes
  | .brotli level =>
    match Platform.brotliEncode level bytes with
    | some compressed =>
      if compressed.length < bytes.length then .brotli compressed else .full bytes
    | none => .full bytes

def versionDataFor (s : MvccStore) (block : Nat) (bytes : Bytes) : VersionData :=
  if s.compressionPolicy.dedupIdentical && s.isIdenticalToLatest block bytes then .identical
  else if s.compressionPolicy.algo = .none then .full bytes
  else s.compressData bytes

def pushVersion (s : MvccStore) (v : BlockVersion) : MvccStore :=
  { s with versions := s.versions.alter v.block fun chain => some (chain.getD [] ++ [v]) }

def pushPhysical (s : MvccStore) (v : PhysicalBlockVersion) : MvccStore :=
  { s with
    physicalVersions := s.physicalVersions.alter v.logical fun chain =>
      some (chain.getD [] ++ [v]) }

def enforceChainCap (s : MvccStore) (block maxLen : Nat) : MvccStore :=
  { s with
    versions := s.versions.alter block fun chain =>
      chain.map fun versions => trimBlockChainToCap versions (max maxLen 1) s.gcWatermark }

def enforcePhysicalChainCap (s : MvccStore) (block maxLen : Nat) : MvccStore :=
  { s with
    physicalVersions := s.physicalVersions.alter block fun chain =>
      chain.map fun versions => trimPhysicalChainToCap versions (max maxLen 1) s.gcWatermark }

def installVersion (txn : Transaction) (commitSeq : Nat) (s : MvccStore) (w : Nat × Bytes) :
    MvccStore :=
  let pushed := s.pushVersion ⟨w.1, commitSeq, txn.id, s.versionDataFor w.1 w.2⟩
  let pushed := match txn.cowWrites.get? w.1 with
    | some intent => pushed.pushPhysical ⟨w.1, intent.newPhysical, commitSeq, txn.id⟩
    | none => pushed
  match s.compressionPolicy.maxChainLength with
  | some cap => (pushed.enforceChainCap w.1 cap).enforcePhysicalChainCap w.1 cap
  | none => pushed

def installVersions (s : MvccStore) (txn : Transaction) (commitSeq : Nat)
    (writes : List (Nat × Bytes)) : MvccStore :=
  writes.foldl (installVersion txn commitSeq) s

def applyFcwCommit (s : MvccStore) (txn : Transaction) : MvccStore × Except Stop Nat :=
  match validateTransactionId txn.id with
  | .error e => (s, .error e)
  | .ok () =>
    match s.versionBytes txn with
    | .error e => (s, .error e)
    | .ok writes =>
      match s.nextCommitSeq with
      | .error e => (s, .error e)
      | .ok (s, commitSeq) => (s.installVersions txn commitSeq writes, .ok commitSeq)

def commitFcwPrechecked (s : MvccStore) (txn : Transaction) : MvccStore × Except Stop Nat :=
  s.applyFcwCommit txn

def commit (s : MvccStore) (txn : Transaction) : MvccStore × Except Stop Nat :=
  match s.preflightFcw txn with
  | (s, .error e) => (s, .error e)
  | (s, .ok ()) => s.applyFcwCommit txn

/-! ## Garbage collection -/

def pruneVersionsOlderThan (s : MvccStore) (watermark : Nat) : MvccStore :=
  { s with
    versions := s.versions.map fun _ versions => pruneChain versions watermark
    physicalVersions := s.physicalVersions.map fun _ versions =>
      prunePhysicalChain versions watermark }

def pruneSafe (s : MvccStore) : MvccStore × Nat :=
  (s.pruneVersionsOlderThan s.gcWatermark, s.gcWatermark)

/-- Durable, and visible to every registered snapshot. -/
def evictBound (s : MvccStore) (durableThrough : Nat) : Nat :=
  match s.watermark with
  | some wm => min wm durableThrough
  | none => durableThrough

/-- A chain `evict_durable_chains` drops. Remapped blocks are not at their home location. -/
def evictable (s : MvccStore) (durableThrough block : Nat) (versions : List BlockVersion) : Bool :=
  (s.physicalVersions.get? block).isNone &&
    match versions.getLast? with
    | some newest => decide (newest.commitSeq ≤ s.evictBound durableThrough)
    | none => false

def evictDurableChains (s : MvccStore) (durableThrough : Nat) : MvccStore :=
  { s with
    versions := s.versions.filter fun block versions => !s.evictable durableThrough block versions }

end MvccStore

end FrankenFs.Mvcc
