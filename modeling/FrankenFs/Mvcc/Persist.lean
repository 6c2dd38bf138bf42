import FrankenFs.Mvcc.Checkpoint
import FrankenFs.Mvcc.Journaled
import FrankenFs.Mvcc.WalReplay

/-!
# `PersistentMvccStore`

A commit goes to memory first and to the log second. The locks of the source make each call one step.
`verify_writes` reads back what was just written, which storage returns here, so the option is left
out.
-/

open FrankenFs.Lib

namespace FrankenFs.Mvcc

structure PersistOptions where
  syncOnCommit : Bool
  backpressureThresholdBytes : Nat
deriving DecidableEq, Repr

instance : Inhabited PersistOptions := ⟨⟨true, 0⟩⟩

def PersistOptions.toWriterConfig (o : PersistOptions) : WalWriterConfig :=
  ⟨if o.syncOnCommit then .immediate else .manual, o.backpressureThresholdBytes⟩

structure WalStats where
  replayedCommits : Nat
  replayedVersions : Nat
  walSizeBytes : Nat
  commitsWritten : Nat
  checkpointsCreated : Nat
  checkpointCommitSeq : Nat
deriving DecidableEq, Repr

instance : Inhabited WalStats := ⟨⟨0, 0, 0, 0, 0, 0⟩⟩

structure WalRecoveryReport where
  outcome : ReplayOutcome
  commitsReplayed : Nat
  versionsReplayed : Nat
  recordsDiscarded : Nat
  walValidBytes : Nat
  walTotalBytes : Nat
  usedCheckpoint : Bool
  checkpointCommitSeq : Option Nat
deriving DecidableEq, Repr

instance : Inhabited WalRecoveryReport := ⟨⟨.emptyLog, 0, 0, 0, 0, 0, false, none⟩⟩

def WalWriteError.message : WalWriteError → String
  | formatViolation detail => s!"WAL format violation: {detail}"
  | backpressure walSize threshold =>
    s!"WAL backpressure: size {walSize} exceeds threshold {threshold}"
  | recoveryRequired detail => s!"WAL recovery required: {detail}"

def WalWriteError.toFfsError : WalWriteError → FfsError
  | formatViolation detail => .format detail
  | backpressure walSize threshold =>
    .format s!"WAL backpressure: size {walSize} exceeds threshold {threshold}"
  | recoveryRequired detail => .io s!"WAL recovery required: {detail}"

/-- What rollback leaves of a chain: the newest version goes if it is the one to undo, and an
empty chain goes with it. -/
def popVersion {α : Type} (undo : α → Bool) (chain : Option (List α)) : Option (List α) :=
  chain.bind fun versions =>
    let kept := if versions.getLast?.any undo then versions.dropLast else versions
    if kept.isEmpty then none else some kept

section Store

variable [Platform]

namespace MvccStore

/-! ## Replay -/

def maybeDedup (s : MvccStore) (block : Nat) (bytes : Bytes) : VersionData :=
  if s.isIdenticalToLatest block bytes then .identical else s.compressData bytes

def replayWrite (commit : WalCommit) (dedup : Bool) (s : MvccStore) (w : Nat × Bytes) : MvccStore :=
  s.pushVersion ⟨w.1, commit.commitSeq, commit.txnId,
    if dedup then s.maybeDedup w.1 w.2 else s.compressData w.2⟩

/-- Replay pushes versions. It neither merges nor trims. -/
def applyWalCommit (s : MvccStore) (commit : WalCommit) : MvccStore :=
  let s := { s with
    nextCommit := if s.nextCommit ≤ commit.commitSeq then u64SaturatingAdd commit.commitSeq 1
      else s.nextCommit
    nextTxn := if s.nextTxn ≤ commit.txnId then u64SaturatingAdd commit.txnId 1 else s.nextTxn }
  commit.writes.foldl (replayWrite commit s.compressionPolicy.dedupIdentical) s

/-! ## Rollback -/

def rollbackInMemoryCommit (s : MvccStore) (txn : Transaction) (commitSeq : Nat) (useSsi : Bool) :
    MvccStore :=
  let cowBlocks := txn.writeSet.filter fun block => (txn.cowWrites.get? block).isSome
  { s with
    versions := txn.writeSet.foldl (fun versions block => versions.alter block (popVersion fun v =>
      v.commitSeq == commitSeq && v.writer == txn.id)) s.versions
    physicalVersions := cowBlocks.foldl (fun versions block => versions.alter block (popVersion
      fun v => v.commitSeq == commitSeq && v.writer == txn.id)) s.physicalVersions
    ssiLog := if useSsi && (s.ssiLog.getLast?.any fun record =>
      record.commitSeq == commitSeq && record.txnId == txn.id) then s.ssiLog.dropLast else s.ssiLog
    nextCommit := commitSeq }

end MvccStore

structure PersistentMvccStore where
  store : MvccStore
  wal : WalWriter
  stats : WalStats
  recoveryReport : WalRecoveryReport

variable [Checksum]

/-! ## Opening -/

def loadedStore (config : AdaptivePolicyConfig) (checkpoint : Option Bytes) :
    Except FfsError MvccStore :=
  let fresh := MvccStore.new default .safeMerge config
  match checkpoint with
  | none => .ok fresh
  | some file => fresh.loadCheckpoint file

/-- Store and log position after replay, with the report. -/
def replayWalFromSeq (file : Bytes) (store : MvccStore) (skipUpToSeq : Nat) :
    Except FfsError (MvccStore × Nat × ReplayReport) := do
  failIf (file.length < headerSize) (.io "failed to fill whole buffer")
  let _ ← decodeHeader (file.take headerSize)
  let (store, report) ← replayReader .truncateToLastGood skipUpToSeq
    (fun store commit => .ok (store.applyWalCommit commit)) (file.drop headerSize) store
  return (store, headerSize + report.lastValidOffset, report)

def truncateWalTailIfNeeded (file : Bytes) (validBytes : Nat) : Except FfsError Bytes :=
  if validBytes < headerSize ∨ validBytes > file.length then
    .error (.format "invalid WAL recovery boundary")
  else .ok (file.take validBytes)

namespace PersistentMvccStore

/-- `open_with_checkpoint_and_options` on the bytes of both files. Taking ownership of the log
syncs it, so all that is kept of it is durable. -/
def openWithCheckpointAndOptions (config : AdaptivePolicyConfig) (options : PersistOptions)
    (walFile : Bytes) (checkpoint : Option Bytes) : Except FfsError PersistentMvccStore := do
  let loaded ← loadedStore config checkpoint
  let ckptSeq := loaded.nextCommit - 1
  let stats : WalStats :=
    { (default : WalStats) with
      checkpointCommitSeq := if checkpoint.isSome then ckptSeq else 0 }
  let recovery : WalRecoveryReport :=
    { (default : WalRecoveryReport) with
      usedCheckpoint := checkpoint.isSome
      checkpointCommitSeq := checkpoint.map fun _ => ckptSeq }
  if walFile.length > 0 then
    let (store, pos, report) ← replayWalFromSeq walFile loaded ckptSeq
    let file ← truncateWalTailIfNeeded walFile pos
    return {
      store := store
      wal := ⟨file, pos, pos, options.toWriterConfig, 0, store.nextCommit - 1, none⟩
      stats :=
        { stats with
          replayedCommits := report.commitsReplayed
          replayedVersions := report.versionsReplayed
          walSizeBytes := pos }
      recoveryReport :=
        { recovery with
          outcome := report.outcome
          commitsReplayed := report.commitsReplayed
          versionsReplayed := report.versionsReplayed
          recordsDiscarded := report.recordsDiscarded
          walValidBytes := pos
          walTotalBytes := walFile.length } }
  else
    return {
      store := loaded
      wal := ⟨encodeHeader default, headerSize, headerSize, options.toWriterConfig, 0,
        loaded.nextCommit - 1, none⟩
      stats := { stats with walSizeBytes := headerSize }
      recoveryReport := recovery }

/-! ## The calls -/

def begin (p : PersistentMvccStore) : PersistentMvccStore × Transaction :=
  ({ p with store := p.store.begin.1 }, p.store.begin.2)

/-- `commit_internal`: the resolved writes, the commit in memory, then the log. A log that
refuses the record takes the commit back. -/
def commitInternal (p : PersistentMvccStore) (txn : Transaction) (useSsi : Bool) :
    PersistentMvccStore × Except Stop Nat :=
  match p.wal.ensureReady with
  | .error e =>
    (p, .error (.error (.durabilityFailure s!"WAL writer unavailable: {e.message}")))
  | .ok () =>
    match p.store.resolvedWritesForCommit txn with
    | .error e => (p, .error e)
    | .ok writes =>
      match if useSsi then p.store.commitSsi txn else p.store.commit txn with
      | (store, .error e) => ({ p with store := store }, .error e)
      | (store, .ok commitSeq) =>
        match p.wal.appendCommit ⟨commitSeq, txn.id, writes⟩ with
        | .error e =>
          ({ p with store := store.rollbackInMemoryCommit txn commitSeq useSsi },
            .error (.error (.durabilityFailure s!"WAL write failed: {e.message}")))
        | .ok wal =>
          ({ p with
              store := store
              wal := wal
              stats :=
                { p.stats with
                  commitsWritten := p.stats.commitsWritten + 1
                  walSizeBytes := wal.writePos } }, .ok commitSeq)

def readVisible (p : PersistentMvccStore) (block : Nat) (snapshot : Snapshot) : Option Bytes :=
  p.store.readVisible block snapshot

def registerSnapshot (p : PersistentMvccStore) (snapshot : Snapshot) : PersistentMvccStore :=
  { p with store := p.store.registerSnapshot snapshot }

def releaseSnapshot (p : PersistentMvccStore) (snapshot : Snapshot) : PersistentMvccStore :=
  { p with store := (p.store.releaseSnapshot snapshot).1 }

def checkpoint (p : PersistentMvccStore) : Except FfsError (PersistentMvccStore × Bytes) := do
  p.wal.ensureReady.mapError WalWriteError.toFfsError
  let file ← writeCheckpoint p.store.nextTxn p.store.nextCommit p.store.versions.entries
  return ({ p with
    stats :=
      { p.stats with
        checkpointsCreated := p.stats.checkpointsCreated + 1
        checkpointCommitSeq := p.store.nextCommit - 1 } }, file)

def truncateWal (p : PersistentMvccStore) : PersistentMvccStore × Except FfsError Unit :=
  match p.wal.ensureReady with
  | .error e => (p, .error e.toFfsError)
  | .ok () =>
    let currentCommitSeq := p.store.nextCommit - 1
    if currentCommitSeq > p.stats.checkpointCommitSeq then
      (p, .error (.format (s!"refusing to truncate WAL: checkpoint is stale " ++
        s!"(checkpoint_commit_seq={p.stats.checkpointCommitSeq}, " ++
        s!"latest_commit_seq={currentCommitSeq})")))
    else
      match p.wal.truncateAfterCheckpoint currentCommitSeq with
      | (wal, .error e) => ({ p with wal := wal }, .error e.toFfsError)
      | (wal, .ok size) =>
        ({ p with wal := wal, stats := { p.stats with walSizeBytes := size } }, .ok ())

end PersistentMvccStore

end Store

end FrankenFs.Mvcc
