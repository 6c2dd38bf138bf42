import FrankenFs.Mvcc.Merge

/-!
# Transactions

A transaction is a value of its client. The store sees it when it commits.
-/

open FrankenFs.Lib

namespace FrankenFs.Mvcc

structure StagedWrite where
  bytes : Bytes
  mergeProof : MergeProof
  /-- The block's content at the snapshot, recorded when the store held no version of it. -/
  base : Option Bytes
deriving DecidableEq

structure CowRewriteIntent where
  oldPhysical : Option Nat
  newPhysical : Nat
deriving DecidableEq

structure Transaction where
  id : Nat
  snapshot : Snapshot
  /-- In block order, as the binary search of the source keeps it. -/
  stagedWrites : OrdMap Nat StagedWrite
  /-- The sequence of the version read, for each block read. -/
  reads : OrdMap Nat Nat
  cowWrites : OrdMap Nat CowRewriteIntent
  cowOrphans : OrdMap Nat Unit

namespace Transaction

def new (id : Nat) (snapshot : Snapshot) : Transaction := ⟨id, snapshot, ∅, ∅, ∅, ∅⟩

def stagedWrite (txn : Transaction) (block : Nat) : Option Bytes :=
  (txn.stagedWrites.get? block).map StagedWrite.bytes

def stagedBase (txn : Transaction) (block : Nat) : Option Bytes :=
  (txn.stagedWrites.get? block).bind StagedWrite.base

def mergeProof (txn : Transaction) (block : Nat) : Option MergeProof :=
  (txn.stagedWrites.get? block).map StagedWrite.mergeProof

def writeSet (txn : Transaction) : List Nat := txn.stagedWrites.keys

def restage (previous staged : StagedWrite) : StagedWrite :=
  if previous.mergeProof ≠ .notSafe ∧ staged.mergeProof = .notSafe then staged
  else
    let proof := (combineProofs previous.mergeProof staged.mergeProof).getD staged.mergeProof
    { staged with
      mergeProof := proof
      base := if proof ≠ .notSafe then previous.base.or staged.base else staged.base }

def insertStagedWrite (txn : Transaction) (block : Nat) (staged : StagedWrite) : Transaction :=
  { txn with
    stagedWrites := txn.stagedWrites.alter block fun
      | some previous => some (restage previous staged)
      | none => some staged }

def stageWriteWithProofAndBase (txn : Transaction) (block : Nat) (bytes : Bytes)
    (proof : MergeProof) (base : Option Bytes) : Transaction :=
  txn.insertStagedWrite block ⟨bytes, proof, base⟩

def stageWriteWithProof (txn : Transaction) (block : Nat) (bytes : Bytes) (proof : MergeProof) :
    Transaction :=
  txn.insertStagedWrite block ⟨bytes, proof, none⟩

def stageWrite (txn : Transaction) (block : Nat) (bytes : Bytes) : Transaction :=
  txn.stageWriteWithProof block bytes .notSafe

def recordRead (txn : Transaction) (block versionSeq : Nat) : Transaction :=
  { txn with reads := txn.reads.alter block fun seen => some (seen.getD versionSeq) }

end Transaction

/-- How a commit ends when it does not succeed: with an error, or with a panic. -/
inductive Stop where
  | error (e : CommitError)
  | panic
deriving DecidableEq

def validateTransactionId (id : Nat) : Except Stop Unit :=
  if id = 0 ∨ id = u64Max then
    .error (.error (.durabilityFailure s!"invalid transaction id {id}"))
  else .ok ()

end FrankenFs.Mvcc
