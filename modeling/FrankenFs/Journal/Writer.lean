import FrankenFs.Journal.Device
import FrankenFs.Lib.Outcome

/-!
# The writer of a JBD2 journal

A transaction becomes descriptors with their data blocks, revoke blocks and a commit block. The state
has the device as reads see it and the operations it was asked for.
-/

open FrankenFs.Lib

namespace FrankenFs.Journal

/-! ## The state -/

inductive DiskOp (β : Type) where
  | write (block : Nat) (value : β)
  | sync
deriving DecidableEq

structure Jbd2Writer where
  segments : List JournalSegment
  totalBlocks : Nat
  head : Nat
  baseHead : Nat
  nextSeq : Nat
  aborted : Bool
  is64bit : Bool
  tagFormat : Jbd2TagFormat
  hasChecksum : Bool
  csumSeed : BitVec 32
deriving DecidableEq

structure Machine where
  dev : BlockDevice
  writer : Jbd2Writer
  ops : List (DiskOp Bytes)
  failed : Bool

abbrev JournalM := EStateM FfsError Machine

def liftExcept {α : Type} (x : Except FfsError α) : JournalM α := MonadExcept.ofExcept x

def BlockDevice.write (dev : BlockDevice) (block : Nat) (data : Bytes) : BlockDevice :=
  { dev with blocks := Function.update dev.blocks block data }

def devWrite (block : Nat) (data : Bytes) : JournalM Unit := fun s =>
  match s.dev.checkWrite block data with
  | .ok _ => .ok () { s with dev := s.dev.write block data, ops := s.ops ++ [.write block data] }
  | .error e => .error e { s with failed := true }

def devSync : JournalM Unit := modify fun s => { s with ops := s.ops ++ [.sync] }

def devWriteAll : List (Nat × Bytes) → JournalM Unit
  | [] => pure ()
  | (block, data) :: rest => do
    devWrite block data
    devWriteAll rest

/-! ## The blocks of a transaction -/

inductive Jbd2TxnBodyItem where
  | write (target : Nat) (payload : Bytes)
  | revoke (target : Nat)
deriving DecidableEq

def padTo (size : Nat) (bytes : Bytes) : Bytes := bytes ++ List.replicate (size - bytes.length) 0

def encodeJbd2Header (blockType sequence : Nat) : Bytes :=
  toBe 4 jbd2Magic ++ (toBe 4 blockType ++ toBe 4 sequence)

/-- A block that begins with the magic would be taken for a log block. -/
def needsEscape (payload : Bytes) : Bool :=
  decide (4 ≤ payload.length) && payload.take 4 == toBe 4 jbd2Magic

def journaledBlock (bs : Nat) (payload : Bytes) : Bytes :=
  let padded := padTo bs (payload.take (min payload.length bs))
  if needsEscape payload then overwrite 0 zeroChecksumField padded else padded

def tagFlags (last escaped : Bool) : Nat :=
  (if last then jbd2TagFlagLast else 0) ||| (if escaped then jbd2TagFlagEscape else 0) |||
    jbd2TagFlagSameUuid

namespace Jbd2Writer

variable (w : Jbd2Writer)

def encodeTag (sequence : Nat) (last : Bool) (target : Nat) (payload block : Bytes) :
    Except FfsError Bytes :=
  let flags := tagFlags last (needsEscape payload)
  let checksum := (checksumJbd2DataBlock block sequence w.csumSeed).toNat
  let low := target % 2 ^ 32
  let high := target / 2 ^ 32 % 2 ^ 32
  let short := match w.tagFormat with
    | .csumV2 => checksum % 2 ^ 16
    | _ => 0
  match w.tagFormat with
  | .csumV3 => .ok (toBe 4 low ++ (toBe 4 flags ++ (toBe 4 high ++ toBe 4 checksum)))
  | .legacy | .csumV2 =>
    if w.is64bit then .ok (toBe 4 low ++ (toBe 2 short ++ (toBe 2 flags ++ toBe 4 high)))
    else if target < 2 ^ 32 then .ok (toBe 4 target ++ (toBe 2 short ++ toBe 2 flags))
    else .error (.format s!"target block {target} exceeds u32 range")

def encodeTags (bs sequence : Nat) : List (Nat × Bytes) → Except FfsError Bytes
  | [] => .ok []
  | (target, payload) :: rest => do
    let tag ← w.encodeTag sequence rest.isEmpty target payload (journaledBlock bs payload)
    let tags ← encodeTags bs sequence rest
    return tag ++ tags

def stampTail (block : Bytes) : Except FfsError Bytes :=
  if w.hasChecksum then
    match checksumJbd2TailZeroedBlock block w.csumSeed with
    | none => .error (.format "JBD2 checksum block too small")
    | some checksum =>
      .ok (overwrite (block.length - jbd2ChecksumTailSize) (toBe 4 checksum.toNat) block)
  else .ok block

def encodeDescriptor (bs sequence : Nat) (chunk : List (Nat × Bytes)) : Except FfsError Bytes := do
  let tags ← w.encodeTags bs sequence chunk
  w.stampTail (padTo bs (encodeJbd2Header jbd2BlocktypeDescriptor sequence ++ tags))

def encodeRevokeEntry (target : Nat) : Except FfsError Bytes :=
  if w.is64bit then .ok (toBe 4 (target / 2 ^ 32 % 2 ^ 32) ++ toBe 4 (target % 2 ^ 32))
  else if target < 2 ^ 32 then .ok (toBe 4 target)
  else .error (.format s!"revoke target {target} exceeds u32 range")

def encodeRevoke (bs sequence : Nat) (targets : List Nat) : Except FfsError Bytes := do
  let rCount := jbd2RevokeHeaderSize + targets.length * revokeEntrySize w.is64bit
  failIf (2 ^ 32 ≤ rCount) (.format "revoke r_count overflow")
  let entries ← targets.mapM w.encodeRevokeEntry
  w.stampTail (padTo bs (encodeJbd2Header jbd2BlocktypeRevoke sequence ++
    (toBe 4 rCount ++ entries.flatten)))

def encodeCommit (bs sequence : Nat) : Except FfsError Bytes :=
  let block := padTo bs (encodeJbd2Header jbd2BlocktypeCommit sequence)
  if w.hasChecksum then
    if block.length < jbd2CommitChksumOffset + jbd2ChecksumTailSize then
      .error (.format "JBD2 commit block too small for checksum")
    else
      let zeroed := overwrite jbd2CommitChksumOffset (toBe 4 0) block
      let checksum := ~~~ crc32cAppend (~~~ w.csumSeed) zeroed
      .ok (overwrite jbd2CommitChksumOffset (toBe 4 checksum.toNat) zeroed)
  else .ok block

/-! ## Admission -/

def maxTagsPerDescriptor (bs : Nat) : Nat :=
  (bs - (jbd2HeaderSize + (if w.hasChecksum then jbd2ChecksumTailSize else 0))) /
    w.tagFormat.tagSize w.is64bit

def maxRevokeEntries (bs : Nat) : Nat :=
  (bs - (jbd2RevokeHeaderSize + (if w.hasChecksum then jbd2ChecksumTailSize else 0))) /
    revokeEntrySize w.is64bit

def blocksNeeded (bs writes revokes : Nat) : Nat :=
  let tags := w.maxTagsPerDescriptor bs
  let entries := w.maxRevokeEntries bs
  if 0 < writes ∧ tags = 0 ∨ 0 < revokes ∧ entries = 0 then 2 ^ 64 - 1
  else
    let total := if 0 < writes then satAdd (satAdd 0 (divCeil writes tags)) writes else 0
    let total := if 0 < revokes then satAdd total (divCeil revokes entries) else total
    satAdd total 1

def freeBlocks : Nat := w.totalBlocks - w.head

end Jbd2Writer

def writeCount (items : List Jbd2TxnBodyItem) : Nat :=
  items.countP fun item => match item with | .write .. => true | .revoke _ => false

def revokeCount (items : List Jbd2TxnBodyItem) : Nat :=
  items.countP fun item => match item with | .write .. => false | .revoke _ => true

def oversized (bs : Nat) (items : List Jbd2TxnBodyItem) : Option (Nat × Nat) :=
  items.findSome? fun item =>
    match item with
    | .write target payload => if bs < payload.length then some (target, payload.length) else none
    | .revoke _ => none

def preflightTransaction (w : Jbd2Writer) (bs : Nat) (items : List Jbd2TxnBodyItem) :
    Except FfsError Unit := do
  failIf (w.aborted = true)
    (.io "JBD2 writer aborted after a failed commit; recovery is required")
  failIf (bs < jbd2HeaderSize) (.format "block size too small for JBD2 headers")
  failIf (w.hasChecksum = true ∧ bs < jbd2CommitChksumOffset + jbd2ChecksumTailSize)
    (.format "block size too small for JBD2 commit checksum")
  failIf (0 < writeCount items ∧ w.maxTagsPerDescriptor bs = 0)
    (.format "block size too small for JBD2 descriptor tags")
  failIf (0 < revokeCount items ∧ w.maxRevokeEntries bs = 0)
    (.format "block size too small for JBD2 revoke entries")
  match oversized bs items with
  | some (target, len) =>
    .error (.format (s!"write payload for block {target} exceeds journal block size: " ++
      s!"{len} > {bs}"))
  | none =>
    failIf (w.freeBlocks < w.blocksNeeded bs (writeCount items) (revokeCount items)) .noSpace

/-! ## Committing -/

inductive Chunk where
  | writes (chunk : List (Nat × Bytes))
  | revokes (targets : List Nat)
deriving DecidableEq

def takeWrites : Nat → List Jbd2TxnBodyItem → List (Nat × Bytes) × List Jbd2TxnBodyItem
  | n + 1, .write target payload :: rest =>
    let (chunk, left) := takeWrites n rest
    ((target, payload) :: chunk, left)
  | _, items => ([], items)

def takeRevokes : Nat → List Jbd2TxnBodyItem → List Nat × List Jbd2TxnBodyItem
  | n + 1, .revoke target :: rest =>
    let (chunk, left) := takeRevokes n rest
    (target :: chunk, left)
  | _, items => ([], items)

def chunkItems (tagsPerDesc entriesPerRevoke : Nat) : Nat → List Jbd2TxnBodyItem → List Chunk
  | _, [] => []
  | 0, _ => []
  | fuel + 1, .write target payload :: rest =>
    let (chunk, left) := takeWrites tagsPerDesc (.write target payload :: rest)
    .writes chunk :: chunkItems tagsPerDesc entriesPerRevoke fuel left
  | fuel + 1, .revoke target :: rest =>
    let (chunk, left) := takeRevokes entriesPerRevoke (.revoke target :: rest)
    .revokes chunk :: chunkItems tagsPerDesc entriesPerRevoke fuel left

namespace Jbd2Writer

variable (w : Jbd2Writer)

def allocBlock (head : Nat) : Except FfsError (Nat × Nat) := do
  failIf (w.totalBlocks ≤ head) .noSpace
  let block ← resolveSegmentBlock w.segments w.totalBlocks head
  return (block, satAdd head 1)

def allocFor : List Bytes → Nat → Except FfsError (List (Nat × Bytes) × Nat)
  | [], head => .ok ([], head)
  | data :: rest, head => do
    let (block, head) ← w.allocBlock head
    let (blocks, head) ← allocFor rest head
    return ((block, data) :: blocks, head)

def chunkBlocks (bs sequence : Nat) : Chunk → Except FfsError (List Bytes)
  | .writes chunk => do
    let desc ← w.encodeDescriptor bs sequence chunk
    return desc :: chunk.map fun write => journaledBlock bs write.2
  | .revokes targets => do
    let revoke ← w.encodeRevoke bs sequence targets
    return [revoke]

/-- A descriptor and its data blocks may go to the device as one write, which is no more
atomic than the writes of its blocks. -/
def writeChunk (bs sequence : Nat) (chunk : Chunk) (head : Nat) : JournalM Nat := do
  let blocks ← liftExcept (w.chunkBlocks bs sequence chunk)
  let (writes, head) ← liftExcept (w.allocFor blocks head)
  devWriteAll writes
  return head

def writeChunks (bs sequence : Nat) : List Chunk → Nat → JournalM Nat
  | [], head => pure head
  | chunk :: rest, head => do
    let head ← w.writeChunk bs sequence chunk head
    writeChunks bs sequence rest head

end Jbd2Writer

def setWriter (f : Jbd2Writer → Jbd2Writer) : JournalM Unit :=
  modify fun s => { s with writer := f s.writer }

def commitTransaction (items : List Jbd2TxnBodyItem) : JournalM Nat := do
  let s ← get
  let w := s.writer
  let bs := s.dev.blockSize
  liftExcept (preflightTransaction w bs items)
  let seq := w.nextSeq
  setWriter fun w => { w with nextSeq := (w.nextSeq + 1) % seqModulus, aborted := true }
  let head ← w.writeChunks bs seq
    (chunkItems (w.maxTagsPerDescriptor bs) (w.maxRevokeEntries bs) items.length items) w.head
  devSync
  let commit ← liftExcept (w.encodeCommit bs seq)
  let (block, head) ← liftExcept (w.allocBlock head)
  devWrite block commit
  setWriter fun w => { w with head := head, aborted := false }
  return seq

end FrankenFs.Journal
