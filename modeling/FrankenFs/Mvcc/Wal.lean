import FrankenFs.Lib.Wire
import FrankenFs.Mvcc.Types

/-!
# The write-ahead log: format, writer and record reader

`wal.rs`, `wal_writer.rs` with its streamed encoder, and `wal_replay/reader.rs`. Storage here returns
what was written, so the read-back of `verify_writes` and the rollback of a failed write have nothing
to do.
-/

open FrankenFs.Lib

namespace FrankenFs.Mvcc

def u32Max : Nat := 2 ^ 32 - 1

theorem u64_lt {n : Nat} (h : n ≤ u64Max) : n < 256 ^ 8 := by
  unfold u64Max at h
  omega

theorem u32_lt {n : Nat} (h : n ≤ u32Max) : n < 256 ^ 4 := by
  unfold u32Max at h
  omega

/-- A `u32` as `{:#010x}` prints it. -/
def hex32 (n : Nat) : String := "0x" ++ String.ofList ((Nat.toDigits 16 n).leftpad 8 '0')

/-- The checksum crate. Chunks are folded in as they come, which gives the checksum of all
of them. -/
class Checksum where
  crc32c : Bytes → BitVec 32

inductive FfsError where
  | format (detail : String)
  | corruption (block : Nat) (detail : String)
  | io (detail : String)
deriving DecidableEq, Repr

/-! ## The file header -/

structure WalHeader where
  magic : Nat
  version : Nat
  checksumType : Nat
deriving DecidableEq, Repr

def walMagic : Nat := 0x4D564357
def walVersion : Nat := 1
def checksumTypeCrc32c : Nat := 0
def headerSize : Nat := 16
def minCommitRecordSize : Nat := 4 + 1 + 8 + 8 + 4 + 4
def recordTypeCommit : Nat := 1

instance : Inhabited WalHeader := ⟨⟨walMagic, walVersion, checksumTypeCrc32c⟩⟩

def encodeHeader (header : WalHeader) : Bytes :=
  toLe 4 header.magic ++ (toLe 2 header.version ++ (toLe 2 header.checksumType ++ toLe 8 0))

def decodeHeader (bytes : Bytes) : Except FfsError WalHeader :=
  if bytes.length < headerSize then
    .error (.format s!"WAL header too short: {bytes.length} bytes, need {headerSize}")
  else
    let magic := leAt 0 4 bytes
    let version := leAt 4 2 bytes
    let checksumType := leAt 6 2 bytes
    if magic ≠ walMagic then
      .error (.format s!"WAL magic mismatch: expected {hex32 walMagic}, got {hex32 magic}")
    else if version ≠ walVersion then
      .error (.format s!"unsupported WAL version: {version} (expected {walVersion})")
    else if checksumType ≠ checksumTypeCrc32c then
      .error (.format s!"unsupported WAL checksum type: {checksumType}")
    else .ok ⟨magic, version, checksumType⟩

theorem length_encodeHeader (header : WalHeader) : (encodeHeader header).length = headerSize := by
  simp [encodeHeader, headerSize]

theorem decodeHeader_encodeHeader :
    decodeHeader (encodeHeader default) = .ok (default : WalHeader) := by decide

/-! ## Commit records -/

/-- A commit as the log has it. A `WalWrite` is a block with its bytes. -/
structure WalCommit where
  commitSeq : Nat
  txnId : Nat
  writes : List (Nat × Bytes)
deriving DecidableEq, Repr

structure WalCommit.InRange (c : WalCommit) : Prop where
  seq : c.commitSeq ≤ u64Max
  txn : c.txnId ≤ u64Max
  blocks : ∀ w ∈ c.writes, w.1 ≤ u64Max

inductive WalWriteError where
  | formatViolation (detail : String)
  | backpressure (walSize threshold : Nat)
  | recoveryRequired (detail : String)
deriving DecidableEq, Repr

def layoutData : List Nat → Nat → Except WalWriteError Nat
  | [], body => .ok body
  | len :: rest, body =>
    if u32Max < len then .error (.formatViolation "WAL write length exceeds u32")
    else if u32Max < body + len then .error (.formatViolation "WAL record length exceeds u32")
    else layoutData rest (body + len)

def layout (lengths : List Nat) : Except WalWriteError (Nat × Nat × Nat) :=
  let count := lengths.length
  if u32Max < count then .error (.formatViolation "too many WAL writes")
  else if u32Max < count * 12 + (minCommitRecordSize - 4) then
    .error (.formatViolation "WAL write headers exceed record length limit")
  else
    (layoutData lengths (count * 12 + (minCommitRecordSize - 4))).map fun body =>
      (body, count, body + 4)

structure PreparedRecord where
  commit : WalCommit
  body : Nat
  count : Nat
  bytes : Nat
deriving DecidableEq, Repr

def PreparedRecord.new (commit : WalCommit) : Except WalWriteError PreparedRecord :=
  (layout (commit.writes.map fun w => w.2.length)).map fun (body, count, bytes) =>
    ⟨commit, body, count, bytes⟩

def bodyHeaderBytes : Nat := 21
def writeHeaderBytes : Nat := 12

def commitHeader (commit : WalCommit) (count : Nat) : Bytes :=
  toLe 1 recordTypeCommit ++ (toLe 8 commit.commitSeq ++ (toLe 8 commit.txnId ++ toLe 4 count))

def writeHeader (w : Nat × Bytes) : Bytes := toLe 8 w.1 ++ toLe 4 w.2.length

def PreparedRecord.payload (r : PreparedRecord) : Bytes :=
  commitHeader r.commit r.count ++ r.commit.writes.flatMap fun w => writeHeader w ++ w.2

variable [Checksum]

def PreparedRecord.emit (r : PreparedRecord) : Bytes :=
  toLe 4 r.body ++ (r.payload ++ toLe 4 (Checksum.crc32c r.payload).toNat)

/-! ## The writer -/

inductive SyncPolicy where
  | immediate
  | everyN (n : Nat)
  | manual
deriving DecidableEq, Repr

structure WalWriterConfig where
  syncPolicy : SyncPolicy
  backpressureThresholdBytes : Nat
deriving DecidableEq, Repr

structure WalWriter where
  file : Bytes
  /-- Length of the part of the file that the last `sync_all` made durable. -/
  synced : Nat
  writePos : Nat
  config : WalWriterConfig
  appendsSinceSync : Nat
  lastCommitSeq : Nat
  recoveryRequired : Option String
deriving DecidableEq, Repr

namespace WalWriter

def ensureReady (w : WalWriter) : Except WalWriteError Unit :=
  match w.recoveryRequired with
  | none => .ok ()
  | some detail => .error (.recoveryRequired detail)

def isBackpressured (w : WalWriter) : Bool :=
  decide (w.config.backpressureThresholdBytes > 0) &&
    decide (w.writePos ≥ w.config.backpressureThresholdBytes)

def validateCommit (w : WalWriter) (commit : WalCommit) : Except WalWriteError Unit :=
  if commit.commitSeq = u64Max ∨ commit.txnId = u64Max then
    .error (.formatViolation "reserved sentinel value (u64::MAX) in coalesced batch")
  else if commit.commitSeq ≤ w.lastCommitSeq then
    .error (.formatViolation
      s!"coalesced commit_seq {commit.commitSeq} not strictly greater than {w.lastCommitSeq}")
  else .ok ()

def doSync (w : WalWriter) : WalWriter := { w with synced := w.file.length, appendsSinceSync := 0 }

def maybeSync (w : WalWriter) : WalWriter :=
  match w.config.syncPolicy with
  | .immediate => w.doSync
  | .everyN n => if w.appendsSinceSync ≥ n then w.doSync else w
  | .manual => w

/-- `append_prepared_streamed` for one record. Writing goes to `writePos`. -/
def appendPrepared (w : WalWriter) (r : PreparedRecord) : Except WalWriteError WalWriter :=
  if u64Max < w.writePos + r.bytes then
    .error (.formatViolation "WAL write position overflowed")
  else
    let written :=
      { w with
        file := w.file.take w.writePos ++ r.emit ++ w.file.drop (w.writePos + r.emit.length)
        writePos := w.writePos + r.bytes
        appendsSinceSync := min (w.appendsSinceSync + 1) u32Max }
    .ok { written.maybeSync with lastCommitSeq := r.commit.commitSeq }

def appendCommit (w : WalWriter) (commit : WalCommit) : Except WalWriteError WalWriter := do
  w.ensureReady
  w.validateCommit commit
  failIf w.isBackpressured (.backpressure w.writePos w.config.backpressureThresholdBytes)
  let record ← PreparedRecord.new commit
  w.appendPrepared record

/-- Drops what a durable checkpoint covers and keeps the header. A file that is not as long
as the writer believes seals the writer. -/
def truncateAfterCheckpoint (w : WalWriter) (checkpointCommitSeq : Nat) :
    WalWriter × Except WalWriteError Nat :=
  match w.ensureReady with
  | .error e => (w, .error e)
  | .ok () =>
    if checkpointCommitSeq = u64Max ∨ checkpointCommitSeq < w.lastCommitSeq then
      (w, .error
        (.formatViolation "invalid or stale checkpoint horizon for WAL truncation"))
    else if w.writePos < headerSize ∨ w.file.length ≠ w.writePos then
      let detail := s!"WAL length changed before checkpoint truncation: expected {w.writePos}, " ++
        s!"observed {w.file.length}"
      ({ w with recoveryRequired := some detail }, .error (.recoveryRequired detail))
    else
      ({ w with
          file := w.file.take headerSize
          synced := headerSize
          writePos := headerSize
          lastCommitSeq := checkpointCommitSeq
          appendsSinceSync := 0 }, .ok headerSize)

end WalWriter

end FrankenFs.Mvcc
