import Mathlib.Data.Finset.Insert
import Mathlib.Data.Finset.Basic
import FrankenFs.Lib.Crc32c

/-!
# The native COW journal

An append-only journal with one record in a block. `recoverNativeCow` collects the writes of the
sequence numbers that have a commit.
-/

namespace FrankenFs.NativeCow

open FrankenFs.Lib

inductive FfsError where
  | format (message : String)
  | corruption (block : Nat) (detail : String)
  | noSpace
deriving DecidableEq, Repr

/-! ## Records -/

def cowMagic : Nat := 0x4A534646
def cowVersion : Nat := 1
def cowRecordWrite : Nat := 1
def cowRecordCommit : Nat := 2
def cowHeaderSize : Nat := 32

inductive CowRecord where
  | write (commitSeq block : Nat) (payload : Bytes)
  | commit (commitSeq : Nat)
deriving DecidableEq, Repr

def CowRecord.Fits : CowRecord → Prop
  | .write commitSeq block _ => commitSeq < 2 ^ 64 ∧ block < 2 ^ 64
  | .commit commitSeq => commitSeq < 2 ^ 64

instance : DecidablePred CowRecord.Fits
  | .write _ _ _ => inferInstanceAs (Decidable (_ ∧ _))
  | .commit _ => inferInstanceAs (Decidable (_ < _))

def crc32c (payload : Bytes) : Nat := (crc32cAppend 0 payload).toNat

/-- The number as `{:#010x}` writes it. -/
def hexWord (n : Nat) : String := "0x" ++ String.ofList ((Nat.toDigits 16 n).leftpad 8 '0')

def encodeCowRecord (blockSize : Nat) (record : CowRecord) : Except FfsError Bytes := do
  failIf (blockSize < cowHeaderSize)
    (.format ("COW journal block size " ++ toString blockSize ++
      " is smaller than header size " ++ toString cowHeaderSize))
  let out := List.replicate blockSize 0
  let out := overwrite 0 (toLe 4 cowMagic) out
  let out := overwrite 4 (toLe 2 cowVersion) out
  match record with
  | .write commitSeq block payload =>
    let payloadCapacity := blockSize - cowHeaderSize
    failIf (payloadCapacity < payload.length)
      (.format ("COW payload too large: " ++ toString payload.length ++
        " bytes exceeds capacity " ++ toString payloadCapacity))
    failIf (2 ^ 32 ≤ payload.length) (.format "COW payload length does not fit u32")
    let out := overwrite 6 (toLe 2 cowRecordWrite) out
    let out := overwrite 8 (toLe 8 commitSeq) out
    let out := overwrite 16 (toLe 8 block) out
    let out := overwrite 24 (toLe 4 payload.length) out
    let out := overwrite 28 (toLe 4 (crc32c payload)) out
    .ok (overwrite cowHeaderSize payload out)
  | .commit commitSeq =>
    let out := overwrite 6 (toLe 2 cowRecordCommit) out
    let out := overwrite 8 (toLe 8 commitSeq) out
    let out := overwrite 16 (toLe 8 0) out
    let out := overwrite 24 (toLe 4 0) out
    .ok (overwrite 28 (toLe 4 0) out)

def isAllZero (bytes : Bytes) : Bool := bytes.all (· = 0)

def orFormat (field : Option Nat) (message : String) : Except FfsError Nat :=
  match field with
  | some value => .ok value
  | none => .error (.format message)

def decodeWrite (block : Bytes) (commitSeq targetBlock payloadLen payloadCrc : Nat) :
    Except FfsError (Option CowRecord) := do
  let payloadEnd := cowHeaderSize + payloadLen
  failIf (block.length < payloadEnd) (.format "COW payload exceeds block boundary")
  let payload := (block.drop cowHeaderSize).take payloadLen
  let computed := crc32c payload
  failIf (computed ≠ payloadCrc)
    (.corruption targetBlock ("COW payload CRC mismatch: expected " ++ hexWord payloadCrc ++
      ", got " ++ hexWord computed))
  failIf (¬ isAllZero (block.drop payloadEnd)) (.format "COW write record padding must be zero")
  .ok (some (.write commitSeq targetBlock payload))

def decodeCommit (block : Bytes) (commitSeq targetBlock payloadLen payloadCrc : Nat) :
    Except FfsError (Option CowRecord) := do
  failIf (targetBlock ≠ 0 ∨ payloadLen ≠ 0 ∨ payloadCrc ≠ 0)
    (.format "COW commit record metadata must be zero")
  failIf (¬ isAllZero (block.drop cowHeaderSize))
    (.format "COW commit record payload area must be zero")
  .ok (some (.commit commitSeq))

def decodeCowRecord (block : Bytes) : Except FfsError (Option CowRecord) :=
  if isAllZero block then .ok none
  else
    match readLe 4 0 block with
    | none => .ok none
    | some magic =>
      if magic ≠ cowMagic then .ok none
      else do
        let version ← orFormat (readLe 2 4 block) "truncated COW record version"
        failIf (version ≠ cowVersion)
          (.format ("unsupported COW journal version: " ++ toString version))
        let kind ← orFormat (readLe 2 6 block) "truncated COW record kind"
        let commitSeq ← orFormat (readLe 8 8 block) "truncated COW record commit_seq"
        let targetBlock ← orFormat (readLe 8 16 block) "truncated COW record block"
        let payloadLen ← orFormat (readLe 4 24 block) "truncated COW record payload length"
        let payloadCrc ← orFormat (readLe 4 28 block) "truncated COW record checksum"
        if kind = cowRecordWrite then
          decodeWrite block commitSeq targetBlock payloadLen payloadCrc
        else if kind = cowRecordCommit then
          decodeCommit block commitSeq targetBlock payloadLen payloadCrc
        else .error (.format ("unknown COW record kind: " ++ toString kind))

/-! ## The device -/

/-- A device that does not fail inside its range. -/
structure BlockDevice where
  blockSize : Nat
  blockCount : Nat
  blocks : Nat → Bytes

namespace BlockDevice

def outOfRange (dev : BlockDevice) (block : Nat) : FfsError :=
  .format ("block out of range: block=" ++ toString block ++ " block_count=" ++
    toString dev.blockCount)

def readBlock (dev : BlockDevice) (block : Nat) : Except FfsError Bytes :=
  if dev.blockCount ≤ block then .error (dev.outOfRange block) else .ok (dev.blocks block)

def put (dev : BlockDevice) (block : Nat) (data : Bytes) : BlockDevice :=
  { dev with blocks := Function.update dev.blocks block data }

def writeBlock (dev : BlockDevice) (block : Nat) (data : Bytes) : Except FfsError BlockDevice := do
  failIf (data.length ≠ dev.blockSize)
    (.format ("write_block data size mismatch: got=" ++ toString data.length ++ " expected=" ++
      toString dev.blockSize))
  failIf (dev.blockCount ≤ block) (dev.outOfRange block)
  .ok (dev.put block data)

end BlockDevice

structure JournalRegion where
  start : Nat
  blocks : Nat
deriving DecidableEq, Repr

def resolveRegionBlock (region : JournalRegion) (index : Nat) : Except FfsError Nat := do
  failIf (region.blocks ≤ index)
    (.format ("journal block index " ++ toString index ++ " out of range (region size=" ++
      toString region.blocks ++ ")"))
  failIf (2 ^ 64 ≤ region.start + index)
    (.format ("journal block index " ++ toString index ++
      " overflows absolute block number from start " ++ toString region.start))
  .ok (region.start + index)

/-! ## The journal -/

structure NativeCowJournal where
  region : JournalRegion
  nextSlot : Nat
deriving DecidableEq, Repr

namespace NativeCowJournal

def firstFreeSlot (dev : BlockDevice) (region : JournalRegion) (nextSlot : Nat) :
    Except FfsError Nat :=
  if nextSlot < region.blocks then
    match resolveRegionBlock region nextSlot >>= dev.readBlock with
    | .error e => .error e
    | .ok raw =>
      match decodeCowRecord raw with
      | .ok (some _) => firstFreeSlot dev region (nextSlot + 1)
      | .ok none => .ok nextSlot
      | .error (.format message) =>
        if nextSlot = 0 then .error (.format message) else .ok nextSlot
      | .error e => .error e
  else .ok nextSlot
termination_by region.blocks - nextSlot

/-- `open`. -/
def openJournal (dev : BlockDevice) (region : JournalRegion) : Except FfsError NativeCowJournal := do
  failIf (region.blocks = 0) (.format "native COW journal region must be non-empty")
  let nextSlot ← firstFreeSlot dev region 0
  .ok ⟨region, nextSlot⟩

def writeNext (journal : NativeCowJournal) (dev : BlockDevice) (encoded : Bytes) :
    Except FfsError (NativeCowJournal × BlockDevice) := do
  failIf (journal.region.blocks ≤ journal.nextSlot) .noSpace
  let block ← resolveRegionBlock journal.region journal.nextSlot
  let dev ← dev.writeBlock block encoded
  .ok ({ journal with nextSlot := journal.nextSlot + 1 }, dev)

/-- `append_write` and `append_commit`. -/
def append (journal : NativeCowJournal) (dev : BlockDevice) (record : CowRecord) :
    Except FfsError (NativeCowJournal × BlockDevice) := do
  let encoded ← encodeCowRecord dev.blockSize record
  journal.writeNext dev encoded

end NativeCowJournal

/-! ## Recovery -/

structure CowWrite where
  block : Nat
  bytes : Bytes
deriving DecidableEq, Repr

structure RecoveredCommit where
  commitSeq : Nat
  writes : List CowWrite
deriving DecidableEq, Repr

/-- What the scan has found. A sequence number without an entry has no pending writes. -/
structure Recovery where
  pending : Nat → List CowWrite := fun _ => []
  committed : Finset Nat := ∅
  commitOrder : List Nat := []

def Recovery.push (r : Recovery) (commitSeq : Nat) (write : CowWrite) : Recovery :=
  { r with pending := Function.update r.pending commitSeq (r.pending commitSeq ++ [write]) }

theorem Recovery.push_pending_self (r : Recovery) (commitSeq : Nat) (write : CowWrite) :
    (r.push commitSeq write).pending commitSeq = r.pending commitSeq ++ [write] :=
  Function.update_self ..

theorem Recovery.push_pending_other (r : Recovery) {commitSeq other : Nat} (write : CowWrite)
    (h : other ≠ commitSeq) : (r.push commitSeq write).pending other = r.pending other :=
  Function.update_of_ne h ..

def Recovery.record (r : Recovery) : CowRecord → Except FfsError (Option Recovery)
  | .write commitSeq block payload =>
    if commitSeq ∈ r.committed then .ok none
    else .ok (some (r.push commitSeq ⟨block, payload⟩))
  | .commit commitSeq => do
    match r.commitOrder.getLast? with
    | some lastCommitSeq =>
      failIf (commitSeq < lastCommitSeq)
        (.format ("COW commit sequence regressed: " ++ toString commitSeq ++ " after " ++
          toString lastCommitSeq))
    | none => pure ()
    if commitSeq ∈ r.committed then .ok (some r)
    else
      .ok (some { r with committed := insert commitSeq r.committed
                         commitOrder := r.commitOrder ++ [commitSeq] })

def recoverFrom (dev : BlockDevice) (region : JournalRegion) (slot : Nat) (r : Recovery) :
    Except FfsError Recovery :=
  if slot < region.blocks then
    match resolveRegionBlock region slot >>= dev.readBlock with
    | .error e => .error e
    | .ok raw =>
      match decodeCowRecord raw with
      | .error (.format message) =>
        if r.commitOrder = [] then .error (.format message) else .ok r
      | .error e => .error e
      | .ok none => .ok r
      | .ok (some record) =>
        match r.record record with
        | .error e => .error e
        | .ok none => .ok r
        | .ok (some r') => recoverFrom dev region (slot + 1) r'
  else .ok r
termination_by region.blocks - slot

def takeCommits : List Nat → (Nat → List CowWrite) → List RecoveredCommit
  | [], _ => []
  | seq :: order, pending => ⟨seq, pending seq⟩ :: takeCommits order (Function.update pending seq [])

def recoverNativeCow (dev : BlockDevice) (region : JournalRegion) :
    Except FfsError (List RecoveredCommit) :=
  if region.blocks = 0 then .ok []
  else do
    let r ← recoverFrom dev region 0 {}
    .ok (takeCommits r.commitOrder r.pending)

/-! ## The records of a block -/

def cowHeader (kind commitSeq block payloadLen payloadCrc : Nat) : Bytes :=
  toLe 4 cowMagic ++ (toLe 2 cowVersion ++ (toLe 2 kind ++ (toLe 8 commitSeq ++
    (toLe 8 block ++ (toLe 4 payloadLen ++ toLe 4 payloadCrc)))))

def CowRecord.layout : CowRecord → Bytes
  | .write commitSeq block payload =>
    cowHeader cowRecordWrite commitSeq block payload.length (crc32c payload) ++ payload
  | .commit commitSeq => cowHeader cowRecordCommit commitSeq 0 0 0

theorem length_cowHeader (kind commitSeq block payloadLen payloadCrc : Nat) :
    (cowHeader kind commitSeq block payloadLen payloadCrc).length = cowHeaderSize := by
  simp [cowHeader, cowHeaderSize]

theorem overwrite_zero {field block : Bytes} :
    overwrite 0 field block = field ++ block.drop field.length := by
  unfold overwrite
  rw [List.take_zero, List.nil_append, Nat.zero_add]

theorem overwrite_next {front field block : Bytes} {start : Nat} (hstart : front.length = start)
    (hlen : start ≤ block.length) :
    overwrite start field (front ++ block.drop front.length) =
      (front ++ field) ++ block.drop (front ++ field).length := by
  rw [← overwrite_zero, ← overwrite_zero, ← hstart]
  have h := @overwrite_overwrite_next 0 front block field (by omega)
  rwa [Nat.zero_add] at h

theorem encodeCowRecord_ok {blockSize : Nat} {record : CowRecord} {encoded : Bytes}
    (h : encodeCowRecord blockSize record = .ok encoded) :
    cowHeaderSize ≤ blockSize ∧ record.layout.length ≤ blockSize ∧
      (∀ commitSeq block payload, record = .write commitSeq block payload →
        payload.length < 2 ^ 32) ∧
      encoded = record.layout ++ List.replicate (blockSize - record.layout.length) 0 := by
  unfold encodeCowRecord at h
  obtain ⟨_, hsize, h⟩ := bind_ok.mp h
  have hsize := Nat.le_of_not_lt (failIf_ok.mp hsize)
  have hzero : (List.replicate blockSize (0 : BitVec 8)).length = blockSize :=
    List.length_replicate
  have h32 : cowHeaderSize = 32 := rfl
  refine ⟨hsize, ?_⟩
  cases record with
  | write commitSeq block payload =>
    dsimp only at h
    obtain ⟨_, hcapacity, h⟩ := bind_ok.mp h
    obtain ⟨_, hlen, h⟩ := bind_ok.mp h
    have hcapacity := failIf_ok.mp hcapacity
    have hlen := failIf_ok.mp hlen
    have hlayout : (CowRecord.write commitSeq block payload).layout.length =
        32 + payload.length := by
      rw [CowRecord.layout, List.length_append, length_cowHeader, h32]
    refine ⟨by omega, fun _ _ _ heq => by cases heq; omega, ?_⟩
    have hout := (Except.ok.inj h).symm
    rw [overwrite_zero, overwrite_next (by simp) (by omega), overwrite_next (by simp) (by omega),
      overwrite_next (by simp) (by omega), overwrite_next (by simp) (by omega),
      overwrite_next (by simp) (by omega), overwrite_next (by simp) (by omega),
      overwrite_next (by simp [h32]) (by omega)] at hout
    rw [hout, List.drop_replicate]
    simp only [CowRecord.layout, cowHeader, List.append_assoc]
  | commit commitSeq =>
    dsimp only at h
    have hlayout : (CowRecord.commit commitSeq).layout.length = 32 := length_cowHeader ..
    refine ⟨by omega, fun _ _ _ heq => (by cases heq), ?_⟩
    have hout := (Except.ok.inj h).symm
    rw [overwrite_zero, overwrite_next (by simp) (by omega), overwrite_next (by simp) (by omega),
      overwrite_next (by simp) (by omega), overwrite_next (by simp) (by omega),
      overwrite_next (by simp) (by omega), overwrite_next (by simp) (by omega)] at hout
    rw [hout, List.drop_replicate]
    simp only [CowRecord.layout, cowHeader, List.append_assoc]

theorem isAllZero_replicate (n : Nat) : isAllZero (List.replicate n 0) = true := by
  simp [isAllZero]

theorem isAllZero_append_of_ne {front rest : Bytes} (h : isAllZero front = false) :
    isAllZero (front ++ rest) = false := by
  unfold isAllZero at h ⊢
  rw [List.all_append, h, Bool.false_and]

theorem decodeCowRecord_header {kind commitSeq block payloadLen payloadCrc : Nat}
    (hkind : kind < 2 ^ 16) (hseq : commitSeq < 2 ^ 64) (hblock : block < 2 ^ 64)
    (hlen : payloadLen < 2 ^ 32) (hcrc : payloadCrc < 2 ^ 32) (rest : Bytes) :
    decodeCowRecord (cowHeader kind commitSeq block payloadLen payloadCrc ++ rest) =
      if kind = cowRecordWrite then
        decodeWrite (cowHeader kind commitSeq block payloadLen payloadCrc ++ rest) commitSeq block
          payloadLen payloadCrc
      else if kind = cowRecordCommit then
        decodeCommit (cowHeader kind commitSeq block payloadLen payloadCrc ++ rest) commitSeq block
          payloadLen payloadCrc
      else .error (.format ("unknown COW record kind: " ++ toString kind)) := by
  have hlength : 32 ≤ (cowHeader kind commitSeq block payloadLen payloadCrc ++ rest).length := by
    rw [List.length_append, length_cowHeader]
    exact Nat.le_add_right _ _
  have hzero : isAllZero (cowHeader kind commitSeq block payloadLen payloadCrc ++ rest) = false := by
    unfold cowHeader
    rw [List.append_assoc]
    exact isAllZero_append_of_ne (by decide)
  generalize hraw : cowHeader kind commitSeq block payloadLen payloadCrc ++ rest = raw
    at hlength hzero
  have hmagic : leAt 0 4 raw = cowMagic := by
    rw [← hraw]
    simp only [cowHeader, List.append_assoc]
    exact leAt_here (by decide) _
  have hversion : leAt 4 2 raw = cowVersion := by
    rw [← hraw]
    simp only [cowHeader, List.append_assoc]
    exact (leAt_skip (length_toLe 4 _) _ 0 2).trans (leAt_here (by decide) _)
  have hkindAt : leAt 6 2 raw = kind := by
    rw [← hraw]
    simp only [cowHeader, List.append_assoc]
    exact (leAt_skip (length_toLe 4 _) _ 2 2).trans <|
      (leAt_skip (length_toLe 2 _) _ 0 2).trans (leAt_here hkind _)
  have hseqAt : leAt 8 8 raw = commitSeq := by
    rw [← hraw]
    simp only [cowHeader, List.append_assoc]
    exact (leAt_skip (length_toLe 4 _) _ 4 8).trans <| (leAt_skip (length_toLe 2 _) _ 2 8).trans <|
      (leAt_skip (length_toLe 2 _) _ 0 8).trans (leAt_here hseq _)
  have hblockAt : leAt 16 8 raw = block := by
    rw [← hraw]
    simp only [cowHeader, List.append_assoc]
    exact (leAt_skip (length_toLe 4 _) _ 12 8).trans <|
      (leAt_skip (length_toLe 2 _) _ 10 8).trans <| (leAt_skip (length_toLe 2 _) _ 8 8).trans <|
      (leAt_skip (length_toLe 8 _) _ 0 8).trans (leAt_here hblock _)
  have hlenAt : leAt 24 4 raw = payloadLen := by
    rw [← hraw]
    simp only [cowHeader, List.append_assoc]
    exact (leAt_skip (length_toLe 4 _) _ 20 4).trans <|
      (leAt_skip (length_toLe 2 _) _ 18 4).trans <| (leAt_skip (length_toLe 2 _) _ 16 4).trans <|
      (leAt_skip (length_toLe 8 _) _ 8 4).trans <| (leAt_skip (length_toLe 8 _) _ 0 4).trans <|
      leAt_here hlen _
  have hcrcAt : leAt 28 4 raw = payloadCrc := by
    rw [← hraw]
    simp only [cowHeader, List.append_assoc]
    exact (leAt_skip (length_toLe 4 _) _ 24 4).trans <|
      (leAt_skip (length_toLe 2 _) _ 22 4).trans <| (leAt_skip (length_toLe 2 _) _ 20 4).trans <|
      (leAt_skip (length_toLe 8 _) _ 12 4).trans <| (leAt_skip (length_toLe 8 _) _ 4 4).trans <|
      (leAt_skip (length_toLe 4 _) _ 0 4).trans (leAt_here hcrc _)
  unfold decodeCowRecord
  rw [hzero, if_neg Bool.false_ne_true, readLe_of_le (by omega), hmagic]
  dsimp only
  rw [if_neg (not_not_intro rfl), readLe_of_le (by omega), readLe_of_le (by omega),
    readLe_of_le (by omega), readLe_of_le (by omega), readLe_of_le (by omega),
    readLe_of_le (by omega), hversion, hkindAt, hseqAt, hblockAt, hlenAt, hcrcAt]
  rfl

theorem drop_cowHeader (kind commitSeq block payloadLen payloadCrc : Nat) (rest : Bytes) :
    (cowHeader kind commitSeq block payloadLen payloadCrc ++ rest).drop cowHeaderSize = rest :=
  List.drop_left' (length_cowHeader ..)

theorem decodeCowRecord_encode {blockSize : Nat} {record : CowRecord} {encoded : Bytes}
    (hfits : record.Fits) (h : encodeCowRecord blockSize record = .ok encoded) :
    decodeCowRecord encoded = .ok (some record) := by
  obtain ⟨-, -, hpayload, rfl⟩ := encodeCowRecord_ok h
  generalize blockSize - record.layout.length = pad
  cases record with
  | write commitSeq block payload =>
    have hcrc : crc32c payload < 2 ^ 32 := BitVec.isLt _
    have hwrite : cowRecordWrite < 2 ^ 16 := by decide
    unfold CowRecord.layout
    rw [List.append_assoc, decodeCowRecord_header hwrite hfits.1 hfits.2
      (hpayload _ _ _ rfl) hcrc, if_pos rfl]
    unfold decodeWrite
    dsimp only
    rw [drop_cowHeader, List.take_left, ← List.drop_drop, drop_cowHeader, List.drop_left,
      isAllZero_replicate, List.length_append, length_cowHeader, List.length_append,
      failIf_of_not (by omega), failIf_of_not (not_not_intro rfl), failIf_of_not (by simp)]
    rfl
  | commit commitSeq =>
    have hcommit : cowRecordCommit < 2 ^ 16 := by decide
    unfold CowRecord.layout
    rw [decodeCowRecord_header hcommit hfits (by decide) (by decide) (by decide),
      if_neg (by decide), if_pos rfl]
    unfold decodeCommit
    rw [drop_cowHeader, isAllZero_replicate, failIf_of_not (by decide), failIf_of_not (by simp)]
    rfl

end FrankenFs.NativeCow
