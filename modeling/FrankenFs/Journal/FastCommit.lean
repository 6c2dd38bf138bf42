import FrankenFs.Lib.Crc32c

/-!
# Fast commits

The area is a stream of tags in blocks. A HEAD names the cycle, operations follow, and a TAIL with a
checksum over the tags since the one before closes a transaction.
-/

namespace FrankenFs.FastCommit

open FrankenFs.Lib

inductive FfsError where
  | corruption (block : Nat) (detail : String)
deriving DecidableEq, Repr

inductive FcTag where
  | addRange | delRange | creat | link | unlink | inode | pad | tail | head
deriving DecidableEq, Repr

def FcTag.validPayloadLen (tag : FcTag) (len inodeSize : Nat) : Bool :=
  match tag with
  | .addRange => len = 16
  | .delRange => len = 12
  | .creat | .link | .unlink => 9 ≤ len ∧ len ≤ 263
  | .inode => 132 ≤ len ∧ len ≤ 4 + inodeSize
  | .pad => true
  | .tail => 8 ≤ len
  | .head => len = 8

def FcTag.fromU16 : Nat → Option FcTag
  | 0x01 => some .addRange
  | 0x02 => some .delRange
  | 0x03 => some .creat
  | 0x04 => some .link
  | 0x05 => some .unlink
  | 0x06 => some .inode
  | 0x07 => some .pad
  | 0x08 => some .tail
  | 0x09 => some .head
  | _ => none

def FcTag.debug : FcTag → String
  | .addRange => "AddRange (0x0001)"
  | .delRange => "DelRange (0x0002)"
  | .creat => "Creat (0x0003)"
  | .link => "Link (0x0004)"
  | .unlink => "Unlink (0x0005)"
  | .inode => "Inode (0x0006)"
  | .pad => "Pad (0x0007)"
  | .tail => "Tail (0x0008)"
  | .head => "Head (0x0009)"

structure FcDentry where
  parentIno : Nat
  ino : Nat
  name : Bytes
deriving DecidableEq, Repr

structure FcExtentRange where
  ino : Nat
  logicalBlock : Nat
  len : Nat
  physicalBlock : Nat
  unwritten : Bool
deriving DecidableEq, Repr

structure FcDelRange where
  ino : Nat
  logicalBlock : Nat
  len : Nat
deriving DecidableEq, Repr

inductive FcOperation where
  | create (dentry : FcDentry)
  | link (dentry : FcDentry)
  | unlink (dentry : FcDentry)
  | addRange (range : FcExtentRange)
  | delRange (range : FcDelRange)
  | inodeUpdate (ino : Nat) (rawInode : Bytes)
deriving DecidableEq, Repr

structure FcReplayResult where
  operations : List FcOperation := []
  lastTid : Nat := 0
  headTid : Option Nat := none
  blocksScanned : Nat := 0
  transactionsFound : Nat := 0
  incompleteTransactions : Nat := 0
  fallbackRequired : Bool := false
deriving DecidableEq, Repr

def saturatingSucc (n : Nat) : Nat := min (n + 1) (2 ^ 64 - 1)

def ext4FcSupportedFeatures : Nat := 0

def extInitMaxLen : Nat := 2 ^ 15

def parseDentry (payload : Bytes) : FcDentry := ⟨leAt 0 4 payload, leAt 4 4 payload, payload.drop 8⟩

def parseFcOperation (tag : FcTag) (payload : Bytes) : Option FcOperation :=
  match tag with
  | .inode =>
    if 4 ≤ payload.length then some (.inodeUpdate (leAt 0 4 payload) (payload.drop 4)) else none
  | .addRange =>
    if 16 ≤ payload.length then
      let eeLen := leAt 8 2 payload
      let unwritten := decide (extInitMaxLen < eeLen)
      some (.addRange
        { ino := leAt 0 4 payload
          logicalBlock := leAt 4 4 payload
          len := if unwritten then eeLen - extInitMaxLen else eeLen
          physicalBlock := leAt 10 2 payload * 2 ^ 32 + leAt 12 4 payload
          unwritten := unwritten })
    else none
  | .delRange =>
    if 12 ≤ payload.length then
      some (.delRange ⟨leAt 0 4 payload, leAt 4 4 payload, leAt 8 4 payload⟩)
    else none
  | .creat => if 8 ≤ payload.length then some (.create (parseDentry payload)) else none
  | .link => if 8 ≤ payload.length then some (.link (parseDentry payload)) else none
  | .unlink => if 8 ≤ payload.length then some (.unlink (parseDentry payload)) else none
  | .head | .tail | .pad => none

/-! ## The scan -/

structure PendingFcTransaction where
  active : Bool := false
  operations : List FcOperation := []
deriving DecidableEq

def PendingFcTransaction.hasPendingWork (pending : PendingFcTransaction) : Bool :=
  pending.active || !pending.operations.isEmpty

structure Scan where
  result : FcReplayResult := {}
  pending : PendingFcTransaction := {}
  headTid : Option Nat := none
  crc : BitVec 32 := 0
deriving DecidableEq

def Scan.discardPending (s : Scan) : Scan :=
  if s.pending.hasPendingWork then
    { s with
      result := { s.result with
        incompleteTransactions := saturatingSucc s.result.incompleteTransactions
        fallbackRequired := true }
      pending := {} }
  else s

def Scan.fallback (s : Scan) : Scan :=
  { s with result := { s.result with fallbackRequired := true } }

def crcUpdate (crc : BitVec 32) (bytes : Bytes) : BitVec 32 := ~~~ crc32cAppend (~~~ crc) bytes

inductive Next where
  | scan (s : Scan)
  | done (result : FcReplayResult)

def Scan.tag (s : Scan) (tag : FcTag) (bytes : Bytes) : Next :=
  let payload := bytes.drop 4
  match tag with
  | .head =>
    let fcFeatures := leAt 0 4 payload
    if fcFeatures &&& (2 ^ 32 - 1 - ext4FcSupportedFeatures) ≠ 0 then .scan s.discardPending.fallback
    else
      let tid := leAt 4 4 payload
      if s.headTid.any (· ≠ tid) then .done s.result
      else
        let s := s.discardPending
        .scan
          { result := { s.result with
              headTid := some tid
              blocksScanned := saturatingSucc s.result.blocksScanned }
            pending := { s.pending with active := true }
            headTid := some tid
            crc := crcUpdate 0 bytes }
  | .tail =>
    match s.headTid with
    | none => .scan s.fallback
    | some head =>
      let crc := crcUpdate s.crc (bytes.take 8)
      let tid := leAt 0 4 payload
      let stored := leAt 4 4 payload
      if tid ≠ head ∨ stored ≠ crc.toNat then .done s.result
      else
        .scan
          { s with
            result := { s.result with
              lastTid := tid
              transactionsFound := saturatingSucc s.result.transactionsFound
              operations := s.result.operations ++ s.pending.operations }
            pending := {}
            crc := 0 }
  | .pad => .scan { s with crc := crcUpdate s.crc bytes }
  | _ =>
    if s.headTid = none then .scan s.fallback
    else
      let s := { s with crc := crcUpdate s.crc bytes }
      match parseFcOperation tag payload with
      | some operation =>
        .scan { s with pending := ⟨true, s.pending.operations ++ [operation]⟩ }
      | none => .scan ({ s with pending := { s.pending with active := true } }).discardPending.fallback

inductive Flow where
  | nextBlock (s : Scan)
  | stop (s : Scan)
  | done (result : FcReplayResult)

def scanBlock (data : Bytes) (inodeSize stop pos : Nat) (s : Scan) : Except FfsError Flow :=
  if pos + 4 ≤ stop then
    let tagType := leAt pos 2 data
    let tagLen := leAt (pos + 2) 2 data
    if tagType = 0 ∧ tagLen = 0 then
      if (data.drop pos).any (· ≠ 0) then .ok (.stop s.discardPending.fallback) else .ok (.stop s)
    else if stop < pos + 4 + tagLen then .ok (.stop s.discardPending.fallback)
    else
      match FcTag.fromU16 tagType with
      | none => .ok (.stop s.discardPending.fallback)
      | some tag =>
        if tag.validPayloadLen tagLen inodeSize then
          match s.tag tag ((data.drop pos).take (4 + tagLen)) with
          | .done result => .ok (.done result)
          | .scan s => scanBlock data inodeSize stop (pos + 4 + tagLen) s
        else
          let shown := tag.debug
          .error (.corruption 0
            s!"fast-commit tag {shown} has invalid payload length {tagLen} at stream byte offset {pos}; configured inode size {inodeSize}")
  else .ok (.nextBlock s)
termination_by stop - pos
decreasing_by omega

def scanBlocks (data : Bytes) (blockSize inodeSize blockStart : Nat) (s : Scan) :
    Except FfsError FcReplayResult :=
  if blockStart < data.length then
    match scanBlock data inodeSize (min (blockStart + blockSize) data.length) blockStart s with
    | .error e => .error e
    | .ok (.done result) => .ok result
    | .ok (.stop s) => .ok s.discardPending.result
    | .ok (.nextBlock s) =>
      if _h : 0 < blockSize then scanBlocks data blockSize inodeSize (blockStart + blockSize) s
      else .ok s.discardPending.result
  else .ok s.discardPending.result
termination_by data.length - blockStart

end FrankenFs.FastCommit
