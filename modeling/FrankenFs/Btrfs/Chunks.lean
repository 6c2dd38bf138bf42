import FrankenFs.Lib.Wire
import Mathlib.Algebra.Group.Nat.Defs
import Mathlib.Data.BitVec

/-!
# Chunks and their stripes

`ffs-ondisk` maps a logical address to stripes by its chunk and the chunk's profile, and
`BtrfsDeviceSet` of `ffs-btrfs` reads through the map.
-/

open FrankenFs.Lib

namespace FrankenFs.Btrfs

/-- `checked_add` and `checked_mul` of `u64`, with the error to be returned. -/
def fits (n : Nat) (e : ParseError) : Except ParseError Nat :=
  if n < 2 ^ 64 then .ok n else .error e

structure BtrfsStripe where
  devid : Nat
  offset : Nat
deriving DecidableEq, Repr

structure BtrfsChunkEntry where
  keyOffset : Nat
  length : Nat
  stripeLen : Nat
  chunkType : BitVec 64
  numStripes : Nat
  subStripes : Nat
  stripes : List BtrfsStripe
deriving DecidableEq, Repr

inductive BtrfsRaidProfile where
  | single | dup | raid0 | raid1 | raid1C3 | raid1C4 | raid10 | raid5 | raid6
deriving DecidableEq, Repr

/-- The bits of `chunk_type_flags`, in the order in which they are looked at. -/
def BtrfsRaidProfile.fromChunkType (chunkType : BitVec 64) : BtrfsRaidProfile :=
  if chunkType.getLsbD 3 then .raid0
  else if chunkType.getLsbD 4 then .raid1
  else if chunkType.getLsbD 9 then .raid1C3
  else if chunkType.getLsbD 10 then .raid1C4
  else if chunkType.getLsbD 6 then .raid10
  else if chunkType.getLsbD 7 then .raid5
  else if chunkType.getLsbD 8 then .raid6
  else if chunkType.getLsbD 5 then .dup
  else .single

structure BtrfsPhysicalMapping where
  devid : Nat
  physical : Nat
deriving DecidableEq, Repr

/-! ## The stripes of one chunk -/

def validateStripeCount (chunk : BtrfsChunkEntry) : Except ParseError Nat := do
  failIf (chunk.numStripes = 0) (.invalidField "num_stripes" "chunk must have at least one stripe")
  failIf (chunk.numStripes ≠ chunk.stripes.length)
    (.invalidField "num_stripes" "num_stripes does not match stripe list length")
  return chunk.numStripes

/-- How many copies a mirror profile asks for, and what is said where there are fewer. -/
def BtrfsRaidProfile.required : BtrfsRaidProfile → Nat × String
  | .dup => (2, "DUP chunk must have at least two stripes")
  | .raid1 => (2, "RAID1 chunk must have at least two stripes")
  | .raid1C3 => (3, "RAID1C3 chunk must have at least three stripes")
  | .raid1C4 => (4, "RAID1C4 chunk must have at least four stripes")
  | _ => (1, "mirror chunk has insufficient stripes")

def validateMirrorStripes (chunk : BtrfsChunkEntry) (profile : BtrfsRaidProfile) :
    Except ParseError Unit := do
  let count ← validateStripeCount chunk
  failIf (profile = .single ∧ count ≠ 1)
    (.invalidField "num_stripes" "single chunk must have exactly one stripe")
  failIf (profile ≠ .single ∧ count < profile.required.1)
    (.invalidField "num_stripes" profile.required.2)
  failIf (profile = .dup ∧ ∃ stripe ∈ chunk.stripes, some stripe.devid ≠
    chunk.stripes.head?.map BtrfsStripe.devid)
    (.invalidField "stripe_devid" "DUP chunk must use a single device")

def stripePhysical (s : BtrfsStripe) (offsetWithin : Nat) :
    Except ParseError BtrfsPhysicalMapping := do
  return ⟨s.devid, ← fits (s.offset + offsetWithin)
    (.invalidField "stripe_offset" "physical address overflow")⟩

def stripePhysicalAt (s : BtrfsStripe) (stripeNr stripeLen offsetInStripe : Nat) :
    Except ParseError BtrfsPhysicalMapping := do
  let stripeOffset ← fits (stripeNr * stripeLen + offsetInStripe)
    (.invalidField "stripe_offset" "stripe offset overflow")
  stripePhysical s stripeOffset

def requireNonzeroStripeLen (chunk : BtrfsChunkEntry) : Except ParseError Nat := do
  failIf (chunk.stripeLen = 0) (.invalidField "stripe_len" "chunk has zero stripe length")
  return chunk.stripeLen

def stripeAt (chunk : BtrfsChunkEntry) (idx : Nat) (reason : String) :
    Except ParseError BtrfsStripe :=
  (chunk.stripes[idx]?).elim (.error (.invalidField "stripe_index" reason)) .ok

def resolveMirrorStripes (chunk : BtrfsChunkEntry) (offsetWithin : Nat)
    (profile : BtrfsRaidProfile) : Except ParseError (List BtrfsPhysicalMapping) := do
  validateMirrorStripes chunk profile
  chunk.stripes.mapM fun s => stripePhysical s offsetWithin

def resolveRaid0Stripe (chunk : BtrfsChunkEntry) (offsetWithin : Nat) :
    Except ParseError (List BtrfsPhysicalMapping) := do
  let stripeLen ← requireNonzeroStripeLen chunk
  let num ← validateStripeCount chunk
  let stripeIdx := offsetWithin / stripeLen % num
  let width ← fits (stripeLen * num)
    (.invalidField "stripe_len" "RAID0 stripe_len * num_stripes overflow")
  let s ← stripeAt chunk stripeIdx "stripe index out of range"
  return [← stripePhysicalAt s (offsetWithin / width) stripeLen (offsetWithin % stripeLen)]

def resolveRaid10Stripes (chunk : BtrfsChunkEntry) (offsetWithin : Nat) :
    Except ParseError (List BtrfsPhysicalMapping) := do
  let stripeLen ← requireNonzeroStripeLen chunk
  let num ← validateStripeCount chunk
  let sub := chunk.subStripes
  failIf (sub = 0) (.invalidField "sub_stripes" "RAID10 requires non-zero sub_stripes")
  failIf (num % sub ≠ 0)
    (.invalidField "num_stripes" "RAID10 num_stripes not divisible by sub_stripes")
  let dataStripes := num / sub
  failIf (dataStripes = 0) (.invalidField "num_stripes" "RAID10 has zero data stripes")
  let stripeIdx := offsetWithin / stripeLen % dataStripes
  let width ← fits (stripeLen * dataStripes)
    (.invalidField "stripe_len" "RAID10 stripe_len * data_stripes overflow")
  let base ← fits (stripeIdx * sub) (.invalidField "stripe_index" "RAID10 stripe index overflow")
  let stripeOff ← fits (offsetWithin / width * stripeLen + offsetWithin % stripeLen)
    (.invalidField "stripe_offset" "stripe offset overflow")
  (List.range sub).mapM fun m => do
    let s ← stripeAt chunk (base + m) "stripe index out of range"
    stripePhysical s stripeOff

def BtrfsRaidProfile.parityCount (profile : BtrfsRaidProfile) : Nat :=
  if profile = .raid6 then 2 else 1

def resolveRaid56Stripe (chunk : BtrfsChunkEntry) (offsetWithin : Nat)
    (profile : BtrfsRaidProfile) : Except ParseError (List BtrfsPhysicalMapping) := do
  let stripeLen ← requireNonzeroStripeLen chunk
  let num ← validateStripeCount chunk
  failIf (num < profile.parityCount + 2)
    (.invalidField "num_stripes" "RAID5/6 requires at least two data stripes plus parity")
  let dataStripes := num - profile.parityCount
  failIf (dataStripes = 0) (.invalidField "num_stripes" "RAID5/6 has no data stripes")
  let stripeIdx := offsetWithin / stripeLen % dataStripes
  let width ← fits (stripeLen * dataStripes)
    (.invalidField "stripe_len" "RAID5/6 stripe_len * data_stripes overflow")
  let stripeNr := offsetWithin / width
  let s ← stripeAt chunk ((stripeNr % num + stripeIdx) % num) "stripe index out of range"
  return [← stripePhysicalAt s stripeNr stripeLen (offsetWithin % stripeLen)]

def resolveChunkStripes (chunk : BtrfsChunkEntry) (offsetWithin : Nat)
    (profile : BtrfsRaidProfile) : Except ParseError (List BtrfsPhysicalMapping) :=
  match profile with
  | .raid0 => resolveRaid0Stripe chunk offsetWithin
  | .raid10 => resolveRaid10Stripes chunk offsetWithin
  | .raid5 | .raid6 => resolveRaid56Stripe chunk offsetWithin profile
  | _ => resolveMirrorStripes chunk offsetWithin profile

/-! ## The chunk of an address -/

structure BtrfsStripeMapping where
  profile : BtrfsRaidProfile
  contiguousLen : Nat
  stripes : List BtrfsPhysicalMapping
deriving DecidableEq, Repr

def BtrfsRaidProfile.isStriped (profile : BtrfsRaidProfile) : Bool :=
  profile = .raid0 || profile = .raid10 || profile = .raid5 || profile = .raid6

def chunkStripes (chunk : BtrfsChunkEntry) (logical : Nat) :
    Except ParseError (Option BtrfsStripeMapping) := do
  let chunkEnd ← fits (chunk.keyOffset + chunk.length)
    (.invalidField "chunk_length" "logical range overflow")
  if logical < chunk.keyOffset ∨ chunkEnd ≤ logical then return none
  let offsetWithin := logical - chunk.keyOffset
  let profile := BtrfsRaidProfile.fromChunkType chunk.chunkType
  let stripes ← resolveChunkStripes chunk offsetWithin profile
  let chunkRemaining := chunkEnd - logical
  return some ⟨profile,
    if profile.isStriped then
      min chunkRemaining (chunk.stripeLen - offsetWithin % chunk.stripeLen)
    else chunkRemaining, stripes⟩

def chunkMapBinarySearchThreshold : Nat := 16

/-- `partition_point` of a sorted list: the last chunk that starts at or before `logical`. -/
def lastStarting (chunks : List BtrfsChunkEntry) (logical : Nat) : Option BtrfsChunkEntry :=
  (chunks.takeWhile fun c => decide (c.keyOffset ≤ logical)).getLast?

def firstMapped (logical : Nat) :
    List BtrfsChunkEntry → Except ParseError (Option BtrfsStripeMapping)
  | [] => return none
  | chunk :: chunks => do
    match ← chunkStripes chunk logical with
    | some mapping => return some mapping
    | none => firstMapped logical chunks

def mapLogicalToStripes (chunks : List BtrfsChunkEntry) (logical : Nat) :
    Except ParseError (Option BtrfsStripeMapping) :=
  if chunkMapBinarySearchThreshold < chunks.length then
    (lastStarting chunks logical).elim (.ok none) fun chunk => chunkStripes chunk logical
  else firstMapped logical chunks

/-! ## Rows with parity -/

structure BtrfsRaid56Row where
  dataSlots : List BtrfsPhysicalMapping
  paritySlots : List BtrfsPhysicalMapping
  dataDeviceIdx : List Nat
  parityDeviceIdx : List Nat
  stripeNr : Nat
  offsetInStripe : Nat
  stripeLen : Nat
  parityCount : Nat
deriving DecidableEq, Repr

def BtrfsChunkEntry.covers (c : BtrfsChunkEntry) (logical : Nat) : Bool :=
  decide (c.keyOffset ≤ logical) && decide (logical < min (c.keyOffset + c.length) (2 ^ 64 - 1))

def coveringChunk (chunks : List BtrfsChunkEntry) (logical : Nat) : Option BtrfsChunkEntry :=
  let candidate :=
    if chunkMapBinarySearchThreshold < chunks.length then lastStarting chunks logical else none
  if candidate.any fun c => decide (logical < min (c.keyOffset + c.length) (2 ^ 64 - 1)) then candidate
  else chunks.find? fun c => c.covers logical

def rowSlots (chunk : BtrfsChunkEntry) (stripeNr offsetInStripe : Nat) (idxs : List Nat)
    (reason : String) : Except ParseError (List BtrfsPhysicalMapping) :=
  idxs.mapM fun idx => do
    let s ← stripeAt chunk idx reason
    stripePhysicalAt s stripeNr chunk.stripeLen offsetInStripe

def chunkRow (chunk : BtrfsChunkEntry) (profile : BtrfsRaidProfile) (offsetWithin : Nat) :
    Except ParseError BtrfsRaid56Row := do
  let stripeLen ← requireNonzeroStripeLen chunk
  let num ← validateStripeCount chunk
  let dataStripes := num - profile.parityCount
  failIf (num < profile.parityCount ∨ dataStripes < 2)
    (.invalidField "num_stripes" "RAID5/6 requires at least two data stripes plus parity")
  let width ← fits (stripeLen * dataStripes)
    (.invalidField "stripe_len" "RAID5/6 stripe_len * data_stripes overflow")
  let stripeNr := offsetWithin / width
  let offsetInStripe := offsetWithin % stripeLen
  let rotate := stripeNr % num
  let dataDeviceIdx := (List.range dataStripes).map fun j => (rotate + j) % num
  let parityDeviceIdx := (List.range profile.parityCount).map fun k =>
    (rotate + dataStripes + k) % num
  let dataSlots ← rowSlots chunk stripeNr offsetInStripe dataDeviceIdx "stripe index out of range"
  let paritySlots ← rowSlots chunk stripeNr offsetInStripe parityDeviceIdx
    "parity stripe index out of range"
  return ⟨dataSlots, paritySlots, dataDeviceIdx, parityDeviceIdx, stripeNr, offsetInStripe,
    stripeLen, profile.parityCount⟩

def resolveRaid56Row (chunks : List BtrfsChunkEntry) (logical : Nat) :
    Except ParseError (Option BtrfsRaid56Row) :=
  (coveringChunk chunks logical).elim (.ok none) fun chunk =>
    let profile := BtrfsRaidProfile.fromChunkType chunk.chunkType
    if profile = .raid5 ∨ profile = .raid6 then
      (chunkRow chunk profile (logical - chunk.keyOffset)).map some
    else .ok none

/-! ## Reading -/

inductive BtrfsDeviceError where
  | cancelled
  | missingDevice (devid : Nat)
  | readLength (devid expected actual : Nat)
  | io (unexpectedEof : Bool) (rawOsError : Option Nat)
  | mapping (e : ParseError)
deriving DecidableEq, Repr

abbrev DeviceReader := (physicalOffset len : Nat) → Except BtrfsDeviceError Bytes

abbrev BtrfsDeviceSet := Nat → Option DeviceReader

/-- The request is not cancelled. -/
def BtrfsDeviceSet.readPhysical (devices : BtrfsDeviceSet) (devid physicalOffset len : Nat) :
    Except BtrfsDeviceError Bytes := do
  let reader ← (devices devid).elim (.error (.missingDevice devid)) .ok
  failIf (2 ^ 64 ≤ physicalOffset + len)
    (.mapping (.invalidField "physical_offset" "read range overflow"))
  let data ← reader physicalOffset len
  failIf (data.length ≠ len) (.readLength devid len data.length)
  return data

def BtrfsDeviceSet.readSegment (devices : BtrfsDeviceSet) (len : Nat) :
    (last : BtrfsDeviceError) → List BtrfsPhysicalMapping → Except BtrfsDeviceError Bytes
  | last, [] => .error last
  | _, stripe :: stripes =>
    match devices.readPhysical stripe.devid stripe.physical len with
    | .ok segment => .ok segment
    | .error .cancelled => .error .cancelled
    | .error e => readSegment devices len e stripes

/-- The loop of `read_logical`; every pass reads at least one byte, so `fuel` is the length. -/
def BtrfsDeviceSet.readFrom (devices : BtrfsDeviceSet) (chunks : List BtrfsChunkEntry)
    (finish : Nat) : (fuel remaining : Nat) → Except BtrfsDeviceError Bytes
  | 0, _ => .ok []
  | fuel + 1, remaining =>
    if remaining = 0 then .ok []
    else do
      let found ← (mapLogicalToStripes chunks (finish - remaining)).mapError .mapping
      let mapping ← found.elim (.error (.mapping (.invalidField "logical_address"
        "address not mapped in chunk table"))) .ok
      let take := min remaining mapping.contiguousLen
      let segment ← devices.readSegment take (.mapping (.invalidField "stripe" "no readable stripe"))
        mapping.stripes
      let rest ← readFrom devices chunks finish fuel (remaining - take)
      return segment ++ rest

def isizeMax : Nat := 2 ^ 63 - 1

def BtrfsDeviceSet.readLogical (devices : BtrfsDeviceSet) (chunks : List BtrfsChunkEntry)
    (logical len : Nat) : Except BtrfsDeviceError Bytes := do
  failIf (2 ^ 64 ≤ logical + len) (.mapping (.invalidField "logical_address" "read range overflow"))
  failIf (isizeMax < len) (.mapping (.invalidField "read_length" "read buffer allocation failed"))
  devices.readFrom chunks (logical + len) len len

end FrankenFs.Btrfs
