import FrankenFs.Lib.Threads
import FrankenFs.Lib.Wire
import Mathlib.Algebra.Group.Nat.Defs
import Mathlib.Data.List.Dedup

/-!
# Volumes

A volume is a range of a device. A write that is not of whole sectors reads the sectors at its ends
and writes them back, under the locks of its sectors: 64 in all, taken in increasing order.

Every call of the device is one step, and so is every lock. Devices have less than `2 ^ 63` bytes, so
no sum here leaves 64 bits.
-/

open FrankenFs.Lib

namespace FrankenFs.Block

def volumeDeviceRmwStripes : Nat := 64

structure VolumeDevice where
  base : Nat
  length : Nat
  logicalSectorSize : Nat
  physicalSectorSize : Nat
  readOnly : Bool
deriving DecidableEq, Repr

inductive VolumeError where
  | logicalSectorSize (size : Nat)
  | physicalSectorSize (size logical : Nat)
  | rangeOverflows
  | exceedsBacking (base stop backing : Nat)
  | readOutOfBounds (offset len volumeLen : Nat)
deriving DecidableEq, Repr

def isSupportedSectorSize (size : Nat) : Bool :=
  decide (512 ≤ size) && decide (size ≤ 65536) && decide (size = 2 ^ size.log2)

namespace VolumeDevice

def withMode (backingLen base length logicalSectorSize physicalSectorSize : Nat) (readOnly : Bool) :
    Except VolumeError VolumeDevice := do
  failIf (isSupportedSectorSize logicalSectorSize = false) (.logicalSectorSize logicalSectorSize)
  failIf (isSupportedSectorSize physicalSectorSize = false ∨ physicalSectorSize < logicalSectorSize)
    (.physicalSectorSize physicalSectorSize logicalSectorSize)
  failIf (2 ^ 64 ≤ base + length) .rangeOverflows
  failIf (backingLen < base + length) (.exceedsBacking base (base + length) backingLen)
  return ⟨base, length, logicalSectorSize, physicalSectorSize, readOnly⟩

def readExactAt (vol : VolumeDevice) (device : Bytes) (offset len : Nat) : Except VolumeError Bytes := do
  failIf (vol.length < offset + len) (.readOutOfBounds offset len vol.length)
  return (device.drop (vol.base + offset)).take len

end VolumeDevice

def stripeIndicesForSectors (firstSector lastSector : Nat) : List Nat :=
  let span := lastSector - firstSector + 1
  if volumeDeviceRmwStripes ≤ span then List.range volumeDeviceRmwStripes
  else
    (((List.range' firstSector span).map (· % volumeDeviceRmwStripes)).mergeSort (· ≤ ·)).dedup

/-! ## A write -/

structure Write where
  offset : Nat
  data : Bytes

section Window

variable (vol : VolumeDevice) (job : Write)

def relEnd : Nat := job.offset + job.data.length

def firstSector : Nat := job.offset / vol.logicalSectorSize

def lastSector : Nat := (relEnd job - 1) / vol.logicalSectorSize

def stripes : List Nat := stripeIndicesForSectors (firstSector vol job) (lastSector vol job)

def windowStart : Nat := firstSector vol job * vol.logicalSectorSize

def windowEnd : Nat := min ((lastSector vol job + 1) * vol.logicalSectorSize) vol.length

def windowLen : Nat := windowEnd vol job - windowStart vol job

def headPad : Nat := job.offset - windowStart vol job

def tailOffset : Nat := lastSector vol job * vol.logicalSectorSize - windowStart vol job

end Window

/-- The calls of the device, any of which may fail, and the checkpoints at both ends. -/
inductive DeviceCall where
  | enter
  | window
  | head
  | tail
  | write
  | finish
deriving DecidableEq

inductive WritePc where
  | start
  | acquire (todo : List Nat)
  | passthrough
  | window
  | head
  | tail (stage : Bytes)
  | store (stage : Bytes)
  | release (held : List Nat) (ok : Bool)
  | done (ok : Bool)
deriving DecidableEq

/-- The device and the locks. The history variables are the calls whose bytes were written, in order,
and the ranges that were passed to the device. -/
structure Shared (ι : Type) where
  device : Bytes
  locks : Nat → Option ι
  log : List ι
  passed : List (Nat × Nat)

section Step

variable {ι : Type} (vol : VolumeDevice) (jobs : ι → Write) (fails : ι → DeviceCall → Bool) (i : ι)

def zeros : Bytes := List.replicate (windowLen vol (jobs i)) 0

def afterHead (stage : Bytes) : WritePc :=
  if relEnd (jobs i) < windowEnd vol (jobs i) then .tail stage else .store stage

def enter : WritePc :=
  if (jobs i).offset % vol.logicalSectorSize = 0 ∧ (jobs i).data.length % vol.logicalSectorSize = 0 then
    .passthrough
  else if firstSector vol (jobs i) = lastSector vol (jobs i) then .window
  else if 0 < headPad vol (jobs i) then .head
  else afterHead vol jobs i (zeros vol jobs i)

def readDevice (s : Shared ι) (call : DeviceCall) (pos len : Nat) (next : Bytes → WritePc) :
    Shared ι × WritePc :=
  ({ s with passed := s.passed ++ [(pos, len)] },
    if fails i call then .release (stripes vol (jobs i)) false
    else next ((s.device.drop pos).take len))

/-- `write_all_at` of the device. One that fails has changed nothing: no write is torn here. -/
def writeDevice (s : Shared ι) (pos : Nat) (bytes : Bytes) : Shared ι × WritePc :=
  if fails i .write then
    ({ s with passed := s.passed ++ [(pos, bytes.length)] }, .release (stripes vol (jobs i)) false)
  else
    ({ s with
        device := overwrite pos bytes s.device
        log := s.log ++ [i]
        passed := s.passed ++ [(pos, bytes.length)] },
      .release (stripes vol (jobs i)) true)

def writeStep (s : Shared ι) : WritePc → Option (Shared ι × WritePc)
  | .start =>
    if fails i .enter = true ∨ vol.readOnly = true ∨ vol.length < relEnd (jobs i) then
      some (s, .done false)
    else if (jobs i).data = [] then
      some ({ s with log := s.log ++ [i] }, .done (!fails i .finish))
    else some (s, .acquire (stripes vol (jobs i)))
  | .acquire [] => some (s, enter vol jobs i)
  | .acquire (k :: todo) =>
    if s.locks k = none then
      some ({ s with locks := Function.update s.locks k (some i) }, .acquire todo)
    else none
  | .passthrough =>
    some (writeDevice vol jobs fails i s (vol.base + (jobs i).offset) (jobs i).data)
  | .window =>
    some (readDevice vol jobs fails i s .window (vol.base + windowStart vol (jobs i))
      (windowLen vol (jobs i)) .store)
  | .head =>
    some (readDevice vol jobs fails i s .head (vol.base + windowStart vol (jobs i))
      (min vol.logicalSectorSize (windowLen vol (jobs i)))
      fun bytes => afterHead vol jobs i (overwrite 0 bytes (zeros vol jobs i)))
  | .tail stage =>
    some (readDevice vol jobs fails i s .tail
      (vol.base + lastSector vol (jobs i) * vol.logicalSectorSize)
      (windowLen vol (jobs i) - tailOffset vol (jobs i))
      fun bytes => .store (overwrite (tailOffset vol (jobs i)) bytes stage))
  | .store stage =>
    some (writeDevice vol jobs fails i s (vol.base + windowStart vol (jobs i))
      (overwrite (headPad vol (jobs i)) (jobs i).data stage))
  | .release (k :: held) ok =>
    some ({ s with locks := Function.update s.locks k none }, .release held ok)
  | .release [] ok => some (s, .done (ok && !fails i .finish))
  | .done _ => none

end Step

def begun {ι : Type} (device : Bytes) : Threads ι (Shared ι) WritePc :=
  ⟨⟨device, fun _ => none, [], []⟩, fun _ => .start⟩

end FrankenFs.Block
