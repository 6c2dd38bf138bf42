import FrankenFs.Journal.Format
import Mathlib.Algebra.Group.Nat.Defs

/-!
# The device under a journal

What is checked of a block before it is written, and where the blocks of a segmented journal are.
-/

open FrankenFs.Lib

namespace FrankenFs.Journal

inductive FfsError where
  | format (message : String)
  | io (message : String)
  | noSpace
  | panicked
deriving DecidableEq, Repr

/-! ## The device -/

structure BlockDevice where
  blockSize : Nat
  lenBytes : Nat
  blocks : Nat → Bytes

namespace BlockDevice

def checkRange (dev : BlockDevice) (block : Nat) : Except FfsError Unit :=
  failIf (dev.lenBytes < (block + 1) * dev.blockSize)
    (.format s!"block {block} out of range for device length {dev.lenBytes}")

def checkWrite (dev : BlockDevice) (block : Nat) (data : Bytes) : Except FfsError Unit := do
  failIf (data.length ≠ dev.blockSize)
    (.format s!"write_block size mismatch: got {data.length} expected {dev.blockSize}")
  dev.checkRange block

end BlockDevice

/-- `saturating_add` of `u64`. -/
def satAdd (a b : Nat) : Nat := min (a + b) (2 ^ 64 - 1)

theorem satAdd_eq {a b : Nat} (h : a + b < 2 ^ 64) : satAdd a b = a + b := by
  unfold satAdd
  omega

/-- Sequence numbers are `u32`. -/
def seqModulus : Nat := 2 ^ 32

/-! ## Where the journal is -/

structure JournalSegment where
  start : Nat
  blocks : Nat
deriving DecidableEq, Repr

def resolveSegmentFrom (index totalBlocks : Nat) : List JournalSegment → Nat → Except FfsError Nat
  | [], _ =>
    .error (.format s!"journal block index {index} out of range (region size={totalBlocks})")
  | segment :: rest, remaining =>
    if remaining < segment.blocks then do
      failIf (2 ^ 64 ≤ segment.start + remaining)
        (.format (s!"journal segment offset {remaining} overflows absolute block number from " ++
          s!"start {segment.start}"))
      return segment.start + remaining
    else resolveSegmentFrom index totalBlocks rest (remaining - segment.blocks)

def resolveSegmentBlock (segments : List JournalSegment) (totalBlocks index : Nat) :
    Except FfsError Nat :=
  resolveSegmentFrom index totalBlocks segments index

end FrankenFs.Journal
