import FrankenFs.Lib.Crc32c
import Mathlib.Data.Nat.Bitwise

/-!
# The blocks of a JBD2 journal

Constants, sizes of tags and entries, and the checksums over a block. All numbers are big-endian.
-/

open FrankenFs.Lib

namespace FrankenFs.Journal

def jbd2Magic : Nat := 0xC03B3998
def jbd2BlocktypeDescriptor : Nat := 1
def jbd2BlocktypeCommit : Nat := 2
def jbd2BlocktypeRevoke : Nat := 5

def jbd2HeaderSize : Nat := 12
def jbd2RevokeHeaderSize : Nat := 16
def jbd2CommitChksumOffset : Nat := 16
def jbd2ChecksumTailSize : Nat := 4
def jbd2TagFlagEscape : Nat := 0x1
def jbd2TagFlagSameUuid : Nat := 0x2
def jbd2TagFlagLast : Nat := 0x8

inductive Jbd2TagFormat where
  | legacy
  | csumV2
  | csumV3
deriving DecidableEq, Repr

def Jbd2TagFormat.tagSize : Jbd2TagFormat → (is64bit : Bool) → Nat
  | .legacy, is64bit => if is64bit then 12 else 8
  | .csumV2, is64bit => if is64bit then 12 else 8
  | .csumV3, _ => 16

def revokeEntrySize (is64bit : Bool) : Nat := if is64bit then 8 else 4

/-! ## Checksums -/

def zeroChecksumField : Bytes := [0, 0, 0, 0]

def checksumJbd2TailZeroedBlock (block : Bytes) (seed : BitVec 32) : Option (BitVec 32) := do
  guard (jbd2ChecksumTailSize ≤ block.length)
  let checksum := crc32cAppend (~~~ seed) (block.take (block.length - jbd2ChecksumTailSize))
  return ~~~ crc32cAppend checksum zeroChecksumField

def checksumJbd2DataBlock (block : Bytes) (sequence : Nat) (seed : BitVec 32) : BitVec 32 :=
  ~~~ crc32cAppend (crc32cAppend (~~~ seed) (toBe 4 sequence)) block

end FrankenFs.Journal
