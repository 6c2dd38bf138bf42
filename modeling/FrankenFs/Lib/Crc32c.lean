import FrankenFs.Lib.Wire

/-!
# CRC-32C

`crc32cAppend crc data` continues the finished checksum `crc` with more bytes, so a checksum may be
taken over the pieces of a string.
-/

namespace FrankenFs.Lib

def crc32cBit (crc : BitVec 32) : BitVec 32 :=
  if crc.getLsbD 0 then (crc >>> 1) ^^^ 0x82F63B78#32 else crc >>> 1

def crc32cByte (crc : BitVec 32) (byte : BitVec 8) : BitVec 32 :=
  (List.range 8).foldl (fun crc _ => crc32cBit crc) (crc ^^^ byte.zeroExtend 32)

def crc32cUpdate (crc : BitVec 32) (data : Bytes) : BitVec 32 := data.foldl crc32cByte crc

def crc32cAppend (crc : BitVec 32) (data : Bytes) : BitVec 32 := ~~~ crc32cUpdate (~~~ crc) data

example : crc32cAppend 0 [0x31, 0x32, 0x33, 0x34, 0x35, 0x36, 0x37, 0x38, 0x39] =
    0xE3069283#32 := by decide +kernel

end FrankenFs.Lib
