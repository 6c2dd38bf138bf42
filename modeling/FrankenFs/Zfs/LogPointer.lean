import FrankenFs.Zfs.IntentLog
import FrankenFs.Zfs.Raidz

/-!
# Pointers to the blocks of the intent log

The checksum words of such a pointer are the identity of a block in its chain, and the checksum inside
the block is taken with them in its place.
-/

open FrankenFs.Lib

namespace FrankenFs.Zfs

inductive Endian where
  | little
  | big
deriving DecidableEq, Repr

namespace Endian

def number : Endian → Bytes → Nat
  | .little, field => ofLe field
  | .big, field => ofLe field.reverse

def u64 (order : Endian) (raw : Bytes) (offset : Nat) : Except ParseError Nat :=
  if raw.length < offset + 8 then .error (invalid "truncated 64-bit word")
  else .ok (order.number ((raw.drop offset).take 8))

def encode : Endian → Nat → Bytes
  | .little, word => toLe 8 word
  | .big, word => toBe 8 word

end Endian

/-- `checksum` with algorithm 7. -/
def fletcher4 (order : Endian) : Bytes → (a b c d : Nat) → List Nat
  | w :: x :: y :: z :: rest, a, b, c, d =>
    let a := (a + order.number [w, x, y, z]) % 2 ^ 64
    let b := (b + a) % 2 ^ 64
    let c := (c + b) % 2 ^ 64
    fletcher4 order rest a b c ((d + c) % 2 ^ 64)
  | _, a, b, c, d => [a, b, c, d]

/-- `checksum` with algorithm 6. The fuel is the number of bytes. -/
def fletcher2 (order : Endian) : (fuel : Nat) → Bytes → (a b c d : Nat) → List Nat
  | fuel + 1, bytes, a, b, c, d =>
    if bytes.length < 16 then [a, b, c, d]
    else
      let a := (a + order.number (bytes.take 8)) % 2 ^ 64
      let b := (b + order.number ((bytes.drop 8).take 8)) % 2 ^ 64
      fletcher2 order fuel (bytes.drop 16) a b ((c + a) % 2 ^ 64) ((d + b) % 2 ^ 64)
  | 0, _, a, b, c, d => [a, b, c, d]

/-! ## Block pointers -/

structure BlockPointer where
  words : List Nat
deriving DecidableEq, Repr

namespace BlockPointer

variable (bp : BlockPointer)

def word (i : Nat) : Nat := bp.words.getD i 0

def embedded : Bool := (bp.word 6).testBit 39

def isProtected : Bool := (bp.word 6).testBit 61

def logicalBytes : Nat :=
  if bp.embedded then (bp.word 6 &&& 0x01ffffff) + 1 else ((bp.word 6 &&& 0xffff) + 1) * 512

def physicalBytes : Nat :=
  if bp.embedded then 0 else ((bp.word 6 >>> 16 &&& 0xffff) + 1) * 512

def hole : Bool := !bp.embedded && (bp.words.take 6).all (· == 0)

def compression : Nat := bp.word 6 >>> 32 &&& 0x7f

def checksumType : Nat := if bp.embedded then 2 else bp.word 6 >>> 40 &&& 0xff

def objectType : Nat := bp.word 6 >>> 48 &&& 0xff

def level : Nat := bp.word 6 >>> 56 &&& 0x1f

def birth : Nat := bp.word 10

def physicalBirth : Nat :=
  if bp.embedded then 0 else if bp.word 9 ≠ 0 then bp.word 9 else bp.birth

def gang : Bool := !bp.embedded && bp.word 1 >>> 63 != 0

def payloadOrder : Endian := if bp.word 6 >>> 63 = 0 then .big else .little

def parse (raw : Bytes) (order : Endian) : Except ParseError BlockPointer := do
  failIf (raw.length ≠ 128) (invalid "block pointer must contain exactly 128 bytes")
  let words ← (List.range 16).mapM fun i => order.u64 raw (i * 8)
  failIf (maxBlockBytes < (BlockPointer.mk words).logicalBytes)
    (invalid "logical block exceeds read budget")
  return ⟨words⟩

end BlockPointer

/-! ## Log pointers -/

structure Identity where
  salt : Nat × Nat
  dataset : Nat
  sequence : Nat
deriving DecidableEq, Repr

def Identity.words (i : Identity) : List Nat := [i.salt.1, i.salt.2, i.dataset, i.sequence]

def Identity.next (i : Identity) : Identity := { i with sequence := i.sequence + 1 }

structure Dva where
  vdev : Nat
  offset : Nat
  allocatedBytes : Nat
  gang : Bool
deriving DecidableEq, Repr

structure Pointer where
  bp : BlockPointer
  identity : Identity
  dvas : List Dva
deriving DecidableEq, Repr

def chainBytes : Nat := 184
def eckMagic : Nat := 0x0210da7ab10c7a11

section Parse

variable {E : Type}

def shown : ParseError → RecoveryError E
  | .invalidField field reason => .corrupt s!"invalid field: {field} ({reason})"
  | .insufficientData needed offset actual =>
    .corrupt s!"insufficient data: need {needed} bytes at offset {offset}, got {actual}"

def word (order : Endian) (raw : Bytes) (offset : Nat) : Except (RecoveryError E) Nat :=
  (order.u64 raw offset).mapError shown

def identity (order : Endian) (raw : Bytes) : Except (RecoveryError E) Identity := do
  let first ← word order raw 96
  let second ← word order raw 104
  let dataset ← word order raw 112
  let sequence ← word order raw 120
  return ⟨(first, second), dataset, sequence⟩

namespace Pointer

/-- The address slots; `ended` behind an empty one. -/
def parseDvas (raw : Bytes) (order : Endian) :
    (slots : List Nat) → (ended : Bool) → Except (RecoveryError E) (List Dva)
  | [], _ => .ok []
  | index :: slots, ended => do
    let first ← word order raw (index * 16)
    let second ← word order raw (index * 16 + 8)
    if first = 0 ∧ second = 0 then parseDvas raw order slots true
    else
      -- 24 trailing zeros or more
      failIf (ended ∨ first &&& 0xff000000ff000000 ≠ 0 ∨ 2 ^ 24 ∣ first ∨ second >>> 63 ≠ 0)
        (.corrupt "invalid, ganged or noncontiguous ZIL DVA")
      failIf (2 ^ 64 ≤ second * 512) (.corrupt "ZIL DVA offset overflow")
      let dvas ← parseDvas raw order slots ended
      return ⟨first >>> 32 &&& 0xffffff, second * 512, (first &&& 0xffffff) * 512, false⟩ :: dvas

def parse (raw : Bytes) (order : Endian) (dataset : Nat) :
    Except (RecoveryError E) (Option Pointer) := do
  let bp ← (BlockPointer.parse raw order).mapError shown
  if bp.hole then return none
  else
    let property ← word order raw 48
    failIf (bp.embedded ∨ bp.isProtected ∨ property.testBit 62 ∨ bp.gang ∨ bp.level ≠ 0 ∨
      bp.objectType ≠ 9 ∨ bp.compression ≠ 2 ∨ (bp.checksumType ≠ 5 ∧ bp.checksumType ≠ 9))
      (.unsupported "ZIL requires unencrypted, uncompressed ZILOG/ZILOG2 log blocks")
    let padding ← word order raw 56
    let padding' ← word order raw 64
    failIf (bp.birth = 0 ∨ bp.birth < bp.physicalBirth ∨ padding ≠ 0 ∨ padding' ≠ 0 ∨
      bp.physicalBytes ≠ bp.logicalBytes ∨ bp.physicalBytes < 4096 ∨
      maxBlockBytes < bp.physicalBytes ∨ bp.physicalBytes % 4096 ≠ 0)
      (.corrupt "invalid ZIL block geometry, padding or birth")
    let found ← Zfs.identity order raw
    failIf (found.dataset ≠ dataset ∨ found.sequence = 0)
      (.corrupt "ZIL chain identifies a different dataset or a zero sequence")
    let dvas ← parseDvas raw order [0, 1, 2] false
    failIf (dvas = []) (.corrupt "allocated ZIL block has no DVA")
    return some ⟨bp, found, dvas⟩

variable (p : Pointer)

abbrev order : Endian := p.bp.payloadOrder

/-- A modern block starts with the chain header, the others end with it. -/
abbrev Modern : Prop := p.bp.checksumType = 9

def chainAt (raw : Bytes) : Nat := if p.Modern then 0 else raw.length - chainBytes

def checksumValid (raw : Bytes) : Except (RecoveryError E) Bool := do
  failIf (raw.length ≠ p.bp.physicalBytes) (.corrupt "short ZIL physical block")
  let eck := p.chainAt raw + 144
  let magic ← word p.order raw eck
  if magic ≠ eckMagic then return false
  else
    let used ← word p.order raw (p.chainAt raw + 136)
    if p.Modern ∧ (used < chainBytes ∨ raw.length < used) then return false
    else
      let expected ← [0, 8, 16, 24].mapM fun at' => word p.order raw (eck + 8 + at')
      let bytes := overwrite (eck + 8) (p.identity.words.flatMap p.order.encode)
        (if p.Modern then raw.take (divCeil used 4096 * 4096) else raw)
      let sums := if p.Modern then fletcher4 p.order bytes 0 0 0 0
        else fletcher2 p.order bytes.length bytes 0 0 0 0
      return sums == expected

end Pointer

theorem Pointer.identity_of_parse {raw : Bytes} {order : Endian} {dataset : Nat} {p : Pointer}
    (h : (Pointer.parse raw order dataset : Except (RecoveryError E) _) = .ok (some p)) :
    (Zfs.identity order raw : Except (RecoveryError E) _) = .ok p.identity := by
  obtain ⟨bp, -, h⟩ := bind_ok.mp h
  split_ifs at h
  · cases h
  -- The checks around the identity only refuse.
  simp only [bind_ok] at h
  obtain ⟨-, -, -, -, -, -, -, -, -, -, found, hfound, -, -, dvas, -, -, -, h⟩ := h
  obtain rfl := Option.some.inj (Except.ok.inj h)
  exact hfound

end Parse

end FrankenFs.Zfs
