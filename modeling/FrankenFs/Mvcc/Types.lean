import FrankenFs.Lib.OrdMap
import Mathlib.Algebra.Group.Nat.Defs
import Mathlib.Data.List.Sort
import Mathlib.Data.Nat.Basic

/-!
# The data model of `ffs-mvcc`

`BlockNumber`, `CommitSeq` and `TxnId` wrap a `u64` in the source. They are `Nat` here, and
the few places that can reach the end of the range say so.
-/

namespace FrankenFs.Mvcc

abbrev Byte := BitVec 8
abbrev Bytes := List Byte

def u64Max : Nat := 2 ^ 64 - 1
def usizeMax : Nat := 2 ^ 64 - 1

theorem one_le_u64Max : 1 ≤ u64Max := by decide

def u64SaturatingAdd (a b : Nat) : Nat := min (a + b) u64Max
def usizeSaturatingAdd (a b : Nat) : Nat := min (a + b) usizeMax
def usizeSaturatingMul (a b : Nat) : Nat := min (a * b) usizeMax

structure Snapshot where
  high : Nat
deriving DecidableEq, Repr

/-- What the store takes from outside the repository: `f64` arithmetic, the two compression
crates and the unstable sort of the standard library. An encoder or a decoder may fail. -/
class Platform where
  F64 : Type
  zero : F64
  one : F64
  mul : F64 → F64 → F64
  sub : F64 → F64 → F64
  /-- `mulAdd a b c` is `a * b + c`, rounded once. -/
  mulAdd : F64 → F64 → F64 → F64
  le : F64 → F64 → Bool
  lt : F64 → F64 → Bool
  zstdEncode : Int → Bytes → Option Bytes
  zstdDecode : Bytes → Option Bytes
  brotliEncode : Nat → Bytes → Option Bytes
  brotliDecode : Bytes → Option Bytes
  /-- `sort_unstable_by_key`: equal keys come in any order. -/
  sortUnstableByKey {α : Type} : (α → Nat) → List α → List α
  perm_sortUnstableByKey {α : Type} (key : α → Nat) (l : List α) :
    (sortUnstableByKey key l).Perm l
  pairwise_sortUnstableByKey {α : Type} (key : α → Nat) (l : List α) :
    (sortUnstableByKey key l).Pairwise fun a b => key a ≤ key b

/-- What zstd and brotli promise: a frame decodes to the bytes it was made from. -/
class Platform.Lossless [Platform] : Prop where
  zstd : ∀ level x y, Platform.zstdEncode level x = some y → Platform.zstdDecode y = some x
  brotli : ∀ level x y, Platform.brotliEncode level x = some y → Platform.brotliDecode y = some x

/-- Keeps equal keys in their order, as the standard library does on a short list. -/
def insertionSortByKey {α : Type} (key : α → Nat) (l : List α) : List α :=
  l.insertionSort fun a b => key a ≤ key b

theorem insertionSortByKey_perm {α : Type} (key : α → Nat) (l : List α) :
    (insertionSortByKey key l).Perm l :=
  List.perm_insertionSort _ _

theorem insertionSortByKey_pairwise {α : Type} (key : α → Nat) (l : List α) :
    (insertionSortByKey key l).Pairwise fun a b => key a ≤ key b := by
  have : Std.Total fun a b : α => key a ≤ key b := ⟨fun a b => Nat.le_total (key a) (key b)⟩
  have : IsTrans α fun a b => key a ≤ key b := ⟨fun _ _ _ => Nat.le_trans⟩
  exact List.pairwise_insertionSort _ _

/-- Exact arithmetic, and codecs whose frames are never shorter than their input. -/
@[reducible]
def exactPlatform : Platform where
  F64 := Rat
  zero := 0
  one := 1
  mul := (· * ·)
  sub := (· - ·)
  mulAdd a b c := a * b + c
  le a b := decide (a ≤ b)
  lt a b := decide (a < b)
  zstdEncode _ x := some x
  zstdDecode y := some y
  brotliEncode _ x := some x
  brotliDecode y := some y
  sortUnstableByKey := insertionSortByKey
  perm_sortUnstableByKey := insertionSortByKey_perm
  pairwise_sortUnstableByKey := insertionSortByKey_pairwise

instance : @Platform.Lossless exactPlatform :=
  @Platform.Lossless.mk exactPlatform (fun _ _ _ h => h.symm) (fun _ _ _ h => h.symm)

/-! ## Versions -/

inductive VersionData where
  | full (bytes : Bytes)
  | identical
  | zstd (bytes : Bytes)
  | brotli (bytes : Bytes)
deriving DecidableEq, Repr

def VersionData.isIdentical : VersionData → Bool
  | .identical => true
  | _ => false

structure BlockVersion where
  block : Nat
  commitSeq : Nat
  writer : Nat
  data : VersionData
deriving DecidableEq, Repr

structure PhysicalBlockVersion where
  logical : Nat
  physical : Nat
  commitSeq : Nat
  writer : Nat
deriving DecidableEq, Repr

/-! ## Policies -/

inductive CompressionAlgo where
  | none
  | zstd (level : Int)
  | brotli (level : Nat)
deriving DecidableEq, Repr

structure CompressionPolicy where
  dedupIdentical : Bool
  maxChainLength : Option Nat
  algo : CompressionAlgo
deriving DecidableEq, Repr

instance : Inhabited CompressionPolicy := ⟨⟨true, some 64, .none⟩⟩

inductive ConflictPolicy where
  | strict
  | safeMerge
  | adaptive
deriving DecidableEq, Repr

/-! ## Errors -/

inductive CommitError where
  | conflict (block : Nat) (snapshot observed : Nat)
  | ssiConflict (pivotBlock : Nat) (readVersion writeVersion : Nat)
      (concurrentTxn : Nat)
  | chainBackpressure (block : Nat) (chainLen cap criticalLen : Nat)
      (watermark : Nat)
  | durabilityFailure (detail : String)
deriving DecidableEq, Repr

end FrankenFs.Mvcc
