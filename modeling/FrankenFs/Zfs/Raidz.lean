import FrankenFs.Lib.Wire

/-!
# RAIDZ column maps

An allocation is a range of sectors that goes over the children row by row. Parity comes first, the
sectors at the end that only fill it up can go around to the first columns, and RAIDZ1 exchanges its
first two columns in every second MiB.
-/

open FrankenFs.Lib

namespace FrankenFs.Zfs

def invalid (reason : String) : ParseError := .invalidField "zfs" reason

def maxBlockBytes : Nat := 16 * 1024 * 1024

def nextMultipleOf (n k : Nat) : Nat := divCeil n k * k

structure RaidzColumn where
  childId : Nat
  offset : Nat
  bytes : Nat
  allocatedBytes : Nat
  dataOffset : Option Nat
deriving DecidableEq, Repr

structure Layout where
  sector : Nat
  width : Nat
  parity : Nat
  first : Nat
  rowStart : Nat
  columnCount : Nat
  /-- Where an ordinal stands in the row. -/
  physicalColumn : Nat → Nat
  bytes : Nat → Nat
  padding : Nat → Nat

namespace Layout

variable (l : Layout)

def hasData (ordinal : Nat) : Bool := decide (l.parity ≤ ordinal) && decide (l.bytes ordinal ≠ 0)

def column (ordinal dataOffset : Nat) : RaidzColumn where
  childId := (l.first + l.physicalColumn ordinal) % l.width
  offset := l.rowStart + (l.first + l.physicalColumn ordinal) / l.width * l.sector
  bytes := l.bytes ordinal
  allocatedBytes := l.bytes ordinal + l.padding ordinal
  dataOffset := if l.hasData ordinal then some dataOffset else none

def advance (ordinal dataOffset : Nat) : Nat :=
  if l.hasData ordinal then dataOffset + l.bytes ordinal else dataOffset

def columnsFrom : (n ordinal dataOffset : Nat) → List RaidzColumn
  | 0, _, _ => []
  | n + 1, ordinal, dataOffset =>
    l.column ordinal dataOffset :: columnsFrom n (ordinal + 1) (l.advance ordinal dataOffset)

def columns : List RaidzColumn := l.columnsFrom l.columnCount 0 0

end Layout

/-! ## RAIDZ1 -/

structure Raidz1Map where
  physicalBytes : Nat
  alignedBytes : Nat
  allocatedBytes : Nat
  columns : List RaidzColumn
deriving DecidableEq, Repr

namespace Raidz1

section Sizes

variable (width dataSectors : Nat)

def longColumns : Nat := if dataSectors % (width - 1) = 0 then 0 else dataSectors % (width - 1) + 1

def usedColumns : Nat := min (dataSectors + 1) width

def columnCount : Nat := min (nextMultipleOf (usedColumns width dataSectors) 2) width

def occupiedSectors : Nat := dataSectors + divCeil dataSectors (width - 1)

def allocatedSectors : Nat := nextMultipleOf (occupiedSectors width dataSectors) 2

def skipStart (swapped : Bool) : Nat :=
  if longColumns width dataSectors = 0 && swapped then 1 else longColumns width dataSectors

end Sizes

def layout (dvaOffset sector width dataSectors : Nat) (swapped : Bool) : Layout where
  sector := sector
  width := width
  parity := 1
  first := dvaOffset / sector % width
  rowStart := dvaOffset / sector / width * sector
  columnCount := columnCount width dataSectors
  physicalColumn ordinal := if swapped && decide (ordinal < 2) then 1 - ordinal else ordinal
  bytes ordinal :=
    if ordinal < usedColumns width dataSectors then
      (dataSectors / (width - 1) + if ordinal < longColumns width dataSectors then 1 else 0) * sector
    else 0
  padding ordinal :=
    if allocatedSectors width dataSectors ≠ occupiedSectors width dataSectors ∧
        ordinal = skipStart width dataSectors swapped % columnCount width dataSectors then sector
    else 0

end Raidz1

open Raidz1 in
def Raidz1Map.new (dvaOffset physicalBytes ashift width : Nat) : Except ParseError Raidz1Map := do
  failIf (¬ (2 ≤ width ∧ width ≤ 8) ∨ ¬ (9 ≤ ashift ∧ ashift ≤ 16) ∨ physicalBytes = 0 ∨
    maxBlockBytes < physicalBytes ∨ physicalBytes % 512 ≠ 0)
    (invalid "unsupported RAIDZ1 width, ashift or physical size")
  failIf (dvaOffset % 2 ^ ashift ≠ 0) (invalid "unaligned RAIDZ1 DVA offset")
  failIf (2 ^ 64 ≤
      dvaOffset + allocatedSectors width (divCeil physicalBytes (2 ^ ashift)) * 2 ^ ashift)
    (invalid "RAIDZ1 allocation offset overflow")
  return {
    physicalBytes := physicalBytes
    alignedBytes := divCeil physicalBytes (2 ^ ashift) * 2 ^ ashift
    allocatedBytes := allocatedSectors width (divCeil physicalBytes (2 ^ ashift)) * 2 ^ ashift
    columns := (layout dvaOffset (2 ^ ashift) width (divCeil physicalBytes (2 ^ ashift))
      (dvaOffset.testBit 20)).columns }

/-! ## RAIDZ2 and RAIDZ3 -/

structure RaidzParityMap where
  physicalBytes : Nat
  alignedBytes : Nat
  allocatedBytes : Nat
  parity : Nat
  activeColumns : Nat
  columns : List RaidzColumn
deriving DecidableEq, Repr

namespace Parity

section Sizes

variable (width parity dataSectors : Nat)

def shortRows : Nat := dataSectors / (width - parity)

def longColumns : Nat :=
  if dataSectors % (width - parity) = 0 then 0 else dataSectors % (width - parity) + parity

def rows : Nat :=
  shortRows width parity dataSectors + if dataSectors % (width - parity) ≠ 0 then 1 else 0

def activeColumns : Nat :=
  if shortRows width parity dataSectors = 0 then longColumns width parity dataSectors else width

def columnCount : Nat :=
  if shortRows width parity dataSectors = 0 then
    min (nextMultipleOf (activeColumns width parity dataSectors) (parity + 1)) width
  else width

def occupiedSectors : Nat := dataSectors + parity * rows width parity dataSectors

def allocatedSectors : Nat := nextMultipleOf (occupiedSectors width parity dataSectors) (parity + 1)

def skipDistance (ordinal : Nat) : Nat :=
  (ordinal + columnCount width parity dataSectors - longColumns width parity dataSectors) %
    columnCount width parity dataSectors

end Sizes

def layout (dvaOffset sector width parity dataSectors : Nat) : Layout where
  sector := sector
  width := width
  parity := parity
  first := dvaOffset / sector % width
  rowStart := dvaOffset / sector / width * sector
  columnCount := columnCount width parity dataSectors
  physicalColumn ordinal := ordinal
  bytes ordinal :=
    if ordinal < activeColumns width parity dataSectors then
      (shortRows width parity dataSectors +
        if ordinal < longColumns width parity dataSectors then 1 else 0) * sector
    else 0
  padding ordinal :=
    if skipDistance width parity dataSectors ordinal <
        allocatedSectors width parity dataSectors - occupiedSectors width parity dataSectors then
      sector
    else 0

end Parity

open Parity in
def RaidzParityMap.new (dvaOffset physicalBytes ashift width parity : Nat) :
    Except ParseError RaidzParityMap := do
  failIf (¬ (2 ≤ parity ∧ parity ≤ 3) ∨ ¬ (parity + 1 ≤ width ∧ width ≤ 8) ∨
    ¬ (9 ≤ ashift ∧ ashift ≤ 16) ∨ physicalBytes = 0 ∨ maxBlockBytes < physicalBytes ∨
    physicalBytes % 512 ≠ 0)
    (invalid "unsupported RAIDZ2/3 width, parity, ashift or physical size")
  failIf (dvaOffset % 2 ^ ashift ≠ 0) (invalid "unaligned RAIDZ2/3 DVA offset")
  failIf (2 ^ 64 ≤
      dvaOffset + allocatedSectors width parity (divCeil physicalBytes (2 ^ ashift)) * 2 ^ ashift)
    (invalid "RAIDZ2/3 allocation offset overflow")
  return {
    physicalBytes := physicalBytes
    alignedBytes := divCeil physicalBytes (2 ^ ashift) * 2 ^ ashift
    allocatedBytes := allocatedSectors width parity (divCeil physicalBytes (2 ^ ashift)) * 2 ^ ashift
    parity := parity
    activeColumns := Parity.activeColumns width parity (divCeil physicalBytes (2 ^ ashift))
    columns := (layout dvaOffset (2 ^ ashift) width parity (divCeil physicalBytes (2 ^ ashift))).columns }

end FrankenFs.Zfs
