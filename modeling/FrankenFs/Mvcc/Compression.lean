import FrankenFs.Lib.VersionLog
import FrankenFs.Mvcc.Types

/-!
# Version chains: `compression.rs` and the index lookups of `lib.rs`

A chain keeps its versions oldest first. A version may store its bytes, a compressed
form of them, or only say that nothing changed.
-/

open FrankenFs.Lib

namespace FrankenFs.Mvcc

variable [Platform]

/-! ## The code -/

/-- The loop of `resolve_data_with`: from `index` walk back over `Identical` markers. -/
def resolveDataWith {α : Type} (chain : List α) (getData : α → VersionData) :
    Nat → Option Bytes
  | 0 =>
    match (chain[0]?).map getData with
    | some (.full bytes) => some bytes
    | some (.zstd bytes) => Platform.zstdDecode bytes
    | some (.brotli bytes) => Platform.brotliDecode bytes
    | some .identical => none
    | none => none
  | i + 1 =>
    match (chain[i + 1]?).map getData with
    | some (.full bytes) => some bytes
    | some (.zstd bytes) => Platform.zstdDecode bytes
    | some (.brotli bytes) => Platform.brotliDecode bytes
    | some .identical => resolveDataWith chain getData i
    | none => none

def resolveData (chain : List BlockVersion) (index : Nat) : Option Bytes :=
  resolveDataWith chain BlockVersion.data index

/-- `slice::partition_point`, which the source calls on ascending chains only. -/
def partitionPoint {α : Type} (l : List α) (p : α → Bool) : Nat := (l.takeWhile p).length

def newestVisibleIndexBy {α : Type} (versions : List α) (visibleHigh : Nat)
    (commitSeq : α → Nat) : Option Nat :=
  match versions.getLast? with
  | none => none
  | some last =>
    if commitSeq last ≤ visibleHigh then some (versions.length - 1)
    else
      match partitionPoint versions fun v => decide (commitSeq v ≤ visibleHigh) with
      | 0 => none
      | i + 1 => some i

def newestVisibleIndex (versions : List BlockVersion) (visibleHigh : Nat) : Option Nat :=
  newestVisibleIndexBy versions visibleHigh BlockVersion.commitSeq

/-- `resolve_version_bytes_at_or_before`: the bytes a reader at `visibleHigh` gets. -/
def resolveVersionBytesAtOrBefore (versions : List BlockVersion) (visibleHigh : Nat) :
    Option Bytes :=
  (newestVisibleIndex versions visibleHigh).bind (resolveData versions)

/-- `make_chain_head_full`: before a prefix is dropped, the new head stores its own bytes. -/
def makeChainHeadFull (versions : List BlockVersion) (keepFrom : Nat) : List BlockVersion :=
  match versions[keepFrom]? with
  | some v =>
    if v.data.isIdentical then
      match resolveData versions keepFrom with
      | some fullData => versions.set keepFrom { v with data := .full fullData }
      | none => versions
    else versions
  | none => versions

def dropPrefix (versions : List BlockVersion) (keepFrom : Nat) : List BlockVersion :=
  if keepFrom > 0 then (makeChainHeadFull versions keepFrom).drop keepFrom else versions

/-- The loop of `trim_block_chain_to_cap`, from `trim` on. `rest` counts the iterations left. -/
def trimCount {α : Type} (versions : List α) (commitSeq : α → Nat) (maxLen : Nat)
    (watermark : Nat) : Nat → Nat → Nat
  | 0, trim => trim
  | rest + 1, trim =>
    if versions.length - trim > maxLen then
      match versions[trim + 1]? with
      | none => trim
      | some next =>
        if commitSeq next > watermark then trim
        else trimCount versions commitSeq maxLen watermark rest (trim + 1)
    else trim

def keepFromCount {α : Type} (versions : List α) (commitSeq : α → Nat)
    (watermark : Nat) : Nat → Nat → Nat
  | 0, keepFrom => keepFrom
  | rest + 1, keepFrom =>
    match versions[keepFrom + 1]? with
    | none => keepFrom
    | some next =>
      if commitSeq next ≤ watermark then
        keepFromCount versions commitSeq watermark rest (keepFrom + 1)
      else keepFrom

def trimBlockChainToCap (versions : List BlockVersion) (maxLen : Nat) (watermark : Nat) :
    List BlockVersion :=
  dropPrefix versions
    (trimCount versions BlockVersion.commitSeq maxLen watermark versions.length 0)

def trimPhysicalChainToCap (versions : List PhysicalBlockVersion) (maxLen : Nat)
    (watermark : Nat) : List PhysicalBlockVersion :=
  versions.drop
    (trimCount versions PhysicalBlockVersion.commitSeq maxLen watermark versions.length 0)

def pruneChain (versions : List BlockVersion) (watermark : Nat) : List BlockVersion :=
  dropPrefix versions
    (keepFromCount versions BlockVersion.commitSeq watermark versions.length 0)

def prunePhysicalChain (versions : List PhysicalBlockVersion) (watermark : Nat) :
    List PhysicalBlockVersion :=
  versions.drop
    (keepFromCount versions PhysicalBlockVersion.commitSeq watermark versions.length 0)

end FrankenFs.Mvcc
