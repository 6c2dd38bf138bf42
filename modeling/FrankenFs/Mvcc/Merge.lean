import FrankenFs.Mvcc.Types
import Mathlib.Data.List.Sort

/-!
# Merge proofs: `MergeProof` and its validators in `lib.rs`

A validator slices its buffers by numbers that come with the proof, and a slice whose
start lies behind its end panics. Such a call returns `none` here.
-/

namespace FrankenFs.Mvcc

structure MergeByteRange where
  start : Nat
  len : Nat
deriving DecidableEq, Repr

namespace MergeByteRange

/-- `end` in the source. -/
def stop (r : MergeByteRange) : Nat := usizeSaturatingAdd r.start r.len

def overlaps (r other : MergeByteRange) : Bool := r.start < other.stop && other.start < r.stop

end MergeByteRange

inductive MergeProof where
  | notSafe
  | disjointBlocks
  | appendOnly (baseLen : Nat)
  | independentKeys (touchedRanges : List MergeByteRange)
  | nonOverlappingExtents (touchedRanges : List MergeByteRange)
  | timestampOnlyInode (touchedRanges : List MergeByteRange)
  | bitmapOr
  | bitmapDelta
deriving DecidableEq, Repr

/-- `MergeProof::default()` is `Unsafe`, a word Lean keeps for itself. -/
instance : Inhabited MergeProof := ⟨.notSafe⟩

def MergeProof.ranges? : MergeProof → Option (List MergeByteRange)
  | .independentKeys rs | .nonOverlappingExtents rs | .timestampOnlyInode rs => some rs
  | _ => none

/-- `&l[lo..hi]`. -/
def slice (l : Bytes) (lo hi : Nat) : Option Bytes :=
  if lo ≤ hi ∧ hi ≤ l.length then some ((l.drop lo).take (hi - lo)) else none

/-! ## Append only -/

def appendOnlyMergeValid (baseLen : Nat) (base latest staged : Bytes) : Bool :=
  if baseLen > base.length || baseLen > latest.length || baseLen > staged.length then false
  else latest.take baseLen == base.take baseLen && staged.take baseLen == base.take baseLen

/-! ## Ranges -/

def rangesArePairwiseDisjoint : List MergeByteRange → Bool
  | [] => true
  | left :: rest => rest.all (fun right => !left.overlaps right) && rangesArePairwiseDisjoint rest

def gapsUnchanged (base staged : Bytes) : Nat → List MergeByteRange → Option Bool
  | cursor, [] => do
    let s ← slice staged cursor staged.length
    let b ← slice base cursor base.length
    some (s == b)
  | cursor, r :: rest => do
    let s ← slice staged cursor r.start
    let b ← slice base cursor r.start
    if s == b then gapsUnchanged base staged r.stop rest else some false

/-- The last loop: `latest` equals `base` on each range. -/
def rangesUnchanged (base latest : Bytes) : List MergeByteRange → Option Bool
  | [] => some true
  | r :: rest => do
    let l ← slice latest r.start r.stop
    let b ← slice base r.start r.stop
    if l == b then rangesUnchanged base latest rest else some false

section

variable [Platform]

/-- `sort_unstable_by_key(|range| range.start)`. -/
def sortByStart (ranges : List MergeByteRange) : List MergeByteRange :=
  Platform.sortUnstableByKey MergeByteRange.start ranges

theorem sortByStart_perm (ranges : List MergeByteRange) : (sortByStart ranges).Perm ranges :=
  Platform.perm_sortUnstableByKey _ _

theorem sortByStart_pairwise (ranges : List MergeByteRange) :
    (sortByStart ranges).Pairwise fun a b => a.start ≤ b.start :=
  Platform.pairwise_sortUnstableByKey _ _

def mergeNonOverlappingRangesValid (touchedRanges : List MergeByteRange)
    (base latest staged : Bytes) : Option Bool :=
  if latest.length ≠ base.length || staged.length ≠ base.length then some false
  else if !rangesArePairwiseDisjoint touchedRanges then some false
  else if touchedRanges.any fun r => decide (r.stop > base.length) then some false
  else do
    if ← gapsUnchanged base staged 0 (sortByStart touchedRanges) then
      rangesUnchanged base latest touchedRanges
    else some false

def copyRange (staged merged : Bytes) (r : MergeByteRange) : Bytes :=
  merged.take r.start ++ (staged.drop r.start).take (r.stop - r.start) ++ merged.drop r.stop

def mergeNonOverlappingRanges (touchedRanges : List MergeByteRange)
    (base latest staged : Bytes) : Option (Option Bytes) := do
  if ← mergeNonOverlappingRangesValid touchedRanges base latest staged then
    some (some (touchedRanges.foldl (copyRange staged) latest))
  else some none

/-! ## Bitmaps -/

def bitmapOrMergeValid (base latest staged : Bytes) : Bool :=
  if latest.length ≠ base.length || staged.length ≠ base.length then false
  else ((base.zip latest).zip staged).all fun ((b, l), s) =>
    b &&& ~~~l == 0 && b &&& ~~~s == 0 && (l &&& ~~~b) &&& (s &&& ~~~b) == 0

def bitmapDeltaMergeValid (base latest staged : Bytes) : Bool :=
  if latest.length ≠ base.length || staged.length ≠ base.length then false
  else ((base.zip latest).zip staged).all fun ((b, l), s) => (l ^^^ b) &&& (s ^^^ b) == 0

/-! ## The proof as a whole -/

/-- `none` is a panic. -/
def MergeProof.mergeValid (proof : MergeProof) (base latest staged : Bytes) : Option Bool :=
  match proof with
  | .notSafe | .disjointBlocks => some false
  | .appendOnly baseLen => some (appendOnlyMergeValid baseLen base latest staged)
  | .independentKeys rs | .nonOverlappingExtents rs | .timestampOnlyInode rs =>
    mergeNonOverlappingRangesValid rs base latest staged
  | .bitmapOr => some (bitmapOrMergeValid base latest staged)
  | .bitmapDelta => some (bitmapDeltaMergeValid base latest staged)

/-- `none` is a panic, `some none` a refused merge. -/
def MergeProof.mergeBytes (proof : MergeProof) (base latest staged : Bytes) :
    Option (Option Bytes) :=
  match proof with
  | .notSafe | .disjointBlocks => some none
  | .appendOnly baseLen =>
    if appendOnlyMergeValid baseLen base latest staged then
      some (some (latest ++ staged.drop baseLen))
    else some none
  | .independentKeys rs | .nonOverlappingExtents rs | .timestampOnlyInode rs =>
    mergeNonOverlappingRanges rs base latest staged
  | .bitmapOr =>
    if bitmapOrMergeValid base latest staged then
      some (some (latest.zipWith (· ||| ·) staged))
    else some none
  | .bitmapDelta =>
    if bitmapDeltaMergeValid base latest staged then
      some (some (latest.zipWith (· ^^^ ·) (base.zipWith (· ^^^ ·) staged)))
    else some none

theorem mergeValid_eq (proof : MergeProof) (base latest staged : Bytes) :
    proof.mergeValid base latest staged =
      (proof.mergeBytes base latest staged).map Option.isSome := by
  cases proof with
  | notSafe | disjointBlocks => rfl
  | appendOnly n => simp only [MergeProof.mergeValid, MergeProof.mergeBytes]; split <;> simp_all
  | independentKeys rs | nonOverlappingExtents rs | timestampOnlyInode rs =>
    simp only [MergeProof.mergeValid, MergeProof.mergeBytes, mergeNonOverlappingRanges]
    cases h : mergeNonOverlappingRangesValid rs base latest staged with
    | none => rfl
    | some b => cases b <;> rfl
  | bitmapOr => simp only [MergeProof.mergeValid, MergeProof.mergeBytes]; split <;> simp_all
  | bitmapDelta => simp only [MergeProof.mergeValid, MergeProof.mergeBytes]; split <;> simp_all

theorem mergeNonOverlappingRanges_ok {rs : List MergeByteRange} {base latest staged m : Bytes} :
    mergeNonOverlappingRanges rs base latest staged = some (some m) ↔
      mergeNonOverlappingRangesValid rs base latest staged = some true ∧
        m = rs.foldl (copyRange staged) latest := by
  unfold mergeNonOverlappingRanges
  cases h : mergeNonOverlappingRangesValid rs base latest staged with
  | none => simp
  | some b => cases b <;> simp [eq_comm]

theorem mergeNonOverlappingRangesValid_eq {rs : List MergeByteRange} (base latest staged : Bytes) :
    mergeNonOverlappingRangesValid rs base latest staged =
      if (latest.length = base.length ∧ staged.length = base.length) ∧
          rangesArePairwiseDisjoint rs = true ∧ ∀ r ∈ rs, r.stop ≤ base.length then
        (gapsUnchanged base staged 0 (sortByStart rs)).bind fun same =>
          if same then rangesUnchanged base latest rs else some false
      else some false := by
  have hany : (rs.any fun r => decide (r.stop > base.length)) = true ↔
      ¬∀ r ∈ rs, r.stop ≤ base.length := by simp
  unfold mergeNonOverlappingRangesValid
  simp only [hany, Bool.or_eq_true, decide_eq_true_eq, ne_eq, ← not_and_or, ite_not, ite_and]
  split_ifs with hlen hdisjoint hfit <;> simp_all

theorem mergeNonOverlappingRangesValid_iff {rs : List MergeByteRange} {base latest staged : Bytes} :
    mergeNonOverlappingRangesValid rs base latest staged = some true ↔
      (latest.length = base.length ∧ staged.length = base.length) ∧
        rangesArePairwiseDisjoint rs = true ∧ (∀ r ∈ rs, r.stop ≤ base.length) ∧
        gapsUnchanged base staged 0 (sortByStart rs) = some true ∧
        rangesUnchanged base latest rs = some true := by
  rw [mergeNonOverlappingRangesValid_eq]
  split_ifs with hok
  · cases gapsUnchanged base staged 0 (sortByStart rs) with
    | none => simp
    | some same => cases same <;> simp_all
  · refine iff_of_false (by simp) ?_
    rintro ⟨hlen, hdisjoint, hfit, -⟩
    exact hok ⟨hlen, hdisjoint, hfit⟩

theorem mergeBytes_length {proof : MergeProof} {base latest staged merged : Bytes}
    (h : proof.mergeBytes base latest staged = some (some merged)) :
    (∃ n, proof = .appendOnly n ∧ n ≤ base.length) ∨
      (∀ n, proof ≠ .appendOnly n) ∧ latest.length = base.length := by
  cases proof with
  | notSafe | disjointBlocks => simp [MergeProof.mergeBytes] at h
  | appendOnly n =>
    refine Or.inl ⟨n, rfl, ?_⟩
    by_contra hn
    simp [MergeProof.mergeBytes, appendOnlyMergeValid, Nat.lt_of_not_le hn] at h
  | independentKeys rs | nonOverlappingExtents rs | timestampOnlyInode rs =>
    have hv := (mergeNonOverlappingRanges_ok.mp h).1
    exact Or.inr ⟨by simp, (mergeNonOverlappingRangesValid_iff.mp hv).1.1⟩
  | bitmapOr =>
    refine Or.inr ⟨by simp, ?_⟩
    by_contra hne
    simp [MergeProof.mergeBytes, bitmapOrMergeValid, hne] at h
  | bitmapDelta =>
    refine Or.inr ⟨by simp, ?_⟩
    by_contra hne
    simp [MergeProof.mergeBytes, bitmapDeltaMergeValid, hne] at h

theorem mergeBytes_appendOnly_zero (base latest staged : Bytes) :
    (MergeProof.appendOnly 0).mergeBytes base latest staged = some (some (latest ++ staged)) := by
  simp [MergeProof.mergeBytes, appendOnlyMergeValid]

end

/-! ## Growing a proof inside one transaction -/

def coalesceSorted : MergeByteRange → List MergeByteRange → List MergeByteRange
  | prev, [] => [prev]
  | prev, current :: rest =>
    if current.start ≤ prev.stop then
      coalesceSorted { prev with len := max prev.stop current.stop - prev.start } rest
    else prev :: coalesceSorted current rest

/-- The source sorts with `sort_unstable_by_key` too, but ranges of one start and one end
come out joined, in either order. -/
def coalesceByteRanges (ranges : List MergeByteRange) : List MergeByteRange :=
  match ranges.insertionSort fun a b => a.start < b.start ∨ a.start = b.start ∧ a.stop ≤ b.stop with
  | [] => []
  | first :: rest => coalesceSorted first rest

/-- The union of two range proofs, or `none` when the new proof replaces the old one. -/
def combineProofs (previous staged : MergeProof) : Option MergeProof :=
  match previous, staged with
  | .nonOverlappingExtents prev, .nonOverlappingExtents next =>
    some (.nonOverlappingExtents (coalesceByteRanges (prev ++ next)))
  | .timestampOnlyInode prev, .timestampOnlyInode next =>
    some (.timestampOnlyInode (coalesceByteRanges (prev ++ next)))
  | prev, next =>
    match prev.ranges?, next.ranges? with
    | some prev, some next => some (.independentKeys (coalesceByteRanges (prev ++ next)))
    | _, _ => none

end FrankenFs.Mvcc
