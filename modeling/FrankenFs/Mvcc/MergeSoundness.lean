import FrankenFs.Mvcc.MergeChanges
import Mathlib.Data.List.Pairwise

/-!
# What a merge gives, and when its validator panics

A merge that goes through is the three-way merge of its buffers. The validator goes through too, but
for a range with no bytes that starts where another one does.
-/

namespace FrankenFs.Mvcc

/-! ## Three-way merges -/

/-- `merged` has every change of `latest` and of `staged`, and no other. -/
structure ThreeWay {α : Type} (base latest staged merged : α) : Prop where
  hasLatest : latest ≠ base → merged = latest
  hasStaged : staged ≠ base → merged = staged
  agree : latest ≠ base → staged ≠ base → latest = staged
  unchanged : latest = base → staged = base → merged = base

section ThreeWay

variable {α : Type} {base latest staged : α}

theorem ThreeWay.of_latest_eq (h : latest = base) : ThreeWay base latest staged staged where
  hasLatest hne := absurd h hne
  hasStaged _ := rfl
  agree hne := absurd h hne
  unchanged _ hs := hs

theorem ThreeWay.of_staged_eq (h : staged = base) : ThreeWay base latest staged latest where
  hasLatest _ := rfl
  hasStaged hne := absurd h hne
  agree _ hne := absurd h hne
  unchanged hl _ := hl

end ThreeWay

/-! ## What the validator has checked -/

theorem slice_some {l s : Bytes} {lo hi : Nat} (h : slice l lo hi = some s) :
    lo ≤ hi ∧ hi ≤ l.length ∧ s = (l.drop lo).take (hi - lo) := by
  unfold slice at h
  split at h
  · rename_i hle
    cases h
    exact ⟨hle.1, hle.2, rfl⟩
  · cases h

theorem getD_of_slice_eq {l l' : Bytes} {lo hi i : Nat}
    (h : (l.drop lo).take (hi - lo) = (l'.drop lo).take (hi - lo)) (hlo : lo ≤ i) (hhi : i < hi) :
    l.getD i 0 = l'.getD i 0 := by
  have hi' := congrArg (fun s : Bytes => s.getD (i - lo) 0) h
  simp only [List.getD_eq_getElem?_getD, List.getElem?_take, List.getElem?_drop] at hi' ⊢
  rwa [if_pos (by omega), if_pos (by omega), Nat.add_sub_of_le hlo] at hi'

variable {rs : List MergeByteRange}

theorem gapsUnchanged_sound {base staged : Bytes} {cursor : Nat}
    (hlen : staged.length = base.length) (h : gapsUnchanged base staged cursor rs = some true)
    {i : Nat} (hi : cursor ≤ i) (hnc : ∀ r ∈ rs, ¬ r.covers i) :
    staged.getD i 0 = base.getD i 0 := by
  induction rs generalizing cursor with
  | nil =>
    simp only [gapsUnchanged, Option.bind_eq_bind, Option.bind_eq_some_iff, Option.some.injEq,
      beq_iff_eq] at h
    obtain ⟨s, hs, b, hb, rfl⟩ := h
    obtain ⟨-, -, hs⟩ := slice_some hs
    obtain ⟨-, -, hb⟩ := slice_some hb
    by_cases hend : i < staged.length
    · rw [← hlen] at hb
      exact getD_of_slice_eq (hs.symm.trans hb) hi hend
    · simp [List.getD_eq_getElem?_getD, List.getElem?_eq_none (Nat.le_of_not_lt hend),
        List.getElem?_eq_none (hlen ▸ Nat.le_of_not_lt hend)]
  | cons r rest ih =>
    simp only [gapsUnchanged, Option.bind_eq_bind, Option.bind_eq_some_iff] at h
    obtain ⟨s, hs, b, hb, h⟩ := h
    split at h
    · rename_i heq
      rw [beq_iff_eq] at heq
      obtain ⟨-, -, hs⟩ := slice_some hs
      obtain ⟨-, -, hb⟩ := slice_some hb
      by_cases hbefore : i < r.start
      · exact getD_of_slice_eq (by rw [← hs, ← hb, heq]) hi hbefore
      · refine ih h ?_ fun r' hr' => hnc r' (List.mem_cons_of_mem _ hr')
        have := hnc r List.mem_cons_self
        unfold MergeByteRange.covers at this
        omega
    · simp at h

theorem rangesUnchanged_sound {base latest : Bytes} (h : rangesUnchanged base latest rs = some true)
    :
    ∀ r ∈ rs, (r.start ≤ r.stop ∧ r.stop ≤ latest.length) ∧
      ∀ i, r.covers i → latest.getD i 0 = base.getD i 0 := by
  induction rs with
  | nil => simp
  | cons r rest ih =>
    simp only [rangesUnchanged, Option.bind_eq_bind, Option.bind_eq_some_iff] at h
    obtain ⟨l, hl, b, hb, h⟩ := h
    split at h
    · rename_i heq
      rw [beq_iff_eq] at heq
      obtain ⟨hle, hfit, hl⟩ := slice_some hl
      obtain ⟨-, -, hb⟩ := slice_some hb
      intro r' hr'
      rcases List.mem_cons.mp hr' with rfl | hr'
      · refine ⟨⟨hle, hfit⟩, fun i hi => ?_⟩
        exact getD_of_slice_eq (by rw [← hl, ← hb, heq]) hi.1 hi.2
      · exact ih h r' hr'
    · simp at h

/-! ## Soundness -/

theorem mergeNonOverlappingRanges_threeWay [Platform] {base latest staged merged : Bytes}
    (h : mergeNonOverlappingRanges rs base latest staged = some (some merged)) :
    merged.length = base.length ∧
      ∀ i, ThreeWay (base.getD i 0) (latest.getD i 0) (staged.getD i 0) (merged.getD i 0) := by
  obtain ⟨hvalid, rfl⟩ := mergeNonOverlappingRanges_ok.mp h
  obtain ⟨⟨hl, hs⟩, -, -, hgaps, hranges⟩ := mergeNonOverlappingRangesValid_iff.mp hvalid
  have hsound := rangesUnchanged_sound hranges
  obtain ⟨hlen, hget⟩ := foldl_copyRange (hs.trans hl.symm) fun r hr => (hsound r hr).1
  refine ⟨hlen.trans hl, fun i => ?_⟩
  rw [hget]
  split
  · rename_i hcovered
    obtain ⟨r, hr, hi⟩ := hcovered
    exact .of_latest_eq ((hsound r hr).2 i hi)
  · rename_i hfree
    refine .of_staged_eq (gapsUnchanged_sound hs hgaps (Nat.zero_le i) fun r hr hi => hfree ⟨r, ?_, hi⟩)
    exact (sortByStart_perm rs).mem_iff.mp hr

theorem threeWay_or {b l s : Bool} (hl : (b && !l) = false) (hs : (b && !s) = false)
    (hboth : (l && !b && (s && !b)) = false) : ThreeWay b l s (l || s) := by
  constructor <;> cases b <;> cases l <;> cases s <;> simp_all

theorem threeWay_xor {b l s : Bool} (hboth : ((l ^^ b) && (s ^^ b)) = false) :
    ThreeWay b l s (l ^^ (b ^^ s)) := by
  constructor <;> cases b <;> cases l <;> cases s <;> simp_all

theorem bitmapOr_threeWay {base latest staged : Bytes}
    (h : bitmapOrMergeValid base latest staged = true) :
    (latest.length = base.length ∧ staged.length = base.length) ∧
      ∀ i < base.length, ∀ k < 8,
        ThreeWay ((base.getD i 0).getLsbD k) ((latest.getD i 0).getLsbD k)
          ((staged.getD i 0).getLsbD k)
          (((latest.zipWith (· ||| ·) staged).getD i 0).getLsbD k) := by
  obtain ⟨hlen, hall⟩ := zippedValid_iff.mp h
  refine ⟨hlen, fun i hi k hk => ?_⟩
  have hbits := hall i hi
  rw [zipWith_getD (by omega) (by omega)]
  generalize base.getD i 0 = b at hbits
  generalize latest.getD i 0 = l at hbits
  generalize staged.getD i 0 = s at hbits
  simp only [Bool.and_eq_true, beq_iff_eq] at hbits
  have h1 := congrArg (BitVec.getLsbD · k) hbits.1.1
  have h2 := congrArg (BitVec.getLsbD · k) hbits.1.2
  have h3 := congrArg (BitVec.getLsbD · k) hbits.2
  simp only [BitVec.getLsbD_and, BitVec.getLsbD_not, BitVec.ofNat_eq_ofNat,
    BitVec.getLsbD_zero, hk, decide_true, Bool.true_and] at h1 h2 h3
  rw [BitVec.getLsbD_or]
  exact threeWay_or h1 h2 h3

theorem bitmapDelta_threeWay {base latest staged : Bytes}
    (h : bitmapDeltaMergeValid base latest staged = true) :
    (latest.length = base.length ∧ staged.length = base.length) ∧
      ∀ i < base.length, ∀ k < 8,
        ThreeWay ((base.getD i 0).getLsbD k) ((latest.getD i 0).getLsbD k)
          ((staged.getD i 0).getLsbD k)
          (((latest.zipWith (· ^^^ ·) (base.zipWith (· ^^^ ·) staged)).getD i 0).getLsbD k) := by
  obtain ⟨hlen, hall⟩ := zippedValid_iff.mp h
  refine ⟨hlen, fun i hi k hk => ?_⟩
  have hbits := hall i hi
  rw [zipWith_getD (by omega) (by simp; omega), zipWith_getD (by omega) (by omega)]
  generalize base.getD i 0 = b at hbits
  generalize latest.getD i 0 = l at hbits
  generalize staged.getD i 0 = s at hbits
  rw [beq_iff_eq] at hbits
  have hbit := congrArg (BitVec.getLsbD · k) hbits
  simp only [BitVec.getLsbD_and, BitVec.getLsbD_xor, BitVec.ofNat_eq_ofNat,
    BitVec.getLsbD_zero] at hbit
  rw [BitVec.getLsbD_xor, BitVec.getLsbD_xor]
  exact threeWay_xor hbit

/-- **Merges are sound.** A merge of ranges is the three-way merge byte by byte, and a merge of
bitmaps bit by bit, whatever the proof declares. -/
theorem mergeBytes_threeWay [Platform] {proof : MergeProof} {base latest staged merged : Bytes}
    (hkind : proof.ranges?.isSome ∨ proof = .bitmapOr ∨ proof = .bitmapDelta)
    (h : proof.mergeBytes base latest staged = some (some merged)) :
    merged.length = base.length ∧ latest.length = base.length ∧ staged.length = base.length ∧
      (proof.ranges?.isSome → ∀ i < base.length,
        ThreeWay (base.getD i 0) (latest.getD i 0) (staged.getD i 0) (merged.getD i 0)) ∧
      (proof = .bitmapOr ∨ proof = .bitmapDelta → ∀ i < base.length, ∀ k < 8,
        ThreeWay ((base.getD i 0).getLsbD k) ((latest.getD i 0).getLsbD k)
          ((staged.getD i 0).getLsbD k) ((merged.getD i 0).getLsbD k)) := by
  rcases hkind with hranges | rfl | rfl
  · obtain ⟨rs, hrs⟩ := Option.isSome_iff_exists.mp hranges
    rw [mergeBytes_of_ranges hrs] at h
    obtain ⟨hlen, hmerge⟩ := mergeNonOverlappingRanges_threeWay h
    have hvalid := (mergeNonOverlappingRanges_ok.mp h).1
    obtain ⟨⟨hl, hs⟩, -⟩ := mergeNonOverlappingRangesValid_iff.mp hvalid
    refine ⟨hlen, hl, hs, fun _ i _ => hmerge i, ?_⟩
    rintro (rfl | rfl) <;> cases hrs
  · simp only [MergeProof.mergeBytes] at h
    split at h
    · rename_i hvalid
      cases h
      obtain ⟨⟨hl, hs⟩, hmerge⟩ := bitmapOr_threeWay hvalid
      refine ⟨by simp [hl, hs], hl, hs, ?_, fun _ => hmerge⟩
      intro hranges
      cases hranges
    · cases h
  · simp only [MergeProof.mergeBytes] at h
    split at h
    · rename_i hvalid
      cases h
      obtain ⟨⟨hl, hs⟩, hmerge⟩ := bitmapDelta_threeWay hvalid
      refine ⟨by simp [hl, hs], hl, hs, ?_, fun _ => hmerge⟩
      intro hranges
      cases hranges
    · cases h

theorem mergeBytes_threeWay_sample :
    @MergeProof.mergeBytes exactPlatform .bitmapOr [1] [3] [5] = some (some [7]) ∧
      ThreeWay ((1 : Byte).getLsbD 2) ((3 : Byte).getLsbD 2) ((5 : Byte).getLsbD 2)
        ((7 : Byte).getLsbD 2) := by
  have hmerge : @MergeProof.mergeBytes exactPlatform .bitmapOr [1] [3] [5] = some (some [7]) := by
    decide
  refine ⟨hmerge, ?_⟩
  exact (@mergeBytes_threeWay exactPlatform _ _ _ _ _ (Or.inr (Or.inl rfl)) hmerge).2.2.2.2 (Or.inl rfl) 0 (by decide) 2
    (by decide)

/-! ## When the validator panics -/

theorem rangesArePairwiseDisjoint_iff :
    rangesArePairwiseDisjoint rs = true ↔ rs.Pairwise fun a b => a.overlaps b = false := by
  induction rs with
  | nil => simp [rangesArePairwiseDisjoint]
  | cons r rest ih => simp [rangesArePairwiseDisjoint, ih]

theorem overlaps_comm (a b : MergeByteRange) : a.overlaps b = b.overlaps a := by
  unfold MergeByteRange.overlaps
  rw [Bool.and_comm]

def Trips (a b : MergeByteRange) : Prop :=
  a.start = b.start ∧ a.start < a.stop ∧ b.stop = b.start

theorem gapsUnchanged_eq_none_iff {base staged : Bytes} (hlen : staged.length = base.length)
    {p : MergeByteRange} (hsorted : (p :: rs).Pairwise fun a b => a.start ≤ b.start)
    (hapart : (p :: rs).Pairwise fun a b => a.overlaps b = false)
    (hbounds : ∀ r ∈ p :: rs, r.start ≤ r.stop ∧ r.stop ≤ base.length) :
    gapsUnchanged base staged p.stop rs = none ↔
      ∃ a b, [a, b].Sublist (p :: rs) ∧ Trips a b ∧
        ∀ i, p.stop ≤ i → i < a.start → (∀ r ∈ rs, ¬ r.covers i) →
          staged.getD i 0 = base.getD i 0 := by
  induction rs generalizing p with
  | nil =>
    have hstop := (hbounds p List.mem_cons_self).2
    rw [gapsUnchanged, slice_eq_some (by omega) le_rfl, slice_eq_some hstop le_rfl]
    constructor
    · intro h
      cases h
    · rintro ⟨a, b, hsub, -⟩
      have := hsub.length_le
      simp at this
  | cons r rest ih =>
    obtain ⟨hfirst, hsorted'⟩ := List.pairwise_cons.mp hsorted
    obtain ⟨hclear, hapart'⟩ := List.pairwise_cons.mp hapart
    have hp := hbounds p List.mem_cons_self
    have hr := hbounds r (by simp)
    have hlater : ∀ b ∈ r :: rest, r.start ≤ b.start := by
      intro b hb
      rcases List.mem_cons.mp hb with rfl | hb
      · exact le_rfl
      · exact (List.pairwise_cons.mp hsorted').1 b hb
    by_cases hgap : p.stop ≤ r.start
    · -- no range trips over `p`
      have hskip : ∀ {a b}, [a, b].Sublist (p :: r :: rest) → Trips a b →
          [a, b].Sublist (r :: rest) := by
        intro a b hsub htrips
        cases hsub with
        | cons _ hsub => exact hsub
        | cons_cons _ hsub =>
          have hb := hlater b (List.singleton_sublist.mp hsub)
          unfold Trips at htrips
          omega
      rw [gapsUnchanged, slice_eq_some hgap (by omega), slice_eq_some hgap (by omega)]
      simp only [bind, Option.bind]
      split
      · rename_i hsame
        rw [beq_iff_eq] at hsame
        rw [ih hsorted' hapart' fun r' hr' => hbounds r' (List.mem_cons_of_mem _ hr')]
        constructor
        · rintro ⟨a, b, hsub, htrips, hgaps⟩
          refine ⟨a, b, hsub.cons _, htrips, fun i hi hia hfree => ?_⟩
          by_cases hir : i < r.start
          · exact getD_of_slice_eq hsame hi hir
          · have hnot := hfree r List.mem_cons_self
            unfold MergeByteRange.covers at hnot
            exact hgaps i (by omega) hia fun r' hr' => hfree r' (List.mem_cons_of_mem _ hr')
        · rintro ⟨a, b, hsub, htrips, hgaps⟩
          refine ⟨a, b, hskip hsub htrips, htrips, fun i hi hia hfree => ?_⟩
          refine hgaps i (by omega) hia fun r' hr' hcovers => ?_
          rcases List.mem_cons.mp hr' with rfl | hr'
          · have := hcovers.2
            omega
          · exact hfree r' hr' hcovers
      · rename_i hdiffer
        constructor
        · intro h
          cases h
        · rintro ⟨a, b, hsub, htrips, hgaps⟩
          have ha := hlater a ((hskip hsub htrips).subset (by simp))
          refine absurd (beq_iff_eq.mpr (slice_eq_slice hlen fun i hi hir => ?_)) hdiffer
          refine hgaps i hi (by omega) fun r' hr' hcovers => ?_
          have h1 := hlater r' hr'
          have h2 := hcovers.1
          omega
    · have hstart := hfirst r List.mem_cons_self
      have hno := hclear r List.mem_cons_self
      simp only [MergeByteRange.overlaps, Bool.and_eq_false_iff, decide_eq_false_iff_not] at hno
      have hnone : slice staged p.stop r.start = none := if_neg (by omega)
      rw [gapsUnchanged, hnone]
      simp only [bind, Option.bind, true_iff]
      refine ⟨p, r, by simp, ?_, fun i hi hip => ?_⟩
      · unfold Trips
        omega
      · omega

theorem rangesUnchanged_ne_none {base latest : Bytes} (hlen : latest.length = base.length)
    (hb : ∀ r ∈ rs, r.start ≤ r.stop ∧ r.stop ≤ base.length) :
    rangesUnchanged base latest rs ≠ none := by
  induction rs with
  | nil => simp [rangesUnchanged]
  | cons r rest ih =>
    obtain ⟨h1, h2⟩ := hb r List.mem_cons_self
    rw [rangesUnchanged, slice_eq_some h1 (by omega), slice_eq_some h1 h2]
    simp only [bind, Option.bind]
    split
    · exact ih fun r' hr' => hb r' (List.mem_cons_of_mem _ hr')
    · simp

/-- The gap loop comes to the start of `a` and `b`, in whichever order they stand there. -/
def ReachesTrip (rs : List MergeByteRange) (base latest staged : Bytes) (a b : MergeByteRange) :
    Prop :=
  (latest.length = base.length ∧ staged.length = base.length) ∧
    rangesArePairwiseDisjoint rs = true ∧ (∀ r ∈ rs, r.stop ≤ base.length) ∧ Trips a b ∧
    ∀ i < a.start, (∀ r ∈ rs, ¬ r.covers i) → staged.getD i 0 = base.getD i 0

theorem gapsUnchanged_sortByStart_eq_none_iff [Platform] {base staged : Bytes}
    (hlen : staged.length = base.length) (hapart : rangesArePairwiseDisjoint rs = true)
    (hbounds : ∀ r ∈ rs, r.start ≤ r.stop ∧ r.stop ≤ base.length) :
    gapsUnchanged base staged 0 (sortByStart rs) = none ↔
      ∃ a b, [a, b].Sublist (sortByStart rs) ∧ Trips a b ∧
        ∀ i < a.start, (∀ r ∈ rs, ¬ r.covers i) → staged.getD i 0 = base.getD i 0 := by
  have hperm := sortByStart_perm rs
  have hclear : (sortByStart rs).Pairwise fun a b => a.overlaps b = false := by
    refine (hperm.pairwise_iff ?_).mpr (rangesArePairwiseDisjoint_iff.mp hapart)
    intro a b h
    rw [overlaps_comm, h]
  -- the cursor starts as it would behind an empty range at the start of the block
  have hloop := gapsUnchanged_eq_none_iff (p := ⟨0, 0⟩) hlen
    (List.pairwise_cons.mpr ⟨fun r _ => Nat.zero_le _, sortByStart_pairwise rs⟩)
    (List.pairwise_cons.mpr
      ⟨fun r _ => by simp [MergeByteRange.overlaps, MergeByteRange.stop, usizeSaturatingAdd],
        hclear⟩)
    (by
      intro r hr
      rcases List.mem_cons.mp hr with rfl | hr
      · exact ⟨Nat.zero_le _, by simp [MergeByteRange.stop, usizeSaturatingAdd]⟩
      · exact hbounds r (hperm.mem_iff.mp hr))
  rw [show (⟨0, 0⟩ : MergeByteRange).stop = 0 from rfl] at hloop
  rw [hloop]
  constructor
  · rintro ⟨a, b, hsub, htrips, hgaps⟩
    refine ⟨a, b, ?_, htrips, fun i hi hfree => ?_⟩
    · cases hsub with
      | cons _ hsub => exact hsub
      | cons_cons _ hsub => exact absurd htrips.2.1 (by simp [MergeByteRange.stop, usizeSaturatingAdd])
    · exact hgaps i (Nat.zero_le i) hi fun r hr => hfree r (hperm.mem_iff.mp hr)
  · rintro ⟨a, b, hsub, htrips, hgaps⟩
    refine ⟨a, b, hsub.cons _, htrips, fun i _ hi hfree => ?_⟩
    exact hgaps i hi fun r hr => hfree r (hperm.mem_iff.mpr hr)

theorem mergeNonOverlappingRangesValid_eq_none_iff [Platform]
    (hwords : ∀ r ∈ rs, r.start ≤ usizeMax) (base latest staged : Bytes) :
    mergeNonOverlappingRangesValid rs base latest staged = none ↔
      ∃ a b, [a, b].Sublist (sortByStart rs) ∧ ReachesTrip rs base latest staged a b := by
  rw [mergeNonOverlappingRangesValid_eq]
  split_ifs with hok
  · obtain ⟨hlen, hdisjoint, hfit⟩ := hok
    have hbounds : ∀ r ∈ rs, r.start ≤ r.stop ∧ r.stop ≤ base.length := by
      intro r hr
      have := hwords r hr
      refine ⟨?_, hfit r hr⟩
      unfold MergeByteRange.stop usizeSaturatingAdd
      omega
    have hranges := rangesUnchanged_ne_none hlen.1 hbounds
    have hfit' : (∀ r ∈ rs, r.stop ≤ base.length) = True := eq_true hfit
    simp only [ReachesTrip, hlen, hdisjoint, hfit', and_self, true_and]
    rw [← gapsUnchanged_sortByStart_eq_none_iff hlen.2 hdisjoint hbounds]
    cases gapsUnchanged base staged 0 (sortByStart rs) with
    | none => simp
    | some same => cases same <;> simp [hranges]
  · refine iff_of_false (by simp) ?_
    rintro ⟨a, b, -, hlen, hdisjoint, hfit, -⟩
    exact hok ⟨hlen, hdisjoint, hfit⟩

theorem mergeBytes_eq_none_iff [Platform] (proof : MergeProof) (base latest staged : Bytes) :
    proof.mergeBytes base latest staged = none ↔ proof.mergeValid base latest staged = none := by
  rw [mergeValid_eq, Option.map_eq_none_iff]

theorem mergeValid_of_ranges [Platform] {proof : MergeProof} (h : proof.ranges? = some rs)
    (base latest staged : Bytes) :
    proof.mergeValid base latest staged = mergeNonOverlappingRangesValid rs base latest staged := by
  cases proof <;> simp_all [MergeProof.ranges?, MergeProof.mergeValid]

theorem mergeValid_eq_none_iff [Platform] {proof : MergeProof}
    (hwords : ∀ rs, proof.ranges? = some rs → ∀ r ∈ rs, r.start ≤ usizeMax)
    (base latest staged : Bytes) :
    proof.mergeValid base latest staged = none ↔
      ∃ rs, proof.ranges? = some rs ∧
        ∃ a b, [a, b].Sublist (sortByStart rs) ∧ ReachesTrip rs base latest staged a b := by
  cases hrs : proof.ranges? with
  | none => cases proof <;> simp_all [MergeProof.ranges?, MergeProof.mergeValid]
  | some rs =>
    rw [mergeValid_of_ranges hrs, mergeNonOverlappingRangesValid_eq_none_iff (hwords rs hrs)]
    simp

/-! ## Any order of equal starts -/

@[reducible]
def turningPlatform : Platform :=
  { exactPlatform with
    sortUnstableByKey := fun key l => insertionSortByKey key l.reverse
    perm_sortUnstableByKey := fun key l =>
      (insertionSortByKey_perm key l.reverse).trans l.reverse_perm
    pairwise_sortUnstableByKey := fun key l => insertionSortByKey_pairwise key l.reverse }

theorem pair_sublist_or {α : Type} {l : List α} {a b : α} (ha : a ∈ l) (hb : b ∈ l)
    (hne : a ≠ b) : [a, b].Sublist l ∨ [b, a].Sublist l := by
  by_contra h
  have hpairs : l.Pairwise fun x y => ¬ (x = a ∧ y = b) ∧ ¬ (x = b ∧ y = a) := by
    refine List.pairwise_iff_forall_sublist.mpr fun {x y} hsub => ⟨?_, ?_⟩
    · rintro ⟨rfl, rfl⟩
      exact h (Or.inl hsub)
    · rintro ⟨rfl, rfl⟩
      exact h (Or.inr hsub)
  have : Std.Symm fun x y => ¬ (x = a ∧ y = b) ∧ ¬ (x = b ∧ y = a) :=
    ⟨fun x y hxy => ⟨fun h' => hxy.2 h'.symm, fun h' => hxy.1 h'.symm⟩⟩
  exact (hpairs.forall ha hb hne).1 ⟨rfl, rfl⟩

theorem exists_sortByStart {a b : MergeByteRange} (ha : a ∈ rs) (hb : b ∈ rs) (hne : a ≠ b)
    (hstart : a.start = b.start) :
    ∃ platform : Platform, [a, b].Sublist (@sortByStart platform rs) := by
  rcases pair_sublist_or ha hb hne with hsub | hsub
  · exact ⟨exactPlatform, List.pair_sublist_insertionSort hstart.le hsub⟩
  · refine ⟨turningPlatform, List.pair_sublist_insertionSort hstart.le ?_⟩
    simpa using hsub.reverse

/-- **Validation is total but for an empty range.** Whatever order the sort gives to equal
starts, it and the merge return and agree, exactly when the gap loop does not come to a
non-empty and an empty range with one start. -/
theorem mergeValid_total_iff {proof : MergeProof}
    (hwords : ∀ rs, proof.ranges? = some rs → ∀ r ∈ rs, r.start ≤ usizeMax)
    (base latest staged : Bytes) :
    (∀ [Platform], proof.mergeValid base latest staged ≠ none ∧
        proof.mergeBytes base latest staged ≠ none ∧
        (proof.mergeValid base latest staged = some true ↔
          ∃ merged, proof.mergeBytes base latest staged = some (some merged))) ↔
      ¬ ∃ rs, proof.ranges? = some rs ∧
        ∃ a ∈ rs, ∃ b ∈ rs, ReachesTrip rs base latest staged a b := by
  constructor
  · rintro htotal ⟨rs, hrs, a, ha, b, hb, hreach⟩
    obtain ⟨-, -, -, htrips, -⟩ := id hreach
    have hne : a ≠ b := by
      rintro rfl
      exact absurd htrips.2.2 htrips.2.1.ne'
    obtain ⟨platform, hsub⟩ := exists_sortByStart ha hb hne htrips.1
    exact htotal.1 ((mergeValid_eq_none_iff hwords ..).mpr ⟨rs, hrs, a, b, hsub, hreach⟩)
  · intro hclear _
    have hvalid : proof.mergeValid base latest staged ≠ none := by
      rw [ne_eq, mergeValid_eq_none_iff hwords]
      rintro ⟨rs, hrs, a, b, hsub, hreach⟩
      have hmem : ∀ r ∈ [a, b], r ∈ rs := fun r hr =>
        (sortByStart_perm rs).mem_iff.mp (hsub.subset hr)
      exact hclear ⟨rs, hrs, a, hmem a (by simp), b, hmem b (by simp), hreach⟩
    refine ⟨hvalid, by rwa [ne_eq, mergeBytes_eq_none_iff], ?_⟩
    rw [mergeValid_eq]
    cases proof.mergeBytes base latest staged with
    | none => simp
    | some m => cases m <;> simp

theorem mergeValid_total_iff_sample :
    (∀ [Platform], (MergeProof.independentKeys [⟨1, 1⟩, ⟨1, 0⟩]).mergeValid [1, 1] [1, 1] [2, 2] ≠
        none) ∧
      ¬ ((2 : Byte) = 1) := by
  have hwords : ∀ rs, (MergeProof.independentKeys [⟨1, 1⟩, ⟨1, 0⟩]).ranges? = some rs →
      ∀ r ∈ rs, r.start ≤ usizeMax := by
    rintro rs ⟨rfl⟩
    decide
  have hbyte : ¬ ((2 : Byte) = 1) := by decide
  refine ⟨fun [_] => ((mergeValid_total_iff hwords [1, 1] [1, 1] [2, 2]).mpr ?_).1, hbyte⟩
  -- the first byte is in no range and was changed, so the loop stops before the pair
  rintro ⟨rs, ⟨rfl⟩, a, ha, b, -, -, -, -, -, hgaps⟩
  have hstart : a.start = 1 := by
    have ha' : a = ⟨1, 1⟩ ∨ a = ⟨1, 0⟩ := by simpa using ha
    rcases ha' with rfl | rfl <;> rfl
  exact hbyte (hgaps 0 (by omega) (by decide))

/-- An empty range declared behind a range of one byte: the validator slices `1..0`. -/
theorem mergeValid_panics_on_empty_range :
    @MergeProof.mergeValid exactPlatform (.independentKeys [⟨0, 1⟩, ⟨0, 0⟩]) [1] [1] [2] = none := by
  decide

end FrankenFs.Mvcc
