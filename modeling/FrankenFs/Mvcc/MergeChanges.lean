import Mathlib.Data.List.GetD
import Mathlib.Data.List.Perm.Basic
import FrankenFs.Mvcc.Transaction

/-!
# Merges of disjoint changes

`withChanges base writes` is the base with the change of every write applied, bit by bit.
-/

namespace FrankenFs.Mvcc

/-! ## Changes -/

def delta (base write : Bytes) (i : Nat) : Byte := base.getD i 0 ^^^ write.getD i 0

variable {i : Nat}

theorem delta_of_le {base write : Bytes} (hlen : write.length = base.length) {i : Nat}
    (hi : base.length ≤ i) : delta base write i = 0 := by
  simp [delta, List.getD_eq_getElem?_getD, List.getElem?_eq_none hi,
    List.getElem?_eq_none (hlen ▸ hi)]

def changedBits (base : Bytes) (writes : List Bytes) (i : Nat) : Byte :=
  (writes.map (delta base · i)).foldr (· ||| ·) 0

def withChanges (base : Bytes) (writes : List Bytes) : Bytes :=
  base.mapIdx fun i b => b ^^^ changedBits base writes i

theorem xor_delta (base write : Bytes) (i : Nat) :
    write.getD i 0 = base.getD i 0 ^^^ delta base write i := by
  rw [delta, ← BitVec.xor_assoc, BitVec.xor_self, BitVec.zero_xor]

variable {l : Bytes}

theorem bytes_ext {l' : Bytes} (hlen : l.length = l'.length)
    (h : ∀ i < l.length, l.getD i 0 = l'.getD i 0) : l = l' := by
  apply List.ext_getElem hlen
  intro i h1 h2
  have := h i h1
  rwa [List.getD_eq_getElem _ _ h1, List.getD_eq_getElem _ _ h2] at this

@[simp]
theorem withChanges_length (base : Bytes) (writes : List Bytes) :
    (withChanges base writes).length = base.length := by
  simp [withChanges]

theorem withChanges_getD {base : Bytes} (writes : List Bytes) (hi : i < base.length) :
    (withChanges base writes).getD i 0 = base.getD i 0 ^^^ changedBits base writes i := by
  simp [withChanges, hi]

variable {writes : List Bytes}

theorem changedBits_perm {base : Bytes} {writes' : List Bytes} (h : writes.Perm writes') (i : Nat) :
    changedBits base writes i = changedBits base writes' i := by
  have hcomm : LeftCommutative (fun a b : Byte => a ||| b) :=
    ⟨fun a b c => by rw [← BitVec.or_assoc, BitVec.or_comm a b, BitVec.or_assoc]⟩
  exact (h.map _).foldr_eq 0

theorem withChanges_perm {base : Bytes} {writes' : List Bytes} (h : writes.Perm writes') :
    withChanges base writes = withChanges base writes' := by
  unfold withChanges
  simp only [changedBits_perm h]

theorem changedBits_cons (base write : Bytes) (writes : List Bytes) (i : Nat) :
    changedBits base (write :: writes) i = delta base write i ||| changedBits base writes i := rfl

theorem withChanges_singleton {base write : Bytes} (hlen : write.length = base.length) :
    withChanges base [write] = write := by
  apply bytes_ext (by simp [hlen])
  intro i hi
  rw [withChanges_length] at hi
  rw [withChanges_getD _ hi, changedBits_cons, xor_delta base write]
  simp [changedBits]

theorem changedBits_eq_zero {base : Bytes} (h : ∀ w ∈ writes, delta base w i = 0) :
    changedBits base writes i = 0 := by
  induction writes with
  | nil => rfl
  | cons w rest ih =>
    rw [changedBits_cons, h w (by simp), ih fun w' hw' => h w' (by simp [hw'])]
    rfl

theorem and_changedBits_eq_zero {base : Bytes} {x : Byte}
    (h : ∀ w ∈ writes, x &&& delta base w i = 0) : x &&& changedBits base writes i = 0 := by
  induction writes with
  | nil => simp [changedBits]
  | cons w rest ih =>
    have hrest := ih fun w' hw' => h w' (by simp [hw'])
    have hw := h w (by simp)
    rw [changedBits_cons]
    ext j hj
    have h1 := congrArg (BitVec.getLsbD · j) hw
    have h2 := congrArg (BitVec.getLsbD · j) hrest
    simp only [BitVec.getLsbD_and] at h1 h2
    simp_all

/-! ## Declared ranges -/

def MergeByteRange.covers (r : MergeByteRange) (i : Nat) : Prop := r.start ≤ i ∧ i < r.stop

instance (r : MergeByteRange) (i : Nat) : Decidable (r.covers i) :=
  inferInstanceAs (Decidable (_ ∧ _))

/-- Ranges inside a block of `n` bytes, apart from each other and in a definite order. -/
structure RangesOk (n : Nat) (rs : List MergeByteRange) : Prop where
  bounds : ∀ r ∈ rs, r.start ≤ r.stop ∧ r.stop ≤ n
  disjoint : rs.Pairwise fun a b => a.stop ≤ b.start ∨ b.stop ≤ a.start
  starts : (rs.map MergeByteRange.start).Nodup

theorem slice_eq_some {lo hi : Nat} (h : lo ≤ hi) (hl : hi ≤ l.length) :
    slice l lo hi = some ((l.drop lo).take (hi - lo)) := if_pos ⟨h, hl⟩

theorem slice_eq_slice {l' : Bytes} {lo hi : Nat} (hlen : l.length = l'.length)
    (heq : ∀ i, lo ≤ i → i < hi → l.getD i 0 = l'.getD i 0) :
    (l.drop lo).take (hi - lo) = (l'.drop lo).take (hi - lo) := by
  apply bytes_ext (by simp [hlen])
  intro i hi'
  simp only [List.length_take, List.length_drop] at hi'
  have := heq (lo + i) (by omega) (by omega)
  simp only [List.getD_eq_getElem?_getD, List.getElem?_take, List.getElem?_drop] at this ⊢
  rw [if_pos (by omega), if_pos (by omega), this]

variable {rs : List MergeByteRange}

theorem rangesUnchanged_of {base latest : Bytes} (hlen : latest.length = base.length)
    (hb : ∀ r ∈ rs, r.start ≤ r.stop ∧ r.stop ≤ base.length)
    (heq : ∀ r ∈ rs, ∀ i, r.covers i → latest.getD i 0 = base.getD i 0) :
    rangesUnchanged base latest rs = some true := by
  induction rs with
  | nil => rfl
  | cons r rest ih =>
    obtain ⟨h1, h2⟩ := hb r (by simp)
    have hslice := slice_eq_slice hlen fun i hlo hhi => heq r (by simp) i ⟨hlo, hhi⟩
    rw [rangesUnchanged, slice_eq_some h1 (by omega), slice_eq_some h1 h2]
    simp only [hslice, bind, Option.bind, beq_self_eq_true, if_true]
    exact ih (fun r' hr' => hb r' (by simp [hr'])) fun r' hr' => heq r' (by simp [hr'])

variable {staged : Bytes}

theorem gapsUnchanged_of {base : Bytes} {cursor : Nat} (hlen : staged.length = base.length)
    (hcur : cursor ≤ base.length)
    (hb : ∀ r ∈ rs, cursor ≤ r.start ∧ r.start ≤ r.stop ∧ r.stop ≤ base.length)
    (hord : rs.Pairwise fun a b => a.stop ≤ b.start)
    (heq : ∀ i, cursor ≤ i → (∀ r ∈ rs, ¬ r.covers i) → staged.getD i 0 = base.getD i 0) :
    gapsUnchanged base staged cursor rs = some true := by
  induction rs generalizing cursor with
  | nil =>
    have hslice : (staged.drop cursor).take (staged.length - cursor) =
        (base.drop cursor).take (staged.length - cursor) :=
      slice_eq_slice hlen fun i hlo _ => heq i hlo (by simp)
    rw [gapsUnchanged, slice_eq_some (by omega) le_rfl, slice_eq_some hcur le_rfl]
    rw [hlen] at hslice ⊢
    simp [hslice]
  | cons r rest ih =>
    obtain ⟨h1, h2, h3⟩ := hb r (by simp)
    obtain ⟨hfirst, hord⟩ := List.pairwise_cons.mp hord
    -- Nothing before the first range is covered by a later one.
    have hslice := slice_eq_slice hlen fun i (hlo : cursor ≤ i) (hhi : i < r.start) =>
      heq i hlo fun r' hr' hc => by
        rcases List.mem_cons.mp hr' with rfl | hr'
        · have := hc.1; omega
        · have h4 := hfirst r' hr'
          have h5 := hc.1
          omega
    rw [gapsUnchanged, slice_eq_some h1 (by omega), slice_eq_some h1 (by omega)]
    simp only [hslice, bind, Option.bind, beq_self_eq_true, if_true]
    refine ih h3 (fun r' hr' => ⟨hfirst r' hr', (hb r' (by simp [hr'])).2⟩) hord fun i hi hnc => ?_
    refine heq i (by omega) fun r' hr' hc => ?_
    rcases List.mem_cons.mp hr' with rfl | hr'
    · have := hc.2; omega
    · exact hnc r' hr' hc

theorem copyRange_length {merged : Bytes} {r : MergeByteRange}
    (hlen : staged.length = merged.length) (h1 : r.start ≤ r.stop) (h2 : r.stop ≤ merged.length) :
    (copyRange staged merged r).length = merged.length := by
  simp only [copyRange, List.length_append, List.length_take, List.length_drop]
  omega

theorem copyRange_getD {merged : Bytes} {r : MergeByteRange} (hlen : staged.length = merged.length)
    (h1 : r.start ≤ r.stop) (h2 : r.stop ≤ merged.length) (i : Nat) :
    (copyRange staged merged r).getD i 0 =
      if r.covers i then staged.getD i 0 else merged.getD i 0 := by
  unfold copyRange MergeByteRange.covers
  simp only [List.getD_eq_getElem?_getD, List.getElem?_append, List.getElem?_take,
    List.getElem?_drop, List.length_append, List.length_take, List.length_drop]
  split_ifs <;> first | rfl | omega | (congr 2; omega)

theorem foldl_copyRange {merged : Bytes} (hlen : staged.length = merged.length)
    (hb : ∀ r ∈ rs, r.start ≤ r.stop ∧ r.stop ≤ merged.length) :
    (rs.foldl (copyRange staged) merged).length = merged.length ∧
      ∀ i, (rs.foldl (copyRange staged) merged).getD i 0 =
        if ∃ r ∈ rs, r.covers i then staged.getD i 0 else merged.getD i 0 := by
  induction rs generalizing merged with
  | nil => simp
  | cons r rest ih =>
    obtain ⟨h1, h2⟩ := hb r (by simp)
    have hcopy := copyRange_length hlen h1 h2
    obtain ⟨hl, hget⟩ := ih (hlen.trans hcopy.symm)
      fun r' hr' => by rw [hcopy]; exact hb r' (by simp [hr'])
    refine ⟨by rw [List.foldl_cons, hl, hcopy], fun i => ?_⟩
    rw [List.foldl_cons, hget, copyRange_getD hlen h1 h2]
    by_cases hr : r.covers i <;> simp [hr]

theorem rangesArePairwiseDisjoint_of
    (h : rs.Pairwise fun a b => a.stop ≤ b.start ∨ b.stop ≤ a.start) :
    rangesArePairwiseDisjoint rs = true := by
  induction rs with
  | nil => rfl
  | cons r rest ih =>
    obtain ⟨hr, hrest⟩ := List.pairwise_cons.mp h
    rw [rangesArePairwiseDisjoint, ih hrest, Bool.and_true, List.all_eq_true]
    intro r' hr'
    have := hr r' hr'
    simp only [MergeByteRange.overlaps, Bool.not_eq_true', Bool.and_eq_false_iff,
      decide_eq_false_iff_not]
    omega

theorem RangesOk.sorted [Platform] {n : Nat} (h : RangesOk n rs) :
    (sortByStart rs).Pairwise fun a b => a.stop ≤ b.start := by
  have hperm : (sortByStart rs).Perm rs := sortByStart_perm rs
  have hsorted := sortByStart_pairwise rs
  have hdisj : (sortByStart rs).Pairwise fun a b => a.stop ≤ b.start ∨ b.stop ≤ a.start :=
    (hperm.pairwise_iff fun hab => hab.symm).mpr h.disjoint
  have hne : (sortByStart rs).Pairwise fun a b => a.start ≠ b.start := by
    have := (hperm.map MergeByteRange.start).nodup_iff.mpr h.starts
    exact List.pairwise_map.mp this
  refine ((hsorted.and hdisj).and hne).imp_of_mem fun {a b} ha hb hab => ?_
  have hbb := (h.bounds b (hperm.mem_iff.mp hb)).1
  obtain ⟨⟨h1, h2⟩, h3⟩ := hab
  omega

theorem mergeNonOverlappingRanges_of [Platform] {base latest : Bytes}
    (hl : latest.length = base.length) (hs : staged.length = base.length)
    (hrs : RangesOk base.length rs)
    (hout : ∀ i, (∀ r ∈ rs, ¬ r.covers i) → staged.getD i 0 = base.getD i 0)
    (hin : ∀ r ∈ rs, ∀ i, r.covers i → latest.getD i 0 = base.getD i 0) :
    mergeNonOverlappingRanges rs base latest staged =
      some (some (rs.foldl (copyRange staged) latest)) := by
  have hperm : (sortByStart rs).Perm rs := sortByStart_perm rs
  have hgaps : gapsUnchanged base staged 0 (sortByStart rs) = some true := by
    refine gapsUnchanged_of hs (Nat.zero_le _) (fun r hr => ?_) hrs.sorted fun i _ hnc => ?_
    · exact ⟨Nat.zero_le _, hrs.bounds r (hperm.mem_iff.mp hr)⟩
    · exact hout i fun r hr => hnc r (hperm.mem_iff.mpr hr)
  rw [mergeNonOverlappingRanges_ok, mergeNonOverlappingRangesValid_iff]
  exact ⟨⟨⟨hl, hs⟩, rangesArePairwiseDisjoint_of hrs.disjoint, fun r hr => (hrs.bounds r hr).2,
    hgaps, rangesUnchanged_of hl hrs.bounds hin⟩, rfl⟩

/-! ## Concurrent writers of one block -/

def SparesRanges (base : Bytes) (w other : StagedWrite) : Prop :=
  ∀ rs, w.mergeProof.ranges? = some rs → ∀ r ∈ rs, ∀ i, r.covers i → delta base other.bytes i = 0

/-- The writes have one kind of proof and stay out of each other's way. -/
inductive Concurrent (base : Bytes) (ws : List StagedWrite) : Prop where
  | ranges (length : ∀ w ∈ ws, w.bytes.length = base.length)
      (declared : ∀ w ∈ ws, ∃ rs, w.mergeProof.ranges? = some rs ∧ RangesOk base.length rs ∧
        ∀ i, (∀ r ∈ rs, ¬ r.covers i) → delta base w.bytes i = 0)
      (apart : ws.Pairwise fun w w' => SparesRanges base w w' ∧ SparesRanges base w' w)
  | bitmapOr (length : ∀ w ∈ ws, w.bytes.length = base.length)
      (proof : ∀ w ∈ ws, w.mergeProof = .bitmapOr)
      (setOnly : ∀ w ∈ ws, ∀ i, base.getD i 0 &&& delta base w.bytes i = 0)
      (apart : ws.Pairwise fun w w' => ∀ i, delta base w.bytes i &&& delta base w'.bytes i = 0)
  | bitmapDelta (length : ∀ w ∈ ws, w.bytes.length = base.length)
      (proof : ∀ w ∈ ws, w.mergeProof = .bitmapDelta)
      (apart : ws.Pairwise fun w w' => ∀ i, delta base w.bytes i &&& delta base w'.bytes i = 0)

theorem Concurrent.length {base : Bytes} {ws : List StagedWrite} (h : Concurrent base ws) :
    ∀ w ∈ ws, w.bytes.length = base.length := by
  cases h <;> assumption

theorem Concurrent.perm {base : Bytes} {ws ws' : List StagedWrite} (h : Concurrent base ws)
    (hp : ws.Perm ws') : Concurrent base ws' := by
  have hmem : ∀ w ∈ ws', w ∈ ws := fun w hw => hp.mem_iff.mpr hw
  cases h with
  | ranges length declared apart =>
    exact .ranges (fun w hw => length w (hmem w hw)) (fun w hw => declared w (hmem w hw))
      ((hp.pairwise_iff fun hab => hab.symm).mp apart)
  | bitmapOr length proof setOnly apart =>
    refine .bitmapOr (fun w hw => length w (hmem w hw)) (fun w hw => proof w (hmem w hw))
      (fun w hw => setOnly w (hmem w hw)) ((hp.pairwise_iff fun hab i => ?_).mp apart)
    rw [BitVec.and_comm]; exact hab i
  | bitmapDelta length proof apart =>
    refine .bitmapDelta (fun w hw => length w (hmem w hw)) (fun w hw => proof w (hmem w hw))
      ((hp.pairwise_iff fun hab i => ?_).mp apart)
    rw [BitVec.and_comm]; exact hab i

theorem Concurrent.tail {base : Bytes} {w : StagedWrite} {ws : List StagedWrite}
    (h : Concurrent base (w :: ws)) : Concurrent base ws := by
  cases h with
  | ranges length declared apart =>
    exact .ranges (fun w hw => length w (by simp [hw])) (fun w hw => declared w (by simp [hw]))
      (List.pairwise_cons.mp apart).2
  | bitmapOr length proof setOnly apart =>
    exact .bitmapOr (fun w hw => length w (by simp [hw])) (fun w hw => proof w (by simp [hw]))
      (fun w hw => setOnly w (by simp [hw])) (List.pairwise_cons.mp apart).2
  | bitmapDelta length proof apart =>
    exact .bitmapDelta (fun w hw => length w (by simp [hw])) (fun w hw => proof w (by simp [hw]))
      (List.pairwise_cons.mp apart).2

/-! ## One merge -/

theorem zippedValid_iff {base latest : Bytes} {p : (Byte × Byte) × Byte → Bool} :
    (if latest.length ≠ base.length || staged.length ≠ base.length then false
      else ((base.zip latest).zip staged).all p) = true ↔
      (latest.length = base.length ∧ staged.length = base.length) ∧
        ∀ i < base.length, p ((base.getD i 0, latest.getD i 0), staged.getD i 0) = true := by
  by_cases hlen : latest.length = base.length ∧ staged.length = base.length
  · rw [if_neg (by simp [hlen]), and_iff_right hlen, List.all_eq_true, List.forall_mem_iff_getElem]
    simp only [List.length_zip, hlen, Nat.min_self, List.getElem_zip]
    refine forall₂_congr fun i hi => ?_
    rw [List.getD_eq_getElem _ _ hi, List.getD_eq_getElem _ _ (by omega),
      List.getD_eq_getElem _ _ (by omega)]
  · rw [if_pos (by simpa [← not_and_or] using hlen)]
    exact iff_of_false Bool.false_ne_true fun h => hlen h.1

theorem zipWith_getD {f : Byte → Byte → Byte} {l' : Bytes} (h : i < l.length) (h' : i < l'.length) :
    (List.zipWith f l l').getD i 0 = f (l.getD i 0) (l'.getD i 0) := by
  rw [List.getD_eq_getElem _ _ (by simp; omega), List.getD_eq_getElem _ _ h,
    List.getD_eq_getElem _ _ h', List.getElem_zipWith]

section Bits

variable {b d m : Byte}

theorem xor_eq_or (h : d &&& m = 0) : m ^^^ d = d ||| m := by
  ext j hj
  have := congrArg (BitVec.getLsbD · j) h
  simp only [BitVec.getLsbD_and] at this
  simp_all
  cases hd : d[j] <;> cases hm : m[j] <;> simp_all

theorem set_eq_or (h : b &&& d = 0) : b ^^^ d = b ||| d := by
  rw [BitVec.or_comm, ← xor_eq_or (by rw [BitVec.and_comm]; exact h)]

theorem or_or_or : (b ||| m) ||| (b ||| d) = b ||| (d ||| m) := by
  ext j hj
  simp only [BitVec.getElem_or]
  cases b[j] <;> simp [Bool.or_comm]

theorem and_not_set (h : b &&& d = 0) : b &&& ~~~(b ^^^ d) = 0 := by
  ext j hj
  have := congrArg (BitVec.getLsbD · j) h
  simp only [BitVec.getLsbD_and] at this
  simp_all

theorem new_bits (h : b &&& d = 0) : (b ^^^ d) &&& ~~~b = d := by
  ext j hj
  have := congrArg (BitVec.getLsbD · j) h
  simp only [BitVec.getLsbD_and] at this
  cases hb : b[j] <;> cases hd : d[j] <;> simp_all

end Bits

section Merge

variable [Platform] {base w : Bytes} {done : List Bytes}

theorem merge_ranges {rs : List MergeByteRange} (hlen : w.length = base.length)
    (hrs : RangesOk base.length rs) (hout : ∀ i, (∀ r ∈ rs, ¬ r.covers i) → delta base w i = 0)
    (hin : ∀ w' ∈ done, ∀ r ∈ rs, ∀ i, r.covers i → delta base w' i = 0) :
    mergeNonOverlappingRanges rs base (withChanges base done) w =
      some (some (withChanges base (w :: done))) := by
  have hzero : ∀ r ∈ rs, ∀ i, r.covers i → changedBits base done i = 0 := fun r hr i hc =>
    changedBits_eq_zero fun w' hw' => hin w' hw' r hr i hc
  have hl := withChanges_length base done
  have hb : ∀ r ∈ rs, r.start ≤ r.stop ∧ r.stop ≤ (withChanges base done).length := by
    rw [hl]; exact hrs.bounds
  obtain ⟨hfl, hfold⟩ := foldl_copyRange (hlen.trans hl.symm) hb
  rw [mergeNonOverlappingRanges_of hl hlen hrs]
  · congr 2
    apply bytes_ext (by rw [hfl, hl, withChanges_length])
    intro i hi
    rw [hfl, hl] at hi
    rw [hfold, withChanges_getD _ hi, withChanges_getD _ hi, changedBits_cons]
    split_ifs with hc
    · obtain ⟨r, hr, hc⟩ := hc
      rw [hzero r hr i hc, xor_delta base w i]
      simp
    · rw [hout i fun r hr hcr => hc ⟨r, hr, hcr⟩]
      simp
  · intro i hnc
    rw [xor_delta base w, hout i hnc]
    simp
  · intro r hr i hc
    have := (hrs.bounds r hr).2
    have := hc.2
    rw [withChanges_getD _ (by omega), hzero r hr i hc]
    simp

theorem merge_bitmapDelta (hlen : w.length = base.length)
    (hd : ∀ i, delta base w i &&& changedBits base done i = 0) :
    MergeProof.bitmapDelta.mergeBytes base (withChanges base done) w =
      some (some (withChanges base (w :: done))) := by
  have hl := withChanges_length base done
  have hvalid : bitmapDeltaMergeValid base (withChanges base done) w = true := by
    refine zippedValid_iff.mpr ⟨⟨hl, hlen⟩, fun i hi => ?_⟩
    rw [withChanges_getD _ hi, xor_delta base w i, beq_iff_eq, BitVec.xor_comm (base.getD i 0),
      BitVec.xor_assoc, BitVec.xor_self, BitVec.xor_zero, BitVec.xor_comm (base.getD i 0),
      BitVec.xor_assoc, BitVec.xor_self, BitVec.xor_zero, BitVec.and_comm]
    exact hd i
  rw [MergeProof.mergeBytes, if_pos hvalid]
  congr 2
  apply bytes_ext (by simp [hlen])
  intro i hi
  simp only [List.length_zipWith, withChanges_length] at hi
  rw [zipWith_getD (by omega) (by simp; omega), zipWith_getD (by omega) (by omega),
    withChanges_getD _ (by omega), withChanges_getD _ (by omega), changedBits_cons,
    ← xor_eq_or (hd i), BitVec.xor_assoc]
  rfl

theorem merge_bitmapOr (hlen : w.length = base.length)
    (hset : ∀ i, base.getD i 0 &&& delta base w i = 0)
    (hdone : ∀ i, base.getD i 0 &&& changedBits base done i = 0)
    (hd : ∀ i, delta base w i &&& changedBits base done i = 0) :
    MergeProof.bitmapOr.mergeBytes base (withChanges base done) w =
      some (some (withChanges base (w :: done))) := by
  have hl := withChanges_length base done
  have hvalid : bitmapOrMergeValid base (withChanges base done) w = true := by
    refine zippedValid_iff.mpr ⟨⟨hl, hlen⟩, fun i hi => ?_⟩
    rw [withChanges_getD _ hi, xor_delta base w i]
    simp only [and_not_set (hset i), and_not_set (hdone i), new_bits (hset i), new_bits (hdone i)]
    rw [BitVec.and_comm, hd i]
    rfl
  rw [MergeProof.mergeBytes, if_pos hvalid]
  congr 2
  apply bytes_ext (by simp [hlen])
  intro i hi
  simp only [List.length_zipWith, withChanges_length] at hi
  have hor : base.getD i 0 &&& (delta base w i ||| changedBits base done i) = 0 := by
    rw [BitVec.and_or_distrib_left, hset i, hdone i]
    rfl
  rw [zipWith_getD (by simp; omega) (by omega), withChanges_getD _ (by omega),
    withChanges_getD _ (by omega), changedBits_cons, xor_delta base w i, set_eq_or (hset i),
    set_eq_or (hdone i), set_eq_or hor, or_or_or]

end Merge

theorem mergeBytes_of_ranges [Platform] {proof : MergeProof} (h : proof.ranges? = some rs)
    (base latest staged : Bytes) :
    proof.mergeBytes base latest staged = mergeNonOverlappingRanges rs base latest staged := by
  cases proof <;> simp_all [MergeProof.ranges?, MergeProof.mergeBytes]

theorem Concurrent.merge [Platform] {base : Bytes} {w : StagedWrite} {done : List StagedWrite}
    (h : Concurrent base (w :: done)) :
    w.mergeProof.mergeBytes base (withChanges base (done.map StagedWrite.bytes)) w.bytes =
      some (some (withChanges base ((w :: done).map StagedWrite.bytes))) := by
  have hlen := h.length w (by simp)
  cases h with
  | ranges _ declared apart =>
    obtain ⟨rs, hrs, hok, hout⟩ := declared w (by simp)
    rw [mergeBytes_of_ranges hrs]
    refine merge_ranges hlen hok hout fun bytes hb => ?_
    obtain ⟨w', hw', rfl⟩ := List.mem_map.mp hb
    exact ((List.pairwise_cons.mp apart).1 w' hw').1 rs hrs
  | bitmapOr _ proof setOnly apart =>
    rw [proof w (by simp)]
    refine merge_bitmapOr hlen (setOnly w (by simp)) (fun i => ?_) fun i => ?_ <;>
      refine and_changedBits_eq_zero fun bytes hb => ?_ <;>
      obtain ⟨w', hw', rfl⟩ := List.mem_map.mp hb
    · exact setOnly w' (by simp [hw']) i
    · exact (List.pairwise_cons.mp apart).1 w' hw' i
  | bitmapDelta _ proof apart =>
    rw [proof w (by simp)]
    refine merge_bitmapDelta hlen fun i => and_changedBits_eq_zero fun bytes hb => ?_
    obtain ⟨w', hw', rfl⟩ := List.mem_map.mp hb
    exact (List.pairwise_cons.mp apart).1 w' hw' i

end FrankenFs.Mvcc
