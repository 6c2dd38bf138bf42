import FrankenFs.Mvcc.MergeChanges

/-!
# Growing a proof inside one transaction

A block that is staged again and again with range proofs is left with one proof, whose ranges cover
every byte the transaction has changed.
-/

open FrankenFs.Lib

namespace FrankenFs.Mvcc

def Covered (rs : List MergeByteRange) (i : Nat) : Prop := ∃ r ∈ rs, r.covers i

def Apart (rs : List MergeByteRange) : Prop :=
  rs.Pairwise fun a b => a.start ≤ b.start ∧ a.stop < b.start

theorem covered_append (rs rs' : List MergeByteRange) (i : Nat) :
    Covered (rs ++ rs') i ↔ Covered rs i ∨ Covered rs' i := by
  simp [Covered, or_and_right, exists_or]

/-! ## Coalescing -/

theorem stop_le (r : MergeByteRange) : r.stop ≤ usizeMax := Nat.min_le_right ..

theorem stop_extend {r : MergeByteRange} {n : Nat} (hle : r.start ≤ n) (hn : n ≤ usizeMax) :
    ({ r with len := n - r.start } : MergeByteRange).stop = n := by
  unfold MergeByteRange.stop usizeSaturatingAdd
  dsimp only
  omega

theorem coalesceSorted_spec {prev : MergeByteRange} {rest : List MergeByteRange}
    (hsorted : (prev :: rest).Pairwise fun a b => a.start ≤ b.start) :
    Apart (coalesceSorted prev rest) ∧ (∀ r ∈ coalesceSorted prev rest, prev.start ≤ r.start) ∧
      ∀ i, Covered (coalesceSorted prev rest) i ↔ Covered (prev :: rest) i := by
  induction rest generalizing prev with
  | nil => simp [coalesceSorted, Apart]
  | cons current rest ih =>
    obtain ⟨hfirst, hrest⟩ := List.pairwise_cons.mp hsorted
    have hstart := hfirst current List.mem_cons_self
    unfold coalesceSorted
    split
    · rename_i htouch
      have hprev := stop_le prev
      have hcurrent := stop_le current
      have hstop := stop_extend (r := prev) (n := max prev.stop current.stop) (by omega) (by omega)
      generalize hjoined : ({ prev with len := max prev.stop current.stop - prev.start } :
        MergeByteRange) = joined at hstop
      have hjoinedStart : joined.start = prev.start := by rw [← hjoined]
      obtain ⟨hapart, hstarts, hcovers⟩ := @ih joined <| by
        refine List.pairwise_cons.mpr ⟨fun r hr => ?_, (List.pairwise_cons.mp hrest).2⟩
        rw [hjoinedStart]
        exact hfirst r (List.mem_cons_of_mem _ hr)
      rw [hjoinedStart] at hstarts
      refine ⟨hapart, hstarts, fun i => ?_⟩
      rw [hcovers]
      -- the joined range covers what the two did, since they touch
      have hjoin : joined.covers i ↔ prev.covers i ∨ current.covers i := by
        unfold MergeByteRange.covers
        rw [hstop, hjoinedStart]
        omega
      simp only [Covered, List.exists_mem_cons_iff, hjoin, or_assoc]
    · rename_i hgap
      obtain ⟨hapart, hstarts, hcovers⟩ := ih hrest
      refine ⟨List.pairwise_cons.mpr ⟨fun r hr => ?_, hapart⟩, fun r hr => ?_, fun i => ?_⟩
      · have := hstarts r hr
        omega
      · rcases List.mem_cons.mp hr with rfl | hr
        · exact le_rfl
        · exact hstart.trans (hstarts r hr)
      · have hi := hcovers i
        unfold Covered at hi ⊢
        simp only [List.exists_mem_cons_iff] at hi ⊢
        rw [hi]

theorem coalesceByteRanges_spec (rs : List MergeByteRange) :
    Apart (coalesceByteRanges rs) ∧ ∀ i, Covered (coalesceByteRanges rs) i ↔ Covered rs i := by
  let le (a b : MergeByteRange) : Prop := a.start < b.start ∨ a.start = b.start ∧ a.stop ≤ b.stop
  have : Std.Total le := ⟨fun a b => by simp only [le]; omega⟩
  have : IsTrans MergeByteRange le := ⟨fun a b c => by simp only [le]; omega⟩
  have hperm : (rs.insertionSort le).Perm rs := List.perm_insertionSort _ _
  have hsorted : (rs.insertionSort le).Pairwise fun a b => a.start ≤ b.start :=
    (List.pairwise_insertionSort le rs).imp fun {a b} h => by simp only [le] at h; omega
  have hcovered : ∀ i, Covered (rs.insertionSort le) i ↔ Covered rs i := by
    intro i
    simp only [Covered, hperm.mem_iff]
  unfold coalesceByteRanges
  cases hsort : rs.insertionSort
    fun a b => a.start < b.start ∨ a.start = b.start ∧ a.stop ≤ b.stop with
  | nil =>
    replace hcovered : ∀ i, Covered [] i ↔ Covered rs i := hsort ▸ hcovered
    exact ⟨List.Pairwise.nil, hcovered⟩
  | cons first rest =>
    replace hsorted : (first :: rest).Pairwise fun a b => a.start ≤ b.start := hsort ▸ hsorted
    replace hcovered : ∀ i, Covered (first :: rest) i ↔ Covered rs i := hsort ▸ hcovered
    obtain ⟨hapart, -, hcovers⟩ := coalesceSorted_spec hsorted
    exact ⟨hapart, fun i => (hcovers i).trans (hcovered i)⟩

theorem combineProofs_ranges {previous staged : MergeProof} {prev next : List MergeByteRange}
    (hprev : previous.ranges? = some prev) (hnext : staged.ranges? = some next) :
    ∃ proof, combineProofs previous staged = some proof ∧
      proof.ranges? = some (coalesceByteRanges (prev ++ next)) := by
  cases previous <;> cases hprev <;> cases staged <;> cases hnext <;> exact ⟨_, rfl, rfl⟩

/-! ## Staging one block -/

/-- The call has a range proof, and differs from `previous` inside the declared ranges only. -/
def Declares (previous : Bytes) (call : StagedWrite) : Prop :=
  ∃ rs, call.mergeProof.ranges? = some rs ∧ ∀ i, previous[i]? ≠ call.bytes[i]? → Covered rs i

def Edits : Bytes → List StagedWrite → Prop
  | _, [] => True
  | previous, call :: calls => Declares previous call ∧ Edits call.bytes calls

def StagedWrite.declares (call : StagedWrite) (i : Nat) : Prop :=
  ∃ rs, call.mergeProof.ranges? = some rs ∧ Covered rs i

/-- What is staged after the calls: the last bytes, under a proof that has every declared range,
with the base of the first call that passes one. -/
structure Accumulates (base : Bytes) (first : StagedWrite) (rest : List StagedWrite)
    (w : StagedWrite) : Prop where
  bytes : w.bytes = ((first :: rest).getLast (by simp)).bytes
  ranges : ∃ rs, w.mergeProof.ranges? = some rs ∧
    (∀ i, base[i]? ≠ w.bytes[i]? → Covered rs i) ∧
    (∀ i, Covered rs i ↔ ∃ call ∈ first :: rest, call.declares i) ∧
    (rest ≠ [] → Apart rs)
  base : w.base = (first :: rest).findSome? StagedWrite.base

theorem Accumulates.single {base : Bytes} {first : StagedWrite} (hfirst : Declares base first) :
    Accumulates base first [] first := by
  obtain ⟨rs, hrs, hcovers⟩ := hfirst
  refine ⟨rfl, ⟨rs, hrs, hcovers, fun i => ?_, fun h => absurd rfl h⟩, by simp⟩
  simp [StagedWrite.declares, hrs]

theorem ne_notSafe_of_ranges {proof : MergeProof} {rs : List MergeByteRange}
    (hrs : proof.ranges? = some rs) : proof ≠ .notSafe := by
  rintro rfl
  cases hrs

theorem Accumulates.restage {base : Bytes} {first : StagedWrite} {rest : List StagedWrite}
    {w call : StagedWrite} (h : Accumulates base first rest w) (hcall : Declares w.bytes call) :
    Accumulates base first (rest ++ [call]) (Transaction.restage w call) := by
  obtain ⟨prev, hprev, hedited, hunion, -⟩ := h.ranges
  obtain ⟨next, hnext, hcovers⟩ := hcall
  obtain ⟨proof, hproof, hranges⟩ := combineProofs_ranges hprev hnext
  have hrestage : Transaction.restage w call =
      { call with mergeProof := proof, base := w.base.or call.base } := by
    simp [Transaction.restage, ne_notSafe_of_ranges hnext, hproof, ne_notSafe_of_ranges hranges]
  obtain ⟨hapart, hsame⟩ := coalesceByteRanges_spec (prev ++ next)
  rw [hrestage]
  refine ⟨by simp, ⟨_, hranges, fun i hi => ?_, fun i => ?_, fun _ => hapart⟩, ?_⟩
  · rw [hsame, covered_append]
    -- the byte was changed by an earlier call, or by this one
    by_cases hearlier : base[i]? = w.bytes[i]?
    · exact .inr (hcovers i (hearlier ▸ hi))
    · exact .inl (hedited i hearlier)
  · rw [hsame, covered_append, hunion, ← List.cons_append]
    simp [StagedWrite.declares, hnext, or_and_right, exists_or, or_assoc]
  · rw [← List.cons_append, List.findSome?_append, ← h.base]
    simp

namespace Transaction

def stageCalls (txn : Transaction) (block : Nat) (calls : List StagedWrite) : Transaction :=
  calls.foldl
    (fun txn call => txn.stageWriteWithProofAndBase block call.bytes call.mergeProof call.base) txn

end Transaction

theorem stageCalls_accumulates {txn : Transaction} {block : Nat} {base : Bytes}
    {first w : StagedWrite} {rest calls : List StagedWrite}
    (hw : txn.stagedWrites.get? block = some w) (h : Accumulates base first rest w)
    (hcalls : Edits w.bytes calls) :
    ∃ w', (txn.stageCalls block calls).stagedWrites.get? block = some w' ∧
      Accumulates base first (rest ++ calls) w' := by
  induction calls generalizing txn w rest with
  | nil => exact ⟨w, hw, by simpa using h⟩
  | cons call calls ih =>
    obtain ⟨hcall, hcalls⟩ := hcalls
    have hstaged : (txn.stageWriteWithProofAndBase block call.bytes call.mergeProof
        call.base).stagedWrites.get? block = some (Transaction.restage w call) := by
      simp [Transaction.stageWriteWithProofAndBase, Transaction.insertStagedWrite,
        OrdMap.get?_alter, hw]
    have hbytes : (Transaction.restage w call).bytes = call.bytes := by
      unfold Transaction.restage
      split <;> rfl
    obtain ⟨w', hw', hacc⟩ := ih hstaged (h.restage hcall) (by rwa [hbytes])
    exact ⟨w', hw', by simpa using hacc⟩

/-- **The proof grows with the edits**: after any calls on a block that each declare what they
change, the staged ranges cover whatever the last bytes have that the base does not. They are the
declared ranges taken together, apart from each other as soon as there are two calls, and the base
is that of the first call that passes one. -/
theorem stageCalls_covers {txn : Transaction} {block : Nat} {base : Bytes} {first : StagedWrite}
    {rest : List StagedWrite} (hfresh : txn.stagedWrites.get? block = none)
    (hcalls : Edits base (first :: rest)) :
    ∃ w, (txn.stageCalls block (first :: rest)).stagedWrites.get? block = some w ∧
      Accumulates base first rest w := by
  obtain ⟨hfirst, hrest⟩ := hcalls
  have hstaged : (txn.stageWriteWithProofAndBase block first.bytes first.mergeProof
      first.base).stagedWrites.get? block = some first := by
    simp [Transaction.stageWriteWithProofAndBase, Transaction.insertStagedWrite, OrdMap.get?_alter,
      hfresh]
  exact stageCalls_accumulates hstaged (.single hfirst) hrest

theorem stageCalls_covers_sample :
    ∃ w, ((Transaction.new 1 ⟨0⟩).stageCalls 7
        [⟨[1, 0, 0], .independentKeys [⟨0, 1⟩], some [0, 0, 0]⟩,
          ⟨[1, 2, 0], .nonOverlappingExtents [⟨1, 1⟩], none⟩]).stagedWrites.get? 7 = some w ∧
      Accumulates [0, 0, 0] ⟨[1, 0, 0], .independentKeys [⟨0, 1⟩], some [0, 0, 0]⟩
        [⟨[1, 2, 0], .nonOverlappingExtents [⟨1, 1⟩], none⟩] w := by
  refine stageCalls_covers (by decide) ⟨⟨_, rfl, fun i => ?_⟩, ⟨_, rfl, fun i => ?_⟩, trivial⟩
  · rcases i with _ | _ | _ | i <;> simp [Covered, MergeByteRange.covers]
    decide
  · rcases i with _ | _ | _ | i <;> simp [Covered, MergeByteRange.covers]
    decide

/-- The first call passes no base: the one of the second is recorded, which has the first edit. -/
theorem stageCalls_records_later_base :
    let first : StagedWrite := ⟨[1, 0], .independentKeys [⟨0, 1⟩], none⟩
    let second : StagedWrite := ⟨[1, 2], .independentKeys [⟨1, 1⟩], some [1, 0]⟩
    Edits [0, 0] [first, second] ∧
      (((Transaction.new 1 ⟨0⟩).stageCalls 7 [first, second]).stagedWrites.get? 7).map
          StagedWrite.base = some (some [1, 0]) ∧
      first.base = none := by
  refine ⟨⟨⟨_, rfl, fun i => ?_⟩, ⟨_, rfl, fun i => ?_⟩, trivial⟩, by decide, rfl⟩
  · rcases i with _ | _ | i <;> simp [Covered, MergeByteRange.covers]
    decide
  · rcases i with _ | _ | i <;> simp [Covered, MergeByteRange.covers]
    decide

end FrankenFs.Mvcc
