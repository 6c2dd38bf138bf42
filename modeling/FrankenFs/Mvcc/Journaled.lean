import FrankenFs.Mvcc.History

/-!
# The journaled commit

The preflight and the bytes for the journal take the recorded base of a staged write for an ancestor
where the chain has none. The install does not.
-/

open FrankenFs.Lib

namespace FrankenFs.Mvcc

section Paths

variable [Platform]

namespace MvccStore

/-- The write of `block` would be merged, and the chain has no version at the snapshot. -/
def ancestorMissing (s : MvccStore) (txn : Transaction) (block : Nat) : Bool :=
  decide (txn.snapshot.high < s.latestCommitSeq block) &&
    (s.versionBytesAt block txn.snapshot.high).isNone

/-- No merge depends on a recorded base: there is none, or it is empty, or the proof is an
append at offset zero, which reads no ancestor. -/
def basesUnused (s : MvccStore) (txn : Transaction) : Bool :=
  txn.stagedWrites.entries.all fun e =>
    !s.ancestorMissing txn e.1 || (e.2.base.getD [] == []) || e.2.mergeProof == .appendOnly 0

def Installs (s : MvccStore) (txn : Transaction) (ws : List (Nat × Bytes)) : Prop :=
  ∃ s' c, s.commitFcwPrechecked txn = (s', .ok c) ∧
    ∀ w ∈ ws, s'.latestCommitSeq w.1 = c ∧ s'.readVisible w.1 ⟨c⟩ = some w.2

/-! ## One block -/

section Block

variable {s : MvccStore} {txn : Transaction} {block : Nat} {staged : StagedWrite}

theorem resolvedWriteBytes_ok {bytes : Bytes} (hst : txn.stagedWrites.get? block = some staged)
    (h : s.resolvedWriteBytes txn block = .ok bytes) :
    s.latestCommitSeq block ≤ txn.snapshot.high ∧ bytes = staged.bytes ∨
      txn.snapshot.high < s.latestCommitSeq block ∧ s.effectivePolicy ≠ .strict ∧
        staged.mergeProof.mergeBytes
          (((s.versionBytesAt block txn.snapshot.high).or staged.base).getD [])
          (s.mergeLatest block) staged.bytes = some (some bytes) := by
  simp only [resolvedWriteBytes, resolvedWriteBytesWithPolicy, Transaction.stagedWrite,
    Transaction.mergeProof, Transaction.stagedBase, mergeBase, hst, Option.map_some,
    Option.getD_some, Option.bind_some] at h
  split_ifs at h with hle hstrict
  · cases h; exact Or.inl ⟨hle, rfl⟩
  · split at h
    · rename_i merged hm
      cases h
      exact Or.inr ⟨Nat.lt_of_not_le hle, hstrict, hm⟩
    · cases h
    · cases h

theorem mergedWrite_seen {effective : ConflictPolicy}
    (hle : s.latestCommitSeq block ≤ txn.snapshot.high) :
    s.mergedWrite txn block staged effective = .ok none := if_pos hle

theorem mergedWrite_ok_iff {effective : ConflictPolicy} {m : Option Bytes}
    (hlt : txn.snapshot.high < s.latestCommitSeq block) (hpol : effective ≠ .strict) :
    s.mergedWrite txn block staged effective = .ok m ↔ ∃ merged, m = some merged ∧
      staged.mergeProof.mergeBytes ((s.versionBytesAt block txn.snapshot.high).getD [])
        (s.mergeLatest block) staged.bytes = some (some merged) := by
  rw [mergedWrite, if_neg (Nat.not_le.mpr hlt), if_neg hpol]
  split
  · rename_i merged hm
    simp [hm, eq_comm]
  · rename_i hm
    simp [hm]
  · rename_i hm
    simp [hm]

theorem mergedWrite_iff {bytes : Bytes} (hst : txn.stagedWrites.get? block = some staged)
    (h : s.resolvedWriteBytes txn block = .ok bytes) :
    ((∃ m, s.mergedWrite txn block staged s.effectivePolicy = .ok m) →
      s.ancestorMissing txn block = true →
        staged.base.getD [] = [] ∨ staged.mergeProof = .appendOnly 0) ∧
    ((s.ancestorMissing txn block = true →
        staged.base.getD [] = [] ∨ staged.mergeProof = .appendOnly 0) →
      ∃ m, s.mergedWrite txn block staged s.effectivePolicy = .ok m ∧
        m.getD staged.bytes = bytes) := by
  rcases resolvedWriteBytes_ok hst h with ⟨hle, rfl⟩ | ⟨hlt, hpol, hm⟩
  · refine ⟨fun _ hmiss => ?_, fun _ => ⟨none, mergedWrite_seen hle, rfl⟩⟩
    simp [ancestorMissing, Nat.not_lt.mpr hle] at hmiss
  cases hv : s.versionBytesAt block txn.snapshot.high with
  | some base =>
    rw [hv, Option.some_or, Option.getD_some] at hm
    refine ⟨fun _ hmiss => ?_, fun _ => ⟨some bytes, ?_, rfl⟩⟩
    · simp [ancestorMissing, hv] at hmiss
    · rw [mergedWrite_ok_iff hlt hpol]
      exact ⟨bytes, rfl, by rwa [hv]⟩
  | none =>
    rw [hv, Option.none_or] at hm
    have hmiss : s.ancestorMissing txn block = true := by simp [ancestorMissing, hv, hlt]
    constructor
    · rintro ⟨m, hmw⟩ -
      obtain ⟨merged, -, hnil⟩ := (mergedWrite_ok_iff hlt hpol).mp hmw
      rw [hv, Option.getD_none] at hnil
      -- An append reads a prefix of the ancestor, every other merge all of it.
      rcases mergeBytes_length hnil with ⟨n, hp, hn⟩ | ⟨hne, hlen⟩
      · right
        rw [hp, Nat.le_zero.mp hn]
      · left
        rcases mergeBytes_length hm with ⟨n, hp, -⟩ | ⟨-, hlen'⟩
        · exact absurd hp (hne n)
        · rw [List.length_nil] at hlen
          exact List.eq_nil_of_length_eq_zero (by omega)
    · intro hbase
      rcases hbase hmiss with hnil | hzero
      · refine ⟨some bytes, (mergedWrite_ok_iff hlt hpol).mpr ⟨bytes, rfl, ?_⟩, rfl⟩
        rwa [hv, Option.getD_none, ← hnil]
      · rw [hzero, mergeBytes_appendOnly_zero, Option.some.injEq] at hm
        refine ⟨some bytes, (mergedWrite_ok_iff hlt hpol).mpr ⟨bytes, rfl, ?_⟩, rfl⟩
        rw [hzero, mergeBytes_appendOnly_zero, hm]

end Block

/-! ## The whole transaction -/

theorem basesUnused_iff {s : MvccStore} {txn : Transaction} :
    s.basesUnused txn = true ↔ ∀ block staged, txn.stagedWrites.get? block = some staged →
      s.ancestorMissing txn block = true →
        staged.base.getD [] = [] ∨ staged.mergeProof = .appendOnly 0 := by
  unfold basesUnused
  rw [List.all_eq_true]
  constructor
  · intro h block staged hst hmiss
    simpa [hmiss] using h (block, staged) ((OrdMap.mem_entries _).mpr hst)
  · rintro h ⟨block, staged⟩ he
    have := h block staged ((OrdMap.mem_entries _).mp he)
    cases hmiss : s.ancestorMissing txn block <;> simp_all

theorem resolvedWriteBytes_of_mem {s : MvccStore} {txn : Transaction} {ws : List (Nat × Bytes)}
    (h : s.resolvedWritesForCommit txn = .ok ws) {block : Nat} (hb : block ∈ txn.writeSet) :
    ∃ bytes, s.resolvedWriteBytes txn block = .ok bytes := by
  obtain ⟨w, hw⟩ := exists_of_mapM_ok h hb
  cases hr : s.resolvedWriteBytes txn block with
  | error e => rw [hr] at hw; cases hw
  | ok bytes => exact ⟨bytes, rfl⟩

theorem versionBytes_of_resolved {s : MvccStore} {txn : Transaction} {ws : List (Nat × Bytes)}
    (h : s.resolvedWritesForCommit txn = .ok ws) (hbase : s.basesUnused txn = true) :
    s.versionBytes txn = .ok ws := by
  refine mapM_ok_of_map Prod.fst (fun e he w hw => ?_) h
  have hst := (OrdMap.mem_entries _).mp he
  cases hr : s.resolvedWriteBytes txn e.1 with
  | error err => rw [hr] at hw; cases hw
  | ok bytes =>
    rw [hr] at hw
    cases hw
    obtain ⟨m, hm, hbytes⟩ := (mergedWrite_iff hst hr).2 (basesUnused_iff.mp hbase _ _ hst)
    rw [hm, Except.map, hbytes]

theorem basesUnused_of_versionBytes {s : MvccStore} {txn : Transaction} {ws ws' : List (Nat × Bytes)}
    (h : s.resolvedWritesForCommit txn = .ok ws) (hv : s.versionBytes txn = .ok ws') :
    s.basesUnused txn = true := by
  rw [basesUnused_iff]
  intro block staged hst
  obtain ⟨bytes, hr⟩ := resolvedWriteBytes_of_mem h
    ((OrdMap.mem_keys _).mpr (Option.isSome_iff_exists.mpr ⟨staged, hst⟩))
  obtain ⟨w, hw⟩ := exists_of_mapM_ok hv ((OrdMap.mem_entries _).mpr hst)
  refine (mergedWrite_iff hst hr).1 ?_
  cases hm : s.mergedWrite txn block staged s.effectivePolicy with
  | error e => simp only [hm] at hw; cases hw
  | ok m => exact ⟨m, rfl⟩

theorem SameData.basesUnused {s s' : MvccStore} (h : SameData s s') (txn : Transaction) :
    s'.basesUnused txn = s.basesUnused txn := by
  unfold MvccStore.basesUnused ancestorMissing
  simp only [h.latestCommitSeq, h.versionBytesAt]

theorem preflightFcw_id {s s' : MvccStore} {txn : Transaction}
    (h : s.preflightFcw txn = (s', .ok ())) : validateTransactionId txn.id = .ok () := by
  unfold preflightFcw at h
  split at h
  · simp at h
  · assumption

/-- **The journal and the store agree** exactly where no merge takes a recorded base for its
ancestor. -/
theorem journaled_iff [Platform.Lossless] (s s' : MvccStore) (txn : Transaction)
    (ws : List (Nat × Bytes)) (hpre : s.preflightCommitFcw txn = (s', .ok ()))
    (hres : s'.resolvedWritesForCommit txn = .ok ws) :
    (s'.nextCommit + 1 ≤ u64Max → s'.Installs txn ws) ↔
      (s.nextCommit + 1 ≤ u64Max → s.basesUnused txn = true) := by
  have hsame := preflightFcw_sameData s txn
  rw [show s.preflightFcw txn = (s', .ok ()) from hpre] at hsame
  rw [← hsame.nextCommit, ← hsame.basesUnused txn]
  refine forall_congr' fun hseq => ⟨?_, fun hbase => ?_⟩
  · rintro ⟨s₂, c, hcommit, -⟩
    obtain ⟨ws', hws', -⟩ := applyFcwCommit_ok hcommit
    exact basesUnused_of_versionBytes hres hws'
  · obtain ⟨s₂, hcommit, hi⟩ := applyFcwCommit_of_versionBytes (preflightFcw_id hpre)
      (versionBytes_of_resolved hres hbase) hseq
    refine ⟨s₂, s'.nextCommit, hcommit, fun w hw => ?_⟩
    have hnd : (ws.map Prod.fst).Nodup := hi.keys ▸ txn.stagedWrites.keys_nodup
    have hl : ws.lookup w.1 = some w.2 := lookup_of_mem hnd hw
    exact ⟨hi.latest w.1 w.2 hl, hi.newest w.1 w.2 hl⟩

end MvccStore

end Paths

/-! ## Two writers of one block -/

section Examples

local instance journaledPlatform : Platform := exactPlatform

def contended (ancestor : Bool) : MvccStore :=
  let s := MvccStore.new default .safeMerge exactConfig
  let s := if ancestor then (s.commit ((Transaction.new 1 ⟨0⟩).stageWrite 5 [0, 0])).1 else s
  (s.commit ((Transaction.new 2 s.currentSnapshot).stageWrite 5 [1, 0])).1

def secondWriter (high : Nat) : Transaction :=
  (Transaction.new 3 ⟨high⟩).stageWriteWithProofAndBase 5 [0, 2] (.independentKeys [⟨1, 1⟩])
    (some [0, 0])

theorem journaled_iff_ancestor :
    ∃ s', (contended true).preflightCommitFcw (secondWriter 1) = (s', .ok ()) ∧
      s'.resolvedWritesForCommit (secondWriter 1) = .ok [(5, [1, 2])] ∧
      s'.Installs (secondWriter 1) [(5, [1, 2])] := by
  have hpre : ((contended true).preflightCommitFcw (secondWriter 1)).2 = .ok () := rfl
  have hres : ((contended true).preflightCommitFcw (secondWriter 1)).1.resolvedWritesForCommit
      (secondWriter 1) = .ok [(5, [1, 2])] := rfl
  refine ⟨_, Prod.ext rfl hpre, hres, ?_⟩
  exact (MvccStore.journaled_iff (contended true) _ (secondWriter 1) _ (Prod.ext rfl hpre) hres).mpr
    (fun _ => by decide) (by decide)

/-- With no version at the snapshot the journal gets `[1, 2]` and the install fails. -/
theorem journaled_recorded_base :
    ∃ s', (contended false).preflightCommitFcw (secondWriter 0) = (s', .ok ()) ∧
      s'.resolvedWritesForCommit (secondWriter 0) = .ok [(5, [1, 2])] ∧
      s'.nextCommit + 1 ≤ u64Max ∧ ¬ s'.Installs (secondWriter 0) [(5, [1, 2])] := by
  refine ⟨((contended false).preflightCommitFcw (secondWriter 0)).1, Prod.ext rfl rfl, rfl,
    by decide, ?_⟩
  rintro ⟨s₂, c, hcommit, -⟩
  have herr : (((contended false).preflightCommitFcw (secondWriter 0)).1.commitFcwPrechecked
      (secondWriter 0)).2 = .error (.error (.conflict 5 0 1)) := rfl
  rw [hcommit] at herr
  simp at herr

end Examples

end FrankenFs.Mvcc
