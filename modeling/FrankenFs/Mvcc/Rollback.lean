import FrankenFs.Mvcc.StoreRuns

/-!
# A commit that the log refuses

`commit_internal` pops the versions that the commit pushed, but does not bring back what the commit
trimmed under the chain cap.
-/

open FrankenFs.Lib

namespace FrankenFs.Mvcc

/-! ## Physical reads -/

theorem newestVisible_asOf {α β : Type} {l : List α} {seq : α → Nat}
    (hs : l.Pairwise fun a b => seq a < seq b) (f : α → β) (s : Nat) :
    ((newestVisibleIndexBy l s seq).bind fun i => l[i]?.map f) =
      asOf (l.map fun v => (seq v, f v)) s := by
  have hs' : (l.map fun v => (seq v, f v)).Pairwise fun a b => a.1 < b.1 := List.pairwise_map.mpr hs
  rcases newestVisibleIndexBy_cases hs s with ⟨hidx, hall⟩ | ⟨i, v, hidx, hv, hle, hafter⟩
  · rw [hidx, Option.bind_none, eq_comm, asOf_eq_none]
    intro e he
    obtain ⟨v, hv, rfl⟩ := List.mem_map.mp he
    exact hall v hv
  · rw [hidx, Option.bind_some, hv, Option.map_some, eq_comm, asOf_eq_some hs']
    refine ⟨seq v, List.mem_map_of_mem (List.mem_of_getElem? hv), hle, fun e he hes => ?_⟩
    obtain ⟨w, hw, rfl⟩ := List.mem_map.mp he
    obtain ⟨j, hj⟩ := List.getElem?_of_mem hw
    rcases Nat.lt_trichotomy j i with hlt | rfl | hlt
    · obtain ⟨hjl, rfl⟩ := List.getElem?_eq_some_iff.mp hj
      obtain ⟨hil, rfl⟩ := List.getElem?_eq_some_iff.mp hv
      exact le_of_lt (List.pairwise_iff_getElem.mp hs j i hjl hil hlt)
    · rw [Option.some.inj (hj.symm.trans hv)]
    · have := hafter j w hlt hj
      simp only at hes
      omega

section Rollback

variable [Platform]

namespace MvccStore

def physicalEntries (s : MvccStore) (logical : Nat) : List (Nat × Nat) :=
  (s.physicalChain logical).map fun v => (v.commitSeq, v.physical)

theorem readVisiblePhysical_eq {s : MvccStore} {l : Nat}
    (hs : (s.physicalChain l).Pairwise fun a b => a.commitSeq < b.commitSeq) (x : Nat) :
    s.readVisiblePhysical l ⟨x⟩ =
      (asOf (s.physicalEntries l) x).or ((s.readVisible l ⟨x⟩).map fun _ => l) := by
  have hphys : ((s.physicalVersions.get? l).bind fun versions =>
      (newestVisibleIndexBy versions x PhysicalBlockVersion.commitSeq).bind fun idx =>
        versions[idx]?.map PhysicalBlockVersion.physical) = asOf (s.physicalEntries l) x := by
    rw [physicalEntries, ← newestVisible_asOf hs]
    unfold physicalChain
    cases s.physicalVersions.get? l <;> rfl
  unfold readVisiblePhysical
  rw [← hphys]

/-! ## What the trim leaves -/

/-- A snapshot that must not notice: the current one, or one that is registered. -/
def Watched (s : MvccStore) (x : Nat) : Prop :=
  x = s.currentSnapshot.high ∨ (s.activeSnapshots.get? x).isSome

def ReadsAlike (s s' : MvccStore) : Prop :=
  ∀ x, s.Watched x → ∀ b, s'.readVisible b ⟨x⟩ = s.readVisible b ⟨x⟩ ∧
    s'.readVisiblePhysical b ⟨x⟩ = s.readVisiblePhysical b ⟨x⟩

/-- A reader at `x` that sees some of the sequences still does after the trim. -/
def Keeps (s : MvccStore) (txn : Transaction) (seqs pushed : List Nat) (x : Nat) : Prop :=
  0 < seqs.countP (· ≤ x) → s.trims txn seqs pushed < seqs.countP (· ≤ x)

/-- A commit of the transaction leaves block `l` a version for the reader at `x`, and a copy if
there is one. A lost copy does not matter where it was at the block's own place. -/
structure Retains (s : MvccStore) (txn : Transaction) (l x : Nat) : Prop where
  version : s.Keeps txn ((s.chain l).map BlockVersion.commitSeq) [s.nextCommit] x
  copy : s.Keeps txn ((s.physicalChain l).map PhysicalBlockVersion.commitSeq)
      ((stagedCopy txn s.nextCommit l).map PhysicalBlockVersion.commitSeq) x ∨
    s.readVisiblePhysical l ⟨x⟩ = some l ∧ (s.readVisible l ⟨x⟩).isSome

variable {s s' : MvccStore} {txn : Transaction} {useSsi : Bool} {c : Nat}

theorem Sound.version_rolledBack (h : s.Sound)
    (hcommit : (if useSsi then s.commitSsi txn else s.commit txn) = (s', .ok c)) {l : Nat}
    (hl : l ∈ txn.writeSet) (x : Nat) :
    (s'.rollbackInMemoryCommit txn c useSsi).readVisible l ⟨x⟩ = s.readVisible l ⟨x⟩ ↔
      s.Keeps txn ((s.chain l).map BlockVersion.commitSeq) [s.nextCommit] x := by
  obtain ⟨-, hget⟩ := rollback_versions hcommit hl (h.chain l).ascending
    (fun v hv => ((h.chain l).version v hv).2.2.1) rfl
  obtain ⟨es, hes, hasc⟩ := (h.chain l).entries
  unfold Keeps
  generalize s.trims txn ((s.chain l).map BlockVersion.commitSeq) [s.nextCommit] = k at hget ⊢
  have hrolled : (s'.rollbackInMemoryCommit txn c useSsi).chain l = dropPrefix (s.chain l) k := by
    rw [MvccStore.chain, hget]
    cases hd : dropPrefix (s.chain l) k <;> rfl
  have hread : (s'.rollbackInMemoryCommit txn c useSsi).readVisible l ⟨x⟩ = asOf (es.drop k) x := by
    rw [readVisible_eq, hrolled]
    exact (hes.dropPrefix k).read (hasc.sublist (List.drop_sublist _ _)) x
  have hseqs : (es.map Prod.fst).Pairwise (· < ·) := List.pairwise_map.mpr hasc
  have hold := asOf_drop_isSome (k := 0) (s := x) hseqs
  rw [List.drop_zero] at hold
  rw [hread, readVisible_eq, hes.read hasc, asOf_drop_eq, asOf_drop_isSome hseqs, hold, hes.seqs]

theorem Sound.copy_rolledBack (h : s.Sound)
    (hcommit : (if useSsi then s.commitSsi txn else s.commit txn) = (s', .ok c)) {l : Nat}
    (hl : l ∈ txn.writeSet) {x : Nat}
    (hread : (s'.rollbackInMemoryCommit txn c useSsi).readVisible l ⟨x⟩ = s.readVisible l ⟨x⟩) :
    (s'.rollbackInMemoryCommit txn c useSsi).readVisiblePhysical l ⟨x⟩ =
        s.readVisiblePhysical l ⟨x⟩ ↔
      (s.Keeps txn ((s.physicalChain l).map PhysicalBlockVersion.commitSeq)
          ((stagedCopy txn s.nextCommit l).map PhysicalBlockVersion.commitSeq) x ∨
        s.readVisiblePhysical l ⟨x⟩ = some l ∧ (s.readVisible l ⟨x⟩).isSome) := by
  have hrolled := rollback_physical hcommit hl (h.physical l)
  unfold Keeps
  generalize s.trims txn ((s.physicalChain l).map PhysicalBlockVersion.commitSeq)
    ((stagedCopy txn s.nextCommit l).map PhysicalBlockVersion.commitSeq) = k at hrolled ⊢
  have hentries : (s'.rollbackInMemoryCommit txn c useSsi).physicalEntries l =
      (s.physicalEntries l).drop k := by
    rw [physicalEntries, hrolled, List.map_drop]
    rfl
  have hfst : (s.physicalEntries l).map Prod.fst =
      (s.physicalChain l).map PhysicalBlockVersion.commitSeq := by
    rw [physicalEntries, List.map_map]
    rfl
  have hseqs : ((s.physicalEntries l).map Prod.fst).Pairwise (· < ·) :=
    hfst ▸ List.pairwise_map.mpr (h.physical l).1
  have hold := asOf_drop_isSome (k := 0) (s := x) hseqs
  have hkept := asOf_drop_isSome (k := k) (s := x) hseqs
  rw [List.drop_zero] at hold
  rw [readVisiblePhysical_eq (hrolled ▸ (h.physical l).1.sublist (List.drop_sublist _ _)),
    readVisiblePhysical_eq (h.physical l).1, hread, hentries, ← hfst, ← hold, ← hkept]
  have hdrop := @asOf_drop_eq _ _ _ (s.physicalEntries l) x k
  generalize asOf (s.physicalEntries l) x = old at hdrop ⊢
  generalize asOf ((s.physicalEntries l).drop k) x = kept at hdrop ⊢
  cases old with
  | none =>
    obtain rfl : kept = none := hdrop.mpr (by simp)
    simp
  | some p =>
    cases kept with
    | some q =>
      obtain rfl : q = p := by simpa using hdrop.mpr (by simp)
      simp
    | none => cases s.readVisible l ⟨x⟩ <;> simp [eq_comm]

theorem Sound.readsAlike_iff (h : s.Sound)
    (hcommit : (if useSsi then s.commitSsi txn else s.commit txn) = (s', .ok c)) :
    s.ReadsAlike (s'.rollbackInMemoryCommit txn c useSsi) ↔
      ∀ x, s.Watched x → ∀ b ∈ txn.writeSet, s.Retains txn b x := by
  refine forall_congr' fun x => forall_congr' fun _ => ⟨fun hall b hb => ?_, fun hretains b => ?_⟩
  · obtain ⟨hread, hphys⟩ := hall b
    exact ⟨(h.version_rolledBack hcommit hb x).mp hread, (h.copy_rolledBack hcommit hb hread).mp hphys⟩
  · by_cases hb : b ∈ txn.writeSet
    · have hread := (h.version_rolledBack hcommit hb x).mpr (hretains b hb).version
      exact ⟨hread, (h.copy_rolledBack hcommit hb hread).mpr (hretains b hb).copy⟩
    · have hread : (s'.rollbackInMemoryCommit txn c useSsi).readVisible b ⟨x⟩ =
          s.readVisible b ⟨x⟩ := by
        rw [readVisible, readVisible, (rollback_untouched hcommit hb).2]
      refine ⟨hread, ?_⟩
      rw [readVisiblePhysical, readVisiblePhysical, hread, rollback_physical_untouched hcommit hb]

/-! ## Without chain pressure -/

/-- No chain of the write set has the length at which the preflight advances a snapshot. -/
def Unpressed (s : MvccStore) (txn : Transaction) : Prop :=
  ∀ cap, s.compressionPolicy.maxChainLength = some cap →
    ∀ b ∈ txn.writeSet, (s.chain b).length < criticalChainLen (max cap 1)

/-- A snapshot holds the trim back, or the cap leaves room for the commit and one version before it,
or there is nothing to trim. -/
def Spares (s : MvccStore) (txn : Transaction) : Prop :=
  (∃ w, s.watermark = some w ∧ w < s.nextCommit) ∨
    (∀ cap, s.compressionPolicy.maxChainLength = some cap → 2 ≤ cap) ∨
    ∀ b ∈ txn.writeSet, s.chain b = [] ∧ (s.physicalChain b = [] ∨ txn.cowWrites.get? b = none)

theorem recordMetrics_active (s : MvccStore) (a b d : Bool) :
    (s.recordMetrics a b d).activeSnapshots = s.activeSnapshots := by
  unfold recordMetrics
  split <;> rfl

theorem preflightLoop_active {blocks : List Nat} {effective : ConflictPolicy} {a b : Bool}
    (h : ∀ cap, s.compressionPolicy.maxChainLength = some cap →
      ∀ b ∈ blocks, (s.chain b).length < criticalChainLen (max cap 1)) :
    (preflightLoop txn effective blocks s a b).1.activeSnapshots = s.activeSnapshots := by
  induction blocks generalizing a b with
  | nil => rfl
  | cons block rest ih =>
    rw [preflightLoop]
    dsimp only
    split
    · rfl
    · exact recordMetrics_active ..
    · cases hcap : s.compressionPolicy.maxChainLength with
      | none => exact ih fun cap hcap b hb => h cap hcap b (List.mem_cons_of_mem _ hb)
      | some cap =>
        have hshort : s.enforceChainPressure block cap = (s, .ok ()) :=
          if_pos (Or.inr (h cap hcap block List.mem_cons_self))
        dsimp only
        rw [hshort]
        exact ih fun cap hcap b hb => h cap hcap b (List.mem_cons_of_mem _ hb)

theorem trimBound_of_unpressed (h : s.Unpressed txn) :
    s.trimBound txn = s.watermark.getD s.nextCommit := by
  have hactive : (s.preflightFcw txn).1.activeSnapshots = s.activeSnapshots := by
    have hloop := @preflightLoop_active _ s txn txn.writeSet s.effectivePolicy false false h
    unfold preflightFcw
    split
    · rfl
    · split
      · rename_i heq
        rw [heq] at hloop
        exact hloop
      · rename_i heq
        rw [heq] at hloop
        exact (recordMetrics_active ..).trans hloop
  rw [trimBound, watermark, watermark, hactive]

theorem keeps_of_bound {seqs : List Nat} {x : Nat} (hx : s.trimBound txn ≤ x)
    (hlt : s.trimBound txn < s.nextCommit) (k : Nat) :
    s.Keeps txn seqs (List.replicate k s.nextCommit) x := by
  intro hpos
  have hmono : seqs.countP (· ≤ s.trimBound txn) ≤ seqs.countP (· ≤ x) :=
    List.countP_mono_left fun n _ hn => by simp only [decide_eq_true_eq] at hn ⊢; omega
  unfold trims trimmed
  cases s.compressionPolicy.maxChainLength with
  | none => exact hpos
  | some cap =>
    rw [Option.elim_some, List.countP_append, List.countP_replicate, if_neg (by simpa using hlt)]
    omega

theorem trims_of_bound {seqs : List Nat} (hbound : s.nextCommit ≤ s.trimBound txn)
    (hseqs : ∀ n ∈ seqs, n < s.nextCommit) (k : Nat) :
    s.trims txn seqs (List.replicate k s.nextCommit) =
      s.compressionPolicy.maxChainLength.elim 0 fun cap => seqs.length + k - max cap 1 := by
  have hall : seqs.countP (· ≤ s.trimBound txn) = seqs.length :=
    List.countP_eq_length.mpr fun n hn => decide_eq_true ((hseqs n hn).le.trans hbound)
  unfold trims trimmed
  cases s.compressionPolicy.maxChainLength with
  | none => rfl
  | some cap =>
    rw [Option.elim_some, Option.elim_some, List.countP_append, hall, List.countP_replicate,
      if_pos (by simpa using hbound), List.length_append, List.length_replicate]
    omega

omit [Platform] in
theorem stagedCopy_seqs (txn : Transaction) (c b : Nat) :
    (stagedCopy txn c b).map PhysicalBlockVersion.commitSeq =
      List.replicate (if (txn.cowWrites.get? b).isSome then 1 else 0) c := by
  unfold stagedCopy
  cases txn.cowWrites.get? b <;> rfl

theorem retains_of_watermark {w : Nat} (hw : s.watermark = some w) (hlt : w < s.nextCommit)
    (hfree : s.Unpressed txn) {x : Nat} (hx : s.Watched x) (b : Nat) : s.Retains txn b x := by
  have hbound := trimBound_of_unpressed hfree
  rw [hw, Option.getD_some] at hbound
  rw [← hbound] at hlt
  have hle : s.trimBound txn ≤ x := by
    rw [hbound]
    rcases hx with rfl | hx
    · exact Nat.le_sub_one_of_lt (hbound ▸ hlt)
    · exact s.activeSnapshots.minKey?_le hw hx
  refine ⟨keeps_of_bound hle hlt 1, Or.inl ?_⟩
  rw [stagedCopy_seqs]
  exact keeps_of_bound hle hlt _

theorem Sound.version_lt (h : s.Sound) (b : Nat) :
    ∀ n ∈ (s.chain b).map BlockVersion.commitSeq, n < s.nextCommit :=
  List.forall_mem_map.mpr fun v hv => ((h.chain b).version v hv).2.2.1

theorem Sound.copy_lt (h : s.Sound) (b : Nat) :
    ∀ n ∈ (s.physicalChain b).map PhysicalBlockVersion.commitSeq, n < s.nextCommit :=
  List.forall_mem_map.mpr (h.physical b).2

section Unheld

variable (hheld : ∀ w, s.watermark = some w → s.nextCommit ≤ w) (hfree : s.Unpressed txn)

include hheld

theorem countP_watched {x : Nat} (hx : s.Watched x) {seqs : List Nat}
    (hseqs : ∀ n ∈ seqs, n < s.nextCommit) : seqs.countP (· ≤ x) = seqs.length := by
  refine List.countP_eq_length.mpr fun n hn => decide_eq_true ?_
  have hn := hseqs n hn
  rcases hx with rfl | hx
  · exact Nat.le_sub_one_of_lt hn
  · cases hw : s.watermark with
    | none =>
      rw [(s.activeSnapshots.minKey?_eq_none).mp hw] at hx
      cases hx
    | some w =>
      have hle := s.activeSnapshots.minKey?_le hw hx
      have hge := hheld w hw
      omega

include hfree

theorem keeps_iff {x : Nat} (hx : s.Watched x) {seqs : List Nat}
    (hseqs : ∀ n ∈ seqs, n < s.nextCommit) (k : Nat) :
    s.Keeps txn seqs (List.replicate k s.nextCommit) x ↔ (0 < seqs.length →
      s.compressionPolicy.maxChainLength.elim 0 (fun cap => seqs.length + k - max cap 1) <
        seqs.length) := by
  have hbound : s.nextCommit ≤ s.trimBound txn := by
    rw [trimBound_of_unpressed hfree]
    cases hw : s.watermark with
    | none => exact le_rfl
    | some w => exact hheld w hw
  rw [Keeps, countP_watched hheld hx hseqs, trims_of_bound hbound hseqs]

theorem keeps_of_room (hcap : ∀ cap, s.compressionPolicy.maxChainLength = some cap → 2 ≤ cap)
    {x : Nat} (hx : s.Watched x) {seqs : List Nat} (hseqs : ∀ n ∈ seqs, n < s.nextCommit) {k : Nat}
    (hk : k ≤ 1) : s.Keeps txn seqs (List.replicate k s.nextCommit) x := by
  rw [keeps_iff hheld hfree hx hseqs]
  intro hpos
  cases hmax : s.compressionPolicy.maxChainLength with
  | none => exact hpos
  | some cap =>
    have := hcap cap hmax
    rw [Option.elim_some]
    omega

theorem Sound.spares_of_retains (h : s.Sound)
    (hall : ∀ b ∈ txn.writeSet, s.Retains txn b s.currentSnapshot.high) : s.Spares txn := by
  refine Or.inr (or_iff_not_imp_left.mpr fun hcap b hb => ?_)
  push Not at hcap
  obtain ⟨cap, hcap, hlt⟩ := hcap
  obtain ⟨hversion, hcopy⟩ := hall b hb
  have hempty : s.chain b = [] := by
    have hkept := (keeps_iff hheld hfree (Or.inl rfl) (h.version_lt b) 1).mp hversion
    rw [hcap, Option.elim_some, List.length_map] at hkept
    rw [← List.length_eq_zero_iff]
    omega
  refine ⟨hempty, or_iff_not_imp_right.mpr fun hcow => ?_⟩
  have hunread : s.readVisible b s.currentSnapshot = none := by
    rw [readVisible_eq, hempty]
    rfl
  replace hcopy := hcopy.resolve_right fun hread => by rw [hunread] at hread; cases hread.2
  rw [stagedCopy_seqs, if_pos (Option.isSome_iff_ne_none.mpr hcow),
    keeps_iff hheld hfree (Or.inl rfl) (h.copy_lt b), hcap, Option.elim_some,
    List.length_map] at hcopy
  rw [← List.length_eq_zero_iff]
  omega

theorem Sound.retains_of_spares (h : s.Sound) (hspares : s.Spares txn) {x : Nat} (hx : s.Watched x)
    {b : Nat} (hb : b ∈ txn.writeSet) : s.Retains txn b x := by
  rcases hspares with ⟨w, hw, hlt⟩ | hcap | hempty
  · exact absurd (hheld w hw) (Nat.not_le.mpr hlt)
  · refine ⟨keeps_of_room hheld hfree hcap hx (h.version_lt b) (Nat.le_refl 1), Or.inl ?_⟩
    rw [stagedCopy_seqs]
    exact keeps_of_room hheld hfree hcap hx (h.copy_lt b) (by split_ifs <;> omega)
  · obtain ⟨hchain, hcopy⟩ := hempty b hb
    refine ⟨fun hpos => by simp [hchain] at hpos, Or.inl ?_⟩
    rcases hcopy with hnone | hcow
    · exact fun hpos => by simp [hnone] at hpos
    · rw [stagedCopy_seqs, hcow, keeps_iff hheld hfree hx (h.copy_lt b)]
      intro hpos
      cases s.compressionPolicy.maxChainLength with
      | none => exact hpos
      | some cap =>
        simp only [Option.elim_some, Option.isSome_none, Bool.false_eq_true, if_false]
        omega

end Unheld

theorem Sound.retains_iff_spares (h : s.Sound) (hfree : s.Unpressed txn) :
    (∀ x, s.Watched x → ∀ b ∈ txn.writeSet, s.Retains txn b x) ↔ s.Spares txn := by
  by_cases hheld : ∃ w, s.watermark = some w ∧ w < s.nextCommit
  · refine ⟨fun _ => Or.inl hheld, fun _ x hx b _ => ?_⟩
    obtain ⟨w, hw, hlt⟩ := hheld
    exact retains_of_watermark hw hlt hfree hx b
  · have hheld : ∀ w, s.watermark = some w → s.nextCommit ≤ w :=
      fun w hw => Nat.le_of_not_lt fun hlt => hheld ⟨w, hw, hlt⟩
    exact ⟨fun hall => h.spares_of_retains hheld hfree (hall _ (Or.inl rfl)),
      fun hspares x hx b hb => h.retains_of_spares hheld hfree hspares hx hb⟩

theorem rolledBack_control
    (hcommit : (if useSsi then s.commitSsi txn else s.commit txn) = (s', .ok c)) :
    (s'.rollbackInMemoryCommit txn c useSsi).nextCommit = s.nextCommit ∧
      (s'.rollbackInMemoryCommit txn c useSsi).ssiLog = s.ssiLog := by
  obtain ⟨sp, ws, -, -, -, rfl, -, rfl⟩ := commitWith_eq hcommit
  refine ⟨rfl, ?_⟩
  cases useSsi with
  | false => rfl
  | true => simp [rollbackInMemoryCommit, ssiRecord]

/-- **A failed append leaves no trace** for the snapshots that are watched exactly where the trim
of the commit leaves each of them a version of every block it writes. Without chain pressure that
is a matter of the cap and of a registered snapshot. The sequence and the log of the
serializability check always come back. -/
theorem rollback_restores [Checksum] [Platform.Lossless] {p : PersistentMvccStore}
    (hp : p.store.Reachable)
    (hcommit : (if useSsi then p.store.commitSsi txn else p.store.commit txn) = (s', .ok c)) :
    (∀ writes e, p.wal.ensureReady = .ok () → p.store.resolvedWritesForCommit txn = .ok writes →
      p.wal.appendCommit ⟨c, txn.id, writes⟩ = .error e →
      (p.commitInternal txn useSsi).1 =
        { p with store := s'.rollbackInMemoryCommit txn c useSsi }) ∧
    (s'.rollbackInMemoryCommit txn c useSsi).nextCommit = p.store.nextCommit ∧
    (s'.rollbackInMemoryCommit txn c useSsi).ssiLog = p.store.ssiLog ∧
    (p.store.ReadsAlike (s'.rollbackInMemoryCommit txn c useSsi) ↔
      ∀ x, p.store.Watched x → ∀ b ∈ txn.writeSet, p.store.Retains txn b x) ∧
    (p.store.Unpressed txn →
      (p.store.ReadsAlike (s'.rollbackInMemoryCommit txn c useSsi) ↔ p.store.Spares txn)) := by
  have hreads := hp.sound.readsAlike_iff hcommit
  refine ⟨fun writes e hready hwrites hfail => ?_, (rolledBack_control hcommit).1,
    (rolledBack_control hcommit).2, hreads, fun hfree => hreads.trans
      (hp.sound.retains_iff_spares hfree)⟩
  rw [PersistentMvccStore.commitInternal, hready]
  simp only [hwrites, hcommit, hfail]

end MvccStore

end Rollback

section Sample

local instance rollbackPlatform : Platform := exactPlatform
local instance rollbackChecksum : Checksum := ⟨fun _ => 0⟩

def numbersSeven (id : Nat) (h : id ≤ u64Max) : U64Transaction :=
  ⟨(Transaction.new id ⟨id - 1⟩).stageWrite 7 [BitVec.ofNat 8 id], h, by
    intro b hb
    obtain rfl : b = 7 := List.mem_singleton.mp hb
    decide⟩

/-- A store with one version of block 7, a second transaction that began, and a log that takes
no more records. -/
def fullLog (maxChainLength : Option Nat) : PersistentMvccStore where
  store := ((MvccStore.new ⟨true, maxChainLength, .none⟩ .strict exactConfig).begin.1.commit
    (numbersSeven 1 one_le_u64Max).1).1.begin.1
  wal := ⟨encodeHeader default, headerSize, headerSize, ⟨.immediate, headerSize⟩, 0, 1, none⟩
  stats := default
  recoveryReport := default

theorem fullLog_reachable (maxChainLength : Option Nat) : (fullLog maxChainLength).store.Reachable := by
  refine .begin (.commit (s := MvccStore.begin _ |>.1) (numbersSeven 1 (by decide)) false
    (Or.inl (show 1 < 2 by decide)) (.begin (.new ⟨true, maxChainLength, .none⟩ .strict exactConfig)))

theorem rollback_restores_capTwo :
    let p := fullLog (some 2)
    let txn := (numbersSeven 2 (by decide)).1
    (p.commitInternal txn false).1.store.nextCommit = p.store.nextCommit ∧
      p.store.ReadsAlike (p.commitInternal txn false).1.store := by
  intro p txn
  have hcommit : (if false = true then p.store.commitSsi txn else p.store.commit txn) =
      ((p.store.commit txn).1, .ok 2) := rfl
  obtain ⟨hfail, hnext, -, -, hreads⟩ :=
    MvccStore.rollback_restores (fullLog_reachable (some 2)) hcommit
  have hstore := congrArg PersistentMvccStore.store (hfail [(7, [2])] _ rfl rfl rfl)
  rw [hstore]
  refine ⟨hnext, (hreads ?_).mpr (Or.inr (Or.inl ?_))⟩
  · rintro cap ⟨rfl⟩ b hb
    obtain rfl : b = 7 := List.mem_singleton.mp hb
    decide
  · rintro cap ⟨rfl⟩
    exact le_rfl

/-- **With a cap of one the failed commit takes the version before it along.** -/
theorem rollback_loses_capOne :
    (fullLog (some 1)).store.Reachable ∧ (fullLog (some 1)).store.Watched 1 ∧
      (fullLog (some 1)).store.readVisible 7 ⟨1⟩ = some [1] ∧
      (∃ e, ((fullLog (some 1)).commitInternal (numbersSeven 2 (by decide)).1 false).2 = .error e) ∧
      ((fullLog (some 1)).commitInternal (numbersSeven 2 (by decide)).1 false).1.store.readVisible 7
        ⟨1⟩ = none :=
  ⟨fullLog_reachable _, Or.inl rfl, by decide, ⟨_, rfl⟩, by decide⟩

end Sample

end FrankenFs.Mvcc
