import FrankenFs.Mvcc.Persist

/-!
# Crash recovery

A crash may leave the front of one more record behind the synced log. The store opened on it is
compared with the store that crashed, and with the log of all acknowledged commits.
-/

open FrankenFs.Lib

namespace FrankenFs.Mvcc

/-! ## Trims seen from the newest sequence -/

variable {w : Nat} {es post : Entries}

theorem Trimmed.of_le {c : Nat} (h : Trimmed w es post) (hc : ∀ e ∈ es, e.1 ≤ c) :
    Trimmed c es post := by
  obtain ⟨pre, rfl, hpre⟩ := h
  refine ⟨pre, rfl, hpre.imp_right ?_⟩
  rintro ⟨e, he, -⟩
  exact ⟨e, he, hc e (List.mem_append_right _ (List.mem_of_mem_head? he))⟩

theorem Trimmed.suffix (h : Trimmed w es post) : post <:+ es := by
  obtain ⟨pre, rfl, -⟩ := h
  exact List.suffix_append pre post

theorem Trimmed.ascending (h : Trimmed w es post) (hes : Ascending es) : Ascending post :=
  hes.sublist h.suffix.sublist

theorem Trimmed.mem_of_lt (h : Trimmed w es post) (hes : Ascending es) {e : Nat × Bytes}
    (he : e ∈ es) (hw : w < e.1) : e ∈ post := by
  obtain ⟨pre, rfl, rfl | ⟨e', he', hle⟩⟩ := h
  · exact he
  · rcases List.mem_append.mp he with hpre | hpost
    · have := (List.pairwise_append.mp hes).2.2 e hpre e' (List.mem_of_mem_head? he')
      omega
    · exact hpost

section Recovery

variable [Platform]

/-! ## Replaying one commit -/

namespace MvccStore

theorem replayData_eq (s : MvccStore) (block : Nat) (bytes : Bytes) :
    (if s.compressionPolicy.dedupIdentical then s.maybeDedup block bytes
      else s.compressData bytes) = s.versionDataFor block bytes := by
  have hplain : s.compressionPolicy.algo = .none → s.compressData bytes = .full bytes := by
    intro h
    rw [compressData, h]
  unfold maybeDedup versionDataFor
  cases s.compressionPolicy.dedupIdentical <;> cases s.isIdenticalToLatest block bytes <;>
    simp +contextual [hplain]

theorem replayWrite_versions (commit : WalCommit) (s : MvccStore) (w : Nat × Bytes) (b : Nat) :
    (replayWrite commit s.compressionPolicy.dedupIdentical s w).versions.get? b =
      if b = w.1 then
        some (s.chain b ++ [⟨b, commit.commitSeq, commit.txnId, s.versionDataFor b w.2⟩])
      else s.versions.get? b := by
  simp only [replayWrite, pushVersion, OrdMap.get?_alter, replayData_eq]
  split_ifs with hb
  · subst hb
    rfl
  · rfl

theorem replayWrites_versions (commit : WalCommit) (ws : List (Nat × Bytes))
    (hnd : (ws.map Prod.fst).Nodup) (s : MvccStore) (b : Nat) :
    (ws.foldl (replayWrite commit s.compressionPolicy.dedupIdentical) s).versions.get? b =
      match ws.lookup b with
      | some bytes =>
        some (s.chain b ++ [⟨b, commit.commitSeq, commit.txnId, s.versionDataFor b bytes⟩])
      | none => s.versions.get? b := by
  induction ws generalizing s with
  | nil => rfl
  | cons w ws ih =>
    rw [List.map_cons, List.nodup_cons] at hnd
    have hstep := replayWrite_versions commit s w
    have hrest := ih hnd.2 (replayWrite commit s.compressionPolicy.dedupIdentical s w)
    rw [List.foldl_cons, List.lookup_cons]
    refine hrest.trans ?_
    by_cases hb : b = w.1
    · have hnone : ws.lookup b = none := by
        rw [List.lookup_eq_none_iff]
        intro e he
        simp only [bne_iff_ne, hb]
        intro heq
        exact hnd.1 (heq ▸ List.mem_map.mpr ⟨e, he, rfl⟩)
      rw [hnone, beq_iff_eq.mpr hb]
      simp only [hstep, if_pos hb]
    · rw [beq_eq_false_iff_ne.mpr hb]
      have hsame := (hstep b).trans (if_neg hb)
      simp only [MvccStore.chain, hsame, versionDataFor_congr hsame rfl]

theorem replayWrites_nextCommit (commit : WalCommit) (dedup : Bool) (ws : List (Nat × Bytes))
    (s : MvccStore) : (ws.foldl (replayWrite commit dedup) s).nextCommit = s.nextCommit := by
  induction ws generalizing s with
  | nil => rfl
  | cons w ws ih => exact ih _

theorem applyWalCommit_nextCommit (s : MvccStore) (commit : WalCommit) :
    (s.applyWalCommit commit).nextCommit =
      if s.nextCommit ≤ commit.commitSeq then u64SaturatingAdd commit.commitSeq 1
      else s.nextCommit :=
  replayWrites_nextCommit commit _ _ _

theorem applyWalCommit_stores [Platform.Lossless] {s : MvccStore} (commit : WalCommit) {b : Nat}
    {es : Entries} (hnd : (commit.writes.map Prod.fst).Nodup) (hst : Stores (s.chain b) es) :
    Stores ((s.applyWalCommit commit).chain b)
      (es ++ ((commit.writes.lookup b).map (Prod.mk commit.commitSeq)).toList) := by
  have hv : (s.applyWalCommit commit).versions.get? b =
      match commit.writes.lookup b with
      | some bytes =>
        some (s.chain b ++ [⟨b, commit.commitSeq, commit.txnId, s.versionDataFor b bytes⟩])
      | none => s.versions.get? b := replayWrites_versions commit commit.writes hnd _ b
  rw [MvccStore.chain, hv]
  cases commit.writes.lookup b with
  | none =>
    rw [Option.map_none, Option.toList_none, List.append_nil]
    exact hst
  | some bytes => exact hst.push (s.versionDataFor_encodes b bytes)

/-! ## The log gets what memory gets -/

theorem resolvedWritesForCommit_eq {s sp : MvccStore} (hsame : SameData s sp)
    (hpol : s.conflictPolicy = .safeMerge) {txn : Transaction} {ws ws' : List (Nat × Bytes)}
    (hres : s.resolvedWritesForCommit txn = .ok ws') (hws : sp.versionBytes txn = .ok ws) :
    ws' = ws := by
  have heff : sp.effectivePolicy = s.effectivePolicy := by
    unfold effectivePolicy
    rw [hsame.conflictPolicy, hpol]
  have hres' : sp.resolvedWritesForCommit txn = .ok ws' := by
    rw [← hres]
    unfold resolvedWritesForCommit resolvedWriteBytes resolvedWriteBytesWithPolicy mergeBase
      mergeLatest conflictOn
    simp only [heff, hsame.latestCommitSeq, hsame.versionBytesAt]
  have hboth := versionBytes_of_resolved hres' (basesUnused_of_versionBytes hres' hws)
  exact Except.ok.inj (hboth.symm.trans hws)

end MvccStore

/-! ## The system -/

abbrev U64Transaction :=
  { txn : Transaction // txn.id ≤ u64Max ∧ ∀ b ∈ txn.writeSet, b ≤ u64Max }

/-- The open store, the checkpoint file that was published last, and the log of all commits
that were acknowledged. -/
structure Durable where
  mem : PersistentMvccStore
  checkpointFile : Option Bytes
  log : CommitLog

namespace Durable

def horizon (x : Durable) : Nat := x.mem.stats.checkpointCommitSeq

structure Recovered (x : Durable) (r : MvccStore) : Prop where
  /-- The next sequence is one past the last commit. -/
  nextCommit : r.nextCommit = (x.log.getLast?.map Prod.fst).getD 0 + 1
  /-- Reads agree wherever the store that crashed still had the version. -/
  reads : ∀ b s, (x.mem.readVisible b ⟨s⟩).isSome ∨ x.log.read b s = none →
    r.readVisible b ⟨s⟩ = x.mem.readVisible b ⟨s⟩
  /-- From the checkpoint on the whole history is there. -/
  history : ∀ b s, x.horizon ≤ s → r.readVisible b ⟨s⟩ = x.log.read b s
  /-- No version but those of acknowledged commits, each once and in order. -/
  only : ∀ b, (r.chain b).map BlockVersion.commitSeq <:+ (x.log.history b).map Prod.fst
  /-- Every commit above the checkpoint. -/
  all : ∀ b, ∀ e ∈ x.log.history b, x.horizon < e.1 →
    e.1 ∈ (r.chain b).map BlockVersion.commitSeq

/-- A store that knows what `x` knows: its chains are the history from the checkpoint on, and
the chains of `x` are what is left of them. -/
structure Mirrors (x : Durable) (r : MvccStore) : Prop where
  nextCommit : r.nextCommit = x.mem.store.nextCommit
  chains : ∀ b, ∃ es post, Trimmed x.horizon (x.log.history b) es ∧
    Trimmed (x.mem.store.nextCommit - 1) es post ∧ Stores (r.chain b) es ∧
      Stores (x.mem.store.chain b) post

theorem Mirrors.commit [Platform.Lossless] {x x' : Durable} {r sp : MvccStore} (h : x.Mirrors r)
    {txn : Transaction} {c txnId : Nat} {ws : List (Nat × Bytes)}
    (hord : x.log.Ordered x.mem.store.nextCommit)
    (hsame : x.mem.store.SameData sp) (hi : sp.Installed x'.mem.store txn c ws)
    (hlog : x'.log = x.log ++ [(c, ws)]) (hhor : x'.horizon = x.horizon) :
    x'.Mirrors (r.applyWalCommit ⟨c, txnId, ws⟩) := by
  have hseq : c = x.mem.store.nextCommit := hi.seq.trans hsame.nextCommit
  have hnd : (ws.map Prod.fst).Nodup := hi.keys ▸ txn.stagedWrites.keys_nodup
  refine ⟨?_, fun b => ?_⟩
  · rw [MvccStore.applyWalCommit_nextCommit, hi.nextCommit, h.nextCommit, hseq, if_pos le_rfl,
      u64SaturatingAdd, Nat.min_eq_left (hseq ▸ hi.bound)]
  · obtain ⟨es, post, htrim, hpost, hr, hx⟩ := h.chains b
    have hle : ∀ e ∈ es ++ ((ws.lookup b).map (Prod.mk c)).toList, e.1 ≤ c := by
      intro e he
      rcases List.mem_append.mp he with he | he
      · have := hord.history_lt (htrim.suffix.subset he)
        omega
      · simp only [Option.mem_toList, Option.map_eq_some_iff] at he
        obtain ⟨bytes, -, rfl⟩ := he
        exact le_rfl
    have hr' := MvccStore.applyWalCommit_stores ⟨c, txnId, ws⟩ hnd hr
    rw [hlog, CommitLog.history_snoc, hhor, hi.nextCommit, Nat.add_sub_cancel]
    cases hl : ws.lookup b with
    | none =>
      simp only [hl] at hr' hle ⊢
      have hch : x'.mem.store.chain b = x.mem.store.chain b := by
        rw [← hsame.chain b]
        simp only [MvccStore.chain, hi.untouched b hl]
      refine ⟨_, post, by simpa using htrim, ?_, hr', hch ▸ hx⟩
      simpa using hpost.mono (by omega)
    | some bytes =>
      simp only [hl] at hr' hle ⊢
      obtain ⟨post', htrim', hst'⟩ := hi.stores b bytes hl post ((hsame.chain b).symm ▸ hx)
      have hsnoc : Trimmed c (es ++ [(c, bytes)]) (post ++ [(c, bytes)]) :=
        (hpost.mono (by omega)).snoc _
      refine ⟨_, post', htrim.snoc _, hsnoc.trans (htrim'.of_le fun e he => ?_), hr', hst'⟩
      exact hle e (hsnoc.suffix.subset he)

theorem Mirrors.recovered {x : Durable} {r : MvccStore} (h : x.Mirrors r)
    (hord : x.log.Ordered x.mem.store.nextCommit)
    (hlast : x.mem.store.nextCommit = (x.log.getLast?.map Prod.fst).getD 0 + 1) :
    x.Recovered r where
  nextCommit := h.nextCommit.trans hlast
  reads b s hs := by
    obtain ⟨es, post, htrim, hpost, hr, hx⟩ := h.chains b
    have hes := htrim.ascending (hord.ascending b)
    have hread : x.mem.readVisible b ⟨s⟩ = asOf post s := by
      rw [PersistentMvccStore.readVisible, MvccStore.readVisible_eq, hx.read (hpost.ascending hes)]
    rw [MvccStore.readVisible_eq, hr.read hes, hread]
    rw [hread] at hs
    obtain ⟨pre, rfl⟩ := hpost.suffix
    rcases hs with hsome | hnone
    · exact asOf_append_right (asOf_isSome.mp hsome)
    · -- No commit up to `s` wrote the block, so neither store has a version.
      have hall := asOf_eq_none.mp hnone
      rw [asOf_eq_none.mpr fun e he => hall e (htrim.suffix.subset he), asOf_eq_none.mpr fun e he =>
        hall e (htrim.suffix.subset (List.mem_append_right _ he))]
  history b s hs := by
    obtain ⟨es, post, htrim, -, hr, -⟩ := h.chains b
    rw [MvccStore.readVisible_eq, hr.read (htrim.ascending (hord.ascending b)), CommitLog.read,
      htrim.asOf hs]
  only b := by
    obtain ⟨es, post, htrim, -, hr, -⟩ := h.chains b
    rw [hr.seqs]
    exact htrim.suffix.map Prod.fst
  all b e he hlt := by
    obtain ⟨es, post, htrim, -, hr, -⟩ := h.chains b
    rw [hr.seqs]
    exact List.mem_map.mpr ⟨e, htrim.mem_of_lt (hord.ascending b) he hlt, rfl⟩

end Durable

/-! ## Runs -/

variable [Checksum]

inductive PersistOp where
  | begin
  | commit (txn : U64Transaction)
  | commitSsi (txn : U64Transaction)
  | registerSnapshot (snapshot : Snapshot)
  | releaseSnapshot (snapshot : Snapshot)
  | checkpoint
  | truncateWal

namespace Durable

def fresh (config : AdaptivePolicyConfig) (options : PersistOptions) : Option Durable :=
  match PersistentMvccStore.openWithCheckpointAndOptions config options [] none with
  | .ok mem => some ⟨mem, none, []⟩
  | .error _ => none

def commitStep (x : Durable) (txn : Transaction) (useSsi : Bool) : Option Durable :=
  match x.mem.commitInternal txn useSsi with
  | (mem, .ok commitSeq) =>
    some { x with mem := mem, log := x.log ++ [(commitSeq, x.mem.store.installedWrites txn)] }
  | (_, .error _) => none

def step (x : Durable) : PersistOp → Option Durable
  | .begin => some { x with mem := x.mem.begin.1 }
  | .commit txn => x.commitStep txn false
  | .commitSsi txn => x.commitStep txn true
  | .registerSnapshot snapshot => some { x with mem := x.mem.registerSnapshot snapshot }
  | .releaseSnapshot snapshot => some { x with mem := x.mem.releaseSnapshot snapshot }
  | .checkpoint =>
    match x.mem.checkpoint with
    | .ok (mem, file) => some { x with mem := mem, checkpointFile := some file }
    | .error _ => none
  | .truncateWal =>
    match x.mem.truncateWal with
    | (mem, .ok ()) => some { x with mem := mem }
    | (_, .error _) => none

def run (x : Durable) : List PersistOp → Option Durable
  | [] => some x
  | op :: ops => (x.step op).bind fun x' => x'.run ops

/-- The log as a crash may leave it: cut at or after its synced end, with the bytes that the
next commit had written until then. -/
def CrashImage (x : Durable) (walFile : Bytes) : Prop :=
  ∃ n, x.mem.wal.synced ≤ n ∧
    (walFile = x.mem.wal.file.take n ∨
      ∃ (txn : U64Transaction) (useSsi : Bool) (x' : Durable),
        x.commitStep txn useSsi = some x' ∧ n < x'.mem.wal.file.length ∧
          walFile = x'.mem.wal.file.take n)

/-! ## The invariant -/

/-- **The invariant of the durable store.** `loaded` is what the checkpoint gives and `records`
are the records of the log. Replaying them mirrors the store in memory. -/
structure Inv (config : AdaptivePolicyConfig) (x : Durable) (loaded : MvccStore)
    (records : List PreparedRecord) : Prop where
  ordered : x.log.Ordered x.mem.store.nextCommit
  last : x.mem.store.nextCommit = (x.log.getLast?.map Prod.fst).getD 0 + 1
  commitBound : x.mem.store.nextCommit ≤ u64Max
  txnBound : x.mem.store.nextTxn ≤ u64Max
  blockBound : ∀ b, (x.mem.store.versions.get? b).isSome → b ≤ u64Max
  policy : x.mem.store.conflictPolicy = .safeMerge
  settled : x.mem.wal.Settled
  covered : x.horizon ≤ x.mem.store.nextCommit - 1
  checkpoint : loadedStore config x.checkpointFile = .ok loaded
  loadedNext : loaded.nextCommit = x.horizon + 1
  file : x.mem.wal.file = encodeHeader default ++ encodeRecords records
  written : ∀ r ∈ records, r.Written
  ascending : (0 :: records.map fun r => r.commit.commitSeq).Pairwise (· < ·)
  below : ∀ r ∈ records, r.commit.commitSeq < x.mem.store.nextCommit
  mirrors : x.Mirrors (applyRecords MvccStore.applyWalCommit x.horizon loaded records)

/-! ## Commits -/

theorem commitInternal_ok {p p' : PersistentMvccStore} {txn : Transaction} {useSsi : Bool} {c : Nat}
    (hpol : p.store.conflictPolicy = .safeMerge)
    (h : p.commitInternal txn useSsi = (p', .ok c)) :
    ∃ sp, p.store.SameData sp ∧ sp.Installed p'.store txn c (p.store.installedWrites txn) ∧
      p.wal.appendCommit ⟨c, txn.id, p.store.installedWrites txn⟩ = .ok p'.wal ∧
      p'.stats.checkpointCommitSeq = p.stats.checkpointCommitSeq := by
  unfold PersistentMvccStore.commitInternal at h
  split at h
  · simp at h
  split at h
  · simp at h
  rename_i writes hres
  split at h
  · simp at h
  rename_i store seq hcommit
  split at h
  · simp at h
  rename_i wal happend
  simp only [Prod.mk.injEq, Except.ok.injEq] at h
  obtain ⟨rfl, rfl⟩ := h
  obtain ⟨sp, ws, hp, hsame, hws, hi⟩ := MvccStore.commitWith_ok hcommit
  have heq := MvccStore.resolvedWritesForCommit_eq hsame hpol hres hws
  have hinst := Logged.installedWrites_eq hp hws
  rw [hinst]
  exact ⟨sp, hsame, hi, heq ▸ happend, rfl⟩

theorem Inv.commit [Platform.Lossless] {config : AdaptivePolicyConfig} {x x' : Durable}
    {loaded : MvccStore} {records : List PreparedRecord} (h : Inv config x loaded records)
    {txn : Transaction} (htxn : txn.id ≤ u64Max ∧ ∀ b ∈ txn.writeSet, b ≤ u64Max) {useSsi : Bool}
    (hstep : x.commitStep txn useSsi = some x') :
    ∃ r : PreparedRecord, r.Fits ∧ x'.mem.wal.file = x.mem.wal.file ++ r.emit ∧
      Inv config x' loaded (records ++ [r]) := by
  unfold commitStep at hstep
  split at hstep
  swap
  · cases hstep
  rename_i mem c hcommit
  cases hstep
  obtain ⟨sp, hsame, hi, happend, hstats⟩ := commitInternal_ok h.policy hcommit
  obtain ⟨r, hnew, hseq, hid, hprep⟩ := WalWriter.appendCommit_ok happend
  obtain ⟨hrc, hfits⟩ := PreparedRecord.new_ok hnew
  obtain ⟨hsettled, hfile⟩ := h.settled.append hfits hprep
  have hc : c = x.mem.store.nextCommit := hi.seq.trans hsame.nextCommit
  have hpos : 0 < x.mem.store.nextCommit := by rw [h.last]; omega
  have hcov : x.horizon < c := by have := h.covered; omega
  have hrseq : r.commit.commitSeq = c := by rw [hrc]
  have hblocks : ∀ w ∈ x.mem.store.installedWrites txn, w.1 ≤ u64Max := fun w hw =>
    htxn.2 w.1 (hi.keys ▸ List.mem_map.mpr ⟨w, hw, rfl⟩)
  have hwritten : r.Written := by
    refine ⟨hfits, ?_, by rw [hrc]; exact hseq, by rw [hrc]; exact hid⟩
    rw [hrc]
    exact ⟨by have := hi.bound; simp only; omega, htxn.1, hblocks⟩
  refine ⟨r, hfits, hfile, ?_⟩
  constructor
  case ordered =>
    have hord := h.ordered
    rw [← hc] at hord
    simpa only [hi.nextCommit] using hord.snoc (x.mem.store.installedWrites txn)
  case last => simp [hi.nextCommit]
  case commitBound => simpa only [hi.nextCommit] using hi.bound
  case txnBound => simpa only [hi.nextTxn, hsame.nextTxn] using h.txnBound
  case blockBound =>
    intro b hb
    cases hl : (x.mem.store.installedWrites txn).lookup b with
    | none =>
      simp only [hi.untouched b hl, hsame.versions] at hb
      exact h.blockBound b hb
    | some bytes =>
      obtain ⟨l₁, l₂, heq, -⟩ := List.lookup_eq_some_iff.mp hl
      exact hblocks (b, bytes) (by rw [heq]; simp)
  case policy => simpa only [hi.conflictPolicy, hsame.conflictPolicy] using h.policy
  case settled => exact hsettled
  case covered =>
    simp only [horizon, hstats, hi.nextCommit]
    exact Nat.le_of_lt hcov
  case checkpoint => exact h.checkpoint
  case loadedNext => simpa only [horizon, hstats] using h.loadedNext
  case file =>
    rw [hfile, h.file, encodeRecords, encodeRecords, List.flatMap_append, List.append_assoc]
    simp
  case written =>
    intro r' hr'
    rcases List.mem_append.mp hr' with hr' | hr'
    · exact h.written r' hr'
    · rwa [List.mem_singleton.mp hr']
  case ascending =>
    rw [List.map_append, ← List.cons_append, List.pairwise_append]
    refine ⟨h.ascending, by simp, fun a ha b hb => ?_⟩
    simp only [List.map_cons, List.map_nil, List.mem_singleton] at hb
    rw [hb, hrseq, hc]
    rcases List.mem_cons.mp ha with rfl | ha
    · exact hpos
    · obtain ⟨r', hr', rfl⟩ := List.mem_map.mp ha
      exact h.below r' hr'
  case below =>
    intro r' hr'
    simp only [hi.nextCommit]
    rcases List.mem_append.mp hr' with hr' | hr'
    · have := h.below r' hr'
      omega
    · rw [List.mem_singleton.mp hr', hrseq]
      omega
  case mirrors =>
    have hhor : (horizon { x with mem := mem, log := x.log ++ [(c, x.mem.store.installedWrites txn)] }) =
        x.horizon := hstats
    rw [hhor, applyRecords_snoc _ _ _ (hrseq ▸ hcov), hrc]
    exact h.mirrors.commit h.ordered hsame hi rfl hhor

/-! ## The other calls -/

section Calls

variable {config : AdaptivePolicyConfig} {x x' : Durable} {loaded : MvccStore}
  {records : List PreparedRecord}

theorem Inv.withStore (h : Inv config x loaded records) {s : MvccStore}
    (hnext : s.nextCommit = x.mem.store.nextCommit) (htxn : s.nextTxn ≤ u64Max)
    (hversions : s.versions = x.mem.store.versions)
    (hpolicy : s.conflictPolicy = x.mem.store.conflictPolicy) :
    Inv config { x with mem := { x.mem with store := s } } loaded records :=
  { h with
    ordered := hnext ▸ h.ordered
    last := hnext ▸ h.last
    commitBound := hnext ▸ h.commitBound
    txnBound := htxn
    blockBound := by simpa only [hversions] using h.blockBound
    policy := hpolicy.trans h.policy
    covered := by simpa only [horizon, hnext] using h.covered
    below := hnext ▸ h.below
    mirrors :=
      { nextCommit := h.mirrors.nextCommit.trans hnext.symm
        chains := by simpa only [horizon, hnext, MvccStore.chain, hversions] using h.mirrors.chains } }

theorem Inv.checkpointed (h : Inv config x loaded records) {mem : PersistentMvccStore} {file : Bytes}
    (hc : x.mem.checkpoint = .ok (mem, file)) :
    ∃ loaded', Inv config { x with mem := mem, checkpointFile := some file } loaded' records := by
  rw [PersistentMvccStore.checkpoint] at hc
  obtain ⟨⟨⟩, -, hc⟩ := bind_ok.mp hc
  obtain ⟨bytes, hw, hc⟩ := bind_ok.mp hc
  cases hc
  have hpos : 0 < x.mem.store.nextCommit := by rw [h.last]; omega
  -- The checkpoint has what is left of every history.
  choose es post htrim hpost _ hx using h.mirrors.chains
  obtain ⟨loaded', hload, hnext, hst⟩ := MvccStore.loadCheckpoint_written
    (MvccStore.new default .safeMerge config) hw hx h.blockBound h.txnBound h.commitBound
    (fun _ => rfl) hpos
  have hskip : ∀ r ∈ records, r.commit.commitSeq ≤ x.mem.store.nextCommit - 1 := by
    intro r hr
    have := h.below r hr
    omega
  refine ⟨loaded', { h with
    covered := le_rfl
    checkpoint := hload
    loadedNext := by simp only [horizon]; omega
    mirrors := ?_ }⟩
  rw [horizon, applyRecords_covered _ _ hskip]
  exact ⟨hnext, fun b => ⟨post b, post b, ((htrim b).mono h.covered).trans (hpost b),
    Trimmed.refl _ _, hst b, hx b⟩⟩

theorem Inv.truncated (h : Inv config x loaded records) {mem : PersistentMvccStore}
    (ht : x.mem.truncateWal = (mem, .ok ())) : Inv config { x with mem := mem } loaded [] := by
  unfold PersistentMvccStore.truncateWal at ht
  split at ht
  · simp at ht
  simp only at ht
  split_ifs at ht with hstale
  · simp at ht
  split at ht
  · simp at ht
  rename_i wal size htrunc
  simp only [Prod.mk.injEq, and_true] at ht
  subst ht
  obtain ⟨hlen, hfile, hsynced, hpos, hconfig⟩ := WalWriter.truncate_ok htrunc
  have hheader : wal.file = encodeHeader default := by
    rw [hfile, h.file]
    exact List.take_left' rfl
  have hskip : ∀ r ∈ records, r.commit.commitSeq ≤ x.horizon := by
    intro r hr
    have := h.below r hr
    simp only [horizon]
    omega
  have hm := h.mirrors
  rw [applyRecords_covered _ _ hskip] at hm
  exact { h with
    settled := ⟨by rw [hpos, hheader]; rfl, by rw [hsynced, hheader]; rfl, hconfig ▸ h.settled.policy⟩
    file := hheader.trans (List.append_nil _).symm
    written := by simp
    ascending := by simp
    below := by simp
    mirrors := ⟨hm.nextCommit, hm.chains⟩ }

theorem Inv.step [Platform.Lossless] (h : Inv config x loaded records) {op : PersistOp}
    (hstep : x.step op = some x') : ∃ loaded' records', Inv config x' loaded' records' := by
  cases op with
  | «begin» =>
    cases hstep
    exact ⟨_, _, h.withStore rfl (Nat.min_le_right _ _) rfl rfl⟩
  | commit txn =>
    obtain ⟨r, -, -, h'⟩ := h.commit txn.2 hstep
    exact ⟨_, _, h'⟩
  | commitSsi txn =>
    obtain ⟨r, -, -, h'⟩ := h.commit txn.2 hstep
    exact ⟨_, _, h'⟩
  | registerSnapshot snapshot =>
    cases hstep
    exact ⟨_, _, h.withStore rfl h.txnBound rfl rfl⟩
  | releaseSnapshot snapshot =>
    cases hstep
    have hs := x.mem.store.releaseSnapshot_sameData snapshot
    exact ⟨_, _, h.withStore hs.nextCommit (hs.nextTxn ▸ h.txnBound) hs.versions hs.conflictPolicy⟩
  | checkpoint =>
    unfold Durable.step at hstep
    simp only at hstep
    split at hstep
    · rename_i mem file hc
      cases hstep
      obtain ⟨loaded', h'⟩ := h.checkpointed hc
      exact ⟨_, _, h'⟩
    · cases hstep
  | truncateWal =>
    unfold Durable.step at hstep
    simp only at hstep
    split at hstep
    · rename_i mem ht
      cases hstep
      exact ⟨_, _, h.truncated ht⟩
    · cases hstep

theorem Inv.run [Platform.Lossless] (h : Inv config x loaded records) {ops : List PersistOp}
    (hrun : x.run ops = some x') : ∃ loaded' records', Inv config x' loaded' records' := by
  induction ops generalizing x loaded records with
  | nil =>
    cases hrun
    exact ⟨_, _, h⟩
  | cons op ops ih =>
    obtain ⟨x₁, hstep, hrest⟩ := Option.bind_eq_some_iff.mp hrun
    obtain ⟨_, _, h₁⟩ := h.step hstep
    exact ih h₁ hrest

end Calls

theorem inv_fresh (config : AdaptivePolicyConfig) {options : PersistOptions}
    (hsync : options.syncOnCommit = true) {x : Durable} (hx : fresh config options = some x) :
    Inv config x (MvccStore.new default .safeMerge config) [] := by
  cases hx
  exact {
    ordered := ⟨List.Pairwise.nil, by simp⟩
    last := rfl
    commitBound := show 1 ≤ u64Max by decide
    txnBound := show 1 ≤ u64Max by decide
    blockBound := by simp [MvccStore.new]
    policy := rfl
    settled := ⟨rfl, rfl, by simp [PersistOptions.toWriterConfig, hsync]⟩
    covered := le_rfl
    checkpoint := rfl
    loadedNext := rfl
    file := rfl
    written := by simp
    ascending := by simp
    below := by simp
    mirrors := ⟨rfl, fun b => ⟨[], [], Trimmed.refl _ _, Trimmed.refl _ _, stores_nil, stores_nil⟩⟩ }

/-! ## Opening the log that a crash left -/

theorem Inv.reopen {config : AdaptivePolicyConfig} {x : Durable} {loaded : MvccStore}
    {records : List PreparedRecord} (h : Inv config x loaded records) (options : PersistOptions)
    {tail : Bytes} (ht : Torn tail) :
    ∃ p, PersistentMvccStore.openWithCheckpointAndOptions config options
        (x.mem.wal.file ++ tail) x.checkpointFile = .ok p ∧ x.Mirrors p.store := by
  obtain ⟨report, hreplay, hvalid⟩ := replayReader_records MvccStore.applyWalCommit x.horizon ht
    h.written h.ascending loaded
  have hlen : x.mem.wal.file.length = headerSize + (encodeRecords records).length := by
    rw [h.file, List.length_append, length_encodeHeader]
  have hwal : replayWalFromSeq (x.mem.wal.file ++ tail) loaded x.horizon =
      .ok (applyRecords MvccStore.applyWalCommit x.horizon loaded records,
        x.mem.wal.file.length, report) := by
    rw [replayWalFromSeq, failIf_of_not (by rw [List.length_append]; omega), ok_bind, h.file,
      List.append_assoc, List.take_left' (length_encodeHeader _),
      List.drop_left' (length_encodeHeader _), decodeHeader_encodeHeader, ok_bind, hreplay, ok_bind]
    simp only [hvalid, List.length_append, length_encodeHeader]
    rfl
  have htail : truncateWalTailIfNeeded (x.mem.wal.file ++ tail) x.mem.wal.file.length =
      .ok x.mem.wal.file := by
    rw [truncateWalTailIfNeeded, if_neg (by rw [List.length_append]; omega), List.take_left]
  have hseq : loaded.nextCommit - 1 = x.horizon := by rw [h.loadedNext]; rfl
  rw [PersistentMvccStore.openWithCheckpointAndOptions, h.checkpoint, ok_bind]
  simp only [hseq]
  rw [if_pos (by rw [List.length_append, hlen, headerSize]; omega), hwal, ok_bind]
  simp only [htail]
  exact ⟨_, rfl, h.mirrors⟩

theorem Inv.crashImage [Platform.Lossless] {config : AdaptivePolicyConfig} {x : Durable}
    {loaded : MvccStore} {records : List PreparedRecord} (h : Inv config x loaded records)
    {walFile : Bytes} (hc : x.CrashImage walFile) :
    ∃ tail, Torn tail ∧ walFile = x.mem.wal.file ++ tail := by
  obtain ⟨n, hn, hfile | ⟨txn, useSsi, x', hstep, hlt, hfile⟩⟩ := hc
  · rw [h.settled.synced] at hn
    exact ⟨[], Or.inl rfl, by rw [hfile, List.take_of_length_le hn, List.append_nil]⟩
  · rw [h.settled.synced] at hn
    obtain ⟨r, hfits, hgrown, -⟩ := h.commit txn.2 hstep
    rw [hgrown, List.length_append] at hlt
    refine ⟨r.emit.take (n - x.mem.wal.file.length), ?_, ?_⟩
    · rcases Nat.eq_zero_or_pos (n - x.mem.wal.file.length) with hz | hpos
      · exact Or.inl (by rw [hz, List.take_zero])
      · exact Or.inr ⟨r, hfits, _, hpos, by omega, rfl⟩
    · rw [hfile, hgrown, List.take_append, List.take_of_length_le hn]

theorem Inv.recover [Platform.Lossless] {config : AdaptivePolicyConfig} {x : Durable}
    {loaded : MvccStore} {records : List PreparedRecord} (h : Inv config x loaded records)
    (options : PersistOptions) {walFile : Bytes} (hc : x.CrashImage walFile) :
    ∃ p, PersistentMvccStore.openWithCheckpointAndOptions config options walFile
        x.checkpointFile = .ok p ∧ x.Recovered p.store := by
  obtain ⟨tail, ht, rfl⟩ := h.crashImage hc
  obtain ⟨p, hopen, hm⟩ := h.reopen options ht
  exact ⟨p, hopen, hm.recovered h.ordered h.last⟩

/-- **A crash loses nothing that was acknowledged**: opening the log that it left with the last
checkpoint succeeds, and gives a store with every acknowledged commit and no other. -/
theorem crash_recovery [Platform.Lossless] (config : AdaptivePolicyConfig)
    (options : PersistOptions) (hsync : options.syncOnCommit = true) (x₀ x : Durable)
    (ops : List PersistOp) (hfresh : fresh config options = some x₀) (hrun : x₀.run ops = some x)
    (walFile : Bytes) (hcrash : x.CrashImage walFile) :
    ∃ p, PersistentMvccStore.openWithCheckpointAndOptions config options walFile
        x.checkpointFile = .ok p ∧ x.Recovered p.store := by
  obtain ⟨_, _, h⟩ := (inv_fresh config hsync hfresh).run hrun
  exact h.recover options hcrash

end Durable

end Recovery

/-! ## Runs -/

section Examples

local instance recoveryPlatform : Platform := exactPlatform

local instance byteSum : Checksum := ⟨fun bytes => BitVec.ofNat 32 (bytes.map BitVec.toNat).sum⟩

def writeSeven (id : Nat) (byte : Byte) : Transaction :=
  (Transaction.new id ⟨id - 1⟩).stageWrite 7 [byte]

theorem writeSeven_inRange {id : Nat} (byte : Byte) (h : id ≤ u64Max) :
    (writeSeven id byte).id ≤ u64Max ∧ ∀ b ∈ (writeSeven id byte).writeSet, b ≤ u64Max := by
  refine ⟨h, fun b hb => ?_⟩
  rw [show (writeSeven id byte).writeSet = [7] from rfl, List.mem_singleton] at hb
  rw [hb]
  decide

def commitSeven (id : Nat) (byte : Byte) (h : id ≤ u64Max) : List PersistOp :=
  [.begin, .commit ⟨writeSeven id byte, writeSeven_inRange byte h⟩]

def checkpointedOnce : List PersistOp :=
  commitSeven 1 1 (by decide) ++ [.checkpoint] ++ commitSeven 2 2 (by decide)

theorem crash_recovery_tornThird :
    ∃ x₀ x x' : Durable, Durable.fresh exactConfig default = some x₀ ∧
      x₀.run checkpointedOnce = some x ∧ x.commitStep (writeSeven 3 3) false = some x' ∧
      ∃ p, PersistentMvccStore.openWithCheckpointAndOptions exactConfig default
          (x'.mem.wal.file.take 141) x.checkpointFile = .ok p ∧ p.store.nextCommit = 3 ∧
        p.store.readVisible 7 ⟨1⟩ = some [1] ∧ p.store.readVisible 7 ⟨5⟩ = some [2] := by
  have hall : ((Durable.fresh exactConfig default).bind fun x₀ =>
      (x₀.run checkpointedOnce).bind fun x => (x.commitStep (writeSeven 3 3) false).map fun x' =>
        (x.mem.wal.synced, x'.mem.wal.file.length, x.horizon)) = some (100, 142, 1) := by
    decide +kernel
  have hlog : ((Durable.fresh exactConfig default).bind fun x₀ =>
      (x₀.run checkpointedOnce).map Durable.log) =
      some [(1, [(7, [1])]), (2, [(7, [2])])] := by decide +kernel
  obtain ⟨x₀, hfresh, hall⟩ := Option.bind_eq_some_iff.mp hall
  obtain ⟨x, hrun, hall⟩ := Option.bind_eq_some_iff.mp hall
  obtain ⟨x', hstep, hall⟩ := Option.map_eq_some_iff.mp hall
  simp only [Prod.mk.injEq] at hall
  obtain ⟨hsynced, hlen, hhor⟩ := hall
  rw [hfresh, Option.bind_some, hrun, Option.map_some, Option.some.injEq] at hlog
  obtain ⟨p, hopen, hrec⟩ := Durable.crash_recovery exactConfig default rfl x₀ x checkpointedOnce
    hfresh hrun (x'.mem.wal.file.take 141)
    ⟨141, by omega, Or.inr ⟨⟨_, writeSeven_inRange 3 (by decide)⟩, false, x', hstep, by omega, rfl⟩⟩
  refine ⟨x₀, x, x', hfresh, hrun, hstep, p, hopen, ?_, ?_, ?_⟩
  · rw [hrec.nextCommit, hlog]
    rfl
  · rw [hrec.history 7 1 (by omega), hlog]
    rfl
  · rw [hrec.history 7 5 (by omega), hlog]
    rfl

def sixtyFive : List PersistOp :=
  commitSeven 1 1 (by decide) ++ [.checkpoint] ++
    (List.finRange 64).flatMap fun i : Fin 64 =>
      commitSeven (i + 2) 2 (by have := i.isLt; unfold u64Max; omega)

/-- A chain keeps sixty-four versions. The store that crashed had dropped the first one, and
recovery brings it back. -/
theorem sixtyFive_recovers_dropped :
    ∃ x₀ x : Durable, Durable.fresh exactConfig default = some x₀ ∧ x₀.run sixtyFive = some x ∧
      x.horizon = 1 ∧ x.mem.readVisible 7 ⟨1⟩ = none ∧
      ∃ p, PersistentMvccStore.openWithCheckpointAndOptions exactConfig default x.mem.wal.file
          x.checkpointFile = .ok p ∧ p.store.readVisible 7 ⟨1⟩ = some [1] := by
  have hall : ((Durable.fresh exactConfig default).bind fun x₀ => (x₀.run sixtyFive).map fun x =>
      (x.horizon, x.mem.readVisible 7 ⟨1⟩, x.log.read 7 1)) = some (1, none, some [1]) := by
    decide +kernel
  obtain ⟨x₀, hfresh, hall⟩ := Option.bind_eq_some_iff.mp hall
  obtain ⟨x, hrun, hall⟩ := Option.map_eq_some_iff.mp hall
  simp only [Prod.mk.injEq] at hall
  obtain ⟨hhor, hnone, hlog⟩ := hall
  obtain ⟨_, _, h⟩ := (Durable.inv_fresh exactConfig rfl hfresh).run hrun
  obtain ⟨p, hopen, hrec⟩ := h.recover default
    (show x.CrashImage x.mem.wal.file from ⟨x.mem.wal.file.length, by rw [h.settled.synced],
      Or.inl List.take_length.symm⟩)
  exact ⟨x₀, x, hfresh, hrun, hhor, hnone, p, hopen, by rw [hrec.history 7 1 (by omega), hlog]⟩

end Examples

end FrankenFs.Mvcc
