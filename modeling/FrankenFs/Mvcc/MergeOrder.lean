import FrankenFs.Mvcc.History
import FrankenFs.Mvcc.MergeChanges

/-!
# Commit order of concurrent merging writers

Each commit merges against what the earlier ones left, with the version at the snapshot for its
ancestor.
-/

open FrankenFs.Lib

namespace FrankenFs.Mvcc

def stagedOn (txns : List Transaction) (block : Nat) : List StagedWrite :=
  txns.filterMap fun txn => txn.stagedWrites.get? block

theorem stagedOn_append (txns txns' : List Transaction) (block : Nat) :
    stagedOn (txns ++ txns') block = stagedOn txns block ++ stagedOn txns' block :=
  List.filterMap_append

theorem stagedOn_snoc (txns : List Transaction) (txn : Transaction) (block : Nat) :
    stagedOn (txns ++ [txn]) block =
      stagedOn txns block ++ (txn.stagedWrites.get? block).toList := by
  rw [stagedOn_append]
  cases h : txn.stagedWrites.get? block <;> simp [stagedOn, h]

theorem Concurrent.of_append {base : Bytes} {ws ws' : List StagedWrite}
    (h : Concurrent base (ws ++ ws')) : Concurrent base ws := by
  have h := h.perm List.perm_append_comm
  induction ws' with
  | nil => exact h
  | cons w ws' ih => exact ih (h.tail.perm List.perm_append_comm) h.tail

section Runs

variable [Platform]

namespace MvccStore

def commitAll (s : MvccStore) : List Transaction → Option MvccStore
  | [] => some s
  | txn :: rest =>
    match s.commit txn with
    | (s', .ok _) => commitAll s' rest
    | (_, .error _) => none

/-! ## A commit whose merges all go through -/

variable {s : MvccStore} {txn : Transaction}

theorem preflightLoop_safeMerge {blocks : List Nat}
    (hcap : s.compressionPolicy.maxChainLength = none)
    (hval : ∀ b ∈ blocks, s.resolvedWriteValidWithPolicy txn b .safeMerge = .ok ()) (p q : Bool) :
    ∃ p' q', preflightLoop txn .safeMerge blocks s p q = (s, .ok (p', q')) := by
  induction blocks generalizing p q with
  | nil => exact ⟨p, q, rfl⟩
  | cons block rest ih =>
    have hblock : (if decide (s.latestCommitSeq block > txn.snapshot.high) = true then
        s.preflightResolveBlockConflict txn block .safeMerge else .ok ()) = .ok () := by
      unfold preflightResolveBlockConflict
      rw [hval block (by simp)]
      simp
    rw [preflightLoop]
    simp only [hblock, hcap]
    exact ih (fun b hb => hval b (by simp [hb])) _ _

theorem preflightFcw_safeMerge (hid : validateTransactionId txn.id = .ok ())
    (hpol : s.conflictPolicy = .safeMerge) (hcap : s.compressionPolicy.maxChainLength = none)
    (hval : ∀ b ∈ txn.writeSet, s.resolvedWriteValidWithPolicy txn b .safeMerge = .ok ()) :
    s.preflightFcw txn = (s, .ok ()) := by
  obtain ⟨p, q, hloop⟩ := preflightLoop_safeMerge hcap hval false false
  have heff : s.effectivePolicy = .safeMerge := by unfold effectivePolicy; rw [hpol]
  unfold preflightFcw
  simp only [hid, heff, hloop, recordMetrics, hpol]

/-- The bytes of one staged write: as staged, or merged with the version at the snapshot. -/
def WritesBytes (s : MvccStore) (txn : Transaction) (block : Nat) (w : StagedWrite)
    (bytes : Bytes) : Prop :=
  s.latestCommitSeq block ≤ txn.snapshot.high ∧ bytes = w.bytes ∨
    txn.snapshot.high < s.latestCommitSeq block ∧
      ∃ base, s.versionBytesAt block txn.snapshot.high = some base ∧
        w.mergeProof.mergeBytes base (s.mergeLatest block) w.bytes = some (some bytes)

theorem WritesBytes.valid {block : Nat} {w : StagedWrite} {bytes : Bytes}
    (h : s.WritesBytes txn block w bytes) (hw : txn.stagedWrites.get? block = some w) :
    s.resolvedWriteValidWithPolicy txn block .safeMerge = .ok () := by
  unfold resolvedWriteValidWithPolicy
  simp only [Transaction.stagedWrite, Transaction.mergeProof, hw, Option.map_some,
    Option.getD_some]
  rcases h with ⟨hle, -⟩ | ⟨hlt, base, hbase, hm⟩
  · rw [if_pos hle]
  · rw [if_neg (Nat.not_le.mpr hlt), if_neg (by decide), mergeBase, hbase, mergeValid_eq,
      Option.some_or, Option.getD_some, hm]
    rfl

theorem WritesBytes.merged {block : Nat} {w : StagedWrite} {bytes : Bytes}
    (h : s.WritesBytes txn block w bytes) :
    (s.mergedWrite txn block w .safeMerge).map (fun m => (block, m.getD w.bytes)) =
      .ok (block, bytes) := by
  unfold mergedWrite
  rcases h with ⟨hle, rfl⟩ | ⟨hlt, base, hbase, hm⟩
  · rw [if_pos hle]
    rfl
  · rw [if_neg (Nat.not_le.mpr hlt), if_neg (by decide), hbase, Option.getD_some, hm]
    rfl

theorem commit_safeMerge (out : Nat → Bytes) (hid : validateTransactionId txn.id = .ok ())
    (hpol : s.conflictPolicy = .safeMerge) (hcap : s.compressionPolicy.maxChainLength = none)
    (hseq : s.nextCommit + 1 ≤ u64Max)
    (hout : ∀ b w, txn.stagedWrites.get? b = some w → s.WritesBytes txn b w (out b)) :
    ∃ s' ws, s.commit txn = (s', .ok s.nextCommit) ∧ Installed s s' txn s.nextCommit ws ∧
      ∀ b, ws.lookup b = (txn.stagedWrites.get? b).map fun _ => out b := by
  have hpre := preflightFcw_safeMerge hid hpol hcap fun b hb => by
    obtain ⟨w, hw⟩ := Option.isSome_iff_exists.mp ((OrdMap.mem_keys _).mp hb)
    exact (hout b w hw).valid hw
  have heff : s.effectivePolicy = .safeMerge := by unfold effectivePolicy; rw [hpol]
  have hws : s.versionBytes txn = .ok (txn.stagedWrites.entries.map fun e => (e.1, out e.1)) := by
    unfold versionBytes
    rw [heff]
    exact mapM_ok_of fun e he => (hout e.1 e.2 ((OrdMap.mem_entries _).mp he)).merged
  obtain ⟨s', hcommit, hi⟩ := applyFcwCommit_of_versionBytes hid hws hseq
  refine ⟨s', _, ?_, hi, fun b => ?_⟩
  · unfold commit
    rw [hpre]
    exact hcommit
  · have hnd : ((txn.stagedWrites.entries.map fun e => (e.1, out e.1)).map Prod.fst).Nodup := by
      rw [List.map_map]
      exact txn.stagedWrites.keys_nodup
    cases hw : txn.stagedWrites.get? b with
    | none =>
      rw [Option.map_none, List.lookup_eq_none_iff]
      rintro p hp
      obtain ⟨e, he, rfl⟩ := List.mem_map.mp hp
      have hne : b ≠ e.1 := fun heq => by
        rw [heq, (OrdMap.mem_entries _).mp he] at hw
        simp at hw
      simpa using hne
    | some w =>
      have he : (b, w) ∈ txn.stagedWrites.entries := (OrdMap.mem_entries _).mpr hw
      exact lookup_of_mem hnd (List.mem_map_of_mem he)

/-! ## Commits in turn -/

/-- After the commits of `done` from `first`, whose chains held `es`. The versions that came
since are above the common snapshot, and the newest one has every change so far. -/
structure Merging (first : MvccStore) (es : Nat → Entries) (done : List Transaction)
    (s : MvccStore) : Prop where
  conflictPolicy : s.conflictPolicy = .safeMerge
  cap : s.compressionPolicy.maxChainLength = none
  next : s.nextCommit = first.nextCommit + done.length
  chains : ∀ b, ∃ added, Stores (s.chain b) (es b ++ added) ∧ Ascending (es b ++ added) ∧
    (∀ e ∈ added, first.currentSnapshot.high < e.1 ∧ e.1 < s.nextCommit) ∧
    (stagedOn done b = [] → added = []) ∧
    ∀ base, asOf (es b) first.currentSnapshot.high = some base → Concurrent base (stagedOn done b) →
      stagedOn done b ≠ [] →
        added.getLast?.map Prod.snd = some (withChanges base ((stagedOn done b).map StagedWrite.bytes))

theorem reads_of_added {b high : Nat} {es added : Entries} (hst : Stores (s.chain b) (es ++ added))
    (hasc : Ascending (es ++ added)) (hes : ∀ e ∈ es, e.1 ≤ high) (hadded : ∀ e ∈ added, high < e.1)
    :
    s.versionBytesAt b high = asOf es high ∧
      (added = [] → s.latestCommitSeq b ≤ high) ∧
      ∀ e, added.getLast? = some e → high < s.latestCommitSeq b ∧ s.mergeLatest b = e.2 := by
  have hlatest : s.latestCommitSeq b = ((es ++ added).getLast?.map Prod.fst).getD 0 := by
    rw [latestCommitSeq_eq, hst.latest]
  refine ⟨?_, ?_, ?_⟩
  · rw [versionBytesAt, readVisible_eq, hst.read hasc, asOf_append_left hadded]
  · rintro rfl
    rw [hlatest, List.append_nil]
    cases hl : es.getLast? with
    | none => simp
    | some e => simpa using hes e (List.mem_of_getLast? hl)
  · intro e he
    have hlast : (es ++ added).getLast? = some e := by rw [List.getLast?_append, he]; rfl
    have hseq : s.latestCommitSeq b = e.1 := by rw [hlatest, hlast]; rfl
    rw [hseq]
    refine ⟨hadded e (List.mem_of_getLast? he), ?_⟩
    rw [mergeLatest, hseq, versionBytesAt, readVisible_eq, hst.read hasc, asOf_all (hasc.le_last hlast),
      hlast]
    rfl

def mergedBytes (base : Option Bytes) (done : List StagedWrite) (w : StagedWrite) : Bytes :=
  if done = [] then w.bytes
  else withChanges (base.getD []) ((w :: done).map StagedWrite.bytes)

theorem Merging.step [Platform.Lossless] {first s : MvccStore} {es : Nat → Entries}
    {done : List Transaction} {txn : Transaction} (h : Merging first es done s)
    (hes : ∀ b, ∀ e ∈ es b, e.1 ≤ first.currentSnapshot.high)
    (hpos : first.currentSnapshot.high < first.nextCommit)
    (hid : validateTransactionId txn.id = .ok ()) (hsnap : txn.snapshot = first.currentSnapshot)
    (hseq : s.nextCommit + 1 ≤ u64Max)
    (hblocks : ∀ b, (stagedOn (done ++ [txn]) b).length ≤ 1 ∨
      ∃ base, asOf (es b) first.currentSnapshot.high = some base ∧
        Concurrent base (stagedOn (done ++ [txn]) b)) :
    ∃ s' c, s.commit txn = (s', .ok c) ∧ Merging first es (done ++ [txn]) s' := by
  let base := fun b => asOf (es b) first.currentSnapshot.high
  -- A second writer of a block finds the first one's merge in its way, and goes through.
  have hout : ∀ b w, txn.stagedWrites.get? b = some w →
      s.WritesBytes txn b w (mergedBytes (base b) (stagedOn done b) w) := by
    intro b w hw
    obtain ⟨added, hst, hasc, habove, hnil, hlast⟩ := h.chains b
    obtain ⟨hat, hle, hgt⟩ := reads_of_added hst hasc (hes b) fun e he => (habove e he).1
    unfold WritesBytes mergedBytes
    rw [hsnap]
    split_ifs with hdone
    · exact Or.inl ⟨hle (hnil hdone), rfl⟩
    · have hstaged := stagedOn_snoc done txn b
      rw [hw, Option.toList_some] at hstaged
      rcases hblocks b with hlen | ⟨bs, hbs, hcon⟩
      · rw [hstaged, List.length_append, List.length_singleton] at hlen
        exact absurd (List.length_eq_zero_iff.mp (by omega)) hdone
      · rw [hstaged] at hcon
        have hcon := hcon.perm (List.perm_append_singleton w _)
        have hbytes := hlast bs hbs hcon.tail hdone
        obtain ⟨e, he, he2⟩ := Option.map_eq_some_iff.mp hbytes
        obtain ⟨hlt, hm⟩ := hgt e he
        refine Or.inr ⟨hlt, bs, hat.trans hbs, ?_⟩
        rw [hm, he2, show base b = some bs from hbs]
        exact hcon.merge
  obtain ⟨s', ws, hcommit, hi, hlookup⟩ := commit_safeMerge
    (fun b => ((txn.stagedWrites.get? b).map (mergedBytes (base b) (stagedOn done b))).getD [])
    hid h.conflictPolicy h.cap hseq fun b w hw => by simpa [hw] using hout b w hw
  refine ⟨s', s.nextCommit, hcommit, hi.conflictPolicy.trans h.conflictPolicy, ?_, ?_, fun b => ?_⟩
  · rw [hi.compressionPolicy]; exact h.cap
  · rw [hi.nextCommit, h.next, List.length_append, List.length_singleton, Nat.add_assoc]
  obtain ⟨added, hst, hasc, habove, hnil, hlast⟩ := h.chains b
  have hl := hlookup b
  have hstaged := stagedOn_snoc done txn b
  cases hw : txn.stagedWrites.get? b with
  | none =>
    rw [hw] at hl hstaged
    rw [Option.toList_none, List.append_nil] at hstaged
    have hch : s'.chain b = s.chain b := by simp only [MvccStore.chain, hi.untouched b hl]
    refine ⟨added, hch ▸ hst, hasc, fun e he => ?_, ?_, ?_⟩
    · have := habove e he
      rw [hi.nextCommit]
      omega
    · rw [hstaged]; exact hnil
    · rw [hstaged]; exact hlast
  | some w =>
    rw [hw] at hl hstaged
    simp only [Option.map_some, Option.getD_some] at hl
    have hbelow : ∀ e ∈ es b ++ added, e.1 < s.nextCommit := by
      intro e he
      rcases List.mem_append.mp he with he | he
      · have h1 := hes b e he
        have h2 := h.next
        omega
      · exact (habove e he).2
    refine ⟨added ++ [(s.nextCommit, mergedBytes (base b) (stagedOn done b) w)], ?_, ?_, ?_, ?_, ?_⟩
    · rw [← List.append_assoc]
      exact hi.untrimmed h.cap b _ hl _ hst
    · rw [← List.append_assoc]
      refine List.pairwise_append.mpr ⟨hasc, List.pairwise_singleton _ _, fun e he e' he' => ?_⟩
      rw [List.mem_singleton.mp he']
      exact hbelow e he
    · intro e he
      rw [hi.nextCommit]
      rcases List.mem_append.mp he with he | he
      · have := habove e he
        omega
      · rw [List.mem_singleton.mp he]
        have := h.next
        simp only
        omega
    · rw [hstaged]
      simp
    · intro bs hbs hcon hne
      rw [hstaged, Option.toList_some] at hcon ⊢
      rw [List.getLast?_concat, Option.map_some, Option.some.injEq]
      unfold mergedBytes
      split_ifs with hdone
      · rw [hdone] at hcon ⊢
        exact (withChanges_singleton (hcon.length w (by simp))).symm
      · rw [show base b = some bs from hbs, Option.getD_some]
        exact withChanges_perm ((List.perm_append_singleton w _).symm.map _)

theorem Merging.run [Platform.Lossless] {first s : MvccStore} {es : Nat → Entries}
    {done rest : List Transaction} (h : Merging first es done s)
    (hes : ∀ b, ∀ e ∈ es b, e.1 ≤ first.currentSnapshot.high)
    (hpos : first.currentSnapshot.high < first.nextCommit)
    (hids : ∀ txn ∈ rest, validateTransactionId txn.id = .ok ())
    (hsnap : ∀ txn ∈ rest, txn.snapshot = first.currentSnapshot)
    (hseq : first.nextCommit + (done ++ rest).length ≤ u64Max)
    (hblocks : ∀ b, (stagedOn (done ++ rest) b).length ≤ 1 ∨
      ∃ base, asOf (es b) first.currentSnapshot.high = some base ∧
        Concurrent base (stagedOn (done ++ rest) b)) :
    ∃ s', s.commitAll rest = some s' ∧ Merging first es (done ++ rest) s' := by
  induction rest generalizing done s with
  | nil => exact ⟨s, rfl, by rwa [List.append_nil]⟩
  | cons txn rest ih =>
    have happ : done ++ txn :: rest = (done ++ [txn]) ++ rest := by simp
    rw [happ] at hseq hblocks ⊢
    obtain ⟨s', c, hcommit, h'⟩ := h.step hes hpos (hids txn (by simp)) (hsnap txn (by simp))
      (by rw [h.next]; simp at hseq; omega) fun b => by
        rcases hblocks b with hlen | ⟨base, hbase, hcon⟩
        · rw [stagedOn_append, List.length_append] at hlen
          exact Or.inl (by omega)
        · rw [stagedOn_append] at hcon
          exact Or.inr ⟨base, hbase, hcon.of_append⟩
    rw [commitAll, hcommit]
    exact ih h' (fun t ht => hids t (by simp [ht])) (fun t ht => hsnap t (by simp [ht])) hseq hblocks

theorem Merging.read {first : MvccStore} {es : Nat → Entries} {done : List Transaction}
    (h : Merging first es done s) (hes : ∀ b, ∀ e ∈ es b, e.1 ≤ first.currentSnapshot.high)
    (hpos : first.currentSnapshot.high < first.nextCommit) {b : Nat} {base : Bytes}
    (hbase : asOf (es b) first.currentSnapshot.high = some base)
    (hcon : Concurrent base (stagedOn done b)) (hne : stagedOn done b ≠ []) :
    s.readVisible b s.currentSnapshot =
      some (withChanges base ((stagedOn done b).map StagedWrite.bytes)) := by
  obtain ⟨added, hst, hasc, habove, -, hlast⟩ := h.chains b
  have hbytes := hlast base hbase hcon hne
  have hall : ∀ e ∈ es b ++ added, e.1 ≤ s.currentSnapshot.high := by
    intro e he
    have hnext := h.next
    simp only [currentSnapshot] at hpos ⊢
    rcases List.mem_append.mp he with he | he
    · have := hes b e he
      simp only [currentSnapshot] at this
      omega
    · have := (habove e he).2
      omega
  rw [readVisible_eq, hst.read hasc, asOf_all hall, List.getLast?_append]
  obtain ⟨e, he, he2⟩ := Option.map_eq_some_iff.mp hbytes
  rw [he, Option.some_or, Option.map_some, he2]

end MvccStore

/-! ## Any order -/

structure Kept (compression : CompressionPolicy) (conflict : ConflictPolicy) (s : MvccStore) :
    Prop where
  compressionPolicy : s.compressionPolicy = compression
  conflictPolicy : s.conflictPolicy = conflict
  positive : 0 < s.nextCommit

variable {compression : CompressionPolicy} {conflict : ConflictPolicy}

theorem Kept.sameData {s s' : MvccStore} (h : Kept compression conflict s) (hs : s.SameData s') :
    Kept compression conflict s' :=
  ⟨hs.compressionPolicy.trans h.compressionPolicy, hs.conflictPolicy.trans h.conflictPolicy,
    hs.nextCommit ▸ h.positive⟩

theorem Kept.installed {s s' : MvccStore} (h : Kept compression conflict s) {txn : Transaction}
    {c : Nat} {ws : List (Nat × Bytes)} (hi : s.Installed s' txn c ws) :
    Kept compression conflict s' :=
  ⟨hi.compressionPolicy.trans h.compressionPolicy, hi.conflictPolicy.trans h.conflictPolicy,
    hi.nextCommit ▸ Nat.succ_pos c⟩

theorem Kept.afterCommit {x : Logged} (h : Kept compression conflict x.store) (txn : Transaction)
    (useSsi : Bool) : Kept compression conflict (x.afterCommit txn
      (if useSsi then x.store.commitSsi txn else x.store.commit txn)).store := by
  obtain ⟨s, hsame, heq⟩ | ⟨sp, s, c, ws, hsame, hi, heq⟩ := x.afterCommit_cases txn useSsi
  · exact heq ▸ h.sameData hsame
  · exact heq ▸ (h.sameData hsame).installed hi

theorem Kept.step {x : Logged} (h : Kept compression conflict x.store) (op : StoreOp) :
    Kept compression conflict (x.step op).store := by
  cases op with
  | «begin» | registerCurrent | pruneSafe =>
    exact ⟨h.compressionPolicy, h.conflictPolicy, h.positive⟩
  | release snapshot => exact h.sameData (x.store.releaseSnapshot_sameData snapshot)
  | commit txn => exact h.afterCommit txn false
  | commitSsi txn => exact h.afterCommit txn true

theorem Kept.run {x : Logged} (h : Kept compression conflict x.store) (ops : List StoreOp) :
    Kept compression conflict (x.run ops).store := by
  induction ops generalizing x with
  | nil => exact h
  | cons op ops ih => exact ih (h.step op)

theorem Logged.Inv.entries {x : Logged} {floor : Nat} (h : Logged.Inv x floor) (b : Nat) :
    ∃ es, Stores (x.store.chain b) es ∧ Ascending es ∧ ∀ e ∈ es, e.1 < x.store.nextCommit := by
  obtain ⟨post, ⟨pre, heq, -⟩, hst⟩ := h.chains b
  have hasc := h.ordered.ascending b
  refine ⟨post, hst, ?_, fun e he => h.ordered.history_lt (by rw [heq]; simp [he])⟩
  rw [heq] at hasc
  exact hasc.sublist (List.sublist_append_right _ _)

/-- **Commit order independence.** From any reachable store, the transactions commit in any
order, and every shared block ends as its base with the change of each of them. -/
theorem commitAll_perm [Platform.Lossless] (compression : CompressionPolicy)
    (hcap : compression.maxChainLength = none) (config : AdaptivePolicyConfig) (ops : List StoreOp)
    (s : MvccStore) (hs : s = (Logged.run ⟨MvccStore.new compression .safeMerge config, []⟩ ops).store)
    (txns order : List Transaction) (hperm : order.Perm txns)
    (hids : ∀ txn ∈ txns, validateTransactionId txn.id = .ok ())
    (hsnap : ∀ txn ∈ txns, txn.snapshot = s.currentSnapshot)
    (hseq : s.nextCommit + txns.length ≤ u64Max)
    (hblocks : ∀ b, (stagedOn txns b).length ≤ 1 ∨
      ∃ base, s.readVisible b s.currentSnapshot = some base ∧ Concurrent base (stagedOn txns b)) :
    ∃ s', s.commitAll order = some s' ∧
      ∀ b base, s.readVisible b s.currentSnapshot = some base →
        Concurrent base (stagedOn txns b) → stagedOn txns b ≠ [] →
          s'.readVisible b s'.currentSnapshot =
            some (withChanges base ((stagedOn txns b).map StagedWrite.bytes)) := by
  obtain ⟨floor, hinv⟩ := (Logged.inv_new compression .safeMerge config).run ops
  have hkept : Kept compression .safeMerge s := by
    have hnew : Kept compression .safeMerge (MvccStore.new compression .safeMerge config) :=
      ⟨rfl, rfl, Nat.one_pos⟩
    rw [hs]
    exact Kept.run (x := ⟨_, []⟩) hnew ops
  choose es hst hasc hlt using hinv.entries
  rw [← hs] at hst hlt
  have hpos : s.currentSnapshot.high < s.nextCommit := by
    have := hkept.positive
    simp only [MvccStore.currentSnapshot]
    omega
  have hes : ∀ b, ∀ e ∈ es b, e.1 ≤ s.currentSnapshot.high := by
    intro b e he
    have := hlt b e he
    simp only [MvccStore.currentSnapshot]
    omega
  have hread : ∀ b, s.readVisible b s.currentSnapshot = asOf (es b) s.currentSnapshot.high := by
    intro b
    rw [MvccStore.readVisible_eq, (hst b).read (hasc b)]
  have hstart : s.Merging es [] s := by
    refine ⟨hkept.conflictPolicy, by rw [hkept.compressionPolicy]; exact hcap, rfl, fun b => ?_⟩
    refine ⟨[], by simpa using hst b, by simpa using hasc b, by simp, fun _ => rfl, ?_⟩
    intro base _ _ hne
    exact absurd rfl hne
  have hstaged : ∀ b, (stagedOn order b).Perm (stagedOn txns b) := fun b => hperm.filterMap _
  obtain ⟨s', hall, hend⟩ : ∃ s', s.commitAll order = some s' ∧ s.Merging es ([] ++ order) s' :=
    hstart.run hes hpos (fun t ht => hids t (hperm.mem_iff.mp ht)) (fun t ht => hsnap t (hperm.mem_iff.mp ht))
    (by simpa [hperm.length_eq] using hseq) fun b => by
      rcases hblocks b with hlen | ⟨base, hbase, hcon⟩
      · exact Or.inl (by simpa [(hstaged b).length_eq] using hlen)
      · exact Or.inr ⟨base, by rw [← hread]; exact hbase, hcon.perm (hstaged b).symm⟩
  rw [List.nil_append] at hend
  refine ⟨s', hall, fun b base hbase hcon hne => ?_⟩
  rw [hread] at hbase
  have hne' : stagedOn order b ≠ [] := fun h => hne (List.perm_nil.mp (h ▸ (hstaged b).symm))
  rw [hend.read hes hpos hbase (hcon.perm (hstaged b).symm) hne',
    withChanges_perm ((hstaged b).map _)]

end Runs

/-! ## Two writers of a four byte block -/

section Examples

local instance mergingPlatform : Platform := exactPlatform

def untrimmed : CompressionPolicy := { (default : CompressionPolicy) with maxChainLength := none }

def zeroBlock : MvccStore :=
  (Logged.run ⟨MvccStore.new untrimmed .safeMerge exactConfig, []⟩
    [.commit ((Transaction.new 1 ⟨0⟩).stageWrite 5 [0, 0, 0, 0])]).store

def byteWriter (id : Nat) (bytes : Bytes) (declared : MergeByteRange) : Transaction :=
  (Transaction.new id ⟨1⟩).stageWriteWithProof 5 bytes (.independentKeys [declared])

theorem stagedOn_byteWriters (b : Nat) :
    stagedOn [byteWriter 2 [1, 0, 0, 0] ⟨0, 1⟩, byteWriter 3 [0, 0, 0, 1] ⟨3, 1⟩] b =
      if b = 5 then [⟨[1, 0, 0, 0], .independentKeys [⟨0, 1⟩], none⟩,
        ⟨[0, 0, 0, 1], .independentKeys [⟨3, 1⟩], none⟩] else [] := by
  simp only [stagedOn, byteWriter, Transaction.stageWriteWithProof, Transaction.insertStagedWrite,
    Transaction.new, List.filterMap_cons, List.filterMap_nil, OrdMap.get?_alter]
  split_ifs <;> rfl

theorem concurrent_byteWriters :
    Concurrent [0, 0, 0, 0] [⟨[1, 0, 0, 0], .independentKeys [⟨0, 1⟩], none⟩,
      ⟨[0, 0, 0, 1], .independentKeys [⟨3, 1⟩], none⟩] := by
  -- Outside the block nothing changes, so the conditions are checked on four bytes.
  have hbounded : ∀ w : Bytes, w.length = 4 → ∀ p : Nat → Prop,
      (∀ i < 4, p i → delta [0, 0, 0, 0] w i = 0) → ∀ i, p i → delta [0, 0, 0, 0] w i = 0 := by
    intro w hw p h i hp
    rcases Nat.lt_or_ge i 4 with hi | hi
    · exact h i hi hp
    · exact delta_of_le hw hi
  refine .ranges (by decide) ?_ ?_
  · simp only [List.forall_mem_cons, List.not_mem_nil, false_implies, implies_true, and_true]
    refine ⟨⟨[⟨0, 1⟩], rfl, ⟨by decide, by decide, by decide⟩, ?_⟩,
      ⟨[⟨3, 1⟩], rfl, ⟨by decide, by decide, by decide⟩, ?_⟩⟩ <;>
      exact hbounded _ rfl _ (by decide)
  · refine List.pairwise_pair.mpr ⟨?_, ?_⟩ <;>
      (rintro rs ⟨⟩ r hr; exact hbounded _ rfl _ (by revert r; decide))

theorem commitAll_perm_byteWriters :
    ∃ s', zeroBlock.commitAll
        [byteWriter 3 [0, 0, 0, 1] ⟨3, 1⟩, byteWriter 2 [1, 0, 0, 0] ⟨0, 1⟩] = some s' ∧
      s'.readVisible 5 s'.currentSnapshot = some [1, 0, 0, 1] := by
  have hstaged := stagedOn_byteWriters
  obtain ⟨s', hall, hread⟩ := commitAll_perm untrimmed rfl exactConfig
    [.commit ((Transaction.new 1 ⟨0⟩).stageWrite 5 [0, 0, 0, 0])] zeroBlock rfl
    [byteWriter 2 [1, 0, 0, 0] ⟨0, 1⟩, byteWriter 3 [0, 0, 0, 1] ⟨3, 1⟩]
    [byteWriter 3 [0, 0, 0, 1] ⟨3, 1⟩, byteWriter 2 [1, 0, 0, 0] ⟨0, 1⟩]
    (List.Perm.swap _ _ _) (by simp [byteWriter]; decide) (by simp; decide) (by decide)
    fun b => by
      rw [hstaged]
      split_ifs with hb
      · exact Or.inr ⟨[0, 0, 0, 0], by subst hb; decide, concurrent_byteWriters⟩
      · exact Or.inl (by simp)
  refine ⟨s', hall, ?_⟩
  have := hread 5 [0, 0, 0, 0] (by decide) (by rw [hstaged]; exact concurrent_byteWriters)
    (by rw [hstaged]; simp)
  rw [this, hstaged]
  decide

/-- Two writers of different bytes who declare the whole block are not merged. -/
theorem commitAll_wide_ranges :
    let first := byteWriter 2 [1, 0, 0, 0] ⟨0, 4⟩
    let last := byteWriter 3 [0, 0, 0, 1] ⟨0, 4⟩
    zeroBlock.readVisible 5 zeroBlock.currentSnapshot = some [0, 0, 0, 0] ∧
      first.snapshot = zeroBlock.currentSnapshot ∧ last.snapshot = zeroBlock.currentSnapshot ∧
      (∀ i < 4, (⟨0, 4⟩ : MergeByteRange).covers i) ∧
      (∀ i < 4, delta [0, 0, 0, 0] [1, 0, 0, 0] i = 0 ∨ delta [0, 0, 0, 0] [0, 0, 0, 1] i = 0) ∧
      (zeroBlock.commitAll [first, last]).isNone := by
  decide

end Examples

end FrankenFs.Mvcc
