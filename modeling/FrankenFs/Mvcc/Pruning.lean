import FrankenFs.Mvcc.ShardedRuns
import Mathlib.Data.List.InsertIdx

/-!
# Pruning by candidates

A shard remembers which of its chains have more than one version, and a prune visits only those.
-/

open FrankenFs.Lib

namespace FrankenFs.Mvcc

/-! ## Evictions and whole prunes -/

namespace MvccShard

def durable (bound : Nat) (chain : List BlockVersion) : Bool :=
  chain.getLast?.any fun newest => decide (newest.commitSeq ≤ bound)

def evictDurable (shard : MvccShard) (bound : Nat) : MvccShard × List Nat :=
  ({ versions := shard.versions.filter fun _ chain => !durable bound chain
     pruneCandidates := shard.pruneCandidates.filter fun block _ =>
      !(shard.versions.get? block).any (durable bound) },
    (shard.versions.filter fun _ chain => durable bound chain).keys)

end MvccShard

namespace ShardedMvccStore

variable [Platform]

def watermark (s : ShardedMvccStore) : Option Nat := s.activeSnapshots.minKey?

def pruneVersionsOlderThan (s : ShardedMvccStore) (watermark : Nat) : ShardedMvccStore :=
  (List.range s.shardCount).foldl
    (fun s idx => s.setShard idx ((s.shards idx).pruneOlderThan watermark)) s

/-- The source returns the number of the blocks that are listed here. -/
def evictDurableChains (s : ShardedMvccStore) (durableThrough : Nat) :
    ShardedMvccStore × List Nat :=
  let bound := (s.watermark.map fun wm => min wm durableThrough).getD durableThrough
  (List.range s.shardCount).foldl (fun (s, evicted) idx =>
    let (shard, blocks) := (s.shards idx).evictDurable bound
    (s.setShard idx shard, evicted ++ blocks)) (s, [])

/-- Where commits, prunes and evictions can take a store. Each holds the lock of the shard it
changes, so their work on the shards is a sequence of these. A commit changes shards by installs
alone, and of its transaction, its sequence and its merges nothing is assumed. The watermark of a
prune and the bound of an eviction are any numbers. -/
inductive Reaches : ShardedMvccStore → Prop
  | new (shardCount : Nat) (policy : CompressionPolicy) (mode : PublicationMode) :
    Reaches (.withCompressionPolicy shardCount policy mode)
  | install {s : ShardedMvccStore} (h : Reaches s) {block : Nat} {staged : StagedWrite}
    {snapshot : Snapshot} {seq txnId : Nat} {shard : MvccShard} {bytes : Bytes}
    (hinstall : (s.shardOf block).installCommittedVersionLocked block staged snapshot seq txnId
      s.compressionPolicy.dedupIdentical = some (shard, bytes)) :
    Reaches (s.setShard (s.shardIndex block) shard)
  | prune {s : ShardedMvccStore} (h : Reaches s) (idx watermark : Nat) :
    Reaches (s.setShard idx ((s.shards idx).pruneOlderThan watermark))
  | evict {s : ShardedMvccStore} (h : Reaches s) (idx bound : Nat) :
    Reaches (s.setShard idx ((s.shards idx).evictDurable bound).1)
  /-- What leaves the shards alone: transactions, snapshots, sequences, publication. -/
  | other {s s' : ShardedMvccStore} (h : Reaches s) (hshards : s'.shards = s.shards)
    (hcount : s'.shardCount = s.shardCount) (hmask : s'.shardMask = s.shardMask) : Reaches s'

end ShardedMvccStore

/-! ## The scan -/

/-- Drops every version whose successor is at or below the watermark. -/
def dropOvertaken (watermark : Nat) : List BlockVersion → List BlockVersion
  | v :: next :: rest =>
    if next.commitSeq ≤ watermark then dropOvertaken watermark (next :: rest)
    else v :: dropOvertaken watermark (next :: rest)
  | chain => chain

def InOrder (chain : List BlockVersion) : Prop :=
  chain.Pairwise fun a b => a.commitSeq ≤ b.commitSeq

variable {chain : List BlockVersion}

theorem inOrder_of_seqs {chain' : List BlockVersion}
    (hseqs : chain'.map BlockVersion.commitSeq = chain.map BlockVersion.commitSeq)
    (h : InOrder chain) : InOrder chain' := by
  unfold InOrder at h ⊢
  rw [← List.pairwise_map (f := BlockVersion.commitSeq) (R := (· ≤ ·))] at h ⊢
  rwa [hseqs]

theorem dropOvertaken_eq_self {watermark : Nat} {v : BlockVersion}
    (h : ∀ next ∈ chain, watermark < next.commitSeq) :
    dropOvertaken watermark (v :: chain) = v :: chain := by
  induction chain generalizing v with
  | nil => rfl
  | cons next rest ih =>
    have hnext := h next List.mem_cons_self
    rw [dropOvertaken, if_neg (by omega), ih fun w hw => h w (List.mem_cons_of_mem _ hw)]

theorem dropOvertaken_drop {watermark rest keepFrom : Nat} (horder : InOrder chain)
    (hrest : chain.length ≤ keepFrom + rest) :
    dropOvertaken watermark (chain.drop keepFrom) =
      chain.drop (keepFromCount chain BlockVersion.commitSeq watermark rest keepFrom) := by
  induction rest generalizing keepFrom with
  | zero => simp [keepFromCount, List.drop_of_length_le (Nat.add_zero keepFrom ▸ hrest), dropOvertaken]
  | succ rest ih =>
    unfold keepFromCount
    cases hv : chain[keepFrom]? with
    | none =>
      have hlen := List.getElem?_eq_none_iff.mp hv
      have hnext : chain[keepFrom + 1]? = none := List.getElem?_eq_none (by omega)
      simp [hnext, List.drop_of_length_le hlen, dropOvertaken]
    | some v =>
      obtain ⟨hlt, rfl⟩ := List.getElem?_eq_some_iff.mp hv
      rw [List.drop_eq_getElem_cons hlt]
      cases hnext : chain[keepFrom + 1]? with
      | none =>
        have hlen := List.getElem?_eq_none_iff.mp hnext
        simp [List.drop_of_length_le hlen, dropOvertaken, List.drop_eq_getElem_cons hlt]
      | some next =>
        obtain ⟨hlt', rfl⟩ := List.getElem?_eq_some_iff.mp hnext
        dsimp only
        split_ifs with hle
        · rw [← ih (by omega), List.drop_eq_getElem_cons hlt', dropOvertaken, if_pos hle]
        · rw [List.drop_eq_getElem_cons hlt]
          apply dropOvertaken_eq_self
          intro later hlater
          -- everything from the successor on is above the watermark
          have hsorted : InOrder (chain.drop (keepFrom + 1)) := horder.drop
          rw [List.drop_eq_getElem_cons hlt'] at hlater hsorted
          rcases List.mem_cons.mp hlater with rfl | hlater
          · omega
          · have := (List.pairwise_cons.mp hsorted).1 later hlater
            omega

theorem keepFromCount_congr {chain' : List BlockVersion} {watermark rest keepFrom : Nat}
    (hseqs : chain'.map BlockVersion.commitSeq = chain.map BlockVersion.commitSeq) :
    keepFromCount chain' BlockVersion.commitSeq watermark rest keepFrom =
      keepFromCount chain BlockVersion.commitSeq watermark rest keepFrom := by
  induction rest generalizing keepFrom with
  | zero => rfl
  | succ rest ih =>
    have hnext : (chain'[keepFrom + 1]?).map BlockVersion.commitSeq =
        (chain[keepFrom + 1]?).map BlockVersion.commitSeq := by
      rw [← List.getElem?_map, ← List.getElem?_map, hseqs]
    unfold keepFromCount
    cases h : chain[keepFrom + 1]? <;> cases h' : chain'[keepFrom + 1]? <;>
      simp [h, h'] at hnext ⊢
    simp [hnext, ih]

theorem inOrder_insertIdx (h : InOrder chain) (v : BlockVersion) :
    InOrder (chain.insertIdx
      (partitionPoint chain fun w => decide (w.commitSeq < v.commitSeq)) v) := by
  unfold partitionPoint
  induction chain with
  | nil => simp [InOrder]
  | cons a rest ih =>
    obtain ⟨hfirst, hrest⟩ := List.pairwise_cons.mp h
    by_cases ha : a.commitSeq < v.commitSeq
    · rw [List.takeWhile_cons_of_pos (by simpa using ha), List.length_cons,
        List.insertIdx_succ_cons]
      refine List.pairwise_cons.mpr ⟨fun w hw => ?_, ih hrest⟩
      rcases List.eq_or_mem_of_mem_insertIdx hw with rfl | hw
      · exact ha.le
      · exact hfirst w hw
    · rw [List.takeWhile_cons_of_neg (by simpa using ha), List.length_nil, List.insertIdx_zero]
      refine List.pairwise_cons.mpr ⟨fun w hw => ?_, h⟩
      rcases List.mem_cons.mp hw with rfl | hw
      · omega
      · have := hfirst w hw
        omega

section

variable [Platform]

/-- What a scan makes of a chain: the version that becomes the head is made full first. -/
def scanChain (watermark : Nat) (chain : List BlockVersion) : List BlockVersion :=
  dropOvertaken watermark
    (makeChainHeadFull chain (chain.length - (dropOvertaken watermark chain).length))

theorem makeChainHeadFull_zero (chain : List BlockVersion) : makeChainHeadFull chain 0 = chain := by
  unfold makeChainHeadFull
  cases hv : chain[0]? with
  | none => rfl
  | some v =>
    dsimp only
    split_ifs with hid
    · rw [resolveData_zero_identical hv (by cases hd : v.data <;> simp_all [VersionData.isIdentical])]
    · rfl

theorem pruneChain_eq_scanChain {chain : List BlockVersion} (horder : InOrder chain)
    (watermark : Nat) : pruneChain chain watermark = scanChain watermark chain := by
  have hcount := keepFromCount_spec chain BlockVersion.commitSeq watermark chain.length 0
  have hdrop : ∀ {chain' : List BlockVersion},
      chain'.map BlockVersion.commitSeq = chain.map BlockVersion.commitSeq →
      dropOvertaken watermark chain' =
        chain'.drop (keepFromCount chain BlockVersion.commitSeq watermark chain.length 0) := by
    intro chain' hseqs
    have hlen : chain'.length = chain.length := by simpa using congrArg List.length hseqs
    rw [← keepFromCount_congr hseqs, ← dropOvertaken_drop (inOrder_of_seqs hseqs horder) (by omega),
      List.drop_zero]
  unfold pruneChain dropPrefix scanChain
  rw [hdrop rfl, hdrop (makeChainHeadFull_seqs _ _)]
  generalize keepFromCount chain BlockVersion.commitSeq watermark chain.length 0 = k at hcount
  have hk : chain.length - (chain.drop k).length = k := by
    rcases hcount with rfl | ⟨v, hv, -⟩
    · simp
    · have := (List.getElem?_eq_some_iff.mp hv).1
      rw [List.length_drop]
      omega
  rw [hk]
  split_ifs with hpos
  · rfl
  · obtain rfl : k = 0 := by omega
    rw [makeChainHeadFull_zero, List.drop_zero]

/-! ## Shards -/

namespace MvccShard

structure Tracked (shard : MvccShard) : Prop where
  order : ∀ b, InOrder (shard.chain b)
  candidates : ∀ b, 1 < (shard.chain b).length → (shard.pruneCandidates.get? b).isSome

variable {shard shard' : MvccShard}

theorem installCommittedVersionLocked_grows {block : Nat} {staged : StagedWrite}
    {snapshot : Snapshot} {seq txnId : Nat} {dedup : Bool} {bytes : Bytes}
    (horder : InOrder (shard.chain block))
    (h : shard.installCommittedVersionLocked block staged snapshot seq txnId dedup =
      some (shard', bytes)) :
    ∃ versions, InOrder versions ∧ versions.length = (shard.chain block).length + 1 ∧
      shard'.versions = shard.versions.insert block versions ∧
      shard'.pruneCandidates = if versions.length = 2 then shard.pruneCandidates.insert block ()
        else shard.pruneCandidates := by
  obtain ⟨versionBytes, -, heq⟩ := Option.map_eq_some_iff.mp h
  obtain ⟨rfl, -⟩ := Prod.mk.inj heq
  refine ⟨_, inOrder_insertIdx horder _, ?_, rfl, rfl⟩
  have hpoint : partitionPoint (shard.chain block) (fun v => decide (v.commitSeq < seq)) ≤
      (shard.chain block).length := (List.takeWhile_sublist _).length_le
  rw [List.length_insertIdx_of_le_length hpoint]

theorem Tracked.install (h : shard.Tracked) {block : Nat} {staged : StagedWrite}
    {snapshot : Snapshot} {seq txnId : Nat} {dedup : Bool} {bytes : Bytes}
    (hinstall : shard.installCommittedVersionLocked block staged snapshot seq txnId dedup =
      some (shard', bytes)) : shard'.Tracked := by
  obtain ⟨versions, horder, hlen, hversions, hcandidates⟩ :=
    installCommittedVersionLocked_grows (h.order block) hinstall
  have hchain : ∀ b, shard'.chain b = if b = block then versions else shard.chain b := by
    intro b
    unfold chain
    rw [hversions, OrdMap.get?_insert]
    split_ifs <;> rfl
  have hkept : ∀ b, (shard.pruneCandidates.get? b).isSome →
      (shard'.pruneCandidates.get? b).isSome := by
    intro b hb
    rw [hcandidates]
    split_ifs
    · rw [OrdMap.get?_insert]
      split_ifs
      · rfl
      · exact hb
    · exact hb
  refine ⟨fun b => ?_, fun b hb => ?_⟩
  · rw [hchain]
    split_ifs
    · exact horder
    · exact h.order b
  · rw [hchain] at hb
    split_ifs at hb with heq
    · subst heq
      -- a third version finds the block already known
      by_cases htwo : versions.length = 2
      · simp [hcandidates, htwo, OrdMap.get?_insert]
      · exact hkept b (h.candidates b (by omega))
    · exact hkept b (h.candidates b hb)

theorem Tracked.prune (h : shard.Tracked) (watermark : Nat) :
    (shard.pruneOlderThan watermark).Tracked := by
  refine ⟨fun b => ?_, fun b hb => ?_⟩
  · rw [pruneOlderThan_chain]
    split_ifs
    · unfold pruneChain
      generalize keepFromCount _ _ _ _ _ = k
      have hdrop : InOrder ((shard.chain b).drop k) := (h.order b).drop
      refine inOrder_of_seqs ?_ hdrop
      rw [dropPrefix_seqs, List.map_drop]
    · exact h.order b
  · rw [pruneOlderThan_chain] at hb
    split_ifs at hb with hcandidate
    · obtain ⟨u, hu⟩ := Option.isSome_iff_exists.mp hcandidate
      unfold pruneOlderThan
      rw [OrdMap.get?_filter, hu]
      simp [Option.filter, hb]
    · exact absurd (h.candidates b hb) hcandidate

omit [Platform] in
theorem evictDurable_chain (shard : MvccShard) (bound b : Nat) :
    (shard.evictDurable bound).1.chain b =
      if (shard.versions.get? b).any (durable bound) then [] else shard.chain b := by
  unfold evictDurable chain
  rw [OrdMap.get?_filter]
  cases hv : shard.versions.get? b with
  | none => simp
  | some versions =>
    by_cases hdurable : durable bound versions <;> simp [Option.filter, hdurable]

omit [Platform] in
theorem Tracked.evict (h : shard.Tracked) (bound : Nat) : (shard.evictDurable bound).1.Tracked := by
  refine ⟨fun b => ?_, fun b hb => ?_⟩
  · rw [evictDurable_chain]
    split_ifs
    · exact List.Pairwise.nil
    · exact h.order b
  · rw [evictDurable_chain] at hb
    split_ifs at hb with hdurable
    · simp at hb
    · obtain ⟨u, hu⟩ := Option.isSome_iff_exists.mp (h.candidates b hb)
      unfold evictDurable
      rw [OrdMap.get?_filter, hu]
      simp [Option.filter, hdurable]

theorem Tracked.prune_chain (h : shard.Tracked) (watermark b : Nat) :
    (shard.pruneOlderThan watermark).chain b = scanChain watermark (shard.chain b) := by
  rw [pruneOlderThan_chain]
  split_ifs with hcandidate
  · exact pruneChain_eq_scanChain (h.order b) watermark
  · have hshort : (shard.chain b).length ≤ 1 := by
      by_contra hlong
      exact hcandidate (h.candidates b (by omega))
    have hkeep : dropOvertaken watermark (shard.chain b) = shard.chain b := by
      match hchain : shard.chain b with
      | [] => rfl
      | [v] => rfl
      | v :: next :: rest => simp [hchain] at hshort
    unfold scanChain
    rw [hkeep, Nat.sub_self, makeChainHeadFull_zero, hkeep]

end MvccShard

/-! ## The store -/

namespace ShardedMvccStore

variable {s : ShardedMvccStore}

omit [Platform] in
theorem tracked_setShard (h : ∀ i, (s.shards i).Tracked) {idx : Nat} {shard : MvccShard}
    (hshard : shard.Tracked) : ∀ i, ((s.setShard idx shard).shards i).Tracked := by
  intro i
  simp only [setShard, Function.update_apply]
  split_ifs
  · exact hshard
  · exact h i

theorem Reaches.tracked (h : Reaches s) : ∀ i, (s.shards i).Tracked := by
  induction h with
  | new => exact fun i => ⟨fun b => List.Pairwise.nil, fun b hb => nomatch hb⟩
  | install _ hinstall ih => exact tracked_setShard ih ((ih _).install hinstall)
  | prune _ idx watermark ih => exact tracked_setShard ih ((ih idx).prune watermark)
  | evict _ idx bound ih => exact tracked_setShard ih ((ih idx).evict bound)
  | other _ hshards _ _ ih =>
    rw [hshards]
    exact ih

theorem Reaches.shardIndex_lt (h : Reaches s) (b : Nat) : s.shardIndex b < s.shardCount := by
  have hmask : s.shardMask < s.shardCount := by
    induction h with
    | new shardCount policy mode => exact shardMask_lt shardCount policy mode
    | install _ _ ih => exact ih
    | prune _ _ _ ih => exact ih
    | evict _ _ _ ih => exact ih
    | other _ _ hcount hmask ih =>
      rw [hcount, hmask]
      exact ih
  exact Nat.lt_of_le_of_lt Nat.and_le_right hmask

/-! ### The operations as a whole -/

theorem Reaches.pruneVersionsOlderThan (h : Reaches s) (watermark : Nat) :
    Reaches (s.pruneVersionsOlderThan watermark) := by
  unfold ShardedMvccStore.pruneVersionsOlderThan
  generalize List.range s.shardCount = indices
  induction indices generalizing s with
  | nil => exact h
  | cons idx rest ih => exact ih (h.prune idx watermark)

theorem Reaches.evictDurableChains (h : Reaches s) (durableThrough : Nat) :
    Reaches (s.evictDurableChains durableThrough).1 := by
  unfold ShardedMvccStore.evictDurableChains
  dsimp only
  generalize (s.watermark.map fun wm => min wm durableThrough).getD durableThrough = bound
  generalize List.range s.shardCount = indices
  generalize ([] : List Nat) = evicted
  induction indices generalizing s evicted with
  | nil => exact h
  | cons idx rest ih => exact ih (h.evict idx bound) _

variable {x : ShardedSystem}

theorem Reaches.startCommit (h : Reaches x.store) (txn : Transaction) (effective : ConflictPolicy) :
    Reaches (x.startCommit txn effective).store := by
  unfold ShardedSystem.startCommit
  split
  · exact h
  · split
    · exact h
    · rename_i hseq
      unfold nextCommitSeq at hseq
      split_ifs at hseq
      cases hseq
      split_ifs <;> exact h.other rfl rfl rfl

theorem Reaches.installNext (h : Reaches x.store) (seq : Nat) (f : InFlight) (block : Nat)
    (staged : StagedWrite) (pending : List (Nat × StagedWrite)) :
    Reaches (x.installNext seq f block staged pending).store := by
  unfold ShardedSystem.installNext
  split
  · exact h
  · rename_i hinstall
    exact h.install hinstall

theorem Reaches.step {x' : ShardedSystem} (h : Reaches x.store) {op : ShardedStep}
    (hstep : x.step op = some x') : Reaches x'.store := by
  cases op with
  | beginRegistered =>
    simp only [ShardedSystem.step] at hstep
    split_ifs at hstep
    cases hstep
    unfold ShardedMvccStore.beginRegistered ShardedMvccStore.begin
    split_ifs <;> exact h.other rfl rfl rfl
  | release snapshot =>
    simp only [ShardedSystem.step] at hstep
    split_ifs at hstep
    cases hstep
    exact h.other rfl rfl rfl
  | commit txn effective =>
    simp only [ShardedSystem.step] at hstep
    split at hstep
    · cases hstep
      exact h
    · split_ifs at hstep
      · cases hstep
        exact h
      · cases hstep
        exact h.startCommit txn effective
  | install seq =>
    simp only [ShardedSystem.step] at hstep
    split at hstep
    · split at hstep
      · cases hstep
        exact h.installNext ..
      · cases hstep
    · cases hstep
  | unlock seq =>
    simp only [ShardedSystem.step] at hstep
    split at hstep
    · split_ifs at hstep
      cases hstep
      exact h.other rfl rfl rfl
    · cases hstep
  | announce seq =>
    simp only [ShardedSystem.step] at hstep
    split_ifs at hstep
    obtain ⟨gate, -, rfl⟩ := Option.map_eq_some_iff.mp hstep
    exact h.other rfl rfl rfl
  | advance =>
    obtain ⟨gate, -, rfl⟩ := Option.map_eq_some_iff.mp hstep
    exact h.other rfl rfl rfl
  | pruneSafe =>
    simp only [ShardedSystem.step] at hstep
    split_ifs at hstep
    cases hstep
    exact h
  | pruneShard =>
    simp only [ShardedSystem.step] at hstep
    split at hstep
    · split_ifs at hstep
      cases hstep
      exact h.prune ..
    · cases hstep
  | pruneDone =>
    simp only [ShardedSystem.step] at hstep
    split at hstep
    · split_ifs at hstep
      cases hstep
      exact h
    · cases hstep

theorem Reaches.run {x' : ShardedSystem} (h : Reaches x.store) {ops : List ShardedStep}
    (hrun : x.run ops = some x') : Reaches x'.store := by
  induction ops generalizing x with
  | nil =>
    cases hrun
    exact h
  | cons op ops ih =>
    obtain ⟨x₁, hstep, hrun⟩ := Option.bind_eq_some_iff.mp hrun
    exact ih (h.step hstep) hrun

/-! ### Pruning -/

theorem foldl_prune (s : ShardedMvccStore) (watermark n : Nat) :
    (List.range n).foldl (fun s idx => s.setShard idx ((s.shards idx).pruneOlderThan watermark)) s =
      { s with shards := fun i =>
          if i < n then (s.shards i).pruneOlderThan watermark else s.shards i } := by
  induction n with
  | zero => simp
  | succ n ih =>
    rw [List.range_succ, List.foldl_append, ih]
    simp only [List.foldl_cons, List.foldl_nil, setShard, Nat.lt_irrefl, if_false]
    congr 1
    funext i
    rw [Function.update_apply]
    by_cases hi : i = n
    · simp [hi]
    · have : i < n + 1 ↔ i < n := by omega
      simp [hi, this]

/-- **Candidates are enough.** In every state that commits, prunes and evictions reach, a shard
knows each of its chains that has more than one version, and a prune to any watermark leaves every
chain as a scan of all of them would. -/
theorem prune_eq_scan {s : ShardedMvccStore} (h : Reaches s) :
    (∀ i b, 1 < ((s.shards i).chain b).length → ((s.shards i).pruneCandidates.get? b).isSome) ∧
      ∀ watermark b, ((s.pruneVersionsOlderThan watermark).shardOf b).chain b =
        scanChain watermark ((s.shardOf b).chain b) := by
  refine ⟨fun i b => (h.tracked i).candidates b, fun watermark b => ?_⟩
  have hshard : (s.pruneVersionsOlderThan watermark).shardOf b =
      (s.shardOf b).pruneOlderThan watermark := by
    unfold pruneVersionsOlderThan
    rw [foldl_prune]
    exact if_pos (h.shardIndex_lt b)
  rw [hshard]
  exact (h.tracked _).prune_chain watermark b

end ShardedMvccStore

end

/-! ## Two versions of a block -/

section Examples

local instance pruningPlatform : Platform := exactPlatform

def twoVersions : List ShardedStep :=
  [.commit ((Transaction.new 1 ⟨0⟩).stageWrite 5 [1]) .strict, .install 1, .unlock 1, .announce 1,
    .advance, .commit ((Transaction.new 2 ⟨1⟩).stageWrite 5 [1]) .strict, .install 2]

theorem prune_eq_scan_twoVersions :
    ∃ x, (ShardedSystem.new 2 default .mutex).run twoVersions = some x ∧
      x.store.Reaches ∧ ((x.store.shardOf 5).chain 5).length = 2 ∧
      ((x.store.shards 1).pruneCandidates.get? 5).isSome ∧
      ((x.store.pruneVersionsOlderThan 2).shardOf 5).chain 5 =
        scanChain 2 ((x.store.shardOf 5).chain 5) ∧
      ((x.store.pruneVersionsOlderThan 2).shardOf 5).chain 5 = [⟨5, 2, 2, .full [1]⟩] := by
  have h : ((ShardedSystem.new 2 default .mutex).run twoVersions).map (fun x =>
      (((x.store.shards 1).chain 5).length, ((x.store.shardOf 5).chain 5).length,
        ((x.store.pruneVersionsOlderThan 2).shardOf 5).chain 5)) =
      some (2, 2, [⟨5, 2, 2, .full [1]⟩]) := by decide
  obtain ⟨x, hrun, hx⟩ := Option.map_eq_some_iff.mp h
  simp only [Prod.mk.injEq] at hx
  have hreaches : x.store.Reaches := (ShardedMvccStore.Reaches.new 2 default .mutex).run hrun
  obtain ⟨hcandidates, hscan⟩ := ShardedMvccStore.prune_eq_scan hreaches
  exact ⟨x, hrun, hreaches, hx.2.1, hcandidates 1 5 (by omega), hscan 2 5, hx.2.2⟩

end Examples

end FrankenFs.Mvcc
