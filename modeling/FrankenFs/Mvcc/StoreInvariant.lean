import FrankenFs.Mvcc.Recovery
import FrankenFs.Mvcc.WalStream

/-!
# Sound stores

Every chain is in commit order, every version of it can be read, and the counters are ahead of
everything stored.
-/

open FrankenFs.Lib

namespace FrankenFs.Mvcc

variable [Platform]

/-! ## Chains -/

structure SoundChain (block nextTxn nextCommit : Nat) (chain : List BlockVersion) : Prop where
  stores : ∃ es, Stores chain es
  ascending : chain.Pairwise fun a b => a.commitSeq < b.commitSeq
  version : ∀ v ∈ chain,
    v.block = block ∧ 0 < v.commitSeq ∧ v.commitSeq < nextCommit ∧ v.writer < nextTxn

namespace SoundChain

variable {block nextTxn nextCommit : Nat} {chain : List BlockVersion}

theorem nil (block nextTxn nextCommit : Nat) : SoundChain block nextTxn nextCommit [] :=
  ⟨⟨[], stores_nil⟩, .nil, by simp⟩

theorem entries (h : SoundChain block nextTxn nextCommit chain) :
    ∃ es, Stores chain es ∧ Ascending es := by
  obtain ⟨es, hes⟩ := h.stores
  refine ⟨es, hes, ?_⟩
  have hasc := h.ascending
  rw [← List.pairwise_map (f := BlockVersion.commitSeq) (R := (· < ·)), hes.seqs,
    List.pairwise_map] at hasc
  exact hasc

theorem mono (h : SoundChain block nextTxn nextCommit chain) {nextTxn' nextCommit' : Nat}
    (htxn : nextTxn ≤ nextTxn') (hcommit : nextCommit ≤ nextCommit') :
    SoundChain block nextTxn' nextCommit' chain :=
  ⟨h.stores, h.ascending, fun v hv => by
    obtain ⟨hb, h0, hc, ht⟩ := h.version v hv
    exact ⟨hb, h0, by omega, by omega⟩⟩

theorem below (h : SoundChain block nextTxn nextCommit chain) {c : Nat}
    (hc : ∀ v ∈ chain, v.commitSeq < c) : SoundChain block nextTxn c chain :=
  ⟨h.stores, h.ascending, fun v hv =>
    ⟨(h.version v hv).1, (h.version v hv).2.1, hc v hv, (h.version v hv).2.2.2⟩⟩

theorem push (h : SoundChain block nextTxn nextCommit chain) {v : BlockVersion} {bytes : Bytes}
    (hv : Encodes chain v.data bytes) (hb : v.block = block) (hpos : 0 < v.commitSeq)
    (hnext : nextCommit ≤ v.commitSeq) (hw : v.writer < nextTxn) :
    SoundChain block nextTxn (v.commitSeq + 1) (chain ++ [v]) := by
  obtain ⟨es, hes⟩ := h.stores
  refine ⟨⟨_, hes.push hv⟩, ?_, fun u hu => ?_⟩
  · rw [List.pairwise_append]
    refine ⟨h.ascending, List.pairwise_singleton _ _, fun u hu u' hu' => ?_⟩
    rw [List.mem_singleton.mp hu']
    have := (h.version u hu).2.2.1
    omega
  · rcases List.mem_append.mp hu with hu | hu
    · obtain ⟨hub, hu0, huc, hut⟩ := h.version u hu
      exact ⟨hub, hu0, by omega, hut⟩
    · rw [List.mem_singleton.mp hu]
      exact ⟨hb, hpos, Nat.lt_succ_self _, hw⟩

theorem dropPrefix (h : SoundChain block nextTxn nextCommit chain) (k : Nat) :
    SoundChain block nextTxn nextCommit (dropPrefix chain k) := by
  obtain ⟨es, hes⟩ := h.stores
  refine ⟨⟨_, hes.dropPrefix k⟩, ?_, fun v hv => ?_⟩
  · rw [← List.pairwise_map (f := BlockVersion.commitSeq) (R := (· < ·)), dropPrefix_seqs]
    exact (List.pairwise_map.mpr h.ascending).sublist (List.drop_sublist _ _)
  · -- Only the data of the head may have changed.
    have hmem := List.mem_map_of_mem (f := fun v => (v.block, v.commitSeq, v.writer)) hv
    rw [dropPrefix_map fun _ _ => rfl] at hmem
    obtain ⟨u, hu, heq⟩ := List.mem_map.mp (List.mem_of_mem_drop hmem)
    simp only [Prod.mk.injEq] at heq
    obtain ⟨hb, hc, hw⟩ := heq
    rw [← hb, ← hc, ← hw]
    exact h.version u hu

theorem pushedChain {s : MvccStore} {v : BlockVersion}
    (h : SoundChain block nextTxn nextCommit (chain ++ [v])) :
    SoundChain block nextTxn nextCommit (s.pushedChain v chain) := by
  unfold MvccStore.pushedChain
  split
  · exact h.dropPrefix _
  · exact h

end SoundChain

namespace MvccStore

def physicalChain (s : MvccStore) (logical : Nat) : List PhysicalBlockVersion :=
  (s.physicalVersions.get? logical).getD []

/-! ## What a commit installs -/

section Commit

variable {s s' : MvccStore}

theorem commitWith_eq {txn : Transaction} {useSsi : Bool} {c : Nat}
    (h : (if useSsi then s.commitSsi txn else s.commit txn) = (s', .ok c)) :
    ∃ sp ws, sp = (s.preflightFcw txn).1 ∧ SameData s sp ∧ ws.map Prod.fst = txn.writeSet ∧
      c = s.nextCommit ∧ c + 1 ≤ u64Max ∧
      s' = { installVersions { sp with nextCommit := c + 1 } txn c ws with
        ssiLog := if useSsi then s.ssiLog ++ [ssiRecord txn c] else s.ssiLog } := by
  cases useSsi with
  | false =>
    obtain ⟨sp, ws, hp, hws, hc, hmax, rfl⟩ := commit_eq h
    have hsame := sameData_of_preflight hp
    refine ⟨sp, ws, by rw [hp], hsame, versionBytes_keys hws, hc.trans hsame.nextCommit, hmax, ?_⟩
    have hlog := (installVersions_sameControl txn c ws { sp with nextCommit := c + 1 }).ssiLog
    rw [if_neg Bool.false_ne_true, ← hlog.trans hsame.ssiLog]
  | true =>
    obtain ⟨sp, ws, n, hp, -, hws, hc, hmax, rfl⟩ := commitSsi_eq h
    have hsame := sameData_of_preflight hp
    exact ⟨sp, ws, by rw [hp], hsame, versionBytes_keys hws, hc.trans hsame.nextCommit, hmax, rfl⟩

def stagedCopy (txn : Transaction) (commitSeq block : Nat) : List PhysicalBlockVersion :=
  ((txn.cowWrites.get? block).map fun intent =>
    ⟨block, intent.newPhysical, commitSeq, txn.id⟩).toList

theorem pushedPhysical_eq (s : MvccStore) {txn : Transaction} {c l : Nat}
    (hs : (s.physicalChain l ++ stagedCopy txn c l).Pairwise fun a b => a.commitSeq < b.commitSeq) :
    (s.pushedPhysical txn c l).getD [] = (s.physicalChain l ++ stagedCopy txn c l).drop
      (trimmed s.compressionPolicy.maxChainLength s.gcWatermark
        ((s.physicalChain l ++ stagedCopy txn c l).map PhysicalBlockVersion.commitSeq)) := by
  have hpushed : (s.pushedPhysical txn c l).getD [] =
      s.compressionPolicy.maxChainLength.elim (s.physicalChain l ++ stagedCopy txn c l) fun cap =>
        trimPhysicalChainToCap (s.physicalChain l ++ stagedCopy txn c l) (max cap 1)
          s.gcWatermark := by
    unfold pushedPhysical stagedCopy physicalChain
    cases txn.cowWrites.get? l <;> cases s.compressionPolicy.maxChainLength <;>
      cases s.physicalVersions.get? l <;> simp [trimPhysicalChainToCap]
  rw [hpushed]
  cases s.compressionPolicy.maxChainLength with
  | none => rfl
  | some cap =>
    rw [Option.elim_some, trimPhysicalChainToCap,
      trimCount_eq (List.pairwise_map.mpr hs) _ _ (Nat.le_add_right _ _), Nat.zero_max, trimmed,
      Option.elim_some, List.length_map]

theorem committed_chain {txn : Transaction} {c : Nat} {ws : List (Nat × Bytes)}
    (hkeys : ws.map Prod.fst = txn.writeSet) (sp : MvccStore) {b : Nat} (hb : b ∈ txn.writeSet) :
    ∃ bytes, (installVersions { sp with nextCommit := c + 1 } txn c ws).versions.get? b =
      some (pushedChain { sp with nextCommit := c + 1 }
        ⟨b, c, txn.id, sp.versionDataFor b bytes⟩ (sp.chain b)) := by
  have hnd : (ws.map Prod.fst).Nodup := hkeys ▸ txn.stagedWrites.keys_nodup
  rw [← hkeys] at hb
  obtain ⟨w, hw, rfl⟩ := List.mem_map.mp hb
  refine ⟨w.2, ?_⟩
  rw [installVersions_versions txn c ws hnd, lookup_of_mem hnd hw]
  rfl

theorem untouched_chain {txn : Transaction} {c : Nat} {ws : List (Nat × Bytes)}
    (hkeys : ws.map Prod.fst = txn.writeSet) (sp : MvccStore) {b : Nat} (hb : b ∉ txn.writeSet) :
    (installVersions { sp with nextCommit := c + 1 } txn c ws).versions.get? b =
      sp.versions.get? b := by
  have hnd : (ws.map Prod.fst).Nodup := hkeys ▸ txn.stagedWrites.keys_nodup
  have hnone : ws.lookup b = none := by
    rw [List.lookup_eq_none_iff]
    intro w hw
    simp only [bne_iff_ne]
    rintro rfl
    exact hb (hkeys ▸ List.mem_map_of_mem hw)
  rw [installVersions_versions txn c ws hnd, hnone]

theorem committed_physical {txn : Transaction} {c : Nat} {ws : List (Nat × Bytes)}
    (hkeys : ws.map Prod.fst = txn.writeSet) (sp : MvccStore) (l : Nat) :
    (installVersions { sp with nextCommit := c + 1 } txn c ws).physicalVersions.get? l =
      if l ∈ txn.writeSet then pushedPhysical { sp with nextCommit := c + 1 } txn c l
      else sp.physicalVersions.get? l := by
  have hnd : (ws.map Prod.fst).Nodup := hkeys ▸ txn.stagedWrites.keys_nodup
  rw [installVersions_physical txn c ws hnd, hkeys]

omit [Platform] in
theorem physical_snoc {old : List PhysicalBlockVersion} {c : Nat}
    (hold : old.Pairwise (fun a b => a.commitSeq < b.commitSeq) ∧ ∀ v ∈ old, v.commitSeq < c)
    (txn : Transaction) (l : Nat) :
    (old ++ stagedCopy txn c l).Pairwise (fun a b => a.commitSeq < b.commitSeq) ∧
      ∀ v ∈ old ++ stagedCopy txn c l, v.commitSeq < c + 1 := by
  have hcopy : ∀ v ∈ stagedCopy txn c l, v.commitSeq = c := by
    unfold stagedCopy
    cases txn.cowWrites.get? l <;> simp
  refine ⟨List.pairwise_append.mpr ⟨hold.1, ?_, fun a ha b hb => ?_⟩, fun v hv => ?_⟩
  · unfold stagedCopy
    cases txn.cowWrites.get? l <;> simp
  · rw [hcopy b hb]
    exact hold.2 a ha
  · rcases List.mem_append.mp hv with hv | hv
    · exact Nat.lt_succ_of_lt (hold.2 v hv)
    · rw [hcopy v hv]
      exact Nat.lt_succ_self c

end Commit

/-! ## What a rollback leaves -/

section Rollback

variable {s s' : MvccStore} {txn : Transaction} {useSsi : Bool} {c : Nat}

theorem pushedChain_eq (s : MvccStore) {v : BlockVersion} {old : List BlockVersion}
    (hs : (old ++ [v]).Pairwise fun a b => a.commitSeq < b.commitSeq) :
    s.pushedChain v old = dropPrefix (old ++ [v]) (trimmed s.compressionPolicy.maxChainLength
      s.gcWatermark ((old ++ [v]).map BlockVersion.commitSeq)) := by
  unfold pushedChain
  cases s.compressionPolicy.maxChainLength with
  | none => rfl
  | some cap =>
    dsimp only
    rw [trimBlockChainToCap, trimCount_eq (List.pairwise_map.mpr hs) _ _ (Nat.le_add_right _ _),
      Nat.zero_max, trimmed, Option.elim_some, List.length_map]

/-- The oldest snapshot that the preflight leaves registered, or else the commit itself. -/
def trimBound (s : MvccStore) (txn : Transaction) : Nat :=
  (s.preflightFcw txn).1.watermark.getD s.nextCommit

def trims (s : MvccStore) (txn : Transaction) (seqs pushed : List Nat) : Nat :=
  trimmed s.compressionPolicy.maxChainLength (s.trimBound txn) (seqs ++ pushed)

theorem rollback_get (s : MvccStore) (txn : Transaction) (c : Nat) (useSsi : Bool) (b : Nat) :
    (s.rollbackInMemoryCommit txn c useSsi).versions.get? b =
      if b ∈ txn.writeSet then
        popVersion (fun v => v.commitSeq == c && v.writer == txn.id) (s.versions.get? b)
      else s.versions.get? b :=
  OrdMap.get?_foldl_alter (show txn.writeSet.Nodup from txn.stagedWrites.keys_nodup) _ _ b

theorem rollback_getPhysical (s : MvccStore) (txn : Transaction) (c : Nat) (useSsi : Bool) (l : Nat) :
    (s.rollbackInMemoryCommit txn c useSsi).physicalVersions.get? l =
      if l ∈ txn.writeSet.filter fun block => (txn.cowWrites.get? block).isSome then
        popVersion (fun v => v.commitSeq == c && v.writer == txn.id) (s.physicalVersions.get? l)
      else s.physicalVersions.get? l :=
  OrdMap.get?_foldl_alter
    ((show txn.writeSet.Nodup from txn.stagedWrites.keys_nodup).filter _) _ _ l

theorem dropPrefix_snoc_getLast {old : List BlockVersion} {k : Nat} (hk : k ≤ old.length)
    (v : BlockVersion) :
    ∃ last, (dropPrefix (old ++ [v]) k).getLast? = some last ∧ last.commitSeq = v.commitSeq ∧
      last.writer = v.writer := by
  have hmap := dropPrefix_map (f := fun v => (v.commitSeq, v.writer)) (fun _ _ => rfl)
    (old ++ [v]) k
  have hlast := congrArg List.getLast? hmap
  rw [List.getLast?_map, List.map_append, List.drop_append_of_le_length (by simpa using hk),
    List.map_singleton, List.getLast?_concat] at hlast
  obtain ⟨last, hget, heq⟩ := Option.map_eq_some_iff.mp hlast
  rw [Prod.mk.injEq] at heq
  exact ⟨last, hget, heq⟩

theorem trimmed_of_preflight {sp : MvccStore} (hsp : sp = (s.preflightFcw txn).1)
    (hsame : SameData s sp) (seqs pushed : List Nat) :
    trimmed (compressionPolicy { sp with nextCommit := s.nextCommit + 1 }).maxChainLength
        (gcWatermark { sp with nextCommit := s.nextCommit + 1 }) (seqs ++ pushed) =
      s.trims txn seqs pushed := by
  unfold trims trimBound
  rw [← hsame.compressionPolicy]
  subst hsp
  rfl

/-- **A chain after a rollback** is the one before the commit, less what the commit trimmed. -/
theorem rollback_versions (hcommit : (if useSsi then s.commitSsi txn else s.commit txn) = (s', .ok c))
    {b k : Nat} (hb : b ∈ txn.writeSet)
    (hs : (s.chain b).Pairwise fun u v => u.commitSeq < v.commitSeq)
    (hlt : ∀ v ∈ s.chain b, v.commitSeq < s.nextCommit)
    (hk : k = s.trims txn ((s.chain b).map BlockVersion.commitSeq) [s.nextCommit]) :
    k ≤ (s.chain b).length ∧
      (s'.rollbackInMemoryCommit txn c useSsi).versions.get? b =
        if (dropPrefix (s.chain b) k).isEmpty then none else some (dropPrefix (s.chain b) k) := by
  obtain ⟨sp, ws, hsp, hsame, hkeys, rfl, -, rfl⟩ := commitWith_eq hcommit
  obtain ⟨bytes, hget⟩ := committed_chain hkeys sp hb
  rw [hsame.chain b, pushedChain_eq _ (List.pairwise_append.mpr ⟨hs, List.pairwise_singleton _ _,
    fun u hu v hv => by rw [List.mem_singleton.mp hv]; exact hlt u hu⟩), List.map_append,
    List.map_singleton, trimmed_of_preflight hsp hsame, ← hk] at hget
  have hle : k ≤ (s.chain b).length := by
    have := trimmed_le s.compressionPolicy.maxChainLength (s.trimBound txn)
      ((s.chain b).map BlockVersion.commitSeq ++ [s.nextCommit])
    rw [← trims, ← hk, List.length_append, List.length_map] at this
    exact this
  obtain ⟨last, hlast, hseq, hwriter⟩ := dropPrefix_snoc_getLast hle
    ⟨b, s.nextCommit, txn.id, sp.versionDataFor b bytes⟩
  have hundo : (some last).any
      (fun v => v.commitSeq == s.nextCommit && v.writer == txn.id) = true := by
    simp [hseq, hwriter]
  refine ⟨hle, ?_⟩
  simp only [rollback_get, if_pos hb, hget, popVersion, Option.bind_some, hlast, hundo, if_true,
    dropPrefix_snoc_dropLast hle]

theorem rollback_untouched
    (hcommit : (if useSsi then s.commitSsi txn else s.commit txn) = (s', .ok c))
    {b : Nat} (hb : b ∉ txn.writeSet) :
    s'.versions.get? b = s.versions.get? b ∧
      (s'.rollbackInMemoryCommit txn c useSsi).versions.get? b = s.versions.get? b := by
  obtain ⟨sp, ws, -, hsame, hkeys, -, -, rfl⟩ := commitWith_eq hcommit
  have hget := (untouched_chain (c := c) hkeys sp hb).trans
    (congrArg (OrdMap.get? · b) hsame.versions)
  exact ⟨hget, by rw [rollback_get, if_neg hb]; exact hget⟩

/-- **A physical chain after a rollback.** The trim runs on every block of the write set, also on
those that were not copied. -/
theorem rollback_physical
    (hcommit : (if useSsi then s.commitSsi txn else s.commit txn) = (s', .ok c)) {l : Nat}
    (hl : l ∈ txn.writeSet)
    (hold : (s.physicalChain l).Pairwise (fun a b => a.commitSeq < b.commitSeq) ∧
      ∀ v ∈ s.physicalChain l, v.commitSeq < s.nextCommit) :
    (s'.rollbackInMemoryCommit txn c useSsi).physicalChain l = (s.physicalChain l).drop
      (s.trims txn ((s.physicalChain l).map PhysicalBlockVersion.commitSeq)
        ((stagedCopy txn s.nextCommit l).map PhysicalBlockVersion.commitSeq)) := by
  obtain ⟨sp, ws, hsp, hsame, hkeys, rfl, -, rfl⟩ := commitWith_eq hcommit
  have hphys := committed_physical (c := s.nextCommit) hkeys sp l
  rw [if_pos hl] at hphys
  have hchain : physicalChain { sp with nextCommit := s.nextCommit + 1 } l = s.physicalChain l := by
    simp only [physicalChain, hsame.physicalVersions]
  have hk := @pushedPhysical_eq _ { sp with nextCommit := s.nextCommit + 1 } txn s.nextCommit l
    (by rw [hchain]; exact (physical_snoc hold txn l).1)
  rw [hchain, List.map_append, trimmed_of_preflight hsp hsame] at hk
  have hle := trimmed_le s.compressionPolicy.maxChainLength (s.trimBound txn)
    ((s.physicalChain l).map PhysicalBlockVersion.commitSeq ++
      (stagedCopy txn s.nextCommit l).map PhysicalBlockVersion.commitSeq)
  rw [← trims, List.length_append, List.length_map, List.length_map] at hle
  generalize s.trims txn ((s.physicalChain l).map PhysicalBlockVersion.commitSeq)
    ((stagedCopy txn s.nextCommit l).map PhysicalBlockVersion.commitSeq) = k at hk hle ⊢
  cases hcow : txn.cowWrites.get? l with
  | none =>
    have hcopy : stagedCopy txn s.nextCommit l = [] := by simp [stagedCopy, hcow]
    rw [hcopy, List.append_nil] at hk
    simp only [physicalChain, rollback_getPhysical, List.mem_filter, hcow, Option.isSome_none,
      Bool.false_eq_true, and_false, if_false, hphys]
    exact hk
  | some intent =>
    have hcopy : stagedCopy txn s.nextCommit l = [⟨l, intent.newPhysical, s.nextCommit, txn.id⟩] := by
      simp [stagedCopy, hcow]
    rw [hcopy, List.length_singleton, Nat.add_sub_cancel] at hle
    rw [hcopy, List.drop_append_of_le_length hle] at hk
    have hsome : pushedPhysical { sp with nextCommit := s.nextCommit + 1 } txn s.nextCommit l =
        some ((s.physicalChain l).drop k ++ [⟨l, intent.newPhysical, s.nextCommit, txn.id⟩]) := by
      cases hp : pushedPhysical { sp with nextCommit := s.nextCommit + 1 } txn s.nextCommit l with
      | none => simp [hp] at hk
      | some chain => rw [← hk, hp, Option.getD_some]
    simp only [physicalChain, rollback_getPhysical, List.mem_filter, hl, hcow, Option.isSome_some,
      and_self, if_true, hphys, hsome, popVersion, Option.bind_some, List.getLast?_concat,
      Option.any_some, beq_self_eq_true, Bool.and_self, List.dropLast_concat]
    cases List.drop k ((s.physicalVersions.get? l).getD []) <;> simp

theorem rollback_physical_untouched
    (hcommit : (if useSsi then s.commitSsi txn else s.commit txn) = (s', .ok c)) {l : Nat}
    (hl : l ∉ txn.writeSet) :
    (s'.rollbackInMemoryCommit txn c useSsi).physicalVersions.get? l = s.physicalVersions.get? l := by
  obtain ⟨sp, ws, -, hsame, hkeys, -, -, rfl⟩ := commitWith_eq hcommit
  rw [rollback_getPhysical, if_neg fun hmem => hl (List.mem_filter.mp hmem).1]
  exact (committed_physical hkeys sp l).trans
    ((if_neg hl).trans (congrArg (OrdMap.get? · l) hsame.physicalVersions))

end Rollback

/-! ## Stores -/

structure Sound (s : MvccStore) : Prop where
  commitPos : 0 < s.nextCommit
  commitBound : s.nextCommit ≤ u64Max
  txnPos : 0 < s.nextTxn
  txnBound : s.nextTxn ≤ u64Max
  blocks : ∀ b chain, s.versions.get? b = some chain →
    b ≤ u64Max ∧ chain ≠ [] ∧ SoundChain b s.nextTxn s.nextCommit chain
  physical : ∀ l, (s.physicalChain l).Pairwise (fun a b => a.commitSeq < b.commitSeq) ∧
    ∀ v ∈ s.physicalChain l, v.commitSeq < s.nextCommit

namespace Sound

variable {s s' : MvccStore}

theorem chain (h : s.Sound) (b : Nat) : SoundChain b s.nextTxn s.nextCommit (s.chain b) := by
  unfold MvccStore.chain
  cases hb : s.versions.get? b with
  | none => exact SoundChain.nil _ _ _
  | some chain => exact (h.blocks b chain hb).2.2

theorem congr (h : s.Sound) (htxn : s'.nextTxn = s.nextTxn) (hcommit : s'.nextCommit = s.nextCommit)
    (hversions : s'.versions = s.versions) (hphysical : s'.physicalVersions = s.physicalVersions) :
    s'.Sound := by
  obtain ⟨h1, h2, h3, h4, h5, h6⟩ := h
  unfold physicalChain at h6
  rw [← hcommit] at h1 h2 h5 h6
  rw [← htxn] at h3 h4 h5
  rw [← hversions] at h5
  rw [← hphysical] at h6
  exact ⟨h1, h2, h3, h4, h5, h6⟩

theorem sameData (h : s.Sound) (hs : SameData s s') : s'.Sound :=
  h.congr hs.nextTxn hs.nextCommit hs.versions hs.physicalVersions

theorem begin (h : s.Sound) : s.begin.1.Sound := by
  have hle : s.nextTxn ≤ u64SaturatingAdd s.nextTxn 1 := by
    have := h.txnBound
    unfold u64SaturatingAdd
    omega
  refine ⟨h.commitPos, h.commitBound, lt_of_lt_of_le h.txnPos hle, ?_, fun b chain hb => ?_,
    h.physical⟩
  · exact min_le_right _ _
  · obtain ⟨hu, hne, hchain⟩ := h.blocks b chain hb
    exact ⟨hu, hne, hchain.mono hle le_rfl⟩

/-! ## Commits and rollback -/

theorem committed [Platform.Lossless] (h : s.Sound) {txn : Transaction} {useSsi : Bool} {c : Nat}
    (hid : txn.id < s.nextTxn) (hblocks : ∀ b ∈ txn.writeSet, b ≤ u64Max)
    (hcommit : (if useSsi then s.commitSsi txn else s.commit txn) = (s', .ok c)) : s'.Sound := by
  obtain ⟨sp, ws, -, hsame, hkeys, rfl, hmax, rfl⟩ := commitWith_eq hcommit
  have hp : sp.Sound := h.sameData hsame
  have hctl := installVersions_sameControl txn s.nextCommit ws
    { sp with nextCommit := s.nextCommit + 1 }
  refine ⟨?_, ?_, ?_, ?_, fun b chain hb => ?_, fun l => ?_⟩
  · simp only [hctl.nextCommit]
    omega
  · simp only [hctl.nextCommit]
    exact hmax
  · simp only [hctl.nextTxn]
    exact hp.txnPos
  · simp only [hctl.nextTxn]
    exact hp.txnBound
  · simp only [hctl.nextTxn, hctl.nextCommit] at hb ⊢
    by_cases hmem : b ∈ txn.writeSet
    · obtain ⟨bytes, hget⟩ := committed_chain hkeys sp hmem
      obtain rfl := Option.some.inj (hget.symm.trans hb)
      have hpush := (hp.chain b).push (v := ⟨b, s.nextCommit, txn.id, sp.versionDataFor b bytes⟩)
        (sp.versionDataFor_encodes b bytes) rfl h.commitPos hsame.nextCommit.le
        (hsame.nextTxn ▸ hid)
      refine ⟨hblocks b hmem, fun hnil => ?_, hpush.pushedChain⟩
      have hlatest := pushedChain_latest { sp with nextCommit := s.nextCommit + 1 }
        ⟨b, s.nextCommit, txn.id, sp.versionDataFor b bytes⟩ (sp.chain b)
      simp [hnil] at hlatest
    · rw [untouched_chain hkeys sp hmem] at hb
      obtain ⟨hu, hne, hchain⟩ := hp.blocks b chain hb
      exact ⟨hu, hne, hchain.mono le_rfl (by have := hsame.nextCommit; omega)⟩
  · simp only [hctl.nextCommit, physicalChain, committed_physical hkeys sp l]
    have hold := hp.physical l
    rw [hsame.nextCommit] at hold
    by_cases hmem : l ∈ txn.writeSet
    · rw [if_pos hmem]
      obtain ⟨hasc, hlt⟩ := physical_snoc hold txn l
      rw [pushedPhysical_eq { sp with nextCommit := s.nextCommit + 1 } hasc]
      exact ⟨hasc.sublist (List.drop_sublist _ _), fun v hv => hlt v (List.mem_of_mem_drop hv)⟩
    · rw [if_neg hmem]
      exact ⟨hold.1, fun v hv => Nat.lt_succ_of_lt (hold.2 v hv)⟩

theorem rolledBack (h : s.Sound) {txn : Transaction} {useSsi : Bool} {c : Nat}
    (hcommit : (if useSsi then s.commitSsi txn else s.commit txn) = (s', .ok c)) :
    (s'.rollbackInMemoryCommit txn c useSsi).Sound := by
  obtain ⟨sp, ws, -, hsame, -, rfl, -, hs'⟩ := commitWith_eq hcommit
  have htxn : s'.nextTxn = s.nextTxn := by
    rw [hs']
    exact (installVersions_sameControl ..).nextTxn.trans hsame.nextTxn
  refine ⟨h.commitPos, h.commitBound, htxn ▸ h.txnPos, htxn ▸ h.txnBound, fun b chain hb => ?_,
    fun l => ?_⟩
  · rw [show (s'.rollbackInMemoryCommit txn s.nextCommit useSsi).nextTxn = s.nextTxn from htxn]
    by_cases hmem : b ∈ txn.writeSet
    · obtain ⟨hk, hget⟩ := rollback_versions hcommit hmem (h.chain b).ascending
        (fun v hv => ((h.chain b).version v hv).2.2.1) rfl
      generalize s.trims txn ((s.chain b).map BlockVersion.commitSeq) [s.nextCommit] = k at hk hget
      rw [hget] at hb
      split_ifs at hb with hempty
      obtain rfl := Option.some.inj hb
      -- A chain that is left had versions before, so its block was checked then.
      have hold : s.versions.get? b = some (s.chain b) := by
        unfold MvccStore.chain
        cases hv : s.versions.get? b with
        | some chain => rfl
        | none =>
          have hnil : s.chain b = [] := by simp [MvccStore.chain, hv]
          rw [hnil] at hempty hk
          obtain rfl : k = 0 := by simpa using hk
          exact absurd rfl hempty
      exact ⟨(h.blocks b _ hold).1, by simpa using hempty, (h.chain b).dropPrefix k⟩
    · rw [(rollback_untouched hcommit hmem).2] at hb
      exact h.blocks b chain hb
  · by_cases hmem : l ∈ txn.writeSet
    · rw [rollback_physical hcommit hmem (h.physical l)]
      exact ⟨(h.physical l).1.sublist (List.drop_sublist _ _),
        fun v hv => (h.physical l).2 v (List.mem_of_mem_drop hv)⟩
    · rw [physicalChain, rollback_physical_untouched hcommit hmem]
      exact h.physical l

/-! ## Garbage collection -/

theorem pruned (h : s.Sound) (watermark : Nat) : (s.pruneVersionsOlderThan watermark).Sound := by
  refine ⟨h.commitPos, h.commitBound, h.txnPos, h.txnBound, fun b chain hb => ?_, fun l => ?_⟩
  · simp only [pruneVersionsOlderThan, OrdMap.get?_map] at hb
    obtain ⟨old, hold, rfl⟩ := Option.map_eq_some_iff.mp hb
    obtain ⟨hu, hne, hchain⟩ := h.blocks b old hold
    refine ⟨hu, fun hnil => hne ?_, hchain.dropPrefix _⟩
    have hlatest := pruneChain_latest old watermark
    rw [hnil] at hlatest
    simpa using hlatest.symm
  · have hphys : (s.pruneVersionsOlderThan watermark).physicalChain l =
        prunePhysicalChain (s.physicalChain l) watermark := by
      simp only [pruneVersionsOlderThan, physicalChain, OrdMap.get?_map]
      cases s.physicalVersions.get? l <;> simp [prunePhysicalChain, keepFromCount]
    rw [hphys]
    exact ⟨(h.physical l).1.sublist (List.drop_sublist _ _),
      fun v hv => (h.physical l).2 v (List.mem_of_mem_drop hv)⟩

theorem evicted (h : s.Sound) (durableThrough : Nat) : (s.evictDurableChains durableThrough).Sound := by
  refine ⟨h.commitPos, h.commitBound, h.txnPos, h.txnBound, fun b chain hb => ?_, h.physical⟩
  rw [evictDurableChains, OrdMap.get?_filter] at hb
  exact h.blocks b chain (Option.filter_eq_some_iff.mp hb).1

/-! ## Replay -/

theorem replayWrites_control (commit : WalCommit) (dedup : Bool) (ws : List (Nat × Bytes))
    (s : MvccStore) :
    (ws.foldl (replayWrite commit dedup) s).nextTxn = s.nextTxn ∧
      (ws.foldl (replayWrite commit dedup) s).physicalVersions = s.physicalVersions := by
  induction ws generalizing s with
  | nil => exact ⟨rfl, rfl⟩
  | cons w ws ih => exact ih _

theorem replayed [Platform.Lossless] (h : s.Sound) {commit : WalCommit} (hr : commit.InRange)
    (hnext : s.nextCommit ≤ commit.commitSeq) (hseq : commit.commitSeq ≠ u64Max)
    (htxn : commit.txnId ≠ u64Max) (hnd : (commit.writes.map Prod.fst).Nodup) :
    (s.applyWalCommit commit).Sound := by
  have hc : (s.applyWalCommit commit).nextCommit = commit.commitSeq + 1 := by
    rw [applyWalCommit_nextCommit, if_pos hnext, u64SaturatingAdd]
    have := hr.seq
    omega
  obtain ⟨ht, hphys⟩ : (s.applyWalCommit commit).nextTxn =
      (if s.nextTxn ≤ commit.txnId then u64SaturatingAdd commit.txnId 1 else s.nextTxn) ∧
      (s.applyWalCommit commit).physicalVersions = s.physicalVersions :=
    replayWrites_control commit _ commit.writes _
  have hahead : commit.txnId < (s.applyWalCommit commit).nextTxn ∧
      s.nextTxn ≤ (s.applyWalCommit commit).nextTxn ∧
      (s.applyWalCommit commit).nextTxn ≤ u64Max := by
    have := hr.txn
    have := h.txnBound
    rw [ht]
    unfold u64SaturatingAdd
    split_ifs <;> omega
  have hpos := h.commitPos
  have := hr.seq
  refine ⟨by omega, by omega, by have := h.txnPos; omega, hahead.2.2, fun b chain hb => ?_,
    fun l => ?_⟩
  · have hv := (replayWrites_versions commit commit.writes hnd _ b).symm.trans hb
    rw [hc]
    cases hl : commit.writes.lookup b with
    | none =>
      rw [hl] at hv
      obtain ⟨hu, hne, hchain⟩ := h.blocks b chain hv
      exact ⟨hu, hne, hchain.mono hahead.2.1 (by omega)⟩
    | some bytes =>
      rw [hl] at hv
      obtain rfl := Option.some.inj hv
      obtain ⟨l₁, l₂, heq, -⟩ := List.lookup_eq_some_iff.mp hl
      refine ⟨hr.blocks (b, bytes) (by rw [heq]; simp), by simp, ?_⟩
      exact ((h.chain b).mono hahead.2.1 le_rfl).push
        (v := ⟨b, commit.commitSeq, commit.txnId, s.versionDataFor b bytes⟩)
        (s.versionDataFor_encodes b bytes) rfl (Nat.lt_of_lt_of_le hpos hnext) hnext hahead.1
  · simp only [physicalChain, hphys, hc]
    exact ⟨(h.physical l).1, fun v hv => lt_of_lt_of_le ((h.physical l).2 v hv) (by omega)⟩

end Sound

end MvccStore

end FrankenFs.Mvcc
