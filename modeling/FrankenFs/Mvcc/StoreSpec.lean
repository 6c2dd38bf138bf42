import FrankenFs.Lib.Wire
import FrankenFs.Mvcc.Chain
import FrankenFs.Mvcc.Store

/-!
# What each store operation does

One spec for each operation of `Store.lean`. Nothing after this module unfolds them.
-/

open FrankenFs.Lib

namespace FrankenFs.Mvcc

theorem lookup_of_mem {α : Type} {l : List (Nat × α)} (hnd : (l.map Prod.fst).Nodup)
    {w : Nat × α} (h : w ∈ l) : l.lookup w.1 = some w.2 := by
  induction l with
  | nil => simp at h
  | cons e rest ih =>
    obtain ⟨k, v⟩ := e
    rw [List.map_cons, List.nodup_cons] at hnd
    rw [List.lookup_cons]
    rcases List.mem_cons.mp h with rfl | h
    · simp
    · have hne : w.1 ≠ k := fun heq => hnd.1 (List.mem_map.mpr ⟨w, h, heq⟩)
      rw [beq_false_of_ne hne]
      exact ih hnd.2 h

variable [Platform]

namespace MvccStore

theorem readVisible_eq (s : MvccStore) (block : Nat) (snapshot : Snapshot) :
    s.readVisible block snapshot = resolveVersionBytesAtOrBefore (s.chain block) snapshot.high := by
  unfold readVisible chain
  cases s.versions.get? block <;> rfl

theorem latestCommitSeq_eq (s : MvccStore) (block : Nat) :
    s.latestCommitSeq block = ((s.chain block).getLast?.map BlockVersion.commitSeq).getD 0 := by
  unfold latestCommitSeq chain
  cases s.versions.get? block <;> rfl

/-! ## The preflight -/

/-- The preflight touches the snapshot tables and the metrics, and registers nothing. -/
structure SameData (s s' : MvccStore) : Prop where
  nextTxn : s'.nextTxn = s.nextTxn
  nextCommit : s'.nextCommit = s.nextCommit
  versions : s'.versions = s.versions
  physicalVersions : s'.physicalVersions = s.physicalVersions
  ssiLog : s'.ssiLog = s.ssiLog
  compressionPolicy : s'.compressionPolicy = s.compressionPolicy
  conflictPolicy : s'.conflictPolicy = s.conflictPolicy
  active : ∀ k, (s'.activeSnapshots.get? k).isSome → (s.activeSnapshots.get? k).isSome

namespace SameData

theorem refl (s : MvccStore) : SameData s s := ⟨rfl, rfl, rfl, rfl, rfl, rfl, rfl, fun _ h => h⟩

theorem trans {a b c : MvccStore} (h₁ : SameData a b) (h₂ : SameData b c) : SameData a c where
  nextTxn := h₂.nextTxn.trans h₁.nextTxn
  nextCommit := h₂.nextCommit.trans h₁.nextCommit
  versions := h₂.versions.trans h₁.versions
  physicalVersions := h₂.physicalVersions.trans h₁.physicalVersions
  ssiLog := h₂.ssiLog.trans h₁.ssiLog
  compressionPolicy := h₂.compressionPolicy.trans h₁.compressionPolicy
  conflictPolicy := h₂.conflictPolicy.trans h₁.conflictPolicy
  active k h := h₁.active k (h₂.active k h)

theorem chain {s s' : MvccStore} (h : SameData s s') (block : Nat) :
    s'.chain block = s.chain block := by
  unfold MvccStore.chain; rw [h.versions]

theorem latestCommitSeq {s s' : MvccStore} (h : SameData s s') (block : Nat) :
    s'.latestCommitSeq block = s.latestCommitSeq block := by
  unfold MvccStore.latestCommitSeq; rw [h.versions]

theorem versionBytesAt {s s' : MvccStore} (h : SameData s s') (block high : Nat) :
    s'.versionBytesAt block high = s.versionBytesAt block high := by
  unfold MvccStore.versionBytesAt MvccStore.readVisible; rw [h.versions]

end SameData

theorem recordMetrics_sameData (s : MvccStore) (a b c : Bool) :
    SameData s (s.recordMetrics a b c) := by
  unfold recordMetrics
  split
  · exact ⟨rfl, rfl, rfl, rfl, rfl, rfl, rfl, fun _ h => h⟩
  · exact SameData.refl s

variable {s s' : MvccStore}

theorem forceAdvance_sameData (h : s.forceAdvanceOldestSnapshot = some s') : SameData s s' := by
  unfold forceAdvanceOldestSnapshot at h
  obtain ⟨oldest, -, rfl⟩ := Option.map_eq_some_iff.mp h
  refine ⟨rfl, rfl, rfl, rfl, rfl, rfl, rfl, fun k hk => ?_⟩
  simp only [OrdMap.get?_alter] at hk
  split_ifs at hk with hko
  · subst hko
    cases hg : s.activeSnapshots.get? k with
    | none => simp [hg] at hk
    | some r => rfl
  · exact hk

theorem enforceChainPressure_sameData (s : MvccStore) (block maxLen : Nat) :
    SameData s (s.enforceChainPressure block maxLen).1 := by
  unfold enforceChainPressure
  simp only
  split_ifs
  · exact SameData.refl s
  · exact SameData.refl s
  · split
    · rename_i advanced hadv
      split_ifs <;> exact forceAdvance_sameData hadv
    · exact SameData.refl s

theorem preflightLoop_sameData (txn : Transaction) (effective : ConflictPolicy) (blocks : List Nat)
    (s : MvccStore) (a b : Bool) : SameData s (preflightLoop txn effective blocks s a b).1 := by
  induction blocks generalizing s a b with
  | nil => exact SameData.refl s
  | cons block rest ih =>
    rw [preflightLoop]
    simp only
    split
    · exact SameData.refl s
    · exact recordMetrics_sameData s _ _ _
    · split
      · exact ih ..
      · rename_i cap _
        have hp := enforceChainPressure_sameData s block cap
        split
        · rename_i s₁ e heq
          rw [heq] at hp
          exact hp.trans (recordMetrics_sameData s₁ _ _ _)
        · rename_i s₁ heq
          rw [heq] at hp
          exact hp.trans (ih s₁ _ _)

theorem preflightFcw_sameData (s : MvccStore) (txn : Transaction) :
    SameData s (s.preflightFcw txn).1 := by
  unfold preflightFcw
  split
  · exact SameData.refl s
  · have hl := preflightLoop_sameData txn s.effectivePolicy txn.writeSet s false false
    split
    · rename_i s₁ e heq
      rw [heq] at hl
      exact hl
    · rename_i s₁ a b heq
      rw [heq] at hl
      exact hl.trans (recordMetrics_sameData s₁ _ _ _)

/-! ## Installing versions -/

/-- Installing leaves everything but the two version maps alone. -/
structure SameControl (s s' : MvccStore) : Prop where
  nextTxn : s'.nextTxn = s.nextTxn
  nextCommit : s'.nextCommit = s.nextCommit
  activeSnapshots : s'.activeSnapshots = s.activeSnapshots
  forceAdvancedReleases : s'.forceAdvancedReleases = s.forceAdvancedReleases
  ssiLog : s'.ssiLog = s.ssiLog
  compressionPolicy : s'.compressionPolicy = s.compressionPolicy
  conflictPolicy : s'.conflictPolicy = s.conflictPolicy
  adaptiveConfig : s'.adaptiveConfig = s.adaptiveConfig
  contentionMetrics : s'.contentionMetrics = s.contentionMetrics

theorem SameControl.refl (s : MvccStore) : SameControl s s :=
  ⟨rfl, rfl, rfl, rfl, rfl, rfl, rfl, rfl, rfl⟩

theorem SameControl.trans {a b c : MvccStore} (h₁ : SameControl a b) (h₂ : SameControl b c) :
    SameControl a c where
  nextTxn := h₂.nextTxn.trans h₁.nextTxn
  nextCommit := h₂.nextCommit.trans h₁.nextCommit
  activeSnapshots := h₂.activeSnapshots.trans h₁.activeSnapshots
  forceAdvancedReleases := h₂.forceAdvancedReleases.trans h₁.forceAdvancedReleases
  ssiLog := h₂.ssiLog.trans h₁.ssiLog
  compressionPolicy := h₂.compressionPolicy.trans h₁.compressionPolicy
  conflictPolicy := h₂.conflictPolicy.trans h₁.conflictPolicy
  adaptiveConfig := h₂.adaptiveConfig.trans h₁.adaptiveConfig
  contentionMetrics := h₂.contentionMetrics.trans h₁.contentionMetrics

theorem SameControl.gcWatermark (h : SameControl s s') : s'.gcWatermark = s.gcWatermark := by
  unfold MvccStore.gcWatermark watermark currentSnapshot
  rw [h.activeSnapshots, h.nextCommit]

theorem installVersion_sameControl (txn : Transaction) (c : Nat) (s : MvccStore) (w : Nat × Bytes) :
    SameControl s (installVersion txn c s w) := by
  unfold installVersion
  simp only
  split <;> split <;> exact ⟨rfl, rfl, rfl, rfl, rfl, rfl, rfl, rfl, rfl⟩

theorem installVersions_sameControl (txn : Transaction) (c : Nat) (ws : List (Nat × Bytes))
    (s : MvccStore) : SameControl s (s.installVersions txn c ws) := by
  unfold installVersions
  induction ws generalizing s with
  | nil => exact SameControl.refl s
  | cons w ws ih => exact (installVersion_sameControl txn c s w).trans (ih _)

def pushedChain (s : MvccStore) (v : BlockVersion) (old : List BlockVersion) : List BlockVersion :=
  match s.compressionPolicy.maxChainLength with
  | some cap => trimBlockChainToCap (old ++ [v]) (max cap 1) s.gcWatermark
  | none => old ++ [v]

theorem pushedChain_latest (s : MvccStore) (v : BlockVersion) (old : List BlockVersion) :
    (s.pushedChain v old).getLast?.map BlockVersion.commitSeq = some v.commitSeq := by
  unfold pushedChain
  cases s.compressionPolicy.maxChainLength with
  | none => simp
  | some cap => simp [trimToCap_latest]

theorem installVersion_versions (txn : Transaction) (c : Nat) (s : MvccStore) (w : Nat × Bytes)
    (block : Nat) :
    (installVersion txn c s w).versions.get? block =
      if block = w.1 then
        some (s.pushedChain ⟨w.1, c, txn.id, s.versionDataFor w.1 w.2⟩ (s.chain w.1))
      else s.versions.get? block := by
  unfold installVersion pushedChain MvccStore.chain
  simp only
  cases s.compressionPolicy.maxChainLength <;> cases txn.cowWrites.get? w.1 <;>
    simp only [enforcePhysicalChainCap, enforceChainCap, pushVersion, pushPhysical,
      OrdMap.get?_alter] <;> split_ifs <;> rfl

theorem versionDataFor_congr {block : Nat} (hv : s'.versions.get? block = s.versions.get? block)
    (hp : s'.compressionPolicy = s.compressionPolicy) (bytes : Bytes) :
    s'.versionDataFor block bytes = s.versionDataFor block bytes := by
  unfold versionDataFor isIdenticalToLatest compressData
  rw [hv, hp]

theorem installVersions_versions (txn : Transaction) (c : Nat) (ws : List (Nat × Bytes))
    (hnd : (ws.map Prod.fst).Nodup) (s : MvccStore) (block : Nat) :
    (s.installVersions txn c ws).versions.get? block =
      match ws.lookup block with
      | some bytes =>
        some (s.pushedChain ⟨block, c, txn.id, s.versionDataFor block bytes⟩ (s.chain block))
      | none => s.versions.get? block := by
  unfold installVersions
  induction ws generalizing s with
  | nil => rfl
  | cons w ws ih =>
    obtain ⟨k, bytes⟩ := w
    rw [List.map_cons, List.nodup_cons] at hnd
    rw [List.foldl_cons, ih hnd.2, List.lookup_cons]
    have hv := installVersion_versions txn c s (k, bytes)
    have hctl := installVersion_sameControl txn c s (k, bytes)
    by_cases hk : block = k
    · subst hk
      have hnone : ws.lookup block = none := by
        rw [List.lookup_eq_none_iff]
        intro p hp
        have : p.1 ≠ block := fun h => hnd.1 (List.mem_map.mpr ⟨p, hp, h⟩)
        simpa using this.symm
      rw [hnone, hv]
      simp
    · have hbeq : (block == k) = false := by simpa using hk
      have hsame : (installVersion txn c s (k, bytes)).versions.get? block =
          s.versions.get? block := by rw [hv, if_neg hk]
      rw [hbeq]
      cases hl : ws.lookup block with
      | none => simp only [hsame]
      | some b =>
        have hchain : (installVersion txn c s (k, bytes)).chain block = s.chain block := by
          simp only [MvccStore.chain, hsame]
        simp only [pushedChain, versionDataFor_congr hsame hctl.compressionPolicy, hchain,
          hctl.compressionPolicy, hctl.gcWatermark]

/-- The physical chain of a written block: pushed where the write is a copy, and cut to the cap
in any case. -/
def pushedPhysical (s : MvccStore) (txn : Transaction) (commitSeq block : Nat) :
    Option (List PhysicalBlockVersion) :=
  let pushed := match txn.cowWrites.get? block with
    | some intent =>
      some ((s.physicalVersions.get? block).getD [] ++
        [⟨block, intent.newPhysical, commitSeq, txn.id⟩])
    | none => s.physicalVersions.get? block
  match s.compressionPolicy.maxChainLength with
  | some cap => pushed.map fun chain => trimPhysicalChainToCap chain (max cap 1) s.gcWatermark
  | none => pushed

theorem installVersion_physical (txn : Transaction) (c : Nat) (s : MvccStore) (w : Nat × Bytes)
    (block : Nat) :
    (installVersion txn c s w).physicalVersions.get? block =
      if block = w.1 then s.pushedPhysical txn c w.1 else s.physicalVersions.get? block := by
  unfold installVersion pushedPhysical
  simp only
  cases s.compressionPolicy.maxChainLength <;> cases txn.cowWrites.get? w.1 <;>
    simp only [enforcePhysicalChainCap, enforceChainCap, pushVersion, pushPhysical,
      OrdMap.get?_alter] <;> split_ifs with h <;> first | rfl | rw [h]

theorem installVersions_physical (txn : Transaction) (c : Nat) (ws : List (Nat × Bytes))
    (hnd : (ws.map Prod.fst).Nodup) (s : MvccStore) (block : Nat) :
    (s.installVersions txn c ws).physicalVersions.get? block =
      if block ∈ ws.map Prod.fst then s.pushedPhysical txn c block
      else s.physicalVersions.get? block := by
  unfold installVersions
  induction ws generalizing s with
  | nil => rfl
  | cons w ws ih =>
    rw [List.map_cons, List.nodup_cons] at hnd
    have hv := installVersion_physical txn c s w
    have hctl := installVersion_sameControl txn c s w
    rw [List.foldl_cons, ih hnd.2, List.map_cons]
    by_cases hk : block = w.1
    · subst hk
      simp [hnd.1, hv]
    · have hsame : (installVersion txn c s w).physicalVersions.get? block =
          s.physicalVersions.get? block := by rw [hv, if_neg hk]
      simp only [List.mem_cons, hk, false_or, pushedPhysical, hsame, hctl.compressionPolicy,
        hctl.gcWatermark]

theorem versionDataFor_encodes [Platform.Lossless] (s : MvccStore) (block : Nat) (bytes : Bytes) :
    Encodes (s.chain block) (s.versionDataFor block bytes) bytes := by
  unfold versionDataFor
  split_ifs with hid halgo
  · right
    refine ⟨rfl, ?_⟩
    rw [Bool.and_eq_true] at hid
    have hid := hid.2
    unfold isIdenticalToLatest at hid
    cases hv : s.versions.get? block with
    | none => simp [hv] at hid
    | some versions =>
      simp only [hv] at hid
      split_ifs at hid
      simpa [MvccStore.chain, hv] using hid
  · exact Or.inl rfl
  · left
    unfold compressData
    split
    · rfl
    · split
      · rename_i compressed hc
        split_ifs
        · exact Platform.Lossless.zstd _ bytes compressed hc
        · rfl
      · rfl
    · split
      · rename_i compressed hc
        split_ifs
        · exact Platform.Lossless.brotli _ bytes compressed hc
        · rfl
      · rfl

theorem pushedChain_stores {old : List BlockVersion} {es : Entries} {v : BlockVersion}
    {bytes : Bytes} (h : Stores old es) (hv : Encodes old v.data bytes) :
    ∃ post, Trimmed s.gcWatermark (es ++ [(v.commitSeq, bytes)]) post ∧
      Stores (s.pushedChain v old) post := by
  unfold pushedChain
  cases s.compressionPolicy.maxChainLength with
  | none => exact ⟨_, Trimmed.refl _ _, h.push hv⟩
  | some cap => exact (h.push hv).trimToCap _ _

theorem pushedChain_newest {old : List BlockVersion} {v : BlockVersion} {bytes : Bytes}
    (hv : Encodes old v.data bytes) :
    resolveVersionBytesAtOrBefore (s.pushedChain v old) v.commitSeq = some bytes := by
  have hseq := s.pushedChain_latest v old
  obtain ⟨last, hlast, hlastSeq⟩ := Option.map_eq_some_iff.mp hseq
  unfold resolveVersionBytesAtOrBefore newestVisibleIndex newestVisibleIndexBy
  simp only [hlast, hlastSeq, le_refl, if_true, Option.bind_some]
  unfold pushedChain
  cases s.compressionPolicy.maxChainLength with
  | none => simpa using hv.newest
  | some cap => exact trimToCap_newest _ _ (by simpa using hv.newest)

/-! ## Commits -/

variable {txn : Transaction} {ws : List (Nat × Bytes)}

theorem versionBytes_keys (h : s.versionBytes txn = .ok ws) : ws.map Prod.fst = txn.writeSet := by
  refine map_of_mapM_ok (fun a b hab => ?_) h
  cases hm : s.mergedWrite txn a.1 a.2 s.effectivePolicy with
  | error e => rw [hm] at hab; cases hab
  | ok m => rw [hm] at hab; cases hab; rfl

variable {b : Nat}

theorem versionBytes_strict (h : s.versionBytes txn = .ok ws) (hp : s.conflictPolicy = .strict)
    (hb : b ∈ txn.writeSet) : s.latestCommitSeq b ≤ txn.snapshot.high := by
  obtain ⟨e, he, rfl⟩ := List.mem_map.mp hb
  obtain ⟨w, hw⟩ := exists_of_mapM_ok h he
  by_contra hlt
  have hpol : s.effectivePolicy = .strict := by unfold effectivePolicy; rw [hp]
  rw [mergedWrite, if_neg hlt, if_pos hpol] at hw
  simp [Except.map] at hw

structure Installed (s s' : MvccStore) (txn : Transaction) (c : Nat) (ws : List (Nat × Bytes)) :
    Prop where
  seq : c = s.nextCommit
  bound : c + 1 ≤ u64Max
  nextCommit : s'.nextCommit = c + 1
  nextTxn : s'.nextTxn = s.nextTxn
  active : ∀ k, (s'.activeSnapshots.get? k).isSome → (s.activeSnapshots.get? k).isSome
  compressionPolicy : s'.compressionPolicy = s.compressionPolicy
  conflictPolicy : s'.conflictPolicy = s.conflictPolicy
  keys : ws.map Prod.fst = txn.writeSet
  untouched : ∀ b, ws.lookup b = none → s'.versions.get? b = s.versions.get? b
  latest : ∀ b bytes, ws.lookup b = some bytes → s'.latestCommitSeq b = c
  stores : [Platform.Lossless] → ∀ b bytes, ws.lookup b = some bytes →
    ∀ es, Stores (s.chain b) es →
      ∃ post, Trimmed s'.gcWatermark (es ++ [(c, bytes)]) post ∧ Stores (s'.chain b) post
  newest : [Platform.Lossless] → ∀ b bytes, ws.lookup b = some bytes →
    s'.readVisible b ⟨c⟩ = some bytes
  untrimmed : [Platform.Lossless] → s.compressionPolicy.maxChainLength = none →
    ∀ b bytes, ws.lookup b = some bytes → ∀ es, Stores (s.chain b) es →
      Stores (s'.chain b) (es ++ [(c, bytes)])

variable {c : Nat}

theorem Installed.lookup (h : Installed s s' txn c ws) (hb : b ∈ txn.writeSet) :
    ∃ bytes, ws.lookup b = some bytes := by
  have hnd : (ws.map Prod.fst).Nodup := h.keys ▸ txn.stagedWrites.keys_nodup
  rw [← h.keys] at hb
  obtain ⟨p, hp, rfl⟩ := List.mem_map.mp hb
  exact ⟨p.2, lookup_of_mem hnd hp⟩

theorem Installed.latest_writeSet (h : Installed s s' txn c ws) (hb : b ∈ txn.writeSet) :
    s'.latestCommitSeq b = c := by
  obtain ⟨bytes, hl⟩ := h.lookup hb
  exact h.latest b bytes hl

theorem Installed.covered (h : Installed s s' txn c ws) {n : Nat} (hn : n < s.nextCommit)
    (hle : n ≤ s.latestCommitSeq b) : n ≤ s'.latestCommitSeq b := by
  cases hl : ws.lookup b with
  | none => rwa [latestCommitSeq, h.untouched b hl]
  | some bytes =>
    have := h.seq
    rw [h.latest b bytes hl]
    omega

theorem nextCommitSeq_of_le (h : s.nextCommit + 1 ≤ u64Max) :
    s.nextCommitSeq = .ok ({ s with nextCommit := s.nextCommit + 1 }, s.nextCommit) := if_pos h

theorem nextCommitSeq_of_not_le (h : ¬ s.nextCommit + 1 ≤ u64Max) :
    s.nextCommitSeq =
      .error (.error (.durabilityFailure s!"commit sequence exhausted at {s.nextCommit}")) :=
  if_neg h

theorem applyFcwCommit_ok (h : s.applyFcwCommit txn = (s', .ok c)) :
    ∃ ws, s.versionBytes txn = .ok ws ∧ c = s.nextCommit ∧ c + 1 ≤ u64Max ∧
      s' = { s with nextCommit := c + 1 }.installVersions txn c ws := by
  unfold applyFcwCommit at h
  split at h
  · simp at h
  · split at h
    · simp at h
    · rename_i ws hws
      by_cases hmax : s.nextCommit + 1 ≤ u64Max
      · simp only [nextCommitSeq_of_le hmax, Prod.mk.injEq, Except.ok.injEq] at h
        obtain ⟨rfl, rfl⟩ := h
        exact ⟨ws, hws, rfl, hmax, rfl⟩
      · simp [nextCommitSeq_of_not_le hmax] at h

theorem applyFcwCommit_error {e : Stop} (h : s.applyFcwCommit txn = (s', .error e)) : s' = s := by
  unfold applyFcwCommit at h
  split at h
  · simp_all
  · split at h
    · simp_all
    · unfold nextCommitSeq at h
      split at h <;> simp_all

theorem installVersions_installed (hc : c = s.nextCommit) (hmax : c + 1 ≤ u64Max)
    (hkeys : ws.map Prod.fst = txn.writeSet) :
    Installed s ({ s with nextCommit := c + 1 }.installVersions txn c ws) txn c ws := by
  have hctl := installVersions_sameControl txn c ws { s with nextCommit := c + 1 }
  have hnd : (ws.map Prod.fst).Nodup := hkeys ▸ txn.stagedWrites.keys_nodup
  have hv := installVersions_versions txn c ws hnd { s with nextCommit := c + 1 }
  have hchain : ∀ b bytes, ws.lookup b = some bytes →
      (installVersions { s with nextCommit := c + 1 } txn c ws).chain b =
        pushedChain { s with nextCommit := c + 1 }
          ⟨b, c, txn.id, versionDataFor { s with nextCommit := c + 1 } b bytes⟩ (s.chain b) := by
    intro b bytes hb
    simp [MvccStore.chain, hv b, hb]
  refine ⟨hc, hmax, hctl.nextCommit, hctl.nextTxn, fun k hk => ?_, hctl.compressionPolicy,
    hctl.conflictPolicy, hkeys, fun b hb => ?_, fun b bytes hb => ?_, ?_, ?_, ?_⟩
  · rw [hctl.activeSnapshots] at hk; exact hk
  · rw [hv b, hb]
  · rw [latestCommitSeq, hv b, hb]
    simp only [Option.bind_some, pushedChain_latest, Option.getD_some]
  · intro _ b bytes hb es hes
    rw [hchain b bytes hb, hctl.gcWatermark]
    have henc := versionDataFor_encodes { s with nextCommit := c + 1 } b bytes
    exact pushedChain_stores (v := ⟨b, c, txn.id, _⟩) hes henc
  · intro _ b bytes hb
    rw [readVisible_eq, hchain b bytes hb]
    have henc := versionDataFor_encodes { s with nextCommit := c + 1 } b bytes
    exact pushedChain_newest (v := ⟨b, c, txn.id, _⟩) henc
  · intro _ hcap b bytes hb es hes
    rw [hchain b bytes hb]
    simp only [pushedChain, hcap]
    have henc := versionDataFor_encodes { s with nextCommit := c + 1 } b bytes
    exact Stores.push (v := ⟨b, c, txn.id, _⟩) hes henc

theorem applyFcwCommit_of_versionBytes (hid : validateTransactionId txn.id = .ok ())
    (hws : s.versionBytes txn = .ok ws) (hseq : s.nextCommit + 1 ≤ u64Max) :
    ∃ s', s.applyFcwCommit txn = (s', .ok s.nextCommit) ∧
      Installed s s' txn s.nextCommit ws := by
  refine ⟨_, ?_, installVersions_installed rfl hseq (versionBytes_keys hws)⟩
  simp only [applyFcwCommit, hid, hws, nextCommitSeq_of_le hseq]

theorem sameData_of_preflight {sp : MvccStore} {r : Except Stop Unit}
    (h : s.preflightFcw txn = (sp, r)) : SameData s sp := by
  have hsame := preflightFcw_sameData s txn
  rwa [h] at hsame

theorem commit_eq (h : s.commit txn = (s', .ok c)) :
    ∃ sp ws, s.preflightFcw txn = (sp, .ok ()) ∧ sp.versionBytes txn = .ok ws ∧
      c = sp.nextCommit ∧ c + 1 ≤ u64Max ∧
      s' = { sp with nextCommit := c + 1 }.installVersions txn c ws := by
  unfold commit at h
  split at h
  · simp at h
  · rename_i sp hp
    obtain ⟨ws, hcommit⟩ := applyFcwCommit_ok h
    exact ⟨sp, ws, hp, hcommit⟩

/-- **A successful commit**: a preflight, then one version for each block of the write set. -/
theorem commit_ok (h : s.commit txn = (s', .ok c)) :
    ∃ sp ws, s.preflightFcw txn = (sp, .ok ()) ∧ SameData s sp ∧ sp.versionBytes txn = .ok ws ∧
      Installed sp s' txn c ws := by
  obtain ⟨sp, ws, hp, hws, hc, hmax, rfl⟩ := commit_eq h
  exact ⟨sp, ws, hp, sameData_of_preflight hp, hws,
    installVersions_installed hc hmax (versionBytes_keys hws)⟩

theorem commit_error {e : Stop} (h : s.commit txn = (s', .error e)) : SameData s s' := by
  have hsame := preflightFcw_sameData s txn
  unfold commit at h
  split at h
  · rename_i sp e' hp
    rw [hp] at hsame
    simp only [Prod.mk.injEq] at h
    exact h.1 ▸ hsame
  · rename_i sp hp
    rw [hp] at hsame
    rw [applyFcwCommit_error h]
    exact hsame

/-! ## Garbage collection -/

theorem pruneSafe_chain (s : MvccStore) (block : Nat) :
    (s.pruneSafe.1).chain block = pruneChain (s.chain block) s.gcWatermark := by
  simp only [pruneSafe, pruneVersionsOlderThan, MvccStore.chain, OrdMap.get?_map]
  cases s.versions.get? block <;> simp [pruneChain, keepFromCount, dropPrefix]

theorem pruneSafe_latest (s : MvccStore) (block : Nat) :
    (s.pruneSafe.1).latestCommitSeq block = s.latestCommitSeq block := by
  rw [latestCommitSeq_eq, latestCommitSeq_eq, pruneSafe_chain, pruneChain_latest]

theorem evictDurableChains_chain (s : MvccStore) (d block : Nat) :
    (s.evictDurableChains d).chain block =
      if s.evictable d block (s.chain block) then [] else s.chain block := by
  unfold MvccStore.chain
  rw [evictDurableChains, OrdMap.get?_filter]
  have hfilter : ∀ o : Option (List BlockVersion),
      (o.filter fun versions => !s.evictable d block versions).getD [] =
        if s.evictable d block (o.getD []) then [] else o.getD [] := by
    intro o
    cases o with
    | none => simp
    | some versions => by_cases h : s.evictable d block versions = true <;> simp [Option.filter, h]
  exact hfilter _

theorem evictBound_le (s : MvccStore) (d : Nat) :
    s.evictBound d ≤ d ∧ ∀ k, (s.activeSnapshots.get? k).isSome → s.evictBound d ≤ k := by
  unfold evictBound
  cases hw : s.watermark with
  | none =>
    refine ⟨le_rfl, fun k hk => ?_⟩
    simp [(OrdMap.minKey?_eq_none _).mp hw k] at hk
  | some wm => exact ⟨min_le_right _ _, fun k hk => (min_le_left _ _).trans (OrdMap.minKey?_le _ hw hk)⟩

theorem evictable_newest {d block : Nat} {versions : List BlockVersion}
    (h : s.evictable d block versions = true) :
    ∃ v, versions.getLast? = some v ∧ v.commitSeq ≤ s.evictBound d := by
  unfold evictable at h
  cases hv : versions.getLast? with
  | none => simp [hv] at h
  | some v =>
    simp only [hv, Bool.and_eq_true, decide_eq_true_eq] at h
    exact ⟨v, rfl, h.2⟩

theorem evictDurableChains_latest (s : MvccStore) (d block : Nat) :
    (s.evictDurableChains d).latestCommitSeq block = s.latestCommitSeq block ∨
      s.latestCommitSeq block ≤ s.evictBound d := by
  rw [latestCommitSeq_eq, latestCommitSeq_eq, evictDurableChains_chain]
  split_ifs with h
  · right
    obtain ⟨v, hv, hle⟩ := evictable_newest h
    simpa [hv] using hle
  · exact Or.inl rfl

/-! ## Snapshot tables -/

theorem gcWatermark_le_active (s : MvccStore) {k : Nat} (hk : (s.activeSnapshots.get? k).isSome) :
    s.gcWatermark ≤ k := by
  unfold gcWatermark
  cases hw : s.watermark with
  | none => simp [(OrdMap.minKey?_eq_none _).mp hw k] at hk
  | some wm => exact OrdMap.minKey?_le _ hw hk

theorem gcWatermark_cases (s : MvccStore) :
    (s.activeSnapshots.get? s.gcWatermark).isSome ∨
      (∀ k, s.activeSnapshots.get? k = none) ∧ s.gcWatermark = s.nextCommit - 1 := by
  unfold gcWatermark
  cases hw : s.watermark with
  | none => exact Or.inr ⟨(OrdMap.minKey?_eq_none _).mp hw, rfl⟩
  | some wm => exact Or.inl (OrdMap.get?_of_minKey? _ hw)

theorem registerSnapshot_active (s : MvccStore) (snapshot : Snapshot) (k : Nat) :
    ((s.registerSnapshot snapshot).activeSnapshots.get? k).isSome ↔
      k = snapshot.high ∨ (s.activeSnapshots.get? k).isSome := by
  simp only [registerSnapshot, OrdMap.get?_alter]
  split_ifs with h <;> simp [h]

theorem releaseSnapshot_sameData (s : MvccStore) (snapshot : Snapshot) :
    SameData s (s.releaseSnapshot snapshot).1 := by
  unfold releaseSnapshot
  split_ifs with h1 h2
  · refine ⟨rfl, rfl, rfl, rfl, rfl, rfl, rfl, fun k hk => ?_⟩
    simp only [OrdMap.get?_alter] at hk
    split_ifs at hk with hk'
    · rw [hk']; exact h1
    · exact hk
  · exact ⟨rfl, rfl, rfl, rfl, rfl, rfl, rfl, fun _ h => h⟩
  · exact SameData.refl s

end MvccStore

end FrankenFs.Mvcc
