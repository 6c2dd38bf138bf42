import FrankenFs.Mvcc.Ssi

/-!
# The store as an append-only log of commits

`CommitLog` is what the store is for. The store keeps less: its chains are a suffix of each block's
history.
-/

open FrankenFs.Lib

namespace FrankenFs.Mvcc

/-! ## The log -/

abbrev CommitLog := List (Nat × List (Nat × Bytes))

namespace CommitLog

def history (log : CommitLog) (block : Nat) : Entries :=
  log.filterMap fun e => (e.2.lookup block).map (Prod.mk e.1)

def read (log : CommitLog) (block s : Nat) : Option Bytes := asOf (log.history block) s

theorem history_snoc (log : CommitLog) (c : Nat) (ws : List (Nat × Bytes)) (block : Nat) :
    history (log ++ [(c, ws)]) block =
      history log block ++ ((ws.lookup block).map (Prod.mk c)).toList := by
  unfold history
  rw [List.filterMap_append]
  cases h : ws.lookup block <;> simp [h]

variable {log : CommitLog}

theorem mem_history {block : Nat} {e : Nat × Bytes} :
    e ∈ log.history block ↔ ∃ ws, (e.1, ws) ∈ log ∧ ws.lookup block = some e.2 := by
  obtain ⟨c, bytes⟩ := e
  simp only [history, List.mem_filterMap, Option.map_eq_some_iff, Prod.mk.injEq, Prod.exists]
  constructor
  · rintro ⟨c', ws, hmem, bytes', hl, rfl, rfl⟩
    exact ⟨ws, hmem, hl⟩
  · rintro ⟨ws, hmem, hl⟩
    exact ⟨c, ws, hmem, bytes, hl, rfl, rfl⟩

theorem read_eq_none {block s : Nat} :
    log.read block s = none ↔ ∀ e ∈ log, e.1 ≤ s → e.2.lookup block = none := by
  rw [read, asOf_eq_none]
  constructor
  · intro h e he hle
    cases hl : e.2.lookup block with
    | none => rfl
    | some bytes =>
      have := h (e.1, bytes) (mem_history.mpr ⟨e.2, he, hl⟩)
      simp only at this
      omega
  · rintro h ⟨c, bytes⟩ he
    obtain ⟨ws, hmem, hl⟩ := mem_history.mp he
    by_contra hle
    have := h (c, ws) hmem (by simpa using hle)
    simp [hl] at this

def Ordered (log : CommitLog) (nextCommit : Nat) : Prop :=
  log.Pairwise (fun a b => a.1 < b.1) ∧ ∀ e ∈ log, e.1 < nextCommit

theorem Ordered.snoc {c : Nat} (h : Ordered log c) (ws : List (Nat × Bytes)) :
    Ordered (log ++ [(c, ws)]) (c + 1) := by
  refine ⟨?_, ?_⟩
  · rw [List.pairwise_append]
    refine ⟨h.1, by simp, fun a ha b hb => ?_⟩
    rw [List.mem_singleton] at hb
    subst hb
    exact h.2 a ha
  · intro e he
    rcases List.mem_append.mp he with he | he
    · have := h.2 e he; omega
    · rw [List.mem_singleton] at he
      subst he
      exact Nat.lt_succ_self c

theorem Ordered.ascending {n : Nat} (h : Ordered log n) (block : Nat) :
    Ascending (log.history block) := by
  refine List.Pairwise.filterMap _ ?_ h.1
  intro a a' haa b hb b' hb'
  simp only [Option.map_eq_some_iff] at hb hb'
  obtain ⟨x, -, rfl⟩ := hb
  obtain ⟨y, -, rfl⟩ := hb'
  exact haa

theorem Ordered.history_lt {n : Nat} (h : Ordered log n) {block : Nat} {e : Nat × Bytes}
    (he : e ∈ log.history block) : e.1 < n := by
  obtain ⟨ws, hmem, -⟩ := mem_history.mp he
  exact h.2 _ hmem

end CommitLog

/-! ## Trims of a history -/

variable {w : Nat} {es post : Entries}

theorem Trimmed.mono {w' : Nat} (h : Trimmed w es post) (hw : w ≤ w') : Trimmed w' es post := by
  obtain ⟨pre, rfl, hpre⟩ := h
  refine ⟨pre, rfl, hpre.imp_right ?_⟩
  rintro ⟨e, he, hle⟩
  exact ⟨e, he, hle.trans hw⟩

theorem Trimmed.trans {mid : Entries} (h₁ : Trimmed w es mid) (h₂ : Trimmed w mid post) :
    Trimmed w es post := by
  obtain ⟨pre₁, rfl, hpre₁⟩ := h₁
  obtain ⟨pre₂, rfl, hpre₂⟩ := h₂
  refine ⟨pre₁ ++ pre₂, by rw [List.append_assoc], ?_⟩
  rcases hpre₂ with rfl | h
  · rcases hpre₁ with rfl | h
    · exact Or.inl rfl
    · exact Or.inr (by simpa using h)
  · exact Or.inr h

theorem Trimmed.snoc (h : Trimmed w es post) (e : Nat × Bytes) :
    Trimmed w (es ++ [e]) (post ++ [e]) := by
  obtain ⟨pre, rfl, hpre⟩ := h
  refine ⟨pre, by rw [List.append_assoc], hpre.imp_right ?_⟩
  rintro ⟨e', he', hle⟩
  exact ⟨e', by rw [List.head?_append, he']; rfl, hle⟩

theorem Trimmed.asOf {s : Nat} (h : Trimmed w es post) (hs : w ≤ s) :
    Lib.asOf post s = Lib.asOf es s := by
  obtain ⟨pre, rfl, rfl | ⟨e, he, hle⟩⟩ := h
  · rfl
  · exact (asOf_append_right ⟨e, List.mem_of_mem_head? he, hle.trans hs⟩).symm

/-! ## Runs -/

section Runs

variable [Platform]

def MvccStore.new (compression : CompressionPolicy) (conflict : ConflictPolicy)
    (config : AdaptivePolicyConfig) : MvccStore where
  nextTxn := 1
  nextCommit := 1
  versions := ∅
  physicalVersions := ∅
  activeSnapshots := ∅
  forceAdvancedReleases := ∅
  ssiLog := []
  compressionPolicy := compression
  conflictPolicy := conflict
  adaptiveConfig := config
  contentionMetrics := ⟨Platform.zero, Platform.one, Platform.zero, 0, 0, 0, 0, none⟩

/-- The bytes a commit of `txn` installs, block by block. -/
def MvccStore.installedWrites (s : MvccStore) (txn : Transaction) : List (Nat × Bytes) :=
  match (s.preflightFcw txn).1.versionBytes txn with
  | .ok writes => writes
  | .error _ => []

/-- The calls of a run. Staging happens in the client, so a commit takes any transaction
value: those that `begin` returned are among them. -/
inductive StoreOp where
  | begin
  | commit (txn : Transaction)
  | commitSsi (txn : Transaction)
  | registerCurrent
  | release (snapshot : Snapshot)
  | pruneSafe

structure Logged where
  store : MvccStore
  log : CommitLog

namespace Logged

def afterCommit (x : Logged) (txn : Transaction) (r : MvccStore × Except Stop Nat) : Logged :=
  match r with
  | (s, .ok c) => ⟨s, x.log ++ [(c, x.store.installedWrites txn)]⟩
  | (s, .error _) => ⟨s, x.log⟩

def step (x : Logged) : StoreOp → Logged
  | .begin => ⟨x.store.begin.1, x.log⟩
  | .commit txn => x.afterCommit txn (x.store.commit txn)
  | .commitSsi txn => x.afterCommit txn (x.store.commitSsi txn)
  | .registerCurrent => ⟨x.store.registerSnapshot x.store.currentSnapshot, x.log⟩
  | .release snapshot => ⟨(x.store.releaseSnapshot snapshot).1, x.log⟩
  | .pruneSafe => ⟨x.store.pruneSafe.1, x.log⟩

def run (x : Logged) (ops : List StoreOp) : Logged := ops.foldl step x

theorem installedWrites_eq {s sp : MvccStore} {txn : Transaction} {ws : List (Nat × Bytes)}
    (hp : s.preflightFcw txn = (sp, .ok ())) (hws : sp.versionBytes txn = .ok ws) :
    s.installedWrites txn = ws := by
  unfold MvccStore.installedWrites
  rw [hp]
  simp only [hws]

theorem afterCommit_cases (x : Logged) (txn : Transaction) (useSsi : Bool) :
    let x' := x.afterCommit txn (if useSsi then x.store.commitSsi txn else x.store.commit txn)
    (∃ s, x.store.SameData s ∧ x' = ⟨s, x.log⟩) ∨
      ∃ sp s c ws, x.store.SameData sp ∧ sp.Installed s txn c ws ∧
        x' = ⟨s, x.log ++ [(c, ws)]⟩ := by
  rcases hr : (if useSsi then x.store.commitSsi txn else x.store.commit txn) with ⟨s, e | c⟩
  · exact .inl ⟨s, MvccStore.commitWith_error hr, rfl⟩
  · obtain ⟨sp, ws, hp, hsame, hws, hi⟩ := MvccStore.commitWith_ok hr
    refine .inr ⟨sp, s, c, ws, hsame, hi, ?_⟩
    simp only [Logged.afterCommit, installedWrites_eq hp hws]

/-- No registered snapshot is below `floor`. -/
structure Bounded (x : Logged) (floor : Nat) : Prop where
  ordered : x.log.Ordered x.store.nextCommit
  current : floor ≤ x.store.nextCommit - 1
  active : ∀ k, (x.store.activeSnapshots.get? k).isSome → floor ≤ k ∧ k ≤ x.store.nextCommit - 1

/-- **The refinement invariant.** Below `floor` the chains may have lost versions. -/
structure Inv (x : Logged) (floor : Nat) : Prop extends Bounded x floor where
  chains : ∀ b, ∃ post, Trimmed floor (x.log.history b) post ∧ Stores (x.store.chain b) post

variable {x : Logged} {floor : Nat}

namespace Bounded

theorem gcWatermark (h : Bounded x floor) :
    floor ≤ x.store.gcWatermark ∧ x.store.gcWatermark ≤ x.store.nextCommit - 1 := by
  rcases x.store.gcWatermark_cases with hk | ⟨-, heq⟩
  · exact h.active _ hk
  · rw [heq]; exact ⟨h.current, le_rfl⟩

theorem sameData (h : Bounded x floor) {s : MvccStore} (hs : x.store.SameData s) :
    Bounded ⟨s, x.log⟩ floor where
  ordered := by simpa only [hs.nextCommit] using h.ordered
  current := by simpa only [hs.nextCommit] using h.current
  active k hk := by simpa only [hs.nextCommit] using h.active k (hs.active k hk)

theorem atWatermark (h : Bounded x floor) : Bounded x x.store.gcWatermark :=
  ⟨h.ordered, h.gcWatermark.2, fun _ hk => ⟨x.store.gcWatermark_le_active hk, (h.active _ hk).2⟩⟩

theorem installed (h : Bounded x floor) {s' : MvccStore} {txn : Transaction} {c : Nat}
    {ws : List (Nat × Bytes)} (hi : x.store.Installed s' txn c ws) :
    Bounded ⟨s', x.log ++ [(c, ws)]⟩ floor := by
  have hcurrent := h.current
  refine ⟨?_, ?_, fun k hk => ?_⟩
  · simpa only [hi.nextCommit, hi.seq] using h.ordered.snoc ws
  · simp only [hi.nextCommit, hi.seq]
    omega
  · have := h.active k (hi.active k hk)
    simp only [hi.nextCommit, hi.seq]
    omega

theorem register (h : Bounded x floor) {snapshot : Snapshot}
    (hs : (x.store.activeSnapshots.get? snapshot.high).isSome ∨
      snapshot = x.store.currentSnapshot) :
    Bounded ⟨x.store.registerSnapshot snapshot, x.log⟩ floor := by
  refine ⟨h.ordered, h.current, fun k hk => ?_⟩
  rcases (x.store.registerSnapshot_active _ k).mp hk with rfl | hk
  · rcases hs with hs | rfl
    · exact h.active _ hs
    · exact ⟨h.current, le_rfl⟩
  · exact h.active k hk

end Bounded

theorem inv_new (compression : CompressionPolicy) (conflict : ConflictPolicy)
    (config : AdaptivePolicyConfig) : Inv ⟨MvccStore.new compression conflict config, []⟩ 0 where
  ordered := ⟨List.Pairwise.nil, by simp⟩
  current := Nat.zero_le _
  active k hk := by simp [MvccStore.new] at hk
  chains b := ⟨[], Trimmed.refl _ _, stores_nil⟩

theorem Inv.sameData (h : Inv x floor) {s : MvccStore} (hs : x.store.SameData s) :
    Inv ⟨s, x.log⟩ floor :=
  ⟨h.toBounded.sameData hs, fun b => by simpa only [hs.chain b] using h.chains b⟩

theorem Inv.installed [Platform.Lossless] (h : Inv x floor) {s' : MvccStore} {txn : Transaction}
    {c : Nat} {ws : List (Nat × Bytes)} (hi : x.store.Installed s' txn c ws) :
    Inv ⟨s', x.log ++ [(c, ws)]⟩ s'.gcWatermark := by
  have hbounded := h.toBounded.installed hi
  -- The chains were cut at the new watermark, which is at or above the old floor.
  have hw := hbounded.gcWatermark.1
  refine ⟨hbounded.atWatermark, fun b => ?_⟩
  obtain ⟨post, htrim, hst⟩ := h.chains b
  rw [CommitLog.history_snoc]
  cases hl : ws.lookup b with
  | none =>
    have hch : s'.chain b = x.store.chain b := by simp only [MvccStore.chain, hi.untouched b hl]
    exact ⟨post, by simpa using htrim.mono hw, hch ▸ hst⟩
  | some bytes =>
    obtain ⟨post', htrim', hst'⟩ := hi.stores b bytes hl post hst
    exact ⟨post', ((htrim.mono hw).snoc _).trans htrim', hst'⟩

theorem Inv.afterCommit [Platform.Lossless] (h : Inv x floor) (txn : Transaction) (useSsi : Bool) :
    ∃ floor', Inv (x.afterCommit txn
      (if useSsi then x.store.commitSsi txn else x.store.commit txn)) floor' := by
  obtain ⟨s, hs, heq⟩ | ⟨sp, s, c, ws, hsame, hi, heq⟩ := x.afterCommit_cases txn useSsi
  · exact ⟨floor, heq ▸ h.sameData hs⟩
  · exact ⟨_, heq ▸ (h.sameData hsame).installed hi⟩

theorem Inv.pruneSafe (h : Inv x floor) :
    Inv ⟨x.store.pruneSafe.1, x.log⟩ x.store.gcWatermark := by
  refine ⟨⟨h.ordered, h.atWatermark.current, h.atWatermark.active⟩, fun b => ?_⟩
  obtain ⟨post, htrim, hst⟩ := h.chains b
  obtain ⟨post', htrim', hst'⟩ := hst.prune x.store.gcWatermark
  refine ⟨post', (htrim.mono h.gcWatermark.1).trans htrim', ?_⟩
  rw [x.store.pruneSafe_chain]
  exact hst'

theorem Inv.step [Platform.Lossless] (h : Inv x floor) (op : StoreOp) :
    ∃ floor', Inv (x.step op) floor' := by
  cases op with
  | «begin» => exact ⟨floor, ⟨h.ordered, h.current, h.active⟩, h.chains⟩
  | commit txn => exact h.afterCommit txn false
  | commitSsi txn => exact h.afterCommit txn true
  | registerCurrent => exact ⟨floor, h.register (.inr rfl), h.chains⟩
  | release snapshot => exact ⟨floor, h.sameData (x.store.releaseSnapshot_sameData snapshot)⟩
  | pruneSafe => exact ⟨_, h.pruneSafe⟩

theorem Inv.run [Platform.Lossless] (h : Inv x floor) (ops : List StoreOp) :
    ∃ floor', Inv (x.run ops) floor' := by
  induction ops generalizing x floor with
  | nil => exact ⟨floor, h⟩
  | cons op ops ih =>
    obtain ⟨floor', h'⟩ := h.step op
    exact ih h'

theorem Inv.read (h : Inv x floor) {s : Nat} (hs : floor ≤ s) (b : Nat) :
    x.store.readVisible b ⟨s⟩ = x.log.read b s := by
  obtain ⟨post, htrim, hst⟩ := h.chains b
  have hasc : Ascending post := by
    obtain ⟨pre, heq, -⟩ := htrim
    have := h.ordered.ascending b
    rw [heq] at this
    exact this.sublist (List.sublist_append_right _ _)
  rw [MvccStore.readVisible_eq, hst.read hasc, CommitLog.read, htrim.asOf hs]

/-- **Registered readers see the commit log**, under every compression and conflict policy
and after every run. -/
theorem registered_reads_log [Platform.Lossless] (compression : CompressionPolicy)
    (conflict : ConflictPolicy) (config : AdaptivePolicyConfig) (ops : List StoreOp) (b s : Nat)
    (hs : ((run ⟨MvccStore.new compression conflict config, []⟩ ops).store.activeSnapshots.get?
      s).isSome) :
    let x := run ⟨MvccStore.new compression conflict config, []⟩ ops
    x.store.readVisible b ⟨s⟩ = x.log.read b s ∧
      (x.store.readVisible b ⟨s⟩ = none ↔
        ∀ e ∈ x.log, e.1 ≤ s → e.2.lookup b = none) := by
  intro x
  obtain ⟨floor, h⟩ := (inv_new compression conflict config).run ops
  have hread := h.read (h.active s hs).1 b
  exact ⟨hread, by rw [hread]; exact CommitLog.read_eq_none⟩

end Logged

end Runs

def exactConfig : @AdaptivePolicyConfig exactPlatform :=
  @AdaptivePolicyConfig.mk exactPlatform (1000 : Rat) (1 : Rat) (1 / 1000000 : Rat) (1 / 10 : Rat) 50
    (3 / 2 : Rat)

def twoCommits : List StoreOp :=
  [.commit ((Transaction.new 1 ⟨0⟩).stageWrite 7 [1]), .registerCurrent,
    .commit ((Transaction.new 2 ⟨1⟩).stageWrite 7 [2]), .pruneSafe]

theorem registered_reads_log_twoCommits :
    let _ := exactPlatform
    let x := Logged.run ⟨MvccStore.new default .strict exactConfig, []⟩ twoCommits
    (x.store.activeSnapshots.get? 1).isSome ∧ x.store.readVisible 7 ⟨1⟩ = x.log.read 7 1 := by
  let _ := exactPlatform
  have h : ((Logged.run ⟨MvccStore.new default .strict exactConfig, []⟩
      twoCommits).store.activeSnapshots.get? 1).isSome := by decide
  exact ⟨h, (Logged.registered_reads_log default .strict exactConfig twoCommits 7 1 h).1⟩

end FrankenFs.Mvcc
