import FrankenFs.Mvcc.WalCodec

/-!
# Replay of a log that was cut anywhere

`WalReplayEngine::replay` on the front of the encodings of a list of commits.
-/

open FrankenFs.Lib

namespace FrankenFs.Mvcc

def wholePart : List (WalCommit × Bytes) → Nat → List (WalCommit × Bytes)
  | [], _ => []
  | p :: rest, n => if p.2.length ≤ n then p :: wholePart rest (n - p.2.length) else []

def logBytes (log : List (WalCommit × Bytes)) : Bytes := log.flatMap Prod.snd

theorem logBytes_cons (p : WalCommit × Bytes) (rest : List (WalCommit × Bytes)) :
    logBytes (p :: rest) = p.2 ++ logBytes rest := List.flatMap_cons

theorem wholePart_front (log : List (WalCommit × Bytes)) (n : Nat) : wholePart log n <+: log := by
  induction log generalizing n with
  | nil => exact List.prefix_refl []
  | cons p rest ih =>
    rw [wholePart]
    split_ifs
    · exact List.cons_prefix_cons.mpr ⟨rfl, ih _⟩
    · exact List.nil_prefix

theorem take_logBytes (log : List (WalCommit × Bytes)) (n : Nat) (hn : n ≤ (logBytes log).length) :
    (logBytes log).take n = logBytes (wholePart log n) ∧ (logBytes (wholePart log n)).length = n ∨
      ∃ p ∈ log, ∃ k, 0 < k ∧ k < p.2.length ∧
        (logBytes log).take n = logBytes (wholePart log n) ++ p.2.take k ∧
        (logBytes (wholePart log n)).length + k = n := by
  induction log generalizing n with
  | nil =>
    obtain rfl : n = 0 := by simpa [logBytes] using hn
    exact Or.inl ⟨rfl, rfl⟩
  | cons p rest ih =>
    rw [logBytes_cons, List.length_append] at hn
    rw [wholePart, logBytes_cons]
    split_ifs with hp
    · obtain ⟨m, rfl⟩ := Nat.exists_eq_add_of_le hp
      rw [Nat.add_sub_cancel_left, logBytes_cons, List.take_length_add_append, List.length_append]
      rcases ih m (by omega) with ⟨heq, hlen⟩ | ⟨q, hq, k, hk₀, hk, heq, hlen⟩
      · exact Or.inl ⟨by rw [heq], by omega⟩
      · exact Or.inr ⟨q, List.mem_cons_of_mem _ hq, k, hk₀, hk, by rw [heq, List.append_assoc],
          by omega⟩
    · rw [List.take_append_of_le_length (by omega)]
      by_cases h0 : n = 0
      · subst h0
        exact Or.inl ⟨by simp [logBytes], rfl⟩
      · exact Or.inr ⟨p, List.mem_cons_self, n, by omega, by omega, rfl, by simp [logBytes]⟩

theorem boundary_iff {log : List (WalCommit × Bytes)} (hpos : ∀ p ∈ log, 0 < p.2.length) (n : Nat) :
    (∃ k, n = (logBytes (log.take k)).length) ↔ (logBytes (wholePart log n)).length = n := by
  constructor
  · rintro ⟨k, rfl⟩
    induction log generalizing k with
    | nil => simp [wholePart, logBytes]
    | cons p rest ih =>
      have hrest := ih fun q hq => hpos q (List.mem_cons_of_mem _ hq)
      cases k with
      | zero =>
        have hne := hpos p List.mem_cons_self
        have hzero : (logBytes []).length = 0 := rfl
        rw [List.take_zero, wholePart, hzero, if_neg (Nat.not_le.mpr hne), hzero]
      | succ k =>
        rw [List.take_succ_cons, logBytes_cons, List.length_append, wholePart,
          if_pos (Nat.le_add_right _ _), Nat.add_sub_cancel_left, logBytes_cons, List.length_append,
          hrest]
  · intro h
    refine ⟨(wholePart log n).length, ?_⟩
    rw [← List.prefix_iff_eq_take.mp (wholePart_front log n), h]

section Replay

variable [Checksum]

/-- `WalReplayEngine::replay`. Its closure cannot fail. -/
def replaySlice {σ : Type} (policy : TailPolicy) (skipUpToSeq : Nat) (apply : σ → WalCommit → σ)
    (data : Bytes) (store : σ) : σ × Except FfsError ReplayReport :=
  slicedRecords policy skipUpToSeq (fun store c => .ok (apply store c))
    (fun tail => .ok (decodeCommit tail, commitByteSize tail)) data store

def replay {σ : Type} (policy : TailPolicy) (skipUpToSeq : Nat) (apply : σ → WalCommit → σ)
    (data : Bytes) (store : σ) : Except FfsError (σ × ReplayReport) :=
  reported (replaySlice policy skipUpToSeq apply data store)

theorem decodeCommit_torn {r : PreparedRecord} (hf : r.Fits) {k : Nat} (hk₀ : 0 < k)
    (hk : k < r.emit.length) : ∃ n, decodeCommit (r.emit.take k) = .needMore n := by
  have hlen := hf.length_emit
  have hge := hf.body_ge
  have hbytes := hf.bytes
  have htake : (r.emit.take k).length = k := by rw [List.length_take]; omega
  rw [decodeCommit, if_neg (by omega)]
  by_cases h4 : k < 4
  · exact ⟨4, if_pos (by omega)⟩
  · have hbody : leAt 0 4 (r.emit.take k) = r.body := by
      rw [leAt_take (by omega)]
      simpa using hf.leAt_emit []
    refine ⟨4 + r.body, ?_⟩
    rw [if_neg (by omega)]
    simp only [hbody]
    rw [if_neg (by omega), if_neg (by unfold minCommitRecordSize; omega), if_pos (by omega)]

theorem decodeCommit_readsRecords (skip : Nat) :
    ReadsRecords skip fun tail => .ok (decodeCommit tail, commitByteSize tail) where
  whole r hf hr rest :=
    ⟨r.commit, by rw [decodeCommit_emit hf hr, commitByteSize_emit hf, hf.length_emit], rfl, rfl,
      fun _ => rfl⟩
  torn r hf k hk₀ hk := by
    obtain ⟨n, hn⟩ := decodeCommit_torn hf hk₀ hk
    exact ⟨n, _, by rw [hn]⟩

structure Loggable (p : WalCommit × Bytes) : Prop where
  inRange : p.1.InRange
  encoded : encodeCommit p.1 = .ok p.2
  seq : p.1.commitSeq ≠ u64Max
  txn : p.1.txnId ≠ u64Max

theorem Loggable.written {p : WalCommit × Bytes} (h : Loggable p) :
    p.1.record.Written ∧ p.2 = p.1.record.emit := by
  obtain ⟨hbody, hemit⟩ := encodeCommit_ok_iff.mp h.encoded
  exact ⟨⟨WalCommit.record_fits hbody, h.inRange, h.seq, h.txn⟩, hemit⟩

theorem encodeRecords_log {log : List (WalCommit × Bytes)} (h : ∀ p ∈ log, Loggable p) :
    encodeRecords (log.map fun p => p.1.record) = logBytes log := by
  rw [encodeRecords, logBytes, List.flatMap_map]
  apply List.flatMap_congr
  intro p hp
  exact (h p hp).written.2.symm

omit [Checksum] in
theorem applyRecords_log (skip : Nat) (log : List (WalCommit × Bytes)) :
    applyRecords (fun applied c => applied ++ [c]) skip [] (log.map fun p => p.1.record) =
      (log.map Prod.fst).filter fun c => decide (skip < c.commitSeq) := by
  have hfold : ∀ (records : List PreparedRecord) (applied : List WalCommit),
      records.foldl (fun applied r => applied ++ [r.commit]) applied =
        applied ++ records.map PreparedRecord.commit := by
    intro records
    induction records with
    | nil => simp
    | cons r records ih =>
      intro applied
      rw [List.foldl_cons, ih, List.map_cons, List.append_assoc, List.singleton_append]
  rw [applyRecords, hfold, List.nil_append, List.filter_map, List.filter_map, List.map_map]
  rfl

/-- **Replay of a torn log.** Under `TruncateToLastGood` the commits that are whole and above
the horizon are applied, in order, and the report marks the end of the last whole record. Under
`FailFast` the replay succeeds iff the cut is between two records. -/
theorem replay_torn_log (log : List (WalCommit × Bytes)) (hlog : ∀ p ∈ log, Loggable p)
    (hord : (0 :: log.map fun p => p.1.commitSeq).Pairwise (· < ·)) (n : Nat)
    (hn : n ≤ (logBytes log).length) (skip : Nat) :
    (∃ report, replay .truncateToLastGood skip (fun applied c => applied ++ [c])
        ((logBytes log).take n) [] =
          .ok (((wholePart log n).map Prod.fst).filter fun c => decide (skip < c.commitSeq), report) ∧
      report.lastValidOffset = (logBytes (wholePart log n)).length) ∧
    ((∃ r, replay .failFast skip (fun applied c => applied ++ [c]) ((logBytes log).take n) [] =
        .ok r) ↔ ∃ k, n = (logBytes (log.take k)).length) := by
  have hd := decodeCommit_readsRecords skip
  have hpre := wholePart_front log n
  have hwhole : ∀ p ∈ wholePart log n, Loggable p := fun p hp => hlog p (hpre.subset hp)
  have hw : ∀ r ∈ (wholePart log n).map (fun p => p.1.record), r.Written := by
    intro r hr
    obtain ⟨p, hp, rfl⟩ := List.mem_map.mp hr
    exact (hwhole p hp).written.1
  have hseqs : (0 :: ((wholePart log n).map fun p => p.1.record).map
      fun r => r.commit.commitSeq).Pairwise (· < ·) := by
    rw [List.map_map]
    exact hord.sublist ((hpre.sublist.map _).cons_cons 0)
  have hpos : ∀ p ∈ log, 0 < p.2.length := by
    intro p hp
    obtain ⟨hwr, hemit⟩ := (hlog p hp).written
    rw [hemit, hwr.fits.length_emit, hwr.fits.bytes]
    omega
  rw [boundary_iff hpos, ← applyRecords_log, ← encodeRecords_log hwhole]
  rcases take_logBytes log n hn with ⟨htake, hlen⟩ | ⟨p, hp, k, hk₀, hk, htake, hlen⟩
  · rw [← encodeRecords_log hwhole] at htake hlen
    rw [htake]
    have hrun := fun policy => slicedRecords_whole hd (fun applied c => applied ++ [c]) policy
      hw hseqs []
    obtain ⟨report, hr, hvalid⟩ := hrun .truncateToLastGood
    obtain ⟨_, hr', -⟩ := hrun .failFast
    exact ⟨⟨report, congrArg reported hr, hvalid⟩, iff_of_true ⟨_, congrArg reported hr'⟩ hlen⟩
  · obtain ⟨hwr, hemit⟩ := (hlog p hp).written
    rw [hemit] at hk htake
    obtain ⟨⟨report, hr, hvalid⟩, e, hfail⟩ := slicedRecords_torn hd (fun applied c => applied ++ [c]) hw hseqs
      hwr.fits hk₀ hk []
    rw [← encodeRecords_log hwhole] at htake hlen
    rw [htake]
    refine ⟨⟨report, congrArg reported hr, hvalid⟩, iff_of_false ?_ (by omega)⟩
    rintro ⟨r, hr⟩
    rw [replay, reported, replaySlice, hfail] at hr
    cases hr

end Replay

section Samples

local instance tornChecksum : Checksum := ⟨fun _ => 0⟩

def emptyCommit (seq txn : Nat) : WalCommit × Bytes :=
  (⟨seq, txn, []⟩, (WalCommit.record ⟨seq, txn, []⟩).emit)

theorem emptyCommit_encoded (seq txn : Nat) :
    encodeCommit (emptyCommit seq txn).1 = .ok (emptyCommit seq txn).2 :=
  encodeCommit_ok_iff.mpr ⟨show 25 ≤ u32Max by decide, rfl⟩

theorem replay_torn_log_second :
    (∃ report, replay .truncateToLastGood 0 (fun applied c => applied ++ [c])
        ((logBytes [emptyCommit 1 1, emptyCommit 2 2]).take 40) [] = .ok ([⟨1, 1, []⟩], report) ∧
      report.lastValidOffset = 29) ∧
    ¬ ∃ r, replay .failFast 0 (fun applied c => applied ++ [c])
      ((logBytes [emptyCommit 1 1, emptyCommit 2 2]).take 40) [] = .ok r := by
  have hlog : ∀ p ∈ [emptyCommit 1 1, emptyCommit 2 2], Loggable p := by
    intro p hp
    simp only [List.mem_cons, List.not_mem_nil, or_false] at hp
    rcases hp with rfl | rfl <;>
      exact ⟨⟨by decide, by decide, by decide⟩, emptyCommit_encoded _ _, by decide, by decide⟩
  obtain ⟨htrunc, hfail⟩ := replay_torn_log _ hlog (by decide) 40 (by decide) 0
  refine ⟨htrunc, fun h => ?_⟩
  have hlen := (boundary_iff (by decide) 40).mp (hfail.mp h)
  exact absurd hlen (by decide)

def Refused (p : WalCommit × Bytes) : Prop :=
  encodeCommit p.1 = .ok p.2 ∧ p.1.commitSeq ≠ u64Max ∧
    (replay .failFast 0 (fun applied c => applied ++ [c]) p.2 []).isOk = false ∧
    (replay .truncateToLastGood 0 (fun applied c => applied ++ [c]) p.2 []).toOption.map
      (fun r => (r.1, r.2.lastValidOffset)) = some ([], 0)

/-- Sequence 0 is refused, and so is the largest transaction id. -/
theorem replay_refuses_reserved : Refused (emptyCommit 0 1) ∧ Refused (emptyCommit 1 u64Max) :=
  ⟨⟨emptyCommit_encoded _ _, by decide, by decide +kernel, by decide +kernel⟩,
    ⟨emptyCommit_encoded _ _, by decide, by decide +kernel, by decide +kernel⟩⟩

end Samples

end FrankenFs.Mvcc
