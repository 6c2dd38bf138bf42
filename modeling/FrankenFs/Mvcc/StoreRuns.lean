import FrankenFs.Mvcc.StoreInvariant

/-!
# Reachable stores

What a checkpoint file must be to be accepted, which records a replay applies, and with both the
stores that can be reached.
-/

open FrankenFs.Lib

namespace FrankenFs.Mvcc

/-! ## What replay applies -/

section Replay

variable {σ τ : Type}

def ReplayState.mapStore (g : σ → τ) (st : ReplayState σ) : ReplayState τ :=
  ⟨g st.store, st.offset, st.commitsReplayed, st.versionsReplayed, st.recordsDiscarded,
    st.lastDecodedSeq, st.lastReplayedSeq, st.lastValidOffset, st.outcome⟩

def Turn.mapStore (g : σ → τ) : Turn σ → Turn τ
  | .next st => .next (st.mapStore g)
  | .stop st => .stop (st.mapStore g)
  | .fail st e => .fail (st.mapStore g) e

section Map

variable {g : σ → τ} {f : σ → WalCommit → σ} {f' : τ → WalCommit → τ}

theorem ReplayState.turn_mapStore (hg : ∀ s c, g (f s c) = f' (g s) c) (policy : TailPolicy)
    (skip total : Nat) (st : ReplayState σ) (decoded : DecodeResult × Option Nat) :
    (st.mapStore g).turn policy skip (fun s c => .ok (f' s c)) total decoded =
      (st.turn policy skip (fun s c => .ok (f s c)) total decoded).mapStore g := by
  obtain ⟨decoded, size⟩ := decoded
  cases decoded with
  | endOfData => rfl
  | needMore n => cases policy <;> rfl
  | corrupted fault => cases policy <;> rfl
  | commit c =>
    simp only [turn]
    rw [show (st.mapStore g).offset = st.offset from rfl,
      show (st.mapStore g).lastDecodedSeq = st.lastDecodedSeq from rfl]
    cases size.filter fun n => decide (0 < n) && decide (n ≤ total - st.offset) with
    | none => rfl
    | some n =>
      dsimp only
      split_ifs
      · cases policy <;> rfl
      · cases policy <;> rfl
      · simp only [accept]
        split_ifs
        · rfl
        · exact congrArg Turn.next (congrArg (fun store => (⟨store, _, _, _, _, _, _, _, _⟩ :
            ReplayState τ)) (hg st.store c).symm)

theorem slicedLoop_mapStore (hg : ∀ s c, g (f s c) = f' (g s) c) (policy : TailPolicy) (skip : Nat)
    (decode : Bytes → Except FfsError (DecodeResult × Option Nat)) (data : Bytes) (fuel : Nat)
    (st : ReplayState σ) :
    slicedLoop policy skip (fun s c => .ok (f' s c)) decode data fuel (st.mapStore g) =
      let r := slicedLoop policy skip (fun s c => .ok (f s c)) decode data fuel st
      (r.1.mapStore g, r.2) := by
  induction fuel generalizing st with
  | zero => rfl
  | succ fuel ih =>
    by_cases hmore : st.offset < data.length
    · cases hd : decode (data.drop st.offset) with
      | error e => simp [slicedLoop, replayLoop, sliced, hmore, ReplayState.mapStore, hd, Except.map]
      | ok decoded =>
        have hmap := st.turn_mapStore hg policy skip data.length decoded
        have hmore' : (st.mapStore g).offset < data.length := hmore
        rw [slicedLoop_succ hmore hd, slicedLoop_succ hmore' hd, hmap]
        cases st.turn policy skip (fun s c => .ok (f s c)) data.length decoded with
        | next st => exact ih st
        | stop st => rfl
        | fail st e => rfl
    · have hmore' : ¬(st.mapStore g).offset < data.length := hmore
      rw [slicedLoop_end hmore, slicedLoop_end hmore']

end Map

structure Applied (skip : Nat) (st : ReplayState (List WalCommit)) : Prop where
  accepted : ∀ c ∈ st.store, c.InRange ∧ skip < c.commitSeq ∧ c.commitSeq ≠ u64Max ∧
    c.txnId ≠ u64Max
  ascending : st.store.Pairwise fun a b => a.commitSeq < b.commitSeq
  below : ∀ c ∈ st.store, c.commitSeq ≤ st.lastDecodedSeq

variable {skip : Nat}

variable {st st' : ReplayState (List WalCommit)}

theorem Applied.step (h : Applied skip st) {c : WalCommit} (hr : c.InRange)
    (hsentinel : ¬ (c.commitSeq = u64Max ∨ c.txnId = u64Max))
    (hnew : ¬ c.commitSeq ≤ st.lastDecodedSeq) :
    ∃ st', st.accept skip (fun log c => .ok (log ++ [c])) c = .next st' ∧ Applied skip st' := by
  rw [not_or] at hsentinel
  have hbelow : ∀ c' ∈ st.store, c'.commitSeq < c.commitSeq := fun c' hc' => by
    have := h.below c' hc'
    omega
  unfold ReplayState.accept
  dsimp only
  split_ifs with hcovered
  · exact ⟨_, rfl, h.accepted, h.ascending, fun c' hc' => Nat.le_of_lt (hbelow c' hc')⟩
  · refine ⟨_, rfl, fun c' hc' => ?_, ?_, fun c' hc' => ?_⟩
    · rcases List.mem_append.mp hc' with hc' | hc'
      · exact h.accepted c' hc'
      · rw [List.mem_singleton.mp hc']
        exact ⟨hr, by omega, hsentinel⟩
    · refine List.pairwise_append.mpr ⟨h.ascending, List.pairwise_singleton _ _, ?_⟩
      intro a ha b hb
      rw [List.mem_singleton.mp hb]
      exact hbelow a ha
    · rcases List.mem_append.mp hc' with hc' | hc'
      · exact Nat.le_of_lt (hbelow c' hc')
      · rw [List.mem_singleton.mp hc']

def Turn.Leads (P : ReplayState σ → Prop) : Turn σ → Prop
  | .next st => P st
  | .stop st => P st
  | .fail _ _ => True

variable {policy : TailPolicy}

theorem Applied.discard (h : Applied skip st) (detail : String) (outcome : ReplayOutcome) :
    (st.discard policy detail outcome).Leads (Applied skip) := by
  cases policy with
  | failFast => trivial
  | truncateToLastGood => exact ⟨h.accepted, h.ascending, h.below⟩

theorem Applied.turn (h : Applied skip st) {decoded : DecodeResult × Option Nat}
    (hdecoded : ∀ c size, decoded = (.commit c, size) → c.InRange) (total : Nat) :
    (st.turn policy skip (fun log c => .ok (log ++ [c])) total decoded).Leads (Applied skip) := by
  obtain ⟨decoded, size⟩ := decoded
  cases decoded with
  | endOfData => exact ⟨h.accepted, h.ascending, h.below⟩
  | needMore n => exact h.discard _ _
  | corrupted fault => exact h.discard _ _
  | commit c =>
    simp only [ReplayState.turn]
    cases size.filter fun n => decide (0 < n) && decide (n ≤ total - st.offset) with
    | none => trivial
    | some n =>
      have hnext : Applied skip { st with offset := st.offset + n } :=
        ⟨h.accepted, h.ascending, h.below⟩
      dsimp only
      split_ifs with hsentinel hold
      · exact hnext.discard _ _
      · exact hnext.discard _ _
      · obtain ⟨st', hst', happlied⟩ := hnext.step (hdecoded c size rfl) hsentinel hold
        rw [hst']
        exact happlied

theorem Applied.loop {decode : Bytes → Except FfsError (DecodeResult × Option Nat)} {data : Bytes}
    (hdecode : ∀ tail c size, decode tail = .ok (.commit c, size) → c.InRange) {fuel : Nat}
    (h : Applied skip st)
    (hrun : slicedLoop policy skip (fun log c => .ok (log ++ [c])) decode data fuel st =
      (st', .ok ())) : Applied skip st' := by
  induction fuel generalizing st with
  | zero =>
    cases hrun
    exact h
  | succ fuel ih =>
    by_cases hmore : st.offset < data.length
    · cases hd : decode (data.drop st.offset) with
      | error e => simp [slicedLoop, replayLoop, sliced, hmore, hd, Except.map] at hrun
      | ok decoded =>
        have hturn : (st.turn policy skip (fun log c => .ok (log ++ [c])) data.length decoded).Leads
            (Applied skip) :=
          h.turn (fun c size hc => hdecode _ c size (hd.trans (congrArg _ hc))) data.length
        rw [slicedLoop_succ hmore hd] at hrun
        generalize st.turn policy skip (fun log c => .ok (log ++ [c])) data.length decoded = turn
          at hturn hrun
        cases turn with
        | next st => exact ih hturn hrun
        | stop st =>
          cases hrun
          exact hturn
        | fail st e => cases hrun
    · rw [slicedLoop_end hmore] at hrun
      cases hrun
      exact h

variable [Checksum]

def replayedCommits (policy : TailPolicy) (skipUpToSeq : Nat) (data : Bytes) :
    Except FfsError (List WalCommit × ReplayReport) :=
  replayReader policy skipUpToSeq (fun log c => .ok (log ++ [c])) data []

theorem RecordReader.next_inRange {tail : Bytes} {c : WalCommit} {size : Option Nat}
    (h : RecordReader.next (some skip) tail = .ok (.commit c, size)) : c.InRange := by
  obtain ⟨d, size', hnext, hagree⟩ := decodeCommit_agrees skip tail
  obtain ⟨rfl, rfl⟩ := Prod.mk.inj (Except.ok.inj (hnext.symm.trans h))
  generalize hslice : decodeCommit tail = slice at hagree
  generalize commitByteSize tail = n at hagree
  cases hagree with
  | commit c =>
    have hr := (decodeCommit_record hslice).1
    obtain ⟨hseq, htxn⟩ := c.elided_seq (some skip)
    refine ⟨hseq ▸ hr.seq, htxn ▸ hr.txn, fun w hw => hr.blocks w ?_⟩
    unfold WalCommit.elided at hw
    split_ifs at hw
    · simp at hw
    · exact hw

theorem replayedCommits_applied {data : Bytes} {log : List WalCommit} {report : ReplayReport}
    (h : replayedCommits policy skip data = .ok (log, report)) :
    (∀ c ∈ log, c.InRange ∧ skip < c.commitSeq ∧ c.commitSeq ≠ u64Max ∧ c.txnId ≠ u64Max) ∧
      log.Pairwise fun a b => a.commitSeq < b.commitSeq := by
  by_cases hempty : data.length = 0
  · rw [replayedCommits, replayReader, slicedRecords, replayRecords, if_pos hempty] at h
    cases h
    exact ⟨by simp, .nil⟩
  · rw [replayedCommits, replayReader, slicedRecords_eq hempty rfl] at h
    obtain ⟨_, hreport, heq⟩ := map_ok.mp h
    obtain ⟨⟨⟩, hdone, -⟩ := map_ok.mp hreport
    cases heq
    have happlied := Applied.loop (fun tail c size => RecordReader.next_inRange)
      ⟨by simp [ReplayState.start], by simp [ReplayState.start], by simp [ReplayState.start]⟩
      (Prod.ext rfl hdone)
    exact ⟨happlied.accepted, happlied.ascending⟩

/-- **A replay is the application of these commits, one after the other.** -/
theorem replayReader_foldl (policy : TailPolicy) (skip : Nat) (f : σ → WalCommit → σ) (data : Bytes)
    (store : σ) :
    replayReader policy skip (fun s c => .ok (f s c)) data store =
      (replayedCommits policy skip data).map fun r => (r.1.foldl f store, r.2) := by
  rw [replayedCommits, replayReader, replayReader]
  by_cases hempty : data.length = 0
  · simp only [slicedRecords, replayRecords, if_pos hempty]
    rfl
  · have hfold : ∀ (log : List WalCommit) c,
        (log ++ [c]).foldl f store = f (log.foldl f store) c :=
      fun log c => List.foldl_concat f store c log
    have hmap := slicedLoop_mapStore (g := fun log : List WalCommit => log.foldl f store) hfold policy
      skip (RecordReader.next (some skip)) data data.length (ReplayState.start [] skip)
    have hstart : (ReplayState.start [] skip).mapStore (fun log : List WalCommit => log.foldl f store) =
      ReplayState.start store skip := rfl
    rw [hstart] at hmap
    generalize hrun : slicedLoop policy skip _ _ data data.length (ReplayState.start [] skip) = r
      at hmap
    obtain ⟨st, result⟩ := r
    rw [slicedRecords_eq hempty hmap, slicedRecords_eq hempty hrun]
    cases result <;> rfl

end Replay

/-! ## What the checkpoint decoder accepts -/

theorem Decoder.read_u64 {remaining rest : Bytes} {n : Nat}
    (h : Decoder.read 8 remaining = .ok (n, rest)) : n ≤ u64Max := by
  unfold Decoder.read at h
  split at h
  · cases h
  · rename_i r hr
    cases h
    exact Nat.le_of_lt_succ (lt_of_lt_of_eq (takeLe_lt hr) (by decide))

theorem validateCheckpointVersion_order {block nextTxn nextCommit : Nat} {v : BlockVersion}
    {previousSeq : Option Nat}
    (h : validateCheckpointVersion block v previousSeq nextTxn nextCommit = .ok ()) :
    0 < v.commitSeq ∧ ∀ seq, previousSeq = some seq → seq < v.commitSeq := by
  unfold validateCheckpointVersion at h
  split_ifs at h with hid hroot
  push Not at hid
  refine ⟨Nat.pos_of_ne_zero hid.2.1, ?_⟩
  rintro seq rfl
  simpa using hid.2.2.2.2

section Decode

variable [Platform]

variable {dedup : Bool} {remaining rest : Bytes}

variable {versions : List BlockVersion} {block : Nat}

theorem Rebuilt.decodeData_encodes {versions : List BlockVersion} {lastConcrete : Option Nat}
    {es : Entries} (h : Rebuilt versions lastConcrete es) {block dataLen reserved : Nat}
    {dedup : Bool} {remaining rest : Bytes} {data : VersionData}
    (hroot : dataLen = u32Max → versions ≠ [])
    (hdec : Mvcc.decodeData block dedup versions lastConcrete dataLen reserved remaining =
      .ok (data, rest)) :
    ∃ bytes, Encodes versions data bytes := by
  unfold Mvcc.decodeData at hdec
  split_ifs at hdec with hmark
  · cases hdec
    have hpos := List.length_pos_of_ne_nil (hroot hmark)
    have hlt : versions.length - 1 < es.length := by
      have := h.stores.length
      omega
    refine ⟨(es.get ⟨_, hlt⟩).2, Or.inr ⟨rfl, ?_⟩⟩
    rw [h.stores.bytes _ (by omega), List.getElem?_eq_getElem hlt]
    rfl
  · obtain ⟨⟨bytes, left⟩, -, hdec⟩ := bind_ok.mp hdec
    obtain ⟨identical, hrepeat, hdec⟩ := bind_ok.mp hdec
    cases hdec
    obtain ⟨identical', hrepeat', hsame⟩ := h.repeatsConcrete block dedup bytes
    obtain rfl := Except.ok.inj (hrepeat.symm.trans hrepeat')
    refine ⟨bytes, ?_⟩
    cases identical with
    | true => exact Or.inr ⟨rfl, hsame rfl⟩
    | false => exact Or.inl rfl

variable {nextTxn nextCommit : Nat}

theorem decodeVersions_sound {nextTxn nextCommit block futureBlocks : Nat} {dedup : Bool}
    {left : Nat} {versions versions' : List BlockVersion} {lastConcrete previousSeq : Option Nat}
    {remaining rest : Bytes} {es : Entries}
    (hrun : decodeVersions nextTxn nextCommit block futureBlocks dedup left versions lastConcrete
      previousSeq remaining = .ok (versions', rest))
    (hre : Rebuilt versions lastConcrete es) (hs : SoundChain block nextTxn nextCommit versions)
    (hprev : previousSeq = versions.getLast?.map BlockVersion.commitSeq) :
    SoundChain block nextTxn nextCommit versions' ∧ versions'.length = versions.length + left := by
  induction left generalizing versions lastConcrete previousSeq remaining es with
  | zero =>
    cases hrun
    exact ⟨hs, rfl⟩
  | succ left ih =>
    rw [decodeVersions] at hrun
    obtain ⟨⟨seq, r₁⟩, -, hrun⟩ := bind_ok.mp hrun
    obtain ⟨⟨writer, r₂⟩, -, hrun⟩ := bind_ok.mp hrun
    obtain ⟨⟨dataLen, r₃⟩, -, hrun⟩ := bind_ok.mp hrun
    obtain ⟨⟨⟩, hvalid, hrun⟩ := bind_ok.mp hrun
    obtain ⟨⟨data, r₄⟩, hdata, hrun⟩ := bind_ok.mp hrun
    dsimp only at hdata hrun
    obtain ⟨-, hseq, hwriter, hroot⟩ := validateCheckpointVersion_ok hvalid
    obtain ⟨hpos, horder⟩ := validateCheckpointVersion_order hvalid
    dsimp only at hseq hwriter hpos horder
    have hmarker : dataLen = u32Max → versions ≠ [] := by
      rintro rfl rfl
      simpa [VersionData.isIdentical] using hroot (by rw [hprev]; rfl)
    obtain ⟨bytes, henc⟩ := hre.decodeData_encodes hmarker hdata
    have hbelow : ∀ v ∈ versions, v.commitSeq < seq := by
      obtain ⟨es', hes', hasc⟩ := hs.entries
      intro v hv
      obtain ⟨last, hlast⟩ : ∃ last, versions.getLast? = some last :=
        ⟨_, List.getLast?_eq_some_getLast (List.ne_nil_of_mem hv)⟩
      have hle : v.commitSeq ≤ last.commitSeq := by
        obtain ⟨init, rfl⟩ := List.getLast?_eq_some_iff.mp hlast
        rcases List.mem_append.mp hv with hv | hv
        · exact le_of_lt ((List.pairwise_append.mp hs.ascending).2.2 v hv last (by simp))
        · rw [List.mem_singleton.mp hv]
      have := horder last.commitSeq (by rw [hprev, hlast]; rfl)
      omega
    have hpush := (hs.below hbelow).push (v := ⟨block, seq, writer, data⟩) henc rfl hpos le_rfl
      hwriter
    obtain ⟨hsound, hlen⟩ := ih hrun (hre.push (v := ⟨block, seq, writer, data⟩) henc)
      (hpush.mono le_rfl hseq) (by rw [List.getLast?_concat]; rfl)
    refine ⟨hsound, ?_⟩
    rw [hlen, List.length_append, List.length_singleton]
    omega

theorem decodeChain_sound {futureBlocks : Nat}
    (h : decodeChain nextTxn nextCommit block futureBlocks dedup remaining = .ok (versions, rest)) :
    SoundChain block nextTxn nextCommit versions ∧ versions ≠ [] := by
  rw [decodeChain] at h
  obtain ⟨⟨count, r₁⟩, -, h⟩ := bind_ok.mp h
  obtain ⟨⟨⟩, hcount, h⟩ := bind_ok.mp h
  obtain ⟨⟨⟩, -, h⟩ := bind_ok.mp h
  obtain ⟨hsound, hlen⟩ := decodeVersions_sound h rebuilt_nil (SoundChain.nil _ _ _) rfl
  refine ⟨hsound, fun hnil => failIf_ok.mp hcount ?_⟩
  rw [hnil, List.length_nil] at hlen
  omega

def SoundBlock (nextTxn nextCommit : Nat) (e : Nat × List BlockVersion) : Prop :=
  e.1 ≤ u64Max ∧ e.2 ≠ [] ∧ SoundChain e.1 nextTxn nextCommit e.2

theorem decodeBlocks_sound {left : Nat} {previousBlock : Option Nat}
    {blocks : List (Nat × List BlockVersion)}
    (h : decodeBlocks nextTxn nextCommit dedup left previousBlock remaining = .ok (blocks, rest)) :
    (∀ e ∈ blocks, SoundBlock nextTxn nextCommit e) ∧ (blocks.map Prod.fst).Pairwise (· < ·) ∧
      ∀ e ∈ blocks, ∀ previous, previousBlock = some previous → previous < e.1 := by
  induction left generalizing previousBlock remaining blocks with
  | zero =>
    cases h
    exact ⟨by simp, by simp, by simp⟩
  | succ left ih =>
    rw [decodeBlocks] at h
    obtain ⟨⟨block, r₁⟩, hblock, h⟩ := bind_ok.mp h
    obtain ⟨⟨⟩, horder, h⟩ := bind_ok.mp h
    obtain ⟨⟨versions, r₂⟩, hchain, h⟩ := bind_ok.mp h
    obtain ⟨⟨tail, r₃⟩, htail, h⟩ := bind_ok.mp h
    cases h
    obtain ⟨hsound, hne⟩ := decodeChain_sound hchain
    obtain ⟨hrest, hasc, hafter⟩ := ih htail
    have hprev : ∀ previous, previousBlock = some previous → previous < block := by
      rintro previous rfl
      unfold checkBlockOrder at horder
      split_ifs at horder with hge
      simpa using hge
    refine ⟨?_, ?_, ?_⟩
    · exact List.forall_mem_cons.mpr ⟨⟨Decoder.read_u64 hblock, hne, hsound⟩, hrest⟩
    · rw [List.map_cons, List.pairwise_cons]
      refine ⟨fun b hb => ?_, hasc⟩
      obtain ⟨e, he, rfl⟩ := List.mem_map.mp hb
      exact hafter e he block rfl
    · refine List.forall_mem_cons.mpr ⟨hprev, fun e he previous hp => ?_⟩
      exact lt_trans (hprev previous hp) (hafter e he block rfl)

theorem decodeCheckpoint_sound [Checksum] {file : Bytes} {d : DecodedCheckpoint}
    (h : decodeCheckpoint dedup file = .ok d) :
    (0 < d.nextTxn ∧ d.nextTxn ≤ u64Max) ∧ (0 < d.nextCommit ∧ d.nextCommit ≤ u64Max) ∧
      (∀ e ∈ d.blocks, SoundBlock d.nextTxn d.nextCommit e) ∧
      (d.blocks.map Prod.fst).Pairwise (· < ·) := by
  rw [decodeCheckpoint] at h
  obtain ⟨⟨⟩, -, h⟩ := bind_ok.mp h
  obtain ⟨⟨magic, r₁⟩, -, h⟩ := bind_ok.mp h
  obtain ⟨⟨⟩, -, h⟩ := bind_ok.mp h
  obtain ⟨⟨version, r₂⟩, -, h⟩ := bind_ok.mp h
  obtain ⟨⟨⟩, -, h⟩ := bind_ok.mp h
  obtain ⟨⟨reserved, r₃⟩, -, h⟩ := bind_ok.mp h
  obtain ⟨⟨⟩, -, h⟩ := bind_ok.mp h
  obtain ⟨⟨nextTxn, r₄⟩, htxn, h⟩ := bind_ok.mp h
  obtain ⟨⟨nextCommit, r₅⟩, hcommit, h⟩ := bind_ok.mp h
  obtain ⟨⟨⟩, hcounters, h⟩ := bind_ok.mp h
  obtain ⟨⟨numBlocks, r₆⟩, -, h⟩ := bind_ok.mp h
  obtain ⟨⟨⟩, -, h⟩ := bind_ok.mp h
  obtain ⟨⟨blocks, r₇⟩, hblocks, h⟩ := bind_ok.mp h
  obtain ⟨⟨⟩, -, h⟩ := bind_ok.mp h
  cases h
  obtain ⟨ht0, hc0⟩ := validateCheckpointCounters_ok hcounters
  obtain ⟨hsound, hasc, -⟩ := decodeBlocks_sound hblocks
  exact ⟨⟨Nat.pos_of_ne_zero ht0, Decoder.read_u64 htxn⟩,
    ⟨Nat.pos_of_ne_zero hc0, Decoder.read_u64 hcommit⟩, hsound, hasc⟩

end Decode

/-! ## Reachable stores -/

section Reach

variable [Platform]

namespace MvccStore

theorem sound_new (compression : CompressionPolicy) (conflict : ConflictPolicy)
    (config : AdaptivePolicyConfig) : (MvccStore.new compression conflict config).Sound where
  commitPos := Nat.one_pos
  commitBound := show 1 ≤ u64Max by decide
  txnPos := Nat.one_pos
  txnBound := show 1 ≤ u64Max by decide
  blocks _ _ hb := by cases hb
  physical _ := ⟨.nil, fun _ hv => by cases hv⟩

theorem insertBlocks_control (blocks : List (Nat × List BlockVersion)) (s : MvccStore) :
    (blocks.foldl (fun s e => s.insertVersions e.1 e.2) s).nextTxn = s.nextTxn ∧
      (blocks.foldl (fun s e => s.insertVersions e.1 e.2) s).physicalVersions =
        s.physicalVersions := by
  induction blocks generalizing s with
  | nil => exact ⟨rfl, rfl⟩
  | cons e rest ih => exact ih _

variable {s : MvccStore}

theorem Sound.loaded [Checksum] {compression : CompressionPolicy} {conflict : ConflictPolicy}
    {config : AdaptivePolicyConfig} {file : Bytes}
    (h : (MvccStore.new compression conflict config).loadCheckpoint file = .ok s) : s.Sound := by
  obtain ⟨d, hd, rfl⟩ := map_ok.mp h
  obtain ⟨⟨ht0, htmax⟩, ⟨hc0, hcmax⟩, hblocks, hasc⟩ := decodeCheckpoint_sound hd
  generalize hfresh : MvccStore.new compression conflict config = fresh
  obtain ⟨hnt, hnc, hempty, hphys⟩ : fresh.nextTxn = 1 ∧ fresh.nextCommit = 1 ∧
      (∀ b, fresh.versions.get? b = none) ∧ ∀ l, fresh.physicalChain l = [] := by
    subst hfresh
    exact ⟨rfl, rfl, fun _ => rfl, fun _ => rfl⟩
  have hcommit : (fresh.publishCheckpoint d).nextCommit = d.nextCommit := by
    simp only [publishCheckpoint, advanceCounters, insertBlocks_nextCommit, u64SaturatingAdd, hnc]
    omega
  have htxn : (fresh.publishCheckpoint d).nextTxn = d.nextTxn := by
    simp only [publishCheckpoint, advanceCounters, (insertBlocks_control d.blocks fresh).1,
      u64SaturatingAdd, hnt]
    omega
  refine ⟨hcommit ▸ hc0, hcommit ▸ hcmax, htxn ▸ ht0, htxn ▸ htmax, fun b chain hb => ?_,
    fun l => ?_⟩
  · rw [hcommit, htxn]
    have hget := insertBlocks_versions d.blocks (hasc.imp fun h => ne_of_lt h) fresh b
    rw [show (fresh.publishCheckpoint d).versions.get? b =
      (d.blocks.foldl (fun s e => s.insertVersions e.1 e.2) fresh).versions.get? b from rfl, hget] at hb
    cases hl : d.blocks.lookup b with
    | none =>
      rw [hl, hempty] at hb
      cases hb
    | some versions =>
      simp only [hl, MvccStore.chain, hempty, Option.getD_none, List.nil_append] at hb
      obtain rfl := Option.some.inj hb
      obtain ⟨l₁, l₂, heq, -⟩ := List.lookup_eq_some_iff.mp hl
      exact hblocks (b, versions) (by rw [heq]; simp)
  · have hkeep : (fresh.publishCheckpoint d).physicalChain l = fresh.physicalChain l :=
      congrArg (fun m => (OrdMap.get? m l).getD []) (insertBlocks_control d.blocks fresh).2
    rw [hkeep, hphys]
    exact ⟨.nil, by simp⟩

theorem Sound.replayedLog [Platform.Lossless] {s : MvccStore} (h : s.Sound) {log : List WalCommit}
    (hlog : ∀ c ∈ log, c.InRange ∧ s.nextCommit ≤ c.commitSeq ∧ c.commitSeq ≠ u64Max ∧
      c.txnId ≠ u64Max)
    (hasc : log.Pairwise fun a b => a.commitSeq < b.commitSeq)
    (hnd : ∀ c ∈ log, (c.writes.map Prod.fst).Nodup) : (log.foldl applyWalCommit s).Sound := by
  induction log generalizing s with
  | nil => exact h
  | cons c log ih =>
    obtain ⟨hr, hnext, hseq, htxn⟩ := hlog c (by simp)
    rw [List.pairwise_cons] at hasc
    refine ih (h.replayed hr hnext hseq htxn (hnd c (by simp))) (fun c' hc' => ?_) hasc.2
      fun c' hc' => hnd c' (List.mem_cons_of_mem _ hc')
    obtain ⟨hr', -, hseq', htxn'⟩ := hlog c' (List.mem_cons_of_mem _ hc')
    refine ⟨hr', ?_, hseq', htxn'⟩
    rw [applyWalCommit_nextCommit, if_pos hnext]
    exact le_trans (min_le_left _ _) (hasc.1 c' hc')

/-- What holds of a transaction from its `begin` on. At the last identifier the counter stays. -/
def Begun (s : MvccStore) (txn : Transaction) : Prop := txn.id < s.nextTxn ∨ txn.id = u64Max

theorem commitWith_id {s' : MvccStore} {txn : Transaction} {useSsi : Bool} {c : Nat}
    (h : (if useSsi then s.commitSsi txn else s.commit txn) = (s', .ok c)) : txn.id ≠ u64Max := by
  intro hid
  obtain ⟨e, he⟩ : ∃ e, s.preflightFcw txn = (s, .error e) := by
    unfold preflightFcw validateTransactionId
    rw [if_pos (Or.inr hid)]
    exact ⟨_, rfl⟩
  cases useSsi with
  | false =>
    rw [if_neg Bool.false_ne_true, commit, he] at h
    cases (Prod.mk.inj h).2
  | true =>
    rw [if_pos rfl, commitSsi, he] at h
    cases (Prod.mk.inj h).2

/-- **The stores that can be reached**, from a new one or a checkpoint. A log that is replayed
has every block at most once in a record, as those that commits write do. -/
inductive Reachable [Checksum] : MvccStore → Prop where
  | new (compression : CompressionPolicy) (conflict : ConflictPolicy)
      (config : AdaptivePolicyConfig) : Reachable (MvccStore.new compression conflict config)
  | load (compression : CompressionPolicy) (conflict : ConflictPolicy)
      (config : AdaptivePolicyConfig) {file : Bytes} {s : MvccStore}
      (h : (MvccStore.new compression conflict config).loadCheckpoint file = .ok s) : Reachable s
  | begin {s : MvccStore} : Reachable s → Reachable s.begin.1
  | commit {s : MvccStore} (txn : U64Transaction) (useSsi : Bool) (hbegun : s.Begun txn.1) :
    Reachable s → Reachable (if useSsi then s.commitSsi txn.1 else s.commit txn.1).1
  | rollback {s s' : MvccStore} (txn : Transaction) (useSsi : Bool) {c : Nat}
      (h : (if useSsi then s.commitSsi txn else s.commit txn) = (s', .ok c)) :
    Reachable s → Reachable (s'.rollbackInMemoryCommit txn c useSsi)
  | registerSnapshot {s : MvccStore} (snapshot : Snapshot) :
    Reachable s → Reachable (s.registerSnapshot snapshot)
  | releaseSnapshot {s : MvccStore} (snapshot : Snapshot) :
    Reachable s → Reachable (s.releaseSnapshot snapshot).1
  | prune {s : MvccStore} (watermark : Nat) :
    Reachable s → Reachable (s.pruneVersionsOlderThan watermark)
  | pruneSsiLog {s : MvccStore} (watermark : Nat) : Reachable s → Reachable (s.pruneSsiLog watermark)
  | evict {s : MvccStore} (durableThrough : Nat) :
    Reachable s → Reachable (s.evictDurableChains durableThrough)
  | replay {s s' : MvccStore} (policy : TailPolicy) (data : Bytes) {report : ReplayReport}
      (h : replayReader policy (s.nextCommit - 1) (fun s c => .ok (s.applyWalCommit c)) data s =
        .ok (s', report))
      (hnd : ∀ log report, replayedCommits policy (s.nextCommit - 1) data = .ok (log, report) →
        ∀ c ∈ log, (c.writes.map Prod.fst).Nodup) :
    Reachable s → Reachable s'

theorem Reachable.sound [Checksum] [Platform.Lossless] (h : Reachable s) : s.Sound := by
  induction h with
  | new compression conflict config => exact sound_new compression conflict config
  | load compression conflict config h => exact Sound.loaded h
  | «begin» _ ih => exact ih.begin
  | @commit s txn useSsi hbegun _ ih =>
    rcases hc : (if useSsi then s.commitSsi txn.1 else s.commit txn.1) with ⟨s', e | c⟩
    · exact ih.sameData (commitWith_error hc)
    · exact ih.committed (hbegun.resolve_right (commitWith_id hc)) txn.2.2 hc
  | rollback txn useSsi h _ ih => exact ih.rolledBack h
  | registerSnapshot snapshot _ ih => exact ih.congr rfl rfl rfl rfl
  | @releaseSnapshot s snapshot _ ih => exact ih.sameData (releaseSnapshot_sameData s snapshot)
  | prune watermark _ ih => exact ih.pruned watermark
  | pruneSsiLog watermark _ ih => exact ih.congr rfl rfl rfl rfl
  | evict durableThrough _ ih => exact ih.evicted durableThrough
  | @replay s s' policy data report h hnd _ ih =>
    rw [replayReader_foldl] at h
    obtain ⟨⟨log, r⟩, hlog, heq⟩ := map_ok.mp h
    cases heq
    obtain ⟨haccepted, hasc⟩ := replayedCommits_applied hlog
    refine ih.replayedLog (fun c hc => ?_) hasc (hnd log _ hlog)
    obtain ⟨hr, hskip, hrest⟩ := haccepted c hc
    exact ⟨hr, by omega, hrest⟩

end MvccStore

end Reach

end FrankenFs.Mvcc
