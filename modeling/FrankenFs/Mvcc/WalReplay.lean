import FrankenFs.Mvcc.Wal

/-!
# Replaying the log

`replay_records` applies one record after another until the log ends or its tail is bad.
-/

open FrankenFs.Lib

namespace FrankenFs.Mvcc

/-! ## Decoding a record -/

inductive RecordFault where
  | zeroLengthNonzeroTail
  | lengthTooSmall (bodyLen : Nat)
  | unknownType (recordType : Nat)
  | tooManyWrites (numWrites maxWrites : Nat)
  | headerPastCrc (index : Nat)
  | dataPastCrc (index offset len crcOffset : Nat)
  | trailingPayload (bytes : Nat)
  | crcMismatch (stored computed : Nat)
  /-- The decoder for a whole slice may run over the end of the body. -/
  | blockNumberRead (index offset len : Nat)
  | dataLengthRead (index offset len : Nat)
deriving DecidableEq, Repr

def RecordFault.message : RecordFault → String
  | zeroLengthNonzeroTail => "zero record length followed by non-zero tail"
  | lengthTooSmall bodyLen =>
    s!"record length too small: {bodyLen} < {minCommitRecordSize - 4}"
  | unknownType recordType => s!"unknown record type: {recordType}"
  | tooManyWrites numWrites maxWrites =>
    s!"num_writes ({numWrites}) exceeds body capacity ({maxWrites} max)"
  | headerPastCrc index => s!"write {index} header extends past CRC"
  | dataPastCrc index offset len crcOffset =>
    s!"write {index} data extends past CRC: offset={offset}, len={len}, crc_offset={crcOffset}"
  | trailingPayload bytes => s!"trailing payload bytes before CRC: {bytes}"
  | crcMismatch stored computed =>
    s!"CRC mismatch: stored {hex32 stored}, computed {hex32 computed}"
  | blockNumberRead index offset len =>
    s!"failed to read block number {index}: invalid on-disk format: " ++
      s!"read_le_u64 out of bounds: offset={offset}, len={len}"
  | dataLengthRead index offset len =>
    s!"failed to read data length {index}: invalid on-disk format: " ++
      s!"read_le_u32 out of bounds: offset={offset}, len={len}"

inductive DecodeResult where
  | commit (c : WalCommit)
  | needMore (bytes : Nat)
  | corrupted (fault : RecordFault)
  | endOfData
deriving DecidableEq, Repr

/-- The write loop of `RecordBody::decode`, with `left` writes to go. The payloads of a
covered record are read and dropped. -/
def decodeWrites (covered : Bool) (crcOffset : Nat) :
    (left index : Nat) → Bytes → Except RecordFault (List (Nat × Bytes) × Bytes)
  | 0, _, rest => .ok ([], rest)
  | left + 1, index, rest =>
    match splitFirst writeHeaderBytes rest with
    | none => .error (.headerPastCrc index)
    | some (header, rest) =>
      let len := leAt 8 4 header
      match splitFirst len rest with
      | none => .error (.dataPastCrc index (crcOffset - rest.length) len crcOffset)
      | some (data, rest) =>
        (decodeWrites covered crcOffset left (index + 1) rest).map fun (writes, rest) =>
          (if covered then writes else (leAt 0 8 header, data) :: writes, rest)

/-- `RecordBody::decode` on the bytes that the checksum covers. -/
def decodeBody (checkpointSeq : Option Nat) (payload : Bytes) : Except FfsError DecodeResult :=
  match splitFirst bodyHeaderBytes payload with
  | none => .error (.format "WAL body read crosses its CRC")
  | some (header, rest) =>
    let commitSeq := leAt 1 8 header
    let numWrites := leAt 17 4 header
    let covered := checkpointSeq.any fun seq => decide (commitSeq ≤ seq)
    if leAt 0 1 header ≠ recordTypeCommit then
      .ok (.corrupted (.unknownType (leAt 0 1 header)))
    else if numWrites > rest.length / writeHeaderBytes then
      .ok (.corrupted (.tooManyWrites numWrites (rest.length / writeHeaderBytes)))
    else
      match decodeWrites covered payload.length numWrites 0 rest with
      | .error fault => .ok (.corrupted fault)
      | .ok (writes, rest) =>
        if rest.length ≠ 0 then .ok (.corrupted (.trailingPayload rest.length))
        else .ok (.commit ⟨commitSeq, leAt 9 8 header, writes⟩)

/-! ## The writes of a record are read back -/

theorem layoutData_ok {lengths : List Nat} {body n : Nat} (h : layoutData lengths body = .ok n) :
    n = body + lengths.sum ∧ (body ≤ u32Max → n ≤ u32Max) ∧ ∀ len ∈ lengths, len ≤ u32Max := by
  induction lengths generalizing body with
  | nil =>
    cases h
    simp
  | cons len rest ih =>
    rw [layoutData] at h
    split_ifs at h with hlen hbody
    obtain ⟨hn, hmax, hrest⟩ := ih h
    refine ⟨by rw [hn, List.sum_cons]; omega, fun _ => hmax (by omega), fun l hl => ?_⟩
    rcases List.mem_cons.mp hl with rfl | hl
    · omega
    · exact hrest l hl

structure PreparedRecord.Fits (r : PreparedRecord) : Prop where
  count : r.count = r.commit.writes.length
  body : r.body = r.payload.length + 4
  bytes : r.bytes = r.body + 4
  bound : r.body ≤ u32Max
  few : r.count ≤ u32Max
  lengths : ∀ w ∈ r.commit.writes, w.2.length ≤ u32Max

@[simp]
theorem length_writeHeader (w : Nat × Bytes) : (writeHeader w).length = 12 := by
  simp [writeHeader]

theorem length_writes (writes : List (Nat × Bytes)) :
    (writes.flatMap fun w => writeHeader w ++ w.2).length =
      writes.length * 12 + (writes.map fun w => w.2.length).sum := by
  induction writes with
  | nil => rfl
  | cons w rest ih =>
    simp only [List.flatMap_cons, List.length_append, ih, List.length_cons, List.map_cons,
      List.sum_cons, length_writeHeader]
    omega

variable {c : WalCommit} {r : PreparedRecord}

theorem PreparedRecord.new_ok (h : PreparedRecord.new c = .ok r) : r.commit = c ∧ r.Fits := by
  unfold PreparedRecord.new layout at h
  simp only [List.length_map] at h
  split_ifs at h with hcount hhead
  · cases h
  · cases h
  cases hl : layoutData (c.writes.map fun w => w.2.length)
      (c.writes.length * 12 + (minCommitRecordSize - 4)) with
  | error e => rw [hl] at h; cases h
  | ok body =>
    rw [hl] at h
    cases h
    obtain ⟨hn, hmax, hlen⟩ := layoutData_ok hl
    refine ⟨rfl, rfl, ?_, rfl, hmax (by omega), by simpa using hcount, fun w hw => ?_⟩
    · simp only [PreparedRecord.payload, List.length_append, length_writes, commitHeader,
        length_toLe, hn, minCommitRecordSize]
      omega
    · exact hlen _ (List.mem_map.mpr ⟨w, hw, rfl⟩)

theorem decodeWrites_flatMap (covered : Bool) (crcOffset index : Nat) (writes : List (Nat × Bytes))
    (hw : ∀ w ∈ writes, w.1 ≤ u64Max ∧ w.2.length ≤ u32Max) (rest : Bytes) :
    decodeWrites covered crcOffset writes.length index
      ((writes.flatMap fun w => writeHeader w ++ w.2) ++ rest) =
      .ok (if covered then [] else writes, rest) := by
  induction writes generalizing index with
  | nil => cases covered <;> rfl
  | cons w ws ih =>
    obtain ⟨hblock, hlen⟩ := hw w (by simp)
    have hfirst : leAt 0 8 (writeHeader w) = w.1 := by
      simpa [writeHeader] using leAt_append [] (u64_lt hblock) (toLe 4 w.2.length)
    have hsecond : leAt 8 4 (writeHeader w) = w.2.length := by
      simpa [writeHeader] using leAt_append (toLe 8 w.1) (u32_lt hlen) []
    rw [List.length_cons, decodeWrites, List.flatMap_cons, List.append_assoc, List.append_assoc,
      splitFirst_append (show (writeHeader w).length = writeHeaderBytes from length_writeHeader w)]
    simp only [hsecond]
    rw [splitFirst_append rfl]
    simp only [ih (index + 1) fun w hw' => hw w (List.mem_cons_of_mem _ hw'), hfirst]
    cases covered <;> rfl

/-- The payloads of a covered record are not kept. -/
def WalCommit.elided (c : WalCommit) (checkpointSeq : Option Nat) : WalCommit :=
  if checkpointSeq.any fun seq => decide (c.commitSeq ≤ seq) then { c with writes := [] } else c

theorem WalCommit.elided_above {skip : Nat} (h : skip < c.commitSeq) :
    c.elided (some skip) = c := by
  simp [WalCommit.elided, h]

theorem WalCommit.elided_seq (c : WalCommit) (checkpointSeq : Option Nat) :
    (c.elided checkpointSeq).commitSeq = c.commitSeq ∧
      (c.elided checkpointSeq).txnId = c.txnId := by
  unfold WalCommit.elided
  split_ifs <;> exact ⟨rfl, rfl⟩

theorem length_commitHeader (c : WalCommit) (n : Nat) :
    (commitHeader c n).length = bodyHeaderBytes := by
  simp [commitHeader, bodyHeaderBytes]

theorem PreparedRecord.Fits.body_ge (hf : r.Fits) : 25 ≤ r.body := by
  have := length_commitHeader r.commit r.count
  rw [hf.body, PreparedRecord.payload, List.length_append, this, bodyHeaderBytes]
  omega

theorem commitHeader_fields (hr : c.InRange) {count : Nat} (hfew : count ≤ u32Max) :
    leAt 0 1 (commitHeader c count) = recordTypeCommit ∧
      leAt 1 8 (commitHeader c count) = c.commitSeq ∧ leAt 9 8 (commitHeader c count) = c.txnId ∧
      leAt 17 4 (commitHeader c count) = count := by
  refine ⟨?_, ?_, ?_, ?_⟩
  · simpa [commitHeader] using leAt_append [] (show recordTypeCommit < 256 ^ 1 by decide) _
  · simpa [commitHeader] using leAt_append (toLe 1 recordTypeCommit) (u64_lt hr.seq) _
  · simpa [commitHeader] using
      leAt_append (toLe 1 recordTypeCommit ++ toLe 8 c.commitSeq) (u64_lt hr.txn) _
  · simpa [commitHeader] using
      leAt_append (toLe 1 recordTypeCommit ++ toLe 8 c.commitSeq ++ toLe 8 c.txnId) (u32_lt hfew) []

theorem decodeBody_payload (hf : r.Fits) (hr : r.commit.InRange) (checkpointSeq : Option Nat) :
    decodeBody checkpointSeq r.payload = .ok (.commit (r.commit.elided checkpointSeq)) := by
  obtain ⟨htype, hseq, htxn, hcount⟩ := commitHeader_fields hr hf.few
  have hroom : r.count ≤
      (r.commit.writes.flatMap fun w => writeHeader w ++ w.2).length / writeHeaderBytes := by
    rw [length_writes, hf.count, writeHeaderBytes]
    omega
  have hwrites := decodeWrites_flatMap
    (checkpointSeq.any fun seq => decide (r.commit.commitSeq ≤ seq)) r.payload.length 0
    r.commit.writes (fun w hw => ⟨hr.blocks w hw, hf.lengths w hw⟩) []
  rw [List.append_nil, ← hf.count] at hwrites
  rw [decodeBody, PreparedRecord.payload, splitFirst_append (length_commitHeader _ _)]
  simp only [htype, hseq, htxn, hcount, ne_eq, not_true_eq_false, if_false, gt_iff_lt,
    Nat.not_lt.mpr hroom]
  rw [← PreparedRecord.payload, hwrites]
  unfold WalCommit.elided
  split_ifs <;> rfl

def applyRecords {σ : Type} (f : σ → WalCommit → σ) (skipUpToSeq : Nat) (store : σ)
    (records : List PreparedRecord) : σ :=
  (records.filter fun r => decide (skipUpToSeq < r.commit.commitSeq)).foldl
    (fun store r => f store r.commit) store

theorem applyRecords_cons {σ : Type} (f : σ → WalCommit → σ) (skip : Nat) (store : σ) (r : PreparedRecord)
    (records : List PreparedRecord) : applyRecords f skip store (r :: records) =
      applyRecords f skip (applyRecords f skip store [r]) records := by
  unfold applyRecords
  rw [← List.foldl_append, ← List.filter_append, List.singleton_append]

theorem applyRecords_covered {σ : Type} (f : σ → WalCommit → σ) {skip : Nat} (store : σ)
    {records : List PreparedRecord} (h : ∀ r ∈ records, r.commit.commitSeq ≤ skip) :
    applyRecords f skip store records = store := by
  have hnone : records.filter (fun r => decide (skip < r.commit.commitSeq)) = [] := by
    rw [List.filter_eq_nil_iff]
    intro r hr
    simpa using h r hr
  rw [applyRecords, hnone]
  rfl

theorem applyRecords_snoc {σ : Type} (f : σ → WalCommit → σ) {skip : Nat} (store : σ)
    (records : List PreparedRecord) (h : skip < r.commit.commitSeq) :
    applyRecords f skip store (records ++ [r]) = f (applyRecords f skip store records) r.commit := by
  simp [applyRecords, h]

variable {w w' : WalWriter}

theorem WalWriter.truncate_ok {seq size : Nat} (h : w.truncateAfterCheckpoint seq = (w', .ok size))
    :
    headerSize ≤ w.file.length ∧ w'.file = w.file.take headerSize ∧ w'.synced = headerSize ∧
      w'.writePos = headerSize ∧ w'.config = w.config := by
  unfold WalWriter.truncateAfterCheckpoint at h
  split at h
  · simp at h
  · split_ifs at h with hstale hlen
    · simp at h
    · simp at h
    · simp only [Prod.mk.injEq] at h
      obtain ⟨rfl, -⟩ := h
      exact ⟨by omega, rfl, rfl, rfl, rfl⟩

variable [Checksum]

/-- A bad checksum is reported before anything else that is wrong with the record. -/
def finishRecord (payload stored : Bytes) (decoded : DecodeResult) : DecodeResult :=
  if ofLe stored ≠ (Checksum.crc32c payload).toNat then
    .corrupted (.crcMismatch (ofLe stored) (Checksum.crc32c payload).toNat)
  else decoded

/-- `RecordReader::next` on the unread bytes of the captured range. -/
def RecordReader.next (checkpointSeq : Option Nat) (remaining : Bytes) :
    Except FfsError (DecodeResult × Option Nat) :=
  if remaining.length = 0 then .ok (.endOfData, none)
  else if remaining.length < 4 then .ok (.needMore 4, none)
  else
    let bodyLen := leAt 0 4 remaining
    let rest := remaining.drop 4
    if bodyLen = 0 then
      if rest.all (· == 0) then .ok (.endOfData, none)
      else .ok (.corrupted .zeroLengthNonzeroTail, none)
    else if bodyLen + 4 < minCommitRecordSize then
      .ok (.corrupted (.lengthTooSmall bodyLen), none)
    else if bodyLen > rest.length then .ok (.needMore (bodyLen + 4), none)
    else
      let payload := rest.take (bodyLen - 4)
      (decodeBody checkpointSeq payload).map fun decoded =>
        (finishRecord payload ((rest.drop (bodyLen - 4)).take 4) decoded, some (bodyLen + 4))

theorem PreparedRecord.Fits.length_emit (hf : r.Fits) : r.emit.length = r.bytes := by
  simp only [PreparedRecord.emit, List.length_append, length_toLe, hf.bytes, hf.body]
  omega

theorem PreparedRecord.Fits.leAt_emit (hf : r.Fits) (rest : Bytes) :
    leAt 0 4 (r.emit ++ rest) = r.body := by
  simpa [PreparedRecord.emit] using leAt_append [] (u32_lt hf.bound) _

theorem RecordReader.next_emit (hf : r.Fits) (hr : r.commit.InRange) (checkpointSeq : Option Nat)
    (rest : Bytes) :
    RecordReader.next checkpointSeq (r.emit ++ rest) =
      .ok (.commit (r.commit.elided checkpointSeq), some r.bytes) := by
  have hbody := hf.leAt_emit rest
  have hdrop : (r.emit ++ rest).drop 4 =
      r.payload ++ (toLe 4 (Checksum.crc32c r.payload).toNat ++ rest) := by
    rw [PreparedRecord.emit, List.append_assoc, List.drop_left' (length_toLe 4 _),
      List.append_assoc]
  have hlen := hf.length_emit
  have hge := hf.body_ge
  have hbytes := hf.bytes
  have hpayload : r.payload.length = r.body - 4 := by rw [hf.body]; omega
  have hcrc : ofLe (toLe 4 (Checksum.crc32c r.payload).toNat) =
      (Checksum.crc32c r.payload).toNat := ofLe_toLe (Checksum.crc32c r.payload).isLt
  rw [RecordReader.next, if_neg (by rw [List.length_append]; omega),
    if_neg (by rw [List.length_append]; omega)]
  simp only [hbody, hdrop]
  rw [if_neg (by omega), if_neg (by unfold minCommitRecordSize; omega),
    if_neg (by simp only [List.length_append, length_toLe]; omega), ← hpayload, List.take_left,
    List.drop_left, List.take_left' (length_toLe 4 _), decodeBody_payload hf hr, Except.map,
    finishRecord, if_neg (not_not.mpr hcrc), ← hbytes]

/-- **A torn record is seen to be one**: part of a record, but not nothing, asks for more. -/
theorem RecordReader.next_torn (hf : r.Fits) (checkpointSeq : Option Nat) {k : Nat} (hk₀ : 0 < k)
    (hk : k < r.emit.length) :
    ∃ n, RecordReader.next checkpointSeq (r.emit.take k) = .ok (.needMore n, none) := by
  have hlen := hf.length_emit
  have hge := hf.body_ge
  have hbytes := hf.bytes
  have htake : (r.emit.take k).length = k := by rw [List.length_take]; omega
  rw [RecordReader.next, if_neg (by omega)]
  by_cases h4 : k < 4
  · exact ⟨4, if_pos (by omega)⟩
  · have hbody : leAt 0 4 (r.emit.take k) = r.body := by
      rw [leAt_take (by omega)]
      simpa using hf.leAt_emit []
    refine ⟨r.body + 4, ?_⟩
    rw [if_neg (by omega)]
    simp only [hbody]
    rw [if_neg (by omega), if_neg (by unfold minCommitRecordSize; omega),
      if_pos (by rw [List.length_drop]; omega)]

/-! ## The replay loop -/

inductive TailPolicy where
  | truncateToLastGood
  | failFast
deriving DecidableEq, Repr

inductive ReplayOutcome where
  | clean
  | emptyLog
  | truncatedTail (recordsDiscarded : Nat)
  | corruptTail (recordsDiscarded firstCorruptOffset : Nat)
  | monotonicityViolation (violatingSeq expectedAfter : Nat)
deriving DecidableEq, Repr

/-- The local variables of `replay_records`, with the state that `apply` works on. -/
structure ReplayState (σ : Type) where
  store : σ
  offset : Nat
  commitsReplayed : Nat
  versionsReplayed : Nat
  recordsDiscarded : Nat
  lastDecodedSeq : Nat
  lastReplayedSeq : Nat
  lastValidOffset : Nat
  outcome : ReplayOutcome

structure ReplayReport where
  outcome : ReplayOutcome
  commitsReplayed : Nat
  versionsReplayed : Nat
  recordsDiscarded : Nat
  lastValidOffset : Nat
  totalDataBytes : Nat
  lastCommitSeq : Nat
deriving DecidableEq, Repr

/-- How a turn of the loop of `replay_records` ends. What was applied before stays applied when it
fails. -/
inductive Turn (σ : Type) where
  | next (st : ReplayState σ)
  | stop (st : ReplayState σ)
  | fail (st : ReplayState σ) (e : FfsError)

section Loop

variable {σ ρ : Type}

def Turn.andThen (k : ReplayState σ → ReplayState σ × Except FfsError Unit) :
    Turn σ → ReplayState σ × Except FfsError Unit
  | .next st => k st
  | .stop st => (st, .ok ())
  | .fail st e => (st, .error e)

namespace ReplayState

def start (store : σ) (skipUpToSeq : Nat) : ReplayState σ :=
  ⟨store, 0, 0, 0, 0, 0, skipUpToSeq, 0, .clean⟩

def report (st : ReplayState σ) (totalDataBytes : Nat) : ReplayReport :=
  ⟨st.outcome, st.commitsReplayed, st.versionsReplayed, st.recordsDiscarded, st.lastValidOffset,
    totalDataBytes, st.lastReplayedSeq⟩

/-- A bad tail ends the replay. Under `FailFast` it is an error. -/
def discard (st : ReplayState σ) (policy : TailPolicy) (detail : String)
    (outcome : ReplayOutcome) : Turn σ :=
  match policy with
  | .failFast => .fail st (.format detail)
  | .truncateToLastGood =>
    .stop { st with recordsDiscarded := st.recordsDiscarded + 1, outcome := outcome }

/-- The effect of a record that was accepted: skipped when the checkpoint covers it. -/
def accept (st : ReplayState σ) (skipUpToSeq : Nat) (apply : σ → WalCommit → Except FfsError σ)
    (c : WalCommit) : Turn σ :=
  let st := { st with lastDecodedSeq := c.commitSeq }
  if c.commitSeq ≤ skipUpToSeq then .next { st with lastValidOffset := st.offset }
  else
    match apply st.store c with
    | .error e => .fail st e
    | .ok store =>
      .next { st with
        store := store
        lastReplayedSeq := c.commitSeq
        commitsReplayed := st.commitsReplayed + 1
        versionsReplayed := st.versionsReplayed + c.writes.length
        lastValidOffset := st.offset }

def turn (policy : TailPolicy) (skipUpToSeq : Nat) (apply : σ → WalCommit → Except FfsError σ)
    (total : Nat) (st : ReplayState σ) : DecodeResult × Option Nat → Turn σ
  | (.commit c, size) =>
    match size.filter fun n => decide (0 < n) && decide (n ≤ total - st.offset) with
    | none => .fail st (.format "WAL decoder returned invalid record size")
    | some size =>
      let next := { st with offset := st.offset + size }
      if c.commitSeq = u64Max ∨ c.txnId = u64Max then
        next.discard policy
          s!"WAL replay: sentinel value at offset {st.offset}; FailFast policy in effect"
          (.corruptTail (st.recordsDiscarded + 1) st.offset)
      else if c.commitSeq ≤ st.lastDecodedSeq then
        next.discard policy
          (s!"WAL replay: monotonicity violation at offset {st.offset} " ++
            s!"(seq {c.commitSeq} <= {st.lastDecodedSeq}); FailFast policy in effect")
          (.monotonicityViolation c.commitSeq st.lastDecodedSeq)
      else next.accept skipUpToSeq apply c
  | (.endOfData, _) => .stop { st with lastValidOffset := st.offset }
  | (.needMore needed, _) =>
    st.discard policy
      (s!"WAL replay: truncated record at offset {st.offset} " ++
        s!"(need {needed} more bytes); FailFast policy in effect")
      (.truncatedTail (st.recordsDiscarded + 1))
  | (.corrupted fault, _) =>
    st.discard policy
      (s!"WAL replay: corrupt record at offset {st.offset}: {fault.message}; " ++
        "FailFast policy in effect")
      (.corruptTail (st.recordsDiscarded + 1) st.offset)

end ReplayState

section Decoder

variable (policy : TailPolicy) (skipUpToSeq : Nat) (apply : σ → WalCommit → Except FfsError σ)

/-- The loop of `replay_records`, over a decoder with a state of its own. Every record it accepts
takes at least one byte, so the length of the data bounds the turns. -/
def replayLoop (total : Nat)
    (decode : ρ → Nat → Except FfsError ((DecodeResult × Option Nat) × ρ)) :
    Nat → ρ → ReplayState σ → ReplayState σ × Except FfsError Unit
  | 0, _, st => (st, .ok ())
  | fuel + 1, source, st =>
    if st.offset < total then
      match decode source st.offset with
      | .error e => (st, .error e)
      | .ok (decoded, source) =>
        (st.turn policy skipUpToSeq apply total decoded).andThen
          (replayLoop total decode fuel source)
    else (st, .ok ())

/-- `replay_records`, with what was applied, also before an error. -/
def replayRecords (total : Nat)
    (decode : ρ → Nat → Except FfsError ((DecodeResult × Option Nat) × ρ)) (source : ρ) (store : σ) :
    σ × Except FfsError ReplayReport :=
  if total = 0 then (store, .ok ⟨.emptyLog, 0, 0, 0, 0, 0, skipUpToSeq⟩)
  else
    let r := replayLoop policy skipUpToSeq apply total decode total source
      (ReplayState.start store skipUpToSeq)
    (r.1.store, r.2.map fun _ => r.1.report total)

variable (decode : Bytes → Except FfsError (DecodeResult × Option Nat)) (data : Bytes)

def sliced (_ : Unit) (offset : Nat) : Except FfsError ((DecodeResult × Option Nat) × Unit) :=
  (decode (data.drop offset)).map fun decoded => (decoded, ())

def slicedLoop (fuel : Nat) (st : ReplayState σ) : ReplayState σ × Except FfsError Unit :=
  replayLoop policy skipUpToSeq apply data.length (sliced decode data) fuel () st

def slicedRecords (store : σ) : σ × Except FfsError ReplayReport :=
  replayRecords policy skipUpToSeq apply data.length (sliced decode data) () store

def reported (r : σ × Except FfsError ReplayReport) : Except FfsError (σ × ReplayReport) :=
  r.2.map fun report => (r.1, report)

def replayReader (store : σ) : Except FfsError (σ × ReplayReport) :=
  reported (slicedRecords policy skipUpToSeq apply (RecordReader.next (some skipUpToSeq)) data store)

variable {policy skipUpToSeq apply decode data}

omit [Checksum] in
theorem slicedLoop_succ {fuel : Nat} {st : ReplayState σ} {decoded : DecodeResult × Option Nat}
    (hmore : st.offset < data.length) (h : decode (data.drop st.offset) = .ok decoded) :
    slicedLoop policy skipUpToSeq apply decode data (fuel + 1) st =
      (st.turn policy skipUpToSeq apply data.length decoded).andThen
        (slicedLoop policy skipUpToSeq apply decode data fuel) := by
  rw [slicedLoop, replayLoop, if_pos hmore, sliced, h]
  rfl

omit [Checksum] in
theorem slicedLoop_end {fuel : Nat} {st : ReplayState σ} (h : ¬ st.offset < data.length) :
    slicedLoop policy skipUpToSeq apply decode data fuel st = (st, .ok ()) := by
  cases fuel with
  | zero => rfl
  | succ fuel => rw [slicedLoop, replayLoop, if_neg h]

omit [Checksum] in
theorem slicedRecords_eq {store : σ} {st : ReplayState σ} {result : Except FfsError Unit}
    (hdata : data.length ≠ 0) (h : slicedLoop policy skipUpToSeq apply decode data data.length
      (ReplayState.start store skipUpToSeq) = (st, result)) :
    slicedRecords policy skipUpToSeq apply decode data store =
      (st.store, result.map fun _ => st.report data.length) := by
  rw [slicedRecords, replayRecords, if_neg hdata, ← slicedLoop, h]

end Decoder

/-! ## A log that ends in a torn record -/

def encodeRecords (records : List PreparedRecord) : Bytes := records.flatMap PreparedRecord.emit

structure PreparedRecord.Written (r : PreparedRecord) : Prop where
  fits : r.Fits
  inRange : r.commit.InRange
  seq : r.commit.commitSeq ≠ u64Max
  txn : r.commit.txnId ≠ u64Max

/-- What an append that did not finish leaves behind: nothing, or the front of a record. -/
def Torn (tail : Bytes) : Prop :=
  tail = [] ∨ ∃ r : PreparedRecord, r.Fits ∧ ∃ k, 0 < k ∧ k < r.emit.length ∧ tail = r.emit.take k

/-- A decoder that reads records back and sees where one is cut off. It may drop the writes of
records that the checkpoint covers. -/
structure ReadsRecords (skip : Nat)
    (decode : Bytes → Except FfsError (DecodeResult × Option Nat)) : Prop where
  whole : ∀ r : PreparedRecord, r.Fits → r.commit.InRange → ∀ rest,
    ∃ c, decode (r.emit ++ rest) = .ok (.commit c, some r.bytes) ∧
      c.commitSeq = r.commit.commitSeq ∧ c.txnId = r.commit.txnId ∧
      (skip < r.commit.commitSeq → c = r.commit)
  torn : ∀ r : PreparedRecord, r.Fits → ∀ k, 0 < k → k < r.emit.length →
    ∃ n size, decode (r.emit.take k) = .ok (.needMore n, size)

theorem RecordReader.readsRecords (skip : Nat) :
    ReadsRecords skip (RecordReader.next (some skip)) where
  whole r hf hr rest :=
    ⟨_, RecordReader.next_emit hf hr (some skip) rest, (r.commit.elided_seq _).1,
      (r.commit.elided_seq _).2, WalCommit.elided_above⟩
  torn r hf k hk₀ hk := by
    obtain ⟨n, hn⟩ := RecordReader.next_torn hf (some skip) hk₀ hk
    exact ⟨n, none, hn⟩

section Written

variable {skip : Nat} {decode : Bytes → Except FfsError (DecodeResult × Option Nat)}

variable {data : Bytes}

variable {st : ReplayState σ}

theorem slicedLoop_record (hd : ReadsRecords skip decode) (f : σ → WalCommit → σ)
    (policy : TailPolicy) (fuel : Nat) {rest : Bytes} {r : PreparedRecord} (hw : r.Written)
    (hseq : st.lastDecodedSeq < r.commit.commitSeq) (hdata : data.drop st.offset = r.emit ++ rest) :
    ∃ next, slicedLoop policy skip (fun s c => .ok (f s c)) decode data (fuel + 1) st =
        slicedLoop policy skip (fun s c => .ok (f s c)) decode data fuel next ∧
      next.store = applyRecords f skip st.store [r] ∧ next.offset = st.offset + r.emit.length ∧
      next.lastValidOffset = next.offset ∧ next.lastDecodedSeq = r.commit.commitSeq := by
  have hlen := congrArg List.length hdata
  rw [List.length_drop, List.length_append, hw.fits.length_emit] at hlen
  have hpos : 0 < r.bytes := by rw [hw.fits.bytes]; omega
  have hsize : (some r.bytes).filter
      (fun n => decide (0 < n) && decide (n ≤ data.length - st.offset)) = some r.bytes := by
    rw [Option.filter_some, if_pos (by simp [hpos]; omega)]
  obtain ⟨c, hc, hes, het, hsame⟩ := hd.whole r hw.fits hw.inRange rest
  rw [slicedLoop_succ (by omega) (hdata ▸ hc)]
  simp only [ReplayState.turn, hsize, hes, het, hw.seq, hw.txn, or_self, if_false,
    Nat.not_le.mpr hseq, ReplayState.accept]
  by_cases hskip : r.commit.commitSeq ≤ skip
  · rw [if_pos hskip]
    refine ⟨_, rfl, ?_, by rw [hw.fits.length_emit], rfl, rfl⟩
    simp [applyRecords, Nat.not_lt.mpr hskip]
  · rw [if_neg hskip]
    refine ⟨_, rfl, ?_, by rw [hw.fits.length_emit], rfl, rfl⟩
    simp [applyRecords, Nat.lt_of_not_le hskip, hsame (Nat.lt_of_not_le hskip)]

/-- **Replay gets through the complete records** and leaves its mark at their end. -/
theorem slicedLoop_written (hd : ReadsRecords skip decode) (f : σ → WalCommit → σ)
    (policy : TailPolicy) {tail : Bytes} (records : List PreparedRecord)
    (hw : ∀ r ∈ records, r.Written) (fuel : Nat) (st : ReplayState σ)
    (hord : (st.lastDecodedSeq :: records.map fun r => r.commit.commitSeq).Pairwise (· < ·))
    (hdata : data.drop st.offset = encodeRecords records ++ tail)
    (hvalid : st.lastValidOffset = st.offset) :
    ∃ last, slicedLoop policy skip (fun s c => .ok (f s c)) decode data (records.length + fuel) st =
        slicedLoop policy skip (fun s c => .ok (f s c)) decode data fuel last ∧
      last.store = applyRecords f skip st.store records ∧
      last.offset = st.offset + (encodeRecords records).length ∧
      last.lastValidOffset = last.offset ∧ data.drop last.offset = tail := by
  induction records generalizing st with
  | nil =>
    rw [List.length_nil, Nat.zero_add]
    exact ⟨st, rfl, rfl, rfl, hvalid, hdata⟩
  | cons r records ih =>
    rw [List.map_cons, List.pairwise_cons] at hord
    rw [encodeRecords, List.flatMap_cons, List.append_assoc] at hdata
    rw [List.length_cons, Nat.add_right_comm]
    obtain ⟨next, hnext, hstore, hoff, hnvalid, hseq⟩ :=
      slicedLoop_record hd f policy (records.length + fuel) (hw r (by simp)) (hord.1 _ (by simp)) hdata
    have hdrop : data.drop next.offset = encodeRecords records ++ tail := by
      rw [hoff, ← List.drop_drop, hdata, List.drop_left, encodeRecords]
    obtain ⟨last, hlast, hlstore, hloff, hlvalid, hltail⟩ :=
      ih (fun r' hr' => hw r' (List.mem_cons_of_mem _ hr')) next (by rw [hseq]; exact hord.2) hdrop
        hnvalid
    refine ⟨last, hnext.trans hlast, ?_, ?_, hlvalid, hltail⟩
    · rw [hlstore, hstore, ← applyRecords_cons]
    · rw [hloff, hoff, encodeRecords, encodeRecords, List.flatMap_cons, List.length_append,
        Nat.add_assoc]

theorem slicedLoop_torn (hd : ReadsRecords skip decode) (policy : TailPolicy)
    (apply : σ → WalCommit → Except FfsError σ) (fuel : Nat) {r : PreparedRecord} (hf : r.Fits)
    {k : Nat} (hk₀ : 0 < k) (hk : k < r.emit.length) (htail : data.drop st.offset = r.emit.take k) :
    ∃ detail, slicedLoop policy skip apply decode data (fuel + 1) st =
      (st.discard policy detail (.truncatedTail (st.recordsDiscarded + 1))).andThen
        (slicedLoop policy skip apply decode data fuel) := by
  have hlen := congrArg List.length htail
  rw [List.length_drop, List.length_take] at hlen
  obtain ⟨n, size, hn⟩ := hd.torn r hf k hk₀ hk
  exact ⟨_, slicedLoop_succ (by omega) (htail ▸ hn)⟩

theorem length_records_le (records : List PreparedRecord) (hw : ∀ r ∈ records, r.Written) :
    29 * records.length ≤ (encodeRecords records).length := by
  induction records with
  | nil => exact Nat.zero_le _
  | cons r records ih =>
    have hrest := ih fun r' hr' => hw r' (List.mem_cons_of_mem _ hr')
    have hr := (hw r (by simp)).fits
    have hge := hr.body_ge
    rw [encodeRecords] at hrest
    rw [encodeRecords, List.flatMap_cons, List.length_append, hr.length_emit, hr.bytes,
      List.length_cons]
    omega

theorem slicedRecords_whole (hd : ReadsRecords skip decode) (f : σ → WalCommit → σ)
    (policy : TailPolicy) {records : List PreparedRecord} (hw : ∀ r ∈ records, r.Written)
    (hord : (0 :: records.map fun r => r.commit.commitSeq).Pairwise (· < ·)) (store : σ) :
    ∃ report, slicedRecords policy skip (fun s c => .ok (f s c)) decode (encodeRecords records)
        store = (applyRecords f skip store records, .ok report) ∧
      report.lastValidOffset = (encodeRecords records).length := by
  have hlen := length_records_le records hw
  by_cases hempty : (encodeRecords records).length = 0
  · obtain rfl : records = [] := List.eq_nil_of_length_eq_zero (by omega)
    exact ⟨_, rfl, rfl⟩
  · obtain ⟨fuel, hfuel⟩ : ∃ n, (encodeRecords records).length = records.length + n :=
      ⟨(encodeRecords records).length - records.length, by omega⟩
    obtain ⟨last, hlast, hstore, hoff, hvalid, htail⟩ := slicedLoop_written hd f policy
      records hw fuel (ReplayState.start store skip) hord (List.append_nil _).symm rfl
    rw [slicedLoop_end (Nat.not_lt.mpr (List.drop_eq_nil_iff.mp htail)), ← hfuel] at hlast
    rw [slicedRecords_eq hempty hlast, hstore]
    exact ⟨_, rfl, (hvalid.trans hoff).trans (Nat.zero_add _)⟩

theorem slicedRecords_torn (hd : ReadsRecords skip decode) (f : σ → WalCommit → σ)
    {records : List PreparedRecord} (hw : ∀ r ∈ records, r.Written)
    (hord : (0 :: records.map fun r => r.commit.commitSeq).Pairwise (· < ·)) {r : PreparedRecord}
    (hf : r.Fits) {k : Nat} (hk₀ : 0 < k) (hk : k < r.emit.length) (store : σ) :
    (∃ report, slicedRecords .truncateToLastGood skip (fun s c => .ok (f s c)) decode
        (encodeRecords records ++ r.emit.take k) store =
          (applyRecords f skip store records, .ok report) ∧
      report.lastValidOffset = (encodeRecords records).length) ∧
    ∃ e, (slicedRecords .failFast skip (fun s c => .ok (f s c)) decode
      (encodeRecords records ++ r.emit.take k) store).2 = .error e := by
  have hlen := length_records_le records hw
  have hdata : (encodeRecords records ++ r.emit.take k).length =
      (encodeRecords records).length + k := by
    rw [List.length_append, List.length_take_of_le hk.le]
  obtain ⟨fuel, hfuel⟩ : ∃ n,
      (encodeRecords records ++ r.emit.take k).length = records.length + (n + 1) :=
    ⟨(encodeRecords records).length + k - records.length - 1, by omega⟩
  have hstart : (encodeRecords records ++ r.emit.take k).drop (ReplayState.start store skip).offset =
      encodeRecords records ++ r.emit.take k := rfl
  have hrun := fun policy => slicedLoop_written hd f policy records hw (fuel + 1)
    (ReplayState.start store skip) hord hstart rfl
  constructor
  · obtain ⟨last, hlast, hstore, hoff, hvalid, htail⟩ := hrun .truncateToLastGood
    obtain ⟨detail, hstop⟩ := slicedLoop_torn hd .truncateToLastGood (fun s c => .ok (f s c)) fuel hf
      hk₀ hk htail
    rw [← hfuel, hstop] at hlast
    rw [slicedRecords_eq (by omega) hlast]
    exact ⟨_, congrArg (·, _) hstore, (hvalid.trans hoff).trans (Nat.zero_add _)⟩
  · obtain ⟨last, hlast, -, -, -, htail⟩ := hrun .failFast
    obtain ⟨detail, hstop⟩ := slicedLoop_torn hd .failFast (fun s c => .ok (f s c)) fuel hf hk₀ hk
      htail
    rw [← hfuel, hstop] at hlast
    rw [slicedRecords_eq (by omega) hlast]
    exact ⟨_, rfl⟩

end Written

theorem replayReader_records (f : σ → WalCommit → σ) (skip : Nat) {tail : Bytes} (ht : Torn tail)
    {records : List PreparedRecord} (hw : ∀ r ∈ records, r.Written)
    (hord : (0 :: records.map fun r => r.commit.commitSeq).Pairwise (· < ·)) (store : σ) :
    ∃ report, replayReader .truncateToLastGood skip (fun s c => .ok (f s c))
        (encodeRecords records ++ tail) store =
          .ok (applyRecords f skip store records, report) ∧
      report.lastValidOffset = (encodeRecords records).length := by
  have hd := RecordReader.readsRecords skip
  unfold replayReader
  rcases ht with rfl | ⟨r, hf, k, hk₀, hk, rfl⟩
  · rw [List.append_nil]
    obtain ⟨report, hreport, hvalid⟩ := slicedRecords_whole hd f .truncateToLastGood hw hord store
    exact ⟨report, by rw [hreport]; rfl, hvalid⟩
  · obtain ⟨⟨report, hreport, hvalid⟩, -⟩ := slicedRecords_torn hd f hw hord hf hk₀ hk store
    exact ⟨report, by rw [hreport]; rfl, hvalid⟩

end Loop

/-! ## Appends -/

theorem WalWriter.appendCommit_ok (h : w.appendCommit c = .ok w') :
    ∃ r, PreparedRecord.new c = .ok r ∧ c.commitSeq ≠ u64Max ∧ c.txnId ≠ u64Max ∧
      w.appendPrepared r = .ok w' := by
  rw [WalWriter.appendCommit] at h
  obtain ⟨⟨⟩, -, h⟩ := bind_ok.mp h
  obtain ⟨⟨⟩, hvalid, h⟩ := bind_ok.mp h
  obtain ⟨⟨⟩, -, h⟩ := bind_ok.mp h
  obtain ⟨r, hr, h⟩ := bind_ok.mp h
  unfold WalWriter.validateCommit at hvalid
  split_ifs at hvalid with hsentinel
  exact ⟨r, hr, fun h0 => hsentinel (Or.inl h0), fun h0 => hsentinel (Or.inr h0), h⟩

structure WalWriter.Settled (w : WalWriter) : Prop where
  writePos : w.writePos = w.file.length
  synced : w.synced = w.file.length
  policy : w.config.syncPolicy = .immediate

theorem WalWriter.Settled.append (h : w.Settled) (hf : r.Fits) (ha : w.appendPrepared r = .ok w') :
    w'.Settled ∧ w'.file = w.file ++ r.emit := by
  unfold WalWriter.appendPrepared at ha
  split_ifs at ha with hover
  cases ha
  have hfile : w.file.take w.writePos ++ r.emit ++ w.file.drop (w.writePos + r.emit.length) =
      w.file ++ r.emit := by
    rw [h.writePos, List.take_length, List.drop_of_length_le (by omega), List.append_nil]
  have hpolicy := h.policy
  unfold WalWriter.maybeSync
  simp only [hpolicy, WalWriter.doSync, hfile]
  refine ⟨⟨?_, rfl, hpolicy⟩, trivial⟩
  simp only [h.writePos, List.length_append, hf.length_emit]

end FrankenFs.Mvcc
