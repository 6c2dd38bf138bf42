import FrankenFs.Mvcc.WalReplay

/-!
# The record codec on whole slices

`encode_commit`, `decode_commit` and `commit_byte_size` of `wal.rs`.
-/

open FrankenFs.Lib

namespace FrankenFs.Mvcc

/-! ## The encoder -/

def commitDataSize : List (Nat × Bytes) → Nat → Except FfsError Nat
  | [], size => .ok size
  | w :: rest, size =>
    if usizeMax < size + writeHeaderBytes ∨ usizeMax < size + writeHeaderBytes + w.2.length then
      .error (.format "commit record size overflow")
    else commitDataSize rest (size + writeHeaderBytes + w.2.length)

def encodeWrites : List (Nat × Bytes) → Except FfsError Bytes
  | [] => .ok []
  | w :: rest => do
    failIf (u32Max < w.2.length) (.format "write data length exceeds u32")
    let tail ← encodeWrites rest
    return writeHeader w ++ w.2 ++ tail

def encodeCommit [Checksum] (commit : WalCommit) : Except FfsError Bytes := do
  let dataSize ← commitDataSize commit.writes 0
  let bodySize := dataSize + (minCommitRecordSize - 4)
  failIf (usizeMax < bodySize) (.format "commit record body size overflow")
  failIf (usizeMax < bodySize + 4) (.format "commit record total size overflow")
  failIf (u32Max < bodySize) (.format "commit record length exceeds u32")
  failIf (u32Max < commit.writes.length) (.format "too many writes in commit")
  let writes ← encodeWrites commit.writes
  let payload := commitHeader commit commit.writes.length ++ writes
  return toLe 4 bodySize ++ (payload ++ toLe 4 (Checksum.crc32c payload).toNat)

/-! ## The decoder -/

/-- The write loop of `decode_commit` at `offset` of a body that ends in its checksum. The
header of a write is read from the whole body, so it may cross into the checksum. -/
def decodeCommitWrites (body : Bytes) (crcOffset : Nat) :
    (left index offset : Nat) → Except RecordFault (List (Nat × Bytes) × Nat)
  | 0, _, offset => .ok ([], offset)
  | left + 1, index, offset =>
    if body.length < offset + 8 then .error (.blockNumberRead index offset body.length)
    else if body.length < offset + 8 + 4 then
      .error (.dataLengthRead index (offset + 8) body.length)
    else
      let start := offset + writeHeaderBytes
      let len := leAt (offset + 8) 4 body
      if start + len > crcOffset then .error (.dataPastCrc index start len crcOffset)
      else
        (decodeCommitWrites body crcOffset left (index + 1) (start + len)).map fun r =>
          ((leAt offset 8 body, (body.drop start).take len) :: r.1, r.2)

def decodeCommitBody (body : Bytes) (crcOffset : Nat) : DecodeResult :=
  let numWrites := leAt 17 4 body
  let maxWrites := (crcOffset - bodyHeaderBytes) / writeHeaderBytes
  if leAt 0 1 body ≠ recordTypeCommit then .corrupted (.unknownType (leAt 0 1 body))
  else if numWrites > maxWrites then .corrupted (.tooManyWrites numWrites maxWrites)
  else
    match decodeCommitWrites body crcOffset numWrites 0 bodyHeaderBytes with
    | .error fault => .corrupted fault
    | .ok (writes, offset) =>
      if offset ≠ crcOffset then .corrupted (.trailingPayload (crcOffset - offset))
      else .commit ⟨leAt 1 8 body, leAt 9 8 body, writes⟩

def decodeCommit [Checksum] (bytes : Bytes) : DecodeResult :=
  if bytes.length = 0 then .endOfData
  else if bytes.length < 4 then .needMore 4
  else
    let recordLen := leAt 0 4 bytes
    if recordLen = 0 then
      if (bytes.drop 4).any (· != 0) then .corrupted .zeroLengthNonzeroTail else .endOfData
    else if recordLen < minCommitRecordSize - 4 then .corrupted (.lengthTooSmall recordLen)
    else if bytes.length < 4 + recordLen then .needMore (4 + recordLen)
    else
      let body := (bytes.take (4 + recordLen)).drop 4
      let crcOffset := body.length - 4
      let computed := (Checksum.crc32c (body.take crcOffset)).toNat
      if leAt crcOffset 4 body ≠ computed then
        .corrupted (.crcMismatch (leAt crcOffset 4 body) computed)
      else decodeCommitBody body crcOffset

def commitByteSize (bytes : Bytes) : Option Nat :=
  if bytes.length < 4 then none
  else if leAt 0 4 bytes = 0 then none
  else some (4 + leAt 0 4 bytes)

/-! ## What the encoder accepts -/

def writesBytes (writes : List (Nat × Bytes)) : Bytes := writes.flatMap fun w => writeHeader w ++ w.2

theorem writesBytes_cons (w : Nat × Bytes) (rest : List (Nat × Bytes)) :
    writesBytes (w :: rest) = writeHeader w ++ (w.2 ++ writesBytes rest) := by
  rw [writesBytes, List.flatMap_cons, List.append_assoc]
  rfl

theorem length_writesBytes_cons (w : Nat × Bytes) (rest : List (Nat × Bytes)) :
    (writesBytes (w :: rest)).length = 12 + w.2.length + (writesBytes rest).length := by
  rw [writesBytes_cons, List.length_append, List.length_append, length_writeHeader, Nat.add_assoc]

/-- The record of a commit: what `PreparedRecord::new` gives where it succeeds. -/
def WalCommit.record (c : WalCommit) : PreparedRecord where
  commit := c
  body := (writesBytes c.writes).length + 25
  count := c.writes.length
  bytes := (writesBytes c.writes).length + 29

variable {ws : List (Nat × Bytes)}

theorem commitDataSize_ok_iff {size n : Nat} (hsize : size ≤ usizeMax) :
    commitDataSize ws size = .ok n ↔
      n = size + (writesBytes ws).length ∧ n ≤ usizeMax := by
  induction ws generalizing size with
  | nil => simp [commitDataSize, writesBytes]; omega
  | cons w rest ih =>
    rw [commitDataSize, length_writesBytes_cons]
    unfold writeHeaderBytes
    split_ifs with hover
    · constructor
      · intro h
        cases h
      · rintro ⟨rfl, hle⟩
        omega
    · rw [ih (by omega)]
      constructor
      · rintro ⟨rfl, hle⟩
        omega
      · rintro ⟨rfl, hle⟩
        omega

theorem encodeWrites_ok_iff {bytes : Bytes} :
    encodeWrites ws = .ok bytes ↔ (∀ w ∈ ws, w.2.length ≤ u32Max) ∧ bytes = writesBytes ws := by
  induction ws generalizing bytes with
  | nil => simp [encodeWrites, writesBytes, eq_comm]
  | cons w rest ih =>
    rw [encodeWrites, bind_ok, writesBytes_cons, List.forall_mem_cons]
    constructor
    · rintro ⟨⟨⟩, hw, h⟩
      obtain ⟨tail, htail, h⟩ := bind_ok.mp h
      cases h
      obtain ⟨hrest, rfl⟩ := ih.mp htail
      exact ⟨⟨Nat.le_of_not_lt (failIf_ok.mp hw), hrest⟩, List.append_assoc _ _ _⟩
    · rintro ⟨⟨hw, hrest⟩, rfl⟩
      refine ⟨(), failIf_of_not (Nat.not_lt.mpr hw) _, ?_⟩
      rw [ih.mpr ⟨hrest, rfl⟩, ok_bind, ← List.append_assoc]
      rfl

theorem length_le_writesBytes {w : Nat × Bytes} (hw : w ∈ ws) :
    w.2.length ≤ (writesBytes ws).length := by
  induction ws with
  | nil => cases hw
  | cons v rest ih =>
    rw [length_writesBytes_cons]
    rcases List.mem_cons.mp hw with rfl | hw
    · omega
    · have := ih hw
      omega

theorem count_le_writesBytes (ws : List (Nat × Bytes)) : ws.length * 12 ≤ (writesBytes ws).length := by
  have := length_writes ws
  rw [writesBytes]
  omega

variable {c : WalCommit}

theorem WalCommit.record_fits (h : c.record.body ≤ u32Max) : c.record.Fits where
  count := rfl
  body := by
    simp only [WalCommit.record, PreparedRecord.payload, List.length_append, length_commitHeader,
      bodyHeaderBytes, writesBytes]
    omega
  bytes := rfl
  bound := h
  few := by
    have := count_le_writesBytes c.writes
    simp only [WalCommit.record] at h ⊢
    omega
  lengths w hw := by
    have hle : w.2.length ≤ (writesBytes c.writes).length := length_le_writesBytes hw
    simp only [WalCommit.record] at h
    omega

/-! ## The write loop of the decoder -/

theorem decodeCommitWrites_writesBytes (ws : List (Nat × Bytes))
    (hw : ∀ w ∈ ws, w.1 ≤ u64Max ∧ w.2.length ≤ u32Max) (front tail : Bytes)
    {crcOffset : Nat} (index : Nat) (hcrc : front.length + (writesBytes ws).length ≤ crcOffset) :
    decodeCommitWrites (front ++ (writesBytes ws ++ tail)) crcOffset ws.length index front.length =
      .ok (ws, front.length + (writesBytes ws).length) := by
  induction ws generalizing front index with
  | nil => rfl
  | cons w rest ih =>
    obtain ⟨hblock, hlen⟩ := hw w List.mem_cons_self
    rw [length_writesBytes_cons] at hcrc
    have hbody : front ++ (writesBytes (w :: rest) ++ tail) =
        (front ++ writeHeader w ++ w.2) ++ (writesBytes rest ++ tail) := by
      rw [writesBytes_cons]
      simp only [List.append_assoc]
    have hfront : (front ++ writeHeader w ++ w.2).length =
        front.length + writeHeaderBytes + w.2.length := by
      simp only [List.length_append, length_writeHeader, writeHeaderBytes]
    have hnumber : leAt front.length 8 (front ++ (writesBytes (w :: rest) ++ tail)) = w.1 := by
      rw [writesBytes_cons, writeHeader]
      simp only [List.append_assoc]
      exact leAt_append front (u64_lt hblock) _
    have hlength : leAt (front.length + 8) 4 (front ++ (writesBytes (w :: rest) ++ tail)) =
        w.2.length := by
      rw [leAt_append_add, writesBytes_cons, writeHeader]
      simp only [List.append_assoc]
      exact leAt_append (toLe 8 w.1) (u32_lt hlen) _
    have hdata : ((front ++ (writesBytes (w :: rest) ++ tail)).drop
        (front.length + writeHeaderBytes)).take w.2.length = w.2 := by
      rw [hbody, List.append_assoc (front ++ writeHeader w), List.drop_left' (by
        rw [List.length_append, length_writeHeader, writeHeaderBytes]), List.take_left]
    have hnext := ih (fun v hv => hw v (List.mem_cons_of_mem _ hv)) (front ++ writeHeader w ++ w.2)
      (index + 1) (by rw [hfront, writeHeaderBytes]; omega)
    have htotal : (front ++ (writesBytes (w :: rest) ++ tail)).length =
        front.length + (12 + w.2.length + (writesBytes rest).length + tail.length) := by
      rw [List.length_append, List.length_append, length_writesBytes_cons]
    rw [List.length_cons, decodeCommitWrites, if_neg (by omega), if_neg (by omega)]
    simp only [hlength, hnumber, hdata]
    rw [if_neg (by unfold writeHeaderBytes; omega), hbody, ← hfront, hnext, Except.map, hfront,
      length_writesBytes_cons, writeHeaderBytes]
    congr 2
    omega

theorem decodeCommitWrites_ok {body : Bytes} {crcOffset : Nat} (hcrc : crcOffset ≤ body.length)
    (left index offset : Nat) {stop : Nat} (hoff : offset ≤ crcOffset)
    (h : decodeCommitWrites body crcOffset left index offset = .ok (ws, stop)) :
    ws.length = left ∧ stop ≤ crcOffset ∧ stop = offset + (writesBytes ws).length ∧
      (body.drop offset).take (writesBytes ws).length = writesBytes ws ∧
      ∀ w ∈ ws, w.1 ≤ u64Max ∧ w.2.length ≤ u32Max := by
  induction left generalizing index offset ws stop with
  | zero =>
    cases h
    simp [writesBytes, hoff]
  | succ left ih =>
    rw [decodeCommitWrites] at h
    split_ifs at h with h8 h4
    simp only at h
    generalize hlen : leAt (offset + 8) 4 body = len at h
    split_ifs at h with hpast
    cases hrest : decodeCommitWrites body crcOffset left (index + 1)
        (offset + writeHeaderBytes + len) with
    | error e => rw [hrest] at h; cases h
    | ok r =>
      rw [hrest] at h
      cases h
      unfold writeHeaderBytes at hpast hrest
      obtain ⟨hcount, hstop, hend, hbytes, hrange⟩ := ih (index + 1) _ (by omega) hrest
      have hdata : ((body.drop (offset + writeHeaderBytes)).take len).length = len := by
        rw [List.length_take, List.length_drop, writeHeaderBytes]
        omega
      have hheader : writeHeader (leAt offset 8 body, (body.drop (offset + writeHeaderBytes)).take len)
          = (body.drop offset).take 12 := by
        rw [writeHeader, hdata, ← hlen, toLe_leAt (by omega), toLe_leAt (by omega),
          ← List.drop_drop, ← List.take_add]
      refine ⟨by rw [List.length_cons, hcount], hstop, ?_, ?_, ?_⟩
      · rw [length_writesBytes_cons, hdata, hend]
        omega
      · rw [length_writesBytes_cons, hdata, writesBytes_cons, hheader, Nat.add_assoc, List.take_add,
          List.take_add, List.drop_drop, List.drop_drop, writeHeaderBytes, hbytes]
      · intro w hw
        rcases List.mem_cons.mp hw with rfl | hw
        · have hblock := leAt_lt offset 8 body
          have hlt := leAt_lt (offset + 8) 4 body
          refine ⟨by unfold u64Max; omega, ?_⟩
          rw [hdata, ← hlen]
          unfold u32Max
          omega
        · exact hrange w hw

variable [Checksum]

/-- **The encoder fails only on bodies that a `u32` cannot measure**, and gives the bytes of
the record otherwise. -/
theorem encodeCommit_ok_iff {e : Bytes} :
    encodeCommit c = .ok e ↔ c.record.body ≤ u32Max ∧ e = c.record.emit := by
  have hmax : u32Max < usizeMax - 4 := by decide
  have hsize : ∀ n, commitDataSize c.writes 0 = .ok n ↔
      n = (writesBytes c.writes).length ∧ n ≤ usizeMax := fun n => by
    rw [commitDataSize_ok_iff (Nat.zero_le _), Nat.zero_add]
  unfold encodeCommit
  constructor
  · intro h
    obtain ⟨n, hn, h⟩ := bind_ok.mp h
    obtain ⟨rfl, -⟩ := (hsize n).mp hn
    obtain ⟨⟨⟩, -, h⟩ := bind_ok.mp h
    obtain ⟨⟨⟩, -, h⟩ := bind_ok.mp h
    obtain ⟨⟨⟩, hbody, h⟩ := bind_ok.mp h
    obtain ⟨⟨⟩, -, h⟩ := bind_ok.mp h
    obtain ⟨writes, hwrites, h⟩ := bind_ok.mp h
    obtain ⟨-, rfl⟩ := encodeWrites_ok_iff.mp hwrites
    cases h
    exact ⟨Nat.le_of_not_lt (failIf_ok.mp hbody), rfl⟩
  · rintro ⟨hbody, rfl⟩
    have hfits := WalCommit.record_fits hbody
    have hb : (writesBytes c.writes).length + 25 ≤ u32Max := hbody
    have husize : ¬ usizeMax < (writesBytes c.writes).length + (minCommitRecordSize - 4) := by
      unfold minCommitRecordSize
      omega
    have htotal : ¬ usizeMax < (writesBytes c.writes).length + (minCommitRecordSize - 4) + 4 := by
      unfold minCommitRecordSize
      omega
    have hlen : ¬ u32Max < (writesBytes c.writes).length + (minCommitRecordSize - 4) :=
      Nat.not_lt.mpr hb
    have hfew : ¬ u32Max < c.writes.length := Nat.not_lt.mpr hfits.few
    have hwrites : encodeWrites c.writes = .ok (writesBytes c.writes) :=
      encodeWrites_ok_iff.mpr ⟨hfits.lengths, rfl⟩
    simp only [(hsize _).mpr ⟨rfl, show _ ≤ usizeMax by omega⟩, ok_bind, failIf_of_not husize,
      failIf_of_not htotal, failIf_of_not hlen, failIf_of_not hfew, hwrites]
    rfl

/-! ## Records are read back -/

omit [Checksum] in
theorem decodeCommitBody_payload {r : PreparedRecord} (hf : r.Fits) (hr : r.commit.InRange)
    (tail : Bytes) : decodeCommitBody (r.payload ++ tail) r.payload.length = .commit r.commit := by
  have hpayload : r.payload = commitHeader r.commit r.count ++ writesBytes r.commit.writes := rfl
  have hheader := length_commitHeader r.commit r.count
  have hlen : r.payload.length = 21 + (writesBytes r.commit.writes).length := by
    rw [hpayload, List.length_append, hheader, bodyHeaderBytes]
  obtain ⟨htype, hseq, htxn, hcount⟩ := commitHeader_fields hr hf.few
  have hfield : ∀ {k w : Nat}, k + w ≤ 21 →
      leAt k w (r.payload ++ tail) = leAt k w (commitHeader r.commit r.count) := fun h => by
    rw [hpayload, List.append_assoc, leAt_append_left (by rw [hheader]; exact h)]
  have hroom : r.count ≤ (r.payload.length - bodyHeaderBytes) / writeHeaderBytes := by
    have := count_le_writesBytes r.commit.writes
    rw [hf.count, bodyHeaderBytes, writeHeaderBytes]
    omega
  have hwrites : decodeCommitWrites (r.payload ++ tail) r.payload.length r.count 0 bodyHeaderBytes =
      .ok (r.commit.writes, r.payload.length) := by
    have h := decodeCommitWrites_writesBytes r.commit.writes
      (fun w hw => ⟨hr.blocks w hw, hf.lengths w hw⟩) (commitHeader r.commit r.count) tail 0
      (show _ ≤ r.payload.length by rw [hpayload, List.length_append])
    rw [← List.append_assoc, ← hpayload, hheader, ← hf.count] at h
    rw [h, hlen, bodyHeaderBytes]
  simp only [decodeCommitBody, hfield (show 0 + 1 ≤ 21 by decide),
    hfield (show 1 + 8 ≤ 21 by decide), hfield (show 9 + 8 ≤ 21 by decide),
    hfield (show 17 + 4 ≤ 21 by decide), htype, hseq, htxn, hcount, ne_eq, not_true_eq_false,
    if_false, gt_iff_lt, Nat.not_lt.mpr hroom, hwrites]

theorem decodeCommit_emit {r : PreparedRecord} (hf : r.Fits) (hr : r.commit.InRange)
    (tail : Bytes) : decodeCommit (r.emit ++ tail) = .commit r.commit := by
  have hlen := hf.length_emit
  have hge := hf.body_ge
  have hbytes := hf.bytes
  have hbody : ((r.emit ++ tail).take (4 + r.body)).drop 4 =
      r.payload ++ toLe 4 (Checksum.crc32c r.payload).toNat := by
    rw [List.take_left' (by omega), PreparedRecord.emit, List.drop_left' (length_toLe 4 _)]
  have hcrc : leAt r.payload.length 4 (r.payload ++ toLe 4 (Checksum.crc32c r.payload).toNat) =
      (Checksum.crc32c r.payload).toNat := by
    simpa using leAt_append r.payload (Checksum.crc32c r.payload).isLt []
  rw [decodeCommit, if_neg (by rw [List.length_append]; omega),
    if_neg (by rw [List.length_append]; omega)]
  simp only [hf.leAt_emit, hbody]
  rw [if_neg (by omega), if_neg (by unfold minCommitRecordSize; omega),
    if_neg (by rw [List.length_append]; omega), List.length_append, length_toLe, Nat.add_sub_cancel,
    List.take_left, if_neg (not_not.mpr hcrc), decodeCommitBody_payload hf hr]

theorem commitByteSize_emit {r : PreparedRecord} (hf : r.Fits) (tail : Bytes) :
    commitByteSize (r.emit ++ tail) = some r.emit.length := by
  have hlen := hf.length_emit
  have hge := hf.body_ge
  have hbytes := hf.bytes
  rw [commitByteSize, if_neg (by rw [List.length_append]; omega), hf.leAt_emit,
    if_neg (by omega), hlen, hbytes, Nat.add_comm]

/-! ## What is read is an encoding -/

theorem decodeCommit_eq_commit {x : Bytes} (h : decodeCommit x = .commit c) :
    ∃ body : Bytes, x.take (4 + leAt 0 4 x) = toLe 4 (leAt 0 4 x) ++ body ∧
      body.length = leAt 0 4 x ∧ 25 ≤ body.length ∧ 4 + body.length ≤ x.length ∧
      leAt (body.length - 4) 4 body = (Checksum.crc32c (body.take (body.length - 4))).toNat ∧
      decodeCommitBody body (body.length - 4) = .commit c := by
  unfold decodeCommit at h
  dsimp only at h
  split at h
  · cases h
  split at h
  · cases h
  split at h
  · split at h <;> cases h
  split_ifs at h with hsmall hmore hcrc
  unfold minCommitRecordSize at hsmall
  have hlen : ((x.take (4 + leAt 0 4 x)).drop 4).length = leAt 0 4 x := by
    rw [List.length_drop, List.length_take]
    omega
  refine ⟨(x.take (4 + leAt 0 4 x)).drop 4, ?_, hlen, by omega, by omega, not_not.mp hcrc, h⟩
  have hfront : toLe 4 (leAt 0 4 x) = (x.take (4 + leAt 0 4 x)).take 4 := by
    rw [toLe_leAt (by omega), List.drop_zero, List.take_take, Nat.min_eq_left (by omega)]
  rw [hfront, List.take_append_drop]

omit [Checksum] in
theorem decodeCommitBody_eq_commit {body : Bytes} {crcOffset : Nat} (hcrc : crcOffset ≤ body.length)
    (hge : bodyHeaderBytes ≤ crcOffset) (h : decodeCommitBody body crcOffset = .commit c) :
    body.take crcOffset = commitHeader c c.writes.length ++ writesBytes c.writes ∧ c.InRange := by
  unfold decodeCommitBody at h
  simp only at h
  split_ifs at h with htype hmany
  cases hrun : decodeCommitWrites body crcOffset (leAt 17 4 body) 0 bodyHeaderBytes with
  | error e => simp [hrun] at h
  | ok r =>
    obtain ⟨ws, stop⟩ := r
    simp only [hrun] at h
    split_ifs at h with hstop
    cases h
    obtain ⟨hcount, -, hend, hbytes, hrange⟩ := decodeCommitWrites_ok hcrc _ _ _ hge hrun
    unfold bodyHeaderBytes at hge hend hbytes
    have hseq := leAt_lt 1 8 body
    have htxn := leAt_lt 9 8 body
    refine ⟨?_, by unfold u64Max; simp only; omega, by unfold u64Max; simp only; omega,
      fun w hw => (hrange w hw).1⟩
    rw [← not_not.mp hstop, hend, List.take_add, hbytes, commitHeader, hcount, ← not_not.mp htype,
      toLe_leAt (by omega), toLe_leAt (by omega), toLe_leAt (by omega), toLe_leAt (by omega)]
    congr 1
    rw [show 21 = 1 + (8 + (8 + 4)) from rfl, List.take_add, List.take_add, List.take_add,
      List.drop_drop, List.drop_drop]
    rfl

theorem decodeCommit_record {x : Bytes} (h : decodeCommit x = .commit c) :
    c.InRange ∧ c.record.body ≤ u32Max ∧ commitByteSize x = some (4 + leAt 0 4 x) ∧
      c.record.emit = x.take (4 + leAt 0 4 x) := by
  obtain ⟨body, htake, hlen, hge, hx, hcrc, hbody⟩ := decodeCommit_eq_commit h
  obtain ⟨hpayload, hrange⟩ := decodeCommitBody_eq_commit (by omega) (by
    unfold bodyHeaderBytes
    omega) hbody
  have hrecord : c.record.payload = body.take (body.length - 4) := hpayload.symm
  have hplen : (commitHeader c c.writes.length ++ writesBytes c.writes).length = body.length - 4 := by
    rw [← hpayload, List.length_take]
    omega
  rw [List.length_append, length_commitHeader, bodyHeaderBytes] at hplen
  have hsize : c.record.body = leAt 0 4 x := by
    simp only [WalCommit.record]
    omega
  have hlt := leAt_lt 0 4 x
  refine ⟨hrange, ?_, ?_, ?_⟩
  · rw [hsize]
    unfold u32Max
    omega
  · rw [commitByteSize, if_neg (by omega), if_neg (by omega)]
  · have hlast : toLe 4 (leAt (body.length - 4) 4 body) = body.drop (body.length - 4) := by
      rw [toLe_leAt (by omega), List.take_of_length_le (by rw [List.length_drop]; omega)]
    rw [PreparedRecord.emit, hrecord, hsize, htake, ← hcrc, hlast, List.take_append_drop]

/-- **The record codec is a bijection onto its image**, for any checksum: an encoding is
decoded to the commit it came from whatever follows it, and a string that is decoded starts
with the encoding of the commit it gave. -/
theorem commit_codec :
    (∀ c e tail, c.InRange → encodeCommit c = .ok e →
      decodeCommit (e ++ tail) = .commit c ∧ commitByteSize (e ++ tail) = some e.length) ∧
      ∀ x c, decodeCommit x = .commit c →
        ∃ n, commitByteSize x = some n ∧ encodeCommit c = .ok (x.take n) := by
  constructor
  · intro c e tail hr he
    obtain ⟨hbody, rfl⟩ := encodeCommit_ok_iff.mp he
    have hf := WalCommit.record_fits hbody
    exact ⟨decodeCommit_emit hf hr tail, commitByteSize_emit hf tail⟩
  · intro x c h
    obtain ⟨-, hbody, hsize, hemit⟩ := decodeCommit_record h
    exact ⟨_, hsize, encodeCommit_ok_iff.mpr ⟨hbody, hemit.symm⟩⟩

section Sample

local instance zeroChecksum : Checksum := ⟨fun _ => 0⟩

def fifthCommit : WalCommit := ⟨5, 3, [(7, [1, 2])]⟩

theorem commit_codec_fifthCommit :
    ∃ e, encodeCommit fifthCommit = .ok e ∧ decodeCommit (e ++ [9]) = .commit fifthCommit ∧
      commitByteSize (e ++ [9]) = some 43 := by
  have hr : fifthCommit.InRange := ⟨by decide, by decide, by decide⟩
  have hbody : fifthCommit.record.body ≤ u32Max := by decide
  have he : encodeCommit fifthCommit = .ok fifthCommit.record.emit :=
    encodeCommit_ok_iff.mpr ⟨hbody, rfl⟩
  exact ⟨_, he, commit_codec.1 _ _ [9] hr he⟩

end Sample

end FrankenFs.Mvcc
