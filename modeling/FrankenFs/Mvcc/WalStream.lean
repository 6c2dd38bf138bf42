import FrankenFs.Lib.Crc32c
import FrankenFs.Lib.ShortReads
import FrankenFs.Mvcc.TornTail

/-!
# Replay from a reader

The incremental decoder with the reads it makes: a record is taken from the reader in chunks, which
may be interrupted or return short. No call is cancelled here and no allocation fails.
-/

open FrankenFs.Lib

namespace FrankenFs.Mvcc

/-- `crc32c_append`, which takes a checksum on from where it was. -/
class IncrementalChecksum extends Checksum where
  append : BitVec 32 → Bytes → BitVec 32
  crc_nil : crc32c [] = 0
  append_crc : ∀ front chunk, append (crc32c front) chunk = crc32c (front ++ chunk)

def readChunkBytes : Nat := 64 * 1024
def scratchBytes : Nat := 4096

def earlyEof : FfsError := .io "WAL ended before its captured length"

/-! ## One record -/

/-- The unread part of a record up to its checksum, and the checksum of what was read. -/
structure RecordBody where
  source : Source Byte
  remaining : Nat
  crc : BitVec 32

structure StreamReader where
  source : Source Byte
  remaining : Nat

section Model

variable [IncrementalChecksum]

namespace RecordBody

def readChunk (n : Nat) (b : RecordBody) : Except FfsError (Bytes × RecordBody) :=
  (b.source.readExact earlyEof n).map fun r =>
    (r.1, ⟨r.2, b.remaining - n, IncrementalChecksum.append b.crc r.1⟩)

def read (n : Nat) (b : RecordBody) : Except FfsError (Bytes × RecordBody) :=
  if n > b.remaining then .error (.format "WAL body read crosses its CRC")
  else inChunks readChunkBytes readChunk n n b

def discard (len : Nat) (b : RecordBody) : Except FfsError (Bytes × RecordBody) :=
  if len > b.remaining then .error (.format "WAL discard crosses its CRC")
  else inChunks scratchBytes read len len b

/-- A payload is read into its own allocation, which grows chunk by chunk. -/
def payload (len : Nat) (b : RecordBody) : Except FfsError (Bytes × RecordBody) :=
  inChunks readChunkBytes read len len b

def takeData (covered : Bool) (len : Nat) (b : RecordBody) : Except FfsError (Bytes × RecordBody) :=
  if covered then b.discard len else b.payload len

/-- The write loop of `decode`, with `left` writes to go. A fault is not an error yet: the rest
of the record is still to be read. -/
def writes (covered : Bool) (crcOffset : Nat) :
    (left index : Nat) → RecordBody →
      Except FfsError (Except RecordFault (List (Nat × Bytes)) × RecordBody)
  | 0, _, b => .ok (.ok [], b)
  | left + 1, index, b =>
    if b.remaining < writeHeaderBytes then .ok (.error (.headerPastCrc index), b)
    else do
      let header ← b.read writeHeaderBytes
      let len := leAt 8 4 header.1
      if len > header.2.remaining then
        return (.error (.dataPastCrc index (crcOffset - header.2.remaining) len crcOffset), header.2)
      else
        let data ← header.2.takeData covered len
        let rest ← writes covered crcOffset left (index + 1) data.2
        return (rest.1.map fun ws => if covered then ws else (leAt 0 8 header.1, data.1) :: ws, rest.2)

def decode (checkpointSeq : Option Nat) (b : RecordBody) :
    Except FfsError (DecodeResult × RecordBody) := do
  let crcOffset := b.remaining
  let header ← b.read bodyHeaderBytes
  let commitSeq := leAt 1 8 header.1
  let numWrites := leAt 17 4 header.1
  let covered := checkpointSeq.any fun seq => decide (commitSeq ≤ seq)
  let maxWrites := header.2.remaining / writeHeaderBytes
  if leAt 0 1 header.1 ≠ recordTypeCommit then
    return (.corrupted (.unknownType (leAt 0 1 header.1)), header.2)
  else if numWrites > maxWrites then
    return (.corrupted (.tooManyWrites numWrites maxWrites), header.2)
  else
    let r ← writes covered crcOffset numWrites 0 header.2
    match r.1 with
    | .error fault => return (.corrupted fault, r.2)
    | .ok ws =>
      if r.2.remaining ≠ 0 then return (.corrupted (.trailingPayload r.2.remaining), r.2)
      else return (.commit ⟨commitSeq, leAt 9 8 header.1, ws⟩, r.2)

def finish (b : RecordBody) (decoded : DecodeResult) :
    Except FfsError (DecodeResult × Source Byte) := do
  let drained ← b.discard b.remaining
  let stored ← drained.2.source.readExact earlyEof 4
  if ofLe stored.1 ≠ drained.2.crc.toNat then
    return (.corrupted (.crcMismatch (ofLe stored.1) drained.2.crc.toNat), stored.2)
  else return (decoded, stored.2)

end RecordBody

namespace StreamReader

omit [IncrementalChecksum] in
def readInto (n : Nat) (r : StreamReader) : Except FfsError (Bytes × StreamReader) :=
  (r.source.readExact earlyEof n).map fun read => (read.1, ⟨read.2, r.remaining - n⟩)

omit [IncrementalChecksum] in
/-- `read_tail`, with the bytes that it looks at. -/
def readTail (r : StreamReader) : Except FfsError (Bytes × StreamReader) :=
  inChunks scratchBytes readInto r.remaining r.remaining r

/-- `RecordReader::next`. -/
def next (checkpointSeq : Option Nat) (r : StreamReader) :
    Except FfsError ((DecodeResult × Option Nat) × StreamReader) :=
  if r.remaining = 0 then .ok ((.endOfData, none), r)
  else if r.remaining < 4 then do
    let header ← r.readInto r.remaining
    return ((.needMore 4, none), header.2)
  else do
    let header ← r.readInto 4
    let bodyLen := ofLe header.1
    if bodyLen = 0 then
      let tail ← header.2.readTail
      return ((if tail.1.all (· == 0) then .endOfData else .corrupted .zeroLengthNonzeroTail, none),
        tail.2)
    else if bodyLen + 4 < minCommitRecordSize then
      return ((.corrupted (.lengthTooSmall bodyLen), none), header.2)
    else if bodyLen > header.2.remaining then
      -- The tail is read before it is called torn.
      let tail ← header.2.readTail
      return ((.needMore (bodyLen + 4), none), tail.2)
    else
      let decoded ← RecordBody.decode checkpointSeq ⟨header.2.source, bodyLen + 4 - 8, 0⟩
      let finished ← decoded.2.finish decoded.1
      return ((finished.1, some (bodyLen + 4)), ⟨finished.2, header.2.remaining - bodyLen⟩)

end StreamReader

/-! ## The reads of a record -/

namespace RecordBody

/-- `b` has read the front of `whole`, and `ahead` is the rest of it. -/
structure At (whole after : Bytes) (b : RecordBody) (ahead : Bytes) : Prop where
  front : ∃ front, whole = front ++ ahead ∧ b.crc = Checksum.crc32c front
  remaining : b.remaining = ahead.length
  source : b.source.data = ahead ++ after

variable {whole after : Bytes} {b : RecordBody} {ahead : Bytes}

theorem At.readChunk (h : At whole after b ahead) {n : Nat} (hn : n ≤ ahead.length) :
    ∃ b', b.readChunk n = .ok (ahead.take n, b') ∧ At whole after b' (ahead.drop n) := by
  obtain ⟨front, hfront, hcrc⟩ := h.front
  obtain ⟨plan, hplan⟩ := b.source.readExact_ok earlyEof (show n ≤ b.source.data.length by
    rw [h.source, List.length_append]
    omega)
  rw [h.source, List.take_append_of_le_length hn, List.drop_append_of_le_length hn] at hplan
  refine ⟨_, by rw [RecordBody.readChunk, hplan, Except.map], ⟨front ++ ahead.take n, ?_, ?_⟩, ?_, rfl⟩
  · rw [List.append_assoc, List.take_append_drop, hfront]
  · rw [hcrc, IncrementalChecksum.append_crc]
  · rw [List.length_drop, h.remaining]

theorem At.read (h : At whole after b ahead) {n : Nat} (hn : n ≤ ahead.length) :
    ∃ b', b.read n = .ok (ahead.take n, b') ∧ At whole after b' (ahead.drop n) := by
  rw [RecordBody.read, if_neg (by rw [h.remaining]; omega)]
  exact inChunks_ok (by decide) (fun _ _ _ hb hle => hb.readChunk hle) le_rfl h hn

theorem At.discard (h : At whole after b ahead) {n : Nat} (hn : n ≤ ahead.length) :
    ∃ b', b.discard n = .ok (ahead.take n, b') ∧ At whole after b' (ahead.drop n) := by
  rw [RecordBody.discard, if_neg (by rw [h.remaining]; omega)]
  exact inChunks_ok (by decide) (fun _ _ _ hb hle => hb.read hle) le_rfl h hn

theorem At.takeData (covered : Bool) (h : At whole after b ahead) {n : Nat}
    (hn : n ≤ ahead.length) :
    ∃ b', b.takeData covered n = .ok (ahead.take n, b') ∧ At whole after b' (ahead.drop n) := by
  cases covered with
  | true => exact h.discard hn
  | false => exact inChunks_ok (by decide) (fun _ _ _ hb hle => hb.read hle) le_rfl h hn

theorem At.writes (covered : Bool) (crcOffset left index : Nat) (h : At whole after b ahead) :
    ∃ r b' ahead', b.writes covered crcOffset left index = .ok (r, b') ∧
      At whole after b' ahead' ∧
      decodeWrites covered crcOffset left index ahead = r.map fun ws => (ws, ahead') := by
  induction left generalizing index b ahead with
  | zero => exact ⟨_, b, ahead, rfl, h, rfl⟩
  | succ left ih =>
    rw [RecordBody.writes, decodeWrites, splitFirst, h.remaining]
    by_cases hheader : ahead.length < writeHeaderBytes
    · rw [if_pos hheader, if_neg (Nat.not_le.mpr hheader)]
      exact ⟨_, b, ahead, rfl, h, rfl⟩
    rw [if_neg hheader, if_pos (Nat.le_of_not_lt hheader)]
    obtain ⟨b₁, hread, h₁⟩ := h.read (Nat.le_of_not_lt hheader)
    rw [hread, ok_bind]
    simp only [h₁.remaining, splitFirst]
    generalize hlen : leAt 8 4 (ahead.take writeHeaderBytes) = len
    by_cases hdata : len > (ahead.drop writeHeaderBytes).length
    · rw [if_pos hdata, if_neg (Nat.not_le.mpr hdata)]
      exact ⟨_, b₁, _, rfl, h₁, rfl⟩
    rw [if_neg hdata, if_pos (Nat.le_of_not_lt hdata)]
    obtain ⟨b₂, hskip, h₂⟩ := h₁.takeData covered (Nat.le_of_not_lt hdata)
    obtain ⟨r, b₃, ahead', hrun, h₃, hspec⟩ := ih (index + 1) h₂
    rw [hskip, ok_bind]
    simp only [hrun, hspec, ok_bind]
    refine ⟨_, b₃, ahead', rfl, h₃, ?_⟩
    cases r <;> rfl

theorem At.decode (checkpointSeq : Option Nat) (h : At whole after b ahead)
    (hroom : bodyHeaderBytes ≤ ahead.length) :
    ∃ d b' ahead', b.decode checkpointSeq = .ok (d, b') ∧ At whole after b' ahead' ∧
      decodeBody checkpointSeq ahead = .ok d := by
  obtain ⟨b₁, hread, h₁⟩ := h.read hroom
  rw [RecordBody.decode, decodeBody, splitFirst, if_pos hroom, hread, ok_bind]
  simp only [h.remaining, h₁.remaining]
  split_ifs with htype hmany
  · exact ⟨_, b₁, _, rfl, h₁, rfl⟩
  · exact ⟨_, b₁, _, rfl, h₁, rfl⟩
  · obtain ⟨r, b₂, ahead', hrun, h₂, hspec⟩ := At.writes
      (checkpointSeq.any fun seq => decide (leAt 1 8 (ahead.take bodyHeaderBytes) ≤ seq))
      ahead.length (leAt 17 4 (ahead.take bodyHeaderBytes)) 0 h₁
    rw [hrun, ok_bind, hspec]
    cases r with
    | error fault => exact ⟨_, b₂, ahead', rfl, h₂, rfl⟩
    | ok ws =>
      simp only [Except.map, h₂.remaining]
      split_ifs
      · exact ⟨_, b₂, ahead', rfl, h₂, rfl⟩
      · exact ⟨_, b₂, ahead', rfl, h₂, rfl⟩

theorem At.finish (h : At whole after b ahead) (hcrc : 4 ≤ after.length) (d : DecodeResult) :
    ∃ source, b.finish d = .ok (finishRecord whole (after.take 4) d, source) ∧
      source.data = after.drop 4 := by
  obtain ⟨b₁, hdrain, h₁⟩ := h.discard (le_refl ahead.length)
  obtain ⟨front, hfront, hsum⟩ := h₁.front
  rw [List.drop_length, List.append_nil] at hfront
  have hsource := h₁.source
  rw [List.drop_length, List.nil_append] at hsource
  obtain ⟨plan, hplan⟩ := b₁.source.readExact_ok earlyEof (show 4 ≤ b₁.source.data.length by
    rw [hsource]
    exact hcrc)
  rw [RecordBody.finish, h.remaining, hdrain, ok_bind]
  simp only [hplan, ok_bind, hsource, hsum, ← hfront, finishRecord]
  split_ifs
  · exact ⟨_, rfl, rfl⟩
  · exact ⟨_, rfl, rfl⟩

end RecordBody

/-! ## The next record -/

namespace StreamReader

omit [IncrementalChecksum] in
structure Ahead (after : Bytes) (r : StreamReader) (bytes : Bytes) : Prop where
  remaining : r.remaining = bytes.length
  source : r.source.data = bytes ++ after

variable {after : Bytes} {r : StreamReader} {bytes : Bytes}

omit [IncrementalChecksum] in
theorem Ahead.readInto (h : Ahead after r bytes) {n : Nat} (hn : n ≤ bytes.length) :
    ∃ r', r.readInto n = .ok (bytes.take n, r') ∧ Ahead after r' (bytes.drop n) := by
  obtain ⟨plan, hplan⟩ := r.source.readExact_ok earlyEof (show n ≤ r.source.data.length by
    rw [h.source, List.length_append]
    omega)
  rw [h.source, List.take_append_of_le_length hn, List.drop_append_of_le_length hn] at hplan
  refine ⟨_, by rw [StreamReader.readInto, hplan, Except.map], ?_, rfl⟩
  rw [List.length_drop, h.remaining]

omit [IncrementalChecksum] in
theorem Ahead.readTail (h : Ahead after r bytes) :
    ∃ r', r.readTail = .ok (bytes, r') ∧ Ahead after r' [] := by
  obtain ⟨r', hr', hahead⟩ := inChunks_ok (P := Ahead after) (show 0 < scratchBytes by decide)
    (fun _ _ _ hr hle => Ahead.readInto hr hle) le_rfl h (le_refl bytes.length)
  rw [List.take_length] at hr'
  rw [List.drop_length] at hahead
  exact ⟨r', by rw [StreamReader.readTail, h.remaining]; exact hr', hahead⟩

/-- **The reader decodes what stands ahead**, however its reads are split. -/
theorem Ahead.next (checkpointSeq : Option Nat) (h : Ahead after r bytes) :
    ∃ d size r', r.next checkpointSeq = .ok ((d, size), r') ∧
      RecordReader.next checkpointSeq bytes = .ok (d, size) ∧
      ∀ n, size = some n → Ahead after r' (bytes.drop n) := by
  rw [StreamReader.next, RecordReader.next, h.remaining]
  split_ifs with h0 h4
  · exact ⟨_, _, r, rfl, rfl, by simp⟩
  · obtain ⟨r₁, hread, -⟩ := h.readInto (le_refl bytes.length)
    rw [hread]
    exact ⟨_, _, r₁, rfl, rfl, by simp⟩
  obtain ⟨r₁, hread, h₁⟩ := h.readInto (Nat.le_of_not_lt h4)
  have hfield : leAt 0 4 bytes = ofLe (bytes.take 4) := rfl
  rw [hread, ok_bind, hfield]
  dsimp only
  generalize ofLe (bytes.take 4) = bodyLen
  rw [h₁.remaining]
  by_cases hzero : bodyLen = 0
  · obtain ⟨r₂, htail, -⟩ := h₁.readTail
    rw [if_pos hzero, if_pos hzero, htail]
    refine ⟨_, none, r₂, rfl, ?_, by simp⟩
    split_ifs <;> rfl
  rw [if_neg hzero, if_neg hzero]
  by_cases hsmall : bodyLen + 4 < minCommitRecordSize
  · rw [if_pos hsmall, if_pos hsmall]
    exact ⟨_, none, r₁, rfl, rfl, by simp⟩
  rw [if_neg hsmall, if_neg hsmall]
  by_cases hmore : bodyLen > (bytes.drop 4).length
  · obtain ⟨r₂, htail, -⟩ := h₁.readTail
    rw [if_pos hmore, if_pos hmore, htail]
    exact ⟨_, none, r₂, rfl, rfl, by simp⟩
  rw [if_neg hmore, if_neg hmore]
  unfold minCommitRecordSize at hsmall
  -- The record splits into its payload, its checksum and what comes later.
  have hlen : ((bytes.drop 4).take (bodyLen - 4)).length = bodyLen - 4 := by
    rw [List.length_take]
    omega
  have hbody : RecordBody.At ((bytes.drop 4).take (bodyLen - 4))
      ((bytes.drop 4).drop (bodyLen - 4) ++ after) ⟨r₁.source, bodyLen + 4 - 8, 0⟩
      ((bytes.drop 4).take (bodyLen - 4)) := by
    refine ⟨⟨[], rfl, IncrementalChecksum.crc_nil.symm⟩, ?_, ?_⟩
    · rw [hlen]
      simp only
      omega
    · rw [← List.append_assoc, List.take_append_drop]
      exact h₁.source
  obtain ⟨d, b₁, ahead', hdecode, h₂, hspec⟩ := hbody.decode checkpointSeq (by
    rw [hlen, bodyHeaderBytes]
    omega)
  have hrest : ((bytes.drop 4).drop (bodyLen - 4)).length = (bytes.drop 4).length - (bodyLen - 4) :=
    List.length_drop
  obtain ⟨source, hfinish, hsource⟩ := h₂.finish (by
    rw [List.length_append]
    omega) d
  rw [List.take_append_of_le_length (by omega)] at hfinish
  rw [List.drop_append_of_le_length (by omega), List.drop_drop, List.drop_drop] at hsource
  rw [hdecode, ok_bind, hfinish, hspec]
  refine ⟨_, some (bodyLen + 4), _, rfl, rfl, ?_⟩
  rintro n ⟨⟩
  refine ⟨?_, ?_⟩
  · simp only [List.length_drop]
    omega
  · rw [hsource]
    congr 2
    omega

end StreamReader

end Model

/-! ## The two decoders agree -/

/-- The slice loop and the stream loop accept the same writes. Where a header crosses into the
checksum only the stream decoder says so, but both refuse it. -/
theorem decodeWrites_agree (payload stored : Bytes) (covered : Bool) (left index : Nat) {offset : Nat}
    (hoff : offset ≤ payload.length) :
    (∃ ws stop, decodeCommitWrites (payload ++ stored) payload.length left index offset =
        .ok (ws, stop) ∧ stop ≤ payload.length ∧
      decodeWrites covered payload.length left index (payload.drop offset) =
        .ok (if covered then [] else ws, payload.drop stop)) ∨
    ∃ fault fault', decodeCommitWrites (payload ++ stored) payload.length left index offset =
        .error fault ∧
      decodeWrites covered payload.length left index (payload.drop offset) = .error fault' := by
  induction left generalizing index offset with
  | zero => exact Or.inl ⟨[], offset, rfl, hoff, by cases covered <;> rfl⟩
  | succ left ih =>
    rw [decodeCommitWrites, decodeWrites, List.length_append]
    dsimp only
    by_cases hheader : 12 ≤ payload.length - offset
    · have hsplit : splitFirst writeHeaderBytes (payload.drop offset) =
          some ((payload.drop offset).take 12, payload.drop (offset + 12)) := by
        rw [splitFirst, List.length_drop, writeHeaderBytes, if_pos hheader, List.drop_drop]
      have hlength : leAt 8 4 ((payload.drop offset).take 12) =
          leAt (offset + 8) 4 (payload ++ stored) := by
        rw [leAt_append_left (by omega)]
        unfold leAt
        rw [List.drop_take, List.drop_drop, List.take_take]
        rfl
      have hblock : leAt 0 8 ((payload.drop offset).take 12) = leAt offset 8 (payload ++ stored) := by
        rw [leAt_append_left (by omega), leAt_take (by omega)]
        rfl
      rw [hsplit, if_neg (by omega), if_neg (by omega)]
      dsimp only
      rw [hlength, hblock]
      generalize leAt (offset + 8) 4 (payload ++ stored) = len
      by_cases hdata : offset + 12 + len > payload.length
      · have hnone : splitFirst len (payload.drop (offset + 12)) = none := by
          rw [splitFirst, List.length_drop, if_neg (by omega)]
        rw [if_pos (show offset + writeHeaderBytes + len > payload.length from hdata), hnone]
        exact Or.inr ⟨_, _, rfl, rfl⟩
      · have hsome : splitFirst len (payload.drop (offset + 12)) =
            some ((payload.drop (offset + 12)).take len, payload.drop (offset + 12 + len)) := by
          rw [splitFirst, List.length_drop, if_pos (by omega), List.drop_drop]
        have htake : ((payload ++ stored).drop (offset + 12)).take len =
            (payload.drop (offset + 12)).take len := by
          rw [List.drop_append_of_le_length (by omega), List.take_append_of_le_length (by
            rw [List.length_drop]; omega)]
        rw [if_neg (show ¬ offset + writeHeaderBytes + len > payload.length from hdata), hsome]
        simp only [writeHeaderBytes, htake]
        rcases ih (index + 1) (show offset + 12 + len ≤ payload.length by omega) with
          ⟨ws, stop, hslice, hle, hstream⟩ | ⟨fault, fault', hslice, hstream⟩
        · simp only [hslice, hstream, Except.map]
          exact Or.inl ⟨_, stop, rfl, hle, by cases covered <;> rfl⟩
        · simp only [hslice, hstream, Except.map]
          exact Or.inr ⟨fault, fault', rfl, rfl⟩
    · have hnone : splitFirst writeHeaderBytes (payload.drop offset) = none := by
        rw [splitFirst, List.length_drop, writeHeaderBytes, if_neg hheader]
      rw [hnone]
      refine Or.inr ?_
      by_cases h8 : payload.length + stored.length < offset + 8
      · rw [if_pos h8]
        exact ⟨_, _, rfl, rfl⟩
      by_cases h4 : payload.length + stored.length < offset + 8 + 4
      · rw [if_neg h8, if_pos h4]
        exact ⟨_, _, rfl, rfl⟩
      · rw [if_neg h8, if_neg h4, if_pos (by unfold writeHeaderBytes; omega)]
        exact ⟨_, _, rfl, rfl⟩

/-- Same outcome, up to the writes of a covered record and the reason of a refusal. -/
inductive Agrees (skip : Nat) : DecodeResult × Option Nat → DecodeResult × Option Nat → Prop where
  | commit (c : WalCommit) (n : Nat) :
    Agrees skip (.commit c, some n) (.commit (c.elided (some skip)), some n)
  | needMore (n : Nat) (size size' : Option Nat) : Agrees skip (.needMore n, size) (.needMore n, size')
  | corrupted (fault fault' : RecordFault) (size size' : Option Nat) :
    Agrees skip (.corrupted fault, size) (.corrupted fault', size')
  | endOfData (size size' : Option Nat) : Agrees skip (.endOfData, size) (.endOfData, size')

theorem decodeBody_agrees (skip n : Nat) (payload stored : Bytes)
    (hroom : bodyHeaderBytes ≤ payload.length) :
    ∃ d, decodeBody (some skip) payload = .ok d ∧
      Agrees skip (decodeCommitBody (payload ++ stored) payload.length, some n) (d, some n) := by
  unfold bodyHeaderBytes at hroom
  have hfield : ∀ {k w : Nat}, k + w ≤ 21 →
      leAt k w (payload ++ stored) = leAt k w (payload.take 21) := fun {k w} h => by
    rw [leAt_append_left (by omega)]
    unfold leAt
    rw [List.drop_take, List.take_take, Nat.min_eq_left (by omega)]
  rw [decodeBody, decodeCommitBody, splitFirst, bodyHeaderBytes, if_pos hroom]
  simp only [hfield (show 0 + 1 ≤ 21 by decide), hfield (show 1 + 8 ≤ 21 by decide),
    hfield (show 9 + 8 ≤ 21 by decide), hfield (show 17 + 4 ≤ 21 by decide), List.length_drop]
  generalize hseq : leAt 1 8 (payload.take 21) = seq
  generalize leAt 9 8 (payload.take 21) = txn
  generalize leAt 17 4 (payload.take 21) = numWrites
  split_ifs with htype hmany
  · exact ⟨_, rfl, .corrupted _ _ _ _⟩
  · exact ⟨_, rfl, .corrupted _ _ _ _⟩
  · rcases decodeWrites_agree payload stored ((some skip).any fun s => decide (seq ≤ s)) numWrites 0
      hroom with ⟨ws, stop, hslice, hle, hstream⟩ | ⟨fault, fault', hslice, hstream⟩
    · rw [hslice, hstream]
      simp only [List.length_drop]
      by_cases hend : stop = payload.length
      · rw [if_neg (by omega), if_neg (not_not.mpr hend)]
        refine ⟨_, rfl, ?_⟩
        have helided : WalCommit.elided ⟨seq, txn, ws⟩ (some skip) =
            ⟨seq, txn, if (some skip).any fun s => decide (seq ≤ s) then [] else ws⟩ := by
          unfold WalCommit.elided
          split_ifs <;> rfl
        rw [← helided]
        exact .commit _ n
      · rw [if_pos (by omega), if_pos hend]
        exact ⟨_, rfl, .corrupted _ _ _ _⟩
    · rw [hslice, hstream]
      exact ⟨_, rfl, .corrupted _ _ _ _⟩

/-- **The slice decoder and the stream decoder agree on every string.** -/
theorem decodeCommit_agrees [Checksum] (skip : Nat) (bytes : Bytes) :
    ∃ d size, RecordReader.next (some skip) bytes = .ok (d, size) ∧
      Agrees skip (decodeCommit bytes, commitByteSize bytes) (d, size) := by
  rw [RecordReader.next, decodeCommit]
  by_cases h0 : bytes.length = 0
  · rw [if_pos h0, if_pos h0]
    exact ⟨_, _, rfl, .endOfData _ _⟩
  by_cases h4 : bytes.length < 4
  · rw [if_neg h0, if_neg h0, if_pos h4, if_pos h4]
    exact ⟨_, _, rfl, .needMore _ _ _⟩
  rw [if_neg h0, if_neg h0, if_neg h4, if_neg h4, commitByteSize, if_neg h4]
  dsimp only
  generalize hlen : leAt 0 4 bytes = bodyLen
  by_cases hzero : bodyLen = 0
  · rw [if_pos hzero, if_pos hzero, if_pos hzero]
    have hall : ((bytes.drop 4).any fun b => b != 0) = !(bytes.drop 4).all fun b => b == 0 := by
      rw [List.all_eq_not_any_not, Bool.not_not]
      rfl
    rw [hall]
    cases (bytes.drop 4).all fun b => b == 0 with
    | true => exact ⟨_, _, rfl, .endOfData _ _⟩
    | false => exact ⟨_, _, rfl, .corrupted _ _ _ _⟩
  rw [if_neg hzero, if_neg hzero, if_neg hzero]
  unfold minCommitRecordSize
  by_cases hsmall : bodyLen + 4 < 4 + 1 + 8 + 8 + 4 + 4
  · rw [if_pos hsmall, if_pos (by omega)]
    exact ⟨_, _, rfl, .corrupted _ _ _ _⟩
  have hlarge : ¬ bodyLen < 4 + 1 + 8 + 8 + 4 + 4 - 4 := by omega
  have hdrop : (bytes.drop 4).length = bytes.length - 4 := List.length_drop
  rw [if_neg hsmall, if_neg hlarge]
  by_cases hmore : bytes.length < 4 + bodyLen
  · rw [if_pos (show bodyLen > (bytes.drop 4).length by omega), if_pos hmore,
      Nat.add_comm 4 bodyLen]
    exact ⟨_, _, rfl, .needMore _ _ _⟩
  rw [if_neg (show ¬ bodyLen > (bytes.drop 4).length by omega), if_neg hmore]
  -- The body of the slice is the payload with the stored checksum behind it.
  have hbody : (bytes.take (4 + bodyLen)).drop 4 =
      (bytes.drop 4).take (bodyLen - 4) ++ ((bytes.drop 4).drop (bodyLen - 4)).take 4 := by
    rw [List.drop_take, Nat.add_sub_cancel_left, ← List.take_add, Nat.sub_add_cancel (by omega)]
  generalize hp : (bytes.drop 4).take (bodyLen - 4) = payload at hbody
  generalize hs : ((bytes.drop 4).drop (bodyLen - 4)).take 4 = stored at hbody
  have hpayload : payload.length = bodyLen - 4 := by
    rw [← hp, List.length_take]
    omega
  have hstored : stored.length = 4 := by
    rw [← hs, List.length_take, List.length_drop]
    omega
  have hcrc : leAt payload.length 4 (payload ++ stored) = ofLe stored := by
    unfold leAt
    rw [List.drop_left, List.take_of_length_le (by omega)]
  obtain ⟨d, hd, hagree⟩ := decodeBody_agrees skip (bodyLen + 4) payload stored (by
    rw [hpayload, bodyHeaderBytes]
    omega)
  rw [hbody, hd, List.length_append, hstored, Nat.add_sub_cancel, List.take_left, hcrc,
    Nat.add_comm 4 bodyLen, Except.map, finishRecord]
  refine ⟨_, _, rfl, ?_⟩
  by_cases hbad : ofLe stored ≠ (Checksum.crc32c payload).toNat
  · rw [if_pos hbad, if_pos hbad]
    exact .corrupted _ _ _ _
  · rw [if_neg hbad, if_neg hbad]
    exact hagree

/-! ## The loop over either decoder -/

section Loop

variable {σ ρ : Type} (policy : TailPolicy) (skipUpToSeq : Nat) (apply : σ → WalCommit → σ)

def replayStream [IncrementalChecksum] (source : Source Byte) (totalDataBytes : Nat) (store : σ) :
    σ × Except FfsError ReplayReport :=
  replayRecords policy skipUpToSeq (fun store c => .ok (apply store c)) totalDataBytes
    (fun r _ => StreamReader.next (some skipUpToSeq) r) ⟨source, totalDataBytes⟩ store

/-! ## The stream replays what the slice does -/

inductive SameTurn : Turn σ → Turn σ → Prop where
  | next (st : ReplayState σ) : SameTurn (.next st) (.next st)
  | stop (st : ReplayState σ) : SameTurn (.stop st) (.stop st)
  | fail (st : ReplayState σ) (e e' : FfsError) : SameTurn (.fail st e) (.fail st e')

theorem ReplayState.discard_same (st : ReplayState σ) (detail detail' : String)
    (outcome : ReplayOutcome) :
    SameTurn (st.discard policy detail outcome) (st.discard policy detail' outcome) := by
  cases policy
  · exact .stop _
  · exact .fail _ _ _

theorem ReplayState.turn_same (total : Nat) (st : ReplayState σ) {r r' : DecodeResult × Option Nat}
    (h : Agrees skipUpToSeq r r') :
    SameTurn (st.turn policy skipUpToSeq (fun store c => .ok (apply store c)) total r)
      (st.turn policy skipUpToSeq (fun store c => .ok (apply store c)) total r') := by
  cases h with
  | endOfData => exact .stop _
  | needMore => exact st.discard_same ..
  | corrupted => exact st.discard_same ..
  | commit c n =>
    obtain ⟨hseq, htxn⟩ := c.elided_seq (some skipUpToSeq)
    simp only [ReplayState.turn, hseq, htxn]
    cases (some n).filter fun m => decide (0 < m) && decide (m ≤ total - st.offset) with
    | none => exact .fail _ _ _
    | some size =>
      dsimp only
      split_ifs
      · exact ReplayState.discard_same ..
      · exact ReplayState.discard_same ..
      · -- A record that the checkpoint covers is not applied, any other keeps its writes.
        unfold ReplayState.accept
        dsimp only
        rw [hseq]
        split_ifs with hcovered
        · exact .next _
        · rw [WalCommit.elided_above (by omega)]
          exact .next _

theorem ReplayState.turn_next {total : Nat} {st st' : ReplayState σ}
    {r : DecodeResult × Option Nat}
    (h : st.turn policy skipUpToSeq (fun store c => .ok (apply store c)) total r = .next st') :
    ∃ n, r.2 = some n ∧ st'.offset = st.offset + n := by
  have hbad : ∀ (st : ReplayState σ) detail outcome, st.discard policy detail outcome ≠ .next st' :=
    fun st detail outcome => by cases policy <;> exact nofun
  obtain ⟨decoded, size⟩ := r
  cases decoded with
  | endOfData => cases h
  | needMore => exact absurd h (hbad _ _ _)
  | corrupted => exact absurd h (hbad _ _ _)
  | commit c =>
    simp only [ReplayState.turn] at h
    cases hsize : size.filter fun n => decide (0 < n) && decide (n ≤ total - st.offset) with
    | none => simp only [hsize, reduceCtorEq] at h
    | some n =>
      refine ⟨n, (Option.filter_eq_some_iff.mp hsize).1, ?_⟩
      simp only [hsize, ReplayState.accept] at h
      split_ifs at h
      · exact absurd h (hbad _ _ _)
      · exact absurd h (hbad _ _ _)
      · cases h
        rfl
      · cases h
        rfl

variable {policy skipUpToSeq apply}

theorem replayLoop_same [IncrementalChecksum] (data after : Bytes) (fuel : Nat)
    {r : StreamReader} {st : ReplayState σ} (h : StreamReader.Ahead after r (data.drop st.offset)) :
    let stream := replayLoop policy skipUpToSeq (fun store c => .ok (apply store c)) data.length
      (fun r _ => StreamReader.next (some skipUpToSeq) r) fuel r st
    let slice := slicedLoop policy skipUpToSeq (fun store c => .ok (apply store c))
      (fun tail => .ok (decodeCommit tail, commitByteSize tail)) data fuel st
    stream.1 = slice.1 ∧ stream.2.toOption = slice.2.toOption := by
  induction fuel generalizing r st with
  | zero => exact ⟨rfl, rfl⟩
  | succ fuel ih =>
    by_cases hmore : st.offset < data.length
    · obtain ⟨d, size, r', hnext, hspec, hahead⟩ := h.next (some skipUpToSeq)
      obtain ⟨d', size', hspec', hagree⟩ := decodeCommit_agrees skipUpToSeq (data.drop st.offset)
      obtain ⟨rfl, rfl⟩ := Prod.mk.inj (Except.ok.inj (hspec.symm.trans hspec'))
      rw [slicedLoop_succ hmore rfl]
      simp only [replayLoop, if_pos hmore, hnext]
      have hsame := st.turn_same policy skipUpToSeq apply data.length hagree
      have hmoved : ∀ st', st.turn policy skipUpToSeq (fun store c => .ok (apply store c)) data.length
          (d, size) = .next st' → StreamReader.Ahead after r' (data.drop st'.offset) := by
        intro st' hst'
        obtain ⟨n, hn, hoffset⟩ := st.turn_next policy skipUpToSeq apply hst'
        rw [hoffset, ← List.drop_drop]
        exact hahead n hn
      generalize st.turn policy skipUpToSeq _ data.length (d, size) = stream at hsame hmoved ⊢
      generalize st.turn policy skipUpToSeq _ data.length
        (decodeCommit (data.drop st.offset), commitByteSize (data.drop st.offset)) = slice at hsame ⊢
      cases hsame with
      | next st' => exact ih (hmoved st' rfl)
      | stop => exact ⟨rfl, rfl⟩
      | fail => exact ⟨rfl, rfl⟩
    · rw [slicedLoop_end hmore]
      simp only [replayLoop, if_neg hmore]
      exact ⟨trivial, trivial⟩

/-- **Streaming replay is replay of the slice**: for every string of bytes and however the
reader splits its reads, the same commits are applied in the same order, and the reports are
the same or both calls fail. Bytes behind the captured ones are not read. -/
theorem replayStream_replaySlice [IncrementalChecksum] (policy : TailPolicy) (skipUpToSeq : Nat)
    (apply : σ → WalCommit → σ) (data after : Bytes) (plan : List ReadEvent) (store : σ) :
    let stream := replayStream policy skipUpToSeq apply ⟨data ++ after, plan⟩ data.length store
    let slice := replaySlice policy skipUpToSeq apply data store
    stream.1 = slice.1 ∧ stream.2.toOption = slice.2.toOption := by
  have hahead : StreamReader.Ahead after ⟨⟨data ++ after, plan⟩, data.length⟩
      (data.drop (ReplayState.start store skipUpToSeq).offset) := ⟨rfl, rfl⟩
  obtain ⟨hstate, hresult⟩ :=
    @replayLoop_same σ policy skipUpToSeq apply _ data after data.length _ _ hahead
  simp only [replayStream, replaySlice, slicedRecords, replayRecords]
  split_ifs
  · exact ⟨rfl, rfl⟩
  · refine ⟨congrArg ReplayState.store hstate, ?_⟩
    rw [hstate]
    have hmap : ∀ {x y : Except FfsError Unit} (report : ReplayReport),
        x.toOption = y.toOption →
          (x.map fun _ => report).toOption = (y.map fun _ => report).toOption := by
      rintro (x | x) (y | y) report hxy <;> first | rfl | cases hxy
    exact hmap _ hresult

end Loop

section Sample

local instance castagnoli : IncrementalChecksum where
  crc32c := crc32cAppend 0
  append := crc32cAppend
  crc_nil := by decide
  append_crc front chunk := by
    simp only [crc32cAppend, crc32cUpdate, BitVec.not_not, List.foldl_append]

def threeRecords : Bytes :=
  (WalCommit.record ⟨4, 2, [(7, [1])]⟩).emit ++ fifthCommit.record.emit ++ [9, 0, 0]

theorem replayStream_replaySlice_threeRecords :
    let stream := replayStream .truncateToLastGood 4 (fun log c => log ++ [c])
      ⟨threeRecords ++ [1], [.interrupted, .upTo 0, .upTo 2, .interrupted, .upTo 9]⟩ 88 []
    stream.1 = [fifthCommit] ∧
      stream.2.toOption = some ⟨.truncatedTail 1, 1, 1, 1, 85, 88, 5⟩ := by
  have hsame := replayStream_replaySlice .truncateToLastGood 4 (fun log c => log ++ [c]) threeRecords
    [1] [.interrupted, .upTo 0, .upTo 2, .interrupted, .upTo 9] []
  exact ⟨hsame.1.trans (by decide +kernel), hsame.2.trans (by decide +kernel)⟩

end Sample

end FrankenFs.Mvcc
