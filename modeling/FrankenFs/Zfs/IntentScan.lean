import FrankenFs.Zfs.LogPointer

/-!
# The scan of the intent log

`scan` of `ffs-zfs` follows the chain of log blocks of a dataset. Of `read_block` is known that it
returns a block only when its embedded checksum is right. The checkpoints of `Cx` are left out.
-/

open FrankenFs.Lib

namespace FrankenFs.Zfs

structure Header where
  claimTxg : Nat
  replaySequence : Nat
  claimedBlockSequence : Nat
  claimedRecordSequence : Nat

abbrev Header.Claimed (h : Header) : Prop := h.claimTxg ≠ 0

inductive Termination where
  | empty
  | hole
  | claimedBoundary
  | unverifiedTail
deriving DecidableEq, Repr

structure IntentRecord where
  kind : Nat
  txg : Nat
  sequence : Nat
  recordBytes : Nat
  pending : Bool
  order : Endian
  raw : Bytes
deriving DecidableEq, Repr

def maxLogBlocks : Nat := 4096
def maxRecords : Nat := 65536

/-! ## One block -/

section Words

variable {E : Type}

/-- A verified block, with the number of bytes it says it uses. -/
structure LogBlock where
  pointer : Pointer
  raw : Bytes
  used : Nat
deriving DecidableEq, Repr

namespace LogBlock

def next (b : LogBlock) : Bytes := (b.raw.drop (b.pointer.chainAt b.raw + 8)).take 128

/-- The bytes of the records. A modern block whose checksum is right has `used` bytes, and
`openBlock` checks the others. -/
def records (b : LogBlock) : Bytes :=
  if b.pointer.Modern then (b.raw.take b.used).drop chainBytes else b.raw.take b.used

end LogBlock

def openBlock (p : Pointer) (raw : Bytes) : Except (RecoveryError E) LogBlock := do
  let used ← word p.order raw (p.chainAt raw + 136)
  failIf (¬ p.Modern ∧ p.chainAt raw < used)
    (.corrupt "legacy ZIL records overlap the chain trailer")
  failIf (2 ^ 64 ≤ p.identity.sequence + 1) (.corrupt "ZIL block sequence exhausted")
  let found ← identity p.order (LogBlock.next ⟨p, raw, used⟩)
  failIf (found ≠ p.identity.next)
    (.corrupt "ZIL next pointer changes chain identity or skips a sequence")
  return ⟨p, raw, used⟩

/-! ## The scan -/

structure Scan where
  verifiedBlocks : Nat
  termination : Termination
  records : List IntentRecord
  lastRecord : Nat
deriving DecidableEq, Repr

def Scan.push (s : Scan) (r : IntentRecord) : Scan :=
  { s with records := s.records ++ [r], lastRecord := r.sequence }

variable (h : Header) (txg : Nat)

def isPending (sequence recordTxg : Nat) : Bool :=
  h.replaySequence < sequence &&
    if h.Claimed then h.claimTxg ≤ recordTxg else txg < recordTxg

def scanRecord (order : Endian) (rest : Bytes) (s : Scan) :
    Except (RecoveryError E) (Option IntentRecord) := do
  failIf (rest.length < 32) (.corrupt "truncated ZIL record header")
  let length ← word order rest 8
  let sequence ← word order rest 24
  let recordTxg ← word order rest 16
  failIf (length < 32 ∨ length % 8 ≠ 0 ∨ rest.length < length ∨ sequence ≤ s.lastRecord ∨
    recordTxg = 0) (.corrupt "invalid ZIL record length, transaction or sequence")
  if h.Claimed ∧ h.claimedRecordSequence < sequence then
    failIf (s.lastRecord ≠ h.claimedRecordSequence)
      (.corrupt "ZIL skipped its claimed record boundary")
    return none
  else
    failIf (s.records.length = maxRecords) (.unsupported "ZIL scan exceeds 65536 records")
    let kind ← word order rest 0
    return some ⟨kind, recordTxg, sequence, length, isPending h txg sequence recordTxg, order,
      rest.take length⟩

/-- The loop over the records of a block, and whether it ended the scan. A round takes 32 bytes
or more, so as many rounds as there are bytes are enough. -/
def scanRecords (order : Endian) :
    (rounds : Nat) → Bytes → Scan → Except (RecoveryError E) (Scan × Bool)
  | 0, _, s => .ok (s, false)
  | rounds + 1, rest, s =>
    if rest = [] then .ok (s, false)
    else do
      match ← scanRecord h txg order rest s with
      | none => return ({ s with termination := .claimedBoundary }, true)
      | some r => scanRecords order rounds (rest.drop r.recordBytes) (s.push r)

/-- What the scan uses of the pool. The work limits of `read_block` depend on the blocks read
before, so their number is an argument. -/
structure LogReader (E : Type) where
  readBlock : Nat → Pointer → Except (RecoveryError E) (Option Bytes)
  verified : ∀ {n p raw}, readBlock n p = .ok (some raw) →
    (p.checksumValid raw : Except (RecoveryError E) Bool) = .ok true

variable (reader : LogReader E) (dataset : Nat)

/-- The loop over the blocks; `remaining` is what is left of the 4096. -/
def scanBlocks : (remaining : Nat) → Option Pointer → Scan → Except (RecoveryError E) Scan
  | _, none, s => .ok s
  | remaining, some p, s =>
    if h.Claimed ∧ h.claimedBlockSequence ≤ p.identity.sequence ∧
        s.lastRecord = h.claimedRecordSequence then
      .ok { s with termination := .claimedBoundary }
    else do
      failIf (h.Claimed ∧ h.claimedBlockSequence < p.identity.sequence)
        (.corrupt "ZIL chain ended before all claimed records were read")
      match remaining with
      | 0 => .error (.unsupported "ZIL scan exceeds 4096 log blocks")
      | remaining + 1 =>
        match ← reader.readBlock s.verifiedBlocks p with
        | none =>
          failIf h.Claimed (.corrupt "claimed ZIL block failed every embedded checksum")
          return { s with termination := .unverifiedTail }
        | some raw =>
          let block ← openBlock p raw
          let walked ← scanRecords h txg p.order block.records.length block.records
            { s with verifiedBlocks := s.verifiedBlocks + 1 }
          if walked.2 then return walked.1
          else
            let pointer ← Pointer.parse block.next p.order dataset
            scanBlocks remaining pointer { walked.1 with termination := .hole }

/-- The scan behind the header and its pointer. A return out of the record loop has read the
claimed record, so the last check passes it. -/
def scan (first : Option Pointer) : Except (RecoveryError E) Scan := do
  failIf (h.Claimed ∧ ∃ p ∈ first, h.claimedBlockSequence < p.identity.sequence)
    (.corrupt "ZIL first block exceeds its claimed boundary")
  let s ← scanBlocks h txg reader dataset maxLogBlocks first ⟨0, .empty, [], 0⟩
  failIf (h.Claimed ∧ s.lastRecord ≠ h.claimedRecordSequence)
    (.corrupt "ZIL terminated before its claimed record boundary")
  return s

end Words

/-! ## What the scan accepts -/

/-- The fields of a record are the words of its own bytes. -/
structure IntentRecord.Parsed (h : Header) (txg : Nat) (E : Type) (r : IntentRecord) : Prop where
  kind_eq : (word r.order r.raw 0 : Except (RecoveryError E) Nat) = .ok r.kind
  bytes_eq : (word r.order r.raw 8 : Except (RecoveryError E) Nat) = .ok r.recordBytes
  txg_eq : (word r.order r.raw 16 : Except (RecoveryError E) Nat) = .ok r.txg
  sequence_eq : (word r.order r.raw 24 : Except (RecoveryError E) Nat) = .ok r.sequence
  length_raw : r.raw.length = r.recordBytes
  aligned : r.recordBytes % 8 = 0
  txg_pos : r.txg ≠ 0
  pending_eq : r.pending = isPending h txg r.sequence r.txg

structure Scan.Inv (h : Header) (txg : Nat) (E : Type) (s : Scan) : Prop where
  kept : ∀ r ∈ s.records, r.Parsed h txg E ∧ r.sequence ≤ s.lastRecord ∧
    (h.Claimed → r.sequence ≤ h.claimedRecordSequence)
  increasing : (s.records.map (·.sequence)).Pairwise (· < ·)
  last_eq : s.lastRecord = ((s.records.map (·.sequence)).getLast?).getD 0
  length_le : s.records.length ≤ maxRecords

section Proofs

variable {E : Type} {h : Header} {txg : Nat} {reader : LogReader E} {dataset : Nat}

theorem word_take {order : Endian} {rest : Bytes} {k n : Nat} (hk : k + 8 ≤ n)
    (hn : n ≤ rest.length) :
    (word order (rest.take n) k : Except (RecoveryError E) Nat) = word order rest k := by
  have hfield : ((rest.take n).drop k).take 8 = (rest.drop k).take 8 := by
    rw [List.drop_take, List.take_take, Nat.min_eq_left (by omega)]
  unfold word Endian.u64
  rw [hfield, if_neg (by rw [List.length_take]; omega), if_neg (by omega)]

theorem scanRecord_some {order : Endian} {rest : Bytes} {s : Scan} {r : IntentRecord}
    (hok : (scanRecord h txg order rest s : Except (RecoveryError E) _) = .ok (some r)) :
    r.Parsed h txg E ∧ r.raw = rest.take r.recordBytes ∧ 32 ≤ r.recordBytes ∧
      s.lastRecord < r.sequence ∧ s.records.length ≠ maxRecords ∧
      (h.Claimed → r.sequence ≤ h.claimedRecordSequence) := by
  obtain ⟨_, hlong, hok⟩ := bind_ok.mp hok
  obtain ⟨length, hlength, hok⟩ := bind_ok.mp hok
  obtain ⟨sequence, hsequence, hok⟩ := bind_ok.mp hok
  obtain ⟨recordTxg, htxg, hok⟩ := bind_ok.mp hok
  obtain ⟨_, hvalid, hok⟩ := bind_ok.mp hok
  have hvalid := failIf_ok.mp hvalid
  simp only [not_or, not_lt, not_le, not_not] at hvalid
  obtain ⟨hmin, haligned, hfits, hnewer, hpos⟩ := hvalid
  split_ifs at hok with hclaim
  · obtain ⟨_, _, hok⟩ := bind_ok.mp hok
    cases hok
  · obtain ⟨_, hroom, hok⟩ := bind_ok.mp hok
    obtain ⟨kind, hkind, hok⟩ := bind_ok.mp hok
    obtain rfl := Option.some.inj (Except.ok.inj hok)
    refine ⟨⟨?_, ?_, ?_, ?_, ?_, haligned, hpos, rfl⟩, rfl, hmin, hnewer, failIf_ok.mp hroom,
      fun hc => not_lt.mp fun hlt => hclaim ⟨hc, hlt⟩⟩
    · exact (word_take (by omega) hfits).trans hkind
    · exact (word_take (by omega) hfits).trans hlength
    · exact (word_take (by omega) hfits).trans htxg
    · exact (word_take (by omega) hfits).trans hsequence
    · exact List.length_take_of_le hfits

theorem Scan.Inv.push {s : Scan} {r : IntentRecord} (hs : s.Inv h txg E) (hr : r.Parsed h txg E)
    (hnewer : s.lastRecord < r.sequence) (hroom : s.records.length ≠ maxRecords)
    (hclaim : h.Claimed → r.sequence ≤ h.claimedRecordSequence) : (s.push r).Inv h txg E where
  kept := by
    intro q hq
    rcases List.mem_append.mp hq with hq | hq
    · obtain ⟨hparsed, hle, hclaimed⟩ := hs.kept q hq
      exact ⟨hparsed, hle.trans hnewer.le, hclaimed⟩
    · rw [List.mem_singleton.mp hq]
      exact ⟨hr, le_rfl, hclaim⟩
  increasing := by
    simp only [Scan.push, List.map_append, List.map_singleton, List.pairwise_append,
      List.pairwise_singleton, List.mem_map, List.mem_singleton]
    refine ⟨hs.increasing, trivial, ?_⟩
    rintro _ ⟨q, hq, rfl⟩ _ rfl
    exact (hs.kept q hq).2.1.trans_lt hnewer
  last_eq := by simp [Scan.push]
  length_le := by
    have hle := hs.length_le
    simp only [Scan.push, List.length_append, List.length_singleton]
    omega

theorem Scan.Inv.of_records {s s' : Scan} (hs : s.Inv h txg E) (hr : s'.records = s.records)
    (hl : s'.lastRecord = s.lastRecord) : s'.Inv h txg E := by
  obtain ⟨n, t, records, last⟩ := s'
  subst hr hl
  exact ⟨hs.kept, hs.increasing, hs.last_eq, hs.length_le⟩

theorem scanRecords_keeps {order : Endian} {rounds : Nat} {rest : Bytes} {s : Scan}
    {walked : Scan × Bool} (hs : s.Inv h txg E) (hrounds : rest.length ≤ rounds)
    (hok : (scanRecords h txg order rounds rest s : Except (RecoveryError E) _) = .ok walked) :
    walked.1.Inv h txg E ∧ walked.1.verifiedBlocks = s.verifiedBlocks ∧
      (walked.2 = true → walked.1.termination = .claimedBoundary) ∧
      ∃ added, walked.1.records = s.records ++ added ∧ added.flatMap (·.raw) <+: rest ∧
        (walked.2 = false → added.flatMap (·.raw) = rest) := by
  induction rounds generalizing rest s with
  | zero =>
    obtain rfl := Except.ok.inj hok
    obtain rfl := List.eq_nil_of_length_eq_zero (Nat.le_zero.mp hrounds)
    exact ⟨hs, rfl, fun hf => (by cases hf), [], (List.append_nil _).symm, List.prefix_rfl,
      fun _ => rfl⟩
  | succ rounds ih =>
    rw [scanRecords] at hok
    split_ifs at hok with hnil
    · obtain rfl := Except.ok.inj hok
      exact ⟨hs, rfl, fun hf => (by cases hf), [], (List.append_nil _).symm, List.nil_prefix,
        fun _ => hnil.symm⟩
    · obtain ⟨found, hfound, hok⟩ := bind_ok.mp hok
      cases found with
      | none =>
        obtain rfl := Except.ok.inj hok
        exact ⟨hs.of_records rfl rfl, rfl, fun _ => rfl, [], (List.append_nil _).symm,
          List.nil_prefix, fun hf => (by cases hf)⟩
      | some r =>
        obtain ⟨hr, hraw, hmin, hnewer, hroom, hclaim⟩ := scanRecord_some hfound
        have hpush := hs.push hr hnewer hroom hclaim
        obtain ⟨hinv, hblocks, hstop, added, hadded, hpre, hall⟩ :=
          ih hpush (by rw [List.length_drop]; omega) hok
        have hcut : rest = r.raw ++ rest.drop r.recordBytes := by
          rw [hraw, List.take_append_drop]
        refine ⟨hinv, hblocks, hstop, r :: added, ?_, ?_, fun hgo => ?_⟩
        · rw [hadded, Scan.push, List.append_assoc, List.singleton_append]
        · rw [hcut, List.flatMap_cons]
          exact (List.prefix_append_right_inj _).mpr hpre
        · rw [List.flatMap_cons, hall hgo, ← hcut]

/-- The blocks are those the pointers lead to, from block number `n`. Each has the right checksum,
and its next pointer has the next identity. -/
def Chain (reader : LogReader E) (dataset : Nat) : Nat → Option Pointer → List LogBlock → Prop
  | _, _, [] => True
  | n, first, b :: rest =>
    first = some b.pointer ∧ reader.readBlock n b.pointer = .ok (some b.raw) ∧
      (b.pointer.checksumValid b.raw : Except (RecoveryError E) _) = .ok true ∧
      (word b.pointer.order b.raw (b.pointer.chainAt b.raw + 136) : Except (RecoveryError E) _) =
        .ok b.used ∧
      (identity b.pointer.order b.next : Except (RecoveryError E) _) = .ok b.pointer.identity.next ∧
      ∃ next, (rest ≠ [] → Pointer.parse b.next b.pointer.order dataset =
        (.ok next : Except (RecoveryError E) _)) ∧ Chain reader dataset (n + 1) next rest

theorem openBlock_ok {p : Pointer} {raw : Bytes} {b : LogBlock}
    (hok : (openBlock p raw : Except (RecoveryError E) _) = .ok b) :
    b.pointer = p ∧ b.raw = raw ∧
      (word p.order raw (p.chainAt raw + 136) : Except (RecoveryError E) _) = .ok b.used ∧
      (identity p.order b.next : Except (RecoveryError E) _) = .ok p.identity.next := by
  obtain ⟨used, hused, hok⟩ := bind_ok.mp hok
  obtain ⟨_, _, hok⟩ := bind_ok.mp hok
  obtain ⟨_, _, hok⟩ := bind_ok.mp hok
  obtain ⟨found, hfound, hok⟩ := bind_ok.mp hok
  obtain ⟨_, hnext, hok⟩ := bind_ok.mp hok
  obtain rfl := Except.ok.inj hok
  rw [not_not.mp (failIf_ok.mp hnext)] at hfound
  exact ⟨rfl, rfl, hused, hfound⟩

/-- The identities of a chain follow one another from the first one on. -/
theorem Chain.identity_eq {n : Nat} {p : Pointer} {blocks : List LogBlock}
    (hchain : Chain reader dataset n (some p) blocks) {i : Nat} {b : LogBlock}
    (hb : blocks[i]? = some b) :
    b.pointer.identity = { p.identity with sequence := p.identity.sequence + i } := by
  induction blocks generalizing n p i with
  | nil => cases hb
  | cons b' rest ih =>
    obtain ⟨hp, -, -, -, hnext, next, hparse, hrest⟩ := hchain
    obtain rfl := Option.some.inj hp
    cases i with
    | zero =>
      obtain rfl : b' = b := by simpa using hb
      rfl
    | succ i =>
      rw [List.getElem?_cons_succ] at hb
      cases rest with
      | nil => cases hb
      | cons b'' rest =>
        obtain rfl : next = some b''.pointer := hrest.1
        have hfound := Pointer.identity_of_parse (hparse (List.cons_ne_nil _ _))
        rw [hnext] at hfound
        rw [ih hrest hb, ← Except.ok.inj hfound, Identity.next]
        simp [Nat.add_assoc, Nat.add_comm 1]

/-- The scan went from `s` to `s'` over a chain of blocks, and kept all their records or
stopped at the claimed boundary behind some. -/
def Follows (h : Header) (txg : Nat) (reader : LogReader E) (dataset remaining : Nat)
    (first : Option Pointer) (s s' : Scan) : Prop :=
  s'.Inv h txg E ∧ ∃ blocks, Chain reader dataset s.verifiedBlocks first blocks ∧
    s'.verifiedBlocks = s.verifiedBlocks + blocks.length ∧ blocks.length ≤ remaining ∧
    ∃ added, s'.records = s.records ++ added ∧
      added.flatMap (·.raw) <+: blocks.flatMap LogBlock.records ∧
      (s'.termination ≠ .claimedBoundary →
        added.flatMap (·.raw) = blocks.flatMap LogBlock.records)

variable {remaining : Nat} {first : Option Pointer} {s s' : Scan}

theorem follows_ended (hs : s.Inv h txg E) (t : Termination) :
    Follows h txg reader dataset remaining first s { s with termination := t } :=
  ⟨hs.of_records rfl rfl, [], trivial, rfl, Nat.zero_le _, [], (List.append_nil _).symm, List.prefix_rfl,
    fun _ => rfl⟩

theorem scanBlocks_follows (hs : s.Inv h txg E)
    (hok : scanBlocks h txg reader dataset remaining first s = .ok s') :
    Follows h txg reader dataset remaining first s s' := by
  induction remaining using Nat.strong_induction_on generalizing first s with
  | _ remaining ih =>
  cases first with
  | none =>
    rw [scanBlocks] at hok
    exact Except.ok.inj hok ▸ follows_ended hs s.termination
  | some p =>
    unfold scanBlocks at hok
    split_ifs at hok with hstop
    · exact Except.ok.inj hok ▸ follows_ended hs _
    obtain ⟨_, _, hok⟩ := bind_ok.mp hok
    cases remaining with
    | zero => cases hok
    | succ remaining =>
      obtain ⟨read, hread, hok⟩ := bind_ok.mp hok
      cases read with
      | none =>
        obtain ⟨_, _, hok⟩ := bind_ok.mp hok
        exact Except.ok.inj hok ▸ follows_ended hs _
      | some raw =>
        obtain ⟨b, hopen, hwalks⟩ := bind_ok.mp hok
        obtain ⟨walked, hwalk, hends⟩ := bind_ok.mp hwalks
        obtain ⟨rfl, rfl, hused, hidentity⟩ := openBlock_ok hopen
        have hstart : Scan.Inv h txg E { s with verifiedBlocks := s.verifiedBlocks + 1 } :=
          hs.of_records rfl rfl
        obtain ⟨hinv, hblocks, hboundary, added, hadded, hpre, hall⟩ :=
          scanRecords_keeps hstart le_rfl hwalk
        dsimp only at hblocks hadded
        split_ifs at hends with hended
        · obtain rfl := Except.ok.inj hends
          exact ⟨hinv, [b], ⟨rfl, hread, reader.verified hread, hused, hidentity, none,
            fun hne => absurd rfl hne, trivial⟩, hblocks,
            Nat.succ_le_succ (Nat.zero_le _), added, hadded, by simpa using hpre,
            fun hne => absurd (hboundary hended) hne⟩
        · obtain ⟨next, hnext, hgoes⟩ := bind_ok.mp hends
          have hlater : Scan.Inv h txg E { walked.1 with termination := .hole } :=
            hinv.of_records rfl rfl
          obtain ⟨hinv', blocks, hchain, hcount, hfew, added', hadded', hpre', hall'⟩ :=
            ih remaining (Nat.lt_succ_self _) hlater hgoes
          dsimp only at hchain
          have hall := hall (Bool.eq_false_iff.mpr hended)
          refine ⟨hinv', b :: blocks, ⟨rfl, hread, reader.verified hread, hused, hidentity, next,
            fun _ => hnext, hblocks ▸ hchain⟩,
            ?_, Nat.succ_le_succ hfew, added ++ added', ?_, ?_, fun hne => ?_⟩
          · rw [hcount, hblocks, List.length_cons, Nat.add_assoc, Nat.add_comm 1]
          · rw [hadded', hadded, List.append_assoc]
          · rw [List.flatMap_append, List.flatMap_cons, hall]
            exact (List.prefix_append_right_inj _).mpr hpre'
          · rw [List.flatMap_append, List.flatMap_cons, hall, hall' hne]

/-- **An accepted scan has read a chain of verified blocks, each of which names the one after it
by the next identity. Its records are all the records of these blocks, in order and byte for byte,
or those up to the claimed one; their sequences increase, their fields are the words of their own
bytes, and a claimed log is read to exactly its claimed record.** -/
theorem scan_follows_chain (hok : scan h txg reader dataset first = .ok s) :
    s.Inv h txg E ∧ (h.Claimed → s.lastRecord = h.claimedRecordSequence) ∧
    ∃ blocks, Chain reader dataset 0 first blocks ∧ s.verifiedBlocks = blocks.length ∧
      blocks.length ≤ maxLogBlocks ∧
      (∀ p i b, first = some p → blocks[i]? = some b →
        b.pointer.identity = { p.identity with sequence := p.identity.sequence + i }) ∧
      s.records.flatMap (·.raw) <+: blocks.flatMap LogBlock.records ∧
      (s.termination ≠ .claimedBoundary →
        s.records.flatMap (·.raw) = blocks.flatMap LogBlock.records) := by
  obtain ⟨_, _, hok⟩ := bind_ok.mp hok
  obtain ⟨_, hblocks, hok⟩ := bind_ok.mp hok
  obtain ⟨_, hlast, hok⟩ := bind_ok.mp hok
  obtain rfl := Except.ok.inj hok
  have hempty : Scan.Inv h txg E ⟨0, .empty, [], 0⟩ :=
    ⟨by simp, by simp, rfl, Nat.zero_le _⟩
  obtain ⟨hinv, blocks, hchain, hcount, hfew, added, hadded, hpre, hall⟩ :=
    scanBlocks_follows hempty hblocks
  rw [List.nil_append] at hadded
  exact ⟨hinv, fun hc => not_not.mp fun hne => failIf_ok.mp hlast ⟨hc, hne⟩, blocks, hchain,
    hcount.trans (Nat.zero_add _), hfew, fun p i b hp hb => (hp ▸ hchain).identity_eq hb,
    hadded ▸ hpre, hadded ▸ hall⟩

end Proofs

section Sample

def samplePointer (property address sequence : Nat) : List Nat :=
  [address, address, 0, 0, 0, 0, property, 0, 0, 0, 9, 0, 1, 2, 3, sequence]

/-- A modern block: the next pointer, the bytes used, the checksum, and a record that truncates
object 5. -/
def sampleLogBlock (next sums : List Nat) (sequence size : Nat) : Bytes :=
  ([0] ++ next ++ [240, eckMagic] ++ sums ++ [10, 56, 9, sequence, 5, size, 0]).flatMap (toLe 8) ++
    List.replicate 3856 0

def sampleBlocks : List Bytes :=
  [sampleLogBlock (samplePointer 0x8009090200070007 16 8)
      [5153578880, 5136820957140, 2562903744117792, 853416108914949506] 4 100,
    sampleLogBlock (samplePointer 0 0 9)
      [3005044265, 2968949073392, 1468128211889303, 484476676714634384] 6 50]

def sampleReader : LogReader Unit where
  readBlock n p :=
    match sampleBlocks[n]? with
    | none => .ok none
    | some raw => do
      let valid ← p.checksumValid raw
      return if valid then some raw else none
  verified {n p raw} h := by
    split at h
    · cases h
    · obtain ⟨valid, hvalid, h⟩ := bind_ok.mp h
      cases valid with
      | false => cases h
      | true => exact Option.some.inj (Except.ok.inj h) ▸ hvalid

def sampleScan : Scan :=
  ⟨2, .hole, [⟨10, 9, 4, 56, true, .little, ((sampleBlocks.getD 0 []).drop 184).take 56⟩,
    ⟨10, 9, 6, 56, true, .little, ((sampleBlocks.getD 1 []).drop 184).take 56⟩], 6⟩

def sampleFirst : Pointer :=
  ⟨⟨samplePointer 0x8009090200070007 8 7⟩, ⟨(1, 2), 3, 7⟩, [⟨0, 4096, 4096, false⟩]⟩

theorem scan_follows_chain_sample :
    scan ⟨0, 0, 0, 0⟩ 8 sampleReader 3 (some sampleFirst) = .ok sampleScan ∧
    sampleScan.Inv ⟨0, 0, 0, 0⟩ 8 Unit ∧
    ∃ blocks, Chain sampleReader 3 0 (some sampleFirst) blocks ∧ blocks.length = 2 ∧
      (∀ b, blocks[1]? = some b → b.pointer.identity = ⟨(1, 2), 3, 8⟩) ∧
      sampleScan.records.flatMap (·.raw) = blocks.flatMap LogBlock.records := by
  have hok : scan ⟨0, 0, 0, 0⟩ 8 sampleReader 3 (some sampleFirst) = .ok sampleScan := by
    decide +kernel
  obtain ⟨hinv, -, blocks, hchain, hcount, -, hidentity, -, hall⟩ := scan_follows_chain hok
  exact ⟨hok, hinv, blocks, hchain, hcount.symm, fun b hb => hidentity _ 1 b rfl hb,
    hall (by decide)⟩

end Sample

end FrankenFs.Zfs
