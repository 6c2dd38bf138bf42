import FrankenFs.Mvcc.Chain
import FrankenFs.Mvcc.Store
import FrankenFs.Mvcc.Wal

/-!
# Checkpoints

`write_checkpoint` of `persist.rs` and the validating decoder of `checkpoint_reader.rs`.
-/

open FrankenFs.Lib

namespace FrankenFs.Mvcc

/-! ## Checks shared by both directions -/

def checkpointMagic : Nat := 0x4D564350
def checkpointVersion : Nat := 1
def checkpointHeaderSize : Nat := 28

def checkpointCorruption (block : Nat) (detail : String) : FfsError :=
  .corruption block s!"invalid checkpoint: {detail}"

def validateCheckpointCounters (nextTxn nextCommit : Nat) : Except FfsError Unit :=
  if nextTxn = 0 ∨ nextCommit = 0 then .error (checkpointCorruption 0 "zero next-counter")
  else .ok ()

def validateCheckpointVersion (block : Nat) (version : BlockVersion) (previousSeq : Option Nat)
    (nextTxn nextCommit : Nat) : Except FfsError Unit :=
  if version.block ≠ block ∨ version.commitSeq = 0 ∨ version.commitSeq ≥ nextCommit ∨
      version.writer ≥ nextTxn ∨
      (previousSeq.any fun seq => decide (seq ≥ version.commitSeq)) = true then
    .error (checkpointCorruption block "invalid version identity or sequence")
  else if previousSeq.isNone && version.data.isIdentical then
    .error (checkpointCorruption block "dedup marker without a base version")
  else .ok ()

variable {nextTxn nextCommit : Nat}

theorem validateCheckpointCounters_ok (h : validateCheckpointCounters nextTxn nextCommit = .ok ()) :
    nextTxn ≠ 0 ∧ nextCommit ≠ 0 := by
  unfold validateCheckpointCounters at h
  split_ifs at h with h0
  exact not_or.mp h0

variable {block : Nat} {v : BlockVersion} {previousSeq : Option Nat}

theorem validateCheckpointVersion_ok
    (h : validateCheckpointVersion block v previousSeq nextTxn nextCommit = .ok ()) :
    v.block = block ∧ v.commitSeq < nextCommit ∧ v.writer < nextTxn ∧
      (previousSeq = none → v.data.isIdentical = false) := by
  unfold validateCheckpointVersion at h
  split_ifs at h with hid hroot
  push Not at hid
  refine ⟨hid.1, hid.2.2.1, hid.2.2.2.1, ?_⟩
  rintro rfl
  simpa using hroot

/-- The decoder checks a version before it has its data. It knows as much as the check needs. -/
theorem validateCheckpointVersion_congr {data : VersionData} (hb : v.block = block)
    (hid : data.isIdentical = v.data.isIdentical) :
    validateCheckpointVersion block ⟨block, v.commitSeq, v.writer, data⟩ previousSeq nextTxn
      nextCommit = validateCheckpointVersion block v previousSeq nextTxn nextCommit := by
  unfold validateCheckpointVersion
  simp only [hb, hid]

def checkBlockOrder (previousBlock : Option Nat) (block : Nat) : Except FfsError Unit :=
  if previousBlock.any fun previous => decide (previous ≥ block) then
    .error (checkpointCorruption block "duplicate or unordered block entry")
  else .ok ()

/-! ## Writing -/

section Write

variable [Platform]

/-- Length and bytes of a version, or the marker of a repeated one. -/
def versionField (block : Nat) (chain : List BlockVersion) (vi : Nat) (version : BlockVersion) :
    Except FfsError Bytes :=
  if version.data.isIdentical then .ok (toLe 4 u32Max)
  else
    match resolveData chain vi with
    | none => .error (checkpointCorruption block "version decompression failed")
    | some materialized =>
      if u32Max < materialized.length then .error (.format "version data too large")
      else if materialized.length = u32Max then
        .error (checkpointCorruption block "data length uses the dedup marker")
      else .ok (toLe 4 materialized.length ++ materialized)

def writeVersions (nextTxn nextCommit block : Nat) (chain : List BlockVersion) :
    (vi : Nat) → (previousSeq : Option Nat) → List BlockVersion → Except FfsError Bytes
  | _, _, [] => .ok []
  | vi, previousSeq, version :: rest => do
    validateCheckpointVersion block version previousSeq nextTxn nextCommit
    let field ← versionField block chain vi version
    let tail ← writeVersions nextTxn nextCommit block chain (vi + 1) (some version.commitSeq) rest
    return toLe 8 version.commitSeq ++ (toLe 8 version.writer ++ (field ++ tail))

def writeBlocks (nextTxn nextCommit : Nat) :
    (previousBlock : Option Nat) → List (Nat × List BlockVersion) → Except FfsError Bytes
  | _, [] => .ok []
  | previousBlock, (block, chain) :: rest => do
    checkBlockOrder previousBlock block
    failIf chain.isEmpty (checkpointCorruption block "empty version chain")
    failIf (u32Max < chain.length) (.format "too many versions for block")
    let versions ← writeVersions nextTxn nextCommit block chain 0 none chain
    let tail ← writeBlocks nextTxn nextCommit (some block) rest
    return toLe 8 block ++ (toLe 4 chain.length ++ (versions ++ tail))

def checkpointHeader (nextTxn nextCommit numBlocks : Nat) : Bytes :=
  toLe 4 checkpointMagic ++ (toLe 2 checkpointVersion ++ (toLe 2 0 ++ (toLe 8 nextTxn ++
    (toLe 8 nextCommit ++ toLe 4 numBlocks))))

def writeCheckpoint [Checksum] (nextTxn nextCommit : Nat)
    (versions : List (Nat × List BlockVersion)) : Except FfsError Bytes := do
  validateCheckpointCounters nextTxn nextCommit
  failIf (u32Max < versions.length) (.format "too many blocks for checkpoint")
  let blocks ← writeBlocks nextTxn nextCommit none versions
  let body := checkpointHeader nextTxn nextCommit versions.length ++ blocks
  return body ++ toLe 4 (Checksum.crc32c body).toNat

end Write

/-! ## Reading -/

structure DecodedCheckpoint where
  nextTxn : Nat
  nextCommit : Nat
  blocks : List (Nat × List BlockVersion)

def blockHeaderBytes : Nat := 12
def versionHeaderBytes : Nat := 20
def minBlockBytes : Nat := blockHeaderBytes + versionHeaderBytes

namespace Decoder

def read (w : Nat) (remaining : Bytes) : Except FfsError (Nat × Bytes) :=
  match takeLe w remaining with
  | none => .error (checkpointCorruption 0 "fields exceed checkpoint body")
  | some r => .ok r

def payload (block len reserved : Nat) (remaining : Bytes) : Except FfsError (Bytes × Bytes) :=
  if remaining.length < reserved ∨ len > remaining.length - reserved then
    .error (checkpointCorruption block "data length exceeds remaining checkpoint payload")
  else .ok (remaining.take len, remaining.drop len)

theorem read_toLe {w n : Nat} (h : n < 256 ^ w) (rest : Bytes) :
    read w (toLe w n ++ rest) = .ok (n, rest) := by
  rw [read, takeLe_toLe h]

theorem payload_append {block reserved : Nat} {data rest : Bytes}
    (h : reserved ≤ rest.length) :
    payload block data.length reserved (data ++ rest) = .ok (data, rest) := by
  rw [payload, List.length_append, if_neg (by omega), List.take_left, List.drop_left]

end Decoder

variable [Platform]

/-- Whether the bytes repeat the last version that has bytes of its own. -/
def repeatsConcrete (block : Nat) (dedup : Bool) (versions : List BlockVersion)
    (lastConcrete : Option Nat) (data : Bytes) : Except FfsError Bool :=
  match dedup, lastConcrete with
  | true, some last =>
    match resolveData versions last with
    | none => .error (checkpointCorruption block "dedup base is unreadable")
    | some previous => .ok (previous == data)
  | _, _ => .ok false

def decodeData (block : Nat) (dedup : Bool) (versions : List BlockVersion)
    (lastConcrete : Option Nat) (dataLen reserved : Nat) (remaining : Bytes) :
    Except FfsError (VersionData × Bytes) :=
  if dataLen = u32Max then .ok (.identical, remaining)
  else do
    let (data, remaining) ← Decoder.payload block dataLen reserved remaining
    let identical ← repeatsConcrete block dedup versions lastConcrete data
    return (if identical then .identical else .full data, remaining)

def decodeVersions (nextTxn nextCommit block futureBlocks : Nat) (dedup : Bool) :
    (left : Nat) → (versions : List BlockVersion) → (lastConcrete previousSeq : Option Nat) →
      Bytes → Except FfsError (List BlockVersion × Bytes)
  | 0, versions, _, _, remaining => .ok (versions, remaining)
  | left + 1, versions, lastConcrete, previousSeq, remaining => do
    let (commitSeq, remaining) ← Decoder.read 8 remaining
    let (writer, remaining) ← Decoder.read 8 remaining
    let (dataLen, remaining) ← Decoder.read 4 remaining
    validateCheckpointVersion block
      ⟨block, commitSeq, writer, if dataLen = u32Max then .identical else .full []⟩ previousSeq
      nextTxn nextCommit
    let (data, remaining) ← decodeData block dedup versions lastConcrete dataLen
      (futureBlocks + left * versionHeaderBytes) remaining
    decodeVersions nextTxn nextCommit block futureBlocks dedup left
      (versions ++ [⟨block, commitSeq, writer, data⟩])
      (if data.isIdentical then lastConcrete else some versions.length) (some commitSeq) remaining

def decodeChain (nextTxn nextCommit block futureBlocks : Nat) (dedup : Bool) (remaining : Bytes) :
    Except FfsError (List BlockVersion × Bytes) := do
  let (count, remaining) ← Decoder.read 4 remaining
  failIf (count = 0) (checkpointCorruption block "empty version chain")
  failIf (remaining.length < futureBlocks ∨
      count > (remaining.length - futureBlocks) / versionHeaderBytes)
    (checkpointCorruption block "version count exceeds checkpoint body")
  decodeVersions nextTxn nextCommit block futureBlocks dedup count [] none none remaining

def decodeBlocks (nextTxn nextCommit : Nat) (dedup : Bool) :
    (left : Nat) → (previousBlock : Option Nat) → Bytes →
      Except FfsError (List (Nat × List BlockVersion) × Bytes)
  | 0, _, remaining => .ok ([], remaining)
  | left + 1, previousBlock, remaining => do
    let (block, remaining) ← Decoder.read 8 remaining
    checkBlockOrder previousBlock block
    let (versions, remaining) ← decodeChain nextTxn nextCommit block (left * minBlockBytes) dedup
      remaining
    let (blocks, remaining) ← decodeBlocks nextTxn nextCommit dedup left (some block) remaining
    return ((block, versions) :: blocks, remaining)

/-- The whole body has to be used up, and the checksum that follows it has to match. -/
def finishCheckpoint [Checksum] (body remaining trailer : Bytes) : Except FfsError Unit :=
  if remaining.length ≠ 0 then
    .error (checkpointCorruption 0
      "checkpoint has trailing bytes after CRC or undeclared records")
  else if ofLe trailer ≠ (Checksum.crc32c body).toNat then
    .error (checkpointCorruption 0
      (s!"checkpoint CRC mismatch: stored {hex32 (ofLe trailer)}, " ++
        s!"computed {hex32 (Checksum.crc32c body).toNat}"))
  else .ok ()

def decodeCheckpoint [Checksum] (dedup : Bool) (file : Bytes) :
    Except FfsError DecodedCheckpoint := do
  failIf (file.length < 4 ∨ file.length - 4 < checkpointHeaderSize)
    (checkpointCorruption 0 "checkpoint is shorter than its header and CRC")
  let body := file.take (file.length - 4)
  let (magic, remaining) ← Decoder.read 4 body
  failIf (magic ≠ checkpointMagic)
    (.format s!"checkpoint magic mismatch: expected {hex32 checkpointMagic}, got {hex32 magic}")
  let (version, remaining) ← Decoder.read 2 remaining
  failIf (version ≠ checkpointVersion) (.format s!"unsupported checkpoint version: {version}")
  let (reserved, remaining) ← Decoder.read 2 remaining
  failIf (reserved ≠ 0) (checkpointCorruption 0 "nonzero reserved checkpoint header")
  let (nextTxn, remaining) ← Decoder.read 8 remaining
  let (nextCommit, remaining) ← Decoder.read 8 remaining
  validateCheckpointCounters nextTxn nextCommit
  let (numBlocks, remaining) ← Decoder.read 4 remaining
  failIf (numBlocks > remaining.length / minBlockBytes)
    (checkpointCorruption 0 "block count exceeds checkpoint body")
  let (blocks, remaining) ← decodeBlocks nextTxn nextCommit dedup numBlocks none remaining
  finishCheckpoint body remaining (file.drop (file.length - 4))
  return ⟨nextTxn, nextCommit, blocks⟩

namespace MvccStore

def insertVersions (s : MvccStore) (block : Nat) (versions : List BlockVersion) : MvccStore :=
  { s with versions := s.versions.alter block fun chain => some (chain.getD [] ++ versions) }

def advanceCounters (s : MvccStore) (lastCommit lastTxn : Nat) : MvccStore :=
  { s with
    nextCommit := max s.nextCommit (u64SaturatingAdd lastCommit 1)
    nextTxn := max s.nextTxn (u64SaturatingAdd lastTxn 1) }

/-- `publish_checkpoint`. The decoder has checked everything by now. -/
def publishCheckpoint (s : MvccStore) (decoded : DecodedCheckpoint) : MvccStore :=
  (decoded.blocks.foldl (fun s e => s.insertVersions e.1 e.2) s).advanceCounters
    (decoded.nextCommit - 1) (decoded.nextTxn - 1)

def loadCheckpoint [Checksum] (s : MvccStore) (file : Bytes) : Except FfsError MvccStore :=
  (decodeCheckpoint s.compressionPolicy.dedupIdentical file).map s.publishCheckpoint

end MvccStore

/-! ## What was written is read back -/

variable {vi : Nat} {chain : List BlockVersion}

theorem versionField_ok {field : Bytes} (h : versionField block chain vi v = .ok field) :
    v.data.isIdentical = true ∧ field = toLe 4 u32Max ∨
      v.data.isIdentical = false ∧ ∃ bytes, resolveData chain vi = some bytes ∧
        bytes.length < u32Max ∧ field = toLe 4 bytes.length ++ bytes := by
  unfold versionField at h
  split_ifs at h with hid
  · cases h
    exact Or.inl ⟨hid, rfl⟩
  · cases hr : resolveData chain vi with
    | none => simp [hr] at h
    | some bytes =>
      simp only [hr] at h
      split_ifs at h with hlarge hmark
      cases h
      exact Or.inr ⟨by simpa using hid, bytes, rfl, by omega, rfl⟩

variable {bytes : Bytes}

theorem writeVersions_cons {rest : List BlockVersion}
    (h : writeVersions nextTxn nextCommit block chain vi previousSeq (v :: rest) = .ok bytes) :
    ∃ field tail, validateCheckpointVersion block v previousSeq nextTxn nextCommit = .ok () ∧
      versionField block chain vi v = .ok field ∧
      writeVersions nextTxn nextCommit block chain (vi + 1) (some v.commitSeq) rest = .ok tail ∧
      bytes = toLe 8 v.commitSeq ++ (toLe 8 v.writer ++ (field ++ tail)) := by
  rw [writeVersions] at h
  obtain ⟨⟨⟩, hvalid, h⟩ := bind_ok.mp h
  obtain ⟨field, hfield, h⟩ := bind_ok.mp h
  obtain ⟨tail, htail, h⟩ := bind_ok.mp h
  cases h
  exact ⟨field, tail, hvalid, hfield, htail, rfl⟩

theorem length_writeVersions {rest : List BlockVersion}
    (h : writeVersions nextTxn nextCommit block chain vi previousSeq rest = .ok bytes) :
    rest.length * versionHeaderBytes ≤ bytes.length := by
  induction rest generalizing vi previousSeq bytes with
  | nil => simp
  | cons v rest ih =>
    obtain ⟨field, tail, -, hfield, htail, rfl⟩ := writeVersions_cons h
    have := ih htail
    have hge : 4 ≤ field.length := by
      rcases versionField_ok hfield with ⟨-, rfl⟩ | ⟨-, data, -, -, rfl⟩ <;> simp
    simp only [List.length_append, length_toLe, List.length_cons, versionHeaderBytes] at this ⊢
    omega

structure Rebuilt (versions : List BlockVersion) (lastConcrete : Option Nat) (es : Entries) :
    Prop where
  stores : Stores versions es
  concrete : ∀ k, lastConcrete = some k → k < versions.length ∧
    resolveData versions k = resolveData versions (versions.length - 1)

theorem rebuilt_nil : Rebuilt [] none [] := ⟨stores_nil, by simp⟩

variable {versions : List BlockVersion} {lastConcrete : Option Nat} {es : Entries}

theorem Rebuilt.push (h : Rebuilt versions lastConcrete es) (hv : Encodes versions v.data bytes) :
    Rebuilt (versions ++ [v]) (if v.data.isIdentical then lastConcrete else some versions.length)
      (es ++ [(v.commitSeq, bytes)]) := by
  refine ⟨h.stores.push hv, fun k hk => ?_⟩
  rw [List.length_append, List.length_singleton, Nat.add_sub_cancel]
  split_ifs at hk with hid
  · -- A marker resolves to what the version before it does.
    obtain ⟨hlt, hres⟩ := h.concrete k hk
    obtain ⟨n, hn⟩ : ∃ n, versions.length = n + 1 := ⟨versions.length - 1, by omega⟩
    have hget : (versions ++ [v])[n + 1]? = some v := by rw [← hn]; simp
    refine ⟨by omega, ?_⟩
    rw [resolveData_append_left hlt, hres, hn,
      resolveData_identical hget ((isIdentical_iff _).mp hid), resolveData_append_left (by omega)]
    rfl
  · cases hk
    exact ⟨by omega, rfl⟩

theorem Rebuilt.repeatsConcrete (h : Rebuilt versions lastConcrete es) (block : Nat) (dedup : Bool)
    (data : Bytes) :
    ∃ identical, repeatsConcrete block dedup versions lastConcrete data = .ok identical ∧
      (identical = true → resolveData versions (versions.length - 1) = some data) := by
  unfold Mvcc.repeatsConcrete
  split
  · rename_i last
    obtain ⟨hlt, hres⟩ := h.concrete last rfl
    have hsome : resolveData versions last = some (es.get ⟨last, h.stores.length ▸ hlt⟩).2 := by
      rw [h.stores.bytes last hlt, List.getElem?_eq_getElem (h.stores.length ▸ hlt)]
      rfl
    rw [hsome]
    refine ⟨_, rfl, fun heq => ?_⟩
    rw [← hres, hsome, eq_of_beq heq]
  · exact ⟨false, rfl, by simp⟩

variable {rest : Bytes}

theorem Rebuilt.decodeData (h : Rebuilt versions lastConcrete es) {reserved : Nat} (dedup : Bool)
    {field : Bytes} (hfield : versionField block chain vi v = .ok field)
    (hbytes : resolveData chain vi = some bytes)
    (hprev : v.data.isIdentical = true → resolveData versions (versions.length - 1) = some bytes)
    (hroom : reserved ≤ rest.length) :
    ∃ dataLen body data, field = toLe 4 dataLen ++ body ∧ dataLen ≤ u32Max ∧
      (if dataLen = u32Max then VersionData.identical else .full []).isIdentical =
        v.data.isIdentical ∧
      decodeData block dedup versions lastConcrete dataLen reserved (body ++ rest) =
        .ok (data, rest) ∧ Encodes versions data bytes := by
  rcases versionField_ok hfield with ⟨hid, rfl⟩ | ⟨hid, bytes', hres, hlt, rfl⟩
  · refine ⟨u32Max, [], .identical, by simp, le_rfl, by rw [if_pos rfl, hid]; rfl, ?_, ?_⟩
    · rw [Mvcc.decodeData, if_pos rfl, List.nil_append]
    · exact Or.inr ⟨rfl, hprev hid⟩
  · obtain rfl : bytes = bytes' := Option.some.inj (hbytes.symm.trans hres)
    obtain ⟨identical, hrep, hsame⟩ := h.repeatsConcrete block dedup bytes
    refine ⟨bytes.length, bytes, if identical then .identical else .full bytes, rfl,
      Nat.le_of_lt hlt, by rw [if_neg (by omega), hid]; rfl, ?_, ?_⟩
    · rw [Mvcc.decodeData, if_neg (by omega), Decoder.payload_append hroom]
      simp only [bind, Except.bind, hrep]
      rfl
    · cases identical with
      | true => exact Or.inr ⟨rfl, hsame rfl⟩
      | false => exact Or.inl rfl

theorem Stores.entry_at (h : Stores chain es) {i : Nat} (hv : chain[i]? = some v) :
    ∃ bytes, es[i]? = some (v.commitSeq, bytes) ∧ resolveData chain i = some bytes := by
  have hseq := h.seq_at i
  rw [hv] at hseq
  obtain ⟨e, he, hes⟩ := Option.map_eq_some_iff.mp hseq.symm
  have hb := h.bytes i (List.getElem?_eq_some_iff.mp hv).1
  rw [he] at hb
  exact ⟨e.2, by rw [he, ← hes], hb⟩

theorem decodeVersions_written {futureBlocks : Nat} (dedup : Bool) (htxn : nextTxn ≤ u64Max)
    (hcommit : nextCommit ≤ u64Max) (hes : Stores chain es) (hfuture : futureBlocks ≤ rest.length)
    (left : List BlockVersion) (hleft : chain.drop vi = left) (hvi : vi ≤ chain.length)
    (hre : Rebuilt versions lastConcrete (es.take vi)) (hprev : vi = 0 → previousSeq = none)
    (hw : writeVersions nextTxn nextCommit block chain vi previousSeq left = .ok bytes) :
    ∃ versions', decodeVersions nextTxn nextCommit block futureBlocks dedup left.length versions
        lastConcrete previousSeq (bytes ++ rest) = .ok (versions', rest) ∧
      Stores versions' es := by
  induction left generalizing vi versions lastConcrete previousSeq bytes with
  | nil =>
    cases hw
    have hlen := hes.length
    have := List.drop_eq_nil_iff.mp hleft
    rw [List.take_of_length_le (by omega)] at hre
    exact ⟨versions, rfl, hre.stores⟩
  | cons v left ih =>
    obtain ⟨field, tail, hvalid, hfield, htail, rfl⟩ := writeVersions_cons hw
    obtain ⟨hblock, hseq, hwriter, hroot⟩ := validateCheckpointVersion_ok hvalid
    have hv : chain[vi]? = some v := by
      rw [← List.head?_drop, hleft]
      rfl
    have hlt : vi < chain.length := (List.getElem?_eq_some_iff.mp hv).1
    obtain ⟨data, he, hbytes⟩ := hes.entry_at hv
    have hlen : versions.length = vi := by
      rw [hre.stores.length, List.length_take, ← hes.length]
      omega
    -- A marker stands for the bytes of the version before it, which is rebuilt already.
    have hmarker : v.data.isIdentical = true →
        resolveData versions (versions.length - 1) = some data := by
      intro hid
      obtain ⟨n, rfl⟩ : ∃ n, vi = n + 1 := by
        cases vi with
        | zero => simp [hroot (hprev rfl)] at hid
        | succ n => exact ⟨n, rfl⟩
      rw [hre.stores.bytes _ (by omega), hlen, Nat.add_sub_cancel, List.getElem?_take_of_lt
        (Nat.lt_succ_self n), ← hes.bytes n (by omega),
        ← resolveData_identical hv ((isIdentical_iff _).mp hid), hbytes]
    have hroom : futureBlocks + left.length * versionHeaderBytes ≤ (tail ++ rest).length := by
      have := length_writeVersions htail
      rw [List.length_append]
      omega
    obtain ⟨dataLen, body, d, rfl, hdlen, hdid, hdec, henc⟩ :=
      hre.decodeData dedup hfield hbytes hmarker hroom
    have hpush := hre.push (v := ⟨block, v.commitSeq, v.writer, d⟩) henc
    rw [hlen] at hpush
    have htake : es.take vi ++ [(v.commitSeq, data)] = es.take (vi + 1) := by
      rw [List.take_add_one, he]
      rfl
    simp only [htake] at hpush
    have hnext : chain.drop (vi + 1) = left := by
      rw [← List.drop_drop, hleft]
      rfl
    obtain ⟨versions', hrun, hst⟩ := ih hnext hlt hpush (by omega) htail
    refine ⟨versions', ?_, hst⟩
    rw [List.length_cons, decodeVersions]
    simp only [List.append_assoc, Decoder.read_toLe (u64_lt (show v.commitSeq ≤ u64Max by omega)),
      Decoder.read_toLe (u64_lt (show v.writer ≤ u64Max by omega)),
      Decoder.read_toLe (u32_lt hdlen), bind, Except.bind,
      validateCheckpointVersion_congr hblock hdid, hvalid, hdec, hlen]
    exact hrun

variable {previousBlock : Option Nat}

theorem writeBlocks_cons {rest : List (Nat × List BlockVersion)}
    (h : writeBlocks nextTxn nextCommit previousBlock ((block, chain) :: rest) = .ok bytes) :
    ∃ versions tail, checkBlockOrder previousBlock block = .ok () ∧ chain ≠ [] ∧
      chain.length ≤ u32Max ∧
      writeVersions nextTxn nextCommit block chain 0 none chain = .ok versions ∧
      writeBlocks nextTxn nextCommit (some block) rest = .ok tail ∧
      bytes = toLe 8 block ++ (toLe 4 chain.length ++ (versions ++ tail)) := by
  rw [writeBlocks] at h
  obtain ⟨⟨⟩, horder, h⟩ := bind_ok.mp h
  obtain ⟨⟨⟩, hempty, h⟩ := bind_ok.mp h
  obtain ⟨⟨⟩, hlong, h⟩ := bind_ok.mp h
  obtain ⟨versions, hversions, h⟩ := bind_ok.mp h
  obtain ⟨tail, htail, h⟩ := bind_ok.mp h
  cases h
  exact ⟨versions, tail, horder, by simpa using failIf_ok.mp hempty,
    Nat.le_of_not_lt (failIf_ok.mp hlong), hversions, htail, rfl⟩

theorem length_writeBlocks {blocks : List (Nat × List BlockVersion)}
    (h : writeBlocks nextTxn nextCommit previousBlock blocks = .ok bytes) :
    blocks.length * minBlockBytes ≤ bytes.length := by
  induction blocks generalizing previousBlock bytes with
  | nil => simp
  | cons e rest ih =>
    obtain ⟨block, chain⟩ := e
    obtain ⟨versions, tail, -, hne, -, hversions, htail, rfl⟩ := writeBlocks_cons h
    have hrest := ih htail
    have hlen := length_writeVersions hversions
    have hpos : 0 < chain.length := List.length_pos_of_ne_nil hne
    simp only [List.length_append, length_toLe, List.length_cons, minBlockBytes, blockHeaderBytes,
      versionHeaderBytes] at hrest hlen ⊢
    omega

theorem decodeChain_written {futureBlocks : Nat} (dedup : Bool) (htxn : nextTxn ≤ u64Max)
    (hcommit : nextCommit ≤ u64Max) (hes : Stores chain es) (hne : chain ≠ [])
    (hlong : chain.length ≤ u32Max) (hfuture : futureBlocks ≤ rest.length)
    (hw : writeVersions nextTxn nextCommit block chain 0 none chain = .ok bytes) :
    ∃ versions, decodeChain nextTxn nextCommit block futureBlocks dedup
        (toLe 4 chain.length ++ (bytes ++ rest)) = .ok (versions, rest) ∧ Stores versions es := by
  obtain ⟨versions, hrun, hst⟩ := decodeVersions_written dedup htxn hcommit hes hfuture chain
    rfl (Nat.zero_le _) rebuilt_nil (fun _ => rfl) hw
  have hlen := length_writeVersions hw
  have hpos : 0 < chain.length := List.length_pos_of_ne_nil hne
  have hroom : chain.length ≤ ((bytes ++ rest).length - futureBlocks) / versionHeaderBytes := by
    rw [Nat.le_div_iff_mul_le (by decide), List.length_append]
    omega
  refine ⟨versions, ?_, hst⟩
  rw [decodeChain, Decoder.read_toLe (u32_lt hlong)]
  simp only [ok_bind]
  rw [failIf_of_not (by omega), ok_bind, failIf_of_not (by rw [List.length_append] at hroom ⊢; omega)]
  exact hrun

theorem decodeBlocks_written (dedup : Bool) (htxn : nextTxn ≤ u64Max)
    (hcommit : nextCommit ≤ u64Max) {es : Nat → Entries} (blocks : List (Nat × List BlockVersion))
    (hes : ∀ e ∈ blocks, e.1 ≤ u64Max ∧ Stores e.2 (es e.1))
    (hw : writeBlocks nextTxn nextCommit previousBlock blocks = .ok bytes) :
    ∃ decoded, decodeBlocks nextTxn nextCommit dedup blocks.length previousBlock bytes =
        .ok (decoded, []) ∧ decoded.map Prod.fst = blocks.map Prod.fst ∧
      ∀ e ∈ decoded, Stores e.2 (es e.1) := by
  induction blocks generalizing previousBlock bytes with
  | nil =>
    cases hw
    exact ⟨[], rfl, rfl, by simp⟩
  | cons e rest ih =>
    obtain ⟨block, chain⟩ := e
    obtain ⟨versions, tail, horder, hne, hlong, hversions, htail, rfl⟩ := writeBlocks_cons hw
    obtain ⟨hblock, hst⟩ := hes (block, chain) (by simp)
    obtain ⟨chain', hchain, hst'⟩ := decodeChain_written dedup htxn hcommit hst hne hlong
      (length_writeBlocks htail) hversions
    obtain ⟨decoded, hrest, hkeys, hstores⟩ :=
      ih (fun e he => hes e (List.mem_cons_of_mem _ he)) htail
    refine ⟨(block, chain') :: decoded, ?_, by rw [List.map_cons, List.map_cons, hkeys], ?_⟩
    · rw [List.length_cons, decodeBlocks]
      simp only [Decoder.read_toLe (u64_lt hblock), bind, Except.bind, horder, hchain, hrest]
      rfl
    · intro e he
      rcases List.mem_cons.mp he with rfl | he
      · exact hst'
      · exact hstores e he

namespace MvccStore

theorem insertVersions_versions (s : MvccStore) (block : Nat) (versions : List BlockVersion)
    (b : Nat) :
    (s.insertVersions block versions).versions.get? b =
      if b = block then some (s.chain block ++ versions) else s.versions.get? b := by
  simp only [chain, insertVersions, OrdMap.get?_alter]

theorem insertBlocks_versions (blocks : List (Nat × List BlockVersion))
    (hnd : (blocks.map Prod.fst).Nodup) (s : MvccStore) (b : Nat) :
    (blocks.foldl (fun s e => s.insertVersions e.1 e.2) s).versions.get? b =
      match blocks.lookup b with
      | some versions => some (s.chain b ++ versions)
      | none => s.versions.get? b := by
  induction blocks generalizing s with
  | nil => rfl
  | cons e rest ih =>
    obtain ⟨block, versions⟩ := e
    rw [List.map_cons, List.nodup_cons] at hnd
    have hget := insertVersions_versions s block versions b
    rw [List.foldl_cons, ih hnd.2, List.lookup_cons]
    by_cases hb : b = block
    · -- The block comes once, so nothing is left to add.
      have hnone : rest.lookup b = none := by
        rw [List.lookup_eq_none_iff]
        rintro ⟨b', vs⟩ hmem
        simp only [bne_iff_ne]
        rintro rfl
        exact hnd.1 (hb ▸ List.mem_map.mpr ⟨_, hmem, rfl⟩)
      rw [hnone, beq_iff_eq.mpr hb, hget, if_pos hb, hb]
    · rw [if_neg hb] at hget
      rw [beq_eq_false_iff_ne.mpr hb, MvccStore.chain, hget]
      rfl

theorem insertBlocks_chain (blocks : List (Nat × List BlockVersion))
    (hnd : (blocks.map Prod.fst).Nodup) (s : MvccStore) (b : Nat) :
    (blocks.foldl (fun s e => s.insertVersions e.1 e.2) s).chain b =
      s.chain b ++ (blocks.lookup b).getD [] := by
  rw [MvccStore.chain, insertBlocks_versions blocks hnd]
  cases blocks.lookup b with
  | none => exact (List.append_nil _).symm
  | some versions => rfl

theorem insertBlocks_nextCommit (blocks : List (Nat × List BlockVersion)) (s : MvccStore) :
    (blocks.foldl (fun s e => s.insertVersions e.1 e.2) s).nextCommit = s.nextCommit := by
  induction blocks generalizing s with
  | nil => rfl
  | cons e rest ih => exact ih _

end MvccStore

section Load

variable [Checksum]

variable {file : Bytes}

theorem writeCheckpoint_ok {nextTxn nextCommit : Nat} {blocks : List (Nat × List BlockVersion)}
    (h : writeCheckpoint nextTxn nextCommit blocks = .ok file) :
    ∃ bytes, validateCheckpointCounters nextTxn nextCommit = .ok () ∧ blocks.length ≤ u32Max ∧
      writeBlocks nextTxn nextCommit none blocks = .ok bytes ∧
      file = (checkpointHeader nextTxn nextCommit blocks.length ++ bytes) ++
        toLe 4 (Checksum.crc32c (checkpointHeader nextTxn nextCommit blocks.length ++ bytes)).toNat := by
  rw [writeCheckpoint] at h
  obtain ⟨⟨⟩, hcounters, h⟩ := bind_ok.mp h
  obtain ⟨⟨⟩, hmany, h⟩ := bind_ok.mp h
  obtain ⟨bytes, hblocks, h⟩ := bind_ok.mp h
  cases h
  exact ⟨bytes, hcounters, Nat.le_of_not_lt (failIf_ok.mp hmany), hblocks, rfl⟩

theorem decodeCheckpoint_written {nextTxn nextCommit : Nat} (dedup : Bool) (htxn : nextTxn ≤ u64Max)
    (hcommit : nextCommit ≤ u64Max) {es : Nat → Entries} {blocks : List (Nat × List BlockVersion)}
    (hes : ∀ e ∈ blocks, e.1 ≤ u64Max ∧ Stores e.2 (es e.1))
    (hw : writeCheckpoint nextTxn nextCommit blocks = .ok file) :
    ∃ decoded, decodeCheckpoint dedup file = .ok ⟨nextTxn, nextCommit, decoded⟩ ∧
      decoded.map Prod.fst = blocks.map Prod.fst ∧ ∀ e ∈ decoded, Stores e.2 (es e.1) := by
  obtain ⟨bytes, hcounters, hmany, hblocks, rfl⟩ := writeCheckpoint_ok hw
  obtain ⟨decoded, hdec, hkeys, hstores⟩ :=
    decodeBlocks_written dedup htxn hcommit blocks hes hblocks
  refine ⟨decoded, ?_, hkeys, hstores⟩
  have hbody : (checkpointHeader nextTxn nextCommit blocks.length ++ bytes).length =
      28 + bytes.length := by
    simp only [checkpointHeader, List.length_append, length_toLe]
  have hfew : ¬ blocks.length > bytes.length / minBlockBytes :=
    Nat.not_lt.mpr ((Nat.le_div_iff_mul_le (by decide)).mpr (length_writeBlocks hblocks))
  have hcrc : finishCheckpoint (checkpointHeader nextTxn nextCommit blocks.length ++ bytes) []
      (toLe 4 (Checksum.crc32c (checkpointHeader nextTxn nextCommit blocks.length ++ bytes)).toNat) =
      .ok () := by
    unfold finishCheckpoint
    rw [if_neg (by simp), if_neg (not_not.mpr (ofLe_toLe (Checksum.crc32c _).isLt))]
  rw [decodeCheckpoint, List.length_append, length_toLe, failIf_of_not (by
    rw [hbody, checkpointHeaderSize]; omega), ok_bind, Nat.add_sub_cancel, List.take_left,
    List.drop_left]
  generalize hb : checkpointHeader nextTxn nextCommit blocks.length ++ bytes = body at hcrc ⊢
  have hread : Decoder.read 4 body = .ok (checkpointMagic, toLe 2 checkpointVersion ++ (toLe 2 0 ++
      (toLe 8 nextTxn ++ (toLe 8 nextCommit ++ (toLe 4 blocks.length ++ bytes))))) := by
    rw [← hb]
    simp only [checkpointHeader, List.append_assoc]
    exact Decoder.read_toLe (by decide) _
  simp only [hread, ok_bind, Decoder.read_toLe (show checkpointVersion < 256 ^ 2 by decide),
    Decoder.read_toLe (show 0 < 256 ^ 2 by decide), Decoder.read_toLe (u64_lt htxn),
    Decoder.read_toLe (u64_lt hcommit), Decoder.read_toLe (u32_lt hmany), hcounters, hdec, hcrc,
    failIf_of_not (not_not.mpr rfl), failIf_of_not hfew]
  rfl

/-- **A fresh store that loads a checkpoint** has the chains and the next sequence of the store
that wrote it. -/
theorem MvccStore.loadCheckpoint_written (fresh : MvccStore) {s : MvccStore} {es : Nat → Entries}
    (hw : writeCheckpoint s.nextTxn s.nextCommit s.versions.entries = .ok file)
    (hes : ∀ b, Stores (s.chain b) (es b)) (hblocks : ∀ b, (s.versions.get? b).isSome → b ≤ u64Max)
    (htxn : s.nextTxn ≤ u64Max) (hcommit : s.nextCommit ≤ u64Max) (hfresh : ∀ b, fresh.chain b = [])
    (hnext : fresh.nextCommit ≤ s.nextCommit) :
    ∃ loaded, fresh.loadCheckpoint file = .ok loaded ∧ loaded.nextCommit = s.nextCommit ∧
      ∀ b, Stores (loaded.chain b) (es b) := by
  have hentries : ∀ e ∈ s.versions.entries, e.1 ≤ u64Max ∧ Stores e.2 (es e.1) := by
    rintro ⟨b, chain⟩ he
    have hget := (OrdMap.mem_entries _).mp he
    refine ⟨hblocks b (by rw [hget]; rfl), ?_⟩
    simpa [MvccStore.chain, hget] using hes b
  obtain ⟨decoded, hdec, hkeys, hstores⟩ := decodeCheckpoint_written
    fresh.compressionPolicy.dedupIdentical htxn hcommit hentries hw
  obtain ⟨-, hcounters, -⟩ := writeCheckpoint_ok hw
  have hpos := (validateCheckpointCounters_ok hcounters).2
  have hnd : (decoded.map Prod.fst).Nodup := hkeys ▸ s.versions.keys_nodup
  refine ⟨fresh.publishCheckpoint ⟨s.nextTxn, s.nextCommit, decoded⟩, by
    rw [MvccStore.loadCheckpoint, hdec]; rfl, ?_, fun b => ?_⟩
  · simp only [publishCheckpoint, advanceCounters, insertBlocks_nextCommit, u64SaturatingAdd]
    omega
  · have hchain : (fresh.publishCheckpoint ⟨s.nextTxn, s.nextCommit, decoded⟩).chain b =
        (decoded.lookup b).getD [] := by
      have := insertBlocks_chain decoded hnd fresh b
      rwa [hfresh, List.nil_append] at this
    rw [hchain]
    cases hl : decoded.lookup b with
    | some versions =>
      obtain ⟨l₁, l₂, heq, -⟩ := List.lookup_eq_some_iff.mp hl
      exact hstores (b, versions) (by rw [heq]; simp)
    | none =>
      have hnone : s.versions.get? b = none := by
        by_contra hsome
        have hmem := (OrdMap.mem_keys _).mpr (Option.isSome_iff_ne_none.mpr hsome)
        rw [OrdMap.keys, ← hkeys] at hmem
        obtain ⟨e, he, rfl⟩ := List.mem_map.mp hmem
        simpa using List.lookup_eq_none_iff.mp hl e he
      simpa [MvccStore.chain, hnone] using hes b

end Load

end FrankenFs.Mvcc
