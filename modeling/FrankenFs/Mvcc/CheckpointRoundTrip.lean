import FrankenFs.Mvcc.StoreRuns

/-!
# The checkpoint of a reachable store

Soundness is what `write_checkpoint` checks, so a reachable store can always be written, up to the
widths of the fields.
-/

open FrankenFs.Lib

namespace FrankenFs.Mvcc

section RoundTrip

variable [Platform]

/-! ## A sound chain can be written -/

variable {nextTxn nextCommit : Nat}

variable {block : Nat} {chain : List BlockVersion}

theorem SoundChain.head_concrete (h : SoundChain block nextTxn nextCommit chain) {v : BlockVersion}
    (hv : chain[0]? = some v) : v.data.isIdentical = false := by
  obtain ⟨es, hes⟩ := h.stores
  obtain ⟨bytes, -, hbytes⟩ := hes.entry_at hv
  rw [Bool.eq_false_iff]
  intro hid
  rw [resolveData_zero_identical hv ((isIdentical_iff _).mp hid)] at hbytes
  cases hbytes

def previousSeqAt (chain : List BlockVersion) : Nat → Option Nat
  | 0 => none
  | vi + 1 => chain[vi]?.map BlockVersion.commitSeq

theorem SoundChain.validates (h : SoundChain block nextTxn nextCommit chain) {vi : Nat}
    {v : BlockVersion} (hv : chain[vi]? = some v) :
    validateCheckpointVersion block v (previousSeqAt chain vi) nextTxn nextCommit = .ok () := by
  obtain ⟨hb, hpos, hseq, hwriter⟩ := h.version v (List.mem_of_getElem? hv)
  have horder : (previousSeqAt chain vi).any (fun seq => decide (seq ≥ v.commitSeq)) = false := by
    cases vi with
    | zero => rfl
    | succ vi =>
      obtain ⟨hlt, rfl⟩ := List.getElem?_eq_some_iff.mp hv
      have hprev : vi < chain.length := by omega
      have := List.pairwise_iff_getElem.mp h.ascending vi (vi + 1) hprev hlt (Nat.lt_succ_self vi)
      simp only [previousSeqAt, List.getElem?_eq_getElem hprev, Option.map_some, Option.any_some,
        decide_eq_false_iff_not]
      omega
  have hroot : ((previousSeqAt chain vi).isNone && v.data.isIdentical) = false := by
    cases vi with
    | zero => rw [h.head_concrete hv, Bool.and_false]
    | succ vi =>
      have hprev : vi < chain.length := by
        have := (List.getElem?_eq_some_iff.mp hv).1
        omega
      simp [previousSeqAt, List.getElem?_eq_getElem hprev]
  unfold validateCheckpointVersion
  rw [horder, hroot, if_neg (by
    simp only [hb, ne_eq, not_true_eq_false, Bool.false_eq_true, or_false, false_or]
    omega)]
  rfl

theorem SoundChain.writes (h : SoundChain block nextTxn nextCommit chain)
    (hsmall : ∀ i bytes, resolveData chain i = some bytes → bytes.length < u32Max)
    (left : List BlockVersion) {vi : Nat} (hleft : chain.drop vi = left) :
    ∃ bytes, writeVersions nextTxn nextCommit block chain vi (previousSeqAt chain vi) left =
      .ok bytes := by
  induction left generalizing vi with
  | nil => exact ⟨[], rfl⟩
  | cons v left ih =>
    have hv : chain[vi]? = some v := by
      rw [← List.head?_drop, hleft]
      rfl
    obtain ⟨tail, htail⟩ := @ih (vi + 1) (by rw [← List.drop_drop, hleft]; rfl)
    rw [show previousSeqAt chain (vi + 1) = some v.commitSeq by simp [previousSeqAt, hv]] at htail
    obtain ⟨field, hfield⟩ : ∃ field, versionField block chain vi v = .ok field := by
      obtain ⟨es, hes⟩ := h.stores
      obtain ⟨bytes, -, hbytes⟩ := hes.entry_at hv
      have hlen := hsmall vi bytes hbytes
      unfold versionField
      rw [hbytes]
      by_cases hid : v.data.isIdentical = true
      · exact ⟨_, if_pos hid⟩
      · refine ⟨toLe 4 bytes.length ++ bytes, ?_⟩
        rw [if_neg hid]
        dsimp only
        rw [if_neg (by omega), if_neg (by omega)]
    rw [writeVersions]
    exact ⟨_, bind_ok.mpr ⟨(), h.validates hv, bind_ok.mpr ⟨field, hfield, bind_ok.mpr
      ⟨tail, htail, rfl⟩⟩⟩⟩

theorem writeBlocks_sound (blocks : List (Nat × List BlockVersion))
    (hsound : ∀ e ∈ blocks, e.2 ≠ [] ∧ SoundChain e.1 nextTxn nextCommit e.2)
    (hshort : ∀ e ∈ blocks, e.2.length ≤ u32Max)
    (hsmall : ∀ e ∈ blocks, ∀ i bytes, resolveData e.2 i = some bytes → bytes.length < u32Max)
    {previousBlock : Option Nat}
    (horder : (previousBlock.toList ++ blocks.map Prod.fst).Pairwise (· < ·)) :
    ∃ bytes, writeBlocks nextTxn nextCommit previousBlock blocks = .ok bytes := by
  induction blocks generalizing previousBlock with
  | nil => exact ⟨[], rfl⟩
  | cons e rest ih =>
    obtain ⟨block, chain⟩ := e
    obtain ⟨hne, hchain⟩ := hsound (block, chain) (by simp)
    obtain ⟨versions, hversions⟩ := hchain.writes (hsmall (block, chain) (by simp)) chain
      (show chain.drop 0 = chain from rfl)
    have hrest : (block :: rest.map Prod.fst).Pairwise (· < ·) := (List.pairwise_append.mp horder).2.1
    obtain ⟨tail, htail⟩ := @ih (fun e he => hsound e (List.mem_cons_of_mem _ he))
      (fun e he => hshort e (List.mem_cons_of_mem _ he))
      (fun e he => hsmall e (List.mem_cons_of_mem _ he)) (some block) hrest
    have hlater : checkBlockOrder previousBlock block = .ok () := by
      unfold checkBlockOrder
      cases previousBlock with
      | none => rfl
      | some previous =>
        have hlt : previous < block := (List.pairwise_cons.mp horder).1 block (by simp)
        rw [Option.any_some, if_neg (by simpa using hlt)]
    have hlen : ¬ u32Max < chain.length := Nat.not_lt.mpr (hshort (block, chain) (by simp))
    rw [writeBlocks]
    exact ⟨_, bind_ok.mpr ⟨(), hlater, bind_ok.mpr ⟨(), failIf_ok.mpr (by simpa using hne),
      bind_ok.mpr ⟨(), failIf_ok.mpr hlen, bind_ok.mpr ⟨versions, hversions, bind_ok.mpr
        ⟨tail, htail, rfl⟩⟩⟩⟩⟩⟩

namespace MvccStore

variable {s : MvccStore}

theorem Sound.entry (h : s.Sound) {e : Nat × List BlockVersion} (he : e ∈ s.versions.entries) :
    s.chain e.1 = e.2 ∧ e.1 ≤ u64Max ∧ e.2 ≠ [] ∧ SoundChain e.1 s.nextTxn s.nextCommit e.2 := by
  have hget := (OrdMap.mem_entries _).mp (show (e.1, e.2) ∈ s.versions.entries from he)
  exact ⟨by simp [MvccStore.chain, hget], h.blocks e.1 e.2 hget⟩

theorem Sound.resolved_visible (h : s.Sound) {b i : Nat} {bytes : Bytes}
    (hres : resolveData (s.chain b) i = some bytes) : ∃ x, s.readVisible b ⟨x⟩ = some bytes := by
  obtain ⟨es, hes, hasc⟩ := (h.chain b).entries
  cases hv : (s.chain b)[i]? with
  | none =>
    rw [resolveData_none hv] at hres
    cases hres
  | some v =>
    obtain ⟨bytes', he, hbytes⟩ := hes.entry_at hv
    obtain rfl := Option.some.inj (hbytes.symm.trans hres)
    refine ⟨v.commitSeq, ?_⟩
    rw [readVisible_eq, hes.read hasc]
    refine asOf_at hasc he le_rfl fun e' he' => ?_
    obtain ⟨hi, hei⟩ := List.getElem?_eq_some_iff.mp he
    obtain ⟨hj, rfl⟩ := List.getElem?_eq_some_iff.mp he'
    have := List.pairwise_iff_getElem.mp hasc i (i + 1) hi hj (Nat.lt_succ_self i)
    rwa [hei] at this

variable [Checksum]

theorem Sound.writeCheckpoint_ok (h : s.Sound) (hblocks : s.versions.entries.length ≤ u32Max)
    (hshort : ∀ b, (s.chain b).length ≤ u32Max)
    (hsmall : ∀ b x bytes, s.readVisible b ⟨x⟩ = some bytes → bytes.length < u32Max) :
    ∃ file, writeCheckpoint s.nextTxn s.nextCommit s.versions.entries = .ok file := by
  have hdata : ∀ e ∈ s.versions.entries, ∀ i bytes,
      resolveData e.2 i = some bytes → bytes.length < u32Max := by
    intro e he i bytes hres
    rw [← (h.entry he).1] at hres
    obtain ⟨x, hx⟩ := h.resolved_visible hres
    exact hsmall e.1 x bytes hx
  have horder : ((none : Option Nat).toList ++ s.versions.entries.map Prod.fst).Pairwise (· < ·) :=
    s.versions.keys_sorted
  obtain ⟨blocks, hw⟩ := writeBlocks_sound s.versions.entries (fun e he => (h.entry he).2.2)
    (fun e he => (h.entry he).1 ▸ hshort e.1) hdata horder
  have hcounters : validateCheckpointCounters s.nextTxn s.nextCommit = .ok () := by
    have := h.txnPos
    have := h.commitPos
    exact if_neg (by omega)
  rw [writeCheckpoint]
  exact ⟨_, bind_ok.mpr ⟨(), hcounters, bind_ok.mpr ⟨(), failIf_ok.mpr (Nat.not_lt.mpr hblocks),
    bind_ok.mpr ⟨blocks, hw, rfl⟩⟩⟩⟩

theorem Sound.readVisible_decoded (h : s.Sound) {file : Bytes}
    (hw : writeCheckpoint s.nextTxn s.nextCommit s.versions.entries = .ok file) (dedup : Bool) :
    ∃ d, decodeCheckpoint dedup file = .ok d ∧ d.nextTxn = s.nextTxn ∧ d.nextCommit = s.nextCommit ∧
      ∀ b x, resolveVersionBytesAtOrBefore ((d.blocks.lookup b).getD []) x = s.readVisible b ⟨x⟩ := by
  choose es hes hasc using fun b => (h.chain b).entries
  have hentries : ∀ e ∈ s.versions.entries, e.1 ≤ u64Max ∧ Stores e.2 (es e.1) := fun e he =>
    ⟨(h.entry he).2.1, (h.entry he).1 ▸ hes e.1⟩
  obtain ⟨blocks, hdec, hkeys, hstores⟩ :=
    decodeCheckpoint_written dedup h.txnBound h.commitBound hentries hw
  refine ⟨_, hdec, rfl, rfl, fun b x => ?_⟩
  rw [readVisible_eq, (hes b).read (hasc b)]
  cases hl : blocks.lookup b with
  | some versions =>
    obtain ⟨l₁, l₂, heq, -⟩ := List.lookup_eq_some_iff.mp hl
    exact (hstores (b, versions) (by rw [heq]; simp)).read (hasc b) x
  | none =>
    -- A block that is not in the file has no chain.
    have hnone : s.versions.get? b = none := by
      by_contra hsome
      have hmem := (OrdMap.mem_keys _).mpr (Option.isSome_iff_ne_none.mpr hsome)
      rw [OrdMap.keys, ← hkeys] at hmem
      obtain ⟨e, he, rfl⟩ := List.mem_map.mp hmem
      simpa using List.lookup_eq_none_iff.mp hl e he
    have hempty := hes b
    rw [show s.chain b = [] by simp [MvccStore.chain, hnone]] at hempty
    rw [hempty.eq_nil]
    rfl

/-- **The checkpoint round trip.** A reachable store whose blocks, versions and data fit the
fields is written, and what is decoded has its counters and reads as it does at every snapshot.
Conversely a file is accepted only with ascending chains that start with their own bytes, and
with versions below both counters. -/
theorem checkpoint_round_trip [Platform.Lossless] :
    (∀ s : MvccStore, s.Reachable → s.versions.entries.length < 2 ^ 32 →
      (∀ b, (s.chain b).length < 2 ^ 32) →
      (∀ b x bytes, s.readVisible b ⟨x⟩ = some bytes → bytes.length < 2 ^ 32 - 1) →
      ∃ file, writeCheckpoint s.nextTxn s.nextCommit s.versions.entries = .ok file ∧
        ∀ dedup, ∃ d, decodeCheckpoint dedup file = .ok d ∧ d.nextTxn = s.nextTxn ∧
          d.nextCommit = s.nextCommit ∧
          ∀ b x, resolveVersionBytesAtOrBefore ((d.blocks.lookup b).getD []) x =
            s.readVisible b ⟨x⟩) ∧
    ∀ dedup file d, decodeCheckpoint dedup file = .ok d → ∀ e ∈ d.blocks,
      e.2.Pairwise (fun v w => v.commitSeq < w.commitSeq) ∧
      (∃ v, e.2.head? = some v ∧ v.data.isIdentical = false) ∧
      ∀ v ∈ e.2, 0 < v.commitSeq ∧ v.commitSeq < d.nextCommit ∧ v.writer < d.nextTxn := by
  refine ⟨fun s hs hblocks hshort hsmall => ?_, fun dedup file d hd e he => ?_⟩
  · obtain ⟨file, hw⟩ := hs.sound.writeCheckpoint_ok (Nat.le_of_lt_succ hblocks)
      (fun b => Nat.le_of_lt_succ (hshort b)) hsmall
    exact ⟨file, hw, hs.sound.readVisible_decoded hw⟩
  · obtain ⟨-, hne, hchain⟩ := (decodeCheckpoint_sound hd).2.2.1 e he
    obtain ⟨v, hv⟩ : ∃ v, e.2.head? = some v := ⟨_, List.head?_eq_some_head hne⟩
    refine ⟨hchain.ascending, ⟨v, hv, hchain.head_concrete ?_⟩, fun v hv => (hchain.version v hv).2⟩
    rw [← List.head?_eq_getElem?]
    exact hv

end MvccStore

end RoundTrip

section Sample

local instance roundTripPlatform : Platform := exactPlatform
local instance roundTripChecksum : Checksum := ⟨fun _ => 0⟩

def plainStore : MvccStore := MvccStore.new ⟨false, none, .none⟩ .strict exactConfig

def writesSeven (data : Bytes) : U64Transaction :=
  ⟨(Transaction.new 1 ⟨0⟩).stageWrite 7 data, show 1 ≤ u64Max by decide, by
    intro b hb
    obtain rfl : b = 7 := List.mem_singleton.mp hb
    decide⟩

def sevenWritten (data : Bytes) : MvccStore := (plainStore.begin.1.commit (writesSeven data).1).1

theorem sevenWritten_reachable (data : Bytes) : (sevenWritten data).Reachable :=
  .commit (s := plainStore.begin.1) (writesSeven data) false (Or.inl (show 1 < 2 by decide))
    (.begin (.new _ _ _))

theorem sevenWritten_entries (data : Bytes) :
    (sevenWritten data).versions.entries = [(7, [⟨7, 1, 1, .full data⟩])] := rfl

theorem chain_of_entries {s : MvccStore} {k : Nat} {versions : List BlockVersion}
    (h : s.versions.entries = [(k, versions)]) (b : Nat) :
    s.chain b = if b = k then versions else [] := by
  have hget : s.versions.get? b = if b = k then some versions else none := by
    rw [OrdMap.get?, h]
    rfl
  rw [MvccStore.chain, hget]
  split_ifs <;> rfl

/-- The first transaction writes two blocks, and the second one repeats what block 7 holds. -/
def repeating : Nat → U64Transaction
  | 0 => ⟨((Transaction.new 1 ⟨0⟩).stageWrite 7 [5]).stageWrite 9 [1], by decide, by decide⟩
  | 1 => ⟨(Transaction.new 2 ⟨1⟩).stageWrite 7 [5], by decide, by decide⟩
  | _ => ⟨(Transaction.new 3 ⟨2⟩).stageWrite 7 [6], by decide, by decide⟩

def repeatingStore : Nat → MvccStore
  | 0 => MvccStore.new ⟨true, none, .none⟩ .strict exactConfig
  | n + 1 => ((repeatingStore n).begin.1.commit (repeating n).1).1

theorem repeatingStore_reachable (n : Nat)
    (h : ∀ i < n, (repeating i).1.id < (repeatingStore i).begin.1.nextTxn) :
    (repeatingStore n).Reachable := by
  induction n with
  | zero => exact .new _ _ _
  | succ n ih =>
    exact .commit (s := (repeatingStore n).begin.1) (repeating n) false (Or.inl (h n (by omega)))
      (.begin (ih fun i hi => h i (by omega)))

theorem chain_cases (s : MvccStore) (b : Nat) :
    s.chain b = [] ∨ (b, s.chain b) ∈ s.versions.entries := by
  rw [OrdMap.mem_entries, MvccStore.chain]
  cases s.versions.get? b with
  | none => exact Or.inl rfl
  | some chain => exact Or.inr rfl

theorem checkpoint_round_trip_repeating :
    (repeatingStore 3).versions.entries =
      [(7, [⟨7, 1, 1, .full [5]⟩, ⟨7, 2, 2, .identical⟩, ⟨7, 3, 3, .full [6]⟩]),
        (9, [⟨9, 1, 1, .full [1]⟩])] ∧
    ∃ file, writeCheckpoint 4 4 (repeatingStore 3).versions.entries = .ok file ∧
      ∀ dedup, ∃ d, decodeCheckpoint dedup file = .ok d ∧ d.nextTxn = 4 ∧ d.nextCommit = 4 ∧
        ∀ b x, resolveVersionBytesAtOrBefore ((d.blocks.lookup b).getD []) x =
          (repeatingStore 3).readVisible b ⟨x⟩ := by
  refine ⟨by decide +kernel, MvccStore.checkpoint_round_trip.1 (repeatingStore 3)
    (repeatingStore_reachable 3 (by decide +kernel)) (by decide +kernel) (fun b => ?_)
    fun b x bytes hread => ?_⟩
  · rcases chain_cases (repeatingStore 3) b with hnil | hmem
    · rw [hnil]
      decide
    · have hall : ∀ e ∈ (repeatingStore 3).versions.entries, e.2.length < 2 ^ 32 := by decide +kernel
      exact hall _ hmem
  · rw [MvccStore.readVisible_eq, resolveVersionBytesAtOrBefore] at hread
    obtain ⟨i, -, hi⟩ := Option.bind_eq_some_iff.mp hread
    have hlt : i < ((repeatingStore 3).chain b).length := by
      by_contra hge
      rw [resolveData_none (List.getElem?_eq_none (Nat.le_of_not_lt hge))] at hi
      cases hi
    rcases chain_cases (repeatingStore 3) b with hnil | hmem
    · rw [hnil] at hlt
      cases hlt
    · have hall : ∀ e ∈ (repeatingStore 3).versions.entries, ∀ i < e.2.length,
          ∀ bytes ∈ resolveData e.2 i, bytes.length < 2 ^ 32 - 1 := by decide +kernel
      exact hall _ hmem i hlt bytes hi

def repeatedBlock : WalCommit := ⟨1, 1, [(7, [1]), (7, [2])]⟩

/-- **Two stores that cannot be written**: one whose version is as long as the marker of a
repeated version, and one that replayed a record with a block in it twice. -/
theorem checkpoint_refuses :
    (∃ s : MvccStore, s.Reachable ∧ s.versions.entries.length < 2 ^ 32 ∧
      (∀ b, (s.chain b).length < 2 ^ 32) ∧
      ∃ e, writeCheckpoint s.nextTxn s.nextCommit s.versions.entries = .error e) ∧
    ∃ data s report, replayReader .truncateToLastGood (plainStore.nextCommit - 1)
        (fun s c => .ok (s.applyWalCommit c)) data plainStore = .ok (s, report) ∧
      s.versions.entries.length < 2 ^ 32 ∧ (∀ b, (s.chain b).length < 2 ^ 32) ∧
      ∃ e, writeCheckpoint s.nextTxn s.nextCommit s.versions.entries = .error e := by
  refine ⟨⟨sevenWritten (List.replicate u32Max 0), sevenWritten_reachable _,
    show 1 < 2 ^ 32 by decide, fun b => ?_, ?_⟩, ?_⟩
  · rw [chain_of_entries (sevenWritten_entries _)]
    split_ifs <;> simp
  · have hlong : ∀ data : Bytes, data.length = u32Max →
        writeCheckpoint 2 2 [(7, [⟨7, 1, 1, .full data⟩])] =
          .error (checkpointCorruption 7 "data length uses the dedup marker") := by
      intro data hdata
      have hfield : versionField 7 [⟨7, 1, 1, .full data⟩] 0 ⟨7, 1, 1, .full data⟩ =
          .error (checkpointCorruption 7 "data length uses the dedup marker") := by
        show (if u32Max < data.length then _ else if data.length = u32Max then _ else _) = _
        rw [if_neg (by omega), if_pos hdata]
      simp only [writeCheckpoint, writeBlocks, writeVersions, hfield]
      rfl
    exact ⟨_, hlong _ List.length_replicate⟩
  · obtain ⟨report, hreport⟩ : ∃ report, replayedCommits .truncateToLastGood
        (plainStore.nextCommit - 1) repeatedBlock.record.emit = .ok ([repeatedBlock], report) :=
      ⟨_, rfl⟩
    refine ⟨repeatedBlock.record.emit, plainStore.applyWalCommit repeatedBlock, report, ?_,
      by decide, ?_, ?_⟩
    · rw [replayReader_foldl, hreport]
      rfl
    · intro b
      rw [chain_of_entries (show (plainStore.applyWalCommit repeatedBlock).versions.entries =
        [(7, [⟨7, 1, 1, .full [1]⟩, ⟨7, 1, 1, .full [2]⟩])] from rfl)]
      split_ifs <;> simp
    · exact ⟨_, rfl⟩

end Sample

end FrankenFs.Mvcc
