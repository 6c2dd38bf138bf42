import FrankenFs.Journal.Writer
import Mathlib.Data.List.SplitBy

/-!
# Admission to the journal

`preflightTransaction` counts log blocks from the numbers of writes and revokes. The writer begins
another block at every change between the two, and some targets do not fit the tags.
-/

open FrankenFs.Lib

namespace FrankenFs.Journal

/-! ## What a transaction needs -/

def Chunk.items : Chunk → List Jbd2TxnBodyItem
  | .writes chunk => chunk.map fun write => .write write.1 write.2
  | .revokes targets => targets.map .revoke

def Chunk.size : Chunk → Nat
  | .writes chunk => chunk.length + 1
  | .revokes _ => 1

def Jbd2TxnBodyItem.isWrite : Jbd2TxnBodyItem → Bool
  | .write .. => true
  | .revoke _ => false

/-- The maximal runs of writes and of revokes. -/
def runs (items : List Jbd2TxnBodyItem) : List (List Jbd2TxnBodyItem) :=
  items.splitBy fun a b => a.isWrite == b.isWrite

/-- Log blocks of a run: descriptors and data blocks, or revoke blocks. -/
def runBlocks (tags entries : Nat) (run : List Jbd2TxnBodyItem) : Nat :=
  divCeil (writeCount run) tags + writeCount run + divCeil (revokeCount run) entries

def runsBlocks (tags entries : Nat) (items : List Jbd2TxnBodyItem) : Nat :=
  ((runs items).map (runBlocks tags entries)).sum

namespace Jbd2Writer

variable (w : Jbd2Writer)

def TargetFits : Jbd2TxnBodyItem → Prop
  | .write target _ => w.tagFormat = .csumV3 ∨ w.is64bit = true ∨ target < 2 ^ 32
  | .revoke target => w.is64bit = true ∨ target < 2 ^ 32

instance : DecidablePred w.TargetFits
  | .write _ _ => inferInstanceAs (Decidable (_ ∨ _))
  | .revoke _ => inferInstanceAs (Decidable (_ ∨ _))

def logBlocks (bs : Nat) (items : List Jbd2TxnBodyItem) : Nat :=
  runsBlocks (w.maxTagsPerDescriptor bs) (w.maxRevokeEntries bs) items + 1

structure Serves (dev : BlockDevice) : Prop where
  total : w.totalBlocks < 2 ^ 64
  blockSize : dev.blockSize < 2 ^ 32
  resolve : ∀ i < w.totalBlocks, ∃ block,
    resolveSegmentBlock w.segments w.totalBlocks i = .ok block ∧ dev.checkRange block = .ok ()

end Jbd2Writer

/-! ## Lengths -/

theorem length_padTo {size : Nat} {bytes : Bytes} (h : bytes.length ≤ size) :
    (padTo size bytes).length = size := by
  unfold padTo
  rw [List.length_append, List.length_replicate]
  omega

@[simp]
theorem length_encodeJbd2Header (blockType sequence : Nat) :
    (encodeJbd2Header blockType sequence).length = 12 := by simp [encodeJbd2Header]

theorem length_journaledBlock {bs : Nat} {payload : Bytes} (hbs : 4 ≤ bs) :
    (journaledBlock bs payload).length = bs := by
  have hlen : (padTo bs (payload.take (min payload.length bs))).length = bs :=
    length_padTo (by rw [List.length_take]; omega)
  unfold journaledBlock
  dsimp only
  split_ifs
  · rw [length_overwrite (by rw [hlen]; exact hbs), hlen]
  · exact hlen

namespace Jbd2Writer

variable (w : Jbd2Writer)

theorem length_encodeTag {sequence : Nat} {last : Bool} {target : Nat} {payload block tag : Bytes}
    (h : w.encodeTag sequence last target payload block = .ok tag) :
    tag.length = w.tagFormat.tagSize w.is64bit := by
  unfold encodeTag at h
  cases hf : w.tagFormat with
  | csumV3 =>
    simp only [hf] at h
    cases h
    simp [Jbd2TagFormat.tagSize]
  | legacy =>
    simp only [hf] at h
    split_ifs at h with h64 <;> cases h <;> simp [Jbd2TagFormat.tagSize, h64]
  | csumV2 =>
    simp only [hf] at h
    split_ifs at h with h64 <;> cases h <;> simp [Jbd2TagFormat.tagSize, h64]

theorem length_encodeTags {bs sequence : Nat} {chunk : List (Nat × Bytes)} {tags : Bytes}
    (h : w.encodeTags bs sequence chunk = .ok tags) :
    tags.length = chunk.length * w.tagFormat.tagSize w.is64bit := by
  induction chunk generalizing tags with
  | nil =>
    cases h
    simp
  | cons write rest ih =>
    obtain ⟨tag, htag, h⟩ := bind_ok.mp h
    obtain ⟨more, hmore, h⟩ := bind_ok.mp h
    cases h
    rw [List.length_append, w.length_encodeTag htag, ih hmore, List.length_cons, Nat.succ_mul,
      Nat.add_comm]

def tailChecksum (seed : BitVec 32) (covered : Bytes) : BitVec 32 :=
  ~~~ crc32cAppend (crc32cAppend (~~~ seed) covered) zeroChecksumField

end Jbd2Writer

/-! ## The chunks of the items -/

def Behind (isWrite : Bool) (left : List Jbd2TxnBodyItem) : Prop :=
  ∀ item ∈ left.head?, item.isWrite ≠ isWrite

theorem takeWrites_spec (n : Nat) (items : List Jbd2TxnBodyItem) :
    (Chunk.writes (takeWrites n items).1).items ++ (takeWrites n items).2 = items ∧
      (takeWrites n items).1.length ≤ n ∧
      ((takeWrites n items).1.length = n ∨ Behind true (takeWrites n items).2) := by
  fun_induction takeWrites n items with
  | case1 n target payload rest chunk left heq ih =>
    rw [heq] at ih
    exact ⟨congrArg _ ih.1, Nat.succ_le_succ ih.2.1, ih.2.2.imp_left (congrArg Nat.succ)⟩
  | case2 n items hother =>
    refine ⟨rfl, Nat.zero_le _, ?_⟩
    rcases n with _ | n
    · exact .inl rfl
    · rcases items with _ | ⟨_ | _, rest⟩
      · exact .inr (by simp [Behind])
      · exact absurd rfl (hother n _ _ _ rfl)
      · exact .inr (by simp [Behind, Jbd2TxnBodyItem.isWrite])

theorem takeRevokes_spec (n : Nat) (items : List Jbd2TxnBodyItem) :
    (Chunk.revokes (takeRevokes n items).1).items ++ (takeRevokes n items).2 = items ∧
      (takeRevokes n items).1.length ≤ n ∧
      ((takeRevokes n items).1.length = n ∨ Behind false (takeRevokes n items).2) := by
  fun_induction takeRevokes n items with
  | case1 n target rest chunk left heq ih =>
    rw [heq] at ih
    exact ⟨congrArg _ ih.1, Nat.succ_le_succ ih.2.1, ih.2.2.imp_left (congrArg Nat.succ)⟩
  | case2 n items hother =>
    refine ⟨rfl, Nat.zero_le _, ?_⟩
    rcases n with _ | n
    · exact .inl rfl
    · rcases items with _ | ⟨_ | _, rest⟩
      · exact .inr (by simp [Behind])
      · exact .inr (by simp [Behind, Jbd2TxnBodyItem.isWrite])
      · exact absurd rfl (hother n _ _ rfl)

theorem writeCount_append (items more : List Jbd2TxnBodyItem) :
    writeCount (items ++ more) = writeCount items + writeCount more := List.countP_append

theorem revokeCount_append (items more : List Jbd2TxnBodyItem) :
    revokeCount (items ++ more) = revokeCount items + revokeCount more := List.countP_append

def Chunk.Within (tags entries : Nat) : Chunk → Prop
  | .writes chunk => 0 < chunk.length ∧ chunk.length ≤ tags
  | .revokes targets => 0 < targets.length ∧ targets.length ≤ entries

def Chunk.isWrite : Chunk → Bool
  | .writes _ => true
  | .revokes _ => false

def Chunk.Full (tags entries : Nat) : Chunk → Prop
  | .writes chunk => chunk.length = tags
  | .revokes targets => targets.length = entries

theorem Chunk.isWrite_of_mem {chunk : Chunk} {item : Jbd2TxnBodyItem} (h : item ∈ chunk.items) :
    item.isWrite = chunk.isWrite := by
  cases chunk <;> obtain ⟨_, -, rfl⟩ := List.mem_map.mp h <;> rfl

section Runs

variable {tags entries : Nat}

theorem runsBlocks_append {kind : Bool} {run rest : List Jbd2TxnBodyItem}
    (hrun : ∀ item ∈ run, item.isWrite = kind) (hrest : Behind kind rest) :
    runsBlocks tags entries (run ++ rest) = runBlocks tags entries run + runsBlocks tags entries rest := by
  unfold runsBlocks runs
  by_cases hnil : run = []
  · simp [hnil, runBlocks, writeCount, revokeCount, divCeil_zero]
  have hchain : run.IsChain fun a b => (a.isWrite == b.isWrite) = true := by
    refine List.Pairwise.isChain (List.pairwise_of_forall_mem_list fun a ha b hb => ?_)
    rw [hrun a ha, hrun b hb, beq_self_eq_true]
  rw [List.splitBy_append, List.splitBy_of_isChain hnil hchain, List.singleton_append, List.map_cons,
    List.sum_cons]
  intro a ha b hb
  rw [hrun a (List.mem_of_mem_getLast? ha), beq_eq_false_iff_ne]
  exact (hrest b hb).symm

theorem runBlocks_chunk {chunk : Chunk} {run : List Jbd2TxnBodyItem}
    (hwithin : chunk.Within tags entries)
    (hclosed : chunk.Full tags entries ∨ run = []) :
    runBlocks tags entries (chunk.items ++ run) = chunk.size + runBlocks tags entries run := by
  unfold runBlocks
  rw [writeCount_append, revokeCount_append]
  cases chunk with
  | writes chunk =>
    have hwrites : writeCount (Chunk.writes chunk).items = chunk.length := by
      simp [writeCount, Chunk.items, List.countP_map, Function.comp_def]
    have hrevokes : revokeCount (Chunk.writes chunk).items = 0 := by
      simp [revokeCount, Chunk.items, List.countP_map, Function.comp_def]
    rw [hwrites, hrevokes, Nat.zero_add, Chunk.size,
      divCeil_add hwithin.1 hwithin.2 (hclosed.imp_right (congrArg writeCount))]
    omega
  | revokes targets =>
    have hwrites : writeCount (Chunk.revokes targets).items = 0 := by
      simp [writeCount, Chunk.items, List.countP_map, Function.comp_def]
    have hrevokes : revokeCount (Chunk.revokes targets).items = targets.length := by
      simp [revokeCount, Chunk.items, List.countP_map, Function.comp_def]
    rw [hwrites, hrevokes, Nat.zero_add, Chunk.size,
      divCeil_add hwithin.1 hwithin.2 (hclosed.imp_right (congrArg revokeCount))]
    omega

theorem runsBlocks_chunk {chunk : Chunk} {left : List Jbd2TxnBodyItem}
    (hwithin : chunk.Within tags entries)
    (hclosed : chunk.Full tags entries ∨ Behind chunk.isWrite left) :
    runsBlocks tags entries (chunk.items ++ left) = chunk.size + runsBlocks tags entries left := by
  -- what is left of the chunk's run, and the items behind the run
  obtain ⟨run, rest, rfl, hrun, hrest⟩ : ∃ run rest, left = run ++ rest ∧
      (∀ item ∈ run, item.isWrite = chunk.isWrite) ∧ Behind chunk.isWrite rest := by
    refine ⟨_, _, (List.takeWhile_append_dropWhile (p := fun item => item.isWrite == chunk.isWrite)
      (l := left)).symm, fun item hitem => ?_, fun item hitem => ?_⟩
    · exact beq_iff_eq.mp (List.all_eq_true.mp List.all_takeWhile item hitem)
    · have := List.head?_dropWhile_not (fun item => item.isWrite == chunk.isWrite) left
      rw [Option.mem_def.mp hitem] at this
      exact beq_eq_false_iff_ne.mp this
  have hnone : Behind chunk.isWrite (run ++ rest) → run = [] := by
    intro hbehind
    rcases run with _ | ⟨item, run⟩
    · rfl
    · exact absurd (hrun item List.mem_cons_self) (hbehind item rfl)
  have hitems : ∀ item ∈ chunk.items ++ run, item.isWrite = chunk.isWrite := fun item hitem =>
    (List.mem_append.mp hitem).elim Chunk.isWrite_of_mem (hrun item)
  rw [← List.append_assoc, runsBlocks_append hitems hrest, runsBlocks_append hrun hrest,
    runBlocks_chunk hwithin (hclosed.imp_right hnone), Nat.add_assoc]

end Runs

theorem chunkItems_spec {tags entries fuel : Nat} {items : List Jbd2TxnBodyItem}
    (hfuel : items.length ≤ fuel) (htags : 0 < writeCount items → tags ≠ 0)
    (hentries : 0 < revokeCount items → entries ≠ 0) :
    (chunkItems tags entries fuel items).flatMap Chunk.items = items ∧
      (∀ chunk ∈ chunkItems tags entries fuel items, chunk.Within tags entries) ∧
      ((chunkItems tags entries fuel items).map Chunk.size).sum = runsBlocks tags entries items := by
  fun_induction chunkItems tags entries fuel items with
  | case1 => exact ⟨rfl, by simp, rfl⟩
  | case2 items hne => exact absurd (List.length_eq_zero_iff.mp (Nat.le_zero.mp hfuel)) hne
  | case3 fuel target payload rest chunk left heq ih =>
    obtain ⟨n, rfl⟩ := Nat.exists_eq_succ_of_ne_zero (htags (by simp [writeCount]))
    obtain ⟨hcut, hlen, hclosed⟩ := takeWrites_spec (n + 1) (.write target payload :: rest)
    rw [heq] at hcut hlen hclosed
    dsimp only at hcut hlen hclosed
    have hchunk : 0 < chunk.length := by
      rw [takeWrites] at heq
      rw [← (Prod.mk.inj heq).1]
      exact Nat.succ_pos _
    have hfits : (Chunk.writes chunk).Within (n + 1) entries := ⟨hchunk, hlen⟩
    have hshort : left.length ≤ fuel := by
      have := congrArg List.length hcut
      rw [List.length_append, Chunk.items, List.length_map] at this
      omega
    rw [← hcut, revokeCount_append] at hentries
    obtain ⟨hflat, hwithin, hsum⟩ := ih hshort (fun _ => Nat.succ_ne_zero n)
      (fun hpos => hentries (by omega))
    rw [List.flatMap_cons, hflat]
    refine ⟨hcut, fun c hc => ?_, ?_⟩
    · rcases List.mem_cons.mp hc with rfl | hc
      · exact hfits
      · exact hwithin c hc
    · rw [List.map_cons, List.sum_cons, hsum, ← hcut]
      exact (runsBlocks_chunk hfits hclosed).symm
  | case4 fuel target rest chunk left heq ih =>
    obtain ⟨n, rfl⟩ := Nat.exists_eq_succ_of_ne_zero (hentries (by simp [revokeCount]))
    obtain ⟨hcut, hlen, hclosed⟩ := takeRevokes_spec (n + 1) (.revoke target :: rest)
    rw [heq] at hcut hlen hclosed
    dsimp only at hcut hlen hclosed
    have hchunk : 0 < chunk.length := by
      rw [takeRevokes] at heq
      rw [← (Prod.mk.inj heq).1]
      exact Nat.succ_pos _
    have hfits : (Chunk.revokes chunk).Within tags (n + 1) := ⟨hchunk, hlen⟩
    have hshort : left.length ≤ fuel := by
      have := congrArg List.length hcut
      rw [List.length_append, Chunk.items, List.length_map] at this
      omega
    rw [← hcut, writeCount_append] at htags
    obtain ⟨hflat, hwithin, hsum⟩ := ih hshort (fun hpos => htags (by omega))
      (fun _ => Nat.succ_ne_zero n)
    rw [List.flatMap_cons, hflat]
    refine ⟨hcut, fun c hc => ?_, ?_⟩
    · rcases List.mem_cons.mp hc with rfl | hc
      · exact hfits
      · exact hwithin c hc
    · rw [List.map_cons, List.sum_cons, hsum, ← hcut]
      exact (runsBlocks_chunk hfits hclosed).symm

/-! ## Encoding -/

namespace Jbd2Writer

variable {w : Jbd2Writer}

theorem exists_ite_ok {c : Prop} [Decidable c] {α : Type} (a : α) (e : FfsError) :
    (∃ x, (if c then Except.ok a else .error e) = .ok x) ↔ c := by
  by_cases hc : c <;> simp [hc]

theorem encodeTag_ok_iff {sequence target : Nat} {last : Bool} {payload block : Bytes} :
    (∃ tag, w.encodeTag sequence last target payload block = .ok tag) ↔
      w.TargetFits (.write target payload) := by
  unfold encodeTag TargetFits
  cases hf : w.tagFormat with
  | csumV3 => simp
  | legacy => by_cases h64 : w.is64bit = true <;> simp [h64, exists_ite_ok]
  | csumV2 => by_cases h64 : w.is64bit = true <;> simp [h64, exists_ite_ok]

theorem encodeTags_ok_iff {bs sequence : Nat} {chunk : List (Nat × Bytes)} :
    (∃ tags, w.encodeTags bs sequence chunk = .ok tags) ↔
      ∀ item ∈ (Chunk.writes chunk).items, w.TargetFits item := by
  induction chunk with
  | nil => simp [encodeTags, Chunk.items]
  | cons write rest ih =>
    rw [show (Chunk.writes (write :: rest)).items =
      .write write.1 write.2 :: (Chunk.writes rest).items from rfl, List.forall_mem_cons, ← ih]
    constructor
    · rintro ⟨tags, h⟩
      obtain ⟨tag, htag, h⟩ := bind_ok.mp h
      obtain ⟨more, hmore, -⟩ := bind_ok.mp h
      exact ⟨encodeTag_ok_iff.mp ⟨tag, htag⟩, more, hmore⟩
    · rintro ⟨hfirst, more, hmore⟩
      obtain ⟨tag, htag⟩ := encodeTag_ok_iff.mpr hfirst
      refine ⟨tag ++ more, ?_⟩
      rw [encodeTags, htag, ok_bind, hmore]
      rfl

theorem encodeRevokeEntry_ok_iff {target : Nat} :
    (∃ entry, w.encodeRevokeEntry target = .ok entry) ↔ w.TargetFits (.revoke target) := by
  unfold encodeRevokeEntry TargetFits
  by_cases h64 : w.is64bit = true <;> simp [h64, exists_ite_ok]

theorem length_encodeRevokeEntry {target : Nat} {entry : Bytes}
    (h : w.encodeRevokeEntry target = .ok entry) : entry.length = revokeEntrySize w.is64bit := by
  unfold encodeRevokeEntry at h
  unfold revokeEntrySize
  split_ifs at h ⊢ <;> cases h <;> simp

theorem stampTail_ok {block : Bytes} (h : w.hasChecksum = true → 4 ≤ block.length) :
    ∃ stamped, w.stampTail block = .ok stamped ∧ stamped.length = block.length := by
  unfold stampTail
  cases hc : w.hasChecksum with
  | false => exact ⟨block, rfl, rfl⟩
  | true =>
    have hlen := h hc
    have hcheck : checksumJbd2TailZeroedBlock block w.csumSeed =
        some (tailChecksum w.csumSeed (block.take (block.length - 4))) := by
      unfold checksumJbd2TailZeroedBlock jbd2ChecksumTailSize
      rw [guard, if_pos hlen]
      rfl
    rw [if_pos rfl, hcheck]
    refine ⟨_, rfl, length_overwrite ?_⟩
    rw [length_toBe]
    unfold jbd2ChecksumTailSize
    omega

structure RoomFor (w : Jbd2Writer) (bs : Nat) : Prop where
  size : bs < 2 ^ 32
  header : jbd2HeaderSize ≤ bs
  checksum : w.hasChecksum = true → jbd2CommitChksumOffset + jbd2ChecksumTailSize ≤ bs

theorem RoomFor.tail {bs : Nat} (h : w.RoomFor bs) {block : Bytes} (hlen : block.length = bs)
    (hc : w.hasChecksum = true) : 4 ≤ block.length := by
  have := h.checksum hc
  unfold jbd2CommitChksumOffset jbd2ChecksumTailSize at this
  omega

theorem encodeDescriptor_ok {bs : Nat} (sequence : Nat) {chunk : List (Nat × Bytes)}
    (h : w.RoomFor bs) (hchunk : chunk.length ≤ w.maxTagsPerDescriptor bs)
    (hfits : ∀ item ∈ (Chunk.writes chunk).items, w.TargetFits item) :
    ∃ desc, w.encodeDescriptor bs sequence chunk = .ok desc ∧ desc.length = bs := by
  obtain ⟨tags, htags⟩ := (@encodeTags_ok_iff w bs sequence chunk).mpr hfits
  have hfront : (encodeJbd2Header jbd2BlocktypeDescriptor sequence ++ tags).length ≤ bs := by
    have hbs := h.header
    have hroom := Nat.mul_le_of_le_div _ _ _ hchunk
    unfold jbd2HeaderSize at hbs hroom
    rw [List.length_append, length_encodeJbd2Header, w.length_encodeTags htags]
    omega
  have hpadded := length_padTo hfront
  obtain ⟨desc, hdesc, hlen⟩ := stampTail_ok (h.tail hpadded)
  refine ⟨desc, ?_, hlen.trans hpadded⟩
  unfold encodeDescriptor
  rw [htags, ok_bind, hdesc]

theorem length_entries {targets : List Nat} {entries : List Bytes}
    (h : targets.mapM w.encodeRevokeEntry = .ok entries) :
    entries.flatten.length = targets.length * revokeEntrySize w.is64bit := by
  induction mapM_eq_ok.mp h with
  | nil => simp
  | cons hfirst hrest ih =>
    rw [List.flatten_cons, List.length_append, length_encodeRevokeEntry hfirst,
      ih (mapM_eq_ok.mpr hrest), List.length_cons, Nat.succ_mul, Nat.add_comm]

theorem encodeRevoke_ok {bs : Nat} (sequence : Nat) {targets : List Nat} (h : w.RoomFor bs)
    (hpos : 0 < targets.length) (htargets : targets.length ≤ w.maxRevokeEntries bs)
    (hfits : ∀ item ∈ (Chunk.revokes targets).items, w.TargetFits item) :
    ∃ revoke, w.encodeRevoke bs sequence targets = .ok revoke ∧ revoke.length = bs := by
  have hsize : 0 < revokeEntrySize w.is64bit := by
    unfold revokeEntrySize
    split_ifs <;> decide
  have hroom := Nat.mul_le_of_le_div _ _ _ htargets
  have hmul := Nat.le_mul_of_pos_right targets.length hsize
  have hbs := h.size
  unfold jbd2RevokeHeaderSize at hroom
  have hcount : ¬ 2 ^ 32 ≤ jbd2RevokeHeaderSize + targets.length * revokeEntrySize w.is64bit := by
    unfold jbd2RevokeHeaderSize
    omega
  obtain ⟨entries, hentries⟩ := exists_mapM_ok fun target htarget =>
    encodeRevokeEntry_ok_iff.mpr (hfits _ (List.mem_map_of_mem htarget))
  have hfront : (encodeJbd2Header jbd2BlocktypeRevoke sequence ++ (toBe 4 (jbd2RevokeHeaderSize +
      targets.length * revokeEntrySize w.is64bit) ++ entries.flatten)).length ≤ bs := by
    rw [List.length_append, length_encodeJbd2Header, List.length_append, length_toBe,
      length_entries hentries]
    omega
  have hpadded := length_padTo hfront
  obtain ⟨revoke, hrevoke, hlen⟩ := stampTail_ok (h.tail hpadded)
  refine ⟨revoke, ?_, hlen.trans hpadded⟩
  unfold encodeRevoke
  dsimp only
  rw [failIf_of_not hcount, ok_bind, hentries, ok_bind, hrevoke]

theorem encodeCommit_ok {bs : Nat} (sequence : Nat) (h : w.RoomFor bs) :
    ∃ commit, w.encodeCommit bs sequence = .ok commit ∧ commit.length = bs := by
  have hlen : (padTo bs (encodeJbd2Header jbd2BlocktypeCommit sequence)).length = bs :=
    length_padTo (by rw [length_encodeJbd2Header]; exact h.header)
  unfold encodeCommit
  dsimp only
  cases hc : w.hasChecksum with
  | false => exact ⟨_, rfl, hlen⟩
  | true =>
    have hroom := h.checksum hc
    have hzeroed : (overwrite jbd2CommitChksumOffset (toBe 4 0)
        (padTo bs (encodeJbd2Header jbd2BlocktypeCommit sequence))).length = bs := by
      rw [length_overwrite (by rw [length_toBe, hlen]; exact hroom), hlen]
    rw [if_pos rfl, if_neg (by rw [hlen]; exact Nat.not_lt.mpr hroom)]
    exact ⟨_, rfl, by rw [length_overwrite (by rw [length_toBe, hzeroed]; exact hroom), hzeroed]⟩

theorem chunkBlocks_ok {bs : Nat} (sequence : Nat) {chunk : Chunk} (h : w.RoomFor bs)
    (hchunk : chunk.Within (w.maxTagsPerDescriptor bs) (w.maxRevokeEntries bs))
    (hfits : ∀ item ∈ chunk.items, w.TargetFits item) :
    ∃ blocks, w.chunkBlocks bs sequence chunk = .ok blocks ∧
      ∀ block ∈ blocks, block.length = bs := by
  cases chunk with
  | writes chunk =>
    obtain ⟨desc, hdesc, hlen⟩ := encodeDescriptor_ok sequence h hchunk.2 hfits
    refine ⟨desc :: chunk.map fun write => journaledBlock bs write.2, ?_, fun block hblock => ?_⟩
    · rw [chunkBlocks, hdesc]
      rfl
    · rcases List.mem_cons.mp hblock with rfl | hblock
      · exact hlen
      · obtain ⟨write, -, rfl⟩ := List.mem_map.mp hblock
        have hheader := h.header
        unfold jbd2HeaderSize at hheader
        exact length_journaledBlock (by omega)
  | revokes targets =>
    obtain ⟨revoke, hrevoke, hlen⟩ := encodeRevoke_ok sequence h hchunk.1 hchunk.2 hfits
    refine ⟨[revoke], ?_, fun block hblock => ?_⟩
    · rw [chunkBlocks, hrevoke]
      rfl
    · rw [List.mem_singleton.mp hblock]
      exact hlen

theorem chunkBlocks_spec {bs sequence : Nat} {chunk : Chunk} {blocks : List Bytes}
    (h : w.chunkBlocks bs sequence chunk = .ok blocks) :
    blocks.length = chunk.size ∧ ∀ item ∈ chunk.items, w.TargetFits item := by
  cases chunk with
  | writes chunk =>
    obtain ⟨desc, hdesc, h⟩ := bind_ok.mp h
    obtain ⟨tags, htags, -⟩ := bind_ok.mp hdesc
    cases h
    exact ⟨by simp [Chunk.size], encodeTags_ok_iff.mp ⟨tags, htags⟩⟩
  | revokes targets =>
    obtain ⟨revoke, hrevoke, h⟩ := bind_ok.mp h
    obtain ⟨_, -, hrevoke⟩ := bind_ok.mp hrevoke
    obtain ⟨entries, hentries, -⟩ := bind_ok.mp hrevoke
    cases h
    refine ⟨rfl, fun item hitem => ?_⟩
    obtain ⟨target, htarget, rfl⟩ := List.mem_map.mp hitem
    exact encodeRevokeEntry_ok_iff.mp (exists_of_mapM_ok hentries htarget)

end Jbd2Writer

/-! ## The run of a commit -/

structure Machine.Kept (s s' : Machine) : Prop where
  writer : s'.writer = s.writer
  blockSize : s'.dev.blockSize = s.dev.blockSize
  lenBytes : s'.dev.lenBytes = s.dev.lenBytes

section Run

variable {w : Jbd2Writer} {s : Machine}

theorem Machine.Kept.refl (s : Machine) : s.Kept s := ⟨rfl, rfl, rfl⟩

theorem Machine.Kept.trans {s s₁ s₂ : Machine} (h : s.Kept s₁) (h' : s₁.Kept s₂) : s.Kept s₂ :=
  ⟨h'.writer.trans h.writer, h'.blockSize.trans h.blockSize, h'.lenBytes.trans h.lenBytes⟩

theorem Machine.Kept.checkRange {s s' : Machine} (h : s.Kept s') (block : Nat) :
    s'.dev.checkRange block = s.dev.checkRange block := by
  unfold BlockDevice.checkRange
  rw [h.blockSize, h.lenBytes]

theorem Machine.Kept.serves {s s' : Machine} (h : s.Kept s') (hserves : w.Serves s.dev) :
    w.Serves s'.dev where
  total := hserves.total
  blockSize := h.blockSize ▸ hserves.blockSize
  resolve i hi := by
    obtain ⟨block, hblock, hrange⟩ := hserves.resolve i hi
    exact ⟨block, hblock, (h.checkRange block).trans hrange⟩

def InRange (dev : BlockDevice) (writes : List (Nat × Bytes)) : Prop :=
  ∀ write ∈ writes, dev.checkRange write.1 = .ok () ∧ write.2.length = dev.blockSize

theorem ensures_devWrite_kept {block : Nat} {data : Bytes} (hrange : s.dev.checkRange block = .ok ())
    (hlen : data.length = s.dev.blockSize) :
    Ensures (devWrite block data) s (fun _ s' => s.Kept s') (fun _ _ => False) := by
  have hcheck : s.dev.checkWrite block data = .ok () := by
    unfold BlockDevice.checkWrite
    rw [failIf_of_not (not_not_intro hlen), ok_bind]
    exact hrange
  unfold Ensures devWrite
  rw [hcheck]
  exact ⟨rfl, rfl, rfl⟩

theorem ensures_devSync_kept : Ensures devSync s (fun _ s' => s.Kept s') (fun _ _ => False) :=
  ⟨rfl, rfl, rfl⟩

theorem ensures_devWriteAll_kept {writes : List (Nat × Bytes)} (h : InRange s.dev writes) :
    Ensures (devWriteAll writes) s (fun _ s' => s.Kept s') (fun _ _ => False) := by
  induction writes generalizing s with
  | nil => exact .refl s
  | cons write rest ih =>
    obtain ⟨hfirst, hrest⟩ := List.forall_mem_cons.mp h
    refine (ensures_devWrite_kept hfirst.1 hfirst.2).bind fun _ s₁ hkept => ?_
    have hrest : InRange s₁.dev rest := fun write hwrite =>
      ⟨(hkept.checkRange _).trans (hrest write hwrite).1,
        (hrest write hwrite).2.trans hkept.blockSize.symm⟩
    exact (ih hrest).mono (fun _ _ h' => hkept.trans h') fun _ _ hf => hf

theorem allocBlock_spec {dev : BlockDevice} (h : w.Serves dev) (head : Nat) :
    match w.allocBlock head with
    | .ok (block, head') => head' = head + 1 ∧ dev.checkRange block = .ok ()
    | .error _ => w.totalBlocks < head + 1 := by
  unfold Jbd2Writer.allocBlock
  by_cases hroom : w.totalBlocks ≤ head
  · rw [failIf, if_pos hroom]
    exact Nat.lt_succ_of_le hroom
  · obtain ⟨block, hblock, hrange⟩ := h.resolve head (Nat.lt_of_not_le hroom)
    have htotal := h.total
    rw [failIf_of_not hroom, ok_bind, hblock, ok_bind, satAdd_eq (by omega)]
    exact ⟨rfl, hrange⟩

theorem allocFor_spec {dev : BlockDevice} (h : w.Serves dev) {blocks : List Bytes} {head : Nat}
    (hblocks : ∀ block ∈ blocks, block.length = dev.blockSize) :
    match w.allocFor blocks head with
    | .ok (writes, head') => head' = head + blocks.length ∧ InRange dev writes
    | .error _ => w.totalBlocks < head + blocks.length := by
  induction blocks generalizing head with
  | nil => exact ⟨rfl, by simp [InRange]⟩
  | cons data rest ih =>
    obtain ⟨hdata, hrest⟩ := List.forall_mem_cons.mp hblocks
    have hfirst := allocBlock_spec h head
    rw [Jbd2Writer.allocFor, List.length_cons]
    cases halloc : w.allocBlock head with
    | error e =>
      rw [halloc] at hfirst
      exact Nat.lt_of_lt_of_le hfirst (by omega)
    | ok first =>
      obtain ⟨block, head'⟩ := first
      rw [halloc] at hfirst
      obtain ⟨rfl, hrange⟩ := hfirst
      have ih := @ih (head + 1) hrest
      rw [ok_bind]
      dsimp only
      cases hmore : w.allocFor rest (head + 1) with
      | error e =>
        rw [hmore] at ih
        exact Nat.lt_of_lt_of_le ih (by omega)
      | ok result =>
        rw [hmore] at ih
        exact ⟨ih.1.trans (by omega), List.forall_mem_cons.mpr ⟨⟨hrange, hdata⟩, ih.2⟩⟩

theorem ensures_writeChunk {bs sequence head : Nat} {chunk : Chunk} (h : w.Serves s.dev)
    (hroom : w.RoomFor bs) (hbs : s.dev.blockSize = bs)
    (hchunk : chunk.Within (w.maxTagsPerDescriptor bs) (w.maxRevokeEntries bs)) :
    Ensures (w.writeChunk bs sequence chunk head) s
      (fun head' s' => head' = head + chunk.size ∧ s.Kept s' ∧ ∀ item ∈ chunk.items, w.TargetFits item)
      (fun _ s' => s.Kept s' ∧ ¬ ((∀ item ∈ chunk.items, w.TargetFits item) ∧
        head + chunk.size ≤ w.totalBlocks)) := by
  rw [Jbd2Writer.writeChunk, ensures_bind]
  refine ensures_ofExcept (fun blocks hblocks => ?_) fun e he => ?_
  · obtain ⟨hsize, hfits⟩ := Jbd2Writer.chunkBlocks_spec hblocks
    obtain ⟨blocks', hblocks', hlen⟩ := Jbd2Writer.chunkBlocks_ok sequence hroom hchunk hfits
    obtain rfl : blocks = blocks' := Except.ok.inj (hblocks.symm.trans hblocks')
    have hspec := @allocFor_spec w s.dev h blocks head fun block hblock =>
      (hlen block hblock).trans hbs.symm
    rw [ensures_bind]
    refine ensures_ofExcept (fun alloc halloc => ?_) fun e he => ?_
    · rw [halloc] at hspec
      obtain ⟨hhead, hrange⟩ := hspec
      refine ((ensures_devWriteAll_kept hrange).mono (fun _ _ hk => hk) fun _ _ hf => hf.elim).bind
        fun _ s' hkept => ?_
      exact ⟨by rw [hhead, hsize], hkept, hfits⟩
    · rw [he] at hspec
      exact ⟨.refl s, fun hall => by rw [← hsize] at hall; exact absurd hall.2 (Nat.not_le.mpr hspec)⟩
  · refine ⟨.refl s, fun hall => ?_⟩
    obtain ⟨blocks, hblocks, -⟩ := Jbd2Writer.chunkBlocks_ok sequence hroom hchunk hall.1
    rw [he] at hblocks
    cases hblocks

theorem ensures_writeChunks_iff {bs sequence head : Nat} {chunks : List Chunk}
    (h : w.Serves s.dev) (hroom : w.RoomFor bs) (hbs : s.dev.blockSize = bs)
    (hchunks : ∀ chunk ∈ chunks,
      chunk.Within (w.maxTagsPerDescriptor bs) (w.maxRevokeEntries bs)) :
    Ensures (w.writeChunks bs sequence chunks head) s
      (fun head' s' => head' = head + (chunks.map Chunk.size).sum ∧ s.Kept s' ∧
        ∀ item ∈ chunks.flatMap Chunk.items, w.TargetFits item)
      (fun _ s' => s.Kept s' ∧ ¬ ((∀ item ∈ chunks.flatMap Chunk.items, w.TargetFits item) ∧
        head + (chunks.map Chunk.size).sum ≤ w.totalBlocks)) := by
  induction chunks generalizing s head with
  | nil => exact ⟨rfl, .refl s, by simp⟩
  | cons chunk rest ih =>
    obtain ⟨hchunk, hrest⟩ := List.forall_mem_cons.mp hchunks
    rw [List.flatMap_cons, List.forall_mem_append, List.map_cons, List.sum_cons,
      Jbd2Writer.writeChunks]
    refine ((ensures_writeChunk h hroom hbs hchunk).mono (fun _ _ hQ => hQ) ?_).bind ?_
    · rintro _ s' ⟨hkept, hnot⟩
      exact ⟨hkept, fun hall => hnot ⟨hall.1.1, by omega⟩⟩
    · rintro head' s₁ ⟨rfl, hkept, hfits⟩
      refine (ih (hkept.serves h) (hkept.blockSize.trans hbs) hrest).mono ?_ ?_
      · rintro head' s' ⟨rfl, hkept', hmore⟩
        exact ⟨Nat.add_assoc .., hkept.trans hkept', hfits, hmore⟩
      · rintro _ s' ⟨hkept', hnot⟩
        exact ⟨hkept.trans hkept', fun hall => hnot ⟨hall.1.2, by omega⟩⟩

structure Admitted (w : Jbd2Writer) (bs : Nat) (items : List Jbd2TxnBodyItem) : Prop where
  header : jbd2HeaderSize ≤ bs
  checksum : w.hasChecksum = true → jbd2CommitChksumOffset + jbd2ChecksumTailSize ≤ bs
  tags : 0 < writeCount items → w.maxTagsPerDescriptor bs ≠ 0
  entries : 0 < revokeCount items → w.maxRevokeEntries bs ≠ 0
  space : w.blocksNeeded bs (writeCount items) (revokeCount items) ≤ w.freeBlocks

theorem preflightTransaction_ok {bs : Nat} {items : List Jbd2TxnBodyItem}
    (h : preflightTransaction w bs items = .ok ()) : Admitted w bs items := by
  obtain ⟨_, -, h⟩ := bind_ok.mp h
  obtain ⟨_, hheader, h⟩ := bind_ok.mp h
  obtain ⟨_, hchecksum, h⟩ := bind_ok.mp h
  obtain ⟨_, htags, h⟩ := bind_ok.mp h
  obtain ⟨_, hentries, h⟩ := bind_ok.mp h
  refine ⟨Nat.le_of_not_lt (failIf_ok.mp hheader), fun hc => ?_, fun hpos hzero => ?_,
    fun hpos hzero => ?_, ?_⟩
  · exact Nat.le_of_not_lt fun hlt => failIf_ok.mp hchecksum ⟨hc, hlt⟩
  · exact failIf_ok.mp htags ⟨hpos, hzero⟩
  · exact failIf_ok.mp hentries ⟨hpos, hzero⟩
  · cases hover : oversized bs items with
    | some found => simp [hover] at h
    | none =>
      rw [hover] at h
      exact Nat.le_of_not_lt (failIf_ok.mp h)

def Machine.armed (s : Machine) : Machine :=
  { s with writer := { s.writer with nextSeq := (s.writer.nextSeq + 1) % seqModulus, aborted := true } }

theorem ensures_commitTransaction_iff {items : List Jbd2TxnBodyItem} (h : s.writer.Serves s.dev)
    (hpre : preflightTransaction s.writer s.dev.blockSize items = .ok ()) :
    Ensures (commitTransaction items) s
      (fun _ s' => s'.writer.head = s.writer.head + s.writer.logBlocks s.dev.blockSize items ∧
        s'.writer.aborted = false ∧ ∀ item ∈ items, s.writer.TargetFits item)
      (fun _ s' => s'.writer.aborted = true ∧
        ¬ ((∀ item ∈ items, s.writer.TargetFits item) ∧
          s.writer.head + s.writer.logBlocks s.dev.blockSize items ≤ s.writer.totalBlocks)) := by
  have hadmitted := preflightTransaction_ok hpre
  have hroom : s.writer.RoomFor s.dev.blockSize :=
    ⟨h.blockSize, hadmitted.header, hadmitted.checksum⟩
  obtain ⟨hflat, hwithin, hsum⟩ := chunkItems_spec (Nat.le_refl items.length) hadmitted.tags
    hadmitted.entries
  unfold commitTransaction
  rw [ensures_get_bind, ensures_bind, hpre]
  show Ensures (setWriter _ >>= _) s _ _
  rw [ensures_bind]
  show Ensures (s.writer.writeChunks _ _ _ _ >>= _) s.armed _ _
  unfold Jbd2Writer.logBlocks
  rw [← hsum]
  have hserves : s.writer.Serves s.armed.dev := h
  refine ((ensures_writeChunks_iff hserves hroom rfl hwithin).mono (fun _ _ hQ => hQ) ?_).bind ?_
  · rintro _ s' ⟨hkept, hnot⟩
    rw [hflat] at hnot
    exact ⟨congrArg Jbd2Writer.aborted hkept.writer, fun hall => hnot ⟨hall.1, by omega⟩⟩
  · rintro head s₁ ⟨rfl, hkept, hfits⟩
    rw [hflat] at hfits
    obtain ⟨commit, hcommit, hlen⟩ := Jbd2Writer.encodeCommit_ok s.writer.nextSeq hroom
    refine (ensures_devSync_kept.mono (fun _ _ hQ => hQ) fun _ _ hf => hf.elim).bind
      fun _ s₂ hkept' => ?_
    replace hkept := hkept.trans hkept'
    rw [hcommit]
    show Ensures (liftExcept (s.writer.allocBlock _) >>= _) s₂ _ _
    have hspec := allocBlock_spec (hkept.serves hserves) (s.writer.head + (List.map Chunk.size
      (chunkItems (s.writer.maxTagsPerDescriptor s.dev.blockSize)
        (s.writer.maxRevokeEntries s.dev.blockSize) items.length items)).sum)
    rw [ensures_bind]
    refine ensures_ofExcept (fun alloc halloc => ?_) fun e he => ?_
    · obtain ⟨block, head'⟩ := alloc
      rw [halloc] at hspec
      refine ((ensures_devWrite_kept hspec.2 (hlen.trans hkept.blockSize.symm)).mono
        (fun _ _ hQ => hQ) fun _ _ hf => hf.elim).bind fun _ s₃ _ => ?_
      exact ⟨hspec.1, rfl, hfits⟩
    · rw [he] at hspec
      exact ⟨congrArg Jbd2Writer.aborted hkept.writer,
        fun hall => absurd hall.2 (Nat.not_le.mpr hspec)⟩

/-- **When admission is sufficient.** A transaction that was admitted gets through on a device that
does not fail, with no more blocks than were counted, if and only if its targets fit and its runs of
writes and of revokes, each rounded up to whole blocks, need no more than were counted. -/
theorem preflight_sufficient_iff {items : List Jbd2TxnBodyItem} (h : s.writer.Serves s.dev)
    (hpre : preflightTransaction s.writer s.dev.blockSize items = .ok ()) :
    (∃ seq s', commitTransaction items s = .ok seq s' ∧
        s'.writer.head ≤ s.writer.head + s.writer.blocksNeeded s.dev.blockSize
          (writeCount items) (revokeCount items) ∧
        s'.writer.aborted = false) ↔
      (∀ item ∈ items, s.writer.TargetFits item) ∧
        s.writer.logBlocks s.dev.blockSize items ≤
          s.writer.blocksNeeded s.dev.blockSize (writeCount items) (revokeCount items) := by
  have hrun := ensures_commitTransaction_iff h hpre
  have hspace := (preflightTransaction_ok hpre).space
  unfold Jbd2Writer.freeBlocks at hspace
  constructor
  · rintro ⟨seq, s', hok, hhead, -⟩
    obtain ⟨hhead', -, hfits⟩ := hrun.ok hok
    exact ⟨hfits, by omega⟩
  · rintro ⟨hfits, hblocks⟩
    cases hresult : commitTransaction items s with
    | ok seq s' =>
      obtain ⟨hhead, haborted, -⟩ := hrun.ok hresult
      exact ⟨seq, s', rfl, by omega, haborted⟩
    | error e s' =>
      have hpos : 0 < s.writer.logBlocks s.dev.blockSize items := Nat.succ_pos _
      exact absurd ⟨hfits, by omega⟩ (hrun.error hresult).2

end Run

section Samples

def sixBlocks : Machine where
  dev := ⟨64, 1024, fun _ => List.replicate 64 0⟩
  writer := ⟨[⟨0, 6⟩], 6, 1, 1, 1, false, false, .legacy, false, 0⟩
  ops := []
  failed := false

theorem sixBlocks_serves : sixBlocks.writer.Serves sixBlocks.dev where
  total := by decide
  blockSize := by decide
  resolve i hi := by
    have hall : ∀ i < 6, resolveSegmentBlock sixBlocks.writer.segments 6 i = .ok i ∧
        sixBlocks.dev.checkRange i = .ok () := by decide
    exact ⟨i, hall i hi⟩

theorem preflight_sufficient_sixBlocks :
    ∃ seq s', commitTransaction [.write 9 [1], .revoke 5] sixBlocks = .ok seq s' ∧
      s'.writer.head ≤ sixBlocks.writer.head + 4 ∧ s'.writer.aborted = false :=
  (preflight_sufficient_iff sixBlocks_serves (by decide)).mpr (by decide)

def failure : EStateM.Result FfsError Machine Nat → Option (FfsError × Bool)
  | .ok _ _ => none
  | .error e s => some (e, s.writer.aborted)

/-- A revoke between two writes takes one descriptor more than was counted. And a target behind
2³² does not fit the tags, which is seen only after the writer was armed. -/
theorem preflight_not_sufficient :
    preflightTransaction sixBlocks.writer sixBlocks.dev.blockSize
        [.write 9 [1], .revoke 5, .write 10 [2]] = .ok () ∧
      failure (commitTransaction [.write 9 [1], .revoke 5, .write 10 [2]] sixBlocks) =
        some (.noSpace, true) ∧
      preflightTransaction sixBlocks.writer sixBlocks.dev.blockSize [.write (2 ^ 32) [1]] = .ok () ∧
      failure (commitTransaction [.write (2 ^ 32) [1]] sixBlocks) =
        some (.format "target block 4294967296 exceeds u32 range", true) := by
  decide +kernel

end Samples

end FrankenFs.Journal
