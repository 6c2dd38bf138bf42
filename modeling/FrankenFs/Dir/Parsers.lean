import FrankenFs.Dir.Records

/-!
# The parsers of a directory block

`parse_dir_block` and `lookup_in_dir_block` walk the records with a callback, `DirBlockIter` gives
them one at a time. They test the special records in different orders.
-/

namespace FrankenFs.Dir

open FrankenFs.Lib

def Ext4FileType.fromRaw (val : Nat) : Ext4FileType :=
  if val = 1 then .regFile
  else if val = 2 then .dir
  else if val = 3 then .chrdev
  else if val = 4 then .blkdev
  else if val = 5 then .fifo
  else if val = 6 then .sock
  else if val = 7 then .symlink
  else .unknown

structure Ext4DirEntry where
  inode : Nat
  recLen : Nat
  nameLen : Nat
  fileType : Ext4FileType
  name : Bytes
deriving DecidableEq, Repr

structure Ext4DirEntryTail where
  checksum : Nat
deriving DecidableEq, Repr

def recLenFromDisk (raw blockSize : Nat) : Nat :=
  if raw = 0xFFFC ∨ raw = 0 then blockSize else raw &&& 0xFFFC ||| (raw &&& 3) <<< 16

def allZeroBytes (bytes : Bytes) : Bool := bytes.all (· == 0)

def validateDirBlockSliceLen (block : Bytes) (blockSize : Nat) : Except ParseError Unit := do
  failIf (blockSize = 0) (.invalidField "block_size" "block_size must be non-zero")
  failIf (blockSize < block.length)
    (.invalidField "dir_block" "directory block slice exceeds declared block_size")

/-! ## Headers -/

structure DirEntryHeader where
  inode : Nat
  recLen : Nat
  nameLen : Nat
  fileTypeRaw : Nat
  long : 12 ≤ recLen

namespace DirEntryHeader

def isChecksumTail (header : DirEntryHeader) : Prop :=
  header.inode = 0 ∧ header.nameLen = 0 ∧ header.fileTypeRaw = 0xDE ∧ header.recLen = 12

instance (header : DirEntryHeader) : Decidable header.isChecksumTail := inferInstanceAs (Decidable (_ ∧ _))

def isMalformedChecksumTail (header : DirEntryHeader) : Prop :=
  header.inode = 0 ∧ header.nameLen ≠ 0 ∧ header.fileTypeRaw = 0xDE ∧ header.recLen = 12

instance (header : DirEntryHeader) : Decidable header.isMalformedChecksumTail :=
  inferInstanceAs (Decidable (_ ∧ _))

end DirEntryHeader

/-- The fields and the tests of the length with which both parsers begin. -/
def readEntryHeader (block : Bytes) (blockSize offset : Nat) : Except ParseError DirEntryHeader := do
  let inode ← readField 4 block offset
  let recLenRaw ← readField 2 block (offset + 4)
  let nameLen ← readField 1 block (offset + 6)
  let fileTypeRaw ← readField 1 block (offset + 7)
  failIf (blockSize ≤ 65536 ∧ recLenRaw &&& 3 ≠ 0)
    (.invalidField "de_rec_len" "directory entry rec_len not 4-byte aligned")
  if hlong : recLenFromDisk recLenRaw blockSize < 12 then
    .error (.invalidField "de_rec_len" "directory entry rec_len < 12")
  else
    return ⟨inode, recLenFromDisk recLenRaw blockSize, nameLen, fileTypeRaw, Nat.le_of_not_lt hlong⟩

def DirEntryHeader.entry (header : DirEntryHeader) (block : Bytes) (offset : Nat) : Ext4DirEntry :=
  ⟨header.inode, header.recLen, header.nameLen, Ext4FileType.fromRaw header.fileTypeRaw,
    nameAt block offset header.nameLen⟩

/-! ## The walk -/

section Walk

variable {σ : Type} (block : Bytes) (blockSize : Nat) (onEntry : σ → Ext4DirEntry → σ × Bool)

/-- The loop of `walk_dir_block_entries`. The callback says with `true` that it has found what it
needs. -/
def walkFrom (offset : Nat) (s : σ) : Except ParseError (σ × Option Ext4DirEntryTail) :=
  if _hin : offset + 8 ≤ block.length then
    match readEntryHeader block blockSize offset with
    | .error e => .error e
    | .ok header =>
      if header.inode = 0 then
        if header.isMalformedChecksumTail ∧ offset + header.recLen ≤ block.length ∧
            allZeroBytes (block.drop (offset + header.recLen)) = true then
          .error (.invalidField "dir_block_tail" "malformed checksum tail header")
        else if header.isChecksumTail then
          if block.length < offset + header.recLen then
            .error (.insufficientData 12 offset (block.length - offset))
          else if offset + 12 < block.length ∧ allZeroBytes (block.drop (offset + 12)) = false then
            .error (.invalidField "dir_block_tail" "non-zero padding after checksum tail")
          else
            match readField 4 block (offset + 8) with
            | .error e => .error e
            | .ok checksum => .ok (s, some ⟨checksum⟩)
        else if block.length < offset + header.recLen then
          .error (.invalidField "de_rec_len" "directory entry extends past block boundary")
        else walkFrom (offset + header.recLen) s
      else if block.length < offset + header.recLen then
        .error (.invalidField "de_rec_len" "directory entry extends past block boundary")
      else if offset + header.recLen < offset + 8 + header.nameLen then
        .error (.invalidField "de_name_len" "name extends past rec_len")
      else if (onEntry s (header.entry block offset)).2 then
        .ok ((onEntry s (header.entry block offset)).1, none)
      else walkFrom (offset + header.recLen) (onEntry s (header.entry block offset)).1
  else if offset ≠ block.length then
    .error (.insufficientData 8 offset (block.length - offset))
  else .ok (s, none)
termination_by block.length - offset
decreasing_by
  all_goals
    have hlong := header.long
    omega

def walkDirBlockEntries (s : σ) : Except ParseError (σ × Option Ext4DirEntryTail) := do
  validateDirBlockSliceLen block blockSize
  walkFrom block blockSize onEntry 0 s

end Walk

def parseDirBlock (block : Bytes) (blockSize : Nat) :
    Except ParseError (List Ext4DirEntry × Option Ext4DirEntryTail) :=
  walkDirBlockEntries block blockSize (fun entries entry => (entries ++ [entry], false)) []

def lookupInDirBlock (block : Bytes) (blockSize : Nat) (target : Bytes) :
    Except ParseError (Option Ext4DirEntry) := do
  let walked ← walkDirBlockEntries block blockSize
    (fun found entry => if namesEq entry.name target then (some entry, true) else (found, false)) none
  return walked.1

/-! ## The iterator -/

structure DirBlockIter where
  block : Bytes
  blockSize : Nat
  offset : Nat
  tail : Option Ext4DirEntryTail
  done : Bool

namespace DirBlockIter

def new (block : Bytes) (blockSize : Nat) : DirBlockIter := ⟨block, blockSize, 0, none, false⟩

def readHeader (it : DirBlockIter) : Except ParseError DirEntryHeader := do
  let header ← readEntryHeader it.block it.blockSize it.offset
  failIf (it.block.length < it.offset + header.recLen ∧ ¬ header.isChecksumTail)
    (.invalidField "de_rec_len" "directory entry extends past block boundary")
  return header

def consumeTail (it : DirBlockIter) : Except ParseError DirBlockIter := do
  failIf (it.block.length < it.offset + 12)
    (.insufficientData 12 it.offset (it.block.length - it.offset))
  failIf (it.offset + 12 < it.block.length ∧ allZeroBytes (it.block.drop (it.offset + 12)) = false)
    (.invalidField "dir_block_tail" "non-zero padding after checksum tail")
  let csum ← readField 4 it.block (it.offset + 8)
  return { it with tail := some ⟨csum⟩, offset := it.block.length }

def next (it : DirBlockIter) : Option (Except ParseError Ext4DirEntry) × DirBlockIter :=
  if it.done then (none, it)
  else
    match validateDirBlockSliceLen it.block it.blockSize with
    | .error e => (some (.error e), { it with done := true })
    | .ok () =>
      if _hin : it.block.length < it.offset + 8 then
        if it.offset = it.block.length then (none, { it with done := true })
        else
          (some (.error (.insufficientData 8 it.offset (it.block.length - it.offset))),
            { it with done := true })
      else
        match it.readHeader with
        | .error e => (some (.error e), { it with done := true })
        | .ok header =>
          if header.isChecksumTail then
            match it.consumeTail with
            | .error e => (some (.error e), { it with done := true })
            | .ok it' => (none, { it' with done := true })
          else if header.isMalformedChecksumTail ∧ it.offset + header.recLen ≤ it.block.length ∧
              allZeroBytes (it.block.drop (it.offset + header.recLen)) = true then
            (some (.error (.invalidField "dir_block_tail" "malformed checksum tail header")),
              { it with done := true })
          else if header.inode = 0 then next { it with offset := it.offset + header.recLen }
          else if it.offset + header.recLen < it.offset + 8 + header.nameLen then
            (some (.error (.invalidField "de_name_len" "name extends past rec_len")),
              { it with done := true })
          else
            (some (.ok (header.entry it.block it.offset)),
              { it with offset := it.offset + header.recLen })
termination_by it.block.length - it.offset
decreasing_by
  have hlong := header.long
  show it.block.length - (it.offset + header.recLen) < it.block.length - it.offset
  omega

theorem next_advances {it it' : DirBlockIter} {entry : Ext4DirEntry}
    (h : it.next = (some (.ok entry), it')) :
    it'.block.length - it'.offset < it.block.length - it.offset := by
  fun_induction next it with
  | case9 it hdone hvalid hin header hheader htail hmalformed hfree ih =>
    have hlong := header.long
    have hrest := ih h
    dsimp only at hrest
    omega
  | case11 it hdone hvalid hin header hheader htail hmalformed hlive hname =>
    cases h
    have hlong := header.long
    dsimp only
    omega
  | _ => cases h

def collect (it : DirBlockIter) : Except ParseError (List Ext4DirEntry) :=
  match _h : it.next with
  | (none, _) => .ok []
  | (some (.error e), _) => .error e
  | (some (.ok entry), it') => (entry :: ·) <$> collect it'
termination_by it.block.length - it.offset
decreasing_by exact next_advances _h

section Collect

variable {it it' : DirBlockIter}

theorem collect_of_none (h : it.next.1 = none) : it.collect = .ok [] := by
  rw [collect]
  split
  · rfl
  · rename_i hnext
    rw [hnext] at h
    cases h
  · rename_i hnext
    rw [hnext] at h
    cases h

theorem collect_of_error {e : ParseError} (h : it.next.1 = some (.error e)) : it.collect = .error e := by
  rw [collect]
  split
  · rename_i hnext
    rw [hnext] at h
    cases h
  · rename_i hnext
    rw [hnext] at h
    cases h
    rfl
  · rename_i hnext
    rw [hnext] at h
    cases h

theorem collect_of_ok {entry : Ext4DirEntry} (h : it.next = (some (.ok entry), it')) :
    it.collect = (entry :: ·) <$> it'.collect := by
  rw [collect]
  split
  · rename_i hnext
    rw [hnext] at h
    cases h
  · rename_i hnext
    rw [hnext] at h
    cases h
  · rename_i hnext
    rw [hnext] at h
    cases h
    rfl

theorem collect_congr (h : it.next = it'.next) : it.collect = it'.collect := by
  cases hnext : it'.next with
  | mk item rest =>
    cases item with
    | none => rw [collect_of_none (by rw [h, hnext]), collect_of_none (by rw [hnext])]
    | some item =>
      cases item with
      | error e => rw [collect_of_error (by rw [h, hnext]), collect_of_error (by rw [hnext])]
      | ok entry => rw [collect_of_ok (h.trans hnext), collect_of_ok hnext]

end Collect

end DirBlockIter

/-! ## One record -/

inductive Found where
  | finish (tail : Option Ext4DirEntryTail)
  | free (next : Nat)
  | entry (entry : Ext4DirEntry) (next : Nat)

section Found

variable (block : Bytes) (blockSize : Nat)

def foundAt (offset : Nat) : Except ParseError Found :=
  if offset + 8 ≤ block.length then
    match readEntryHeader block blockSize offset with
    | .error e => .error e
    | .ok header =>
      if header.isChecksumTail then
        if block.length < offset + 12 then
          .error (.insufficientData 12 offset (block.length - offset))
        else if offset + 12 < block.length ∧ allZeroBytes (block.drop (offset + 12)) = false then
          .error (.invalidField "dir_block_tail" "non-zero padding after checksum tail")
        else .ok (.finish (some ⟨leAt (offset + 8) 4 block⟩))
      else if block.length < offset + header.recLen then
        .error (.invalidField "de_rec_len" "directory entry extends past block boundary")
      else if header.isMalformedChecksumTail ∧
          allZeroBytes (block.drop (offset + header.recLen)) = true then
        .error (.invalidField "dir_block_tail" "malformed checksum tail header")
      else if header.inode = 0 then .ok (.free (offset + header.recLen))
      else if header.recLen < 8 + header.nameLen then
        .error (.invalidField "de_name_len" "name extends past rec_len")
      else .ok (.entry (header.entry block offset) (offset + header.recLen))
  else if offset ≠ block.length then .error (.insufficientData 8 offset (block.length - offset))
  else .ok (.finish none)

variable {block blockSize} {offset : Nat}

theorem walkFrom_eq {σ : Type} (onEntry : σ → Ext4DirEntry → σ × Bool) (s : σ) :
    walkFrom block blockSize onEntry offset s =
      match foundAt block blockSize offset with
      | .error e => .error e
      | .ok (.finish tail) => .ok (s, tail)
      | .ok (.free next) => walkFrom block blockSize onEntry next s
      | .ok (.entry entry next) =>
        if (onEntry s entry).2 then .ok ((onEntry s entry).1, none)
        else walkFrom block blockSize onEntry next (onEntry s entry).1 := by
  rw [walkFrom]
  unfold foundAt
  by_cases hin : offset + 8 ≤ block.length
  · rw [dif_pos hin, if_pos hin]
    cases readEntryHeader block blockSize offset with
    | error e => rfl
    | ok header =>
      dsimp only
      by_cases htail : header.isChecksumTail
      · have hlen : header.recLen = 12 := htail.2.2.2
        have hmalformed : ¬ header.isMalformedChecksumTail := fun h => h.2.1 htail.2.1
        rw [if_pos htail.1, if_neg fun h => hmalformed h.1, if_pos htail, if_pos htail, hlen]
        by_cases hend : block.length < offset + 12
        · rw [if_pos hend, if_pos hend]
        · rw [if_neg hend, if_neg hend, readField_ok (by omega)]
          split_ifs <;> rfl
      · rw [if_neg htail, if_neg htail]
        by_cases hend : block.length < offset + header.recLen
        · simp only [if_pos hend]
          split_ifs with hfree hmalformed
          · exact absurd hmalformed.2.1 (by omega)
          · rfl
          · rfl
        · have hfits : offset + header.recLen ≤ block.length := by omega
          have hname : offset + header.recLen < offset + 8 + header.nameLen ↔
              header.recLen < 8 + header.nameLen := by omega
          simp only [if_neg hend, hfits, true_and, hname]
          by_cases hfree : header.inode = 0
          · simp only [if_pos hfree]
            split_ifs <;> rfl
          · have hmalformed : ¬ header.isMalformedChecksumTail := fun h => hfree h.1
            simp only [if_neg hfree, hmalformed, false_and, if_false]
            split_ifs <;> simp_all
  · rw [dif_neg hin, if_neg hin]
    split_ifs <;> rfl

def iterAt (block : Bytes) (blockSize offset : Nat) : DirBlockIter := ⟨block, blockSize, offset, none, false⟩

theorem readHeader_eq : (iterAt block blockSize offset).readHeader =
    match readEntryHeader block blockSize offset with
    | .error e => .error e
    | .ok header =>
      if block.length < offset + header.recLen ∧ ¬ header.isChecksumTail then
        .error (.invalidField "de_rec_len" "directory entry extends past block boundary")
      else .ok header := by
  unfold DirBlockIter.readHeader iterAt
  dsimp only
  cases readEntryHeader block blockSize offset with
  | error e => rfl
  | ok header =>
    dsimp only
    rw [ok_bind]
    unfold failIf
    split_ifs <;> rfl

variable (hvalid : validateDirBlockSliceLen block blockSize = .ok ())

def Answers (block : Bytes) (blockSize : Nat) : Except ParseError Found →
    Option (Except ParseError Ext4DirEntry) × DirBlockIter → Prop
  | .error e, answer => answer.1 = some (.error e)
  | .ok (.finish _), answer => answer.1 = none
  | .ok (.free next), answer => answer = (iterAt block blockSize next).next
  | .ok (.entry entry next), answer => answer = (some (.ok entry), iterAt block blockSize next)

theorem consumeTail_eq : (iterAt block blockSize offset).consumeTail =
    if block.length < offset + 12 then .error (.insufficientData 12 offset (block.length - offset))
    else if offset + 12 < block.length ∧ allZeroBytes (block.drop (offset + 12)) = false then
      .error (.invalidField "dir_block_tail" "non-zero padding after checksum tail")
    else .ok ⟨block, blockSize, block.length, some ⟨leAt (offset + 8) 4 block⟩, false⟩ := by
  unfold DirBlockIter.consumeTail iterAt
  dsimp only
  by_cases hend : block.length < offset + 12
  · rw [if_pos hend, failIf, if_pos hend]
    rfl
  · rw [if_neg hend, failIf_of_not hend, ok_bind, readField_ok (by omega)]
    unfold failIf
    split_ifs <;> rfl

include hvalid in
theorem next_answers (offset : Nat) :
    Answers block blockSize (foundAt block blockSize offset) (iterAt block blockSize offset).next := by
  rw [DirBlockIter.next.eq_def (iterAt block blockSize offset), readHeader_eq]
  unfold foundAt
  rw [if_neg (show ¬ (iterAt block blockSize offset).done = true from Bool.false_ne_true)]
  simp only [show (iterAt block blockSize offset).block = block from rfl,
    show (iterAt block blockSize offset).blockSize = blockSize from rfl,
    show (iterAt block blockSize offset).offset = offset from rfl, hvalid]
  by_cases hin : offset + 8 ≤ block.length
  · rw [if_pos hin, dif_neg (Nat.not_lt.mpr hin)]
    cases readEntryHeader block blockSize offset with
    | error e => rfl
    | ok header =>
      dsimp only
      by_cases htail : header.isChecksumTail
      · simp only [htail, not_true_eq_false, and_false, if_false, if_true]
        rw [consumeTail_eq]
        split_ifs <;> rfl
      · by_cases hend : block.length < offset + header.recLen
        · rw [if_neg htail, if_pos hend, if_pos ⟨hend, htail⟩]
          rfl
        · have hfits : offset + header.recLen ≤ block.length := by omega
          have hname : offset + header.recLen < offset + 8 + header.nameLen ↔
              header.recLen < 8 + header.nameLen := by omega
          simp only [htail, hend, false_and, if_false, hfits, true_and, hname]
          split_ifs <;> rfl
  · rw [if_neg hin, dif_pos (Nat.not_le.mp hin)]
    split_ifs <;> first | rfl | contradiction

include hvalid in
theorem collect_eq (offset : Nat) : (iterAt block blockSize offset).collect =
    match foundAt block blockSize offset with
    | .error e => .error e
    | .ok (.finish _) => .ok []
    | .ok (.free next) => (iterAt block blockSize next).collect
    | .ok (.entry entry next) => (entry :: ·) <$> (iterAt block blockSize next).collect := by
  have hanswers := next_answers hvalid offset
  cases hfound : foundAt block blockSize offset with
  | error e =>
    rw [hfound] at hanswers
    exact DirBlockIter.collect_of_error hanswers
  | ok found =>
    rw [hfound] at hanswers
    cases found with
    | finish tail => exact DirBlockIter.collect_of_none hanswers
    | free next => exact DirBlockIter.collect_congr hanswers
    | entry entry next => exact DirBlockIter.collect_of_ok hanswers

def Found.next? : Found → Option Nat
  | .finish _ => none
  | .free next => some next
  | .entry _ next => some next

theorem foundAt_advances {found : Found} (h : foundAt block blockSize offset = .ok found) {next : Nat}
    (hnext : found.next? = some next) : block.length - next < block.length - offset := by
  unfold foundAt at h
  by_cases hin : offset + 8 ≤ block.length
  · rw [if_pos hin] at h
    cases hheader : readEntryHeader block blockSize offset with
    | error e =>
      rw [hheader] at h
      cases h
    | ok header =>
      have hlong := header.long
      rw [hheader] at h
      dsimp only at h
      split_ifs at h <;> cases h <;> cases hnext <;> omega
  · rw [if_neg hin] at h
    split_ifs at h
    cases h
    cases hnext

include hvalid in
theorem walkFrom_push (entries : List Ext4DirEntry) :
    Prod.fst <$> walkFrom block blockSize (fun entries entry => (entries ++ [entry], false)) offset entries =
      (entries ++ ·) <$> (iterAt block blockSize offset).collect := by
  induction hm : block.length - offset using Nat.strongRecOn generalizing offset entries with
  | ind m ih =>
    rw [walkFrom_eq, collect_eq hvalid]
    cases hfound : foundAt block blockSize offset with
    | error e => rfl
    | ok found =>
      cases found with
      | finish tail => exact congrArg Except.ok (List.append_nil entries).symm
      | free next => exact ih _ (hm ▸ foundAt_advances hfound rfl) entries rfl
      | entry entry next =>
        dsimp only
        rw [if_neg Bool.false_ne_true, ih _ (hm ▸ foundAt_advances hfound rfl) _ rfl]
        cases (iterAt block blockSize next).collect with
        | error e => rfl
        | ok rest => exact congrArg Except.ok (List.append_assoc entries [entry] rest)

include hvalid in
theorem walkFrom_find {target : Bytes} {items : List Ext4DirEntry}
    (hitems : (iterAt block blockSize offset).collect = .ok items) :
    ∃ tail, walkFrom block blockSize (fun found entry =>
      if namesEq entry.name target then (some entry, true) else (found, false)) offset none =
        .ok (items.find? (·.name = target), tail) := by
  induction hm : block.length - offset using Nat.strongRecOn generalizing offset items with
  | ind m ih =>
    rw [walkFrom_eq]
    rw [collect_eq hvalid] at hitems
    cases hfound : foundAt block blockSize offset with
    | error e => rw [hfound] at hitems; cases hitems
    | ok found =>
      rw [hfound] at hitems
      cases found with
      | finish tail =>
        cases hitems
        exact ⟨tail, rfl⟩
      | free next => exact ih _ (hm ▸ foundAt_advances hfound rfl) hitems rfl
      | entry entry next =>
        obtain ⟨rest, hrest, rfl⟩ := map_ok.mp hitems
        dsimp only
        by_cases hname : entry.name = target
        · rw [if_pos ((namesEq_iff _ _).mpr hname), List.find?_cons_of_pos (by simpa using hname)]
          exact ⟨none, rfl⟩
        · rw [if_neg fun h => hname ((namesEq_iff _ _).mp h), if_neg Bool.false_ne_true,
            List.find?_cons_of_neg (by simpa using hname)]
          exact ih _ (hm ▸ foundAt_advances hfound rfl) hrest rfl

end Found

/-- **The parsers of a directory block accept the same blocks.** The items of the iterator are the
entries of `parse_dir_block`, with the same error where there is one, and a name is looked up among
them. -/
theorem dir_parsers_agree (block : Bytes) (blockSize : Nat) (target : Bytes) :
    (DirBlockIter.new block blockSize).collect = Prod.fst <$> parseDirBlock block blockSize ∧
    ∀ parsed, parseDirBlock block blockSize = .ok parsed →
      lookupInDirBlock block blockSize target = .ok (parsed.1.find? (·.name = target)) := by
  unfold parseDirBlock lookupInDirBlock walkDirBlockEntries
  cases hvalid : validateDirBlockSliceLen block blockSize with
  | error e =>
    refine ⟨DirBlockIter.collect_of_error ?_, fun parsed h => (by cases h)⟩
    rw [DirBlockIter.next, if_neg (show ¬ (DirBlockIter.new block blockSize).done = true from
      Bool.false_ne_true)]
    simp only [DirBlockIter.new, hvalid]
  | ok _ =>
    have hwalk : Prod.fst <$> walkFrom block blockSize
        (fun entries entry => (entries ++ [entry], false)) 0 [] =
          ([] ++ ·) <$> (iterAt block blockSize 0).collect := walkFrom_push hvalid []
    simp only [List.nil_append, id_map'] at hwalk
    refine ⟨hwalk.symm, fun parsed hparsed => ?_⟩
    have hitems : (iterAt block blockSize 0).collect = .ok parsed.1 := by
      rw [← hwalk, show walkFrom block blockSize _ 0 [] = .ok parsed from hparsed]
      rfl
    obtain ⟨tail, hfind⟩ := walkFrom_find hvalid hitems
    rw [ok_bind, hfind]
    rfl

end FrankenFs.Dir
