import FrankenFs.Lib.ZeroByte

/-!
# Entries of a directory block

A block is a chain of records: inode, length of the record, length of the name, type, name. A record
with inode 0 is free, and the last bytes may be reserved for a checksum. An outcome has the block that
is left, also where the operation fails.
-/

namespace FrankenFs.Dir

open FrankenFs.Lib

inductive FfsError where
  | format (detail : String)
  | corruption (block : Nat) (detail : String)
  | noSpace
  | entryExists
deriving DecidableEq, Repr

abbrev Outcome (α : Type) := EStateM.Result FfsError Bytes α

instance decidableEqOutcome {α : Type} [DecidableEq α] : DecidableEq (Outcome α)
  | .ok a s, .ok b t => decidable_of_iff (a = b ∧ s = t) (by simp)
  | .error e s, .error f t => decidable_of_iff (e = f ∧ s = t) (by simp)
  | .ok .., .error .. => isFalse (by simp)
  | .error .., .ok .. => isFalse (by simp)

inductive Ext4FileType where
  | unknown | regFile | dir | chrdev | blkdev | fifo | sock | symlink
deriving DecidableEq, Repr

def Ext4FileType.code : Ext4FileType → BitVec 8
  | .unknown => 0
  | .regFile => 1
  | .dir => 2
  | .chrdev => 3
  | .blkdev => 4
  | .fifo => 5
  | .sock => 6
  | .symlink => 7

def dirEntryHeaderLen : Nat := 8

def ext4FtDirCsum : BitVec 8 := 0xDE

def align4 (n : Nat) : Nat := (n + 3) / 4 * 4

def requiredRecLen (nameLen : Nat) : Nat := align4 (dirEntryHeaderLen + nameLen)

def namesEqFrom (a b : Bytes) (i : Nat) : Bool :=
  if i + 8 < a.length then
    if (a.drop i).take 8 ≠ (b.drop i).take 8 then false else namesEqFrom a b (i + 8)
  else (a.drop (a.length - 8)).take 8 == (b.drop (a.length - 8)).take 8
termination_by a.length - i

def namesEq (a b : Bytes) : Bool :=
  if a.length ≠ b.length then false
  else if a.length < 8 then a == b
  else namesEqFrom a b 0

def slash : BitVec 8 := 0x2F

def nameHasSlashOrNul : Bytes → Bool
  | b0 :: b1 :: b2 :: b3 :: b4 :: b5 :: b6 :: b7 :: rest =>
    let w := BitVec.ofNat 64 (ofLe [b0, b1, b2, b3, b4, b5, b6, b7])
    if haszero w ||| haszero (w ^^^ 0x2F2F2F2F2F2F2F2F) ≠ 0#64 then true else nameHasSlashOrNul rest
  | name => name.any fun b => b == slash || b == 0

theorem haszero_word {bytes : Bytes} (h : bytes.length = 8) :
    haszero (BitVec.ofNat 64 (ofLe bytes)) |||
        haszero (BitVec.ofNat 64 (ofLe bytes) ^^^ 0x2F2F2F2F2F2F2F2F) ≠ 0#64 ↔
      bytes.any fun b => b == slash || b == 0 := by
  have hxor : BitVec.ofNat 64 (ofLe bytes) ^^^ 0x2F2F2F2F2F2F2F2F =
      BitVec.ofNat 64 (ofLe (bytes.map (· ^^^ slash))) := by
    rw [ofLe_map_xor, h, BitVec.ofNat_xor]
    rfl
  have hslash : 0 ∈ bytes.map (· ^^^ slash) ↔ slash ∈ bytes := by
    simp [BitVec.xor_eq_zero_iff]
  rw [hxor, ne_eq, BitVec.or_eq_zero_iff, not_and_or, ← ne_eq, ← ne_eq, haszero_ne_zero h,
    haszero_ne_zero (by simpa using h), hslash]
  simp only [List.any_eq_true, Bool.or_eq_true, beq_iff_eq]
  constructor
  · rintro (hzero | hslash)
    · exact ⟨0, hzero, .inr rfl⟩
    · exact ⟨slash, hslash, .inl rfl⟩
  · rintro ⟨b, hb, rfl | rfl⟩
    · exact .inr hb
    · exact .inl hb

theorem nameHasSlashOrNul_eq (name : Bytes) :
    nameHasSlashOrNul name = name.any fun b => b == slash || b == 0 := by
  have hsplit : ∀ (b0 b1 b2 b3 b4 b5 b6 b7 : BitVec 8) (rest : Bytes),
      b0 :: b1 :: b2 :: b3 :: b4 :: b5 :: b6 :: b7 :: rest =
        [b0, b1, b2, b3, b4, b5, b6, b7] ++ rest := fun _ _ _ _ _ _ _ _ _ => rfl
  fun_induction nameHasSlashOrNul name with
  | case1 b0 b1 b2 b3 b4 b5 b6 b7 rest w hw =>
    rw [hsplit, List.any_append, (haszero_word rfl).mp hw, Bool.true_or]
  | case2 b0 b1 b2 b3 b4 b5 b6 b7 rest w hw ih =>
    rw [hsplit, List.any_append, Bool.eq_false_iff.mpr (mt (haszero_word rfl).mpr hw),
      Bool.false_or, ih]
  | case3 name => rfl

def validateName (name : Bytes) : Except FfsError Unit :=
  if name = [] then .error (.format "directory entry name cannot be empty")
  else if 255 < name.length then .error (.format "directory entry name exceeds 255 bytes")
  else if nameHasSlashOrNul name then
    if name.contains slash then .error (.format "directory entry name cannot contain '/'")
    else .error (.format "directory entry name cannot contain NUL")
  else .ok ()

theorem validateName_ok {name : Bytes} :
    validateName name = .ok () ↔ name ≠ [] ∧ name.length ≤ 255 ∧ slash ∉ name ∧ 0 ∉ name := by
  have hscan : nameHasSlashOrNul name = false ↔ slash ∉ name ∧ 0 ∉ name := by
    rw [nameHasSlashOrNul_eq, List.any_eq_false]
    simp only [Bool.or_eq_true, beq_iff_eq, not_or]
    exact ⟨fun h => ⟨fun hs => (h _ hs).1 rfl, fun hz => (h _ hz).2 rfl⟩, fun h b hb =>
      ⟨fun heq => h.1 (heq ▸ hb), fun heq => h.2 (heq ▸ hb)⟩⟩
  unfold validateName
  rw [← hscan]
  split_ifs <;> simp_all

def validateReservedTail (blockLen reservedTail : Nat) : Except FfsError Nat :=
  if reservedTail ≠ 0 ∧ reservedTail < 12 then
    .error (.format "directory reserved tail must be 0 or at least 12 bytes")
  else if reservedTail ≠ 0 ∧ reservedTail % 4 ≠ 0 then
    .error (.format "directory reserved tail must be 4-byte aligned")
  else if blockLen < reservedTail then
    .error (.format "directory reserved tail exceeds block length")
  else .ok (blockLen - reservedTail)

def isInteriorHtreeDxNodeBlock (block : Bytes) : Bool :=
  if readLe 4 0 block ≠ some 0 ∨ readLe 2 4 block ≠ some block.length then false
  else
    match readLe 2 8 block, readLe 2 10 block with
    | some limit, some count =>
      if count = 0 ∨ limit < count then false else decide (8 + count * 8 ≤ block.length)
    | _, _ => false

def writeLe (w off value : Nat) (detail : String) (block : Bytes) : Except FfsError Bytes :=
  if off + w ≤ block.length then .ok (overwrite off (toLe w value) block)
  else .error (.corruption 0 detail)

def writeU16Le (block : Bytes) (off value : Nat) : Except FfsError Bytes :=
  writeLe 2 off value "u16 write out of bounds" block

def writeU32Le (block : Bytes) (off value : Nat) : Except FfsError Bytes :=
  writeLe 4 off value "u32 write out of bounds" block

def entryHeader (ino recLen nameLen : Nat) (fileType : BitVec 8) : Bytes :=
  toLe 4 ino ++ toLe 2 recLen ++ [BitVec.ofNat 8 nameLen, fileType]

def writeEntry (block : Bytes) (offset ino recLen : Nat) (fileType : Ext4FileType) (name : Bytes) :
    Except FfsError Bytes :=
  if 255 < name.length then .error (.format "directory entry name exceeds 255 bytes")
  else if 65535 < recLen then .error (.format "directory entry rec_len exceeds u16")
  else if block.length < offset + recLen then
    .error (.corruption 0 "directory entry exceeds block boundary")
  else if recLen < requiredRecLen name.length then
    .error (.format "directory entry rec_len smaller than minimum")
  else
    let block := overwrite offset (entryHeader ino recLen name.length fileType.code) block
    let block := overwrite (offset + dirEntryHeaderLen) name block
    if dirEntryHeaderLen + name.length < recLen then
      .ok (overwrite (offset + dirEntryHeaderLen + name.length)
        (List.replicate (recLen - (dirEntryHeaderLen + name.length)) 0) block)
    else .ok block

/-! ## Edits -/

structure DirBlockEdit where
  regionStart : Nat
  oldBytes : Bytes
deriving DecidableEq

def incrementalDirCsumMaxSpan : Nat := 256

def dirBlockEdit (block : Bytes) (regionStart regionEnd : Nat) : Option DirBlockEdit :=
  if regionEnd < regionStart then none
  else
    let len := regionEnd - regionStart
    if len = 0 ∨ incrementalDirCsumMaxSpan < len then none
    else some ⟨regionStart, (block.drop regionStart).take len⟩

def DirBlockEdit.delta (edit : DirBlockEdit) (block : Bytes) : Bytes :=
  List.zipWith (· ^^^ ·) edit.oldBytes (block.drop edit.regionStart)

/-! ## Records -/

/-- A header that passed the checks of every scan. -/
structure Record (limit off : Nat) where
  ino : Nat
  recLen : Nat
  nameLen : Nat
  min : 8 ≤ recLen
  aligned : recLen % 4 = 0
  fits : off + recLen ≤ limit
  named : 8 + nameLen ≤ recLen

def readRecord (block : Bytes) (limit off : Nat) : Except FfsError (Record limit off) :=
  let recLen := leAt (off + 4) 2 block
  let nameLen := leAt (off + 6) 1 block
  if hlen : recLen < 8 ∨ recLen % 4 ≠ 0 then
    .error (.corruption 0 "invalid directory entry rec_len")
  else if hfits : limit < off + recLen then
    .error (.corruption 0 "directory entry exceeds usable block area")
  else if hnamed : recLen < 8 + nameLen then
    .error (.corruption 0
      s!"directory entry name_len {nameLen} exceeds rec_len {recLen} at offset {off}")
  else
    .ok
      { ino := leAt off 4 block
        recLen := recLen
        nameLen := nameLen
        min := by omega
        aligned := by omega
        fits := by omega
        named := by omega }

def nameAt (block : Bytes) (off nameLen : Nat) : Bytes :=
  (block.drop (off + dirEntryHeaderLen)).take nameLen

inductive Slot where
  | tombstone (off recLen : Nat)
  | split (off actual slack : Nat)
deriving DecidableEq

def insertAt (block : Bytes) (ino : Nat) (name : Bytes) (fileType : Ext4FileType) :
    Slot → Outcome (Nat × Option DirBlockEdit)
  | .tombstone off recLen =>
    let edit := dirBlockEdit block off (off + recLen)
    match writeEntry block off ino recLen fileType name with
    | .error e => .error e block
    | .ok block => .ok (off, edit) block
  | .split off actual slack =>
    let edit := dirBlockEdit block (off + 4) (off + actual + slack)
    if 65535 < actual then .error (.format "actual rec_len exceeds u16") block
    else
      match writeU16Le block (off + 4) actual with
      | .error e => .error e block
      | .ok block =>
        match writeEntry block (off + actual) ino slack fileType name with
        | .error e => .error e block
        | .ok block => .ok (off + actual, edit) block

/-! ## Adding an entry -/

def addEntryFrom (block : Bytes) (ino : Nat) (name : Bytes) (fileType : Ext4FileType)
    (need limit off : Nat) : Outcome (Nat × Option DirBlockEdit) :=
  if off + dirEntryHeaderLen ≤ limit then
    match readRecord block limit off with
    | .error e => .error e block
    | .ok record =>
      if record.ino = 0 then
        if need ≤ record.recLen then insertAt block ino name fileType (.tombstone off record.recLen)
        else addEntryFrom block ino name fileType need limit (off + record.recLen)
      else
        let actual := requiredRecLen record.nameLen
        if record.recLen < actual then
          .error (.corruption 0 "directory entry name length exceeds rec_len") block
        else
          let slack := record.recLen - actual
          if need ≤ slack then insertAt block ino name fileType (.split off actual slack)
          else addEntryFrom block ino name fileType need limit (off + record.recLen)
  else .error .noSpace block
termination_by limit - off
decreasing_by
  all_goals
    have := record.min
    unfold dirEntryHeaderLen at *
    omega

def addEntryTracked (block : Bytes) (ino : Nat) (name : Bytes) (fileType : Ext4FileType)
    (reservedTail : Nat) : Outcome (Nat × Option DirBlockEdit) :=
  if ino = 0 then .error (.format "directory entry inode cannot be zero") block
  else
    match validateName name with
    | .error e => .error e block
    | .ok () =>
      let need := requiredRecLen name.length
      match validateReservedTail block.length reservedTail with
      | .error e => .error e block
      | .ok limit =>
        if limit < need then .error .noSpace block
        else if isInteriorHtreeDxNodeBlock block then .error .noSpace block
        else addEntryFrom block ino name fileType need limit 0

def containsLiveNameFrom (block name : Bytes) (limit off : Nat) : Except FfsError Bool :=
  if off + dirEntryHeaderLen ≤ limit then
    match readRecord block limit off with
    | .error e => .error e
    | .ok record =>
      if record.ino ≠ 0 ∧ namesEq (nameAt block off record.nameLen) name then .ok true
      else containsLiveNameFrom block name limit (off + record.recLen)
  else .ok false
termination_by limit - off
decreasing_by
  have := record.min
  unfold dirEntryHeaderLen at *
  omega

def blockContainsLiveName (block name : Bytes) (reservedTail : Nat) : Except FfsError Bool :=
  match validateName name with
  | .error e => .error e
  | .ok () =>
    match validateReservedTail block.length reservedTail with
    | .error e => .error e
    | .ok limit =>
      if isInteriorHtreeDxNodeBlock block then .ok false
      else containsLiveNameFrom block name limit 0

/-- The one scan that looks for the name and for a place. -/
def rejectExistingFrom (block name : Bytes) (need limit off : Nat) (slot : Option Slot) :
    Except FfsError (Option Slot) :=
  if off + dirEntryHeaderLen ≤ limit then
    match readRecord block limit off with
    | .error e => .error e
    | .ok record =>
      if record.ino = 0 then
        let slot :=
          if slot = none ∧ need ≤ record.recLen then some (.tombstone off record.recLen) else slot
        rejectExistingFrom block name need limit (off + record.recLen) slot
      else if namesEq (nameAt block off record.nameLen) name then .error .entryExists
      else
        let actual := requiredRecLen record.nameLen
        if record.recLen < actual then
          .error (.corruption 0 "directory entry name length exceeds rec_len")
        else
          let slot :=
            if slot = none ∧ need ≤ record.recLen - actual then
              some (.split off actual (record.recLen - actual))
            else slot
          rejectExistingFrom block name need limit (off + record.recLen) slot
  else .ok slot
termination_by limit - off
decreasing_by
  all_goals
    have := record.min
    unfold dirEntryHeaderLen at *
    omega

def addEntryRejectExistingTracked (block : Bytes) (ino : Nat) (name : Bytes)
    (fileType : Ext4FileType) (reservedTail : Nat) : Outcome (Nat × Option DirBlockEdit) :=
  if ino = 0 then .error (.format "directory entry inode cannot be zero") block
  else
    match validateName name with
    | .error e => .error e block
    | .ok () =>
      let need := requiredRecLen name.length
      match validateReservedTail block.length reservedTail with
      | .error e => .error e block
      | .ok limit =>
        if limit < need then .error .noSpace block
        else if isInteriorHtreeDxNodeBlock block then .error .noSpace block
        else
          match rejectExistingFrom block name need limit 0 none with
          | .error e => .error e block
          | .ok none => .error .noSpace block
          | .ok (some slot) => insertAt block ino name fileType slot

/-! ## Removing and changing an entry -/

def clearEntry (block : Bytes) (off : Nat) : Except FfsError Bytes :=
  match writeU32Le block off 0 with
  | .error e => .error e
  | .ok block => .ok (overwrite (off + 7) [0] (overwrite (off + 6) [0] block))

def removeEntryFrom (block name : Bytes) (limit off : Nat) (prevOff : Option Nat) :
    Outcome (Option (Nat × DirBlockEdit)) :=
  if off + dirEntryHeaderLen ≤ limit then
    match readRecord block limit off with
    | .error e => .error e block
    | .ok record =>
      if record.ino ≠ 0 ∧ namesEq (nameAt block off record.nameLen) name then
        let regionStart := prevOff.elim off (· + 4)
        let regionEnd := off + dirEntryHeaderLen
        let edit : DirBlockEdit :=
          ⟨regionStart, (block.drop regionStart).take (regionEnd - regionStart)⟩
        let merged : Outcome Unit :=
          match prevOff with
          | none => .ok () block
          | some prevOff =>
            if off + record.recLen < prevOff then
              .error (.format "merged rec_len underflow") block
            else if 65535 < off + record.recLen - prevOff then
              .error (.format "merged rec_len exceeds u16") block
            else
              match writeU16Le block (prevOff + 4) (off + record.recLen - prevOff) with
              | .error e => .error e block
              | .ok block => .ok () block
        match merged with
        | .error e block => .error e block
        | .ok () block =>
          match clearEntry block off with
          | .error e => .error e block
          | .ok block => .ok (some (record.ino, edit)) block
      else
        let prevOff := if record.ino ≠ 0 then some off else prevOff
        removeEntryFrom block name limit (off + record.recLen) prevOff
  else .ok none block
termination_by limit - off
decreasing_by
  have := record.min
  unfold dirEntryHeaderLen at *
  omega

def removeEntryTakeInodeTracked (block name : Bytes) (reservedTail : Nat) :
    Outcome (Option (Nat × DirBlockEdit)) :=
  match validateName name with
  | .error e => .error e block
  | .ok () =>
    match validateReservedTail block.length reservedTail with
    | .error e => .error e block
    | .ok limit =>
      if isInteriorHtreeDxNodeBlock block then .ok none block
      else removeEntryFrom block name limit 0 none

def updateLiveEntryFrom (block name : Bytes) (newIno : Nat) (newFileType : Option Ext4FileType)
    (limit off : Nat) : Outcome Bool :=
  if off + dirEntryHeaderLen ≤ limit then
    match readRecord block limit off with
    | .error e => .error e block
    | .ok record =>
      if record.ino ≠ 0 ∧ namesEq (nameAt block off record.nameLen) name then
        match writeU32Le block off newIno with
        | .error e => .error e block
        | .ok block =>
          match newFileType with
          | none => .ok true block
          | some fileType => .ok true (overwrite (off + 7) [fileType.code] block)
      else updateLiveEntryFrom block name newIno newFileType limit (off + record.recLen)
  else .ok false block
termination_by limit - off
decreasing_by
  have := record.min
  unfold dirEntryHeaderLen at *
  omega

def updateLiveEntryHeader (block name : Bytes) (newIno : Nat) (newFileType : Option Ext4FileType)
    (reservedTail : Nat) : Outcome Bool :=
  match validateName name with
  | .error e => .error e block
  | .ok () =>
    if newIno = 0 then .error (.format "directory entry inode cannot be zero") block
    else
      match validateReservedTail block.length reservedTail with
      | .error e => .error e block
      | .ok limit =>
        if isInteriorHtreeDxNodeBlock block then .ok false block
        else updateLiveEntryFrom block name newIno newFileType limit 0

/-! ## The operations of a directory -/

def Outcome.map {α β : Type} (f : α → β) : Outcome α → Outcome β
  | .ok a block => .ok (f a) block
  | .error e block => .error e block

def addEntry (block : Bytes) (ino : Nat) (name : Bytes) (fileType : Ext4FileType)
    (reservedTail : Nat) : Outcome Nat :=
  Outcome.map Prod.fst (addEntryTracked block ino name fileType reservedTail)

def addEntryRejectExisting (block : Bytes) (ino : Nat) (name : Bytes) (fileType : Ext4FileType)
    (reservedTail : Nat) : Outcome Nat :=
  Outcome.map Prod.fst (addEntryRejectExistingTracked block ino name fileType reservedTail)

def removeEntryTakeInode (block name : Bytes) (reservedTail : Nat) : Outcome (Option Nat) :=
  Outcome.map (Option.map Prod.fst) (removeEntryTakeInodeTracked block name reservedTail)

def removeEntry (block name : Bytes) (reservedTail : Nat) : Outcome Bool :=
  Outcome.map Option.isSome (removeEntryTakeInode block name reservedTail)

def retargetEntry (block name : Bytes) (newIno : Nat) (newFileType : Ext4FileType)
    (reservedTail : Nat) : Outcome Bool :=
  updateLiveEntryHeader block name newIno (some newFileType) reservedTail

def dotName : Bytes := [0x2E]

def dotDotName : Bytes := [0x2E, 0x2E]

def checksumTail : Bytes := toLe 4 0 ++ toLe 2 12 ++ [0, ext4FtDirCsum] ++ toLe 4 0

def initDirBlock (block : Bytes) (selfIno parentIno reservedTail : Nat) : Outcome Unit :=
  if selfIno = 0 then .error (.format "directory self inode cannot be zero") block
  else if parentIno = 0 then .error (.format "directory parent inode cannot be zero") block
  else
    match validateReservedTail block.length reservedTail with
    | .error e => .error e block
    | .ok usableLen =>
      if usableLen < requiredRecLen 1 + requiredRecLen 2 then
        .error (.format "directory block too small for . and .. entries") block
      else
        let block := List.replicate block.length 0
        let dotLen := requiredRecLen 1
        match writeEntry block 0 selfIno dotLen .dir dotName with
        | .error e => .error e block
        | .ok block =>
          match writeEntry block dotLen parentIno (usableLen - dotLen) .dir dotDotName with
          | .error e => .error e block
          | .ok block =>
            if 12 ≤ reservedTail then
              .ok () (overwrite (block.length - reservedTail) checksumTail block)
            else .ok () block

end FrankenFs.Dir
