import FrankenFs.Dir.Reuse
import Mathlib.Data.List.Nodup
import Mathlib.Logic.Function.Basic

/-!
# A directory block is a finite map

The live entries stand for a map from names to inodes and types. An operation does to the map what it
does to the block, or it fails and changes nothing.
-/

namespace FrankenFs.Dir

open FrankenFs.Lib

abbrev DirMap := Bytes → Option (Nat × Ext4FileType)

structure Represents (entries : List LiveEntry) (m : DirMap) : Prop where
  nodup : (entries.map LiveEntry.name).Nodup
  mem_iff : ∀ e, e ∈ entries ↔ ∃ fileType, m e.name = some (e.ino, fileType) ∧
    e.fileType = fileType.code.toNat

section Represents

variable {entries entries' : List LiveEntry} {m : DirMap} {e : LiveEntry}

theorem Represents.absent (h : Represents entries m) {name : Bytes} (hnone : m name = none) :
    ∀ e ∈ entries, e.name ≠ name := by
  rintro e he rfl
  obtain ⟨fileType, hsome, -⟩ := (h.mem_iff e).mp he
  rw [hnone] at hsome
  cases hsome

theorem nodup_of_inserted (h : Inserted e entries entries') :
    (entries'.map LiveEntry.name).Nodup ↔
      (∀ x ∈ entries, x.name ≠ e.name) ∧ (entries.map LiveEntry.name).Nodup := by
  obtain ⟨before, after, rfl, rfl⟩ := h
  rw [List.map_append, List.map_cons, List.nodup_middle, ← List.map_append, List.nodup_cons]
  refine and_congr ?_ Iff.rfl
  rw [List.mem_map]
  push Not
  rfl

theorem mem_of_inserted (h : Inserted e entries entries') (x : LiveEntry) :
    x ∈ entries' ↔ x = e ∨ x ∈ entries := by
  obtain ⟨before, after, rfl, rfl⟩ := h
  simp only [List.mem_append, List.mem_cons]
  tauto

theorem Represents.insert (h : Represents entries m) (hinserted : Inserted e entries entries')
    (hnone : m e.name = none) {fileType : Ext4FileType} (htype : e.fileType = fileType.code.toNat) :
    Represents entries' (Function.update m e.name (some (e.ino, fileType))) where
  nodup := (nodup_of_inserted hinserted).mpr ⟨h.absent hnone, h.nodup⟩
  mem_iff x := by
    rw [mem_of_inserted hinserted, h.mem_iff]
    by_cases hname : x.name = e.name
    · rw [hname, Function.update_self, hnone]
      constructor
      · rintro (rfl | ⟨fileType', hsome, -⟩)
        · exact ⟨fileType, rfl, htype⟩
        · cases hsome
      · rintro ⟨fileType', hsome, htype'⟩
        obtain ⟨hino, rfl⟩ := Prod.mk.inj (Option.some.inj hsome)
        exact .inl (LiveEntry.ext hname hino.symm (htype'.trans htype.symm))
    · rw [Function.update_of_ne hname]
      exact or_iff_right fun hx => hname (congrArg LiveEntry.name hx)

theorem Represents.erase (h : Represents entries' m) (hinserted : Inserted e entries entries') :
    Represents entries (Function.update m e.name none) where
  nodup := ((nodup_of_inserted hinserted).mp h.nodup).2
  mem_iff x := by
    have hother := ((nodup_of_inserted hinserted).mp h.nodup).1
    by_cases hname : x.name = e.name
    · rw [hname, Function.update_self]
      exact iff_of_false (fun hx => hother x hx hname) (by simp)
    · rw [Function.update_of_ne hname, ← h.mem_iff, mem_of_inserted hinserted]
      exact (or_iff_right fun hx => hname (congrArg LiveEntry.name hx)).symm

end Represents

/-! ## Runs -/

inductive DirOp where
  | addEntry (ino : BitVec 32) (name : Bytes) (fileType : Ext4FileType)
  | addEntryRejectExisting (ino : BitVec 32) (name : Bytes) (fileType : Ext4FileType)
  | removeEntry (name : Bytes)
  | retargetEntry (name : Bytes) (newIno : BitVec 32) (newFileType : Ext4FileType)

inductive Reply where
  | added (off : Nat)
  | removed (ino : Option Nat)
  | retargeted (found : Bool)
deriving DecidableEq

def DirOp.run (op : DirOp) (block : Bytes) (reservedTail : Nat) : Outcome Reply :=
  match op with
  | .addEntry ino name fileType =>
    Outcome.map .added (Dir.addEntry block ino.toNat name fileType reservedTail)
  | .addEntryRejectExisting ino name fileType =>
    Outcome.map .added (Dir.addEntryRejectExisting block ino.toNat name fileType reservedTail)
  | .removeEntry name => Outcome.map .removed (removeEntryTakeInode block name reservedTail)
  | .retargetEntry name newIno newFileType =>
    Outcome.map .retargeted (Dir.retargetEntry block name newIno.toNat newFileType reservedTail)

/-- `add_entry` is for names that are not there. -/
def DirOp.Allowed (m : DirMap) : DirOp → Prop
  | .addEntry _ name _ => m name = none
  | _ => True

/-- What the operation does to the map when it returns this. -/
def DirMap.after (m : DirMap) : DirOp → Reply → DirMap
  | .addEntry ino name fileType, .added _ => Function.update m name (some (ino.toNat, fileType))
  | .addEntryRejectExisting ino name fileType, .added _ =>
    Function.update m name (some (ino.toNat, fileType))
  | .removeEntry name, .removed (some _) => Function.update m name none
  | .retargetEntry name newIno newFileType, .retargeted true =>
    Function.update m name (some (newIno.toNat, newFileType))
  | _, _ => m

/-- The answers of a map. Only an insertion may also find no space. -/
def DirMap.Answers (m : DirMap) : DirOp → Except FfsError Reply → Prop
  | .addEntry ino name _, reply =>
    if ino = 0 then reply = .error (.format "directory entry inode cannot be zero")
    else match validateName name with
      | .error e => reply = .error e
      | .ok () => reply = .error .noSpace ∨ ∃ off, reply = .ok (.added off)
  | .addEntryRejectExisting ino name _, reply =>
    if ino = 0 then reply = .error (.format "directory entry inode cannot be zero")
    else match validateName name with
      | .error e => reply = .error e
      | .ok () =>
        if (m name).isSome then reply = .error .entryExists
        else reply = .error .noSpace ∨ ∃ off, reply = .ok (.added off)
  | .removeEntry name, reply =>
    match validateName name with
    | .error e => reply = .error e
    | .ok () => reply = .ok (.removed ((m name).map Prod.fst))
  | .retargetEntry name newIno _, reply =>
    match validateName name with
    | .error e => reply = .error e
    | .ok () =>
      if newIno = 0 then reply = .error (.format "directory entry inode cannot be zero")
      else reply = .ok (.retargeted (m name).isSome)

/-- The records tile the block up to its tail, and their live entries are those of the map. -/
def Refines (block tail : Bytes) (m : DirMap) : Prop :=
  ∃ segs, block = flat segs ++ tail ∧ Represents (liveEntries segs) m

/-- An operation on the block does to the map what it does to the block, or fails and changes
nothing. -/
def Simulates (m : DirMap) (block tail : Bytes) (op : DirOp) : Outcome Reply → Prop
  | .ok reply block' => m.Answers op (.ok reply) ∧ block'.length = block.length ∧
      Refines block' tail (m.after op reply)
  | .error e block' => m.Answers op (.error e) ∧ block' = block

/-! ## Each operation -/

theorem Segment.Named.asEntry {s : Segment} {name : Bytes} (h : s.Named name) :
    s.asEntry = some ⟨name, s.ino, s.fileType⟩ := by
  unfold Segment.asEntry
  rw [if_neg h.1, h.2]

theorem liveEntries_named {s : Segment} {name : Bytes} (h : s.Named name) :
    liveEntries [s] = [⟨name, s.ino, s.fileType⟩] := by
  unfold liveEntries
  rw [List.filterMap_cons, h.asEntry]
  rfl

theorem Removed.inserted {name tail : Bytes} {segs : List Segment}
    {outcome : Outcome (Option (Nat × DirBlockEdit))} (h : Removed name tail segs outcome)
    {found : Nat × DirBlockEdit} {block : Bytes} (hok : outcome = .ok (some found) block) :
    ∃ segs' fileType, block = flat segs' ++ tail ∧ (flat segs').length = (flat segs).length ∧
      Inserted ⟨name, found.1, fileType⟩ (liveEntries segs') (liveEntries segs) := by
  cases h with
  | absent => cases hok
  | tooLong => cases hok
  | @cleared before after s edit hsegs hnamed hfree =>
    cases hok
    refine ⟨before ++ s.clear :: after, s.fileType, rfl, ?_, liveEntries before,
      liveEntries after, ?_, ?_⟩
    · simp only [hsegs, flat_append, flat_cons, List.length_append, s.length_clear]
    · have hclear : liveEntries [s.clear] = [] := liveEntries_of_free (by simpa using s.ino_clear)
      rw [liveEntries_append, liveEntries_cons, hclear]
      rfl
    · rw [hsegs, liveEntries_append, liveEntries_cons, liveEntries_named hnamed]
      rfl
  | @merged before free after prev s edit haligned hlt hsegs hnamed hlive hfree =>
    cases hok
    have hlen := prev.length_absorb haligned hlt
    rw [List.length_append, s.length_clear] at hlen
    have hprev : liveEntries [prev.absorb (flat free ++ s.clear.bytes) haligned hlt] =
        liveEntries [prev] := by
      unfold liveEntries
      rw [List.filterMap_cons, List.filterMap_cons, prev.asEntry_absorb]
    refine ⟨_, s.fileType, rfl, ?_, liveEntries before ++ liveEntries [prev],
      liveEntries after, ?_, ?_⟩
    · simp only [hsegs, flat_append, flat_cons, List.length_append, hlen]
      omega
    · rw [liveEntries_append, liveEntries_cons, hprev, List.append_assoc]
    · rw [hsegs, liveEntries_append, liveEntries_cons, liveEntries_append, liveEntries_cons s,
        liveEntries_of_free hfree, liveEntries_named hnamed, List.append_assoc]
      rfl

section Steps

variable {segs : List Segment} {tail name : Bytes} {m : DirMap}

theorem exists_named_iff (hrep : Represents (liveEntries segs) m) :
    (∃ s ∈ segs, s.Named name) ↔ (m name).isSome = true := by
  constructor
  · rintro ⟨s, hs, hnamed⟩
    have hmem : (⟨name, s.ino, s.fileType⟩ : LiveEntry) ∈ liveEntries segs :=
      List.mem_filterMap.mpr ⟨s, hs, hnamed.asEntry⟩
    obtain ⟨fileType, hsome, -⟩ := (hrep.mem_iff _).mp hmem
    rw [hsome]
    rfl
  · intro hsome
    obtain ⟨found, hfound⟩ := Option.isSome_iff_exists.mp hsome
    have hmem := (hrep.mem_iff ⟨name, found.1, found.2.code.toNat⟩).mpr ⟨found.2, hfound, rfl⟩
    obtain ⟨s, hs, hentry⟩ := List.mem_filterMap.mp hmem
    unfold Segment.asEntry at hentry
    split_ifs at hentry with hfree
    exact ⟨s, hs, hfree, congrArg LiveEntry.name (Option.some.inj hentry)⟩

variable (hrep : Represents (liveEntries segs) m)
  (htail : validateReservedTail (flat segs ++ tail).length tail.length = .ok (flat segs).length)

include hrep htail

theorem addEntryTracked_simulates {op : DirOp} {ino : BitVec 32} {fileType : Ext4FileType}
    (hnone : m name = none) (hino : ino ≠ 0) (hname : validateName name = .ok ())
    (hadded : ∀ off, m.Answers op (.ok (.added off)))
    (hnoSpace : m.Answers op (.error .noSpace))
    (hafter : ∀ off, m.after op (.added off) = Function.update m name (some (ino.toNat, fileType))) :
    Simulates m (flat segs ++ tail) tail op
      (Outcome.map .added (Outcome.map Prod.fst
        (addEntryTracked (flat segs ++ tail) ino.toNat name fileType tail.length))) := by
  have hzero : ino.toNat ≠ 0 := fun h => hino (BitVec.eq_of_toNat_eq h)
  by_cases hroom : requiredRecLen name.length ≤ (flat segs).length
  · by_cases hinterior : isInteriorHtreeDxNodeBlock (flat segs ++ tail) = true
    · unfold addEntryTracked
      rw [if_neg hzero, hname]
      dsimp only
      rw [htail]
      dsimp only
      rw [if_neg (Nat.not_lt.mpr hroom), if_pos hinterior]
      exact ⟨hnoSpace, rfl⟩
    · have hplaced := @addEntryTracked_segments segs tail name ino.toNat fileType hzero ino.isLt
        hname htail hroom hinterior
      rcases hplaced with ⟨off, edit, segs', hok, hlen, hinserted⟩ | ⟨herror, -⟩
      · rw [hok]
        refine ⟨hadded off, ?_, segs', rfl, ?_⟩
        · rw [List.nil_append, List.length_append, List.length_append, hlen]
        · rw [hafter]
          exact hrep.insert hinserted hnone rfl
      · rw [herror]
        exact ⟨hnoSpace, rfl⟩
  · unfold addEntryTracked
    rw [if_neg hzero, hname]
    dsimp only
    rw [htail]
    dsimp only
    rw [if_pos (Nat.lt_of_not_le hroom)]
    exact ⟨hnoSpace, rfl⟩

theorem addEntry_simulates (ino : BitVec 32) (fileType : Ext4FileType) (hnone : m name = none) :
    Simulates m (flat segs ++ tail) tail (.addEntry ino name fileType)
      ((DirOp.addEntry ino name fileType).run (flat segs ++ tail) tail.length) := by
  unfold DirOp.run addEntry
  dsimp only
  by_cases hino : ino = 0
  · subst hino
    refine ⟨?_, rfl⟩
    unfold DirMap.Answers
    dsimp only
    rw [if_pos rfl]
  cases hname : validateName name with
  | error e =>
    have hzero : ino.toNat ≠ 0 := fun h => hino (BitVec.eq_of_toNat_eq h)
    unfold addEntryTracked
    rw [if_neg hzero, hname]
    refine ⟨?_, rfl⟩
    unfold DirMap.Answers
    dsimp only
    rw [if_neg hino, hname]
  | ok _ =>
    refine addEntryTracked_simulates hrep htail hnone hino hname ?_ ?_ (fun _ => rfl)
    · intro off
      unfold DirMap.Answers
      dsimp only
      rw [if_neg hino, hname]
      exact .inr ⟨off, rfl⟩
    · unfold DirMap.Answers
      dsimp only
      rw [if_neg hino, hname]
      exact .inl rfl

theorem addEntryRejectExisting_simulates (ino : BitVec 32) (fileType : Ext4FileType) :
    Simulates m (flat segs ++ tail) tail (.addEntryRejectExisting ino name fileType)
      ((DirOp.addEntryRejectExisting ino name fileType).run (flat segs ++ tail) tail.length) := by
  unfold DirOp.run addEntryRejectExisting
  dsimp only
  by_cases hino : ino = 0
  · subst hino
    refine ⟨?_, rfl⟩
    unfold DirMap.Answers
    dsimp only
    rw [if_pos rfl]
  have hzero : ino.toNat ≠ 0 := fun h => hino (BitVec.eq_of_toNat_eq h)
  cases hname : validateName name with
  | error e =>
    unfold addEntryRejectExistingTracked
    rw [if_neg hzero, hname]
    refine ⟨?_, rfl⟩
    unfold DirMap.Answers
    dsimp only
    rw [if_neg hino, hname]
  | ok _ =>
    have hnamed := @exists_named_iff segs name m hrep
    -- The entry itself shows that its name is not too long for the block.
    have hfits : (m name).isSome = true → requiredRecLen name.length ≤ (flat segs).length := by
      intro hsome
      obtain ⟨s, hs, hs'⟩ := hnamed.mpr hsome
      rw [← hs'.2, s.length_name]
      exact s.requiredRecLen_le.trans (mem_length_le hs)
    have hanswers : ∀ reply, m.Answers (.addEntryRejectExisting ino name fileType) reply ↔
        if (m name).isSome then reply = .error .entryExists
        else reply = .error .noSpace ∨ ∃ off, reply = .ok (.added off) := by
      intro reply
      unfold DirMap.Answers
      dsimp only
      rw [if_neg hino, hname]
    by_cases hroom : requiredRecLen name.length ≤ (flat segs).length
    · have hscans : Scans (flat segs ++ tail) ino.toNat name tail.length := by
        refine ⟨hzero, fun limit _ hlimit => ?_⟩
        rw [htail] at hlimit
        cases hlimit
        exact hroom
      rw [addEntryRejectExistingTracked_eq_of_scans hscans]
      have hcontains : ∃ found, blockContainsLiveName (flat segs ++ tail) name tail.length =
          .ok found ∧ (found = true ↔ (m name).isSome = true) := by
        unfold blockContainsLiveName
        rw [hname]
        dsimp only
        rw [htail]
        dsimp only
        by_cases hinterior : isInteriorHtreeDxNodeBlock (flat segs ++ tail) = true
        · rw [if_pos hinterior]
          refine ⟨false, rfl, iff_of_false (by simp) (fun hsome => ?_)⟩
          obtain ⟨s, hs, hs'⟩ := hnamed.mpr hsome
          exact hs'.1 (free_of_interior hinterior s hs)
        · rw [if_neg hinterior, ← hnamed]
          exact containsLiveNameFrom_segments [] tail name segs
            (by rw [List.length_nil, Nat.zero_add])
      obtain ⟨found, hfound, hiff⟩ := hcontains
      unfold checkThenAdd
      rw [hfound]
      cases found with
      | true =>
        refine ⟨?_, rfl⟩
        rw [hanswers, if_pos (hiff.mp rfl)]
      | false =>
        have hnone : ¬ (m name).isSome = true := fun hsome => Bool.noConfusion (hiff.mpr hsome)
        refine addEntryTracked_simulates hrep htail (by simpa using hnone) hino hname ?_ ?_
          (fun _ => rfl)
        · intro off
          rw [hanswers, if_neg hnone]
          exact .inr ⟨off, rfl⟩
        · rw [hanswers, if_neg hnone]
          exact .inl rfl
    · unfold addEntryRejectExistingTracked
      rw [if_neg hzero, hname]
      dsimp only
      rw [htail]
      dsimp only
      rw [if_pos (Nat.lt_of_not_le hroom)]
      refine ⟨?_, rfl⟩
      rw [hanswers, if_neg (fun hsome => hroom (hfits hsome))]
      exact .inl rfl

theorem removeEntry_simulates (hmax : (flat segs).length ≤ 65535) :
    Simulates m (flat segs ++ tail) tail (.removeEntry name)
      ((DirOp.removeEntry name).run (flat segs ++ tail) tail.length) := by
  unfold DirOp.run removeEntryTakeInode
  dsimp only
  cases hname : validateName name with
  | error e =>
    unfold removeEntryTakeInodeTracked
    rw [hname]
    refine ⟨?_, rfl⟩
    unfold DirMap.Answers
    dsimp only
    rw [hname]
  | ok _ =>
    have hremoved := @removeEntryTakeInodeTracked_segments segs tail name hname htail
    have hanswers : ∀ reply, m.Answers (.removeEntry name) reply ↔
        reply = .ok (.removed ((m name).map Prod.fst)) := by
      intro reply
      unfold DirMap.Answers
      dsimp only
      rw [hname]
    generalize houtcome : removeEntryTakeInodeTracked (flat segs ++ tail) name tail.length =
      outcome at hremoved
    have hinserted := @Removed.inserted name tail segs outcome hremoved
    match outcome with
    | .ok (some found) block' =>
      obtain ⟨segs', fileType, rfl, hlen, htaken⟩ := hinserted rfl
      have hmem := (mem_of_inserted htaken _).mpr (.inl rfl)
      obtain ⟨fileType', hsome, -⟩ := (hrep.mem_iff _).mp hmem
      refine ⟨?_, ?_, segs', rfl, hrep.erase htaken⟩
      · rw [hanswers]
        dsimp only at hsome
        rw [hsome]
        rfl
      · rw [List.length_append, List.length_append, hlen]
    | .ok none block' =>
      cases hremoved with
      | absent habsent =>
        refine ⟨?_, rfl, segs, rfl, hrep⟩
        have hnone : ¬ (m name).isSome = true := fun hsome => by
          obtain ⟨s, hs, hnamed⟩ := (exists_named_iff hrep).mpr hsome
          exact habsent s hs hnamed
        rw [hanswers, Option.not_isSome_iff_eq_none.mp hnone]
        rfl
    | .error e block' =>
      cases hremoved with
      | @tooLong before free after prev s hsegs hlong =>
        rw [hsegs] at hmax
        simp only [flat_append, flat_cons, List.length_append] at hmax
        omega

theorem retargetEntry_simulates (newIno : BitVec 32) (newFileType : Ext4FileType) :
    Simulates m (flat segs ++ tail) tail (.retargetEntry name newIno newFileType)
      ((DirOp.retargetEntry name newIno newFileType).run (flat segs ++ tail) tail.length) := by
  unfold DirOp.run retargetEntry updateLiveEntryHeader
  dsimp only
  cases hname : validateName name with
  | error e =>
    refine ⟨?_, rfl⟩
    unfold DirMap.Answers
    dsimp only
    rw [hname]
  | ok _ =>
    dsimp only
    by_cases hino : newIno = 0
    · subst hino
      refine ⟨?_, rfl⟩
      unfold DirMap.Answers
      dsimp only
      rw [hname]
      rfl
    have hzero : newIno.toNat ≠ 0 := fun h => hino (BitVec.eq_of_toNat_eq h)
    have hanswers : ∀ reply, m.Answers (.retargetEntry name newIno newFileType) reply ↔
        reply = .ok (.retargeted (m name).isSome) := by
      intro reply
      unfold DirMap.Answers
      dsimp only
      rw [hname]
      dsimp only
      rw [if_neg hino]
    have hnamed := @exists_named_iff segs name m hrep
    have habsent : (∀ s ∈ segs, ¬ s.Named name) →
        Simulates m (flat segs ++ tail) tail (.retargetEntry name newIno newFileType)
          (.ok (.retargeted false) (flat segs ++ tail)) := by
      intro hnone
      refine ⟨?_, rfl, segs, rfl, hrep⟩
      have hfalse : (m name).isSome = false := by
        rw [Bool.eq_false_iff]
        intro hsome
        obtain ⟨s, hs, hs'⟩ := hnamed.mpr hsome
        exact hnone s hs hs'
      rw [hanswers, hfalse]
    rw [if_neg hzero, htail]
    dsimp only
    by_cases hinterior : isInteriorHtreeDxNodeBlock (flat segs ++ tail) = true
    · rw [if_pos hinterior]
      exact habsent fun s hs hs' => hs'.1 (free_of_interior hinterior s hs)
    · rw [if_neg hinterior]
      have hupdated := @updateLiveEntryFrom_segments [] name tail newIno.toNat (some newFileType)
        segs _ (by rw [List.length_nil, Nat.zero_add])
      rw [List.nil_append, List.length_nil] at hupdated
      generalize updateLiveEntryFrom (flat segs ++ tail) name newIno.toNat (some newFileType)
        (flat segs).length 0 = outcome at hupdated
      cases hupdated with
      | absent hnone => exact habsent hnone
      | @changed before after s hsegs hs' =>
        have hold : Inserted ⟨name, s.ino, s.fileType⟩ (liveEntries before ++ liveEntries after)
            (liveEntries segs) := by
          refine ⟨_, _, rfl, ?_⟩
          rw [hsegs, liveEntries_append, liveEntries_cons, liveEntries_named hs']
          rfl
        have hnew : Inserted ⟨name, newIno.toNat, newFileType.code.toNat⟩
            (liveEntries before ++ liveEntries after)
            (liveEntries (before ++ s.retarget newIno.toNat (some newFileType) :: after)) := by
          refine ⟨_, _, rfl, ?_⟩
          rw [liveEntries_append]
          unfold liveEntries
          rw [List.filterMap_cons, s.asEntry_retarget hzero newIno.isLt, hs'.2]
        refine ⟨?_, ?_, _, rfl, ?_⟩
        · rw [hanswers, hnamed.mp ⟨s, by rw [hsegs]; simp, hs'⟩]
        · have hlen : (s.retarget newIno.toNat (some newFileType)).bytes.length =
              s.bytes.length := by
            unfold Segment.retarget Segment.setType Segment.setIno
            dsimp only
            rw [Segment.length_patch, Segment.length_patch]
          simp only [hsegs, List.nil_append, flat_append, flat_cons, List.length_append, hlen]
        · have hboth := (hrep.erase hold).insert hnew (Function.update_self _ _ _) rfl
          rw [Function.update_idem] at hboth
          exact hboth

theorem run_simulates (op : DirOp) (hallowed : op.Allowed m) (hmax : (flat segs).length ≤ 65535) :
    Simulates m (flat segs ++ tail) tail op (op.run (flat segs ++ tail) tail.length) := by
  cases op with
  | addEntry ino name fileType => exact addEntry_simulates hrep htail ino fileType hallowed
  | addEntryRejectExisting ino name fileType =>
    exact addEntryRejectExisting_simulates hrep htail ino fileType
  | removeEntry name => exact removeEntry_simulates hrep htail hmax
  | retargetEntry name newIno newFileType =>
    exact retargetEntry_simulates hrep htail newIno newFileType

end Steps

/-! ## The first block -/

def DirMap.initial (selfIno parentIno : BitVec 32) : DirMap :=
  Function.update (Function.update (fun _ => none) dotDotName (some (parentIno.toNat, .dir)))
    dotName (some (selfIno.toNat, .dir))

theorem represents_initial (selfIno parentIno : BitVec 32) :
    Represents [⟨dotName, selfIno.toNat, Ext4FileType.dir.code.toNat⟩,
      ⟨dotDotName, parentIno.toNat, Ext4FileType.dir.code.toNat⟩]
      (DirMap.initial selfIno parentIno) := by
  have hempty : Represents [] fun _ => none := ⟨List.nodup_nil, by simp⟩
  have hone := hempty.insert (e := ⟨dotDotName, parentIno.toNat, Ext4FileType.dir.code.toNat⟩)
    ⟨[], [], rfl, rfl⟩ rfl rfl
  exact hone.insert (e := ⟨dotName, selfIno.toNat, Ext4FileType.dir.code.toNat⟩)
    ⟨[], _, rfl, rfl⟩ (Function.update_of_ne (show dotName ≠ dotDotName by decide) _ _) rfl

theorem initDirBlock_ok {block first : Bytes} {selfIno parentIno reservedTail : Nat}
    (hinit : initDirBlock block selfIno parentIno reservedTail = .ok () first) :
    selfIno ≠ 0 ∧ parentIno ≠ 0 ∧ ∃ usable,
      validateReservedTail block.length reservedTail = .ok usable ∧ 24 ≤ usable := by
  unfold initDirBlock at hinit
  by_cases hself : selfIno = 0
  · rw [if_pos hself] at hinit
    cases hinit
  by_cases hparent : parentIno = 0
  · rw [if_neg hself, if_pos hparent] at hinit
    cases hinit
  rw [if_neg hself, if_neg hparent] at hinit
  cases htail : validateReservedTail block.length reservedTail with
  | error e =>
    rw [htail] at hinit
    cases hinit
  | ok usable =>
    rw [htail] at hinit
    by_cases hroom : usable < requiredRecLen 1 + requiredRecLen 2
    · dsimp only at hinit
      rw [if_pos hroom] at hinit
      cases hinit
    · exact ⟨hself, hparent, usable, rfl, Nat.not_lt.mp hroom⟩

theorem initDirBlock_segments {block first : Bytes} {selfIno parentIno : BitVec 32}
    {reservedTail : Nat} (haligned : block.length % 4 = 0) (hmax : block.length ≤ 65532)
    (hinit : initDirBlock block selfIno.toNat parentIno.toNat reservedTail = .ok () first) :
    ∃ segs tail, first = flat segs ++ tail ∧ tail.length = reservedTail ∧
      first.length = block.length ∧
      validateReservedTail first.length reservedTail = .ok (flat segs).length ∧
      Represents (liveEntries segs) (DirMap.initial selfIno parentIno) := by
  obtain ⟨hself, hparent, usable, htail, hroom⟩ := initDirBlock_ok hinit
  obtain ⟨hodd, husable⟩ : reservedTail % 4 = 0 ∧ block.length = usable + reservedTail := by
    unfold validateReservedTail at htail
    split_ifs at htail with hshort hodd hlong
    cases htail
    omega
  let dot := Segment.new selfIno.toNat 12 .dir dotName (by decide) (by decide) (by decide)
    (by decide)
  let dotDot := Segment.new parentIno.toNat (usable - 12) .dir dotDotName (by decide)
    (show 12 ≤ _ by omega) (by omega) (by omega)
  have hdotLen : dot.bytes.length = 12 := length_entryBytes (by decide)
  have hdotDotLen : dotDot.bytes.length = usable - 12 := length_entryBytes (show 10 ≤ _ by omega)
  have hfirst : writeEntry (List.replicate block.length 0) 0 selfIno.toNat 12 .dir dotName =
      .ok (dot.bytes ++ List.replicate (block.length - 12) 0) := by
    have hwrite := @writeEntry_whole [] (List.replicate (block.length - 12) 0)
      (List.replicate 12 0) dotName selfIno.toNat .dir (by decide) (by decide) (by decide)
    rw [List.replicate_append_replicate, List.length_replicate,
      show 12 + (block.length - 12) = block.length by omega] at hwrite
    exact hwrite
  have hsecond : writeEntry (dot.bytes ++ List.replicate (block.length - 12) 0) 12
      parentIno.toNat (usable - 12) .dir dotDotName =
      .ok (dot.bytes ++ (dotDot.bytes ++ List.replicate reservedTail 0)) := by
    have hwrite := @writeEntry_whole dot.bytes (List.replicate reservedTail 0)
      (List.replicate (usable - 12) 0) dotDotName parentIno.toNat .dir (by decide)
      (by rw [List.length_replicate]; omega) (by rw [List.length_replicate]; exact (show 12 ≤ _ by omega))
    rw [List.replicate_append_replicate, List.length_replicate, hdotLen,
      show usable - 12 + reservedTail = block.length - 12 by omega] at hwrite
    exact hwrite
  have hentries : liveEntries [dot, dotDot] = [⟨dotName, selfIno.toNat, Ext4FileType.dir.code.toNat⟩,
      ⟨dotDotName, parentIno.toNat, Ext4FileType.dir.code.toNat⟩] := by
    have hdot : dot.asEntry = _ := Segment.asEntry_new _ _ _ _ hself selfIno.isLt
    have hdotDot : dotDot.asEntry = _ := Segment.asEntry_new _ _ _ _ hparent parentIno.isLt
    unfold liveEntries
    rw [List.filterMap_cons, hdot, List.filterMap_cons, hdotDot]
    rfl
  have hlen : (flat [dot, dotDot]).length = usable := by
    rw [flat_cons, flat_cons, flat_nil, List.length_append, List.length_append, hdotLen, hdotDotLen,
      List.length_nil]
    omega
  have hblock : dot.bytes ++ (dotDot.bytes ++ List.replicate reservedTail 0) =
      flat [dot, dotDot] ++ List.replicate reservedTail 0 := by
    rw [flat_cons, flat_cons, flat_nil, List.append_nil, List.append_assoc]
  obtain ⟨tail, rfl, hlenTail⟩ :
      ∃ tail, first = flat [dot, dotDot] ++ tail ∧ tail.length = reservedTail := by
    unfold initDirBlock at hinit
    rw [if_neg hself, if_neg hparent, htail] at hinit
    dsimp only at hinit
    rw [if_neg (show ¬ usable < requiredRecLen 1 + requiredRecLen 2 from Nat.not_lt.mpr hroom),
      show requiredRecLen 1 = 12 from rfl, hfirst] at hinit
    dsimp only at hinit
    rw [hsecond] at hinit
    dsimp only at hinit
    rw [hblock] at hinit
    by_cases hlong : 12 ≤ reservedTail
    · rw [if_pos hlong, List.length_append, List.length_replicate, Nat.add_sub_cancel,
        show reservedTail = 12 + (reservedTail - 12) by omega, ← List.replicate_append_replicate,
        overwrite_append_whole _ _ (by rfl)] at hinit
      cases hinit
      exact ⟨_, rfl, by rw [List.length_append, List.length_replicate]; exact
        (show 12 + _ = _ by omega)⟩
    · rw [if_neg hlong] at hinit
      cases hinit
      exact ⟨_, rfl, List.length_replicate⟩
  have hlength : (flat [dot, dotDot] ++ tail).length = block.length := by
    rw [List.length_append, hlen, hlenTail, husable]
  refine ⟨[dot, dotDot], tail, rfl, hlenTail, hlength, by rw [hlength, htail, hlen], ?_⟩
  rw [hentries]
  exact represents_initial selfIno parentIno

/-! ## Whole runs -/

inductive Run (reservedTail : Nat) (first : Bytes) (m₀ : DirMap) : Bytes → DirMap → Prop
  | start : Run reservedTail first m₀ first m₀
  | ok {block block' : Bytes} {m : DirMap} {op : DirOp} {reply : Reply} :
      Run reservedTail first m₀ block m → op.Allowed m →
      op.run block reservedTail = .ok reply block' →
      Run reservedTail first m₀ block' (m.after op reply)
  | error {block block' : Bytes} {m : DirMap} {op : DirOp} {e : FfsError} :
      Run reservedTail first m₀ block m → op.Allowed m →
      op.run block reservedTail = .error e block' →
      Run reservedTail first m₀ block' m

/-- **A directory block refines a finite map.** Whatever is called on a block that `init_dir_block`
made, the records tile it up to the tail, which stays as it was, the live entries are those of the
map, and the next operation answers as the map does and changes nothing when it fails. -/
theorem dirBlock_refines_map {block first : Bytes} {selfIno parentIno : BitVec 32}
    {reservedTail : Nat} (haligned : block.length % 4 = 0) (hmax : block.length ≤ 65532)
    (hinit : initDirBlock block selfIno.toNat parentIno.toNat reservedTail = .ok () first)
    {reached : Bytes} {m : DirMap}
    (hrun : Run reservedTail first (DirMap.initial selfIno parentIno) reached m) :
    reached.length = block.length ∧
    Refines reached (first.drop (block.length - reservedTail)) m ∧
    ∀ op : DirOp, op.Allowed m →
      Simulates m reached (first.drop (block.length - reservedTail)) op
        (op.run reached reservedTail) := by
  obtain ⟨segs, tail, rfl, rfl, hlen, htail, hrep⟩ := initDirBlock_segments haligned hmax hinit
  have hfirst : (flat segs ++ tail).drop (block.length - tail.length) = tail := by
    rw [← hlen, List.length_append, Nat.add_sub_cancel, List.drop_left]
  rw [hfirst]
  rw [hlen] at htail
  -- What a block of the same length and tail does next.
  have hnext : ∀ {b : Bytes} {m : DirMap}, b.length = block.length → Refines b tail m →
      ∀ op : DirOp, op.Allowed m → Simulates m b tail op (op.run b tail.length) := by
    rintro b m hb ⟨segs', rfl, hrep'⟩ op hallowed
    have hsame : (flat segs').length = (flat segs).length := by
      rw [List.length_append] at hb hlen
      omega
    refine run_simulates hrep' ?_ op hallowed ?_
    · rw [hb, htail, hsame]
    · rw [List.length_append] at hlen
      omega
  suffices hinv : reached.length = block.length ∧ Refines reached tail m from
    ⟨hinv.1, hinv.2, hnext hinv.1 hinv.2⟩
  induction hrun with
  | start => exact ⟨hlen, segs, rfl, hrep⟩
  | ok hprev hallowed hstep ih =>
    have hsim := hnext ih.1 ih.2 _ hallowed
    rw [hstep] at hsim
    exact ⟨hsim.2.1.trans ih.1, hsim.2.2⟩
  | error hprev hallowed hstep ih =>
    have hsim := hnext ih.1 ih.2 _ hallowed
    rw [hstep] at hsim
    rw [hsim.2]
    exact ih

theorem dirBlock_refines_map_file :
    ∃ first reached m, initDirBlock (List.replicate 52 0) 2 2 12 = .ok () first ∧
      Run 12 first (DirMap.initial 2 2) reached m ∧ m [0x61] = some (7, .regFile) ∧
      reached.length = 52 ∧ Refines reached (first.drop 40) m ∧
      ∀ op : DirOp, op.Allowed m →
        Simulates m reached (first.drop 40) op (op.run reached 12) := by
  let first := entryBytes 2 12 .dir dotName ++ entryBytes 2 28 .dir dotDotName ++ checksumTail
  let reached := entryBytes 2 12 .dir dotName ++ entryBytes 2 12 .dir dotDotName ++
    entryBytes 7 16 .regFile [0x61] ++ checksumTail
  have hinit : initDirBlock (List.replicate 52 0) (2 : BitVec 32).toNat (2 : BitVec 32).toNat 12 =
      .ok () first := by decide +kernel
  have hstep : (DirOp.addEntry 7 [0x61] .regFile).run first 12 = .ok (.added 24) reached := by
    decide +kernel
  have hrun := Run.ok (@Run.start 12 first (DirMap.initial 2 2))
    (show (DirOp.addEntry 7 [0x61] .regFile).Allowed (DirMap.initial 2 2) from rfl) hstep
  exact ⟨first, reached, _, hinit, hrun, rfl, dirBlock_refines_map (by decide) (by decide) hinit hrun⟩

end FrankenFs.Dir
