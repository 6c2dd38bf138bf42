import FrankenFs.Dir.Block

/-!
# One scan for the name and for a place

`add_entry_reject_existing` does in one scan what a scan for the name and one for the place do. They
differ in what is checked first: the one scan rejects inode 0 and a name that is too long for the
block before it looks at any record.
-/

namespace FrankenFs.Dir

open FrankenFs.Lib

def checkThenAdd (block : Bytes) (ino : Nat) (name : Bytes) (fileType : Ext4FileType)
    (reservedTail : Nat) : Outcome (Nat × Option DirBlockEdit) :=
  match blockContainsLiveName block name reservedTail with
  | .error e => .error e block
  | .ok true => .error .entryExists block
  | .ok false => addEntryTracked block ino name fileType reservedTail

variable {block name : Bytes} {need limit off : Nat}

theorem Record.requiredRecLen_le (record : Record limit off) :
    requiredRecLen record.nameLen ≤ record.recLen := by
  have haligned := record.aligned
  have hnamed := record.named
  unfold requiredRecLen align4 dirEntryHeaderLen
  omega

theorem rejectExistingFrom_some (slot : Slot) :
    rejectExistingFrom block name need limit off (some slot) =
      match containsLiveNameFrom block name limit off with
      | .error e => .error e
      | .ok true => .error .entryExists
      | .ok false => .ok (some slot) := by
  fun_induction containsLiveNameFrom block name limit off with
  | case1 off hlt e hread =>
    rw [rejectExistingFrom, if_pos hlt, hread]
  | case2 off hlt record hread hlive =>
    rw [rejectExistingFrom, if_pos hlt, hread]
    dsimp only
    rw [if_neg hlive.1, if_pos hlive.2]
  | case3 off hlt record hread hother ih =>
    rw [rejectExistingFrom, if_pos hlt, hread]
    dsimp only
    by_cases hfree : record.ino = 0
    · rw [if_pos hfree, if_neg (by simp)]
      exact ih
    · have hname : ¬ namesEq (nameAt block off record.nameLen) name = true :=
        fun hname => hother ⟨hfree, hname⟩
      rw [if_neg hfree, if_neg hname, if_neg (Nat.not_lt.mpr record.requiredRecLen_le),
        if_neg (by simp)]
      exact ih
  | case4 off hend => rw [rejectExistingFrom, if_neg hend]

theorem rejectExistingFrom_none (ino : Nat) (fileType : Ext4FileType) :
    match containsLiveNameFrom block name limit off with
    | .error e => rejectExistingFrom block name need limit off none = .error e
    | .ok true => rejectExistingFrom block name need limit off none = .error .entryExists
    | .ok false => ∃ slot, rejectExistingFrom block name need limit off none = .ok slot ∧
        addEntryFrom block ino name fileType need limit off =
          slot.elim (.error .noSpace block) (insertAt block ino name fileType) := by
  fun_induction containsLiveNameFrom block name limit off with
  | case1 off hlt e hread =>
    rw [rejectExistingFrom, if_pos hlt, hread]
  | case2 off hlt record hread hlive =>
    rw [rejectExistingFrom, if_pos hlt, hread]
    dsimp only
    rw [if_neg hlive.1, if_pos hlive.2]
  | case3 off hlt record hread hother ih =>
    rw [rejectExistingFrom, addEntryFrom, if_pos hlt, if_pos hlt, hread]
    dsimp only
    -- A place is taken here, or both scans go on.
    have htaken : ∀ slot,
        match containsLiveNameFrom block name limit (off + record.recLen) with
        | .error e =>
          rejectExistingFrom block name need limit (off + record.recLen) (some slot) = .error e
        | .ok true => rejectExistingFrom block name need limit (off + record.recLen) (some slot) =
            .error .entryExists
        | .ok false => ∃ found,
            rejectExistingFrom block name need limit (off + record.recLen) (some slot) = .ok found ∧
            insertAt block ino name fileType slot =
              found.elim (.error .noSpace block) (insertAt block ino name fileType) := by
      intro slot
      rw [rejectExistingFrom_some]
      generalize containsLiveNameFrom block name limit (off + record.recLen) = rest
      match rest with
      | .error e => rfl
      | .ok true => rfl
      | .ok false => exact ⟨some slot, rfl, rfl⟩
    by_cases hfree : record.ino = 0
    · rw [if_pos hfree, if_pos hfree]
      by_cases hfits : need ≤ record.recLen
      · rw [if_pos ⟨rfl, hfits⟩, if_pos hfits]
        exact htaken _
      · rw [if_neg (fun h => hfits h.2), if_neg hfits]
        exact ih
    · have hname : ¬ namesEq (nameAt block off record.nameLen) name = true :=
        fun hname => hother ⟨hfree, hname⟩
      have hroom := Nat.not_lt.mpr record.requiredRecLen_le
      rw [if_neg hfree, if_neg hfree, if_neg hname, if_neg hroom, if_neg hroom]
      by_cases hfits : need ≤ record.recLen - requiredRecLen record.nameLen
      · rw [if_pos ⟨rfl, hfits⟩, if_pos hfits]
        exact htaken _
      · rw [if_neg (fun h => hfits h.2), if_neg hfits]
        exact ih
  | case4 off hend =>
    rw [rejectExistingFrom, addEntryFrom, if_neg hend, if_neg hend]
    exact ⟨none, rfl, rfl⟩

/-! ## The whole operations -/

def Scans (block : Bytes) (ino : Nat) (name : Bytes) (reservedTail : Nat) : Prop :=
  ino ≠ 0 ∧ ∀ limit, validateName name = .ok () →
    validateReservedTail block.length reservedTail = .ok limit → requiredRecLen name.length ≤ limit

theorem addEntryRejectExistingTracked_eq_of_scans {ino reservedTail : Nat}
    {fileType : Ext4FileType} (h : Scans block ino name reservedTail) :
    addEntryRejectExistingTracked block ino name fileType reservedTail =
      checkThenAdd block ino name fileType reservedTail := by
  unfold addEntryRejectExistingTracked checkThenAdd blockContainsLiveName addEntryTracked
  rw [if_neg h.1]
  cases hname : validateName name with
  | error e => rfl
  | ok _ =>
    dsimp only
    cases htail : validateReservedTail block.length reservedTail with
    | error e => rfl
    | ok limit =>
      have hroom := Nat.not_lt.mpr (h.2 limit hname htail)
      dsimp only
      rw [if_neg h.1, if_neg hroom]
      by_cases hinterior : isInteriorHtreeDxNodeBlock block = true
      · rw [if_pos hinterior, if_pos hinterior]
        dsimp only
        rw [if_neg hroom, if_pos hinterior]
      · rw [if_neg hinterior, if_neg hinterior]
        have hscan := @rejectExistingFrom_none block name (requiredRecLen name.length) limit 0 ino
          fileType
        generalize containsLiveNameFrom block name limit 0 = found at hscan ⊢
        match found, hscan with
        | .error e, hscan => rw [hscan]
        | .ok true, hscan => rw [hscan]
        | .ok false, ⟨slot, hscan, hadd⟩ =>
          rw [hscan]
          dsimp only
          rw [if_neg hroom, if_neg hinterior, hadd]
          cases slot <;> rfl

theorem addEntryRejectExistingTracked_of_not_scans {ino reservedTail : Nat}
    {fileType : Ext4FileType} (h : ¬ Scans block ino name reservedTail) :
    ∃ e, (e = .format "directory entry inode cannot be zero" ∨ e = .noSpace) ∧
      addEntryRejectExistingTracked block ino name fileType reservedTail = .error e block ∧
      addEntryTracked block ino name fileType reservedTail = .error e block := by
  unfold addEntryRejectExistingTracked addEntryTracked
  by_cases hino : ino = 0
  · exact ⟨_, .inl rfl, if_pos hino, if_pos hino⟩
  · unfold Scans at h
    push Not at h
    obtain ⟨limit, hname, htail, hroom⟩ := h hino
    refine ⟨.noSpace, .inr rfl, ?_, ?_⟩
    · rw [if_neg hino, hname]
      dsimp only
      rw [htail]
      dsimp only
      rw [if_pos hroom]
    · rw [if_neg hino, hname]
      dsimp only
      rw [htail]
      dsimp only
      rw [if_pos hroom]

theorem containsLiveNameFrom_error {e : FfsError}
    (h : containsLiveNameFrom block name limit off = .error e) : ∃ detail, e = .corruption 0 detail := by
  fun_induction containsLiveNameFrom block name limit off with
  | case1 off hlt e' hread =>
    cases h
    unfold readRecord at hread
    dsimp only at hread
    split_ifs at hread
    · exact ⟨_, (Except.error.inj hread).symm⟩
    · exact ⟨_, (Except.error.inj hread).symm⟩
    · exact ⟨_, (Except.error.inj hread).symm⟩
  | case2 => cases h
  | case3 off hlt record hread hother ih => exact ih h
  | case4 => cases h

theorem blockContainsLiveName_error {reservedTail : Nat} {e : FfsError}
    (h : blockContainsLiveName block name reservedTail = .error e) :
    e ≠ .format "directory entry inode cannot be zero" ∧ e ≠ .noSpace := by
  unfold blockContainsLiveName at h
  cases hname : validateName name with
  | error e' =>
    rw [hname] at h
    cases h
    unfold validateName at hname
    split_ifs at hname
    all_goals
      cases hname
      exact ⟨by decide, by decide⟩
  | ok _ =>
    rw [hname] at h
    dsimp only at h
    cases htail : validateReservedTail block.length reservedTail with
    | error e' =>
      rw [htail] at h
      cases h
      unfold validateReservedTail at htail
      split_ifs at htail
      all_goals
        cases htail
        exact ⟨by decide, by decide⟩
    | ok limit =>
      rw [htail] at h
      dsimp only at h
      split_ifs at h
      obtain ⟨detail, rfl⟩ := containsLiveNameFrom_error h
      exact ⟨FfsError.noConfusion, FfsError.noConfusion⟩

/-- **The one scan does what two would do**, exactly when it comes to the records or the scan for
the name finds nothing. -/
theorem addEntryRejectExistingTracked_eq_iff (block : Bytes) (ino : Nat) (name : Bytes)
    (fileType : Ext4FileType) (reservedTail : Nat) :
    addEntryRejectExistingTracked block ino name fileType reservedTail =
        checkThenAdd block ino name fileType reservedTail ↔
      Scans block ino name reservedTail ∨
        blockContainsLiveName block name reservedTail = .ok false := by
  by_cases hscans : Scans block ino name reservedTail
  · exact ⟨fun _ => .inl hscans, fun _ => addEntryRejectExistingTracked_eq_of_scans hscans⟩
  obtain ⟨e, he, hfused, hadd⟩ :=
    @addEntryRejectExistingTracked_of_not_scans block name ino reservedTail fileType hscans
  unfold checkThenAdd
  rw [hfused, hadd]
  cases hfound : blockContainsLiveName block name reservedTail with
  | error e' =>
    have hne := blockContainsLiveName_error hfound
    refine ⟨fun h => ?_, fun h => ?_⟩
    · cases h
      rcases he with he | he
      · exact absurd he hne.1
      · exact absurd he hne.2
    · rcases h with h | h
      · exact absurd h hscans
      · cases h
  | ok found =>
    cases found with
    | false => exact ⟨fun _ => .inr rfl, fun _ => rfl⟩
    | true =>
      refine ⟨fun h => ?_, fun h => ?_⟩
      · cases h
        rcases he with he | he <;> cases he
      · rcases h with h | h
        · exact absurd h hscans
        · cases h

def oneEntryBlock : Bytes := entryHeader 1 12 1 Ext4FileType.regFile.code ++ [0x61, 0, 0, 0]

/-- A name that is there is reported as the caller's inode 0, and a corrupt chain as a lack of
space. -/
theorem addEntryRejectExistingTracked_other_error :
    (addEntryRejectExistingTracked oneEntryBlock 0 [0x61] .regFile 0 =
        .error (.format "directory entry inode cannot be zero") oneEntryBlock ∧
      checkThenAdd oneEntryBlock 0 [0x61] .regFile 0 = .error .entryExists oneEntryBlock) ∧
    (addEntryRejectExistingTracked (List.replicate 12 0) 7 (List.replicate 5 0x61) .regFile 0 =
        .error .noSpace (List.replicate 12 0) ∧
      checkThenAdd (List.replicate 12 0) 7 (List.replicate 5 0x61) .regFile 0 =
        .error (.corruption 0 "invalid directory entry rec_len") (List.replicate 12 0)) := by
  have hfound : blockContainsLiveName oneEntryBlock [0x61] 0 = .ok true := by decide +kernel
  have hcorrupt : blockContainsLiveName (List.replicate 12 0) (List.replicate 5 0x61) 0 =
      .error (.corruption 0 "invalid directory entry rec_len") := by decide +kernel
  unfold checkThenAdd
  rw [hfound, hcorrupt]
  exact ⟨⟨rfl, rfl⟩, rfl, rfl⟩

end FrankenFs.Dir
