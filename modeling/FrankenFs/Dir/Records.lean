import FrankenFs.Dir.Fused

/-!
# A block as a list of records

A block whose records tile its usable area is the concatenation of their bytes and the reserved tail.
-/

namespace FrankenFs.Dir

open FrankenFs.Lib

/-- The bytes of one record. The length in its header is its own. -/
structure Segment where
  bytes : Bytes
  min : 8 ≤ bytes.length
  aligned : bytes.length % 4 = 0
  recLen : leAt 4 2 bytes = bytes.length
  named : 8 + leAt 6 1 bytes ≤ bytes.length

namespace Segment

def ino (s : Segment) : Nat := leAt 0 4 s.bytes

def nameLen (s : Segment) : Nat := leAt 6 1 s.bytes

def name (s : Segment) : Bytes := nameAt s.bytes 0 s.nameLen

def fileType (s : Segment) : Nat := leAt 7 1 s.bytes

end Segment

@[ext]
structure LiveEntry where
  name : Bytes
  ino : Nat
  fileType : Nat
deriving DecidableEq

def Segment.asEntry (s : Segment) : Option LiveEntry :=
  if s.ino = 0 then none else some ⟨s.name, s.ino, s.fileType⟩

def flat (segs : List Segment) : Bytes := (segs.map Segment.bytes).flatten

def liveEntries (segs : List Segment) : List LiveEntry := segs.filterMap Segment.asEntry

@[simp]
theorem flat_nil : flat [] = [] := rfl

@[simp]
theorem flat_cons (s : Segment) (segs : List Segment) : flat (s :: segs) = s.bytes ++ flat segs := rfl

@[simp]
theorem flat_append (segs segs' : List Segment) : flat (segs ++ segs') = flat segs ++ flat segs' := by
  simp [flat]

theorem liveEntries_append (segs segs' : List Segment) :
    liveEntries (segs ++ segs') = liveEntries segs ++ liveEntries segs' := List.filterMap_append

theorem liveEntries_cons (s : Segment) (segs : List Segment) :
    liveEntries (s :: segs) = liveEntries [s] ++ liveEntries segs := liveEntries_append [s] segs

theorem flat_aligned (segs : List Segment) : (flat segs).length % 4 = 0 := by
  induction segs with
  | nil => rfl
  | cons s segs ih =>
    have haligned := s.aligned
    rw [flat_cons, List.length_append]
    omega

theorem Segment.length_lt (s : Segment) : s.bytes.length < 65536 := by
  rw [← s.recLen]
  exact leAt_lt 4 2 s.bytes

theorem Segment.requiredRecLen_le (s : Segment) : requiredRecLen s.nameLen ≤ s.bytes.length := by
  have haligned := s.aligned
  have hnamed := s.named
  unfold requiredRecLen align4 dirEntryHeaderLen nameLen
  omega

theorem liveEntries_of_free {segs : List Segment} (h : ∀ s ∈ segs, s.ino = 0) :
    liveEntries segs = [] := by
  apply List.filterMap_eq_nil_iff.mpr
  intro s hs
  exact if_pos (h s hs)

/-! ## Reading -/

section Reading

variable (front back : Bytes) (s : Segment)

theorem leAt_segment {k w : Nat} (h : k + w ≤ s.bytes.length) :
    leAt (front.length + k) w (front ++ (s.bytes ++ back)) = leAt k w s.bytes := by
  rw [leAt_append_add, leAt_append_left h]

theorem nameAt_segment :
    nameAt (front ++ (s.bytes ++ back)) front.length s.nameLen = s.name := by
  have hnamed := s.named
  unfold Segment.name nameAt dirEntryHeaderLen
  rw [← List.drop_drop, List.drop_left, Nat.zero_add,
    List.drop_append_of_le_length s.min, List.take_append_of_le_length]
  rw [List.length_drop]
  unfold Segment.nameLen
  omega

theorem readRecord_segment {limit : Nat} (hfits : front.length + s.bytes.length ≤ limit) :
    ∃ record : Record limit front.length,
      readRecord (front ++ (s.bytes ++ back)) limit front.length = .ok record ∧
      record.ino = s.ino ∧ record.recLen = s.bytes.length ∧ record.nameLen = s.nameLen := by
  have hmin := s.min
  have haligned := s.aligned
  have hnamed := s.named
  have hino : leAt front.length 4 (front ++ (s.bytes ++ back)) = s.ino :=
    leAt_segment front back s (k := 0) (w := 4) (by omega)
  have hrec : leAt (front.length + 4) 2 (front ++ (s.bytes ++ back)) = s.bytes.length := by
    rw [leAt_segment front back s (by omega), s.recLen]
  have hname : leAt (front.length + 6) 1 (front ++ (s.bytes ++ back)) = s.nameLen := by
    rw [leAt_segment front back s (by omega)]
    rfl
  unfold readRecord
  dsimp only
  rw [dif_neg (by omega), dif_neg (by omega), dif_neg (by rw [hrec, hname]; exact Nat.not_lt.mpr s.named)]
  exact ⟨_, rfl, hino, hrec, hname⟩

end Reading

theorem namesEqFrom_iff {a b : Bytes} (hlen : a.length = b.length) {i : Nat} (hi : i ≤ a.length)
    (hlong : 8 ≤ a.length) (hsame : a.take i = b.take i) :
    namesEqFrom a b i = true ↔ a = b := by
  fun_induction namesEqFrom a b i with
  | case1 i hlt hdiff =>
    refine ⟨fun h => (by cases h), fun h => absurd (by rw [h]) hdiff⟩
  | case2 i hlt hword ih =>
    refine ih (by omega) ?_
    rw [List.take_add, List.take_add, hsame, not_not.mp hword]
  | case3 i hend =>
    rw [beq_iff_eq]
    refine ⟨fun h => ?_, fun h => by rw [h]⟩
    -- The last eight bytes overlap with what has been compared.
    have hlast : a.drop (a.length - 8) = b.drop (a.length - 8) := by
      rwa [List.take_of_length_le (by rw [List.length_drop]; omega),
        List.take_of_length_le (by rw [List.length_drop]; omega)] at h
    have hfirst : a.take (a.length - 8) = b.take (a.length - 8) := by
      have := congrArg (List.take (a.length - 8)) hsame
      rwa [List.take_take, List.take_take, Nat.min_eq_left (by omega)] at this
    rw [← List.take_append_drop (a.length - 8) a, hfirst, hlast, List.take_append_drop]

theorem namesEq_iff (a b : Bytes) : namesEq a b = true ↔ a = b := by
  unfold namesEq
  by_cases hlen : a.length = b.length
  · rw [if_neg (not_not.mpr hlen)]
    by_cases hshort : a.length < 8
    · rw [if_pos hshort, beq_iff_eq]
    · rw [if_neg hshort]
      exact namesEqFrom_iff hlen (Nat.zero_le _) (by omega) rfl
  · rw [if_pos hlen]
    exact ⟨fun h => (by cases h), fun h => absurd (congrArg List.length h) hlen⟩

/-! ## Writing -/

def entryBytes (ino recLen : Nat) (fileType : Ext4FileType) (name : Bytes) : Bytes :=
  entryHeader ino recLen name.length fileType.code ++ name ++
    List.replicate (recLen - (8 + name.length)) 0

@[simp]
theorem length_entryHeader (ino recLen nameLen : Nat) (fileType : BitVec 8) :
    (entryHeader ino recLen nameLen fileType).length = 8 := by
  simp [entryHeader]

theorem length_entryBytes {ino recLen : Nat} {fileType : Ext4FileType} {name : Bytes}
    (h : 8 + name.length ≤ recLen) : (entryBytes ino recLen fileType name).length = recLen := by
  unfold entryBytes
  rw [List.length_append, List.length_append, length_entryHeader, List.length_replicate]
  omega

theorem le_requiredRecLen (n : Nat) : 8 + n ≤ requiredRecLen n := by
  unfold requiredRecLen align4 dirEntryHeaderLen
  omega

theorem writeEntry_whole (front back : Bytes) {mid name : Bytes} {ino : Nat}
    {fileType : Ext4FileType} (hname : name.length ≤ 255) (hlen : mid.length ≤ 65535)
    (hneed : requiredRecLen name.length ≤ mid.length) :
    writeEntry (front ++ (mid ++ back)) front.length ino mid.length fileType name =
      .ok (front ++ (entryBytes ino mid.length fileType name ++ back)) := by
  have hroom := (le_requiredRecLen name.length).trans hneed
  have htotal : (front ++ (mid ++ back)).length = front.length + (mid.length + back.length) := by
    rw [List.length_append, List.length_append]
  unfold writeEntry
  dsimp only
  rw [if_neg (by omega), if_neg (by omega), if_neg (by omega), if_neg (by omega)]
  have hnamed : overwrite (front.length + dirEntryHeaderLen) name
      (overwrite front.length (entryHeader ino mid.length name.length fileType.code)
        (front ++ (mid ++ back))) =
      overwrite front.length (entryHeader ino mid.length name.length fileType.code ++ name)
        (front ++ (mid ++ back)) := by
    have h := @overwrite_overwrite_next front.length
      (entryHeader ino mid.length name.length fileType.code) (front ++ (mid ++ back)) name
      (by rw [length_entryHeader]; omega)
    rwa [length_entryHeader] at h
  rw [hnamed]
  have hlength : (entryHeader ino mid.length name.length fileType.code ++ name).length =
      dirEntryHeaderLen + name.length := by
    rw [List.length_append, length_entryHeader]
    rfl
  unfold entryBytes
  by_cases hpad : dirEntryHeaderLen + name.length < mid.length
  · rw [if_pos hpad, Nat.add_assoc, ← hlength, overwrite_overwrite_next (by
      rw [hlength]; unfold dirEntryHeaderLen; omega), overwrite_append_whole]
    · rw [hlength]
      rfl
    · rw [hlength, List.length_append, hlength, List.length_replicate]
      omega
  · unfold dirEntryHeaderLen at hpad hlength
    rw [if_neg (by unfold dirEntryHeaderLen; exact hpad), overwrite_append_whole _ _ (by omega),
      show mid.length - (8 + name.length) = 0 by omega, List.replicate_zero, List.append_nil]

/-! ## What an operation puts in the place of a record -/

namespace Segment

theorem toLe_toNat (byte : BitVec 8) : toLe 1 byte.toNat = [byte] := by
  rw [toLe, toLe, BitVec.ofNat_toNat, BitVec.setWidth_eq]

section New

variable {ino recLen : Nat} {fileType : Ext4FileType} {name : Bytes}

theorem entryBytes_eq :
    entryBytes ino recLen fileType name =
      toLe 4 ino ++ (toLe 2 recLen ++ (toLe 1 name.length ++ (toLe 1 fileType.code.toNat ++
        (name ++ List.replicate (recLen - (8 + name.length)) 0)))) := by
  rw [toLe_toNat]
  simp only [entryBytes, entryHeader, toLe, List.cons_append, List.nil_append]

def new (ino recLen : Nat) (fileType : Ext4FileType) (name : Bytes) (hname : name.length ≤ 255)
    (hneed : requiredRecLen name.length ≤ recLen) (haligned : recLen % 4 = 0)
    (hlt : recLen < 65536) : Segment where
  bytes := entryBytes ino recLen fileType name
  min := by
    have := le_requiredRecLen name.length
    rw [length_entryBytes (by omega)]
    omega
  aligned := by
    have := le_requiredRecLen name.length
    rwa [length_entryBytes (by omega)]
  recLen := by
    have := le_requiredRecLen name.length
    rw [length_entryBytes (by omega), entryBytes_eq, leAt_skip (length_toLe 4 ino) _ 0 2,
      leAt_here (by omega)]
  named := by
    have hroom := le_requiredRecLen name.length
    rw [length_entryBytes (by omega), entryBytes_eq, leAt_skip (length_toLe 4 ino) _ 2 1,
      leAt_skip (length_toLe 2 recLen) _ 0 1, leAt_here (by omega)]
    omega

theorem asEntry_new (hname : name.length ≤ 255) (hneed : requiredRecLen name.length ≤ recLen)
    (haligned : recLen % 4 = 0) (hlt : recLen < 65536) (hino : ino ≠ 0) (hbound : ino < 2 ^ 32) :
    (new ino recLen fileType name hname hneed haligned hlt).asEntry =
      some ⟨name, ino, fileType.code.toNat⟩ := by
  have hino' : (new ino recLen fileType name hname hneed haligned hlt).ino = ino := by
    unfold Segment.ino new
    dsimp only
    rw [entryBytes_eq, leAt_here (by omega)]
  have hlen : (new ino recLen fileType name hname hneed haligned hlt).nameLen = name.length := by
    unfold Segment.nameLen new
    dsimp only
    rw [entryBytes_eq, leAt_skip (length_toLe 4 ino) _ 2 1, leAt_skip (length_toLe 2 recLen) _ 0 1,
      leAt_here (by omega)]
  have htype : (new ino recLen fileType name hname hneed haligned hlt).fileType =
      fileType.code.toNat := by
    unfold Segment.fileType new
    dsimp only
    rw [entryBytes_eq, leAt_skip (length_toLe 4 ino) _ 3 1, leAt_skip (length_toLe 2 recLen) _ 1 1,
      leAt_skip (length_toLe 1 name.length) _ 0 1, leAt_here fileType.code.isLt]
  have hname' : (new ino recLen fileType name hname hneed haligned hlt).name = name := by
    unfold Segment.name nameAt dirEntryHeaderLen
    rw [hlen]
    unfold new entryBytes
    dsimp only
    rw [Nat.zero_add, List.append_assoc, List.drop_left' (length_entryHeader _ _ _ _),
      List.take_left]
  unfold asEntry
  rw [hino', hname', htype, if_neg hino]

end New

def SameEntry (s : Segment) (bytes : Bytes) : Prop :=
  8 + s.nameLen ≤ bytes.length ∧ bytes.take 4 = s.bytes.take 4 ∧
    (bytes.drop 6).take (2 + s.nameLen) = (s.bytes.drop 6).take (2 + s.nameLen)

theorem asEntry_of_sameEntry {s s' : Segment} (h : s.SameEntry s'.bytes) : s'.asEntry = s.asEntry := by
  obtain ⟨-, hino, hrest⟩ := h
  have hfield : ∀ k w, k + w ≤ 2 + s.nameLen →
      (s'.bytes.drop (6 + k)).take w = (s.bytes.drop (6 + k)).take w := by
    intro k w hkw
    have h := congrArg (fun bytes => (bytes.drop k).take w) hrest
    rwa [List.drop_take, List.drop_take, List.take_take, List.take_take, List.drop_drop,
      List.drop_drop, Nat.min_eq_left (by omega)] at h
  have hino' : s'.ino = s.ino := by
    unfold Segment.ino leAt
    rw [List.drop_zero, List.drop_zero, hino]
  have hlen : s'.nameLen = s.nameLen := congrArg ofLe (hfield 0 1 (by omega))
  have htype : s'.fileType = s.fileType := congrArg ofLe (hfield 1 1 (by omega))
  have hname : s'.name = s.name := by
    unfold Segment.name
    rw [hlen]
    exact hfield 2 s.nameLen (by omega)
  unfold asEntry
  rw [hino', htype, hname]

theorem sameEntry_take {s : Segment} {n : Nat} (hname : 8 + s.nameLen ≤ n)
    (hn : n ≤ s.bytes.length) : s.SameEntry (s.bytes.take n) := by
  refine ⟨by rw [List.length_take]; omega, ?_, ?_⟩
  · rw [List.take_take, Nat.min_eq_left (by omega)]
  · rw [List.drop_take, List.take_take, Nat.min_eq_left (by omega)]

theorem sameEntry_append (s : Segment) (rest : Bytes) : s.SameEntry (s.bytes ++ rest) := by
  have hmin := s.min
  have hnamed : 8 + s.nameLen ≤ s.bytes.length := s.named
  refine ⟨by rw [List.length_append]; omega, ?_, ?_⟩
  · rw [List.take_append_of_le_length (by omega)]
  · rw [List.drop_append_of_le_length (by omega),
      List.take_append_of_le_length (by rw [List.length_drop]; omega)]

variable {bytes : Bytes}

theorem SameEntry.overwrite_recLen {s : Segment} (h : s.SameEntry bytes) (n : Nat) :
    s.SameEntry (overwrite 4 (toLe 2 n) bytes) := by
  have hroom := h.1
  have hfits : 4 + (toLe 2 n).length ≤ bytes.length := by rw [length_toLe]; omega
  refine ⟨by rw [length_overwrite hfits]; exact hroom, ?_, ?_⟩
  · have hslice := @slice_overwrite_of_disjoint 4 (toLe 2 n) bytes hfits 0 4 (by omega)
    rw [List.drop_zero, List.drop_zero] at hslice
    rw [hslice, h.2.1]
  · rw [slice_overwrite_of_disjoint hfits (by rw [length_toLe]; omega), h.2.2]

/-- `s` cut off behind its name, or with more bytes behind it, and with the length of that. -/
def resize (s : Segment) (bytes : Bytes) (hsame : s.SameEntry bytes)
    (haligned : bytes.length % 4 = 0) (hlt : bytes.length < 65536) : Segment where
  bytes := overwrite 4 (toLe 2 bytes.length) bytes
  min := by
    have := hsame.1
    rw [length_overwrite (by rw [length_toLe]; omega)]
    omega
  aligned := by
    have := hsame.1
    rwa [length_overwrite (by rw [length_toLe]; omega)]
  recLen := by
    have := hsame.1
    rw [leAt_overwrite_self (by omega), length_overwrite (by rw [length_toLe]; omega),
      Nat.mod_eq_of_lt (by omega)]
  named := by
    obtain ⟨hroom, -, hrest⟩ := hsame.overwrite_recLen bytes.length
    have hlen := congrArg (fun bytes => ofLe (bytes.take 1)) hrest
    rw [List.take_take, List.take_take, Nat.min_eq_left (by omega)] at hlen
    unfold leAt
    rw [hlen]
    exact hroom

theorem asEntry_resize (s : Segment) (hsame : s.SameEntry bytes) (haligned : bytes.length % 4 = 0)
    (hlt : bytes.length < 65536) : (s.resize bytes hsame haligned hlt).asEntry = s.asEntry :=
  asEntry_of_sameEntry (hsame.overwrite_recLen bytes.length)

theorem length_resize (s : Segment) (hsame : s.SameEntry bytes) (haligned : bytes.length % 4 = 0)
    (hlt : bytes.length < 65536) :
    (s.resize bytes hsame haligned hlt).bytes.length = bytes.length := by
  have := hsame.1
  exact length_overwrite (by rw [length_toLe]; omega)

/-- `s` with a write in its first four bytes, at its type or at the length of its name. -/
def patch (s : Segment) (k : Nat) (field : Bytes)
    (hk : k + field.length ≤ 4 ∨ (6 ≤ k ∧ k + field.length ≤ 8))
    (hname : 8 + leAt 6 1 (overwrite k field s.bytes) ≤ s.bytes.length) : Segment where
  bytes := overwrite k field s.bytes
  min := by
    have := s.min
    rwa [length_overwrite (by omega)]
  aligned := by
    have := s.min
    rw [length_overwrite (by omega)]
    exact s.aligned
  recLen := by
    have := s.min
    rw [length_overwrite (by omega), leAt_overwrite_of_disjoint (by omega) (by omega), s.recLen]
  named := by
    have := s.min
    rwa [length_overwrite (by omega)]

variable {k : Nat} {field : Bytes}

theorem leAt_patch (s : Segment) (hk : k + field.length ≤ 4 ∨ (6 ≤ k ∧ k + field.length ≤ 8))
    (hname : 8 + leAt 6 1 (overwrite k field s.bytes) ≤ s.bytes.length) {i w : Nat}
    (hd : i + w ≤ k ∨ k + field.length ≤ i) :
    leAt i w (s.patch k field hk hname).bytes = leAt i w s.bytes := by
  have := s.min
  exact leAt_overwrite_of_disjoint (by omega) hd

theorem length_patch (s : Segment) (hk : k + field.length ≤ 4 ∨ (6 ≤ k ∧ k + field.length ≤ 8))
    (hname : 8 + leAt 6 1 (overwrite k field s.bytes) ≤ s.bytes.length) :
    (s.patch k field hk hname).bytes.length = s.bytes.length := by
  have := s.min
  exact length_overwrite (by omega)

def setIno (s : Segment) (ino : Nat) : Segment :=
  s.patch 0 (toLe 4 ino) (.inl (by rw [length_toLe])) (by
    have := s.min
    rw [leAt_overwrite_of_disjoint (by rw [length_toLe]; omega) (by rw [length_toLe]; omega)]
    exact s.named)

def setType (s : Segment) (fileType : BitVec 8) : Segment :=
  s.patch 7 [fileType] (.inr ⟨by omega, by simp⟩) (by
    have := s.min
    rw [leAt_overwrite_of_disjoint (by simp only [List.length_singleton]; omega) (by omega)]
    exact s.named)

def dropName (s : Segment) : Segment :=
  s.patch 6 [0] (.inr ⟨by omega, by simp⟩) (by
    have := s.min
    have hzero := @leAt_overwrite_self 6 s.bytes 1 0 (by omega)
    rw [show toLe 1 0 = [0] from rfl] at hzero
    rw [hzero]
    omega)

def clear (s : Segment) : Segment := ((s.setIno 0).dropName).setType 0

theorem ino_clear (s : Segment) : s.clear.ino = 0 := by
  have := s.min
  unfold clear setType dropName Segment.ino
  rw [leAt_patch _ _ _ (by omega), leAt_patch _ _ _ (by omega)]
  unfold setIno patch
  rw [leAt_overwrite_self (by omega), Nat.zero_mod]

theorem name_patch (s : Segment) (hk : k + field.length ≤ 4 ∨ (6 ≤ k ∧ k + field.length ≤ 8))
    (hname : 8 + leAt 6 1 (overwrite k field s.bytes) ≤ s.bytes.length) (hsix : k ≠ 6)
    (hfield : field ≠ []) : (s.patch k field hk hname).name = s.name := by
  have hmin := s.min
  have hpos := List.length_pos_iff.mpr hfield
  unfold Segment.name Segment.nameLen nameAt dirEntryHeaderLen
  rw [leAt_patch s hk hname (by omega)]
  exact slice_overwrite_of_disjoint (by omega) (by omega)

theorem length_clear (s : Segment) : s.clear.bytes.length = s.bytes.length := by
  unfold clear setType dropName setIno
  rw [length_patch, length_patch, length_patch]

def retarget (s : Segment) (newIno : Nat) : Option Ext4FileType → Segment
  | none => s.setIno newIno
  | some fileType => (s.setIno newIno).setType fileType.code

theorem asEntry_setIno (s : Segment) {newIno : Nat} (hino : newIno ≠ 0) (hbound : newIno < 2 ^ 32) :
    (s.setIno newIno).asEntry = some ⟨s.name, newIno, s.fileType⟩ := by
  have hmin := s.min
  have hino' : (s.setIno newIno).ino = newIno := by
    unfold Segment.ino setIno patch
    dsimp only
    rw [leAt_overwrite_self (by omega), Nat.mod_eq_of_lt (by omega)]
  have hname : (s.setIno newIno).name = s.name :=
    name_patch s _ _ (by omega) (List.ne_nil_of_length_pos (by rw [length_toLe]; omega))
  have htype : (s.setIno newIno).fileType = s.fileType :=
    leAt_patch s _ _ (by rw [length_toLe]; omega)
  unfold asEntry
  rw [hino', hname, htype, if_neg hino]

theorem asEntry_retarget (s : Segment) {newIno : Nat} (hino : newIno ≠ 0) (hbound : newIno < 2 ^ 32)
    (fileType : Ext4FileType) :
    (s.retarget newIno (some fileType)).asEntry =
      some ⟨s.name, newIno, fileType.code.toNat⟩ := by
  have hmin := s.min
  have hbase := s.asEntry_setIno hino hbound
  unfold retarget
  generalize s.setIno newIno = t at hbase
  have htmin := t.min
  have hino' : (t.setType fileType.code).ino = t.ino := leAt_patch t _ _ (by omega)
  have hname : (t.setType fileType.code).name = t.name :=
    name_patch t _ _ (by omega) (List.cons_ne_nil _ _)
  have htype : (t.setType fileType.code).fileType = fileType.code.toNat := by
    unfold Segment.fileType setType patch
    dsimp only
    have hself := @leAt_overwrite_self 7 t.bytes 1 fileType.code.toNat (by omega)
    rw [toLe_toNat] at hself
    rw [hself]
    exact Nat.mod_eq_of_lt fileType.code.isLt
  unfold asEntry at hbase ⊢
  split_ifs at hbase with hzero
  have hfields := Option.some.inj hbase
  rw [LiveEntry.mk.injEq] at hfields
  rw [hino', hname, htype, if_neg hzero, hfields.1, hfields.2.1]

end Segment

end FrankenFs.Dir
