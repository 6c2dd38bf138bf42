import FrankenFs.Dir.Records

/-!
# The scans over the records of a block

Insertion takes a free record or the space behind a name. Removal gives the bytes of an entry, with
those of the free records in between, to the live record before it.
-/

namespace FrankenFs.Dir

open FrankenFs.Lib

def Inserted (e : LiveEntry) (entries entries' : List LiveEntry) : Prop :=
  ∃ before after, entries = before ++ after ∧ entries' = before ++ e :: after

theorem Inserted.append_left {e : LiveEntry} {entries entries' : List LiveEntry}
    (h : Inserted e entries entries') (more : List LiveEntry) :
    Inserted e (more ++ entries) (more ++ entries') := by
  obtain ⟨before, after, rfl, rfl⟩ := h
  exact ⟨more ++ before, after, by rw [List.append_assoc], by rw [List.append_assoc]⟩

def Segment.Room (s : Segment) (need : Nat) : Prop :=
  if s.ino = 0 then need ≤ s.bytes.length else need ≤ s.bytes.length - requiredRecLen s.nameLen

/-! ## Insertion -/

section Insertion

variable {ino : Nat} {name : Bytes} {fileType : Ext4FileType}

theorem insertAt_tombstone (front back : Bytes) {s : Segment} (hname : name.length ≤ 255)
    (hneed : requiredRecLen name.length ≤ s.bytes.length) :
    ∃ edit, insertAt (front ++ (s.bytes ++ back)) ino name fileType
        (.tombstone front.length s.bytes.length) =
      .ok (front.length, edit)
        (front ++ ((Segment.new ino s.bytes.length fileType name hname hneed s.aligned
          s.length_lt).bytes ++ back)) := by
  have hlt := s.length_lt
  unfold insertAt
  dsimp only
  rw [writeEntry_whole front back hname (by omega) hneed]
  exact ⟨_, rfl⟩

theorem requiredRecLen_aligned (n : Nat) : requiredRecLen n % 4 = 0 := by
  unfold requiredRecLen align4
  omega

def Segment.keep (s : Segment) : Segment :=
  s.resize (s.bytes.take (requiredRecLen s.nameLen))
    (Segment.sameEntry_take (le_requiredRecLen _) s.requiredRecLen_le)
    (by
      rw [List.length_take, Nat.min_eq_left s.requiredRecLen_le]
      exact requiredRecLen_aligned _)
    (by
      have := s.length_lt
      rw [List.length_take]
      omega)

theorem Segment.length_keep (s : Segment) : s.keep.bytes.length = requiredRecLen s.nameLen := by
  unfold keep
  rw [Segment.length_resize, List.length_take, Nat.min_eq_left s.requiredRecLen_le]

theorem Segment.asEntry_keep (s : Segment) : s.keep.asEntry = s.asEntry := s.asEntry_resize _ _ _

theorem insertAt_split (front back : Bytes) {s : Segment} (hname : name.length ≤ 255)
    (hneed : requiredRecLen name.length ≤ s.bytes.length - requiredRecLen s.nameLen) :
    ∃ edit haligned hlt, insertAt (front ++ (s.bytes ++ back)) ino name fileType
        (.split front.length (requiredRecLen s.nameLen)
          (s.bytes.length - requiredRecLen s.nameLen)) =
      .ok (front.length + requiredRecLen s.nameLen, edit)
        (front ++ (s.keep.bytes ++ ((Segment.new ino (s.bytes.length - requiredRecLen s.nameLen)
          fileType name hname hneed haligned hlt).bytes ++ back))) := by
  have hlen := s.length_lt
  have hmin := s.min
  have hle := s.requiredRecLen_le
  have hlow := le_requiredRecLen s.nameLen
  have haligned := s.aligned
  have haligned' := requiredRecLen_aligned s.nameLen
  unfold insertAt writeU16Le writeLe
  dsimp only
  rw [if_neg (by omega), if_pos (by rw [List.length_append, List.length_append]; omega)]
  dsimp only
  -- The piece falls into the record that stays and the place of the new one.
  have hpiece : overwrite 4 (toLe 2 (requiredRecLen s.nameLen)) s.bytes =
      s.keep.bytes ++ s.bytes.drop (requiredRecLen s.nameLen) := by
    have hcut := @overwrite_append_mid (toLe 2 (requiredRecLen s.nameLen)) []
      (s.bytes.drop (requiredRecLen s.nameLen)) (s.bytes.take (requiredRecLen s.nameLen)) 4
      (by rw [length_toLe, List.length_take]; omega)
    rw [List.nil_append, List.take_append_drop, List.nil_append, List.length_nil, Nat.zero_add]
      at hcut
    rw [hcut]
    unfold Segment.keep Segment.resize
    dsimp only
    rw [List.length_take, Nat.min_eq_left hle]
  have hwritten : overwrite (front.length + 4) (toLe 2 (requiredRecLen s.nameLen))
      (front ++ (s.bytes ++ back)) =
      (front ++ s.keep.bytes) ++ (s.bytes.drop (requiredRecLen s.nameLen) ++ back) := by
    rw [overwrite_append_mid front back (by rw [length_toLe]; omega), hpiece]
    simp only [List.append_assoc]
  have hoff : front.length + requiredRecLen s.nameLen = (front ++ s.keep.bytes).length := by
    rw [List.length_append, s.length_keep]
  have hrest : (s.bytes.drop (requiredRecLen s.nameLen)).length =
      s.bytes.length - requiredRecLen s.nameLen := List.length_drop
  have hentry := @writeEntry_whole (front ++ s.keep.bytes) back
    (s.bytes.drop (requiredRecLen s.nameLen)) name ino fileType hname (by omega) (by omega)
  rw [hrest, ← hoff] at hentry
  rw [hwritten, hentry, List.append_assoc]
  exact ⟨_, by omega, by omega, rfl⟩

/-- The outcome of a scan for a place: the entry is put somewhere, or there is no room. -/
def Placed (ino : Nat) (name : Bytes) (fileType : Ext4FileType) (front tail : Bytes)
    (segs : List Segment) (outcome : Outcome (Nat × Option DirBlockEdit)) : Prop :=
  (∃ off edit segs', outcome = .ok (off, edit) (front ++ (flat segs' ++ tail)) ∧
    (flat segs').length = (flat segs).length ∧
    Inserted ⟨name, ino, fileType.code.toNat⟩ (liveEntries segs) (liveEntries segs')) ∨
  (outcome = .error .noSpace (front ++ (flat segs ++ tail)) ∧
    ∀ s ∈ segs, ¬ s.Room (requiredRecLen name.length))

theorem Placed.skip {front tail : Bytes} {s : Segment} {segs : List Segment}
    {outcome : Outcome (Nat × Option DirBlockEdit)}
    (h : Placed ino name fileType (front ++ s.bytes) tail segs outcome)
    (hroom : ¬ s.Room (requiredRecLen name.length)) :
    Placed ino name fileType front tail (s :: segs) outcome := by
  rcases h with ⟨off, edit, segs', hrun, hlen, hinserted⟩ | ⟨hrun, hnone⟩
  · refine .inl ⟨off, edit, s :: segs', ?_, ?_, ?_⟩
    · rw [hrun, flat_cons, List.append_assoc, List.append_assoc]
    · rw [flat_cons, flat_cons, List.length_append, List.length_append, hlen]
    · rw [liveEntries_cons s segs, liveEntries_cons s segs']
      exact hinserted.append_left _
  · refine .inr ⟨by rw [hrun, flat_cons, List.append_assoc, List.append_assoc], ?_⟩
    intro t ht
    rcases List.mem_cons.mp ht with rfl | ht
    · exact hroom
    · exact hnone t ht

theorem addEntryFrom_segments (front tail : Bytes) (segs : List Segment) {limit : Nat}
    (hino : ino ≠ 0) (hbound : ino < 2 ^ 32) (hname : name.length ≤ 255)
    (hlimit : limit = front.length + (flat segs).length) :
    Placed ino name fileType front tail segs
      (addEntryFrom (front ++ (flat segs ++ tail)) ino name fileType (requiredRecLen name.length)
        limit front.length) := by
  induction segs generalizing front with
  | nil =>
    refine .inr ⟨?_, fun s hs => absurd hs List.not_mem_nil⟩
    rw [addEntryFrom, if_neg (by rw [hlimit, flat_nil]; unfold dirEntryHeaderLen; simp)]
  | cons s segs ih =>
    have hmin := s.min
    rw [flat_cons, List.length_append] at hlimit
    obtain ⟨record, hread, hrino, hrlen, hrname⟩ :=
      readRecord_segment front (flat segs ++ tail) s (show front.length + s.bytes.length ≤ limit by omega)
    have hstep : front ++ (flat (s :: segs) ++ tail) =
        front ++ (s.bytes ++ (flat segs ++ tail)) := by
      rw [flat_cons, List.append_assoc]
    have hnext : front ++ (s.bytes ++ (flat segs ++ tail)) =
        (front ++ s.bytes) ++ (flat segs ++ tail) := by
      rw [List.append_assoc]
    have hrest := ih (front ++ s.bytes) (by rw [List.length_append]; omega)
    rw [List.length_append, ← hnext] at hrest
    rw [hstep, addEntryFrom, if_pos (by unfold dirEntryHeaderLen; omega), hread]
    dsimp only
    rw [hrino, hrlen, hrname]
    by_cases hfree : s.ino = 0
    · rw [if_pos hfree]
      by_cases hfits : requiredRecLen name.length ≤ s.bytes.length
      · rw [if_pos hfits]
        obtain ⟨edit, hinsert⟩ := @insertAt_tombstone ino name fileType front (flat segs ++ tail) s
          hname hfits
        refine .inl ⟨_, edit, _ :: segs, by rw [hinsert, flat_cons, List.append_assoc], ?_, ?_⟩
        · rw [flat_cons, flat_cons, List.length_append, List.length_append]
          congr 1
          exact length_entryBytes ((le_requiredRecLen _).trans hfits)
        · refine ⟨[], liveEntries segs, ?_, ?_⟩
          · rw [liveEntries_cons, liveEntries_of_free (by simpa using hfree)]
          · unfold liveEntries
            rw [List.filterMap_cons, Segment.asEntry_new hname hfits s.aligned s.length_lt hino hbound]
            rfl
      · rw [if_neg hfits]
        exact hrest.skip (by unfold Segment.Room; rwa [if_pos hfree])
    · rw [if_neg hfree, if_neg (Nat.not_lt.mpr s.requiredRecLen_le)]
      by_cases hfits :
          requiredRecLen name.length ≤ s.bytes.length - requiredRecLen s.nameLen
      · rw [if_pos hfits]
        obtain ⟨edit, haligned, hlt, hinsert⟩ :=
          @insertAt_split ino name fileType front (flat segs ++ tail) s hname hfits
        refine .inl ⟨_, edit, s.keep :: _ :: segs, by
          rw [hinsert, flat_cons, flat_cons, List.append_assoc, List.append_assoc], ?_, ?_⟩
        · have hnew := @length_entryBytes ino (s.bytes.length - requiredRecLen s.nameLen) fileType
            name ((le_requiredRecLen _).trans hfits)
          have hle := s.requiredRecLen_le
          rw [flat_cons, flat_cons, flat_cons, List.length_append, List.length_append,
            List.length_append, s.length_keep]
          unfold Segment.new
          dsimp only
          omega
        · refine ⟨liveEntries [s], liveEntries segs, liveEntries_cons s segs, ?_⟩
          have hkeep : liveEntries [s.keep] = liveEntries [s] := by
            unfold liveEntries
            rw [List.filterMap_cons, List.filterMap_cons, s.asEntry_keep]
          rw [liveEntries_cons, hkeep]
          refine congrArg (liveEntries [s] ++ ·) ?_
          unfold liveEntries
          rw [List.filterMap_cons, Segment.asEntry_new hname hfits haligned hlt hino hbound]
      · rw [if_neg hfits]
        exact hrest.skip (by unfold Segment.Room; rwa [if_neg hfree])

end Insertion

/-! ## Looking for a name -/

def Segment.Named (s : Segment) (name : Bytes) : Prop := s.ino ≠ 0 ∧ s.name = name

theorem Segment.named_iff (s : Segment) (name : Bytes) :
    (s.ino ≠ 0 ∧ namesEq s.name name = true) ↔ s.Named name := by
  unfold Named
  rw [namesEq_iff]

theorem containsLiveNameFrom_segments (front tail name : Bytes) (segs : List Segment) {limit : Nat}
    (hlimit : limit = front.length + (flat segs).length) :
    ∃ found, containsLiveNameFrom (front ++ (flat segs ++ tail)) name limit front.length =
        .ok found ∧ (found = true ↔ ∃ s ∈ segs, s.Named name) := by
  induction segs generalizing front with
  | nil =>
    refine ⟨false, ?_, by simp⟩
    rw [containsLiveNameFrom, if_neg (by rw [hlimit, flat_nil]; unfold dirEntryHeaderLen; simp)]
  | cons s segs ih =>
    have hmin := s.min
    rw [flat_cons, List.length_append] at hlimit
    obtain ⟨record, hread, hrino, hrlen, hrname⟩ :=
      readRecord_segment front (flat segs ++ tail) s (show front.length + s.bytes.length ≤ limit by omega)
    have hrest := ih (front ++ s.bytes) (by rw [List.length_append]; omega)
    rw [List.length_append, List.append_assoc] at hrest
    rw [flat_cons, List.append_assoc, containsLiveNameFrom,
      if_pos (by unfold dirEntryHeaderLen; omega), hread]
    dsimp only
    rw [hrino, hrlen, hrname, nameAt_segment]
    by_cases hhere : s.Named name
    · rw [if_pos ((s.named_iff name).mpr hhere)]
      exact ⟨true, rfl, by simp [hhere]⟩
    · rw [if_neg (fun h => hhere ((s.named_iff name).mp h))]
      obtain ⟨found, hrun, hfound⟩ := hrest
      exact ⟨found, hrun, by simp [hfound, hhere]⟩

/-! ## Removal -/

theorem clearEntry_segment (front back : Bytes) (s : Segment) :
    clearEntry (front ++ (s.bytes ++ back)) front.length =
      .ok (front ++ (s.clear.bytes ++ back)) := by
  have hmin := s.min
  have h0 : (overwrite 0 (toLe 4 0) s.bytes).length = s.bytes.length :=
    length_overwrite (by rw [length_toLe]; omega)
  have h6 : (overwrite 6 [0] (overwrite 0 (toLe 4 0) s.bytes)).length = s.bytes.length := by
    rw [length_overwrite (by rw [h0, List.length_singleton]; omega), h0]
  unfold clearEntry writeU32Le writeLe
  rw [if_pos (by rw [List.length_append, List.length_append]; omega)]
  dsimp only
  have hino : overwrite front.length (toLe 4 0) (front ++ (s.bytes ++ back)) =
      front ++ (overwrite 0 (toLe 4 0) s.bytes ++ back) :=
    @overwrite_append_mid (toLe 4 0) front back s.bytes 0 (by rw [length_toLe]; omega)
  have h6' : 6 + [(0 : BitVec 8)].length ≤ (overwrite 0 (toLe 4 0) s.bytes).length := by
    rw [h0, List.length_singleton]
    omega
  have h7 : 7 + [(0 : BitVec 8)].length ≤
      (overwrite 6 [0] (overwrite 0 (toLe 4 0) s.bytes)).length := by
    rw [h6, List.length_singleton]
    omega
  rw [hino, overwrite_append_mid front back h6', overwrite_append_mid front back h7]
  rfl

def Segment.absorb (s : Segment) (rest : Bytes) (haligned : rest.length % 4 = 0)
    (hlt : s.bytes.length + rest.length < 65536) : Segment :=
  s.resize (s.bytes ++ rest) (s.sameEntry_append rest)
    (by
      have := s.aligned
      rw [List.length_append]
      omega)
    (by rwa [List.length_append])

theorem Segment.bytes_absorb (s : Segment) {rest : Bytes} (haligned : rest.length % 4 = 0)
    (hlt : s.bytes.length + rest.length < 65536) :
    (s.absorb rest haligned hlt).bytes =
      overwrite 4 (toLe 2 (s.bytes.length + rest.length)) s.bytes ++ rest := by
  have hmin := s.min
  have hwrite := @overwrite_append_mid (toLe 2 (s.bytes.length + rest.length)) [] rest s.bytes 4
    (by rw [length_toLe]; omega)
  rw [List.nil_append, List.nil_append, List.length_nil, Nat.zero_add] at hwrite
  unfold absorb resize
  dsimp only
  rw [List.length_append, hwrite]

theorem merge_segments (front free back : Bytes) {prev s : Segment} {total : Nat}
    (haligned : (free ++ s.clear.bytes).length % 4 = 0)
    (hlt : prev.bytes.length + (free ++ s.clear.bytes).length < 65536)
    (htotal : total = prev.bytes.length + (free ++ s.clear.bytes).length) :
    ∃ block, writeU16Le (front ++ (prev.bytes ++ (free ++ (s.bytes ++ back)))) (front.length + 4)
        total = .ok block ∧
      clearEntry block (front.length + prev.bytes.length + free.length) =
        .ok (front ++ ((prev.absorb (free ++ s.clear.bytes) haligned hlt).bytes ++ back)) := by
  have hmin := prev.min
  have hfits : 4 + (toLe 2 total).length ≤ prev.bytes.length := by
    rw [length_toLe]
    omega
  refine ⟨front ++ (overwrite 4 (toLe 2 total) prev.bytes ++ (free ++ (s.bytes ++ back))), ?_, ?_⟩
  · unfold writeU16Le writeLe
    rw [if_pos (by rw [List.length_append, List.length_append]; omega),
      overwrite_append_mid front _ hfits]
  · have hclear := clearEntry_segment (front ++ (overwrite 4 (toLe 2 total) prev.bytes ++ free))
      back s
    rw [List.length_append, List.length_append, length_overwrite hfits, ← Nat.add_assoc] at hclear
    rw [prev.bytes_absorb haligned hlt, ← htotal]
    simp only [List.append_assoc] at hclear ⊢
    exact hclear

/-- Where the last live record before the scan begins. -/
def Behind (done : List Segment) : Option Nat → Prop
  | none => ∀ s ∈ done, s.ino = 0
  | some prevOff => ∃ before prev free, done = before ++ prev :: free ∧
      prevOff = (flat before).length ∧ prev.ino ≠ 0 ∧ ∀ s ∈ free, s.ino = 0

theorem Behind.live (done : List Segment) {s : Segment} (h : s.ino ≠ 0) :
    Behind (done ++ [s]) (some (flat done).length) :=
  ⟨done, s, [], rfl, rfl, h, by simp⟩

theorem Behind.free {done : List Segment} {prevOff : Option Nat} (hbehind : Behind done prevOff)
    {s : Segment} (h : s.ino = 0) : Behind (done ++ [s]) prevOff := by
  cases prevOff with
  | none =>
    intro t ht
    rcases List.mem_append.mp ht with ht | ht
    · exact hbehind t ht
    · rwa [List.mem_singleton.mp ht]
  | some prevOff =>
    obtain ⟨before, prev, free, rfl, hoff, hlive, hfree⟩ := hbehind
    refine ⟨before, prev, free ++ [s], by simp, hoff, hlive, ?_⟩
    intro t ht
    rcases List.mem_append.mp ht with ht | ht
    · exact hfree t ht
    · rwa [List.mem_singleton.mp ht]

inductive Removed (name tail : Bytes) (segs : List Segment) :
    Outcome (Option (Nat × DirBlockEdit)) → Prop
  | absent : (∀ s ∈ segs, ¬ s.Named name) → Removed name tail segs (.ok none (flat segs ++ tail))
  | cleared {before after : List Segment} {s : Segment} {edit : DirBlockEdit} :
      segs = before ++ s :: after → s.Named name → (∀ t ∈ before, t.ino = 0) →
      Removed name tail segs
        (.ok (some (s.ino, edit)) (flat (before ++ s.clear :: after) ++ tail))
  | merged {before free after : List Segment} {prev s : Segment} {edit : DirBlockEdit}
      {haligned hlt} :
      segs = before ++ prev :: (free ++ s :: after) → s.Named name → prev.ino ≠ 0 →
      (∀ t ∈ free, t.ino = 0) →
      Removed name tail segs (.ok (some (s.ino, edit))
        (flat (before ++ prev.absorb (flat free ++ s.clear.bytes) haligned hlt :: after) ++ tail))
  | tooLong {before free after : List Segment} {prev s : Segment} :
      segs = before ++ prev :: (free ++ s :: after) →
      65535 < prev.bytes.length + (flat free).length + s.bytes.length →
      Removed name tail segs
        (.error (.format "merged rec_len exceeds u16") (flat segs ++ tail))

theorem removeEntryFrom_segments (name tail : Bytes) (done segs : List Segment) {limit : Nat}
    {prevOff : Option Nat} (hbehind : Behind done prevOff) (hdone : ∀ s ∈ done, ¬ s.Named name)
    (hlimit : limit = (flat (done ++ segs)).length) :
    Removed name tail (done ++ segs)
      (removeEntryFrom (flat (done ++ segs) ++ tail) name limit (flat done).length prevOff) := by
  induction segs generalizing done prevOff with
  | nil =>
    rw [removeEntryFrom, if_neg (by rw [hlimit, List.append_nil]; unfold dirEntryHeaderLen; simp)]
    exact .absent (by rwa [List.append_nil])
  | cons s segs ih =>
    have hmin := s.min
    have haligned := s.aligned
    rw [flat_append, flat_cons, List.length_append, List.length_append] at hlimit
    have hblock : flat (done ++ s :: segs) ++ tail =
        flat done ++ (s.bytes ++ (flat segs ++ tail)) := by
      rw [flat_append, flat_cons, List.append_assoc, List.append_assoc]
    obtain ⟨record, hread, hrino, hrlen, hrname⟩ := readRecord_segment (flat done)
      (flat segs ++ tail) s (show (flat done).length + s.bytes.length ≤ limit by omega)
    rw [removeEntryFrom, if_pos (by unfold dirEntryHeaderLen; omega), hblock, hread]
    dsimp only
    rw [hrino, hrlen, hrname, nameAt_segment]
    by_cases hhere : s.Named name
    · rw [if_pos ((s.named_iff name).mpr hhere)]
      cases prevOff with
      | none =>
        dsimp only
        rw [clearEntry_segment]
        have hcleared := @Removed.cleared name tail (done ++ s :: segs) done segs s
          ⟨(flat done).length, ((flat done ++ (s.bytes ++ (flat segs ++ tail))).drop
            (flat done).length).take ((flat done).length + dirEntryHeaderLen - (flat done).length)⟩
          rfl hhere hbehind
        rw [flat_append, flat_cons, List.append_assoc, List.append_assoc] at hcleared
        exact hcleared
      | some prevOff =>
        obtain ⟨before, prev, free, rfl, rfl, hlive, hfree⟩ := hbehind
        have hsegs : before ++ prev :: free ++ s :: segs =
            before ++ prev :: (free ++ s :: segs) := by simp
        have hpieces : flat (before ++ prev :: free) ++ (s.bytes ++ (flat segs ++ tail)) =
            flat before ++ (prev.bytes ++ (flat free ++ (s.bytes ++ (flat segs ++ tail)))) := by
          simp
        have hoff : (flat (before ++ prev :: free)).length =
            (flat before).length + prev.bytes.length + (flat free).length := by
          simp [Nat.add_assoc]
        have hlenClear := s.length_clear
        have hrest : (flat free ++ s.clear.bytes).length = (flat free).length + s.bytes.length := by
          rw [List.length_append, hlenClear]
        dsimp only
        rw [if_neg (by omega)]
        by_cases hlong : 65535 <
            (flat (before ++ prev :: free)).length + s.bytes.length - (flat before).length
        · rw [if_pos hlong]
          dsimp only
          rw [← hblock]
          exact .tooLong hsegs (by omega)
        · rw [if_neg hlong, hpieces]
          have hfreeAligned := flat_aligned free
          obtain ⟨block, hwrite, hclear⟩ := @merge_segments (flat before) (flat free)
            (flat segs ++ tail) prev s _ (by omega) (by omega)
            (show (flat (before ++ prev :: free)).length + s.bytes.length - (flat before).length =
              _ by omega)
          rw [hwrite]
          dsimp only
          rw [hoff, hclear]
          have hmerged := fun edit => @Removed.merged name tail
            (before ++ prev :: free ++ s :: segs) before free segs prev s edit (by omega) (by omega)
            hsegs hhere hlive hfree
          simp only [flat_append, flat_cons, List.append_assoc] at hmerged ⊢
          exact hmerged _
    · rw [if_neg (fun h => hhere ((s.named_iff name).mp h))]
      have hdone' : ∀ t ∈ done ++ [s], ¬ t.Named name := by
        intro t ht
        rcases List.mem_append.mp ht with ht | ht
        · exact hdone t ht
        · rwa [List.mem_singleton.mp ht]
      have hbehind' : Behind (done ++ [s])
          (if s.ino ≠ 0 then some (flat done).length else prevOff) := by
        by_cases hfree : s.ino = 0
        · rw [if_neg (not_not.mpr hfree)]
          exact hbehind.free hfree
        · rw [if_pos hfree]
          exact .live done hfree
      have hrest := ih (done ++ [s]) hbehind' hdone' (by
        rw [List.append_assoc, List.singleton_append, flat_append, flat_cons, List.length_append,
          List.length_append]
        exact hlimit)
      have hlen : (flat (done ++ [s])).length = (flat done).length + s.bytes.length := by
        simp
      rw [List.append_assoc, List.singleton_append, hlen, hblock] at hrest
      exact hrest

/-! ## Another header -/

inductive Updated (name tail : Bytes) (newIno : Nat) (newFileType : Option Ext4FileType)
    (front : Bytes) (segs : List Segment) : Outcome Bool → Prop
  | absent : (∀ s ∈ segs, ¬ s.Named name) →
      Updated name tail newIno newFileType front segs (.ok false (front ++ (flat segs ++ tail)))
  | changed {before after : List Segment} {s : Segment} :
      segs = before ++ s :: after → s.Named name →
      Updated name tail newIno newFileType front segs
        (.ok true (front ++ (flat (before ++ s.retarget newIno newFileType :: after) ++ tail)))

theorem Updated.skip {name tail : Bytes} {newIno : Nat} {newFileType : Option Ext4FileType}
    {front : Bytes} {s : Segment} {segs : List Segment} {outcome : Outcome Bool}
    (h : Updated name tail newIno newFileType (front ++ s.bytes) segs outcome)
    (hother : ¬ s.Named name) :
    Updated name tail newIno newFileType front (s :: segs) outcome := by
  cases h with
  | absent hrest =>
    have habsent := @Updated.absent name tail newIno newFileType front (s :: segs)
      (List.forall_mem_cons.mpr ⟨hother, hrest⟩)
    rwa [flat_cons, List.append_assoc, ← List.append_assoc] at habsent
  | @changed before after t hsegs hnamed =>
    have hchanged := @Updated.changed name tail newIno newFileType front (s :: segs) (s :: before)
      after t (by rw [hsegs]; rfl) hnamed
    rwa [List.cons_append, flat_cons, List.append_assoc, ← List.append_assoc] at hchanged

theorem updateLiveEntryFrom_segments (front name tail : Bytes) (newIno : Nat)
    (newFileType : Option Ext4FileType) (segs : List Segment) {limit : Nat}
    (hlimit : limit = front.length + (flat segs).length) :
    Updated name tail newIno newFileType front segs
      (updateLiveEntryFrom (front ++ (flat segs ++ tail)) name newIno newFileType limit
        front.length) := by
  induction segs generalizing front with
  | nil =>
    rw [updateLiveEntryFrom, if_neg (by rw [hlimit, flat_nil]; unfold dirEntryHeaderLen; simp)]
    exact .absent (by simp)
  | cons s segs ih =>
    have hmin := s.min
    rw [flat_cons, List.length_append] at hlimit
    obtain ⟨record, hread, hrino, hrlen, hrname⟩ :=
      readRecord_segment front (flat segs ++ tail) s (show front.length + s.bytes.length ≤ limit by omega)
    have hrest := ih (front ++ s.bytes) (by rw [List.length_append]; omega)
    rw [List.length_append, List.append_assoc] at hrest
    rw [flat_cons, List.append_assoc, updateLiveEntryFrom,
      if_pos (by unfold dirEntryHeaderLen; omega), hread]
    dsimp only
    rw [hrino, hrlen, hrname, nameAt_segment]
    by_cases hhere : s.Named name
    · rw [if_pos ((s.named_iff name).mpr hhere)]
      unfold writeU32Le writeLe
      rw [if_pos (by rw [List.length_append, List.length_append]; omega)]
      dsimp only
      have hino : overwrite front.length (toLe 4 newIno) (front ++ (s.bytes ++ (flat segs ++ tail))) =
          front ++ ((s.setIno newIno).bytes ++ (flat segs ++ tail)) :=
        @overwrite_append_mid (toLe 4 newIno) front (flat segs ++ tail) s.bytes 0
          (by rw [length_toLe]; omega)
      have hchanged := @Updated.changed name tail newIno newFileType front (s :: segs) [] segs s rfl
        hhere
      rw [List.nil_append, flat_cons, List.append_assoc] at hchanged
      rw [hino]
      cases newFileType with
      | none => exact hchanged
      | some fileType =>
        have hlen : 7 + [fileType.code].length ≤ (s.setIno newIno).bytes.length := by
          unfold Segment.setIno
          rw [Segment.length_patch, List.length_singleton]
          omega
        dsimp only
        rw [overwrite_append_mid front _ hlen]
        exact hchanged
    · rw [if_neg (fun h => hhere ((s.named_iff name).mp h))]
      exact hrest.skip hhere

end FrankenFs.Dir
