import Mathlib.Data.List.Basic
import FrankenFs.Journal.NativeCow

/-!
# Crashes of the native COW journal

A crash may cut the block of the last append short. What has to be recovered are the commits that are
whole on the device, each with the writes of its own session. The decoder cannot tell every block that
was cut from a record, and recovery cannot tell the sessions apart. `State.Safe` says which appends
and which cuts recovery can cope with.
-/

namespace FrankenFs.NativeCow

open FrankenFs.Lib

/-! ## What has to be recovered -/

inductive Event where
  | appended (record : CowRecord)
  /-- A block that was cut reads as this record. -/
  | left (record : CowRecord)
  | reopened
deriving DecidableEq, Repr

structure Ledger where
  commits : List RecoveredCommit := []
  session : List (Nat × CowWrite) := []
  /-- The sequence numbers of the writes that were left by crashes. -/
  stray : List Nat := []
deriving DecidableEq, Repr

namespace Ledger

def sessionWrites (l : Ledger) (seq : Nat) : List CowWrite :=
  (l.session.filter (·.1 = seq)).map (·.2)

def Last (l : Ledger) (seq : Nat) : Prop := (l.commits.map (·.commitSeq)).getLast? = some seq

instance (l : Ledger) : DecidablePred l.Last := fun _ => inferInstanceAs (Decidable (_ = _))

/-- The last commit may be made once more, which changes nothing. -/
def record (l : Ledger) : Event → Ledger
  | .appended (.write seq block payload) =>
    { l with session := l.session ++ [(seq, ⟨block, payload⟩)] }
  | .appended (.commit seq) =>
    if l.Last seq then l else { l with commits := l.commits ++ [⟨seq, l.sessionWrites seq⟩] }
  | .left (.write seq _ _) => { l with stray := l.stray ++ [seq] }
  | .left (.commit _) => l
  | .reopened => { l with session := [], stray := l.stray ++ l.session.map (·.1) }

/-- No write uses a sequence number after its commit. Commits come in the order of their numbers,
the last one possibly again, and no write of another session stands on the log under the number of
a commit. -/
def Accepts (l : Ledger) : CowRecord → Prop
  | .write seq _ _ => ∀ c ∈ l.commits, c.commitSeq ≠ seq
  | .commit seq => l.Last seq ∨ (∀ c ∈ l.commits, c.commitSeq < seq) ∧ seq ∉ l.stray

/-- A block that was cut does no harm: it reads as free, it is rejected as malformed behind a
commit, it reads as a write that has no commit yet, or it repeats the last commit. -/
def Tolerates (l : Ledger) : Except FfsError (Option CowRecord) → Prop
  | .ok none => True
  | .ok (some (.write seq _ _)) => ∀ c ∈ l.commits, c.commitSeq ≠ seq
  | .ok (some (.commit seq)) => l.Last seq
  | .error (.format _) => l.commits ≠ []
  | .error _ => False

instance (l : Ledger) : DecidablePred l.Accepts
  | .write _ _ _ => inferInstanceAs (Decidable (∀ c ∈ l.commits, _))
  | .commit _ => inferInstanceAs (Decidable (_ ∨ _))

instance (l : Ledger) : DecidablePred l.Tolerates
  | .ok none => .isTrue trivial
  | .ok (some (.write _ _ _)) => inferInstanceAs (Decidable (∀ c ∈ l.commits, _))
  | .ok (some (.commit seq)) => inferInstanceAs (Decidable (l.Last seq))
  | .error (.format _) => inferInstanceAs (Decidable (_ ≠ _))
  | .error (.corruption _ _) => .isFalse id
  | .error .noSpace => .isFalse id

end Ledger

def ledger (history : List Event) : Ledger := history.foldl Ledger.record {}

theorem ledger_append (history : List Event) (event : Event) :
    ledger (history ++ [event]) = (ledger history).record event := by
  unfold ledger
  rw [List.foldl_append, List.foldl_cons, List.foldl_nil]

/-! ## Runs -/

structure State where
  dev : BlockDevice
  journal : NativeCowJournal
  history : List Event

inductive Action where
  | append (record : CowRecord)
  /-- A crash, which may leave only this many bytes of an append on the device. -/
  | crash (cut : Option (CowRecord × Nat))
deriving DecidableEq, Repr

namespace State

def slot (s : State) : Nat := s.journal.region.start + s.journal.nextSlot

def cutBlock (s : State) (whole : Bytes) (written : Nat) : Bytes :=
  whole.take written ++ (s.dev.blocks s.slot).drop written

def crashed (s : State) : Option (CowRecord × Nat) → BlockDevice × List Event
  | none => (s.dev, [])
  | some (record, written) =>
    match s.journal.append s.dev record with
    | .error _ => (s.dev, [])
    | .ok (_, dev) =>
      let whole := dev.blocks s.slot
      let block := s.cutBlock whole written
      (s.dev.put s.slot block,
        if block = whole then [.appended record]
        else
          match decodeCowRecord block with
          | .ok (some left) => [.left left]
          | _ => [])

/-- An append that fails changes nothing. After a crash the journal is opened again. -/
def step (s : State) : Action → Except FfsError State
  | .append record =>
    match s.journal.append s.dev record with
    | .ok (journal, dev) => .ok ⟨dev, journal, s.history ++ [.appended record]⟩
    | .error _ => .ok s
  | .crash cut => do
    let journal ← NativeCowJournal.openJournal (s.crashed cut).1 s.journal.region
    .ok ⟨(s.crashed cut).1, journal, s.history ++ (s.crashed cut).2 ++ [.reopened]⟩

def run (s : State) : List Action → Except FfsError State
  | [] => .ok s
  | action :: actions => do
    let s ← s.step action
    s.run actions

def SafeCut (s : State) (record : CowRecord) (whole : Bytes) (written : Nat) : Prop :=
  if s.cutBlock whole written = whole then (ledger s.history).Accepts record
  else (ledger s.history).Tolerates (decodeCowRecord (s.cutBlock whole written))

instance (s : State) (record : CowRecord) (whole : Bytes) (written : Nat) :
    Decidable (s.SafeCut record whole written) := inferInstanceAs (Decidable (ite ..))

def Safe (s : State) : Action → Prop
  | .append record =>
    OnOk (fun _ => (ledger s.history).Accepts record) (s.journal.append s.dev record)
  | .crash none => True
  | .crash (some (record, written)) =>
    OnOk (fun appended => s.SafeCut record (appended.2.blocks s.slot) written)
      (s.journal.append s.dev record)

instance (s : State) : DecidablePred s.Safe
  | .append _ => inferInstanceAs (Decidable (OnOk ..))
  | .crash none => .isTrue trivial
  | .crash (some _) => inferInstanceAs (Decidable (OnOk ..))

def SafeRun (s : State) : List Action → Prop
  | [] => True
  | action :: actions => s.Safe action ∧ OnOk (fun s' => s'.SafeRun actions) (s.step action)

instance decidableSafeRun : (s : State) → (actions : List Action) → Decidable (s.SafeRun actions)
  | _, [] => .isTrue trivial
  | s, action :: actions =>
    have := fun s' => decidableSafeRun s' actions
    inferInstanceAs (Decidable (s.Safe action ∧
      OnOk (fun s' : State => s'.SafeRun actions) (s.step action)))

end State

def Action.Fits : Action → Prop
  | .append record => record.Fits
  | .crash none => True
  | .crash (some (record, _)) => record.Fits

instance : DecidablePred Action.Fits
  | .append record => inferInstanceAs (Decidable record.Fits)
  | .crash none => .isTrue trivial
  | .crash (some (record, _)) => inferInstanceAs (Decidable record.Fits)

structure Zeroed (dev : BlockDevice) (region : JournalRegion) : Prop where
  count : dev.blockCount < 2 ^ 64
  inRange : ∀ i < region.blocks, region.start + i < dev.blockCount
  zero : ∀ i < region.blocks, isAllZero (dev.blocks (region.start + i)) = true

def start (dev : BlockDevice) (region : JournalRegion) : State := ⟨dev, ⟨region, 0⟩, []⟩

/-! ## The records of the log -/

structure OnLog (dev : BlockDevice) (region : JournalRegion) (records : List CowRecord) : Prop where
  count : dev.blockCount < 2 ^ 64
  inRange : ∀ i < region.blocks, region.start + i < dev.blockCount
  fits : records.length ≤ region.blocks
  read : ∀ i record, records[i]? = some record →
    decodeCowRecord (dev.blocks (region.start + i)) = .ok (some record)
  free : ∀ i, records.length < i → i < region.blocks →
    decodeCowRecord (dev.blocks (region.start + i)) = .ok none

inductive Feeds : Recovery → List CowRecord → Recovery → Prop where
  | nil (r : Recovery) : Feeds r [] r
  | cons {r r' r'' : Recovery} {record : CowRecord} {records : List CowRecord}
      (h : r.record record = .ok (some r')) (hrest : Feeds r' records r'') :
      Feeds r (record :: records) r''

theorem Feeds.append {r r' r'' : Recovery} {records : List CowRecord} {record : CowRecord}
    (h : Feeds r records r') (hrecord : r'.record record = .ok (some r'')) :
    Feeds r (records ++ [record]) r'' := by
  induction h with
  | nil r => exact .cons hrecord (.nil r'')
  | cons hfirst _ ih => exact .cons hfirst (ih hrecord)

def Ends (r : Recovery) (decoded : Except FfsError (Option CowRecord)) : Prop :=
  decoded = .ok none ∨ (∃ message, decoded = .error (.format message)) ∧ r.commitOrder ≠ []

section Scan

variable {dev : BlockDevice} {region : JournalRegion} {records : List CowRecord}

theorem OnLog.readSlot (h : OnLog dev region records) {i : Nat} (hi : i < region.blocks) :
    (resolveRegionBlock region i >>= dev.readBlock) = .ok (dev.blocks (region.start + i)) := by
  have hblock := h.inRange i hi
  have hcount := h.count
  have hresolve : resolveRegionBlock region i = .ok (region.start + i) := by
    unfold resolveRegionBlock
    rw [failIf_of_not (by omega), failIf_of_not (by omega)]
    rfl
  rw [hresolve]
  exact if_neg (by omega)

theorem recoverFrom_feeds (h : OnLog dev region records) {i : Nat} {r r' : Recovery}
    (hfeeds : Feeds r (records.drop i) r') (hi : i ≤ records.length)
    (hends : records.length < region.blocks →
      Ends r' (decodeCowRecord (dev.blocks (region.start + records.length)))) :
    recoverFrom dev region i r = .ok r' := by
  generalize hrest : records.drop i = rest at hfeeds
  induction hfeeds generalizing i with
  | nil r =>
    have hlen : i = records.length := by
      have := List.drop_eq_nil_iff.mp hrest
      omega
    subst hlen
    rw [recoverFrom]
    by_cases hslot : records.length < region.blocks
    · rw [if_pos hslot, h.readSlot hslot]
      dsimp only
      rcases hends hslot with hnone | ⟨⟨message, hformat⟩, hne⟩
      · rw [hnone]
      · rw [hformat]
        exact if_neg hne
    · rw [if_neg hslot]
  | @cons r r₁ r₂ record rest hrecord _ ih =>
    have hget : records[i]? = some record := by
      rw [← List.head?_drop, hrest, List.head?_cons]
    obtain ⟨hlt, -⟩ := List.getElem?_eq_some_iff.mp hget
    have htail : records.drop (i + 1) = rest := by
      rw [← List.tail_drop, hrest, List.tail_cons]
    have hslot : i < region.blocks := hlt.trans_le h.fits
    rw [recoverFrom, if_pos hslot, h.readSlot hslot]
    dsimp only
    rw [h.read i record hget]
    dsimp only
    rw [hrecord]
    exact ih hlt hends htail

theorem firstFreeSlot_eq (h : OnLog dev region records) {i : Nat} (hi : i ≤ records.length)
    {r : Recovery} (hends : records.length < region.blocks →
      Ends r (decodeCowRecord (dev.blocks (region.start + records.length))))
    (hne : r.commitOrder ≠ [] → records ≠ []) :
    NativeCowJournal.firstFreeSlot dev region i = .ok records.length := by
  induction hk : records.length - i generalizing i with
  | zero =>
    have hlen : i = records.length := by omega
    subst hlen
    rw [NativeCowJournal.firstFreeSlot]
    by_cases hslot : records.length < region.blocks
    · rw [if_pos hslot, h.readSlot hslot]
      dsimp only
      rcases hends hslot with hnone | ⟨⟨message, hformat⟩, hcommits⟩
      · rw [hnone]
      · rw [hformat]
        exact if_neg (mt List.length_eq_zero_iff.mp (hne hcommits))
    · rw [if_neg hslot]
  | succ k ih =>
    have hlt : i < records.length := by omega
    have hslot : i < region.blocks := hlt.trans_le h.fits
    rw [NativeCowJournal.firstFreeSlot, if_pos hslot, h.readSlot hslot]
    dsimp only
    rw [h.read i _ (List.getElem?_eq_getElem hlt)]
    exact ih hlt (by omega)

theorem OnLog.put (h : OnLog dev region records) (data : Bytes) :
    OnLog (dev.put (region.start + records.length) data) region records where
  count := h.count
  inRange := h.inRange
  fits := h.fits
  read i record hget := by
    obtain ⟨hlt, -⟩ := List.getElem?_eq_some_iff.mp hget
    unfold BlockDevice.put
    dsimp only
    rw [Function.update_of_ne (by omega)]
    exact h.read i record hget
  free i hgt hi := by
    unfold BlockDevice.put
    dsimp only
    rw [Function.update_of_ne (by omega)]
    exact h.free i hgt hi

theorem OnLog.append (h : OnLog dev region records) {record : CowRecord}
    (hslot : records.length < region.blocks)
    (hread : decodeCowRecord (dev.blocks (region.start + records.length)) = .ok (some record)) :
    OnLog dev region (records ++ [record]) where
  count := h.count
  inRange := h.inRange
  fits := by
    rw [List.length_append, List.length_singleton]
    exact hslot
  read i found hget := by
    rcases Nat.lt_trichotomy i records.length with hlt | rfl | hgt
    · rw [List.getElem?_append_left hlt] at hget
      exact h.read i found hget
    · rw [List.getElem?_append_right (Nat.le_refl _), Nat.sub_self, List.getElem?_cons_zero] at hget
      rw [← Option.some.inj hget]
      exact hread
    · rw [List.getElem?_eq_none (by simp; omega)] at hget
      cases hget
  free i hgt hi := by
    rw [List.length_append, List.length_singleton] at hgt
    exact h.free i (by omega) hi

theorem OnLog.next_free (h : OnLog dev region records) {r : Recovery} (record : CowRecord)
    (hslot : (records ++ [record]).length < region.blocks) :
    Ends r (decodeCowRecord (dev.blocks (region.start + (records ++ [record]).length))) :=
  .inl (h.free _ (by simp) hslot)

end Scan

/-! ## The scan and the history -/

structure Agrees (r : Recovery) (l : Ledger) : Prop where
  order : r.commitOrder = l.commits.map (·.commitSeq)
  committed : ∀ seq, seq ∈ r.committed ↔ seq ∈ r.commitOrder
  increasing : r.commitOrder.Pairwise (· < ·)
  writes : ∀ c ∈ l.commits, r.pending c.commitSeq = c.writes
  session : ∀ seq ∉ r.commitOrder, seq ∉ l.stray → r.pending seq = l.sessionWrites seq

section Agree

variable {r : Recovery} {l : Ledger}

theorem agrees_start : Agrees {} {} where
  order := rfl
  committed := by simp
  increasing := .nil
  writes := by simp
  session := by simp [Ledger.sessionWrites]

variable {seq : Nat}

theorem Agrees.not_mem_order (h : Agrees r l) (hseq : ∀ c ∈ l.commits, c.commitSeq ≠ seq) :
    seq ∉ r.commitOrder := by
  rw [h.order]
  intro hmem
  obtain ⟨c, hc, heq⟩ := List.mem_map.mp hmem
  exact hseq c hc heq

theorem Agrees.record_write (h : Agrees r l) (block : Nat) (payload : Bytes)
    (hseq : ∀ c ∈ l.commits, c.commitSeq ≠ seq) :
    r.record (.write seq block payload) =
      .ok (some (r.push seq ⟨block, payload⟩)) :=
  if_neg (mt (h.committed seq).mp (h.not_mem_order hseq))

theorem Agrees.appended_write (h : Agrees r l) (block : Nat) (payload : Bytes)
    (hseq : ∀ c ∈ l.commits, c.commitSeq ≠ seq) :
    Agrees (r.push seq ⟨block, payload⟩) (l.record (.appended (.write seq block payload))) where
  order := h.order
  committed := h.committed
  increasing := h.increasing
  writes c hc := by
    rw [r.push_pending_other _ (hseq c hc)]
    exact h.writes c hc
  session other hother hstray := by
    by_cases heq : other = seq
    · subst heq
      rw [r.push_pending_self, h.session other hother hstray]
      simp [Ledger.sessionWrites, Ledger.record]
    · rw [r.push_pending_other _ heq, h.session other hother hstray]
      simp [Ledger.sessionWrites, Ledger.record, Ne.symm heq]

theorem Agrees.left_write (h : Agrees r l) (block : Nat) (payload : Bytes)
    (hseq : ∀ c ∈ l.commits, c.commitSeq ≠ seq) :
    Agrees (r.push seq ⟨block, payload⟩) (l.record (.left (.write seq block payload))) where
  order := h.order
  committed := h.committed
  increasing := h.increasing
  writes c hc := by
    rw [r.push_pending_other _ (hseq c hc)]
    exact h.writes c hc
  session other hother hstray := by
    dsimp only [Ledger.record] at hstray
    rw [List.mem_append, List.mem_singleton, not_or] at hstray
    rw [r.push_pending_other _ hstray.2]
    exact h.session other hother hstray.1

theorem Agrees.record_commit (h : Agrees r l) (hseq : ∀ c ∈ l.commits, c.commitSeq < seq) :
    r.record (.commit seq) =
      .ok (some { r with committed := insert seq r.committed
                         commitOrder := r.commitOrder ++ [seq] }) := by
  have hnot : seq ∉ r.committed :=
    mt (h.committed seq).mp (h.not_mem_order fun c hc => (hseq c hc).ne)
  unfold Recovery.record
  cases hlast : r.commitOrder.getLast? with
  | none =>
    dsimp only
    rw [if_neg hnot]
  | some last =>
    have hmem := List.mem_of_getLast? hlast
    rw [h.order] at hmem
    obtain ⟨c, hc, rfl⟩ := List.mem_map.mp hmem
    dsimp only
    rw [failIf_of_not (Nat.not_lt.mpr (hseq c hc).le), if_neg hnot]
    rfl

theorem Agrees.appended_commit (h : Agrees r l) (hseq : ∀ c ∈ l.commits, c.commitSeq < seq)
    (hstray : seq ∉ l.stray) :
    Agrees { r with committed := insert seq r.committed, commitOrder := r.commitOrder ++ [seq] }
      { l with commits := l.commits ++ [⟨seq, l.sessionWrites seq⟩] } where
  order := by rw [h.order, List.map_append, List.map_singleton]
  committed other := by
    dsimp only
    rw [Finset.mem_insert, h.committed, List.mem_append, List.mem_singleton, or_comm]
  increasing := by
    refine List.pairwise_append.mpr ⟨h.increasing, List.pairwise_singleton _ _, ?_⟩
    intro a ha b hb
    rw [h.order] at ha
    obtain ⟨c, hc, rfl⟩ := List.mem_map.mp ha
    rw [List.mem_singleton.mp hb]
    exact hseq c hc
  writes c hc := by
    rcases List.mem_append.mp hc with hc | hc
    · exact h.writes c hc
    · rw [List.mem_singleton.mp hc]
      exact h.session seq (h.not_mem_order fun c hc => (hseq c hc).ne) hstray
  session other hother hnot := by
    dsimp only at hother ⊢
    rw [List.mem_append, not_or] at hother
    exact h.session other hother.1 hnot

theorem Agrees.record_repeated (h : Agrees r l) (hlast : l.Last seq) :
    r.record (.commit seq) = .ok (some r) := by
  unfold Ledger.Last at hlast
  rw [← h.order] at hlast
  have hmem := (h.committed seq).mpr (List.mem_of_getLast? hlast)
  unfold Recovery.record
  rw [hlast]
  dsimp only
  rw [failIf_of_not (Nat.lt_irrefl _), if_pos hmem]
  rfl

theorem Agrees.reopened (h : Agrees r l) : Agrees r (l.record .reopened) where
  order := h.order
  committed := h.committed
  increasing := h.increasing
  writes := h.writes
  session seq hseq hstray := by
    dsimp only [Ledger.record] at hstray
    rw [List.mem_append, not_or] at hstray
    rw [h.session seq hseq hstray.1]
    unfold Ledger.sessionWrites Ledger.record
    rw [List.filter_nil, List.map_nil, List.map_eq_nil_iff, List.filter_eq_nil_iff]
    intro entry hentry heq
    exact hstray.2 (List.mem_map.mpr ⟨entry, hentry, of_decide_eq_true heq⟩)

theorem Agrees.appended (h : Agrees r l) {record : CowRecord} (haccepts : l.Accepts record) :
    ∃ r', r.record record = .ok (some r') ∧ Agrees r' (l.record (.appended record)) := by
  cases record with
  | write seq block payload =>
    exact ⟨_, h.record_write block payload haccepts, h.appended_write block payload haccepts⟩
  | commit seq =>
    unfold Ledger.record
    dsimp only
    split_ifs with hlast
    · exact ⟨r, h.record_repeated hlast, h⟩
    · obtain ⟨hseq, hstray⟩ := haccepts.resolve_left hlast
      exact ⟨_, h.record_commit hseq, h.appended_commit hseq hstray⟩

theorem Agrees.left (h : Agrees r l) {record : CowRecord}
    (htolerates : l.Tolerates (.ok (some record))) :
    ∃ r', r.record record = .ok (some r') ∧ Agrees r' (l.record (.left record)) := by
  cases record with
  | write seq block payload =>
    exact ⟨_, h.record_write block payload htolerates, h.left_write block payload htolerates⟩
  | commit seq => exact ⟨r, h.record_repeated htolerates, h⟩

theorem takeCommits_eq {order : List Nat} (hnodup : order.Nodup) (pending : Nat → List CowWrite) :
    takeCommits order pending = order.map fun seq => ⟨seq, pending seq⟩ := by
  induction order generalizing pending with
  | nil => rfl
  | cons seq order ih =>
    obtain ⟨hseq, hnodup⟩ := List.nodup_cons.mp hnodup
    rw [takeCommits, ih hnodup, List.map_cons]
    congr 1
    refine List.map_congr_left fun other hother => ?_
    rw [Function.update_of_ne (by rintro rfl; exact hseq hother)]

theorem Agrees.takeCommits (h : Agrees r l) : takeCommits r.commitOrder r.pending = l.commits := by
  rw [takeCommits_eq (h.increasing.imp fun hlt => hlt.ne), h.order, List.map_map]
  conv_rhs => rw [← List.map_id l.commits]
  refine List.map_congr_left fun c hc => ?_
  rw [Function.comp_apply, h.writes c hc]
  rfl

end Agree

/-! ## Every run -/

structure Held (s : State) (records : List CowRecord) (r : Recovery) : Prop where
  log : OnLog s.dev s.journal.region records
  next : s.journal.nextSlot = records.length
  ends : records.length < s.journal.region.blocks →
    Ends r (decodeCowRecord (s.dev.blocks (s.journal.region.start + records.length)))
  feeds : Feeds {} records r
  agrees : Agrees r (ledger s.history)

section Run

variable {s : State} {records : List CowRecord} {r : Recovery}

theorem Held.recovers (h : Held s records r) :
    recoverNativeCow s.dev s.journal.region = .ok (ledger s.history).commits := by
  unfold recoverNativeCow
  split_ifs with hempty
  · have hnil : records = [] := List.length_eq_zero_iff.mp (by have := h.log.fits; omega)
    have hfeeds := h.feeds
    rw [hnil] at hfeeds
    cases hfeeds
    rw [← h.agrees.takeCommits]
    rfl
  · rw [recoverFrom_feeds h.log (by rw [List.drop_zero]; exact h.feeds) (Nat.zero_le _) h.ends]
    exact congrArg Except.ok h.agrees.takeCommits

theorem Held.commits_ne_nil (h : Held s records r) : r.commitOrder ≠ [] → records ≠ [] := by
  rintro hne rfl
  cases h.feeds
  exact hne rfl

theorem Held.openJournal (h : Held s records r) (hblocks : s.journal.region.blocks ≠ 0) :
    NativeCowJournal.openJournal s.dev s.journal.region = .ok s.journal := by
  unfold NativeCowJournal.openJournal
  rw [failIf_of_not hblocks, firstFreeSlot_eq h.log (Nat.zero_le _) h.ends h.commits_ne_nil,
    ← h.next]
  rfl

theorem Held.reopened (h : Held s records r) :
    Held ⟨s.dev, s.journal, s.history ++ [.reopened]⟩ records r where
  log := h.log
  next := h.next
  ends := h.ends
  feeds := h.feeds
  agrees := by
    dsimp only
    rw [ledger_append]
    exact h.agrees.reopened

theorem append_ok {journal journal' : NativeCowJournal} {dev dev' : BlockDevice}
    {record : CowRecord} (h : journal.append dev record = .ok (journal', dev')) :
    ∃ encoded, encodeCowRecord dev.blockSize record = .ok encoded ∧
      journal.nextSlot < journal.region.blocks ∧
      journal' = { journal with nextSlot := journal.nextSlot + 1 } ∧
      dev' = dev.put (journal.region.start + journal.nextSlot) encoded := by
  obtain ⟨encoded, hencoded, h⟩ := bind_ok.mp h
  obtain ⟨_, hspace, h⟩ := bind_ok.mp h
  obtain ⟨block, hblock, h⟩ := bind_ok.mp h
  obtain ⟨_, hwrite, h⟩ := bind_ok.mp h
  obtain ⟨_, -, hblock⟩ := bind_ok.mp hblock
  obtain ⟨_, -, hblock⟩ := bind_ok.mp hblock
  obtain ⟨_, -, hwrite⟩ := bind_ok.mp hwrite
  obtain ⟨_, -, hwrite⟩ := bind_ok.mp hwrite
  cases hblock
  cases hwrite
  cases h
  exact ⟨encoded, hencoded, Nat.lt_of_not_le (failIf_ok.mp hspace), rfl, rfl⟩

theorem Held.append (h : Held s records r) {record : CowRecord} {event : Event} {block : Bytes}
    (hslot : s.journal.nextSlot < s.journal.region.blocks)
    (hread : decodeCowRecord block = .ok (some record))
    (hrecord : ∃ r', r.record record = .ok (some r') ∧
      Agrees r' ((ledger s.history).record event)) :
    ∃ r', Held ⟨s.dev.put s.slot block,
      { s.journal with nextSlot := s.journal.nextSlot + 1 }, s.history ++ [event]⟩
      (records ++ [record]) r' := by
  obtain ⟨r', hfeed, hagrees⟩ := hrecord
  unfold State.slot
  rw [h.next] at hslot ⊢
  have hlog := h.log.put block
  have happend := hlog.append hslot (by
    unfold BlockDevice.put
    dsimp only
    rw [Function.update_self]
    exact hread)
  exact ⟨r', happend, by simp, hlog.next_free record, h.feeds.append hfeed, by
    dsimp only
    rwa [ledger_append]⟩

theorem Held.cut (h : Held s records r) {block : Bytes} (hends : Ends r (decodeCowRecord block)) :
    Held ⟨s.dev.put s.slot block, s.journal, s.history⟩ records r := by
  unfold State.slot
  rw [h.next]
  refine ⟨h.log.put block, h.next, fun _ => ?_, h.feeds, h.agrees⟩
  unfold BlockDevice.put
  dsimp only
  rwa [Function.update_self]

theorem Held.crashed (h : Held s records r) {cut : Option (CowRecord × Nat)}
    (hfits : (Action.crash cut).Fits) (hsafe : s.Safe (.crash cut)) :
    ∃ journal records' r', journal.region = s.journal.region ∧
      Held ⟨(s.crashed cut).1, journal, s.history ++ (s.crashed cut).2⟩ records' r' := by
  have hsame : ∃ journal records' r', journal.region = s.journal.region ∧
      Held ⟨s.dev, journal, s.history ++ []⟩ records' r' :=
    ⟨s.journal, records, r, rfl, by rwa [List.append_nil]⟩
  cases cut with
  | none => exact hsame
  | some cut =>
    obtain ⟨record, written⟩ := cut
    unfold State.crashed
    unfold State.Safe at hsafe
    dsimp only at hsafe ⊢
    cases happend : s.journal.append s.dev record with
    | error e => exact hsame
    | ok result =>
      obtain ⟨journal', dev'⟩ := result
      obtain ⟨encoded, hencoded, hslot, -, rfl⟩ := append_ok happend
      rw [happend] at hsafe
      unfold OnOk State.SafeCut at hsafe
      dsimp only at hsafe ⊢
      have hwhole : (s.dev.put (s.journal.region.start + s.journal.nextSlot) encoded).blocks
          s.slot = encoded := Function.update_self ..
      rw [hwhole] at hsafe ⊢
      generalize s.cutBlock encoded written = block at hsafe ⊢
      by_cases hblock : block = encoded
      · rw [if_pos hblock] at hsafe ⊢
        subst hblock
        obtain ⟨r', hheld⟩ := h.append hslot (decodeCowRecord_encode hfits hencoded)
          (h.agrees.appended hsafe)
        refine ⟨_, _, r', ?_, hheld⟩
        rfl
      · rw [if_neg hblock] at hsafe ⊢
        -- What the block reads as decides whether the next session begins behind it or at it.
        cases hdecoded : decodeCowRecord block with
        | ok decoded =>
          rw [hdecoded] at hsafe
          cases decoded with
          | none =>
            refine ⟨s.journal, records, r, rfl, ?_⟩
            dsimp only
            rw [List.append_nil]
            exact h.cut (.inl hdecoded)
          | some left =>
            obtain ⟨r', hheld⟩ := h.append hslot hdecoded (h.agrees.left hsafe)
            refine ⟨_, _, r', ?_, hheld⟩
            rfl
        | error e =>
          rw [hdecoded] at hsafe
          cases e with
          | format message =>
            refine ⟨s.journal, records, r, rfl, ?_⟩
            dsimp only
            rw [List.append_nil]
            refine h.cut (.inr ⟨⟨message, hdecoded⟩, ?_⟩)
            rw [h.agrees.order]
            exact mt List.map_eq_nil_iff.mp hsafe
          | corruption block detail => exact hsafe.elim
          | noSpace => exact hsafe.elim

theorem Held.step (h : Held s records r) (hblocks : s.journal.region.blocks ≠ 0) {action : Action}
    (hfits : action.Fits) (hsafe : s.Safe action) :
    ∃ s' records' r', s.step action = .ok s' ∧ s'.journal.region = s.journal.region ∧
      Held s' records' r' := by
  cases action with
  | append record =>
    unfold State.Safe at hsafe
    unfold State.step
    dsimp only at hsafe ⊢
    cases happend : s.journal.append s.dev record with
    | error e => exact ⟨s, records, r, rfl, rfl, h⟩
    | ok result =>
      obtain ⟨journal', dev'⟩ := result
      obtain ⟨encoded, hencoded, hslot, rfl, rfl⟩ := append_ok happend
      rw [happend] at hsafe
      obtain ⟨r', hheld⟩ := h.append hslot (decodeCowRecord_encode hfits hencoded)
        (h.agrees.appended hsafe)
      exact ⟨_, _, r', rfl, rfl, hheld⟩
  | crash cut =>
    obtain ⟨journal, records', r', hregion, hheld⟩ := h.crashed hfits hsafe
    have hopen := hheld.openJournal (hregion ▸ hblocks)
    dsimp only at hopen
    rw [hregion] at hopen
    refine ⟨_, records', r', ?_, hregion, hheld.reopened⟩
    unfold State.step
    dsimp only
    rw [hopen]
    rfl

theorem Held.run {actions : List Action} (h : Held s records r)
    (hblocks : s.journal.region.blocks ≠ 0) (hfits : ∀ action ∈ actions, action.Fits)
    (hsafe : s.SafeRun actions) :
    ∃ s', s.run actions = .ok s' ∧
      recoverNativeCow s'.dev s.journal.region = .ok (ledger s'.history).commits := by
  induction actions generalizing s records r with
  | nil => exact ⟨s, rfl, h.recovers⟩
  | cons action actions ih =>
    obtain ⟨hfirst, hrest⟩ := hsafe
    obtain ⟨s₁, records₁, r₁, hstep, hregion, hheld⟩ :=
      h.step hblocks (hfits action List.mem_cons_self) hfirst
    rw [hstep] at hrest
    obtain ⟨s', hrun, hrecovers⟩ := ih hheld (hregion ▸ hblocks)
      (fun a ha => hfits a (List.mem_cons_of_mem _ ha)) hrest
    refine ⟨s', ?_, hregion ▸ hrecovers⟩
    rw [State.run, hstep]
    exact hrun

theorem held_start {dev : BlockDevice} {region : JournalRegion} (hzero : Zeroed dev region) :
    Held (start dev region) [] {} := by
  have hfree : ∀ i < region.blocks, decodeCowRecord (dev.blocks (region.start + i)) = .ok none :=
    fun i hi => if_pos (hzero.zero i hi)
  exact {
    log := ⟨hzero.count, hzero.inRange, Nat.zero_le _, fun _ _ hget => (by cases hget),
      fun i _ hi => hfree i hi⟩
    next := rfl
    ends := fun hlt => .inl (hfree 0 hlt)
    feeds := .nil _
    agrees := agrees_start }

end Run

/-- **Recovery keeps the committed prefix.** After every run of appends and crashes that recovery
can cope with, the journal can be opened, and recovery returns the commits that are whole, each
with the writes of its session. -/
theorem recoverNativeCow_committed {dev : BlockDevice} {region : JournalRegion}
    {actions : List Action} (hzero : Zeroed dev region) (hblocks : region.blocks ≠ 0)
    (hfits : ∀ action ∈ actions, action.Fits) (hsafe : (start dev region).SafeRun actions) :
    NativeCowJournal.openJournal dev region = .ok (start dev region).journal ∧
      ∃ s, (start dev region).run actions = .ok s ∧
        recoverNativeCow s.dev region = .ok (ledger s.history).commits :=
  ⟨(held_start hzero).openJournal hblocks, (held_start hzero).run hblocks hfits hsafe⟩

section Samples

def emptyDevice : BlockDevice := ⟨64, 8, fun _ => List.replicate 64 0⟩

def sampleRegion : JournalRegion := ⟨1, 4⟩

theorem emptyDevice_zeroed : Zeroed emptyDevice sampleRegion :=
  ⟨by decide, by decide, fun _ _ => rfl⟩

def cutEarly : List Action :=
  [.append (.write 1 9 [5]), .append (.commit 1), .append (.commit 1),
    .crash (some (.write 2 9 [7], 3))]

theorem recoverNativeCow_committed_cutEarly :
    ∃ s, (start emptyDevice sampleRegion).run cutEarly = .ok s ∧
      recoverNativeCow s.dev sampleRegion = .ok [⟨1, [⟨9, [5]⟩]⟩] := by
  have hcommits : ((start emptyDevice sampleRegion).run cutEarly).map
      (fun s => (ledger s.history).commits) = .ok [⟨1, [⟨9, [5]⟩]⟩] := by decide +kernel
  have hsafe : (start emptyDevice sampleRegion).SafeRun cutEarly := by decide +kernel
  obtain ⟨-, s, hrun, hrecovers⟩ :=
    recoverNativeCow_committed emptyDevice_zeroed (by decide) (by decide) hsafe
  rw [hrun] at hcommits
  exact ⟨s, hrun, hrecovers.trans hcommits⟩

/-- A crash behind the header of the next write: its payload does not match its checksum, and the
commit before it is not recovered any more. And a write of a session that has crashed goes into
the commit of the next one. -/
theorem recoverNativeCow_loses_commit :
    ((start emptyDevice sampleRegion).run [.append (.write 1 9 [5]), .append (.commit 1)]).map
        (fun s => ((ledger s.history).commits,
          recoverNativeCow (s.crashed (some (.write 2 9 [7], 32))).1 sampleRegion)) =
      .ok ([⟨1, [⟨9, [5]⟩]⟩], .error (.corruption 9
        "COW payload CRC mismatch: expected 0x86b737ba, got 0x527d5351")) ∧
    ((start emptyDevice sampleRegion).run [.append (.write 1 9 [5]), .crash none,
        .append (.write 1 9 [6]), .append (.commit 1)]).map
        (fun s => ((ledger s.history).commits, recoverNativeCow s.dev sampleRegion)) =
      .ok ([⟨1, [⟨9, [6]⟩]⟩], .ok [⟨1, [⟨9, [5]⟩, ⟨9, [6]⟩]⟩]) := by
  decide +kernel

end Samples

end FrankenFs.NativeCow
