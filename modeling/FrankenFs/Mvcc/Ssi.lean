import FrankenFs.Mvcc.StoreSpec

/-!
# `commit_ssi`

First-committer-wins, and then a test for two rw-antidependencies that meet in the
committing transaction.
-/

open FrankenFs.Lib

namespace FrankenFs.Mvcc

/-! ## Edges -/

structure SsiRwEdge where
  readerTxn : Nat
  writerTxn : Nat
  block : Nat
  readVersion : Nat
  readerSnapshotHigh : Nat
  writeVersion : Nat
deriving DecidableEq

structure SsiDangerousStructure where
  incoming : SsiRwEdge
  outgoing : SsiRwEdge
deriving DecidableEq

def keySpan (keys : List Nat) : Option (Nat × Nat) :=
  match keys.head?, keys.getLast? with
  | some first, some last => some (first, last)
  | _, _ => none

def keyInSpan (key : Nat) (span : Nat × Nat) : Bool := span.1 ≤ key && key ≤ span.2

/-- The first block of both sets and the version read there. The source walks the smaller
set and skips keys outside the other one's span. -/
def firstShared {α : Type} (readSet : OrdMap Nat Nat) (writeSet : OrdMap Nat α) :
    Option (Nat × Nat) :=
  if writeSet.entries.length < readSet.entries.length then
    (keySpan readSet.keys).bind fun span =>
      writeSet.keys.findSome? fun block =>
        if keyInSpan block span then (readSet.get? block).map (Prod.mk block) else none
  else
    (keySpan writeSet.keys).bind fun span =>
      readSet.entries.findSome? fun e =>
        if keyInSpan e.1 span && (writeSet.get? e.1).isSome then some e else none

/-- A block the committed transaction read and this one writes. -/
def ssiIncomingEdge (txn : Transaction) (record : CommittedTxnRecord) : Option SsiRwEdge :=
  (firstShared record.readSet txn.stagedWrites).map fun e =>
    ⟨record.txnId, txn.id, e.1, e.2, record.snapshot.high, 0⟩

/-- A block this transaction read and the committed one wrote. -/
def ssiOutgoingEdge (txn : Transaction) (record : CommittedTxnRecord) : Option SsiRwEdge :=
  (firstShared txn.reads record.writeSet).map fun e =>
    ⟨txn.id, record.txnId, e.1, e.2, txn.snapshot.high, record.commitSeq⟩

def detectLoop (txn : Transaction) : List CommittedTxnRecord → Nat → Option SsiRwEdge →
    Option SsiRwEdge → Nat × Option SsiDangerousStructure
  | [], checks, _, _ => (checks, none)
  | record :: rest, checks, incoming, outgoing =>
    if record.commitSeq ≤ txn.snapshot.high then detectLoop txn rest checks incoming outgoing
    else
      let checks := u64SaturatingAdd checks 1
      let incoming := incoming.or (ssiIncomingEdge txn record)
      let outgoing := outgoing.or (ssiOutgoingEdge txn record)
      match incoming, outgoing with
      | some i, some o => (checks, some ⟨i, o⟩)
      | _, _ => detectLoop txn rest checks incoming outgoing

def detectSsiDangerousStructure (txn : Transaction) (records : List CommittedTxnRecord) :
    Nat × Option SsiDangerousStructure :=
  if txn.stagedWrites.entries.isEmpty then (0, none) else detectLoop txn records 0 none none

theorem keySpan_of_mem {keys : List Nat} (hs : keys.Pairwise (· < ·)) {k : Nat} (hk : k ∈ keys) :
    ∃ span, keySpan keys = some span ∧ keyInSpan k span = true := by
  cases hf : keys.head? with
  | none => simp [List.head?_eq_none_iff.mp hf] at hk
  | some first =>
    cases hl : keys.getLast? with
    | none => simp [List.getLast?_eq_none_iff.mp hl] at hk
    | some last =>
      refine ⟨(first, last), by simp [keySpan, hf, hl], ?_⟩
      have hfirst : first ≤ k := by
        obtain ⟨rest, rfl⟩ := List.head?_eq_some_iff.mp hf
        rcases List.mem_cons.mp hk with rfl | hk
        · exact le_rfl
        · exact le_of_lt ((List.pairwise_cons.mp hs).1 k hk)
      have hlast : k ≤ last := by
        obtain ⟨init, rfl⟩ := List.getLast?_eq_some_iff.mp hl
        rcases List.mem_append.mp hk with hk | hk
        · exact le_of_lt ((List.pairwise_append.mp hs).2.2 k hk last (by simp))
        · exact le_of_eq (List.mem_singleton.mp hk)
      simp [keyInSpan, hfirst, hlast]

theorem firstShared_none {α : Type} {readSet : OrdMap Nat Nat} {writeSet : OrdMap Nat α}
    (h : firstShared readSet writeSet = none) {b : Nat} (hb : (readSet.get? b).isSome) :
    writeSet.get? b = none := by
  by_contra hw
  have hw : (writeSet.get? b).isSome := Option.isSome_iff_ne_none.mpr hw
  unfold firstShared at h
  split_ifs at h
  · obtain ⟨span, hspan, hin⟩ := keySpan_of_mem readSet.keys_sorted (readSet.mem_keys.mpr hb)
    rw [hspan, Option.bind_some, List.findSome?_eq_none_iff] at h
    have := h b (writeSet.mem_keys.mpr hw)
    rw [if_pos hin, Option.map_eq_none_iff] at this
    simp [this] at hb
  · obtain ⟨span, hspan, hin⟩ := keySpan_of_mem writeSet.keys_sorted (writeSet.mem_keys.mpr hw)
    rw [hspan, Option.bind_some, List.findSome?_eq_none_iff] at h
    obtain ⟨v, hv⟩ := Option.isSome_iff_exists.mp hb
    have := h (b, v) (readSet.mem_entries.mpr hv)
    simp [hin, hw] at this

theorem detectLoop_none {txn : Transaction} {records : List CommittedTxnRecord} {n m : Nat}
    {incoming outgoing : Option SsiRwEdge}
    (h : detectLoop txn records n incoming outgoing = (m, none))
    (hone : incoming = none ∨ outgoing = none) :
    (incoming = none ∧ ∀ r ∈ records, txn.snapshot.high < r.commitSeq →
      ssiIncomingEdge txn r = none) ∨
    (outgoing = none ∧ ∀ r ∈ records, txn.snapshot.high < r.commitSeq →
      ssiOutgoingEdge txn r = none) := by
  induction records generalizing n incoming outgoing with
  | nil => simpa using hone
  | cons record rest ih =>
    rw [detectLoop] at h
    simp only [List.forall_mem_cons]
    split_ifs at h with hseq
    · have hnot : ¬ txn.snapshot.high < record.commitSeq := Nat.not_lt.mpr hseq
      simpa only [hnot, false_implies, true_and] using ih h hone
    · simp only at h
      split at h
      · simp at h
      · rename_i hnot
        have hone' : incoming.or (ssiIncomingEdge txn record) = none ∨
            outgoing.or (ssiOutgoingEdge txn record) = none := by
          by_contra hboth
          rw [not_or] at hboth
          obtain ⟨i, hi⟩ := Option.ne_none_iff_exists'.mp hboth.1
          obtain ⟨o, ho⟩ := Option.ne_none_iff_exists'.mp hboth.2
          exact hnot i o hi ho
        rcases ih h hone' with ⟨hin, hrest⟩ | ⟨hout, hrest⟩
        · rw [Option.or_eq_none_iff] at hin
          exact Or.inl ⟨hin.1, fun _ => hin.2, hrest⟩
        · rw [Option.or_eq_none_iff] at hout
          exact Or.inr ⟨hout.1, fun _ => hout.2, hrest⟩

/-- The log is in commit order, so the walk from its end may stop at the snapshot. -/
theorem mem_takeWhile_reverse {log : List CommittedTxnRecord} {high : Nat}
    (hlog : log.Pairwise fun a b => a.commitSeq < b.commitSeq) {r : CommittedTxnRecord}
    (hr : r ∈ log) (hseq : high < r.commitSeq) :
    r ∈ log.reverse.takeWhile fun r => decide (r.commitSeq > high) := by
  obtain ⟨before, after, rfl⟩ := List.append_of_mem hr
  have hafter : ∀ r' ∈ after.reverse ++ [r], decide (r'.commitSeq > high) = true := by
    intro r' hr'
    rcases List.mem_append.mp hr' with h | h
    · have := (List.pairwise_cons.mp (List.pairwise_append.mp hlog).2.1).1 r' (by simpa using h)
      simp only [decide_eq_true_eq]
      omega
    · rw [List.mem_singleton.mp h]
      simpa using hseq
  rw [List.reverse_append, List.reverse_cons, List.takeWhile_append_of_pos hafter]
  simp

/-! ## The commit -/

variable [Platform]

namespace MvccStore

def validateSsiReadSet (s : MvccStore) (txn : Transaction) : Except Stop Nat :=
  let records := s.ssiLog.reverse.takeWhile fun r => decide (r.commitSeq > txn.snapshot.high)
  match detectSsiDangerousStructure txn records with
  | (_, some d) =>
    .error (.error (.ssiConflict d.outgoing.block d.outgoing.readVersion d.outgoing.writeVersion
      d.outgoing.writerTxn))
  | (checks, none) => .ok checks

def ssiRecord (txn : Transaction) (commitSeq : Nat) : CommittedTxnRecord :=
  ⟨txn.id, commitSeq, txn.snapshot, txn.stagedWrites.map fun _ _ => (), txn.reads⟩

def commitSsi (s : MvccStore) (txn : Transaction) : MvccStore × Except Stop Nat :=
  match s.preflightFcw txn with
  | (s, .error e) => (s, .error e)
  | (s, .ok ()) =>
    match s.validateSsiReadSet txn with
    | .error e => (s, .error e)
    | .ok _ =>
      match s.versionBytes txn with
      | .error e => (s, .error e)
      | .ok writes =>
        match s.nextCommitSeq with
        | .error e => (s, .error e)
        | .ok (s, commitSeq) =>
          let s := s.installVersions txn commitSeq writes
          ({ s with ssiLog := s.ssiLog ++ [ssiRecord txn commitSeq] }, .ok commitSeq)

def pruneSsiLog (s : MvccStore) (watermark : Nat) : MvccStore :=
  { s with ssiLog := s.ssiLog.filter fun r => decide (r.commitSeq > watermark) }

/-! ## What it does -/

theorem validateSsiReadSet_ok {s : MvccStore} {txn : Transaction} {n : Nat}
    (h : s.validateSsiReadSet txn = .ok n)
    (hlog : s.ssiLog.Pairwise fun a b => a.commitSeq < b.commitSeq)
    {r r' : CommittedTxnRecord} (hr : r ∈ s.ssiLog) (hr' : r' ∈ s.ssiLog)
    (hseq : txn.snapshot.high < r.commitSeq) (hseq' : txn.snapshot.high < r'.commitSeq)
    {b b' : Nat} (hb : (r.readSet.get? b).isSome) (hbw : b ∈ txn.writeSet)
    (hb' : (txn.reads.get? b').isSome) : r'.writeSet.get? b' = none := by
  unfold validateSsiReadSet at h
  have hwindow : ∀ r ∈ s.ssiLog, txn.snapshot.high < r.commitSeq →
      r ∈ s.ssiLog.reverse.takeWhile fun r => decide (r.commitSeq > txn.snapshot.high) :=
    fun r hr hseq => mem_takeWhile_reverse hlog hr hseq
  have hwrites : txn.stagedWrites.entries.isEmpty = false := by
    rw [Bool.eq_false_iff, ne_eq, List.isEmpty_iff]
    intro hnil
    simp [Transaction.writeSet, OrdMap.keys, hnil] at hbw
  simp only [detectSsiDangerousStructure, hwrites, Bool.false_eq_true, if_false] at h
  split at h
  · simp at h
  rename_i checks hd
  rcases detectLoop_none hd (Or.inl rfl) with ⟨-, hin⟩ | ⟨-, hout⟩
  · have := hin r (hwindow r hr hseq) hseq
    rw [ssiIncomingEdge, Option.map_eq_none_iff] at this
    have := firstShared_none this hb
    rw [Transaction.writeSet, OrdMap.mem_keys, this] at hbw
    simp at hbw
  · have := hout r' (hwindow r' hr' hseq') hseq'
    rw [ssiOutgoingEdge, Option.map_eq_none_iff] at this
    exact firstShared_none this hb'

variable {s s' : MvccStore} {txn : Transaction} {c : Nat}

theorem commitSsi_eq (h : s.commitSsi txn = (s', .ok c)) :
    ∃ sp ws n, s.preflightFcw txn = (sp, .ok ()) ∧ sp.validateSsiReadSet txn = .ok n ∧
      sp.versionBytes txn = .ok ws ∧ c = sp.nextCommit ∧ c + 1 ≤ u64Max ∧
      s' = { installVersions { sp with nextCommit := c + 1 } txn c ws with
        ssiLog := s.ssiLog ++ [ssiRecord txn c] } := by
  unfold commitSsi at h
  split at h
  · simp at h
  rename_i sp hp
  split at h
  · simp at h
  rename_i n hn
  split at h
  · simp at h
  rename_i ws hws
  by_cases hmax : sp.nextCommit + 1 ≤ u64Max
  · simp only [nextCommitSeq_of_le hmax, Prod.mk.injEq, Except.ok.injEq] at h
    obtain ⟨rfl, rfl⟩ := h
    refine ⟨sp, ws, n, hp, hn, hws, rfl, hmax, ?_⟩
    rw [← (sameData_of_preflight hp).ssiLog, (installVersions_sameControl txn sp.nextCommit ws
      { sp with nextCommit := sp.nextCommit + 1 }).ssiLog]
  · simp [nextCommitSeq_of_not_le hmax] at h

theorem commitSsi_ok (h : s.commitSsi txn = (s', .ok c)) :
    ∃ sp ws n, s.preflightFcw txn = (sp, .ok ()) ∧ SameData s sp ∧
      sp.validateSsiReadSet txn = .ok n ∧ sp.versionBytes txn = .ok ws ∧
      Installed sp s' txn c ws ∧ s'.ssiLog = s.ssiLog ++ [ssiRecord txn c] := by
  obtain ⟨sp, ws, n, hp, hn, hws, hc, hmax, rfl⟩ := commitSsi_eq h
  have hi := installVersions_installed hc hmax (versionBytes_keys hws)
  exact ⟨sp, ws, n, hp, sameData_of_preflight hp, hn, hws, ⟨hi.seq, hi.bound, hi.nextCommit,
    hi.nextTxn, hi.active, hi.compressionPolicy, hi.conflictPolicy, hi.keys, hi.untouched,
    hi.latest, hi.stores, hi.newest, hi.untrimmed⟩, rfl⟩

theorem commitSsi_error {e : Stop} (h : s.commitSsi txn = (s', .error e)) : SameData s s' := by
  unfold commitSsi at h
  split at h
  · rename_i sp e' hp
    cases h
    exact sameData_of_preflight hp
  rename_i sp hp
  have hsame := sameData_of_preflight hp
  split at h
  · cases h
    exact hsame
  split at h
  · cases h
    exact hsame
  unfold nextCommitSeq at h
  split at h
  · cases h
    exact hsame
  · cases h

theorem commitWith_ok {useSsi : Bool}
    (h : (if useSsi then s.commitSsi txn else s.commit txn) = (s', .ok c)) :
    ∃ sp ws, s.preflightFcw txn = (sp, .ok ()) ∧ SameData s sp ∧ sp.versionBytes txn = .ok ws ∧
      Installed sp s' txn c ws := by
  cases useSsi with
  | false => exact commit_ok h
  | true =>
    obtain ⟨sp, ws, -, hp, hsame, -, hws, hi, -⟩ := commitSsi_ok h
    exact ⟨sp, ws, hp, hsame, hws, hi⟩

theorem commitWith_error {useSsi : Bool} {e : Stop}
    (h : (if useSsi then s.commitSsi txn else s.commit txn) = (s', .error e)) : SameData s s' := by
  cases useSsi with
  | false => exact commit_error h
  | true => exact commitSsi_error h

end MvccStore

end FrankenFs.Mvcc
