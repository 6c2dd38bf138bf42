import FrankenFs.Journal.FastCommit
import Mathlib.Data.List.Induction

/-!
# Only sealed fast commits are replayed

The scan over the blocks is a run over their tags, and returns the operations of the transactions
that a TAIL has closed.
-/

namespace FrankenFs.FastCommit

open FrankenFs.Lib

/-! ## The tags of the area -/

def kindOf (inodeSize : Nat) (tag : Bytes) : Option FcTag :=
  (FcTag.fromU16 (leAt 0 2 tag)).filter fun kind => kind.validPayloadLen (tag.length - 4) inodeSize

def Flow.result : Flow → FcReplayResult
  | .nextBlock s => s.discardPending.result
  | .stop s => s.discardPending.result
  | .done result => result

variable {data : Bytes}

variable {flow : Flow}

section Tags

variable (inodeSize : Nat)

def operation? (tag : Bytes) : Option FcOperation :=
  (kindOf inodeSize tag).bind fun kind => parseFcOperation kind (tag.drop 4)

def Unsupported (tag : Bytes) : Prop :=
  kindOf inodeSize tag = some .head ∧
    leAt 0 4 (tag.drop 4) &&& (2 ^ 32 - 1 - ext4FcSupportedFeatures) ≠ 0

instance (tag : Bytes) : Decidable (Unsupported inodeSize tag) :=
  inferInstanceAs (Decidable (_ ∧ _))

def HeadOf (tid : Nat) (tag : Bytes) : Prop :=
  kindOf inodeSize tag = some .head ∧ ¬ Unsupported inodeSize tag ∧ leAt 4 4 (tag.drop 4) = tid

def Lead (tag : Bytes) : Prop := kindOf inodeSize tag ≠ none ∧ ∀ tid, ¬ HeadOf inodeSize tid tag

/-- A tag that neither closes a transaction nor ends the stream: an operation, a PAD, a HEAD of the
same cycle, or one with features that are not supported. -/
def Quiet (head : Nat) (tag : Bytes) : Prop :=
  kindOf inodeSize tag ≠ none ∧ kindOf inodeSize tag ≠ some .tail ∧
    ∀ tid, HeadOf inodeSize tid tag → tid = head

def coveredBytes (tags : List Bytes) : Bytes :=
  (tags.filter fun tag => ¬ Unsupported inodeSize tag).flatten

/-- The operations since the last HEAD that is not supported. -/
def openOperations (tags : List Bytes) : List FcOperation :=
  tags.foldl (fun operations tag =>
    if Unsupported inodeSize tag then [] else operations ++ (operation? inodeSize tag).toList) []

end Tags

def BeginsCycle (inodeSize head : Nat) (tags : List Bytes) : Prop :=
  ∃ first rest, tags = first :: rest ∧ HeadOf inodeSize head first

/-- The tags since a TAIL: those that a HEAD has discarded, and the body, which begins at the TAIL
or at the last HEAD. -/
structure Opened (inodeSize head : Nat) (gap body : List Bytes) : Prop where
  gap_quiet : ∀ tag ∈ gap, Quiet inodeSize head tag
  body_quiet : ∀ tag ∈ body, Quiet inodeSize head tag
  begins : gap = [] ∨ BeginsCycle inodeSize head body
  last_head : ∀ tag ∈ body.tail, ¬ HeadOf inodeSize head tag

structure Transaction where
  gap : List Bytes
  body : List Bytes
  tail : Bytes

namespace Transaction

variable (inodeSize head : Nat) (t : Transaction)

def tags : List Bytes := t.gap ++ t.body ++ [t.tail]

def operations : List FcOperation := openOperations inodeSize t.body

def Framed : Prop := Opened inodeSize head t.gap t.body ∧ kindOf inodeSize t.tail = some .tail

/-- The TAIL has the HEAD's tid, and the checksum of the body, its own header and tid. -/
def Seals : Prop :=
  leAt 0 4 (t.tail.drop 4) = head ∧
    leAt 4 4 (t.tail.drop 4) =
      (crc32cUpdate 0 (coveredBytes inodeSize t.body ++ t.tail.take 8)).toNat

end Transaction

/-- The stream ends at a TAIL that does not seal, or at a HEAD of another cycle. -/
def EndsEarly (inodeSize head : Nat) (rest : List Bytes) : Prop :=
  (∃ (t : Transaction) (more : List Bytes), rest = t.tags ++ more ∧ t.Framed inodeSize head ∧
    ¬ t.Seals inodeSize head) ∨
  ∃ (quiet more : List Bytes) (stale : Bytes) (tid : Nat), rest = quiet ++ stale :: more ∧
    (∀ tag ∈ quiet, Quiet inodeSize head tag) ∧ HeadOf inodeSize tid stale ∧ tid ≠ head

section Lemmas

variable {inodeSize : Nat}

theorem coveredBytes_append (a b : List Bytes) :
    coveredBytes inodeSize (a ++ b) = coveredBytes inodeSize a ++ coveredBytes inodeSize b := by
  unfold coveredBytes
  rw [List.filter_append, List.flatten_append]

theorem coveredBytes_singleton {tag : Bytes} (h : ¬ Unsupported inodeSize tag) :
    coveredBytes inodeSize [tag] = tag := by
  simp [coveredBytes, h]

theorem openOperations_append_singleton (tags : List Bytes) (tag : Bytes) :
    openOperations inodeSize (tags ++ [tag]) =
      if Unsupported inodeSize tag then []
      else openOperations inodeSize tags ++ (operation? inodeSize tag).toList := by
  unfold openOperations
  rw [List.foldl_append, List.foldl_cons, List.foldl_nil]

theorem openOperations_eq {tags : List Bytes} (h : ∀ tag ∈ tags, ¬ Unsupported inodeSize tag) :
    openOperations inodeSize tags = tags.filterMap (operation? inodeSize) := by
  induction tags using List.reverseRecOn with
  | nil => rfl
  | append_singleton tags tag ih =>
    rw [openOperations_append_singleton, if_neg (h tag (by simp)),
      ih fun t ht => h t (List.mem_append_left _ ht), List.filterMap_append]
    cases hop : operation? inodeSize tag <;> simp [hop]

/-- With no unsupported HEAD in it, the checksum is that of every tag of the body. -/
def Transaction.Whole (inodeSize : Nat) (t : Transaction) : Prop :=
  (∀ tag ∈ t.body, ¬ Unsupported inodeSize tag) →
    coveredBytes inodeSize t.body = t.body.flatten ∧
      t.operations inodeSize = t.body.filterMap (operation? inodeSize)

theorem Transaction.whole (t : Transaction) : t.Whole inodeSize := by
  intro h
  refine ⟨?_, openOperations_eq h⟩
  rw [coveredBytes, List.filter_eq_self.mpr fun tag ht => decide_eq_true (h tag ht)]

theorem crcUpdate_eq (crc : BitVec 32) (bytes : Bytes) :
    crcUpdate crc bytes = crc32cUpdate crc bytes := by
  unfold crcUpdate crc32cAppend
  rw [BitVec.not_not, BitVec.not_not]

theorem crcUpdate_crc32cUpdate (a b : Bytes) :
    crcUpdate (crc32cUpdate 0 a) b = crc32cUpdate 0 (a ++ b) := by
  rw [crcUpdate_eq]
  unfold crc32cUpdate
  rw [List.foldl_append]

theorem parseFcOperation_isSome {kind : FcTag} {payload : Bytes}
    (hvalid : kind.validPayloadLen payload.length inodeSize = true) (hhead : kind ≠ .head)
    (htail : kind ≠ .tail) (hpad : kind ≠ .pad) :
    ∃ operation, parseFcOperation kind payload = some operation := by
  unfold FcTag.validPayloadLen at hvalid
  unfold parseFcOperation
  cases kind with
  | head => exact absurd rfl hhead
  | tail => exact absurd rfl htail
  | pad => exact absurd rfl hpad
  | addRange =>
    have hlen := of_decide_eq_true hvalid
    exact ⟨_, if_pos (by omega)⟩
  | delRange =>
    have hlen := of_decide_eq_true hvalid
    exact ⟨_, if_pos (by omega)⟩
  | creat =>
    have hlen := of_decide_eq_true hvalid
    exact ⟨_, if_pos (by omega)⟩
  | link =>
    have hlen := of_decide_eq_true hvalid
    exact ⟨_, if_pos (by omega)⟩
  | unlink =>
    have hlen := of_decide_eq_true hvalid
    exact ⟨_, if_pos (by omega)⟩
  | inode =>
    have hlen := of_decide_eq_true hvalid
    exact ⟨_, if_pos (by omega)⟩

theorem opened_nil (head : Nat) : Opened inodeSize head [] [] where
  gap_quiet := by simp
  body_quiet := by simp
  begins := .inl rfl
  last_head := by simp

theorem Opened.append {head : Nat} {gap body : List Bytes} (h : Opened inodeSize head gap body)
    {tag : Bytes} (hquiet : Quiet inodeSize head tag) (hhead : ¬ HeadOf inodeSize head tag) :
    Opened inodeSize head gap (body ++ [tag]) where
  gap_quiet := h.gap_quiet
  body_quiet t ht := by
    rcases List.mem_append.mp ht with ht | ht
    · exact h.body_quiet t ht
    · rwa [List.mem_singleton.mp ht]
  begins := by
    rcases h.begins with hgap | ⟨first, rest, rfl, hfirst⟩
    · exact .inl hgap
    · exact .inr ⟨first, rest ++ [tag], rfl, hfirst⟩
  last_head t ht := by
    cases body with
    | nil => cases ht
    | cons first rest =>
      rcases List.mem_append.mp ht with ht | ht
      · exact h.last_head t ht
      · rwa [List.mem_singleton.mp ht]

theorem Opened.restart {head : Nat} {gap body : List Bytes} (h : Opened inodeSize head gap body)
    {tag : Bytes} (hhead : HeadOf inodeSize head tag) (hquiet : Quiet inodeSize head tag) :
    Opened inodeSize head (gap ++ body) [tag] where
  gap_quiet t ht := (List.mem_append.mp ht).elim (h.gap_quiet t) (h.body_quiet t)
  body_quiet t ht := by rwa [List.mem_singleton.mp ht]
  begins := .inr ⟨tag, [], rfl, hhead⟩
  last_head := by simp

theorem Scan.discardPending_spec (s : Scan) :
    s.discardPending.result.operations = s.result.operations ∧
      s.discardPending.headTid = s.headTid ∧ s.discardPending.crc = s.crc ∧
      s.discardPending.pending = {} ∧
      (s.discardPending.result.fallbackRequired = false →
        s.result.fallbackRequired = false ∧ s.pending.operations = []) := by
  unfold Scan.discardPending
  split_ifs with hwork
  · exact ⟨rfl, rfl, rfl, rfl, by simp⟩
  · obtain ⟨result, ⟨active, operations⟩, headTid, crc⟩ := s
    have hidle : active = false ∧ operations = [] := by
      simpa [PendingFcTransaction.hasPendingWork] using hwork
    obtain ⟨rfl, rfl⟩ := hidle
    exact ⟨rfl, rfl, rfl, rfl, fun h => ⟨h, rfl⟩⟩

end Lemmas

/-! ## One tag -/

structure Idle (inodeSize : Nat) (tags : List Bytes) (s : Scan) : Prop where
  lead : ∀ tag ∈ tags, Lead inodeSize tag
  headTid : s.headTid = none
  pending : s.pending = {}
  operations : s.result.operations = []
  complete : s.result.fallbackRequired = false → tags.filterMap (operation? inodeSize) = []

structure InCycle (inodeSize : Nat) (tags : List Bytes) (s : Scan) (head : Nat)
    (lead : List Bytes) (txns : List Transaction) (gap body : List Bytes) : Prop where
  tags_eq : tags = lead ++ (txns.flatMap Transaction.tags ++ (gap ++ body))
  lead : ∀ tag ∈ lead, Lead inodeSize tag
  first : BeginsCycle inodeSize head (txns.flatMap Transaction.tags ++ (gap ++ body))
  sealed : ∀ t ∈ txns, t.Framed inodeSize head ∧ t.Seals inodeSize head
  opened : Opened inodeSize head gap body
  headTid : s.headTid = some head
  crc : s.crc = crc32cUpdate 0 (coveredBytes inodeSize body)
  pending : s.pending.operations = openOperations inodeSize body
  operations : s.result.operations = txns.flatMap (Transaction.operations inodeSize)
  complete : s.result.fallbackRequired = false →
    s.result.operations ++ s.pending.operations = tags.filterMap (operation? inodeSize)

inductive Seen (inodeSize : Nat) (tags : List Bytes) (s : Scan) : Prop
  | idle : Idle inodeSize tags s → Seen inodeSize tags s
  | inCycle {head : Nat} {lead gap body : List Bytes} {txns : List Transaction} :
      InCycle inodeSize tags s head lead txns gap body → Seen inodeSize tags s

section Step

variable {inodeSize head : Nat} {tags lead gap body : List Bytes} {txns : List Transaction}
  {s : Scan} {tag : Bytes} {kind : FcTag}

theorem InCycle.extend (h : InCycle inodeSize tags s head lead txns gap body)
    (hquiet : Quiet inodeSize head tag) (hhead : kindOf inodeSize tag ≠ some .head)
    {pending : PendingFcTransaction}
    (hpending : pending.operations = s.pending.operations ++ (operation? inodeSize tag).toList) :
    InCycle inodeSize (tags ++ [tag])
      { s with pending := pending, crc := crcUpdate s.crc tag } head lead txns gap
      (body ++ [tag]) where
  tags_eq := by rw [h.tags_eq]; simp only [List.append_assoc]
  lead := h.lead
  first := by
    obtain ⟨first, rest, heq, hfirst⟩ := h.first
    exact ⟨first, rest ++ [tag], by rw [← List.cons_append, ← heq]; simp only [List.append_assoc],
      hfirst⟩
  sealed := h.sealed
  opened := h.opened.append hquiet fun hof => hhead hof.1
  headTid := h.headTid
  crc := by
    have hcovered : ¬ Unsupported inodeSize tag := fun hun => hhead hun.1
    dsimp only
    rw [h.crc, crcUpdate_crc32cUpdate, coveredBytes_append, coveredBytes_singleton hcovered]
  pending := by
    have hcovered : ¬ Unsupported inodeSize tag := fun hun => hhead hun.1
    dsimp only
    rw [hpending, h.pending, openOperations_append_singleton, if_neg hcovered]
  operations := h.operations
  complete hfallback := by
    dsimp only at hfallback ⊢
    rw [hpending, ← List.append_assoc, h.complete hfallback, List.filterMap_append]
    congr 1

def StepsTo (inodeSize : Nat) (tags : List Bytes) (s : Scan) (tag : Bytes) : Next → Prop
  | .scan s' => Seen inodeSize (tags ++ [tag]) s'
  | .done result => result = s.result ∧ ∃ head lead txns gap body,
      InCycle inodeSize tags s head lead txns gap body ∧
        EndsEarly inodeSize head (gap ++ body ++ [tag])

theorem Idle.skip (h : Idle inodeSize tags s) (hlead : Lead inodeSize tag) {s' : Scan}
    (hhead : s'.headTid = none) (hpending : s'.pending = {})
    (hoperations : s'.result.operations = [])
    (hcomplete : s'.result.fallbackRequired = false →
      s.result.fallbackRequired = false ∧ operation? inodeSize tag = none) :
    StepsTo inodeSize tags s tag (.scan s') := by
  refine .idle ⟨?_, hhead, hpending, hoperations, ?_⟩
  · intro t ht
    rcases List.mem_append.mp ht with ht | ht
    · exact h.lead t ht
    · rwa [List.mem_singleton.mp ht]
  · intro hfallback
    obtain ⟨hbefore, hnone⟩ := hcomplete hfallback
    rw [List.filterMap_append, h.complete hbefore, List.nil_append, List.filterMap_cons, hnone,
      List.filterMap_nil]

theorem operation?_of_kind (hkind : kindOf inodeSize tag = some kind) :
    operation? inodeSize tag = parseFcOperation kind (tag.drop 4) := by
  unfold operation?
  rw [hkind]
  rfl

theorem Scan.tag_operation (s : Scan) (hkind : kindOf inodeSize tag = some kind)
    (hhead : kind ≠ .head) (htail : kind ≠ .tail) (hpad : kind ≠ .pad) :
    ∃ operation, operation? inodeSize tag = some operation ∧
      s.tag kind tag =
        if s.headTid = none then .scan s.fallback
        else .scan { s with
          crc := crcUpdate s.crc tag
          pending := ⟨true, s.pending.operations ++ [operation]⟩ } := by
  have hvalid : kind.validPayloadLen (tag.drop 4).length inodeSize = true := by
    rw [List.length_drop]
    exact (Option.filter_eq_some_iff.mp hkind).2
  obtain ⟨operation, hparse⟩ := parseFcOperation_isSome hvalid hhead htail hpad
  refine ⟨operation, (operation?_of_kind hkind).trans hparse, ?_⟩
  unfold Scan.tag
  cases kind with
  | head => exact absurd rfl hhead
  | tail => exact absurd rfl htail
  | pad => exact absurd rfl hpad
  | _ =>
    dsimp only
    rw [hparse]

theorem Idle.stepHead (h : Idle inodeSize tags s) (hkind : kindOf inodeSize tag = some .head) :
    StepsTo inodeSize tags s tag (s.tag .head tag) := by
  have hop : operation? inodeSize tag = none := operation?_of_kind hkind
  have hdiscard : s.discardPending = s := by
    unfold Scan.discardPending
    rw [h.pending]
    rfl
  unfold Scan.tag
  dsimp only
  rw [hdiscard]
  by_cases hun : Unsupported inodeSize tag
  · rw [if_pos hun.2]
    exact h.skip ⟨by rw [hkind]; exact Option.some_ne_none _, fun tid hof => hof.2.1 hun⟩
      h.headTid h.pending h.operations (fun hfalse => Bool.noConfusion hfalse)
  · have hfeatures : ¬ leAt 0 4 (tag.drop 4) &&& (2 ^ 32 - 1 - ext4FcSupportedFeatures) ≠ 0 :=
      fun hne => hun ⟨hkind, hne⟩
    have hof : HeadOf inodeSize (leAt 4 4 (tag.drop 4)) tag := ⟨hkind, hun, rfl⟩
    have hquiet : Quiet inodeSize (leAt 4 4 (tag.drop 4)) tag :=
      ⟨by rw [hkind]; exact Option.some_ne_none _, by rw [hkind]; decide,
        fun tid hother => hother.2.2.symm⟩
    rw [if_neg hfeatures, h.headTid]
    have hopened := (opened_nil (leAt 4 4 (tag.drop 4))).restart hof hquiet
    refine @Seen.inCycle inodeSize _ _ (leAt 4 4 (tag.drop 4)) tags [] [tag] [] ⟨rfl, h.lead, ⟨tag, [], rfl, hof⟩, by simp, hopened, rfl, ?_, ?_, ?_, ?_⟩
    · dsimp only
      rw [coveredBytes_singleton hun, crcUpdate_eq]
    · dsimp only
      rw [h.pending, ← List.nil_append [tag], openOperations_append_singleton, if_neg hun, hop]
      rfl
    · exact h.operations
    · intro hfallback
      dsimp only at hfallback ⊢
      rw [h.operations, h.pending, List.filterMap_append, h.complete hfallback,
        List.filterMap_cons, hop]
      rfl

theorem Idle.step (h : Idle inodeSize tags s) (hkind : kindOf inodeSize tag = some kind) :
    StepsTo inodeSize tags s tag (s.tag kind tag) := by
  by_cases hhead : kind = .head
  · subst hhead
    exact h.stepHead hkind
  have hlead : Lead inodeSize tag :=
    ⟨by rw [hkind]; exact Option.some_ne_none _,
      fun tid hof => hhead (Option.some.inj (hkind.symm.trans hof.1))⟩
  -- Operations and TAILs before a HEAD only ask for a fallback.
  have hfallback : StepsTo inodeSize tags s tag (.scan s.fallback) :=
    h.skip hlead h.headTid h.pending h.operations (fun hfalse => Bool.noConfusion hfalse)
  by_cases htail : kind = .tail
  · subst htail
    unfold Scan.tag
    dsimp only
    rw [h.headTid]
    exact hfallback
  by_cases hpad : kind = .pad
  · subst hpad
    exact h.skip hlead h.headTid h.pending h.operations fun hf => ⟨hf, operation?_of_kind hkind⟩
  obtain ⟨operation, -, hstep⟩ := s.tag_operation hkind hhead htail hpad
  rw [hstep, if_pos h.headTid]
  exact hfallback

theorem InCycle.stepHead (h : InCycle inodeSize tags s head lead txns gap body)
    (hkind : kindOf inodeSize tag = some .head) :
    StepsTo inodeSize tags s tag (s.tag .head tag) := by
  have hop : operation? inodeSize tag = none := operation?_of_kind hkind
  obtain ⟨hoperations, hheadTid, hcrc, hpending, hidle⟩ := s.discardPending_spec
  have hknown : kindOf inodeSize tag ≠ none := by
    rw [hkind]
    exact Option.some_ne_none _
  have hnotTail : kindOf inodeSize tag ≠ some .tail := by
    rw [hkind]
    decide
  obtain ⟨first, rest, hfirst, hfirstHead⟩ := h.first
  unfold Scan.tag
  dsimp only
  by_cases hun : Unsupported inodeSize tag
  · rw [if_pos hun.2]
    have hnot : ∀ tid, ¬ HeadOf inodeSize tid tag := fun tid hof => hof.2.1 hun
    have hquiet : Quiet inodeSize head tag :=
      ⟨hknown, hnotTail, fun tid hof => absurd hof (hnot tid)⟩
    refine @Seen.inCycle inodeSize _ _ head lead gap (body ++ [tag]) txns
      ⟨by rw [h.tags_eq]; simp only [List.append_assoc], h.lead,
        ⟨first, rest ++ [tag], by rw [← List.cons_append, ← hfirst]; simp only [List.append_assoc],
          hfirstHead⟩,
        h.sealed, h.opened.append hquiet (hnot head), hheadTid.trans h.headTid, ?_, ?_, ?_, ?_⟩
    · have hnone : coveredBytes inodeSize [tag] = [] := by simp [coveredBytes, hun]
      rw [coveredBytes_append, hnone, List.append_nil, ← h.crc]
      exact hcrc
    · rw [openOperations_append_singleton, if_pos hun]
      exact congrArg PendingFcTransaction.operations hpending
    · exact hoperations.trans h.operations
    · exact fun hfalse => Bool.noConfusion hfalse
  · have hfeatures : ¬ leAt 0 4 (tag.drop 4) &&& (2 ^ 32 - 1 - ext4FcSupportedFeatures) ≠ 0 :=
      fun hne => hun ⟨hkind, hne⟩
    have hof : HeadOf inodeSize (leAt 4 4 (tag.drop 4)) tag := ⟨hkind, hun, rfl⟩
    rw [if_neg hfeatures, h.headTid]
    by_cases hstale : head = leAt 4 4 (tag.drop 4)
    · rw [if_neg (by simp [hstale]), ← hstale]
      rw [← hstale] at hof
      have hquiet : Quiet inodeSize head tag :=
        ⟨hknown, hnotTail, fun tid hother => hother.2.2.symm.trans hof.2.2⟩
      refine @Seen.inCycle inodeSize _ _ head lead (gap ++ body) [tag] txns
        ⟨by rw [h.tags_eq]; simp only [List.append_assoc], h.lead,
          ⟨first, rest ++ [tag],
            by rw [← List.cons_append, ← hfirst]; simp only [List.append_assoc], hfirstHead⟩,
          h.sealed, h.opened.restart hof hquiet, rfl, ?_, ?_, ?_, ?_⟩
      · dsimp only
        rw [coveredBytes_singleton hun, crcUpdate_eq]
      · dsimp only
        rw [hpending, ← List.nil_append [tag], openOperations_append_singleton, if_neg hun, hop]
        rfl
      · exact hoperations.trans h.operations
      · intro hfallback
        dsimp only at hfallback ⊢
        obtain ⟨hbefore, hnone⟩ := hidle hfallback
        have hcomplete := h.complete hbefore
        rw [hnone] at hcomplete
        rw [hoperations, hpending, List.filterMap_append, ← hcomplete, List.filterMap_cons, hop]
        simp
    · rw [if_pos (by simp [hstale])]
      refine ⟨rfl, head, lead, txns, gap, body, h, .inr ⟨gap ++ body, [], tag, _, rfl, ?_, hof, ?_⟩⟩
      · intro t ht
        exact (List.mem_append.mp ht).elim (h.opened.gap_quiet t) (h.opened.body_quiet t)
      · exact fun heq => hstale heq.symm

theorem InCycle.stepTail (h : InCycle inodeSize tags s head lead txns gap body)
    (hkind : kindOf inodeSize tag = some .tail) :
    StepsTo inodeSize tags s tag (s.tag .tail tag) := by
  have hop : operation? inodeSize tag = none := operation?_of_kind hkind
  let t : Transaction := ⟨gap, body, tag⟩
  have hframed : t.Framed inodeSize head := ⟨h.opened, hkind⟩
  have hcrc : crcUpdate s.crc (tag.take 8) =
      crc32cUpdate 0 (coveredBytes inodeSize body ++ tag.take 8) := by
    rw [h.crc, crcUpdate_crc32cUpdate]
  have hseals : t.Seals inodeSize head ↔
      ¬ (leAt 0 4 (tag.drop 4) ≠ head ∨
        leAt 4 4 (tag.drop 4) ≠ (crcUpdate s.crc (tag.take 8)).toNat) := by
    rw [hcrc]
    push Not
    rfl
  unfold Scan.tag
  dsimp only
  rw [h.headTid]
  dsimp only
  by_cases hsealed : t.Seals inodeSize head
  · rw [if_neg (hseals.mp hsealed)]
    obtain ⟨first, rest, hfirst, hfirstHead⟩ := h.first
    refine @Seen.inCycle inodeSize _ _ head lead [] [] (txns ++ [t])
      ⟨?_, h.lead, ⟨first, rest ++ [tag], ?_, hfirstHead⟩, ?_, opened_nil head, rfl, rfl, rfl,
        ?_, ?_⟩
    · rw [h.tags_eq]
      simp [t, Transaction.tags]
    · rw [← List.cons_append, ← hfirst]
      simp [t, Transaction.tags]
    · intro x hx
      rcases List.mem_append.mp hx with hx | hx
      · exact h.sealed x hx
      · rw [List.mem_singleton.mp hx]
        exact ⟨hframed, hsealed⟩
    · dsimp only
      rw [h.operations, h.pending, List.flatMap_append, List.flatMap_singleton]
      rfl
    · intro hfallback
      dsimp only at hfallback ⊢
      rw [List.filterMap_append, ← h.complete hfallback, List.filterMap_cons, hop]
      rfl
  · rw [if_pos (by rw [hseals] at hsealed; exact not_not.mp hsealed)]
    exact ⟨rfl, head, lead, txns, gap, body, h, .inl ⟨t, [], by simp [t, Transaction.tags], hframed,
      hsealed⟩⟩

theorem InCycle.step (h : InCycle inodeSize tags s head lead txns gap body)
    (hkind : kindOf inodeSize tag = some kind) :
    StepsTo inodeSize tags s tag (s.tag kind tag) := by
  by_cases hhead : kind = .head
  · subst hhead
    exact h.stepHead hkind
  by_cases htail : kind = .tail
  · subst htail
    exact h.stepTail hkind
  have hnotHead : kindOf inodeSize tag ≠ some .head := by
    rw [hkind]
    exact fun heq => hhead (Option.some.inj heq)
  have hquiet : Quiet inodeSize head tag := by
    refine ⟨?_, ?_, fun tid hof => absurd hof.1 hnotHead⟩
    · rw [hkind]
      exact Option.some_ne_none _
    · rw [hkind]
      exact fun heq => htail (Option.some.inj heq)
  by_cases hpad : kind = .pad
  · subst hpad
    have hop : operation? inodeSize tag = none := operation?_of_kind hkind
    exact .inCycle (h.extend hquiet hnotHead (by rw [hop]; simp))
  obtain ⟨operation, hop, hstep⟩ := s.tag_operation hkind hhead htail hpad
  rw [hstep, if_neg (by rw [h.headTid]; exact Option.some_ne_none _)]
  exact .inCycle (h.extend hquiet hnotHead (by rw [hop]; rfl))

theorem Seen.step (h : Seen inodeSize tags s) (hkind : kindOf inodeSize tag = some kind) :
    StepsTo inodeSize tags s tag (s.tag kind tag) := by
  cases h with
  | idle h => exact h.step hkind
  | inCycle h => exact h.step hkind

end Step

/-! ## The whole area -/

def RunsTo (inodeSize : Nat) (tags rest : List Bytes) : Flow → Prop
  | .nextBlock s => Seen inodeSize (tags ++ rest) s
  | .stop s => ∃ mid bad more s', rest = mid ++ bad :: more ∧ Seen inodeSize (tags ++ mid) s' ∧
      s = s'.discardPending.fallback
  | .done result => ∃ mid tag more s', rest = mid ++ tag :: more ∧
      StepsTo inodeSize (tags ++ mid) s' tag (.done result)

theorem RunsTo.cons {inodeSize : Nat} {tags rest : List Bytes} {tag : Bytes}
    (h : RunsTo inodeSize (tags ++ [tag]) rest flow) :
    RunsTo inodeSize tags (tag :: rest) flow := by
  cases flow with
  | nextBlock s =>
    unfold RunsTo at h ⊢
    rwa [List.append_assoc] at h
  | stop s =>
    obtain ⟨mid, bad, more, s', rfl, hseen, hs⟩ := h
    exact ⟨tag :: mid, bad, more, s', rfl, by rwa [List.append_assoc] at hseen, hs⟩
  | done result =>
    obtain ⟨mid, last, more, s', rfl, hstep⟩ := h
    exact ⟨tag :: mid, last, more, s', rfl, by rwa [List.append_assoc] at hstep⟩

theorem EndsEarly.append {inodeSize head : Nat} {rest : List Bytes}
    (h : EndsEarly inodeSize head rest) (more : List Bytes) :
    EndsEarly inodeSize head (rest ++ more) := by
  rcases h with ⟨t, after, rfl, hframed, hseals⟩ | ⟨quiet, after, stale, tid, rfl, hquiet, hstale⟩
  · exact .inl ⟨t, after ++ more, by rw [List.append_assoc], hframed, hseals⟩
  · exact .inr ⟨quiet, after ++ more, stale, tid, by simp, hquiet, hstale⟩

section Samples

end Samples

end FrankenFs.FastCommit
