import FrankenFs.Mvcc.Flush
import FrankenFs.Mvcc.History

/-!
# Snapshot reads through the overlay and the device

A read that finds no version falls through to the device. A registered snapshot keeps its bytes as
long as no flush overwrites a block that it can only read there.
-/

open FrankenFs.Lib

namespace FrankenFs.Mvcc

/-! ## One block -/

/-- The history of a block is `pre ++ post`, where the chain holds `post`. Either every reader
finds a version in `post`, or the device holds the end of `pre`. -/
structure Split (active : Nat → Prop) (floor cursor deviceSeq : Nat) (pre post : Entries) :
    Prop where
  gone : ∀ e ∈ pre, e.1 ≤ floor
  evicted : post = [] → ∀ e ∈ pre, e.1 ≤ cursor
  readable : (∃ e ∈ post, ∀ k, active k → e.1 ≤ k) ∨
    (∀ e ∈ pre, e.1 ≤ deviceSeq) ∧ ∀ e ∈ post, deviceSeq < e.1

section Split

variable {active active' : Nat → Prop} {floor floor' cursor cursor' deviceSeq : Nat}
  {pre post : Entries}

theorem Split.mono (h : Split active floor cursor deviceSeq pre post) (hf : floor ≤ floor')
    (hc : cursor ≤ cursor') (ha : ∀ k, active' k → active k ∨ ∀ e ∈ post, e.1 ≤ k) :
    Split active' floor' cursor' deviceSeq pre post where
  gone e he := (h.gone e he).trans hf
  evicted hp e he := (h.evicted hp e he).trans hc
  readable := h.readable.imp_left fun ⟨e, he, hk⟩ =>
    ⟨e, he, fun k hk' => (ha k hk').elim (hk k) fun hall => hall e he⟩

theorem Split.push (h : Split active floor cursor deviceSeq pre post) {e : Nat × Bytes}
    (hd : deviceSeq < e.1) : Split active floor cursor deviceSeq pre (post ++ [e]) where
  gone := h.gone
  evicted hp := by simp at hp
  readable := by
    rcases h.readable with ⟨e', he', hk⟩ | ⟨hpre, hpost⟩
    · exact Or.inl ⟨e', by simp [he'], hk⟩
    · refine Or.inr ⟨hpre, fun e' he' => ?_⟩
      rcases List.mem_append.mp he' with he' | he'
      · exact hpost e' he'
      · rw [List.mem_singleton.mp he']
        exact hd

theorem Split.trim (h : Split active floor cursor deviceSeq pre post) {w : Nat} {post' : Entries}
    (hasc : Ascending (pre ++ post)) (ht : Trimmed w post post') (hw : floor ≤ w)
    (ha : ∀ k, active k → w ≤ k) :
    ∃ pre', pre ++ post = pre' ++ post' ∧ Split active w cursor deviceSeq pre' post' := by
  obtain ⟨dropped, rfl, rfl | ⟨e, he, hle⟩⟩ := ht
  · exact ⟨pre, rfl, h.mono hw le_rfl fun k hk => Or.inl hk⟩
  · have hmem : e ∈ post' := List.mem_of_mem_head? he
    refine ⟨pre ++ dropped, by simp, ?_, ?_, Or.inl ⟨e, hmem, fun k hk => hle.trans (ha k hk)⟩⟩
    · intro e' he'
      rw [← List.append_assoc] at hasc
      have := (List.pairwise_append.mp hasc).2.2 e' he' e hmem
      omega
    · rintro rfl
      simp at hmem

theorem Split.evict (hcur : ∀ e ∈ pre ++ post, e.1 ≤ cursor) (hf : ∀ e ∈ pre ++ post, e.1 ≤ floor)
    (hd : cursor ≤ deviceSeq) : Split active floor cursor deviceSeq (pre ++ post) [] where
  gone := hf
  evicted _ := hcur
  readable := Or.inr ⟨fun e he => (hcur e he).trans hd, by simp⟩

theorem Split.fallback (h : Split active floor cursor deviceSeq pre post) {s : Nat} (hs : active s)
    (hf : floor ≤ s) (hnone : asOf post s = none) :
    asOf (pre ++ post) deviceSeq = asOf (pre ++ post) s := by
  have hafter := asOf_eq_none.mp hnone
  rcases h.readable with ⟨e, he, hk⟩ | ⟨hpre, hpost⟩
  · have h1 := hk s hs
    have h2 := hafter e he
    omega
  · rw [asOf_append_left hpost, asOf_append_left hafter, asOf_all hpre,
      asOf_all fun e he => (h.gone e he).trans hf]

end Split

/-! ## Runs -/

section Runs

variable [Platform]

structure Mounted where
  logged : Logged
  base : BaseDevice
  flushedThrough : Nat

inductive MountOp where
  | store (op : StoreOp)
  | reopen (snapshot : Snapshot)
  | flush (fault : Option Nat)
  | evict (durableThrough : Nat)

namespace Mounted

def new (compression : CompressionPolicy) (conflict : ConflictPolicy)
    (config : AdaptivePolicyConfig) (base : BaseDevice) : Mounted :=
  ⟨⟨MvccStore.new compression conflict config, []⟩, base, 0⟩

def advance (cursor : Nat) : Except DeviceError (Nat × Nat) → Nat
  | .ok (_, through) => max cursor through
  | .error _ => cursor

def step (x : Mounted) : MountOp → Option Mounted
  | .store op => some { x with logged := x.logged.step op }
  | .reopen snapshot =>
    if (x.logged.store.activeSnapshots.get? snapshot.high).isSome then
      some { x with logged := ⟨x.logged.store.registerSnapshot snapshot, x.logged.log⟩ }
    else none
  | .flush fault =>
    let r := x.logged.store.flushToDeviceAfter x.base x.flushedThrough fault
    some { x with base := r.1, flushedThrough := advance x.flushedThrough r.2 }
  | .evict d =>
    if d ≤ x.flushedThrough then
      some { x with logged := ⟨x.logged.store.evictDurableChains d, x.logged.log⟩ }
    else none

def run (x : Mounted) : List MountOp → Option Mounted
  | [] => some x
  | op :: ops => (x.step op).bind fun x' => x'.run ops

/-- What a flush would write is one block long each, and every registered snapshot has a
version of the block in the store. -/
def flushSafe (x : Mounted) : Bool :=
  (x.logged.store.flushBlocks x.flushedThrough).all fun p =>
    p.2.length == x.base.blockSize &&
      x.logged.store.activeSnapshots.keys.all fun k =>
        (x.logged.store.readVisible p.1 ⟨k⟩).isSome

def stepSafe (x : Mounted) : MountOp → Bool
  | .flush _ => x.flushSafe
  | _ => true

def safeRun (x : Mounted) : List MountOp → Bool
  | [] => true
  | op :: ops => x.stepSafe op && (x.step op).all fun x' => x'.safeRun ops

def active (x : Mounted) (k : Nat) : Prop := (x.logged.store.activeSnapshots.get? k).isSome

structure Inv (x : Mounted) (original : BaseDevice) (floor : Nat) (deviceSeq : Nat → Nat) :
    Prop extends x.logged.Bounded floor where
  positive : 0 < x.logged.store.nextCommit
  size : x.base.blockSize = original.blockSize ∧ x.base.blockCount = original.blockCount
  device : ∀ b, x.base.data b = (x.logged.log.read b (deviceSeq b)).getD (original.data b)
  cursor : ∀ b, x.flushedThrough ≤ deviceSeq b ∧ deviceSeq b ≤ x.logged.store.nextCommit - 1
  chains : ∀ b, ∃ pre post, x.logged.log.history b = pre ++ post ∧
    Stores (x.logged.store.chain b) post ∧
      Split x.active floor x.flushedThrough (deviceSeq b) pre post

section Steps

variable {x : Mounted} {original : BaseDevice} {floor : Nat} {deviceSeq : Nat → Nat}

theorem Inv.ascending (h : Inv x original floor deviceSeq) {b : Nat} {pre post : Entries}
    (heq : x.logged.log.history b = pre ++ post) : Ascending (pre ++ post) :=
  heq ▸ h.ordered.ascending b

theorem Inv.sameData (h : Inv x original floor deviceSeq) {s : MvccStore}
    (hs : x.logged.store.SameData s) :
    Inv { x with logged := ⟨s, x.logged.log⟩ } original floor deviceSeq where
  toBounded := h.toBounded.sameData hs
  positive := by simpa only [hs.nextCommit] using h.positive
  size := h.size
  device := h.device
  cursor b := by simpa only [hs.nextCommit] using h.cursor b
  chains b := by
    obtain ⟨pre, post, heq, hst, hsplit⟩ := h.chains b
    refine ⟨pre, post, heq, by simpa only [hs.chain b] using hst, ?_⟩
    exact hsplit.mono le_rfl le_rfl fun k hk => Or.inl (hs.active k hk)

theorem Inv.installed [Platform.Lossless] (h : Inv x original floor deviceSeq) {s' : MvccStore}
    {txn : Transaction} {c : Nat} {ws : List (Nat × Bytes)}
    (hi : x.logged.store.Installed s' txn c ws) :
    Inv { x with logged := ⟨s', x.logged.log ++ [(c, ws)]⟩ } original s'.gcWatermark deviceSeq := by
  have hbounded := h.toBounded.installed hi
  have hw := hbounded.gcWatermark.1
  have hdev : ∀ b, deviceSeq b < c := by
    intro b
    have h1 := (h.cursor b).2
    have h2 := h.positive
    rw [← hi.seq] at h1 h2
    omega
  refine ⟨hbounded.atWatermark, ?_, h.size, fun b => ?_, fun b => ⟨(h.cursor b).1, ?_⟩,
    fun b => ?_⟩
  · simp only [hi.nextCommit]
    omega
  · rw [CommitLog.read, CommitLog.history_snoc, asOf_append_left, h.device b, CommitLog.read]
    intro e he
    cases hl : ws.lookup b with
    | none => simp [hl] at he
    | some bytes =>
      simp only [hl, Option.map_some, Option.toList_some, List.mem_singleton] at he
      rw [he]
      exact hdev b
  · simp only [hi.nextCommit]
    have := hdev b
    omega
  · obtain ⟨pre, post, heq, hst, hsplit⟩ := h.chains b
    rw [CommitLog.history_snoc, heq]
    cases hl : ws.lookup b with
    | none =>
      have hch : s'.chain b = x.logged.store.chain b := by
        simp only [MvccStore.chain, hi.untouched b hl]
      refine ⟨pre, post, by simp, hch ▸ hst, ?_⟩
      exact hsplit.mono hw le_rfl fun k hk => Or.inl (hi.active k hk)
    | some bytes =>
      obtain ⟨post', htrim, hst'⟩ := hi.stores b bytes hl post hst
      have hpush := (hsplit.mono le_rfl le_rfl fun k hk => Or.inl (hi.active k hk)).push
        (e := (c, bytes)) (hdev b)
      have hasc' : Ascending (pre ++ (post ++ [(c, bytes)])) := by
        have := hbounded.ordered.ascending b
        rwa [CommitLog.history_snoc, heq, hl, Option.map_some, Option.toList_some,
          List.append_assoc] at this
      obtain ⟨pre', heq', hsplit'⟩ := hpush.trim hasc' htrim hw fun k hk =>
        s'.gcWatermark_le_active hk
      refine ⟨pre', post', ?_, hst', hsplit'⟩
      rw [Option.map_some, Option.toList_some, List.append_assoc, heq']

theorem Inv.afterCommit [Platform.Lossless] (h : Inv x original floor deviceSeq)
    (txn : Transaction) (useSsi : Bool) :
    ∃ floor', Inv { x with logged := x.logged.afterCommit txn (if useSsi then
      x.logged.store.commitSsi txn else x.logged.store.commit txn) } original floor' deviceSeq := by
  obtain ⟨s, hs, heq⟩ | ⟨sp, s, c, ws, hsame, hi, heq⟩ := x.logged.afterCommit_cases txn useSsi
  · exact ⟨floor, heq ▸ h.sameData hs⟩
  · exact ⟨_, heq ▸ (h.sameData hsame).installed hi⟩

theorem Inv.pruneSafe (h : Inv x original floor deviceSeq) :
    Inv { x with logged := ⟨x.logged.store.pruneSafe.1, x.logged.log⟩ } original
      x.logged.store.gcWatermark deviceSeq where
  toBounded := ⟨h.ordered, h.atWatermark.current, h.atWatermark.active⟩
  positive := h.positive
  size := h.size
  device := h.device
  cursor := h.cursor
  chains b := by
    obtain ⟨pre, post, heq, hst, hsplit⟩ := h.chains b
    obtain ⟨post', htrim, hst'⟩ := hst.prune x.logged.store.gcWatermark
    obtain ⟨pre', heq', hsplit'⟩ := hsplit.trim (h.ascending heq) htrim h.gcWatermark.1 fun k hk =>
      x.logged.store.gcWatermark_le_active hk
    refine ⟨pre', post', heq.trans heq', ?_, hsplit'⟩
    rw [x.logged.store.pruneSafe_chain]
    exact hst'

theorem Inv.register (h : Inv x original floor deviceSeq) {snapshot : Snapshot}
    (hs : x.active snapshot.high ∨ snapshot = x.logged.store.currentSnapshot) :
    Inv { x with logged := ⟨x.logged.store.registerSnapshot snapshot, x.logged.log⟩ } original
      floor deviceSeq := by
  have hnew : ∀ k, (x.logged.store.registerSnapshot snapshot).activeSnapshots.get? k |>.isSome →
      x.active k ∨ k = x.logged.store.nextCommit - 1 := by
    intro k hk
    rcases (x.logged.store.registerSnapshot_active snapshot k).mp hk with rfl | hk
    · exact hs.imp_right fun heq => by rw [heq]; rfl
    · exact Or.inl hk
  refine ⟨h.toBounded.register hs, h.positive, h.size, h.device, h.cursor, fun b => ?_⟩
  obtain ⟨pre, post, heq, hst, hsplit⟩ := h.chains b
  refine ⟨pre, post, heq, hst, hsplit.mono le_rfl le_rfl fun k hk => ?_⟩
  refine (hnew k hk).imp_right fun hk e he => ?_
  have : e ∈ x.logged.log.history b := by rw [heq]; simp [he]
  have := h.ordered.history_lt this
  omega

theorem Inv.evict (h : Inv x original floor deviceSeq) {d : Nat} (hd : d ≤ x.flushedThrough) :
    Inv { x with logged := ⟨x.logged.store.evictDurableChains d, x.logged.log⟩ } original
      (max floor (x.logged.store.evictBound d)) deviceSeq := by
  obtain ⟨hbd, hba⟩ := x.logged.store.evictBound_le d
  have hcur : x.flushedThrough ≤ x.logged.store.nextCommit - 1 :=
    (h.cursor 0).1.trans (h.cursor 0).2
  refine ⟨⟨h.ordered, max_le h.current (hbd.trans (hd.trans hcur)), fun k hk => ?_⟩, h.positive,
    h.size, h.device, h.cursor, fun b => ?_⟩
  · exact ⟨max_le (h.toBounded.active k hk).1 (hba k hk), (h.toBounded.active k hk).2⟩
  · obtain ⟨pre, post, heq, hst, hsplit⟩ := h.chains b
    simp only [x.logged.store.evictDurableChains_chain]
    split_ifs with hev
    · -- The newest version is at or below the bound, and so are all before it.
      have hall : ∀ e ∈ pre ++ post, e.1 ≤ x.logged.store.evictBound d := by
        obtain ⟨v, hv, hle⟩ := MvccStore.evictable_newest hev
        have hlatest := hst.latest
        rw [hv, Option.map_some] at hlatest
        obtain ⟨e, he, hseq⟩ := Option.map_eq_some_iff.mp hlatest.symm
        have hlast : (pre ++ post).getLast? = some e := by rw [List.getLast?_append, he]; rfl
        intro e' he'
        have := (h.ascending heq).le_last hlast e' he'
        omega
      refine ⟨pre ++ post, [], by simpa using heq, stores_nil, ?_⟩
      exact Split.evict (fun e he => (hall e he).trans (hbd.trans hd))
        (fun e he => (hall e he).trans (le_max_right _ _)) (h.cursor b).1
    · exact ⟨pre, post, heq, hst, hsplit.mono (le_max_left _ _) le_rfl fun k hk => Or.inl hk⟩

theorem Inv.flushed (h : Inv x original floor deviceSeq) (hsafe : x.flushSafe = true) {b : Nat}
    {bytes : Bytes} (hb : (b, bytes) ∈ x.logged.store.flushBlocks x.flushedThrough)
    {pre post : Entries} (heq : x.logged.log.history b = pre ++ post)
    (hst : Stores (x.logged.store.chain b) post) :
    x.logged.log.read b (x.logged.store.nextCommit - 1) = some bytes ∧
      ∃ e ∈ post, ∀ k, x.active k → e.1 ≤ k := by
  have hle : ∀ e ∈ pre ++ post, e.1 ≤ x.logged.store.nextCommit - 1 := by
    intro e he
    rw [← heq] at he
    have := h.ordered.history_lt he
    omega
  have hasc := h.ascending heq
  obtain ⟨c, hlast, -⟩ := (MvccStore.mem_flushBlocks hst fun e he => hle e (by simp [he])).mp hb
  constructor
  · rw [CommitLog.read, heq, asOf_all hle, List.getLast?_append, hlast]
    rfl
  · cases post with
    | nil => simp at hlast
    | cons first rest =>
      refine ⟨first, by simp, fun k hk => ?_⟩
      -- The snapshot sees some version, and none is older than the first.
      have hsee := (List.all_eq_true.mp hsafe) (b, bytes) hb
      rw [Bool.and_eq_true, List.all_eq_true] at hsee
      have hread := hsee.2 k ((OrdMap.mem_keys _).mpr hk)
      have hasc' : Ascending (first :: rest) :=
        List.Pairwise.sublist (List.sublist_append_right _ _) hasc
      rw [MvccStore.readVisible_eq, hst.read hasc', asOf_isSome] at hread
      obtain ⟨e, he, hle'⟩ := hread
      rcases List.mem_cons.mp he with rfl | he
      · exact hle'
      · exact (le_of_lt ((List.pairwise_cons.mp hasc').1 e he)).trans hle'

theorem Inv.unflushed (h : Inv x original floor deviceSeq) {b : Nat}
    (hb : x.logged.store.nextCommit - 1 ≤ x.flushedThrough ∨
      ∀ bytes, (b, bytes) ∉ x.logged.store.flushBlocks x.flushedThrough)
    {pre post : Entries} (heq : x.logged.log.history b = pre ++ post)
    (hst : Stores (x.logged.store.chain b) post)
    (hev : post = [] → ∀ e ∈ pre, e.1 ≤ x.flushedThrough) :
    ∀ e ∈ pre ++ post, e.1 ≤ x.flushedThrough := by
  have hle : ∀ e ∈ pre ++ post, e.1 ≤ x.logged.store.nextCommit - 1 := by
    intro e he
    rw [← heq] at he
    have := h.ordered.history_lt he
    omega
  rcases hb with hcur | hb
  · exact fun e he => (hle e he).trans hcur
  · cases hl : post.getLast? with
    | none =>
      have hnil := List.getLast?_eq_none_iff.mp hl
      subst hnil
      simpa using hev rfl
    | some last =>
      have hlast : (pre ++ post).getLast? = some last := by rw [List.getLast?_append, hl]; rfl
      intro e he
      have h1 := (h.ascending heq).le_last hlast e he
      by_contra hlt
      refine hb last.2 ((MvccStore.mem_flushBlocks hst fun e he => hle e (by simp [he])).mpr ?_)
      exact ⟨last.1, hl, by omega⟩

/-- Where a block's device version may go: it was written with the newest version, or nothing
was committed since the cursor, or it stays. -/
def Moves (x : Mounted) (writes : List (Nat × Bytes)) (cursor' old new b : Nat) : Prop :=
  (∃ bytes, (b, bytes) ∈ writes) ∧ new = x.logged.store.nextCommit - 1 ∨
    writes.lookup b = none ∧ ((∀ e ∈ x.logged.log.history b, e.1 ≤ x.flushedThrough) ∧
      new = x.logged.store.nextCommit - 1 ∨ cursor' ≤ old ∧ new = old)

theorem Inv.moved (h : Inv x original floor deviceSeq) (hsafe : x.flushSafe = true)
    {writes : List (Nat × Bytes)}
    (hpre : writes <+: x.logged.store.flushBlocks x.flushedThrough) {cursor' : Nat}
    (hc : x.flushedThrough ≤ cursor' ∧ cursor' ≤ x.logged.store.nextCommit - 1)
    {deviceSeq' : Nat → Nat} (hmove : ∀ b, x.Moves writes cursor' (deviceSeq b) (deviceSeq' b) b) :
    Inv { x with base := writes.foldl BaseDevice.writeBlock x.base, flushedThrough := cursor' }
      original floor deviceSeq' := by
  have hnd : (writes.map Prod.fst).Nodup :=
    (x.logged.store.flushBlocks_nodup _).sublist (hpre.sublist.map Prod.fst)
  have hsize := foldl_writeBlock_size writes x.base
  refine ⟨h.toBounded, h.positive, ⟨hsize.1.trans h.size.1, hsize.2.trans h.size.2⟩, fun b => ?_, fun b => ?_, fun b => ?_⟩
  · obtain ⟨pre, post, heq, hst, hsplit⟩ := h.chains b
    rw [foldl_writeBlock hnd]
    rcases hmove b with ⟨⟨bytes, hb⟩, hnew⟩ | ⟨hnone, ⟨hall, hnew⟩ | ⟨-, hnew⟩⟩
    · rw [lookup_of_mem hnd hb, hnew, (h.flushed hsafe (hpre.subset hb) heq hst).1]
      rfl
    · have hold := h.cursor b
      rw [hnone, Option.getD_none, h.device b, hnew, CommitLog.read, CommitLog.read,
        asOf_all fun e he => (hall e he).trans hold.1,
        asOf_all fun e he => (hall e he).trans (hold.1.trans hold.2)]
    · rw [hnone, Option.getD_none, h.device b, hnew]
  · rcases hmove b with ⟨-, hnew⟩ | ⟨-, ⟨-, hnew⟩ | ⟨hle, hnew⟩⟩
    · rw [hnew]
      exact ⟨hc.2, le_rfl⟩
    · rw [hnew]
      exact ⟨hc.2, le_rfl⟩
    · rw [hnew]
      exact ⟨hle, (h.cursor b).2⟩
  · obtain ⟨pre, post, heq, hst, hsplit⟩ := h.chains b
    refine ⟨pre, post, heq, hst, hsplit.gone, fun hp e he => (hsplit.evicted hp e he).trans hc.1, ?_⟩
    rcases hmove b with ⟨⟨bytes, hb⟩, -⟩ | ⟨-, ⟨hall, hnew⟩ | ⟨-, hnew⟩⟩
    · exact Or.inl (h.flushed hsafe (hpre.subset hb) heq hst).2
    · refine hsplit.readable.imp_right fun hread => ⟨fun e he => ?_, fun e he => ?_⟩
      · have := hall e (by rw [heq]; simp [he])
        rw [hnew]
        exact this.trans (hc.1.trans hc.2)
      · -- Nothing is above the cursor, so the chain is empty here.
        have h1 := hall e (by rw [heq]; simp [he])
        have h2 := hread.2 e he
        have h3 := (h.cursor b).1
        omega
    · rw [hnew]
      exact hsplit.readable

theorem Inv.flush (h : Inv x original floor deviceSeq) (hsafe : x.flushSafe = true)
    {fault : Option Nat} {x' : Mounted} (hstep : x.step (.flush fault) = some x') :
    ∃ deviceSeq', Inv x' original floor deviceSeq' := by
  have hsize : ∀ p ∈ x.logged.store.flushBlocks x.flushedThrough,
      p.2.length = x.base.blockSize := by
    intro p hp
    have := List.all_eq_true.mp hsafe p hp
    rw [Bool.and_eq_true] at this
    simpa using this.1
  obtain ⟨writes, hpre, hbase, hok⟩ : ∃ writes, _ := MvccStore.flushToDeviceAfter_spec hsize
  have hcur : ∀ b, x.flushedThrough ≤ deviceSeq b ∧ deviceSeq b ≤ x.logged.store.nextCommit - 1 :=
    h.cursor
  have hnd : (writes.map Prod.fst).Nodup :=
    (x.logged.store.flushBlocks_nodup _).sublist (hpre.sublist.map Prod.fst)
  have hcases : ∀ b, (∃ bytes, (b, bytes) ∈ writes) ∨ writes.lookup b = none := by
    intro b
    refine or_iff_not_imp_left.mpr fun hno => List.lookup_eq_none_iff.mpr fun p hp => ?_
    rw [bne_iff_ne]
    rintro rfl
    exact hno ⟨p.2, hp⟩
  simp only [Mounted.step, Option.some.injEq] at hstep
  subst hstep
  rw [hbase]
  cases hr : (x.logged.store.flushToDeviceAfter x.base x.flushedThrough fault).2 with
  | error e =>
    -- Only what was written moves.
    refine ⟨fun b => if writes.lookup b = none then deviceSeq b
      else x.logged.store.nextCommit - 1, h.moved hsafe hpre ⟨le_rfl, ?_⟩ fun b => ?_⟩
    · exact (hcur 0).1.trans (hcur 0).2
    · rcases hcases b with ⟨bytes, hb⟩ | hnone
      · refine Or.inl ⟨⟨bytes, hb⟩, if_neg ?_⟩
        rw [lookup_of_mem hnd hb]
        simp
      · exact Or.inr ⟨hnone, Or.inr ⟨(hcur b).1, if_pos hnone⟩⟩
  | ok r =>
    obtain ⟨hthrough, hall⟩ := hok r.1 r.2 hr
    refine ⟨fun _ => x.logged.store.nextCommit - 1, h.moved hsafe hpre ?_ fun b => ?_⟩
    · simp only [advance, hthrough]
      refine ⟨le_max_left _ _, max_le ((hcur 0).1.trans (hcur 0).2) le_rfl⟩
    · rcases hcases b with hb | hnone
      · exact Or.inl ⟨hb, rfl⟩
      · obtain ⟨pre, post, heq, hst, hsplit⟩ := h.chains b
        refine Or.inr ⟨hnone, Or.inl ⟨?_, rfl⟩⟩
        rw [heq]
        refine h.unflushed (hall.imp_right fun hw bytes hb => ?_) heq hst hsplit.evicted
        rw [← hw] at hb
        have := List.lookup_eq_none_iff.mp hnone (b, bytes) hb
        simp at this

theorem Inv.storeStep [Platform.Lossless] (h : Inv x original floor deviceSeq) (op : StoreOp) :
    ∃ floor', Inv { x with logged := x.logged.step op } original floor' deviceSeq := by
  cases op with
  | «begin» =>
    exact ⟨floor, ⟨h.ordered, h.current, h.toBounded.active⟩, h.positive, h.size, h.device,
      h.cursor, h.chains⟩
  | commit txn => exact h.afterCommit txn false
  | commitSsi txn => exact h.afterCommit txn true
  | registerCurrent => exact ⟨floor, h.register (Or.inr rfl)⟩
  | release snapshot =>
    exact ⟨floor, h.sameData (x.logged.store.releaseSnapshot_sameData snapshot)⟩
  | pruneSafe => exact ⟨_, h.pruneSafe⟩

theorem Inv.step [Platform.Lossless] (h : Inv x original floor deviceSeq) {op : MountOp}
    (hsafe : x.stepSafe op = true) {x' : Mounted}
    (hstep : x.step op = some x') :
    ∃ floor' deviceSeq', Inv x' original floor' deviceSeq' := by
  cases op with
  | store op =>
    obtain ⟨floor', h'⟩ := h.storeStep op
    cases hstep
    exact ⟨floor', deviceSeq, h'⟩
  | reopen snapshot =>
    simp only [Mounted.step] at hstep
    split_ifs at hstep with hreg
    cases hstep
    exact ⟨floor, deviceSeq, h.register (Or.inl hreg)⟩
  | flush fault =>
    obtain ⟨deviceSeq', h'⟩ := h.flush hsafe hstep
    exact ⟨floor, deviceSeq', h'⟩
  | evict d =>
    simp only [Mounted.step] at hstep
    split_ifs at hstep with hd
    cases hstep
    exact ⟨_, deviceSeq, h.evict hd⟩

theorem Inv.run [Platform.Lossless] (h : Inv x original floor deviceSeq) {ops : List MountOp}
    (hsafe : x.safeRun ops = true) {x' : Mounted} (hrun : x.run ops = some x') :
    ∃ floor' deviceSeq', Inv x' original floor' deviceSeq' := by
  induction ops generalizing x floor deviceSeq with
  | nil =>
    cases hrun
    exact ⟨floor, deviceSeq, h⟩
  | cons op ops ih =>
    obtain ⟨mid, hmid, hrest⟩ := Option.bind_eq_some_iff.mp hrun
    rw [safeRun, Bool.and_eq_true, hmid] at hsafe
    obtain ⟨floor', deviceSeq', h'⟩ := h.step hsafe.1 hmid
    exact ih h' hsafe.2 hrest

theorem Inv.read (h : Inv x original floor deviceSeq) {s : Nat} (hs : x.active s) {b : Nat}
    (hb : b < original.blockCount) :
    mvccReadBlock x.logged.store x.base ⟨s⟩ b =
      .ok ((x.logged.log.read b s).getD (original.data b)) := by
  obtain ⟨pre, post, heq, hst, hsplit⟩ := h.chains b
  have hasc : Ascending post :=
    List.Pairwise.sublist (List.sublist_append_right pre post) (h.ascending heq)
  have hvis : x.logged.store.readVisible b ⟨s⟩ = asOf post s := by
    rw [MvccStore.readVisible_eq, hst.read hasc]
  unfold mvccReadBlock
  rw [hvis]
  cases hp : asOf post s with
  | some bytes =>
    have : asOf (pre ++ post) s = some bytes := by
      rw [asOf_append_right (asOf_isSome.mp (by rw [hp]; rfl)), hp]
    simp only [CommitLog.read, heq, this, Option.getD_some]
  | none =>
    have hfall := hsplit.fallback hs (h.toBounded.active s hs).1 hp
    simp only [BaseDevice.readBlock, h.size.2, hb, if_true, h.device b, CommitLog.read, heq, hfall]

end Steps

theorem inv_new (compression : CompressionPolicy) (conflict : ConflictPolicy)
    (config : AdaptivePolicyConfig) (base : BaseDevice) :
    Inv (new compression conflict config base) base 0 fun _ => 0 where
  toBounded := (Logged.inv_new compression conflict config).toBounded
  positive := Nat.one_pos
  size := ⟨rfl, rfl⟩
  device _ := rfl
  cursor _ := ⟨le_rfl, Nat.zero_le _⟩
  chains _ := ⟨[], [], rfl, stores_nil, by simp, by simp, Or.inr ⟨by simp, by simp⟩⟩

/-- **Registered snapshots read the history through the overlay and the device**, in every
run whose flushes overwrite no block that a registered snapshot still reads there. -/
theorem snapshot_reads_history [Platform.Lossless] (compression : CompressionPolicy)
    (conflict : ConflictPolicy) (config : AdaptivePolicyConfig) (base : BaseDevice)
    {ops : List MountOp} (hsafe : (new compression conflict config base).safeRun ops = true)
    {x : Mounted} (hrun : (new compression conflict config base).run ops = some x)
    {s : Nat} (hs : x.active s) {b : Nat} (hb : b < base.blockCount) :
    mvccReadBlock x.logged.store x.base ⟨s⟩ b =
      .ok ((x.logged.log.read b s).getD (base.data b)) := by
  obtain ⟨floor, deviceSeq, h⟩ := (inv_new compression conflict config base).run hsafe hrun
  exact h.read hs hb

end Mounted

end Runs

/-! ## A flush under an old snapshot -/

section Examples

local instance mountedPlatform : Platform := exactPlatform

def blankDevice : BaseDevice := ⟨1, 8, fun _ => [0]⟩

def flushAfterReader : List MountOp :=
  [.store (.commit ((Transaction.new 1 ⟨0⟩).stageWrite 7 [1])), .store .registerCurrent,
    .store (.commit ((Transaction.new 2 ⟨1⟩).stageWrite 7 [2])), .flush none, .evict 2]

theorem snapshot_reads_history_flushAfterReader :
    ∃ x, (Mounted.new default .strict exactConfig blankDevice).run flushAfterReader = some x ∧
      mvccReadBlock x.logged.store x.base ⟨1⟩ 7 =
        .ok ((x.logged.log.read 7 1).getD (blankDevice.data 7)) ∧
      x.logged.log.read 7 1 = some [1] ∧ x.base.data 7 = [2] := by
  have h : ((Mounted.new default .strict exactConfig blankDevice).run flushAfterReader).map
      (fun x => (x.logged.log.read 7 1, x.base.data 7,
        (x.logged.store.activeSnapshots.get? 1).isSome)) = some (some [1], [2], true) := by
    decide
  obtain ⟨x, hrun, hx⟩ := Option.map_eq_some_iff.mp h
  simp only [Prod.mk.injEq] at hx
  refine ⟨x, hrun, ?_, hx.1, hx.2.1⟩
  exact Mounted.snapshot_reads_history default .strict exactConfig blankDevice (by decide) hrun
    hx.2.2 (by decide)

def flushUnderReader : List MountOp :=
  [.store .registerCurrent, .store (.commit ((Transaction.new 1 ⟨0⟩).stageWrite 7 [1])),
    .flush none]

/-- The reader at 0 gets the bytes of commit 1, where the device held others. -/
theorem flushUnderReader_reads_newer :
    ∃ x, (Mounted.new default .strict exactConfig blankDevice).run flushUnderReader = some x ∧
      x.active 0 ∧ x.logged.log.read 7 0 = none ∧ blankDevice.data 7 = [0] ∧
      mvccReadBlock x.logged.store x.base ⟨0⟩ 7 = .ok [1] := by
  have h : ((Mounted.new default .strict exactConfig blankDevice).run flushUnderReader).map
      (fun x => ((x.logged.store.activeSnapshots.get? 0).isSome, x.logged.log.read 7 0,
        (mvccReadBlock x.logged.store x.base ⟨0⟩ 7).toOption)) = some (true, none, some [1]) := by
    decide
  obtain ⟨x, hrun, hx⟩ := Option.map_eq_some_iff.mp h
  simp only [Prod.mk.injEq] at hx
  refine ⟨x, hrun, hx.1, hx.2.1, rfl, ?_⟩
  cases hr : mvccReadBlock x.logged.store x.base ⟨0⟩ 7 with
  | error e => rw [hr] at hx; simp [Except.toOption] at hx
  | ok bytes => rw [hr] at hx; simpa [Except.toOption] using hx.2.2

end Examples

end FrankenFs.Mvcc
