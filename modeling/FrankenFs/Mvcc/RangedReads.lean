import FrankenFs.Mvcc.History
import FrankenFs.Lib.Outcome
import FrankenFs.Lib.Wire
import Mathlib.Data.List.Basic

/-!
# Ranged reads through the version store

The ranged reads of `MvccBlockDevice` capture the versions of the whole range first, then walk the
range and hand each maximal gap to a ranged read of the base. The program keeps a log of the blocks it
asked the base for. The lock and the checkpoints of `Cx` are left out.
-/

open FrankenFs.Lib

namespace FrankenFs.Mvcc

/-! ## The devices -/

/-- What the adapter needs of its base. A ranged read fills the buffers it is given, and a slice
of bytes keeps its length. -/
structure BlockDevice (E : Type) where
  blockSize : Nat
  readBlock : Nat → Except E Bytes
  readContiguousBlocks : Nat → List Bytes → Except E (List Bytes)
  readContiguousInto : Nat → Bytes → Except E Bytes
  length_readContiguousInto : ∀ {start dst out},
    readContiguousInto start dst = .ok out → out.length = dst.length

/-- The ranged reads of the device are its block reads, one after the other. Which error a
range fails with is left open. -/
structure BlockDevice.Ranged {E : Type} (d : BlockDevice E) : Prop where
  blocks : ∀ {start : Nat} {bufs : List Bytes}, start + bufs.length ≤ u64Max →
    (d.readContiguousBlocks start bufs).toOption =
      (List.range' start bufs.length).mapM fun b => (d.readBlock b).toOption
  into : ∀ {start count : Nat} {dst : Bytes}, start + count ≤ u64Max →
    dst.length = count * d.blockSize →
    (d.readContiguousInto start dst).toOption =
      ((List.range' start count).mapM fun b => (d.readBlock b).toOption).map List.flatten

inductive SnapshotOwnership where
  | inline (snapshot : Snapshot)
  | handle (snapshot : Snapshot)
  | unregistered (snapshot : Snapshot)
deriving DecidableEq

/-- `copyFromSlice` is the panic of `copy_from_slice` on slices of different lengths. -/
inductive ReadError (E : Type) where
  | base (e : E)
  | format (message : String)
  | copyFromSlice
deriving DecidableEq

abbrev Reads (E : Type) := EStateM (ReadError E) (List Nat)

section Reads

variable {E α : Type}

def askBase (blocks : List Nat) (answer : Except E α) : Reads E α := fun log =>
  match answer with
  | .ok a => .ok a (log ++ blocks)
  | .error e => .error (.base e) (log ++ blocks)

def Reads.result (x : Reads E α) : Option α :=
  match x [] with
  | .ok a _ => some a
  | .error _ _ => none

def Reads.asked (x : Reads E α) : List Nat :=
  match x [] with
  | .ok _ log => log
  | .error _ log => log

end Reads

/-! ## The walk over a range -/

/-- `while idx < n && visible[idx].is_none()`. -/
def gapEnd (visible : List (Option Bytes)) (idx : Nat) : Nat :=
  if h : visible[idx]? = some none then gapEnd visible (idx + 1) else idx
termination_by visible.length - idx
decreasing_by
  have := (List.getElem?_eq_some_iff.mp h).1
  omega

theorem gapEnd_spec (visible : List (Option Bytes)) (idx : Nat) :
    idx ≤ gapEnd visible idx ∧
      ∀ i, idx ≤ i → i < gapEnd visible idx → visible[i]? = some none := by
  fun_induction gapEnd visible idx with
  | case1 idx h ih =>
    refine ⟨by omega, fun i hi hlt => ?_⟩
    rcases Nat.eq_or_lt_of_le hi with rfl | hi
    · exact h
    · exact ih.2 i hi hlt
  | case2 idx h => exact ⟨le_rfl, fun i hi hlt => absurd hlt (by omega)⟩

theorem lt_gapEnd {visible : List (Option Bytes)} {idx : Nat} (h : visible[idx]? = some none) :
    idx < gapEnd visible idx := by
  rw [gapEnd, dif_pos h]
  exact (gapEnd_spec visible (idx + 1)).1

section Walk

variable {E β : Type} (putVisible : Nat → Bytes → β → Reads E β)
  (readGap : Nat → Nat → β → Reads E β)

/-- The loop of both ranged reads. A captured version is taken out of the list as it is used. -/
def fillFrom (visible : List (Option Bytes)) (idx : Nat) (out : β) : Reads E β :=
  match h : visible[idx]? with
  | none => pure out
  | some (some buf) => do
    let out ← putVisible idx buf out
    fillFrom (visible.set idx none) (idx + 1) out
  | some none => do
    let out ← readGap idx (gapEnd visible idx) out
    fillFrom visible (gapEnd visible idx) out
termination_by visible.length - idx
decreasing_by
  · have := (List.getElem?_eq_some_iff.mp h).1
    rw [List.length_set]
    omega
  · have := (List.getElem?_eq_some_iff.mp h).1
    have := lt_gapEnd h
    omega

end Walk

/-! ## The adapter -/

structure MvccBlockDevice [Platform] (E : Type) where
  base : BlockDevice E
  store : MvccStore
  ownership : SnapshotOwnership
  readYourWrites : Bool

namespace MvccBlockDevice

variable [Platform] {E : Type} (dev : MvccBlockDevice E)

def snapshot : Snapshot :=
  match dev.ownership with
  | .inline snapshot => snapshot
  | .handle snapshot => snapshot
  | .unregistered snapshot => snapshot

def readSnapshot : Snapshot :=
  if dev.readYourWrites then dev.store.currentSnapshot else dev.snapshot

def readsBaseDirectly : Bool :=
  match dev.ownership with
  | .unregistered _ => !dev.readYourWrites
  | _ => false

def visibleAt (block : Nat) : Option Bytes := dev.store.readVisible block dev.readSnapshot

def readBlock (block : Nat) : Reads E Bytes :=
  if dev.readsBaseDirectly then askBase [block] (dev.base.readBlock block)
  else
    match dev.visibleAt block with
    | some buf => pure buf
    | none => askBase [block] (dev.base.readBlock block)

def capture (start count : Nat) : List (Option Bytes) :=
  (List.range' start count).map dev.visibleAt

def putBlock (idx : Nat) (buf : Bytes) (bufs : List Bytes) : Reads E (List Bytes) :=
  pure (bufs.set idx buf)

def readGapBlocks (start runStart stop : Nat) (bufs : List Bytes) : Reads E (List Bytes) := do
  let run := (bufs.drop runStart).take (stop - runStart)
  let blocks ← askBase (List.range' (start + runStart) (stop - runStart))
    (dev.base.readContiguousBlocks (start + runStart) run)
  return bufs.take runStart ++ blocks ++ bufs.drop stop

def readContiguousBlocks (start : Nat) (bufs : List Bytes) : Reads E (List Bytes) :=
  let ranged := askBase (List.range' start bufs.length) (dev.base.readContiguousBlocks start bufs)
  if bufs = [] then pure bufs
  else if u64Max < start + bufs.length then throw (.format "block range overflow")
  else if dev.readsBaseDirectly then ranged
  else if (dev.capture start bufs.length).all Option.isNone then ranged
  else fillFrom putBlock (dev.readGapBlocks start) (dev.capture start bufs.length) 0 bufs

def copyVisible (idx : Nat) (buf dst : Bytes) : Reads E Bytes :=
  if buf.length = dev.base.blockSize then pure (overwrite (idx * dev.base.blockSize) buf dst)
  else throw .copyFromSlice

def readGapInto (start runStart stop : Nat) (dst : Bytes) : Reads E Bytes := do
  let bs := dev.base.blockSize
  let run := (dst.drop (runStart * bs)).take ((stop - runStart) * bs)
  let bytes ← askBase (List.range' (start + runStart) (stop - runStart))
    (dev.base.readContiguousInto (start + runStart) run)
  return overwrite (runStart * bs) bytes dst

def readContiguousInto (start : Nat) (dst : Bytes) : Reads E Bytes :=
  let bs := dev.base.blockSize
  let count := dst.length / bs
  let ranged := askBase (List.range' start count) (dev.base.readContiguousInto start dst)
  if bs = 0 ∨ ¬ bs ∣ dst.length then
    throw (.format "read_contiguous_into: dst length must be a multiple of block size")
  else if dst = [] then pure dst
  else if u64Max < start + count then throw (.format "block range overflow")
  else if dev.readsBaseDirectly then ranged
  else if (dev.capture start count).all Option.isNone then ranged
  else fillFrom dev.copyVisible (dev.readGapInto start) (dev.capture start count) 0 dst

end MvccBlockDevice

/-! ## A read against a list of answers -/

section Meets

variable {E α β γ δ : Type} {R : α → β → Prop} {P : Nat → Prop} {spec : Option α} {x : Reads E β}

/-- The read returns what `spec` has, up to `R`, and fails where it has nothing. Each block it
asks the base for is one of `P`. -/
def Meets (R : α → β → Prop) (P : Nat → Prop) (spec : Option α) (x : Reads E β) : Prop :=
  ∀ log, ∃ asked, (∀ b ∈ asked, P b) ∧
    ((∃ a b, spec = some a ∧ x log = .ok b (log ++ asked) ∧ R a b) ∨
      (spec = none ∧ ∃ e, x log = .error e (log ++ asked)))

theorem meets_pure {a : α} {b : β} (h : R a b) : Meets R P (some a) (pure b : Reads E β) :=
  fun log => ⟨[], by simp, .inl ⟨a, b, rfl, by rw [List.append_nil]; rfl, h⟩⟩

theorem meets_throw {e : ReadError E} : Meets R P none (throw e : Reads E β) :=
  fun log => ⟨[], by simp, .inr ⟨rfl, e, by rw [List.append_nil]; rfl⟩⟩

theorem meets_askBase {blocks : List Nat} {answer : Except E β} {g : α → β}
    (hspec : answer.toOption = spec.map g) (h : ∀ b ∈ blocks, P b) :
    Meets (fun a b => b = g a ∧ answer = .ok b) P spec (askBase blocks answer) := by
  intro log
  refine ⟨blocks, h, ?_⟩
  cases answer with
  | ok b =>
    obtain ⟨a, ha, hb⟩ := Option.map_eq_some_iff.mp hspec.symm
    exact .inl ⟨a, b, ha, rfl, hb.symm, rfl⟩
  | error e => exact .inr ⟨Option.map_eq_none_iff.mp hspec.symm, _, rfl⟩

theorem meets_askBase_self {blocks : List Nat} {answer : Except E α}
    (hspec : answer.toOption = spec) (h : ∀ b ∈ blocks, P b) :
    Meets (fun a b => a = b) P spec (askBase blocks answer) := by
  intro log
  refine ⟨blocks, h, ?_⟩
  subst hspec
  cases answer with
  | ok a => exact .inl ⟨a, a, rfl, rfl, rfl⟩
  | error e => exact .inr ⟨rfl, _, rfl⟩

theorem Meets.bind {S : γ → δ → Prop} {next : α → Option γ} {f : β → Reads E δ}
    (hx : Meets R P spec x) (hf : ∀ a b, spec = some a → R a b → Meets S P (next a) (f b)) :
    Meets S P (spec.bind next) (x >>= f) := by
  intro log
  obtain ⟨asked, hasked, ⟨a, b, hspec, hrun, hab⟩ | ⟨hspec, e, hrun⟩⟩ := hx log
  · obtain ⟨more, hmore, hout⟩ := hf a b hspec hab (log ++ asked)
    refine ⟨asked ++ more, ?_, ?_⟩
    · simpa [or_imp, forall_and] using ⟨hasked, hmore⟩
    · rw [bind_run hrun, hspec, Option.bind_some, ← List.append_assoc]
      exact hout
  · refine ⟨asked, hasked, .inr ⟨?_, e, bind_run_error hrun⟩⟩
    rw [hspec, Option.bind_none]

theorem Meets.bind_pure {S : α → δ → Prop} {put : β → δ} (hx : Meets R P spec x)
    (hput : ∀ a b, spec = some a → R a b → S a (put b)) :
    Meets S P spec (do return put (← x)) := by
  rw [← Option.bind_fun_some spec]
  exact hx.bind fun a b hspec hab => meets_pure (hput a b hspec hab)

theorem Meets.map {S : γ → β → Prop} {g : α → γ} (hx : Meets R P spec x)
    (hg : ∀ a b, spec = some a → R a b → S (g a) b) : Meets S P (spec.map g) x := by
  intro log
  obtain ⟨asked, hasked, ⟨a, b, hspec, hrun, hab⟩ | ⟨hspec, e, hrun⟩⟩ := hx log
  · exact ⟨asked, hasked, .inl ⟨g a, b, by rw [hspec, Option.map_some], hrun, hg a b hspec hab⟩⟩
  · exact ⟨asked, hasked, .inr ⟨by rw [hspec, Option.map_none], e, hrun⟩⟩

theorem Meets.imp {S : α → β → Prop} (hx : Meets R P spec x)
    (h : ∀ a b, spec = some a → R a b → S a b) : Meets S P spec x := by
  have hmap := hx.map (S := S) (g := id) h
  rwa [Option.map_id] at hmap

theorem Meets.asked (hx : Meets R P spec x) {b : Nat} (hb : b ∈ x.asked) : P b := by
  unfold Reads.asked at hb
  obtain ⟨asked, hasked, ⟨a, c, -, hrun, -⟩ | ⟨-, e, hrun⟩⟩ := hx []
  all_goals
    rw [hrun] at hb
    exact hasked b hb

theorem Meets.result {x : Reads E α} (hx : Meets (fun a b => a = b) P spec x) :
    x.result = spec := by
  unfold Reads.result
  obtain ⟨asked, -, ⟨a, b, rfl, hrun, rfl⟩ | ⟨rfl, e, hrun⟩⟩ := hx []
  all_goals rw [hrun]

end Meets

/-! ## The walk returns one block after the other -/

section Walk

variable {E β : Type} {putVisible : Nat → Bytes → β → Reads E β}
  {readGap : Nat → Nat → β → Reads E β} {vis : Nat → Option Bytes} {start count : Nat}

def Captured (vis : Nat → Option Bytes) (start count idx : Nat) (visible : List (Option Bytes)) :
    Prop :=
  ∀ i, idx ≤ i → visible[i]? = if i < count then some (vis (start + i)) else none

theorem captured_map (vis : Nat → Option Bytes) (start count : Nat) :
    Captured vis start count 0 ((List.range' start count).map vis) := by
  intro i _
  rw [List.getElem?_map]
  split_ifs with h
  · rw [List.getElem?_range' h, Nat.one_mul, Option.map_some]
  · rw [List.getElem?_eq_none (by rw [List.length_range']; omega), Option.map_none]

/-- What a ranged read has for a block: the version, where `accept` takes it, or the answer of
the base. -/
def answerOf (vis : Nat → Option Bytes) (accept : Bytes → Option Bytes) (base : Nat → Option Bytes)
    (block : Nat) : Option Bytes :=
  match vis block with
  | some buf => accept buf
  | none => base block

theorem mapM_answerOf_of_unseen {accept : Bytes → Option Bytes} {base : Nat → Option Bytes}
    {blocks : List Nat} (h : ∀ b ∈ blocks, vis b = none) :
    blocks.mapM (answerOf vis accept base) = blocks.mapM base :=
  mapM_congr_mem fun b hb => by rw [answerOf, h b hb]

/-! `Filled done out` says that the blocks before `done.length` are in place. -/

variable {P : Nat → Prop} {Filled : List Bytes → β → Prop}
  {accept : Bytes → Option Bytes} {base : Nat → Option Bytes}
  (hput : ∀ {done buf out}, Filled done out → done.length < count →
    Meets (fun b out' => Filled (done ++ [b]) out') P (accept buf)
      (putVisible done.length buf out))
  (hgap : ∀ {done stop out}, Filled done out → done.length ≤ stop → stop ≤ count →
    (∀ b ∈ List.range' (start + done.length) (stop - done.length), vis b = none) →
    Meets (fun blocks out' => Filled (done ++ blocks) out') P
      ((List.range' (start + done.length) (stop - done.length)).mapM base)
      (readGap done.length stop out))

include hput hgap

theorem fillFrom_meets {visible : List (Option Bytes)} {done : List Bytes} {out : β}
    (hvisible : Captured vis start count done.length visible) (hout : Filled done out) :
    Meets (fun more out' => Filled (done ++ more) out') P
      ((List.range' (start + done.length) (count - done.length)).mapM (answerOf vis accept base))
      (fillFrom putVisible readGap visible done.length out) := by
  -- the induction is on the number of blocks that are left
  induction hk : count - done.length using Nat.strongRecOn generalizing visible done out with
  | ind k ih =>
    have hhere := hvisible done.length le_rfl
    rw [fillFrom]
    split
    · rename_i hnone
      rw [hnone] at hhere
      have hk0 : k = 0 := by
        by_contra hne
        rw [if_pos (by omega)] at hhere
        cases hhere
      subst hk0
      rw [List.range'_zero, List.mapM_nil]
      exact meets_pure (by rwa [List.append_nil])
    · rename_i buf hsome
      rw [hsome] at hhere
      split_ifs at hhere with hlt
      obtain ⟨k, rfl⟩ : ∃ k', k = k' + 1 := ⟨k - 1, by omega⟩
      have hanswer : answerOf vis accept base (start + done.length) = accept buf := by
        rw [answerOf, ← Option.some.inj hhere]
      rw [List.range'_succ, List.mapM_cons, hanswer]
      refine (hput hout hlt).bind fun b out' _ hout' => ?_
      have hrest : Captured vis start count (done ++ [b]).length (visible.set done.length none) := by
        intro i hi
        rw [List.length_append, List.length_singleton] at hi
        rw [List.getElem?_set_ne (by omega)]
        exact hvisible i (by omega)
      have hmeets := ih k (Nat.lt_succ_self k) hrest hout'
        (by rw [List.length_append, List.length_singleton]; omega)
      rw [List.length_append, List.length_singleton, ← Nat.add_assoc] at hmeets
      rw [bind_pure_comp, Option.map_eq_map]
      refine hmeets.map fun more out'' _ h => ?_
      rwa [List.append_assoc] at h
    · rename_i hgapHere
      have hlt := lt_gapEnd hgapHere
      obtain ⟨-, hrun⟩ := gapEnd_spec visible done.length
      generalize gapEnd visible done.length = stop at hlt hrun
      have hstop : stop ≤ count := by
        have := hvisible (stop - 1) (by omega)
        rw [hrun (stop - 1) (by omega) (by omega)] at this
        split_ifs at this
        omega
      have hunseen : ∀ b ∈ List.range' (start + done.length) (stop - done.length),
          vis b = none := by
        intro b hb
        rw [List.mem_range'_1] at hb
        have h := hvisible (b - start) (by omega)
        rw [hrun (b - start) (by omega) (by omega), if_pos (by omega),
          show start + (b - start) = b by omega] at h
        exact (Option.some.inj h).symm
      have hsplit : List.range' (start + done.length) k =
          List.range' (start + done.length) (stop - done.length) ++
            List.range' (start + stop) (count - stop) := by
        rw [show start + stop = start + done.length + 1 * (stop - done.length) by omega,
          List.range'_append]
        congr 1
        omega
      rw [hsplit, List.mapM_append, mapM_answerOf_of_unseen hunseen]
      refine (hgap hout (by omega) hstop hunseen).bind fun blocks out' hblocks hout' => ?_
      have hlen : (done ++ blocks).length = stop := by
        rw [List.length_append, length_of_mapM hblocks, List.length_range']
        omega
      have hrest : Captured vis start count (done ++ blocks).length visible :=
        fun i hi => hvisible i (by omega)
      have hmeets := ih (count - stop) (by omega) hrest hout' (by rw [hlen])
      rw [hlen] at hmeets
      rw [bind_pure_comp, Option.map_eq_map]
      refine hmeets.map fun more out'' _ h => ?_
      rwa [List.append_assoc] at h

theorem fillFrom_range {out : β} (hout : Filled [] out) :
    Meets Filled P ((List.range' start count).mapM (answerOf vis accept base))
      (fillFrom putVisible readGap ((List.range' start count).map vis) 0 out) :=
  have hvisible : Captured vis start count ([] : List Bytes).length _ :=
    captured_map vis start count
  fillFrom_meets hput hgap hvisible hout

end Walk

namespace MvccBlockDevice

/-! ## Reads without the version store -/

theorem askBase_result {E α : Type} {blocks : List Nat} {answer : Except E α} :
    (askBase blocks answer).result = answer.toOption := by
  unfold askBase Reads.result
  cases answer with
  | ok a => rfl
  | error e => rfl

section Base

variable [Platform] {E : Type} {dev : MvccBlockDevice E} {start : Nat}

theorem readBlock_direct (h : dev.readsBaseDirectly = true) (block : Nat) :
    (dev.readBlock block).result = (dev.base.readBlock block).toOption := by
  rw [readBlock, if_pos h, askBase_result]

theorem readBlock_overlay (h : dev.readsBaseDirectly = false) (block : Nat) :
    (dev.readBlock block).result =
      answerOf dev.visibleAt some (fun b => (dev.base.readBlock b).toOption) block := by
  rw [readBlock, h, if_neg Bool.false_ne_true, answerOf]
  cases dev.visibleAt block with
  | some buf => rfl
  | none => exact askBase_result

theorem visibleAt_of_capture {count : Nat} (h : (dev.capture start count).all Option.isNone = true) :
    ∀ b ∈ List.range' start count, dev.visibleAt b = none := by
  intro b hb
  rw [capture, List.all_map, List.all_eq_true] at h
  exact Option.isNone_iff_eq_none.mp (h b hb)

end Base

/-! ## Blocks -/

def BlocksFilled (count : Nat) (done bufs : List Bytes) : Prop :=
  bufs.length = count ∧ ∃ rest, bufs = done ++ rest

theorem putBlock_meets {E : Type} {count : Nat} {P : Nat → Prop} {done bufs : List Bytes}
    {buf : Bytes} (h : BlocksFilled count done bufs) (hlt : done.length < count) :
    Meets (fun b out => BlocksFilled count (done ++ [b]) out) P (some buf)
      (putBlock done.length buf bufs : Reads E (List Bytes)) := by
  obtain ⟨hlen, rest, rfl⟩ := h
  refine meets_pure ⟨by rw [List.length_set, hlen], rest.tail, ?_⟩
  cases rest with
  | nil =>
    rw [List.append_nil] at hlen
    omega
  | cons x rest =>
    rw [List.set_append_right _ _ le_rfl, Nat.sub_self, List.set_cons_zero, List.append_assoc]
    rfl

def BytesFilled (bs count : Nat) (done : List Bytes) (dst : Bytes) : Prop :=
  dst.length = count * bs ∧ done.flatten.length = done.length * bs ∧
    ∃ rest, dst = done.flatten ++ rest

theorem BytesFilled.overwrite {bs count : Nat} {done blocks : List Bytes} {dst : Bytes}
    (h : BytesFilled bs count done dst) (hlen : blocks.flatten.length = blocks.length * bs)
    (hle : done.length + blocks.length ≤ count) :
    BytesFilled bs count (done ++ blocks)
      (overwrite (done.length * bs) blocks.flatten dst) := by
  obtain ⟨hdst, hdone, rest, rfl⟩ := h
  have hfit : (done.length + blocks.length) * bs ≤ count * bs := Nat.mul_le_mul_right bs hle
  rw [Nat.add_mul] at hfit
  refine ⟨?_, ?_, rest.drop blocks.flatten.length, ?_⟩
  · rw [length_overwrite (by omega), hdst]
  · rw [List.flatten_append, List.length_append, List.length_append, hdone, hlen, Nat.add_mul]
  · rw [FrankenFs.Lib.overwrite, ← hdone, List.take_left, List.drop_append, List.flatten_append,
      List.drop_of_length_le (Nat.le_add_right _ _), List.nil_append, Nat.add_sub_cancel_left]

theorem blocks_of_length {bs count len : Nat} (hbs : 0 < bs) (hlen : len = count * bs) :
    len / bs = count ∧ ¬ (bs = 0 ∨ ¬ bs ∣ len) := by
  subst hlen
  rw [not_or, not_not]
  exact ⟨Nat.mul_div_cancel count hbs, Nat.pos_iff_ne_zero.mp hbs, Nat.dvd_mul_left bs count⟩

section Overlay

variable [Platform] {E : Type} {dev : MvccBlockDevice E} {start count : Nat}

theorem readGapBlocks_meets (hbase : dev.base.Ranged) (hrange : start + count ≤ u64Max)
    {done bufs : List Bytes} {stop : Nat} (h : BlocksFilled count done bufs)
    (hle : done.length ≤ stop) (hstop : stop ≤ count)
    (hgap : ∀ b ∈ List.range' (start + done.length) (stop - done.length),
      dev.visibleAt b = none) :
    Meets (fun blocks out => BlocksFilled count (done ++ blocks) out)
      (fun b => dev.visibleAt b = none)
      ((List.range' (start + done.length) (stop - done.length)).mapM
        fun b => (dev.base.readBlock b).toOption)
      (dev.readGapBlocks start done.length stop bufs) := by
  obtain ⟨hlen, rest, rfl⟩ := h
  rw [List.length_append] at hlen
  have hrun : (((done ++ rest).drop done.length).take (stop - done.length)).length =
      stop - done.length := by
    rw [List.drop_left, List.length_take]
    omega
  have hread := hbase.blocks (show start + done.length +
    (((done ++ rest).drop done.length).take (stop - done.length)).length ≤ u64Max by omega)
  rw [hrun] at hread
  refine (meets_askBase_self hread hgap).bind_pure fun blocks out hblocks h => ?_
  subst h
  have hcount := length_of_mapM hblocks
  rw [List.length_range'] at hcount
  rw [List.take_left, List.drop_append, List.drop_of_length_le hle, List.nil_append]
  refine ⟨?_, rest.drop (stop - done.length), rfl⟩
  rw [List.length_append, List.length_append, List.length_drop, hcount]
  omega

theorem readContiguousBlocks_meets (hbase : dev.base.Ranged)
    (hoverlay : dev.readsBaseDirectly = false) {bufs : List Bytes}
    (hrange : start + bufs.length ≤ u64Max) :
    Meets (fun blocks out => blocks = out) (fun b => dev.visibleAt b = none)
      ((List.range' start bufs.length).mapM
        (answerOf dev.visibleAt some fun b => (dev.base.readBlock b).toOption))
      (dev.readContiguousBlocks start bufs) := by
  simp only [readContiguousBlocks, hoverlay, if_neg (Nat.not_lt.mpr hrange), Bool.false_eq_true,
    if_false]
  split_ifs with hnil hnone
  · subst hnil
    exact meets_pure rfl
  · have hunseen := visibleAt_of_capture hnone
    rw [mapM_answerOf_of_unseen hunseen]
    exact meets_askBase_self (hbase.blocks hrange) hunseen
  · refine (fillFrom_range putBlock_meets (readGapBlocks_meets hbase hrange)
      ⟨rfl, bufs, rfl⟩).imp fun blocks out hblocks hfilled => ?_
    obtain ⟨hlen, rest, rfl⟩ := hfilled
    have hcount := length_of_mapM hblocks
    rw [List.length_range'] at hcount
    rw [List.length_append] at hlen
    rw [List.length_eq_zero_iff.mp (show rest.length = 0 by omega), List.append_nil]

/-! ## Bytes -/

/-- A version of another length than a block's makes the copy panic. -/
def wholeBlock (bs : Nat) (buf : Bytes) : Option Bytes := if buf.length = bs then some buf else none

theorem copyVisible_meets {P : Nat → Prop} {done : List Bytes} {buf dst : Bytes}
    (h : BytesFilled dev.base.blockSize count done dst) (hlt : done.length < count) :
    Meets (fun b out => BytesFilled dev.base.blockSize count (done ++ [b]) out) P
      (wholeBlock dev.base.blockSize buf) (dev.copyVisible done.length buf dst) := by
  unfold wholeBlock copyVisible
  split_ifs with hsize
  · refine meets_pure ?_
    have hone : [buf].flatten.length = [buf].length * dev.base.blockSize := by
      rw [List.flatten_singleton, List.length_singleton, hsize, Nat.one_mul]
    have hnext := h.overwrite hone hlt
    rwa [List.flatten_singleton] at hnext
  · exact meets_throw

theorem readGapInto_meets (hbase : dev.base.Ranged) (hrange : start + count ≤ u64Max)
    {done : List Bytes} {dst : Bytes} {stop : Nat}
    (h : BytesFilled dev.base.blockSize count done dst)
    (hle : done.length ≤ stop) (hstop : stop ≤ count)
    (hgap : ∀ b ∈ List.range' (start + done.length) (stop - done.length),
      dev.visibleAt b = none) :
    Meets (fun blocks out => BytesFilled dev.base.blockSize count (done ++ blocks) out)
      (fun b => dev.visibleAt b = none)
      ((List.range' (start + done.length) (stop - done.length)).mapM
        fun b => (dev.base.readBlock b).toOption)
      (dev.readGapInto start done.length stop dst) := by
  have hfit : done.length * dev.base.blockSize + (stop - done.length) * dev.base.blockSize ≤
      count * dev.base.blockSize := by
    rw [← Nat.add_mul]
    exact Nat.mul_le_mul_right _ (by omega)
  have hrun : ((dst.drop (done.length * dev.base.blockSize)).take
      ((stop - done.length) * dev.base.blockSize)).length =
      (stop - done.length) * dev.base.blockSize := by
    rw [List.length_take, List.length_drop, h.1]
    omega
  have hread := hbase.into (show start + done.length + (stop - done.length) ≤ u64Max by omega) hrun
  refine (meets_askBase hread hgap).bind_pure fun blocks out hblocks hout => ?_
  obtain ⟨rfl, hanswer⟩ := hout
  have hlen := dev.base.length_readContiguousInto hanswer
  have hcount := length_of_mapM hblocks
  rw [List.length_range'] at hcount
  refine h.overwrite ?_ (by omega)
  rw [hlen, hrun, hcount]

theorem readContiguousInto_meets (hbase : dev.base.Ranged) (hbs : 0 < dev.base.blockSize)
    (hoverlay : dev.readsBaseDirectly = false) (hrange : start + count ≤ u64Max) {dst : Bytes}
    (hdst : dst.length = count * dev.base.blockSize) :
    Meets (fun blocks out => blocks.flatten = out) (fun b => dev.visibleAt b = none)
      ((List.range' start count).mapM
        (answerOf dev.visibleAt (wholeBlock dev.base.blockSize)
          fun b => (dev.base.readBlock b).toOption))
      (dev.readContiguousInto start dst) := by
  have hcount := blocks_of_length hbs hdst
  simp only [readContiguousInto, hcount.1, hoverlay, if_neg hcount.2, if_neg (Nat.not_lt.mpr hrange),
    Bool.false_eq_true, if_false]
  split_ifs with hnil hnone
  · subst hnil
    have hzero : count = 0 := (Nat.mul_eq_zero.mp hdst.symm).resolve_right (by omega)
    subst hzero
    exact meets_pure rfl
  · have hunseen := visibleAt_of_capture hnone
    rw [mapM_answerOf_of_unseen hunseen]
    exact (meets_askBase (hbase.into hrange hdst) hunseen).imp fun blocks out _ h => h.1.symm
  · refine (fillFrom_range copyVisible_meets (readGapInto_meets hbase hrange)
      ⟨hdst, by simp, dst, rfl⟩).imp fun blocks out hblocks hfilled => ?_
    obtain ⟨hlen, hdone, rest, rfl⟩ := hfilled
    have hblocksCount := length_of_mapM hblocks
    rw [List.length_range'] at hblocksCount
    rw [List.length_append, hdone, hblocksCount] at hlen
    rw [List.length_eq_zero_iff.mp (show rest.length = 0 by omega), List.append_nil]

end Overlay

/-! ## Ranged reads and block reads -/

section Agreement

variable [Platform] {E : Type} {dev : MvccBlockDevice E} {start : Nat}

theorem readContiguousBlocks_direct (hbase : dev.base.Ranged) (h : dev.readsBaseDirectly = true)
    {bufs : List Bytes} (hrange : start + bufs.length ≤ u64Max) :
    (dev.readContiguousBlocks start bufs).result =
      (List.range' start bufs.length).mapM fun b => (dev.readBlock b).result := by
  simp only [readBlock_direct h, readContiguousBlocks, if_neg (Nat.not_lt.mpr hrange), h, if_true]
  split_ifs with hnil
  · subst hnil
    rfl
  · rw [askBase_result, hbase.blocks hrange]

theorem readContiguousInto_direct (hbase : dev.base.Ranged) (h : dev.readsBaseDirectly = true)
    {count : Nat} {dst : Bytes} (hrange : start + count ≤ u64Max) (hbs : 0 < dev.base.blockSize)
    (hdst : dst.length = count * dev.base.blockSize) :
    (dev.readContiguousInto start dst).result =
      ((List.range' start count).mapM fun b => (dev.readBlock b).result).map List.flatten := by
  have hcount := blocks_of_length hbs hdst
  simp only [readBlock_direct h, readContiguousInto, hcount.1, if_neg hcount.2,
    if_neg (Nat.not_lt.mpr hrange), h, if_true]
  split_ifs with hnil
  · subst hnil
    have hzero : count = 0 := (Nat.mul_eq_zero.mp hdst.symm).resolve_right (by omega)
    subst hzero
    rfl
  · rw [askBase_result, hbase.into hrange hdst]

theorem mapM_answerOf_wholeBlock (hoverlay : dev.readsBaseDirectly = false) {count : Nat}
    (hsize : ∀ b ∈ List.range' start count,
      ∀ buf ∈ dev.visibleAt b, buf.length = dev.base.blockSize) :
    (List.range' start count).mapM (answerOf dev.visibleAt (wholeBlock dev.base.blockSize)
        fun b => (dev.base.readBlock b).toOption) =
      (List.range' start count).mapM fun b => (dev.readBlock b).result := by
  refine mapM_congr_mem fun b hb => ?_
  rw [readBlock_overlay hoverlay, answerOf, answerOf]
  cases hv : dev.visibleAt b with
  | none => rfl
  | some buf => exact if_pos (hsize b hb buf hv)

/-- **A ranged read returns what `read_block` returns for each of its blocks, and asks the base
for blocks without a visible version only.** For `read_contiguous_into` the visible versions must
have the length of a block. A device that reads its base directly asks it for every block. -/
theorem ranged_reads_agree (dev : MvccBlockDevice E) (hbase : dev.base.Ranged) (start : Nat) :
    (∀ bufs : List Bytes, start + bufs.length ≤ u64Max →
      (dev.readContiguousBlocks start bufs).result =
          (List.range' start bufs.length).mapM (fun b => (dev.readBlock b).result) ∧
        (dev.readsBaseDirectly = false →
          ∀ b ∈ (dev.readContiguousBlocks start bufs).asked, dev.visibleAt b = none)) ∧
    (∀ (count : Nat) (dst : Bytes), start + count ≤ u64Max → 0 < dev.base.blockSize →
      dst.length = count * dev.base.blockSize →
      ((dev.readsBaseDirectly = false → ∀ b ∈ List.range' start count,
          ∀ buf ∈ dev.visibleAt b, buf.length = dev.base.blockSize) →
        (dev.readContiguousInto start dst).result =
          ((List.range' start count).mapM fun b => (dev.readBlock b).result).map List.flatten) ∧
        (dev.readsBaseDirectly = false →
          ∀ b ∈ (dev.readContiguousInto start dst).asked, dev.visibleAt b = none)) := by
  refine ⟨fun bufs hrange => ⟨?_, fun hoverlay b hb => ?_⟩,
    fun count dst hrange hbs hdst => ⟨fun hsize => ?_, fun hoverlay b hb => ?_⟩⟩
  · cases h : dev.readsBaseDirectly with
    | true => exact readContiguousBlocks_direct hbase h hrange
    | false =>
      simp only [readBlock_overlay h]
      exact (readContiguousBlocks_meets hbase h hrange).result
  · exact (readContiguousBlocks_meets hbase hoverlay hrange).asked hb
  · cases h : dev.readsBaseDirectly with
    | true => exact readContiguousInto_direct hbase h hrange hbs hdst
    | false =>
      have hmeets := readContiguousInto_meets hbase hbs h hrange hdst
      rw [mapM_answerOf_wholeBlock h (hsize h)] at hmeets
      exact (hmeets.map fun blocks out _ hout => hout).result
  · exact (readContiguousInto_meets hbase hbs hoverlay hrange hdst).asked hb

end Agreement

/-! ## A version between two blocks of the base -/

section Sample

local instance rangedPlatform : Platform := exactPlatform

def numberedDevice : BlockDevice Unit where
  blockSize := 1
  readBlock block := .ok [BitVec.ofNat 8 block]
  readContiguousBlocks start bufs :=
    .ok ((List.range' start bufs.length).map fun block => [BitVec.ofNat 8 block])
  readContiguousInto start dst := .ok ((List.range' start dst.length).map (BitVec.ofNat 8))
  length_readContiguousInto := by
    intro start dst out h
    cases h
    rw [List.length_map, List.length_range']

theorem numberedDevice_blocks (blocks : List Nat) :
    (blocks.mapM fun b => (numberedDevice.readBlock b).toOption) =
      some (blocks.map fun b => [BitVec.ofNat 8 b]) :=
  List.mapM_pure

theorem numberedDevice_ranged : numberedDevice.Ranged where
  blocks := by
    intro start bufs _
    rw [numberedDevice_blocks]
    rfl
  into := by
    intro start count dst _ hdst
    rw [numberedDevice_blocks, Option.map_some, ← show dst.length = count from
      hdst.trans (Nat.mul_one count)]
    exact congrArg some List.map_eq_flatMap

def overlaidDevice (bytes : Bytes) (ownership : SnapshotOwnership) : MvccBlockDevice Unit where
  base := numberedDevice
  store := ((MvccStore.new ⟨false, none, .none⟩ .strict exactConfig).commit
    ((Transaction.new 1 ⟨0⟩).stageWrite 2 bytes)).1
  ownership := ownership
  readYourWrites := false

theorem ranged_reads_agree_sample :
    ((overlaidDevice [7] (.inline ⟨1⟩)).readContiguousBlocks 1 [[0], [0], [0]]).result =
        some [[1], [7], [3]] ∧
      ((overlaidDevice [7] (.inline ⟨1⟩)).readContiguousInto 1 [0, 0, 0]).result =
        some [1, 7, 3] ∧
      ∀ b ∈ ((overlaidDevice [7] (.inline ⟨1⟩)).readContiguousInto 1 [0, 0, 0]).asked,
        (overlaidDevice [7] (.inline ⟨1⟩)).visibleAt b = none := by
  obtain ⟨hblocks, hinto⟩ :=
    ranged_reads_agree (overlaidDevice [7] (.inline ⟨1⟩)) numberedDevice_ranged 1
  have hbytes := hinto 3 [0, 0, 0] (by decide) (by decide) (by decide)
  refine ⟨(hblocks [[0], [0], [0]] (by decide)).1.trans (by decide +kernel), ?_, hbytes.2 rfl⟩
  exact (hbytes.1 fun _ => by decide +kernel).trans (by decide +kernel)

/-- A version of two bytes in a device with blocks of one byte: the block is read, the copy
panics. And a device that reads its base directly asks it for a block that has a version. -/
theorem ranged_reads_differ :
    (((overlaidDevice [7, 8] (.inline ⟨1⟩)).readBlock 2).result = some [7, 8] ∧
      ((overlaidDevice [7, 8] (.inline ⟨1⟩)).readContiguousInto 2 [0]).result = none) ∧
    (2 ∈ ((overlaidDevice [7] (.unregistered ⟨1⟩)).readContiguousBlocks 2 [[0]]).asked ∧
      (overlaidDevice [7] (.unregistered ⟨1⟩)).visibleAt 2 = some [7]) := by
  refine ⟨⟨by decide +kernel, ?_⟩, by decide +kernel, by decide +kernel⟩
  have hbase : (overlaidDevice [7, 8] (.inline ⟨1⟩)).base.Ranged := numberedDevice_ranged
  have hmeets := readContiguousInto_meets hbase (by decide) rfl (show 2 + 1 ≤ u64Max by decide)
    (show [(0 : Byte)].length = 1 * 1 from rfl)
  refine (hmeets.map (g := List.flatten) fun blocks out _ hout => hout).result.trans ?_
  decide +kernel

end Sample

end MvccBlockDevice

end FrankenFs.Mvcc
