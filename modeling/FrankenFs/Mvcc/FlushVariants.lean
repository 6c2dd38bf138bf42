import FrankenFs.Mvcc.FlushWalk
import FrankenFs.Mvcc.Pruning
import FrankenFs.Mvcc.StoreRuns

/-!
# The flushes of the sharded store

`flush_to_device_after` clones the bytes of every changed block and then forms runs, or walks block
numbers in one of two ways. The run buffer is cleared before it is parked, so it starts empty here.
-/

open FrankenFs.Lib

namespace FrankenFs.Mvcc

/-! ## The three flushes -/

section Flushes

variable [Platform]

def changedIndex (versions : List BlockVersion) (high flushedThrough : Nat) : Option Nat := do
  let idx ← newestVisibleIndex versions high
  let v ← versions[idx]?
  if v.commitSeq ≤ flushedThrough then none else some idx

def changedBytes (high flushedThrough : Nat) (versions : List BlockVersion) : Option Bytes :=
  (changedIndex versions high flushedThrough).bind (resolveData versions)

/-- A version that is stored in full is handed over as it is. -/
def flushChunk (high flushedThrough : Nat) (versions : List BlockVersion) : Option Bytes := do
  let idx ← changedIndex versions high flushedThrough
  match versions[idx]?.map BlockVersion.data with
  | some (.full bytes) => some bytes
  | _ => resolveData versions idx

namespace ShardedMvccStore

def visit {α : Type} (x : ShardedMvccStore) (pick : List BlockVersion → Option α) :
    List (Nat × α) :=
  ((List.range x.shardCount).map x.shards).flatMap fun shard =>
    shard.versions.entries.filterMap fun e => (pick e.2).map (Prod.mk e.1)

/-- `pick` of the chain of a block, looked up in the shard of the block. -/
def resolveBlock {α : Type} (x : ShardedMvccStore) (pick : List BlockVersion → Option α)
    (block : Nat) : Option α :=
  ((x.shardOf block).versions.get? block).bind pick

def sortByBlock {α : Type} (items : List (Nat × α)) : List (Nat × α) :=
  items.insertionSort fun a b => a.1 ≤ b.1

/-- The cloning body of `flush_to_device_after`. -/
def flushToDeviceAfter (x : ShardedMvccStore) (d : BaseDevice) (flushedThrough : Nat)
    (fault : Option Nat) : BaseDevice × Except DeviceError (Nat × Nat) :=
  let high := x.currentSnapshot.high
  if high ≤ flushedThrough then (d, .ok (0, high))
  else
    let items := sortByBlock (x.visit (changedBytes high flushedThrough))
    d.writeRuns (flushRuns items none 0 []) items.length high fault

def flushToDeviceAfterBorrowed (x : ShardedMvccStore) (d : BaseDevice) (flushedThrough : Nat)
    (fault : Option Nat) : BaseDevice × Except DeviceError (Nat × Nat) :=
  let high := x.currentSnapshot.high
  if high ≤ flushedThrough then (d, .ok (0, high))
  else
    let keys := ((x.visit fun versions => changedIndex versions high flushedThrough).map
      Prod.fst).insertionSort (· ≤ ·)
    let w := keys.foldl (RunWalk.borrowedTurn (x.resolveBlock (changedBytes high flushedThrough)))
      ⟨none, 0, [], 0, []⟩
    d.writeRuns w.writeRun.written w.flushed high fault

def flushToDeviceAfterVectored (x : ShardedMvccStore) (d : BaseDevice) (flushedThrough : Nat)
    (fault : Option Nat) : BaseDevice × Except DeviceError (Nat × Nat) :=
  let high := x.currentSnapshot.high
  if high ≤ flushedThrough then (d, .ok (0, high))
  else
    let keys := (((List.range x.shardCount).map x.shards).flatMap fun shard =>
      shard.versions.keys).insertionSort (· ≤ ·)
    let w := keys.foldl (RunWalk.vectoredTurn (x.resolveBlock (flushChunk high flushedThrough)))
      ⟨none, 0, [], 0, []⟩
    d.writeRuns (w.writeRunVectored.written.map fun r => (r.1, BaseDevice.gather r.2)) w.flushed
      high fault

end ShardedMvccStore

end Flushes

/-! ## A visit of the shards -/

namespace ShardedMvccStore

/-- Every chain is in the shard of its block, and there is such a shard. -/
structure Placed (x : ShardedMvccStore) : Prop where
  home : ∀ i b, ((x.shards i).versions.get? b).isSome → x.shardIndex b = i
  inRange : ∀ b, x.shardIndex b < x.shardCount

variable {α : Type} {x : ShardedMvccStore} {pick : List BlockVersion → Option α}

theorem mem_picked {shard : MvccShard} {b : Nat} {a : α} :
    (b, a) ∈ (shard.versions.entries.filterMap fun e => (pick e.2).map (Prod.mk e.1)) ↔
      (shard.versions.get? b).bind pick = some a := by
  simp only [List.mem_filterMap, Option.map_eq_some_iff, Prod.mk.injEq, Option.bind_eq_some_iff]
  constructor
  · rintro ⟨⟨b', versions⟩, hmem, a', hp, rfl, rfl⟩
    exact ⟨versions, (OrdMap.mem_entries _).mp hmem, hp⟩
  · rintro ⟨versions, hv, hp⟩
    exact ⟨(b, versions), (OrdMap.mem_entries _).mpr hv, a, hp, rfl, rfl⟩

theorem Placed.mem_visit (h : x.Placed) {b : Nat} {a : α} :
    (b, a) ∈ x.visit pick ↔ x.resolveBlock pick b = some a := by
  simp only [visit, List.mem_flatMap, List.mem_map, List.mem_range, mem_picked]
  constructor
  · rintro ⟨_, ⟨i, -, rfl⟩, hb⟩
    obtain ⟨versions, hv, -⟩ := Option.bind_eq_some_iff.mp hb
    rwa [resolveBlock, shardOf, h.home i b (by rw [hv]; rfl)]
  · intro hb
    exact ⟨x.shardOf b, ⟨x.shardIndex b, h.inRange b, rfl⟩, hb⟩

theorem Placed.visit_nodup (h : x.Placed) (pick : List BlockVersion → Option α) :
    ((x.visit pick).map Prod.fst).Nodup := by
  unfold visit
  rw [List.flatMap_map, List.map_flatMap, List.nodup_flatMap]
  constructor
  · intro i _
    refine List.pairwise_map.mpr (List.Pairwise.filterMap _ ?_ (x.shards i).versions.sorted)
    intro e e' hlt p hp p' hp'
    obtain ⟨_, -, rfl⟩ := Option.map_eq_some_iff.mp hp
    obtain ⟨_, -, rfl⟩ := Option.map_eq_some_iff.mp hp'
    exact ne_of_lt hlt
  · -- One block in two shards would have two homes.
    refine List.nodup_range.imp fun {i j} hij => ?_
    intro b hi hj
    have hhome : ∀ k, b ∈ ((x.shards k).versions.entries.filterMap fun e =>
        (pick e.2).map (Prod.mk e.1)).map Prod.fst → x.shardIndex b = k := by
      intro k hk
      obtain ⟨⟨b', a⟩, hmem, rfl⟩ := List.mem_map.mp hk
      obtain ⟨versions, hv, -⟩ := Option.bind_eq_some_iff.mp (mem_picked.mp hmem)
      exact h.home k b' (by rw [hv]; rfl)
    exact hij ((hhome i hi).symm.trans (hhome j hj))

theorem sortByBlock_sorted {items : List (Nat × α)} (h : (items.map Prod.fst).Nodup) :
    (sortByBlock items).Pairwise fun a b => a.1 < b.1 := by
  let le (a b : Nat × α) : Prop := a.1 ≤ b.1
  have : Std.Total le := ⟨fun a b => Nat.le_total a.1 b.1⟩
  have : IsTrans (Nat × α) le := ⟨fun a b c => Nat.le_trans⟩
  have hle : (items.insertionSort le).Pairwise le := List.pairwise_insertionSort le items
  have hne : (items.insertionSort le).Pairwise fun a b => a.1 ≠ b.1 :=
    List.pairwise_map.mp (((List.perm_insertionSort le items).map Prod.fst).nodup_iff.mpr h)
  exact (hle.and hne).imp fun hab => lt_of_le_of_ne hab.1 hab.2

theorem mem_sortByBlock {items : List (Nat × α)} {e : Nat × α} :
    e ∈ sortByBlock items ↔ e ∈ items :=
  (List.perm_insertionSort _ items).mem_iff

theorem sort_keys {keys : List Nat} (h : keys.Nodup) :
    (keys.insertionSort (· ≤ ·)).Pairwise (· < ·) :=
  ((List.pairwise_insertionSort (· ≤ ·) keys).and
    ((List.perm_insertionSort (· ≤ ·) keys).nodup_iff.mpr h)).imp
      fun hab => lt_of_le_of_ne hab.1 hab.2

theorem home_setShard (h : ∀ i b, ((x.shards i).versions.get? b).isSome → x.shardIndex b = i)
    {idx : Nat} {shard : MvccShard}
    (hshard : ∀ b, (shard.versions.get? b).isSome → x.shardIndex b = idx) :
    ∀ i b, (((x.setShard idx shard).shards i).versions.get? b).isSome → x.shardIndex b = i := by
  intro i b hb
  simp only [setShard, Function.update_apply] at hb
  split_ifs at hb with hi
  · rw [hi]
    exact hshard b hb
  · exact h i b hb

theorem Reaches.placed [Platform] (h : Reaches x) : x.Placed := by
  refine ⟨?_, h.shardIndex_lt⟩
  induction h with
  | new => exact fun i b hb => absurd hb Bool.false_ne_true
  | @install s _ block _ _ _ _ _ _ hinstall ih =>
    obtain ⟨_, -, heq⟩ := Option.map_eq_some_iff.mp hinstall
    cases heq
    refine home_setShard ih fun b hb => ?_
    by_cases hbb : b = block
    · rw [hbb]
    · simp only [OrdMap.get?_insert, if_neg hbb] at hb
      exact ih _ b hb
  | prune _ idx watermark ih =>
    refine home_setShard ih fun b hb => ih idx b ?_
    simpa [MvccShard.pruneOlderThan, OrdMap.get?_map] using hb
  | evict _ idx bound ih =>
    refine home_setShard ih fun b hb => ih idx b ?_
    rw [MvccShard.evictDurable, OrdMap.get?_filter] at hb
    exact Option.isSome_of_isSome_filter _ _ hb
  | other _ hshards _ hmask ih =>
    unfold shardIndex
    rw [hshards, hmask]
    exact ih

end ShardedMvccStore

/-! ## Quiescent stores -/

section Quiescent

variable [Platform]

structure Settled (high size : Nat) (chain : List BlockVersion) : Prop where
  published : ∀ v ∈ chain, v.commitSeq ≤ high
  bytes : ∀ i < chain.length, ∃ bytes, resolveData chain i = some bytes ∧ bytes.length = size

def newestVersion (chain : List BlockVersion) : Option (Nat × Bytes) := do
  let v ← chain.getLast?
  let bytes ← resolveData chain (chain.length - 1)
  pure (v.commitSeq, bytes)

theorem Settled.nil (high size : Nat) : Settled high size [] :=
  ⟨by simp, by simp⟩

theorem Settled.changedBytes_eq {high size : Nat} {chain : List BlockVersion}
    (h : Settled high size chain) (cursor : Nat) {bytes : Bytes} :
    changedBytes high cursor chain = some bytes ↔
      ∃ c, newestVersion chain = some (c, bytes) ∧ cursor < c ∧ c ≤ high := by
  unfold changedBytes changedIndex newestVersion newestVisibleIndex newestVisibleIndexBy
  cases hl : chain.getLast? with
  | none => simp
  | some last =>
    have hle : last.commitSeq ≤ high := h.published last (List.mem_of_getLast? hl)
    have hidx : chain[chain.length - 1]? = some last := by rw [← List.getLast?_eq_getElem?, hl]
    have hlt := (List.getElem?_eq_some_iff.mp hidx).1
    obtain ⟨bytes', hres, -⟩ := h.bytes _ hlt
    simp only [if_pos hle, Option.bind_eq_bind, Option.bind_some, hidx, hres, Option.pure_def,
      Option.some.injEq, Prod.mk.injEq]
    constructor
    · intro hsome
      split_ifs at hsome with hc
      · simp at hsome
      · rw [Option.bind_some, hres] at hsome
        exact ⟨last.commitSeq, ⟨rfl, Option.some.inj hsome⟩, by omega, hle⟩
    · rintro ⟨c, ⟨rfl, rfl⟩, hc, -⟩
      rw [if_neg (by omega), Option.bind_some, hres]

theorem changedBytes_size {high size cursor : Nat} {chain : List BlockVersion}
    (h : Settled high size chain) {bytes : Bytes}
    (hb : changedBytes high cursor chain = some bytes) : bytes.length = size := by
  obtain ⟨idx, -, hres⟩ := Option.bind_eq_some_iff.mp hb
  by_cases hlt : idx < chain.length
  · obtain ⟨bytes', hres', hlen⟩ := h.bytes idx hlt
    rw [hres] at hres'
    cases hres'
    exact hlen
  · rw [resolveData_none (List.getElem?_eq_none (Nat.le_of_not_lt hlt))] at hres
    cases hres

theorem flushChunk_eq (high cursor : Nat) :
    flushChunk high cursor = changedBytes high cursor := by
  funext versions
  unfold flushChunk changedBytes
  cases changedIndex versions high cursor with
  | none => rfl
  | some idx =>
    simp only [Option.bind_eq_bind, Option.bind_some]
    split
    · rename_i bytes hfull
      obtain ⟨v, hv, hd⟩ := Option.map_eq_some_iff.mp hfull
      rw [resolveData_own hv (by rw [hd]; rfl), hd]
      rfl
    · rfl

namespace MvccStore

def newest (s : MvccStore) (b : Nat) : Option (Nat × Bytes) := newestVersion (s.chain b)

def Quiescent (s : MvccStore) (size : Nat) : Prop :=
  ∀ b, Settled s.currentSnapshot.high size (s.chain b)

theorem flushBlocks_eq (s : MvccStore) (cursor : Nat) {b : Nat} {bytes : Bytes} :
    (b, bytes) ∈ s.flushBlocks cursor ↔
      changedBytes s.currentSnapshot.high cursor (s.chain b) = some bytes := by
  have hpick : ∀ e : Nat × List BlockVersion, (do
      let idx ← newestVisibleIndex e.2 s.currentSnapshot.high
      let v ← e.2[idx]?
      if v.commitSeq ≤ cursor then none else (resolveData e.2 idx).map (Prod.mk e.1)) =
      (changedBytes s.currentSnapshot.high cursor e.2).map (Prod.mk e.1) := by
    intro e
    unfold changedBytes changedIndex
    cases newestVisibleIndex e.2 s.currentSnapshot.high with
    | none => rfl
    | some idx =>
      simp only [Option.bind_eq_bind, Option.bind_some]
      cases e.2[idx]? with
      | none => rfl
      | some v =>
        simp only [Option.bind_some]
        split_ifs <;> rfl
  unfold flushBlocks
  simp only [List.mem_filterMap, hpick, Option.map_eq_some_iff, Prod.mk.injEq]
  constructor
  · rintro ⟨⟨b', versions⟩, hmem, bytes', hb, rfl, rfl⟩
    rwa [MvccStore.chain, (OrdMap.mem_entries _).mp hmem]
  · intro hb
    cases hv : s.versions.get? b with
    | none =>
      rw [MvccStore.chain, hv] at hb
      cases hb
    | some versions =>
      rw [MvccStore.chain, hv] at hb
      exact ⟨(b, versions), (OrdMap.mem_entries _).mpr hv, bytes, hb, rfl, rfl⟩

theorem Quiescent.image {s : MvccStore} {size : Nat} (h : s.Quiescent size) (cursor : Nat) :
    Image s.newest cursor s.currentSnapshot.high (s.flushBlocks cursor) :=
  ⟨s.flushBlocks_sorted cursor, fun b _ =>
    (s.flushBlocks_eq cursor).trans ((h b).changedBytes_eq cursor)⟩

theorem Quiescent.sizes {s : MvccStore} {size : Nat} (h : s.Quiescent size) (cursor : Nat) :
    ∀ p ∈ s.flushBlocks cursor, p.2.length = size := by
  intro p hp
  exact changedBytes_size (h p.1) ((s.flushBlocks_eq cursor).mp hp)

theorem flushToDeviceAfter_eq (s : MvccStore) (d : BaseDevice) (cursor : Nat)
    (fault : Option Nat) : s.flushToDeviceAfter d cursor fault =
      d.flushImage (s.flushBlocks cursor) cursor s.currentSnapshot.high fault := rfl

end MvccStore

namespace ShardedMvccStore

/-- Every version is published, with a block of bytes, in the shard of its block. -/
structure Quiescent (x : ShardedMvccStore) (size : Nat) : Prop extends x.Placed where
  settled : ∀ b, Settled x.currentSnapshot.high size ((x.shardOf b).chain b)

section Outcomes

variable {x : ShardedMvccStore} {size : Nat}

def newest (x : ShardedMvccStore) (b : Nat) : Option (Nat × Bytes) :=
  newestVersion ((x.shardOf b).chain b)

theorem resolveBlock_changedBytes (x : ShardedMvccStore) (high cursor b : Nat) :
    x.resolveBlock (changedBytes high cursor) b =
      changedBytes high cursor ((x.shardOf b).chain b) := by
  unfold resolveBlock MvccShard.chain
  cases (x.shardOf b).versions.get? b <;> rfl

theorem Quiescent.image (h : x.Quiescent size) (cursor : Nat) {keys : List Nat}
    (hsorted : keys.Pairwise (· < ·))
    (hkeys : ∀ b bytes, x.resolveBlock (changedBytes x.currentSnapshot.high cursor) b = some bytes →
      b ∈ keys) :
    Image x.newest cursor x.currentSnapshot.high
      (resolved (x.resolveBlock (changedBytes x.currentSnapshot.high cursor)) keys) := by
  refine ⟨resolved_sorted _ hsorted, fun b bytes => ?_⟩
  rw [mem_resolved, and_iff_right_of_imp (hkeys b bytes), resolveBlock_changedBytes]
  exact (h.settled b).changedBytes_eq cursor

theorem Quiescent.imageItems (h : x.Quiescent size) (cursor : Nat) :
    Image x.newest cursor x.currentSnapshot.high
      (sortByBlock (x.visit (changedBytes x.currentSnapshot.high cursor))) := by
  refine ⟨sortByBlock_sorted (h.visit_nodup _), fun b bytes => ?_⟩
  rw [mem_sortByBlock, h.mem_visit, resolveBlock_changedBytes]
  exact (h.settled b).changedBytes_eq cursor

theorem Quiescent.sizes (h : x.Quiescent size) {cursor : Nat} {ws : List (Nat × Bytes)}
    (hws : Image x.newest cursor x.currentSnapshot.high ws) : ∀ p ∈ ws, p.2.length = size := by
  intro p hp
  have hsome := ((h.settled p.1).changedBytes_eq cursor).mpr ((hws.mem p.1 p.2).mp hp)
  exact changedBytes_size (h.settled p.1) hsome

theorem flushToDeviceAfter_eq (x : ShardedMvccStore) (d : BaseDevice) (cursor : Nat)
    (fault : Option Nat) : x.flushToDeviceAfter d cursor fault =
      d.flushImage (sortByBlock (x.visit (changedBytes x.currentSnapshot.high cursor))) cursor
        x.currentSnapshot.high fault := rfl

theorem Quiescent.borrowed_eq (h : x.Quiescent size) (d : BaseDevice) (cursor : Nat)
    (fault : Option Nat) :
    x.flushToDeviceAfterBorrowed d cursor fault = x.flushToDeviceAfter d cursor fault := by
  unfold flushToDeviceAfterBorrowed flushToDeviceAfter
  simp only
  split_ifs
  · rfl
  have hsorted := sort_keys (h.visit_nodup fun versions =>
    changedIndex versions x.currentSnapshot.high cursor)
  obtain ⟨hwritten, hflushed⟩ := RunWalk.borrowed_spec
    (x.resolveBlock (changedBytes x.currentSnapshot.high cursor)) hsorted
  have himage := h.image cursor hsorted fun b bytes hb => by
    obtain ⟨versions, hv, hc⟩ := Option.bind_eq_some_iff.mp hb
    obtain ⟨idx, hidx, -⟩ := Option.bind_eq_some_iff.mp hc
    rw [List.mem_insertionSort, List.mem_map]
    exact ⟨(b, idx), h.mem_visit.mpr (Option.bind_eq_some_iff.mpr ⟨versions, hv, hidx⟩), rfl⟩
  rw [hwritten, hflushed, himage.unique (h.imageItems cursor)]

theorem Quiescent.vectored_eq (h : x.Quiescent size) (d : BaseDevice) (cursor : Nat)
    (fault : Option Nat) :
    x.flushToDeviceAfterVectored d cursor fault = x.flushToDeviceAfter d cursor fault := by
  unfold flushToDeviceAfterVectored flushToDeviceAfter
  simp only [flushChunk_eq]
  split_ifs
  · rfl
  have hall : (((List.range x.shardCount).map x.shards).flatMap fun shard => shard.versions.keys) =
      (x.visit some).map Prod.fst := by
    simp only [visit, List.map_flatMap, OrdMap.keys, List.map_filterMap]
    simp
  rw [hall]
  have hsorted := sort_keys (h.visit_nodup some)
  obtain ⟨hwritten, hflushed⟩ := RunWalk.vectored_spec
    (x.resolveBlock (changedBytes x.currentSnapshot.high cursor)) hsorted
  have himage := h.image cursor hsorted fun b bytes hb => by
    obtain ⟨versions, hv, -⟩ := Option.bind_eq_some_iff.mp hb
    rw [List.mem_insertionSort, List.mem_map]
    exact ⟨(b, versions), h.mem_visit.mpr (Option.bind_eq_some_iff.mpr ⟨versions, hv, rfl⟩), rfl⟩
  rw [hwritten, hflushed, himage.unique (h.imageItems cursor)]

end Outcomes

end ShardedMvccStore

/-- **Every flush writes the same image.** On a quiescent store each of the four leaves the
device as if the newest version of every block that changed in `(cursor, high]` were written
one block at a time, and reports their number and `high`. Two stores with the same newest
versions have the same outcome, also where a run is refused or a write fails. -/
theorem flush_variants {d : BaseDevice} (hsize : 0 < d.blockSize) (hcount : d.blockCount ≤ u64Max)
    (cursor : Nat) :
    (∀ s : MvccStore, s.Quiescent d.blockSize →
      WritesImage d s.newest cursor s.currentSnapshot.high (s.flushToDeviceAfter d cursor none)) ∧
    (∀ x : ShardedMvccStore, x.Quiescent d.blockSize →
      WritesImage d x.newest cursor x.currentSnapshot.high (x.flushToDeviceAfter d cursor none) ∧
      WritesImage d x.newest cursor x.currentSnapshot.high
        (x.flushToDeviceAfterBorrowed d cursor none) ∧
      WritesImage d x.newest cursor x.currentSnapshot.high
        (x.flushToDeviceAfterVectored d cursor none)) ∧
    ∀ (s : MvccStore) (x : ShardedMvccStore), s.Quiescent d.blockSize → x.Quiescent d.blockSize →
      x.newest = s.newest → x.currentSnapshot = s.currentSnapshot → ∀ fault,
        x.flushToDeviceAfter d cursor fault = s.flushToDeviceAfter d cursor fault ∧
        x.flushToDeviceAfterBorrowed d cursor fault = s.flushToDeviceAfter d cursor fault ∧
        x.flushToDeviceAfterVectored d cursor fault = s.flushToDeviceAfter d cursor fault := by
  refine ⟨fun s hs => ?_, fun x hx => ?_, fun s x hs hx hnewest hhigh fault => ?_⟩
  · rw [s.flushToDeviceAfter_eq]
    exact (hs.image cursor).writesImage hsize hcount (hs.sizes cursor)
  · have hcloned : WritesImage d x.newest cursor x.currentSnapshot.high
        (x.flushToDeviceAfter d cursor none) := by
      rw [x.flushToDeviceAfter_eq]
      exact (hx.imageItems cursor).writesImage hsize hcount (hx.sizes (hx.imageItems cursor))
    exact ⟨hcloned, by rwa [hx.borrowed_eq], by rwa [hx.vectored_eq]⟩
  · rw [hx.borrowed_eq, hx.vectored_eq, and_self, and_self, x.flushToDeviceAfter_eq,
      s.flushToDeviceAfter_eq]
    have himage := hx.imageItems cursor
    rw [hnewest, hhigh] at himage
    rw [hhigh, himage.unique (hs.image cursor)]

/-! ## Reachable stores are quiescent when all is published -/

theorem Stores.settled {high size : Nat} {chain : List BlockVersion} {es : Entries}
    (h : Stores chain es) (hes : ∀ e ∈ es, e.1 ≤ high ∧ e.2.length = size) :
    Settled high size chain := by
  constructor
  · intro v hv
    have hmem : v.commitSeq ∈ es.map Prod.fst := h.seqs ▸ List.mem_map_of_mem hv
    obtain ⟨e, he, heq⟩ := List.mem_map.mp hmem
    exact heq ▸ (hes e he).1
  · intro i hi
    have hi' : i < es.length := h.length ▸ hi
    refine ⟨es[i].2, ?_, (hes es[i] (List.getElem_mem hi')).2⟩
    rw [h.bytes i hi, List.getElem?_eq_getElem hi']
    rfl

namespace ShardedSystem

theorem run_quiescent {shardCount : Nat} {policy : CompressionPolicy} {mode : PublicationMode}
    {ops : List ShardedStep} {x : ShardedSystem}
    (hrun : (new shardCount policy mode).run ops = some x)
    (hall : x.store.nextCommit = x.completed + 1) {size : Nat}
    (hsize : ∀ b, ∀ e ∈ x.history b, e.2.length = size) : x.store.Quiescent size := by
  obtain ⟨floor, hinv⟩ := (inv_new shardCount policy mode).run hrun
  refine ⟨((ShardedMvccStore.Reaches.new shardCount policy mode).run hrun).placed, fun b => ?_⟩
  obtain ⟨post, ⟨pre, heq, -⟩, hst⟩ := hinv.chains b
  refine Stores.settled hst fun e he => ?_
  have hmem : e ∈ x.history b := by
    rw [heq]
    exact List.mem_append_right _ he
  obtain ⟨r, hr, hseq, -⟩ := hinv.source b e.1 e.2 hmem
  have hlt := (hinv.drawn r hr).2
  refine ⟨?_, hsize b e hmem⟩
  show e.1 ≤ x.completed
  omega

end ShardedSystem

end Quiescent

/-! ## A block skipped inside a run -/

section Sample

local instance flushPlatform : Platform := exactPlatform

def middleFirst : Transaction × Transaction :=
  ((Transaction.new 1 ⟨0⟩).stageWrite 2 [7],
    ((Transaction.new 2 ⟨1⟩).stageWrite 1 [8]).stageWrite 3 [9])

def middleStore : MvccStore :=
  (((MvccStore.new ⟨false, none, .none⟩ .strict exactConfig).commit middleFirst.1).1.commit
    middleFirst.2).1

def middleSteps : List ShardedStep :=
  [.commit middleFirst.1 .strict, .install 1, .unlock 1, .announce 1, .advance,
    .commit middleFirst.2 .strict, .install 2, .install 2, .unlock 2, .announce 2, .advance]

theorem middleStore_quiescent : middleStore.Quiescent 1 := by
  have hentries : middleStore.versions.entries =
      [(1, [⟨1, 2, 2, .full [8]⟩]), (2, [⟨2, 1, 1, .full [7]⟩]), (3, [⟨3, 2, 2, .full [9]⟩])] := rfl
  intro b
  cases hb : middleStore.versions.get? b with
  | none =>
    rw [MvccStore.chain, hb]
    exact Settled.nil _ _
  | some versions =>
    rw [MvccStore.chain, hb, Option.getD_some]
    have hmem := (OrdMap.mem_entries _).mpr hb
    rw [hentries] at hmem
    simp only [List.mem_cons, Prod.mk.injEq, List.not_mem_nil, or_false] at hmem
    rcases hmem with ⟨-, rfl⟩ | ⟨-, rfl⟩ | ⟨-, rfl⟩
    all_goals
      refine ⟨by decide, fun i hi => ?_⟩
      obtain rfl : i = 0 := Nat.lt_one_iff.mp hi
      exact ⟨_, rfl, rfl⟩

theorem flush_variants_middle :
    let d : BaseDevice := ⟨1, 8, fun _ => [0]⟩
    WritesImage d middleStore.newest 1 2 (middleStore.flushToDeviceAfter d 1 none) ∧
    ∃ x, (ShardedSystem.new 4 default .mutex).run middleSteps = some x ∧
      WritesImage d x.store.newest 1 2 (x.store.flushToDeviceAfterVectored d 1 none) ∧
      (x.store.flushToDeviceAfterVectored d 1 none).2.toOption = some (2, 2) ∧
      ((List.range 4).map (x.store.flushToDeviceAfterVectored d 1 none).1.data) =
        [[0], [8], [0], [9]] := by
  intro d
  have hd := flush_variants (show 0 < d.blockSize by decide) (show d.blockCount ≤ u64Max by decide) 1
  refine ⟨hd.1 middleStore middleStore_quiescent, ?_⟩
  have hstate : ((ShardedSystem.new 4 default .mutex).run middleSteps).map
      (fun x => (x.store.nextCommit, x.completed, x.commits.map fun r => (r.merged,
        r.txn.stagedWrites.entries.map fun w => w.2.bytes.length))) =
      some (3, 2, [([], [1]), ([], [1, 1])]) := by decide +kernel
  have hflush : ((ShardedSystem.new 4 default .mutex).run middleSteps).map
      (fun x => ((x.store.flushToDeviceAfterVectored d 1 none).2.toOption,
        (List.range 4).map (x.store.flushToDeviceAfterVectored d 1 none).1.data)) =
      some (some (2, 2), [[0], [8], [0], [9]]) := by decide +kernel
  obtain ⟨x, hrun, hx⟩ := Option.map_eq_some_iff.mp hstate
  rw [hrun, Option.map_some, Option.some.injEq] at hflush
  obtain ⟨hreport, hdata⟩ := Prod.mk.inj hflush
  simp only [Prod.mk.injEq] at hx
  obtain ⟨hnext, hcompleted, hcommits⟩ := hx
  obtain ⟨floor, hinv⟩ := (ShardedSystem.inv_new 4 default .mutex).run hrun
  refine ⟨x, hrun, ?_, hreport, hdata⟩
  have hq : x.store.Quiescent 1 := by
    refine ShardedSystem.run_quiescent hrun (by omega) fun b e he => ?_
    obtain ⟨r, hr, -, -, hstaged⟩ := hinv.source b e.1 e.2 he
    have hmem := List.mem_map_of_mem (f := fun r : CommitRecord => (r.merged,
      r.txn.stagedWrites.entries.map fun w => w.2.bytes.length)) hr
    rw [hcommits] at hmem
    have hone : r.merged = [] ∧ ∀ n ∈ r.txn.stagedWrites.entries.map
        (fun w => w.2.bytes.length), n = 1 := by
      simp only [List.mem_cons, Prod.mk.injEq, List.not_mem_nil, or_false] at hmem
      rcases hmem with ⟨hm, hl⟩ | ⟨hm, hl⟩
      all_goals
        rw [hl]
        exact ⟨hm, by decide⟩
    obtain ⟨w, hw, hbytes⟩ := Option.map_eq_some_iff.mp (hstaged (by rw [hone.1]; simp))
    rw [← hbytes]
    exact hone.2 _ (List.mem_map.mpr ⟨(b, w), (OrdMap.mem_entries _).mpr hw, rfl⟩)
  have hhigh : x.store.currentSnapshot.high = 2 := hcompleted
  rw [← hhigh]
  exact (hd.2.1 x.store hq).2.2

end Sample

end FrankenFs.Mvcc
