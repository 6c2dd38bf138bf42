import FrankenFs.Mvcc.StoreSpec

/-!
# `flush_to_device_after` and `MvccBlockDevice`

The flush writes the newest version of every block that changed since the cursor, in runs of
neighbouring blocks.
-/

open FrankenFs.Lib

namespace FrankenFs.Mvcc

/-! ## The base device -/

inductive DeviceError where
  | format (detail : String)
  | io
deriving DecidableEq

structure BaseDevice where
  blockSize : Nat
  blockCount : Nat
  data : Nat → Bytes

namespace BaseDevice

def readBlock (d : BaseDevice) (block : Nat) : Except DeviceError Bytes :=
  if block < d.blockCount then .ok (d.data block)
  else .error (.format s!"block out of range: block={block} block_count={d.blockCount}")

def writeBlock (d : BaseDevice) (w : Nat × Bytes) : BaseDevice :=
  { d with data := fun block => if block = w.1 then w.2 else d.data block }

/-- The checks of `write_contiguous_blocks` and the block writes it then makes. -/
def contiguousWrites (d : BaseDevice) (start : Nat) (data : Bytes) :
    Except DeviceError (List (Nat × Bytes)) :=
  if d.blockSize = 0 ∨ data.length % d.blockSize ≠ 0 then
    .error (.format "write_contiguous_blocks: data length must be a multiple of block size")
  else
    let count := data.length / d.blockSize
    if count > 0 ∧ start + (count - 1) > u64Max then
      .error (.format "contiguous write block range overflow")
    else if count > 0 ∧ start + (count - 1) ≥ d.blockCount then
      .error (.format
        s!"block out of range: block={start + (count - 1)} block_count={d.blockCount}")
    else
      .ok ((List.range count).map fun i =>
        (start + i, (data.drop (i * d.blockSize)).take d.blockSize))

def plannedWrites (d : BaseDevice) :
    List (Nat × Bytes) → List (Nat × Bytes) × Option DeviceError
  | [] => ([], none)
  | (start, buf) :: runs =>
    match d.contiguousWrites start buf with
    | .error e => ([], some e)
    | .ok writes => (writes ++ (d.plannedWrites runs).1, (d.plannedWrites runs).2)

end BaseDevice

/-- The run loop of the flush, with `run_start`, `run_next` and `run_buf`. -/
def flushRuns : List (Nat × Bytes) → Option Nat → Nat → Bytes → List (Nat × Bytes)
  | [], runStart, _, runBuf => (runStart.map fun start => (start, runBuf)).toList
  | (block, data) :: rest, runStart, runNext, runBuf =>
    if runStart.isSome ∧ block = runNext then
      flushRuns rest runStart (u64SaturatingAdd block 1) (runBuf ++ data)
    else
      (runStart.map fun start => (start, runBuf)).toList ++
        flushRuns rest (some block) (u64SaturatingAdd block 1) data

section Store

variable [Platform]

namespace MvccStore

def flushBlocks (s : MvccStore) (flushedThrough : Nat) : List (Nat × Bytes) :=
  s.versions.entries.filterMap fun e => do
    let idx ← newestVisibleIndex e.2 s.currentSnapshot.high
    let v ← e.2[idx]?
    if v.commitSeq ≤ flushedThrough then none
    else (resolveData e.2 idx).map (Prod.mk e.1)

/-- `fault = some n` is an I/O error or a cancelled context after `n` block writes. A fault
past the last write is one of the final sync. -/
def flushToDeviceAfter (s : MvccStore) (d : BaseDevice) (flushedThrough : Nat)
    (fault : Option Nat) : BaseDevice × Except DeviceError (Nat × Nat) :=
  let high := s.currentSnapshot.high
  if high ≤ flushedThrough then (d, .ok (0, high))
  else
    let blocks := s.flushBlocks flushedThrough
    let planned := d.plannedWrites (flushRuns blocks none 0 [])
    match fault with
    | some n => ((planned.1.take n).foldl BaseDevice.writeBlock d, .error .io)
    | none =>
      (planned.1.foldl BaseDevice.writeBlock d,
        match planned.2 with
        | some e => .error e
        | none => .ok (blocks.length, high))

end MvccStore

/-- `MvccBlockDevice::read_block` of a device that was opened with `new`. -/
def mvccReadBlock (s : MvccStore) (base : BaseDevice) (snapshot : Snapshot) (block : Nat) :
    Except DeviceError Bytes :=
  match s.readVisible block snapshot with
  | some bytes => .ok bytes
  | none => base.readBlock block

end Store

/-! ## What a flush writes -/

def numbered (start : Nat) (ds : List Bytes) : List (Nat × Bytes) :=
  ds.mapIdx fun i data => (start + i, data)

theorem numbered_snoc (start : Nat) (ds : List Bytes) (data : Bytes) :
    numbered start (ds ++ [data]) = numbered start ds ++ [(start + ds.length, data)] := by
  simp [numbered, List.mapIdx_append]

variable {ds : List Bytes}

variable {n : Nat}

theorem flatten_length (h : ∀ d ∈ ds, d.length = n) : ds.flatten.length = ds.length * n := by
  induction ds with
  | nil => simp
  | cons d ds ih =>
    rw [List.flatten_cons, List.length_append, ih fun d' hd' => h d' (by simp [hd']),
      h d (by simp), List.length_cons, Nat.succ_mul, Nat.add_comm]

theorem flatten_chunk (h : ∀ d ∈ ds, d.length = n) {i : Nat} (hi : i < ds.length) :
    (ds.flatten.drop (i * n)).take n = ds[i] := by
  induction ds generalizing i with
  | nil => simp at hi
  | cons d ds ih =>
    have hd := h d (by simp)
    cases i with
    | zero => simp [← hd]
    | succ i =>
      have hdrop : (d ++ ds.flatten).drop ((i + 1) * n) = ds.flatten.drop (i * n) := by
        rw [List.drop_append, Nat.succ_mul, List.drop_of_length_le (by omega), List.nil_append, hd,
          Nat.add_sub_cancel]
      rw [List.flatten_cons, hdrop, List.getElem_cons_succ]
      exact ih (fun d' hd' => h d' (by simp [hd'])) (by simpa using hi)

variable {d : BaseDevice} {start : Nat}

theorem contiguousWrites_ok {writes : List (Nat × Bytes)} (hlen : ∀ x ∈ ds, x.length = d.blockSize)
    (h : d.contiguousWrites start ds.flatten = .ok writes) : writes = numbered start ds := by
  unfold BaseDevice.contiguousWrites at h
  split_ifs at h with hbs
  simp only at h
  split_ifs at h
  rw [Except.ok.injEq] at h
  subst h
  have hpos : 0 < d.blockSize := by omega
  rw [flatten_length hlen, Nat.mul_div_cancel _ hpos]
  apply List.ext_getElem (by simp [numbered])
  intro i h1 h2
  simp only [List.length_map, List.length_range] at h1
  simp only [List.getElem_map, List.getElem_range, numbered, List.getElem_mapIdx,
    flatten_chunk hlen h1]

theorem contiguousWrites_accepted (hsize : 0 < d.blockSize) (hcount : d.blockCount ≤ u64Max)
    (hlen : ∀ x ∈ ds, x.length = d.blockSize) (hne : ds ≠ []) :
    (∃ writes, d.contiguousWrites start ds.flatten = .ok writes) ↔
      start + (ds.length - 1) < d.blockCount := by
  have hpos : 0 < ds.length := List.length_pos_iff.mpr hne
  have hmod : ¬ (d.blockSize = 0 ∨ ds.flatten.length % d.blockSize ≠ 0) := by
    rw [flatten_length hlen, Nat.mul_mod_left]
    omega
  unfold BaseDevice.contiguousWrites
  simp only
  rw [if_neg hmod, flatten_length hlen, Nat.mul_div_cancel _ hsize]
  constructor
  · rintro ⟨writes, h⟩
    split_ifs at h
    omega
  · intro hlast
    rw [if_neg (by omega), if_neg (by omega)]
    exact ⟨_, rfl⟩

theorem numbered_sizes (h : ∀ p ∈ numbered start ds, p.2.length = n) : ∀ x ∈ ds, x.length = n := by
  intro x hx
  obtain ⟨i, hi, rfl⟩ := List.mem_iff_getElem.mp hx
  exact h (start + i, ds[i]) (List.mem_mapIdx.mpr ⟨i, hi, rfl⟩)

theorem numbered_below (hne : ds ≠ []) (n : Nat) :
    (∀ p ∈ numbered start ds, p.1 < n) ↔ start + (ds.length - 1) < n := by
  have hpos : 0 < ds.length := List.length_pos_iff.mpr hne
  constructor
  · intro h
    exact h _ (List.mem_mapIdx.mpr ⟨ds.length - 1, by omega, rfl⟩)
  · intro h p hp
    obtain ⟨i, hi, rfl⟩ := List.mem_mapIdx.mp hp
    show start + i < n
    omega

def CutInto (runs blocks : List (Nat × Bytes)) : Prop :=
  ∃ groups : List (Nat × List Bytes), runs = groups.map (fun g => (g.1, g.2.flatten)) ∧
    groups.flatMap (fun g => numbered g.1 g.2) = blocks ∧ ∀ g ∈ groups, g.2 ≠ []

variable {blocks : List (Nat × Bytes)}

variable {runs : List (Nat × Bytes)}

theorem CutInto.cons (h : CutInto runs blocks) (start : Nat) (hne : ds ≠ []) :
    CutInto ((start, ds.flatten) :: runs) (numbered start ds ++ blocks) := by
  obtain ⟨groups, rfl, rfl, hgroups⟩ := h
  refine ⟨(start, ds) :: groups, rfl, rfl, fun g hg => ?_⟩
  rcases List.mem_cons.mp hg with rfl | hg
  · exact hne
  · exact hgroups g hg

theorem flushRuns_pending (hne : ds ≠ []) (hsorted : blocks.Pairwise fun a b => a.1 < b.1)
    (hlast : ∀ p ∈ blocks, start + (ds.length - 1) < p.1) :
    CutInto (flushRuns blocks (some start) (u64SaturatingAdd (start + (ds.length - 1)) 1)
      ds.flatten) (numbered start ds ++ blocks) := by
  induction blocks generalizing start ds with
  | nil => exact CutInto.cons ⟨[], rfl, rfl, by simp⟩ start hne
  | cons p rest ih =>
    obtain ⟨block, data⟩ := p
    obtain ⟨hfirst, hsorted⟩ := List.pairwise_cons.mp hsorted
    have hbl : start + (ds.length - 1) < block := hlast (block, data) (by simp)
    have hpos : 0 < ds.length := List.length_pos_iff.mpr hne
    rw [flushRuns]
    split_ifs with hrun
    · -- The block continues the run, so it is the next one.
      have hnext : block = start + ds.length := by
        have := hrun.2
        simp only [u64SaturatingAdd] at this
        omega
      have hidx : start + ((ds ++ [data]).length - 1) = block := by
        simp only [List.length_append, List.length_singleton]
        omega
      have happ := @ih (ds ++ [data]) start (by simp) hsorted fun p hp => by
        rw [hidx]
        exact hfirst p hp
      rw [hidx, List.flatten_append, List.flatten_singleton, numbered_snoc, ← hnext,
        List.append_assoc] at happ
      exact happ
    · have hnew := @ih [data] block (by simp) hsorted fun p hp => by simpa using hfirst p hp
      have hone : numbered block [data] = [(block, data)] := by simp [numbered]
      rw [hone, List.flatten_singleton] at hnew
      exact hnew.cons start hne

theorem flushRuns_cutInto (hsorted : blocks.Pairwise fun a b => a.1 < b.1) :
    CutInto (flushRuns blocks none 0 []) blocks := by
  cases blocks with
  | nil => exact ⟨[], rfl, rfl, by simp⟩
  | cons p rest =>
    obtain ⟨block, data⟩ := p
    obtain ⟨hfirst, hsorted⟩ := List.pairwise_cons.mp hsorted
    have h := @flushRuns_pending [data] block rest (by simp) hsorted fun p hp => by
      simpa using hfirst p hp
    have hone : numbered block [data] = [(block, data)] := by simp [numbered]
    rw [hone] at h
    simpa [flushRuns] using h

theorem CutInto.plannedWrites (h : CutInto runs blocks)
    (hblocks : ∀ p ∈ blocks, p.2.length = d.blockSize) :
    (d.plannedWrites runs).1 <+: blocks ∧
      ((d.plannedWrites runs).2 = none → (d.plannedWrites runs).1 = blocks) := by
  obtain ⟨groups, rfl, rfl, -⟩ := h
  induction groups with
  | nil => simp [BaseDevice.plannedWrites]
  | cons g groups ih =>
    obtain ⟨start, ds⟩ := g
    simp only [List.flatMap_cons, List.mem_append] at hblocks
    have hds : ∀ x ∈ ds, x.length = d.blockSize :=
      numbered_sizes fun p hp => hblocks p (Or.inl hp)
    have hrest := ih fun p hp => hblocks p (Or.inr hp)
    simp only [List.map_cons, List.flatMap_cons, BaseDevice.plannedWrites]
    cases hw : d.contiguousWrites start ds.flatten with
    | error e => simp
    | ok writes =>
      rw [contiguousWrites_ok hds hw]
      refine ⟨(List.prefix_append_right_inj _).mpr hrest.1, fun hr => ?_⟩
      rw [hrest.2 hr]

theorem CutInto.accepted (hsize : 0 < d.blockSize) (hcount : d.blockCount ≤ u64Max)
    (h : CutInto runs blocks) (hblocks : ∀ p ∈ blocks, p.2.length = d.blockSize) :
    (d.plannedWrites runs).2 = none ↔ ∀ p ∈ blocks, p.1 < d.blockCount := by
  obtain ⟨groups, rfl, rfl, hne⟩ := h
  induction groups with
  | nil => simp [BaseDevice.plannedWrites]
  | cons g groups ih =>
    obtain ⟨start, ds⟩ := g
    simp only [List.flatMap_cons, List.mem_append] at hblocks
    have hds : ∀ x ∈ ds, x.length = d.blockSize :=
      numbered_sizes fun p hp => hblocks p (Or.inl hp)
    have hgne : ds ≠ [] := hne (start, ds) (by simp)
    have hrest := ih (fun g hg => hne g (by simp [hg])) fun p hp => hblocks p (Or.inr hp)
    have hacc := @contiguousWrites_accepted ds d start hsize hcount hds hgne
    simp only [List.map_cons, List.flatMap_cons, BaseDevice.plannedWrites, List.forall_mem_append,
      numbered_below hgne]
    cases hw : d.contiguousWrites start ds.flatten with
    | error e =>
      have hoff : ¬ start + (ds.length - 1) < d.blockCount := by
        rw [← hacc, hw]
        simp
      simp [hoff]
    | ok writes =>
      have hon : start + (ds.length - 1) < d.blockCount := hacc.mp ⟨writes, hw⟩
      simp only [hon, true_and]
      exact hrest

theorem plannedWrites_flushRuns (hblocks : ∀ p ∈ blocks, p.2.length = d.blockSize)
    (hsorted : blocks.Pairwise fun a b => a.1 < b.1) :
    let r := d.plannedWrites (flushRuns blocks none 0 [])
    r.1 <+: blocks ∧ (r.2 = none → r.1 = blocks) :=
  (flushRuns_cutInto hsorted).plannedWrites hblocks

theorem foldl_writeBlock {writes : List (Nat × Bytes)} (hnd : (writes.map Prod.fst).Nodup)
    (d : BaseDevice) (b : Nat) :
    (writes.foldl BaseDevice.writeBlock d).data b = (writes.lookup b).getD (d.data b) := by
  induction writes generalizing d with
  | nil => rfl
  | cons w rest ih =>
    rw [List.map_cons, List.nodup_cons] at hnd
    rw [List.foldl_cons, ih hnd.2, List.lookup_cons]
    by_cases hb : b = w.1
    · have hnone : rest.lookup b = none := by
        rw [List.lookup_eq_none_iff]
        intro p hp
        have : p.1 ≠ b := fun h => hnd.1 (List.mem_map.mpr ⟨p, hp, h.trans hb⟩)
        simpa using this.symm
      rw [hnone]
      simp [BaseDevice.writeBlock, hb]
    · have hbeq : (b == w.1) = false := by simpa using hb
      rw [hbeq]
      simp [BaseDevice.writeBlock, hb]

theorem foldl_writeBlock_size (writes : List (Nat × Bytes)) (d : BaseDevice) :
    (writes.foldl BaseDevice.writeBlock d).blockSize = d.blockSize ∧
      (writes.foldl BaseDevice.writeBlock d).blockCount = d.blockCount := by
  induction writes generalizing d with
  | nil => exact ⟨rfl, rfl⟩
  | cons w rest ih => exact ih (d.writeBlock w)

section Spec

variable [Platform]

namespace MvccStore

theorem flushBlocks_sorted (s : MvccStore) (cursor : Nat) :
    (s.flushBlocks cursor).Pairwise fun a b => a.1 < b.1 := by
  refine List.Pairwise.filterMap _ (fun e e' hlt x hx x' hx' => ?_) s.versions.sorted
  simp only [Option.bind_eq_bind, Option.bind_eq_some_iff, Option.ite_none_left_eq_some,
    Option.map_eq_some_iff] at hx hx'
  obtain ⟨-, -, -, -, -, -, -, rfl⟩ := hx
  obtain ⟨-, -, -, -, -, -, -, rfl⟩ := hx'
  exact hlt

theorem flushBlocks_nodup (s : MvccStore) (cursor : Nat) :
    ((s.flushBlocks cursor).map Prod.fst).Nodup :=
  List.pairwise_map.mpr ((s.flushBlocks_sorted cursor).imp Nat.ne_of_lt)

theorem mem_flushBlocks {s : MvccStore} {cursor b : Nat} {bytes : Bytes} {es : Entries}
    (hst : Stores (s.chain b) es) (hes : ∀ e ∈ es, e.1 ≤ s.currentSnapshot.high) :
    (b, bytes) ∈ s.flushBlocks cursor ↔ ∃ c, es.getLast? = some (c, bytes) ∧ cursor < c := by
  have hentry : ∀ versions, s.versions.get? b = some versions →
      ((newestVisibleIndex versions s.currentSnapshot.high).bind fun idx =>
        (versions[idx]?).bind fun v =>
          if v.commitSeq ≤ cursor then none else (resolveData versions idx).map (Prod.mk b)) =
      (es.getLast?).bind fun e => if e.1 ≤ cursor then none else some (b, e.2) := by
    intro versions hv
    have hch : s.chain b = versions := by simp [MvccStore.chain, hv]
    rw [hch] at hst
    have hlatest := hst.latest
    cases hl : versions.getLast? with
    | none =>
      rw [hl] at hlatest
      have : es.getLast? = none := by simpa using hlatest.symm
      simp [newestVisibleIndex, newestVisibleIndexBy, hl, this]
    | some last =>
      rw [hl, Option.map_some] at hlatest
      obtain ⟨e, he, hseq⟩ := Option.map_eq_some_iff.mp hlatest.symm
      have hle := hes e (List.mem_of_getLast? he)
      have hidx : versions[versions.length - 1]? = some last := by
        rw [← List.getLast?_eq_getElem?, hl]
      have hlt := (List.getElem?_eq_some_iff.mp hidx).1
      have hres : resolveData versions (versions.length - 1) = some e.2 := by
        rw [hst.bytes _ hlt, hst.length, ← List.getLast?_eq_getElem?, he]
        rfl
      simp only [newestVisibleIndex, newestVisibleIndexBy, hl, ← hseq, if_pos hle,
        Option.bind_some, hidx, hres, he, Option.map_some]
  unfold flushBlocks
  rw [List.mem_filterMap]
  constructor
  · rintro ⟨⟨b', versions⟩, hmem, hf⟩
    have hv := (OrdMap.mem_entries _).mp hmem
    simp only [Option.bind_eq_bind] at hf
    have hb : b' = b := by
      simp only [Option.bind_eq_some_iff, Option.ite_none_left_eq_some,
        Option.map_eq_some_iff] at hf
      obtain ⟨_, -, _, -, -, _, -, heq⟩ := hf
      exact congrArg Prod.fst heq
    subst hb
    rw [hentry versions hv] at hf
    simp only [Option.bind_eq_some_iff, Option.ite_none_left_eq_some, Option.some.injEq,
      Prod.mk.injEq, true_and] at hf
    obtain ⟨e, he, hlt, rfl⟩ := hf
    exact ⟨e.1, he, Nat.lt_of_not_le hlt⟩
  · rintro ⟨c, hlast, hlt⟩
    cases hv : s.versions.get? b with
    | none =>
      have hch : s.chain b = [] := by simp [MvccStore.chain, hv]
      rw [hch] at hst
      simp [hst.eq_nil] at hlast
    | some versions =>
      refine ⟨(b, versions), (OrdMap.mem_entries _).mpr hv, ?_⟩
      simp only [Option.bind_eq_bind]
      rw [hentry versions hv, hlast]
      simp [Nat.not_le.mpr hlt]

/-- **A flush** of block-sized versions writes some of them, and all of them if it succeeds. -/
theorem flushToDeviceAfter_spec {s : MvccStore} {d : BaseDevice} {cursor : Nat}
    {fault : Option Nat} (hsize : ∀ p ∈ s.flushBlocks cursor, p.2.length = d.blockSize) :
    ∃ writes, writes <+: s.flushBlocks cursor ∧
      (s.flushToDeviceAfter d cursor fault).1 = writes.foldl BaseDevice.writeBlock d ∧
      ∀ n through, (s.flushToDeviceAfter d cursor fault).2 = .ok (n, through) →
        through = s.currentSnapshot.high ∧
          (s.currentSnapshot.high ≤ cursor ∨ writes = s.flushBlocks cursor) := by
  have hplan := plannedWrites_flushRuns hsize (s.flushBlocks_sorted cursor)
  simp only at hplan
  unfold flushToDeviceAfter
  simp only
  split_ifs with hcur
  · refine ⟨[], List.nil_prefix, rfl, fun n through h => ?_⟩
    simp only [Except.ok.injEq, Prod.mk.injEq] at h
    exact ⟨h.2.symm, Or.inl hcur⟩
  · cases fault with
    | some n =>
      refine ⟨_, (List.take_prefix n _).trans hplan.1, rfl, fun n' through h => ?_⟩
      simp at h
    | none =>
      refine ⟨_, hplan.1, rfl, fun n through h => ?_⟩
      simp only at h
      split at h
      · simp at h
      · rename_i hnone
        simp only [Except.ok.injEq, Prod.mk.injEq] at h
        exact ⟨h.2.symm, Or.inr (hplan.2 hnone)⟩

end MvccStore

end Spec

end FrankenFs.Mvcc
