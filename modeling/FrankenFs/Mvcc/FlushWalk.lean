import FrankenFs.Mvcc.Flush

/-!
# Runs formed over block numbers

Each block is resolved while the runs are formed, so it can be skipped inside a run. What goes to the
device are the runs of the blocks that resolve.
-/

open FrankenFs.Lib

namespace FrankenFs.Mvcc

/-! ## The device side -/

namespace BaseDevice

/-- The runs written in order, with the report of a flush. A fault is as in
`MvccStore.flushToDeviceAfter`. -/
def writeRuns (d : BaseDevice) (runs : List (Nat × Bytes)) (flushed high : Nat)
    (fault : Option Nat) : BaseDevice × Except DeviceError (Nat × Nat) :=
  let planned := d.plannedWrites runs
  match fault with
  | some n => ((planned.1.take n).foldl BaseDevice.writeBlock d, .error .io)
  | none =>
    (planned.1.foldl BaseDevice.writeBlock d,
      match planned.2 with
      | some e => .error e
      | none => .ok (flushed, high))

/-- `write_contiguous_blocks_vectored`: what the chunks are as one write. -/
def gather : List Bytes → Bytes
  | [single] => single
  | chunks => chunks.flatten

theorem gather_eq (chunks : List Bytes) : gather chunks = chunks.flatten := by
  unfold gather
  split
  · rw [List.flatten_singleton]
  · rfl

end BaseDevice

/-! ## The walks that skip blocks -/

structure RunWalk (ρ : Type) where
  runStart : Option Nat
  runNext : Nat
  run : ρ
  flushed : Nat
  written : List (Nat × ρ)

namespace RunWalk

def continues {ρ : Type} (w : RunWalk ρ) (block : Nat) : Bool :=
  w.runStart.isSome && block == w.runNext

/-- The borrowed walk writes the open run, if there is one, and only then clears the buffer. -/
def writeRun (w : RunWalk Bytes) : RunWalk Bytes :=
  match w.runStart with
  | some start =>
    { w with runStart := none, run := [], written := w.written ++ [(start, w.run)] }
  | none => w

def borrowedTurn (resolve : Nat → Option Bytes) (w : RunWalk Bytes) (block : Nat) :
    RunWalk Bytes :=
  let continues := w.continues block
  let w := if continues then w else w.writeRun
  match resolve block with
  | some bytes =>
    { w with
      runStart := if continues then w.runStart else some block
      run := w.run ++ bytes
      runNext := u64SaturatingAdd block 1
      flushed := w.flushed + 1 }
  | none => if continues then w else { w with runStart := none }

/-- The vectored walk writes the open run unless it is empty, and always clears it. -/
def writeRunVectored (w : RunWalk (List Bytes)) : RunWalk (List Bytes) :=
  { w with
    runStart := none
    run := []
    written := w.written ++
      match w.runStart with
      | some start => if w.run.isEmpty then [] else [(start, w.run)]
      | none => [] }

def vectoredTurn (chunk : Nat → Option Bytes) (w : RunWalk (List Bytes)) (block : Nat) :
    RunWalk (List Bytes) :=
  let continues := w.continues block
  let w := if continues then w else w.writeRunVectored
  match chunk block with
  | some bytes =>
    { w with
      runStart := if continues then w.runStart else some block
      run := w.run ++ [bytes]
      runNext := u64SaturatingAdd block 1
      flushed := w.flushed + 1 }
  | none => if continues then w else { w with runStart := none }

end RunWalk

/-! ## What the walks write -/

theorem flushRuns_idle (items : List (Nat × Bytes)) (runNext : Nat) (runBuf : Bytes) :
    flushRuns items none runNext runBuf = flushRuns items none 0 [] := by
  cases items <;> rfl

theorem flushRuns_break {items : List (Nat × Bytes)} {runNext : Nat}
    (h : ∀ p ∈ items, p.1 ≠ runNext) (start : Nat) (runBuf : Bytes) :
    flushRuns items (some start) runNext runBuf = (start, runBuf) :: flushRuns items none 0 [] := by
  cases items with
  | nil => rfl
  | cons p rest =>
    obtain ⟨block, data⟩ := p
    rw [flushRuns, if_neg fun hc => h (block, data) (by simp) hc.2]
    rfl

def resolved (resolve : Nat → Option Bytes) (keys : List Nat) : List (Nat × Bytes) :=
  keys.filterMap fun block => (resolve block).map (Prod.mk block)

theorem mem_resolved {resolve : Nat → Option Bytes} {keys : List Nat} {block : Nat}
    {bytes : Bytes} :
    (block, bytes) ∈ resolved resolve keys ↔ block ∈ keys ∧ resolve block = some bytes := by
  simp only [resolved, List.mem_filterMap, Option.map_eq_some_iff, Prod.mk.injEq]
  constructor
  · rintro ⟨b, hb, bytes', hr, rfl, rfl⟩
    exact ⟨hb, hr⟩
  · rintro ⟨hb, hr⟩
    exact ⟨block, hb, bytes, hr, rfl, rfl⟩

theorem resolved_sorted (resolve : Nat → Option Bytes) {keys : List Nat}
    (h : keys.Pairwise (· < ·)) : (resolved resolve keys).Pairwise fun a b => a.1 < b.1 := by
  refine List.Pairwise.filterMap _ ?_ h
  intro b b' hlt p hp p' hp'
  obtain ⟨_, -, rfl⟩ := Option.map_eq_some_iff.mp hp
  obtain ⟨_, -, rfl⟩ := Option.map_eq_some_iff.mp hp'
  exact hlt

namespace RunWalk

/-- The buffer is empty while no run is open, and an open run is behind the keys to come. -/
structure Ahead (w : RunWalk Bytes) (keys : List Nat) : Prop where
  idle : w.runStart = none → w.run = []
  next : w.runStart.isSome → ∀ k ∈ keys, w.runNext ≤ k

theorem writeRun_written (w : RunWalk Bytes) :
    w.writeRun.written = w.written ++ (w.runStart.map fun start => (start, w.run)).toList := by
  unfold writeRun
  cases hs : w.runStart with
  | none => simp
  | some start => rfl

theorem writeRun_flushed (w : RunWalk Bytes) : w.writeRun.flushed = w.flushed := by
  unfold writeRun
  cases w.runStart <;> rfl

theorem writeRun_run {w : RunWalk Bytes} (h : w.runStart = none → w.run = []) :
    w.writeRun.run = [] := by
  unfold writeRun
  cases hs : w.runStart with
  | none => exact h hs
  | some start => rfl

theorem writeRun_runStart (w : RunWalk Bytes) : w.writeRun.runStart = none := by
  unfold writeRun
  cases hs : w.runStart with
  | none => exact hs
  | some start => rfl

variable {keys : List Nat}

theorem saturating_next {block : Nat} (h : ∀ k ∈ keys, block < k) :
    ∀ k ∈ keys, u64SaturatingAdd block 1 ≤ k := by
  intro k hk
  have := h k hk
  unfold u64SaturatingAdd
  omega

theorem foldl_borrowedTurn (resolve : Nat → Option Bytes) (hsorted : keys.Pairwise (· < ·))
    {w : RunWalk Bytes} (hw : w.Ahead keys) :
    (keys.foldl (borrowedTurn resolve) w).writeRun.written =
        w.written ++ flushRuns (resolved resolve keys) w.runStart w.runNext w.run ∧
      (keys.foldl (borrowedTurn resolve) w).flushed =
        w.flushed + (resolved resolve keys).length := by
  induction keys generalizing w with
  | nil => exact ⟨w.writeRun_written, rfl⟩
  | cons block keys ih =>
    obtain ⟨hfirst, hsorted⟩ := List.pairwise_cons.mp hsorted
    have hnext := saturating_next hfirst
    rw [List.foldl_cons]
    by_cases hc : w.continues block = true
    · obtain ⟨hsome, hblock⟩ := Bool.and_eq_true_iff.mp hc
      replace hblock : block = w.runNext := by simpa using hblock
      cases hr : resolve block with
      | some bytes =>
        have hturn : borrowedTurn resolve w block =
            { w with
              run := w.run ++ bytes
              runNext := u64SaturatingAdd block 1
              flushed := w.flushed + 1 } := by
          simp only [borrowedTurn, hr, hc, if_true]
        have hrest := @ih hsorted (borrowedTurn resolve w block) (by
          rw [hturn]
          exact ⟨fun hn => absurd hn (Option.isSome_iff_ne_none.mp hsome), fun _ => hnext⟩)
        rw [hturn] at hrest ⊢
        dsimp only at hrest
        have hcons : resolved resolve (block :: keys) = (block, bytes) :: resolved resolve keys := by
          simp [resolved, hr]
        rw [hcons, flushRuns, if_pos ⟨hsome, hblock⟩, hrest.1, hrest.2, List.length_cons]
        exact ⟨rfl, by omega⟩
      | none =>
        -- The run stays open, behind the keys that are left.
        have hturn : borrowedTurn resolve w block = w := by
          simp only [borrowedTurn, hr, hc, if_true]
        have hskip : resolved resolve (block :: keys) = resolved resolve keys := by
          simp [resolved, hr]
        rw [hturn, hskip]
        exact ih hsorted ⟨hw.idle, fun hs k hk => hw.next hs k (by simp [hk])⟩
    · have hbreak : ¬ (w.runStart.isSome ∧ block = w.runNext) := by
        rintro ⟨hs, hb⟩
        exact hc (by simp [continues, hs, hb])
      have hempty := writeRun_run hw.idle
      cases hr : resolve block with
      | some bytes =>
        have hturn : borrowedTurn resolve w block =
            { w.writeRun with
              runStart := some block
              run := bytes
              runNext := u64SaturatingAdd block 1
              flushed := w.flushed + 1 } := by
          simp [borrowedTurn, hr, hc, hempty, writeRun_flushed]
        have hrest := @ih hsorted (borrowedTurn resolve w block) (by
          rw [hturn]
          exact ⟨fun hn => absurd hn (by simp), fun _ => hnext⟩)
        rw [hturn] at hrest ⊢
        dsimp only at hrest
        have hcons : resolved resolve (block :: keys) = (block, bytes) :: resolved resolve keys := by
          simp [resolved, hr]
        rw [hcons, flushRuns, if_neg hbreak, hrest.1, hrest.2, List.length_cons,
          writeRun_written, List.append_assoc]
        exact ⟨rfl, by omega⟩
      | none =>
        have hturn : borrowedTurn resolve w block = w.writeRun := by
          have hnone := writeRun_runStart w
          simp only [borrowedTurn, hr, hc]
          rw [← hnone]
          rfl
        have hskip : resolved resolve (block :: keys) = resolved resolve keys := by
          simp [resolved, hr]
        have hrest := @ih hsorted w.writeRun
          ⟨fun _ => hempty, fun hs => by rw [writeRun_runStart] at hs; cases hs⟩
        rw [hturn, hskip, hrest.1, hrest.2, writeRun_written, writeRun_runStart, writeRun_flushed,
          flushRuns_idle, List.append_assoc]
        refine ⟨congrArg _ ?_, rfl⟩
        cases hs : w.runStart with
        | none => rw [flushRuns_idle _ w.runNext]; rfl
        | some start =>
          -- The skipped key is past the run, so no later key continues it.
          refine (flushRuns_break (fun p hp => ?_) start w.run).symm
          have hle := hw.next (by rw [hs]; rfl) block (by simp)
          have hne : block ≠ w.runNext := fun hb => hbreak ⟨by rw [hs]; rfl, hb⟩
          have hlt := hfirst p.1 (mem_resolved.mp hp).1
          omega

/-! ## The gathered runs -/

def flat (w : RunWalk (List Bytes)) : RunWalk Bytes :=
  ⟨w.runStart, w.runNext, w.run.flatten, w.flushed, w.written.map fun r => (r.1, r.2.flatten)⟩

def OpenRun (w : RunWalk (List Bytes)) : Prop := w.runStart = none ↔ w.run = []

variable {w : RunWalk (List Bytes)}

theorem writeRunVectored_flat (h : w.OpenRun) : w.writeRunVectored.flat = w.flat.writeRun := by
  unfold writeRunVectored writeRun flat
  cases hs : w.runStart with
  | none => simp [h.mp hs]
  | some start =>
    have hne : w.run ≠ [] := fun hn => by simp [h.mpr hn] at hs
    simp [hne]

theorem vectoredTurn_flat (chunk : Nat → Option Bytes) (h : w.OpenRun) (block : Nat) :
    (vectoredTurn chunk w block).flat = borrowedTurn chunk w.flat block ∧
      (vectoredTurn chunk w block).OpenRun := by
  have hflat := writeRunVectored_flat h
  have hcont : w.flat.continues block = w.continues block := rfl
  unfold vectoredTurn borrowedTurn
  simp only [hcont]
  by_cases hc : w.continues block = true
  · have hsome : w.runStart ≠ none := fun hn => by simp [continues, hn] at hc
    cases chunk block with
    | none => simpa [hc] using h
    | some bytes => simp [hc, flat, OpenRun, hsome]
  · rw [if_neg hc, if_neg hc, ← hflat]
    cases chunk block with
    | none => simp [hc, OpenRun, flat, writeRunVectored]
    | some bytes => simp [hc, OpenRun, flat, writeRunVectored]

theorem foldl_vectoredTurn_flat (chunk : Nat → Option Bytes) (keys : List Nat) (h : w.OpenRun) :
    (keys.foldl (vectoredTurn chunk) w).flat = keys.foldl (borrowedTurn chunk) w.flat ∧
      (keys.foldl (vectoredTurn chunk) w).OpenRun := by
  induction keys generalizing w with
  | nil => exact ⟨rfl, h⟩
  | cons block keys ih =>
    obtain ⟨hflat, hopen⟩ := vectoredTurn_flat chunk h block
    rw [List.foldl_cons, List.foldl_cons, ← hflat]
    exact ih hopen

theorem borrowed_spec (resolve : Nat → Option Bytes) (hsorted : keys.Pairwise (· < ·)) :
    let w := keys.foldl (borrowedTurn resolve) ⟨none, 0, [], 0, []⟩
    w.writeRun.written = flushRuns (resolved resolve keys) none 0 [] ∧
      w.flushed = (resolved resolve keys).length := by
  have hstart : Ahead ⟨none, 0, [], 0, []⟩ keys := ⟨fun _ => rfl, fun hs => by cases hs⟩
  simpa using foldl_borrowedTurn resolve hsorted hstart

theorem vectored_spec (chunk : Nat → Option Bytes) (hsorted : keys.Pairwise (· < ·)) :
    let w := keys.foldl (vectoredTurn chunk) ⟨none, 0, [], 0, []⟩
    (w.writeRunVectored.written.map fun r => (r.1, BaseDevice.gather r.2)) =
        flushRuns (resolved chunk keys) none 0 [] ∧
      w.flushed = (resolved chunk keys).length := by
  intro w
  have hstart : OpenRun ⟨none, 0, [], 0, []⟩ := ⟨fun _ => rfl, fun _ => rfl⟩
  obtain ⟨hflat, hopen⟩ := foldl_vectoredTurn_flat chunk keys hstart
  obtain ⟨hwritten, hflushed⟩ := borrowed_spec chunk hsorted
  have hgather : (w.writeRunVectored.written.map fun r => (r.1, BaseDevice.gather r.2)) =
      w.flat.writeRun.written := by
    rw [← writeRunVectored_flat hopen]
    simp only [BaseDevice.gather_eq]
    rfl
  exact ⟨by rw [hgather, hflat]; exact hwritten, (congrArg flushed hflat).trans hflushed⟩

end RunWalk

/-! ## One block at a time -/

/-- The changed blocks by number, each with its newest version. -/
structure Image (newest : Nat → Option (Nat × Bytes)) (cursor high : Nat)
    (ws : List (Nat × Bytes)) : Prop where
  sorted : ws.Pairwise fun a b => a.1 < b.1
  mem : ∀ b bytes, (b, bytes) ∈ ws ↔ ∃ c, newest b = some (c, bytes) ∧ cursor < c ∧ c ≤ high

theorem Image.unique {newest : Nat → Option (Nat × Bytes)} {cursor high : Nat}
    {ws ws' : List (Nat × Bytes)} (h : Image newest cursor high ws)
    (h' : Image newest cursor high ws') : ws = ws' :=
  OrdMap.sorted_ext h.sorted h'.sorted fun e => (h.mem e.1 e.2).trans (h'.mem e.1 e.2).symm

def BaseDevice.flushImage (d : BaseDevice) (ws : List (Nat × Bytes)) (cursor high : Nat)
    (fault : Option Nat) : BaseDevice × Except DeviceError (Nat × Nat) :=
  if high ≤ cursor then (d, .ok (0, high))
  else d.writeRuns (flushRuns ws none 0 []) ws.length high fault

/-- The device is as if the blocks of the image were written one at a time, and the report
counts them. A device that lacks one of the blocks refuses its run. -/
def WritesImage (d : BaseDevice) (newest : Nat → Option (Nat × Bytes)) (cursor high : Nat)
    (out : BaseDevice × Except DeviceError (Nat × Nat)) : Prop :=
  ∃ ws, Image newest cursor high ws ∧
    ((∀ p ∈ ws, p.1 < d.blockCount) →
      out = (ws.foldl BaseDevice.writeBlock d, .ok (ws.length, high))) ∧
    ((∃ p ∈ ws, d.blockCount ≤ p.1) → ∃ e, out.2 = .error e)

theorem Image.writesImage {d : BaseDevice} (hsize : 0 < d.blockSize)
    (hcount : d.blockCount ≤ u64Max) {newest : Nat → Option (Nat × Bytes)} {cursor high : Nat}
    {ws : List (Nat × Bytes)} (h : Image newest cursor high ws)
    (hlen : ∀ p ∈ ws, p.2.length = d.blockSize) :
    WritesImage d newest cursor high (d.flushImage ws cursor high none) := by
  have hcut := flushRuns_cutInto h.sorted
  have hacc := hcut.accepted hsize hcount hlen
  refine ⟨ws, h, ?_⟩
  unfold BaseDevice.flushImage
  split_ifs with hle
  · -- The cursor is not below any version.
    have hnil : ws = [] := by
      refine List.eq_nil_iff_forall_not_mem.mpr fun p hp => ?_
      obtain ⟨c, -, hlt, hch⟩ := (h.mem p.1 p.2).mp hp
      omega
    subst hnil
    simp
  · unfold BaseDevice.writeRuns
    constructor
    · intro hon
      have hnone := hacc.mpr hon
      simp only [hnone, (hcut.plannedWrites hlen).2 hnone]
    · rintro ⟨p, hp, hoff⟩
      cases herr : (d.plannedWrites (flushRuns ws none 0 [])).2 with
      | none => exact absurd (hacc.mp herr p hp) (Nat.not_lt.mpr hoff)
      | some e => exact ⟨e, by simp only [herr]⟩

end FrankenFs.Mvcc
