import FrankenFs.Lib.Outcome
import FrankenFs.Lib.Wire
import Mathlib.Algebra.Group.Nat.Defs
import Mathlib.Data.List.Basic

/-!
# Reads through the intent log

`recovery::read` of `ffs-zfs` reads a window of a file as the pending edits of the intent log leave
it. The program keeps a log of the ranges it asked the base reader for. Left out are the checkpoints
of `Cx`, the object numbers of the edits, and the failures of the two calls of `try_reserve_exact`,
which say that memory has run out.
-/

open FrankenFs.Lib

namespace FrankenFs.Zfs

inductive Edit where
  | write (offset : Nat) (data : Bytes)
  /-- A whole block, of which the file shows the bytes up to `stop`. -/
  | indirect (offset : Nat) (data : Bytes) (stop : Nat)
  | truncate (size : Nat)
  | free (offset stop : Nat)
deriving DecidableEq, Repr

def Edit.sizeAfter (size : Nat) : Edit → Nat
  | write offset data => max size (offset + data.length)
  | indirect _ _ stop => max size stop
  | truncate size => size
  | free _ stop => max size stop

inductive RecoveryError (E : Type) where
  | unsupported (message : String)
  | corrupt (message : String)
  | base (e : E)
deriving DecidableEq

def maxReadBytes : Nat := 16 * 1024 * 1024
def maxRecoveryWorkBytes : Nat := 128 * 1024 * 1024
def maxBaseReads : Nat := 4096

/-! ## The window -/

/-- The part of `[first, last)` inside a window of `size` bytes, counted from its start. -/
def overlap (start size first last : Nat) : Nat × Nat :=
  let left := min (first - start) size
  let right := min (last - start) size
  (left, max right left)

def fillRange {α : Type} (range : Nat × Nat) (value : α) (cells : List α) : List α :=
  cells.mapIdx fun i cell => if range.1 ≤ i ∧ i < range.2 then value else cell

section Passes

variable {E : Type}

def chargeRecovery (remaining bytes : Nat) : Except (RecoveryError E) Nat := do
  failIf (remaining < bytes)
    (.unsupported "ZIL recovered range exceeds 128 MiB of cumulative copy/zero work")
  return remaining - bytes

structure Staging where
  bytes : Bytes
  size : Nat
  remaining : Nat

def Staging.zero (s : Staging) (range : Nat × Nat) : Except (RecoveryError E) Staging := do
  let remaining ← chargeRecovery s.remaining (range.2 - range.1)
  return { s with bytes := fillRange range 0 s.bytes, remaining := remaining }

def Staging.zeroGap (s : Staging) (start offset : Nat) : Except (RecoveryError E) Staging :=
  if s.size < offset then s.zero (overlap start s.bytes.length s.size offset) else .ok s

def Staging.copy (s : Staging) (start offset : Nat) (data : Bytes) :
    Except (RecoveryError E) Staging :=
  let range := overlap start s.bytes.length offset (offset + data.length)
  if range.1 = range.2 then .ok s
  else do
    let remaining ← chargeRecovery s.remaining (range.2 - range.1)
    let within := start + range.1 - offset
    let part := (data.drop within).take (range.2 - range.1)
    return { s with bytes := overwrite range.1 part s.bytes, remaining := remaining }

def Staging.put (s : Staging) (start offset : Nat) (data : Bytes) :
    Except (RecoveryError E) Staging := do
  let s ← s.zeroGap start offset
  s.copy start offset data

def Staging.change (start : Nat) (s : Staging) : Edit → Except (RecoveryError E) Staging
  | .write offset data => s.put start offset data
  | .indirect offset data _ => s.put start offset data
  | .truncate next =>
    s.zero (if next < s.size then overlap start s.bytes.length next (2 ^ 64 - 1)
      else overlap start s.bytes.length s.size next)
  | .free offset stop => s.zero (overlap start s.bytes.length (min s.size offset) stop)

def Staging.edit (start : Nat) (s : Staging) (edit : Edit) : Except (RecoveryError E) Staging := do
  let changed ← s.change start edit
  return { changed with size := edit.sizeAfter s.size }

def apply (start : Nat) (bytes : Bytes) (size : Nat) (edits : List Edit) :
    Except (RecoveryError E) Bytes := do
  let s ← edits.foldlM (Staging.edit start) ⟨bytes, size, maxRecoveryWorkBytes⟩
  return s.bytes

structure Marking where
  needed : List Bool
  size : Nat
  remaining : Nat

def changedRange (start length size : Nat) : Edit → Nat × Nat
  | .write offset data => overlap start length offset (offset + data.length)
  | .indirect offset data _ => overlap start length offset (offset + data.length)
  | .truncate next =>
    if next < size then overlap start length next (2 ^ 64 - 1) else overlap start length size next
  | .free offset stop => overlap start length (min size offset) stop

def Marking.edit (start length : Nat) (s : Marking) (edit : Edit) :
    Except (RecoveryError E) Marking := do
  let changed := changedRange start length s.size edit
  let remaining ← chargeRecovery s.remaining (changed.2 - changed.1)
  return ⟨fillRange changed false s.needed, edit.sizeAfter s.size, remaining⟩

def markNeeded (originalSize start length : Nat) (edits : List Edit) :
    Except (RecoveryError E) (List Bool) := do
  let oldLength := min (originalSize - start) length
  let s ← edits.foldlM (Marking.edit start length)
    ⟨fillRange (0, oldLength) true (List.replicate length false), originalSize,
      maxRecoveryWorkBytes⟩
  return s.needed

end Passes

/-! ## The read -/

/-- The loop that collects the runs of needed bytes. A round passes one byte or more, so as many
rounds as there are bytes are enough. -/
def survivingSpans (needed : List Bool) : (rounds cursor : Nat) → List (Nat × Nat)
  | 0, _ => []
  | rounds + 1, cursor =>
    if cursor < needed.length then
      let first := cursor + ((needed.drop cursor).takeWhile (! ·)).length
      if first = needed.length then []
      else
        let stop := first + ((needed.drop first).takeWhile id).length
        (first, stop) :: survivingSpans needed rounds stop
    else []

section Read

variable {E : Type} (base : Nat → Nat → Except E Bytes)

abbrev Recovery (E : Type) := EStateM (RecoveryError E) (List (Nat × Nat))

/-- The base reader, and the range in the log of what it was asked for. -/
def askBaseReader (first count : Nat) : Recovery E Bytes := fun asked =>
  match base first count with
  | .ok old => .ok old (asked ++ [(first, count)])
  | .error e => .error (.base e) (asked ++ [(first, count)])

def fetchSpans (start : Nat) : List (Nat × Nat) → Bytes → Recovery E Bytes
  | [], bytes => pure bytes
  | span :: spans, bytes => do
    let old ← askBaseReader base (start + span.1) (span.2 - span.1)
    MonadExcept.ofExcept (failIf (old.length ≠ span.2 - span.1)
      (.corrupt "ZIL surviving base range returned a short read"))
    fetchSpans start spans (overwrite span.1 old bytes)

/-- Everything before the first read of old data. -/
def planRead (originalSize start length : Nat) (edits : List Edit) :
    Except (RecoveryError E) (Bytes × List (Nat × Nat)) := do
  failIf (maxReadBytes < length) (.unsupported "ZIL recovered range exceeds 16 MiB")
  failIf (2 ^ 64 ≤ start + length)
    (.corrupt "ZIL recovered range overflows its address space")
  let bytes ← apply start (List.replicate length 0) originalSize edits
  let needed ← markNeeded originalSize start length edits
  let spans := survivingSpans needed length 0
  failIf (maxBaseReads < spans.length)
    (.unsupported "ZIL recovery exceeds 4096 surviving base ranges")
  return (bytes, spans)

def readRecovered (originalSize start length : Nat) (edits : List Edit) : Recovery E Bytes := do
  let plan ← MonadExcept.ofExcept (planRead originalSize start length edits)
  fetchSpans base start plan.2 plan.1

end Read

/-! ## The file the edits make -/

/-- A file with cells of any kind. Only the cells below its size are its own. -/
structure FileOf (α : Type) where
  size : Nat
  cell : Nat → α

namespace FileOf

variable {α β : Type} (byte : BitVec 8 → α)

def grow (f : FileOf α) (size : Nat) : FileOf α :=
  ⟨max f.size size, fun p => if p < f.size then f.cell p else byte 0⟩

def put (f : FileOf α) (offset : Nat) (data : Bytes) : FileOf α :=
  ⟨f.size, fun p =>
    if offset ≤ p ∧ p < offset + data.length then byte (data.getD (p - offset) 0) else f.cell p⟩

def cut (f : FileOf α) (size : Nat) : FileOf α := ⟨size, f.cell⟩

def edit (f : FileOf α) : Edit → FileOf α
  | .write offset data => (f.grow byte (offset + data.length)).put byte offset data
  | .indirect offset data stop =>
    ((f.grow byte (offset + data.length)).put byte offset data).cut (max f.size stop)
  | .truncate size => (f.grow byte size).cut size
  | .free offset stop =>
    (f.grow byte stop).put byte offset (List.replicate (stop - offset) 0)

def edits (f : FileOf α) (es : List Edit) : FileOf α := es.foldl (edit byte) f

def map (g : α → β) (f : FileOf α) : FileOf β := ⟨f.size, g ∘ f.cell⟩

theorem map_edit (g : α → β) (f : FileOf α) (e : Edit) :
    (f.edit byte e).map g = (f.map g).edit (g ∘ byte) e := by
  cases e
  all_goals
    simp only [edit, map, grow, put, cut, FileOf.mk.injEq, true_and]
    funext p
    simp only [Function.comp_apply, apply_ite g]
    rfl

theorem map_edits (g : α → β) (f : FileOf α) (es : List Edit) :
    (f.edits byte es).map g = (f.map g).edits (g ∘ byte) es := by
  induction es generalizing f with
  | nil => rfl
  | cons e es ih =>
    show ((f.edit byte e).edits byte es).map g = ((f.map g).edit (g ∘ byte) e).edits (g ∘ byte) es
    rw [ih, map_edit]

end FileOf

/-- Where a cell is from: the original file, or an edit. -/
inductive Origin where
  | old (position : Nat)
  | new (byte : BitVec 8)
deriving DecidableEq

def Edit.Valid : Edit → Prop
  | write offset data => offset + data.length < 2 ^ 63
  | indirect offset data stop => offset + data.length < 2 ^ 63 ∧ stop ≤ offset + data.length
  | truncate size => size < 2 ^ 63
  | free offset stop => offset ≤ stop ∧ stop < 2 ^ 63

/-! ## One edit of the file -/

/-- The positions an edit writes, zeroes or cuts off in a file of `size` bytes, apart from the
gap before a write behind its end. -/
def Edit.Changes (size : Nat) (p : Nat) : Edit → Prop
  | write offset data => offset ≤ p ∧ p < offset + data.length
  | indirect offset data _ => offset ≤ p ∧ p < offset + data.length
  | truncate next => if next < size then next ≤ p else size ≤ p ∧ p < next
  | free offset stop => min size offset ≤ p ∧ p < stop

namespace FileOf

variable {α : Type} {byte : BitVec 8 → α} {f : FileOf α} {e : Edit} {p : Nat}

theorem size_edit : (f.edit byte e).size = e.sizeAfter f.size := by
  cases e <;> rfl

theorem cell_edit_of_unchanged (hp : p < f.size) (h : ¬ e.Changes f.size p) :
    p < (f.edit byte e).size ∧ (f.edit byte e).cell p = f.cell p := by
  rw [size_edit]
  cases e with
  | write offset data =>
    exact ⟨lt_of_lt_of_le hp (le_max_left _ _), (if_neg h).trans (if_pos hp)⟩
  | indirect offset data stop =>
    exact ⟨lt_of_lt_of_le hp (le_max_left _ _), (if_neg h).trans (if_pos hp)⟩
  | truncate next =>
    refine ⟨?_, if_pos hp⟩
    simp only [Edit.Changes, Edit.sizeAfter] at h ⊢
    split_ifs at h <;> omega
  | free offset stop =>
    refine ⟨lt_of_lt_of_le hp (le_max_left _ _), (if_neg ?_).trans (if_pos hp)⟩
    simp only [Edit.Changes, List.length_replicate] at h ⊢
    omega

theorem cell_edit (hp : p < (f.edit byte e).size) :
    (¬ e.Changes f.size p ∧ p < f.size) ∨ ∃ b, (f.edit byte e).cell p = byte b := by
  by_cases hkept : ¬ e.Changes f.size p ∧ p < f.size
  · exact .inl hkept
  refine .inr ?_
  rw [size_edit] at hp
  cases e with
  | write offset data =>
    simp only [Edit.Changes] at hkept
    by_cases hin : offset ≤ p ∧ p < offset + data.length
    · exact ⟨_, if_pos hin⟩
    · exact ⟨0, (if_neg hin).trans (if_neg fun hlt => hkept ⟨hin, hlt⟩)⟩
  | indirect offset data stop =>
    simp only [Edit.Changes] at hkept
    by_cases hin : offset ≤ p ∧ p < offset + data.length
    · exact ⟨_, if_pos hin⟩
    · exact ⟨0, (if_neg hin).trans (if_neg fun hlt => hkept ⟨hin, hlt⟩)⟩
  | truncate next =>
    simp only [Edit.Changes, Edit.sizeAfter] at hkept hp
    refine ⟨0, if_neg fun hlt => hkept ⟨?_, hlt⟩⟩
    split_ifs <;> omega
  | free offset stop =>
    simp only [Edit.Changes] at hkept
    by_cases hin : offset ≤ p ∧ p < offset + (List.replicate (stop - offset) (0 : BitVec 8)).length
    · exact ⟨_, if_pos hin⟩
    · refine ⟨0, (if_neg hin).trans (if_neg fun hlt => hkept ⟨?_, hlt⟩)⟩
      rw [List.length_replicate] at hin
      omega

end FileOf

/-! ## The two passes -/

variable {i : Nat}

theorem mem_overlap {start size first last : Nat} (hi : i < size) :
    (overlap start size first last).1 ≤ i ∧ i < (overlap start size first last).2 ↔
      first ≤ start + i ∧ start + i < last := by
  simp only [overlap]
  omega

theorem getElem?_fillRange {α : Type} {range : Nat × Nat} {value : α} {cells : List α}
    (hi : i < cells.length) :
    (fillRange range value cells)[i]? =
      if range.1 ≤ i ∧ i < range.2 then some value else cells[i]? := by
  rw [fillRange, List.getElem?_mapIdx, List.getElem?_eq_getElem hi, Option.map_some]
  split_ifs <;> rfl

theorem length_fillRange {α : Type} (range : Nat × Nat) (value : α) (cells : List α) :
    (fillRange range value cells).length = cells.length := List.length_mapIdx

theorem mem_changedRange {start length size : Nat} {e : Edit} (hi : i < length)
    (hwindow : start + length < 2 ^ 64) :
    (changedRange start length size e).1 ≤ i ∧ i < (changedRange start length size e).2 ↔
      e.Changes size (start + i) := by
  cases e with
  | write offset data => exact mem_overlap hi
  | indirect offset data stop => exact mem_overlap hi
  | truncate next =>
    simp only [changedRange, Edit.Changes]
    split_ifs
    · rw [mem_overlap hi]
      omega
    · exact mem_overlap hi
  | free offset stop => exact mem_overlap hi

structure Marks (start length : Nat) (needed : List Bool) (f : FileOf Origin) : Prop where
  length_eq : needed.length = length
  needed_iff : ∀ {i}, i < length →
    (needed[i]? = some true ↔ start + i < f.size ∧ ∃ q, f.cell (start + i) = .old q)

theorem Marking.edit_marks {E : Type} {start length : Nat} {s s' : Marking} {f : FileOf Origin}
    {e : Edit} (h : Marks start length s.needed f) (hsize : s.size = f.size)
    (hwindow : start + length < 2 ^ 64)
    (hok : (s.edit start length e : Except (RecoveryError E) Marking) = .ok s') :
    Marks start length s'.needed (f.edit .new e) ∧ s'.size = (f.edit .new e).size := by
  unfold Marking.edit at hok
  obtain ⟨remaining, -, hok⟩ := bind_ok.mp hok
  obtain rfl := Except.ok.inj hok
  refine ⟨⟨(length_fillRange _ _ _).trans h.length_eq, fun {i} hi => ?_⟩, ?_⟩
  · rw [getElem?_fillRange (by rw [h.length_eq]; exact hi)]
    have hchanges : (changedRange start length s.size e).1 ≤ i ∧
        i < (changedRange start length s.size e).2 ↔ e.Changes f.size (start + i) := by
      rw [← hsize]
      exact mem_changedRange hi hwindow
    split_ifs with hin
    · refine iff_of_false (fun hfalse => (by cases hfalse)) ?_
      rintro ⟨hlt, q, hq⟩
      rcases FileOf.cell_edit hlt with ⟨hkept, -⟩ | ⟨b, hb⟩
      · exact absurd (hchanges.mp hin) hkept
      · cases hb.symm.trans hq
    · have hkept := mt hchanges.mpr hin
      rw [h.needed_iff hi]
      constructor
      · rintro ⟨hlt, q, hq⟩
        obtain ⟨hlt', hcell⟩ := FileOf.cell_edit_of_unchanged hlt hkept
        exact ⟨hlt', q, hcell.trans hq⟩
      · rintro ⟨hlt', q, hq⟩
        rcases FileOf.cell_edit hlt' with ⟨-, hlt⟩ | ⟨b, hb⟩
        · obtain ⟨-, hcell⟩ := FileOf.cell_edit_of_unchanged hlt hkept
          exact ⟨hlt, q, hcell.symm.trans hq⟩
        · cases hb.symm.trans hq
  · rw [FileOf.size_edit, ← hsize]

structure Stages (start length : Nat) (bytes : Bytes) (f : FileOf Origin) : Prop where
  length_eq : bytes.length = length
  staged : ∀ {i b}, i < length → start + i < f.size → f.cell (start + i) = .new b →
    bytes[i]? = some b

section Staging

variable {E : Type} {start length : Nat} {s s' : Staging}

theorem Staging.zero_ok {range : Nat × Nat}
    (hok : (s.zero range : Except (RecoveryError E) Staging) = .ok s') :
    s'.bytes = fillRange range 0 s.bytes ∧ s'.size = s.size := by
  unfold Staging.zero at hok
  obtain ⟨remaining, -, hok⟩ := bind_ok.mp hok
  obtain rfl := Except.ok.inj hok
  exact ⟨rfl, rfl⟩

variable {offset : Nat}

theorem Staging.zeroGap_ok
    (hok : (s.zeroGap start offset : Except (RecoveryError E) Staging) = .ok s') :
    s'.bytes.length = s.bytes.length ∧ s'.size = s.size ∧ ∀ i, i < s.bytes.length →
      s'.bytes[i]? = if s.size ≤ start + i ∧ start + i < offset then some 0 else s.bytes[i]? := by
  unfold Staging.zeroGap at hok
  split_ifs at hok with hgap
  · obtain ⟨hbytes, hsize⟩ := Staging.zero_ok hok
    rw [hbytes]
    refine ⟨length_fillRange _ _ _, hsize, fun i hi => ?_⟩
    simp only [getElem?_fillRange hi, mem_overlap hi]
  · obtain rfl := Except.ok.inj hok
    exact ⟨rfl, rfl, fun i hi => (if_neg (by omega)).symm⟩

variable {data : Bytes}

theorem Staging.copy_ok
    (hok : (s.copy start offset data : Except (RecoveryError E) Staging) = .ok s') :
    s'.bytes.length = s.bytes.length ∧ s'.size = s.size ∧ ∀ i, i < s.bytes.length →
      s'.bytes[i]? = if offset ≤ start + i ∧ start + i < offset + data.length
        then data[start + i - offset]? else s.bytes[i]? := by
  unfold Staging.copy at hok
  dsimp only at hok
  split_ifs at hok with hempty
  · obtain rfl := Except.ok.inj hok
    refine ⟨rfl, rfl, fun i hi => ?_⟩
    have hnone : ¬ (offset ≤ start + i ∧ start + i < offset + data.length) := by
      rw [← mem_overlap hi]
      omega
    exact (if_neg hnone).symm
  · obtain ⟨remaining, -, hok⟩ := bind_ok.mp hok
    obtain rfl := Except.ok.inj hok
    -- the part of the data that goes into the window begins at the later of the two starts
    have hbounds : offset ≤ start + (overlap start s.bytes.length offset (offset + data.length)).1 ∧
        start + (overlap start s.bytes.length offset (offset + data.length)).2 ≤
          offset + data.length ∧
        (overlap start s.bytes.length offset (offset + data.length)).2 ≤ s.bytes.length ∧
        (overlap start s.bytes.length offset (offset + data.length)).1 ≤
          (overlap start s.bytes.length offset (offset + data.length)).2 := by
      simp only [overlap] at hempty ⊢
      omega
    have hmem : ∀ {i}, i < s.bytes.length →
        ((overlap start s.bytes.length offset (offset + data.length)).1 ≤ i ∧
          i < (overlap start s.bytes.length offset (offset + data.length)).2 ↔
          offset ≤ start + i ∧ start + i < offset + data.length) := fun hi => mem_overlap hi
    generalize overlap start s.bytes.length offset (offset + data.length) = range at *
    obtain ⟨hstart, hstop, hsize, hle⟩ := hbounds
    have hpart : ((data.drop (start + range.1 - offset)).take (range.2 - range.1)).length =
        range.2 - range.1 := by
      rw [List.length_take, List.length_drop]
      omega
    have hfit : range.1 + ((data.drop (start + range.1 - offset)).take
        (range.2 - range.1)).length ≤ s.bytes.length := by omega
    refine ⟨length_overwrite hfit, rfl, fun i hi => ?_⟩
    rw [getElem?_overwrite hfit, hpart, show range.1 + (range.2 - range.1) = range.2 by omega]
    simp only [hmem hi]
    split_ifs with hin
    · rw [List.getElem?_take, if_pos (by have := (hmem hi).mpr hin; omega), List.getElem?_drop]
      congr 1
      have := (hmem hi).mpr hin
      omega
    · rfl

theorem Staging.put_ok (hok : (s.put start offset data : Except (RecoveryError E) Staging) = .ok s')
    :
    s'.bytes.length = s.bytes.length ∧ ∀ i, i < s.bytes.length →
      s'.bytes[i]? = if offset ≤ start + i ∧ start + i < offset + data.length
        then data[start + i - offset]?
        else if s.size ≤ start + i ∧ start + i < offset then some 0 else s.bytes[i]? := by
  obtain ⟨mid, hgap, hcopy⟩ := bind_ok.mp hok
  obtain ⟨hlen, -, hgap⟩ := Staging.zeroGap_ok hgap
  obtain ⟨hlen', -, hcopy⟩ := Staging.copy_ok hcopy
  refine ⟨hlen'.trans hlen, fun i hi => ?_⟩
  rw [hcopy i (hlen ▸ hi), hgap i hi]

theorem Staging.put_stages {limit : Nat} {f : FileOf Origin} (h : Stages start length s.bytes f)
    (hsize : s.size = f.size) (hlimit : limit ≤ max f.size (offset + data.length))
    (hok : (s.put start offset data : Except (RecoveryError E) Staging) = .ok s') :
    Stages start length s'.bytes
      (((f.grow .new (offset + data.length)).put .new offset data).cut limit) := by
  obtain ⟨hlen, hbytes⟩ := Staging.put_ok hok
  rw [hsize] at hbytes
  refine ⟨hlen.trans h.length_eq, fun {i b} hi hlt hcell => ?_⟩
  rw [hbytes i (by rw [h.length_eq]; exact hi)]
  have hlt' := lt_of_lt_of_le hlt hlimit
  simp only [FileOf.cut, FileOf.put, FileOf.grow] at hcell
  by_cases hin : offset ≤ start + i ∧ start + i < offset + data.length
  · rw [if_pos hin] at hcell ⊢
    rw [← Origin.new.inj hcell, List.getD_eq_getElem?_getD,
      List.getElem?_eq_getElem (show start + i - offset < data.length by omega)]
    rfl
  · rw [if_neg hin] at hcell ⊢
    split_ifs at hcell ⊢ with hgap hold hold
    · omega
    · rw [← Origin.new.inj hcell]
    · exact h.staged hi hold hcell
    · omega

theorem Staging.zero_stages {f g : FileOf Origin} {e : Edit} (h : Stages start length s.bytes f)
    (hwindow : start + length < 2 ^ 64)
    (hcell : ∀ {p}, p < g.size → e.Changes f.size p → g.cell p = .new 0)
    (hcell' : ∀ {p}, p < g.size → ¬ e.Changes f.size p → p < f.size ∧ g.cell p = f.cell p)
    (hok : (s.zero (changedRange start s.bytes.length f.size e) :
      Except (RecoveryError E) Staging) = .ok s') : Stages start length s'.bytes g := by
  obtain ⟨hbytes, -⟩ := Staging.zero_ok hok
  rw [hbytes, h.length_eq]
  refine ⟨(length_fillRange _ _ _).trans h.length_eq, fun {i b} hi hlt hnew => ?_⟩
  rw [getElem?_fillRange (by rw [h.length_eq]; exact hi)]
  split_ifs with hin
  · have := hcell hlt ((mem_changedRange hi hwindow).mp hin)
    rw [Origin.new.inj (this.symm.trans hnew)]
  · obtain ⟨hold, hsame⟩ := hcell' hlt (mt (mem_changedRange hi hwindow).mpr hin)
    exact h.staged hi hold (hsame.symm.trans hnew)

theorem Staging.edit_stages {f : FileOf Origin} {e : Edit} (h : Stages start length s.bytes f)
    (hsize : s.size = f.size) (hvalid : e.Valid) (hwindow : start + length < 2 ^ 64)
    (hok : (s.edit start e : Except (RecoveryError E) Staging) = .ok s') :
    Stages start length s'.bytes (f.edit .new e) ∧ s'.size = (f.edit .new e).size := by
  obtain ⟨changed, hchanged, hok⟩ := bind_ok.mp hok
  obtain rfl := Except.ok.inj hok
  refine ⟨?_, by rw [FileOf.size_edit, ← hsize]⟩
  show Stages start length changed.bytes _
  cases e with
  | write offset data => exact Staging.put_stages h hsize le_rfl hchanged
  | indirect offset data stop =>
    exact Staging.put_stages h hsize (max_le_max le_rfl hvalid.2) hchanged
  | truncate next =>
    simp only [Staging.change, hsize] at hchanged
    refine Staging.zero_stages (e := .truncate next) h hwindow (fun {p} hp hc => ?_)
      (fun {p} hp hc => ?_) hchanged
    · have hp : p < next := hp
      simp only [Edit.Changes] at hc
      exact if_neg (by split_ifs at hc <;> omega)
    · have hp : p < next := hp
      simp only [Edit.Changes] at hc
      have hold : p < f.size := by split_ifs at hc <;> omega
      exact ⟨hold, if_pos hold⟩
  | free offset stop =>
    simp only [Staging.change, hsize] at hchanged
    have hlen : offset + (List.replicate (stop - offset) (0 : BitVec 8)).length = stop := by
      rw [List.length_replicate]
      exact Nat.add_sub_cancel' hvalid.1
    refine Staging.zero_stages (e := .free offset stop) h hwindow (fun {p} hp hc => ?_)
      (fun {p} hp hc => ?_) hchanged
    · simp only [Edit.Changes] at hc
      simp only [FileOf.edit, FileOf.put, FileOf.grow, hlen]
      split_ifs with hin hold
      · rw [List.getD_eq_getElem?_getD, List.getElem?_replicate, if_pos (by omega)]
        rfl
      · omega
      · rfl
    · have hp : p < max f.size stop := hp
      simp only [Edit.Changes] at hc
      have hold : p < f.size := by omega
      refine ⟨hold, ?_⟩
      simp only [FileOf.edit, FileOf.put, FileOf.grow, hlen]
      rw [if_neg (by omega), if_pos hold]

end Staging

/-! ## The plan -/

section Plan

variable {E : Type} {start length originalSize : Nat} {edits : List Edit}

def originalCells (size : Nat) : FileOf Origin := ⟨size, .old⟩

theorem foldlM_edits {ε σ : Type} {step : σ → Edit → Except ε σ} {I : σ → FileOf Origin → Prop}
    (hstep : ∀ {s s' f e}, e ∈ edits → I s f → step s e = .ok s' → I s' (f.edit .new e))
    {s s' : σ} {f : FileOf Origin} (h : I s f) (hok : edits.foldlM step s = .ok s') :
    I s' (f.edits .new edits) := by
  induction edits generalizing s f with
  | nil =>
    obtain rfl := Except.ok.inj hok
    exact h
  | cons e edits ih =>
    rw [List.foldlM_cons] at hok
    obtain ⟨mid, hmid, hok⟩ := bind_ok.mp hok
    exact ih (fun he => hstep (List.mem_cons_of_mem e he)) (hstep List.mem_cons_self h hmid) hok

theorem apply_stages {bytes : Bytes} (hvalid : ∀ e ∈ edits, e.Valid)
    (hwindow : start + length < 2 ^ 64)
    (hok : (apply start (List.replicate length 0) originalSize edits :
      Except (RecoveryError E) Bytes) = .ok bytes) :
    Stages start length bytes ((originalCells originalSize).edits .new edits) := by
  obtain ⟨s, hs, hok⟩ := bind_ok.mp hok
  obtain rfl := Except.ok.inj hok
  have hstart : Stages start length (List.replicate length 0) (originalCells originalSize) :=
    ⟨List.length_replicate, fun _ _ hnew => (by cases hnew)⟩
  exact (foldlM_edits (I := fun s f => Stages start length s.bytes f ∧ s.size = f.size)
    (fun he h hstep => Staging.edit_stages h.1 h.2 (hvalid _ he) hwindow hstep)
    ⟨hstart, rfl⟩ hs).1

theorem markNeeded_marks {needed : List Bool} (hwindow : start + length < 2 ^ 64)
    (hok : (markNeeded originalSize start length edits :
      Except (RecoveryError E) (List Bool)) = .ok needed) :
    Marks start length needed ((originalCells originalSize).edits .new edits) := by
  obtain ⟨s, hs, hok⟩ := bind_ok.mp hok
  obtain rfl := Except.ok.inj hok
  have hstart : Marks start length (fillRange (0, min (originalSize - start) length) true
      (List.replicate length false)) (originalCells originalSize) := by
    refine ⟨by rw [length_fillRange, List.length_replicate], fun {i} hi => ?_⟩
    rw [getElem?_fillRange (by rwa [List.length_replicate]), List.getElem?_replicate, if_pos hi]
    simp only [originalCells, Origin.old.injEq, exists_eq', and_true]
    split_ifs with hin
    · exact ⟨fun _ => by omega, fun _ => rfl⟩
    · exact ⟨fun hfalse => (by cases hfalse), fun hlt => absurd hlt (by omega)⟩
  exact (foldlM_edits (I := fun s f => Marks start length s.needed f ∧ s.size = f.size)
    (fun _ h hstep => Marking.edit_marks h.1 h.2 hwindow hstep) ⟨hstart, rfl⟩ hs).1

theorem takeWhile_run (p : Bool → Bool) (l : List Bool) :
    (∀ j, j < (l.takeWhile p).length → ∃ v, l[j]? = some v ∧ p v = true) ∧
      ∀ v, l[(l.takeWhile p).length]? = some v → p v = false := by
  induction l with
  | nil => simp
  | cons a l ih =>
    rw [List.takeWhile_cons]
    split_ifs with ha
    · refine ⟨fun j hj => ?_, fun v hv => ih.2 v hv⟩
      cases j with
      | zero => exact ⟨a, rfl, ha⟩
      | succ j => exact ih.1 j (Nat.lt_of_succ_lt_succ hj)
    · refine ⟨fun j hj => absurd hj (Nat.not_lt_zero j), fun v hv => ?_⟩
      cases hv
      exact Bool.eq_false_iff.mpr ha

theorem takeWhile_drop_run (p : Bool → Bool) (needed : List Bool) (first : Nat) :
    (∀ j, first ≤ j → j < first + ((needed.drop first).takeWhile p).length →
      ∃ v, needed[j]? = some v ∧ p v = true) ∧
    ∀ v, needed[first + ((needed.drop first).takeWhile p).length]? = some v → p v = false := by
  obtain ⟨hrun, hstop⟩ := takeWhile_run p (needed.drop first)
  simp only [List.getElem?_drop] at hrun hstop
  refine ⟨fun j hj hlt => ?_, hstop⟩
  have hj' := hrun (j - first) (by omega)
  rwa [show first + (j - first) = j by omega] at hj'

theorem mem_survivingSpans {needed : List Bool} {rounds first i : Nat}
    (hrounds : needed.length ≤ first + rounds) :
    (∃ span ∈ survivingSpans needed rounds first, span.1 ≤ i ∧ i < span.2) ↔
      first ≤ i ∧ needed[i]? = some true := by
  -- no byte of the mask is behind its end
  have hinside : needed[i]? = some true → i < needed.length :=
    fun hneeded => (List.getElem?_eq_some_iff.mp hneeded).1
  induction rounds generalizing first with
  | zero =>
    simp only [survivingSpans, List.not_mem_nil, false_and, exists_false, false_iff, not_and]
    exact fun hi hneeded => absurd (hinside hneeded) (by omega)
  | succ rounds ih =>
    rw [survivingSpans]
    dsimp only
    obtain ⟨hskip, hskip'⟩ := takeWhile_drop_run (! ·) needed first
    have ha := Nat.le_add_right first ((needed.drop first).takeWhile (! ·)).length
    generalize first + ((needed.drop first).takeWhile (! ·)).length = a at hskip hskip' ha ⊢
    obtain ⟨hrun, hrun'⟩ := takeWhile_drop_run id needed a
    have hb := Nat.le_add_right a ((needed.drop a).takeWhile id).length
    generalize a + ((needed.drop a).takeWhile id).length = b at hrun hrun' hb ⊢
    have hunneeded : first ≤ i → i < a → needed[i]? ≠ some true := by
      intro hi hlt hneeded
      obtain ⟨v, hv, hfalse⟩ := hskip i hi hlt
      cases hv.symm.trans hneeded
      cases hfalse
    by_cases hfirst : first < needed.length
    swap
    · rw [if_neg hfirst]
      simp only [List.not_mem_nil, false_and, exists_false, false_iff, not_and]
      exact fun hi hneeded => absurd (hinside hneeded) (by omega)
    rw [if_pos hfirst]
    by_cases hend : a = needed.length
    · rw [if_pos hend]
      simp only [List.not_mem_nil, false_and, exists_false, false_iff, not_and]
      exact fun hi hneeded => hunneeded hi (hend ▸ hinside hneeded) hneeded
    rw [if_neg hend]
    have hlen : a < needed.length := by
      by_contra hge
      obtain ⟨v, hv, -⟩ := hskip (a - 1) (by omega) (by omega)
      have := (List.getElem?_eq_some_iff.mp hv).1
      omega
    have hlt : a < b := by
      refine lt_of_le_of_ne hb fun heq => ?_
      have hsome := List.getElem?_eq_getElem hlen
      have hnot := hskip' _ hsome
      rw [← heq] at hrun'
      have hid := hrun' _ hsome
      simp only [id] at hid
      rw [hid] at hnot
      cases hnot
    simp only [List.mem_cons, exists_eq_or_imp, ih (show needed.length ≤ b + rounds by omega)]
    constructor
    · rintro (hin | hlater)
      · obtain ⟨v, hv, htrue⟩ := hrun i hin.1 hin.2
        exact ⟨by omega, by rw [hv]; exact congrArg some htrue⟩
      · exact ⟨by omega, hlater.2⟩
    · rintro ⟨hi, hneeded⟩
      by_cases hia : i < a
      · exact absurd hneeded (hunneeded hi hia)
      · by_cases hib : i < b
        · exact .inl ⟨by omega, hib⟩
        · exact .inr ⟨by omega, hneeded⟩

end Plan

/-! ## The whole read -/

/-- A byte of the original file that no edit wrote, zeroed or cut off. -/
def Survives (originalSize : Nat) (edits : List Edit) (p : Nat) : Prop :=
  p < originalSize ∧ p < ((originalCells originalSize).edits .new edits).size ∧
    ((originalCells originalSize).edits .new edits).cell p = .old p

/-- Only ranges all of whose positions are in `P`. -/
def AskedOnly (P : Nat → Prop) (asked : List (Nat × Nat)) : Prop :=
  ∀ r ∈ asked, ∀ p, r.1 ≤ p → p < r.1 + r.2 → P p

/-- Inside the original file the base reader returns its bytes, or fewer. -/
def ReadsOriginal {E : Type} (base : Nat → Nat → Except E Bytes) (originalSize : Nat)
    (original : Nat → BitVec 8) : Prop :=
  ∀ {first count old}, first + count ≤ originalSize → base first count = .ok old →
    old.length = count → ∀ i, i < count → old[i]? = some (original (first + i))

def Origin.value (original : Nat → BitVec 8) : Origin → BitVec 8
  | old position => original position
  | new byte => byte

section Read

variable {E : Type} {base : Nat → Nat → Except E Bytes} {start length originalSize : Nat}
  {edits : List Edit} {original : Nat → BitVec 8}

theorem FileOf.old_edits {f : FileOf Origin}
    (h : ∀ {p q}, p < f.size → f.cell p = .old q → q = p ∧ p < originalSize) {p q : Nat}
    (hp : p < (f.edits .new edits).size) (hq : (f.edits .new edits).cell p = .old q) :
    q = p ∧ p < originalSize := by
  induction edits generalizing f with
  | nil => exact h hp hq
  | cons e edits ih =>
    refine ih (fun {p q} hp hq => ?_) hp hq
    rcases FileOf.cell_edit hp with ⟨hkept, hold⟩ | ⟨b, hb⟩
    · have hcell : (f.edit .new e).cell p = f.cell p :=
        (FileOf.cell_edit_of_unchanged hold hkept).2
      exact h hold (hcell.symm.trans hq)
    · cases hb.symm.trans hq

theorem survives_of_old {p q : Nat}
    (hp : p < ((originalCells originalSize).edits .new edits).size)
    (hq : ((originalCells originalSize).edits .new edits).cell p = .old q) :
    q = p ∧ Survives originalSize edits p := by
  obtain ⟨rfl, hold⟩ :=
    FileOf.old_edits (fun hp hq => ⟨(Origin.old.inj hq).symm, hp⟩) hp hq
  exact ⟨rfl, hold, hp, hq⟩

theorem edits_value : FileOf.edits id ⟨originalSize, original⟩ edits =
    ((originalCells originalSize).edits .new edits).map (Origin.value original) :=
  (FileOf.map_edits Origin.new (Origin.value original) (originalCells originalSize) edits).symm

variable {asked : List (Nat × Nat)}

theorem askBaseReader_ensures {first count : Nat} {Q : Bytes → List (Nat × Nat) → Prop}
    {R : RecoveryError E → List (Nat × Nat) → Prop}
    (hok : ∀ old, base first count = .ok old → Q old (asked ++ [(first, count)]))
    (herror : ∀ e, base first count = .error e → R (.base e) (asked ++ [(first, count)])) :
    Ensures (askBaseReader base first count) asked Q R := by
  unfold Ensures askBaseReader
  cases hbase : base first count with
  | ok old => exact hok old hbase
  | error e => exact herror e hbase

theorem AskedOnly.snoc {P : Nat → Prop} {first count : Nat} (h : AskedOnly P asked)
    (hlast : ∀ p, first ≤ p → p < first + count → P p) :
    AskedOnly P (asked ++ [(first, count)]) := by
  intro r hr
  rcases List.mem_append.mp hr with hr | hr
  · exact h r hr
  · obtain rfl := List.mem_singleton.mp hr
    exact hlast

theorem getElem?_overwrite_span {span : Nat × Nat} {bytes old : Bytes}
    (hlen : old.length = span.2 - span.1)
    (hspan : ∀ i, span.1 ≤ i → i < span.2 → i < bytes.length)
    (hold : ∀ i, i < span.2 - span.1 → old[i]? = some (original (start + span.1 + i))) :
    (overwrite span.1 old bytes).length = bytes.length ∧ ∀ i, i < bytes.length →
      (overwrite span.1 old bytes)[i]? =
        if span.1 ≤ i ∧ i < span.2 then some (original (start + i)) else bytes[i]? := by
  by_cases hempty : span.2 ≤ span.1
  · obtain rfl := List.eq_nil_of_length_eq_zero (hlen.trans (Nat.sub_eq_zero_of_le hempty))
    have hsame : overwrite span.1 [] bytes = bytes := by simp [overwrite]
    rw [hsame]
    exact ⟨rfl, fun i _ => (if_neg (by omega)).symm⟩
  · have hlast := hspan (span.2 - 1) (by omega) (by omega)
    have hfit : span.1 + old.length ≤ bytes.length := by omega
    refine ⟨length_overwrite hfit, fun i hi => ?_⟩
    rw [getElem?_overwrite hfit, hlen, show span.1 + (span.2 - span.1) = span.2 by omega]
    split_ifs with hin
    · rw [hold _ (by omega), show start + span.1 + (i - span.1) = start + i by omega]
    · rfl

theorem fetchSpans_ensures {P : Nat → Prop} {spans : List (Nat × Nat)} {bytes : Bytes}
    (hbase : ReadsOriginal base originalSize original) (hP : ∀ {p}, P p → p < originalSize)
    (hasked : AskedOnly P asked)
    (hspans : ∀ span ∈ spans, ∀ i, span.1 ≤ i → i < span.2 → i < bytes.length ∧ P (start + i)) :
    Ensures (fetchSpans base start spans bytes) asked
      (fun out asked' => AskedOnly P asked' ∧ out.length = bytes.length ∧
        ∀ i, i < bytes.length → out[i]? =
          if ∃ span ∈ spans, span.1 ≤ i ∧ i < span.2 then some (original (start + i))
          else bytes[i]?)
      (fun _ asked' => AskedOnly P asked') := by
  induction spans generalizing bytes asked with
  | nil => exact ⟨hasked, rfl, fun i _ => by simp⟩
  | cons span spans ih =>
    have hspan := hspans span List.mem_cons_self
    have hlast : AskedOnly P (asked ++ [(start + span.1, span.2 - span.1)]) := by
      refine hasked.snoc fun p hp hp' => ?_
      have := (hspan (p - start) (by omega) (by omega)).2
      rwa [show start + (p - start) = p by omega] at this
    refine Ensures.bind (askBaseReader_ensures (fun old hread => ?_) fun _ _ => hlast)
      fun old asked' h => h
    refine Ensures.bind (ensures_ofExcept (fun _ hfail => ?_) fun _ _ => hlast)
      fun _ asked' h => h
    have hlen : old.length = span.2 - span.1 := not_not.mp (failIf_ok.mp hfail)
    have hold : ∀ i, i < span.2 - span.1 → old[i]? = some (original (start + span.1 + i)) := by
      refine fun i hi => hbase ?_ hread hlen i hi
      have := hP (hspan (span.2 - 1) (by omega) (by omega)).2
      omega
    obtain ⟨hlen', hbytes⟩ :=
      getElem?_overwrite_span hlen (fun i hi hi' => (hspan i hi hi').1) hold
    refine (ih hlast fun later hlater i hi hi' => ?_).mono (fun out asked' h => ?_)
      fun _ _ h => h
    · rw [hlen']
      exact hspans later (List.mem_cons_of_mem span hlater) i hi hi'
    · obtain ⟨hasked', hout, hcell⟩ := h
      rw [hlen'] at hout hcell
      refine ⟨hasked', hout, fun i hi => ?_⟩
      rw [hcell i hi, hbytes i hi]
      simp only [List.mem_cons, exists_eq_or_imp]
      by_cases hlater : ∃ later ∈ spans, later.1 ≤ i ∧ i < later.2
      · rw [if_pos hlater, if_pos (.inr hlater)]
      · simp only [hlater, if_false, or_false]

theorem planRead_ok {plan : Bytes × List (Nat × Nat)} (hvalid : ∀ e ∈ edits, e.Valid)
    (hok : (planRead originalSize start length edits :
      Except (RecoveryError E) (Bytes × List (Nat × Nat))) = .ok plan) :
    Stages start length plan.1 ((originalCells originalSize).edits .new edits) ∧
      ∀ i, (∃ span ∈ plan.2, span.1 ≤ i ∧ i < span.2) ↔
        i < length ∧ start + i < ((originalCells originalSize).edits .new edits).size ∧
          ∃ q, ((originalCells originalSize).edits .new edits).cell (start + i) = .old q := by
  obtain ⟨_, -, hok⟩ := bind_ok.mp hok
  obtain ⟨_, hfits, hok⟩ := bind_ok.mp hok
  obtain ⟨bytes, hbytes, hok⟩ := bind_ok.mp hok
  obtain ⟨needed, hneeded, hok⟩ := bind_ok.mp hok
  obtain ⟨_, -, hok⟩ := bind_ok.mp hok
  obtain rfl := Except.ok.inj hok
  have hfits : start + length < 2 ^ 64 := not_le.mp (failIf_ok.mp hfits)
  have hmarks := markNeeded_marks hfits hneeded
  refine ⟨apply_stages hvalid hfits hbytes, fun i => ?_⟩
  rw [mem_survivingSpans (by rw [hmarks.length_eq]; omega)]
  constructor
  · rintro ⟨-, htrue⟩
    have hi : i < length := hmarks.length_eq ▸ (List.getElem?_eq_some_iff.mp htrue).1
    exact ⟨hi, (hmarks.needed_iff hi).mp htrue⟩
  · rintro ⟨hi, hold⟩
    exact ⟨Nat.zero_le i, (hmarks.needed_iff hi).mpr hold⟩

/-- **A read through the log returns the window of the file with the edits applied, and asks the
base only for old bytes that no edit wrote, zeroed or cut off.** -/
theorem readRecovered_ensures (hvalid : ∀ e ∈ edits, e.Valid)
    (hbase : ReadsOriginal base originalSize original)
    (hwindow : start + length ≤ (FileOf.edits id ⟨originalSize, original⟩ edits).size) :
    Ensures (readRecovered base originalSize start length edits) []
      (fun bytes asked =>
        bytes = (List.range' start length).map
          (FileOf.edits id ⟨originalSize, original⟩ edits).cell ∧
        AskedOnly (Survives originalSize edits) asked)
      (fun _ asked => AskedOnly (Survives originalSize edits) asked) := by
  have hnone : AskedOnly (Survives originalSize edits) [] := fun r hr => (by cases hr)
  refine Ensures.bind (ensures_ofExcept (fun plan hplan => ?_) fun _ _ => hnone)
    fun _ _ h => h
  obtain ⟨hstages, hspans⟩ := planRead_ok hvalid hplan
  refine (fetchSpans_ensures hbase And.left hnone fun span hspan i hi hi' => ?_).mono
    (fun bytes asked h => ?_) fun _ _ h => h
  · obtain ⟨hlt, hsize, q, hq⟩ := (hspans i).mp ⟨span, hspan, hi, hi'⟩
    rw [hstages.length_eq]
    exact ⟨hlt, (survives_of_old hsize hq).2⟩
  · obtain ⟨hasked, hlen, hbytes⟩ := h
    refine ⟨List.ext_getElem? fun i => ?_, hasked⟩
    rw [edits_value] at hwindow ⊢
    rw [hstages.length_eq] at hlen hbytes
    rw [List.getElem?_map]
    by_cases hi : i < length
    · rw [hbytes i hi, List.getElem?_range' hi, Nat.one_mul]
      have hsize : start + i < ((originalCells originalSize).edits .new edits).size :=
        lt_of_lt_of_le (Nat.add_lt_add_left hi start) hwindow
      show _ = some (Origin.value original _)
      -- a byte of the window is old and read from the base, or new and staged
      cases hcell : ((originalCells originalSize).edits .new edits).cell (start + i) with
      | old q =>
        obtain ⟨rfl, -⟩ := survives_of_old hsize hcell
        exact if_pos ((hspans i).mpr ⟨hi, hsize, _, hcell⟩)
      | new b =>
        rw [if_neg fun hin => ?_]
        · exact hstages.staged hi hsize hcell
        · obtain ⟨-, -, q, hq⟩ := (hspans i).mp hin
          cases hcell.symm.trans hq
    · have hend : (List.range' start length).length ≤ i := by
        rw [List.length_range']
        omega
      rw [List.getElem?_eq_none (by omega), List.getElem?_eq_none hend]
      rfl

end Read

def sampleEdits : List Edit :=
  [.truncate 4, .write 6 [7, 8], .free 3 7, .indirect 8 [1, 2, 3, 4] 10, .truncate 12]

def sampleBase (first count : Nat) : Except Unit Bytes :=
  .ok ((List.range' first count).map fun p => BitVec.ofNat 8 (p + 1))

theorem readRecovered_ensures_sample :
    readRecovered sampleBase 9 1 11 sampleEdits [] =
      .ok [2, 3, 0, 0, 0, 0, 8, 1, 2, 0, 0] [(1, 2)] ∧
    Ensures (readRecovered sampleBase 9 1 11 sampleEdits) []
      (fun bytes asked =>
        bytes = (List.range' 1 11).map
          (FileOf.edits id ⟨9, fun p => BitVec.ofNat 8 (p + 1)⟩ sampleEdits).cell ∧
        AskedOnly (Survives 9 sampleEdits) asked)
      (fun _ asked => AskedOnly (Survives 9 sampleEdits) asked) := by
  refine ⟨rfl, readRecovered_ensures ?_ ?_ (by decide)⟩
  · intro e he
    simp only [sampleEdits, List.mem_cons, List.not_mem_nil, or_false] at he
    rcases he with rfl | rfl | rfl | rfl | rfl <;> simp [Edit.Valid]
  · intro first count old _ hread _ i hi
    obtain rfl := Except.ok.inj hread
    rw [List.getElem?_map, List.getElem?_range' hi, Nat.one_mul]
    rfl

end FrankenFs.Zfs
