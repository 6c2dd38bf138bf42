import FrankenFs.Block.Volume
import Mathlib.Data.List.FinRange

/-!
# Writes of a volume happen one after another

The bytes around those of a call stay as it read them while it has its locks, so the calls take effect
in the order of their writes to the device.
-/

open FrankenFs.Lib

namespace FrankenFs.Block

/-! ## Windows -/

section Window

variable {vol : VolumeDevice} {job : Write}

structure Inside (vol : VolumeDevice) (job : Write) : Prop where
  sector_pos : 0 < vol.logicalSectorSize
  nonempty : job.data ≠ []
  ends : relEnd job ≤ vol.length

variable (h : Inside vol job)

include h in
theorem Inside.data_pos : 0 < job.data.length := List.length_pos_of_ne_nil h.nonempty

include h in
theorem window_bounds :
    windowStart vol job ≤ job.offset ∧
      job.offset < windowStart vol job + vol.logicalSectorSize ∧
      lastSector vol job * vol.logicalSectorSize < relEnd job ∧
      relEnd job ≤ windowEnd vol job ∧ windowEnd vol job ≤ vol.length ∧
      windowEnd vol job ≤ (lastSector vol job + 1) * vol.logicalSectorSize := by
  have hpos := h.data_pos
  have hends := h.ends
  have hfirst := Nat.div_add_mod' job.offset vol.logicalSectorSize
  have hfirst' := Nat.mod_lt job.offset h.sector_pos
  have hlast := Nat.div_add_mod' (relEnd job - 1) vol.logicalSectorSize
  have hlast' := Nat.mod_lt (relEnd job - 1) h.sector_pos
  unfold windowStart windowEnd firstSector lastSector
  rw [Nat.succ_mul]
  unfold relEnd at *
  omega

include h in
theorem sectors_le : firstSector vol job ≤ lastSector vol job := by
  have hpos := h.data_pos
  refine Nat.div_le_div_right ?_
  unfold relEnd
  omega

include h in
theorem stage_bounds :
    windowStart vol job + headPad vol job = job.offset ∧
      headPad vol job < vol.logicalSectorSize ∧
      headPad vol job + job.data.length ≤ windowLen vol job ∧
      windowStart vol job + windowLen vol job = windowEnd vol job ∧
      windowStart vol job + tailOffset vol job = lastSector vol job * vol.logicalSectorSize ∧
      tailOffset vol job < headPad vol job + job.data.length := by
  obtain ⟨hstart, hsector, htail, hend, -, -⟩ := window_bounds h
  have hle := Nat.mul_le_mul_right vol.logicalSectorSize (sectors_le h)
  have hstart' : windowStart vol job = firstSector vol job * vol.logicalSectorSize := rfl
  unfold headPad windowLen tailOffset
  unfold relEnd at *
  omega

end Window

/-! ## Stripes -/

section Stripes

variable {first last : Nat}

theorem stripeIndices_sorted (first last : Nat) :
    (stripeIndicesForSectors first last).Pairwise (· < ·) := by
  unfold stripeIndicesForSectors
  dsimp only
  split_ifs
  · exact List.pairwise_lt_range
  · have hsorted : (((List.range' first (last - first + 1)).map (· % volumeDeviceRmwStripes)).mergeSort
        (· ≤ ·)).Pairwise (· ≤ ·) := by
      have hmerge := @List.pairwise_mergeSort Nat (fun a b => decide (a ≤ b))
        (fun a b c hab hbc => by simp only [decide_eq_true_eq] at *; omega)
        (fun a b => by simp only [Bool.or_eq_true, decide_eq_true_eq]; omega)
        ((List.range' first (last - first + 1)).map (· % volumeDeviceRmwStripes))
      exact hmerge.imp fun h => of_decide_eq_true h
    refine ((hsorted.sublist (List.dedup_sublist _)).and (List.nodup_dedup _)).imp fun hab => ?_
    exact Nat.lt_of_le_of_ne hab.1 hab.2

theorem stripeIndices_lt {k : Nat} (h : k ∈ stripeIndicesForSectors first last) :
    k < volumeDeviceRmwStripes := by
  unfold stripeIndicesForSectors at h
  dsimp only at h
  split_ifs at h
  · exact List.mem_range.mp h
  · rw [List.mem_dedup, List.mem_mergeSort] at h
    obtain ⟨sector, -, rfl⟩ := List.mem_map.mp h
    exact Nat.mod_lt _ (by decide)

theorem mem_stripeIndices {sector : Nat} (hfirst : first ≤ sector) (hlast : sector ≤ last) :
    sector % volumeDeviceRmwStripes ∈ stripeIndicesForSectors first last := by
  unfold stripeIndicesForSectors
  dsimp only
  split_ifs
  · exact List.mem_range.mpr (Nat.mod_lt _ (by decide))
  · rw [List.mem_dedup, List.mem_mergeSort]
    refine List.mem_map.mpr ⟨sector, ?_, rfl⟩
    rw [List.mem_range'_1]
    omega

end Stripes

/-! ## Bytes -/

theorem overwrite_window {pos pad : Nat} {data stage device : Bytes}
    (hfit : pad + data.length ≤ stage.length) (hdevice : pos + stage.length ≤ device.length)
    (hhead : stage.take pad = (device.drop pos).take pad)
    (htail : stage.drop (pad + data.length) =
      (device.drop (pos + pad + data.length)).take (stage.length - (pad + data.length))) :
    overwrite pos (overwrite pad data stage) device = overwrite (pos + pad) data device := by
  have hlength := length_overwrite hfit
  apply List.ext_getElem?
  intro a
  have hback : (overwrite pos (overwrite pad data stage) device)[a]? = _ :=
    getElem?_overwrite (by omega) a
  have hown : (overwrite (pos + pad) data device)[a]? = _ := getElem?_overwrite (by omega) a
  rw [hback, hown, hlength]
  by_cases hin : pos ≤ a ∧ a < pos + stage.length
  · rw [if_pos hin, getElem?_overwrite hfit]
    by_cases hown : pos + pad ≤ a ∧ a < pos + pad + data.length
    · rw [if_pos hown, if_pos (by omega), Nat.sub_sub]
    · rw [if_neg hown, if_neg (by omega)]
      rcases Nat.lt_or_ge (a - pos) pad with hlt | hge
      · have hbyte := congrArg (fun l : Bytes => l[a - pos]?) hhead
        simpa only [List.getElem?_take, if_pos hlt, List.getElem?_drop, Nat.add_sub_cancel' hin.1]
          using hbyte
      · have hbyte := congrArg (fun l : Bytes => l[a - pos - (pad + data.length)]?) htail
        have hlt : a - pos - (pad + data.length) < stage.length - (pad + data.length) := by omega
        simp only [List.getElem?_take, if_pos hlt, List.getElem?_drop] at hbyte
        rwa [show pad + data.length + (a - pos - (pad + data.length)) = a - pos by omega,
          show pos + pad + data.length + (a - pos - (pad + data.length)) = a by omega] at hbyte
  · rw [if_neg hin, if_neg (by omega)]

/-! ## Assertions -/

section Calls

variable {ι : Type} (vol : VolumeDevice) (jobs : ι → Write)

def Owns (s : Shared ι) (i : ι) (held : List Nat) : Prop := ∀ k, s.locks k = some i ↔ k ∈ held

structure Ready (s : Shared ι) (i : ι) : Prop where
  inside : Inside vol (jobs i)
  owns : Owns s i (stripes vol (jobs i))
  pending : i ∉ s.log

structure HeadRead (s : Shared ι) (i : ι) (stage : Bytes) : Prop where
  length : stage.length = windowLen vol (jobs i)
  head : stage.take (headPad vol (jobs i)) =
    (s.device.drop (vol.base + windowStart vol (jobs i))).take (headPad vol (jobs i))

structure Staged (s : Shared ι) (i : ι) (stage : Bytes) : Prop extends HeadRead vol jobs s i stage where
  tail : stage.drop (headPad vol (jobs i) + (jobs i).data.length) =
    (s.device.drop (vol.base + relEnd (jobs i))).take
      (windowLen vol (jobs i) - (headPad vol (jobs i) + (jobs i).data.length))

def Asserts (s : Shared ι) (i : ι) : WritePc → Prop
  | .start => Owns s i [] ∧ i ∉ s.log
  | .acquire todo => Inside vol (jobs i) ∧ i ∉ s.log ∧
      ∃ got, got ++ todo = stripes vol (jobs i) ∧ Owns s i got
  | .passthrough => Ready vol jobs s i
  | .window => Ready vol jobs s i
  | .head => Ready vol jobs s i ∧ firstSector vol (jobs i) ≠ lastSector vol (jobs i)
  | .tail stage => Ready vol jobs s i ∧ firstSector vol (jobs i) ≠ lastSector vol (jobs i) ∧
      HeadRead vol jobs s i stage
  | .store stage => Ready vol jobs s i ∧ Staged vol jobs s i stage
  | .release held ok => Owns s i held ∧ held.Nodup ∧ (ok = true → i ∈ s.log)
  | .done ok => Owns s i [] ∧ (ok = true → i ∈ s.log)

def applyTo (device : Bytes) (i : ι) : Bytes := overwrite (vol.base + (jobs i).offset) (jobs i).data device

structure Serial (device : Bytes) (s : Shared ι) : Prop where
  nodup : s.log.Nodup
  inside : ∀ i ∈ s.log, relEnd (jobs i) ≤ vol.length
  device : s.device = s.log.foldl (applyTo vol jobs) device
  passed : ∀ call ∈ s.passed, vol.base ≤ call.1 ∧ call.1 + call.2 ≤ vol.base + vol.length

variable {vol jobs} {s s' : Shared ι} {i : ι}

theorem asserts_of_same {j : ι} {pc : WritePc} (h : Asserts vol jobs s j pc)
    (hlocks : ∀ k, s'.locks k = some j ↔ s.locks k = some j)
    (hlog : j ∈ s'.log ↔ j ∈ s.log)
    (hwindow : Inside vol (jobs j) → Owns s j (stripes vol (jobs j)) → ∀ pos len,
      vol.base + windowStart vol (jobs j) ≤ pos → pos + len ≤ vol.base + windowEnd vol (jobs j) →
      (s'.device.drop pos).take len = (s.device.drop pos).take len) :
    Asserts vol jobs s' j pc := by
  have howns : ∀ {held}, Owns s j held → Owns s' j held := fun h k => (hlocks k).trans (h k)
  have hready : Ready vol jobs s j → Ready vol jobs s' j :=
    fun h => ⟨h.inside, howns h.owns, fun hmem => h.pending (hlog.mp hmem)⟩
  have hhead : Ready vol jobs s j → ∀ stage, HeadRead vol jobs s j stage →
      HeadRead vol jobs s' j stage := by
    intro hr stage hread
    obtain ⟨hstart, -, hfit, hend, -⟩ := stage_bounds hr.inside
    refine ⟨hread.length, ?_⟩
    rw [hread.head, hwindow hr.inside hr.owns _ _ (Nat.le_refl _) (by omega)]
  cases pc with
  | start => exact ⟨howns h.1, fun hmem => h.2 (hlog.mp hmem)⟩
  | acquire todo =>
    obtain ⟨hinside, hpending, got, hgot, hown⟩ := h
    exact ⟨hinside, fun hmem => hpending (hlog.mp hmem), got, hgot, howns hown⟩
  | passthrough => exact hready h
  | window => exact hready h
  | head => exact ⟨hready h.1, h.2⟩
  | tail stage => exact ⟨hready h.1, h.2.1, hhead h.1 stage h.2.2⟩
  | store stage =>
    obtain ⟨hr, hstaged⟩ := h
    obtain ⟨hstart, -, hfit, hend, -⟩ := stage_bounds hr.inside
    refine ⟨hready hr, { hhead hr stage hstaged.toHeadRead with tail := ?_ }⟩
    have hrel : relEnd (jobs j) = (jobs j).offset + (jobs j).data.length := rfl
    rw [hstaged.tail, hwindow hr.inside hr.owns _ _ (by omega) (by omega)]
  | release held ok => exact ⟨howns h.1, h.2.1, fun hok => hlog.mpr (h.2.2 hok)⟩
  | done ok => exact ⟨howns h.1, fun hok => hlog.mpr (h.2 hok)⟩

theorem sectors_apart {j : ι} (hne : j ≠ i) (hi : Owns s i (stripes vol (jobs i)))
    (hj : Owns s j (stripes vol (jobs j))) (hinsidei : Inside vol (jobs i))
    (hinsidej : Inside vol (jobs j)) :
    lastSector vol (jobs i) < firstSector vol (jobs j) ∨
      lastSector vol (jobs j) < firstSector vol (jobs i) := by
  by_contra hmeet
  rw [not_or, Nat.not_lt, Nat.not_lt] at hmeet
  have hlei := sectors_le hinsidei
  have hlej := sectors_le hinsidej
  have hini : max (firstSector vol (jobs i)) (firstSector vol (jobs j)) % volumeDeviceRmwStripes ∈
      stripes vol (jobs i) := mem_stripeIndices (by omega) (by omega)
  have hinj : max (firstSector vol (jobs i)) (firstSector vol (jobs j)) % volumeDeviceRmwStripes ∈
      stripes vol (jobs j) := mem_stripeIndices (by omega) (by omega)
  have heq := ((hi _).mpr hini).symm.trans ((hj _).mpr hinj)
  exact hne (Option.some.inj heq).symm

/-! ## Steps -/

variable {device : Bytes} (hdevice : vol.base + vol.length ≤ device.length)

theorem length_applyAll {log : List ι} (hinside : ∀ i ∈ log, relEnd (jobs i) ≤ vol.length)
    (hdevice : vol.base + vol.length ≤ device.length) :
    (log.foldl (applyTo vol jobs) device).length = device.length := by
  induction log generalizing device with
  | nil => rfl
  | cons i log ih =>
    have hends := hinside i List.mem_cons_self
    unfold relEnd at hends
    have hlength : (applyTo vol jobs device i).length = device.length :=
      length_overwrite (by omega)
    rw [List.foldl_cons, ih (fun i hi => hinside i (List.mem_cons_of_mem _ hi)) (by omega), hlength]

abbrev Keeps (vol : VolumeDevice) (jobs : ι → Write) (device : Bytes) :=
  Threads.Keeps (Serial vol jobs device) (Asserts vol jobs)

theorem keeps_same (hs : Serial vol jobs device s) {pc' : WritePc} (h : Asserts vol jobs s i pc') :
    Keeps vol jobs device i s pc' s := ⟨hs, h, fun _ _ _ h => h⟩

theorem keeps_passed (hs : Serial vol jobs device s) {pos len : Nat} (hpos : vol.base ≤ pos)
    (hlen : pos + len ≤ vol.base + vol.length) {pc' : WritePc} (h : Asserts vol jobs s i pc') :
    Keeps vol jobs device i { s with passed := s.passed ++ [(pos, len)] } pc' s where
  shared := by
    refine ⟨hs.nodup, hs.inside, hs.device, fun call hcall => ?_⟩
    rcases List.mem_append.mp hcall with hcall | hcall
    · exact hs.passed call hcall
    · obtain rfl := List.mem_singleton.mp hcall
      exact ⟨hpos, hlen⟩
  pc := asserts_of_same h (fun _ => Iff.rfl) Iff.rfl fun _ _ _ _ _ _ => rfl
  others _ _ _ h := asserts_of_same h (fun _ => Iff.rfl) Iff.rfl fun _ _ _ _ _ _ => rfl

theorem keeps_acquire (hs : Serial vol jobs device s) {k : Nat} {todo : List Nat}
    (hfree : s.locks k = none) (h : Asserts vol jobs s i (.acquire (k :: todo))) :
    Keeps vol jobs device i { s with locks := Function.update s.locks k (some i) } (.acquire todo) s where
  shared := ⟨hs.nodup, hs.inside, hs.device, hs.passed⟩
  pc := by
    obtain ⟨hinside, hpending, got, hgot, hown⟩ := h
    refine ⟨hinside, hpending, got ++ [k], by simpa using hgot, fun k' => ?_⟩
    show Function.update s.locks k (some i) k' = some i ↔ _
    rw [List.mem_append, List.mem_singleton, ← hown]
    by_cases hk : k' = k
    · simp [hk]
    · simp [hk]
  others j hne pc hj := by
    refine asserts_of_same hj (fun k' => ?_) Iff.rfl fun _ _ _ _ _ _ => rfl
    show Function.update s.locks k (some i) k' = some j ↔ _
    by_cases hk : k' = k
    · rw [hk, Function.update_self, hfree]
      exact ⟨fun heq => absurd (Option.some.inj heq).symm hne, fun heq => (by cases heq)⟩
    · rw [Function.update_of_ne hk]

theorem keeps_release (hs : Serial vol jobs device s) {k : Nat} {held : List Nat} {ok : Bool}
    (h : Asserts vol jobs s i (.release (k :: held) ok)) :
    Keeps vol jobs device i { s with locks := Function.update s.locks k none } (.release held ok) s := by
  obtain ⟨hown, hnodup, hok⟩ := h
  rw [List.nodup_cons] at hnodup
  have hmine : s.locks k = some i := (hown k).mpr List.mem_cons_self
  refine ⟨⟨hs.nodup, hs.inside, hs.device, hs.passed⟩, ⟨fun k' => ?_, hnodup.2, hok⟩,
    fun j hne pc hj => asserts_of_same hj (fun k' => ?_) Iff.rfl fun _ _ _ _ _ _ => rfl⟩
  · show Function.update s.locks k none k' = some i ↔ _
    by_cases hk : k' = k
    · rw [hk, Function.update_self]
      exact ⟨fun heq => (by cases heq), fun hmem => absurd hmem hnodup.1⟩
    · rw [Function.update_of_ne hk, hown, List.mem_cons]
      exact or_iff_right hk
  · show Function.update s.locks k none k' = some j ↔ _
    by_cases hk : k' = k
    · rw [hk, Function.update_self, hmine]
      exact ⟨fun heq => (by cases heq), fun heq => absurd (Option.some.inj heq).symm hne⟩
    · rw [Function.update_of_ne hk]

theorem stripes_nodup (job : Write) : (stripes vol job).Nodup :=
  (stripeIndices_sorted _ _).imp fun hlt => Nat.ne_of_lt hlt

theorem Serial.append (hs : Serial vol jobs device s) (hpending : i ∉ s.log)
    (hends : relEnd (jobs i) ≤ vol.length) (hlog : s'.log = s.log ++ [i])
    (hafter : s'.device = applyTo vol jobs s.device i)
    (hpassed : ∀ call ∈ s'.passed, vol.base ≤ call.1 ∧ call.1 + call.2 ≤ vol.base + vol.length) :
    Serial vol jobs device s' where
  nodup := by
    rw [hlog, List.nodup_append]
    refine ⟨hs.nodup, List.nodup_singleton i, fun a ha b hb => ?_⟩
    obtain rfl := List.mem_singleton.mp hb
    rintro rfl
    exact hpending ha
  inside j hj := by
    rw [hlog] at hj
    rcases List.mem_append.mp hj with hj | hj
    · exact hs.inside j hj
    · obtain rfl := List.mem_singleton.mp hj
      exact hends
  device := by
    rw [hlog, List.foldl_append, ← hs.device, hafter]
    rfl
  passed := hpassed

theorem mem_log_append {j : ι} (hne : j ≠ i) : j ∈ s.log ++ [i] ↔ j ∈ s.log := by
  rw [List.mem_append, List.mem_singleton]
  exact or_iff_left hne

include hdevice in
theorem keeps_write (hs : Serial vol jobs device s) (hr : Ready vol jobs s i) {pos : Nat}
    {bytes : Bytes} (hstart : vol.base + windowStart vol (jobs i) ≤ pos)
    (hend : pos + bytes.length ≤ vol.base + windowEnd vol (jobs i))
    (heffect : overwrite pos bytes s.device = applyTo vol jobs s.device i) :
    Keeps vol jobs device i
      { s with
        device := overwrite pos bytes s.device
        log := s.log ++ [i]
        passed := s.passed ++ [(pos, bytes.length)] }
      (.release (stripes vol (jobs i)) true) s := by
  obtain ⟨-, -, -, -, hlength, hlast⟩ := window_bounds hr.inside
  have hsize : s.device.length = device.length := by
    rw [hs.device, length_applyAll hs.inside hdevice]
  refine ⟨hs.append hr.pending hr.inside.ends rfl heffect fun call hcall => ?_,
    ⟨hr.owns, stripes_nodup _, fun _ => List.mem_append_right _ (List.mem_singleton_self i)⟩,
    fun j hne pc hj => asserts_of_same hj (fun _ => Iff.rfl) (mem_log_append hne)
      fun hinside howns p len hp hl => ?_⟩
  · rcases List.mem_append.mp hcall with hcall | hcall
    · exact hs.passed call hcall
    · obtain rfl := List.mem_singleton.mp hcall
      exact ⟨by omega, by show pos + bytes.length ≤ _; omega⟩
  · -- the other call's window is in other sectors
    refine slice_overwrite_of_disjoint (by omega) ?_
    obtain ⟨-, -, -, -, -, hlastj⟩ := window_bounds hinside
    rcases sectors_apart hne hr.owns howns hr.inside hinside with hlt | hlt
    · have hmul := Nat.mul_le_mul_right vol.logicalSectorSize hlt
      have hstartj : windowStart vol (jobs j) = firstSector vol (jobs j) * vol.logicalSectorSize := rfl
      exact Or.inr (by rw [Nat.succ_eq_add_one] at hmul; omega)
    · have hmul := Nat.mul_le_mul_right vol.logicalSectorSize hlt
      have hstarti : windowStart vol (jobs i) = firstSector vol (jobs i) * vol.logicalSectorSize := rfl
      exact Or.inl (by rw [Nat.succ_eq_add_one] at hmul; omega)

/-! ## The stage -/

section Stage

variable (hr : Ready vol jobs s i) (hsize : vol.base + vol.length ≤ s.device.length)

include hr in
theorem asserts_afterHead (hne : firstSector vol (jobs i) ≠ lastSector vol (jobs i)) {stage : Bytes}
    (hread : HeadRead vol jobs s i stage) : Asserts vol jobs s i (afterHead vol jobs i stage) := by
  unfold afterHead
  split_ifs with htail
  · exact ⟨hr, hne, hread⟩
  · refine ⟨hr, { hread with tail := ?_ }⟩
    obtain ⟨hstart, -, hfit, hend, -⟩ := stage_bounds hr.inside
    have hrel : relEnd (jobs i) = (jobs i).offset + (jobs i).data.length := rfl
    rw [List.drop_eq_nil_of_le (by rw [hread.length]; omega),
      show windowLen vol (jobs i) - (headPad vol (jobs i) + (jobs i).data.length) = 0 by omega,
      List.take_zero]

include hr in
theorem asserts_enter : Asserts vol jobs s i (enter vol jobs i) := by
  unfold enter
  split_ifs with haligned hone hpad
  · exact hr
  · exact hr
  · exact ⟨hr, hone⟩
  · refine asserts_afterHead hr hone ⟨List.length_replicate, ?_⟩
    rw [Nat.eq_zero_of_not_pos hpad, List.take_zero, List.take_zero]

include hsize in
theorem length_slice {pos len : Nat} (h : pos + len ≤ vol.base + vol.length) :
    ((s.device.drop pos).take len).length = len := by
  rw [List.length_take, List.length_drop]
  omega

include hr hsize in
theorem staged_window : Staged vol jobs s i
    ((s.device.drop (vol.base + windowStart vol (jobs i))).take (windowLen vol (jobs i))) := by
  obtain ⟨hstart, -, hfit, hend, -⟩ := stage_bounds hr.inside
  obtain ⟨-, -, -, -, hlength, -⟩ := window_bounds hr.inside
  have hrel : relEnd (jobs i) = (jobs i).offset + (jobs i).data.length := rfl
  refine ⟨⟨length_slice hsize (by omega), ?_⟩, ?_⟩
  · rw [List.take_take, Nat.min_eq_left (by omega)]
  · rw [List.drop_take, List.drop_drop]
    congr 2
    omega

include hr hsize in
theorem headRead_head : HeadRead vol jobs s i (overwrite 0
    ((s.device.drop (vol.base + windowStart vol (jobs i))).take
      (min vol.logicalSectorSize (windowLen vol (jobs i)))) (zeros vol jobs i)) := by
  obtain ⟨hstart, hpad, hfit, hend, -⟩ := stage_bounds hr.inside
  obtain ⟨-, -, -, -, hlength, -⟩ := window_bounds hr.inside
  have hbytes : ((s.device.drop (vol.base + windowStart vol (jobs i))).take
      (min vol.logicalSectorSize (windowLen vol (jobs i)))).length =
      min vol.logicalSectorSize (windowLen vol (jobs i)) := length_slice hsize (by omega)
  have hzeros : (zeros vol jobs i).length = windowLen vol (jobs i) := List.length_replicate
  refine ⟨?_, ?_⟩
  · rw [length_overwrite (by omega), hzeros]
  · unfold overwrite
    rw [List.take_zero, List.nil_append, List.take_append_of_le_length (by omega), List.take_take,
      Nat.min_eq_left (by omega)]

include hr hsize in
theorem staged_tail (hne : firstSector vol (jobs i) ≠ lastSector vol (jobs i)) {stage : Bytes}
    (hread : HeadRead vol jobs s i stage) : Staged vol jobs s i (overwrite (tailOffset vol (jobs i))
      ((s.device.drop (vol.base + lastSector vol (jobs i) * vol.logicalSectorSize)).take
        (windowLen vol (jobs i) - tailOffset vol (jobs i))) stage) := by
  obtain ⟨hstart, hpad, hfit, hend, htail, htail'⟩ := stage_bounds hr.inside
  obtain ⟨-, -, -, -, hlength, -⟩ := window_bounds hr.inside
  have hrel : relEnd (jobs i) = (jobs i).offset + (jobs i).data.length := rfl
  have hsectors := Nat.mul_le_mul_right vol.logicalSectorSize
    (Nat.lt_of_le_of_ne (sectors_le hr.inside) hne)
  have hbefore : headPad vol (jobs i) ≤ tailOffset vol (jobs i) := by
    rw [Nat.succ_mul] at hsectors
    have hstart' : windowStart vol (jobs i) = firstSector vol (jobs i) * vol.logicalSectorSize := rfl
    omega
  have hbytes : ((s.device.drop (vol.base + lastSector vol (jobs i) * vol.logicalSectorSize)).take
      (windowLen vol (jobs i) - tailOffset vol (jobs i))).length =
      windowLen vol (jobs i) - tailOffset vol (jobs i) := length_slice hsize (by omega)
  have hstage := hread.length
  refine ⟨⟨?_, ?_⟩, ?_⟩
  · rw [length_overwrite (by omega), hstage]
  · unfold overwrite
    rw [List.append_assoc, List.take_append_of_le_length (by rw [List.length_take]; omega),
      List.take_take, Nat.min_eq_left hbefore, hread.head]
  · unfold overwrite
    have hlen : (stage.take (tailOffset vol (jobs i))).length = tailOffset vol (jobs i) := by
      rw [List.length_take]
      omega
    have hrest : stage.drop (tailOffset vol (jobs i) + (windowLen vol (jobs i) -
        tailOffset vol (jobs i))) = [] := List.drop_eq_nil_of_le (by omega)
    rw [hbytes, hrest, List.append_nil, List.drop_append, hlen,
      List.drop_eq_nil_of_le (by omega), List.nil_append, List.drop_take, List.drop_drop,
      show vol.base + lastSector vol (jobs i) * vol.logicalSectorSize + (headPad vol (jobs i) +
        (jobs i).data.length - tailOffset vol (jobs i)) = vol.base + relEnd (jobs i) by omega,
      show windowLen vol (jobs i) - tailOffset vol (jobs i) - (headPad vol (jobs i) +
        (jobs i).data.length - tailOffset vol (jobs i)) = windowLen vol (jobs i) -
        (headPad vol (jobs i) + (jobs i).data.length) by omega]

end Stage

/-! ## Every step -/

theorem keeps_empty (hs : Serial vol jobs device s) (hown : Owns s i []) (hpending : i ∉ s.log)
    (hends : relEnd (jobs i) ≤ vol.length) (hempty : (jobs i).data = []) (ok : Bool) :
    Keeps vol jobs device i { s with log := s.log ++ [i] } (.done ok) s := by
  have hsame : s.device = applyTo vol jobs s.device i := by
    unfold applyTo overwrite
    rw [hempty, List.append_nil, List.length_nil, Nat.add_zero, List.take_append_drop]
  exact ⟨hs.append hpending hends rfl hsame hs.passed,
    ⟨hown, fun _ => List.mem_append_right _ (List.mem_singleton_self i)⟩,
    fun j hne pc hj => asserts_of_same hj (fun _ => Iff.rfl) (mem_log_append hne)
      fun _ _ _ _ _ _ => rfl⟩

variable {fails : ι → DeviceCall → Bool} {pc pc' : WritePc}

theorem keeps_readDevice {call : DeviceCall} {pos len : Nat} {next : Bytes → WritePc}
    (hstep : some (readDevice vol jobs fails i s call pos len next) = some (s', pc'))
    (hs : Serial vol jobs device s) (hr : Ready vol jobs s i) (hpos : vol.base ≤ pos)
    (hlen : pos + len ≤ vol.base + vol.length)
    (hnext : Asserts vol jobs s i (next ((s.device.drop pos).take len))) :
    Keeps vol jobs device i s' pc' s := by
  unfold readDevice at hstep
  split_ifs at hstep
  · cases hstep
    exact keeps_passed hs hpos hlen ⟨hr.owns, stripes_nodup _, fun hok => (by cases hok)⟩
  · cases hstep
    exact keeps_passed hs hpos hlen hnext

include hdevice in
theorem keeps_writeDevice {pos : Nat} {bytes : Bytes}
    (hstep : some (writeDevice vol jobs fails i s pos bytes) = some (s', pc'))
    (hs : Serial vol jobs device s) (hr : Ready vol jobs s i)
    (hstart : vol.base + windowStart vol (jobs i) ≤ pos)
    (hend : pos + bytes.length ≤ vol.base + windowEnd vol (jobs i))
    (heffect : overwrite pos bytes s.device = applyTo vol jobs s.device i) :
    Keeps vol jobs device i s' pc' s := by
  obtain ⟨-, -, -, -, hlength, -⟩ := window_bounds hr.inside
  unfold writeDevice at hstep
  split_ifs at hstep
  · cases hstep
    exact keeps_passed hs (by omega) (by omega)
      ⟨hr.owns, stripes_nodup _, fun hok => (by cases hok)⟩
  · cases hstep
    exact keeps_write hdevice hs hr hstart hend heffect

include hdevice in
theorem keeps_writeStep (hsector : 0 < vol.logicalSectorSize) (hs : Serial vol jobs device s)
    (h : Asserts vol jobs s i pc)
    (hstep : writeStep vol jobs fails i s pc = some (s', pc')) : Keeps vol jobs device i s' pc' s := by
  have hsize : vol.base + vol.length ≤ s.device.length := by
    rw [hs.device, length_applyAll hs.inside hdevice]
    exact hdevice
  cases pc with
  | start =>
    obtain ⟨hown, hpending⟩ := h
    unfold writeStep at hstep
    split_ifs at hstep with hrefused hempty
    · cases hstep
      exact keeps_same hs ⟨hown, fun hok => (by cases hok)⟩
    · cases hstep
      exact keeps_empty hs hown hpending (by omega) hempty _
    · cases hstep
      exact keeps_same hs ⟨⟨hsector, hempty, by omega⟩, hpending, [], rfl, hown⟩
  | acquire todo =>
    cases todo with
    | nil =>
      cases hstep
      obtain ⟨hinside, hpending, got, hgot, hown⟩ := h
      rw [List.append_nil] at hgot
      exact keeps_same hs (asserts_enter ⟨hinside, hgot ▸ hown, hpending⟩)
    | cons k todo =>
      have hmove : (if s.locks k = none then
          some ({ s with locks := Function.update s.locks k (some i) }, WritePc.acquire todo)
        else none) = some (s', pc') := hstep
      split_ifs at hmove with hfree
      cases hmove
      exact keeps_acquire hs hfree h
  | passthrough =>
    obtain ⟨hstart, -, -, hend, -⟩ := window_bounds h.inside
    have hrel : relEnd (jobs i) = (jobs i).offset + (jobs i).data.length := rfl
    exact keeps_writeDevice hdevice hstep hs h (by omega) (by omega) rfl
  | window =>
    obtain ⟨-, -, -, -, hlength, -⟩ := window_bounds h.inside
    obtain ⟨-, -, -, hend, -⟩ := stage_bounds h.inside
    exact keeps_readDevice hstep hs h (by omega) (by omega) ⟨h, staged_window h hsize⟩
  | head =>
    obtain ⟨hr, hne⟩ := h
    obtain ⟨-, -, -, -, hlength, -⟩ := window_bounds hr.inside
    obtain ⟨-, -, -, hend, -⟩ := stage_bounds hr.inside
    exact keeps_readDevice hstep hs hr (by omega) (by omega)
      (asserts_afterHead hr hne (headRead_head hr hsize))
  | tail stage =>
    obtain ⟨hr, hne, hread⟩ := h
    obtain ⟨-, -, -, -, hlength, -⟩ := window_bounds hr.inside
    obtain ⟨-, -, hfit, hend, htail, htail'⟩ := stage_bounds hr.inside
    exact keeps_readDevice hstep hs hr (by omega) (by omega) ⟨hr, staged_tail hr hsize hne hread⟩
  | store stage =>
    obtain ⟨hr, hstaged⟩ := h
    obtain ⟨-, -, -, -, hlength, -⟩ := window_bounds hr.inside
    obtain ⟨hstart, -, hfit, hend, -⟩ := stage_bounds hr.inside
    have hrel : relEnd (jobs i) = (jobs i).offset + (jobs i).data.length := rfl
    have hstage := hstaged.length
    have hbytes : (overwrite (headPad vol (jobs i)) (jobs i).data stage).length = stage.length :=
      length_overwrite (by omega)
    refine keeps_writeDevice hdevice hstep hs hr (Nat.le_refl _) (by omega) ?_
    unfold applyTo
    rw [overwrite_window (by omega) (by omega) hstaged.head, Nat.add_assoc, hstart]
    rw [hstaged.tail, hstage]
    congr 2
    omega
  | release held ok =>
    cases held with
    | nil =>
      cases hstep
      obtain ⟨hown, -, hok⟩ := h
      refine keeps_same hs ⟨hown, fun hdone => hok ?_⟩
      rw [Bool.and_eq_true] at hdone
      exact hdone.1
    | cons k held =>
      cases hstep
      exact keeps_release hs h
  | done ok => cases hstep

/-! ## Runs -/

section Runs

variable [DecidableEq ι] (hsector : 0 < vol.logicalSectorSize) (schedule : List ι)

include hdevice hsector in
theorem holds_exec : ((begun device).exec (writeStep vol jobs fails) schedule).Holds
    (Serial vol jobs device) (Asserts vol jobs) := by
  refine Threads.Holds.exec ⟨⟨List.nodup_nil, ?_, rfl, ?_⟩, fun i => ⟨fun k => ?_, ?_⟩⟩
    (fun _ _ _ _ _ hs h hstep => keeps_writeStep hdevice hsector hs h hstep) schedule
  · exact fun _ h => absurd h List.not_mem_nil
  · exact fun _ h => absurd h List.not_mem_nil
  · exact ⟨fun h => (by cases h), fun h => absurd h List.not_mem_nil⟩
  · exact List.not_mem_nil

end Runs

/-! ## Deadlock -/

def waitsFor : WritePc → Option Nat
  | .acquire (k :: _) => some k
  | _ => none

theorem exists_writeStep (hwaits : waitsFor pc = none) (hdone : ∀ ok, pc ≠ .done ok) :
    ∃ next, writeStep vol jobs fails i s pc = some next := by
  cases pc with
  | start =>
    unfold writeStep
    split_ifs <;> exact ⟨_, rfl⟩
  | acquire todo =>
    cases todo with
    | nil => exact ⟨_, rfl⟩
    | cons k todo => cases hwaits
  | release held ok => cases held <;> exact ⟨_, rfl⟩
  | done ok => exact absurd rfl (hdone ok)
  | _ => exact ⟨_, rfl⟩

theorem waits_above {k k' : Nat} (h : Asserts vol jobs s i pc) (hwaits : waitsFor pc = some k)
    (howner : s.locks k' = some i) : k' < k := by
  cases pc with
  | acquire todo =>
    cases todo with
    | nil => cases hwaits
    | cons k todo =>
      cases hwaits
      obtain ⟨-, -, got, hgot, hown⟩ := h
      have hsorted := stripeIndices_sorted (firstSector vol (jobs i)) (lastSector vol (jobs i))
      rw [← stripes, ← hgot, List.pairwise_append] at hsorted
      exact hsorted.2.2 k' ((hown k').mp howner) k List.mem_cons_self
  | _ => cases hwaits

theorem waits_lt {k : Nat} (h : Asserts vol jobs s i pc) (hwaits : waitsFor pc = some k) :
    k < volumeDeviceRmwStripes := by
  cases pc with
  | acquire todo =>
    cases todo with
    | nil => cases hwaits
    | cons k todo =>
      cases hwaits
      obtain ⟨-, -, got, hgot, -⟩ := h
      have hmem : k ∈ stripes vol (jobs i) := by
        rw [← hgot]
        exact List.mem_append_right _ List.mem_cons_self
      exact stripeIndices_lt hmem
  | _ => cases hwaits

theorem exists_moves {pcs : ι → WritePc} (h : ∀ i, Asserts vol jobs s i (pcs i))
    (hrunning : ∀ ok, pcs i ≠ .done ok) : ∃ j next, writeStep vol jobs fails j s (pcs j) = some next := by
  cases hwaits : waitsFor (pcs i) with
  | none => exact ⟨i, exists_writeStep hwaits hrunning⟩
  | some k =>
    have habove : ∀ i k k', waitsFor (pcs i) = some k → s.locks k' = some i → k' < k :=
      fun i k k' => waits_above (h i)
    obtain ⟨j, ⟨k, hj, hfree⟩ | ⟨hj, k, hown⟩⟩ :=
      exists_not_blocked (fun i k => waits_lt (h i)) habove hwaits
    · refine ⟨j, ?_⟩
      cases hpc : pcs j with
      | acquire todo =>
        cases todo with
        | nil => rw [hpc] at hj; cases hj
        | cons k' todo =>
          rw [hpc] at hj
          cases hj
          exact ⟨_, if_pos hfree⟩
      | _ => rw [hpc] at hj; cases hj
    · refine ⟨j, exists_writeStep hj fun ok hpc => ?_⟩
      have hasserts := h j
      rw [hpc] at hasserts
      exact absurd ((hasserts.1 k).mp hown) List.not_mem_nil

end Calls

/-! ## The volume -/

def volumeBytes (vol : VolumeDevice) (device : Bytes) : Bytes := (device.drop vol.base).take vol.length

section Volume

variable {ι : Type} {vol : VolumeDevice} {jobs : ι → Write} {device : Bytes}

theorem volumeBytes_overwrite {offset : Nat} {data : Bytes} (hends : offset + data.length ≤ vol.length)
    (hdevice : vol.base + vol.length ≤ device.length) :
    volumeBytes vol (overwrite (vol.base + offset) data device) =
      overwrite offset data (volumeBytes vol device) := by
  have hlength : (volumeBytes vol device).length = vol.length := by
    unfold volumeBytes
    rw [List.length_take, List.length_drop]
    omega
  apply List.ext_getElem?
  intro a
  rw [getElem?_overwrite (by omega)]
  unfold volumeBytes
  simp only [List.getElem?_take, List.getElem?_drop]
  rw [getElem?_overwrite (by omega)]
  by_cases ha : a < vol.length
  · rw [if_pos ha]
    by_cases hin : offset ≤ a ∧ a < offset + data.length
    · rw [if_pos hin, if_pos (by omega), Nat.add_sub_add_left]
    · rw [if_neg hin, if_neg (by omega), if_pos ha]
  · rw [if_neg ha, if_neg (by omega), if_neg ha]

theorem outside_overwrite {offset : Nat} {data : Bytes} (hends : offset + data.length ≤ vol.length)
    (hdevice : vol.base + vol.length ≤ device.length) {a : Nat}
    (ha : a < vol.base ∨ vol.base + vol.length ≤ a) :
    (overwrite (vol.base + offset) data device)[a]? = device[a]? := by
  rw [getElem?_overwrite (by omega), if_neg (by omega)]

variable {log : List ι} (hinside : ∀ i ∈ log, relEnd (jobs i) ≤ vol.length)
  (hdevice : vol.base + vol.length ≤ device.length)

include hinside hdevice in
theorem volumeBytes_applyAll : volumeBytes vol (log.foldl (applyTo vol jobs) device) =
    log.foldl (fun bytes i => overwrite (jobs i).offset (jobs i).data bytes) (volumeBytes vol device) := by
  induction log generalizing device with
  | nil => rfl
  | cons i log ih =>
    have hends : (jobs i).offset + (jobs i).data.length ≤ vol.length := hinside i List.mem_cons_self
    have hlength : (applyTo vol jobs device i).length = device.length := length_overwrite (by omega)
    rw [List.foldl_cons, List.foldl_cons,
      ih (fun i hi => hinside i (List.mem_cons_of_mem _ hi)) (by omega), applyTo,
      volumeBytes_overwrite hends hdevice]

include hinside hdevice in
theorem outside_applyAll {a : Nat} (ha : a < vol.base ∨ vol.base + vol.length ≤ a) :
    (log.foldl (applyTo vol jobs) device)[a]? = device[a]? := by
  induction log generalizing device with
  | nil => rfl
  | cons i log ih =>
    have hends : (jobs i).offset + (jobs i).data.length ≤ vol.length := hinside i List.mem_cons_self
    have hlength : (applyTo vol jobs device i).length = device.length := length_overwrite (by omega)
    rw [List.foldl_cons, ih (fun i hi => hinside i (List.mem_cons_of_mem _ hi)) (by omega), applyTo,
      outside_overwrite hends hdevice ha]

theorem readExactAt_volume {offset len : Nat} (h : offset + len ≤ vol.length) :
    vol.readExactAt device offset len = .ok (((volumeBytes vol device).drop offset).take len) := by
  unfold VolumeDevice.readExactAt volumeBytes
  rw [failIf_of_not (by omega), ok_bind, List.drop_take, List.drop_drop, List.take_take,
    Nat.min_eq_left (by omega)]
  rfl

theorem withMode_ok {backing base length logical physical : Nat} {readOnly : Bool}
    (h : VolumeDevice.withMode backing base length logical physical readOnly = .ok vol) :
    0 < vol.logicalSectorSize ∧ vol.base + vol.length ≤ backing := by
  unfold VolumeDevice.withMode at h
  obtain ⟨_, hlogical, h⟩ := bind_ok.mp h
  obtain ⟨_, -, h⟩ := bind_ok.mp h
  obtain ⟨_, -, h⟩ := bind_ok.mp h
  obtain ⟨_, hbacking, h⟩ := bind_ok.mp h
  rw [failIf_ok] at hlogical hbacking
  cases h
  rw [Bool.not_eq_false] at hlogical
  unfold isSupportedSectorSize at hlogical
  simp only [Bool.and_eq_true, decide_eq_true_eq] at hlogical
  exact ⟨by show 0 < logical; omega, by show base + length ≤ backing; omega⟩

end Volume

/-- **Writes of a volume are linearizable.** Once all have returned, the volume is as if they had
been made one after another, and reads return its bytes. Bytes outside the volume are never changed
and never passed to the device, and some call can move until all have returned. -/
theorem volume_writes_linearize {ι : Type} [DecidableEq ι] {device : Bytes} {vol : VolumeDevice}
    {base length logical physical : Nat} {readOnly : Bool}
    (hvol : VolumeDevice.withMode device.length base length logical physical readOnly = .ok vol)
    (jobs : ι → Write) (fails : ι → DeviceCall → Bool) (schedule : List ι) :
    ((∀ i, ((begun device).exec (writeStep vol jobs fails) schedule).pc i = .done true) →
      ∃ order : List ι, order.Nodup ∧ (∀ i, i ∈ order) ∧
        volumeBytes vol ((begun device).exec (writeStep vol jobs fails) schedule).shared.device =
          order.foldl (fun bytes i => overwrite (jobs i).offset (jobs i).data bytes)
            (volumeBytes vol device) ∧
        ∀ offset len, offset + len ≤ vol.length →
          vol.readExactAt ((begun device).exec (writeStep vol jobs fails) schedule).shared.device
              offset len =
            .ok (((order.foldl (fun bytes i => overwrite (jobs i).offset (jobs i).data bytes)
              (volumeBytes vol device)).drop offset).take len)) ∧
    (∀ a, a < vol.base ∨ vol.base + vol.length ≤ a →
      ((begun device).exec (writeStep vol jobs fails) schedule).shared.device[a]? = device[a]?) ∧
    (∀ call ∈ ((begun device).exec (writeStep vol jobs fails) schedule).shared.passed,
      vol.base ≤ call.1 ∧ call.1 + call.2 ≤ vol.base + vol.length) ∧
    ((∀ i, ∃ ok, ((begun device).exec (writeStep vol jobs fails) schedule).pc i = .done ok) ∨
      ∃ i next, writeStep vol jobs fails i
        ((begun device).exec (writeStep vol jobs fails) schedule).shared
        (((begun device).exec (writeStep vol jobs fails) schedule).pc i) = some next) := by
  obtain ⟨hsector, hdevice⟩ := withMode_ok hvol
  obtain ⟨hs, hpc⟩ : ((begun device).exec (writeStep vol jobs fails) schedule).Holds
      (Serial vol jobs device) (Asserts vol jobs) := holds_exec hdevice hsector schedule
  refine ⟨fun hdone => ?_, fun a ha => ?_, hs.passed, ?_⟩
  · have hbytes := volumeBytes_applyAll hs.inside hdevice
    rw [← hs.device] at hbytes
    refine ⟨_, hs.nodup, fun i => ?_, hbytes, fun offset len h => ?_⟩
    · have hasserts := hpc i
      rw [hdone i] at hasserts
      exact hasserts.2 rfl
    · rw [readExactAt_volume h, hbytes]
  · rw [hs.device, outside_applyAll hs.inside hdevice ha]
  · by_cases hall : ∀ i, ∃ ok, ((begun device).exec (writeStep vol jobs fails) schedule).pc i = .done ok
    · exact Or.inl hall
    · rw [not_forall] at hall
      obtain ⟨i, hrunning⟩ := hall
      exact Or.inr (exists_moves hpc fun ok heq => hrunning ⟨ok, heq⟩)

section Sample

def sampleJobs : Bool → Write
  | false => ⟨1, [7]⟩
  | true => ⟨2, [8]⟩

def sampleSchedule : List Bool :=
  [false, false, true, true, false, false, true, false, false, false, true, true, true, true, true, true]

def sampleVolume : VolumeDevice := ⟨20, 540, 512, 512, false⟩

def sampleDevice : Bytes := List.replicate 600 0

def sampleRun : Threads Bool (Shared Bool) WritePc :=
  (begun sampleDevice).exec (writeStep sampleVolume sampleJobs fun _ _ => false) sampleSchedule

theorem volume_writes_linearize_sample :
    (∀ i, sampleRun.pc i = .done true) ∧
    ∃ order : List Bool, order.Nodup ∧ (∀ i, i ∈ order) ∧
      volumeBytes sampleVolume sampleRun.shared.device =
        order.foldl (fun bytes i => overwrite (sampleJobs i).offset (sampleJobs i).data bytes)
          (volumeBytes sampleVolume sampleDevice) := by
  have hvol : VolumeDevice.withMode sampleDevice.length 20 540 512 512 false = .ok sampleVolume := by
    rw [sampleDevice, List.length_replicate]
    rfl
  have hdone : ∀ i, sampleRun.pc i = .done true := by decide +kernel
  obtain ⟨order, hnodup, hmem, hbytes, -⟩ :=
    (volume_writes_linearize hvol sampleJobs (fun _ _ => false) sampleSchedule).1 hdone
  exact ⟨hdone, order, hnodup, hmem, hbytes⟩

end Sample

/-! ## Reads between the writes -/

section Reads

variable {ι : Type} {vol : VolumeDevice} {jobs : ι → Write} {fails : ι → DeviceCall → Bool}

def serialBytes (vol : VolumeDevice) (jobs : ι → Write) (device : Bytes) (order : List ι) : Bytes :=
  order.foldl (fun bytes i => overwrite (jobs i).offset (jobs i).data bytes) (volumeBytes vol device)

theorem writeStep_log {i : ι} {s s' : Shared ι} {pc pc' : WritePc}
    (h : writeStep vol jobs fails i s pc = some (s', pc')) :
    s'.log = s.log ∨ s'.log = s.log ++ [i] := by
  -- only the two ways of writing and the empty write add to the log
  unfold writeStep at h
  split at h
  all_goals grind [readDevice, writeDevice]

theorem exec_log [DecidableEq ι] (x : Threads ι (Shared ι) WritePc) (schedule : List ι) :
    x.shared.log <+: (x.exec (writeStep vol jobs fails) schedule).shared.log := by
  induction schedule generalizing x with
  | nil => exact List.prefix_rfl
  | cons i rest ih =>
    refine List.IsPrefix.trans ?_ (ih (x.next (writeStep vol jobs fails) i))
    unfold Threads.next
    split
    · exact List.prefix_rfl
    · rename_i s' pc' hmove
      rcases writeStep_log hmove with hlog | hlog
      · exact hlog ▸ List.prefix_rfl
      · exact hlog ▸ List.prefix_append _ _

def ran [DecidableEq ι] (vol : VolumeDevice) (jobs : ι → Write) (fails : ι → DeviceCall → Bool)
    (device : Bytes) (schedule : List ι) : Threads ι (Shared ι) WritePc :=
  (begun device).exec (writeStep vol jobs fails) schedule

/-- Reads return what the writes of `order` leave. A write that has returned is among them, and
one that has not begun is not. -/
structure Sees (vol : VolumeDevice) (jobs : ι → Write) (device : Bytes)
    (x : Threads ι (Shared ι) WritePc) (order : List ι) : Prop where
  read : ∀ offset len, offset + len ≤ vol.length →
    vol.readExactAt x.shared.device offset len =
      .ok (((serialBytes vol jobs device order).drop offset).take len)
  returned : ∀ i, x.pc i = .done true → i ∈ order
  waiting : ∀ i, x.pc i = .start → i ∉ order

theorem sees_log {device : Bytes} {x : Threads ι (Shared ι) WritePc}
    (hdevice : vol.base + vol.length ≤ device.length)
    (h : x.Holds (Serial vol jobs device) (Asserts vol jobs)) :
    Sees vol jobs device x x.shared.log where
  read offset len hlen := by
    have hbytes := volumeBytes_applyAll h.1.inside hdevice
    rw [← h.1.device] at hbytes
    rw [readExactAt_volume hlen, hbytes]
    rfl
  returned i hdone := by
    have hasserts := h.2 i
    rw [hdone] at hasserts
    exact hasserts.2 rfl
  waiting i hstart := by
    have hasserts := h.2 i
    rw [hstart] at hasserts
    exact hasserts.2

/-- **A read between writes sees whole writes only**, in one order for all reads, on a device whose
failed calls change nothing. What a later read sees begins with what an earlier one saw. -/
theorem volume_reads_linearize [DecidableEq ι] {device : Bytes}
    {base length logical physical : Nat} {readOnly : Bool}
    (hvol : VolumeDevice.withMode device.length base length logical physical readOnly = .ok vol)
    (jobs : ι → Write) (fails : ι → DeviceCall → Bool) (earlier later : List ι) :
    ∃ order order' : List ι, order <+: order' ∧ order'.Nodup ∧
      Sees vol jobs device (ran vol jobs fails device earlier) order ∧
      Sees vol jobs device (ran vol jobs fails device (earlier ++ later)) order' := by
  obtain ⟨hsector, hdevice⟩ := withMode_ok hvol
  have hholds : ∀ schedule, (ran vol jobs fails device schedule).Holds (Serial vol jobs device)
      (Asserts vol jobs) := fun schedule => holds_exec hdevice hsector schedule
  refine ⟨_, _, ?_, (hholds (earlier ++ later)).1.nodup, sees_log hdevice (hholds earlier),
    sees_log hdevice (hholds _)⟩
  unfold ran Threads.exec
  rw [List.foldl_append]
  exact exec_log _ later

theorem volume_reads_linearize_sample :
    ∃ order order' : List Bool, order <+: order' ∧ false ∈ order ∧ true ∉ order ∧ true ∈ order' ∧
      sampleVolume.readExactAt (ran sampleVolume sampleJobs (fun _ _ => false) sampleDevice
          (List.replicate 8 false)).shared.device 0 4 =
        .ok (((serialBytes sampleVolume sampleJobs sampleDevice order).drop 0).take 4) := by
  have hvol : VolumeDevice.withMode sampleDevice.length 20 540 512 512 false = .ok sampleVolume := by
    rw [sampleDevice, List.length_replicate]
    rfl
  obtain ⟨order, order', hpre, -, hearlier, hlater⟩ := volume_reads_linearize hvol sampleJobs
    (fun _ _ => false) (List.replicate 8 false) (List.replicate 8 true)
  exact ⟨order, order', hpre, hearlier.returned false (by decide +kernel),
    hearlier.waiting true (by decide +kernel), hlater.returned true (by decide +kernel),
    hearlier.read 0 4 (by decide)⟩

end Reads

end FrankenFs.Block
