import FrankenFs.Btrfs.ChunksSpec
import FrankenFs.Btrfs.Raid56Field
import Mathlib.Algebra.BigOperators.Group.Finset.Basic
import Mathlib.Algebra.BigOperators.Ring.Finset
import Mathlib.Tactic.FieldSimp
import Mathlib.Tactic.LinearCombination

/-!
# A lost column is recovered

The sums that are captured leave one or two unknowns, and the candidates are their solutions.
-/

open FrankenFs.Lib Finset

namespace FrankenFs.Btrfs.Raid56

open RaidByte

/-! ## Rows -/

/-- The columns `reads` of a row are captured up to the column `n`. -/
structure Captures (len target : Nat) (reads : Nat → Option Bytes) (n : Nat) (row : CapturedRow) :
    Prop where
  data : row.data = (List.range n).map reads
  missing : row.missing = (List.range n).filter fun j => j ≠ target ∧ reads j = none
  xor_length : row.xor.length = len
  weighted_length : row.weighted.length = len
  xor : ∀ i, byteAt i row.xor = ∑ j ∈ range n, byteAt i ((reads j).getD [])
  weighted : ∀ i, byteAt i row.weighted =
    ∑ j ∈ range n, ofByte (gexp j) * byteAt i ((reads j).getD [])

section Capture

variable {len target n : Nat} {reads : Nat → Option Bytes} {row : CapturedRow}

theorem byteAt_nil (i : Nat) : byteAt i [] = 0 := rfl

theorem Captures.skip (h : Captures len target reads n row) (hnone : reads n = none) {missing : List Nat}
    (hmissing : missing = row.missing ++ if n = target then [] else [n]) :
    Captures len target reads (n + 1)
      ⟨row.data ++ [none], missing, row.xor, row.weighted⟩ where
  data := by rw [h.data, List.range_succ, List.map_append, List.map_singleton, hnone]
  missing := by
    rw [hmissing, h.missing, List.range_succ, List.filter_append]
    by_cases hn : n = target <;> simp [hn, hnone]
  xor_length := h.xor_length
  weighted_length := h.weighted_length
  xor i := by rw [h.xor, sum_range_succ, hnone, Option.getD_none, byteAt_nil, add_zero]
  weighted i := by
    rw [h.weighted, sum_range_succ, hnone, Option.getD_none, byteAt_nil, mul_zero, add_zero]

theorem Captures.push (h : Captures len target reads n row) (hn : n ≠ target)
    (hlen : ∀ bytes, reads n = some bytes → bytes.length = len) :
    Captures len target reads (n + 1) (row.push n (reads n)) := by
  cases hread : reads n with
  | none => exact h.skip hread (by rw [if_neg hn])
  | some bytes =>
    have hsize := hlen bytes hread
    refine ⟨?_, ?_, ?_, ?_, fun i => ?_, fun i => ?_⟩
    · show row.data ++ [some bytes] = _
      rw [h.data, List.range_succ, List.map_append, List.map_singleton, hread]
    · show row.missing = _
      rw [h.missing, List.range_succ, List.filter_append]
      simp [hread]
    · show (List.zipWith _ _ _).length = len
      rw [List.length_zipWith, h.xor_length, hsize, Nat.min_self]
    · show (List.zipWith _ _ _).length = len
      rw [List.length_zipWith, h.weighted_length, hsize, Nat.min_self]
    · show byteAt i (List.zipWith _ _ _) = _
      rw [byteAt_zipWith rfl (by rw [hsize, h.xor_length]), sum_range_succ, ← h.xor, hread]
      rfl
    · show byteAt i (List.zipWith _ _ _) = _
      have hzero : ∀ c, (0 : BitVec 8) ^^^ gmul c 0 = 0 := by
        intro c
        rw [gmul, if_pos (Or.inr rfl)]
        rfl
      rw [byteAt_zipWith (hzero _) (by rw [hsize, h.weighted_length]), sum_range_succ,
        ← h.weighted, hread]
      show byteAt i row.weighted + ofByte (gmul _ _) = _
      rw [gmul_eq_mul]
      rfl

theorem captureData_captures {devices : BtrfsDeviceSet} {slots : List BtrfsPhysicalMapping}
    (htarget : reads target = none)
    (hread : ∀ j slot, slots[j]? = some slot → n + j ≠ target →
      readRaid56Slot devices slot len = .ok (reads (n + j)))
    (hlen : ∀ j bytes, reads j = some bytes → bytes.length = len)
    (h : Captures len target reads n row) :
    ∃ row', captureData devices len target n slots row = .ok row' ∧
      Captures len target reads (n + slots.length) row' := by
  induction slots generalizing n row with
  | nil => exact ⟨row, rfl, h⟩
  | cons slot slots ih =>
    have hrest : ∀ j slot, slots[j]? = some slot → n + 1 + j ≠ target →
        readRaid56Slot devices slot len = .ok (reads (n + 1 + j)) := by
      intro j s hs hne
      rw [Nat.add_assoc, Nat.add_comm 1] at hne ⊢
      exact hread (j + 1) s hs hne
    have hcount : n + (slot :: slots).length = n + 1 + slots.length := by
      rw [List.length_cons]
      omega
    rw [hcount]
    unfold captureData
    split_ifs with hn
    · exact ih hrest (h.skip (hn ▸ htarget) (by rw [if_pos hn, List.append_nil]))
    · rw [hread 0 slot rfl hn, ok_bind]
      exact ih hrest (h.push hn (hlen n))

end Capture

/-! ## Parities -/

def parityP (i : Nat) : List Bytes → BitVec 8
  | [] => 0
  | column :: columns => column.getD i 0 ^^^ parityP i columns

/-- A byte times the `n`-th power of 2, as a polynomial modulo x^8 + x^4 + x^3 + x^2 + 1. -/
def doubled (n : Nat) (b : BitVec 8) : BitVec 8 := BitVec.ofNat 8 (double^[n] b.toNat)

def parityQ (i : Nat) : (j : Nat) → List Bytes → BitVec 8
  | _, [] => 0
  | j, column :: columns => doubled j (column.getD i 0) ^^^ parityQ i (j + 1) columns

theorem doubled_eq_mul (n : Nat) (b : BitVec 8) : ofByte (doubled n b) = ofByte (gexp n) * ofByte b := by
  have hiterate : ∀ n, step^[n] (ofByte b) = ofByte (doubled n b) ∧ double^[n] b.toNat < 256 := by
    intro n
    have hdouble : ∀ x < 256, double x < 256 := by decide +kernel
    induction n with
    | zero => exact ⟨by simp [doubled], b.isLt⟩
    | succ n ih =>
      rw [Function.iterate_succ_apply', Function.iterate_succ_apply', ih.1]
      refine ⟨?_, hdouble _ ih.2⟩
      have hnat : (ofByte (doubled n b)).toByte.toNat = double^[n] b.toNat :=
        Nat.mod_eq_of_lt ih.2
      rw [step, hnat, doubled, Function.iterate_succ_apply']
  rw [← (hiterate n).1, gexp_eq_power]
  exact (generator.power_mul n (ofByte b)).symm

theorem parityP_eq_sum (i : Nat) (columns : List Bytes) :
    ofByte (parityP i columns) = ∑ j ∈ range columns.length, byteAt i (columns.getD j []) := by
  induction columns with
  | nil => rfl
  | cons column columns ih =>
    rw [List.length_cons, sum_range_succ', add_comm]
    simp only [List.getD_cons_succ, List.getD_cons_zero]
    rw [← ih]
    rfl

theorem parityQ_eq_sum (i j : Nat) (columns : List Bytes) :
    ofByte (parityQ i j columns) =
      ∑ k ∈ range columns.length, ofByte (gexp (j + k)) * byteAt i (columns.getD k []) := by
  induction columns generalizing j with
  | nil => rfl
  | cons column columns ih =>
    rw [List.length_cons, sum_range_succ', add_comm]
    simp only [List.getD_cons_succ, List.getD_cons_zero, Nat.add_zero]
    have hshift : ∑ k ∈ range columns.length,
        ofByte (gexp (j + (k + 1))) * byteAt i (columns.getD k []) =
        ∑ k ∈ range columns.length, ofByte (gexp (j + 1 + k)) * byteAt i (columns.getD k []) := by
      refine sum_congr rfl fun k _ => ?_
      rw [Nat.add_assoc, Nat.add_comm 1]
    rw [hshift, ← ih, byteAt, ← doubled_eq_mul]
    rfl

/-! ## Solving for a column -/

section Solve

variable {len target : Nat} {columns : List Bytes} {reads : Nat → Option Bytes} {row : CapturedRow}
  {p q : Bytes}

structure Parities (columns : List Bytes) (len : Nat) (p q : Bytes) : Prop where
  p_length : p.length = len
  q_length : q.length = len
  p_sum : ∀ i, byteAt i p = ∑ j ∈ range columns.length, byteAt i (columns.getD j [])
  q_sum : ∀ i, byteAt i q =
    ∑ j ∈ range columns.length, ofByte (gexp j) * byteAt i (columns.getD j [])

theorem sum_all_but_one (weight : Nat → RaidByte) (i : Nat) (htarget : target < columns.length)
    (hnone : reads target = none)
    (hgood : ∀ j < columns.length, j ≠ target → reads j = some (columns.getD j [])) :
    (∑ j ∈ range columns.length, weight j * byteAt i (columns.getD j [])) +
      ∑ j ∈ range columns.length, weight j * byteAt i ((reads j).getD []) =
    weight target * byteAt i (columns.getD target []) := by
  rw [← sum_add_distrib, sum_eq_single target]
  · rw [hnone, Option.getD_none, byteAt_nil, mul_zero, add_zero]
  · intro j hj hne
    rw [hgood j (mem_range.mp hj) hne, Option.getD_some, add_self]
  · exact fun h => absurd (mem_range.mpr htarget) h

theorem sum_all_but_two (weight : Nat → RaidByte) (i : Nat) {other : Nat}
    (htarget : target < columns.length) (hother : other < columns.length) (hne : other ≠ target)
    (hnone : reads target = none) (hgood : ∀ j < columns.length, j ≠ target → j ≠ other →
      reads j = some (columns.getD j [])) :
    (∑ j ∈ range columns.length, weight j * byteAt i (columns.getD j [])) +
      ∑ j ∈ range columns.length, weight j * byteAt i ((reads j).getD []) +
      weight other * byteAt i ((reads other).getD []) =
    weight target * byteAt i (columns.getD target []) +
      weight other * byteAt i (columns.getD other []) := by
  rw [← sum_add_distrib, sum_eq_add_of_mem target other (mem_range.mpr htarget)
    (mem_range.mpr hother) hne.symm]
  · rw [hnone, Option.getD_none, byteAt_nil, mul_zero, add_zero, add_assoc, add_assoc, add_self,
      add_zero]
  · rintro j hj ⟨hne, hne'⟩
    rw [hgood j (mem_range.mp hj) hne hne', Option.getD_some, add_self]

theorem single_p (hparities : Parities columns len p q) (htarget : target < columns.length)
    (hsizes : ∀ column ∈ columns, column.length = len) (hnone : reads target = none)
    (hrow : Captures len target reads columns.length row)
    (hgood : ∀ j < columns.length, j ≠ target → reads j = some (columns.getD j []))
    (q' : Option Bytes) :
    row.single target (some p) q' false = some (columns.getD target []) := by
  have hlen := hsizes _ (List.getElem_mem htarget)
  unfold CapturedRow.single
  rw [if_neg Bool.false_ne_true, Option.map_some]
  refine congrArg some (byteAt_ext ?_ fun i hi => ?_)
  · rw [List.length_zipWith, hparities.p_length, hrow.xor_length, Nat.min_self,
      List.getD_eq_getElem?_getD, List.getElem?_eq_getElem htarget, Option.getD_some, hlen]
  · rw [byteAt_zipWith rfl (by rw [hparities.p_length, hrow.xor_length])]
    show byteAt i p + byteAt i row.xor = _
    have hsum := sum_all_but_one (fun _ => 1) i htarget hnone hgood
    simp only [one_mul] at hsum
    rw [hparities.p_sum, hrow.xor, hsum]

theorem single_q (hparities : Parities columns len p q) (htarget : target < columns.length)
    (hsizes : ∀ column ∈ columns, column.length = len) (hnone : reads target = none)
    (hrow : Captures len target reads columns.length row)
    (hgood : ∀ j < columns.length, j ≠ target → reads j = some (columns.getD j []))
    (p' : Option Bytes) :
    row.single target p' (some q) true = some (columns.getD target []) := by
  have hlen := hsizes _ (List.getElem_mem htarget)
  have hdiv : ∀ b : BitVec 8, ofByte (gdiv b (gexp target)) = ofByte b / ofByte (gexp target) :=
    fun b => gdiv_eq_div b (gexp_ne_zero target)
  unfold CapturedRow.single
  rw [if_pos rfl, Option.map_some]
  refine congrArg some (byteAt_ext ?_ fun i hi => ?_)
  · rw [List.length_zipWith, hparities.q_length, hrow.weighted_length, Nat.min_self,
      List.getD_eq_getElem?_getD, List.getElem?_eq_getElem htarget, Option.getD_some, hlen]
  · have hzero : gdiv ((0 : BitVec 8) ^^^ 0) (gexp target) = 0 := if_pos rfl
    rw [@byteAt_zipWith (fun byte sum => gdiv (byte ^^^ sum) (gexp target)) hzero _ _
      (by rw [hparities.q_length, hrow.weighted_length]) i, hdiv]
    show (byteAt i q + byteAt i row.weighted) / _ = _
    rw [hparities.q_sum, hrow.weighted,
      sum_all_but_one (fun j => ofByte (gexp j)) i htarget hnone hgood,
      mul_div_cancel_left₀ _ (gexp_ne_zero target)]

theorem double_other (hparities : Parities columns len p q) (htarget : target < columns.length)
    (hcount : columns.length ≤ 255) (hsizes : ∀ column ∈ columns, column.length = len)
    (hnone : reads target = none) (hrow : Captures len target reads columns.length row) {other : Nat}
    (hother : other < columns.length) (hne : other ≠ target)
    (hgood : ∀ j < columns.length, j ≠ target → j ≠ other → reads j = some (columns.getD j [])) :
    row.double target (some p) (some q) other = some (columns.getD target []) := by
  have hlen := hsizes _ (List.getElem_mem htarget)
  -- the powers of two columns differ
  have hden : ofByte (gexp target ^^^ gexp other) = ofByte (gexp target) + ofByte (gexp other) := rfl
  have hden_ne : ofByte (gexp target ^^^ gexp other) ≠ 0 := by
    intro hzero
    rw [hden, ← add_self (ofByte (gexp other)), add_left_inj] at hzero
    exact hne (gexp_injective (by omega) (by omega) hzero).symm
  unfold CapturedRow.double
  dsimp only [Option.bind_some]
  rw [if_neg (show ¬ (gexp target ^^^ gexp other = 0) from hden_ne)]
  refine congrArg some (byteAt_ext ?_ fun i hi => ?_)
  · rw [List.length_map, List.length_range, hparities.p_length, List.getD_eq_getElem?_getD,
      List.getElem?_eq_getElem htarget, Option.getD_some, hlen]
  rw [List.length_map, List.length_range] at hi
  have hsuspect : row.data.getD other none = reads other := by
    rw [hrow.data, List.getD_eq_getElem?_getD, List.getElem?_map, List.getElem?_range hother,
      Option.map_some, Option.getD_some]
  -- the two sums that are left
  set s := byteAt i ((reads other).getD []) with hs
  set c := byteAt i (columns.getD target [])
  set d := byteAt i (columns.getD other [])
  have ha : byteAt i p + byteAt i row.xor + s = c + d := by
    have hsum := sum_all_but_two (fun _ => 1) i htarget hother hne hnone hgood
    simp only [one_mul] at hsum
    rw [hparities.p_sum, hrow.xor, hsum]
  have hb : byteAt i q + byteAt i row.weighted + ofByte (gexp other) * s =
      ofByte (gexp target) * c + ofByte (gexp other) * d := by
    rw [hparities.q_sum, hrow.weighted]
    exact sum_all_but_two (fun j => ofByte (gexp j)) i htarget hother hne hnone hgood
  unfold byteAt
  rw [List.getD_eq_getElem?_getD, List.getElem?_map, List.getElem?_range hi, Option.map_some,
    Option.getD_some, gdiv_eq_div _ hden_ne, hsuspect]
  show (byteAt i q + byteAt i row.weighted + ofByte (gmul _ _) + ofByte (gmul _ _)) / _ = c
  rw [gmul_eq_mul, gmul_eq_mul]
  show (byteAt i q + byteAt i row.weighted + ofByte (gexp other) * s +
    ofByte (gexp other) * (byteAt i p + byteAt i row.xor + s)) / _ = c
  have hsolved : ofByte (gexp target) * c + ofByte (gexp other) * d + ofByte (gexp other) * (c + d) =
      (ofByte (gexp target) + ofByte (gexp other)) * c := by
    rw [mul_add, add_mul, add_add_add_comm, add_self, add_zero]
  rw [ha, hb, hsolved, ← hden, mul_div_cancel_left₀ _ hden_ne]

end Solve

/-! ## Recovery -/

theorem firstAccepted_mem {accept : Bytes → Bool} {candidates : List (Option Bytes)} {bytes : Bytes}
    (h : firstAccepted accept candidates = some bytes) : accept bytes = true := by
  induction candidates with
  | nil => cases h
  | cons candidate rest ih =>
    cases candidate with
    | none => exact ih h
    | some b =>
      unfold firstAccepted at h
      split_ifs at h with haccept
      · cases h
        exact haccept
      · exact ih h

theorem firstAccepted_exact {accept : Bytes → Bool} {candidates : List (Option Bytes)}
    {bytes : Bytes} (haccept : ∀ b, accept b = true ↔ b = bytes) (h : some bytes ∈ candidates) :
    firstAccepted accept candidates = some bytes := by
  induction candidates with
  | nil => cases h
  | cons candidate rest ih =>
    cases candidate with
    | none => exact ih ((List.mem_cons.mp h).resolve_left (by simp))
    | some b =>
      unfold firstAccepted
      split_ifs with hb
      · rw [(haccept b).mp hb]
      · refine ih ((List.mem_cons.mp h).resolve_left ?_)
        rintro heq
        cases heq
        exact hb ((haccept bytes).mpr rfl)

/-- What the slots of a row are to hold: the columns, P, and for RAID6 also Q. -/
def rowContents (columns : List Bytes) (len parityCount : Nat) : List Bytes :=
  columns ++ [(List.range len).map fun i => parityP i columns,
    (List.range len).map fun i => parityQ i 0 columns].take parityCount

/-- The slots of the row but the lost one and the `bad` ones hold what they are to hold; a bad one
cannot be read, or it holds anything. One slot less than there are parities may be bad. -/
structure RowHolds (devices : BtrfsDeviceSet) (row : BtrfsRaid56Row) (target len : Nat)
    (columns : List Bytes) (bad : List Nat) : Prop where
  length : columns.length = row.dataSlots.length
  sizes : ∀ column ∈ columns, column.length = len
  budget : bad.length < row.paritySlots.length
  good : ∀ k slot bytes, (row.dataSlots ++ row.paritySlots)[k]? = some slot →
    (rowContents columns len row.paritySlots.length)[k]? = some bytes → k ≠ target → k ∉ bad →
    devices.readPhysical slot.devid slot.physical len = .ok bytes
  readable : ∀ k ∈ bad, ∀ slot, (row.dataSlots ++ row.paritySlots)[k]? = some slot →
    (∃ bytes, devices.readPhysical slot.devid slot.physical len = .ok bytes) ∨
      ∃ e, devices.readPhysical slot.devid slot.physical len = .error e ∧ isErasure e = true

def Erased (devices : BtrfsDeviceSet) (row : BtrfsRaid56Row) (len : Nat) (bad : List Nat) : Prop :=
  ∀ k ∈ bad, ∀ slot, (row.dataSlots ++ row.paritySlots)[k]? = some slot →
    ∃ e, devices.readPhysical slot.devid slot.physical len = .error e ∧ isErasure e = true

section Recovery

variable {devices : BtrfsDeviceSet} {chunks : List BtrfsChunkEntry} {logical len target : Nat}
  {row : BtrfsRaid56Row} {columns : List Bytes} {bad : List Nat}

theorem readShape_ok (h : readShape chunks logical len = .ok (some (row, target))) :
    target < row.dataSlots.length ∧ row.dataSlots.length ≤ 255 ∧ row.paritySlots.length ≤ 2 := by
  obtain ⟨found, -, h⟩ := bind_ok.mp h
  obtain ⟨mapping, -, h⟩ := bind_ok.mp h
  split_ifs at h
  · cases h
  obtain ⟨found, hfound, h⟩ := bind_ok.mp h
  obtain ⟨slots, hslots, h⟩ := bind_ok.mp h
  obtain ⟨_, hgeometry, h⟩ := bind_ok.mp h
  obtain ⟨_, -, h⟩ := bind_ok.mp h
  obtain ⟨idx, hidx, h⟩ := bind_ok.mp h
  cases h
  refine ⟨?_, ?_, ?_⟩
  · cases hfind : row.dataSlots.findIdx? fun slot => mapping.stripes.head? = some slot with
    | none =>
      rw [hfind] at hidx
      cases hidx
    | some i =>
      rw [hfind] at hidx
      cases hidx
      exact (List.findIdx?_eq_some_iff_findIdx_eq.mp hfind).1
  · have := failIf_ok.mp hgeometry
    simp only [not_or] at this
    omega
  · cases found with
    | none => cases hslots
    | some row' =>
      cases hslots
      cases hrow : resolveRaid56Row chunks logical with
      | error e =>
        rw [hrow] at hfound
        cases hfound
      | ok r =>
        rw [hrow] at hfound
        cases hfound
        unfold resolveRaid56Row at hrow
        cases hc : coveringChunk chunks logical with
        | none =>
          rw [hc] at hrow
          cases hrow
        | some chunk =>
          rw [hc, Option.elim_some] at hrow
          dsimp only at hrow
          split_ifs at hrow with hprofile
          · obtain ⟨r, hr, heq⟩ := map_ok.mp hrow
            cases heq
            have hparities := chunkRow_ok hprofile hr
            rw [← hparities.parities.length_eq, hparities.parityIdx, List.length_map,
              List.length_range, BtrfsRaidProfile.parityCount]
            split_ifs
            · exact le_rfl
            · exact Nat.le_succ 1
          · cases hrow

def readOf (devices : BtrfsDeviceSet) (len : Nat) (slot : BtrfsPhysicalMapping) : Option Bytes :=
  (devices.readPhysical slot.devid slot.physical len).toOption

theorem length_readOf {slot : BtrfsPhysicalMapping} {bytes : Bytes}
    (h : readOf devices len slot = some bytes) : bytes.length = len := by
  unfold readOf at h
  cases hread : devices.readPhysical slot.devid slot.physical len with
  | error e =>
    rw [hread] at h
    cases h
  | ok data =>
    rw [hread] at h
    cases h
    obtain ⟨reader, -, hread⟩ := bind_ok.mp hread
    obtain ⟨_, -, hread⟩ := bind_ok.mp hread
    obtain ⟨data, -, hread⟩ := bind_ok.mp hread
    obtain ⟨_, hlen, hread⟩ := bind_ok.mp hread
    cases hread
    exact not_not.mp (failIf_ok.mp hlen)

theorem length_rowContents (hle : row.paritySlots.length ≤ 2)
    (h : columns.length = row.dataSlots.length) :
    (rowContents columns len row.paritySlots.length).length =
      (row.dataSlots ++ row.paritySlots).length := by
  rw [rowContents, List.length_append, List.length_append, List.length_take, h]
  simp only [List.length_cons, List.length_nil]
  omega

theorem RowHolds.readOf_good (h : RowHolds devices row target len columns bad) {k : Nat}
    {slot : BtrfsPhysicalMapping} {bytes : Bytes}
    (hslot : (row.dataSlots ++ row.paritySlots)[k]? = some slot)
    (hbytes : (rowContents columns len row.paritySlots.length)[k]? = some bytes) (hk : k ≠ target)
    (hbad : k ∉ bad) : readOf devices len slot = some bytes := by
  rw [readOf, h.good k slot bytes hslot hbytes hk hbad]
  rfl

theorem RowHolds.readRaid56Slot_eq (h : RowHolds devices row target len columns bad)
    (hle : row.paritySlots.length ≤ 2) {k : Nat} {slot : BtrfsPhysicalMapping}
    (hslot : (row.dataSlots ++ row.paritySlots)[k]? = some slot) (hk : k ≠ target) :
    readRaid56Slot devices slot len = .ok (readOf devices len slot) := by
  have hcases : (∃ bytes, devices.readPhysical slot.devid slot.physical len = .ok bytes) ∨
      ∃ e, devices.readPhysical slot.devid slot.physical len = .error e ∧ isErasure e = true := by
    by_cases hbad : k ∈ bad
    · exact h.readable k hbad slot hslot
    · have hlt : k < (rowContents columns len row.paritySlots.length).length := by
        rw [length_rowContents hle h.length]
        exact (List.getElem?_eq_some_iff.mp hslot).1
      exact Or.inl ⟨_, h.good k slot _ hslot (List.getElem?_eq_getElem hlt) hk hbad⟩
  unfold readRaid56Slot readOf
  rcases hcases with ⟨bytes, hread⟩ | ⟨e, hread, herasure⟩
  · rw [hread]
    rfl
  · rw [hread]
    exact if_pos herasure

theorem parities_of_columns (hsizes : ∀ column ∈ columns, column.length = len) :
    Parities columns len ((List.range len).map fun i => parityP i columns)
      ((List.range len).map fun i => parityQ i 0 columns) := by
  have hbehind : ∀ i, ¬ i < len → ∀ j, byteAt i (columns.getD j []) = 0 := by
    intro i hi j
    rw [List.getD_eq_getElem?_getD]
    cases hj : columns[j]? with
    | none => rfl
    | some column =>
      have hlen := hsizes column (List.mem_of_getElem? hj)
      rw [Option.getD_some, byteAt, List.getD_eq_getElem?_getD,
        List.getElem?_eq_none (by omega)]
      rfl
  have hvalue : ∀ (f : Nat → BitVec 8) i, byteAt i ((List.range len).map f) =
      if i < len then ofByte (f i) else 0 := by
    intro f i
    rw [byteAt, List.getD_eq_getElem?_getD, List.getElem?_map]
    split_ifs with hi
    · rw [List.getElem?_range hi]
      rfl
    · rw [List.getElem?_eq_none (by simpa using hi)]
      rfl
  refine ⟨by simp, by simp, fun i => ?_, fun i => ?_⟩
  · rw [hvalue]
    split_ifs with hi
    · exact parityP_eq_sum i columns
    · exact (sum_eq_zero fun j _ => hbehind i hi j).symm
  · rw [hvalue]
    split_ifs with hi
    · rw [parityQ_eq_sum]
      simp only [Nat.zero_add]
    · exact (sum_eq_zero fun j _ => by rw [hbehind i hi j, mul_zero]).symm

def readsOf (devices : BtrfsDeviceSet) (len target : Nat) (slots : List BtrfsPhysicalMapping)
    (j : Nat) : Option Bytes :=
  if j = target then none else slots[j]?.bind (readOf devices len)

structure Capture (devices : BtrfsDeviceSet) (row : BtrfsRaid56Row) (target len : Nat)
    (captured : CapturedRow) (p q : Option Bytes) : Prop where
  captures : Captures len target (readsOf devices len target row.dataSlots) row.dataSlots.length
    captured
  p_read : p = row.paritySlots[0]?.bind (readOf devices len)
  q_read : q = row.paritySlots[1]?.bind (readOf devices len)

theorem RowHolds.reconstruct_eq (h : RowHolds devices row target len columns bad)
    (hshape : readShape chunks logical len = .ok (some (row, target))) :
    ∃ captured p q, Capture devices row target len captured p q ∧
      ∀ accept, reconstructRaid56 devices chunks logical len accept =
        .ok (firstAccepted accept (captured.candidates target p q)) := by
  obtain ⟨htarget, -, hle⟩ := readShape_ok hshape
  have hstart : Captures len target (readsOf devices len target row.dataSlots) 0
      ⟨[], [], List.replicate len 0, List.replicate len 0⟩ := by
    have hzero : ∀ i, byteAt i (List.replicate len 0) = 0 := by
      intro i
      rw [byteAt, List.getD_eq_getElem?_getD, List.getElem?_replicate]
      split_ifs
      · rfl
      · rfl
    exact ⟨rfl, rfl, by simp, by simp, hzero, hzero⟩
  obtain ⟨captured, hcapture, hcaptures⟩ := @captureData_captures len target 0
    (readsOf devices len target row.dataSlots) _ devices row.dataSlots (if_pos rfl) (by
      intro j slot hslot hne
      rw [Nat.zero_add] at hne ⊢
      rw [readsOf, if_neg hne, hslot, Option.bind_some]
      refine h.readRaid56Slot_eq hle ?_ hne
      rw [List.getElem?_append_left (List.getElem?_eq_some_iff.mp hslot).1, hslot]) (by
      intro j bytes hread
      unfold readsOf at hread
      split_ifs at hread
      obtain ⟨slot, -, hread⟩ := Option.bind_eq_some_iff.mp hread
      exact length_readOf hread) hstart
  have hparities : row.paritySlots.mapM (fun slot => readRaid56Slot devices slot len) =
      .ok (row.paritySlots.map (readOf devices len)) := by
    rw [mapM_eq_ok, List.forall₂_map_right_iff, List.forall₂_same]
    intro slot hslot
    obtain ⟨k, hk⟩ := List.getElem?_of_mem hslot
    refine h.readRaid56Slot_eq hle (k := row.dataSlots.length + k) ?_ (by omega)
    rw [List.getElem?_append_right (Nat.le_add_right ..), Nat.add_sub_cancel_left, hk]
  refine ⟨captured, _, _, ⟨Nat.zero_add row.dataSlots.length ▸ hcaptures, rfl, rfl⟩,
    fun accept => ?_⟩
  unfold reconstructRaid56
  rw [hshape, ok_bind, Option.elim_some]
  dsimp only
  rw [hcapture, ok_bind, hparities, ok_bind]
  have hget : ∀ k, (row.paritySlots.map (readOf devices len)).getD k none =
      row.paritySlots[k]?.bind (readOf devices len) := by
    intro k
    rw [List.getD_eq_getElem?_getD, List.getElem?_map]
    cases row.paritySlots[k]? with
    | none => rfl
    | some slot => rfl
  rw [hget, hget]
  rfl

section Candidates

variable {captured : CapturedRow} {p q : Option Bytes}

theorem RowHolds.reads_good (h : RowHolds devices row target len columns bad) {j : Nat}
    (hj : j < columns.length) (hne : j ≠ target) (hbad : j ∉ bad) :
    readsOf devices len target row.dataSlots j = some (columns.getD j []) := by
  have hslot := List.getElem?_eq_getElem (h.length ▸ hj)
  rw [readsOf, if_neg hne, hslot, Option.bind_some]
  refine h.readOf_good (k := j) ?_ ?_ hne hbad
  · rw [List.getElem?_append_left (h.length ▸ hj), hslot]
  · rw [rowContents, List.getElem?_append_left hj, List.getD_eq_getElem?_getD,
      List.getElem?_eq_getElem hj, Option.getD_some]

theorem RowHolds.parity_good (h : RowHolds devices row target len columns bad)
    (htarget : target < columns.length) {k : Nat} (hk : k < row.paritySlots.length)
    (hbad : columns.length + k ∉ bad) {bytes : Bytes}
    (hbytes : ([(List.range len).map fun i => parityP i columns,
      (List.range len).map fun i => parityQ i 0 columns].take row.paritySlots.length)[k]? =
        some bytes) :
    row.paritySlots[k]?.bind (readOf devices len) = some bytes := by
  have hslot := List.getElem?_eq_getElem hk
  rw [hslot, Option.bind_some]
  refine h.readOf_good (k := columns.length + k) ?_ ?_ (by omega) hbad
  · rw [h.length, List.getElem?_append_right (Nat.le_add_right ..), Nat.add_sub_cancel_left, hslot]
  · rw [rowContents, List.getElem?_append_right (Nat.le_add_right ..), Nat.add_sub_cancel_left,
      hbytes]

theorem candidates_of_none (h : captured.missing = []) :
    captured.candidates target p q =
      [captured.single target p q false, captured.single target p q true] ++
      if p.isSome && q.isSome then
        ((List.range captured.data.length).filter (· ≠ target)).map (captured.double target p q)
      else [] := by
  unfold CapturedRow.candidates
  rw [h]

theorem RowHolds.bad_eq (h : RowHolds devices row target len columns bad)
    (hle : row.paritySlots.length ≤ 2) {k : Nat} (hk : k ∈ bad) :
    bad = [k] ∧ 1 < row.paritySlots.length := by
  have hbudget := h.budget
  cases bad with
  | nil => cases hk
  | cons k' ks =>
    rw [List.length_cons] at hbudget
    obtain rfl : ks = [] := List.length_eq_zero_iff.mp (by omega)
    exact ⟨by rw [List.mem_singleton.mp hk], by omega⟩

theorem Captures.missing_eq_nil {n : Nat} {reads : Nat → Option Bytes}
    (h : Captures len target reads n captured)
    (hread : ∀ j < n, j ≠ target → reads j ≠ none) : captured.missing = [] := by
  rw [h.missing, List.filter_eq_nil_iff]
  intro j hj
  simp only [decide_eq_true_eq, not_and]
  exact hread j (List.mem_range.mp hj)

theorem Captures.missing_eq_singleton {n k : Nat} {reads : Nat → Option Bytes}
    (h : Captures len target reads n captured) (hk : k < n) (hne : k ≠ target)
    (hnone : reads k = none) (hread : ∀ j < n, j ≠ target → j ≠ k → reads j ≠ none) :
    captured.missing = [k] := by
  have hfilter : (List.range n).filter (fun j => decide (j ≠ target ∧ reads j = none)) =
      (List.range n).filter (· == k) := by
    refine List.filter_congr fun j hj => ?_
    by_cases hjk : j = k
    · simp [hjk, hne, hnone]
    · by_cases hjt : j = target
      · simp [hjt, hne.symm]
      · simp [hread j (List.mem_range.mp hj) hjt hjk, hjk]
  rw [h.missing, hfilter, List.filter_beq,
    List.count_eq_one_of_mem List.nodup_range (List.mem_range.mpr hk)]
  rfl

theorem RowHolds.p_good (h : RowHolds devices row target len columns bad)
    (htarget : target < columns.length) (hcapture : Capture devices row target len captured p q)
    (hbad : columns.length ∉ bad) : p = some ((List.range len).map fun i => parityP i columns) := by
  have hbudget := h.budget
  have hk : 0 < row.paritySlots.length := by omega
  rw [hcapture.p_read]
  exact h.parity_good htarget hk hbad (by rw [List.getElem?_take_of_lt hk]; rfl)

theorem RowHolds.q_good (h : RowHolds devices row target len columns bad)
    (htarget : target < columns.length) (hcapture : Capture devices row target len captured p q)
    (hk : 1 < row.paritySlots.length) (hbad : columns.length + 1 ∉ bad) :
    q = some ((List.range len).map fun i => parityQ i 0 columns) := by
  rw [hcapture.q_read]
  exact h.parity_good htarget hk hbad (by rw [List.getElem?_take_of_lt hk]; rfl)

theorem RowHolds.candidates_parity (h : RowHolds devices row target len columns bad)
    (htarget : target < columns.length) (hle : row.paritySlots.length ≤ 2)
    (hcapture : Capture devices row target len captured p q)
    (hdata : ∀ j < columns.length, j ≠ target → j ∉ bad) :
    some (columns.getD target []) ∈ captured.candidates target p q ∧
      (Erased devices row len bad → firstAccepted (fun _ => true)
        (captured.candidates target p q) = some (columns.getD target [])) := by
  have hcaptures := h.length ▸ hcapture.captures
  have hparities := parities_of_columns h.sizes
  have hnone : readsOf devices len target row.dataSlots target = none := if_pos rfl
  have hgood := fun j hj hne => h.reads_good hj hne (hdata j hj hne)
  rw [candidates_of_none (hcaptures.missing_eq_nil fun j hj hne => by
    rw [hgood j hj hne]; exact Option.some_ne_none _)]
  by_cases hpbad : columns.length ∈ bad
  · -- P is bad, so Q is not
    obtain ⟨hbad, htwo⟩ := h.bad_eq hle hpbad
    have hsingle := single_q hparities htarget h.sizes hnone hcaptures hgood p
    rw [← h.q_good htarget hcapture htwo (by rw [hbad]; simp)] at hsingle
    refine ⟨by rw [hsingle]; simp, fun herased => ?_⟩
    have hk : 0 < row.paritySlots.length := by omega
    obtain ⟨e, hread, -⟩ := herased columns.length hpbad row.paritySlots[0] (by
      rw [h.length, List.getElem?_append_right le_rfl, Nat.sub_self, List.getElem?_eq_getElem hk])
    have hpnone : p = none := by
      rw [hcapture.p_read, List.getElem?_eq_getElem hk, Option.bind_some, readOf, hread]
      rfl
    rw [hsingle, hpnone]
    rfl
  · have hsingle := single_p hparities htarget h.sizes hnone hcaptures hgood q
    rw [← h.p_good htarget hcapture hpbad] at hsingle
    rw [hsingle]
    exact ⟨List.mem_cons_self, fun _ => rfl⟩

/-- **The lost column is among the candidates; where the bad slots cannot be read it is the first
one.** -/
theorem RowHolds.candidates (h : RowHolds devices row target len columns bad)
    (htarget : target < columns.length) (hcount : columns.length ≤ 255)
    (hle : row.paritySlots.length ≤ 2) (hcapture : Capture devices row target len captured p q) :
    some (columns.getD target []) ∈ captured.candidates target p q ∧
      (Erased devices row len bad → firstAccepted (fun _ => true)
        (captured.candidates target p q) = some (columns.getD target [])) := by
  by_cases hdata : ∀ j < columns.length, j ≠ target → j ∉ bad
  · exact h.candidates_parity htarget hle hcapture hdata
  -- one other column is bad, and all else is not
  push Not at hdata
  obtain ⟨k, hk, hne, hkbad⟩ := hdata
  obtain ⟨hbad, htwo⟩ := h.bad_eq hle hkbad
  have hcaptures := h.length ▸ hcapture.captures
  have hgood : ∀ j < columns.length, j ≠ target → j ≠ k →
      readsOf devices len target row.dataSlots j = some (columns.getD j []) := by
    intro j hj hj' hjk
    exact h.reads_good hj hj' (by rw [hbad]; simpa using hjk)
  have hsome : ∀ j < columns.length, j ≠ target → j ≠ k →
      readsOf devices len target row.dataSlots j ≠ none := by
    intro j hj hj' hjk
    rw [hgood j hj hj' hjk]
    exact Option.some_ne_none _
  have hp := h.p_good htarget hcapture (by rw [hbad]; simp; omega)
  have hq := h.q_good htarget hcapture htwo (by rw [hbad]; simp; omega)
  have hdouble := double_other (parities_of_columns h.sizes) htarget hcount h.sizes (if_pos rfl)
    hcaptures hk hne hgood
  rw [← hp, ← hq] at hdouble
  cases hread : readsOf devices len target row.dataSlots k with
  | none =>
    have hcandidates : captured.candidates target p q = [captured.double target p q k] := by
      unfold CapturedRow.candidates
      rw [hcaptures.missing_eq_singleton hk hne hread hsome]
    rw [hcandidates, hdouble]
    exact ⟨List.mem_cons_self, fun _ => rfl⟩
  | some bytes =>
    rw [candidates_of_none (hcaptures.missing_eq_nil fun j hj hjt => by
      by_cases hjk : j = k
      · rw [hjk, hread]; exact Option.some_ne_none _
      · exact hsome j hj hjt hjk)]
    refine ⟨List.mem_append_right _ ?_, fun herased => ?_⟩
    · rw [if_pos (by rw [hp, hq]; rfl), ← hdouble]
      refine List.mem_map_of_mem (List.mem_filter.mpr ⟨?_, by simpa using hne⟩)
      rw [hcaptures.data, List.length_map, List.length_range]
      exact List.mem_range.mpr hk
    · -- a column that cannot be read was not read
      have hlt : k < row.dataSlots.length := h.length ▸ hk
      obtain ⟨e, herror, -⟩ := herased k hkbad row.dataSlots[k] (by
        rw [List.getElem?_append_left hlt, List.getElem?_eq_getElem hlt])
      rw [readsOf, if_neg hne, List.getElem?_eq_getElem hlt, Option.bind_some, readOf,
        herror] at hread
      cases hread

end Candidates

end Recovery

/-- **A lost column is recovered within the budget of the row.** -/
theorem reconstructRaid56_recovers (devices : BtrfsDeviceSet) (chunks : List BtrfsChunkEntry)
    (logical len : Nat) :
    (∀ row target columns bad, readShape chunks logical len = .ok (some (row, target)) →
      RowHolds devices row target len columns bad →
      ∃ original, columns[target]? = some original ∧
        (∀ accept : Bytes → Bool, (∀ b, accept b = true ↔ b = original) →
          reconstructRaid56 devices chunks logical len accept = .ok (some original)) ∧
        (Erased devices row len bad →
          reconstructRaid56 devices chunks logical len (fun _ => true) = .ok (some original))) ∧
    ∀ accept bytes, reconstructRaid56 devices chunks logical len accept = .ok (some bytes) →
      accept bytes = true := by
  constructor
  · intro row target columns bad hshape h
    obtain ⟨htarget, hcount, hle⟩ := readShape_ok hshape
    rw [← h.length] at htarget hcount
    obtain ⟨captured, p, q, hcapture, hreconstruct⟩ := h.reconstruct_eq hshape
    obtain ⟨hmem, herased⟩ := h.candidates htarget hcount hle hcapture
    refine ⟨columns.getD target [], ?_, fun accept haccept => ?_, fun hbad => ?_⟩
    · rw [List.getD_eq_getElem?_getD, List.getElem?_eq_getElem htarget, Option.getD_some]
    · rw [hreconstruct, firstAccepted_exact haccept hmem]
    · rw [hreconstruct, herased hbad]
  · intro accept bytes h
    obtain ⟨shape, -, h⟩ := bind_ok.mp h
    cases shape with
    | none => cases h
    | some shape =>
      rw [Option.elim_some] at h
      obtain ⟨captured, -, h⟩ := bind_ok.mp h
      obtain ⟨parities, -, h⟩ := bind_ok.mp h
      exact firstAccepted_mem (Except.ok.inj h)

def raid6Chunk : BtrfsChunkEntry := ⟨0, 8, 4, 256#64, 4, 1, [⟨1, 0⟩, ⟨2, 0⟩, ⟨3, 0⟩, ⟨4, 0⟩]⟩

def sampleDevices : BtrfsDeviceSet := fun devid =>
  if devid = 3 then some fun _ _ => .ok [12]
  else if devid = 4 then some fun _ _ => .ok [23]
  else none

theorem reconstructRaid56_recovers_sample :
    reconstructRaid56 sampleDevices [raid6Chunk] 0 1 (fun _ => true) = .ok (some [5]) := by
  have hshape : readShape [raid6Chunk] 0 1 = .ok (some
      (⟨[⟨1, 0⟩, ⟨2, 0⟩], [⟨3, 0⟩, ⟨4, 0⟩], [0, 1], [2, 3], 0, 0, 4, 2⟩, 0)) := rfl
  have hrow : RowHolds sampleDevices
      ⟨[⟨1, 0⟩, ⟨2, 0⟩], [⟨3, 0⟩, ⟨4, 0⟩], [0, 1], [2, 3], 0, 0, 4, 2⟩ 0 1 [[5], [9]] [1] := by
    refine ⟨rfl, by decide, by decide, ?_, ?_⟩
    · intro k slot bytes hslot hbytes hk hbad
      have hlt : k < 4 := (List.getElem?_eq_some_iff.mp hslot).1
      obtain rfl | rfl | rfl | rfl : k = 0 ∨ k = 1 ∨ k = 2 ∨ k = 3 := by omega
      · exact absurd rfl hk
      · exact absurd List.mem_cons_self hbad
      · cases hslot
        cases hbytes
        rfl
      · cases hslot
        cases hbytes
        rfl
    · intro k hk slot hslot
      obtain rfl := List.mem_singleton.mp hk
      cases hslot
      exact Or.inr ⟨.missingDevice 2, rfl, rfl⟩
  obtain ⟨original, horiginal, -, herased⟩ :=
    (reconstructRaid56_recovers sampleDevices [raid6Chunk] 0 1).1 _ _ _ _ hshape hrow
  cases horiginal
  refine herased fun k hk slot hslot => ?_
  obtain rfl := List.mem_singleton.mp hk
  cases hslot
  exact ⟨.missingDevice 2, rfl, rfl⟩

end FrankenFs.Btrfs.Raid56
