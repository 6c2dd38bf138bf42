import FrankenFs.Lib.SymbolSums
import FrankenFs.Repair.Lrc
import Mathlib.Data.List.ReduceOption
import Mathlib.LinearAlgebra.Vandermonde
import Mathlib.Tactic.Abel

/-!
# What is lost comes back

The lost blocks solve the equations of the parity blocks that are left. The solution is theirs alone
where their weights in those equations are not singular: always with the first rows, and not always
with others.
-/

open FrankenFs.Lib

namespace FrankenFs.Repair

open Gf256

/-! ## Sums at one place -/

variable {dst src : Block}

theorem xorInto_eq (h : src.length = dst.length) :
    xorInto dst src = List.zipWith (· + ·) dst src := by
  fun_induction xorInto dst src with
  | case1 d dst s src ih => rw [ih (Nat.succ.inj h), List.zipWith_cons_cons]
  | case2 dst => rw [List.length_eq_zero_iff.mp h.symm, List.zipWith_nil_left]
  | case3 => rfl

theorem length_xorInto (h : src.length = dst.length) :
    (xorInto dst src).length = dst.length := by simp [xorInto_eq h, h]

theorem valueAt_xorInto (h : src.length = dst.length) (t : Nat) :
    valueAt t (xorInto dst src) = valueAt t dst + valueAt t src := by
  rw [xorInto_eq h, valueAt_zipWith (add_zero 0) h]

theorem length_weigh (coeff : Gf256) (src : Block) : (weigh coeff src).length = src.length := by
  unfold weigh
  split_ifs
  · rfl
  · exact List.length_map ..

theorem valueAt_weigh (coeff : Gf256) (src : Block) (t : Nat) :
    valueAt t (weigh coeff src) = coeff * valueAt t src := by
  unfold weigh
  split_ifs with h1
  · rw [h1, one_mul]
  · rw [valueAt_map ((mul_eq_mulLogExp coeff 0).symm.trans (mul_zero coeff)), mul_eq_mulLogExp]

theorem mulXorInto_zero (dst src : Block) : mulXorInto dst src 0 = dst := if_pos rfl

theorem length_mulXorInto (h : src.length = dst.length) (coeff : Gf256) :
    (mulXorInto dst src coeff).length = dst.length := by
  unfold mulXorInto
  split_ifs
  · rfl
  · exact length_xorInto ((length_weigh coeff src).trans h)

theorem valueAt_mulXorInto (h : src.length = dst.length) (coeff : Gf256) (t : Nat) :
    valueAt t (mulXorInto dst src coeff) = valueAt t dst + coeff * valueAt t src := by
  unfold mulXorInto
  split_ifs with h0
  · rw [h0, zero_mul, add_zero]
  · rw [valueAt_xorInto ((length_weigh coeff src).trans h), valueAt_weigh]

theorem mulXorPairInto_eq {lhs rhs : Block} (hl : lhs.length = dst.length)
    (hr : rhs.length = dst.length) (lhsCoeff rhsCoeff : Gf256) :
    mulXorPairInto dst lhs lhsCoeff rhs rhsCoeff =
      mulXorInto (mulXorInto dst lhs lhsCoeff) rhs rhsCoeff := by
  have hlen := length_mulXorInto hl lhsCoeff
  have hweigh : (weigh rhsCoeff rhs).length = (weigh lhsCoeff lhs).length := by
    rw [length_weigh, length_weigh, hl, hr]
  have hzip : (List.zipWith (· + ·) (weigh lhsCoeff lhs) (weigh rhsCoeff rhs)).length =
      dst.length := by
    rw [List.length_zipWith, hweigh, min_self, length_weigh, hl]
  unfold mulXorPairInto
  split_ifs with h0 h0'
  · rw [h0, mulXorInto_zero]
  · rw [h0', mulXorInto_zero]
  · refine valueAt_ext ?_ fun t => ?_
    · rw [length_xorInto hzip, length_mulXorInto (hr.trans hlen.symm), hlen]
    · rw [valueAt_xorInto hzip, valueAt_zipWith (add_zero 0) hweigh, valueAt_mulXorInto (hr.trans hlen.symm),
        valueAt_mulXorInto hl, valueAt_weigh, valueAt_weigh, add_assoc]

/-! ## Parity -/

theorem encodeRow_spec {size : Nat} (step coeff : Gf256) {data : List Block} {parity : Block}
    (hdata : ∀ block ∈ data, block.length = size) (hparity : parity.length = size) :
    (encodeRow step coeff data parity).length = size ∧
      ∀ t, valueAt t (encodeRow step coeff data parity) = valueAt t parity +
        ((List.range data.length).map fun i =>
          coeff * step ^ i * valueAt t (data.getD i [])).sum := by
  fun_induction encodeRow step coeff data parity with
  | case1 coeff parity => exact ⟨hparity, fun t => by simp⟩
  | case2 coeff block parity =>
    have hlen : block.length = parity.length := (hdata block (by simp)).trans hparity.symm
    refine ⟨(length_mulXorInto hlen _).trans hparity, fun t => ?_⟩
    rw [valueAt_mulXorInto hlen]
    simp
  | case3 coeff lhs rhs data parity rhsCoeff ih =>
    have hl : lhs.length = parity.length := (hdata lhs (by simp)).trans hparity.symm
    have hr : rhs.length = parity.length := (hdata rhs (by simp)).trans hparity.symm
    have hfirst := length_mulXorInto hl coeff
    have hlen : (mulXorPairInto parity lhs coeff rhs rhsCoeff).length = parity.length := by
      rw [mulXorPairInto_eq hl hr, length_mulXorInto (hr.trans hfirst.symm), hfirst]
    obtain ⟨hsize, hsum⟩ := ih (fun block hb => hdata block (by simp [hb])) (hlen.trans hparity)
    refine ⟨hsize, fun t => ?_⟩
    have hrhs : rhsCoeff = coeff * step := (mul_eq_mulLogExp coeff step).symm
    have hshift : ∀ i, coeff * step ^ (i + 2) = coeff * step * step * step ^ i := fun i => by ring
    rw [hsum, mulXorPairInto_eq hl hr, valueAt_mulXorInto (hr.trans hfirst.symm),
      valueAt_mulXorInto hl, ← mul_eq_mulLogExp, hrhs]
    simp only [List.length_cons, List.range_succ_eq_map, List.map_cons, List.map_map,
      List.sum_cons, Function.comp_def, List.getD_cons_zero, List.getD_cons_succ, pow_zero,
      mul_one, zero_add, pow_one, Nat.succ_eq_add_one, Nat.add_assoc, Nat.reduceAdd, hshift]
    abel

theorem globalParityCoeff_eq (i j : Nat) :
    globalParityCoeff i j = globalParityRowStep j * globalParityRowStep j ^ i := by
  unfold globalParityCoeff globalParityRowStep generatorPow
  rw [Nat.mod_mod, exp_mod, exp_mod, ← pow_succ', ← exp_mul, Nat.mul_comm]

section Repaired

variable {k r p size : Nat} {config : LrcConfig} {data global : List Block}

/-- Accepted configurations, and data blocks that fit them. -/
structure Fits (k r p size : Nat) (config : LrcConfig) (data : List Block) : Prop where
  accepted : LrcConfig.new k r p = some config
  count : data.length = k
  pos : 0 < size
  blocks : ∀ block ∈ data, block.length = size

theorem LrcConfig.new_eq_some (h : LrcConfig.new k r p = some config) :
    config = ⟨k, r, p⟩ ∧ 0 < k ∧ 0 < r ∧ k % r = 0 ∧ p ≤ 255 ∧ (p = 0 ∨ k ≤ 255) := by
  unfold LrcConfig.new at h
  split_ifs at h with hok
  cases h
  exact ⟨rfl, hok.1, hok.2.1, hok.2.2.1, hok.2.2.2.1, hok.2.2.2.2.1⟩

theorem Fits.headD (h : Fits k r p size config data) : (data.headD []).length = size := by
  obtain ⟨-, hpos, -⟩ := LrcConfig.new_eq_some h.accepted
  have hlen := h.count
  cases hd : data with
  | nil =>
    rw [hd] at hlen
    exact absurd hlen.symm hpos.ne'
  | cons block rest => exact h.blocks block (by simp [hd])

/-- **Every byte of global parity is the sum of the data bytes with their coefficients.** -/
theorem Fits.encodeGlobal (h : Fits k r p size config data) :
    ∃ global, encodeGlobal config data = some global ∧ global.length = p ∧
      ∀ j parity, global[j]? = some parity → parity.length = size ∧ ∀ t, valueAt t parity =
        ((List.range k).map fun i =>
          globalParityCoeff i j * valueAt t (data.getD i [])).sum := by
  obtain ⟨rfl, hk, -, -, hp, hk255⟩ := LrcConfig.new_eq_some h.accepted
  have hsizes : 0 < (data.headD []).length ∧
      ∀ block ∈ data, block.length = (data.headD []).length := by
    rw [h.headD]
    exact ⟨h.pos, h.blocks⟩
  refine ⟨_, if_pos ⟨hk, h.count, hp, hk255, fun _ => hsizes⟩, by simp, fun j parity hj => ?_⟩
  rw [List.getElem?_map, Option.map_eq_some_iff] at hj
  obtain ⟨j', hj', rfl⟩ := hj
  obtain ⟨-, rfl⟩ := List.getElem?_eq_some_iff.mp hj'
  obtain ⟨hlen, hsum⟩ := @encodeRow_spec size (globalParityRowStep j) (globalParityRowStep j) data
    (List.replicate (data.headD []).length 0) h.blocks (by rw [List.length_replicate, h.headD])
  rw [List.getElem_range]
  refine ⟨hlen, fun t => ?_⟩
  rw [hsum, valueAt_replicate, zero_add, h.count]
  simp only [globalParityCoeff_eq]

/-! ## The equations -/

structure Survives (encoded : List Block) (blocks : List (Option Block)) : Prop where
  length : blocks.length = encoded.length
  same : ∀ (i : Nat) (block : Block), blocks.getD i none = some block → encoded.getD i [] = block

variable {i : Nat}

theorem mem_missingOf {blocks : List (Option Block)} :
    i ∈ missingOf blocks ↔ i < blocks.length ∧ blocks.getD i none = none := by
  simp [missingOf]

theorem mem_presentOf {blocks : List (Option Block)} :
    i ∈ presentOf blocks ↔ ∃ block, blocks.getD i none = some block := by
  simp only [presentOf, List.mem_filter, List.mem_range, Option.isSome_iff_exists]
  refine and_iff_right_of_imp ?_
  rintro ⟨block, hblock⟩
  by_contra hlt
  simp [Nat.le_of_not_lt hlt] at hblock

theorem dot_map_map (l : List Nat) (f g : Nat → Gf256) :
    dot (l.map f) (l.map g) = (l.map fun i => f i * g i).sum := by
  induction l with
  | nil => rfl
  | cons i l ih => simp only [List.map_cons, dot_cons, List.sum_cons, ih]

variable {blocks : List (Option Block)}

theorem Fits.length_getD (h : Fits k r p size config data) (hi : i < k) :
    (data.getD i []).length = size := by
  have hlt : i < data.length := h.count ▸ hi
  rw [List.getD_eq_getElem?_getD, List.getElem?_eq_getElem hlt, Option.getD_some]
  exact h.blocks _ (List.getElem_mem hlt)

theorem foldl_known (h : Fits k r p size config data) (hs : Survives data blocks) (j : Nat)
    {rhs : Block} (hrhs : rhs.length = size) :
    let rhs' := (List.range blocks.length).foldl (fun rhs i =>
      mulXorKnown (globalParityCoeff i j) rhs (blocks.getD i none)) rhs
    rhs'.length = size ∧ ∀ t, valueAt t rhs' = valueAt t rhs +
      (((List.range k).filter fun i => (blocks.getD i none).isSome).map fun i =>
        globalParityCoeff i j * valueAt t (data.getD i [])).sum := by
  simp only [← sum_map_ite]
  rw [hs.length, h.count]
  refine foldl_sum (fun i hi acc hacc => ?_) hrhs
  cases hblock : blocks.getD i none with
  | none => exact ⟨hacc, fun t => by simp [mulXorKnown]⟩
  | some block =>
    have hsame := hs.same i block hblock
    have hlen : block.length = acc.length := by
      rw [hacc, ← hsame]
      exact h.length_getD (List.mem_range.mp hi)
    refine ⟨(length_mulXorInto hlen _).trans hacc, fun t => ?_⟩
    rw [mulXorKnown, valueAt_mulXorInto hlen, hsame, Option.isSome_some, if_pos rfl]

def lostBytes (data : List Block) (blocks : List (Option Block)) (t : Nat) : List Gf256 :=
  (missingOf blocks).map fun i => valueAt t (data.getD i [])

theorem equation_spec (h : Fits k r p size config data) (hs : Survives data blocks) {j : Nat}
    {parity : Block} (hparity : parity.length = size)
    (hsum : ∀ t, valueAt t parity =
      ((List.range k).map fun i => globalParityCoeff i j * valueAt t (data.getD i [])).sum) :
    (equation blocks (missingOf blocks) j parity).rhs.length = size ∧
      (equation blocks (missingOf blocks) j parity).Holds (lostBytes data blocks) := by
  obtain ⟨hlen, hbyte⟩ := foldl_known h hs j hparity
  refine ⟨hlen, fun t v hv => ?_⟩
  have hv' : v = valueAt t (equation blocks (missingOf blocks) j parity).rhs := by
    rw [valueAt, List.getD_eq_getElem?_getD, hv, Option.getD_some]
  have hsplit := sum_filter_add_sum_filter (List.range k)
    (fun i => (blocks.getD i none).isSome) fun i =>
      globalParityCoeff i j * valueAt t (data.getD i [])
  have hmissing : missingOf blocks =
      (List.range k).filter fun i => !(blocks.getD i none).isSome := by
    rw [missingOf, hs.length, h.count]
    simp
  have hrhs : valueAt t (equation blocks (missingOf blocks) j parity).rhs = _ := hbyte t
  rw [hv', hrhs, lostBytes, equation, dot_map_map, hsum, ← hsplit, hmissing, add_right_comm,
    CharTwo.add_self_eq_zero, zero_add]

/-! ## The system -/

structure Lost (config : LrcConfig) (data : List Block) (avail : BlockAvailability) : Prop where
  kept : Survives data avail.data
  parity : ∃ global, encodeGlobal config data = some global ∧ Survives global avail.globalParity

variable {avail : BlockAvailability}

theorem Lost.mem_present (hl : Lost config data avail) (h : Fits k r p size config data) {j : Nat}
    (hj : j ∈ presentOf avail.globalParity) :
    ∃ parity, avail.globalParity.getD j none = some parity ∧ parity.length = size ∧
      ∀ t, valueAt t parity = ((List.range k).map fun i =>
        globalParityCoeff i j * valueAt t (data.getD i [])).sum := by
  obtain ⟨global, hglobal, hsurvives⟩ := hl.parity
  obtain ⟨global', hglobal', hlen, hsums⟩ := h.encodeGlobal
  obtain rfl : global = global' := Option.some.inj (hglobal.symm.trans hglobal')
  obtain ⟨parity, hparity⟩ := mem_presentOf.mp hj
  have hlt : j < global.length := by
    rw [← hsurvives.length]
    exact List.mem_range.mp (List.mem_of_mem_filter hj)
  have hget : global[j]? = some parity := by
    have hsame := hsurvives.same j parity hparity
    rw [List.getD_eq_getElem?_getD, List.getElem?_eq_getElem hlt, Option.getD_some] at hsame
    rw [List.getElem?_eq_getElem hlt, hsame]
  exact ⟨parity, hparity, hsums j parity hget⟩

theorem Lost.system (hl : Lost config data avail) (h : Fits k r p size config data)
    (henough : (missingOf avail.data).length ≤ (presentOf avail.globalParity).length) :
    Square (missingOf avail.data).length size (system avail) ∧
      ∀ row ∈ system avail, row.Holds (lostBytes data avail.data) := by
  have hrows : ∀ row ∈ Repair.system avail, row.coeffs.length = (missingOf avail.data).length ∧
      row.rhs.length = size ∧ row.Holds (lostBytes data avail.data) := by
    intro row hrow
    obtain ⟨j, hj, rfl⟩ := List.mem_map.mp hrow
    obtain ⟨parity, hparity, hlen, hsum⟩ := hl.mem_present h (List.mem_of_mem_take hj)
    rw [hparity, Option.getD_some]
    exact ⟨List.length_map .., equation_spec h hl.kept hlen hsum⟩
  refine ⟨⟨?_, fun row hrow => (hrows row hrow).1, fun row hrow => (hrows row hrow).2.1⟩,
    fun row hrow => (hrows row hrow).2.2⟩
  rw [Repair.system, List.length_map, List.length_take, min_eq_left henough]

theorem getD_of_mem {blocks : List (Option Block)} {block : Block}
    (h : block ∈ blocks.reduceOption) : ∃ i < blocks.length, blocks.getD i none = some block := by
  obtain ⟨i, hi⟩ := List.mem_iff_getElem?.mp (List.reduceOption_mem_iff.mp h)
  refine ⟨i, (List.getElem?_eq_some_iff.mp hi).1, ?_⟩
  rw [List.getD_eq_getElem?_getD, hi, Option.getD_some]

theorem Survives.length_of_mem {encoded : List Block} {blocks : List (Option Block)}
    (hs : Survives encoded blocks) (hsize : ∀ block ∈ encoded, block.length = size) {block : Block}
    (h : block ∈ blocks.reduceOption) : block.length = size := by
  obtain ⟨i, hi, hget⟩ := getD_of_mem h
  rw [hs.length] at hi
  have hsame := hs.same i block hget
  rw [List.getD_eq_getElem?_getD, List.getElem?_eq_getElem hi, Option.getD_some] at hsame
  exact hsize block (hsame ▸ List.getElem_mem hi)

theorem Lost.sizes (hl : Lost config data avail) (h : Fits k r p size config data) :
    avail.data.length = k ∧ (∀ block ∈ avail.data.reduceOption, block.length = size) ∧
      avail.globalParity.length = p ∧
      ∀ block ∈ avail.globalParity.reduceOption, block.length = size := by
  obtain ⟨global, hglobal, hsurvives⟩ := hl.parity
  obtain ⟨global', hglobal', hlen, hsums⟩ := h.encodeGlobal
  obtain rfl : global = global' := Option.some.inj (hglobal.symm.trans hglobal')
  refine ⟨hl.kept.length.trans h.count, fun _ => hl.kept.length_of_mem h.blocks,
    hsurvives.length.trans hlen, fun _ => hsurvives.length_of_mem fun block hmem => ?_⟩
  obtain ⟨j, hj⟩ := List.mem_iff_getElem?.mp hmem
  exact (hsums j block hj).1

theorem Lost.repairGlobal (hl : Lost config data avail) (h : Fits k r p size config data) :
    repairGlobal config avail size =
      if missingOf avail.data = [] then ⟨true, 0, [], ∅, false, false⟩
      else if (presentOf avail.globalParity).length < (missingOf avail.data).length then
        failedGlobalRepair
      else recoverFrom (missingOf avail.data) (reduce (Repair.system avail)) := by
  obtain ⟨hcount, hdata, hparities, hparity⟩ := hl.sizes h
  obtain ⟨rfl, hk, hr, hmod, hp, hk255⟩ := LrcConfig.new_eq_some h.accepted
  have hpresent : (presentOf avail.globalParity).length ≤ p := by
    rw [← hparities]
    exact (List.length_filter_le _ _).trans_eq (List.length_range ..)
  have hfirst : ¬ (size = 0 ∨ ¬ configSupportsGlobalRepair ⟨k, r, p⟩ ∨ avail.data.length ≠ k ∨
      ∃ block ∈ avail.data.reduceOption, block.length ≠ size) := by
    rintro (hzero | hconfig | hlen | ⟨block, hmem, hne⟩)
    · exact h.pos.ne' hzero
    · exact hconfig ⟨hk, hr, hmod, hp, hk255⟩
    · exact hlen hcount
    · exact hne (hdata block hmem)
  have hsecond : (avail.globalParity.length ≠ p ∨
      (∃ block ∈ avail.globalParity.reduceOption, block.length ≠ size) ∨
      p < (missingOf avail.data).length ∨
      (presentOf avail.globalParity).length < (missingOf avail.data).length) ↔
      (presentOf avail.globalParity).length < (missingOf avail.data).length := by
    constructor
    · rintro (hlen | ⟨block, hmem, hne⟩ | hlt | hlt)
      · exact absurd hparities hlen
      · exact absurd (hparity block hmem) hne
      · exact hpresent.trans_lt hlt
      · exact hlt
    · exact fun hlt => Or.inr (Or.inr (Or.inr hlt))
  unfold Repair.repairGlobal
  dsimp only
  rw [if_neg hfirst, if_congr hsecond rfl rfl]

theorem length_of_getD {blocks : List (Option Block)} {size blockSize : Nat} {block : Block}
    (hsize : ∀ block ∈ blocks.reduceOption, block.length = size)
    (hblock : ¬ ∃ block ∈ blocks.reduceOption, block.length ≠ blockSize)
    (h : blocks.getD i none = some block) : blockSize = size := by
  have hmem : block ∈ blocks.reduceOption := by
    rw [List.reduceOption_mem_iff, List.mem_iff_getElem?]
    refine ⟨i, ?_⟩
    rw [List.getD_eq_getElem?_getD] at h
    cases hi : blocks[i]? with
    | none => simp [hi] at h
    | some b => simpa [hi] using h
  rw [← hsize block hmem]
  by_contra hne
  exact hblock ⟨block, hmem, fun he => hne he.symm⟩

theorem Lost.size_of_success (hl : Lost config data avail) (h : Fits k r p size config data)
    {blockSize : Nat} (hok : (Repair.repairGlobal config avail blockSize).success = true) :
    blockSize = size := by
  obtain ⟨hcount, hdata, -, hparity⟩ := hl.sizes h
  obtain ⟨rfl, hk, -⟩ := LrcConfig.new_eq_some h.accepted
  unfold Repair.repairGlobal at hok
  dsimp only at hok
  split_ifs at hok with hfirst hnone hsecond
  · exact absurd hok Bool.false_ne_true
  · -- nothing is missing, so the first block is there
    have hmem : ¬ 0 ∈ missingOf avail.data := by simp [hnone]
    rw [mem_missingOf, not_and, hcount] at hmem
    obtain ⟨block, hblock⟩ := Option.ne_none_iff_exists'.mp (hmem hk)
    exact length_of_getD hdata (fun hbad => hfirst (Or.inr (Or.inr (Or.inr hbad)))) hblock
  · exact absurd hok Bool.false_ne_true
  · -- something is, so there is a parity block to recover it
    obtain ⟨j, hj⟩ := List.exists_mem_of_length_pos ((List.length_pos_iff.mpr hnone).trans_le
      (Nat.le_of_not_lt fun hlt => hsecond (Or.inr (Or.inr (Or.inr hlt)))))
    obtain ⟨block, hblock⟩ := mem_presentOf.mp hj
    exact length_of_getD hparity (fun hbad => hsecond (Or.inr (Or.inl hbad))) hblock

/-! ## Recovered blocks -/

theorem get?_foldl_insert {entries : List (Nat × Row Gf256)} {f : Nat → Block}
    (hf : ∀ e ∈ entries, e.2.rhs = f e.1) (m : OrdMap Nat Block) (i : Nat) :
    (entries.foldl (fun recovered e => recovered.insert e.1 e.2.rhs) m).get? i =
      if i ∈ entries.map Prod.fst then some (f i) else m.get? i := by
  induction entries generalizing m with
  | nil => simp
  | cons e entries ih =>
    rw [List.foldl_cons, ih (fun e' he' => hf e' (by simp [he'])), OrdMap.get?_insert,
      hf e (by simp), List.map_cons]
    by_cases hi : i = e.1
    · simp [hi]
    · simp only [hi, if_false, List.mem_cons, false_or]

theorem length_lostBytes (data : List Block) (blocks : List (Option Block)) (t : Nat) :
    (lostBytes data blocks t).length = (missingOf blocks).length := List.length_map ..

theorem lostBytes_getD {c : Nat} (hc : (missingOf blocks)[c]? = some i) (t : Nat) :
    (lostBytes data blocks t).getD c 0 = valueAt t (data.getD i []) := by
  rw [lostBytes, List.getD_eq_getElem?_getD, List.getElem?_map, hc, Option.map_some,
    Option.getD_some]

theorem Lost.rhs_eq (hl : Lost config data avail) (h : Fits k r p size config data)
    (henough : (missingOf avail.data).length ≤ (presentOf avail.globalParity).length)
    {rows : List (Row Gf256)} (hrows : reduce (Repair.system avail) = some rows)
    {e : Nat × Row Gf256} (he : e ∈ (missingOf avail.data).zip rows) :
    e.2.rhs = data.getD e.1 [] := by
  obtain ⟨hsquare, hholds⟩ := hl.system h henough
  obtain ⟨c, hc⟩ := List.mem_iff_getElem?.mp he
  obtain ⟨hmissing, hrow⟩ := List.getElem?_zip_eq_some.mp hc
  have hlen := (square_of_reduce hsquare hrows).rhs e.2 (List.mem_of_getElem? hrow)
  have hlt : e.1 < k := by
    have hmem := mem_missingOf.mp (List.mem_of_getElem? hmissing)
    rw [hl.kept.length, h.count] at hmem
    exact hmem.1
  refine valueAt_ext (hlen.trans (h.length_getD hlt).symm) fun t => ?_
  rw [← lostBytes_getD hmissing]
  by_cases ht : t < e.2.rhs.length
  · have hsolution := reduce_solution hsquare hrows (length_lostBytes data avail.data) hholds hrow
      (List.getElem?_eq_getElem ht)
    rw [hsolution, valueAt, List.getD_eq_getElem?_getD, List.getElem?_eq_getElem ht,
      Option.getD_some]
  · have hge := Nat.le_of_not_lt ht
    rw [lostBytes_getD hmissing, valueAt_of_le hge, valueAt_of_le]
    rwa [h.length_getD hlt, ← hlen]

/-- **A repair that succeeds recovers the lost blocks.** -/
theorem Lost.recovered (hl : Lost config data avail) (h : Fits k r p size config data)
    (hok : (Repair.repairGlobal config avail size).success = true) (i : Nat) :
    (Repair.repairGlobal config avail size).recoveredData.get? i =
      if i ∈ missingOf avail.data then some (data.getD i []) else none := by
  rw [hl.repairGlobal h] at hok ⊢
  by_cases hnone : missingOf avail.data = []
  · rw [if_pos hnone, hnone]
    rfl
  rw [if_neg hnone] at hok ⊢
  by_cases hfew : (presentOf avail.globalParity).length < (missingOf avail.data).length
  · rw [if_pos hfew] at hok
    exact absurd hok Bool.false_ne_true
  rw [if_neg hfew] at hok ⊢
  have henough := Nat.le_of_not_lt hfew
  cases hrows : reduce (Repair.system avail) with
  | none =>
    rw [hrows] at hok
    exact absurd hok Bool.false_ne_true
  | some rows =>
    have hlen := (square_of_reduce (hl.system h henough).1 hrows).length
    have hget := get?_foldl_insert (f := fun i => data.getD i [])
      (fun _ => hl.rhs_eq h henough hrows) ∅ i
    rwa [List.map_fst_zip hlen.ge, OrdMap.get?_empty] at hget

/-! ## Weights -/

/-- The weights of the first `m` of some lost blocks in the first `m` of some parity blocks. -/
def weights (lost parities : List Nat) (m : Nat) : Matrix (Fin m) (Fin m) Gf256 :=
  fun j i => globalParityCoeff (lost.getD i 0) (parities.getD j 0)

theorem Lost.coeffMatrix_eq
    (henough : (missingOf avail.data).length ≤ (presentOf avail.globalParity).length) :
    coeffMatrix (missingOf avail.data).length (Repair.system avail) =
      weights (missingOf avail.data) (presentOf avail.globalParity)
        (missingOf avail.data).length := by
  funext j i
  have hj : j.1 < (presentOf avail.globalParity).length := j.2.trans_le henough
  simp [coeffMatrix, weights, Repair.system, equation, Row.coeff, hj]

/-- **Repair succeeds when there are enough parity blocks and the weights in the first ones are not
singular.** -/
theorem Lost.success_iff (hl : Lost config data avail) (h : Fits k r p size config data) :
    (Repair.repairGlobal config avail size).success = true ↔
      (missingOf avail.data).length ≤ (presentOf avail.globalParity).length ∧
        (weights (missingOf avail.data) (presentOf avail.globalParity)
          (missingOf avail.data).length).det ≠ 0 := by
  rw [hl.repairGlobal h]
  by_cases hnone : missingOf avail.data = []
  · have hempty : IsEmpty (Fin (missingOf avail.data).length) := by
      rw [hnone]
      exact Fin.isEmpty
    simp [Matrix.det_isEmpty, hnone]
  rw [if_neg hnone]
  by_cases hfew : (presentOf avail.globalParity).length < (missingOf avail.data).length
  · simp [hfew, failedGlobalRepair]
  have henough := Nat.le_of_not_lt hfew
  rw [if_neg hfew, and_iff_right henough, ← Lost.coeffMatrix_eq henough,
    ← reduce_isSome_iff (hl.system h henough).1]
  cases reduce (Repair.system avail) with
  | none => simp [recoverFrom, failedGlobalRepair]
  | some rows => simp [recoverFrom]

theorem exp_ne_zero (i : Nat) : exp i ≠ 0 := by
  have hone : exp i * exp (254 * i) = 1 := by
    rw [← exp_add, show i + 254 * i = 255 * i by omega, exp_mul, exp_255, one_pow]
  exact left_ne_zero_of_mul_eq_one hone

theorem globalParityCoeff_eq_pow (i j : Nat) :
    globalParityCoeff i j = exp (i + 1) ^ j * exp (i + 1) := by
  unfold globalParityCoeff generatorPow
  rw [Nat.mod_mod, exp_mod, exp_mul, pow_succ]

theorem det_weights_range {lost : List Nat} (hnodup : lost.Nodup) (hlt : ∀ i ∈ lost, i < 255)
    {n : Nat} (hn : lost.length ≤ n) : (weights lost (List.range n) lost.length).det ≠ 0 := by
  let x : Fin lost.length → Gf256 := fun i => exp (lost.get i + 1)
  have hmul : weights lost (List.range n) lost.length =
      (Matrix.vandermonde x).transpose * Matrix.diagonal x := by
    funext j i
    have hj : j.1 < n := j.2.trans_le hn
    rw [Matrix.mul_diagonal]
    simp [weights, globalParityCoeff_eq_pow, Matrix.vandermonde, x, hj]
  have hinj : Function.Injective x := by
    intro i i' heq
    have hexp : exp (lost.get i) = exp (lost.get i') := by
      simp only [x, exp_add] at heq
      exact mul_right_cancel₀ (exp_ne_zero 1) heq
    exact hnodup.injective_get (exp_injective (hlt _ (List.get_mem ..)) (hlt _ (List.get_mem ..)) hexp)
  rw [hmul, Matrix.det_mul, Matrix.det_transpose, Matrix.det_diagonal]
  exact mul_ne_zero (Matrix.det_vandermonde_ne_zero_iff.mpr hinj)
    (Finset.prod_ne_zero_iff.mpr fun i _ => exp_ne_zero _)

theorem presentOf_eq_range {blocks : List (Option Block)}
    (h : ∀ j < blocks.length, (blocks.getD j none).isSome) :
    presentOf blocks = List.range blocks.length :=
  List.filter_eq_self.mpr fun j hj => h j (List.mem_range.mp hj)

theorem Lost.success_of_all (hl : Lost config data avail) (h : Fits k r p size config data)
    (hall : ∀ j < avail.globalParity.length, (avail.globalParity.getD j none).isSome)
    (hfew : (missingOf avail.data).length ≤ p) :
    (Repair.repairGlobal config avail size).success = true := by
  obtain ⟨hcount, -, hparities, -⟩ := hl.sizes h
  obtain ⟨-, -, -, -, -, hk255⟩ := LrcConfig.new_eq_some h.accepted
  have hpresent := presentOf_eq_range hall
  rw [hparities] at hpresent
  refine (hl.success_iff h).mpr ⟨by rwa [hpresent, List.length_range], ?_⟩
  rw [hpresent]
  refine det_weights_range (List.nodup_range.filter _) (fun i hi => ?_) hfew
  have hik : i < k := hcount ▸ (mem_missingOf.mp hi).1
  have hp : 0 < p := (List.length_pos_of_mem hi).trans_le hfew
  omega

/-! ## One block of a group -/

theorem index_lt {g : Nat} (hg : g < k / r) (hi : i < r) : g * r + i < k := by
  calc g * r + i < (g + 1) * r := by rw [Nat.succ_mul]; omega
    _ ≤ k := (Nat.mul_le_mul_right r hg).trans (Nat.div_mul_le_self k r)

theorem Fits.xorInto_group (h : Fits k r p size config data) {g : Nat} (hg : g < k / r) (hi : i < r)
    {acc : Block} (hacc : acc.length = size) :
    (xorInto acc (data.getD (g * r + i) [])).length = size ∧
      ∀ t, valueAt t (xorInto acc (data.getD (g * r + i) [])) =
        valueAt t acc + valueAt t (data.getD (g * r + i) []) := by
  have hlen : (data.getD (g * r + i) []).length = acc.length :=
    (h.length_getD (index_lt hg hi)).trans hacc.symm
  exact ⟨(length_xorInto hlen).trans hacc, valueAt_xorInto hlen⟩

/-- **Every byte of local parity is the sum of the bytes of its group.** -/
theorem Fits.encodeLocal (h : Fits k r p size config data) :
    ∃ parities, encodeLocal config data = some parities ∧
      ∀ g < k / r, (parities.getD g []).length = size ∧ ∀ t, valueAt t (parities.getD g []) =
        ((List.range r).map fun i => valueAt t (data.getD (g * r + i) [])).sum := by
  obtain ⟨rfl, hk, hr, hmod, -⟩ := LrcConfig.new_eq_some h.accepted
  have hgroups : LrcConfig.numGroups ⟨k, r, p⟩ = k / r := if_neg hr.ne'
  refine ⟨_, if_pos ⟨hk, hr, hmod, h.count, h.headD.symm ▸ h.pos, h.headD.symm ▸ h.blocks⟩,
    fun g hg => ?_⟩
  rw [hgroups, h.headD, List.getD_eq_getElem?_getD, List.getElem?_map,
    List.getElem?_range hg, Option.map_some, Option.getD_some]
  obtain ⟨hlen, hsum⟩ := foldl_sum (fun i hi _ => h.xorInto_group hg (List.mem_range.mp hi))
    (List.length_replicate (a := (0 : Gf256)))
  refine ⟨hlen, fun t => ?_⟩
  rw [hsum, valueAt_replicate, zero_add]

structure LostOne (data : List Block) (r group missing : Nat) (available : List (Option Block)) :
    Prop where
  length : available.length = r
  lost : available.getD missing none = none
  others : ∀ i < r, i ≠ missing → available.getD i none = some (data.getD (group * r + i) [])

variable {group missing : Nat} {available : List (Option Block)}

theorem LostOne.getD_eq (hl : LostOne data r group missing available) (hi : i < r) :
    available.getD i none =
      if i = missing then none else some (data.getD (group * r + i) []) := by
  split_ifs with heq
  · exact heq ▸ hl.lost
  · exact hl.others i hi heq

theorem LostOne.countP_isNone (hl : LostOne data r group missing available) (hm : missing < r) :
    available.countP Option.isNone = 1 := by
  have hmap : available = (List.range r).map fun i => available.getD i none := by
    refine List.ext_getElem (by simp [hl.length]) fun i hi _ => ?_
    simp [hi]
  have hcount : ∀ i ∈ List.range r,
      (available.getD i none).isNone = true ↔ (i == missing) = true := by
    intro i hi
    rw [hl.getD_eq (List.mem_range.mp hi)]
    by_cases heq : i = missing <;> simp [heq]
  rw [hmap, List.countP_map]
  refine (List.countP_congr hcount).trans ?_
  exact List.count_eq_one_of_mem List.nodup_range (List.mem_range.mpr hm)

theorem LostOne.step (hl : LostOne data r group missing available) (h : Fits k r p size config data)
    (hg : group < k / r) (hi : i < r) {acc : Block} (hacc : acc.length = size) :
    (xorOther missing i acc (available.getD i none)).length = size ∧
      ∀ t, valueAt t (xorOther missing i acc (available.getD i none)) = valueAt t acc +
        if i != missing then valueAt t (data.getD (group * r + i) []) else 0 := by
  by_cases heq : i = missing
  · rw [heq, hl.lost]
    exact ⟨hacc, fun t => by simp [xorOther]⟩
  · rw [hl.others i hi heq]
    simpa [xorOther, heq] using h.xorInto_group hg hi hacc

/-- **The rest of a group and its parity give a lost block back.** -/
theorem LostOne.repairLocalSingle (hl : LostOne data r group missing available)
    (h : Fits k r p size config data) (hg : group < k / r) (hm : missing < r) {parity : Block}
    (hlen : parity.length = size)
    (hsum : ∀ t, valueAt t parity =
      ((List.range r).map fun i => valueAt t (data.getD (group * r + i) [])).sum) :
    repairLocalSingle config group missing available parity =
      some (data.getD (group * r + missing) []) := by
  obtain ⟨rfl, hk, hr, hmod, -⟩ := LrcConfig.new_eq_some h.accepted
  have hgroups : LrcConfig.numGroups ⟨k, r, p⟩ = k / r := if_neg hr.ne'
  have hsizes : ∀ block ∈ available.reduceOption, block.length = parity.length := by
    intro block hblock
    obtain ⟨i, hi, hget⟩ := getD_of_mem hblock
    rw [hl.length] at hi
    rw [hl.getD_eq hi] at hget
    split_ifs at hget
    rw [hlen, ← Option.some.inj hget, h.length_getD (index_lt hg hi)]
  unfold Repair.repairLocalSingle
  rw [if_neg, hl.length]
  · congr 1
    obtain ⟨hsize, hloop⟩ := foldl_sum (fun i hi _ => hl.step h hg (List.mem_range.mp hi)) hlen
    refine valueAt_ext (hsize.trans (h.length_getD (index_lt hg hm)).symm) fun t => ?_
    have hsplit := sum_filter_add_sum_filter (List.range r) (fun i => i != missing) fun i =>
      valueAt t (data.getD (group * r + i) [])
    have hone : (List.range r).filter (fun i => !(i != missing)) = [missing] := by
      simp only [bne, Bool.not_not]
      exact filter_range_eq hm
    rw [hloop, hsum, sum_map_ite, ← hsplit, hone, add_right_comm, CharTwo.add_self_eq_zero,
      zero_add, List.map_singleton, List.sum_singleton]
  · rintro (hbad | hbad | hbad | hbad | hbad | hbad | hbad | hbad | hbad | ⟨block, hmem, hbad⟩)
    · exact hk.ne' hbad
    · exact hr.ne' hbad
    · exact hbad hmod
    · exact hbad hl.length
    · exact absurd hm (Nat.not_lt.mpr hbad)
    · exact absurd hg (Nat.not_lt.mpr (hgroups ▸ hbad))
    · exact hbad (hl.countP_isNone hm)
    · rw [hl.lost] at hbad
      exact Bool.false_ne_true hbad
    · exact h.pos.ne' (hlen.symm.trans hbad)
    · exact hbad (hsizes block hmem)

/-! ## What is lost comes back -/

def keep (lost : List Nat) (encoded : List Block) : List (Option Block) :=
  (List.range encoded.length).map fun i => if i ∈ lost then none else some (encoded.getD i [])

theorem keep_getD {lost : List Nat} {encoded : List Block} (hi : i < encoded.length) :
    (keep lost encoded).getD i none = if i ∈ lost then none else some (encoded.getD i []) := by
  simp [keep, hi]

theorem survives_keep (lost : List Nat) (encoded : List Block) :
    Survives encoded (keep lost encoded) := by
  refine ⟨by simp [keep], fun i block hget => ?_⟩
  by_cases hi : i < encoded.length
  · rw [keep_getD hi] at hget
    split_ifs at hget
    exact Option.some.inj hget
  · simp [keep, Nat.le_of_not_lt hi] at hget

theorem missingOf_keep (lost : List Nat) (encoded : List Block) :
    missingOf (keep lost encoded) = (List.range encoded.length).filter (· ∈ lost) := by
  have hlen : (keep lost encoded).length = encoded.length := by simp [keep]
  rw [missingOf, hlen]
  refine List.filter_congr fun i hi => ?_
  rw [keep_getD (List.mem_range.mp hi)]
  split_ifs with h <;> simp [h]

theorem presentOf_keep (lost : List Nat) (encoded : List Block) :
    presentOf (keep lost encoded) = (List.range encoded.length).filter (· ∉ lost) := by
  have hlen : (keep lost encoded).length = encoded.length := by simp [keep]
  rw [presentOf, hlen]
  refine List.filter_congr fun i hi => ?_
  rw [keep_getD (List.mem_range.mp hi)]
  split_ifs with h <;> simp [h]

/-- **Local reconstruction codes give back what was encoded.** -/
theorem lrc_decoding_exact (h : Fits k r p size config data) :
    ∃ parities global, encodeLocal config data = some parities ∧
      encodeGlobal config data = some global ∧
      (∀ avail blockSize, Survives data avail.data → Survives global avail.globalParity →
        (repairGlobal config avail blockSize).success = true →
        ∀ i, (repairGlobal config avail blockSize).recoveredData.get? i =
          if i ∈ missingOf avail.data then some (data.getD i []) else none) ∧
      (∀ avail, Survives data avail.data → Survives global avail.globalParity →
        (missingOf avail.data).length ≤ p →
        (∀ j < p, (avail.globalParity.getD j none).isSome) →
        (repairGlobal config avail size).success = true) ∧
      ∀ group < k / r, ∀ missing < r, ∀ available, LostOne data r group missing available →
        repairLocalSingle config group missing available (parities.getD group []) =
          some (data.getD (group * r + missing) []) := by
  obtain ⟨parities, hlocal, hgroups⟩ := h.encodeLocal
  obtain ⟨global, hglobal, hlen, -⟩ := h.encodeGlobal
  have hlost : ∀ avail : BlockAvailability, Survives data avail.data →
      Survives global avail.globalParity → Lost config data avail :=
    fun _ hdata hparity => ⟨hdata, global, hglobal, hparity⟩
  refine ⟨parities, global, hlocal, hglobal, fun avail blockSize hdata hparity hok i => ?_,
    fun avail hdata hparity hfew hall => ?_, fun group hg missing hm available hone => ?_⟩
  · have hl := hlost avail hdata hparity
    obtain rfl := hl.size_of_success h hok
    exact hl.recovered h hok i
  · have hl := hlost avail hdata hparity
    exact hl.success_of_all h (hparity.length.trans hlen ▸ hall) hfew
  · obtain ⟨hsize, hsum⟩ := hgroups group hg
    exact hone.repairLocalSingle h hg hm hsize hsum

def fourBlocks : List Block :=
  [[ofNat 7, ofNat 0], [ofNat 9, ofNat 255], [ofNat 4, ofNat 1], [ofNat 3, ofNat 2]]

/-- Both lost blocks come back by the parity blocks, and one of them by its group. -/
theorem lrc_decoding_exact_four_blocks :
    ∃ parities global result, encodeLocal ⟨4, 2, 2⟩ fourBlocks = some parities ∧
      encodeGlobal ⟨4, 2, 2⟩ fourBlocks = some global ∧
      repairGlobal ⟨4, 2, 2⟩ ⟨keep [0, 3] fourBlocks, keep [] global⟩ 2 = result ∧
      result.success = true ∧ result.recoveredData.get? 0 = some [ofNat 7, ofNat 0] ∧
      result.recoveredData.get? 1 = none ∧
      result.recoveredData.get? 3 = some [ofNat 3, ofNat 2] ∧
      repairLocalSingle ⟨4, 2, 2⟩ 1 1 [some [ofNat 4, ofNat 1], none] (parities.getD 1 []) =
        some [ofNat 3, ofNat 2] := by
  have hfits : Fits 4 2 2 2 ⟨4, 2, 2⟩ fourBlocks := ⟨by decide, rfl, by decide, by simp [fourBlocks]⟩
  obtain ⟨parities, global, hlocal, hglobal, hexact, hsuccess, hrepair⟩ := lrc_decoding_exact hfits
  have hmissing : missingOf (keep [0, 3] fourBlocks) = [0, 3] := missingOf_keep ..
  have hok := hsuccess ⟨keep [0, 3] fourBlocks, keep [] global⟩ (survives_keep ..)
    (survives_keep ..) (by rw [hmissing]; decide) fun j hj => by
      obtain ⟨global', hglobal', hlen, -⟩ := hfits.encodeGlobal
      obtain rfl : global = global' := Option.some.inj (hglobal.symm.trans hglobal')
      rw [keep_getD (hlen ▸ hj)]
      rfl
  have hget := hexact _ 2 (survives_keep ..) (survives_keep ..) hok
  rw [hmissing] at hget
  refine ⟨parities, global, _, hlocal, hglobal, rfl, hok, hget 0, hget 1, hget 3,
    hrepair 1 (by decide) 1 (by decide) _ ⟨rfl, rfl, fun i hi hne => ?_⟩⟩
  obtain rfl : i = 0 := by omega
  rfl

/-! ## Parity blocks lost too -/

/-- **With enough parity blocks left, repair succeeds just when the weights of the lost blocks in
the first of them are not singular.** -/
theorem repairGlobal_success_iff_det (h : Fits k r p size config data)
    (hglobal : encodeGlobal config data = some global) {avail : BlockAvailability}
    (hdata : Survives data avail.data) (hparity : Survives global avail.globalParity)
    (henough : (missingOf avail.data).length ≤ (presentOf avail.globalParity).length) :
    (repairGlobal config avail size).success = true ↔
      (weights (missingOf avail.data) (presentOf avail.globalParity)
        (missingOf avail.data).length).det ≠ 0 := by
  rw [Lost.success_iff ⟨hdata, global, hglobal, hparity⟩ h, and_iff_right henough]

/-- The blocks 0 and 85 weigh the same, up to a factor, in the parity blocks 0 and 3: the ratio of
their generators is a root of unity of order 3. -/
theorem det_weights_third_root :
    (weights [0, 85] [0, 3] [0, 85].length).det = 0 := by
  rw [Matrix.det_fin_two]
  decide +kernel

theorem repairGlobal_success_iff_det_one_block :
    ∃ global, encodeGlobal ⟨2, 2, 2⟩ [[ofNat 7], [ofNat 9]] = some global ∧
      (repairGlobal ⟨2, 2, 2⟩ ⟨keep [1] [[ofNat 7], [ofNat 9]], keep [0] global⟩ 1).success =
        true := by
  have hfits : Fits 2 2 2 1 ⟨2, 2, 2⟩ [[ofNat 7], [ofNat 9]] :=
    ⟨by decide, rfl, Nat.one_pos, by simp⟩
  obtain ⟨global, hglobal, hlen, -⟩ := hfits.encodeGlobal
  have hmissing : missingOf (keep [1] [[ofNat 7], [ofNat 9]]) = [1] := missingOf_keep ..
  have hpresent : presentOf (keep [0] global) = [1] := by
    rw [presentOf_keep, hlen]
    rfl
  refine ⟨global, hglobal, (repairGlobal_success_iff_det hfits hglobal (survives_keep ..)
    (survives_keep ..) (by rw [hmissing, hpresent])).mpr ?_⟩
  rw [hmissing, hpresent, Matrix.det_fin_one]
  decide +kernel

theorem repairGlobal_fails_with_enough_parity :
    ∃ config data global avail, Fits 86 86 4 1 config data ∧
      encodeGlobal config data = some global ∧ Survives data avail.data ∧
      Survives global avail.globalParity ∧ missingOf avail.data = [0, 85] ∧
      presentOf avail.globalParity = [0, 3] ∧
      (repairGlobal config avail 1).success = false := by
  have hfits : Fits 86 86 4 1 ⟨86, 86, 4⟩ (List.replicate 86 [ofNat 7]) :=
    ⟨by decide, List.length_replicate, Nat.one_pos, fun block hblock => by
      rw [List.eq_of_mem_replicate hblock]
      rfl⟩
  obtain ⟨global, hglobal, hlen, -⟩ := hfits.encodeGlobal
  have hmissing : missingOf (keep [0, 85] (List.replicate 86 [ofNat 7])) = [0, 85] := by
    rw [missingOf_keep, List.length_replicate]
    decide
  have hpresent : presentOf (keep [1, 2] global) = [0, 3] := by
    rw [presentOf_keep, hlen]
    decide
  refine ⟨_, _, global, ⟨keep [0, 85] (List.replicate 86 [ofNat 7]), keep [1, 2] global⟩, hfits,
    hglobal, survives_keep .., survives_keep .., hmissing, hpresent, Bool.eq_false_iff.mpr fun hok => ?_⟩
  have hdet := ((Lost.success_iff ⟨survives_keep .., global, hglobal, survives_keep ..⟩
    hfits).mp hok).2
  rw [hmissing, hpresent] at hdet
  exact hdet det_weights_third_root

end Repaired

end FrankenFs.Repair
