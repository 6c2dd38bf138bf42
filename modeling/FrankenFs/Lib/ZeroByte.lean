import FrankenFs.Lib.Wire
import Mathlib.Data.Nat.Basic

/-!
# A zero byte in a word

The test on eight bytes at once: take 1 from each byte and look for a high bit that was not set.
-/

namespace FrankenFs.Lib

def wordByte (x k : Nat) : Nat := x / 256 ^ k % 256

theorem wordByte_zero {x y : Nat} (h : x < 256) : wordByte (x + 256 * y) 0 = x := by
  unfold wordByte
  omega

theorem wordByte_succ {x y : Nat} (h : x < 256) (k : Nat) :
    wordByte (x + 256 * y) (k + 1) = wordByte y k := by
  unfold wordByte
  rw [Nat.pow_succ', ← Nat.div_div_eq_div_mul, show (x + 256 * y) / 256 = y by omega]

/-- A byte of the difference has its high bit set where the byte itself has not, just when some
byte is 0: it is the lowest of them that borrows. -/
theorem borrow_iff_zero_mem (bytes : Bytes) :
    (∃ k < bytes.length, 128 ≤ wordByte ((256 ^ bytes.length -
        ofLe (List.replicate bytes.length 1) + ofLe bytes) % 256 ^ bytes.length) k ∧
      wordByte (ofLe bytes) k < 128) ↔ 0 ∈ bytes := by
  induction bytes with
  | nil => simp
  | cons b rest ih =>
    have hones := ofLe_lt (List.replicate rest.length (1 : BitVec 8))
    rw [List.length_replicate] at hones
    have hb := b.isLt
    rw [List.length_cons, List.replicate_succ, ofLe, ofLe, Nat.pow_succ', List.mem_cons,
      Nat.exists_lt_succ_left, wordByte_zero hb, show (1 : BitVec 8).toNat = 1 from rfl]
    simp only [wordByte_succ hb]
    generalize ofLe (List.replicate rest.length (1 : BitVec 8)) = ones at ih hones ⊢
    generalize 256 ^ rest.length = m at ih hones ⊢
    by_cases hzero : b.toNat = 0
    · have hlow : (256 * m - (1 + 256 * ones) + (b.toNat + 256 * ofLe rest)) % (256 * m) % 256 =
          255 := by
        rw [Nat.mod_mul_right_mod]
        omega
      have hmem : 0 = b := BitVec.eq_of_toNat_eq hzero.symm
      refine iff_of_true (.inl ⟨?_, by omega⟩) (.inl hmem)
      unfold wordByte
      omega
    · have hdiff : (256 * m - (1 + 256 * ones) + (b.toNat + 256 * ofLe rest)) % (256 * m) =
          (b.toNat - 1) + 256 * ((m - ones + ofLe rest) % m) := by
        rw [show 256 * m - (1 + 256 * ones) + (b.toNat + 256 * ofLe rest) =
          (b.toNat - 1) + 256 * (m - ones + ofLe rest) by omega, Nat.mod_mul,
          show (b.toNat - 1 + 256 * (m - ones + ofLe rest)) / 256 = m - ones + ofLe rest by omega]
        omega
      have hne : ¬0 = b := by
        rintro rfl
        exact hzero rfl
      rw [hdiff, wordByte_zero (by omega), ← ih]
      simp only [wordByte_succ (show b.toNat - 1 < 256 by omega), hne, false_or,
        or_iff_right_iff_imp]
      omega

def haszero (v : BitVec 64) : BitVec 64 :=
  (v - 0x0101010101010101) &&& ~~~v &&& 0x8080808080808080

theorem getLsbD_eq_wordByte (v : BitVec 64) (k : Nat) :
    v.getLsbD (8 * k + 7) = decide (128 ≤ wordByte v.toNat k) := by
  unfold BitVec.getLsbD wordByte
  rw [Nat.testBit_eq_decide_div_mod_eq, Nat.pow_add, Nat.pow_mul, ← Nat.div_div_eq_div_mul,
    decide_eq_decide, show (2 ^ 8) ^ k = 256 ^ k from rfl]
  omega

theorem getLsbD_haszero (v : BitVec 64) {i : Nat} (hi : i < 64) :
    (haszero v).getLsbD i = true ↔ i % 8 = 7 ∧
      128 ≤ wordByte (v - 0x0101010101010101).toNat (i / 8) ∧ wordByte v.toNat (i / 8) < 128 := by
  have hhighs : ∀ i < 64, (0x8080808080808080 : BitVec 64).getLsbD i = decide (i % 8 = 7) := by
    decide
  unfold haszero
  rw [BitVec.getLsbD_and, BitVec.getLsbD_and, BitVec.getLsbD_not, hhighs i hi]
  by_cases hseven : i % 8 = 7
  · obtain ⟨k, rfl⟩ : ∃ k, i = 8 * k + 7 := ⟨i / 8, by omega⟩
    rw [getLsbD_eq_wordByte, getLsbD_eq_wordByte, show (8 * k + 7) / 8 = k by omega]
    simp [hi, hseven]
  · simp [hseven]

theorem haszero_ne_zero {bytes : Bytes} (h : bytes.length = 8) :
    haszero (BitVec.ofNat 64 (ofLe bytes)) ≠ 0#64 ↔ 0 ∈ bytes := by
  have hlt := ofLe_lt bytes
  rw [← borrow_iff_zero_mem, h]
  rw [h] at hlt
  have hword : (BitVec.ofNat 64 (ofLe bytes)).toNat = ofLe bytes := Nat.mod_eq_of_lt hlt
  generalize BitVec.ofNat 64 (ofLe bytes) = v at hword ⊢
  rw [← hword]
  have hsub : (v - 0x0101010101010101).toNat =
    (256 ^ 8 - ofLe (List.replicate 8 (1 : BitVec 8)) + v.toNat) % 256 ^ 8 := BitVec.toNat_sub ..
  rw [← hsub]
  constructor
  · intro hne
    obtain ⟨i, hi⟩ : ∃ i, (haszero v).getLsbD i = true := by
      by_contra hnone
      refine hne (BitVec.eq_of_getLsbD_eq fun i hi => ?_)
      simpa using fun hset => hnone ⟨i, hset⟩
    have hbound := BitVec.lt_of_getLsbD hi
    exact ⟨i / 8, by omega, ((getLsbD_haszero v hbound).mp hi).2⟩
  · rintro ⟨k, hk, hbyte⟩ heq
    have hset := (getLsbD_haszero v (show 8 * k + 7 < 64 by omega)).mpr
      ⟨by omega, by rwa [show (8 * k + 7) / 8 = k by omega]⟩
    rw [heq] at hset
    simp at hset

theorem ofLe_map_xor (m : BitVec 8) (bytes : Bytes) :
    ofLe (bytes.map (· ^^^ m)) = ofLe bytes ^^^ ofLe (List.replicate bytes.length m) := by
  induction bytes with
  | nil => simp [ofLe]
  | cons b rest ih =>
    have hb := b.isLt
    have hm := m.isLt
    rw [List.map_cons, List.length_cons, List.replicate_succ, ofLe, ofLe, ofLe, ih, BitVec.toNat_xor]
    generalize ofLe (List.replicate rest.length m) = y
    generalize ofLe rest = x
    have hmod := @Nat.xor_mod_two_pow (b.toNat + 256 * x) (m.toNat + 256 * y) 8
    have hdiv := @Nat.xor_div_two_pow (b.toNat + 256 * x) (m.toNat + 256 * y) 8
    rw [show (b.toNat + 256 * x) % 2 ^ 8 = b.toNat by omega,
      show (m.toNat + 256 * y) % 2 ^ 8 = m.toNat by omega] at hmod
    rw [show (b.toNat + 256 * x) / 2 ^ 8 = x by omega,
      show (m.toNat + 256 * y) / 2 ^ 8 = y by omega] at hdiv
    omega

end FrankenFs.Lib
