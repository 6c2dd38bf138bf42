import Mathlib.Data.BitVec
import Mathlib.Logic.Function.Iterate

/-!
# Maps of words that commute with exclusive or

Such a map is known from the words with one bit, its columns, and a matrix is the list of them.
-/

namespace FrankenFs.Lib

variable {w : Nat} {f g : BitVec w → BitVec w}

def XorLinear (f : BitVec w → BitVec w) : Prop := ∀ a b, f (a ^^^ b) = f a ^^^ f b

namespace XorLinear

theorem zero (h : XorLinear f) : f 0 = 0 := by
  have := h 0 0
  rwa [BitVec.xor_self, BitVec.xor_self] at this

theorem id : XorLinear (fun a : BitVec w => a) := fun _ _ => rfl

theorem iterate (h : XorLinear f) (n : Nat) : XorLinear (f^[n]) := by
  induction n with
  | zero => exact id
  | succ n ih =>
    intro a b
    rw [Function.iterate_succ_apply, Function.iterate_succ_apply, Function.iterate_succ_apply, h, ih]

end XorLinear

def lowBits (k : Nat) (v : BitVec w) : BitVec w := v &&& BitVec.ofNat w (2 ^ k - 1)

theorem getLsbD_lowBits (k : Nat) (v : BitVec w) (i : Nat) :
    (lowBits k v).getLsbD i = (decide (i < k) && v.getLsbD i) := by
  unfold lowBits
  rw [BitVec.getLsbD_and, BitVec.getLsbD_ofNat, Nat.testBit_two_pow_sub_one]
  by_cases hi : i < w
  · simp [hi, Bool.and_comm]
  · rw [BitVec.getLsbD_of_ge v i (by omega)]
    simp

theorem lowBits_zero (v : BitVec w) : lowBits 0 v = 0 :=
  BitVec.eq_of_getLsbD_eq fun i _ => by rw [getLsbD_lowBits]; simp

theorem lowBits_width (v : BitVec w) : lowBits w v = v :=
  BitVec.eq_of_getLsbD_eq fun i hi => by rw [getLsbD_lowBits]; simp [hi]

theorem lowBits_succ {k : Nat} (hk : k < w) (v : BitVec w) :
    lowBits (k + 1) v = lowBits k v ^^^ if v.getLsbD k then BitVec.twoPow w k else 0 := by
  refine BitVec.eq_of_getLsbD_eq fun i hi => ?_
  rw [BitVec.getLsbD_xor, getLsbD_lowBits, getLsbD_lowBits]
  by_cases heq : i = k
  · subst heq
    cases hbit : v.getLsbD i with
    | false => rw [if_neg Bool.false_ne_true]; simp
    | true => rw [if_pos rfl, BitVec.getLsbD_twoPow]; simp [hi]
  · have hlt : i < k + 1 ↔ i < k := by omega
    have hpow : (BitVec.twoPow w k).getLsbD i = false := by
      rw [BitVec.getLsbD_twoPow]
      simp [Ne.symm heq]
    simp only [hlt]
    split_ifs <;> simp [hpow]

/-! ## Matrices -/

structure IsMatrixOf (mat : List (BitVec w)) (f : BitVec w → BitVec w) : Prop where
  length : mat.length = w
  column : ∀ i column, mat[i]? = some column → column = f (BitVec.twoPow w i)

/-- The sum of the columns where the word has a bit, as a loop over the columns adds it up. -/
def addColumns (mat : List (BitVec w)) (v : BitVec w) : BitVec w :=
  mat.zipIdx.foldl (fun sum (column, i) => sum ^^^ if v.getLsbD i then column else 0) 0

theorem addColumns_eq {mat : List (BitVec w)} (hmat : IsMatrixOf mat f) (hf : XorLinear f)
    (v : BitVec w) : addColumns mat v = f v := by
  have hfold : ∀ k ≤ w, (mat.take k).zipIdx.foldl
      (fun sum (column, i) => sum ^^^ if v.getLsbD i then column else 0) 0 = f (lowBits k v) := by
    intro k
    induction k with
    | zero => exact fun _ => by rw [lowBits_zero, hf.zero]; rfl
    | succ k ih =>
      intro hk
      have hlt : k < mat.length := by rw [hmat.length]; omega
      have hcolumn := hmat.column k _ (List.getElem?_eq_getElem hlt)
      rw [List.take_add_one, List.getElem?_eq_getElem hlt, Option.toList_some,
        List.zipIdx_append, List.foldl_append, ih (by omega), lowBits_succ hk, hf, List.length_take,
        Nat.min_eq_left (by omega)]
      simp only [List.zipIdx_cons, List.zipIdx_nil, List.foldl_cons, List.foldl_nil, Nat.zero_add]
      rw [hcolumn]
      split_ifs
      · rfl
      · rw [hf.zero]
  have hall := hfold w (Nat.le_refl _)
  rwa [List.take_of_length_le hmat.length.le, lowBits_width] at hall

theorem IsMatrixOf.map {mat : List (BitVec w)} (hmat : IsMatrixOf mat g) (f : BitVec w → BitVec w) :
    IsMatrixOf (mat.map f) (fun a => f (g a)) where
  length := by rw [List.length_map, hmat.length]
  column i column h := by
    rw [List.getElem?_map, Option.map_eq_some_iff] at h
    obtain ⟨c, hc, rfl⟩ := h
    rw [hmat.column i c hc]

end FrankenFs.Lib
