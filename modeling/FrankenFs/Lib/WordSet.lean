import Mathlib.Data.Nat.Basic
import Mathlib.Tactic.Common

/-!
# Sets of positions in 64-bit words

A list of words is the set of the positions whose bit it has: position `p` is bit `p % 64` of
word `p / 64`.
-/

namespace FrankenFs.Lib

abbrev Word := BitVec 64

def wordAt (words : List Word) (w : Nat) : Word := words[w]?.getD 0

def bitAt (words : List Word) (p : Nat) : Bool := (wordAt words (p / 64)).getLsbD (p % 64)

section

variable {words : List Word}

theorem bitAt_word (words : List Word) (w : Nat) {i : Nat} (h : i < 64) :
    bitAt words (64 * w + i) = (wordAt words w).getLsbD i := by
  rw [bitAt, show (64 * w + i) / 64 = w by omega, show (64 * w + i) % 64 = i by omega]

theorem bitAt_replicate (n p : Nat) : bitAt (List.replicate n 0) p = false := by
  have hword : wordAt (List.replicate n 0) (p / 64) = 0 := by
    rw [wordAt, List.getElem?_replicate]
    split_ifs
    · rfl
    · rfl
  rw [bitAt, hword]
  exact BitVec.getLsbD_zero

theorem bitAt_set {w : Nat} (hw : w < words.length) (v : Word) (p : Nat) :
    bitAt (words.set w v) p = if p / 64 = w then v.getLsbD (p % 64) else bitAt words p := by
  unfold bitAt wordAt
  split_ifs with h
  · rw [h, List.getElem?_set_self hw, Option.getD_some]
  · rw [List.getElem?_set_ne (Ne.symm h)]

theorem exists_getLsbD_of_ne_zero {v : Word} (h : v ≠ 0) : ∃ i, i < 64 ∧ v.getLsbD i = true := by
  by_contra hnone
  push Not at hnone
  refine h (BitVec.eq_of_getLsbD_eq fun i hi => ?_)
  exact (Bool.eq_false_iff.mpr (hnone i hi)).trans BitVec.getLsbD_zero.symm

theorem ne_zero_of_getLsbD {v : Word} {i : Nat} (h : v.getLsbD i = true) : v ≠ 0 := by
  rintro rfl
  cases h.symm.trans BitVec.getLsbD_zero

theorem and_ne_zero_iff {v m : Word} :
    v &&& m ≠ 0 ↔ ∃ i, i < 64 ∧ v.getLsbD i = true ∧ m.getLsbD i = true := by
  constructor
  · intro h
    obtain ⟨i, hi, hbit⟩ := exists_getLsbD_of_ne_zero h
    rw [BitVec.getLsbD_and, Bool.and_eq_true] at hbit
    exact ⟨i, hi, hbit⟩
  · rintro ⟨i, -, hv, hm⟩
    exact ne_zero_of_getLsbD (i := i) (by rw [BitVec.getLsbD_and, hv, hm]; rfl)

theorem wordAt_and_ne_zero_iff {w : Nat} {m : Word} :
    wordAt words w &&& m ≠ 0 ↔
      ∃ p, p / 64 = w ∧ bitAt words p = true ∧ m.getLsbD (p % 64) = true := by
  rw [and_ne_zero_iff]
  constructor
  · rintro ⟨i, hi, hbit, hm⟩
    refine ⟨64 * w + i, by omega, by rwa [bitAt_word words w hi], ?_⟩
    rwa [show (64 * w + i) % 64 = i by omega]
  · rintro ⟨p, rfl, hbit, hm⟩
    exact ⟨p % 64, Nat.mod_lt _ (by decide), hbit, hm⟩

theorem any_between_iff {first last : Nat} :
    ((words.take last).drop (first + 1)).any (· != 0) = true ↔
      ∃ p, first < p / 64 ∧ p / 64 < last ∧ bitAt words p = true := by
  rw [List.any_eq_true]
  constructor
  · rintro ⟨v, hv, hne⟩
    obtain ⟨k, hk⟩ := List.mem_iff_getElem?.mp hv
    rw [List.getElem?_drop, List.getElem?_take] at hk
    split_ifs at hk with hlt
    obtain ⟨i, hi, hbit⟩ := exists_getLsbD_of_ne_zero (bne_iff_ne.mp hne)
    refine ⟨64 * (first + 1 + k) + i, by omega, by omega, ?_⟩
    rw [bitAt_word words _ hi, wordAt, hk]
    exact hbit
  · rintro ⟨p, hfirst, hlast, hbit⟩
    have hne := ne_zero_of_getLsbD hbit
    unfold wordAt at hne
    cases hv : words[p / 64]? with
    | none => exact absurd (by rw [hv]; rfl) hne
    | some v =>
      rw [hv] at hne
      refine ⟨v, List.mem_iff_getElem?.mpr ⟨p / 64 - (first + 1), ?_⟩, bne_iff_ne.mpr hne⟩
      rw [List.getElem?_drop, show first + 1 + (p / 64 - (first + 1)) = p / 64 by omega,
        List.getElem?_take, if_pos hlast, hv]

theorem bitAt_mapIdx {f : Nat → Word → Word} (p : Nat) (h : p / 64 < words.length) :
    bitAt (words.mapIdx f) p = (f (p / 64) (wordAt words (p / 64))).getLsbD (p % 64) := by
  unfold bitAt wordAt
  rw [List.getElem?_mapIdx, List.getElem?_eq_getElem h]
  rfl

theorem bitAt_of_length_le {p : Nat} (h : words.length ≤ p / 64) : bitAt words p = false := by
  unfold bitAt wordAt
  rw [List.getElem?_eq_none h]
  exact BitVec.getLsbD_zero

end

end FrankenFs.Lib
