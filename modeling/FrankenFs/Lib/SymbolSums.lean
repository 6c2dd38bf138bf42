import Mathlib.Algebra.BigOperators.Group.List.Basic
import Mathlib.Algebra.Field.Defs
import Mathlib.Data.List.Nodup
import Mathlib.Tactic.Abel

/-!
# Sums of symbols

Symbols are lists of field elements that are added and scaled place by place.
-/

namespace FrankenFs.Lib

variable {F : Type*} [Field F]

def valueAt (t : Nat) (symbol : List F) : F := symbol.getD t 0

theorem valueAt_ext {a b : List F} (hlen : a.length = b.length)
    (h : ∀ t, valueAt t a = valueAt t b) : a = b := by
  refine List.ext_getElem hlen fun t ht ht' => ?_
  have := h t
  simpa [valueAt, ht, ht'] using this

theorem valueAt_of_le {t : Nat} {symbol : List F} (h : symbol.length ≤ t) :
    valueAt t symbol = 0 := by simp [valueAt, h]

theorem valueAt_replicate (t n : Nat) : valueAt t (List.replicate n (0 : F)) = 0 := by
  simp only [valueAt, List.getD_eq_getElem?_getD, List.getElem?_replicate]
  split_ifs <;> rfl

theorem valueAt_zipWith {f : F → F → F} (hf : f 0 0 = 0) {dst src : List F}
    (h : src.length = dst.length) (t : Nat) :
    valueAt t (List.zipWith f dst src) = f (valueAt t dst) (valueAt t src) := by
  simp only [valueAt, List.getD_eq_getElem?_getD, List.getElem?_zipWith]
  by_cases ht : t < dst.length
  · simp [ht, h]
  · simp [Nat.le_of_not_lt ht, h, hf]

theorem valueAt_map {f : F → F} (hf : f 0 = 0) (t : Nat) (symbol : List F) :
    valueAt t (symbol.map f) = f (valueAt t symbol) := by
  simp only [valueAt, List.getD_eq_getElem?_getD, List.getElem?_map]
  cases symbol[t]? with
  | none => exact hf.symm
  | some v => rfl

/-! ## Loops -/

theorem sum_filter_add_sum_filter (l : List Nat) (q : Nat → Bool) (f : Nat → F) :
    ((l.filter q).map f).sum + ((l.filter fun i => !q i).map f).sum = (l.map f).sum := by
  induction l with
  | nil => simp
  | cons i l ih =>
    rw [List.map_cons, List.sum_cons, ← ih]
    cases hi : q i <;> simp only [List.filter_cons, hi, Bool.not_false, Bool.not_true, if_true,
      Bool.false_eq_true, if_false, List.map_cons, List.sum_cons] <;> abel

theorem sum_map_ite (l : List Nat) (q : Nat → Bool) (f : Nat → F) :
    (l.map fun i => if q i then f i else 0).sum = ((l.filter q).map f).sum := by
  induction l with
  | nil => rfl
  | cons i l ih =>
    rw [List.map_cons, List.sum_cons, ih, List.filter_cons]
    split_ifs <;> simp

theorem filter_range_eq {k i : Nat} (h : i < k) : (List.range k).filter (· == i) = [i] := by
  rw [List.filter_beq, List.count_eq_one_of_mem List.nodup_range (List.mem_range.mpr h)]
  rfl

theorem foldl_sum {ι : Type*} {size : Nat} {step : List F → ι → List F} {term : Nat → ι → F}
    {items : List ι}
    (hstep : ∀ i ∈ items, ∀ acc : List F, acc.length = size → (step acc i).length = size ∧
      ∀ t, valueAt t (step acc i) = valueAt t acc + term t i)
    {acc : List F} (hacc : acc.length = size) :
    (items.foldl step acc).length = size ∧
      ∀ t, valueAt t (items.foldl step acc) = valueAt t acc + (items.map (term t)).sum := by
  induction items generalizing acc with
  | nil => exact ⟨hacc, fun t => by simp⟩
  | cons i items ih =>
    obtain ⟨hlen, hterm⟩ := hstep i (by simp) acc hacc
    obtain ⟨hlast, hsum⟩ := ih (fun i hi => hstep i (by simp [hi])) hlen
    refine ⟨hlast, fun t => ?_⟩
    rw [List.foldl_cons, hsum, hterm, List.map_cons, List.sum_cons, add_assoc]

end FrankenFs.Lib
