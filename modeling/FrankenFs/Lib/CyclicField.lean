import Mathlib.Algebra.Field.Defs
import Mathlib.Algebra.Group.Basic
import Mathlib.Data.Nat.Basic
import Mathlib.Logic.Function.Iterate

/-!
# Fields from the powers of a generator

Where every element of an additive group but zero is a power of one additive map, taken at `one`, the
sums of exponents make it a field.
-/

namespace FrankenFs.Lib

universe u

/-- `step` multiplies by the generator, and `log` finds the exponent of an element. -/
structure Generator (α : Type u) [AddCommGroup α] where
  step : α → α
  one : α
  order : Nat
  log : α → Nat
  step_add : ∀ a b, step (a + b) = step a + step b
  one_ne_zero : one ≠ 0
  order_pos : 0 < order
  power_order : step^[order] one = one
  log_le : ∀ a, log a ≤ order
  power_log : ∀ a, a ≠ 0 → step^[log a] one = a

namespace Generator

variable {α : Type u} [AddCommGroup α] (g : Generator α)

/-! ## The map and its powers -/

def power (i : Nat) : α := g.step^[i] g.one

theorem iterate_add (n : Nat) (a b : α) : g.step^[n] (a + b) = g.step^[n] a + g.step^[n] b := by
  induction n generalizing a b with
  | zero => rfl
  | succ n ih => rw [Function.iterate_succ_apply, g.step_add, ih]; rfl

theorem iterate_zero (n : Nat) : g.step^[n] 0 = 0 := by
  simpa using g.iterate_add n 0 0

theorem power_add (i j : Nat) : g.power (i + j) = g.step^[i] (g.power j) :=
  Function.iterate_add_apply g.step i j g.one

theorem power_mul_order (n : Nat) : g.power (g.order * n) = g.one := by
  induction n with
  | zero => rfl
  | succ n ih =>
    rw [Nat.mul_succ, power_add, show g.power g.order = g.one from g.power_order]
    exact ih

theorem power_mod (i : Nat) : g.power (i % g.order) = g.power i := by
  have h := g.power_add (i % g.order) (g.order * (i / g.order))
  rw [Nat.mod_add_div, power_mul_order] at h
  exact h.symm

theorem power_ne_zero (i : Nat) : g.power i ≠ 0 := by
  intro hzero
  have hle : i ≤ g.order * i := Nat.le_mul_of_pos_left i g.order_pos
  have hback := g.power_mul_order i
  rw [← Nat.sub_add_cancel hle, power_add, hzero, iterate_zero] at hback
  exact g.one_ne_zero hback.symm

/-! ## The laws of a field -/

variable [DecidableEq α]

def mul (a b : α) : α := if a = 0 ∨ b = 0 then 0 else g.power (g.log a + g.log b)

def inv (a : α) : α := if a = 0 then 0 else g.power (g.order - g.log a)

theorem power_mul (i : Nat) (b : α) : g.mul (g.power i) b = g.step^[i] b := by
  unfold mul
  by_cases hb : b = 0
  · rw [if_pos (Or.inr hb), hb, iterate_zero]
  · rw [if_neg (by simp [g.power_ne_zero i, hb])]
    have hlog : g.power (g.log (g.power i)) = g.power i := g.power_log _ (g.power_ne_zero i)
    have hpower : g.power (g.log b) = b := g.power_log b hb
    calc g.power (g.log (g.power i) + g.log b)
        = g.step^[g.log b] (g.power (g.log (g.power i))) := by rw [Nat.add_comm, power_add]
      _ = g.power (i + g.log b) := by rw [hlog, ← power_add, Nat.add_comm]
      _ = g.step^[i] b := by rw [power_add, hpower]

theorem eq_zero_or_power (a : α) : a = 0 ∨ ∃ i, g.power i = a := by
  by_cases ha : a = 0
  · exact Or.inl ha
  · exact Or.inr ⟨g.log a, g.power_log a ha⟩

theorem zero_mul (b : α) : g.mul 0 b = 0 := if_pos (Or.inl rfl)

theorem mul_comm (a b : α) : g.mul a b = g.mul b a := by
  unfold mul
  simp only [Nat.add_comm (g.log a), or_comm (a := a = 0)]

theorem mul_add (a b c : α) : g.mul a (b + c) = g.mul a b + g.mul a c := by
  obtain rfl | ⟨i, rfl⟩ := g.eq_zero_or_power a
  · simp [zero_mul]
  · simp only [power_mul, iterate_add]

theorem mul_assoc (a b c : α) : g.mul (g.mul a b) c = g.mul a (g.mul b c) := by
  obtain rfl | ⟨i, rfl⟩ := g.eq_zero_or_power a
  · simp [zero_mul]
  obtain rfl | ⟨j, rfl⟩ := g.eq_zero_or_power b
  · rw [g.mul_comm (g.power i) 0, zero_mul, zero_mul, g.mul_comm, zero_mul]
  · rw [g.power_mul i (g.power j), ← power_add, power_mul, power_mul, power_mul,
      Function.iterate_add_apply]

theorem one_mul (a : α) : g.mul g.one a = a := g.power_mul 0 a

theorem mul_inv_cancel (a : α) (ha : a ≠ 0) : g.mul a (g.inv a) = g.one := by
  have hpower : g.power (g.log a) = a := g.power_log a ha
  calc g.mul a (g.inv a) = g.mul (g.power (g.log a)) (g.power (g.order - g.log a)) := by
        rw [hpower, inv, if_neg ha]
    _ = g.power g.order := by rw [power_mul, ← power_add, Nat.add_sub_cancel' (g.log_le a)]
    _ = g.one := g.power_order

/-- **The powers of a generator make a field.** -/
@[reducible]
def toField : Field α :=
  { (inferInstance : AddCommGroup α) with
    mul := g.mul
    one := g.one
    inv := g.inv
    mul_assoc := g.mul_assoc
    one_mul := g.one_mul
    mul_one := fun a => (g.mul_comm a g.one).trans (g.one_mul a)
    left_distrib := g.mul_add
    right_distrib := fun a b c => by
      show g.mul (a + b) c = g.mul a c + g.mul b c
      rw [g.mul_comm, g.mul_add, g.mul_comm c a, g.mul_comm c b]
    zero_mul := g.zero_mul
    mul_zero := fun a => (g.mul_comm a 0).trans (g.zero_mul a)
    mul_comm := g.mul_comm
    exists_pair_ne := ⟨g.one, 0, g.one_ne_zero⟩
    mul_inv_cancel := g.mul_inv_cancel
    inv_zero := if_pos rfl
    nnqsmul := _
    nnqsmul_def := fun _ _ => rfl
    qsmul := _
    qsmul_def := fun _ _ => rfl }

end Generator

end FrankenFs.Lib
