import FrankenFs.Lib.CyclicField
import Mathlib.Algebra.CharP.Two
import Mathlib.Data.BitVec

/-!
# The bytes as a field

`gf256` of `ffs-repair`: products by tables of the powers and the logarithms of 3, modulo
x^8 + x^4 + x^3 + x + 1.
-/

open FrankenFs.Lib

namespace FrankenFs.Repair

def Gf256 : Type := BitVec 8

namespace Gf256

def toByte (a : Gf256) : BitVec 8 := a

def ofNat (n : Nat) : Gf256 := BitVec.ofNat 8 n

instance : DecidableEq Gf256 := inferInstanceAs (DecidableEq (BitVec 8))

instance : Zero Gf256 := ⟨ofNat 0⟩

instance : Add Gf256 := ⟨fun a b => a.toByte ^^^ b.toByte⟩

instance : Neg Gf256 := ⟨fun a => a⟩

instance : AddCommGroup Gf256 where
  add_assoc := @BitVec.xor_assoc 8
  zero_add := @BitVec.zero_xor 8
  add_zero := @BitVec.xor_zero 8
  add_comm := @BitVec.xor_comm 8
  neg_add_cancel := @BitVec.xor_self 8
  nsmul := nsmulRec
  zsmul := zsmulRec

/-! ## The tables -/

/-- `val * 3`, the way from one entry of a table to the next. -/
def timesGenerator (val : Nat) : Nat :=
  let val := (val <<< 1) ^^^ val
  if 256 ≤ val then val ^^^ 0x11B else val

def expFrom (val : Nat) : (i : Nat) → Nat
  | 0 => val
  | i + 1 => expFrom (timesGenerator val) i

def exp (i : Nat) : Gf256 := ofNat (expFrom 1 i)

/-- The loop that fills `LOG` writes `i` at the entry of the `i`-th power. -/
def logFrom (a : Nat) : (fuel val i : Nat) → Nat
  | 0, _, _ => 0
  | fuel + 1, val, i => if val = a then i else logFrom a fuel (timesGenerator val) (i + 1)

def log (a : Gf256) : Nat := logFrom a.toByte.toNat 255 1 0

def mulLogExp (a b : Gf256) : Gf256 := if a = 0 ∨ b = 0 then 0 else exp (log a + log b)

def generatorPow (exponent : Nat) : Gf256 := exp (exponent % 255)

/-- The source panics at zero. -/
def inverse (a : Gf256) : Gf256 := if a = 0 then 0 else exp (255 - log a)

/-! ## The field -/

def step (a : Gf256) : Gf256 := ofNat (timesGenerator a.toByte.toNat)

theorem ofNat_toByte (a : Gf256) : ofNat a.toByte.toNat = a :=
  (BitVec.ofNat_toNat 8 a.toByte).trans (BitVec.setWidth_eq _)

def carry (msb : Bool) : BitVec 8 := if msb then 0x1B#8 else 0#8

theorem carry_xor (p q : Bool) : carry (p ^^ q) = carry p ^^^ carry q := by
  cases p <;> cases q <;> rfl

theorem toByte_step (a : Gf256) :
    (step a).toByte = a.toByte <<< 1 ^^^ a.toByte ^^^ carry a.toByte.msb := by
  have h : ∀ n < 256, (step (ofNat n)).toByte =
      (ofNat n).toByte <<< 1 ^^^ (ofNat n).toByte ^^^ carry (ofNat n).toByte.msb := by
    decide +kernel
  simpa only [ofNat_toByte] using h a.toByte.toNat a.toByte.isLt

theorem step_add (a b : Gf256) : step (a + b) = step a + step b := by
  show (step (a + b)).toByte = (step a).toByte ^^^ (step b).toByte
  rw [toByte_step, toByte_step, toByte_step]
  show (a.toByte ^^^ b.toByte) <<< 1 ^^^ (a.toByte ^^^ b.toByte) ^^^
    carry (a.toByte ^^^ b.toByte).msb = _
  rw [BitVec.shiftLeft_xor_distrib, BitVec.msb_xor, carry_xor]
  ac_rfl

theorem timesGenerator_lt : ∀ val < 256, timesGenerator val < 256 := by decide +kernel

theorem exp_log (a : Gf256) (ha : a ≠ 0) : exp (log a) = a ∧ log a < 255 := by
  have h : ∀ n < 256, ofNat n ≠ 0 → exp (log (ofNat n)) = ofNat n ∧ log (ofNat n) < 255 := by
    decide +kernel
  have := h a.toByte.toNat a.toByte.isLt
  rw [ofNat_toByte] at this
  exact this ha

theorem expFrom_succ (val i : Nat) : expFrom val (i + 1) = timesGenerator (expFrom val i) := by
  induction i generalizing val with
  | zero => rfl
  | succ i ih => exact ih (timesGenerator val)

theorem expFrom_lt (i : Nat) : expFrom 1 i < 256 := by
  induction i with
  | zero => decide
  | succ i ih =>
    rw [expFrom_succ]
    exact timesGenerator_lt _ ih

theorem iterate_step (i : Nat) : step^[i] (ofNat 1) = exp i := by
  induction i with
  | zero => rfl
  | succ i ih =>
    have hnat : (exp i).toByte.toNat = expFrom 1 i := Nat.mod_eq_of_lt (expFrom_lt i)
    rw [Function.iterate_succ_apply', ih, step, hnat, ← expFrom_succ]
    rfl

def generator : Generator Gf256 where
  step := step
  one := ofNat 1
  order := 255
  log := log
  step_add := step_add
  one_ne_zero := by decide
  order_pos := by decide
  power_order := by
    rw [iterate_step]
    decide +kernel
  log_le a := by
    by_cases ha : a = 0
    · rw [ha]
      decide +kernel
    · exact (exp_log a ha).2.le
  power_log a ha := by rw [iterate_step, (exp_log a ha).1]

instance : Field Gf256 := generator.toField

instance : CharP Gf256 2 :=
  CharTwo.of_one_ne_zero_of_two_eq_zero one_ne_zero (by
    rw [← one_add_one_eq_two]
    exact @BitVec.xor_self 8 _)

theorem mul_eq_mulLogExp (a b : Gf256) : a * b = mulLogExp a b := by
  show generator.mul a b = mulLogExp a b
  unfold Generator.mul mulLogExp Generator.power
  rw [show generator.step = step from rfl, show generator.one = ofNat 1 from rfl, iterate_step]
  rfl

theorem inv_eq_inverse (a : Gf256) : a⁻¹ = inverse a := by
  show generator.inv a = inverse a
  unfold Generator.inv inverse Generator.power
  rw [show generator.step = step from rfl, show generator.one = ofNat 1 from rfl, iterate_step]
  rfl

theorem exp_add (i j : Nat) : exp (i + j) = exp i * exp j := by
  show _ = generator.mul (exp i) (exp j)
  rw [← iterate_step, ← iterate_step, ← iterate_step]
  exact (generator.power_mul i _).trans (generator.power_add i j).symm |>.symm

theorem exp_mul (i n : Nat) : exp (i * n) = exp i ^ n := by
  induction n with
  | zero => rfl
  | succ n ih => rw [Nat.mul_succ, exp_add, ih, pow_succ]

theorem exp_255 : exp 255 = 1 := by decide +kernel

theorem exp_mod (i : Nat) : exp (i % 255) = exp i := by
  conv_rhs => rw [← Nat.div_add_mod i 255, exp_add, exp_mul, exp_255, one_pow, one_mul]

theorem exp_injective {i j : Nat} (hi : i < 255) (hj : j < 255) (h : exp i = exp j) : i = j := by
  have hlog : ∀ n < 255, log (exp n) = n := by decide +kernel
  rw [← hlog i hi, h, hlog j hj]

end Gf256

end FrankenFs.Repair
