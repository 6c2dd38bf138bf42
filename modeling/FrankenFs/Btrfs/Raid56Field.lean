import FrankenFs.Btrfs.Raid56
import FrankenFs.Repair.Gf256

/-!
# The field of the parities

The bytes with the products of the tables are a field of characteristic 2 with 2 as a generator.
-/

open FrankenFs.Lib

namespace FrankenFs.Btrfs.Raid56

/-- A byte, with the products of `gmul`. -/
def RaidByte : Type := Repair.Gf256

namespace RaidByte

def toByte (a : RaidByte) : BitVec 8 := a

def ofByte (b : BitVec 8) : RaidByte := b

instance : DecidableEq RaidByte := inferInstanceAs (DecidableEq (BitVec 8))

instance : AddCommGroup RaidByte := inferInstanceAs (AddCommGroup Repair.Gf256)

theorem add_self (a : RaidByte) : a + a = 0 := @BitVec.xor_self 8 a

def step (a : RaidByte) : RaidByte := ofByte (BitVec.ofNat 8 (Raid56.double a.toByte.toNat))

def carry (msb : Bool) : BitVec 8 := if msb then 0x1D#8 else 0#8

theorem toByte_step (a : RaidByte) : (step a).toByte = a.toByte <<< 1 ^^^ carry a.toByte.msb := by
  have h : ∀ n < 256, BitVec.ofNat 8 (Raid56.double (BitVec.ofNat 8 n).toNat) =
      BitVec.ofNat 8 n <<< 1 ^^^ carry (BitVec.ofNat 8 n).msb := by
    decide +kernel
  have := h a.toByte.toNat a.toByte.isLt
  rw [BitVec.ofNat_toNat, BitVec.setWidth_eq] at this
  exact this

theorem step_add (a b : RaidByte) : step (a + b) = step a + step b := by
  show (step (a + b)).toByte = (step a).toByte ^^^ (step b).toByte
  rw [toByte_step, toByte_step, toByte_step]
  show (a.toByte ^^^ b.toByte) <<< 1 ^^^ carry (a.toByte ^^^ b.toByte).msb = _
  have hcarry : ∀ p q : Bool, carry (p ^^ q) = carry p ^^^ carry q := by decide
  rw [BitVec.shiftLeft_xor_distrib, BitVec.msb_xor, hcarry]
  ac_rfl

theorem expFrom_succ (x i : Nat) : expFrom x (i + 1) = Raid56.double (expFrom x i) := by
  induction i generalizing x with
  | zero => rfl
  | succ i ih => exact ih (Raid56.double x)

theorem expFrom_lt (i : Nat) : expFrom 1 i < 256 := by
  have hdouble : ∀ x < 256, Raid56.double x < 256 := by decide +kernel
  induction i with
  | zero => decide
  | succ i ih =>
    rw [expFrom_succ]
    exact hdouble _ ih

theorem iterate_step (i : Nat) : step^[i] (ofByte 1) = ofByte (BitVec.ofNat 8 (expFrom 1 i)) := by
  induction i with
  | zero => rfl
  | succ i ih =>
    have hnat : (ofByte (BitVec.ofNat 8 (expFrom 1 i))).toByte.toNat = expFrom 1 i :=
      Nat.mod_eq_of_lt (expFrom_lt i)
    rw [Function.iterate_succ_apply', ih, step, hnat, ← expFrom_succ]

theorem exp_log (a : RaidByte) (ha : a ≠ 0) : exp (log a.toByte) = a.toByte ∧ log a.toByte < 255 := by
  have h : ∀ n < 256, BitVec.ofNat 8 n ≠ 0 →
      exp (log (BitVec.ofNat 8 n)) = BitVec.ofNat 8 n ∧ log (BitVec.ofNat 8 n) < 255 := by
    decide +kernel
  have := h a.toByte.toNat a.toByte.isLt
  rw [BitVec.ofNat_toNat, BitVec.setWidth_eq] at this
  exact this ha

theorem one_ne_zero : ofByte 1 ≠ (0 : RaidByte) := by decide

theorem power_order : step^[255] (ofByte 1) = ofByte 1 := by
  rw [iterate_step]
  decide +kernel

theorem log_le (a : RaidByte) : log a.toByte ≤ 255 := by
  by_cases ha : a = 0
  · rw [ha]
    decide +kernel
  · exact (exp_log a ha).2.le

theorem power_log (a : RaidByte) (ha : a ≠ 0) : step^[log a.toByte] (ofByte 1) = a := by
  obtain ⟨hexp, hlt⟩ := exp_log a ha
  rw [exp, Nat.mod_eq_of_lt hlt] at hexp
  rw [iterate_step, hexp]
  rfl

def generator : Generator RaidByte where
  step := step
  one := ofByte 1
  order := 255
  log a := log a.toByte
  step_add := step_add
  one_ne_zero := one_ne_zero
  order_pos := Nat.succ_pos 254
  power_order := power_order
  log_le := log_le
  power_log := power_log

instance : Field RaidByte := generator.toField

theorem exp_eq_power (i : Nat) : ofByte (exp i) = generator.power i := by
  rw [← generator.power_mod]
  exact (iterate_step (i % 255)).symm

theorem gexp_eq_power (n : Nat) : ofByte (gexp n) = generator.power n := by
  rw [gexp, exp_eq_power]
  exact generator.power_mod n

theorem gexp_ne_zero (n : Nat) : ofByte (gexp n) ≠ 0 := by
  rw [gexp_eq_power]
  exact generator.power_ne_zero n

theorem gexp_injective {i j : Nat} (hi : i < 255) (hj : j < 255) (h : gexp i = gexp j) : i = j := by
  have hlog : ∀ n < 255, log (gexp n) = n := by decide +kernel
  rw [← hlog i hi, h, hlog j hj]

theorem gmul_eq_mul (a b : BitVec 8) : ofByte (gmul a b) = ofByte a * ofByte b := by
  show _ = generator.mul (ofByte a) (ofByte b)
  unfold gmul Generator.mul
  by_cases hzero : a = 0 ∨ b = 0
  · exact (congrArg ofByte (if_pos hzero)).trans (if_pos hzero).symm
  · exact (congrArg ofByte (if_neg hzero)).trans ((exp_eq_power _).trans (if_neg hzero).symm)

theorem gdiv_eq_div (a : BitVec 8) {b : BitVec 8} (hb : ofByte b ≠ 0) :
    ofByte (gdiv a b) = ofByte a / ofByte b := by
  rw [div_eq_mul_inv]
  show _ = generator.mul (ofByte a) (generator.inv (ofByte b))
  unfold gdiv
  split_ifs with hzero
  · rw [hzero]
    exact (generator.zero_mul _).symm
  · have ha : generator.power (log a) = ofByte a := generator.power_log (ofByte a) hzero
    have hlog : log b < 255 := (exp_log (ofByte b) hb).2
    have hmod : generator.power ((log a + 255 - log b) % 255) =
        generator.power (log a + (255 - log b)) := by
      rw [← Nat.add_sub_assoc hlog.le]
      exact generator.power_mod _
    rw [exp_eq_power, hmod, Generator.inv, if_neg hb, ← ha, generator.power_mul,
      ← generator.power_add]
    rfl

end RaidByte

open RaidByte

/-! ## Columns -/

def byteAt (i : Nat) (bytes : Bytes) : RaidByte := ofByte (bytes.getD i 0)

theorem getD_zipWith {f : BitVec 8 → BitVec 8 → BitVec 8} (hf : f 0 0 = 0) {dst src : Bytes}
    (h : src.length = dst.length) (i : Nat) :
    (List.zipWith f dst src).getD i 0 = f (dst.getD i 0) (src.getD i 0) := by
  simp only [List.getD_eq_getElem?_getD, List.getElem?_zipWith]
  by_cases hi : i < dst.length
  · simp [hi, h]
  · have hf' : f 0#8 0#8 = 0#8 := hf
    simp [Nat.le_of_not_lt hi, h, hf']

theorem byteAt_zipWith {f : BitVec 8 → BitVec 8 → BitVec 8} (hf : f 0 0 = 0) {dst src : Bytes}
    (h : src.length = dst.length) (i : Nat) :
    byteAt i (List.zipWith f dst src) = ofByte (f (byteAt i dst).toByte (byteAt i src).toByte) :=
  congrArg ofByte (getD_zipWith hf h i)

theorem byteAt_ext {a b : Bytes} (hlen : a.length = b.length)
    (h : ∀ i < a.length, byteAt i a = byteAt i b) : a = b := by
  refine List.ext_getElem hlen fun i hi hi' => ?_
  have := h i hi
  unfold byteAt at this
  rwa [List.getD_eq_getElem?_getD, List.getD_eq_getElem?_getD, List.getElem?_eq_getElem hi,
    List.getElem?_eq_getElem hi', Option.getD_some, Option.getD_some] at this

end FrankenFs.Btrfs.Raid56
