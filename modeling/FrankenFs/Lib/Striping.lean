import Mathlib.Algebra.Group.Nat.Defs
import Mathlib.Data.List.Nodup
import Mathlib.Data.List.Perm.Subperm
import Mathlib.Data.Nat.ModEq
import Mathlib.Tactic.Common

/-!
# Numbers in rows of columns

A range of numbers is cut into units, and every `columns` units are a row. The columns of a row may be
rotated by one for each row.
-/

namespace FrankenFs.Lib.Striping

variable {unit columns : Nat}

def row (unit columns n : Nat) : Nat := n / (unit * columns)

def column (unit columns n : Nat) : Nat := n / unit % columns

def place (unit columns n : Nat) : Nat := row unit columns n * unit + n % unit

def join (unit columns r c k : Nat) : Nat := (r * columns + c) * unit + k

theorem join_row_column (unit columns n : Nat) :
    join unit columns (row unit columns n) (column unit columns n) (n % unit) = n := by
  unfold join row column
  rw [← Nat.div_div_eq_div_mul, Nat.div_add_mod', Nat.div_add_mod']

theorem column_lt (h : 0 < columns) (n : Nat) : column unit columns n < columns := Nat.mod_lt _ h

section Join

variable {r c k : Nat}

theorem div_join (hk : k < unit) : join unit columns r c k / unit = r * columns + c := by
  unfold join
  rw [Nat.add_comm, Nat.add_mul_div_right _ _ (by omega), Nat.div_eq_of_lt hk, Nat.zero_add]

theorem row_join (hc : c < columns) (hk : k < unit) : row unit columns (join unit columns r c k) = r := by
  unfold row
  rw [← Nat.div_div_eq_div_mul, div_join hk, Nat.add_comm, Nat.add_mul_div_right _ _ (by omega),
    Nat.div_eq_of_lt hc, Nat.zero_add]

theorem column_join (hc : c < columns) (hk : k < unit) :
    column unit columns (join unit columns r c k) = c := by
  unfold column
  rw [div_join hk, Nat.add_comm, Nat.add_mul_mod_self_right, Nat.mod_eq_of_lt hc]

theorem join_mod (hk : k < unit) : join unit columns r c k % unit = k := by
  unfold join
  rw [Nat.add_comm, Nat.add_mul_mod_self_right, Nat.mod_eq_of_lt hk]

end Join

theorem within_unit {n i : Nat} (h : n % unit + i < unit) :
    row unit columns (n + i) = row unit columns n ∧
      column unit columns (n + i) = column unit columns n ∧
      place unit columns (n + i) = place unit columns n + i := by
  have hmod : (n + i) % unit = n % unit + i := by
    rw [Nat.add_mod, Nat.mod_eq_of_lt (show i < unit by omega), Nat.mod_eq_of_lt h]
  have hdiv : (n + i) / unit = n / unit := by
    have hn := Nat.div_add_mod' n unit
    have hni := Nat.div_add_mod' (n + i) unit
    have heq : (n + i) / unit * unit = n / unit * unit := by omega
    exact Nat.eq_of_mul_eq_mul_right (by omega) heq
  have hrow : row unit columns (n + i) = row unit columns n := by
    unfold row
    rw [← Nat.div_div_eq_div_mul, ← Nat.div_div_eq_div_mul, hdiv]
  refine ⟨hrow, by rw [column, column, hdiv], ?_⟩
  rw [place, place, hrow, hmod, Nat.add_assoc]

theorem eq_of_place {n m : Nat} (hunit : 0 < unit)
    (hplace : place unit columns n = place unit columns m)
    (hcolumn : row unit columns n = row unit columns m →
      column unit columns n = column unit columns m) : n = m := by
  have hn := Nat.mod_lt n hunit
  have hm := Nat.mod_lt m hunit
  have hrow : row unit columns n = row unit columns m := by
    have hdiv := congrArg (· / unit) hplace
    unfold place at hdiv
    simp only [Nat.add_comm (_ * unit), Nat.add_mul_div_right _ _ hunit, Nat.div_eq_of_lt hn,
      Nat.div_eq_of_lt hm, Nat.zero_add] at hdiv
    exact hdiv
  have hmod : n % unit = m % unit := by
    unfold place at hplace
    rw [hrow] at hplace
    omega
  rw [← join_row_column unit columns n, ← join_row_column unit columns m, hrow, hcolumn hrow, hmod]

/-! ## Rotations -/

theorem rotate_injective {n shift i j : Nat} (hi : i < n) (hj : j < n)
    (h : (shift + i) % n = (shift + j) % n) : i = j := by
  have hmod : i ≡ j [MOD n] := Nat.ModEq.add_left_cancel' shift h
  rwa [Nat.ModEq, Nat.mod_eq_of_lt hi, Nat.mod_eq_of_lt hj] at hmod

theorem rotate_perm (n shift : Nat) :
    ((List.range n).map fun i => (shift + i) % n).Perm (List.range n) := by
  rcases Nat.eq_zero_or_pos n with rfl | hpos
  · exact .refl _
  have hnodup : ((List.range n).map fun i => (shift + i) % n).Nodup := by
    refine List.Nodup.map_on ?_ List.nodup_range
    intro i hi j hj h
    exact rotate_injective (List.mem_range.mp hi) (List.mem_range.mp hj) h
  refine (List.subperm_of_subset hnodup ?_).perm_of_length_le (by simp)
  intro i hi
  obtain ⟨j, -, rfl⟩ := List.mem_map.mp hi
  exact List.mem_range.mpr (Nat.mod_lt _ hpos)

end FrankenFs.Lib.Striping
