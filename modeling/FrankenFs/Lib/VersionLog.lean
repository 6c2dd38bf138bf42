import Mathlib.Order.Lattice
import Mathlib.Data.List.Induction

/-!
# The value of a log as of a point in time

A log lists `(time, value)` entries, oldest first. `asOf` reads the newest entry at or
before a time.
-/

namespace FrankenFs.Lib

variable {ι α : Type} [LinearOrder ι]

def asOf (log : List (ι × α)) (s : ι) : Option α :=
  (log.reverse.find? fun e => decide (e.1 ≤ s)).map Prod.snd

@[simp]
theorem asOf_nil (s : ι) : asOf ([] : List (ι × α)) s = none := rfl

theorem asOf_append (l₁ l₂ : List (ι × α)) (s : ι) :
    asOf (l₁ ++ l₂) s = (asOf l₂ s).or (asOf l₁ s) := by
  unfold asOf
  rw [List.reverse_append, List.find?_append]
  cases l₂.reverse.find? fun e => decide (e.1 ≤ s) <;> rfl

theorem asOf_singleton (c : ι) (v : α) (s : ι) :
    asOf [(c, v)] s = if c ≤ s then some v else none := by
  by_cases h : c ≤ s <;> simp [asOf, h]

theorem asOf_snoc (log : List (ι × α)) (c : ι) (v : α) (s : ι) :
    asOf (log ++ [(c, v)]) s = if c ≤ s then some v else asOf log s := by
  rw [asOf_append, asOf_singleton]
  split <;> rfl

variable {log : List (ι × α)} {s : ι}

theorem asOf_eq_none : asOf log s = none ↔ ∀ e ∈ log, s < e.1 := by
  simp [asOf, List.find?_eq_none]

theorem asOf_isSome : (asOf log s).isSome ↔ ∃ e ∈ log, e.1 ≤ s := by
  rw [← Option.ne_none_iff_isSome, ne_eq, asOf_eq_none]
  simp

theorem asOf_append_right {l₁ l₂ : List (ι × α)} (h : ∃ e ∈ l₂, e.1 ≤ s) :
    asOf (l₁ ++ l₂) s = asOf l₂ s := by
  obtain ⟨v, hv⟩ := Option.isSome_iff_exists.mp (asOf_isSome.mpr h)
  rw [asOf_append, hv]
  rfl

theorem asOf_append_left {l₁ l₂ : List (ι × α)} (h : ∀ e ∈ l₂, s < e.1) :
    asOf (l₁ ++ l₂) s = asOf l₁ s := by
  rw [asOf_append, asOf_eq_none.mpr h]
  rfl

theorem asOf_drop_eq {k : Nat} :
    asOf (log.drop k) s = asOf log s ↔
      ((asOf log s).isSome → (asOf (log.drop k) s).isSome) := by
  constructor
  · intro h
    rw [h]
    exact id
  · intro h
    cases hlog : asOf log s with
    | none =>
      rw [asOf_eq_none] at hlog ⊢
      exact fun e he => hlog e (List.mem_of_mem_drop he)
    | some v =>
      have hsome := asOf_isSome.mp (h (by rw [hlog]; rfl))
      rw [← hlog]
      conv_rhs => rw [← List.take_append_drop k log]
      exact (asOf_append_right hsome).symm

theorem le_iff_lt_countP {l : List ι} (hs : l.Pairwise (· < ·)) {j : Nat} {n : ι}
    (hj : l[j]? = some n) (w : ι) : n ≤ w ↔ j < l.countP (· ≤ w) := by
  induction l generalizing j with
  | nil => cases hj
  | cons a l ih =>
    obtain ⟨hfirst, hs⟩ := List.pairwise_cons.mp hs
    by_cases ha : a ≤ w
    · rw [List.countP_cons_of_pos (by simpa using ha)]
      cases j with
      | zero =>
        cases hj
        simp [ha]
      | succ j => simpa using ih hs hj
    · -- everything behind `a` is later still
      have hnone : (a :: l).countP (· ≤ w) = 0 := by
        rw [List.countP_eq_zero]
        intro b hb
        rcases List.mem_cons.mp hb with rfl | hb
        · simpa using ha
        · simpa using lt_trans (not_le.mp ha) (hfirst b hb)
      have hn : ¬ n ≤ w := by
        have hmem := List.countP_eq_zero.mp hnone n (List.mem_of_getElem? hj)
        simpa using hmem
      simp [hnone, hn]

theorem asOf_drop_isSome (hs : (log.map Prod.fst).Pairwise (· < ·)) {k : Nat} :
    (asOf (log.drop k) s).isSome ↔ k < (log.map Prod.fst).countP (· ≤ s) := by
  rw [asOf_isSome]
  constructor
  · rintro ⟨e, he, hle⟩
    obtain ⟨j, hj⟩ := List.getElem?_of_mem he
    rw [List.getElem?_drop] at hj
    have := (le_iff_lt_countP hs (by rw [List.getElem?_map, hj]; rfl) s).mp hle
    omega
  · intro hk
    have hlen : k < log.length := by
      have := List.countP_le_length (p := fun i => decide (i ≤ s)) (l := log.map Prod.fst)
      rw [List.length_map] at this
      omega
    refine ⟨log[k], List.mem_of_getElem? (i := 0) ?_, ?_⟩
    · rw [List.getElem?_drop, Nat.add_zero, List.getElem?_eq_getElem hlen]
    · exact (le_iff_lt_countP hs (by rw [List.getElem?_map, List.getElem?_eq_getElem hlen]; rfl) s).mpr hk

theorem asOf_all (h : ∀ e ∈ log, e.1 ≤ s) : asOf log s = log.getLast?.map Prod.snd := by
  rcases List.eq_nil_or_concat log with rfl | ⟨init, e, rfl⟩
  · rfl
  · rw [List.concat_eq_append, asOf_snoc, if_pos (h e (by simp)), List.getLast?_concat]
    rfl

theorem asOf_eq_some (hs : log.Pairwise fun a b => a.1 < b.1) {v : α} :
    asOf log s = some v ↔ ∃ c, (c, v) ∈ log ∧ c ≤ s ∧ ∀ e ∈ log, e.1 ≤ s → e.1 ≤ c := by
  induction log using List.reverseRecOn with
  | nil => simp
  | append_singleton log last ih =>
    obtain ⟨c, w⟩ := last
    obtain ⟨hlog, -, hacross⟩ := List.pairwise_append.mp hs
    have hlt : ∀ e ∈ log, e.1 < c := fun e he => hacross e he (c, w) (by simp)
    rw [asOf_snoc]
    split_ifs with hc
    · -- The last entry is visible, and no other is as late.
      constructor
      · rintro ⟨⟩
        refine ⟨c, by simp, hc, fun e he _ => ?_⟩
        rcases List.mem_append.mp he with he | he
        · exact le_of_lt (hlt e he)
        · rw [List.mem_singleton.mp he]
      · rintro ⟨c', hmem, -, hmax⟩
        have hle := hmax (c, w) (by simp) hc
        rcases List.mem_append.mp hmem with hmem | hmem
        · exact absurd (lt_of_lt_of_le (hlt _ hmem) hle) (lt_irrefl _)
        · simp only [List.mem_singleton, Prod.mk.injEq] at hmem
          rw [hmem.2]
    · rw [ih hlog]
      refine exists_congr fun c' => ?_
      simp only [List.mem_append, List.mem_singleton, Prod.mk.injEq]
      constructor
      · rintro ⟨hmem, hle, hmax⟩
        refine ⟨Or.inl hmem, hle, fun e he hes => ?_⟩
        rcases he with he | rfl
        · exact hmax e he hes
        · exact absurd hes hc
      · rintro ⟨hmem | ⟨rfl, -⟩, hle, hmax⟩
        · exact ⟨hmem, hle, fun e he => hmax e (Or.inl he)⟩
        · exact absurd hle hc

end FrankenFs.Lib
