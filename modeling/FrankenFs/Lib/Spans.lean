import FrankenFs.Lib.OrdMap
import Mathlib.Data.Set.Card
import Mathlib.Order.Interval.Set.Nat

/-!
# Sets of numbers as maps of ranges

A map from starts to ends holds a set where its ranges are not empty, do not touch, and cover the
set.
-/

namespace FrankenFs.Lib

/-! ## Neighbours in a map -/

namespace OrdMap

variable {κ α : Type} [LinearOrder κ]

/-- The last entry whose key is not above `k`: `range(..=k).next_back()`. -/
def lastUpTo (m : OrdMap κ α) (k : κ) : Option (κ × α) :=
  (m.entries.filter fun e => e.1 ≤ k).getLast?

/-- The first entry whose key is not below `k`: `range(k..).next()`. -/
def firstFrom (m : OrdMap κ α) (k : κ) : Option (κ × α) := m.entries.find? fun e => k ≤ e.1

theorem lastUpTo_spec (m : OrdMap κ α) (k : κ) :
    (∀ a v, m.lastUpTo k = some (a, v) → m.get? a = some v ∧ a ≤ k ∧
      ∀ a' v', m.get? a' = some v' → a' ≤ k → a' ≤ a) ∧
    (m.lastUpTo k = none → ∀ a v, m.get? a = some v → k < a) := by
  unfold lastUpTo
  have hsorted := m.sorted.filter fun e => decide (e.1 ≤ k)
  constructor
  · intro a v h
    obtain ⟨front, hfront⟩ := List.getLast?_eq_some_iff.mp h
    have hmem : (a, v) ∈ m.entries.filter fun e => e.1 ≤ k := by
      rw [hfront]
      exact List.mem_append_right _ (List.mem_singleton.mpr rfl)
    rw [List.mem_filter, decide_eq_true_iff, mem_entries] at hmem
    refine ⟨hmem.1, hmem.2, fun a' v' hget hle => ?_⟩
    have hmem' : (a', v') ∈ m.entries.filter fun e => e.1 ≤ k :=
      List.mem_filter.mpr ⟨m.mem_entries.mpr hget, decide_eq_true hle⟩
    rw [hfront] at hmem' hsorted
    rcases List.mem_append.mp hmem' with hin | hin
    · exact ((List.pairwise_append.mp hsorted).2.2 _ hin _ (List.mem_singleton.mpr rfl)).le
    · cases List.mem_singleton.mp hin
      exact le_rfl
  · intro h a v hget
    rw [List.getLast?_eq_none_iff, List.filter_eq_nil_iff] at h
    have := h (a, v) (m.mem_entries.mpr hget)
    simpa using this

theorem firstFrom_spec (m : OrdMap κ α) (k : κ) :
    (∀ a v, m.firstFrom k = some (a, v) → m.get? a = some v ∧ k ≤ a ∧
      ∀ a' v', m.get? a' = some v' → k ≤ a' → a ≤ a') ∧
    (m.firstFrom k = none → ∀ a v, m.get? a = some v → a < k) := by
  unfold firstFrom
  constructor
  · intro a v h
    obtain ⟨hk, front, back, hsplit, hbefore⟩ := List.find?_eq_some_iff_append.mp h
    have hmem : (a, v) ∈ m.entries := by
      rw [hsplit]
      exact List.mem_append_right _ List.mem_cons_self
    refine ⟨m.mem_entries.mp hmem, by simpa using hk, fun a' v' hget hle => ?_⟩
    have hmem' := m.mem_entries.mpr hget
    have hsorted := m.sorted
    rw [hsplit] at hmem' hsorted
    rcases List.mem_append.mp hmem' with hin | hin
    · exact absurd hle (by simpa using hbefore _ hin)
    · rcases List.mem_cons.mp hin with heq | hin
      · cases heq
        exact le_rfl
      · exact ((List.pairwise_cons.mp (List.pairwise_append.mp hsorted).2.1).1 _ hin).le
  · intro h a v hget
    rw [List.find?_eq_none] at h
    have := h (a, v) (m.mem_entries.mpr hget)
    simpa using this

theorem length_entries (m : OrdMap κ α) : m.entries.length = m.total fun _ => 1 := by
  unfold total
  induction m.entries with
  | nil => rfl
  | cons e rest ih =>
    rw [List.length_cons, weighEntries, ih, Nat.add_comm]

theorem length_insert {m : OrdMap κ α} {k : κ} (v : α) (h : m.get? k = none) :
    (m.insert k v).entries.length = m.entries.length + 1 := by
  have htotal := m.total_alter (fun _ => 1) k fun _ => some v
  rw [h] at htotal
  rw [length_entries, length_entries]
  exact htotal

theorem length_erase {m : OrdMap κ α} {k : κ} {v : α} (h : m.get? k = some v) :
    (m.erase k).entries.length + 1 = m.entries.length := by
  have htotal := m.total_alter (fun _ => 1) k fun _ => none
  rw [h] at htotal
  rw [length_entries, length_entries]
  exact htotal

end OrdMap

/-! ## Ranges of a set -/

/-- A range of the set that no range of the set is longer than. -/
structure IsMaximalRange (T : Set Nat) (a b : Nat) : Prop where
  lt : a < b
  subset : ∀ p, a ≤ p → p < b → p ∈ T
  stop : b ∉ T
  start : ∀ p, p + 1 = a → p ∉ T

noncomputable def rangeCount (T : Set Nat) : Nat :=
  {r : Nat × Nat | IsMaximalRange T r.1 r.2}.ncard

structure Spans (m : OrdMap Nat Nat) (T : Set Nat) : Prop where
  lt : ∀ {a b}, m.get? a = some b → a < b
  apart : ∀ {a b a' b'}, m.get? a = some b → m.get? a' = some b' → a < a' → b < a'
  mem_iff : ∀ {p}, p ∈ T ↔ ∃ a b, m.get? a = some b ∧ a ≤ p ∧ p < b

namespace Spans

variable {m : OrdMap Nat Nat} {T : Set Nat} (h : Spans m T) {a b a' b' p start stop : Nat}

include h

theorem eq_of_touch (hab : m.get? a = some b) (hab' : m.get? a' = some b') (hle : a ≤ b')
    (hle' : a' ≤ b) : a = a' ∧ b = b' := by
  rcases Nat.lt_trichotomy a a' with hlt | rfl | hlt
  · exact absurd (h.apart hab hab' hlt) (by omega)
  · exact ⟨rfl, Option.some.inj (hab.symm.trans hab')⟩
  · exact absurd (h.apart hab' hab hlt) (by omega)

theorem stop_not_mem (hab : m.get? a = some b) : b ∉ T := by
  intro hb
  obtain ⟨a', b', hab', hle, hlt⟩ := h.mem_iff.mp hb
  have := h.lt hab
  have := h.eq_of_touch hab hab' (by omega) hle
  omega

theorem isMaximalRange_iff : IsMaximalRange T a b ↔ m.get? a = some b := by
  constructor
  · intro hmax
    obtain ⟨a', b', hab', hle, hlt⟩ := h.mem_iff.mp (hmax.subset a le_rfl hmax.lt)
    have hstart : a' = a := by
      by_contra hne
      exact hmax.start (a - 1) (by omega) (h.mem_iff.mpr ⟨a', b', hab', by omega, by omega⟩)
    subst hstart
    have hstop : b' = b := by
      rcases Nat.lt_trichotomy b' b with hb | hb | hb
      · exact absurd (hmax.subset b' (by omega) hb) (h.stop_not_mem hab')
      · exact hb
      · have := hmax.lt
        exact absurd (h.mem_iff.mpr ⟨a', b', hab', by omega, hb⟩) hmax.stop
    rwa [hstop] at hab'
  · intro hab
    refine ⟨h.lt hab, fun p hp hp' => h.mem_iff.mpr ⟨a, b, hab, hp, hp'⟩, h.stop_not_mem hab,
      fun p hp hmem => ?_⟩
    obtain ⟨a', b', hab', hle, hlt⟩ := h.mem_iff.mp hmem
    have := h.lt hab
    have := h.eq_of_touch hab hab' (by omega) (by omega)
    omega

theorem unique {m' : OrdMap Nat Nat} (h' : Spans m' T) : m = m' := by
  have hmem : ∀ e, e ∈ m.entries ↔ e ∈ m'.entries := fun e => by
    rw [m.mem_entries, m'.mem_entries, ← h.isMaximalRange_iff, h'.isMaximalRange_iff]
  obtain ⟨l, hl⟩ := m
  obtain ⟨l', hl'⟩ := m'
  obtain rfl := OrdMap.sorted_ext hl hl' hmem
  rfl

theorem rangeCount_eq : rangeCount T = m.entries.length := by
  have hset : {r : Nat × Nat | IsMaximalRange T r.1 r.2} = ↑m.entries.toFinset := by
    ext ⟨a, b⟩
    simp [h.isMaximalRange_iff, m.mem_entries]
  have hnodup : m.entries.Nodup := by
    refine m.sorted.imp fun hlt heq => ?_
    rw [heq] at hlt
    exact absurd hlt (lt_irrefl _)
  rw [rangeCount, hset, Set.ncard_coe_finset, List.toFinset_card_of_nodup hnodup]

theorem lastUpTo_eq (hab : m.get? a = some b) (hle : a ≤ p) (hle' : p ≤ b) :
    m.lastUpTo p = some (a, b) := by
  obtain ⟨hsome, hnone⟩ := m.lastUpTo_spec p
  cases hlast : m.lastUpTo p with
  | none => exact absurd (hnone hlast a b hab) (by omega)
  | some r =>
    obtain ⟨hget, hr, hmax⟩ := hsome r.1 r.2 hlast
    have := hmax a b hab hle
    have := h.lt hget
    obtain ⟨h1, h2⟩ := h.eq_of_touch hab hget (by omega) (by omega)
    rw [h1, h2]

theorem stop_le (hab : m.get? a = some b) (hlt : start < b)
    (hin : Set.Ico start stop ⊆ T) : stop ≤ b := by
  by_contra hcon
  exact h.stop_not_mem hab (hin ⟨by omega, by omega⟩)

/-! ## One range more or less -/

theorem remove {m' : OrdMap Nat Nat} (hab : m.get? a = some b) (hstart : a ≤ start)
    (hlt : start < stop) (hstop : stop ≤ b)
    (hget : ∀ x y, m'.get? x = some y ↔ (x ≠ a ∧ m.get? x = some y) ∨
      (x = a ∧ y = start ∧ a < start) ∨ (x = stop ∧ y = b ∧ stop < b)) :
    Spans m' (T \ Set.Ico start stop) where
  lt := by
    intro x y hxy
    rcases (hget x y).mp hxy with ⟨-, hold⟩ | ⟨rfl, rfl, hlow⟩ | ⟨rfl, rfl, hhigh⟩
    · exact h.lt hold
    · exact hlow
    · exact hhigh
  apart := by
    intro x y x' y' hxy hxy' hx
    -- an old range beside `[a, b)` does not touch what is left of it
    have hold : ∀ {u v}, u ≠ a → m.get? u = some v → v < a ∨ b < u := by
      intro u v hne hu
      rcases Nat.lt_or_gt_of_ne hne with hlt' | hlt'
      · exact .inl (h.apart hu hab hlt')
      · exact .inr (h.apart hab hu hlt')
    rcases (hget x y).mp hxy with ⟨hne, hx1⟩ | hx1 | hx1
    · rcases (hget x' y').mp hxy' with ⟨-, hx2⟩ | hx2 | hx2
      · exact h.apart hx1 hx2 hx
      · have := hold hne hx1
        omega
      · have := hold hne hx1
        omega
    · rcases (hget x' y').mp hxy' with ⟨hne', hx2⟩ | hx2 | hx2
      · have := hold hne' hx2
        have := h.lt hx2
        omega
      · omega
      · omega
    · rcases (hget x' y').mp hxy' with ⟨hne', hx2⟩ | hx2 | hx2
      · have := hold hne' hx2
        have := h.lt hx2
        omega
      · omega
      · omega
  mem_iff := by
    intro p
    rw [Set.mem_sdiff, Set.mem_Ico, h.mem_iff]
    constructor
    · rintro ⟨⟨x, y, hxy, hxp, hpy⟩, hout⟩
      by_cases hx : x = a
      · subst hx
        obtain rfl : b = y := Option.some.inj (hab.symm.trans hxy)
        by_cases hp : p < start
        · exact ⟨x, start, (hget _ _).mpr (.inr (.inl ⟨rfl, rfl, by omega⟩)), hxp, hp⟩
        · exact ⟨stop, b, (hget _ _).mpr (.inr (.inr ⟨rfl, rfl, by omega⟩)), by omega, hpy⟩
      · exact ⟨x, y, (hget _ _).mpr (.inl ⟨hx, hxy⟩), hxp, hpy⟩
    · rintro ⟨x, y, hxy, hxp, hpy⟩
      rcases (hget x y).mp hxy with ⟨hne, hold⟩ | ⟨rfl, rfl, -⟩ | ⟨rfl, rfl, -⟩
      · refine ⟨⟨x, y, hold, hxp, hpy⟩, fun hin => hne ?_⟩
        exact (h.eq_of_touch hold hab (by omega) (by omega)).1
      · exact ⟨⟨x, b, hab, hxp, by omega⟩, by omega⟩
      · exact ⟨⟨a, y, hab, by omega, hpy⟩, by omega⟩

theorem add {m' : OrdMap Nat Nat} {A B : Nat} (hlt : start < stop)
    (hfree : ∀ p, start ≤ p → p < stop → p ∉ T)
    (hleft : m.get? A = some start ∨ A = start ∧ ∀ x, m.get? x ≠ some start)
    (hright : m.get? stop = some B ∨ B = stop ∧ m.get? stop = none)
    (hget : ∀ x y, m'.get? x = some y ↔ (x = A ∧ y = B) ∨
      (x ≠ A ∧ x ≠ stop ∧ m.get? x = some y)) :
    Spans m' (T ∪ Set.Ico start stop) := by
  have hA : A ≤ start := by
    rcases hleft with hA | hA
    · exact (h.lt hA).le
    · exact hA.1.le
  have hB : stop ≤ B := by
    rcases hright with hB | hB
    · exact (h.lt hB).le
    · exact hB.1.ge
  -- an old range is behind the new one, or before it, and does not touch it
  have hold : ∀ {u v}, u ≠ A → u ≠ stop → m.get? u = some v → v < A ∨ B < u := by
    intro u v hu hu' huv
    have hpos := h.lt huv
    have hside : v ≤ start ∨ stop ≤ u := by
      by_contra hcon
      push Not at hcon
      exact hfree (max u start) (by omega) (by omega) (h.mem_iff.mpr ⟨u, v, huv, by omega, by omega⟩)
    rcases hside with hv | hv
    · left
      rcases hleft with hA' | ⟨rfl, hnone⟩
      · rcases Nat.lt_or_gt_of_ne hu with hlt' | hlt'
        · exact h.apart huv hA' hlt'
        · have := h.apart hA' huv hlt'
          omega
      · exact lt_of_le_of_ne hv fun heq => hnone u (heq ▸ huv)
    · right
      rcases hright with hB' | ⟨rfl, -⟩
      · exact h.apart hB' huv (by omega)
      · omega
  refine ⟨?_, ?_, ?_⟩
  · intro x y hxy
    rcases (hget x y).mp hxy with ⟨rfl, rfl⟩ | ⟨-, -, hxy⟩
    · omega
    · exact h.lt hxy
  · intro x y x' y' hxy hxy' hx
    rcases (hget x y).mp hxy with ⟨rfl, rfl⟩ | ⟨hne, hne', hxy⟩
    · rcases (hget x' y').mp hxy' with ⟨rfl, rfl⟩ | ⟨hne, hne', hxy'⟩
      · omega
      · have := hold hne hne' hxy'
        have := h.lt hxy'
        omega
    · rcases (hget x' y').mp hxy' with ⟨rfl, rfl⟩ | ⟨-, -, hxy'⟩
      · have := hold hne hne' hxy
        omega
      · exact h.apart hxy hxy' hx
  · intro p
    rw [Set.mem_union, Set.mem_Ico, h.mem_iff]
    constructor
    · rintro (⟨x, y, hxy, hxp, hpy⟩ | hp)
      · by_cases hx : x = A ∨ x = stop
        · refine ⟨A, B, (hget _ _).mpr (.inl ⟨rfl, rfl⟩), ?_⟩
          rcases hx with rfl | rfl
          · rcases hleft with hA' | ⟨rfl, -⟩
            · obtain rfl := Option.some.inj (hxy.symm.trans hA')
              omega
            · exact absurd (h.mem_iff.mpr ⟨x, y, hxy, le_rfl, h.lt hxy⟩) (hfree x le_rfl hlt)
          · rcases hright with hB' | ⟨-, hnone⟩
            · obtain rfl := Option.some.inj (hxy.symm.trans hB')
              omega
            · cases hnone.symm.trans hxy
        · push Not at hx
          exact ⟨x, y, (hget _ _).mpr (.inr ⟨hx.1, hx.2, hxy⟩), hxp, hpy⟩
      · exact ⟨A, B, (hget _ _).mpr (.inl ⟨rfl, rfl⟩), by omega, by omega⟩
    · rintro ⟨x, y, hxy, hxp, hpy⟩
      rcases (hget x y).mp hxy with ⟨rfl, rfl⟩ | ⟨-, -, hxy⟩
      · by_cases hp : start ≤ p ∧ p < stop
        · exact .inr hp
        · left
          by_cases hlow : p < start
          · exact ⟨x, start, hleft.resolve_right (by omega), hxp, hlow⟩
          · exact ⟨stop, y, hright.resolve_right (by omega), by omega, hpy⟩
      · exact .inl ⟨x, y, hxy, hxp, hpy⟩

end Spans

end FrankenFs.Lib
