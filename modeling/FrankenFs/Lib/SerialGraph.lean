import Mathlib.Logic.Relation
import Mathlib.Data.Nat.Basic
import Mathlib.Order.WellFounded

/-!
# The direct serialization graph of snapshot transactions

A transaction reads at its snapshot and writes at its commit sequence. A cycle of the graph needs two
antidependencies in a row, the second of them to the first committer.
-/

namespace FrankenFs.Lib

structure SnapshotTxn (β : Type) where
  snapshot : Nat
  commit : Nat
  reads : List β
  writes : List β
deriving DecidableEq

namespace SnapshotTxn

variable {β : Type} (history : List (SnapshotTxn β))

/-- ww: `b` writes the version right after the one of `a`. -/
def Overwrites (a b : SnapshotTxn β) (x : β) : Prop :=
  x ∈ a.writes ∧ x ∈ b.writes ∧ a.commit < b.commit ∧
    ∀ c ∈ history, x ∈ c.writes → c.commit < b.commit → c.commit ≤ a.commit

/-- wr: `b` reads the version of `a`. -/
def ReadsFrom (a b : SnapshotTxn β) (x : β) : Prop :=
  x ∈ a.writes ∧ x ∈ b.reads ∧ a.commit ≤ b.snapshot ∧
    ∀ c ∈ history, x ∈ c.writes → c.commit ≤ b.snapshot → c.commit ≤ a.commit

/-- rw: `b` writes the version right after the one that `a` reads. -/
def AntiDepends (a b : SnapshotTxn β) (x : β) : Prop :=
  x ∈ a.reads ∧ x ∈ b.writes ∧ a.snapshot < b.commit ∧
    ∀ c ∈ history, x ∈ c.writes → a.snapshot < c.commit → b.commit ≤ c.commit

instance [DecidableEq β] (a b : SnapshotTxn β) (x : β) : Decidable (ReadsFrom history a b x) :=
  inferInstanceAs (Decidable (_ ∧ _ ∧ _ ∧ _))

instance [DecidableEq β] (a b : SnapshotTxn β) (x : β) : Decidable (AntiDepends history a b x) :=
  inferInstanceAs (Decidable (_ ∧ _ ∧ _ ∧ _))

def Edge (a b : SnapshotTxn β) : Prop :=
  a ∈ history ∧ b ∈ history ∧ a ≠ b ∧
    ∃ x, Overwrites history a b x ∨ ReadsFrom history a b x ∨ AntiDepends history a b x

def Acyclic : Prop := ∀ t, ¬ Relation.TransGen (Edge history) t t

/-- `a` read something that `b` overwrote after the snapshot of `a`. -/
def Precedes (a b : SnapshotTxn β) : Prop :=
  a.snapshot < b.commit ∧ ∃ x, x ∈ a.reads ∧ x ∈ b.writes

instance [DecidableEq β] (a b : SnapshotTxn β) : Decidable (Precedes a b) :=
  inferInstanceAs (Decidable (_ ∧ _))

variable {history}

theorem exists_first_of_cycle {t : SnapshotTxn β} (h : Relation.TransGen (Edge history) t t) :
    ∃ z w u v, Edge history z w ∧ Edge history w u ∧ Edge history u v ∧
      v.commit ≤ u.commit ∧ v.commit ≤ w.commit ∧ v.commit ≤ z.commit := by
  let onCycle : Set (SnapshotTxn β) := {v | Relation.TransGen (Edge history) v t ∧
    Relation.TransGen (Edge history) t v}
  have hpred : ∀ v ∈ onCycle, ∃ u ∈ onCycle, Edge history u v := by
    rintro v ⟨hvt, htv⟩
    obtain ⟨u, htu, huv⟩ := Relation.TransGen.tail'_iff.mp htv
    exact ⟨u, ⟨(Relation.TransGen.single huv).trans hvt, h.trans_left htu⟩, huv⟩
  obtain ⟨v, hv, hmin⟩ := (measure SnapshotTxn.commit).wf.has_min onCycle ⟨t, h, h⟩
  obtain ⟨u, hu, huv⟩ := hpred v hv
  obtain ⟨w, hw, hwu⟩ := hpred u hu
  obtain ⟨z, hz, hzw⟩ := hpred w hw
  exact ⟨z, w, u, v, hzw, hwu, huv, Nat.le_of_not_lt (hmin u hu), Nat.le_of_not_lt (hmin w hw),
    Nat.le_of_not_lt (hmin z hz)⟩

/-- **Two antidependencies in a row.** Under first-committer-wins the graph is acyclic if no
`w`, `u`, `v` precede each other with `v` the first of them to commit. Where `w` writes
nothing, only a `v` that `w` sees counts. -/
theorem acyclic_of_no_pivot
    (hspan : ∀ t ∈ history, t.snapshot < t.commit)
    (hinj : ∀ a ∈ history, ∀ b ∈ history, a.commit = b.commit → a = b)
    (hfcw : ∀ a ∈ history, ∀ b ∈ history, a.commit < b.commit →
      ∀ x ∈ a.writes, x ∈ b.writes → a.commit ≤ b.snapshot)
    (hpivot : ∀ w ∈ history, ∀ u ∈ history, ∀ v ∈ history, w ≠ u → v.commit < u.commit →
      v.commit ≤ w.commit → (w.writes = [] → v.commit ≤ w.snapshot) →
        Precedes w u → ¬ Precedes u v) :
    Acyclic history := by
  intro t ht
  obtain ⟨z, w, u, v, ⟨-, -, -, a, hzw⟩, ⟨hw, -, hne, x, hwu⟩, ⟨hu, hv, hne', y, huv⟩, hvu, hvw,
    hvz⟩ := exists_first_of_cycle ht
  have hlt : v.commit < u.commit :=
    lt_of_le_of_ne hvu fun h => hne' (hinj u hu v hv h.symm)
  have huv' : Precedes u v := by
    rcases huv with h | h | ⟨hr, hwr, hs, -⟩
    · exact absurd h.2.2.1 (Nat.not_lt.mpr hvu)
    · have := hspan v hv
      exact absurd h.2.2.1 (by omega)
    · exact ⟨hs, y, hr, hwr⟩
  have hsnap := huv'.1
  -- A version that `u` sees or replaces is older than `v`, the first committer.
  have hwu' : Precedes w u := by
    rcases hwu with h | h | ⟨hr, hwr, hs, -⟩
    · have := hfcw w hw u hu h.2.2.1 x h.1 h.2.1
      omega
    · exact absurd h.2.2.1 (by omega)
    · exact ⟨hs, x, hr, hwr⟩
  -- A transaction without writes is only reached by what it reads.
  have hro : w.writes = [] → v.commit ≤ w.snapshot := by
    intro hnil
    rcases hzw with h | h | h
    · exact absurd h.2.1 (by simp [hnil])
    · exact hvz.trans h.2.2.1
    · exact absurd h.2.1 (by simp [hnil])
  exact hpivot w hw u hu v hv hne hlt hvw hro hwu' huv'

end SnapshotTxn

end FrankenFs.Lib
