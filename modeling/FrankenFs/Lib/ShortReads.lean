import Mathlib.Data.List.Basic
import Mathlib.Tactic.SplitIfs

/-!
# Reads that come in pieces

A `read` call may be interrupted or fill less than it was asked for. `readExact` and `inChunks` cannot
be told from one read of the whole.
-/

namespace FrankenFs.Lib

variable {α ε β : Type}

inductive ReadEvent where
  | interrupted
  /-- At least one byte, and at most `n + 1`. -/
  | upTo (n : Nat)
deriving DecidableEq, Repr

/-- The data ahead, and how the calls to come will go. Those after the plan fill what they
can. -/
structure Source (α : Type) where
  data : List α
  plan : List ReadEvent

def readPlan (eof : ε) : List ReadEvent → Nat → List α → Except ε (List α × Source α)
  | [], want, data =>
    if want ≤ data.length then .ok (data.take want, ⟨data.drop want, []⟩) else .error eof
  | .interrupted :: plan, want, data =>
    if want = 0 then .ok ([], ⟨data, .interrupted :: plan⟩) else readPlan eof plan want data
  | .upTo n :: plan, want, data =>
    if want = 0 then .ok ([], ⟨data, .upTo n :: plan⟩)
    else
      let count := min (n + 1) (min want data.length)
      if count = 0 then .error eof
      else
        (readPlan eof plan (want - count) (data.drop count)).map fun r =>
          (data.take count ++ r.1, r.2)

def Source.readExact (eof : ε) (s : Source α) (want : Nat) : Except ε (List α × Source α) :=
  readPlan eof s.plan want s.data

theorem readPlan_ok (eof : ε) (plan : List ReadEvent) {want : Nat} {data : List α}
    (h : want ≤ data.length) :
    ∃ rest, readPlan eof plan want data = .ok (data.take want, ⟨data.drop want, rest⟩) := by
  induction plan generalizing want data with
  | nil => exact ⟨[], if_pos h⟩
  | cons event plan ih =>
    by_cases h0 : want = 0
    · subst h0
      cases event <;> exact ⟨_, if_pos rfl⟩
    · cases event with
      | interrupted =>
        rw [readPlan, if_neg h0]
        exact ih h
      | upTo n =>
        have hpos : min (n + 1) (min want data.length) ≠ 0 := by omega
        generalize hc : min (n + 1) (min want data.length) = count at hpos
        obtain ⟨rest, hrest⟩ := @ih (want - count) (data.drop count) (by
          rw [List.length_drop]
          omega)
        have hsum : count + (want - count) = want := by omega
        refine ⟨rest, ?_⟩
        rw [readPlan, if_neg h0]
        simp only [hc, if_neg hpos, hrest, Except.map, List.drop_drop, ← List.take_add, hsum]

theorem Source.readExact_ok (eof : ε) (s : Source α) {want : Nat} (h : want ≤ s.data.length) :
    ∃ plan, s.readExact eof want = .ok (s.data.take want, ⟨s.data.drop want, plan⟩) :=
  readPlan_ok eof s.plan h

/-- A buffer of `len` elements filled in pieces of `size`. The fuel bounds the pieces. -/
def inChunks (size : Nat) (read : Nat → β → Except ε (List α × β)) :
    (fuel len : Nat) → β → Except ε (List α × β)
  | 0, _, b => .ok ([], b)
  | fuel + 1, len, b =>
    if len = 0 then .ok ([], b)
    else
      match read (min len size) b with
      | .error e => .error e
      | .ok r =>
        (inChunks size read fuel (len - min len size) r.2).map fun rest => (r.1 ++ rest.1, rest.2)

/-- **Chunks add up to one read.** `P b ahead` says that `ahead` comes next at `b`. -/
theorem inChunks_ok {size : Nat} (hsize : 0 < size) {read : Nat → β → Except ε (List α × β)}
    {P : β → List α → Prop}
    (hread : ∀ b ahead n, P b ahead → n ≤ ahead.length →
      ∃ b', read n b = .ok (ahead.take n, b') ∧ P b' (ahead.drop n))
    {fuel len : Nat} (hfuel : len ≤ fuel) {b : β} {ahead : List α} (h : P b ahead)
    (hlen : len ≤ ahead.length) :
    ∃ b', inChunks size read fuel len b = .ok (ahead.take len, b') ∧ P b' (ahead.drop len) := by
  induction fuel generalizing len b ahead with
  | zero =>
    obtain rfl : len = 0 := by omega
    exact ⟨b, rfl, h⟩
  | succ fuel ih =>
    rw [inChunks]
    split_ifs with h0
    · subst h0
      exact ⟨b, rfl, h⟩
    · generalize hc : min len size = count
      obtain ⟨b₁, hb₁, hP₁⟩ := hread b ahead count h (by omega)
      obtain ⟨b₂, hb₂, hP₂⟩ := @ih (len - count) (by omega) b₁ (ahead.drop count) hP₁ (by
        rw [List.length_drop]
        omega)
      have hsum : count + (len - count) = len := by omega
      refine ⟨b₂, ?_, ?_⟩
      · simp only [hb₁, hb₂, Except.map, ← List.take_add, hsum]
      · rwa [List.drop_drop, hsum] at hP₂

end FrankenFs.Lib
