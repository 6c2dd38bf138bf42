import Mathlib.Logic.Function.Basic
import Mathlib.Logic.Relation

/-!
# Threads over shared memory

A step of a thread reads and writes the shared state at once. A schedule names the thread that is to
move next, and a thread that cannot move is passed over.
-/

namespace FrankenFs.Lib

universe u v w

structure Threads (ι : Type u) (σ : Type v) (l : Type w) where
  shared : σ
  pc : ι → l

namespace Threads

variable {ι : Type u} {σ : Type v} {l : Type w} [DecidableEq ι]

def next (step : ι → σ → l → Option (σ × l)) (x : Threads ι σ l) (i : ι) : Threads ι σ l :=
  match step i x.shared (x.pc i) with
  | none => x
  | some (shared, pc) => ⟨shared, Function.update x.pc i pc⟩

def exec (step : ι → σ → l → Option (σ × l)) (x : Threads ι σ l) (schedule : List ι) :
    Threads ι σ l :=
  schedule.foldl (next step) x

variable {step : ι → σ → l → Option (σ × l)} {x : Threads ι σ l}

/-- The shared state has its invariant and every thread its assertion. -/
structure Holds (I : σ → Prop) (A : σ → ι → l → Prop) (x : Threads ι σ l) : Prop where
  shared : I x.shared
  pc : ∀ i, A x.shared i (x.pc i)

/-- A step keeps the invariant, gives its thread a new assertion, and leaves the assertions of
the others true. -/
structure Keeps (I : σ → Prop) (A : σ → ι → l → Prop) (i : ι) (s' : σ) (pc' : l) (s : σ) :
    Prop where
  shared : I s'
  pc : A s' i pc'
  others : ∀ j, j ≠ i → ∀ pc, A s j pc → A s' j pc

variable {I : σ → Prop} {A : σ → ι → l → Prop}

theorem Holds.next (h : x.Holds I A) (i : ι)
    (hstep : ∀ s' pc', step i x.shared (x.pc i) = some (s', pc') →
      Keeps I A i s' pc' x.shared) : (x.next step i).Holds I A := by
  unfold Threads.next
  split
  · exact h
  · rename_i s' pc' hmove
    have hkeeps := hstep s' pc' hmove
    refine ⟨hkeeps.shared, fun j => ?_⟩
    dsimp only
    by_cases hj : j = i
    · subst hj
      rw [Function.update_self]
      exact hkeeps.pc
    · rw [Function.update_of_ne hj]
      exact hkeeps.others j hj _ (h.pc j)

theorem Holds.exec (h : x.Holds I A)
    (hstep : ∀ i s pc s' pc', I s → A s i pc → step i s pc = some (s', pc') →
      Keeps I A i s' pc' s) (schedule : List ι) : (x.exec step schedule).Holds I A := by
  induction schedule generalizing x with
  | nil => exact h
  | cons i rest ih => exact ih (h.next i fun s' pc' => hstep i _ _ s' pc' h.shared (h.pc i))

/-- Where each step is matched by steps of an abstract machine, so is a whole schedule. -/
theorem Holds.simulates {α : Type*} {R : σ → α → Prop} {T : α → α → Prop} {a : α} (h : x.Holds I A)
    (hstep : ∀ i s pc s' pc', I s → A s i pc → step i s pc = some (s', pc') →
      Keeps I A i s' pc' s ∧ ∀ a, R s a → ∃ a', Relation.ReflTransGen T a a' ∧ R s' a')
    (hR : R x.shared a) (schedule : List ι) :
    ∃ a', Relation.ReflTransGen T a a' ∧ R (x.exec step schedule).shared a' := by
  induction schedule generalizing x a with
  | nil => exact ⟨a, .refl, hR⟩
  | cons i rest ih =>
    have hmoved : ∃ b, Relation.ReflTransGen T a b ∧ R (x.next step i).shared b := by
      unfold Threads.next
      split
      · exact ⟨a, .refl, hR⟩
      · rename_i s' pc' hmove
        exact (hstep i _ _ s' pc' h.shared (h.pc i) hmove).2 a hR
    obtain ⟨b, hab, hb⟩ := hmoved
    have hnext := h.next i fun s' pc' hmove => (hstep i _ _ s' pc' h.shared (h.pc i) hmove).1
    obtain ⟨c, hbc, hc⟩ := ih hnext hb
    exact ⟨c, hab.trans hbc, hc⟩

end Threads

/-! ## Locks in order -/

/-- Threads that wait only for locks above those they hold are not all blocked: one of them waits for
a free lock, or holds a lock and does not wait. -/
theorem exists_not_blocked {ι : Type u} {owner : Nat → Option ι} {waits : ι → Option Nat} {n : Nat}
    (hbound : ∀ i k, waits i = some k → k < n)
    (habove : ∀ i k k', waits i = some k → owner k' = some i → k' < k) {i : ι} {k : Nat}
    (h : waits i = some k) :
    ∃ j, (∃ k, waits j = some k ∧ owner k = none) ∨ waits j = none ∧ ∃ k, owner k = some j := by
  -- the lock that is waited for only grows along the chain of owners
  induction hm : n - k using Nat.strongRecOn generalizing i k with
  | ind m ih =>
    cases howner : owner k with
    | none => exact ⟨i, Or.inl ⟨k, h, howner⟩⟩
    | some j =>
      cases hj : waits j with
      | none => exact ⟨j, Or.inr ⟨hj, k, howner⟩⟩
      | some k' =>
        have hlt := habove j k' k hj howner
        have hk := hbound i k h
        exact ih (n - k') (by omega) hj rfl

end FrankenFs.Lib
