import Mathlib.Tactic.Common

/-!
# Outcomes of programs with a state and errors

`Ensures m s Q E` says that the run of `m` from `s` ends in a result and a state that meet `Q`, or in
an error and a state that meet `E`.
-/

namespace FrankenFs.Lib

variable {ε σ α β : Type}

theorem bind_run {m : EStateM ε σ α} {f : α → EStateM ε σ β} {s s' : σ} {a : α}
    (h : m s = .ok a s') : (m >>= f) s = f a s' := by
  show EStateM.bind m f s = f a s'
  unfold EStateM.bind
  rw [h]

theorem bind_run_error {m : EStateM ε σ α} {f : α → EStateM ε σ β} {s s' : σ} {e : ε}
    (h : m s = .error e s') : (m >>= f) s = .error e s' := by
  show EStateM.bind m f s = .error e s'
  unfold EStateM.bind
  rw [h]

def Ensures (m : EStateM ε σ α) (s : σ) (Q : α → σ → Prop) (E : ε → σ → Prop) : Prop :=
  match m s with
  | .ok a s' => Q a s'
  | .error e s' => E e s'

section Rules

variable {m : EStateM ε σ α} {s s' : σ} {Q Q' : α → σ → Prop} {E E' : ε → σ → Prop}

theorem Ensures.ok (h : Ensures m s Q E) {a : α} (hm : m s = .ok a s') : Q a s' := by
  unfold Ensures at h
  rwa [hm] at h

theorem Ensures.error (h : Ensures m s Q E) {e : ε} (hm : m s = .error e s') : E e s' := by
  unfold Ensures at h
  rwa [hm] at h

theorem Ensures.mono (h : Ensures m s Q E) (hQ : ∀ a s', Q a s' → Q' a s')
    (hE : ∀ e s', E e s' → E' e s') : Ensures m s Q' E' := by
  unfold Ensures at h ⊢
  cases hm : m s with
  | ok a s' =>
    rw [hm] at h
    exact hQ a s' h
  | error e s' =>
    rw [hm] at h
    exact hE e s' h

theorem ensures_bind {f : α → EStateM ε σ β} {R : β → σ → Prop} :
    Ensures (m >>= f) s R E ↔ Ensures m s (fun a s' => Ensures (f a) s' R E) E := by
  unfold Ensures
  show (match EStateM.bind m f s with | .ok a s' => R a s' | .error e s' => E e s') ↔ _
  unfold EStateM.bind
  cases m s with
  | ok a s' => rfl
  | error e s' => rfl

theorem Ensures.bind {f : α → EStateM ε σ β} {R : β → σ → Prop} (hm : Ensures m s Q E)
    (hf : ∀ a s', Q a s' → Ensures (f a) s' R E) : Ensures (m >>= f) s R E :=
  ensures_bind.mpr (hm.mono hf fun _ _ h => h)

theorem ensures_get_bind {f : σ → EStateM ε σ β} {R : β → σ → Prop} :
    Ensures (get >>= f) s R E ↔ Ensures (f s) s R E := Iff.rfl

theorem ensures_ite {c : Prop} [Decidable c] {m' : EStateM ε σ α} (hpos : c → Ensures m s Q E)
    (hneg : ¬ c → Ensures m' s Q E) : Ensures (if c then m else m') s Q E := by
  by_cases hc : c
  · rw [if_pos hc]
    exact hpos hc
  · rw [if_neg hc]
    exact hneg hc

theorem ensures_ofExcept {x : Except ε α} (hok : ∀ a, x = .ok a → Q a s)
    (herror : ∀ e, x = .error e → E e s) : Ensures (MonadExcept.ofExcept x) s Q E := by
  cases x with
  | ok a => exact hok a rfl
  | error e => exact herror e rfl

end Rules

end FrankenFs.Lib
