import FrankenFs.Mvcc.History
import Mathlib.Data.List.Perm.Basic

/-!
# Readers of a snapshot that was aged out

Chain pressure takes references from the oldest sequence by force, and the release that the reader
still owes is recorded. The runs here keep the readers next to the counts.
-/

open FrankenFs.Lib

namespace FrankenFs.Mvcc

/-- A reader that has not released yet. It is aged when its sequence was forced after it had
registered. -/
structure Reader where
  high : Nat
  aged : Bool
deriving DecidableEq, Repr

inductive ReaderOp where
  | register (high : Nat)
  /-- The reader at this position releases, once: it leaves the list. -/
  | release (i : Nat)
  | forceAdvance
deriving DecidableEq, Repr

def Reader.age (oldest : Nat) (r : Reader) : Reader :=
  if r.high = oldest then { r with aged := true } else r

theorem Reader.age_high (oldest : Nat) (r : Reader) : (r.age oldest).high = r.high := by
  unfold Reader.age
  split_ifs <;> rfl

theorem getD_dropRef (count : Option Nat) : (MvccStore.dropRef count).getD 0 = count.getD 0 - 1 := by
  cases count with
  | none => rfl
  | some c =>
    unfold MvccStore.dropRef
    rw [Option.bind_some]
    split_ifs with h
    · simp [h]
    · rfl

theorem dropRef_pos {count : Option Nat} {n : Nat} (h : MvccStore.dropRef count = some n) :
    0 < n := by
  unfold MvccStore.dropRef at h
  obtain ⟨c, -, h⟩ := Option.bind_eq_some_iff.mp h
  split_ifs at h
  cases h
  omega

theorem forceRef_eq (count : Option Nat) :
    (count.bind fun r => if r > 1 then some (r - 1) else none) = MvccStore.dropRef count := by
  unfold MvccStore.dropRef
  congr 1
  funext r
  split_ifs <;> first | rfl | omega

theorem countP_eraseIdx {l : List Reader} {i : Nat} {r : Reader} (h : l[i]? = some r)
    (p : Reader → Bool) : l.countP p = (l.eraseIdx i).countP p + if p r then 1 else 0 := by
  obtain ⟨hi, rfl⟩ := List.getElem?_eq_some_iff.mp h
  rw [← (List.getElem_cons_eraseIdx_perm hi).countP_eq p, List.countP_cons]

section Runs

variable [Platform]

structure Readers where
  store : MvccStore
  held : List Reader

namespace Readers

def step (x : Readers) : ReaderOp → Readers
  | .register high => ⟨x.store.registerSnapshot ⟨high⟩, ⟨high, false⟩ :: x.held⟩
  | .release i =>
    match x.held[i]? with
    | none => x
    | some r => ⟨(x.store.releaseSnapshot ⟨r.high⟩).1, x.held.eraseIdx i⟩
  | .forceAdvance =>
    match x.store.watermark, x.store.forceAdvanceOldestSnapshot with
    | some oldest, some store => ⟨store, x.held.map (Reader.age oldest)⟩
    | _, _ => x

def run (x : Readers) (ops : List ReaderOp) : Readers := ops.foldl step x

def unreleased (x : Readers) (s : Nat) : Nat := x.held.countP fun r => r.high == s

def late (x : Readers) (s : Nat) : Nat := x.held.countP fun r => r.high == s && !r.aged

def refs (x : Readers) (s : Nat) : Nat := (x.store.activeSnapshots.get? s).getD 0

def forced (x : Readers) (s : Nat) : Nat := (x.store.forceAdvancedReleases.get? s).getD 0

/-- No count is kept at zero, and each release that is owed is in one of the two. -/
structure Counted (x : Readers) : Prop where
  refs_pos : ∀ s n, x.store.activeSnapshots.get? s = some n → 0 < n
  forced_pos : ∀ s n, x.store.forceAdvancedReleases.get? s = some n → 0 < n
  balance : ∀ s, x.refs s + x.forced s = x.unreleased s

/-! ## What one call does to the counts -/

theorem refs_register (x : Readers) (high s : Nat) :
    (x.step (.register high)).refs s =
      if high = s then u64SaturatingAdd (x.refs s) 1 else x.refs s := by
  simp only [refs, step, MvccStore.registerSnapshot, OrdMap.get?_alter, @eq_comm _ high]
  split_ifs <;> first | rfl | (subst s; rfl)

theorem unreleased_register (x : Readers) (high s : Nat) :
    (x.step (.register high)).unreleased s = x.unreleased s + if high = s then 1 else 0 := by
  simp only [unreleased, step, List.countP_cons, beq_iff_eq]

theorem late_register (x : Readers) (high s : Nat) :
    (x.step (.register high)).late s = x.late s + if high = s then 1 else 0 := by
  simp only [late, step, List.countP_cons, Bool.and_eq_true, beq_iff_eq, Bool.not_false, and_true]

theorem forced_register (x : Readers) (high s : Nat) :
    (x.step (.register high)).forced s = x.forced s := rfl

section Release

variable {x : Readers} {i : Nat} {r : Reader}

theorem unreleased_release (hr : x.held[i]? = some r) (s : Nat) :
    x.unreleased s = (x.step (.release i)).unreleased s + if r.high = s then 1 else 0 := by
  unfold unreleased
  rw [countP_eraseIdx hr]
  simp only [step, hr, beq_iff_eq]

theorem late_release (hr : x.held[i]? = some r) (s : Nat) :
    x.late s = (x.step (.release i)).late s + if r.high = s ∧ r.aged = false then 1 else 0 := by
  unfold late
  rw [countP_eraseIdx hr]
  simp only [step, hr, Bool.and_eq_true, beq_iff_eq, Bool.not_eq_true']

theorem unreleased_pos (hr : x.held[i]? = some r) : 0 < x.unreleased r.high := by
  rw [unreleased_release hr, if_pos rfl]
  omega

theorem release_live (hr : x.held[i]? = some r) (h : 0 < x.refs r.high) (s : Nat) :
    (x.step (.release i)).refs s = (x.refs s - if r.high = s then 1 else 0) ∧
      (x.step (.release i)).forced s = x.forced s := by
  have hsome : (x.store.activeSnapshots.get? r.high).isSome := by
    unfold refs at h
    cases hg : x.store.activeSnapshots.get? r.high with
    | none => rw [hg] at h; cases h
    | some n => rfl
  simp only [refs, forced, step, hr, MvccStore.releaseSnapshot, hsome, if_true, OrdMap.get?_alter]
  refine ⟨?_, trivial⟩
  simp only [@eq_comm _ r.high]
  split_ifs with hs
  · rw [getD_dropRef, hs]
  · rfl

theorem release_forced (hc : x.Counted) (hr : x.held[i]? = some r) (h : x.refs r.high = 0)
    (s : Nat) :
    (x.step (.release i)).refs s = x.refs s ∧
      (x.step (.release i)).forced s = (x.forced s - if r.high = s then 1 else 0) := by
  have hnone : x.store.activeSnapshots.get? r.high = none := by
    unfold refs at h
    cases hg : x.store.activeSnapshots.get? r.high with
    | none => rfl
    | some n =>
      have := hc.refs_pos _ _ hg
      rw [hg] at h
      simp only [Option.getD_some] at h
      omega
  have hsome : (x.store.forceAdvancedReleases.get? r.high).isSome := by
    have hbal := hc.balance r.high
    have hpos := unreleased_pos hr
    cases hg : x.store.forceAdvancedReleases.get? r.high with
    | none =>
      rw [h, forced, hg] at hbal
      simp only [Option.getD_none] at hbal
      omega
    | some n => rfl
  simp only [refs, forced, step, hr, MvccStore.releaseSnapshot, hnone, hsome, Option.isSome_none,
    Bool.false_eq_true, if_false, if_true, OrdMap.get?_alter]
  refine ⟨trivial, ?_⟩
  simp only [@eq_comm _ r.high]
  split_ifs with hs
  · rw [getD_dropRef, hs]
  · rfl

end Release

section Force

variable {x : Readers} {oldest : Nat}

theorem step_force (h : x.store.watermark = some oldest) :
    ∃ store, x.step .forceAdvance = ⟨store, x.held.map (Reader.age oldest)⟩ ∧
      store.activeSnapshots = x.store.activeSnapshots.alter oldest MvccStore.dropRef ∧
      store.forceAdvancedReleases =
        x.store.forceAdvancedReleases.alter oldest fun n => some (n.getD 0 + 1) := by
  have hfun : (fun refs : Option Nat => refs.bind fun r => if r > 1 then some (r - 1) else none) =
      MvccStore.dropRef := funext forceRef_eq
  simp only [step, MvccStore.forceAdvanceOldestSnapshot, h, Option.map_some, hfun]
  exact ⟨_, rfl, rfl, rfl⟩

theorem step_force_none (h : x.store.watermark = none) : x.step .forceAdvance = x := by
  simp only [step, h]

theorem unreleased_force (s : Nat) : (x.step .forceAdvance).unreleased s = x.unreleased s := by
  cases h : x.store.watermark with
  | none => rw [step_force_none h]
  | some oldest =>
    obtain ⟨store, heq, -, -⟩ := step_force h
    rw [heq]
    simp only [unreleased, List.countP_map, Function.comp_def, Reader.age_high]

theorem late_force (h : x.store.watermark = some oldest) (s : Nat) :
    (x.step .forceAdvance).late s = if oldest = s then 0 else x.late s := by
  obtain ⟨store, heq, -, -⟩ := step_force h
  rw [heq]
  simp only [late, List.countP_map, Function.comp_def, Reader.age_high]
  split_ifs with hs
  · rw [List.countP_eq_zero]
    intro r _
    unfold Reader.age
    split_ifs with hr
    · simp
    · simp [← hs, hr]
  · apply List.countP_congr
    intro r _
    unfold Reader.age
    split_ifs with hr
    · have : r.high ≠ s := fun h0 => hs (hr.symm.trans h0)
      simp [this]
    · rfl

theorem refs_force (h : x.store.watermark = some oldest) (s : Nat) :
    (x.step .forceAdvance).refs s = (x.refs s - if oldest = s then 1 else 0) ∧
      (x.step .forceAdvance).forced s = x.forced s + if oldest = s then 1 else 0 := by
  obtain ⟨store, heq, hactive, hforced⟩ := step_force h
  rw [heq]
  simp only [refs, forced, hactive, hforced, OrdMap.get?_alter, @eq_comm _ oldest]
  split_ifs with hs
  · subst hs
    exact ⟨getD_dropRef _, rfl⟩
  · exact ⟨rfl, rfl⟩

end Force

/-! ## Runs -/

/-- The counter of a sequence is not at its end when somebody registers there. -/
def Room (x : Readers) : ReaderOp → Prop
  | .register high => x.unreleased high < u64Max
  | _ => True

/-- An aged reader does not release while all the live references are those of late ones. -/
def Apart (x : Readers) : ReaderOp → Prop
  | .release i =>
    ∀ r ∈ x.held[i]?, r.aged = true → x.late r.high < x.refs r.high ∨ x.late r.high = 0
  | _ => True

def Obeys (P : Readers → ReaderOp → Prop) (x : Readers) : List ReaderOp → Prop
  | [] => True
  | op :: ops => P x op ∧ (x.step op).Obeys P ops

theorem Counted.positive {x : Readers} (h : x.Counted) (op : ReaderOp) :
    (∀ s n, (x.step op).store.activeSnapshots.get? s = some n → 0 < n) ∧
      ∀ s n, (x.step op).store.forceAdvancedReleases.get? s = some n → 0 < n := by
  have halter : ∀ (m : OrdMap Nat Nat) (k : Nat) (f : Option Nat → Option Nat),
      (∀ s n, m.get? s = some n → 0 < n) → (∀ n, f (m.get? k) = some n → 0 < n) →
      ∀ s n, (m.alter k f).get? s = some n → 0 < n := by
    intro m k f hm hf s n hn
    rw [OrdMap.get?_alter] at hn
    split_ifs at hn
    · exact hf n hn
    · exact hm s n hn
  cases op with
  | register high =>
    refine ⟨halter _ _ _ h.refs_pos fun n hn => ?_, h.forced_pos⟩
    cases hn
    unfold u64SaturatingAdd u64Max
    omega
  | release i =>
    simp only [step]
    split
    · exact ⟨h.refs_pos, h.forced_pos⟩
    · unfold MvccStore.releaseSnapshot
      split_ifs
      · exact ⟨halter _ _ _ h.refs_pos fun _ => dropRef_pos, h.forced_pos⟩
      · exact ⟨h.refs_pos, halter _ _ _ h.forced_pos fun _ => dropRef_pos⟩
      · exact ⟨h.refs_pos, h.forced_pos⟩
  | forceAdvance =>
    cases hw : x.store.watermark with
    | none =>
      rw [step_force_none hw]
      exact ⟨h.refs_pos, h.forced_pos⟩
    | some oldest =>
      obtain ⟨store, heq, hactive, hforced⟩ := step_force hw
      rw [heq]
      simp only [hactive, hforced]
      refine ⟨halter _ _ _ h.refs_pos fun _ => dropRef_pos, halter _ _ _ h.forced_pos fun n hn => ?_⟩
      cases hn
      omega

theorem watermark_refs_pos {x : Readers} (h : x.Counted) {oldest : Nat}
    (hw : x.store.watermark = some oldest) : 0 < x.refs oldest := by
  have hsome := x.store.activeSnapshots.get?_of_minKey? hw
  obtain ⟨n, hn⟩ := Option.isSome_iff_exists.mp hsome
  rw [refs, hn]
  exact h.refs_pos _ _ hn

theorem Counted.step {x : Readers} (h : x.Counted) {op : ReaderOp} (hroom : x.Room op) :
    (x.step op).Counted := by
  obtain ⟨hrefs, hforced⟩ := h.positive op
  refine ⟨hrefs, hforced, fun s => ?_⟩
  have hbal := h.balance s
  cases op with
  | register high =>
    rw [refs_register, forced_register, unreleased_register]
    split_ifs with hs
    · subst hs
      have hlt : x.unreleased high < u64Max := hroom
      unfold u64SaturatingAdd
      omega
    · omega
  | release i =>
    cases hr : x.held[i]? with
    | none => simpa only [Readers.step, hr] using hbal
    | some r =>
      have hcount := unreleased_release hr s
      by_cases hlive : 0 < x.refs r.high
      · obtain ⟨hr1, hf1⟩ := release_live hr hlive s
        rw [hr1, hf1]
        split_ifs at hcount ⊢ with hs
        · subst hs
          omega
        · omega
      · have hpos := unreleased_pos hr
        have hbal' := h.balance r.high
        obtain ⟨hr1, hf1⟩ := release_forced h hr (by omega) s
        rw [hr1, hf1]
        split_ifs at hcount ⊢ with hs
        · subst hs
          omega
        · omega
  | forceAdvance =>
    rw [unreleased_force]
    cases hw : x.store.watermark with
    | none => rw [step_force_none hw]; exact hbal
    | some oldest =>
      have hpos := watermark_refs_pos h hw
      obtain ⟨hr1, hf1⟩ := refs_force hw s
      rw [hr1, hf1]
      split_ifs with hs
      · subst hs
        omega
      · omega

theorem late_le_step {x : Readers} (h : x.Counted) (hlate : ∀ s, x.late s ≤ x.refs s)
    {op : ReaderOp} (hroom : x.Room op) (hapart : x.Apart op) (s : Nat) :
    (x.step op).late s ≤ (x.step op).refs s := by
  have hs0 := hlate s
  cases op with
  | register high =>
    rw [refs_register, late_register]
    split_ifs with hs
    · subst hs
      have hlt : x.unreleased high < u64Max := hroom
      have hbal := h.balance high
      unfold u64SaturatingAdd
      omega
    · omega
  | release i =>
    cases hr : x.held[i]? with
    | none => simpa only [Readers.step, hr] using hs0
    | some r =>
      have hcount := late_release hr s
      by_cases hlive : 0 < x.refs r.high
      · rw [(release_live hr hlive s).1]
        by_cases hs : r.high = s
        · subst hs
          rw [if_pos rfl]
          -- A late reader takes its own reference, an aged one a spare one.
          cases haged : r.aged with
          | false =>
            rw [if_pos ⟨rfl, haged⟩] at hcount
            omega
          | true =>
            rcases hapart r hr haged with hspare | hnone <;> omega
        · rw [if_neg hs]
          omega
      · rw [(release_forced h hr (by omega) s).1]
        omega
  | forceAdvance =>
    cases hw : x.store.watermark with
    | none => rw [step_force_none hw]; exact hs0
    | some oldest =>
      rw [late_force hw, (refs_force hw s).1]
      split_ifs <;> omega

theorem Counted.run {x : Readers} (h : x.Counted) {ops : List ReaderOp}
    (hroom : x.Obeys Room ops) : (x.run ops).Counted := by
  induction ops generalizing x with
  | nil => exact h
  | cons op ops ih => exact ih (h.step hroom.1) hroom.2

theorem late_le_run {x : Readers} (h : x.Counted) (hlate : ∀ s, x.late s ≤ x.refs s)
    {ops : List ReaderOp} (hroom : x.Obeys Room ops) (hapart : x.Obeys Apart ops) (s : Nat) :
    (x.run ops).late s ≤ (x.run ops).refs s := by
  induction ops generalizing x with
  | nil => exact hlate s
  | cons op ops ih =>
    exact ih (h.step hroom.1) (late_le_step h hlate hroom.1 hapart.1) hroom.2 hapart.2

theorem Counted.unreleased_of_refused {x : Readers} (h : x.Counted) {s : Nat}
    (hfalse : (x.store.releaseSnapshot ⟨s⟩).2 = false) : x.unreleased s = 0 := by
  unfold MvccStore.releaseSnapshot at hfalse
  split_ifs at hfalse with hactive hforced
  rw [← h.balance s, refs, forced, Option.not_isSome_iff_eq_none.mp hactive,
    Option.not_isSome_iff_eq_none.mp hforced]
  rfl

/-- **The counts of a run of readers.** Each registration is in one of the two counts until
it is released, and a release that is owed is never refused. Late readers keep their
sequence registered as long as no aged reader releases on one of their references. -/
theorem run_readers (store : MvccStore) (hactive : store.activeSnapshots = ∅)
    (hforced : store.forceAdvancedReleases = ∅) (ops : List ReaderOp)
    (hroom : Obeys Room ⟨store, []⟩ ops) (s : Nat) :
    (run ⟨store, []⟩ ops).refs s + (run ⟨store, []⟩ ops).forced s =
        (run ⟨store, []⟩ ops).unreleased s ∧
      (((run ⟨store, []⟩ ops).store.releaseSnapshot ⟨s⟩).2 = false →
        (run ⟨store, []⟩ ops).unreleased s = 0) ∧
      (Obeys Apart ⟨store, []⟩ ops → 0 < (run ⟨store, []⟩ ops).late s →
        ((run ⟨store, []⟩ ops).store.activeSnapshots.get? s).isSome) := by
  have hstart : Counted ⟨store, []⟩ := by
    refine ⟨fun s n hn => ?_, fun s n hn => ?_, fun s => ?_⟩
    · simp [hactive] at hn
    · simp [hforced] at hn
    · simp [refs, forced, unreleased, hactive, hforced]
  have hcounted := hstart.run hroom
  refine ⟨hcounted.balance s, hcounted.unreleased_of_refused, fun hapart hlate => ?_⟩
  have hle := late_le_run hstart (fun _ => Nat.zero_le _) hroom hapart s
  rw [Option.isSome_iff_ne_none]
  intro hnone
  rw [refs, hnone, Option.getD_none] at hle
  omega

end Readers

end Runs

/-! ## An aged reader that releases late -/

section Samples

local instance ageingPlatform : Platform := exactPlatform

def idleReaders : Readers :=
  ⟨MvccStore.new ⟨false, some 1, .none⟩ .strict exactConfig, []⟩

def agedReleasesSpare : List ReaderOp :=
  [.register 5, .register 5, .forceAdvance, .register 5, .release 2]

def agedReleasesLast : List ReaderOp :=
  [.register 5, .forceAdvance, .register 5, .release 1]

theorem run_readers_agedReleasesSpare :
    (idleReaders.run agedReleasesSpare).refs 5 + (idleReaders.run agedReleasesSpare).forced 5 =
        (idleReaders.run agedReleasesSpare).unreleased 5 ∧
      ((idleReaders.run agedReleasesSpare).store.activeSnapshots.get? 5).isSome := by
  have h := Readers.run_readers idleReaders.store rfl rfl agedReleasesSpare
    ⟨show _ < u64Max by decide, show _ < u64Max by decide, trivial, show _ < u64Max by decide,
      trivial, trivial⟩ 5
  refine ⟨h.1, h.2.2 ⟨trivial, trivial, trivial, trivial, ?_, trivial⟩ (by decide)⟩
  rintro r ⟨⟩ -
  exact Or.inl (by decide)

/-- The late reader is still there, and its sequence is not. -/
theorem agedReleasesLast_strips_late :
    (idleReaders.run agedReleasesLast).late 5 = 1 ∧
      (idleReaders.run agedReleasesLast).store.activeSnapshots.get? 5 = none := by
  decide

end Samples

end FrankenFs.Mvcc
