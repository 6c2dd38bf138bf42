import FrankenFs.Lib.Threads
import FrankenFs.Mvcc.Sharded

/-!
# Ordered publication: concurrent calls of `publish`

Each load, store and exchange of `publish` is a step of its own, and so are taking the lock, sleeping
on the condition variable and waking its sleepers. A sequence is published by one call, the thread of
that number. `publish_refines` leads back to the gate of the sharded store.
-/

open FrankenFs.Lib

namespace FrankenFs.Mvcc

def publicationSpinRounds : Nat := 64

def PublicationMode.spinRounds : PublicationMode → Nat
  | .waitFree => publicationSpinRounds
  | .mutex | .waitFreeNoSpin => 0

inductive DrainRound where
  | announced
  /-- With the rounds that are left after this one. -/
  | spin (left : Nat)
deriving DecidableEq, Repr

inductive DrainCaller where
  | claim
  | after (round : DrainRound)
deriving DecidableEq, Repr

inductive PublishPc where
  | idle
  | entry
  -- `publish_mutex`
  | lock
  | recheck
  | insert
  | advanceLoad (advanced : Bool)
  | advanceRemove (next : Nat) (advanced : Bool)
  | advanceStore (next : Nat)
  | notifyAdvanced (advanced : Bool)
  | checkMutex
  | wait
  | waiting
  | unlock
  -- `publish_wait_free`
  | claim
  | store
  | drainLoad (caller : DrainCaller) (advanced : Bool)
  | drainSlot (caller : DrainCaller) (advanced : Bool) (current : Nat)
  | drainSwap (caller : DrainCaller) (advanced : Bool) (current : Nat)
  | notifyLoad (round : DrainRound)
  | notifyLock (round : DrainRound)
  | notifyAll (round : DrainRound)
  | notifyUnlock (round : DrainRound)
  | check (round : DrainRound)
  | parkLock
  | parkAdd
  | parkCheck
  | parkWait
  | parking
  | parkSub
  | parkUnlock
  | done
deriving DecidableEq, Repr

structure PublicationState where
  gate : CommitPublicationGate
  waiters : Nat
  parked : Nat
  waitLock : Option Nat
  sleeping : List Nat
  drawn : Nat
  /-- The sequences stored in the ready set or in the ring so far, a record for the proofs. -/
  announced : List Nat

namespace PublicationState

def new (mode : PublicationMode) : PublicationState := ⟨.withMode mode, 0, 0, none, [], 0, []⟩

def completed (s : PublicationState) : Nat := s.gate.completedCommit

def setCompleted (s : PublicationState) (c : Nat) : PublicationState :=
  { s with gate := { s.gate with completedCommit := c } }

def acquire (s : PublicationState) (seq : Nat) (pc : PublishPc) :
    Option (PublicationState × PublishPc) :=
  if s.waitLock = none then some ({ s with waitLock := some seq }, pc) else none

/-- `Condvar::wait` up to the sleep. -/
def sleep (s : PublicationState) (seq : Nat) : PublicationState :=
  { s with waitLock := none, sleeping := seq :: s.sleeping }

/-- `Condvar::wait` from the wakeup on. -/
def reacquire (s : PublicationState) (seq : Nat) (pc : PublishPc) :
    Option (PublicationState × PublishPc) :=
  if seq ∈ s.sleeping then none else s.acquire seq pc

end PublicationState

def PublishPc.spin : Nat → PublishPc
  | 0 => .parkLock
  | left + 1 => .drainLoad (.after (.spin left)) false

def DrainCaller.resume (caller : DrainCaller) (advanced : Bool) : PublishPc :=
  match caller with
  | .claim => .claim
  | .after round => if advanced then .notifyLoad round else .check round

/-- What follows a check that `completed` is still below the sequence. -/
def DrainRound.wait (mode : PublicationMode) : DrainRound → PublishPc
  | .announced => .spin mode.spinRounds
  | .spin left => .spin left

/-- One atomic step of `publish(seq)`. `none` while it is blocked, and when it has returned. -/
def publishStep (seq : Nat) (s : PublicationState) : PublishPc → Option (PublicationState × PublishPc)
  | .idle =>
    if s.drawn + 1 = seq ∧ seq ≤ u64Max then some ({ s with drawn := seq }, .entry) else none
  | .entry =>
    some (s, if s.completed ≥ seq then .done
      else match s.gate.mode with
        | .mutex => .lock
        | .waitFree | .waitFreeNoSpin => .claim)
  | .lock => s.acquire seq .recheck
  | .recheck => some (s, if s.completed ≥ seq then .unlock else .insert)
  | .insert =>
    some ({ s with
      gate := { s.gate with readyCommits := s.gate.readyCommits.insert seq () }
      announced := seq :: s.announced }, .advanceLoad false)
  | .advanceLoad advanced => some (s, .advanceRemove (u64SaturatingAdd s.completed 1) advanced)
  | .advanceRemove next advanced =>
    if (s.gate.readyCommits.get? next).isSome then
      some ({ s with gate := { s.gate with readyCommits := s.gate.readyCommits.erase next } },
        .advanceStore next)
    else some (s, .notifyAdvanced advanced)
  | .advanceStore next => some (s.setCompleted next, .advanceLoad true)
  | .notifyAdvanced advanced =>
    some (if advanced ∧ s.waiters > 0 then { s with sleeping := [] } else s, .checkMutex)
  | .checkMutex => some (s, if s.completed ≥ seq then .unlock else .wait)
  | .wait => some ({ s with waiters := usizeSaturatingAdd s.waiters 1 }.sleep seq, .waiting)
  | .waiting =>
    { s with waiters := s.waiters - 1 }.reacquire seq (.advanceLoad false)
  | .unlock => some ({ s with waitLock := none }, .done)
  | .claim =>
    some (s, if seq - s.completed ≥ publicationRingSlots then .drainLoad .claim false else .store)
  | .store =>
    some ({ s with
      gate := { s.gate with
        ring := Function.update s.gate.ring (seq &&& publicationRingMask) seq }
      announced := seq :: s.announced }, .drainLoad (.after .announced) false)
  | .drainLoad caller advanced => some (s, .drainSlot caller advanced s.completed)
  | .drainSlot caller advanced current =>
    let next := (current + 1) % 2 ^ 64
    some (s, if s.gate.ring (next &&& publicationRingMask) ≠ next then caller.resume advanced
      else .drainSwap caller advanced current)
  | .drainSwap caller advanced current =>
    if s.completed = current then
      some (s.setCompleted ((current + 1) % 2 ^ 64), .drainLoad caller true)
    else some (s, .drainLoad caller advanced)
  | .notifyLoad round => some (s, if s.parked > 0 then .notifyLock round else .check round)
  | .notifyLock round => s.acquire seq (.notifyAll round)
  | .notifyAll round => some ({ s with sleeping := [] }, .notifyUnlock round)
  | .notifyUnlock round => some ({ s with waitLock := none }, .check round)
  | .check round => some (s, if s.completed ≥ seq then .done else round.wait s.gate.mode)
  | .parkLock => s.acquire seq .parkAdd
  | .parkAdd => some ({ s with parked := (s.parked + 1) % 2 ^ 64 }, .parkCheck)
  | .parkCheck => some (s, if s.completed < seq then .parkWait else .parkSub)
  | .parkWait => some (s.sleep seq, .parking)
  | .parking => s.reacquire seq .parkCheck
  | .parkSub => some ({ s with parked := (s.parked + (2 ^ 64 - 1)) % 2 ^ 64 }, .parkUnlock)
  | .parkUnlock => some ({ s with waitLock := none }, .done)
  | .done => none

def publicationStart (mode : PublicationMode) : Threads Nat PublicationState PublishPc :=
  ⟨.new mode, fun _ => .idle⟩

def publications (mode : PublicationMode) (schedule : List Nat) :
    Threads Nat PublicationState PublishPc :=
  (publicationStart mode).exec publishStep schedule

/-! ## What a thread knows -/

namespace PublishPc

def unannounced : PublishPc → Bool
  | .idle | .entry | .lock | .recheck | .insert | .claim | .store => true
  | .drainLoad .claim _ | .drainSlot .claim _ _ | .drainSwap .claim _ _ => true
  | _ => false

def locked : PublishPc → Bool
  | .recheck | .insert | .advanceLoad _ | .advanceRemove .. | .advanceStore _ => true
  | .notifyAdvanced _ | .checkMutex | .wait | .unlock => true
  | .notifyAll _ | .notifyUnlock _ | .parkAdd | .parkCheck | .parkWait | .parkSub => true
  | .parkUnlock => true
  | _ => false

/-- Both modes have these. -/
def shared : PublishPc → Bool
  | .idle | .entry | .done => true
  | _ => false

def ofMutex : PublishPc → Bool
  | .lock | .recheck | .insert | .advanceLoad _ | .advanceRemove .. | .advanceStore _ => true
  | .notifyAdvanced _ | .checkMutex | .wait | .waiting | .unlock => true
  | _ => false

def fits (pc : PublishPc) (mode : PublicationMode) : Prop :=
  pc.shared ∨ (pc.ofMutex = true ↔ mode = .mutex)

/-- What the loads of the call have shown, as far as it still holds. -/
def Seen (s : PublicationState) (seq : Nat) : PublishPc → Prop
  | .unlock | .parkSub | .parkUnlock | .done => seq ≤ s.completed
  | .advanceRemove next _ => next = u64SaturatingAdd s.completed 1
  | .advanceStore next =>
    next = s.completed + 1 ∧ next ∈ s.announced ∧ s.gate.readyCommits.get? next = none
  | .store => seq < s.completed + publicationRingSlots
  | .drainSlot _ _ current => current ≤ s.completed
  | .drainSwap _ _ current => current + 1 ∈ s.announced
  | _ => True

end PublishPc

structure PcOk (s : PublicationState) (seq : Nat) (pc : PublishPc) : Prop where
  drawn : pc ≠ .idle → 1 ≤ seq ∧ seq ≤ u64Max
  fresh : pc.unannounced → seq ∉ s.announced
  locked : pc.locked → s.waitLock = some seq
  fits : pc.fits s.gate.mode
  seen : pc.Seen s seq

structure GateOk (s : PublicationState) : Prop where
  reached : ∀ k, 1 ≤ k → k ≤ s.completed → k ∈ s.announced
  words : ∀ k ∈ s.announced, 1 ≤ k ∧ k ≤ u64Max
  ready : s.gate.mode = .mutex → ∀ k, (s.gate.readyCommits.get? k).isSome →
    k ∈ s.announced ∧ s.completed < k
  slot : s.gate.mode ≠ .mutex → ∀ i, s.gate.ring i ≠ 0 →
    s.gate.ring i ∈ s.announced ∧ s.gate.ring i % publicationRingSlots = i
  /-- A slot only ever takes larger sequences, and none is a whole ring ahead. -/
  kept : s.gate.mode ≠ .mutex → ∀ k ∈ s.announced,
    k ≤ s.gate.ring (k % publicationRingSlots) ∧ k < s.completed + publicationRingSlots

theorem and_publicationRingMask (n : Nat) :
    n &&& publicationRingMask = n % publicationRingSlots :=
  Nat.and_two_pow_sub_one_eq_mod n 10

structure PublishEffect (seq : Nat) (s s' : PublicationState) : Prop where
  mode : s'.gate.mode = s.gate.mode
  kept : ∀ k ∈ s.announced, k ∈ s'.announced
  added : ∀ k ∈ s'.announced, k ∈ s.announced ∨ k = seq
  advance : s'.completed = s.completed ∨ s'.completed = s.completed + 1
  overwrite : ∀ i, s'.gate.ring i ≠ s.gate.ring i → s.gate.ring i ≤ s.completed
  lock : ∀ j, j ≠ seq → s.waitLock = some j → s'.waitLock = some j
  /-- In mutex mode what the lock protects changes under the lock only. -/
  held : s.gate.mode = .mutex → s.waitLock = some seq ∨
    s'.completed = s.completed ∧ s'.gate.readyCommits = s.gate.readyCommits

/-- `g` is the gate that the store has in its own steps. A sequence taken out of the ready set is
in it until the watermark is stored. -/
structure Shows (s : PublicationState) (g : CommitPublicationGate) : Prop where
  completed : g.completedCommit = s.completed
  mode : g.mode = s.gate.mode
  ring : g.ring = s.gate.ring
  ready : s.gate.mode = .mutex → ∀ k, (g.readyCommits.get? k).isSome ↔
    k ∈ s.announced ∧ s.completed < k

def GateStep (g g' : CommitPublicationGate) : Prop :=
  (∃ seq, g.announce seq = some g') ∨ g.advance = some g'

variable {seq : Nat} {s s' : PublicationState}

theorem PublishEffect.completed_le (h : PublishEffect seq s s') : s.completed ≤ s'.completed := by
  rcases h.advance with h | h <;> omega

variable {pc : PublishPc}

theorem PublishPc.Seen.other {j : Nat} (h : pc.Seen s j) (heffect : PublishEffect seq s s')
    (hj : j ≠ seq) (hlocked : pc.locked → s.waitLock = some j) (hfits : pc.fits s.gate.mode) :
    pc.Seen s' j := by
  have hle := heffect.completed_le
  have hsame : pc.ofMutex → pc.locked → pc.shared = false →
      s'.completed = s.completed ∧ s'.gate.readyCommits = s.gate.readyCommits := by
    intro hmutex hlock hshared
    have hmode : s.gate.mode = .mutex := by simpa [PublishPc.fits, hmutex, hshared] using hfits
    rcases heffect.held hmode with hheld | hsame
    · -- both would hold the lock
      rw [hlocked hlock] at hheld
      exact absurd (Option.some.inj hheld) hj
    · exact hsame
  cases pc with
  | unlock => exact Nat.le_trans h hle
  | parkSub => exact Nat.le_trans h hle
  | parkUnlock => exact Nat.le_trans h hle
  | done => exact Nat.le_trans h hle
  | store => exact Nat.lt_of_lt_of_le h (Nat.add_le_add_right hle _)
  | drainSlot caller advanced current => exact Nat.le_trans h hle
  | drainSwap caller advanced current => exact heffect.kept _ h
  | advanceRemove next advanced =>
    obtain ⟨hcompleted, -⟩ := hsame rfl rfl rfl
    unfold PublishPc.Seen
    rw [hcompleted]
    exact h
  | advanceStore next =>
    obtain ⟨hcompleted, hready⟩ := hsame rfl rfl rfl
    unfold PublishPc.Seen
    rw [hcompleted, hready]
    exact ⟨h.1, heffect.kept _ h.2.1, h.2.2⟩
  | _ => trivial

theorem PcOk.other {j : Nat} (h : PcOk s j pc) (heffect : PublishEffect seq s s') (hj : j ≠ seq) :
    PcOk s' j pc where
  drawn := h.drawn
  fresh hpc hmem := by
    rcases heffect.added _ hmem with hmem | rfl
    · exact h.fresh hpc hmem
    · exact hj rfl
  locked hpc := heffect.lock j hj (h.locked hpc)
  fits := by
    rw [heffect.mode]
    exact h.fits
  seen := h.seen.other heffect hj h.locked h.fits

/-! ## Steps that leave the gate alone -/

/-- Only the lock and the sleepers may change. -/
structure Quiet (seq : Nat) (s s' : PublicationState) : Prop where
  gate : s'.gate = s.gate
  announced : s'.announced = s.announced
  lock : ∀ j, j ≠ seq → s.waitLock = some j → s'.waitLock = some j

theorem Quiet.refl (seq : Nat) (s : PublicationState) : Quiet seq s s := ⟨rfl, rfl, fun _ _ h => h⟩

theorem Quiet.completed (h : Quiet seq s s') : s'.completed = s.completed := by
  unfold PublicationState.completed
  rw [h.gate]

theorem Quiet.effect (h : Quiet seq s s') :
    PublishEffect seq s s' where
  mode := by rw [h.gate]
  kept := by simp [h.announced]
  added k hk := .inl (h.announced ▸ hk)
  advance := .inl h.completed
  overwrite := by simp [h.gate]
  lock := h.lock
  held _ := .inr ⟨h.completed, by rw [h.gate]⟩

theorem Quiet.gateOk (h : Quiet seq s s') (hs : GateOk s) : GateOk s' := by
  constructor <;> simp only [h.gate, h.announced, h.completed]
  · exact hs.reached
  · exact hs.words
  · exact hs.ready
  · exact hs.slot
  · exact hs.kept

def Matched (s s' : PublicationState) : Prop :=
  ∀ g, Shows s g → ∃ g', (g' = g ∨ GateStep g g') ∧ Shows s' g'

theorem Quiet.matched (h : Quiet seq s s') : Matched s s' := by
  intro g hg
  refine ⟨g, .inl rfl, ?_, ?_, ?_, ?_⟩ <;> simp only [h.gate, h.announced, h.completed]
  · exact hg.completed
  · exact hg.mode
  · exact hg.ring
  · exact hg.ready

structure StepOk (seq : Nat) (s s' : PublicationState) (pc' : PublishPc) : Prop where
  effect : PublishEffect seq s s'
  gate : GateOk s'
  pc : PcOk s' seq pc'
  shows : Matched s s'

/-- The new place asks for no more than the old one did. -/
def PublishPc.leads (pc pc' : PublishPc) : Bool :=
  pc ≠ .idle && (pc.unannounced || !pc'.unannounced) &&
    (pc'.shared || !pc.shared && pc.ofMutex == pc'.ofMutex)

variable {pc' : PublishPc}

theorem PcOk.move (h : PcOk s seq pc) (hquiet : Quiet seq s s') (hleads : pc.leads pc')
    (hlock : pc'.locked → s'.waitLock = some seq) (hseen : pc'.Seen s' seq) : PcOk s' seq pc' := by
  simp only [PublishPc.leads, Bool.and_eq_true, Bool.or_eq_true, Bool.not_eq_true',
    decide_eq_true_eq, beq_iff_eq] at hleads
  obtain ⟨⟨hidle, hfresh⟩, hfits⟩ := hleads
  refine ⟨fun _ => h.drawn hidle, fun hpc => ?_, hlock, ?_, hseen⟩
  · rw [hquiet.announced]
    rcases hfresh with hfresh | hfresh
    · exact h.fresh hfresh
    · rw [hpc] at hfresh
      cases hfresh
  · rw [hquiet.gate]
    rcases hfits with hshared | ⟨hshared, hsame⟩
    · exact .inl hshared
    · rcases h.fits with hpc | hpc
      · rw [hshared] at hpc
        cases hpc
      · exact .inr (hsame ▸ hpc)

theorem StepOk.of_quiet (hs : GateOk s) (h : PcOk s seq pc) (hquiet : Quiet seq s s')
    (hleads : pc.leads pc') (hlock : pc'.locked → s'.waitLock = some seq) (hseen : pc'.Seen s' seq)
    : StepOk seq s s' pc' :=
  ⟨hquiet.effect, hquiet.gateOk hs, h.move hquiet hleads hlock hseen, hquiet.matched⟩

theorem StepOk.of_read (hs : GateOk s) (h : PcOk s seq pc) (hleads : pc.leads pc')
    (hlock : pc'.locked → pc.locked) (hseen : pc'.Seen s seq) : StepOk seq s s pc' :=
  .of_quiet hs h (.refl seq s) hleads (fun hpc => h.locked (hlock hpc)) hseen

theorem StepOk.of_acquire {pcTo : PublishPc} (hs : GateOk s) (h : PcOk s seq pc)
    (hmove : s.acquire seq pcTo = some (s', pc')) (hleads : pc.leads pcTo)
    (hseen : pcTo.Seen s' seq) : StepOk seq s s' pc' := by
  unfold PublicationState.acquire at hmove
  split_ifs at hmove with hfree
  cases hmove
  refine .of_quiet hs h ⟨rfl, rfl, fun j _ hj => ?_⟩ hleads (fun _ => rfl) hseen
  rw [hfree] at hj
  cases hj

theorem Quiet.release (hlock : s.waitLock = some seq) (hgate : s'.gate = s.gate)
    (hannounced : s'.announced = s.announced) : Quiet seq s s' := by
  refine ⟨hgate, hannounced, fun j hj hlocked => ?_⟩
  rw [hlock] at hlocked
  exact absurd (Option.some.inj hlocked).symm hj

/-! ## Steps on the gate -/

theorem PcOk.mode_eq_mutex (h : PcOk s seq pc) (hshared : pc.shared = false)
    (hmutex : pc.ofMutex = true) : s.gate.mode = .mutex := by
  simpa [PublishPc.fits, hshared, hmutex] using h.fits

theorem PcOk.mode_ne_mutex (h : PcOk s seq pc) (hshared : pc.shared = false)
    (hmutex : pc.ofMutex = false) : s.gate.mode ≠ .mutex := by
  simpa [PublishPc.fits, hshared, hmutex] using h.fits

theorem GateOk.completed_lt (hs : GateOk s) (hseq : 1 ≤ seq) (hfresh : seq ∉ s.announced) :
    s.completed < seq := by
  by_contra hle
  exact hfresh (hs.reached seq hseq (Nat.not_lt.mp hle))

theorem matched_insert (hmode : s.gate.mode = .mutex) (hlt : s.completed < seq) :
    Matched s { s with
      gate := { s.gate with readyCommits := s.gate.readyCommits.insert seq () }
      announced := seq :: s.announced } := by
  intro g hg
  refine ⟨{ g with readyCommits := g.readyCommits.insert seq () }, .inr (.inl ⟨seq, ?_⟩),
    hg.completed, hg.mode, hg.ring, fun _ k => ?_⟩
  · have hbelow : ¬g.completedCommit ≥ seq := by
      rw [hg.completed]
      omega
    simp [CommitPublicationGate.announce, hbelow, hg.mode, hmode]
  · change _ ↔ k ∈ seq :: s.announced ∧ s.completed < k
    rw [OrdMap.get?_insert]
    split_ifs with heq
    · simpa [heq] using hlt
    · rw [hg.ready hmode]
      simp [heq]

theorem stepOk_insert (hs : GateOk s) (h : PcOk s seq .insert) :
    StepOk seq s { s with
      gate := { s.gate with readyCommits := s.gate.readyCommits.insert seq () }
      announced := seq :: s.announced } (.advanceLoad false) := by
  have hmode := h.mode_eq_mutex rfl rfl
  have hword := h.drawn (by simp)
  have hlt := hs.completed_lt hword.1 (h.fresh rfl)
  refine ⟨⟨rfl, ?_, ?_, .inl rfl, ?_, fun _ _ hj => hj, fun _ => .inl (h.locked rfl)⟩,
    ⟨?_, ?_, ?_, ?_, ?_⟩, ⟨fun _ => hword, ?_, fun _ => h.locked rfl, ?_, trivial⟩,
    matched_insert hmode hlt⟩
  · simp +contextual
  · simp +contextual [or_comm]
  · simp
  · exact fun k h1 hk => List.mem_cons_of_mem _ (hs.reached k h1 hk)
  · simpa using ⟨hword, hs.words⟩
  · intro _ k hk
    simp only [OrdMap.get?_insert] at hk
    split_ifs at hk with heq
    · subst heq
      exact ⟨List.mem_cons_self, hlt⟩
    · obtain ⟨hmem, hk⟩ := hs.ready hmode k hk
      exact ⟨List.mem_cons_of_mem _ hmem, hk⟩
  · exact fun hne => absurd hmode hne
  · exact fun hne => absurd hmode hne
  · simp [PublishPc.unannounced]
  · simp [PublishPc.fits, PublishPc.ofMutex, hmode]

theorem stepOk_remove {next : Nat} {advanced : Bool} (hs : GateOk s)
    (h : PcOk s seq (.advanceRemove next advanced))
    (hready : (s.gate.readyCommits.get? next).isSome) :
    StepOk seq s { s with
      gate := { s.gate with readyCommits := s.gate.readyCommits.erase next } }
      (.advanceStore next) := by
  have hmode := h.mode_eq_mutex rfl rfl
  obtain ⟨hmem, hlt⟩ := hs.ready hmode next hready
  have hnext : next = s.completed + 1 := by
    have hsat : next = u64SaturatingAdd s.completed 1 := h.seen
    unfold u64SaturatingAdd at hsat
    omega
  refine ⟨⟨rfl, fun _ hk => hk, fun _ hk => .inl hk, .inl rfl, ?_, fun _ _ hj => hj,
      fun _ => .inl (h.locked rfl)⟩, ⟨hs.reached, hs.words, ?_, ?_, ?_⟩,
    ⟨fun _ => h.drawn (by simp), ?_, fun _ => h.locked rfl, ?_, hnext, hmem, ?_⟩,
    fun g hg => ⟨g, .inl rfl, hg.completed, hg.mode, hg.ring, hg.ready⟩⟩
  · simp
  · intro _ k hk
    simp only [OrdMap.get?_erase] at hk
    split_ifs at hk
    · simp at hk
    · exact hs.ready hmode k hk
  · exact fun hne => absurd hmode hne
  · exact fun hne => absurd hmode hne
  · simp [PublishPc.unannounced]
  · simp [PublishPc.fits, PublishPc.ofMutex, hmode]
  · simp [OrdMap.get?_erase]

theorem GateOk.reached_succ (hs : GateOk s) (hmem : s.completed + 1 ∈ s.announced) :
    ∀ k, 1 ≤ k → k ≤ s.completed + 1 → k ∈ s.announced := by
  intro k h1 hk
  rcases Nat.lt_or_eq_of_le hk with hk | rfl
  · exact hs.reached k h1 (Nat.le_of_lt_succ hk)
  · exact hmem

theorem matched_advance (hmode : s.gate.mode = .mutex) (hmem : s.completed + 1 ∈ s.announced)
    (hword : s.completed + 1 ≤ u64Max) : Matched s (s.setCompleted (s.completed + 1)) := by
  intro g hg
  refine ⟨{ g with
      completedCommit := s.completed + 1
      readyCommits := g.readyCommits.erase (s.completed + 1) }, .inr (.inr ?_),
    rfl, hg.mode, hg.ring, fun _ k => ?_⟩
  · have hnext : u64SaturatingAdd s.completed 1 = s.completed + 1 := by
      unfold u64SaturatingAdd
      omega
    have hready : (g.readyCommits.get? (s.completed + 1)).isSome :=
      (hg.ready hmode _).mpr ⟨hmem, Nat.lt_succ_self _⟩
    simp [CommitPublicationGate.advance, hg.mode, hmode, hg.completed, hnext, hready]
  · change _ ↔ k ∈ s.announced ∧ s.completed + 1 < k
    rw [OrdMap.get?_erase]
    split_ifs with heq
    · simp [heq]
    · rw [hg.ready hmode]
      simp only [and_congr_right_iff]
      omega

theorem stepOk_advance {next : Nat} (hs : GateOk s) (h : PcOk s seq (.advanceStore next)) :
    StepOk seq s (s.setCompleted next) (.advanceLoad true) := by
  have hmode := h.mode_eq_mutex rfl rfl
  obtain ⟨rfl, hmem, habsent⟩ := h.seen
  refine ⟨⟨rfl, fun _ hk => hk, fun _ hk => .inl hk, .inr rfl, ?_, fun _ _ hj => hj,
      fun _ => .inl (h.locked rfl)⟩, ⟨hs.reached_succ hmem, hs.words, ?_, ?_, ?_⟩,
    ⟨fun _ => h.drawn (by simp), ?_, fun _ => h.locked rfl, ?_, trivial⟩,
    matched_advance hmode hmem (hs.words _ hmem).2⟩
  · simp [PublicationState.setCompleted]
  · intro _ k hk
    change (s.gate.readyCommits.get? k).isSome at hk
    obtain ⟨hkmem, hlt⟩ := hs.ready hmode k hk
    refine ⟨hkmem, ?_⟩
    change s.completed + 1 < k
    have hne : k ≠ s.completed + 1 := by
      rintro rfl
      rw [habsent] at hk
      cases hk
    omega
  · exact fun hne => absurd hmode hne
  · exact fun hne => absurd hmode hne
  · simp [PublishPc.unannounced]
  · simp [PublishPc.fits, PublishPc.ofMutex, PublicationState.setCompleted, hmode]

theorem GateOk.slot_free (hs : GateOk s) (h : PcOk s seq .store) :
    s.gate.ring (seq % publicationRingSlots) ≤ s.completed ∧
      s.gate.ring (seq % publicationRingSlots) < seq := by
  have hmode := h.mode_ne_mutex rfl rfl
  have hword := h.drawn (by simp)
  have hlt := hs.completed_lt hword.1 (h.fresh rfl)
  have hroom : seq < s.completed + publicationRingSlots := h.seen
  by_cases hzero : s.gate.ring (seq % publicationRingSlots) = 0
  · omega
  · obtain ⟨hmem, hslot⟩ := hs.slot hmode _ hzero
    have hahead := (hs.kept hmode _ hmem).2
    -- an earlier sequence in the slot is a whole ring behind, a later one would be too far ahead
    unfold publicationRingSlots at hslot hroom hahead ⊢
    have hne : s.gate.ring (seq % 1024) ≠ seq := by
      intro heq
      unfold publicationRingSlots at hmem
      rw [heq] at hmem
      exact h.fresh rfl hmem
    omega

theorem matched_store (hmode : s.gate.mode ≠ .mutex) (hlt : s.completed < seq)
    (hroom : seq < s.completed + publicationRingSlots) :
    Matched s { s with
      gate := { s.gate with ring := Function.update s.gate.ring (seq &&& publicationRingMask) seq }
      announced := seq :: s.announced } := by
  intro g hg
  refine ⟨{ g with ring := Function.update g.ring (seq &&& publicationRingMask) seq },
    .inr (.inl ⟨seq, ?_⟩), hg.completed, hg.mode, ?_, fun hm => absurd hm hmode⟩
  · have hbelow : ¬g.completedCommit ≥ seq := by
      rw [hg.completed]
      omega
    have hfits : ¬seq - g.completedCommit ≥ publicationRingSlots := by
      rw [hg.completed]
      omega
    cases hm : s.gate.mode with
    | mutex => exact absurd hm hmode
    | waitFree | waitFreeNoSpin =>
      simp [CommitPublicationGate.announce, hbelow, hfits, hg.mode, hm]
  · rw [hg.ring]

theorem stepOk_store (hs : GateOk s) (h : PcOk s seq .store) :
    StepOk seq s { s with
      gate := { s.gate with
        ring := Function.update s.gate.ring (seq &&& publicationRingMask) seq }
      announced := seq :: s.announced } (.drainLoad (.after .announced) false) := by
  have hmode := h.mode_ne_mutex rfl rfl
  have hword := h.drawn (by simp)
  have hroom : seq < s.completed + publicationRingSlots := h.seen
  obtain ⟨hpassed, hbelow⟩ := hs.slot_free h
  have hmatched := matched_store hmode (hs.completed_lt hword.1 (h.fresh rfl)) hroom
  rw [and_publicationRingMask] at hmatched ⊢
  refine ⟨⟨rfl, ?_, ?_, .inl rfl, ?_, fun _ _ hj => hj, fun hm => absurd hm hmode⟩,
    ⟨?_, ?_, fun hm => absurd hm hmode, ?_, ?_⟩, ⟨fun _ => hword, ?_, ?_, ?_, trivial⟩,
    hmatched⟩
  · simp +contextual
  · simp +contextual [or_comm]
  · intro i hi
    by_cases heq : i = seq % publicationRingSlots
    · rw [heq]
      exact hpassed
    · simp [Function.update_of_ne heq] at hi
  · exact fun k h1 hk => List.mem_cons_of_mem _ (hs.reached k h1 hk)
  · simpa using ⟨hword, hs.words⟩
  · intro _ i hi
    dsimp only at hi ⊢
    by_cases heq : i = seq % publicationRingSlots
    · rw [heq, Function.update_self]
      exact ⟨List.mem_cons_self, rfl⟩
    · rw [Function.update_of_ne heq] at hi ⊢
      obtain ⟨hmem, hslot⟩ := hs.slot hmode i hi
      exact ⟨List.mem_cons_of_mem _ hmem, hslot⟩
  · intro _ k hk
    dsimp only
    rcases List.mem_cons.mp hk with rfl | hk
    · exact ⟨by rw [Function.update_self], hroom⟩
    · obtain ⟨hle, hahead⟩ := hs.kept hmode k hk
      refine ⟨?_, hahead⟩
      by_cases heq : k % publicationRingSlots = seq % publicationRingSlots
      · rw [heq] at hle ⊢
        rw [Function.update_self]
        omega
      · rwa [Function.update_of_ne heq]
  · simp [PublishPc.unannounced]
  · simp [PublishPc.locked]
  · simp [PublishPc.fits, PublishPc.ofMutex, hmode]

/-- The slot of the next sequence still holds it: no later one fits before the watermark moves. -/
theorem GateOk.ring_next (hs : GateOk s) (hmode : s.gate.mode ≠ .mutex)
    (hmem : s.completed + 1 ∈ s.announced) :
    s.gate.ring ((s.completed + 1) % publicationRingSlots) = s.completed + 1 := by
  have hle := (hs.kept hmode _ hmem).1
  obtain ⟨hheld, hslot⟩ := hs.slot hmode ((s.completed + 1) % publicationRingSlots) (by omega)
  have hahead := (hs.kept hmode _ hheld).2
  unfold publicationRingSlots at *
  omega

theorem matched_swap (hs : GateOk s) (hmode : s.gate.mode ≠ .mutex)
    (hmem : s.completed + 1 ∈ s.announced) : Matched s (s.setCompleted (s.completed + 1)) := by
  have hmax : u64Max = 2 ^ 64 - 1 := rfl
  have hword := (hs.words _ hmem).2
  have hnext : (s.completed + 1) % 2 ^ 64 = s.completed + 1 := by omega
  have hslot := hs.ring_next hmode hmem
  intro g hg
  refine ⟨{ g with completedCommit := s.completed + 1 }, .inr (.inr ?_), rfl, hg.mode, hg.ring,
    fun hm => absurd hm hmode⟩
  cases hm : s.gate.mode with
  | mutex => exact absurd hm hmode
  | waitFree | waitFreeNoSpin =>
    simp only [CommitPublicationGate.advance, hg.mode, hm, hg.completed, hg.ring, hnext,
      and_publicationRingMask, hslot, if_true]

theorem stepOk_swap {caller : DrainCaller} {advanced : Bool} (hs : GateOk s)
    (h : PcOk s seq (.drainSwap caller advanced s.completed)) :
    StepOk seq s (s.setCompleted ((s.completed + 1) % 2 ^ 64)) (.drainLoad caller true) := by
  have hmode := h.mode_ne_mutex rfl rfl
  have hmem : s.completed + 1 ∈ s.announced := h.seen
  have hword := (hs.words _ hmem).2
  have hnext : (s.completed + 1) % 2 ^ 64 = s.completed + 1 := by
    have : u64Max = 2 ^ 64 - 1 := rfl
    omega
  rw [hnext]
  refine ⟨⟨rfl, fun _ hk => hk, fun _ hk => .inl hk, .inr rfl, ?_, fun _ _ hj => hj,
      fun hm => absurd hm hmode⟩, ⟨hs.reached_succ hmem, hs.words, fun hm => absurd hm hmode,
      hs.slot, fun _ k hk => ?_⟩, ⟨fun _ => h.drawn (by simp), fun hpc => ?_, ?_, ?_, trivial⟩,
    matched_swap hs hmode hmem⟩
  · simp [PublicationState.setCompleted]
  · obtain ⟨hle, hahead⟩ := hs.kept hmode k hk
    refine ⟨hle, ?_⟩
    change k < s.completed + 1 + publicationRingSlots
    omega
  · cases caller <;> first | exact h.fresh rfl | cases hpc
  · simp [PublishPc.locked]
  · simp [PublishPc.fits, PublishPc.ofMutex, PublicationState.setCompleted, hmode]

/-- A slot that holds the next sequence shows that it was announced, also where the sequence
wraps to 0. -/
theorem GateOk.next_announced {s : PublicationState} {current : Nat} (hs : GateOk s)
    (hmode : s.gate.mode ≠ .mutex) (hcurrent : current ≤ s.completed)
    (hslot : s.gate.ring (((current + 1) % 2 ^ 64) &&& publicationRingMask) =
      (current + 1) % 2 ^ 64) : current + 1 ∈ s.announced := by
  have hmax : u64Max = 2 ^ 64 - 1 := rfl
  have hbound : current ≤ u64Max := by
    by_cases hzero : s.completed = 0
    · omega
    · have := (hs.words _ (hs.reached s.completed (by omega) le_rfl)).2
      omega
  rw [and_publicationRingMask] at hslot
  by_cases hlast : current = u64Max
  · -- the first slot has held a multiple of the ring's length ever since the first lap
    have hfirst := hs.reached publicationRingSlots (by decide) (by
      unfold publicationRingSlots
      omega)
    have hwrap : (current + 1) % 2 ^ 64 = 0 := by omega
    have hle := (hs.kept hmode _ hfirst).1
    rw [hwrap, Nat.zero_mod] at hslot
    rw [Nat.mod_self, hslot] at hle
    exact absurd hle (by decide)
  · have hnext : (current + 1) % 2 ^ 64 = current + 1 := by omega
    rw [hnext] at hslot
    have hmem := (hs.slot hmode _ (by omega : s.gate.ring ((current + 1) % publicationRingSlots) ≠ 0)).1
    rwa [hslot] at hmem

/-! ## Every step -/

theorem stepOk_idle (hs : GateOk s) (h : PcOk s seq .idle)
    (hmove : publishStep seq s .idle = some (s', pc')) : StepOk seq s s' pc' := by
  unfold publishStep at hmove
  dsimp only at hmove
  split_ifs at hmove with hdraw
  cases hmove
  have hquiet : Quiet seq s { s with drawn := seq } := ⟨rfl, rfl, fun _ _ hj => hj⟩
  refine ⟨hquiet.effect, hquiet.gateOk hs, ⟨fun _ => ⟨by omega, hdraw.2⟩, fun _ => h.fresh rfl, ?_,
    .inl rfl, trivial⟩, hquiet.matched⟩
  simp [PublishPc.locked]

theorem stepOk_entry (hs : GateOk s) (h : PcOk s seq .entry) :
    StepOk seq s s (if s.completed ≥ seq then .done
      else match s.gate.mode with
        | .mutex => .lock
        | .waitFree | .waitFreeNoSpin => .claim) := by
  have hquiet := Quiet.refl seq s
  refine ⟨hquiet.effect, hs, ⟨fun _ => h.drawn (by simp), fun _ => h.fresh rfl, ?_, ?_, ?_⟩,
    hquiet.matched⟩
  · split_ifs
    · simp [PublishPc.locked]
    · split <;> simp [PublishPc.locked]
  · split_ifs
    · exact .inl rfl
    · split <;> simp_all [PublishPc.fits, PublishPc.ofMutex]
  · split_ifs with hreached
    · exact hreached
    · split <;> trivial

theorem publishStep_ok (hs : GateOk s) (h : PcOk s seq pc)
    (hmove : publishStep seq s pc = some (s', pc')) : StepOk seq s s' pc' := by
  cases pc with
  | idle => exact stepOk_idle hs h hmove
  | entry =>
    cases hmove
    exact stepOk_entry hs h
  | lock => exact .of_acquire hs h hmove rfl trivial
  | recheck =>
    cases hmove
    split_ifs with hreached
    · exact .of_read hs h rfl id hreached
    · exact .of_read hs h rfl id trivial
  | insert =>
    cases hmove
    exact stepOk_insert hs h
  | advanceLoad advanced =>
    cases hmove
    exact .of_read hs h rfl id rfl
  | advanceRemove next advanced =>
    unfold publishStep at hmove
    dsimp only at hmove
    split_ifs at hmove with hready
    · cases hmove
      exact stepOk_remove hs h hready
    · cases hmove
      exact .of_read hs h rfl id trivial
  | advanceStore next =>
    cases hmove
    exact stepOk_advance hs h
  | notifyAdvanced advanced =>
    cases hmove
    refine .of_quiet hs h ?_ rfl (fun _ => ?_) trivial
    · split_ifs <;> exact ⟨rfl, rfl, fun _ _ hj => hj⟩
    · split_ifs <;> exact h.locked rfl
  | checkMutex =>
    cases hmove
    split_ifs with hreached
    · exact .of_read hs h rfl id hreached
    · exact .of_read hs h rfl id trivial
  | wait =>
    cases hmove
    exact .of_quiet hs h (.release (h.locked rfl) rfl rfl) rfl nofun trivial
  | waiting =>
    unfold publishStep PublicationState.reacquire PublicationState.acquire at hmove
    dsimp only at hmove
    split_ifs at hmove with hasleep hfree
    cases hmove
    refine .of_quiet hs h ⟨rfl, rfl, fun j _ hj => ?_⟩ rfl (fun _ => rfl) trivial
    rw [hfree] at hj
    cases hj
  | unlock =>
    cases hmove
    exact .of_quiet hs h (.release (h.locked rfl) rfl rfl) rfl nofun h.seen
  | claim =>
    cases hmove
    split_ifs with hfull
    · exact .of_read hs h rfl id trivial
    · exact .of_read hs h rfl id (by
        unfold PublishPc.Seen
        omega)
  | store =>
    cases hmove
    exact stepOk_store hs h
  | drainLoad caller advanced =>
    cases hmove
    exact .of_read hs h (by cases caller <;> rfl) id (Nat.le_refl s.completed)
  | drainSlot caller advanced current =>
    cases hmove
    split_ifs with hslot
    · exact .of_read hs h (by cases caller <;> cases advanced <;> rfl)
        (by cases caller <;> cases advanced <;> exact nofun)
        (by cases caller <;> cases advanced <;> trivial)
    · exact .of_read hs h (by cases caller <;> rfl) id
        (hs.next_announced (h.mode_ne_mutex rfl rfl) h.seen (not_not.mp hslot))
  | drainSwap caller advanced current =>
    unfold publishStep at hmove
    dsimp only at hmove
    split_ifs at hmove with hcurrent
    · cases hmove
      subst hcurrent
      exact stepOk_swap hs h
    · cases hmove
      exact .of_read hs h (by cases caller <;> rfl) id trivial
  | notifyLoad round =>
    cases hmove
    split_ifs
    · exact .of_read hs h rfl id trivial
    · exact .of_read hs h rfl id trivial
  | notifyLock round => exact .of_acquire hs h hmove rfl trivial
  | notifyAll round =>
    cases hmove
    exact .of_quiet hs h ⟨rfl, rfl, fun _ _ hj => hj⟩ rfl (fun _ => h.locked rfl) trivial
  | notifyUnlock round =>
    cases hmove
    exact .of_quiet hs h (.release (h.locked rfl) rfl rfl) rfl nofun trivial
  | check round =>
    cases hmove
    split_ifs with hreached
    · exact .of_read hs h rfl id hreached
    · have hspin : ∀ left, StepOk seq s s (.spin left) := by
        intro left
        cases left with
        | zero => exact .of_read hs h rfl id trivial
        | succ left => exact .of_read hs h rfl id trivial
      cases round with
      | announced => exact hspin _
      | spin left => exact hspin left
  | parkLock => exact .of_acquire hs h hmove rfl trivial
  | parkAdd =>
    cases hmove
    exact .of_quiet hs h ⟨rfl, rfl, fun _ _ hj => hj⟩ rfl (fun _ => h.locked rfl) trivial
  | parkCheck =>
    cases hmove
    split_ifs with hreached
    · exact .of_read hs h rfl id trivial
    · exact .of_read hs h rfl id (Nat.not_lt.mp hreached)
  | parkWait =>
    cases hmove
    exact .of_quiet hs h (.release (h.locked rfl) rfl rfl) rfl nofun trivial
  | parking =>
    unfold publishStep PublicationState.reacquire at hmove
    dsimp only at hmove
    split_ifs at hmove
    exact .of_acquire hs h hmove rfl trivial
  | parkSub =>
    have hseen : seq ≤ s.gate.completedCommit := h.seen
    cases hmove
    exact .of_quiet hs h ⟨rfl, rfl, fun _ _ hj => hj⟩ rfl (fun _ => h.locked rfl) hseen
  | parkUnlock =>
    cases hmove
    exact .of_quiet hs h (.release (h.locked rfl) rfl rfl) rfl nofun h.seen
  | done => cases hmove

/-! ## Every interleaving -/

theorem publicationStart_holds (mode : PublicationMode) :
    (publicationStart mode).Holds GateOk PcOk := by
  refine ⟨⟨?_, ?_, ?_, ?_, ?_⟩, fun seq => ⟨?_, ?_, ?_, .inl rfl, trivial⟩⟩
  · intro k h1 hk
    change k ≤ 0 at hk
    omega
  · simp [publicationStart, PublicationState.new]
  · simp [publicationStart, PublicationState.new, CommitPublicationGate.withMode]
  · simp [publicationStart, PublicationState.new, CommitPublicationGate.withMode]
  · simp [publicationStart, PublicationState.new]
  · exact fun h => absurd rfl h
  · simp [publicationStart, PublicationState.new]
  · exact nofun

theorem StepOk.keeps {pc' : PublishPc} (h : StepOk seq s s' pc') :
    Threads.Keeps GateOk PcOk seq s' pc' s :=
  ⟨h.gate, h.pc, fun _ hj _ hother => hother.other h.effect hj⟩

theorem publications_hold (mode : PublicationMode) (schedule : List Nat) :
    (publications mode schedule).Holds GateOk PcOk :=
  (publicationStart_holds mode).exec
    (fun _ _ _ _ _ hs hpc hmove => (publishStep_ok hs hpc hmove).keeps) schedule

/-- **The gate of the sharded store is refined.** Whatever the interleaving of the calls, the
store's gate reaches the same watermark by steps that announce a sequence or advance by one. -/
theorem publish_refines (mode : PublicationMode) (schedule : List Nat) :
    ∃ g, Relation.ReflTransGen GateStep (.withMode mode) g ∧
      Shows (publications mode schedule).shared g := by
  have hstart : Shows (publicationStart mode).shared (.withMode mode) := by
    refine ⟨rfl, rfl, rfl, fun _ k => ?_⟩
    simp [CommitPublicationGate.withMode, publicationStart, PublicationState.new]
  refine (publicationStart_holds mode).simulates (fun _ _ _ _ _ hs hpc hmove => ?_) hstart schedule
  have hok := publishStep_ok hs hpc hmove
  refine ⟨hok.keeps, fun g hg => ?_⟩
  obtain ⟨g', rfl | hstep, hg'⟩ := hok.shows g hg
  · exact ⟨g', .refl, hg'⟩
  · exact ⟨g', .single hstep, hg'⟩

/-- **Publication is ordered** in every interleaving, in every mode. The watermark is the end of
a run of announced sequences from 1 on, and a call that has returned is below it. A step moves it
by at most one, and never back, and writes a slot only when the watermark has passed what the
slot holds. -/
theorem publish_ordered (mode : PublicationMode) (schedule : List Nat) (seq : Nat) :
    let x := publications mode schedule
    let x' := publications mode (schedule ++ [seq])
    (∀ k, 1 ≤ k → k ≤ x.shared.completed → k ∈ x.shared.announced) ∧
      (∀ k, x.pc k = .done → k ≤ x.shared.completed) ∧
      (x'.shared.completed = x.shared.completed ∨
        x'.shared.completed = x.shared.completed + 1) ∧
      ∀ i, x'.shared.gate.ring i ≠ x.shared.gate.ring i →
        x.shared.gate.ring i ≤ x.shared.completed := by
  have hx := publications_hold mode schedule
  have hnext : publications mode (schedule ++ [seq]) =
      (publications mode schedule).next publishStep seq := by
    simp [publications, Threads.exec]
  dsimp only
  rw [hnext]
  generalize publications mode schedule = x at hx
  refine ⟨hx.shared.reached, fun k hk => ?_, ?_⟩
  · have hseen := (hx.pc k).seen
    rwa [hk] at hseen
  · unfold Threads.next
    split
    · exact ⟨.inl rfl, fun i hi => absurd rfl hi⟩
    · rename_i s' pc' hmove
      have heffect := (publishStep_ok hx.shared (hx.pc seq) hmove).effect
      exact ⟨heffect.advance, heffect.overwrite⟩

/-- Sequence 2 is announced first and its call goes to sleep; sequence 1 then lets both return. -/
example : (publications .waitFreeNoSpin (List.replicate 1 1 ++ List.replicate 11 2 ++
    List.replicate 20 1 ++ List.replicate 5 2)).shared.completed = 2 := by decide +kernel

end FrankenFs.Mvcc
