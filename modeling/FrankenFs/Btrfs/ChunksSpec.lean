import FrankenFs.Btrfs.Chunks
import FrankenFs.Lib.Striping
import Mathlib.Data.List.Lemmas

/-!
# Where the bytes of a chunk are

All that is mapped is read off from `indices` and `depth`: the stripes an offset is on, and how far
into them.
-/

open FrankenFs.Lib FrankenFs.Lib.Striping

namespace FrankenFs.Btrfs

theorem fits_ok {n m : Nat} {e : ParseError} : fits n e = .ok m ↔ n < 2 ^ 64 ∧ m = n := by
  unfold fits
  split_ifs with h
  · exact ⟨fun heq => ⟨h, (Except.ok.inj heq).symm⟩, fun heq => congrArg _ heq.2.symm⟩
  · exact ⟨fun heq => (nomatch heq), fun heq => absurd heq.1 h⟩

theorem stripeAt_ok {chunk : BtrfsChunkEntry} {idx : Nat} {reason : String} {s : BtrfsStripe} :
    stripeAt chunk idx reason = .ok s ↔ chunk.stripes[idx]? = some s := by
  unfold stripeAt
  cases chunk.stripes[idx]? with
  | none => simp
  | some t => simp

theorem validateStripeCount_ok {chunk : BtrfsChunkEntry} {num : Nat}
    (h : validateStripeCount chunk = .ok num) :
    0 < num ∧ num = chunk.numStripes ∧ num = chunk.stripes.length := by
  obtain ⟨_, hzero, h⟩ := bind_ok.mp h
  obtain ⟨_, hlen, h⟩ := bind_ok.mp h
  cases h
  exact ⟨Nat.pos_of_ne_zero (failIf_ok.mp hzero), rfl, not_not.mp (failIf_ok.mp hlen)⟩

theorem requireNonzeroStripeLen_ok {chunk : BtrfsChunkEntry} {len : Nat}
    (h : requireNonzeroStripeLen chunk = .ok len) : 0 < len ∧ len = chunk.stripeLen := by
  obtain ⟨_, hzero, h⟩ := bind_ok.mp h
  cases h
  exact ⟨Nat.pos_of_ne_zero (failIf_ok.mp hzero), rfl⟩

def BtrfsStripe.at (s : BtrfsStripe) (depth : Nat) : BtrfsPhysicalMapping :=
  ⟨s.devid, s.offset + depth⟩

theorem stripePhysical_ok {s : BtrfsStripe} {depth : Nat} {m : BtrfsPhysicalMapping} :
    stripePhysical s depth = .ok m ↔ s.offset + depth < 2 ^ 64 ∧ m = s.at depth := by
  unfold stripePhysical
  rw [bind_ok]
  constructor
  · rintro ⟨n, hn, h⟩
    obtain ⟨hlt, rfl⟩ := fits_ok.mp hn
    cases h
    exact ⟨hlt, rfl⟩
  · rintro ⟨hlt, rfl⟩
    exact ⟨_, fits_ok.mpr ⟨hlt, rfl⟩, rfl⟩

theorem stripePhysicalAt_ok {s : BtrfsStripe} {nr len off : Nat} {m : BtrfsPhysicalMapping} :
    stripePhysicalAt s nr len off = .ok m ↔
      s.offset + (nr * len + off) < 2 ^ 64 ∧ m = s.at (nr * len + off) := by
  unfold stripePhysicalAt
  rw [bind_ok]
  constructor
  · rintro ⟨n, hn, h⟩
    obtain ⟨-, rfl⟩ := fits_ok.mp hn
    exact stripePhysical_ok.mp h
  · intro h
    exact ⟨_, fits_ok.mpr ⟨by omega, rfl⟩, stripePhysical_ok.mpr h⟩

/-! ## Layouts -/

section Layout

variable {chunk : BtrfsChunkEntry} {profile : BtrfsRaidProfile}

def dataColumns (chunk : BtrfsChunkEntry) : BtrfsRaidProfile → Nat
  | .raid0 => chunk.stripes.length
  | .raid10 => chunk.stripes.length / chunk.subStripes
  | .raid5 => chunk.stripes.length - 1
  | .raid6 => chunk.stripes.length - 2
  | _ => 1

def indices (chunk : BtrfsChunkEntry) (profile : BtrfsRaidProfile) (offset : Nat) : List Nat :=
  let columns := dataColumns chunk profile
  let col := column chunk.stripeLen columns offset
  match profile with
  | .raid0 => [col]
  | .raid10 => (List.range chunk.subStripes).map (col * chunk.subStripes + ·)
  | .raid5 | .raid6 =>
    [(row chunk.stripeLen columns offset % chunk.stripes.length + col) % chunk.stripes.length]
  | _ => List.range chunk.stripes.length

def depth (chunk : BtrfsChunkEntry) (profile : BtrfsRaidProfile) (offset : Nat) : Nat :=
  if profile.isStriped then place chunk.stripeLen (dataColumns chunk profile) offset else offset

structure Shape (chunk : BtrfsChunkEntry) (profile : BtrfsRaidProfile) : Prop where
  stripes_pos : 0 < chunk.stripes.length
  unit_pos : profile.isStriped → 0 < chunk.stripeLen
  sub_pos : profile = .raid10 → 0 < chunk.subStripes
  parity_le : profile = .raid5 ∨ profile = .raid6 →
    profile.parityCount + 2 ≤ chunk.stripes.length

def IsSlot (chunk : BtrfsChunkEntry) (depth idx : Nat) (m : BtrfsPhysicalMapping) : Prop :=
  ∃ s, chunk.stripes[idx]? = some s ∧ s.offset + depth < 2 ^ 64 ∧ m = s.at depth

variable {ms : List BtrfsPhysicalMapping}

theorem forall₂_range_mirrors (stripes : List BtrfsStripe) {depth : Nat}
    (h : List.Forall₂ (fun s m => s.offset + depth < 2 ^ 64 ∧ m = s.at depth) stripes ms) :
    List.Forall₂ (fun i m => ∃ s, stripes[i]? = some s ∧ s.offset + depth < 2 ^ 64 ∧
      m = s.at depth) (List.range stripes.length) ms := by
  rw [List.forall₂_iff_get] at h ⊢
  refine ⟨by rw [List.length_range, h.1], fun i hi hm => ?_⟩
  rw [List.length_range] at hi
  refine ⟨stripes[i], ?_, ?_⟩
  · rw [List.get_eq_getElem, List.getElem_range, List.getElem?_eq_getElem hi]
  · exact h.2 i hi hm

variable {offset : Nat}

theorem resolveMirrorStripes_ok (h : resolveMirrorStripes chunk offset profile = .ok ms) :
    0 < chunk.stripes.length ∧
      List.Forall₂ (IsSlot chunk offset) (List.range chunk.stripes.length) ms := by
  obtain ⟨_, hvalid, h⟩ := bind_ok.mp h
  obtain ⟨num, hcount, -⟩ := bind_ok.mp hvalid
  obtain ⟨hpos, -, hnum⟩ := validateStripeCount_ok hcount
  refine ⟨hnum ▸ hpos, forall₂_range_mirrors _ ?_⟩
  exact (mapM_eq_ok.mp h).imp fun s m hm => stripePhysical_ok.mp hm

theorem resolveRaid0Stripe_ok (h : resolveRaid0Stripe chunk offset = .ok ms) : Shape chunk .raid0 ∧
      List.Forall₂ (IsSlot chunk (depth chunk .raid0 offset)) (indices chunk .raid0 offset) ms := by
  obtain ⟨len, hlen, h⟩ := bind_ok.mp h
  obtain ⟨hunit, rfl⟩ := requireNonzeroStripeLen_ok hlen
  obtain ⟨num, hcount, h⟩ := bind_ok.mp h
  obtain ⟨hpos, -, rfl⟩ := validateStripeCount_ok hcount
  obtain ⟨width, hwidth, h⟩ := bind_ok.mp h
  obtain ⟨-, rfl⟩ := fits_ok.mp hwidth
  obtain ⟨s, hs, h⟩ := bind_ok.mp h
  obtain ⟨m, hm, h⟩ := bind_ok.mp h
  cases h
  refine ⟨⟨hpos, fun _ => hunit, nofun, nofun⟩, .cons ?_ .nil⟩
  exact ⟨s, stripeAt_ok.mp hs, stripePhysicalAt_ok.mp hm⟩

theorem resolveRaid10Stripes_ok (h : resolveRaid10Stripes chunk offset = .ok ms) :
    Shape chunk .raid10 ∧
      List.Forall₂ (IsSlot chunk (depth chunk .raid10 offset))
        (indices chunk .raid10 offset) ms := by
  obtain ⟨len, hlen, h⟩ := bind_ok.mp h
  obtain ⟨hunit, rfl⟩ := requireNonzeroStripeLen_ok hlen
  obtain ⟨num, hcount, h⟩ := bind_ok.mp h
  obtain ⟨hpos, -, rfl⟩ := validateStripeCount_ok hcount
  obtain ⟨_, hsub, h⟩ := bind_ok.mp h
  obtain ⟨_, -, h⟩ := bind_ok.mp h
  obtain ⟨_, -, h⟩ := bind_ok.mp h
  obtain ⟨width, hwidth, h⟩ := bind_ok.mp h
  obtain ⟨-, rfl⟩ := fits_ok.mp hwidth
  obtain ⟨base, hbase, h⟩ := bind_ok.mp h
  obtain ⟨-, rfl⟩ := fits_ok.mp hbase
  obtain ⟨off, hoff, h⟩ := bind_ok.mp h
  obtain ⟨-, rfl⟩ := fits_ok.mp hoff
  have hsub' := Nat.pos_of_ne_zero (failIf_ok.mp hsub)
  refine ⟨⟨hpos, fun _ => hunit, fun _ => hsub', nofun⟩, ?_⟩
  show List.Forall₂ _ (List.map _ _) _
  rw [List.forall₂_map_left_iff]
  refine (mapM_eq_ok.mp h).imp fun m slot hm => ?_
  obtain ⟨s, hs, hm⟩ := bind_ok.mp hm
  exact ⟨s, stripeAt_ok.mp hs, stripePhysical_ok.mp hm⟩

theorem profile_cases (profile : BtrfsRaidProfile) :
    profile = .raid0 ∨ profile = .raid10 ∨ (profile = .raid5 ∨ profile = .raid6) ∨
      profile.isStriped = false := by
  cases profile <;> decide

theorem indices_mirror (h : profile.isStriped = false) (offset : Nat) :
    indices chunk profile offset = List.range chunk.stripes.length := by
  cases profile with
  | raid0 => cases h
  | raid10 => cases h
  | raid5 => cases h
  | raid6 => cases h
  | _ => rfl

theorem depth_mirror (h : profile.isStriped = false) (offset : Nat) :
    depth chunk profile offset = offset := if_neg (by simp [h])

theorem Shape.of_mirror (h : profile.isStriped = false) (hpos : 0 < chunk.stripes.length) :
    Shape chunk profile := by
  refine ⟨hpos, fun hs => ?_, ?_, ?_⟩
  · rw [h] at hs
    cases hs
  · rintro rfl
    cases h
  · rintro (rfl | rfl)
    · cases h
    · cases h

theorem isStriped_raid56 (hprofile : profile = .raid5 ∨ profile = .raid6) :
    profile.isStriped = true := by
  rcases hprofile with rfl | rfl
  · rfl
  · rfl

theorem dataColumns_raid56 (hprofile : profile = .raid5 ∨ profile = .raid6) :
    dataColumns chunk profile = chunk.stripes.length - profile.parityCount := by
  rcases hprofile with rfl | rfl
  · rfl
  · rfl

theorem indices_raid56 (hprofile : profile = .raid5 ∨ profile = .raid6) (offset : Nat) :
    indices chunk profile offset =
      [(row chunk.stripeLen (dataColumns chunk profile) offset % chunk.stripes.length +
        column chunk.stripeLen (dataColumns chunk profile) offset) % chunk.stripes.length] := by
  rcases hprofile with rfl | rfl
  · rfl
  · rfl

theorem depth_raid56 (hprofile : profile = .raid5 ∨ profile = .raid6) (offset : Nat) :
    depth chunk profile offset = place chunk.stripeLen (dataColumns chunk profile) offset :=
  if_pos (isStriped_raid56 hprofile)

theorem resolveRaid56Stripe_ok (hprofile : profile = .raid5 ∨ profile = .raid6)
    (h : resolveRaid56Stripe chunk offset profile = .ok ms) :
    Shape chunk profile ∧ List.Forall₂ (IsSlot chunk (depth chunk profile offset))
      (indices chunk profile offset) ms := by
  rw [depth_raid56 hprofile, indices_raid56 hprofile, dataColumns_raid56 hprofile]
  obtain ⟨len, hlen, h⟩ := bind_ok.mp h
  obtain ⟨hunit, rfl⟩ := requireNonzeroStripeLen_ok hlen
  obtain ⟨num, hcount, h⟩ := bind_ok.mp h
  obtain ⟨hpos, -, rfl⟩ := validateStripeCount_ok hcount
  obtain ⟨_, hparity, h⟩ := bind_ok.mp h
  obtain ⟨_, -, h⟩ := bind_ok.mp h
  obtain ⟨width, hwidth, h⟩ := bind_ok.mp h
  obtain ⟨-, rfl⟩ := fits_ok.mp hwidth
  obtain ⟨s, hs, h⟩ := bind_ok.mp h
  obtain ⟨m, hm, h⟩ := bind_ok.mp h
  cases h
  refine ⟨⟨hpos, fun _ => hunit, ?_, fun _ => Nat.le_of_not_lt (failIf_ok.mp hparity)⟩, .cons ?_ .nil⟩
  · rcases hprofile with rfl | rfl
    · exact nofun
    · exact nofun
  · exact ⟨s, stripeAt_ok.mp hs, stripePhysicalAt_ok.mp hm⟩

theorem resolveChunkStripes_raid56 (hprofile : profile = .raid5 ∨ profile = .raid6)
    (offset : Nat) :
    resolveChunkStripes chunk offset profile = resolveRaid56Stripe chunk offset profile := by
  rcases hprofile with rfl | rfl
  · rfl
  · rfl

theorem resolveChunkStripes_mirror (h : profile.isStriped = false) (offset : Nat) :
    resolveChunkStripes chunk offset profile = resolveMirrorStripes chunk offset profile := by
  cases profile with
  | raid0 => cases h
  | raid10 => cases h
  | raid5 => cases h
  | raid6 => cases h
  | _ => rfl

theorem resolveChunkStripes_ok (h : resolveChunkStripes chunk offset profile = .ok ms) :
    Shape chunk profile ∧
      List.Forall₂ (IsSlot chunk (depth chunk profile offset))
        (indices chunk profile offset) ms := by
  rcases profile_cases profile with rfl | rfl | hprofile | hmirror
  · exact resolveRaid0Stripe_ok h
  · exact resolveRaid10Stripes_ok h
  · rw [resolveChunkStripes_raid56 hprofile] at h
    exact resolveRaid56Stripe_ok hprofile h
  · rw [resolveChunkStripes_mirror hmirror] at h
    obtain ⟨hpos, hslots⟩ := resolveMirrorStripes_ok h
    rw [depth_mirror hmirror, indices_mirror hmirror]
    exact ⟨.of_mirror hmirror hpos, hslots⟩

theorem indices_ne_nil (h : Shape chunk profile) (offset : Nat) :
    indices chunk profile offset ≠ [] := by
  rcases profile_cases profile with rfl | rfl | hprofile | hmirror
  · exact List.cons_ne_nil _ _
  · have hsub := h.sub_pos rfl
    simp [indices, hsub.ne']
  · rw [indices_raid56 hprofile]
    exact List.cons_ne_nil _ _
  · rw [indices_mirror hmirror, Ne, List.range_eq_nil]
    exact h.stripes_pos.ne'

theorem indices_nodup (offset : Nat) : (indices chunk profile offset).Nodup := by
  rcases profile_cases profile with rfl | rfl | hprofile | hmirror
  · exact List.nodup_singleton _
  · refine List.Nodup.map ?_ List.nodup_range
    intro a b hab
    exact Nat.add_left_cancel hab
  · rw [indices_raid56 hprofile]
    exact List.nodup_singleton _
  · rw [indices_mirror hmirror]
    exact List.nodup_range

theorem layout_add {i : Nat}
    (h : profile.isStriped → offset % chunk.stripeLen + i < chunk.stripeLen) :
    indices chunk profile (offset + i) = indices chunk profile offset ∧
      depth chunk profile (offset + i) = depth chunk profile offset + i := by
  cases hstriped : profile.isStriped with
  | true =>
    obtain ⟨hrow, hcol, hplace⟩ := @within_unit _ (dataColumns chunk profile) _ _ (h hstriped)
    refine ⟨?_, by rw [depth, depth, if_pos hstriped, if_pos hstriped, hplace]⟩
    unfold indices
    dsimp only
    rw [hrow, hcol]
  | false =>
    rw [indices_mirror hstriped, indices_mirror hstriped, depth_mirror hstriped,
      depth_mirror hstriped]
    exact ⟨rfl, rfl⟩

theorem eq_of_indices (h : Shape chunk profile) {idx a b : Nat}
    (ha : idx ∈ indices chunk profile a) (hb : idx ∈ indices chunk profile b)
    (hdepth : depth chunk profile a = depth chunk profile b) : a = b := by
  rcases profile_cases profile with rfl | rfl | hprofile | hmirror
  · exact eq_of_place (h.unit_pos rfl) hdepth fun _ =>
      (List.mem_singleton.mp ha).symm.trans (List.mem_singleton.mp hb)
  · obtain ⟨m, hm, rfl⟩ := List.mem_map.mp ha
    obtain ⟨m', hm', heq⟩ := List.mem_map.mp hb
    rw [List.mem_range] at hm hm'
    refine eq_of_place (h.unit_pos rfl) hdepth fun _ => ?_
    have hdiv := congrArg (· / chunk.subStripes) heq
    simp only [Nat.add_comm (_ * chunk.subStripes), Nat.add_mul_div_right _ _ (h.sub_pos rfl),
      Nat.div_eq_of_lt hm, Nat.div_eq_of_lt hm', Nat.zero_add] at hdiv
    exact hdiv.symm
  · rw [indices_raid56 hprofile, List.mem_singleton] at ha hb
    rw [depth_raid56 hprofile, depth_raid56 hprofile] at hdepth
    have hparity := h.parity_le hprofile
    have hcol : ∀ n, column chunk.stripeLen (dataColumns chunk profile) n <
        chunk.stripes.length := by
      intro n
      refine (column_lt ?_ n).trans_le ?_
      all_goals
        rw [dataColumns_raid56 hprofile]
        omega
    refine eq_of_place (h.unit_pos (isStriped_raid56 hprofile)) hdepth fun hrow => ?_
    rw [hrow] at ha
    exact rotate_injective (hcol a) (hcol b) (ha.symm.trans hb)
  · rwa [depth_mirror hmirror, depth_mirror hmirror] at hdepth

end Layout

/-! ## Chunks -/

section Chunks

variable {chunk : BtrfsChunkEntry} {chunks : List BtrfsChunkEntry} {logical : Nat}
  {mapping : BtrfsStripeMapping}

def BtrfsChunkEntry.profile (chunk : BtrfsChunkEntry) : BtrfsRaidProfile :=
  .fromChunkType chunk.chunkType

def BtrfsChunkEntry.Has (chunk : BtrfsChunkEntry) (logical : Nat) : Prop :=
  chunk.keyOffset ≤ logical ∧ logical < chunk.keyOffset + chunk.length

def BtrfsChunkEntry.contiguous (chunk : BtrfsChunkEntry) (logical : Nat) : Nat :=
  if chunk.profile.isStriped then
    min (chunk.keyOffset + chunk.length - logical)
      (chunk.stripeLen - (logical - chunk.keyOffset) % chunk.stripeLen)
  else chunk.keyOffset + chunk.length - logical

theorem chunkStripes_ok : chunkStripes chunk logical = .ok (some mapping) ↔
    chunk.keyOffset + chunk.length < 2 ^ 64 ∧ chunk.Has logical ∧
      resolveChunkStripes chunk (logical - chunk.keyOffset) chunk.profile = .ok mapping.stripes ∧
      mapping.profile = chunk.profile ∧ mapping.contiguousLen = chunk.contiguous logical := by
  unfold chunkStripes
  rw [bind_ok]
  constructor
  · rintro ⟨finish, hfits, h⟩
    obtain ⟨hlt, rfl⟩ := fits_ok.mp hfits
    split_ifs at h with hout
    · cases h
    · obtain ⟨stripes, hstripes, h⟩ := bind_ok.mp h
      cases h
      exact ⟨hlt, ⟨by omega, by omega⟩, hstripes, rfl, rfl⟩
  · rintro ⟨hlt, ⟨hge, hend⟩, hstripes, hprofile, hcontiguous⟩
    refine ⟨_, fits_ok.mpr ⟨hlt, rfl⟩, ?_⟩
    rw [if_neg (by omega)]
    refine bind_ok.mpr ⟨_, hstripes, ?_⟩
    obtain ⟨profile, contiguousLen, stripes⟩ := mapping
    cases hprofile
    cases hcontiguous
    rfl

theorem chunkStripes_none (hlt : chunk.keyOffset + chunk.length < 2 ^ 64)
    (h : ¬ chunk.Has logical) : chunkStripes chunk logical = .ok none := by
  unfold chunkStripes
  refine bind_ok.mpr ⟨_, fits_ok.mpr ⟨hlt, rfl⟩, if_pos ?_⟩
  unfold BtrfsChunkEntry.Has at h
  omega

theorem mem_of_lastStarting (h : lastStarting chunks logical = some chunk) : chunk ∈ chunks :=
  List.takeWhile_subset _ (List.mem_of_getLast? h)

theorem mapLogicalToStripes_ok (h : mapLogicalToStripes chunks logical = .ok (some mapping)) :
    ∃ chunk ∈ chunks, chunkStripes chunk logical = .ok (some mapping) := by
  unfold mapLogicalToStripes at h
  split_ifs at h
  · cases hlast : lastStarting chunks logical with
    | none =>
      rw [hlast] at h
      cases h
    | some chunk =>
      rw [hlast] at h
      exact ⟨chunk, mem_of_lastStarting hlast, h⟩
  · induction chunks with
    | nil => cases h
    | cons chunk chunks ih =>
      obtain ⟨found, hfound, h⟩ := bind_ok.mp h
      cases found with
      | some m =>
        cases h
        exact ⟨chunk, List.mem_cons_self, hfound⟩
      | none =>
        obtain ⟨c, hc, hm⟩ := ih (by simp_all; omega) h
        exact ⟨c, List.mem_cons_of_mem _ hc, hm⟩

def SortedDisjoint (chunks : List BtrfsChunkEntry) : Prop :=
  chunks.Pairwise fun c c' => c.keyOffset + c.length ≤ c'.keyOffset

theorem SortedDisjoint.split (h : SortedDisjoint chunks) (hc : chunk ∈ chunks) :
    ∃ before after, chunks = before ++ chunk :: after ∧
      (∀ c ∈ before, c.keyOffset + c.length ≤ chunk.keyOffset) ∧
      ∀ c ∈ after, chunk.keyOffset + chunk.length ≤ c.keyOffset := by
  obtain ⟨before, after, rfl⟩ := List.append_of_mem hc
  obtain ⟨-, hafter, hbefore⟩ := List.pairwise_append.mp h
  exact ⟨before, after, rfl, fun c hc => hbefore c hc chunk List.mem_cons_self,
    (List.pairwise_cons.mp hafter).1⟩

theorem SortedDisjoint.eq_of_has (h : SortedDisjoint chunks) {c : BtrfsChunkEntry}
    (hchunk : chunk ∈ chunks) (hhas : chunk.Has logical) (hc : c ∈ chunks)
    (hhas' : c.Has logical) : c = chunk := by
  obtain ⟨before, after, rfl, hbefore, hafter⟩ := h.split hchunk
  unfold BtrfsChunkEntry.Has at hhas hhas'
  rcases List.mem_append.mp hc with hc | hc
  · have := hbefore c hc
    omega
  · rcases List.mem_cons.mp hc with rfl | hc
    · rfl
    · have := hafter c hc
      omega

theorem SortedDisjoint.lastStarting_eq (h : SortedDisjoint chunks) (hc : chunk ∈ chunks)
    (hhas : chunk.Has logical) : lastStarting chunks logical = some chunk := by
  obtain ⟨before, after, rfl, hbefore, hafter⟩ := h.split hc
  unfold BtrfsChunkEntry.Has at hhas
  have hstart : ∀ c ∈ before, decide (c.keyOffset ≤ logical) = true := by
    intro c hc
    have := hbefore c hc
    exact decide_eq_true (by omega)
  have hrest : after.takeWhile (fun c => decide (c.keyOffset ≤ logical)) = [] := by
    cases after with
    | nil => rfl
    | cons c after =>
      have := hafter c List.mem_cons_self
      exact List.takeWhile_cons_of_neg (by simpa using by omega)
  have hhere : decide (chunk.keyOffset ≤ logical) = true := decide_eq_true hhas.1
  unfold lastStarting
  rw [List.takeWhile_append_of_pos hstart, List.takeWhile_cons, if_pos hhere, hrest,
    List.getLast?_append, List.getLast?_singleton, Option.some_or]

theorem mapLogicalToStripes_of_has (h : SortedDisjoint chunks) (hc : chunk ∈ chunks)
    (hhas : chunk.Has logical) (hlt : chunk.keyOffset + chunk.length < 2 ^ 64) :
    mapLogicalToStripes chunks logical = chunkStripes chunk logical := by
  unfold mapLogicalToStripes
  split_ifs
  · rw [h.lastStarting_eq hc hhas]
    rfl
  obtain ⟨before, after, rfl, hbefore, -⟩ := h.split hc
  clear h hc
  unfold BtrfsChunkEntry.Has at hhas
  induction before with
  | nil =>
    rw [List.nil_append, firstMapped]
    cases hfound : chunkStripes chunk logical with
    | error e => rfl
    | ok found =>
      cases found with
      | some m => rfl
      | none =>
        unfold chunkStripes at hfound
        obtain ⟨finish, hfits, hfound⟩ := bind_ok.mp hfound
        obtain ⟨-, rfl⟩ := fits_ok.mp hfits
        rw [if_neg (by omega)] at hfound
        obtain ⟨_, -, hfound⟩ := bind_ok.mp hfound
        cases hfound
  | cons c before ih =>
    rw [List.forall_mem_cons] at hbefore
    have hnone : chunkStripes c logical = .ok none := by
      refine chunkStripes_none (by omega) ?_
      unfold BtrfsChunkEntry.Has
      omega
    rw [List.cons_append, firstMapped, hnone]
    exact ih (by simp_all; omega) hbefore.2

theorem chunk_of_mapped (hmap : mapLogicalToStripes chunks logical = .ok (some mapping)) :
    ∃ chunk ∈ chunks, chunk.Has logical ∧ chunk.keyOffset + chunk.length < 2 ^ 64 ∧
      Shape chunk chunk.profile ∧ mapping.contiguousLen = chunk.contiguous logical ∧
      List.Forall₂ (IsSlot chunk (depth chunk chunk.profile (logical - chunk.keyOffset)))
        (indices chunk chunk.profile (logical - chunk.keyOffset)) mapping.stripes := by
  obtain ⟨chunk, hc, hstripes⟩ := mapLogicalToStripes_ok hmap
  obtain ⟨hlt, hhas, hresolve, -, hcontiguous⟩ := chunkStripes_ok.mp hstripes
  obtain ⟨hshape, hslots⟩ := resolveChunkStripes_ok hresolve
  exact ⟨chunk, hc, hhas, hlt, hshape, hcontiguous, hslots⟩

theorem IsSlot.unique (hdevices : (chunk.stripes.map BtrfsStripe.devid).Nodup) {d d' idx idx' : Nat}
    {m : BtrfsPhysicalMapping} (h : IsSlot chunk d idx m) (h' : IsSlot chunk d' idx' m) :
    idx = idx' ∧ d = d' := by
  obtain ⟨s, hs, -, rfl⟩ := h
  obtain ⟨s', hs', -, heq⟩ := h'
  unfold BtrfsStripe.at at heq
  simp only [BtrfsPhysicalMapping.mk.injEq] at heq
  have hget : ∀ {i : Nat} {t : BtrfsStripe}, chunk.stripes[i]? = some t →
      (chunk.stripes.map BtrfsStripe.devid)[i]? = some t.devid := by
    intro i t ht
    rw [List.getElem?_map, ht, Option.map_some]
  have hidx : idx = idx' := by
    have hlt := (List.getElem?_eq_some_iff.mp (hget hs)).1
    exact (List.getElem?_inj hlt hdevices).mp ((hget hs).trans (heq.1 ▸ (hget hs').symm))
  refine ⟨hidx, ?_⟩
  rw [hidx, hs'] at hs
  cases hs
  omega

theorem isSlot_of_mem {d : Nat} {idxs : List Nat} {ms : List BtrfsPhysicalMapping}
    (h : List.Forall₂ (IsSlot chunk d) idxs ms) {m : BtrfsPhysicalMapping} (hm : m ∈ ms) :
    ∃ idx ∈ idxs, IsSlot chunk d idx m := by
  induction h with
  | nil => cases hm
  | cons hfirst _ ih =>
    rcases List.mem_cons.mp hm with rfl | hm
    · exact ⟨_, List.mem_cons_self, hfirst⟩
    · obtain ⟨idx, hidx, hslot⟩ := ih hm
      exact ⟨idx, List.mem_cons_of_mem _ hidx, hslot⟩

end Chunks

/-! ## Rows -/

section Rows

variable {chunk : BtrfsChunkEntry} {chunks : List BtrfsChunkEntry} {logical : Nat}
  {slots : BtrfsRaid56Row}

theorem SortedDisjoint.coveringChunk_eq (h : SortedDisjoint chunks) (hc : chunk ∈ chunks)
    (hhas : chunk.Has logical) (hlt : chunk.keyOffset + chunk.length < 2 ^ 64) :
    coveringChunk chunks logical = some chunk := by
  have hend : min (chunk.keyOffset + chunk.length) (2 ^ 64 - 1) = chunk.keyOffset + chunk.length :=
    Nat.min_eq_left (by omega)
  have hcovers : chunk.covers logical = true := by
    unfold BtrfsChunkEntry.covers
    rw [hend, decide_eq_true hhas.1, decide_eq_true hhas.2]
    rfl
  have hfind : chunks.find? (fun c => c.covers logical) = some chunk := by
    cases hfound : chunks.find? fun c => c.covers logical with
    | none => exact absurd hcovers (by simpa using List.find?_eq_none.mp hfound chunk hc)
    | some c =>
      have hcov := List.find?_some hfound
      simp only [BtrfsChunkEntry.covers, Bool.and_eq_true, decide_eq_true_eq] at hcov
      rw [h.eq_of_has hc hhas (List.mem_of_find?_eq_some hfound) ⟨hcov.1, by omega⟩]
  unfold coveringChunk
  dsimp only
  by_cases hlong : chunkMapBinarySearchThreshold < chunks.length
  · rw [if_pos hlong, h.lastStarting_eq hc hhas, if_pos]
    rw [Option.any_some, hend]
    exact decide_eq_true hhas.2
  · rw [if_neg hlong, hfind]
    rfl

theorem rowSlots_ok {nr off : Nat} {idxs : List Nat} {reason : String}
    {ms : List BtrfsPhysicalMapping} (h : rowSlots chunk nr off idxs reason = .ok ms) :
    List.Forall₂ (IsSlot chunk (nr * chunk.stripeLen + off)) idxs ms := by
  refine (mapM_eq_ok.mp h).imp fun idx m hm => ?_
  obtain ⟨s, hs, hm⟩ := bind_ok.mp hm
  exact ⟨s, stripeAt_ok.mp hs, stripePhysicalAt_ok.mp hm⟩

structure IsRow (chunk : BtrfsChunkEntry) (profile : BtrfsRaidProfile) (offset : Nat)
    (slots : BtrfsRaid56Row) : Prop where
  unit : requireNonzeroStripeLen chunk = .ok chunk.stripeLen
  count : validateStripeCount chunk = .ok chunk.stripes.length
  parity : profile.parityCount + 2 ≤ chunk.stripes.length
  width : chunk.stripeLen * dataColumns chunk profile < 2 ^ 64
  stripeLen : slots.stripeLen = chunk.stripeLen
  stripeNr : slots.stripeNr = row chunk.stripeLen (dataColumns chunk profile) offset
  offsetInStripe : slots.offsetInStripe = offset % chunk.stripeLen
  dataIdx : slots.dataDeviceIdx = (List.range (dataColumns chunk profile)).map fun j =>
    (slots.stripeNr % chunk.stripes.length + j) % chunk.stripes.length
  parityIdx : slots.parityDeviceIdx = (List.range profile.parityCount).map fun k =>
    (slots.stripeNr % chunk.stripes.length + (dataColumns chunk profile + k)) % chunk.stripes.length
  data : List.Forall₂ (IsSlot chunk (slots.stripeNr * chunk.stripeLen + slots.offsetInStripe))
    slots.dataDeviceIdx slots.dataSlots
  parities : List.Forall₂ (IsSlot chunk (slots.stripeNr * chunk.stripeLen + slots.offsetInStripe))
    slots.parityDeviceIdx slots.paritySlots

variable {offset : Nat}

theorem chunkRow_ok {profile : BtrfsRaidProfile} (hprofile : profile = .raid5 ∨ profile = .raid6)
    (h : chunkRow chunk profile offset = .ok slots) : IsRow chunk profile offset slots := by
  obtain ⟨len, hlen, h⟩ := bind_ok.mp h
  obtain ⟨-, rfl⟩ := requireNonzeroStripeLen_ok hlen
  obtain ⟨num, hcount, h⟩ := bind_ok.mp h
  obtain ⟨-, -, rfl⟩ := validateStripeCount_ok hcount
  obtain ⟨_, hparity, h⟩ := bind_ok.mp h
  rw [failIf_ok] at hparity
  obtain ⟨width, hwidth, h⟩ := bind_ok.mp h
  obtain ⟨hwidth, rfl⟩ := fits_ok.mp hwidth
  obtain ⟨dataSlots, hdata, h⟩ := bind_ok.mp h
  obtain ⟨paritySlots, hparities, h⟩ := bind_ok.mp h
  cases h
  have hcolumns := @dataColumns_raid56 chunk profile hprofile
  refine ⟨hlen, hcount, by omega, by rwa [hcolumns], rfl, ?_, rfl, ?_, ?_, rowSlots_ok hdata,
    rowSlots_ok hparities⟩
  · rw [hcolumns]
    rfl
  · rw [hcolumns]
  · rw [hcolumns]
    simp only [Nat.add_assoc]

theorem IsRow.length_data {profile : BtrfsRaidProfile} (h : IsRow chunk profile offset slots) :
    slots.dataSlots.length = dataColumns chunk profile := by
  rw [← h.data.length_eq, h.dataIdx, List.length_map, List.length_range]

theorem SortedDisjoint.row (h : SortedDisjoint chunks) (hc : chunk ∈ chunks)
    (hhas : chunk.Has logical) (hlt : chunk.keyOffset + chunk.length < 2 ^ 64)
    (hrow : resolveRaid56Row chunks logical = .ok (some slots)) :
    (chunk.profile = .raid5 ∨ chunk.profile = .raid6) ∧
      IsRow chunk chunk.profile (logical - chunk.keyOffset) slots := by
  unfold resolveRaid56Row at hrow
  rw [h.coveringChunk_eq hc hhas hlt, Option.elim_some] at hrow
  dsimp only at hrow
  split_ifs at hrow with hprofile
  · obtain ⟨slots', hslots, heq⟩ := map_ok.mp hrow
    cases heq
    exact ⟨hprofile, chunkRow_ok hprofile hslots⟩
  · cases hrow

theorem IsRow.partition {profile : BtrfsRaidProfile}
    (hprofile : profile = .raid5 ∨ profile = .raid6) (h : IsRow chunk profile offset slots) :
    (slots.dataDeviceIdx ++ slots.parityDeviceIdx).Perm (List.range chunk.stripes.length) := by
  have hparity := h.parity
  have hsum : chunk.stripes.length = dataColumns chunk profile + profile.parityCount := by
    rw [dataColumns_raid56 hprofile]
    omega
  rw [h.dataIdx, h.parityIdx]
  refine List.Perm.trans ?_ (rotate_perm chunk.stripes.length (slots.stripeNr % chunk.stripes.length))
  conv_rhs => rw [show List.range chunk.stripes.length = _ from congrArg List.range hsum,
    List.range_add, List.map_append, List.map_map]
  exact .refl _

theorem resolveRaid56Stripe_of_slot {profile : BtrfsRaidProfile} {offset at' : Nat}
    (hprofile : profile = .raid5 ∨ profile = .raid6) (h : IsRow chunk profile offset slots)
    {m : BtrfsPhysicalMapping} (hslot : IsSlot chunk (depth chunk profile at')
      ((row chunk.stripeLen (dataColumns chunk profile) at' % chunk.stripes.length +
        column chunk.stripeLen (dataColumns chunk profile) at') % chunk.stripes.length) m) :
    resolveRaid56Stripe chunk at' profile = .ok [m] := by
  have hparity := h.parity
  have hwidth := h.width
  rw [depth_raid56 hprofile, dataColumns_raid56 hprofile] at hslot
  rw [dataColumns_raid56 hprofile] at hwidth
  obtain ⟨s, hs, hm⟩ := hslot
  unfold resolveRaid56Stripe
  refine bind_ok.mpr ⟨_, h.unit, bind_ok.mpr ⟨_, h.count, bind_ok.mpr ⟨(), ?_, ?_⟩⟩⟩
  · exact failIf_of_not (by omega) _
  refine bind_ok.mpr ⟨(), failIf_of_not (by omega) _, ?_⟩
  refine bind_ok.mpr ⟨_, fits_ok.mpr ⟨hwidth, rfl⟩, ?_⟩
  refine bind_ok.mpr ⟨s, stripeAt_ok.mpr hs, ?_⟩
  exact bind_ok.mpr ⟨m, stripePhysicalAt_ok.mpr hm, rfl⟩

theorem SortedDisjoint.column_mapped (h : SortedDisjoint chunks) (hc : chunk ∈ chunks)
    (hlt : chunk.keyOffset + chunk.length < 2 ^ 64)
    (hprofile : chunk.profile = .raid5 ∨ chunk.profile = .raid6) {offset : Nat}
    (hrow : IsRow chunk chunk.profile offset slots) {j : Nat} {m : BtrfsPhysicalMapping}
    (hm : slots.dataSlots[j]? = some m)
    (hin : join chunk.stripeLen (dataColumns chunk chunk.profile) slots.stripeNr j
      slots.offsetInStripe < chunk.length) :
    ∃ mapping, mapLogicalToStripes chunks (chunk.keyOffset +
      join chunk.stripeLen (dataColumns chunk chunk.profile) slots.stripeNr j
        slots.offsetInStripe) = .ok (some mapping) ∧ mapping.stripes = [m] := by
  set column' := join chunk.stripeLen (dataColumns chunk chunk.profile) slots.stripeNr j
    slots.offsetInStripe with hcolumn'
  have hunit := (requireNonzeroStripeLen_ok hrow.unit).1
  have hoff : slots.offsetInStripe < chunk.stripeLen := hrow.offsetInStripe ▸ Nat.mod_lt _ hunit
  have hhas : chunk.Has (chunk.keyOffset + column') := by
    unfold BtrfsChunkEntry.Has
    omega
  -- the slot, by its place in the row
  have hj : j < dataColumns chunk chunk.profile :=
    hrow.length_data ▸ (List.getElem?_eq_some_iff.mp hm).1
  have hslot : IsSlot chunk (slots.stripeNr * chunk.stripeLen + slots.offsetInStripe)
      ((slots.stripeNr % chunk.stripes.length + j) % chunk.stripes.length) m := by
    have hidx : slots.dataDeviceIdx[j]? =
        some ((slots.stripeNr % chunk.stripes.length + j) % chunk.stripes.length) := by
      rw [hrow.dataIdx, List.getElem?_map, List.getElem?_range hj, Option.map_some]
    obtain ⟨hi, hidx⟩ := List.getElem?_eq_some_iff.mp hidx
    obtain ⟨hi', hm⟩ := List.getElem?_eq_some_iff.mp hm
    have := (List.forall₂_iff_get.mp hrow.data).2 j hi hi'
    rwa [List.get_eq_getElem, List.get_eq_getElem, hidx, hm] at this
  have hresolve : resolveRaid56Stripe chunk column' chunk.profile = .ok [m] := by
    refine resolveRaid56Stripe_of_slot hprofile hrow ?_
    rw [depth_raid56 hprofile, place, hcolumn', row_join hj hoff, column_join hj hoff, join_mod hoff]
    exact hslot
  refine ⟨⟨chunk.profile, chunk.contiguous (chunk.keyOffset + column'), [m]⟩, ?_, rfl⟩
  rw [mapLogicalToStripes_of_has h hc hhas hlt, chunkStripes_ok, Nat.add_sub_cancel_left,
    resolveChunkStripes_raid56 hprofile]
  exact ⟨hlt, hhas, hresolve, rfl, rfl⟩

end Rows

/-! ## Reading -/

section Reading

variable {chunks : List BtrfsChunkEntry} {devices : BtrfsDeviceSet}
  {store : (devid physical : Nat) → BitVec 8}

def Answers (devices : BtrfsDeviceSet) (store : (devid physical : Nat) → BitVec 8) (devid : Nat) :
    Prop :=
  ∃ reader, devices devid = some reader ∧
    ∀ physical len, reader physical len =
      .ok ((List.range len).map fun i => store devid (physical + i))

theorem readPhysical_answers {devid physical len : Nat} (h : Answers devices store devid)
    (hfits : physical + len < 2 ^ 64) : devices.readPhysical devid physical len =
      .ok ((List.range len).map fun i => store devid (physical + i)) := by
  obtain ⟨reader, hreader, hread⟩ := h
  unfold BtrfsDeviceSet.readPhysical
  rw [hreader, Option.elim_some, ok_bind, failIf_of_not (by omega), ok_bind, hread, ok_bind,
    failIf_of_not (by simp)]
  rfl

def Stored (chunks : List BtrfsChunkEntry) (store : (devid physical : Nat) → BitVec 8)
    (logical : Nat) (byte : BitVec 8) : Prop :=
  ∃ mapping first, mapLogicalToStripes chunks logical = .ok (some mapping) ∧
    mapping.stripes.head? = some first ∧ byte = store first.devid first.physical

/-- An address can be read: it is mapped, its devices answer, and the end of the byte at its first
stripe is an address. -/
def Readable (chunks : List BtrfsChunkEntry) (devices : BtrfsDeviceSet)
    (store : (devid physical : Nat) → BitVec 8) (logical : Nat) : Prop :=
  ∃ mapping, mapLogicalToStripes chunks logical = .ok (some mapping) ∧
    (∀ m ∈ mapping.stripes, Answers devices store m.devid) ∧
    ∀ m ∈ mapping.stripes.head?, m.physical + 1 < 2 ^ 64

theorem head_of_slots {chunk : BtrfsChunkEntry} {d : Nat} {idxs : List Nat}
    {ms : List BtrfsPhysicalMapping} (h : List.Forall₂ (IsSlot chunk d) idxs ms) (hne : idxs ≠ []) :
    ∃ s, (∃ idx, idxs.head? = some idx ∧ chunk.stripes[idx]? = some s) ∧
      ms.head? = some (s.at d) := by
  cases h with
  | nil => exact absurd rfl hne
  | cons hfirst _ =>
    obtain ⟨s, hs, -, rfl⟩ := hfirst
    exact ⟨s, ⟨_, rfl, hs⟩, rfl⟩

theorem contiguous_pos {chunk : BtrfsChunkEntry} {logical : Nat} (hhas : chunk.Has logical)
    (hshape : Shape chunk chunk.profile) : 0 < chunk.contiguous logical := by
  unfold BtrfsChunkEntry.Has at hhas
  unfold BtrfsChunkEntry.contiguous
  split_ifs with hstriped
  · have := Nat.mod_lt (logical - chunk.keyOffset) (hshape.unit_pos hstriped)
    omega
  · omega

theorem SortedDisjoint.contiguous (h : SortedDisjoint chunks) {logical : Nat}
    {mapping : BtrfsStripeMapping}
    (hmap : mapLogicalToStripes chunks logical = .ok (some mapping)) :
    0 < mapping.contiguousLen ∧ ∃ first, mapping.stripes.head? = some first ∧
      ∀ i < mapping.contiguousLen, ∀ mapping',
        mapLogicalToStripes chunks (logical + i) = .ok (some mapping') →
        mapping'.stripes.head? = some ⟨first.devid, first.physical + i⟩ := by
  obtain ⟨chunk, hc, hhas, -, hshape, hcontiguous, hslots⟩ := chunk_of_mapped hmap
  obtain ⟨s, ⟨idx, hidx, hs⟩, hhead⟩ := head_of_slots hslots (indices_ne_nil hshape _)
  rw [hcontiguous]
  refine ⟨contiguous_pos hhas hshape, s.at _, hhead, fun i hi mapping' hmap' => ?_⟩
  have hbounds : logical + i < chunk.keyOffset + chunk.length ∧ (chunk.profile.isStriped →
      (logical - chunk.keyOffset) % chunk.stripeLen + i < chunk.stripeLen) := by
    unfold BtrfsChunkEntry.Has at hhas
    unfold BtrfsChunkEntry.contiguous at hi
    split_ifs at hi with hstriped
    · refine ⟨by omega, fun _ => ?_⟩
      have := Nat.mod_lt (logical - chunk.keyOffset) (hshape.unit_pos hstriped)
      omega
    · exact ⟨by omega, fun hs => absurd hs hstriped⟩
  -- the later address is in the same chunk
  obtain ⟨chunk', hc', hhas', -, -, -, hslots'⟩ := chunk_of_mapped hmap'
  have hsame := h.eq_of_has hc ⟨hhas.1.trans (Nat.le_add_right _ _), hbounds.1⟩ hc' hhas'
  subst hsame
  have hoffset : logical + i - chunk'.keyOffset = logical - chunk'.keyOffset + i := by
    have := hhas.1
    omega
  obtain ⟨hidxs, hdepth⟩ := layout_add hbounds.2
  rw [hoffset, hidxs, hdepth] at hslots'
  obtain ⟨s', ⟨idx', hidx', hs'⟩, hhead'⟩ := head_of_slots hslots' (indices_ne_nil hshape _)
  rw [hidx] at hidx'
  cases hidx'
  rw [hs] at hs'
  cases hs'
  rw [hhead']
  simp only [BtrfsStripe.at, Nat.add_assoc]

theorem readSegment_answers (h : SortedDisjoint chunks) {logical take : Nat}
    {mapping : BtrfsStripeMapping}
    (hmap : mapLogicalToStripes chunks logical = .ok (some mapping))
    (hpos : 0 < take) (htake : take ≤ mapping.contiguousLen)
    (hread : ∀ i < take, Readable chunks devices store (logical + i)) (last : BtrfsDeviceError) :
    ∃ bytes, devices.readSegment take last mapping.stripes = .ok bytes ∧ bytes.length = take ∧
      ∀ i < take, ∀ byte, bytes[i]? = some byte → Stored chunks store (logical + i) byte := by
  obtain ⟨-, first, hhead, hafter⟩ := h.contiguous hmap
  obtain ⟨mapping₀, hmap₀, hanswers, -⟩ := hread 0 hpos
  rw [Nat.add_zero, hmap] at hmap₀
  cases hmap₀
  -- the last byte of the segment has an address behind it
  obtain ⟨mapping', hmap', -, hfits⟩ := hread (take - 1) (by omega)
  have hlast := hfits _ (hafter (take - 1) (by omega) mapping' hmap')
  dsimp only at hlast
  refine ⟨(List.range take).map fun i => store first.devid (first.physical + i), ?_, by simp, ?_⟩
  · cases hstripes : mapping.stripes with
    | nil =>
      rw [hstripes] at hhead
      cases hhead
    | cons m ms =>
      rw [hstripes] at hhead hanswers
      cases hhead
      unfold BtrfsDeviceSet.readSegment
      rw [readPhysical_answers (hanswers _ List.mem_cons_self) (by omega)]
  · intro i hi byte hbyte
    obtain ⟨mappingᵢ, hmapᵢ, -, -⟩ := hread i hi
    refine ⟨mappingᵢ, _, hmapᵢ, hafter i (by omega) mappingᵢ hmapᵢ, ?_⟩
    rw [List.getElem?_map, List.getElem?_range hi, Option.map_some] at hbyte
    exact (Option.some.inj hbyte).symm

theorem readFrom_answers (h : SortedDisjoint chunks) {finish : Nat} (fuel remaining : Nat)
    (hfuel : remaining ≤ fuel) (hfinish : remaining ≤ finish)
    (hread : ∀ i < remaining, Readable chunks devices store (finish - remaining + i)) :
    ∃ bytes, devices.readFrom chunks finish fuel remaining = .ok bytes ∧
      bytes.length = remaining ∧ ∀ i < remaining, ∀ byte, bytes[i]? = some byte →
        Stored chunks store (finish - remaining + i) byte := by
  induction fuel generalizing remaining with
  | zero =>
    obtain rfl : remaining = 0 := by omega
    exact ⟨[], rfl, rfl, fun i hi => absurd hi (Nat.not_lt_zero i)⟩
  | succ fuel ih =>
    unfold BtrfsDeviceSet.readFrom
    split_ifs with hzero
    · subst hzero
      exact ⟨[], rfl, rfl, fun i hi => absurd hi (Nat.not_lt_zero i)⟩
    obtain ⟨mapping, hmap, -, -⟩ := hread 0 (by omega)
    rw [Nat.add_zero] at hmap
    obtain ⟨hpos, -⟩ := h.contiguous hmap
    set take := min remaining mapping.contiguousLen with htake
    have htake_le : take ≤ remaining := Nat.min_le_left _ _
    obtain ⟨segment, hsegment, hlen, hbytes⟩ := readSegment_answers h hmap
      (show 0 < take by omega) (Nat.min_le_right _ _) (fun i hi => hread i (by omega))
      (.mapping (.invalidField "stripe" "no readable stripe"))
    have hnext : finish - (remaining - take) = finish - remaining + take := by omega
    obtain ⟨rest, hrest, hlen', hbytes'⟩ := ih (remaining - take) (by omega) (by omega) (by
      intro i hi
      rw [hnext, Nat.add_assoc]
      exact hread (take + i) (by omega))
    refine ⟨segment ++ rest, ?_, by rw [List.length_append]; omega, fun i hi byte hbyte => ?_⟩
    · rw [hmap]
      refine bind_ok.mpr ⟨some mapping, rfl, bind_ok.mpr ⟨mapping, rfl, ?_⟩⟩
      refine bind_ok.mpr ⟨segment, hsegment, bind_ok.mpr ⟨rest, hrest, rfl⟩⟩
    · rcases Nat.lt_or_ge i take with hlt | hge
      · rw [List.getElem?_append_left (by omega)] at hbyte
        exact hbytes i hlt byte hbyte
      · rw [List.getElem?_append_right (by omega), hlen] at hbyte
        have := hbytes' (i - take) (by omega) byte hbyte
        rwa [hnext, Nat.add_assoc, Nat.add_sub_cancel' hge] at this

end Reading

/-! ## The whole map -/

/-- Every mirror of an address is the stripe of a copy, at one depth. -/
def MirrorsAligned (chunks : List BtrfsChunkEntry) : Prop :=
  ∀ logical mapping, mapLogicalToStripes chunks logical = .ok (some mapping) →
    ∃ chunk ∈ chunks, chunk.Has logical ∧ ∃ (depth : Nat) (idxs : List Nat), idxs.Nodup ∧
      List.Forall₂ (fun idx m => ∃ s : BtrfsStripe, chunk.stripes[idx]? = some s ∧
        m = ⟨s.devid, s.offset + depth⟩) idxs mapping.stripes

def NoCollision (chunks : List BtrfsChunkEntry) : Prop :=
  ∀ chunk ∈ chunks, (chunk.stripes.map BtrfsStripe.devid).Nodup → ∀ a b, chunk.Has a →
    chunk.Has b → a ≠ b → ∀ mapping mapping',
    mapLogicalToStripes chunks a = .ok (some mapping) →
    mapLogicalToStripes chunks b = .ok (some mapping') →
    ∀ m ∈ mapping.stripes, m ∉ mapping'.stripes

/-- The row of an address: it has a slot for each stripe but those of the parity, its slots are what
its columns are mapped to, as far as they are addresses of the chunk, its data is not where its
parity is, and its stripes are all stripes. -/
def RowsExact (chunks : List BtrfsChunkEntry) : Prop :=
  ∀ logical mapping slots, mapLogicalToStripes chunks logical = .ok (some mapping) →
    resolveRaid56Row chunks logical = .ok (some slots) →
    ∃ chunk ∈ chunks, chunk.Has logical ∧
      ((chunk.stripes.map BtrfsStripe.devid).Nodup →
        ∀ m ∈ mapping.stripes, m ∉ slots.paritySlots) ∧
      slots.dataSlots.length + chunk.profile.parityCount = chunk.stripes.length ∧
      (∀ j m, slots.dataSlots[j]? = some m →
        (slots.stripeNr * slots.dataSlots.length + j) * slots.stripeLen + slots.offsetInStripe <
          chunk.length →
        ∃ mapping', mapLogicalToStripes chunks (chunk.keyOffset +
          ((slots.stripeNr * slots.dataSlots.length + j) * slots.stripeLen +
            slots.offsetInStripe)) = .ok (some mapping') ∧ mapping'.stripes = [m]) ∧
      (slots.dataDeviceIdx ++ slots.parityDeviceIdx).Perm (List.range chunk.stripes.length)

section Whole

variable {chunks : List BtrfsChunkEntry}

theorem mirrorsAligned (chunks : List BtrfsChunkEntry) : MirrorsAligned chunks := by
  intro logical mapping hmap
  obtain ⟨chunk, hc, hhas, -, -, -, hslots⟩ := chunk_of_mapped hmap
  refine ⟨chunk, hc, hhas, depth chunk chunk.profile (logical - chunk.keyOffset), _,
    indices_nodup _, hslots.imp fun idx m hslot => ?_⟩
  obtain ⟨s, hs, -, rfl⟩ := hslot
  exact ⟨s, hs, rfl⟩

theorem SortedDisjoint.noCollision (h : SortedDisjoint chunks) : NoCollision chunks := by
  intro chunk hc hdevices a b ha hb hne mapping mapping' hmap hmap' m hm hm'
  obtain ⟨c, hc₁, hhas₁, -, hshape, -, hslots⟩ := chunk_of_mapped hmap
  obtain ⟨c', hc₂, hhas₂, -, -, -, hslots'⟩ := chunk_of_mapped hmap'
  obtain rfl := h.eq_of_has hc ha hc₁ hhas₁
  obtain rfl := h.eq_of_has hc hb hc₂ hhas₂
  obtain ⟨idx, hidx, hslot⟩ := isSlot_of_mem hslots hm
  obtain ⟨idx', hidx', hslot'⟩ := isSlot_of_mem hslots' hm'
  obtain ⟨rfl, hdepth⟩ := hslot.unique hdevices hslot'
  have heq := eq_of_indices hshape hidx hidx' hdepth
  have hge := ha.1
  have hge' := hb.1
  omega

theorem SortedDisjoint.rowsExact (h : SortedDisjoint chunks) : RowsExact chunks := by
  intro logical mapping slots hmap hrow
  obtain ⟨chunk, hc, hhas, hlt, hshape, -, hslots⟩ := chunk_of_mapped hmap
  obtain ⟨hprofile, hslotsRow⟩ := h.row hc hhas hlt hrow
  refine ⟨chunk, hc, hhas, fun hdevices m hm hparity => ?_, ?_, fun j m hm hin => ?_,
    hslotsRow.partition hprofile⟩
  · -- the column of a data byte is not one of the columns behind them
    obtain ⟨idx, hidx, hslot⟩ := isSlot_of_mem hslots hm
    obtain ⟨idx', hidx', hslot'⟩ := isSlot_of_mem hslotsRow.parities hparity
    obtain ⟨rfl, -⟩ := hslot.unique hdevices hslot'
    rw [indices_raid56 hprofile, List.mem_singleton] at hidx
    rw [hslotsRow.parityIdx, List.mem_map] at hidx'
    obtain ⟨k, hk, hidx'⟩ := hidx'
    rw [List.mem_range] at hk
    rw [← hidx', hslotsRow.stripeNr] at hidx
    have hcount := hslotsRow.parity
    have hcolumns := @dataColumns_raid56 chunk _ hprofile
    have hcol : column chunk.stripeLen (dataColumns chunk chunk.profile)
        (logical - chunk.keyOffset) < dataColumns chunk chunk.profile := column_lt (by omega) _
    have := rotate_injective (by omega) (by omega) hidx
    omega
  · have hparity := hslotsRow.parity
    rw [hslotsRow.length_data, dataColumns_raid56 hprofile]
    omega
  · rw [hslotsRow.length_data, hslotsRow.stripeLen] at hin ⊢
    exact h.column_mapped hc hlt hprofile hslotsRow hm hin

theorem striped_reads_exact (h : SortedDisjoint chunks) :
    (∀ devices store logical len, logical < 2 ^ 64 → len ≤ isizeMax →
      (∀ i < len, Readable chunks devices store (logical + i)) →
      ∃ bytes, devices.readLogical chunks logical len = .ok bytes ∧ bytes.length = len ∧
        ∀ i < len, ∀ byte, bytes[i]? = some byte → Stored chunks store (logical + i) byte) ∧
    MirrorsAligned chunks ∧ NoCollision chunks ∧ RowsExact chunks := by
  refine ⟨fun devices store logical len hlogical hlen hread => ?_, mirrorsAligned chunks,
    h.noCollision, h.rowsExact⟩
  have hfits : logical + len < 2 ^ 64 := by
    cases len with
    | zero => exact hlogical
    | succ n =>
      obtain ⟨mapping, hmap, -⟩ := hread n (Nat.lt_succ_self n)
      obtain ⟨chunk, -, hhas, hlt, -⟩ := chunk_of_mapped hmap
      have := hhas.2
      omega
  have hstart : logical + len - len = logical := Nat.add_sub_cancel ..
  obtain ⟨bytes, hbytes, hlength, hstored⟩ := @readFrom_answers chunks devices store h (logical + len)
    len len le_rfl (Nat.le_add_left ..) (by rwa [hstart])
  rw [hstart] at hstored
  refine ⟨bytes, ?_, hlength, hstored⟩
  unfold BtrfsDeviceSet.readLogical
  rw [failIf_of_not (by omega), ok_bind, failIf_of_not (by omega), ok_bind, hbytes]

def sampleChunk : BtrfsChunkEntry := ⟨100, 8, 2, 8#64, 2, 1, [⟨1, 50⟩, ⟨2, 60⟩]⟩

def constantDevices (byte : BitVec 8) : BtrfsDeviceSet := fun _ =>
  some fun _ len => .ok ((List.range len).map fun _ => byte)

theorem striped_reads_exact_sample :
    ∃ bytes, (constantDevices 7).readLogical [sampleChunk] 101 3 = .ok bytes ∧ bytes.length = 3 := by
  have hread : ∀ i < 3, Readable [sampleChunk] (constantDevices 7) (fun _ _ => 7) (101 + i) := by
    have hanswers : ∀ devid, Answers (constantDevices 7) (fun _ _ => 7) devid :=
      fun devid => ⟨_, rfl, fun _ _ => rfl⟩
    intro i hi
    obtain rfl | rfl | rfl : i = 0 ∨ i = 1 ∨ i = 2 := by omega
    · exact ⟨⟨.raid0, 1, [⟨1, 51⟩]⟩, rfl, fun m _ => hanswers _, by decide⟩
    · exact ⟨⟨.raid0, 2, [⟨2, 60⟩]⟩, rfl, fun m _ => hanswers _, by decide⟩
    · exact ⟨⟨.raid0, 1, [⟨2, 61⟩]⟩, rfl, fun m _ => hanswers _, by decide⟩
  obtain ⟨hreads, -⟩ := @striped_reads_exact [sampleChunk] (List.pairwise_singleton _ _)
  obtain ⟨bytes, hbytes, hlen, -⟩ := hreads (constantDevices 7) (fun _ _ => 7) 101 3 (by decide)
    (by decide) hread
  exact ⟨bytes, hbytes, hlen⟩

def lastChunk : BtrfsChunkEntry := ⟨0, 2, 0, 0#64, 1, 0, [⟨1, 2 ^ 64 - 2⟩]⟩

def halfRow : BtrfsChunkEntry := ⟨0, 2, 2, 0x80#64, 3, 0, [⟨1, 50⟩, ⟨2, 60⟩, ⟨3, 70⟩]⟩

/-- Both bytes are mapped and the device answers, but the read of both is refused. And a row has a
slot for a column that is not mapped. -/
theorem striped_reads_fail_at_edges :
    (SortedDisjoint [lastChunk] ∧ Answers (constantDevices 7) (fun _ _ => 7) 1 ∧
      mapLogicalToStripes [lastChunk] 0 = .ok (some ⟨.single, 2, [⟨1, 2 ^ 64 - 2⟩]⟩) ∧
      mapLogicalToStripes [lastChunk] 1 = .ok (some ⟨.single, 1, [⟨1, 2 ^ 64 - 1⟩]⟩) ∧
      (constantDevices 7).readLogical [lastChunk] 0 2 =
        .error (.mapping (.invalidField "physical_offset" "read range overflow"))) ∧
    SortedDisjoint [halfRow] ∧
      mapLogicalToStripes [halfRow] 0 = .ok (some ⟨.raid5, 2, [⟨1, 50⟩]⟩) ∧
      (resolveRaid56Row [halfRow] 0).map (Option.map BtrfsRaid56Row.dataSlots) =
        .ok (some [⟨1, 50⟩, ⟨2, 60⟩]) ∧
      mapLogicalToStripes [halfRow] 2 = .ok none :=
  ⟨⟨List.pairwise_singleton _ _, ⟨_, rfl, fun _ _ => rfl⟩, rfl, rfl, rfl⟩,
    List.pairwise_singleton _ _, rfl, rfl, rfl⟩

end Whole

end FrankenFs.Btrfs
