import Mathlib.Algebra.Group.Int.Defs
import Mathlib.Algebra.Group.Nat.Defs
import Mathlib.Tactic.Common

/-!
# Timestamps of an inode

The first word has the low 32 bits of the seconds, which readers sign-extend. The second has the
nanoseconds above two bits of epoch, which make up for the sign.
-/

namespace FrankenFs.Inode

structure Ext4Inode where
  atime : BitVec 32
  atimeExtra : BitVec 32
  mtime : BitVec 32
  mtimeExtra : BitVec 32
  ctime : BitVec 32
  ctimeExtra : BitVec 32
  version : BitVec 32
  versionHi : BitVec 32
deriving DecidableEq, Repr

/-! ## Reading -/

namespace Ext4Inode

def extraNsec (extra : BitVec 32) : BitVec 32 := extra >>> 2

def extraEpoch (extra : BitVec 32) : BitVec 32 := extra &&& 3

def timestampFull (base extra : BitVec 32) : BitVec 64 × BitVec 32 :=
  (base.signExtend 64 + ((extraEpoch extra).setWidth 64 <<< 32), extraNsec extra)

def atimeFull (inode : Ext4Inode) : BitVec 64 × BitVec 32 :=
  timestampFull inode.atime inode.atimeExtra

def mtimeFull (inode : Ext4Inode) : BitVec 64 × BitVec 32 :=
  timestampFull inode.mtime inode.mtimeExtra

def ctimeFull (inode : Ext4Inode) : BitVec 64 × BitVec 32 :=
  timestampFull inode.ctime inode.ctimeExtra

def versionFull (inode : Ext4Inode) : Nat := inode.version.toNat + inode.versionHi.toNat * 2 ^ 32

end Ext4Inode

/-! ## Writing -/

def clampedNsec (nsec : BitVec 32) : BitVec 32 := if nsec ≤ 999999999 then nsec else 999999999

def encodeExtraTimestamp (secs : BitVec 64) (nsec : BitVec 32) : BitVec 32 :=
  let epoch := ((secs - (secs.setWidth 32).signExtend 64).sshiftRight 32 &&& 3).setWidth 32
  epoch ||| clampedNsec nsec <<< 2

def nowSecsSigned (secs : BitVec 64) : BitVec 64 :=
  if secs.toNat < 2 ^ 63 then secs else BitVec.intMax 64

def bumpInodeVersion (inode : Ext4Inode) : Ext4Inode :=
  let current := inode.version.setWidth 64 ||| inode.versionHi.setWidth 64 <<< 32
  let next := current + 1
  { inode with version := next.setWidth 32, versionHi := (next >>> 32).setWidth 32 }

def setAtime (inode : Ext4Inode) (secs : BitVec 64) (nsec : BitVec 32) : Ext4Inode :=
  { inode with atime := secs.setWidth 32, atimeExtra := encodeExtraTimestamp secs nsec }

def touchAtime (inode : Ext4Inode) (secs : BitVec 64) (nsec : BitVec 32) : Ext4Inode :=
  setAtime inode (nowSecsSigned secs) nsec

def touchMtimeCtime (inode : Ext4Inode) (secs : BitVec 64) (nsec : BitVec 32) : Ext4Inode :=
  bumpInodeVersion
    { inode with
      mtime := secs.setWidth 32
      mtimeExtra := encodeExtraTimestamp (nowSecsSigned secs) nsec
      ctime := secs.setWidth 32
      ctimeExtra := encodeExtraTimestamp (nowSecsSigned secs) nsec }

def touchCtime (inode : Ext4Inode) (secs : BitVec 64) (nsec : BitVec 32) : Ext4Inode :=
  bumpInodeVersion
    { inode with
      ctime := secs.setWidth 32
      ctimeExtra := encodeExtraTimestamp (nowSecsSigned secs) nsec }

/-! ## Seconds -/

section Seconds

variable {secs : BitVec 64} (hlow : -2 ^ 31 ≤ secs.toInt) (hhigh : secs.toInt < 2 ^ 34 - 2 ^ 31)

include hlow hhigh in
theorem base_add_epoch : ∃ epoch : Nat, epoch < 4 ∧
    secs.toInt = (secs.setWidth 32).toInt + epoch * 2 ^ 32 := by
  refine ⟨((secs.toInt - (secs.setWidth 32).toInt) / 2 ^ 32).toNat, ?_⟩
  have hbits := secs.isLt
  rw [BitVec.toInt_setWidth, Int.bmod_def]
  rw [BitVec.toInt_eq_toNat_cond] at *
  split_ifs at * <;> omega

variable {epoch : Nat} (hepoch : epoch < 4)
  (hsecs : secs.toInt = (secs.setWidth 32).toInt + epoch * 2 ^ 32)

include hepoch hsecs in
theorem epoch_bits :
    ((secs - (secs.setWidth 32).signExtend 64).sshiftRight 32 &&& 3).toNat = epoch := by
  have hdiff : (secs - (secs.setWidth 32).signExtend 64).toInt = epoch * 2 ^ 32 := by
    rw [BitVec.toInt_sub, BitVec.toInt_signExtend_of_le (by decide), hsecs, Int.bmod_def]
    omega
  have hshift : ((secs - (secs.setWidth 32).signExtend 64).sshiftRight 32).toInt = epoch := by
    rw [BitVec.toInt_sshiftRight, hdiff, Int.shiftRight_eq_div_pow]
    omega
  have hnat : ((secs - (secs.setWidth 32).signExtend 64).sshiftRight 32).toNat = epoch := by
    have hbits := ((secs - (secs.setWidth 32).signExtend 64).sshiftRight 32).isLt
    rw [BitVec.toInt_eq_toNat_cond] at hshift
    split_ifs at hshift <;> omega
  rw [BitVec.toNat_and, hnat]
  exact (Nat.and_two_pow_sub_one_eq_mod epoch 2).trans (Nat.mod_eq_of_lt hepoch)

theorem clampedNsec_of_lt {nsec : BitVec 32} (h : nsec.toNat < 10 ^ 9) : clampedNsec nsec = nsec :=
  if_pos (BitVec.le_def.mpr (Nat.le_of_lt_succ h))

theorem clampedNsec_lt (nsec : BitVec 32) : (clampedNsec nsec).toNat < 10 ^ 9 := by
  unfold clampedNsec
  split_ifs with h
  · exact Nat.lt_succ_of_le (BitVec.le_def.mp h)
  · decide

include hepoch hsecs in
theorem encodeExtraTimestamp_toNat (nsec : BitVec 32) :
    (encodeExtraTimestamp secs nsec).toNat = (clampedNsec nsec).toNat * 4 + epoch := by
  have hlt := clampedNsec_lt nsec
  have hshift : (clampedNsec nsec <<< 2).toNat = (clampedNsec nsec).toNat <<< 2 := by
    rw [BitVec.toNat_shiftLeft, Nat.shiftLeft_eq, Nat.mod_eq_of_lt (by omega)]
  unfold encodeExtraTimestamp
  dsimp only
  rw [BitVec.toNat_or, BitVec.toNat_setWidth, epoch_bits hepoch hsecs, hshift,
    Nat.mod_eq_of_lt (by omega), Nat.or_comm, ← Nat.shiftLeft_add_eq_or_of_lt hepoch, Nat.shiftLeft_eq]

end Seconds

theorem timestampFull_encode {secs : BitVec 64} (hlow : -2 ^ 31 ≤ secs.toInt)
    (hhigh : secs.toInt < 2 ^ 34 - 2 ^ 31) (nsec : BitVec 32) :
    Ext4Inode.timestampFull (secs.setWidth 32) (encodeExtraTimestamp secs nsec) =
      (secs, clampedNsec nsec) := by
  obtain ⟨epoch, hepoch, hsecs⟩ := base_add_epoch hlow hhigh
  have hextra := encodeExtraTimestamp_toNat hepoch hsecs nsec
  have hnsecs : Ext4Inode.extraNsec (encodeExtraTimestamp secs nsec) = clampedNsec nsec := by
    apply BitVec.eq_of_toNat_eq
    unfold Ext4Inode.extraNsec
    rw [BitVec.toNat_ushiftRight, hextra, Nat.shiftRight_eq_div_pow]
    omega
  have hbits : (Ext4Inode.extraEpoch (encodeExtraTimestamp secs nsec)).toNat = epoch := by
    unfold Ext4Inode.extraEpoch
    rw [BitVec.toNat_and, hextra]
    refine (Nat.and_two_pow_sub_one_eq_mod _ 2).trans ?_
    omega
  have hhighBits : ((Ext4Inode.extraEpoch (encodeExtraTimestamp secs nsec)).setWidth 64 <<< 32).toInt =
      epoch * 2 ^ 32 := by
    have hnat : ((Ext4Inode.extraEpoch (encodeExtraTimestamp secs nsec)).setWidth 64 <<< 32).toNat =
        epoch * 2 ^ 32 := by
      rw [BitVec.toNat_shiftLeft, BitVec.toNat_setWidth, hbits, Nat.shiftLeft_eq]
      omega
    rw [BitVec.toInt_eq_toNat_of_lt (by omega), hnat]
    omega
  unfold Ext4Inode.timestampFull
  rw [hnsecs]
  refine Prod.ext (BitVec.eq_of_toInt_eq ?_) rfl
  show ((secs.setWidth 32).signExtend 64 + _ : BitVec 64).toInt = secs.toInt
  rw [BitVec.toInt_add, BitVec.toInt_signExtend_of_le (by decide), hhighBits, ← hsecs, Int.bmod_def]
  omega

/-! ## The inode -/

theorem nowSecsSigned_of_lt {secs : BitVec 64} (h : secs.toNat < 2 ^ 34 - 2 ^ 31) :
    nowSecsSigned secs = secs := if_pos (by omega)

theorem versionFull_bump (inode : Ext4Inode) :
    (bumpInodeVersion inode).versionFull = (inode.versionFull + 1) % 2 ^ 64 := by
  have hlo := inode.version.isLt
  have hhi := inode.versionHi.isLt
  have hjoin : (inode.version.setWidth 64 ||| inode.versionHi.setWidth 64 <<< 32).toNat =
      inode.versionFull := by
    have hshift : (inode.versionHi.setWidth 64 <<< 32).toNat = inode.versionHi.toNat <<< 32 := by
      rw [BitVec.toNat_shiftLeft, BitVec.toNat_setWidth, Nat.shiftLeft_eq, Nat.shiftLeft_eq]
      omega
    rw [BitVec.toNat_or, BitVec.toNat_setWidth, hshift, Nat.mod_eq_of_lt (by omega), Nat.or_comm,
      ← Nat.shiftLeft_add_eq_or_of_lt hlo, Nat.shiftLeft_eq, Ext4Inode.versionFull]
    omega
  have hnext : ((inode.version.setWidth 64 ||| inode.versionHi.setWidth 64 <<< 32) + 1).toNat =
      (inode.versionFull + 1) % 2 ^ 64 := by
    rw [BitVec.toNat_add, hjoin]
    rfl
  have hfull : ∀ next : BitVec 64, (next.setWidth 32).toNat + ((next >>> 32).setWidth 32).toNat * 2 ^ 32 =
      next.toNat := by
    intro next
    have hbits := next.isLt
    rw [BitVec.toNat_setWidth, BitVec.toNat_setWidth, BitVec.toNat_ushiftRight,
      Nat.shiftRight_eq_div_pow]
    omega
  unfold bumpInodeVersion Ext4Inode.versionFull
  exact (hfull _).trans hnext

/-- **Times survive the two words, and versions count across both halves.** -/
theorem timestamps_round_trip (secs : BitVec 64) (nsec : BitVec 32) (hlow : -2 ^ 31 ≤ secs.toInt)
    (hhigh : secs.toInt < 2 ^ 34 - 2 ^ 31) (inode : Ext4Inode) (now : BitVec 64)
    (hnow : now.toNat < 2 ^ 34 - 2 ^ 31) :
    (nsec.toNat < 10 ^ 9 →
      Ext4Inode.timestampFull (secs.setWidth 32) (encodeExtraTimestamp secs nsec) = (secs, nsec)) ∧
    (touchAtime inode now nsec).atimeFull = (now, clampedNsec nsec) ∧
    (touchCtime inode now nsec).ctimeFull = (now, clampedNsec nsec) ∧
    (touchMtimeCtime inode now nsec).mtimeFull = (now, clampedNsec nsec) ∧
    (touchMtimeCtime inode now nsec).ctimeFull = (now, clampedNsec nsec) ∧
    (bumpInodeVersion inode).versionFull = (inode.versionFull + 1) % 2 ^ 64 ∧
    (touchCtime inode now nsec).versionFull = (inode.versionFull + 1) % 2 ^ 64 ∧
    (touchMtimeCtime inode now nsec).versionFull = (inode.versionFull + 1) % 2 ^ 64 ∧
    (touchAtime inode now nsec).versionFull = inode.versionFull := by
  have hsigned : now.toInt = now.toNat := BitVec.toInt_eq_toNat_of_lt (by omega)
  have htouch := timestampFull_encode (by omega) (by omega : now.toInt < 2 ^ 34 - 2 ^ 31) nsec
  refine ⟨fun hnsec => ?_, ?_, ?_, ?_, ?_, versionFull_bump inode, ?_, ?_, rfl⟩
  · rw [timestampFull_encode hlow hhigh, clampedNsec_of_lt hnsec]
  · unfold touchAtime setAtime
    rw [nowSecsSigned_of_lt hnow]
    exact htouch
  · unfold touchCtime
    rw [nowSecsSigned_of_lt hnow]
    exact htouch
  · unfold touchMtimeCtime
    rw [nowSecsSigned_of_lt hnow]
    exact htouch
  · unfold touchMtimeCtime
    rw [nowSecsSigned_of_lt hnow]
    exact htouch
  · exact versionFull_bump _
  · exact versionFull_bump _

theorem timestamps_round_trip_sample :
    Ext4Inode.timestampFull ((-1 : BitVec 64).setWidth 32) (encodeExtraTimestamp (-1) 7) = (-1, 7) ∧
      (touchAtime ⟨0, 0, 0, 0, 0, 0, 0, 0⟩ 4000000000 7).atimeFull = (4000000000, 7) :=
  have h := timestamps_round_trip (-1) 7 (by decide) (by decide) ⟨0, 0, 0, 0, 0, 0, 0, 0⟩
    4000000000 (by decide)
  ⟨h.1 (by decide), h.2.1⟩

end FrankenFs.Inode
