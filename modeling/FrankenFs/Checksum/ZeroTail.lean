import FrankenFs.Checksum.Incremental

/-!
# The checksum of data that ends in zero bytes

The zero bytes are found from the end, 32 at a time and then one at a time, and the checksum of the
rest is shifted over them when they are many.
-/

namespace FrankenFs.Checksum

open FrankenFs.Lib

def skipZeroBlocks (buf : Bytes) (stop : Nat) : Nat :=
  if 32 ≤ stop then
    let base := stop - 32
    let word (o : Nat) := ofLe ((buf.drop (base + o)).take 8)
    if word 0 ||| word 8 ||| word 16 ||| word 24 ≠ 0 then stop else skipZeroBlocks buf base
  else stop
termination_by stop
decreasing_by omega

def skipZeroBytes (buf : Bytes) : Nat → Nat
  | 0 => 0
  | stop + 1 => if buf[stop]? = some 0 then skipZeroBytes buf stop else stop + 1

def lastNonzeroLen (buf : Bytes) : Nat := skipZeroBytes buf (skipZeroBlocks buf buf.length)

def ext4ChksumSkipZeroTail (seed : BitVec 32) (data : Bytes) : Except OutOfBounds (BitVec 32) :=
  let contentEnd := lastNonzeroLen data
  let zeroRun := data.length - contentEnd
  if 256 ≤ zeroRun then crc32cShiftBytes (ext4Chksum seed (data.take contentEnd)) zeroRun
  else .ok (ext4Chksum seed data)

variable {buf : Bytes} {stop : Nat}

def ZeroFrom (buf : Bytes) (start : Nat) : Prop := ∀ i byte, start ≤ i → buf[i]? = some byte → byte = 0

theorem ofLe_eq_zero {bytes : Bytes} (h : ofLe bytes = 0) {i : Nat} {byte : BitVec 8}
    (hbyte : bytes[i]? = some byte) : byte = 0 := by
  induction bytes generalizing i with
  | nil => cases hbyte
  | cons b rest ih =>
    rw [ofLe] at h
    cases i with
    | zero =>
      cases hbyte
      exact BitVec.eq_of_toNat_eq (by rw [show byte.toNat = 0 by omega]; rfl)
    | succ i => exact ih (by omega) hbyte

theorem skipZeroBlocks_zero (h : ZeroFrom buf stop) :
    skipZeroBlocks buf stop ≤ stop ∧ ZeroFrom buf (skipZeroBlocks buf stop) := by
  fun_induction skipZeroBlocks buf stop with
  | case1 stop hlong base word hne => exact ⟨Nat.le_refl _, h⟩
  | case2 stop hlong base word hzero ih =>
    rw [not_not, Nat.or_eq_zero_iff, Nat.or_eq_zero_iff, Nat.or_eq_zero_iff] at hzero
    obtain ⟨⟨⟨h0, h8⟩, h16⟩, h24⟩ := hzero
    have hword : ∀ o i byte, word o = 0 → base + o ≤ i → i < base + o + 8 → buf[i]? = some byte →
        byte = 0 := by
      intro o i byte hword hge hlt hbyte
      refine ofLe_eq_zero hword (i := i - (base + o)) ?_
      rw [List.getElem?_take_of_lt (by omega), List.getElem?_drop,
        Nat.add_sub_cancel' hge]
      exact hbyte
    have hbase : ZeroFrom buf base := by
      intro i byte hge hbyte
      by_cases hi0 : i < base + 8
      · exact hword 0 i byte h0 (by omega) (by omega) hbyte
      by_cases hi1 : i < base + 16
      · exact hword 8 i byte h8 (by omega) (by omega) hbyte
      by_cases hi2 : i < base + 24
      · exact hword 16 i byte h16 (by omega) (by omega) hbyte
      by_cases hi3 : i < base + 32
      · exact hword 24 i byte h24 (by omega) (by omega) hbyte
      · exact h i byte (by omega) hbyte
    have := ih hbase
    exact ⟨by omega, this.2⟩
  | case3 => exact ⟨Nat.le_refl _, h⟩

theorem skipZeroBytes_zero (h : ZeroFrom buf stop) :
    skipZeroBytes buf stop ≤ stop ∧ ZeroFrom buf (skipZeroBytes buf stop) := by
  induction stop with
  | zero => exact ⟨Nat.le_refl _, h⟩
  | succ stop ih =>
    unfold skipZeroBytes
    split_ifs with hlast
    · have hzero : ZeroFrom buf stop := by
        intro i byte hge hbyte
        rcases Nat.eq_or_lt_of_le hge with rfl | hlt
        · exact (Option.some.inj (hlast.symm.trans hbyte)).symm
        · exact h i byte hlt hbyte
      have := ih hzero
      exact ⟨by omega, this.2⟩
    · exact ⟨Nat.le_refl _, h⟩

theorem take_lastNonzeroLen (data : Bytes) :
    data = data.take (lastNonzeroLen data) ++
      List.replicate (data.length - lastNonzeroLen data) 0 := by
  have hend : ZeroFrom data data.length := by
    intro i byte hge hbyte
    have := (List.getElem?_eq_some_iff.mp hbyte).1
    omega
  have hblocks := skipZeroBlocks_zero hend
  have hbytes := skipZeroBytes_zero hblocks.2
  have hdrop : data.drop (lastNonzeroLen data) =
      List.replicate (data.length - lastNonzeroLen data) 0 := by
    refine List.eq_replicate_iff.mpr ⟨List.length_drop, fun byte hbyte => ?_⟩
    obtain ⟨i, hi⟩ := List.getElem?_of_mem hbyte
    rw [List.getElem?_drop] at hi
    exact hbytes.2 _ byte (Nat.le_add_right ..) hi
  rw [← hdrop, List.take_append_drop]

theorem ext4ChksumSkipZeroTail_eq (seed : BitVec 32) {data : Bytes} (h : data.length < 2 ^ 37) :
    ext4ChksumSkipZeroTail seed data = .ok (ext4Chksum seed data) := by
  unfold ext4ChksumSkipZeroTail
  dsimp only
  split_ifs
  · rw [crc32cShiftBytes_eq _ (by omega), ext4Chksum_eq, ext4Chksum_eq, ← crc32cUpdate_zeros,
      ← crc32cUpdate_append, ← take_lastNonzeroLen]
  · rfl

end FrankenFs.Checksum
