import FrankenFs.Checksum.ZeroTail
import FrankenFs.Alloc.Geometry

/-!
# The checksum of a bitmap after a run of bits was flipped

The difference of the bitmaps is the mask of the run, from which the checksum is brought up to date.
-/

namespace FrankenFs.Alloc

open FrankenFs.Lib FrankenFs.Checksum

def incrementalBitmapCsumMaxDeltaBytes : Nat := 128

inductive BitmapChecksumUpdate where
  | unchanged
  | incremental (startBit bitCount : Nat)
  | full
deriving DecidableEq

def bitmapGet (bitmap : Bytes) (idx : Nat) : Bool :=
  match bitmap[idx / 8]? with
  | none => true
  | some byte => byte.getLsbD (idx % 8)

def bitmapChecksumUpdateFromFlippedBitRange (startBit bitCount checksumBits : Nat) :
    BitmapChecksumUpdate :=
  if bitCount = 0 ∨ checksumBits ≤ startBit then .unchanged
  else
    let checksumLen := checksumBits / 8
    let endBit := startBit + bitCount
    if u32Max < endBit then .full
    else if checksumBits < endBit then .full
    else
      let first := startBit / 8
      let lastExclusive := divCeil endBit 8
      if lastExclusive ≤ first then .unchanged
      else if checksumLen < lastExclusive then .full
      else
        let width := lastExclusive - first
        if incrementalBitmapCsumMaxDeltaBytes < width ∨ checksumLen / 32 < width then .full
        else .incremental startBit bitCount

def fillFlippedBitDelta (span localStart bitCount : Nat) : Bytes :=
  if localStart = 0 ∧ bitCount % 8 = 0 then List.replicate span 0xFF
  else
    (List.range' localStart bitCount).foldl
      (fun delta bit => delta.modify (bit / 8) (· ||| (1 <<< (bit % 8)))) (List.replicate span 0)

def bitmapChecksumIncrementalFromFlippedBitRange (existingChecksum : BitVec 32)
    (startBit bitCount checksumBits : Nat) : Except OutOfBounds (Option (BitVec 32)) :=
  if bitCount = 0 ∨ checksumBits ≤ startBit then .ok (some existingChecksum)
  else
    let checksumLen := checksumBits / 8
    let endBit := startBit + bitCount
    if u32Max < endBit then .ok none
    else if checksumBits < endBit then .ok none
    else
      let byteStart := startBit / 8
      let byteEnd := divCeil endBit 8
      if byteEnd ≤ byteStart ∨ checksumLen < byteEnd then .ok none
      else
        let span := byteEnd - byteStart
        if incrementalBitmapCsumMaxDeltaBytes < span ∨ checksumLen / 32 < span then .ok none
        else
          let localStart := startBit % 8
          let suffix := checksumLen - byteEnd
          (crc32cUpdateRegion existingChecksum (fillFlippedBitDelta span localStart bitCount)
            suffix).map some

def ext4BitmapChecksum (rawBitmap : Bytes) (csumSeed : BitVec 32) (checksumLen : Nat) :
    Except OutOfBounds (BitVec 32) :=
  ext4ChksumSkipZeroTail csumSeed (rawBitmap.take (min checksumLen rawBitmap.length))

def bitmapChecksumValue (rawBitmap : Bytes) (csumSeed : BitVec 32) (unitsPerGroup descSize : Nat) :
    Except OutOfBounds (BitVec 32) :=
  (ext4BitmapChecksum rawBitmap csumSeed (unitsPerGroup / 8)).map fun csum =>
    if 64 ≤ descSize then csum else csum &&& 0xFFFF

def stampBitmapChecksumFromOverride (bitmap : Bytes) (checksumUpdate : BitmapChecksumUpdate)
    (existingChecksum : BitVec 32) (existingUninit : Bool) (csumSeed : BitVec 32)
    (checksumBits descSize : Nat) : Except OutOfBounds (BitVec 32) :=
  let stampFull := bitmapChecksumValue bitmap csumSeed checksumBits descSize
  if 64 ≤ descSize ∧ existingUninit = false then
    match checksumUpdate with
    | .unchanged => .ok existingChecksum
    | .incremental startBit bitCount =>
      match bitmapChecksumIncrementalFromFlippedBitRange existingChecksum startBit bitCount
        checksumBits with
      | .error panic => .error panic
      | .ok (some checksum) => .ok checksum
      | .ok none => stampFull
    | .full => stampFull
  else stampFull

/-! ## The difference of the bitmaps -/

structure Flips (old new : Bytes) (startBit bitCount : Nat) : Prop where
  length : old.length = new.length
  bit : ∀ i < 8 * old.length, bitmapGet new i =
    (bitmapGet old i ^^ decide (startBit ≤ i ∧ i < startBit + bitCount))

/-- Bytes that have the bits of a run set. -/
def MasksRun (delta : Bytes) (localStart bitCount : Nat) : Prop :=
  ∀ k byte, delta[k]? = some byte → ∀ i < 8,
    byte.getLsbD i = decide (localStart ≤ 8 * k + i ∧ 8 * k + i < localStart + bitCount)

theorem getLsbD_eq_bitmapGet {bitmap : Bytes} {k i : Nat} {byte : BitVec 8}
    (hbyte : bitmap[k]? = some byte) (hi : i < 8) :
    byte.getLsbD i = bitmapGet bitmap (8 * k + i) := by
  unfold bitmapGet
  rw [show (8 * k + i) / 8 = k by omega, show (8 * k + i) % 8 = i by omega, hbyte]

section Difference

variable {old new : Bytes} {startBit bitCount : Nat}

theorem Flips.getElem?_eq (h : Flips old new startBit bitCount) {k : Nat}
    (hk : ∀ i < 8, ¬ (startBit ≤ 8 * k + i ∧ 8 * k + i < startBit + bitCount)) :
    old[k]? = new[k]? := by
  by_cases hlt : k < old.length
  · have hlt' : k < new.length := h.length ▸ hlt
    have hold := List.getElem?_eq_getElem hlt
    have hnew := List.getElem?_eq_getElem hlt'
    rw [hold, hnew]
    refine congrArg some (BitVec.eq_of_getLsbD_eq fun i hi => ?_)
    rw [getLsbD_eq_bitmapGet hold hi, getLsbD_eq_bitmapGet hnew hi, h.bit _ (by omega),
      decide_eq_false (hk i hi), Bool.xor_false]
  · rw [List.getElem?_eq_none (by omega), List.getElem?_eq_none (by rw [← h.length]; omega)]

theorem Flips.take_eq (h : Flips old new startBit bitCount) {stop : Nat}
    (hstop : ∀ k < stop, ∀ i < 8,
      ¬ (startBit ≤ 8 * k + i ∧ 8 * k + i < startBit + bitCount)) :
    old.take stop = new.take stop := by
  refine List.ext_getElem? fun k => ?_
  rw [List.getElem?_take, List.getElem?_take]
  split_ifs with hk
  · exact h.getElem?_eq (hstop k hk)
  · rfl

theorem Flips.drop_eq (h : Flips old new startBit bitCount) {start : Nat}
    (hstart : startBit + bitCount ≤ 8 * start) : old.drop start = new.drop start := by
  refine List.ext_getElem? fun k => ?_
  rw [List.getElem?_drop, List.getElem?_drop]
  exact h.getElem?_eq fun i hi => by omega

theorem masksRun_replicate_zero (span localStart : Nat) :
    MasksRun (List.replicate span 0) localStart 0 := by
  intro k byte hbyte i hi
  obtain rfl := (List.mem_replicate.mp (List.mem_of_getElem? hbyte)).2
  rw [decide_eq_false (by omega)]
  exact BitVec.getLsbD_zero

theorem one_shift_bit : ∀ n < 8, ∀ i < 8, (1 <<< n : BitVec 8).getLsbD i = decide (i = n) := by
  decide

theorem MasksRun.next {delta : Bytes} {localStart count : Nat} (h : MasksRun delta localStart count) :
    MasksRun (delta.modify ((localStart + count) / 8)
      (· ||| (1 <<< ((localStart + count) % 8)))) localStart (count + 1) := by
  intro k byte hbyte i hi
  rw [List.getElem?_modify] at hbyte
  obtain ⟨b, hb, hmod⟩ := Option.map_eq_some_iff.mp hbyte
  have hbit := h k b hb i hi
  split_ifs at hmod with hk
  · subst hmod hk
    have hone : (1 <<< ((localStart + count) % 8) : BitVec 8).getLsbD i =
        decide (i = (localStart + count) % 8) :=
      one_shift_bit _ (Nat.mod_lt _ (by decide)) i hi
    rw [BitVec.getLsbD_or, hbit, hone, ← Bool.decide_or]
    exact decide_eq_decide.mpr (by omega)
  · subst hmod
    rw [hbit]
    exact decide_eq_decide.mpr (by omega)

theorem length_fillFlippedBitDelta (span localStart count : Nat) :
    (fillFlippedBitDelta span localStart count).length = span := by
  unfold fillFlippedBitDelta
  split_ifs with hwhole
  · exact List.length_replicate
  · clear hwhole
    induction count with
    | zero => exact List.length_replicate
    | succ count ih =>
      rw [List.range'_concat, List.foldl_append, List.foldl_cons, List.foldl_nil,
        List.length_modify, ih]

theorem fillFlippedBitDelta_masks {span localStart count : Nat}
    (hspan : span = divCeil (localStart + count) 8) :
    MasksRun (fillFlippedBitDelta span localStart count) localStart count := by
  unfold fillFlippedBitDelta
  split_ifs with hwhole
  · intro k byte hbyte i hi
    obtain ⟨hlt, hget⟩ := List.getElem?_eq_some_iff.mp hbyte
    rw [List.getElem_replicate] at hget
    rw [List.length_replicate] at hlt
    unfold divCeil at hspan
    subst hget
    rw [show (0xFF : BitVec 8) = BitVec.allOnes 8 from rfl, BitVec.getLsbD_allOnes]
    exact decide_eq_decide.mpr (by omega)
  · clear hspan hwhole
    induction count with
    | zero => exact masksRun_replicate_zero span localStart
    | succ count ih =>
      rw [List.range'_concat, List.foldl_append, List.foldl_cons, List.foldl_nil, Nat.one_mul]
      exact ih.next

theorem Flips.xorBytes_eq (h : Flips old new startBit bitCount) {delta : Bytes} {first span : Nat}
    (hfirst : first = startBit / 8) (hdelta : MasksRun delta (startBit % 8) bitCount)
    (hlength : delta.length = span) (hfits : first + span ≤ old.length) :
    xorBytes ((old.drop first).take span) ((new.drop first).take span) = delta := by
  have hnew : first + span ≤ new.length := h.length ▸ hfits
  refine List.ext_getElem? fun k => ?_
  by_cases hk : k < span
  · have holdByte := List.getElem?_eq_getElem (show first + k < old.length by omega)
    have hnewByte := List.getElem?_eq_getElem (show first + k < new.length by omega)
    have hdeltaByte := List.getElem?_eq_getElem (show k < delta.length by omega)
    unfold xorBytes
    rw [List.getElem?_zipWith, List.getElem?_take_of_lt hk, List.getElem?_take_of_lt hk,
      List.getElem?_drop, List.getElem?_drop, holdByte, hnewByte, hdeltaByte]
    refine congrArg some (BitVec.eq_of_getLsbD_eq fun i hi => ?_)
    have hrun : (startBit ≤ 8 * (first + k) + i ∧ 8 * (first + k) + i < startBit + bitCount) ↔
        startBit % 8 ≤ 8 * k + i ∧ 8 * k + i < startBit % 8 + bitCount := by omega
    rw [BitVec.getLsbD_xor, getLsbD_eq_bitmapGet holdByte hi, getLsbD_eq_bitmapGet hnewByte hi,
      h.bit _ (by omega), hdelta k _ hdeltaByte i hi, ← Bool.xor_assoc, Bool.xor_self,
      Bool.false_xor]
    exact decide_eq_decide.mpr hrun
  · rw [List.getElem?_eq_none, List.getElem?_eq_none (by omega)]
    unfold xorBytes
    rw [List.length_zipWith, List.length_take]
    omega

end Difference

/-! ## The checksum -/

section Checksum

variable {old new : Bytes} {startBit bitCount checksumBits : Nat}

theorem ext4BitmapChecksum_eq {bitmap : Bytes} (seed : BitVec 32)
    (hbits : checksumBits ≤ u32Max) (hlen : checksumBits / 8 ≤ bitmap.length) :
    ext4BitmapChecksum bitmap seed (checksumBits / 8) =
      .ok (ext4Chksum seed (bitmap.take (checksumBits / 8))) := by
  unfold ext4BitmapChecksum
  rw [Nat.min_eq_left hlen, ext4ChksumSkipZeroTail_eq]
  rw [List.length_take]
  unfold u32Max at hbits
  omega

theorem Flips.unchanged (h : Flips old new startBit bitCount)
    (hout : bitCount = 0 ∨ checksumBits ≤ startBit) :
    old.take (checksumBits / 8) = new.take (checksumBits / 8) := by
  refine h.take_eq fun k hk i hi => ?_
  omega

theorem crc32cUpdateRegion_flips (h : Flips old new startBit bitCount) (seed : BitVec 32)
    (hbits : checksumBits ≤ u32Max) (hlen : checksumBits / 8 ≤ old.length)
    (hend : divCeil (startBit + bitCount) 8 ≤ checksumBits / 8)
    (hspan : divCeil (startBit + bitCount) 8 - startBit / 8 ≤ incrementalBitmapCsumMaxDeltaBytes) :
    crc32cUpdateRegion (ext4Chksum seed (old.take (checksumBits / 8)))
        (fillFlippedBitDelta (divCeil (startBit + bitCount) 8 - startBit / 8) (startBit % 8) bitCount)
        (checksumBits / 8 - divCeil (startBit + bitCount) 8) =
      .ok (ext4Chksum seed (new.take (checksumBits / 8))) := by
  have hnew := h.length
  unfold u32Max at hbits
  unfold incrementalBitmapCsumMaxDeltaBytes at hspan
  have hfirst : startBit / 8 ≤ divCeil (startBit + bitCount) 8 := by
    unfold divCeil
    omega
  have hmask : divCeil (startBit + bitCount) 8 - startBit / 8 =
      divCeil (startBit % 8 + bitCount) 8 := by
    unfold divCeil
    omega
  have hlast : startBit + bitCount ≤ 8 * divCeil (startBit + bitCount) 8 := by
    unfold divCeil
    omega
  generalize divCeil (startBit + bitCount) 8 = last at *
  have hsum : startBit / 8 + (last - startBit / 8) = last := by omega
  have hfront : old.take (startBit / 8) = new.take (startBit / 8) :=
    h.take_eq fun k hk i hi => by omega
  have hxor := h.xorBytes_eq rfl (fillFlippedBitDelta_masks hmask)
    (length_fillFlippedBitDelta ..) (by omega)
  have hslices := crc32cUpdateRegion_slices hnew
    (show startBit / 8 + (last - startBit / 8) ≤ checksumBits / 8 by omega) hlen (by omega)
    (by omega) hfront (by rw [hsum, h.drop_eq hlast]) seed
  rwa [hsum, hxor] at hslices

theorem accepted_update_eq (h : Flips old new startBit bitCount) (seed : BitVec 32)
    (hbits : checksumBits ≤ u32Max) (hlen : checksumBits / 8 ≤ old.length) :
    match bitmapChecksumUpdateFromFlippedBitRange startBit bitCount checksumBits with
    | .unchanged => ext4Chksum seed (new.take (checksumBits / 8)) =
        ext4Chksum seed (old.take (checksumBits / 8))
    | .incremental startBit bitCount =>
      bitmapChecksumIncrementalFromFlippedBitRange (ext4Chksum seed (old.take (checksumBits / 8)))
        startBit bitCount checksumBits = .ok (some (ext4Chksum seed (new.take (checksumBits / 8))))
    | .full => True := by
  unfold bitmapChecksumUpdateFromFlippedBitRange
  by_cases hout : bitCount = 0 ∨ checksumBits ≤ startBit
  · rw [if_pos hout]
    dsimp only
    rw [h.unchanged hout]
  rw [if_neg hout]
  dsimp only
  by_cases hover : u32Max < startBit + bitCount
  · rw [if_pos hover]
    trivial
  by_cases hpast : checksumBits < startBit + bitCount
  · rw [if_neg hover, if_pos hpast]
    trivial
  have hsome : ¬ divCeil (startBit + bitCount) 8 ≤ startBit / 8 := by
    unfold divCeil
    omega
  rw [if_neg hover, if_neg hpast, if_neg hsome]
  by_cases hlast : checksumBits / 8 < divCeil (startBit + bitCount) 8
  · rw [if_pos hlast]
    trivial
  rw [if_neg hlast]
  split_ifs with hwidth
  · trivial
  · dsimp only
    unfold bitmapChecksumIncrementalFromFlippedBitRange
    dsimp only
    rw [if_neg hout, if_neg hover, if_neg hpast, if_neg (by omega), if_neg hwidth,
      crc32cUpdateRegion_flips h seed hbits hlen (by omega) (by omega)]
    rfl

theorem stampBitmapChecksumFromOverride_eq (h : Flips old new startBit bitCount)
    (hbits : checksumBits ≤ u32Max) (hlen : checksumBits / 8 ≤ old.length) (seed : BitVec 32)
    (existingUninit : Bool) (descSize : Nat) {existing : BitVec 32}
    (hexisting : bitmapChecksumValue old seed checksumBits descSize = .ok existing) :
    stampBitmapChecksumFromOverride new
        (bitmapChecksumUpdateFromFlippedBitRange startBit bitCount checksumBits) existing
        existingUninit seed checksumBits descSize =
      bitmapChecksumValue new seed checksumBits descSize := by
  have hnew : checksumBits / 8 ≤ new.length := h.length ▸ hlen
  have haccepted := accepted_update_eq h seed hbits hlen
  unfold stampBitmapChecksumFromOverride
  dsimp only
  split_ifs with hwide
  · unfold bitmapChecksumValue at *
    rw [ext4BitmapChecksum_eq seed hbits hlen] at hexisting
    rw [ext4BitmapChecksum_eq seed hbits hnew]
    unfold Except.map at *
    dsimp only at *
    rw [if_pos hwide.1] at hexisting ⊢
    cases hexisting
    generalize bitmapChecksumUpdateFromFlippedBitRange startBit bitCount checksumBits = update
      at haccepted ⊢
    cases update with
    | unchanged => exact congrArg Except.ok haccepted.symm
    | incremental startBit bitCount =>
      dsimp only at haccepted ⊢
      rw [haccepted]
    | full => rfl
  · rfl

end Checksum

/-- **A checksum that is brought up to date is the checksum of the new data**: for a run of flipped
bits of a bitmap, in the descriptor and wherever an update is accepted, and for any change of a
region. -/
theorem incrementalChecksum_exact :
    (∀ old new startBit bitCount checksumBits, Flips old new startBit bitCount →
      checksumBits ≤ u32Max → checksumBits / 8 ≤ old.length → ∀ seed : BitVec 32,
      (match bitmapChecksumUpdateFromFlippedBitRange startBit bitCount checksumBits with
        | .unchanged => ext4Chksum seed (new.take (checksumBits / 8)) =
            ext4Chksum seed (old.take (checksumBits / 8))
        | .incremental startBit bitCount =>
          bitmapChecksumIncrementalFromFlippedBitRange
            (ext4Chksum seed (old.take (checksumBits / 8))) startBit bitCount checksumBits =
              .ok (some (ext4Chksum seed (new.take (checksumBits / 8))))
        | .full => True) ∧
      ∀ existingUninit descSize existing,
        bitmapChecksumValue old seed checksumBits descSize = .ok existing →
        stampBitmapChecksumFromOverride new
            (bitmapChecksumUpdateFromFlippedBitRange startBit bitCount checksumBits) existing
            existingUninit seed checksumBits descSize =
          bitmapChecksumValue new seed checksumBits descSize) ∧
    ∀ front old new back : Bytes, old.length = new.length → old.length < 2 ^ 37 →
      back.length < 2 ^ 37 → ∀ crc,
      crc32cUpdateRegion (crc32cAppend crc (front ++ old ++ back)) (xorBytes old new) back.length =
        .ok (crc32cAppend crc (front ++ new ++ back)) ∧
      crc32cUpdateRegion (ext4Chksum crc (front ++ old ++ back)) (xorBytes old new) back.length =
        .ok (ext4Chksum crc (front ++ new ++ back)) := by
  refine ⟨fun old new startBit bitCount checksumBits h hbits hlen seed => ⟨?_, ?_⟩, ?_⟩
  · exact accepted_update_eq h seed hbits hlen
  · exact fun existingUninit descSize existing hexisting =>
      stampBitmapChecksumFromOverride_eq h hbits hlen seed existingUninit descSize hexisting
  · exact fun front old new back hlen hold hback crc =>
      ⟨crc32cUpdateRegion_append hlen front back hold hback crc,
        crc32cUpdateRegion_ext4Chksum hlen front back hold hback crc⟩

theorem incrementalChecksum_exact_four :
    bitmapChecksumUpdateFromFlippedBitRange 6 4 512 = .incremental 6 4 ∧
      bitmapChecksumIncrementalFromFlippedBitRange (ext4Chksum 7 (List.replicate 64 0)) 6 4 512 =
        .ok (some (ext4Chksum 7 ([0xC0, 0x03] ++ List.replicate 62 0))) := by
  have hflips : Flips (List.replicate 64 0) ([0xC0, 0x03] ++ List.replicate 62 0) 6 4 :=
    ⟨rfl, by decide +kernel⟩
  exact ⟨by decide, (incrementalChecksum_exact.1 _ _ 6 4 512 hflips (by decide) (by decide) 7).1⟩

/-- A bitmap that is shorter than its checksum, and a change before 2^37 bytes. -/
theorem incrementalChecksum_short_or_long :
    (Flips [0x00] [0x01] 0 1 ∧
      bitmapChecksumUpdateFromFlippedBitRange 0 1 256 = .incremental 0 1 ∧
      bitmapChecksumIncrementalFromFlippedBitRange (ext4Chksum 0 ([0x00].take 32)) 0 1 256 ≠
        .ok (some (ext4Chksum 0 ([0x01].take 32)))) ∧
    crc32cUpdateRegion (crc32c ([0x00] ++ List.replicate (2 ^ 37) 0)) (xorBytes [0x00] [0x01])
      (List.replicate (2 ^ 37) (0 : BitVec 8)).length = .error .index := by
  refine ⟨⟨⟨rfl, by decide⟩, by decide, by decide +kernel⟩, ?_⟩
  rw [List.length_replicate]
  exact crc32cUpdateRegion_long _ (by decide)

end FrankenFs.Alloc
