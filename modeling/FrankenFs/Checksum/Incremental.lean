import FrankenFs.Lib.Crc32c
import FrankenFs.Lib.XorLinear

/-!
# Updating a checksum for a change inside the data

The checksums differ by that of the difference, shifted over the bytes after it. A shift by `2^k` zero
bits is a matrix; the table has 40 of them. Shifts of less than 65536 bytes take two matrices from two
further tables.
-/

namespace FrankenFs.Checksum

open FrankenFs.Lib

def poly : BitVec 32 := 0x82F63B78

def crc32cByteTable (i : BitVec 8) : BitVec 32 :=
  (List.range 8).foldl (fun c _ => if c &&& 1 ≠ 0 then (c >>> 1) ^^^ poly else c >>> 1)
    (i.zeroExtend 32)

def crc32c (data : Bytes) : BitVec 32 := crc32cAppend 0 data

def ext4Chksum (rawCrc : BitVec 32) (data : Bytes) : BitVec 32 := ~~~ crc32cAppend (~~~ rawCrc) data

abbrev Matrix := List (BitVec 32)

def gf2MatrixTimes (mat : Matrix) (vec : BitVec 32) : BitVec 32 :=
  mat.zipIdx.foldl (fun sum (row, i) =>
    let mask := 0 - ((vec >>> i) &&& 1)
    sum ^^^ (row &&& mask)) 0

def gf2MatrixSquare (mat : Matrix) : Matrix := mat.map (gf2MatrixTimes mat)

def gf2Identity : Matrix := (List.range 32).map fun n => 1 <<< n

def gf2MatrixMul (a b : Matrix) : Matrix := b.map (gf2MatrixTimes a)

def shiftOperator : Nat → Matrix
  | 0 => poly :: (List.range 31).map fun i => 1 <<< i
  | k + 1 => gf2MatrixSquare (shiftOperator k)

inductive OutOfBounds where
  | index
deriving DecidableEq

def shiftOperators (k : Nat) : Except OutOfBounds Matrix :=
  if k < 40 then .ok (shiftOperator k) else .error .index

def crc32cShiftBitsFrom (crc : BitVec 32) (zeroBits k : Nat) : Except OutOfBounds (BitVec 32) :=
  if zeroBits = 0 then .ok crc
  else if zeroBits % 2 = 1 then
    match shiftOperators k with
    | .error panic => .error panic
    | .ok op => crc32cShiftBitsFrom (gf2MatrixTimes op crc) (zeroBits / 2) (k + 1)
  else crc32cShiftBitsFrom crc (zeroBits / 2) (k + 1)
termination_by zeroBits

def crc32cShiftBits (crc : BitVec 32) (zeroBits : Nat) : Except OutOfBounds (BitVec 32) :=
  crc32cShiftBitsFrom crc zeroBits 0

def bitLen (bytes : Nat) : Nat := min (bytes * 8) (2 ^ 64 - 1)

def byteShiftOperators (op : Matrix) : Nat → Matrix
  | 0 => gf2Identity
  | j + 1 => gf2MatrixMul op (byteShiftOperators op j)

def crc32cShiftBytes (crc : BitVec 32) (zeroBytes : Nat) : Except OutOfBounds (BitVec 32) :=
  if 65536 ≤ zeroBytes then crc32cShiftBits crc (bitLen zeroBytes)
  else
    let lo := byteShiftOperators (shiftOperator 3)
    let hi := byteShiftOperators (shiftOperator 11)
    let c := gf2MatrixTimes (lo (zeroBytes % 256)) crc
    .ok (gf2MatrixTimes (hi (zeroBytes / 256)) c)

def rawCrc32c (data : Bytes) : Except OutOfBounds (BitVec 32) :=
  if data.length ≤ 16 then
    .ok (data.foldl (fun crc b => crc32cByteTable ((crc ^^^ b.zeroExtend 32).truncate 8) ^^^
      (crc >>> 8)) 0)
  else
    (crc32cShiftBits 0xFFFFFFFF (bitLen data.length)).map fun init =>
      crc32c data ^^^ 0xFFFFFFFF ^^^ init

def crc32cUpdateRegion (oldCrc : BitVec 32) (delta : Bytes) (suffixBytes : Nat) :
    Except OutOfBounds (BitVec 32) :=
  match rawCrc32c delta with
  | .error panic => .error panic
  | .ok raw => (crc32cShiftBytes raw suffixBytes).map (oldCrc ^^^ ·)

/-! ## The register is linear -/

theorem crc32cBit_linear : XorLinear crc32cBit := by
  intro a b
  unfold crc32cBit
  rw [BitVec.getLsbD_xor, BitVec.ushiftRight_xor_distrib]
  cases a.getLsbD 0 <;> cases b.getLsbD 0 <;>
    simp only [Bool.false_eq_true, Bool.xor_false, Bool.xor_true, Bool.not_true, Bool.not_false,
      if_true, if_false]
  · rw [BitVec.xor_assoc]
  · rw [BitVec.xor_assoc, BitVec.xor_comm (b >>> 1), BitVec.xor_assoc]
  · rw [BitVec.xor_assoc, BitVec.xor_comm 2197175160#32, BitVec.xor_assoc, BitVec.xor_self,
      BitVec.xor_zero]

theorem crc32cByte_eq (crc : BitVec 32) (byte : BitVec 8) :
    crc32cByte crc byte = crc32cBit^[8] (crc ^^^ byte.zeroExtend 32) := rfl

def xorBytes (a b : Bytes) : Bytes := List.zipWith (· ^^^ ·) a b

theorem crc32cUpdate_xor {a b : Bytes} (hlen : a.length = b.length) (s t : BitVec 32) :
    crc32cUpdate (s ^^^ t) (xorBytes a b) = crc32cUpdate s a ^^^ crc32cUpdate t b := by
  induction a generalizing b s t with
  | nil =>
    obtain rfl := List.length_eq_zero_iff.mp hlen.symm
    rfl
  | cons x a ih =>
    obtain ⟨y, b, rfl⟩ := List.exists_cons_of_length_eq_add_one hlen.symm
    have hbyte : crc32cByte (s ^^^ t) (x ^^^ y) = crc32cByte s x ^^^ crc32cByte t y := by
      have hsum : s ^^^ t ^^^ (x ^^^ y).zeroExtend 32 =
          (s ^^^ x.zeroExtend 32) ^^^ (t ^^^ y.zeroExtend 32) := by
        rw [BitVec.zeroExtend_eq_setWidth, BitVec.setWidth_xor, BitVec.xor_assoc, BitVec.xor_assoc,
          ← BitVec.xor_assoc t, BitVec.xor_comm t, BitVec.xor_assoc]
      rw [crc32cByte_eq, hsum, crc32cBit_linear.iterate 8]
      rfl
    have hrest := ih (Nat.succ.inj hlen) (crc32cByte s x) (crc32cByte t y)
    rw [← hbyte] at hrest
    exact hrest

theorem crc32cUpdate_zeros (crc : BitVec 32) (n : Nat) :
    crc32cUpdate crc (List.replicate n 0) = crc32cBit^[8 * n] crc := by
  induction n generalizing crc with
  | zero => rfl
  | succ n ih =>
    have hzero : crc32cByte crc 0 = crc32cBit^[8] crc := by
      rw [crc32cByte_eq]
      congr 1
      exact BitVec.xor_zero
    rw [List.replicate_succ, crc32cUpdate, List.foldl_cons, hzero, Nat.mul_succ,
      Function.iterate_add_apply]
    exact ih _

theorem crc32cUpdate_append (crc : BitVec 32) (a b : Bytes) :
    crc32cUpdate crc (a ++ b) = crc32cUpdate (crc32cUpdate crc a) b := List.foldl_append

theorem xorBytes_self (a : Bytes) : xorBytes a a = List.replicate a.length 0 := by
  induction a with
  | nil => rfl
  | cons x a ih =>
    rw [List.length_cons, List.replicate_succ, ← ih]
    exact congrArg (· :: _) BitVec.xor_self

variable {old new : Bytes}

/-- Where only a region differs, the checksums differ by the checksum of the difference, shifted
over what follows. -/
theorem crc32cUpdate_region (hlen : old.length = new.length) (crc : BitVec 32) (front back : Bytes)
    :
    crc32cUpdate crc (front ++ old ++ back) ^^^ crc32cUpdate crc (front ++ new ++ back) =
      crc32cBit^[8 * back.length] (crc32cUpdate 0 (xorBytes old new)) := by
  rw [crc32cUpdate_append, crc32cUpdate_append, crc32cUpdate_append crc (front ++ new),
    crc32cUpdate_append crc front]
  generalize crc32cUpdate crc front = start
  rw [← crc32cUpdate_xor rfl, xorBytes_self, crc32cUpdate_zeros, ← crc32cUpdate_xor hlen,
    BitVec.xor_self]
  rfl

/-! ## The matrices -/

theorem shift_and_one (vec : BitVec 32) (i : Nat) :
    (vec >>> i) &&& 1 = if vec.getLsbD i then 1 else 0 := by
  refine BitVec.eq_of_getLsbD_eq fun j hj => ?_
  rw [BitVec.getLsbD_and, BitVec.getLsbD_ushiftRight]
  rcases Nat.eq_zero_or_pos j with rfl | hpos
  · cases vec.getLsbD i <;> simp
  · have hbit : (1 : BitVec 32).getLsbD j = false := by
      rw [show (1 : BitVec 32) = BitVec.twoPow 32 0 from rfl, BitVec.getLsbD_twoPow]
      simp
      omega
    rw [hbit, Bool.and_false]
    split_ifs
    · exact hbit.symm
    · exact BitVec.getLsbD_zero.symm

theorem mask_eq (row vec : BitVec 32) (i : Nat) :
    row &&& (0 - ((vec >>> i) &&& 1)) = if vec.getLsbD i then row else 0 := by
  rw [shift_and_one]
  split_ifs
  · rw [show (0 : BitVec 32) - 1 = BitVec.allOnes 32 from rfl, BitVec.and_allOnes]
  · rw [show (0 : BitVec 32) - 0 = 0 from rfl]
    exact BitVec.and_zero

theorem gf2MatrixTimes_eq {mat : Matrix} {f : BitVec 32 → BitVec 32} (hmat : IsMatrixOf mat f)
    (hf : XorLinear f) (vec : BitVec 32) : gf2MatrixTimes mat vec = f vec := by
  rw [← addColumns_eq hmat hf vec]
  unfold gf2MatrixTimes addColumns
  simp only [mask_eq]

theorem isMatrixOf_identity : IsMatrixOf gf2Identity (fun a => a) where
  length := rfl
  column i column h := by
    unfold gf2Identity at h
    rw [List.getElem?_map, Option.map_eq_some_iff] at h
    obtain ⟨n, hn, rfl⟩ := h
    obtain ⟨hlt, hget⟩ := List.getElem?_eq_some_iff.mp hn
    rw [List.getElem_range] at hget
    subst hget
    rfl

theorem isMatrixOf_shiftOperator (k : Nat) :
    IsMatrixOf (shiftOperator k) (crc32cBit^[2 ^ k]) := by
  induction k with
  | zero =>
    have hcolumns : ∀ i < 32, (shiftOperator 0)[i]? = some (crc32cBit (BitVec.twoPow 32 i)) := by
      decide
    refine ⟨rfl, fun i column h => ?_⟩
    have hlt := (List.getElem?_eq_some_iff.mp h).1
    exact Option.some.inj (h.symm.trans (hcolumns i hlt))
  | succ k ih =>
    have hmap := ih.map (gf2MatrixTimes (shiftOperator k))
    have hcomp : (fun a => gf2MatrixTimes (shiftOperator k) (crc32cBit^[2 ^ k] a)) =
        crc32cBit^[2 ^ (k + 1)] := by
      funext a
      rw [gf2MatrixTimes_eq ih (crc32cBit_linear.iterate _), ← Function.iterate_add_apply,
        Nat.pow_succ, Nat.mul_two]
    rwa [hcomp] at hmap

theorem isMatrixOf_byteShiftOperators {op : Matrix} {f : BitVec 32 → BitVec 32}
    (hop : IsMatrixOf op f) (hf : XorLinear f) (j : Nat) :
    IsMatrixOf (byteShiftOperators op j) (f^[j]) := by
  induction j with
  | zero => exact isMatrixOf_identity
  | succ j ih =>
    have hmap := ih.map (gf2MatrixTimes op)
    have hcomp : (fun a => gf2MatrixTimes op (f^[j] a)) = f^[j + 1] := by
      funext a
      rw [gf2MatrixTimes_eq hop hf, Function.iterate_succ_apply']
    rwa [hcomp] at hmap

/-! ## The shifts -/

variable {zeroBits k : Nat}

theorem half_lt (hk : k < 40) (h : zeroBits < 2 ^ (40 - k)) :
    zeroBits / 2 < 2 ^ (40 - (k + 1)) := by
  rw [show 40 - k = 40 - (k + 1) + 1 by omega, Nat.pow_succ] at h
  omega

theorem crc32cShiftBitsFrom_eq {crc : BitVec 32} (hk : k ≤ 40) (h : zeroBits < 2 ^ (40 - k)) :
    crc32cShiftBitsFrom crc zeroBits k = .ok (crc32cBit^[zeroBits * 2 ^ k] crc) := by
  fun_induction crc32cShiftBitsFrom crc zeroBits k with
  | case1 => rw [Nat.zero_mul]; rfl
  | case2 crc zeroBits k hne hodd panic hop =>
    have hlt : ¬ k < 40 := fun hlt => by rw [shiftOperators, if_pos hlt] at hop; cases hop
    rw [show 40 - k = 0 by omega] at h
    omega
  | case3 crc zeroBits k hne hodd op hop ih =>
    unfold shiftOperators at hop
    split_ifs at hop with hlt
    cases hop
    have hbits : zeroBits / 2 * 2 ^ (k + 1) + 2 ^ k = zeroBits * 2 ^ k := by
      conv_rhs => rw [show zeroBits = zeroBits / 2 * 2 + 1 by omega]
      rw [Nat.pow_succ, Nat.mul_comm (2 ^ k), ← Nat.mul_assoc, Nat.add_mul, Nat.one_mul]
    rw [ih hlt (half_lt hlt h),
      gf2MatrixTimes_eq (isMatrixOf_shiftOperator k) (crc32cBit_linear.iterate _),
      ← Function.iterate_add_apply, hbits]
  | case4 crc zeroBits k hne heven ih =>
    have hlt : k < 40 := by
      by_contra hge
      rw [show 40 - k = 0 by omega] at h
      omega
    have hbits : zeroBits / 2 * 2 ^ (k + 1) = zeroBits * 2 ^ k := by
      conv_rhs => rw [show zeroBits = zeroBits / 2 * 2 by omega]
      rw [Nat.pow_succ, Nat.mul_comm (2 ^ k), ← Nat.mul_assoc]
    rw [ih hlt (half_lt hlt h), hbits]

theorem crc32cShiftBits_eq (crc : BitVec 32) (h : zeroBits < 2 ^ 40) :
    crc32cShiftBits crc zeroBits = .ok (crc32cBit^[zeroBits] crc) := by
  rw [crc32cShiftBits, crc32cShiftBitsFrom_eq (Nat.zero_le _) h, Nat.pow_zero, Nat.mul_one]

theorem bitLen_eq {bytes : Nat} (h : bytes < 2 ^ 37) : bitLen bytes = 8 * bytes := by
  unfold bitLen
  omega

theorem crc32cShiftBytes_eq (crc : BitVec 32) {zeroBytes : Nat} (h : zeroBytes < 2 ^ 37) :
    crc32cShiftBytes crc zeroBytes = .ok (crc32cBit^[8 * zeroBytes] crc) := by
  unfold crc32cShiftBytes
  split_ifs with hlong
  · rw [bitLen_eq h, crc32cShiftBits_eq crc (by omega)]
  · have hpower : ∀ k j v, gf2MatrixTimes (byteShiftOperators (shiftOperator k) j) v =
        crc32cBit^[2 ^ k * j] v := by
      intro k j v
      rw [gf2MatrixTimes_eq (isMatrixOf_byteShiftOperators (isMatrixOf_shiftOperator k)
        (crc32cBit_linear.iterate _) j) ((crc32cBit_linear.iterate _).iterate j),
        ← Function.iterate_mul]
    dsimp only
    rw [hpower, hpower, ← Function.iterate_add_apply,
      show 2 ^ 11 * (zeroBytes / 256) + 2 ^ 3 * (zeroBytes % 256) = 8 * zeroBytes by omega]

/-! ## The checksum of the difference -/

theorem crc32cBit_iterate_of_clear {v : BitVec 32} (h : ∀ i < k, v.getLsbD i = false) :
    crc32cBit^[k] v = v >>> k := by
  induction k with
  | zero => exact (BitVec.ushiftRight_zero ..).symm
  | succ k ih =>
    rw [Function.iterate_succ_apply', ih fun i hi => h i (by omega)]
    have hbit : (v >>> k).getLsbD 0 = false := by
      rw [BitVec.getLsbD_ushiftRight]
      exact h k (by omega)
    rw [crc32cBit, hbit, if_neg Bool.false_ne_true, ← BitVec.shiftRight_add]

theorem crc32cByteTable_eq (i : BitVec 8) :
    crc32cByteTable i = crc32cBit^[8] (i.zeroExtend 32) := by
  have hbit : ∀ c : BitVec 32,
      (if c &&& 1 ≠ 0 then (c >>> 1) ^^^ poly else c >>> 1) = crc32cBit c := by
    intro c
    have hlow : c &&& 1 ≠ 0 ↔ c.getLsbD 0 = true := by
      have hone := shift_and_one c 0
      rw [BitVec.ushiftRight_zero] at hone
      rw [hone]
      cases c.getLsbD 0 <;> decide
    unfold crc32cBit
    simp only [hlow]
    rfl
  unfold crc32cByteTable
  simp only [hbit]
  rfl

theorem byteStep_eq (crc : BitVec 32) (b : BitVec 8) :
    crc32cByteTable ((crc ^^^ b.zeroExtend 32).truncate 8) ^^^ (crc >>> 8) = crc32cByte crc b := by
  rw [crc32cByteTable_eq, crc32cByte_eq]
  generalize hx : crc ^^^ b.zeroExtend 32 = x
  have hsplit : x = (x.truncate 8).zeroExtend 32 ^^^ (x ^^^ (x.truncate 8).zeroExtend 32) := by
    rw [BitVec.xor_comm, BitVec.xor_assoc, BitVec.xor_self, BitVec.xor_zero]
  have hclear : ∀ i < 8, (x ^^^ (x.truncate 8).zeroExtend 32).getLsbD i = false := by
    intro i hi
    have hi32 : i < 32 := by omega
    simp [hi, hi32]
  have hhigh : (x ^^^ (x.truncate 8).zeroExtend 32) >>> 8 = crc >>> 8 := by
    refine BitVec.eq_of_getLsbD_eq fun i hi => ?_
    subst hx
    simp
  conv_rhs => rw [hsplit, crc32cBit_linear.iterate 8, crc32cBit_iterate_of_clear hclear, hhigh]

theorem rawCrc32c_eq {data : Bytes} (h : data.length < 2 ^ 37) :
    rawCrc32c data = .ok (crc32cUpdate 0 data) := by
  unfold rawCrc32c
  split_ifs with hshort
  · simp only [byteStep_eq]
    rfl
  · have hxor : xorBytes data (List.replicate data.length 0) = data := by
      refine List.ext_getElem (by simp [xorBytes]) fun i hi hi' => ?_
      simp [xorBytes]
    have hinit := @crc32cUpdate_xor data (List.replicate data.length 0) (by simp) 0 0xFFFFFFFF
    rw [hxor, show (0 : BitVec 32) ^^^ 0xFFFFFFFF = 0xFFFFFFFF from rfl] at hinit
    rw [bitLen_eq h, crc32cShiftBits_eq _ (by omega), ← crc32cUpdate_zeros]
    unfold crc32c crc32cAppend Except.map
    dsimp only
    rw [show ~~~ (0 : BitVec 32) = 0xFFFFFFFF from rfl, hinit,
      show (0xFFFFFFFF : BitVec 32) = BitVec.allOnes 32 from rfl, BitVec.xor_allOnes, BitVec.not_not,
      BitVec.xor_assoc, BitVec.xor_self, BitVec.xor_zero]

theorem crc32cUpdateRegion_ok (oldCrc : BitVec 32) {delta : Bytes} {suffixBytes : Nat}
    (hdelta : delta.length < 2 ^ 37) (hsuffix : suffixBytes < 2 ^ 37) :
    crc32cUpdateRegion oldCrc delta suffixBytes =
      .ok (oldCrc ^^^ crc32cBit^[8 * suffixBytes] (crc32cUpdate 0 delta)) := by
  unfold crc32cUpdateRegion
  rw [rawCrc32c_eq hdelta]
  dsimp only
  rw [crc32cShiftBytes_eq _ hsuffix]
  rfl

theorem ext4Chksum_eq (seed : BitVec 32) (data : Bytes) :
    ext4Chksum seed data = crc32cUpdate seed data := by
  unfold ext4Chksum crc32cAppend
  rw [BitVec.not_not, BitVec.not_not]

theorem crc32cUpdateRegion_ext4Chksum (hlen : old.length = new.length) (front back : Bytes)
    (hold : old.length < 2 ^ 37) (hback : back.length < 2 ^ 37) (seed : BitVec 32) :
    crc32cUpdateRegion (ext4Chksum seed (front ++ old ++ back)) (xorBytes old new) back.length =
      .ok (ext4Chksum seed (front ++ new ++ back)) := by
  have hdelta : (xorBytes old new).length < 2 ^ 37 := by
    rw [xorBytes, List.length_zipWith]
    omega
  rw [crc32cUpdateRegion_ok _ hdelta hback, ext4Chksum_eq, ext4Chksum_eq,
    ← crc32cUpdate_region hlen seed front back, ← BitVec.xor_assoc, BitVec.xor_self]
  exact congrArg _ BitVec.zero_xor

theorem take_eq_regions (bytes : Bytes) {first span len : Nat} (hlen : first + span ≤ len) :
    bytes.take len =
      bytes.take first ++ (bytes.drop first).take span ++ (bytes.take len).drop (first + span) := by
  rw [← List.take_add]
  conv_lhs => rw [← List.take_append_drop (first + span) (bytes.take len)]
  rw [List.take_take, Nat.min_eq_left hlen]

theorem crc32cUpdateRegion_slices {first span len : Nat} (hlen : old.length = new.length)
    (hregion : first + span ≤ len) (hfits : len ≤ old.length) (hspan : span < 2 ^ 37)
    (hsuffix : len - (first + span) < 2 ^ 37) (hfront : old.take first = new.take first)
    (hback : old.drop (first + span) = new.drop (first + span)) (seed : BitVec 32) :
    crc32cUpdateRegion (ext4Chksum seed (old.take len))
        (xorBytes ((old.drop first).take span) ((new.drop first).take span))
        (len - (first + span)) =
      .ok (ext4Chksum seed (new.take len)) := by
  have hback' : (old.take len).drop (first + span) = (new.take len).drop (first + span) := by
    rw [List.drop_take, List.drop_take, hback]
  have hlast : ((new.take len).drop (first + span)).length = len - (first + span) := by
    rw [List.length_drop, List.length_take]
    omega
  rw [take_eq_regions old hregion, take_eq_regions new hregion, hfront, hback', ← hlast]
  refine crc32cUpdateRegion_ext4Chksum ?_ _ _ ?_ ?_ seed
  · rw [List.length_take, List.length_take, List.length_drop, List.length_drop, hlen]
  · rw [List.length_take]
    omega
  · rwa [hlast]

theorem crc32cUpdateRegion_append (hlen : old.length = new.length) (front back : Bytes)
    (hold : old.length < 2 ^ 37) (hback : back.length < 2 ^ 37) (crc : BitVec 32) :
    crc32cUpdateRegion (crc32cAppend crc (front ++ old ++ back)) (xorBytes old new) back.length =
      .ok (crc32cAppend crc (front ++ new ++ back)) := by
  have hdelta : (xorBytes old new).length < 2 ^ 37 := by
    rw [xorBytes, List.length_zipWith]
    omega
  have hnot : ∀ a b : BitVec 32, ~~~ a ^^^ b = ~~~ (a ^^^ b) := fun a b => BitVec.not_xor_left.symm
  unfold crc32cAppend
  rw [crc32cUpdateRegion_ok _ hdelta hback, hnot, ← crc32cUpdate_region hlen _ front back,
    ← BitVec.xor_assoc, BitVec.xor_self]
  exact congrArg (fun c => Except.ok (~~~ c)) BitVec.zero_xor

/-! ## Behind the table -/

theorem crc32cShiftBitsFrom_error (crc : BitVec 32) {j : Nat} (h : j + k = 40) :
    crc32cShiftBitsFrom crc (2 ^ j) k = .error .index := by
  induction j generalizing k with
  | zero =>
    obtain rfl : k = 40 := by omega
    unfold crc32cShiftBitsFrom
    rfl
  | succ j ih =>
    have hhalf : 2 ^ (j + 1) / 2 = 2 ^ j := by rw [Nat.pow_succ]; omega
    rw [crc32cShiftBitsFrom, if_neg (by positivity), if_neg (by rw [Nat.pow_succ]; omega), hhalf]
    exact ih (by omega)

theorem crc32cUpdateRegion_long (crc : BitVec 32) {delta : Bytes} (h : delta.length < 2 ^ 37) :
    crc32cUpdateRegion crc delta (2 ^ 37) = .error .index := by
  unfold crc32cUpdateRegion
  rw [rawCrc32c_eq h]
  dsimp only
  unfold crc32cShiftBytes
  rw [if_pos (by decide), crc32cShiftBits, show bitLen (2 ^ 37) = 2 ^ 40 by decide,
    crc32cShiftBitsFrom_error _ rfl]
  rfl

end FrankenFs.Checksum
