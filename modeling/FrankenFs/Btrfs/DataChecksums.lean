import FrankenFs.Btrfs.CowTree
import Mathlib.Data.List.Pairwise

/-!
# Checksums of data extents

The items of the checksum tree hold the digests of consecutive sectors, under the address of the
first one. A lookup counts sectors from the item that begins last at or before its address.
-/

open FrankenFs.Lib

namespace FrankenFs.Btrfs

/-! ## Digests -/

structure Digests where
  crc32c : Bytes → BitVec 32
  xxh64 : Bytes → BitVec 64
  sha256 : Bytes → { digest : Bytes // digest.length = 32 }
  blake2b : Bytes → { digest : Bytes // digest.length = 32 }

def btrfsMaxImplCsumSize : Nat := 32

def btrfsDataCsumSize (csumType : Nat) : Option Nat :=
  match csumType with
  | 0 => some 4
  | 1 => some 8
  | 2 => some 32
  | 3 => some 32
  | _ => none

def csumField (digest : Bytes) : Bytes :=
  digest ++ List.replicate (btrfsMaxImplCsumSize - digest.length) 0

def btrfsDataCsum (algorithms : Digests) (csumType : Nat) (sector : Bytes) : Option Bytes :=
  match csumType with
  | 0 => some (csumField (toLe 4 (algorithms.crc32c sector).toNat))
  | 1 => some (csumField (toLe 8 (algorithms.xxh64 sector).toNat))
  | 2 => some (csumField (algorithms.sha256 sector).val)
  | 3 => some (csumField (algorithms.blake2b sector).val)
  | _ => none

/-! ## Items -/

def btrfsExtentCsumObjectid : Nat := 0xFFFFFFFFFFFFFFF6

def btrfsItemExtentCsum : Nat := 128

def extentCsumKey (diskBytenr : Nat) : BtrfsKey :=
  ⟨btrfsExtentCsumObjectid, btrfsItemExtentCsum, diskBytenr⟩

abbrev CsumItem := BtrfsKey × Bytes

def sectorAt (sectorsize : Nat) (data : Bytes) (i : Nat) : Bytes :=
  (data.drop (i * sectorsize)).take sectorsize

/-- `data.chunks_exact(sectorsize)` -/
def chunksExact (sectorsize : Nat) (data : Bytes) : List Bytes :=
  (List.range (data.length / sectorsize)).map (sectorAt sectorsize data)

section Build

variable (algorithms : Digests)

def buildExtentCsumItem (diskBytenr : Nat) (data : Bytes) (sectorsize csumType : Nat) :
    Except BtrfsMutationError CsumItem := do
  failIf (sectorsize = 0) (.invalidConfig "sectorsize must be non-zero")
  failIf (data = [] ∨ data.length % sectorsize ≠ 0)
    (.invalidConfig "data must be a positive whole multiple of sectorsize")
  let csumSize ← okOr (btrfsDataCsumSize csumType) (.invalidConfig
    "unsupported btrfs csum_type: only CRC32C (0) and XXHASH64 (1) are implemented")
  let csums ← (chunksExact sectorsize data).mapM fun sector =>
    okOr (btrfsDataCsum algorithms csumType sector) (.invalidConfig "unsupported btrfs csum_type")
  return (extentCsumKey diskBytenr, (csums.map (·.take csumSize)).flatten)

/-- The loop of `build_extent_csum_items`. A slice has less than `2 ^ 63` bytes, so `offset` and
`chunkBytes` have a sum of 64 bits in every round. -/
def buildFrom (diskBytenr : Nat) (data : Bytes) (sectorsize chunkBytes csumType : Nat) :
    (fuel offset : Nat) → Except BtrfsMutationError (List CsumItem)
  | 0, _ => .ok []
  | fuel + 1, offset =>
    if offset < data.length then do
      let stop := min (offset + chunkBytes) data.length
      failIf (2 ^ 64 ≤ diskBytenr + offset) (.invalidConfig "extent disk bytenr overflows")
      let item ← buildExtentCsumItem algorithms (diskBytenr + offset)
        ((data.drop offset).take (stop - offset)) sectorsize csumType
      let rest ← buildFrom diskBytenr data sectorsize chunkBytes csumType fuel stop
      return item :: rest
    else .ok []

def buildExtentCsumItems (diskBytenr : Nat) (data : Bytes)
    (sectorsize maxCsumsPerItem csumType : Nat) : Except BtrfsMutationError (List CsumItem) := do
  failIf (maxCsumsPerItem = 0) (.invalidConfig "max_csums_per_item must be non-zero")
  failIf (2 ^ 64 ≤ maxCsumsPerItem * sectorsize)
    (.invalidConfig "max_csums_per_item * sectorsize overflows")
  failIf (maxCsumsPerItem * sectorsize = 0) (.invalidConfig "sectorsize must be non-zero")
  failIf (data = [] ∨ data.length % sectorsize ≠ 0)
    (.invalidConfig "data must be a positive whole multiple of sectorsize")
  buildFrom algorithms diskBytenr data sectorsize (maxCsumsPerItem * sectorsize) csumType
    data.length 0

end Build

/-! ## Lookup and verification -/

def isExtentCsum (item : CsumItem) : Bool :=
  item.1.itemType == btrfsItemExtentCsum && item.1.objectid == btrfsExtentCsumObjectid

def digestIn (item : CsumItem) (diskBytenr sectorsize csumSize : Nat) : Option Bytes :=
  let delta := diskBytenr - item.1.offset
  let base := delta / sectorsize * csumSize
  if item.1.offset ≤ diskBytenr ∧ delta % sectorsize = 0 ∧ base < 2 ^ 64 ∧
      base + csumSize < 2 ^ 64 ∧ base + csumSize ≤ item.2.length then
    some ((item.2.drop base).take csumSize)
  else none

/-- The items are sorted, so `partition_point` is the end of those that begin at or before the
address. -/
def lookupDataBlockCsum (items : List CsumItem) (diskBytenr sectorsize csumSize : Nat) :
    Option Bytes :=
  if sectorsize = 0 ∨ csumSize = 0 then none
  else
    ((items.takeWhile fun item => decide (item.1.offset ≤ diskBytenr)).reverse.find?
      isExtentCsum).bind fun item => digestIn item diskBytenr sectorsize csumSize

structure CsumMismatch where
  sectorIndex : Nat
  expected : Bytes
  actual : Bytes
  csumSize : Nat
deriving DecidableEq

section Verify

variable (algorithms : Digests)

def verifyFrom (expectedCsums : Bytes) (csumSize csumType : Nat) :
    (index : Nat) → List Bytes → Except (Except BtrfsMutationError CsumMismatch) Unit
  | _, [] => .ok ()
  | index, sector :: sectors => do
    let actual ← okOr (btrfsDataCsum algorithms csumType sector)
      (.error (.invalidConfig "unsupported btrfs csum_type"))
    let recorded := (expectedCsums.drop (index * csumSize)).take csumSize
    failIf (actual.take csumSize ≠ recorded)
      (.ok ⟨index, csumField recorded, actual, csumSize⟩)
    verifyFrom expectedCsums csumSize csumType (index + 1) sectors

def verifyExtentCsum (data : Bytes) (sectorsize : Nat) (expectedCsums : Bytes) (csumType : Nat) :
    Except (Except BtrfsMutationError CsumMismatch) Unit := do
  failIf (sectorsize = 0) (.error (.invalidConfig "sectorsize must be non-zero"))
  failIf (data = [] ∨ data.length % sectorsize ≠ 0)
    (.error (.invalidConfig "data must be a positive whole multiple of sectorsize"))
  let csumSize ← okOr (btrfsDataCsumSize csumType) (.error (.invalidConfig
    "unsupported btrfs csum_type: only CRC32C (0) and XXHASH64 (1) are implemented"))
  failIf (expectedCsums.length ≠ data.length / sectorsize * csumSize)
    (.error (.invalidConfig "expected_csums length does not match sector count"))
  verifyFrom algorithms expectedCsums csumSize csumType 0 (chunksExact sectorsize data)

end Verify

/-! ## Sectors and digests -/

def digestOf (algorithms : Digests) (csumType csumSize : Nat) (sector : Bytes) : Bytes :=
  ((btrfsDataCsum algorithms csumType sector).getD []).take csumSize

def sectorDigest (algorithms : Digests) (csumType csumSize sectorsize : Nat) (data : Bytes) (i : Nat) :
    Bytes :=
  digestOf algorithms csumType csumSize (sectorAt sectorsize data i)

section Supported

variable {csumType w : Nat} (hw : btrfsDataCsumSize csumType = some w)

include hw in
theorem csumType_cases : (csumType = 0 ∧ w = 4) ∨ (csumType = 1 ∧ w = 8) ∨
    (csumType = 2 ∧ w = 32) ∨ (csumType = 3 ∧ w = 32) := by
  unfold btrfsDataCsumSize at hw
  split at hw <;> simp_all

include hw in
theorem csumSize_bounds : 0 < w ∧ w ≤ 32 := by
  rcases csumType_cases hw with h | h | h | h <;> omega

theorem length_csumField {digest : Bytes} (h : digest.length ≤ 32) :
    (csumField digest).length = 32 := by
  rw [csumField, List.length_append, List.length_replicate, btrfsMaxImplCsumSize]
  omega

include hw in
theorem btrfsDataCsum_eq (algorithms : Digests) (sector : Bytes) :
    ∃ csum, btrfsDataCsum algorithms csumType sector = some csum ∧ csum.length = 32 := by
  have hle : ∀ k n, k ≤ 32 → (csumField (toLe k n)).length = 32 :=
    fun k n hk => length_csumField (by rw [length_toLe]; exact hk)
  have hwhole : ∀ digest : { digest : Bytes // digest.length = 32 },
      (csumField digest.val).length = 32 := fun digest => length_csumField digest.property.le
  rcases csumType_cases hw with ⟨rfl, -⟩ | ⟨rfl, -⟩ | ⟨rfl, -⟩ | ⟨rfl, -⟩
  · exact ⟨_, rfl, hle 4 _ (by omega)⟩
  · exact ⟨_, rfl, hle 8 _ (by omega)⟩
  · exact ⟨_, rfl, hwhole _⟩
  · exact ⟨_, rfl, hwhole _⟩

include hw in
theorem length_digestOf (algorithms : Digests) (sector : Bytes) :
    (digestOf algorithms csumType w sector).length = w := by
  obtain ⟨csum, hcsum, hlength⟩ := btrfsDataCsum_eq hw algorithms sector
  rw [digestOf, hcsum, Option.getD_some, List.length_take, hlength]
  exact Nat.min_eq_left (csumSize_bounds hw).2

end Supported

section Sectors

variable {s : Nat}

theorem sectorAt_append_left {xs ys : Bytes} {i : Nat} (h : (i + 1) * s ≤ xs.length) :
    sectorAt s (xs ++ ys) i = sectorAt s xs i := by
  rw [Nat.succ_mul] at h
  unfold sectorAt
  rw [List.drop_append_of_le_length (by omega), List.take_append_of_le_length]
  rw [List.length_drop]
  omega

theorem sectorAt_append_right {xs ys : Bytes} {n : Nat} (h : xs.length = n * s) (i : Nat) :
    sectorAt s (xs ++ ys) (n + i) = sectorAt s ys i := by
  unfold sectorAt
  rw [Nat.add_mul, ← h, List.drop_append, Nat.add_sub_cancel_left,
    List.drop_eq_nil_of_le (Nat.le_add_right _ _), List.nil_append]

theorem chunksExact_append (hs : 0 < s) {xs : Bytes} {n : Nat} (h : xs.length = n * s) (ys : Bytes) :
    chunksExact s (xs ++ ys) = chunksExact s xs ++ chunksExact s ys := by
  unfold chunksExact
  have hcount : (xs ++ ys).length / s = n + ys.length / s := by
    rw [List.length_append, h, Nat.add_comm, Nat.add_mul_div_right _ _ hs, Nat.add_comm]
  have hfirst : xs.length / s = n := by rw [h, Nat.mul_div_cancel _ hs]
  rw [hcount, hfirst, List.range_add, List.map_append, List.map_map]
  congr 1
  · refine List.map_congr_left fun i hi => sectorAt_append_left ?_
    rw [h]
    exact Nat.mul_le_mul_right s (List.mem_range.mp hi)
  · exact List.map_congr_left fun i _ => sectorAt_append_right h i

end Sectors

/-! ## Runs of digests -/

/-- The items hold the digests of consecutive sectors from an address on. -/
def Runs (s limit : Nat) : (start : Nat) → List Bytes → List CsumItem → Prop
  | _, digests, [] => digests = []
  | start, digests, item :: items => ∃ run rest, digests = run ++ rest ∧ run ≠ [] ∧
      run.length ≤ limit ∧ item = (extentCsumKey start, run.flatten) ∧
      Runs s limit (start + run.length * s) rest items

section Packed

variable {w : Nat} {digests : List Bytes} (hlength : ∀ digest ∈ digests, digest.length = w)

include hlength in
theorem length_packed : digests.flatten.length = digests.length * w := by
  induction digests with
  | nil => simp
  | cons digest digests ih =>
    rw [List.flatten_cons, List.length_append, hlength digest List.mem_cons_self,
      ih fun d hd => hlength d (List.mem_cons_of_mem _ hd), List.length_cons, Nat.succ_mul,
      Nat.add_comm]

include hlength in
theorem slice_packed {i : Nat} {digest : Bytes} (h : digests[i]? = some digest) :
    (digests.flatten.drop (i * w)).take w = digest := by
  induction digests generalizing i with
  | nil => simp at h
  | cons first digests ih =>
    have hfirst := hlength first List.mem_cons_self
    cases i with
    | zero =>
      obtain rfl : first = digest := by simpa using h
      rw [Nat.zero_mul, List.drop_zero, List.flatten_cons, ← hfirst, List.take_left]
    | succ i =>
      rw [Nat.succ_mul, Nat.add_comm, ← List.drop_drop, List.flatten_cons, ← hfirst, List.drop_left,
        hfirst]
      exact ih (fun d hd => hlength d (List.mem_cons_of_mem _ hd)) (by simpa using h)

end Packed

def Records (s w : Nat) (item : CsumItem) (addr : Nat) (digest : Bytes) : Prop :=
  ∃ i, addr = item.1.offset + i * s ∧ (i + 1) * w ≤ item.2.length ∧
    digest = (item.2.drop (i * w)).take w

def itemEnd (s w : Nat) (item : CsumItem) : Nat := item.1.offset + item.2.length / w * s

theorem records_run {s w start : Nat} (hw : 0 < w) {run : List Bytes}
    (hlength : ∀ digest ∈ run, digest.length = w) {addr : Nat} {digest : Bytes} :
    Records s w (extentCsumKey start, run.flatten) addr digest ↔
      ∃ i, addr = start + i * s ∧ run[i]? = some digest := by
  have hpacked := length_packed hlength
  refine exists_congr fun i => and_congr_right fun _ => ?_
  rw [hpacked, Nat.mul_le_mul_right_iff hw]
  constructor
  · rintro ⟨hi, rfl⟩
    obtain ⟨digest, hdigest⟩ : ∃ digest, run[i]? = some digest :=
      ⟨run[i], List.getElem?_eq_getElem (by omega)⟩
    rw [slice_packed hlength hdigest, hdigest]
  · intro h
    exact ⟨(List.getElem?_eq_some_iff.mp h).1, (slice_packed hlength h).symm⟩

namespace Runs

variable {s limit w start : Nat} {digests : List Bytes} {items : List CsumItem}

theorem values (h : Runs s limit start digests items) :
    items.flatMap Prod.snd = digests.flatten := by
  induction items generalizing start digests with
  | nil => rw [show digests = [] from h]; rfl
  | cons item items ih =>
    obtain ⟨run, rest, rfl, -, -, rfl, h⟩ := h
    rw [List.flatMap_cons, ih h, List.flatten_append]

section Sizes

variable (hw : 0 < w) (hlength : ∀ digest ∈ digests, digest.length = w)

include hw hlength in
theorem item_spec (h : Runs s limit start digests items) {item : CsumItem} (hitem : item ∈ items) :
    item.1 = extentCsumKey item.1.offset ∧ start ≤ item.1.offset ∧
      itemEnd s w item ≤ start + digests.length * s ∧
      ∃ m, 0 < m ∧ m ≤ limit ∧ m ≤ digests.length ∧ item.2.length = m * w := by
  induction items generalizing start digests with
  | nil => cases hitem
  | cons first items ih =>
    obtain ⟨run, rest, rfl, hrun, hlimit, rfl, h⟩ := h
    have hpacked := length_packed fun d hd => hlength d (List.mem_append_left _ hd)
    have hcount : (run ++ rest).length = run.length + rest.length := List.length_append
    rcases List.mem_cons.mp hitem with rfl | hitem
    · refine ⟨rfl, Nat.le_refl _, ?_, run.length, List.length_pos_of_ne_nil hrun, hlimit, by omega,
        hpacked⟩
      rw [itemEnd, hpacked, Nat.mul_div_cancel _ hw, hcount, Nat.add_mul]
      exact Nat.add_le_add_left (Nat.le_add_right _ _) _
    · obtain ⟨hkey, hstart, hend, m, hpos, hle, hall, hm⟩ :=
        ih (fun d hd => hlength d (List.mem_append_right _ hd)) h hitem
      refine ⟨hkey, by omega, ?_, m, hpos, hle, by omega, hm⟩
      rw [hcount, Nat.add_mul]
      omega

include hw hlength in
theorem separated (h : Runs s limit start digests items) :
    items.Pairwise fun a b => itemEnd s w a ≤ b.1.offset := by
  induction items generalizing start digests with
  | nil => exact List.Pairwise.nil
  | cons first items ih =>
    obtain ⟨run, rest, rfl, -, -, rfl, h⟩ := h
    have hpacked := length_packed fun d hd => hlength d (List.mem_append_left _ hd)
    have hrest : ∀ digest ∈ rest, digest.length = w :=
      fun d hd => hlength d (List.mem_append_right _ hd)
    refine List.Pairwise.cons (fun item hitem => ?_) (ih hrest h)
    rw [itemEnd, hpacked, Nat.mul_div_cancel _ hw]
    exact (item_spec hw hrest h hitem).2.1

include hw hlength in
theorem records_iff (h : Runs s limit start digests items) {addr : Nat} {digest : Bytes} :
    (∃ item ∈ items, Records s w item addr digest) ↔
      ∃ i, addr = start + i * s ∧ digests[i]? = some digest := by
  induction items generalizing start digests with
  | nil =>
    rw [show digests = [] from h]
    simp
  | cons first items ih =>
    obtain ⟨run, rest, rfl, -, -, rfl, h⟩ := h
    rw [List.exists_mem_cons_iff, records_run hw fun d hd => hlength d (List.mem_append_left _ hd),
      ih (fun d hd => hlength d (List.mem_append_right _ hd)) h]
    constructor
    · rintro (⟨i, rfl, hi⟩ | ⟨i, rfl, hi⟩)
      · exact ⟨i, rfl, (List.getElem?_append_left (List.getElem?_eq_some_iff.mp hi).1).trans hi⟩
      · refine ⟨run.length + i, by rw [Nat.add_mul, Nat.add_assoc], ?_⟩
        rw [List.getElem?_append_right (Nat.le_add_right _ _), Nat.add_sub_cancel_left, hi]
    · rintro ⟨i, rfl, hi⟩
      rcases Nat.lt_or_ge i run.length with hlt | hge
      · exact Or.inl ⟨i, rfl, (List.getElem?_append_left hlt).symm.trans hi⟩
      · refine Or.inr ⟨i - run.length, ?_, (List.getElem?_append_right hge).symm.trans hi⟩
        rw [Nat.add_assoc, ← Nat.add_mul, Nat.add_sub_cancel' hge]

end Sizes

end Runs

/-! ## Lookup -/

section Lookup

variable {s w : Nat} (hs : 0 < s) (hw : 0 < w)

include hs in
theorem digestIn_eq {item : CsumItem} {addr : Nat} (hsize : item.2.length < 2 ^ 64) {digest : Bytes} :
    digestIn item addr s w = some digest ↔ Records s w item addr digest := by
  unfold digestIn
  rw [Option.ite_none_right_eq_some]
  constructor
  · rintro ⟨⟨hle, haligned, -, -, hfits⟩, hdigest⟩
    injection hdigest with hdigest
    refine ⟨(addr - item.1.offset) / s, ?_, ?_, hdigest.symm⟩
    · rw [Nat.div_mul_cancel (Nat.dvd_of_mod_eq_zero haligned)]
      omega
    · rw [Nat.succ_mul]
      exact hfits
  · rintro ⟨i, rfl, hfits, rfl⟩
    rw [Nat.add_sub_cancel_left, Nat.mul_div_cancel i hs, Nat.mul_mod_left]
    rw [Nat.succ_mul] at hfits
    exact ⟨⟨by omega, rfl, by omega, by omega, hfits⟩, rfl⟩

theorem Records.bounds {item : CsumItem} {addr : Nat} {digest : Bytes} (hs : 0 < s) (hw : 0 < w)
    (h : Records s w item addr digest) : item.1.offset ≤ addr ∧ addr < itemEnd s w item := by
  obtain ⟨i, rfl, hfits, -⟩ := h
  refine ⟨Nat.le_add_right _ _, Nat.add_lt_add_left ?_ _⟩
  exact Nat.mul_lt_mul_of_pos_right ((Nat.le_div_iff_mul_le hw).mpr hfits) hs

include hs hw in
theorem lookupDataBlockCsum_eq {items : List CsumItem}
    (hkeys : ∀ item ∈ items, isExtentCsum item = true)
    (hsorted : items.Pairwise fun a b => itemEnd s w a ≤ b.1.offset)
    (hsize : ∀ item ∈ items, item.2.length < 2 ^ 64) {addr : Nat} {digest : Bytes} :
    lookupDataBlockCsum items addr s w = some digest ↔
      ∃ item ∈ items, Records s w item addr digest := by
  unfold lookupDataBlockCsum
  rw [if_neg (by omega)]
  have hsplit := List.takeWhile_append_dropWhile
    (p := fun item : CsumItem => decide (item.1.offset ≤ addr)) (l := items)
  -- the items behind begin after the address
  have hbehind : ∀ item ∈ items.dropWhile fun item => decide (item.1.offset ≤ addr),
      ¬ Records s w item addr digest := by
    intro item hitem hrecords
    have hle := (hrecords.bounds hs hw).1
    have hpairs := hsorted.sublist (List.dropWhile_sublist fun item => decide (item.1.offset ≤ addr))
    have hfirst := List.head?_dropWhile_not (fun item : CsumItem => decide (item.1.offset ≤ addr)) items
    cases hdrop : items.dropWhile fun item => decide (item.1.offset ≤ addr) with
    | nil =>
      rw [hdrop] at hitem
      cases hitem
    | cons first rest =>
      rw [hdrop] at hfirst hitem hpairs
      have hfirst : ¬ first.1.offset ≤ addr := of_decide_eq_false hfirst
      rcases List.mem_cons.mp hitem with rfl | hitem
      · exact hfirst hle
      · have hafter := (List.pairwise_cons.mp hpairs).1 item hitem
        have : first.1.offset ≤ itemEnd s w first := Nat.le_add_right _ _
        omega
  rcases List.eq_nil_or_concat (items.takeWhile fun item => decide (item.1.offset ≤ addr)) with
    hnil | ⟨before, last, hlast⟩
  · rw [hnil]
    rw [hnil, List.nil_append] at hsplit
    rw [hsplit] at hbehind
    simp only [List.reverse_nil, List.find?_nil, Option.bind_none, reduceCtorEq, false_iff]
    rintro ⟨item, hitem, hrecords⟩
    exact hbehind item hitem hrecords
  · have hmem : last ∈ items := by
      rw [← hsplit, hlast]
      simp
    rw [hlast, List.concat_eq_append, List.reverse_append, List.reverse_singleton, List.singleton_append,
      List.find?_cons_of_pos (hkeys last hmem), Option.bind_some, digestIn_eq hs (hsize last hmem)]
    constructor
    · intro hrecords
      exact ⟨last, hmem, hrecords⟩
    · rintro ⟨item, hitem, hrecords⟩
      rw [← hsplit, List.mem_append, hlast, List.concat_eq_append, List.mem_append,
        List.mem_singleton] at hitem
      rcases hitem with (hitem | rfl) | hitem
      · have hpairs := hsorted.sublist
          (List.takeWhile_sublist fun item => decide (item.1.offset ≤ addr))
        rw [hlast, List.concat_eq_append, List.pairwise_append] at hpairs
        have hbefore := hpairs.2.2 item hitem last List.mem_cons_self
        have hreach : last.1.offset ≤ addr := by
          have hin : last ∈ items.takeWhile fun item => decide (item.1.offset ≤ addr) := by
            rw [hlast]
            simp
          exact of_decide_eq_true (List.all_eq_true.mp List.all_takeWhile last hin)
        have := (hrecords.bounds hs hw).2
        omega
      · exact hrecords
      · exact absurd hrecords (hbehind item hitem)

end Lookup

/-! ## What is built -/

section Built

variable (algorithms : Digests) {csumType w s : Nat}
variable (hw : btrfsDataCsumSize csumType = some w) (hs : 0 < s)

def digestsOf (algorithms : Digests) (csumType w s : Nat) (data : Bytes) : List Bytes :=
  (chunksExact s data).map (digestOf algorithms csumType w)

theorem length_digestsOf (data : Bytes) :
    (digestsOf algorithms csumType w s data).length = data.length / s := by
  simp [digestsOf, chunksExact]

theorem getElem?_digestsOf (data : Bytes) (i : Nat) {digest : Bytes} :
    (digestsOf algorithms csumType w s data)[i]? = some digest ↔
      i < data.length / s ∧ digest = sectorDigest algorithms csumType w s data i := by
  rw [digestsOf, chunksExact, List.map_map, List.getElem?_map]
  by_cases hi : i < data.length / s
  · simp [hi, eq_comm, sectorDigest]
  · simp [hi]

include hw in
theorem length_of_mem_digestsOf (data : Bytes) :
    ∀ digest ∈ digestsOf algorithms csumType w s data, digest.length = w := by
  intro digest hdigest
  obtain ⟨sector, -, rfl⟩ := List.mem_map.mp hdigest
  exact length_digestOf hw algorithms sector

include hw hs in
theorem buildExtentCsumItem_eq {data : Bytes} (hdata : data ≠ []) (haligned : data.length % s = 0)
    (start : Nat) : buildExtentCsumItem algorithms start data s csumType =
      .ok (extentCsumKey start, (digestsOf algorithms csumType w s data).flatten) := by
  have hcsums : ((chunksExact s data).mapM fun sector => okOr
        (btrfsDataCsum algorithms csumType sector)
        (BtrfsMutationError.invalidConfig "unsupported btrfs csum_type")) =
      .ok ((chunksExact s data).map fun sector =>
        (btrfsDataCsum algorithms csumType sector).getD []) := by
    refine mapM_eq_ok.mpr (List.forall₂_map_right_iff.mpr (List.forall₂_same.mpr fun sector _ => ?_))
    obtain ⟨csum, hcsum, -⟩ := btrfsDataCsum_eq hw algorithms sector
    rw [hcsum]
    rfl
  unfold buildExtentCsumItem
  rw [failIf_of_not (by omega), failIf_of_not (by simp [hdata, haligned]), hw]
  simp only [okOr, Option.elim, ok_bind] at hcsums ⊢
  rw [hcsums, ok_bind, List.map_map]
  rfl

include hw hs in
theorem buildFrom_runs {limit start : Nat} (hlimit : 0 < limit) {data : Bytes}
    (haligned : data.length % s = 0) (hend : start + data.length < 2 ^ 64) (fuel : Nat) {offset : Nat}
    (hoffset : offset % s = 0) (hle : offset ≤ data.length) (hfuel : data.length - offset ≤ fuel) :
    ∃ items, buildFrom algorithms start data s (limit * s) csumType fuel offset = .ok items ∧
      Runs s limit (start + offset) (digestsOf algorithms csumType w s (data.drop offset)) items := by
  induction fuel generalizing offset with
  | zero =>
    refine ⟨[], rfl, ?_⟩
    rw [List.drop_eq_nil_of_le (by omega)]
    simp [Runs, digestsOf, chunksExact]
  | succ fuel ih =>
    unfold buildFrom
    by_cases hmore : offset < data.length
    · rw [if_pos hmore]
      obtain ⟨stop, hstop⟩ : ∃ stop, stop = min (offset + limit * s) data.length := ⟨_, rfl⟩
      obtain ⟨chunk, hchunk⟩ : ∃ chunk, chunk = (data.drop offset).take (stop - offset) := ⟨_, rfl⟩
      have hpos := Nat.mul_pos hlimit hs
      have hlength : chunk.length = stop - offset := by
        rw [hchunk, List.length_take, List.length_drop]
        omega
      have hstopped : stop % s = 0 := by
        rw [hstop, Nat.min_def]
        split
        · rw [Nat.add_mul_mod_self_right, hoffset]
        · exact haligned
      have hchunkAligned : chunk.length % s = 0 := by
        rw [hlength]
        exact Nat.sub_mod_eq_zero_of_mod_eq (hstopped.trans hoffset.symm)
      have hwhole : chunk.length = chunk.length / s * s :=
        (Nat.div_mul_cancel (Nat.dvd_of_mod_eq_zero hchunkAligned)).symm
      have hdata : data.drop offset = chunk ++ data.drop stop := by
        rw [hchunk]
        conv_lhs => rw [← List.take_append_drop (stop - offset) (data.drop offset)]
        rw [List.drop_drop, Nat.add_sub_cancel' (by omega)]
      obtain ⟨items, hitems, hruns⟩ := ih hstopped (by omega) (by omega)
      refine ⟨(extentCsumKey (start + offset), (digestsOf algorithms csumType w s chunk).flatten) :: items,
        ?_, digestsOf algorithms csumType w s chunk, digestsOf algorithms csumType w s (data.drop stop),
        ?_, ?_, ?_, rfl, ?_⟩
      · simp only [← hstop, ← hchunk]
        rw [failIf_of_not (by omega), ok_bind, buildExtentCsumItem_eq algorithms hw hs
          (List.ne_nil_of_length_pos (by omega)) hchunkAligned, ok_bind, hitems]
        rfl
      · rw [hdata, digestsOf, chunksExact_append hs hwhole, List.map_append]
        rfl
      · refine List.ne_nil_of_length_pos ?_
        rw [length_digestsOf]
        exact Nat.div_pos (Nat.le_of_dvd (by omega) (Nat.dvd_of_mod_eq_zero hchunkAligned)) hs
      · rw [length_digestsOf, Nat.div_le_iff_le_mul_add_pred hs]
        rw [Nat.mul_comm] at hstop
        omega
      · rw [length_digestsOf, ← hwhole, hlength]
        rw [show start + offset + (stop - offset) = start + stop by omega]
        exact hruns
    · rw [if_neg hmore]
      refine ⟨[], rfl, ?_⟩
      rw [List.drop_eq_nil_of_le (by omega)]
      simp [Runs, digestsOf, chunksExact]

/-! ## Verification -/

include hw in
theorem verifyFrom_step {expected sector : Bytes} {sectors : List Bytes} {index : Nat} {recorded : Bytes}
    (hrecorded : (expected.drop (index * w)).take w = recorded) :
    verifyFrom algorithms expected w csumType index (sector :: sectors) =
      if digestOf algorithms csumType w sector = recorded then
        verifyFrom algorithms expected w csumType (index + 1) sectors
      else .error (.ok ⟨index, csumField recorded,
        (btrfsDataCsum algorithms csumType sector).getD [], w⟩) := by
  obtain ⟨csum, hcsum, -⟩ := btrfsDataCsum_eq hw algorithms sector
  rw [verifyFrom, hrecorded]
  simp only [digestOf, hcsum, okOr, Option.elim, ok_bind, Option.getD_some]
  split_ifs with heq
  · rw [failIf_of_not (not_not.mpr heq), ok_bind]
  · rw [failIf, if_pos heq]
    rfl

include hw in
theorem verifyFrom_eq (sectors : List Bytes) (index : Nat) {digests : List Bytes}
    (hlength : ∀ digest ∈ digests, digest.length = w)
    (hcount : digests.length = index + sectors.length) :
    ((∀ i, i < sectors.length → digests[index + i]? =
        (sectors.map (digestOf algorithms csumType w))[i]?) →
      verifyFrom algorithms digests.flatten w csumType index sectors = .ok ()) ∧
    ∀ i sector recorded, sectors[i]? = some sector → digests[index + i]? = some recorded →
      digestOf algorithms csumType w sector ≠ recorded →
      (∀ j < i, digests[index + j]? = (sectors.map (digestOf algorithms csumType w))[j]?) →
      verifyFrom algorithms digests.flatten w csumType index sectors =
        .error (.ok ⟨index + i, csumField recorded,
          (btrfsDataCsum algorithms csumType sector).getD [], w⟩) := by
  induction sectors generalizing index with
  | nil => exact ⟨fun _ => rfl, fun i sector recorded h => by simp at h⟩
  | cons first sectors ih =>
    rw [List.length_cons] at hcount
    obtain ⟨recorded, hrecorded⟩ : ∃ recorded, digests[index]? = some recorded :=
      ⟨digests[index], List.getElem?_eq_getElem (by omega)⟩
    obtain ⟨ihall, ihfirst⟩ := ih (index + 1) (by omega)
    rw [verifyFrom_step algorithms hw (slice_packed hlength hrecorded)]
    refine ⟨fun hall => ?_, fun i sector expected hsector hexpected hne hbefore => ?_⟩
    · have hfirst := hall 0 (by simp)
      rw [Nat.add_zero, hrecorded] at hfirst
      rw [if_pos (by simpa using hfirst.symm)]
      refine ihall fun i hi => ?_
      have hnext := hall (i + 1) (by simpa using hi)
      rw [Nat.add_right_comm, Nat.add_assoc]
      simpa using hnext
    · cases i with
      | zero =>
        obtain rfl : first = sector := by simpa using hsector
        obtain rfl : recorded = expected := by simpa [hrecorded] using hexpected
        rw [if_neg hne]
        rfl
      | succ i =>
        have hfirst := hbefore 0 (by omega)
        rw [Nat.add_zero, hrecorded] at hfirst
        rw [if_pos (by simpa using hfirst.symm), ihfirst i sector expected (by simpa using hsector)
          (by rw [← hexpected, Nat.add_right_comm, Nat.add_assoc]) hne fun j hj => ?_]
        · rw [Nat.add_right_comm, Nat.add_assoc]
        · have hnext := hbefore (j + 1) (by omega)
          rw [Nat.add_right_comm, Nat.add_assoc]
          simpa using hnext

end Built

/-! ## Extents -/

structure DataExtent where
  diskBytenr : Nat
  data : Bytes
  maxCsumsPerItem : Nat

namespace DataExtent

/-- Whole sectors, sizes that the machine can count, and digests that one `Vec` of an item can
hold. -/
structure Fits (s w : Nat) (extent : DataExtent) : Prop where
  nonempty : extent.data ≠ []
  whole : extent.data.length % s = 0
  ends : extent.diskBytenr + extent.data.length < 2 ^ 64
  positive : 1 ≤ extent.maxCsumsPerItem
  chunk : extent.maxCsumsPerItem * s < 2 ^ 64
  packed : min extent.maxCsumsPerItem (extent.data.length / s) * w < 2 ^ 63

def Before (a b : DataExtent) : Prop := a.diskBytenr + a.data.length ≤ b.diskBytenr

variable {csumType w s : Nat} {extent : DataExtent}

theorem Fits.sectorsize_pos (h : extent.Fits s w) : 0 < s := by
  refine Nat.pos_of_ne_zero ?_
  rintro rfl
  exact h.nonempty (List.eq_nil_of_length_eq_zero (by simpa using h.whole))

def build (algorithms : Digests) (csumType s : Nat) (extent : DataExtent) :
    Except BtrfsMutationError (List CsumItem) :=
  buildExtentCsumItems algorithms extent.diskBytenr extent.data s extent.maxCsumsPerItem csumType

theorem Fits.runs (h : extent.Fits s w) (algorithms : Digests)
    (hw : btrfsDataCsumSize csumType = some w) :
    ∃ items, extent.build algorithms csumType s = .ok items ∧
      Runs s extent.maxCsumsPerItem extent.diskBytenr
        (digestsOf algorithms csumType w s extent.data) items := by
  have hs := h.sectorsize_pos
  have hchunk := Nat.mul_pos h.positive hs
  obtain ⟨items, hitems, hruns⟩ := buildFrom_runs algorithms hw hs h.positive h.whole h.ends
    extent.data.length (Nat.zero_mod s) (Nat.zero_le _) (Nat.sub_le _ _)
  refine ⟨items, ?_, hruns⟩
  have hpositive := h.positive
  have hfits := h.chunk
  unfold build buildExtentCsumItems
  rw [failIf_of_not (by omega), ok_bind, failIf_of_not (by omega), ok_bind, failIf_of_not (by omega),
    ok_bind, failIf_of_not (by simp [h.nonempty, h.whole]), ok_bind, hitems]

/-- What `verify_extent_csum` says of data as long as the extent's. -/
def Verifies (algorithms : Digests) (csumType w s : Nat) (extent : DataExtent) (csums : Bytes) : Prop :=
  ∀ other : Bytes, other.length = extent.data.length →
    ((∀ i < extent.data.length / s,
        sectorDigest algorithms csumType w s other i = sectorDigest algorithms csumType w s extent.data i) →
      verifyExtentCsum algorithms other s csums csumType = .ok ()) ∧
    ∀ i < extent.data.length / s,
      sectorDigest algorithms csumType w s other i ≠ sectorDigest algorithms csumType w s extent.data i →
      (∀ j < i, sectorDigest algorithms csumType w s other j = sectorDigest algorithms csumType w s extent.data j) →
      verifyExtentCsum algorithms other s csums csumType =
        .error (.ok ⟨i, csumField (sectorDigest algorithms csumType w s extent.data i),
          (btrfsDataCsum algorithms csumType (sectorAt s other i)).getD [], w⟩)

theorem Fits.verifies (h : extent.Fits s w) (algorithms : Digests)
    (hw : btrfsDataCsumSize csumType = some w) :
    extent.Verifies algorithms csumType w s
      (digestsOf algorithms csumType w s extent.data).flatten := by
  intro other hlength
  have hs := h.sectorsize_pos
  have hcount : (chunksExact s other).length = extent.data.length / s := by
    simp [chunksExact, hlength]
  have hdigests := length_of_mem_digestsOf algorithms (s := s) hw extent.data
  have hsame : ∀ j < extent.data.length / s,
      sectorDigest algorithms csumType w s other j = sectorDigest algorithms csumType w s extent.data j →
      (digestsOf algorithms csumType w s extent.data)[0 + j]? =
        ((chunksExact s other).map (digestOf algorithms csumType w))[j]? := by
    intro j hj heq
    rw [Nat.zero_add, (getElem?_digestsOf algorithms extent.data j).mpr ⟨hj, rfl⟩, ← heq]
    exact ((getElem?_digestsOf algorithms other j).mpr ⟨hlength ▸ hj, rfl⟩).symm
  have hverify : verifyExtentCsum algorithms other s
      (digestsOf algorithms csumType w s extent.data).flatten csumType =
      verifyFrom algorithms (digestsOf algorithms csumType w s extent.data).flatten w csumType 0
        (chunksExact s other) := by
    have hnonempty : other ≠ [] := by
      intro hnil
      rw [hnil] at hlength
      exact h.nonempty (List.eq_nil_of_length_eq_zero hlength.symm)
    have haligned : other.length % s = 0 := hlength ▸ h.whole
    unfold verifyExtentCsum
    rw [failIf_of_not (by omega), ok_bind, failIf_of_not (by simp [hnonempty, haligned]), ok_bind, hw]
    simp only [okOr, Option.elim, ok_bind]
    rw [failIf_of_not (by rw [length_packed hdigests, length_digestsOf, hlength]; simp), ok_bind]
  obtain ⟨hall, hfirst⟩ := verifyFrom_eq algorithms hw (chunksExact s other) 0 hdigests
    (by rw [length_digestsOf, hcount, Nat.zero_add])
  rw [hverify]
  refine ⟨fun hequal => hall fun j hj => hsame j (hcount ▸ hj) (hequal j (hcount ▸ hj)),
    fun i hi hne hbefore => ?_⟩
  rw [hfirst i (sectorAt s other i) (sectorDigest algorithms csumType w s extent.data i) ?_ ?_ hne
    fun j hj => hsame j (by omega) (hbefore j hj), Nat.zero_add]
  · simp [chunksExact, hlength, hi]
  · rw [Nat.zero_add]
    exact (getElem?_digestsOf algorithms extent.data i).mpr ⟨hi, rfl⟩

end DataExtent

theorem extentCsumKey_lt {a b : Nat} (h : a < b) : extentCsumKey a < extentCsumKey b := by
  show BtrfsKey.fields _ < BtrfsKey.fields _
  simp [BtrfsKey.fields, extentCsumKey, Prod.Lex.toLex_lt_toLex, h]

section Sources

variable {algorithms : Digests} {csumType w s : Nat}
variable {sources : List (DataExtent × List CsumItem)} {items : List CsumItem}
variable (hw : btrfsDataCsumSize csumType = some w)
variable (hsources : ∀ source ∈ sources, source.1.Fits s w ∧
  source.1.build algorithms csumType s = .ok source.2)
variable (hdisjoint : sources.Pairwise fun a b => a.1.Before b.1 ∨ b.1.Before a.1)
variable (hperm : items.Perm (sources.flatMap Prod.snd))
variable (hsorted : items.Pairwise fun a b => a.1.offset ≤ b.1.offset)

include hw hsources in
theorem runs_of_source {source : DataExtent × List CsumItem} (h : source ∈ sources) :
    Runs s source.1.maxCsumsPerItem source.1.diskBytenr
      (digestsOf algorithms csumType w s source.1.data) source.2 := by
  obtain ⟨hfits, hbuild⟩ := hsources source h
  obtain ⟨built, hbuilt, hruns⟩ := hfits.runs algorithms hw
  obtain rfl : source.2 = built := by
    rw [hbuild] at hbuilt
    injection hbuilt
  exact hruns

include hw hsources in
theorem source_item {source : DataExtent × List CsumItem} (h : source ∈ sources) {item : CsumItem}
    (hitem : item ∈ source.2) :
    isExtentCsum item = true ∧ item.2.length < 2 ^ 64 ∧ source.1.diskBytenr ≤ item.1.offset ∧
      itemEnd s w item ≤ source.1.diskBytenr + source.1.data.length ∧
      item.1.offset < itemEnd s w item := by
  have hpos := (csumSize_bounds hw).1
  have hfits := (hsources source h).1
  obtain ⟨hkey, hstart, hend, m, hm, hmax, hle, hlength⟩ := (runs_of_source hw hsources h).item_spec hpos
    (length_of_mem_digestsOf algorithms hw source.1.data) hitem
  rw [length_digestsOf] at hend hle
  refine ⟨?_, ?_, hstart, ?_, ?_⟩
  · rw [isExtentCsum, hkey]
    rfl
  · rw [hlength]
    have := (Nat.mul_le_mul_right w (Nat.le_min.mpr ⟨hmax, hle⟩)).trans_lt hfits.packed
    omega
  · rwa [Nat.div_mul_cancel (Nat.dvd_of_mod_eq_zero hfits.whole)] at hend
  · rw [itemEnd, hlength, Nat.mul_div_cancel m hpos]
    exact Nat.lt_add_of_pos_right (Nat.mul_pos hm hfits.sectorsize_pos)

include hw hsources hdisjoint hperm hsorted in
theorem separated_of_sources : items.Pairwise fun a b => itemEnd s w a ≤ b.1.offset := by
  have hapart : items.Pairwise fun a b => itemEnd s w a ≤ b.1.offset ∨ itemEnd s w b ≤ a.1.offset := by
    refine (hperm.pairwise_iff fun h => h.symm).mpr (List.pairwise_flatMap.mpr ⟨fun source h => ?_, ?_⟩)
    · refine ((runs_of_source hw hsources h).separated (csumSize_bounds hw).1
        (length_of_mem_digestsOf algorithms hw source.1.data)).imp fun hsep => Or.inl hsep
    · refine hdisjoint.imp_of_mem fun {a b} ha hb hranges x hx y hy => ?_
      obtain ⟨-, -, hstart, hend, -⟩ := source_item hw hsources ha hx
      obtain ⟨-, -, hstart', hend', -⟩ := source_item hw hsources hb hy
      exact hranges.imp (fun h => hend.trans (h.trans hstart')) fun h => hend'.trans (h.trans hstart)
  refine (hapart.and hsorted).imp_of_mem fun {a b} _ hb h => h.1.resolve_right fun hback => ?_
  obtain ⟨source, hsource, hb⟩ := List.mem_flatMap.mp (hperm.mem_iff.mp hb)
  have := (source_item hw hsources hsource hb).2.2.2.2
  omega

include hw hsources hdisjoint hperm hsorted in
theorem lookup_sources {addr : Nat} {digest : Bytes} :
    lookupDataBlockCsum items addr s w = some digest ↔
      ∃ source ∈ sources, ∃ i < source.1.data.length / s, addr = source.1.diskBytenr + i * s ∧
        digest = sectorDigest algorithms csumType w s source.1.data i := by
  have hpos := (csumSize_bounds hw).1
  have hsource : ∀ item ∈ items, ∃ source ∈ sources, item ∈ source.2 :=
    fun item hitem => List.mem_flatMap.mp (hperm.mem_iff.mp hitem)
  rcases Nat.eq_zero_or_pos s with rfl | hs
  · constructor
    · intro h
      simp [lookupDataBlockCsum] at h
    · rintro ⟨source, h, -⟩
      exact absurd (hsources source h).1.sectorsize_pos (Nat.lt_irrefl 0)
  rw [lookupDataBlockCsum_eq hs hpos _ (separated_of_sources hw hsources hdisjoint hperm hsorted)]
  · constructor
    · rintro ⟨item, hitem, hrecords⟩
      obtain ⟨source, h, hitem⟩ := hsource item hitem
      obtain ⟨i, haddr, hi⟩ := ((runs_of_source hw hsources h).records_iff hpos
        (length_of_mem_digestsOf algorithms hw source.1.data)).mp ⟨item, hitem, hrecords⟩
      obtain ⟨hlt, hdigest⟩ := (getElem?_digestsOf algorithms source.1.data i).mp hi
      exact ⟨source, h, i, hlt, haddr, hdigest⟩
    · rintro ⟨source, h, i, hlt, haddr, hdigest⟩
      obtain ⟨item, hitem, hrecords⟩ := ((runs_of_source hw hsources h).records_iff hpos
        (length_of_mem_digestsOf algorithms hw source.1.data)).mpr
        ⟨i, haddr, (getElem?_digestsOf algorithms source.1.data i).mpr ⟨hlt, hdigest⟩⟩
      exact ⟨item, hperm.mem_iff.mpr (List.mem_flatMap.mpr ⟨source, h, hitem⟩), hrecords⟩
  · intro item hitem
    obtain ⟨source, h, hitem⟩ := hsource item hitem
    exact (source_item hw hsources h hitem).2.1
  · intro item hitem
    obtain ⟨source, h, hitem⟩ := hsource item hitem
    exact (source_item hw hsources h hitem).1

end Sources

/-- **The items of an extent record every sector's digest, once and in order.** They are found
among the items of any other extents, at the addresses of the sectors and nowhere else. -/
theorem extentCsums_exact (algorithms : Digests) (csumType w s : Nat)
    (hw : btrfsDataCsumSize csumType = some w) :
    (∀ extent : DataExtent, extent.Fits s w →
      ∃ items, extent.build algorithms csumType s = .ok items ∧
        items.Pairwise (fun a b => a.1 < b.1) ∧
        (∀ item ∈ items, ∃ m, 1 ≤ m ∧ m ≤ extent.maxCsumsPerItem ∧ item.2.length = m * w) ∧
        verifyExtentCsum algorithms extent.data s (items.flatMap Prod.snd) csumType = .ok () ∧
        extent.Verifies algorithms csumType w s (items.flatMap Prod.snd)) ∧
      ∀ (sources : List (DataExtent × List CsumItem)) (items : List CsumItem),
        (∀ source ∈ sources, source.1.Fits s w ∧
          source.1.build algorithms csumType s = .ok source.2) →
        sources.Pairwise (fun a b => a.1.Before b.1 ∨ b.1.Before a.1) →
        items.Perm (sources.flatMap Prod.snd) →
        items.Pairwise (fun a b => a.1.offset ≤ b.1.offset) →
        ∀ addr digest, lookupDataBlockCsum items addr s w = some digest ↔
          ∃ source ∈ sources, ∃ i < source.1.data.length / s,
            addr = source.1.diskBytenr + i * s ∧
              digest = sectorDigest algorithms csumType w s source.1.data i := by
  have hpos := (csumSize_bounds hw).1
  constructor
  · intro extent hfits
    obtain ⟨items, hbuild, hruns⟩ := hfits.runs algorithms hw
    have hdigests := length_of_mem_digestsOf algorithms (s := s) hw extent.data
    have hverifies := hfits.verifies algorithms hw
    rw [← hruns.values] at hverifies
    refine ⟨items, hbuild, ?_, fun item hitem => ?_, (hverifies _ rfl).1 fun _ _ => rfl, hverifies⟩
    · refine (hruns.separated hpos hdigests).imp_of_mem fun {a b} ha hb hsep => ?_
      obtain ⟨hkey, -, -, m, hm, -, -, hlength⟩ := hruns.item_spec hpos hdigests ha
      rw [hkey, (hruns.item_spec hpos hdigests hb).1]
      refine extentCsumKey_lt (Nat.lt_of_lt_of_le ?_ hsep)
      rw [itemEnd, hlength, Nat.mul_div_cancel m hpos]
      exact Nat.lt_add_of_pos_right (Nat.mul_pos hm hfits.sectorsize_pos)
    · obtain ⟨-, -, -, m, hm, hle, -, hlength⟩ := hruns.item_spec hpos hdigests hitem
      exact ⟨m, hm, hle, hlength⟩
  · intro sources items hsources hdisjoint hperm hsorted addr digest
    exact lookup_sources hw hsources hdisjoint hperm hsorted

def noDigests : Digests where
  crc32c _ := 0
  xxh64 _ := 0
  sha256 _ := ⟨List.replicate 32 0, List.length_replicate⟩
  blake2b _ := ⟨List.replicate 32 0, List.length_replicate⟩

theorem extentCsums_exact_sample :
    DataExtent.Fits 1 4 ⟨8, [1, 2, 3], 2⟩ ∧
      ∃ items, (DataExtent.mk 8 [1, 2, 3] 2).build noDigests 0 1 = .ok items ∧
        lookupDataBlockCsum items 9 1 4 = some [0, 0, 0, 0] := by
  have hfits : DataExtent.Fits 1 4 ⟨8, [1, 2, 3], 2⟩ :=
    ⟨by decide, by decide, by decide, by decide, by decide, by decide⟩
  obtain ⟨hbuilt, hfound⟩ := extentCsums_exact noDigests 0 4 1 rfl
  obtain ⟨items, hbuild, hincreasing, -⟩ := hbuilt _ hfits
  refine ⟨hfits, items, hbuild, (hfound [(⟨8, [1, 2, 3], 2⟩, items)] items ?_ ?_ ?_ ?_ 9 _).mpr ?_⟩
  · intro source hsource
    obtain rfl := List.mem_singleton.mp hsource
    exact ⟨hfits, hbuild⟩
  · exact List.pairwise_singleton _ _
  · rw [List.flatMap_singleton]
  · injection hbuild with hbuild
    subst hbuild
    decide
  · exact ⟨_, List.mem_singleton_self _, 1, (show 1 < 3 / 1 by decide), rfl,
      (show [0, 0, 0, 0] = sectorDigest noDigests 0 4 1 [1, 2, 3] 1 by decide)⟩

/-- The product is computed before anything else and does not saturate. -/
theorem buildExtentCsumItems_overflow :
    DataExtent.build noDigests 0 2 ⟨0, [1, 2], 2 ^ 63⟩ =
      .error (.invalidConfig "max_csums_per_item * sectorsize overflows") := rfl

end FrankenFs.Btrfs
