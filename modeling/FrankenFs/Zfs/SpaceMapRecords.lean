import FrankenFs.Zfs.LogPointer
import FrankenFs.Zfs.SpaceMap

/-!
# The records of a space map

A record is a word or two, and every bit of them is either fixed or a part of the record, so a block
has one reading only.
-/

open FrankenFs.Lib

namespace FrankenFs.Zfs

/-! ## Words -/

namespace Endian

variable (order : Endian)

theorem length_encode (word : Nat) : (order.encode word).length = 8 := by
  cases order <;> simp [encode]

theorem number_encode {word : Nat} (h : word < 2 ^ 64) : order.number (order.encode word) = word := by
  cases order <;> simpa [number, encode, toBe] using ofLe_toLe (w := 8) h

theorem encode_number {field : Bytes} (h : field.length = 8) :
    order.encode (order.number field) = field := by
  cases order with
  | little =>
    have hback := toLe_ofLe field
    rwa [h] at hback
  | big =>
    have hback := toLe_ofLe field.reverse
    rw [List.length_reverse, h] at hback
    simp [number, encode, toBe, hback]

theorem number_lt {field : Bytes} (h : field.length = 8) : order.number field < 2 ^ 64 := by
  cases order with
  | little => simpa [number, h] using ofLe_lt field
  | big => simpa [number, h] using ofLe_lt field.reverse

theorem u64_ok {raw : Bytes} {offset word : Nat} :
    order.u64 raw offset = .ok word ↔
      word < 2 ^ 64 ∧ ∃ rest, raw.drop offset = order.encode word ++ rest := by
  unfold u64
  split_ifs with hshort
  · refine iff_of_false nofun ?_
    rintro ⟨-, rest, hdrop⟩
    have := congrArg List.length hdrop
    rw [List.length_append, length_encode, List.length_drop] at this
    omega
  · have hlen : ((raw.drop offset).take 8).length = 8 := by simp; omega
    rw [Except.ok.injEq]
    constructor
    · rintro rfl
      refine ⟨order.number_lt hlen, (raw.drop offset).drop 8, ?_⟩
      rw [order.encode_number hlen, List.take_append_drop]
    · rintro ⟨hlt, rest, hdrop⟩
      rw [hdrop, List.take_left' (order.length_encode word), order.number_encode hlt]

end Endian

/-! ## Reading -/

inductive Record where
  | extent (entry : Extent)
  | debug (kind : MapType) (txg syncPass : Nat)
deriving DecidableEq, Repr

structure Records where
  raw : Bytes
  order : Endian
  offset : Nat
  allowV2 : Bool

def mapType (bit : Nat) : MapType := if bit = 0 then .allocate else .free

namespace Records

def new (raw : Bytes) (order : Endian) (allowV2 : Bool) : Except ParseError Records := do
  failIf (maxBlockBytes < raw.length ∨ raw.length % 8 ≠ 0)
    (SpaceMap.invalid "invalid space-map block prefix length")
  return ⟨raw, order, 0, allowV2⟩

def record (r : Records) : Except ParseError (Record × Nat) := do
  let first ← r.order.u64 r.raw r.offset
  if first >>> 62 = 2 then
    let action := first >>> 60 &&& 3
    let txg := first &&& (1 <<< 50 - 1)
    let syncPass := first >>> 50 &&& 1023
    failIf (1 < action ∨ txg = 0 ∧ (action ≠ 0 ∨ syncPass ≠ 0))
      (SpaceMap.invalid "invalid space-map debug or padding record")
    return (.debug (mapType action) txg syncPass, r.offset + 8)
  else if first >>> 62 = 3 then
    failIf (r.allowV2 = false)
      (SpaceMap.invalid "two-word space map requires space_map_v2 admission")
    failIf (first &&& 3 <<< 60 ≠ 0) (SpaceMap.invalid "unknown two-word space-map padding")
    let second ← r.order.u64 r.raw (r.offset + 8)
    return (.extent ⟨mapType (second >>> 63), some (first &&& 0x00ffffff),
      second &&& (2 ^ 64 - 1) >>> 1, (first >>> 24 &&& (1 <<< 36 - 1)) + 1⟩, r.offset + 16)
  else
    return (.extent ⟨mapType (first >>> 15 &&& 1), none, first >>> 16 &&& (1 <<< 47 - 1),
      (first &&& 0x7fff) + 1⟩, r.offset + 8)

def next (r : Records) : Option (Except ParseError Record) × Records :=
  if r.raw.length ≤ r.offset then (none, r)
  else
    match r.record with
    | .ok found => (some (.ok found.1), { r with offset := found.2 })
    | .error e => (some (.error e), { r with offset := r.raw.length })

def collect : (fuel : Nat) → Records → Except ParseError (List Record)
  | 0, _ => .ok []
  | fuel + 1, r =>
    match r.next with
    | (none, _) => .ok []
    | (some (.error e), _) => .error e
    | (some (.ok record), r) => (record :: ·) <$> collect fuel r

end Records

def spaceMapRecords (raw : Bytes) (order : Endian) (allowV2 : Bool) :
    Except ParseError (List Record) := do
  let r ← Records.new raw order allowV2
  r.collect raw.length

/-! ## What is read -/

def MapType.bit : MapType → Nat
  | .allocate => 0
  | .free => 1

theorem mapType_bit (kind : MapType) : mapType kind.bit = kind := by cases kind <;> rfl

theorem bit_mapType {bit : Nat} (h : bit ≤ 1) : (mapType bit).bit = bit := by
  obtain rfl | rfl : bit = 0 ∨ bit = 1 := by omega
  all_goals rfl

theorem MapType.bit_le (kind : MapType) : kind.bit ≤ 1 := by cases kind <;> decide

namespace Record

def Fits (allowV2 : Bool) : Record → Prop
  | .debug kind txg syncPass =>
    txg < 2 ^ 50 ∧ syncPass < 2 ^ 10 ∧ (txg = 0 → kind = .allocate ∧ syncPass = 0)
  | .extent ⟨_, none, offsetUnits, runUnits⟩ =>
    offsetUnits < 2 ^ 47 ∧ 1 ≤ runUnits ∧ runUnits ≤ 2 ^ 15
  | .extent ⟨_, some vdev, offsetUnits, runUnits⟩ =>
    allowV2 ∧ vdev < 2 ^ 24 ∧ offsetUnits < 2 ^ 63 ∧ 1 ≤ runUnits ∧ runUnits ≤ 2 ^ 36

def words : Record → List Nat
  | .debug kind txg syncPass => [2 * 2 ^ 62 + kind.bit * 2 ^ 60 + syncPass * 2 ^ 50 + txg]
  | .extent ⟨kind, none, offsetUnits, runUnits⟩ =>
    [offsetUnits * 2 ^ 16 + kind.bit * 2 ^ 15 + (runUnits - 1)]
  | .extent ⟨kind, some vdev, offsetUnits, runUnits⟩ =>
    [3 * 2 ^ 62 + (runUnits - 1) * 2 ^ 24 + vdev, kind.bit * 2 ^ 63 + offsetUnits]

def bytes (order : Endian) (record : Record) : Bytes := record.words.flatMap order.encode

theorem length_bytes (order : Endian) (record : Record) :
    (record.bytes order).length = 8 * record.words.length := by
  unfold bytes
  rw [List.length_flatMap]
  simp [order.length_encode, Nat.mul_comm]

theorem words_pos (record : Record) : 0 < record.words.length := by
  rcases record with ⟨_, _ | _, _, _⟩ | ⟨_, _, _⟩ <;> exact Nat.succ_pos _

end Record

theorem and_shiftLeft (x m k : Nat) : x &&& m <<< k = (x >>> k &&& m) <<< k := by
  refine Nat.eq_of_testBit_eq fun i => ?_
  by_cases h : k ≤ i
  · simp [Nat.testBit_shiftLeft, Nat.testBit_shiftRight, h]
  · simp [Nat.testBit_shiftLeft, h]

theorem and_ones (x k : Nat) : x &&& (1 <<< k - 1) = x % 2 ^ k := by
  rw [Nat.one_shiftLeft, Nat.and_two_pow_sub_one_eq_mod]

theorem and_masks : (∀ x, x &&& 1 = x % 2 ^ 1) ∧ (∀ x, x &&& 3 = x % 2 ^ 2) ∧
    (∀ x, x &&& 1023 = x % 2 ^ 10) ∧ (∀ x, x &&& 0x7fff = x % 2 ^ 15) ∧
    (∀ x, x &&& 0x00ffffff = x % 2 ^ 24) ∧ ∀ x, x &&& (2 ^ 64 - 1) / 2 ^ 1 = x % 2 ^ 63 :=
  ⟨fun x => and_ones x 1, fun x => and_ones x 2, fun x => and_ones x 10, fun x => and_ones x 15,
    fun x => and_ones x 24, fun x => and_ones x 63⟩

namespace Records

variable {r : Records} {record : Record} {offset : Nat}

theorem record_sound (h : r.record = .ok (record, offset)) : record.Fits r.allowV2 ∧
    offset = r.offset + 8 * record.words.length ∧
    ∃ rest, r.raw.drop r.offset = record.bytes r.order ++ rest := by
  obtain ⟨h1, h2, h10, h15, h24, h63⟩ := and_masks
  obtain ⟨first, hfirst, h⟩ := bind_ok.mp h
  obtain ⟨hlt, rest, hdrop⟩ := r.order.u64_ok.mp hfirst
  simp only [Nat.shiftRight_eq_div_pow, and_shiftLeft, and_ones, h1, h2, h10, h15, h24, h63] at h
  split_ifs at h with hdebug htwo
  · obtain ⟨_, hpadding, h⟩ := bind_ok.mp h
    have hpadding := failIf_ok.mp hpadding
    cases h
    have hbit := bit_mapType (show first / 2 ^ 60 % 2 ^ 2 ≤ 1 by omega)
    refine ⟨⟨by omega, by omega, fun hzero => ?_⟩, rfl, rest, ?_⟩
    · have hnone : first / 2 ^ 60 % 2 ^ 2 = 0 := by omega
      exact ⟨by rw [hnone]; rfl, by omega⟩
    · rw [hdrop, Record.bytes, Record.words, hbit, List.flatMap_singleton,
        show 2 * 2 ^ 62 + first / 2 ^ 60 % 2 ^ 2 * 2 ^ 60 + first / 2 ^ 50 % 2 ^ 10 * 2 ^ 50 +
          first % 2 ^ 50 = first by omega]
  · obtain ⟨_, hv2, h⟩ := bind_ok.mp h
    obtain ⟨_, hpadding, h⟩ := bind_ok.mp h
    obtain ⟨second, hsecond, h⟩ := bind_ok.mp h
    obtain ⟨hlt', rest', hdrop'⟩ := r.order.u64_ok.mp hsecond
    have hv2 := failIf_ok.mp hv2
    have hpadding := failIf_ok.mp hpadding
    rw [Nat.shiftLeft_eq] at hpadding
    cases h
    have hbit := bit_mapType (show second / 2 ^ 63 ≤ 1 by omega)
    refine ⟨⟨by simpa using hv2, by omega, by omega, by omega, by omega⟩, rfl, rest', ?_⟩
    rw [← List.drop_drop, hdrop, List.drop_left' (r.order.length_encode first)] at hdrop'
    rw [hdrop, hdrop', Record.bytes, Record.words, hbit, List.flatMap_cons, List.flatMap_singleton,
      List.append_assoc, Nat.add_sub_cancel,
      show 3 * 2 ^ 62 + first / 2 ^ 24 % 2 ^ 36 * 2 ^ 24 + first % 2 ^ 24 = first by omega,
      show second / 2 ^ 63 * 2 ^ 63 + second % 2 ^ 63 = second by omega]
  · cases h
    have hbit := bit_mapType (show first / 2 ^ 15 % 2 ^ 1 ≤ 1 by omega)
    refine ⟨⟨by omega, by omega, by omega⟩, rfl, rest, ?_⟩
    rw [hdrop, Record.bytes, Record.words, hbit, List.flatMap_singleton, Nat.add_sub_cancel,
      show first / 2 ^ 16 % 2 ^ 47 * 2 ^ 16 + first / 2 ^ 15 % 2 ^ 1 * 2 ^ 15 + first % 2 ^ 15 =
        first by omega]

theorem record_complete (hfits : record.Fits r.allowV2) {rest : Bytes}
    (hdrop : r.raw.drop r.offset = record.bytes r.order ++ rest) :
    r.record = .ok (record, r.offset + 8 * record.words.length) := by
  obtain ⟨h1, h2, h10, h15, h24, h63⟩ := and_masks
  unfold Records.record
  simp only [Nat.shiftRight_eq_div_pow, and_shiftLeft, and_ones, h1, h2, h10, h15, h24, h63]
  rcases record with ⟨kind, _ | vdev, offsetUnits, runUnits⟩ | ⟨kind, txg, syncPass⟩
  · obtain ⟨hoffset, hrun, hrun'⟩ := hfits
    have hbit := kind.bit_le
    rw [Record.bytes, Record.words, List.flatMap_singleton] at hdrop
    refine bind_ok.mpr ⟨_, r.order.u64_ok.mpr ⟨by omega, rest, hdrop⟩, ?_⟩
    generalize hword : offsetUnits * 2 ^ 16 + kind.bit * 2 ^ 15 + (runUnits - 1) = word
    rw [if_neg (by omega), if_neg (by omega), show word / 2 ^ 15 % 2 ^ 1 = kind.bit by omega,
      show word / 2 ^ 16 % 2 ^ 47 = offsetUnits by omega,
      show word % 2 ^ 15 + 1 = runUnits by omega, mapType_bit]
    rfl
  · obtain ⟨hv2, hvdev, hoffset, hrun, hrun'⟩ := hfits
    have hbit := kind.bit_le
    rw [Record.bytes, Record.words, List.flatMap_cons, List.flatMap_singleton,
      List.append_assoc] at hdrop
    refine bind_ok.mpr ⟨_, r.order.u64_ok.mpr ⟨by omega, _, hdrop⟩, ?_⟩
    have hnext : r.raw.drop (r.offset + 8) =
        r.order.encode (kind.bit * 2 ^ 63 + offsetUnits) ++ rest := by
      rw [← List.drop_drop, hdrop, List.drop_left' (r.order.length_encode _)]
    generalize hword : 3 * 2 ^ 62 + (runUnits - 1) * 2 ^ 24 + vdev = word
    rw [if_neg (by omega), if_pos (by omega), failIf_of_not (by simp [hv2]), ok_bind,
      failIf_of_not (by rw [show word / 2 ^ 60 % 2 ^ 2 = 0 by omega]; simp), ok_bind]
    refine bind_ok.mpr ⟨_, r.order.u64_ok.mpr ⟨by omega, rest, hnext⟩, ?_⟩
    rw [show (kind.bit * 2 ^ 63 + offsetUnits) / 2 ^ 63 = kind.bit by omega,
      show (kind.bit * 2 ^ 63 + offsetUnits) % 2 ^ 63 = offsetUnits by omega,
      show word % 2 ^ 24 = vdev by omega, show word / 2 ^ 24 % 2 ^ 36 + 1 = runUnits by omega,
      mapType_bit]
    rfl
  · obtain ⟨htxg, hpass, hzero⟩ := hfits
    have hbit := kind.bit_le
    rw [Record.bytes, Record.words, List.flatMap_singleton] at hdrop
    refine bind_ok.mpr ⟨_, r.order.u64_ok.mpr ⟨by omega, rest, hdrop⟩, ?_⟩
    generalize hword : 2 * 2 ^ 62 + kind.bit * 2 ^ 60 + syncPass * 2 ^ 50 + txg = word
    rw [if_pos (by omega), show word / 2 ^ 60 % 2 ^ 2 = kind.bit by omega,
      show word % 2 ^ 50 = txg by omega, show word / 2 ^ 50 % 2 ^ 10 = syncPass by omega,
      failIf_of_not, ok_bind, mapType_bit]
    · rfl
    · rintro (hkind | ⟨htxg, hne | hne⟩)
      · omega
      · exact hne ((hzero htxg).1 ▸ rfl)
      · exact hne (hzero htxg).2

theorem collect_end (h : r.raw.length ≤ r.offset) (fuel : Nat) : r.collect fuel = .ok [] := by
  cases fuel with
  | zero => rfl
  | succ fuel => rw [collect, next, if_pos h]

theorem collect_succ (h : r.offset < r.raw.length) (fuel : Nat) :
    r.collect (fuel + 1) = r.record >>= fun found =>
      (found.1 :: ·) <$> collect fuel { r with offset := found.2 } := by
  rw [collect, next, if_neg (Nat.not_le.mpr h)]
  cases r.record <;> rfl

theorem flatMap_bytes_eq_nil {order : Endian} {records : List Record} :
    [] = records.flatMap (Record.bytes order) ↔ records = [] := by
  cases records with
  | nil => simp
  | cons record records =>
    have hlength := record.length_bytes order
    have hpos := record.words_pos
    refine iff_of_false (fun h => ?_) (List.cons_ne_nil _ _)
    have := congrArg List.length h
    rw [List.flatMap_cons, List.length_append, List.length_nil] at this
    omega

theorem drop_record {rest : Bytes} (h : r.raw.drop r.offset = record.bytes r.order ++ rest) :
    r.raw.drop (r.offset + 8 * record.words.length) = rest := by
  rw [← List.drop_drop, h, ← record.length_bytes r.order, List.drop_left]

theorem collect_ok_end {records : List Record} (h : r.raw.length ≤ r.offset) (fuel : Nat) :
    r.collect fuel = .ok records ↔ (∀ record ∈ records, record.Fits r.allowV2) ∧
      r.raw.drop r.offset = records.flatMap (Record.bytes r.order) := by
  rw [collect_end h, List.drop_eq_nil_of_le h, flatMap_bytes_eq_nil, Except.ok.injEq]
  constructor
  · rintro rfl
    simp
  · exact fun h => h.2.symm

/-- **A block has one reading**: its records are those whose bytes it consists of. -/
theorem collect_ok {fuel : Nat} {records : List Record} (hfuel : r.raw.length - r.offset ≤ fuel) :
    r.collect fuel = .ok records ↔ (∀ record ∈ records, record.Fits r.allowV2) ∧
      r.raw.drop r.offset = records.flatMap (Record.bytes r.order) := by
  induction fuel generalizing r records with
  | zero => exact collect_ok_end (by omega) 0
  | succ fuel ih =>
    rcases Nat.lt_or_ge r.offset r.raw.length with hmore | hend
    · rw [collect_succ hmore, bind_ok]
      constructor
      · rintro ⟨⟨record, offset⟩, hrecord, hrest⟩
        obtain ⟨tail, htail, rfl⟩ := map_ok.mp hrest
        obtain ⟨hfits, rfl, rest, hdrop⟩ := record_sound hrecord
        have hpos := record.words_pos
        obtain ⟨htailFits, hbytes⟩ := (ih (by dsimp only; omega)).mp htail
        refine ⟨by simpa using ⟨hfits, htailFits⟩, ?_⟩
        rw [List.flatMap_cons, hdrop, ← hbytes, drop_record hdrop]
      · rintro ⟨hfits, hbytes⟩
        cases records with
        | nil => exact absurd (List.drop_eq_nil_iff.mp hbytes) (Nat.not_le.mpr hmore)
        | cons record records =>
          have hpos := record.words_pos
          obtain ⟨hrecord, htail⟩ := List.forall_mem_cons.mp hfits
          refine ⟨_, record_complete hrecord hbytes, map_ok.mpr ⟨records, ?_, rfl⟩⟩
          exact (ih (by dsimp only; omega)).mpr ⟨htail, drop_record hbytes⟩
    · exact collect_ok_end hend _

end Records

theorem length_flatMap_bytes (order : Endian) (records : List Record) :
    (records.flatMap (Record.bytes order)).length % 8 = 0 := by
  induction records with
  | nil => rfl
  | cons record records ih =>
    have hlength := record.length_bytes order
    rw [List.flatMap_cons, List.length_append]
    omega

/-- **A block is read exactly where it consists of records**, and then as these. -/
theorem spaceMapRecords_ok {raw : Bytes} {order : Endian} {allowV2 : Bool} {records : List Record} :
    spaceMapRecords raw order allowV2 = .ok records ↔ raw.length ≤ maxBlockBytes ∧
      (∀ record ∈ records, record.Fits allowV2) ∧ raw = records.flatMap (Record.bytes order) := by
  have hcollect := @Records.collect_ok ⟨raw, order, 0, allowV2⟩ raw.length records (Nat.sub_le _ _)
  rw [List.drop_zero] at hcollect
  constructor
  · intro h
    obtain ⟨r, hnew, h⟩ := bind_ok.mp h
    obtain ⟨_, hsize, hnew⟩ := bind_ok.mp hnew
    have hsize := failIf_ok.mp hsize
    cases hnew
    exact ⟨by omega, hcollect.mp h⟩
  · rintro ⟨hle, hfits, hbytes⟩
    have haligned := length_flatMap_bytes order records
    rw [← hbytes] at haligned
    exact bind_ok.mpr ⟨_, bind_ok.mpr ⟨(), failIf_of_not (by omega) _, rfl⟩,
      hcollect.mpr ⟨hfits, hbytes⟩⟩

/-- An allocation of two units, a padding word, and a free by a record of two words. -/
example : spaceMapRecords ([0x10001, 0x8000000000000000, 0xC000000001000000, 0x8000000000000007].flatMap
    Endian.big.encode) .big true = .ok [.extent ⟨.allocate, none, 1, 2⟩, .debug .allocate 0 0,
      .extent ⟨.free, some 0, 7, 2⟩] := by decide +kernel

end FrankenFs.Zfs
