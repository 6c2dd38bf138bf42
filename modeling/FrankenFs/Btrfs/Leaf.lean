import FrankenFs.Btrfs.CowTree
import FrankenFs.Lib.WordSet
import Mathlib.Data.Nat.Bitwise

/-!
# Parsing a leaf

`parse_leaf_items` refuses payloads that overlap. While payloads come from the end of the block
downwards it remembers the lowest start only. The first one out of this order brings in a bitset with
one bit a byte, filled from the items read so far.
-/

open FrankenFs.Lib

namespace FrankenFs.Btrfs

def btrfsHeaderSize : Nat := 101
def btrfsItemSize : Nat := 25
def btrfsKeyPtrSize : Nat := 33
def btrfsMaxLevel : Nat := 7

/-! ## The header -/

structure BtrfsHeader where
  csum : Bytes
  fsid : Bytes
  bytenr : Nat
  flags : Nat
  chunkTreeUuid : Bytes
  generation : Nat
  owner : Nat
  nritems : Nat
  level : Nat
deriving DecidableEq, Repr

namespace BtrfsHeader

def parseFromBlock (block : Bytes) : Except ParseError BtrfsHeader := do
  failIf (block.length < btrfsHeaderSize) (.insufficientData btrfsHeaderSize 0 block.length)
  return ⟨block.take 32, (block.drop 0x20).take 16, leAt 0x30 8 block, leAt 0x38 8 block,
    (block.drop 0x40).take 16, leAt 0x50 8 block, leAt 0x58 8 block, leAt 0x60 4 block,
    leAt 0x64 1 block⟩

def validate (header : BtrfsHeader) (blockSize : Nat) (expectedBytenr : Option Nat) :
    Except ParseError Unit := do
  failIf (expectedBytenr.any (· != header.bytenr))
    (.invalidField "bytenr" "header bytenr does not match expected")
  failIf (btrfsMaxLevel < header.level) (.invalidField "level" "exceeds maximum tree depth")
  let itemSize := if header.level = 0 then btrfsItemSize else btrfsKeyPtrSize
  failIf ((blockSize - btrfsHeaderSize) / itemSize < header.nritems)
    (.invalidField "nritems" "item count exceeds block capacity")

end BtrfsHeader

/-! ## The bitset of payload bytes -/

def wordRangeMask (lo hi : Nat) : Word :=
  let high : Word := if 64 ≤ hi then BitVec.allOnes 64 else ((1 : Word) <<< hi) - 1
  let low := ((1 : Word) <<< lo) - 1
  high &&& ~~~ low

/-- `none` for a range that meets the set, and the set with the range else. The words of the
range exist: a payload ends inside the block. -/
def payloadRangeCollides (bits : List Word) (start stop : Nat) : Option (List Word) :=
  let firstWord := start / 64
  let lastWord := (stop - 1) / 64
  let firstMask := wordRangeMask (start % 64) 64
  let lastMask := wordRangeMask 0 ((stop - 1) % 64 + 1)
  if firstWord = lastWord then
    let mask := firstMask &&& lastMask
    if wordAt bits firstWord &&& mask ≠ 0 then none
    else some (bits.set firstWord (wordAt bits firstWord ||| mask))
  else if wordAt bits firstWord &&& firstMask ≠ 0 ∨ wordAt bits lastWord &&& lastMask ≠ 0 then none
  else if ((bits.take lastWord).drop (firstWord + 1)).any (· != 0) then none
  else
    some (((bits.set firstWord (wordAt bits firstWord ||| firstMask)).set lastWord
      (wordAt bits lastWord ||| lastMask)).mapIdx fun w word =>
        if firstWord < w ∧ w < lastWord then BitVec.allOnes 64 else word)

theorem getLsbD_ones {n i : Nat} (h : n < 64) :
    (((1 : Word) <<< n) - 1).getLsbD i = decide (i < n) := by
  have hone : ((1 : Word) <<< n).toNat = 2 ^ n := by
    rw [BitVec.toNat_shiftLeft, show (1 : Word).toNat = 1 from rfl, Nat.one_shiftLeft]
    exact Nat.mod_eq_of_lt (Nat.pow_lt_pow_right (by decide) h)
  have hpos : (1 : Nat) ≤ 2 ^ n := Nat.one_le_two_pow
  have hval : (((1 : Word) <<< n) - 1).toNat = 2 ^ n - 1 := by
    rw [BitVec.toNat_sub_of_le (by rw [BitVec.le_def, hone]; exact hpos), hone]
    rfl
  rw [← BitVec.testBit_toNat, hval, Nat.testBit_two_pow_sub_one]

theorem getLsbD_wordRangeMask {lo hi i : Nat} (hlo : lo < 64) (h : i < 64) :
    (wordRangeMask lo hi).getLsbD i = decide (lo ≤ i ∧ i < hi) := by
  unfold wordRangeMask
  rw [BitVec.getLsbD_and, BitVec.getLsbD_not, getLsbD_ones hlo]
  split_ifs with hhi
  · rw [BitVec.getLsbD_allOnes]
    grind
  · rw [getLsbD_ones (by omega)]
    grind

/-! ## A range against the set -/

section Range

variable {bits : List Word} {start stop : Nat}

theorem getLsbD_firstMask {p : Nat} (h : p / 64 = start / 64) :
    (wordRangeMask (start % 64) 64).getLsbD (p % 64) = true ↔ start ≤ p := by
  rw [getLsbD_wordRangeMask (Nat.mod_lt _ (by decide)) (Nat.mod_lt _ (by decide)),
    decide_eq_true_iff]
  omega

theorem getLsbD_lastMask {p : Nat} (hstop : 0 < stop) (h : p / 64 = (stop - 1) / 64) :
    (wordRangeMask 0 ((stop - 1) % 64 + 1)).getLsbD (p % 64) = true ↔ p < stop := by
  rw [getLsbD_wordRangeMask (by decide) (Nat.mod_lt _ (by decide)), decide_eq_true_iff]
  omega

theorem payloadRangeCollides_none (h : start < stop)
    (hnone : payloadRangeCollides bits start stop = none) :
    ∃ p, start ≤ p ∧ p < stop ∧ bitAt bits p = true := by
  have hstop : 0 < stop := by omega
  simp only [payloadRangeCollides] at hnone
  split_ifs at hnone with hsame hone hends hmid
  · obtain ⟨p, hp, hbit, hmask⟩ := wordAt_and_ne_zero_iff.mp hone
    rw [BitVec.getLsbD_and, Bool.and_eq_true, getLsbD_firstMask hp,
      getLsbD_lastMask hstop (hp.trans hsame)] at hmask
    exact ⟨p, hmask.1, hmask.2, hbit⟩
  · rcases hends with hfirst | hlast
    · obtain ⟨p, hp, hbit, hmask⟩ := wordAt_and_ne_zero_iff.mp hfirst
      exact ⟨p, (getLsbD_firstMask hp).mp hmask, by omega, hbit⟩
    · obtain ⟨p, hp, hbit, hmask⟩ := wordAt_and_ne_zero_iff.mp hlast
      exact ⟨p, by omega, (getLsbD_lastMask hstop hp).mp hmask, hbit⟩
  · obtain ⟨p, hfirst, hlast, hbit⟩ := any_between_iff.mp hmid
    exact ⟨p, by omega, by omega, hbit⟩

theorem payloadRangeCollides_some (h : start < stop) (hlen : stop ≤ 64 * bits.length)
    {bits' : List Word} (hsome : payloadRangeCollides bits start stop = some bits') :
    (∀ p, start ≤ p → p < stop → bitAt bits p = false) ∧ bits'.length = bits.length ∧
      ∀ p, bitAt bits' p = true ↔ bitAt bits p = true ∨ start ≤ p ∧ p < stop := by
  have hstop : 0 < stop := by omega
  have hfirstWord : start / 64 < bits.length := by omega
  have hlastWord : (stop - 1) / 64 < bits.length := by omega
  simp only [payloadRangeCollides] at hsome
  split_ifs at hsome with hsame hone hends hmid
  · obtain rfl := Option.some.inj hsome
    have hmask : ∀ p, p / 64 = start / 64 → ((wordRangeMask (start % 64) 64 &&&
        wordRangeMask 0 ((stop - 1) % 64 + 1)).getLsbD (p % 64) = true ↔
          start ≤ p ∧ p < stop) := by
      intro p hp
      rw [BitVec.getLsbD_and, Bool.and_eq_true, getLsbD_firstMask hp,
        getLsbD_lastMask hstop (hp.trans hsame)]
    refine ⟨fun p hp hp' => ?_, List.length_set, fun p => ?_⟩
    · have hword : p / 64 = start / 64 := by omega
      rw [Bool.eq_false_iff]
      exact fun hbit => hone (wordAt_and_ne_zero_iff.mpr
        ⟨p, hword, hbit, (hmask p hword).mpr ⟨hp, hp'⟩⟩)
    · rw [bitAt_set hfirstWord]
      split_ifs with hword
      · rw [BitVec.getLsbD_or, Bool.or_eq_true, hmask p hword, ← hword, bitAt]
      · exact ⟨Or.inl, fun hor => hor.resolve_right (by omega)⟩
  · obtain rfl := Option.some.inj hsome
    push Not at hends
    refine ⟨fun p hp hp' => ?_, by rw [List.length_mapIdx, List.length_set, List.length_set],
      fun p => ?_⟩
    · rw [Bool.eq_false_iff]
      intro hbit
      by_cases hfirst : p / 64 = start / 64
      · exact (wordAt_and_ne_zero_iff.mpr ⟨p, hfirst, hbit, (getLsbD_firstMask hfirst).mpr hp⟩)
          hends.1
      · by_cases hlast : p / 64 = (stop - 1) / 64
        · exact (wordAt_and_ne_zero_iff.mpr
            ⟨p, hlast, hbit, (getLsbD_lastMask hstop hlast).mpr hp'⟩) hends.2
        · exact hmid (any_between_iff.mpr ⟨p, by omega, by omega, hbit⟩)
    · by_cases hp : bits.length ≤ p / 64
      · rw [bitAt_of_length_le (by simpa using hp), bitAt_of_length_le hp]
        simp only [Bool.false_eq_true, false_or, false_iff]
        omega
      rw [bitAt_mapIdx p (by simpa using hp)]
      split_ifs with hbetween
      · rw [BitVec.getLsbD_allOnes, decide_eq_true (Nat.mod_lt p (by decide))]
        exact ⟨fun _ => .inr ⟨by omega, by omega⟩, fun _ => rfl⟩
      · rw [← bitAt, bitAt_set (by rwa [List.length_set]), bitAt_set hfirstWord]
        split_ifs with hlast hfirst
        · rw [BitVec.getLsbD_or, Bool.or_eq_true, getLsbD_lastMask hstop hlast, ← hlast, ← bitAt]
          exact or_congr_right ⟨fun hlt => ⟨by omega, hlt⟩, And.right⟩
        · rw [BitVec.getLsbD_or, Bool.or_eq_true, getLsbD_firstMask hfirst, ← hfirst, ← bitAt]
          exact or_congr_right ⟨fun hle => ⟨hle, by omega⟩, And.left⟩
        · exact ⟨Or.inl, fun hor => hor.resolve_right (by omega)⟩

end Range

/-! ## The item table -/

structure BtrfsItem where
  key : BtrfsKey
  dataOffset : Nat
  dataSize : Nat
deriving DecidableEq, Repr

def BtrfsItem.dataEnd (item : BtrfsItem) : Nat := item.dataOffset + item.dataSize

def overlapError : ParseError := .invalidField "item_offset" "item payload overlaps another item"

def seedPayloadCoverageFromItems (bits : List Word) :
    List BtrfsItem → Except ParseError (List Word)
  | [] => .ok bits
  | item :: items =>
    if item.dataSize = 0 then seedPayloadCoverageFromItems bits items
    else do
      let bits ← okOr (payloadRangeCollides bits item.dataOffset item.dataEnd) overlapError
      seedPayloadCoverageFromItems bits items

structure LeafState where
  payloadCoverage : Option (List Word)
  lowestPayloadStart : Nat
  items : List BtrfsItem
  previousKey : Option BtrfsKey

def parseOrderedKey (row : Bytes) (previousKey : Option BtrfsKey) :
    Except ParseError BtrfsKey := do
  let key : BtrfsKey := ⟨leAt 0 8 row, leAt 8 1 row, leAt 9 8 row⟩
  failIf (previousKey.any fun previous => decide (¬ previous < key))
    (.invalidField "item_key" "leaf item keys not strictly increasing")
  return key

def LeafState.coverPayload (s : LeafState) (coverage : List Word) (item : BtrfsItem) :
    Except ParseError LeafState := do
  let coverage ← okOr (payloadRangeCollides coverage item.dataOffset item.dataEnd) overlapError
  return { s with payloadCoverage := some coverage }

def LeafState.trackPayload (s : LeafState) (blockLen : Nat) (item : BtrfsItem) :
    Except ParseError LeafState :=
  if item.dataSize = 0 then .ok s
  else
    match s.payloadCoverage with
    | some coverage => s.coverPayload coverage item
    | none =>
      if item.dataEnd ≤ s.lowestPayloadStart then
        .ok { s with lowestPayloadStart := item.dataOffset }
      else do
        let coverage ←
          seedPayloadCoverageFromItems (List.replicate ((blockLen + 63) / 64) 0) s.items
        s.coverPayload coverage item

/-- One round of the loop. The end of a payload fits in a `usize`: both its numbers are `u32`. -/
def LeafState.parseItem (s : LeafState) (blockLen itemsEnd : Nat) (row : Bytes) :
    Except ParseError LeafState := do
  let key ← parseOrderedKey row s.previousKey
  let rawDataOffset := leAt 17 4 row
  failIf (2 ^ 32 ≤ rawDataOffset + btrfsHeaderSize) (.invalidField "item_offset" "overflow")
  let item : BtrfsItem := ⟨key, rawDataOffset + btrfsHeaderSize, leAt 21 4 row⟩
  failIf (item.dataOffset < itemsEnd)
    (.invalidField "item_offset" "item payload overlaps header/item table")
  failIf (blockLen < item.dataEnd) (.invalidField "item_offset" "item points outside block")
  let tracked ← s.trackPayload blockLen item
  return { tracked with items := s.items ++ [item], previousKey := some key }

def itemRow (block : Bytes) (i : Nat) : Bytes :=
  (block.drop (btrfsHeaderSize + i * btrfsItemSize)).take btrfsItemSize

def parseLeafItems (block : Bytes) : Except ParseError (BtrfsHeader × List BtrfsItem) := do
  let header ← BtrfsHeader.parseFromBlock block
  failIf (header.level ≠ 0) (.invalidField "level" "expected leaf level 0")
  header.validate block.length none
  let itemsEnd := btrfsHeaderSize + header.nritems * btrfsItemSize
  failIf (block.length < itemsEnd)
    (.insufficientData itemsEnd btrfsHeaderSize (block.length - btrfsHeaderSize))
  let s ← ((List.range header.nritems).map (itemRow block)).foldlM
    (fun (s : LeafState) row => s.parseItem block.length itemsEnd row)
    ⟨none, block.length, [], none⟩
  return (header, s.items)

/-! ## What the loop keeps -/

namespace BtrfsItem

def covers (item : BtrfsItem) (p : Nat) : Prop := item.dataOffset ≤ p ∧ p < item.dataEnd

def Apart (a b : BtrfsItem) : Prop := ∀ p, a.covers p → ¬ b.covers p

end BtrfsItem

def itemOf (row : Bytes) : BtrfsItem :=
  ⟨⟨leAt 0 8 row, leAt 8 1 row, leAt 9 8 row⟩, leAt 17 4 row + btrfsHeaderSize, leAt 21 4 row⟩

def Covers (blockLen : Nat) (items : List BtrfsItem) (bits : List Word) : Prop :=
  blockLen ≤ 64 * bits.length ∧ ∀ p, bitAt bits p = true ↔ ∃ item ∈ items, item.covers p

theorem covers_nil (blockLen : Nat) :
    Covers blockLen [] (List.replicate ((blockLen + 63) / 64) 0) := by
  refine ⟨by rw [List.length_replicate]; omega, fun p => ?_⟩
  rw [bitAt_replicate]
  simp

theorem Covers.next {blockLen : Nat} {items : List BtrfsItem} {bits : List Word}
    (h : Covers blockLen items bits) {item : BtrfsItem} (hsize : item.dataSize ≠ 0)
    (hend : item.dataEnd ≤ blockLen) :
    (payloadRangeCollides bits item.dataOffset item.dataEnd = none ∧
        ¬ ∀ it ∈ items, it.Apart item) ∨
      ∃ bits', payloadRangeCollides bits item.dataOffset item.dataEnd = some bits' ∧
        (∀ it ∈ items, it.Apart item) ∧ Covers blockLen (items ++ [item]) bits' := by
  have hlt : item.dataOffset < item.dataEnd := Nat.lt_add_of_pos_right (Nat.pos_of_ne_zero hsize)
  cases hc : payloadRangeCollides bits item.dataOffset item.dataEnd with
  | none =>
    refine .inl ⟨rfl, fun happart => ?_⟩
    obtain ⟨p, hp, hp', hbit⟩ := payloadRangeCollides_none hlt hc
    obtain ⟨it, hit, hcov⟩ := (h.2 p).mp hbit
    exact happart it hit p hcov ⟨hp, hp'⟩
  | some bits' =>
    obtain ⟨hfree, hlen, hbits⟩ := payloadRangeCollides_some hlt (hend.trans h.1) hc
    refine .inr ⟨bits', rfl, fun it hit p hcov hp => ?_, by rw [hlen]; exact h.1, fun p => ?_⟩
    · have hbit := (h.2 p).mpr ⟨it, hit, hcov⟩
      rw [hfree p hp.1 hp.2] at hbit
      cases hbit
    · rw [hbits, h.2]
      simp [or_and_right, exists_or, BtrfsItem.covers]

theorem BtrfsItem.not_covers {item : BtrfsItem} (h : item.dataSize = 0) (p : Nat) :
    ¬ item.covers p := by
  rintro ⟨hle, hlt⟩
  unfold dataEnd at hlt
  omega

theorem Covers.empty {blockLen : Nat} {items : List BtrfsItem} {bits : List Word}
    (h : Covers blockLen items bits) {item : BtrfsItem} (hsize : item.dataSize = 0) :
    Covers blockLen (items ++ [item]) bits := by
  refine ⟨h.1, fun p => ?_⟩
  rw [h.2]
  simp [or_and_right, exists_or, BtrfsItem.not_covers hsize]

theorem seedPayloadCoverageFromItems_covers {blockLen : Nat} {done items : List BtrfsItem}
    {bits : List Word} (h : Covers blockLen done bits)
    (happart : (done ++ items).Pairwise BtrfsItem.Apart)
    (hend : ∀ item ∈ items, item.dataEnd ≤ blockLen) :
    ∃ bits', seedPayloadCoverageFromItems bits items = .ok bits' ∧
      Covers blockLen (done ++ items) bits' := by
  induction items generalizing done bits with
  | nil => exact ⟨bits, rfl, by rwa [List.append_nil]⟩
  | cons item items ih =>
    have hsplit : done ++ item :: items = done ++ [item] ++ items := by simp
    rw [hsplit] at happart ⊢
    have hrest := fun it hit => hend it (List.mem_cons_of_mem item hit)
    unfold seedPayloadCoverageFromItems
    split_ifs with hsize
    · exact ih (h.empty hsize) happart hrest
    · obtain ⟨-, hnot⟩ | ⟨bits', hc, -, hcov⟩ := h.next hsize (hend item List.mem_cons_self)
      · refine absurd (fun it hit => ?_) hnot
        exact (List.pairwise_append.mp (List.pairwise_append.mp happart).1).2.2 it hit item
          (List.mem_singleton.mpr rfl)
      · rw [hc]
        exact ih hcov happart hrest

/-- What the loop remembers of the payloads: their bytes, or a bound below them. -/
def LeafState.Remembers (s : LeafState) (blockLen : Nat) (items : List BtrfsItem) : Prop :=
  (∀ bits, s.payloadCoverage = some bits → Covers blockLen items bits) ∧
    (s.payloadCoverage = none → ∀ item ∈ items, ∀ p, item.covers p → s.lowestPayloadStart ≤ p)

structure LeafState.Tracks (s : LeafState) (blockLen : Nat) : Prop where
  previous : s.previousKey = s.items.getLast?.map BtrfsItem.key
  ordered : s.items.Pairwise fun a b => a.key < b.key ∧ a.Apart b
  inside : ∀ item ∈ s.items, item.dataEnd ≤ blockLen
  remembers : s.Remembers blockLen s.items

namespace LeafState

variable {s s' : LeafState} {blockLen itemsEnd : Nat} {item : BtrfsItem} {row : Bytes}

/-- A payload is taken exactly where it is apart from those before it. -/
def Decides (s : LeafState) (blockLen : Nat) (items : List BtrfsItem) (item : BtrfsItem)
    (result : Except ParseError LeafState) : Prop :=
  (∃ s', result = .ok s' ∧ s'.items = s.items ∧ (∀ it ∈ items, it.Apart item) ∧
      s'.Remembers blockLen (items ++ [item])) ∨
    (∃ e, result = .error e) ∧ ¬ ∀ it ∈ items, it.Apart item

theorem coverPayload_decides {items : List BtrfsItem} {bits : List Word}
    (h : Covers blockLen items bits) (hsize : item.dataSize ≠ 0) (hend : item.dataEnd ≤ blockLen) :
    s.Decides blockLen items item (s.coverPayload bits item) := by
  unfold coverPayload
  obtain ⟨hc, hnot⟩ | ⟨bits', hc, happart, hcov⟩ := h.next hsize hend
  · rw [hc]
    exact .inr ⟨⟨_, rfl⟩, hnot⟩
  · rw [hc]
    refine .inl ⟨_, rfl, rfl, happart, fun bits hbits => ?_, fun hnone => ?_⟩
    · obtain rfl := Option.some.inj hbits
      exact hcov
    · cases hnone

theorem lowestPayloadStart_decides (hcov : s.payloadCoverage = none)
    (hlow : ∀ it ∈ s.items, ∀ p, it.covers p → s.lowestPayloadStart ≤ p)
    (hbelow : item.dataEnd ≤ s.lowestPayloadStart) :
    s.Decides blockLen s.items item (.ok { s with lowestPayloadStart := item.dataOffset }) := by
  refine .inl ⟨_, rfl, rfl, fun it hit p hp hp' => ?_, fun bits hbits => ?_,
    fun _ it hit p hp => ?_⟩
  · exact absurd hp'.2 (Nat.not_lt.mpr (hbelow.trans (hlow it hit p hp)))
  · cases hcov.symm.trans hbits
  · rcases List.mem_append.mp hit with hit | hit
    · exact (Nat.le_add_right _ _).trans (hbelow.trans (hlow it hit p hp))
    · rw [List.mem_singleton.mp hit] at hp
      exact hp.1

theorem trackPayload_decides (h : s.Tracks blockLen) (hend : item.dataEnd ≤ blockLen) :
    s.Decides blockLen s.items item (s.trackPayload blockLen item) := by
  unfold trackPayload
  by_cases hsize : item.dataSize = 0
  · rw [if_pos hsize]
    refine .inl ⟨s, rfl, rfl, fun it _ p _ => BtrfsItem.not_covers hsize p,
      fun bits hbits => (h.remembers.1 bits hbits).empty hsize, fun hnone it hit p hp => ?_⟩
    rcases List.mem_append.mp hit with hit | hit
    · exact h.remembers.2 hnone it hit p hp
    · rw [List.mem_singleton.mp hit] at hp
      exact absurd hp (BtrfsItem.not_covers hsize p)
  · rw [if_neg hsize]
    cases hcov : s.payloadCoverage with
    | some bits => exact coverPayload_decides (h.remembers.1 bits hcov) hsize hend
    | none =>
      dsimp only
      split_ifs with hbelow
      · have hdecides : s.Decides blockLen s.items item _ :=
          lowestPayloadStart_decides hcov (h.remembers.2 hcov) hbelow
        rwa [hcov] at hdecides
      · have happart : ([] ++ s.items).Pairwise BtrfsItem.Apart := h.ordered.imp And.right
        obtain ⟨bits, hseed, hcovers⟩ := seedPayloadCoverageFromItems_covers (covers_nil blockLen)
          happart h.inside
        rw [hseed]
        exact coverPayload_decides hcovers hsize hend

theorem previousKey_any (h : s.Tracks blockLen) (key : BtrfsKey) :
    ¬ (s.previousKey.any fun previous => decide (¬ previous < key)) = true ↔
      ∀ it ∈ s.items, it.key < key := by
  rw [h.previous]
  rcases List.eq_nil_or_concat s.items with hnil | ⟨front, last, hitems⟩
  · simp [hnil]
  · have hordered := h.ordered
    rw [hitems, List.concat_eq_append] at hordered ⊢
    have hbelow := (List.pairwise_append.mp hordered).2.2
    simp only [List.getLast?_append, List.getLast?_singleton, Option.some_or, Option.map_some,
      Option.any_some, decide_not, Bool.not_eq_true, Bool.not_eq_false', decide_eq_true_iff]
    constructor
    · intro hlast it hit
      rcases List.mem_append.mp hit with hit | hit
      · exact (hbelow it hit last (List.mem_singleton.mpr rfl)).1.trans hlast
      · rwa [List.mem_singleton.mp hit]
    · exact fun hall => hall last (List.mem_append_right _ (List.mem_singleton.mpr rfl))

end LeafState

structure BtrfsItem.Fits (item : BtrfsItem) (blockLen itemsEnd : Nat) : Prop where
  representable : item.dataOffset < 2 ^ 32
  afterTable : itemsEnd ≤ item.dataOffset
  insideBlock : item.dataEnd ≤ blockLen

namespace LeafState

variable {s s' : LeafState} {blockLen itemsEnd : Nat} {row : Bytes}

theorem parseOrderedKey_ok {previous : Option BtrfsKey} {key : BtrfsKey} :
    parseOrderedKey row previous = .ok key ↔
      ¬ (previous.any fun k => decide (¬ k < (itemOf row).key)) = true ∧
        (itemOf row).key = key := by
  unfold parseOrderedKey
  rw [bind_ok]
  constructor
  · rintro ⟨u, hcheck, hkey⟩
    exact ⟨failIf_ok.mp hcheck, Except.ok.inj hkey⟩
  · rintro ⟨hcheck, hkey⟩
    exact ⟨(), failIf_of_not hcheck _, congrArg Except.ok hkey⟩

theorem parseItem_ok (h : s.Tracks blockLen)
    (hok : s.parseItem blockLen itemsEnd row = .ok s') :
    (itemOf row).Fits blockLen itemsEnd ∧
      (∀ it ∈ s.items, it.key < (itemOf row).key ∧ it.Apart (itemOf row)) ∧
      s'.items = s.items ++ [itemOf row] ∧ s'.Tracks blockLen := by
  unfold parseItem at hok
  obtain ⟨key, hkey, hok⟩ := bind_ok.mp hok
  obtain ⟨habove, rfl⟩ := parseOrderedKey_ok.mp hkey
  obtain ⟨_, hrepr, hok⟩ := bind_ok.mp hok
  obtain ⟨_, htable, hok⟩ := bind_ok.mp hok
  obtain ⟨_, hinside, hok⟩ := bind_ok.mp hok
  obtain ⟨tracked, htrack, hok⟩ := bind_ok.mp hok
  obtain rfl := Except.ok.inj hok
  have hfits : (itemOf row).Fits blockLen itemsEnd :=
    ⟨Nat.not_le.mp (failIf_ok.mp hrepr), Nat.not_lt.mp (failIf_ok.mp htable),
      Nat.not_lt.mp (failIf_ok.mp hinside)⟩
  have hkeys := (previousKey_any h _).mp habove
  obtain ⟨s', hs', -, happart, hremembers⟩ | ⟨⟨e, he⟩, -⟩ :=
    trackPayload_decides h hfits.insideBlock
  · obtain rfl := Except.ok.inj (htrack.symm.trans hs')
    have hall : ∀ it ∈ s.items, it.key < (itemOf row).key ∧ it.Apart (itemOf row) :=
      fun it hit => ⟨hkeys it hit, happart it hit⟩
    refine ⟨hfits, hall, rfl, ?_, ?_, ?_, hremembers⟩
    · simp [itemOf]
    · refine List.pairwise_append.mpr
        ⟨h.ordered, List.pairwise_singleton _ _, fun it hit b hb => ?_⟩
      rw [List.mem_singleton.mp hb]
      exact hall it hit
    · intro it hit
      rcases List.mem_append.mp hit with hit | hit
      · exact h.inside it hit
      · rw [List.mem_singleton.mp hit]
        exact hfits.insideBlock
  · cases htrack.symm.trans he

theorem exists_parseItem (h : s.Tracks blockLen) (hfits : (itemOf row).Fits blockLen itemsEnd)
    (hall : ∀ it ∈ s.items, it.key < (itemOf row).key ∧ it.Apart (itemOf row)) :
    ∃ s', s.parseItem blockLen itemsEnd row = .ok s' := by
  have hkey := parseOrderedKey_ok.mpr
    ⟨(previousKey_any h (itemOf row).key).mpr fun it hit => (hall it hit).1, rfl⟩
  obtain ⟨tracked, htrack, -⟩ | ⟨-, hnot⟩ := trackPayload_decides h hfits.insideBlock
  · unfold parseItem
    exact ⟨_, bind_ok.mpr ⟨_, hkey, bind_ok.mpr ⟨(), failIf_of_not (Nat.not_le.mpr hfits.1) _,
      bind_ok.mpr ⟨(), failIf_of_not (Nat.not_lt.mpr hfits.2) _,
        bind_ok.mpr ⟨(), failIf_of_not (Nat.not_lt.mpr hfits.3) _,
          bind_ok.mpr ⟨tracked, htrack, rfl⟩⟩⟩⟩⟩⟩
  · exact absurd (fun it hit => (hall it hit).2) hnot

/-! ## The whole table -/

theorem foldlM_parseItem_ok (h : s.Tracks blockLen) {rows : List Bytes}
    (hok : rows.foldlM (fun s row => parseItem s blockLen itemsEnd row) s = .ok s') :
    s'.items = s.items ++ rows.map itemOf ∧
      (∀ item ∈ rows.map itemOf, item.Fits blockLen itemsEnd) ∧ s'.Tracks blockLen := by
  induction rows generalizing s with
  | nil =>
    obtain rfl := Except.ok.inj hok
    exact ⟨(List.append_nil _).symm, by simp, h⟩
  | cons row rows ih =>
    rw [List.foldlM_cons] at hok
    obtain ⟨mid, hmid, hok⟩ := bind_ok.mp hok
    obtain ⟨hfits, -, hitems, htracks⟩ := parseItem_ok h hmid
    obtain ⟨hitems', hrest, htracks'⟩ := ih htracks hok
    refine ⟨?_, List.forall_mem_cons.mpr ⟨hfits, hrest⟩, htracks'⟩
    rw [hitems', hitems, List.append_assoc]
    rfl

theorem exists_foldlM_parseItem (h : s.Tracks blockLen) {rows : List Bytes}
    (hfits : ∀ item ∈ rows.map itemOf, item.Fits blockLen itemsEnd)
    (hpairs : (s.items ++ rows.map itemOf).Pairwise fun a b => a.key < b.key ∧ a.Apart b) :
    ∃ s', rows.foldlM (fun s row => parseItem s blockLen itemsEnd row) s = .ok s' := by
  induction rows generalizing s with
  | nil => exact ⟨s, rfl⟩
  | cons row rows ih =>
    rw [List.map_cons] at hfits hpairs
    obtain ⟨hrow, hrest⟩ := List.forall_mem_cons.mp hfits
    obtain ⟨mid, hmid⟩ := exists_parseItem h hrow fun it hit =>
      (List.pairwise_append.mp hpairs).2.2 it hit _ List.mem_cons_self
    obtain ⟨-, -, hitems, htracks⟩ := parseItem_ok h hmid
    have hnext : (mid.items ++ rows.map itemOf).Pairwise fun a b => a.key < b.key ∧ a.Apart b := by
      rwa [hitems, List.append_assoc]
    obtain ⟨s', hs'⟩ := ih htracks hrest hnext
    exact ⟨s', by rw [List.foldlM_cons]; exact bind_ok.mpr ⟨mid, hmid, hs'⟩⟩

theorem tracks_start (blockLen : Nat) : Tracks ⟨none, blockLen, [], none⟩ blockLen where
  previous := rfl
  ordered := List.Pairwise.nil
  inside := by simp
  remembers := ⟨fun bits h => (by cases h), by simp⟩

end LeafState

def leafItems (block : Bytes) (header : BtrfsHeader) : List BtrfsItem :=
  (List.range header.nritems).map fun i => itemOf (itemRow block i)

section Leaf

variable {block : Bytes} {header : BtrfsHeader}

theorem leafItems_eq :
    ((List.range header.nritems).map (itemRow block)).map itemOf = leafItems block header := by
  rw [List.map_map]
  rfl

theorem parseLeafItems_ok (hparse : BtrfsHeader.parseFromBlock block = .ok header)
    {r : BtrfsHeader × List BtrfsItem} (hok : parseLeafItems block = .ok r) :
    (leafItems block header).Pairwise (fun a b => a.key < b.key ∧ a.Apart b) ∧
      ∀ item ∈ leafItems block header,
        item.Fits block.length (btrfsHeaderSize + header.nritems * btrfsItemSize) := by
  unfold parseLeafItems at hok
  obtain ⟨header', hheader, hok⟩ := bind_ok.mp hok
  obtain rfl := Except.ok.inj (hparse.symm.trans hheader)
  obtain ⟨_, -, hok⟩ := bind_ok.mp hok
  obtain ⟨_, -, hok⟩ := bind_ok.mp hok
  obtain ⟨_, -, hok⟩ := bind_ok.mp hok
  obtain ⟨s, hs, -⟩ := bind_ok.mp hok
  obtain ⟨hitems, hfits, htracks⟩ :=
    LeafState.foldlM_parseItem_ok (LeafState.tracks_start block.length) hs
  rw [leafItems_eq] at hfits hitems
  have hordered := htracks.ordered
  rw [hitems] at hordered
  exact ⟨hordered, hfits⟩

theorem exists_parseLeafItems (hparse : BtrfsHeader.parseFromBlock block = .ok header)
    (hlevel : header.level = 0) (hvalid : header.validate block.length none = .ok ())
    (hfit : btrfsHeaderSize + header.nritems * btrfsItemSize ≤ block.length)
    (hfits : ∀ item ∈ leafItems block header,
      item.Fits block.length (btrfsHeaderSize + header.nritems * btrfsItemSize))
    (hpairs : (leafItems block header).Pairwise fun a b => a.key < b.key ∧ a.Apart b) :
    ∃ r, parseLeafItems block = .ok r := by
  rw [← leafItems_eq] at hfits hpairs
  obtain ⟨s, hs⟩ := LeafState.exists_foldlM_parseItem (LeafState.tracks_start block.length)
    hfits hpairs
  unfold parseLeafItems
  exact ⟨_, bind_ok.mpr ⟨header, hparse, bind_ok.mpr ⟨(), failIf_of_not (not_not.mpr hlevel) _,
    bind_ok.mpr ⟨(), hvalid, bind_ok.mpr ⟨(), failIf_of_not (Nat.not_lt.mpr hfit) _,
      bind_ok.mpr ⟨s, hs, rfl⟩⟩⟩⟩⟩⟩

/-- **A leaf is accepted exactly where its keys increase, its payloads are between the item table
and the end of the block, and no two of them share a byte.** An offset from the start of the
block must also be a `u32`, which it is in every block of less than 4 GiB. -/
theorem parseLeafItems_ok_iff (hparse : BtrfsHeader.parseFromBlock block = .ok header)
    (hlevel : header.level = 0) (hvalid : header.validate block.length none = .ok ())
    (hfit : btrfsHeaderSize + header.nritems * btrfsItemSize ≤ block.length) :
    (∃ r, parseLeafItems block = .ok r) ↔
      (leafItems block header).Pairwise (fun a b => a.key < b.key) ∧
      (∀ item ∈ leafItems block header, item.dataOffset < 2 ^ 32 ∧
        btrfsHeaderSize + header.nritems * btrfsItemSize ≤ item.dataOffset ∧
        item.dataEnd ≤ block.length) ∧
      (leafItems block header).Pairwise BtrfsItem.Apart := by
  constructor
  · rintro ⟨r, hr⟩
    obtain ⟨hpairs, hfits⟩ := parseLeafItems_ok hparse hr
    exact ⟨hpairs.imp And.left, fun item hitem => ⟨(hfits item hitem).1, (hfits item hitem).2,
      (hfits item hitem).3⟩, hpairs.imp And.right⟩
  · rintro ⟨hkeys, hfits, happart⟩
    exact exists_parseLeafItems hparse hlevel hvalid hfit
      (fun item hitem => ⟨(hfits item hitem).1, (hfits item hitem).2.1, (hfits item hitem).2.2⟩)
      (hkeys.and happart)

end Leaf

/-! ## A payload out of order, and one behind 4 GiB -/

def plainHeader (nritems : Nat) : Bytes := List.replicate 0x60 0 ++ toLe 4 nritems ++ [0]

def plainRow (objectid offset size : Nat) : Bytes :=
  toLe 8 objectid ++ [0] ++ toLe 8 0 ++ toLe 4 offset ++ toLe 4 size

def risingLeaf : Bytes :=
  plainHeader 2 ++ plainRow 1 50 4 ++ plainRow 2 54 4 ++ List.replicate 8 0

theorem parseLeafItems_risingLeaf : ∃ r, parseLeafItems risingLeaf = .ok r := by
  have hheader : BtrfsHeader.parseFromBlock risingLeaf =
      .ok ⟨List.replicate 32 0, List.replicate 16 0, 0, 0, List.replicate 16 0, 0, 0, 2, 0⟩ := by
    decide +kernel
  refine (parseLeafItems_ok_iff hheader rfl (by decide +kernel) (by decide +kernel)).mpr
    ⟨by decide +kernel, by decide +kernel, ?_⟩
  have hitems : leafItems risingLeaf
      ⟨List.replicate 32 0, List.replicate 16 0, 0, 0, List.replicate 16 0, 0, 0, 2, 0⟩ =
      [⟨⟨1, 0, 0⟩, 151, 4⟩, ⟨⟨2, 0, 0⟩, 155, 4⟩] := by decide +kernel
  rw [hitems]
  simp [BtrfsItem.Apart, BtrfsItem.covers, BtrfsItem.dataEnd]
  omega

/-- The only payload is the last byte of a block of more than 4 GiB. -/
def farLeaf : Bytes := plainHeader 1 ++ plainRow 1 (2 ^ 32 - 1) 1 ++ List.replicate (2 ^ 32 - 25) 0

theorem leAt_farLeaf {start w : Nat} (h : start + w ≤ 126) :
    leAt start w farLeaf = leAt start w (plainHeader 1 ++ plainRow 1 (2 ^ 32 - 1) 1) :=
  leAt_append_left h _

theorem itemRow_farLeaf : itemRow farLeaf 0 = plainRow 1 (2 ^ 32 - 1) 1 := by
  rw [itemRow, farLeaf, List.append_assoc]
  have hheader : (plainHeader 1).length = btrfsHeaderSize + 0 * btrfsItemSize := by decide +kernel
  have hrow : (plainRow 1 (2 ^ 32 - 1) 1).length = btrfsItemSize := by decide +kernel
  rw [List.drop_left' hheader, List.take_left' hrow]

theorem parseLeafItems_refuses_farLeaf :
    ∃ header, BtrfsHeader.parseFromBlock farLeaf = .ok header ∧ header.level = 0 ∧
      header.validate farLeaf.length none = .ok () ∧
      leafItems farLeaf header = [⟨⟨1, 0, 0⟩, 2 ^ 32 + 100, 1⟩] ∧
      farLeaf.length = 2 ^ 32 + 101 ∧ ¬ ∃ r, parseLeafItems farLeaf = .ok r := by
  have hlen : farLeaf.length = 2 ^ 32 + 101 := by
    have hfront : (plainHeader 1 ++ plainRow 1 (2 ^ 32 - 1) 1).length = 126 := by decide +kernel
    rw [farLeaf, List.length_append, List.length_replicate, hfront]
    omega
  have hlevel : leAt 0x64 1 farLeaf = 0 := (leAt_farLeaf (by decide)).trans (by decide +kernel)
  have hnritems : leAt 0x60 4 farLeaf = 1 := (leAt_farLeaf (by decide)).trans (by decide +kernel)
  have hparse : BtrfsHeader.parseFromBlock farLeaf = .ok _ :=
    bind_ok.mpr ⟨(), failIf_of_not (by rw [hlen]; decide) _, rfl⟩
  rw [hlevel, hnritems] at hparse
  have hitem : itemOf (plainRow 1 (2 ^ 32 - 1) 1) = ⟨⟨1, 0, 0⟩, 2 ^ 32 + 100, 1⟩ := by
    decide +kernel
  have hitems : ∀ header : BtrfsHeader, header.nritems = 1 →
      leafItems farLeaf header = [⟨⟨1, 0, 0⟩, 2 ^ 32 + 100, 1⟩] := by
    intro header h
    rw [leafItems, h, ← hitem, ← itemRow_farLeaf]
    rfl
  refine ⟨_, hparse, rfl, ?_, hitems _ rfl, hlen, ?_⟩
  · rw [hlen]
    rfl
  · rintro ⟨r, hr⟩
    obtain ⟨-, hfits⟩ := parseLeafItems_ok hparse hr
    rw [hitems _ rfl] at hfits
    exact absurd (hfits _ (List.mem_singleton.mpr rfl)).representable (by decide)

end FrankenFs.Btrfs
