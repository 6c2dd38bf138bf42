import FrankenFs.Lib.GaussJordan
import FrankenFs.Lib.OrdMap
import FrankenFs.Repair.Gf256

/-!
# Local reconstruction codes

`lrc` of `ffs-repair`. A group of data blocks has the exclusive or of its blocks, and the global
parity blocks are weighted sums of all of them.
-/

open FrankenFs.Lib

namespace FrankenFs.Repair

open Gf256

abbrev Block := List Gf256

/-! ## Configurations -/

structure LrcConfig where
  dataBlocks : Nat
  localGroupSize : Nat
  globalParityCount : Nat
deriving DecidableEq

namespace LrcConfig

/-- `none` is a panic, here and in what encodes. -/
def new (dataBlocks localGroupSize globalParityCount : Nat) : Option LrcConfig :=
  if 0 < dataBlocks ∧ 0 < localGroupSize ∧ dataBlocks % localGroupSize = 0 ∧
      globalParityCount ≤ 255 ∧ (globalParityCount = 0 ∨ dataBlocks ≤ 255) ∧
      dataBlocks + dataBlocks / localGroupSize + globalParityCount < 2 ^ 32 then
    some ⟨dataBlocks, localGroupSize, globalParityCount⟩
  else none

def numGroups (config : LrcConfig) : Nat :=
  if config.localGroupSize = 0 then 0 else config.dataBlocks / config.localGroupSize

end LrcConfig

/-! ## Sums of blocks -/

/-- Bytes of `dst` behind the end of `src` stay. -/
def xorInto : (dst src : Block) → Block
  | d :: dst, s :: src => (d + s) :: xorInto dst src
  | dst, [] => dst
  | [], _ => []

/-- A coefficient of 1 needs no table. -/
def weigh (coeff : Gf256) (src : Block) : Block :=
  if coeff = 1 then src else src.map (mulLogExp coeff)

def mulXorInto (dst src : Block) (coeff : Gf256) : Block :=
  if coeff = 0 then dst else xorInto dst (weigh coeff src)

/-- The source has a case for each way a coefficient may be 0 or 1. -/
def mulXorPairInto (dst lhs : Block) (lhsCoeff : Gf256) (rhs : Block) (rhsCoeff : Gf256) : Block :=
  if lhsCoeff = 0 then mulXorInto dst rhs rhsCoeff
  else if rhsCoeff = 0 then mulXorInto dst lhs lhsCoeff
  else xorInto dst (List.zipWith (· + ·) (weigh lhsCoeff lhs) (weigh rhsCoeff rhs))

/-! ## Encoding -/

def encodeLocal (config : LrcConfig) (data : List Block) : Option (List Block) :=
  let blockSize := (data.headD []).length
  if 0 < config.dataBlocks ∧ 0 < config.localGroupSize ∧
      config.dataBlocks % config.localGroupSize = 0 ∧ data.length = config.dataBlocks ∧
      0 < blockSize ∧ ∀ block ∈ data, block.length = blockSize then
    some ((List.range config.numGroups).map fun g =>
      (List.range config.localGroupSize).foldl
        (fun parity i => xorInto parity (data.getD (g * config.localGroupSize + i) []))
        (List.replicate blockSize 0))
  else none

def globalParityCoeff (dataIdx parityIdx : Nat) : Gf256 :=
  generatorPow ((dataIdx + 1) * (parityIdx + 1) % 255)

def globalParityRowStep (parityIdx : Nat) : Gf256 := generatorPow (parityIdx + 1)

def encodeRow (step : Gf256) : (coeff : Gf256) → (data : List Block) → (parity : Block) → Block
  | _, [], parity => parity
  | coeff, [block], parity => mulXorInto parity block coeff
  | coeff, lhs :: rhs :: data, parity =>
    let rhsCoeff := mulLogExp coeff step
    encodeRow step (mulLogExp rhsCoeff step) data (mulXorPairInto parity lhs coeff rhs rhsCoeff)

def encodeGlobal (config : LrcConfig) (data : List Block) : Option (List Block) :=
  let blockSize := (data.headD []).length
  if 0 < config.dataBlocks ∧ data.length = config.dataBlocks ∧ config.globalParityCount ≤ 255 ∧
      (config.globalParityCount = 0 ∨ config.dataBlocks ≤ 255) ∧
      (0 < config.globalParityCount →
        0 < blockSize ∧ ∀ block ∈ data, block.length = blockSize) then
    some ((List.range config.globalParityCount).map fun j =>
      encodeRow (globalParityRowStep j) (globalParityRowStep j) data (List.replicate blockSize 0))
  else none

/-! ## Repair -/

structure BlockAvailability where
  data : List (Option Block)
  globalParity : List (Option Block)

structure RepairResult where
  success : Bool
  blocksRepaired : Nat
  repairedIndices : List Nat
  recoveredData : OrdMap Nat Block
  usedLocalOnly : Bool
  usedGlobal : Bool

def xorOther (missingIdx i : Nat) (recovered : Block) : Option Block → Block
  | some block => if i ≠ missingIdx then xorInto recovered block else recovered
  | none => recovered

def repairLocalSingle (config : LrcConfig) (groupIdx missingIdxInGroup : Nat)
    (availableBlocks : List (Option Block)) (localParity : Block) : Option Block :=
  if config.dataBlocks = 0 ∨ config.localGroupSize = 0 ∨
      config.dataBlocks % config.localGroupSize ≠ 0 ∨
      availableBlocks.length ≠ config.localGroupSize ∨
      config.localGroupSize ≤ missingIdxInGroup ∨ config.numGroups ≤ groupIdx ∨
      availableBlocks.countP Option.isNone ≠ 1 ∨
      (availableBlocks.getD missingIdxInGroup none).isSome ∨ localParity.length = 0 ∨
      ∃ block ∈ availableBlocks.reduceOption, block.length ≠ localParity.length then
    none
  else
    some ((List.range availableBlocks.length).foldl (fun recovered i =>
      xorOther missingIdxInGroup i recovered (availableBlocks.getD i none)) localParity)

def configSupportsGlobalRepair (config : LrcConfig) : Prop :=
  0 < config.dataBlocks ∧ 0 < config.localGroupSize ∧
    config.dataBlocks % config.localGroupSize = 0 ∧ config.globalParityCount ≤ 255 ∧
    (config.globalParityCount = 0 ∨ config.dataBlocks ≤ 255)

instance (config : LrcConfig) : Decidable (configSupportsGlobalRepair config) :=
  inferInstanceAs (Decidable (_ ∧ _))

def failedGlobalRepair : RepairResult := ⟨false, 0, [], ∅, false, true⟩

def missingOf (blocks : List (Option Block)) : List Nat :=
  (List.range blocks.length).filter fun i => (blocks.getD i none).isNone

def presentOf (blocks : List (Option Block)) : List Nat :=
  (List.range blocks.length).filter fun i => (blocks.getD i none).isSome

def mulXorKnown (coeff : Gf256) (rhs : Block) : Option Block → Block
  | some block => mulXorInto rhs block coeff
  | none => rhs

def equation (data : List (Option Block)) (missing : List Nat) (parityIdx : Nat)
    (parity : Block) : Row Gf256 where
  coeffs := missing.map fun i => globalParityCoeff i parityIdx
  rhs := (List.range data.length).foldl (fun rhs i =>
    mulXorKnown (globalParityCoeff i parityIdx) rhs (data.getD i none)) parity

def system (availability : BlockAvailability) : List (Row Gf256) :=
  let missing := missingOf availability.data
  ((presentOf availability.globalParity).take missing.length).map fun j =>
    equation availability.data missing j ((availability.globalParity.getD j none).getD [])

/-- A system without a solution fails the repair. -/
def recoverFrom (missing : List Nat) : Option (List (Row Gf256)) → RepairResult
  | none => failedGlobalRepair
  | some rows => ⟨true, missing.length, missing,
      (missing.zip rows).foldl (fun recovered e => recovered.insert e.1 e.2.rhs) ∅, false, true⟩

def repairGlobal (config : LrcConfig) (availability : BlockAvailability) (blockSize : Nat) :
    RepairResult :=
  let missing := missingOf availability.data
  if blockSize = 0 ∨ ¬ configSupportsGlobalRepair config ∨
      availability.data.length ≠ config.dataBlocks ∨
      ∃ block ∈ availability.data.reduceOption, block.length ≠ blockSize then
    failedGlobalRepair
  else if missing = [] then ⟨true, 0, [], ∅, false, false⟩
  else if availability.globalParity.length ≠ config.globalParityCount ∨
      (∃ block ∈ availability.globalParity.reduceOption, block.length ≠ blockSize) ∨
      config.globalParityCount < missing.length ∨
      (presentOf availability.globalParity).length < missing.length then
    failedGlobalRepair
  else
    recoverFrom missing (reduce (system availability))

end FrankenFs.Repair
