import FrankenFs.Btrfs.Chunks

/-!
# Reading a row whose column is lost

`btrfs_raid56` of `ffs-core`: P is the sum of the columns, and Q their sum with the powers of 2 as
weights. Products are by tables of logarithms, modulo x^8 + x^4 + x^3 + x^2 + 1.
-/

open FrankenFs.Lib

namespace FrankenFs.Btrfs.Raid56

/-! ## The tables -/

def double (x : Nat) : Nat :=
  let x := x <<< 1
  if x &&& 0x100 ≠ 0 then x ^^^ 0x11D else x

def expFrom (x : Nat) : (i : Nat) → Nat
  | 0 => x
  | i + 1 => expFrom (double x) i

/-- `exp[i]`, which is filled up to 255 and then copied. -/
def exp (i : Nat) : BitVec 8 := BitVec.ofNat 8 (expFrom 1 (i % 255))

def logFrom (a : Nat) : (fuel x i : Nat) → Nat
  | 0, _, _ => 0
  | fuel + 1, x, i => if x = a then i else logFrom a fuel (double x) (i + 1)

def log (a : BitVec 8) : Nat := logFrom a.toNat 255 1 0

def gmul (a b : BitVec 8) : BitVec 8 := if a = 0 ∨ b = 0 then 0 else exp (log a + log b)

def gdiv (a b : BitVec 8) : BitVec 8 := if a = 0 then 0 else exp ((log a + 255 - log b) % 255)

def gexp (n : Nat) : BitVec 8 := exp (n % 255)

/-! ## The row that is read -/

inductive ReadFailure where
  | parse (e : ParseError)
  | corruption (block : Nat) (detail : String)
  | device (e : BtrfsDeviceError)
deriving DecidableEq, Repr

def maxCaptureBytes : Nat := 64 * 1024 * 1024

/-- The row of an address, and which of its data slots the address is in. -/
def readShape (chunks : List BtrfsChunkEntry) (logical len : Nat) :
    Except ReadFailure (Option (BtrfsRaid56Row × Nat)) := do
  let found ← (mapLogicalToStripes chunks logical).mapError .parse
  let mapping ← found.elim (.error (.corruption logical "RAID56 address is not mapped")) .ok
  if mapping.profile ≠ .raid5 ∧ mapping.profile ≠ .raid6 then return none
  let found ← (resolveRaid56Row chunks logical).mapError .parse
  let row ← found.elim (.error (.corruption logical "RAID56 row is not mapped")) .ok
  let slots := row.dataSlots ++ row.paritySlots
  failIf (len = 0 ∨ mapping.contiguousLen < len ∨ 255 < row.dataSlots.length ∨
      maxCaptureBytes < len * slots.length ∨ (∃ slot ∈ slots, slot.devid = 0) ∨
      ¬ (slots.map BtrfsPhysicalMapping.devid).Nodup)
    (.corruption logical "invalid or oversized RAID56 recovery geometry")
  failIf (mapping.stripes.length ≠ 1)
    (.corruption logical "RAID56 mapping must identify one data slot")
  let target ← (row.dataSlots.findIdx? fun slot => mapping.stripes.head? = some slot).elim
    (.error (.corruption logical "RAID56 data slot is absent from its row")) .ok
  return some (row, target)

def isErasure : BtrfsDeviceError → Bool
  | .missingDevice _ => true
  | .readLength .. => true
  | .io unexpectedEof rawOsError => unexpectedEof || rawOsError = some 5
  | _ => false

def readRaid56Slot (devices : BtrfsDeviceSet) (slot : BtrfsPhysicalMapping) (len : Nat) :
    Except ReadFailure (Option Bytes) :=
  match devices.readPhysical slot.devid slot.physical len with
  | .ok bytes => .ok (some bytes)
  | .error e => if isErasure e then .ok none else .error (.device e)

structure CapturedRow where
  data : List (Option Bytes)
  missing : List Nat
  xor : Bytes
  weighted : Bytes

def addColumn (xor bytes : Bytes) : Bytes := List.zipWith (· ^^^ ·) xor bytes

def addWeighted (column : Nat) (weighted bytes : Bytes) : Bytes :=
  List.zipWith (fun sum byte => sum ^^^ gmul (gexp column) byte) weighted bytes

def CapturedRow.push (row : CapturedRow) (column : Nat) : Option Bytes → CapturedRow
  | some bytes => ⟨row.data ++ [some bytes], row.missing, addColumn row.xor bytes,
      addWeighted column row.weighted bytes⟩
  | none => { row with data := row.data ++ [none], missing := row.missing ++ [column] }

def captureData (devices : BtrfsDeviceSet) (len target : Nat) :
    (column : Nat) → List BtrfsPhysicalMapping → CapturedRow → Except ReadFailure CapturedRow
  | _, [], row => .ok row
  | column, slot :: slots, row =>
    if column = target then
      captureData devices len target (column + 1) slots { row with data := row.data ++ [none] }
    else do
      let bytes ← readRaid56Slot devices slot len
      captureData devices len target (column + 1) slots (row.push column bytes)

/-! ## Candidates -/

def CapturedRow.single (row : CapturedRow) (target : Nat) (p q : Option Bytes) (useQ : Bool) :
    Option Bytes :=
  if useQ then
    q.map fun parity => List.zipWith (fun byte sum => gdiv (byte ^^^ sum) (gexp target)) parity
      row.weighted
  else p.map fun parity => List.zipWith (fun byte sum => byte ^^^ sum) parity row.xor

def CapturedRow.double (row : CapturedRow) (target : Nat) (p q : Option Bytes) (other : Nat) :
    Option Bytes :=
  p.bind fun p => q.bind fun q =>
    let coefficient := gexp other
    let denominator := gexp target ^^^ coefficient
    if denominator = 0 then none
    else some ((List.range p.length).map fun offset =>
      let suspect := ((row.data.getD other none).getD []).getD offset 0
      let a := p.getD offset 0 ^^^ row.xor.getD offset 0 ^^^ suspect
      let b := q.getD offset 0 ^^^ row.weighted.getD offset 0 ^^^ gmul coefficient suspect
      gdiv (b ^^^ gmul coefficient a) denominator)

def CapturedRow.candidates (row : CapturedRow) (target : Nat) (p q : Option Bytes) :
    List (Option Bytes) :=
  match row.missing with
  | [] => [row.single target p q false, row.single target p q true] ++
      if p.isSome && q.isSome then
        ((List.range row.data.length).filter (· ≠ target)).map (row.double target p q)
      else []
  | [other] => [row.double target p q other]
  | _ => []

def firstAccepted (accept : Bytes → Bool) : List (Option Bytes) → Option Bytes
  | [] => none
  | none :: rest => firstAccepted accept rest
  | some bytes :: rest => if accept bytes then some bytes else firstAccepted accept rest

/-- The request is not cancelled. -/
def reconstructRaid56 (devices : BtrfsDeviceSet) (chunks : List BtrfsChunkEntry)
    (logical len : Nat) (accept : Bytes → Bool) : Except ReadFailure (Option Bytes) := do
  let shape ← readShape chunks logical len
  shape.elim (.ok none) fun shape => do
    let zeros := List.replicate len 0
    let captured ← captureData devices len shape.2 0 shape.1.dataSlots ⟨[], [], zeros, zeros⟩
    let parities ← shape.1.paritySlots.mapM fun slot => readRaid56Slot devices slot len
    return firstAccepted accept (captured.candidates shape.2 (parities.getD 0 none)
      (parities.getD 1 none))

end FrankenFs.Btrfs.Raid56
