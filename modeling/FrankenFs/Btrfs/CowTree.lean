import FrankenFs.Lib.Wire
import Mathlib.Algebra.Group.Nat.Defs
import Mathlib.Data.Prod.Lex
import Mathlib.Order.Lattice

/-!
# The copy-on-write tree

The nodes of the tree in memory, by block number, as writeback reads them. The other fields are left
out, and the errors that only its own operations return.
-/

open FrankenFs.Lib

namespace FrankenFs.Btrfs

/-! ## Keys, nodes and errors -/

structure BtrfsKey where
  objectid : Nat
  itemType : Nat
  offset : Nat
deriving DecidableEq, Repr

/-- The fields in the order in which `key_cmp` looks at them. -/
def BtrfsKey.fields (k : BtrfsKey) : Nat ×ₗ Nat ×ₗ Nat :=
  toLex (k.objectid, toLex (k.itemType, k.offset))

theorem BtrfsKey.fields_injective : Function.Injective BtrfsKey.fields := by
  rintro ⟨objectid, itemType, offset⟩ ⟨objectid', itemType', offset'⟩ h
  simpa [fields] using h

instance : LinearOrder BtrfsKey := LinearOrder.lift' BtrfsKey.fields BtrfsKey.fields_injective

structure BtrfsTreeItem where
  key : BtrfsKey
  data : Bytes
deriving DecidableEq, Repr

inductive BtrfsCowNode where
  | leaf (items : List BtrfsTreeItem)
  | internal (keys : List BtrfsKey) (children : List Nat)
deriving DecidableEq, Repr

inductive BtrfsMutationError where
  | invalidConfig (message : String)
  | missingNode (block : Nat)
  | brokenInvariant (message : String)
  /-- The recursion of the source goes deeper than the fuel. -/
  | outOfFuel
deriving DecidableEq, Repr

/-! ## The tree -/

structure InMemoryCowBtrfsTree where
  root : Nat
  nodes : Nat → Option BtrfsCowNode

def BtrfsCowNode.pointers : BtrfsCowNode → List Nat
  | .leaf _ => []
  | .internal _ children => children

def pointersOf (tree : InMemoryCowBtrfsTree) (block : Nat) : Option (List Nat) :=
  (tree.nodes block).map BtrfsCowNode.pointers

end FrankenFs.Btrfs
