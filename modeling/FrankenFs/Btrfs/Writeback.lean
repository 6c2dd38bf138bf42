import FrankenFs.Btrfs.CowTree
import FrankenFs.Lib.OrdMap
import FrankenFs.Lib.Postorder
import Mathlib.Data.Finset.Basic

/-!
# Writeback of the copy-on-write tree

A commit writes children before parents. `WriteDependencyDag` holds the nodes below the root, the
three traversals give the order, and the executor flushes in it.
-/

open FrankenFs.Lib FrankenFs.Lib.Postorder

namespace FrankenFs.Btrfs

namespace Writeback

/-! ## The graph -/

structure DagNode where
  block : Nat
  level : Nat
  generation : Nat
  children : List Nat
  durable : Bool
deriving DecidableEq, Repr

structure WriteDependencyDag where
  nodes : OrdMap Nat DagNode
  root : Nat
  generation : Nat

def heightOf (nodes : Nat → Option BtrfsCowNode) : (fuel nodeId : Nat) →
    Except BtrfsMutationError Nat
  | 0, _ => .error .outOfFuel
  | fuel + 1, nodeId =>
    match nodes nodeId with
    | none => .error (.missingNode nodeId)
    | some (.leaf _) => .ok 1
    | some (.internal _ children) => do
      let childHeights ← children.mapM (heightOf nodes fuel)
      let first ← childHeights.getLast?.elim
        (.error (.brokenInvariant "internal node must have children")) .ok
      failIf (childHeights.dropLast.any (· != first)) (.brokenInvariant "tree is not height-balanced")
      return first + 1

def rootLevel (fuel : Nat) (tree : InMemoryCowBtrfsTree) : Nat :=
  match heightOf tree.nodes fuel tree.root with
  | .ok height => if 0 < height then (height - 1) % 256 else 0
  | .error _ => 0

def collectNodes (tree : InMemoryCowBtrfsTree) (generation : Nat) : (fuel block level : Nat) →
    OrdMap Nat DagNode → Except BtrfsMutationError (OrdMap Nat DagNode)
  | 0, _, _, _ => .error .outOfFuel
  | fuel + 1, block, level, nodes =>
    if (nodes.get? block).isSome then .ok nodes
    else
      match tree.nodes block with
      | none => .error (.missingNode block)
      | some (.leaf _) => .ok (nodes.insert block ⟨block, 0, generation, [], false⟩)
      | some (.internal _ children) =>
        children.foldlM (fun nodes child => collectNodes tree generation fuel child (level - 1) nodes)
          (nodes.insert block ⟨block, level, generation, children, false⟩)

def fromCowTree (fuel : Nat) (tree : InMemoryCowBtrfsTree) (generation : Nat) :
    Except BtrfsMutationError WriteDependencyDag := do
  let nodes ← collectNodes tree generation fuel tree.root (rootLevel fuel tree) ∅
  return ⟨nodes, tree.root, generation⟩

/-! ## Traversals -/

namespace WriteDependencyDag

variable {ε τ α : Type} (dag : WriteDependencyDag)

def children (block : Nat) : Option (List Nat) := (dag.nodes.get? block).map (·.children)

def nodeLevel (block : Nat) : Nat := ((dag.nodes.get? block).map (·.level)).getD 0

def nodeCount : Nat := dag.nodes.entries.length

/-- The walk from the root, and one over all nodes where it did not come to all. Each call below
another has marked a node of its own. -/
def traverse (emit : Nat → EStateM ε α Unit) (emitted : α → Nat) :
    EStateM ε (Walk Nat α) Unit := do
  walk dag.children emit (dag.nodeCount + 1) dag.root
  if emitted (← get).acc ≠ dag.nodeCount then
    each (walk dag.children emit (dag.nodeCount + 1)) dag.nodes.keys

def accumulated : EStateM.Result BtrfsMutationError α Unit → α
  | .ok _ acc => acc
  | .error _ acc => acc

def reverseTopologicalOrder : List Nat :=
  accumulated (Walk.forget (dag.traverse (fun block => modify (· ++ [block])) List.length ⟨[], []⟩))

def reverseTopologicalOrderWithLevels : List (Nat × Nat) :=
  accumulated (Walk.forget (dag.traverse
    (fun block => modify (· ++ [(block, dag.nodeLevel block)])) List.length ⟨[], []⟩))

structure Streamed (τ : Type) where
  visitor : τ
  emitted : Nat

def Streamed.visit (visit : Nat → Nat → EStateM ε τ Unit) (block level : Nat) :
    EStateM ε (Streamed τ) Unit := fun s =>
  match visit block level s.visitor with
  | .ok _ visitor => .ok () ⟨visitor, s.emitted + 1⟩
  | .error err visitor => .error err { s with visitor := visitor }

def Streamed.finish : EStateM.Result ε (Streamed τ) Unit → EStateM.Result ε τ Unit
  | .ok _ s => .ok () s.visitor
  | .error err s => .error err s.visitor

def tryForEachReverseTopologicalWithLevels (visit : Nat → Nat → EStateM ε τ Unit) :
    EStateM ε τ Unit := fun visitor =>
  Streamed.finish (Walk.forget (dag.traverse
    (fun block => Streamed.visit visit block (dag.nodeLevel block)) Streamed.emitted
    ⟨[], ⟨visitor, 0⟩⟩))

def durableBlockSet : Finset Nat :=
  ((dag.nodes.entries.filter fun entry => entry.2.durable).map Prod.fst).toFinset

def markDurable (block : Nat) : Except BtrfsMutationError WriteDependencyDag :=
  (dag.nodes.get? block).elim (.error (.missingNode block)) fun node =>
    .ok { dag with nodes := dag.nodes.insert block { node with durable := true } }

end WriteDependencyDag

/-! ## Crash points -/

structure CrashPoint where
  id : String
  durableBlocks : Finset Nat
  superblockDurable : Bool
  superblockGeneration : Option Nat
deriving DecidableEq

def CrashPoint.fromDurableBlocks (durableBlocks : Finset Nat) (id : String)
    (superblockDurable : Bool) (generation : Nat) : CrashPoint :=
  ⟨id, durableBlocks, superblockDurable, if superblockDurable then some generation else none⟩

structure WbI1Violation where
  durableParent : Nat
  nonDurableChild : Nat
deriving DecidableEq, Repr

/-- `WbI1Oracle::check` -/
def check (durableBlocks : Finset Nat) (dag : WriteDependencyDag) : Except WbI1Violation Unit :=
  (dag.nodes.entries.findSome? fun entry =>
    if entry.1 ∈ durableBlocks then
      (entry.2.children.find? fun child => decide (child ∉ durableBlocks)).map
        (WbI1Violation.mk entry.1)
    else none).elim (.ok ()) .error

/-! ## The executor -/

structure WritebackExecutor where
  dag : WriteDependencyDag
  crashPoints : List CrashPoint
  fsyncBarrierIssued : Bool
  recordCrashPoints : Bool

def WritebackExecutor.new (dag : WriteDependencyDag) : WritebackExecutor := ⟨dag, [], false, true⟩

def WritebackExecutor.withoutCrashTracking (executor : WritebackExecutor) : WritebackExecutor :=
  { executor with recordCrashPoints := false }

def WritebackExecutor.verifyWbI1 (executor : WritebackExecutor) : Except WbI1Violation Unit :=
  executor.crashPoints.forM fun crashPoint => check crashPoint.durableBlocks executor.dag

/-- What `flush_node` answers to a call, by the calls that succeeded before it. -/
abbrev FlushNode := (flushed : List (Nat × Nat)) → (block level : Nat) →
  Except BtrfsMutationError Unit

structure Execution where
  executor : WritebackExecutor
  flushed : List (Nat × Nat)

abbrev ExecM := EStateM BtrfsMutationError Execution

def flush (flushNode : FlushNode) (block level : Nat) : ExecM Unit := do
  let x ← get
  MonadExcept.ofExcept (flushNode x.flushed block level)
  set { x with flushed := x.flushed ++ [(block, level)] }

def recordCrashPoint (id : String) (durableBlocks : Finset Nat) : ExecM Unit :=
  modify fun x => { x with executor := { x.executor with
    crashPoints := x.executor.crashPoints ++
      [.fromDurableBlocks durableBlocks id false x.executor.dag.generation] } }

def markFlushed (block : Nat) : ExecM Unit := do
  let x ← get
  let dag ← MonadExcept.ofExcept (x.executor.dag.markDurable block)
  set { x with executor := { x.executor with dag := dag } }

def flushTracked (flushNode : FlushNode) : List (Nat × Nat) → (durableBlocks : Finset Nat) →
    ExecM Unit
  | [], _ => pure ()
  | next :: rest, durableBlocks => do
    recordCrashPoint ("pre_flush_" ++ toString next.1) durableBlocks
    flush flushNode next.1 next.2
    markFlushed next.1
    recordCrashPoint ("post_flush_" ++ toString next.1) (insert next.1 durableBlocks)
    flushTracked flushNode rest (insert next.1 durableBlocks)

def execute (flushNode : FlushNode) : ExecM Unit := do
  let x ← get
  if x.executor.recordCrashPoints then
    flushTracked flushNode x.executor.dag.reverseTopologicalOrderWithLevels
      x.executor.dag.durableBlockSet
  else x.executor.dag.tryForEachReverseTopologicalWithLevels (flush flushNode)

end Writeback

end FrankenFs.Btrfs
