import FrankenFs.Btrfs.Writeback
import Mathlib.Data.Finset.Card
import Mathlib.Data.Finset.Dedup

/-!
# Children are flushed before parents

The traversals give one order of the nodes, and what an execution flushed is at every moment closed
under children.
-/

open FrankenFs.Lib FrankenFs.Lib.Postorder

namespace FrankenFs.Btrfs.Writeback

/-! ## Trees -/

section Trees

variable {tree : InMemoryCowBtrfsTree} {h : Nat}

/-- The nodes below the root are a tree with at least two children at each internal node, and their
block numbers are `u64`. -/
structure Shaped (tree : InMemoryCowBtrfsTree) (h : Nat) : Prop where
  rooted : Tree (pointersOf tree) h tree.root
  nodup : (order (pointersOf tree) h tree.root).Nodup
  blocks : ∀ block ∈ order (pointersOf tree) h tree.root, block < 2 ^ 64
  wide : ∀ block ∈ order (pointersOf tree) h tree.root, ∀ keys children,
    tree.nodes block = some (.internal keys children) → 2 ≤ children.length

theorem node_of_pointersOf {block : Nat} {cs : List Nat} (hcs : pointersOf tree block = some cs) :
    ∃ node, tree.nodes block = some node ∧ BtrfsCowNode.pointers node = cs :=
  Option.map_eq_some_iff.mp hcs

/-- There are not enough block numbers for a tree of 256 levels. -/
theorem Shaped.height_lt (hshaped : Shaped tree h) : h < 256 := by
  have hmany : 2 ^ h ≤ (order (pointersOf tree) h tree.root).length := by
    refine hshaped.rooted.two_pow_le fun block hblock cs hcs hne => ?_
    obtain ⟨node, hnode, rfl⟩ := node_of_pointersOf hcs
    cases node with
    | leaf items => exact absurd rfl hne
    | internal keys children => exact hshaped.wide block hblock keys children hnode
  have hfew : (order (pointersOf tree) h tree.root).length ≤ 2 ^ 64 := by
    rw [← List.toFinset_card_of_nodup hshaped.nodup, ← Finset.card_range (2 ^ 64)]
    refine Finset.card_le_card fun block hblock => ?_
    exact Finset.mem_range.mpr (hshaped.blocks block (List.mem_toFinset.mp hblock))
  have hpow : h ≤ 64 := (Nat.pow_le_pow_iff_right (by omega)).mp (hmany.trans hfew)
  omega

section Heights

variable {fuel block : Nat}

theorem heightOf_tree (htree : Tree (pointersOf tree) h block)
    (hfull : ∀ x ∈ order (pointersOf tree) h block, ∀ keys children,
      tree.nodes x = some (.internal keys children) → children ≠ []) (hfuel : h < fuel) :
    heightOf tree.nodes fuel block = .ok (h + 1) := by
  induction fuel generalizing h block with
  | zero => omega
  | succ fuel ih =>
    have hblock := hfull block (mem_order_self _ h block)
    unfold heightOf
    obtain ⟨cs, hcs⟩ := htree.kids_eq
    obtain ⟨node, hnode, rfl⟩ := node_of_pointersOf hcs
    rw [hnode]
    cases node with
    | leaf items =>
      cases h with
      | zero => rfl
      | succ h =>
        obtain ⟨cs, hcs', hne, -⟩ := htree
        exact absurd (Option.some.inj (hcs'.symm.trans hcs)) hne
    | internal keys children =>
      have hne : children ≠ [] := hblock keys children hnode
      cases h with
      | zero => exact absurd (Option.some.inj (hcs.symm.trans htree)) hne
      | succ h =>
        obtain ⟨cs, hcs', -, hsub⟩ := htree
        obtain rfl := Option.some.inj (hcs.symm.trans hcs')
        rw [order_succ hcs] at hfull
        have hheights : children.mapM (heightOf tree.nodes fuel) =
            .ok (List.replicate children.length (h + 1)) := by
          rw [mapM_eq_ok, List.forall₂_iff_get]
          refine ⟨(List.length_replicate).symm, fun i hi hi' => ?_⟩
          rw [List.get_eq_getElem, List.get_eq_getElem, List.getElem_replicate]
          have hmem := List.getElem_mem hi
          exact ih (hsub _ hmem) (fun x hx => hfull x (List.mem_append_left _
            (List.mem_flatMap.mpr ⟨_, hmem, hx⟩))) (by omega)
        have hpos := List.length_pos_of_ne_nil hne
        dsimp only
        rw [hheights, ok_bind, List.getLast?_replicate, if_neg (by omega), Option.elim_some, ok_bind,
          failIf_of_not (by simp [List.dropLast_replicate]), ok_bind]
        rfl

end Heights

/-! ## The graph of a tree -/

section Collect

variable {generation : Nat} {acc acc' : OrdMap Nat DagNode} {l l' : List Nat}

structure Collected (tree : InMemoryCowBtrfsTree) (generation : Nat) (l : List Nat)
    (acc acc' : OrdMap Nat DagNode) : Prop where
  others : ∀ x, x ∉ l → acc'.get? x = acc.get? x
  added : ∀ x ∈ l, ∃ level cs, Tree (pointersOf tree) level x ∧ pointersOf tree x = some cs ∧
    acc'.get? x = some ⟨x, level, generation, cs, false⟩

theorem Collected.trans {acc'' : OrdMap Nat DagNode} (hfirst : Collected tree generation l acc acc')
    (hsecond : Collected tree generation l' acc' acc'') (hdisjoint : ∀ x ∈ l, x ∉ l') :
    Collected tree generation (l ++ l') acc acc'' where
  others x hx := by
    rw [List.mem_append, not_or] at hx
    rw [hsecond.others x hx.2, hfirst.others x hx.1]
  added x hx := by
    rcases List.mem_append.mp hx with hx | hx
    · rw [hsecond.others x (hdisjoint x hx)]
      exact hfirst.added x hx
    · exact hsecond.added x hx

theorem Collected.congr (h : Collected tree generation l acc acc') (hmem : ∀ x, x ∈ l' ↔ x ∈ l) :
    Collected tree generation l' acc acc' where
  others x hx := h.others x (mt (hmem x).mpr hx)
  added x hx := h.added x ((hmem x).mp hx)

theorem foldlM_collectNodes {fuel level : Nat} {cs : List Nat}
    (hcollect : ∀ c ∈ cs, ∀ acc : OrdMap Nat DagNode,
      (∀ x ∈ order (pointersOf tree) h c, acc.get? x = none) →
      ∃ acc', collectNodes tree generation fuel c level acc = .ok acc' ∧
        Collected tree generation (order (pointersOf tree) h c) acc acc')
    (hnodup : (cs.flatMap (order (pointersOf tree) h)).Nodup)
    (hnew : ∀ x ∈ cs.flatMap (order (pointersOf tree) h), acc.get? x = none) :
    ∃ acc', cs.foldlM (fun nodes child => collectNodes tree generation fuel child level nodes) acc =
        .ok acc' ∧ Collected tree generation (cs.flatMap (order (pointersOf tree) h)) acc acc' := by
  induction cs generalizing acc with
  | nil => exact ⟨acc, rfl, fun _ _ => rfl, nofun⟩
  | cons c cs ih =>
    rw [List.flatMap_cons] at hnodup hnew ⊢
    rw [List.nodup_append] at hnodup
    rw [List.forall_mem_append] at hnew
    rw [List.forall_mem_cons] at hcollect
    have hapart : ∀ x ∈ order (pointersOf tree) h c, x ∉ cs.flatMap (order (pointersOf tree) h) :=
      fun x hx hx' => hnodup.2.2 x hx x hx' rfl
    obtain ⟨acc₁, hrun₁, hacc₁⟩ := hcollect.1 acc hnew.1
    obtain ⟨acc₂, hrun₂, hacc₂⟩ := ih hcollect.2 hnodup.2.1 fun x hx => by
      rw [hacc₁.others x fun hx' => hapart x hx' hx]
      exact hnew.2 x hx
    refine ⟨acc₂, ?_, hacc₁.trans hacc₂ hapart⟩
    rw [List.foldlM_cons, hrun₁, ok_bind, hrun₂]

theorem collectNodes_tree {fuel block : Nat} (htree : Tree (pointersOf tree) h block)
    (hfull : ∀ x ∈ order (pointersOf tree) h block, ∀ keys children,
      tree.nodes x = some (.internal keys children) → children ≠ [])
    (hnodup : (order (pointersOf tree) h block).Nodup)
    (hnew : ∀ x ∈ order (pointersOf tree) h block, acc.get? x = none) (hfuel : h < fuel) :
    ∃ acc', collectNodes tree generation fuel block h acc = .ok acc' ∧
      Collected tree generation (order (pointersOf tree) h block) acc acc' := by
  induction fuel generalizing h block acc with
  | zero => omega
  | succ fuel ih =>
    have htree' := htree
    obtain ⟨cs, hcs⟩ := htree.kids_eq
    obtain ⟨node, hnode, rfl⟩ := node_of_pointersOf hcs
    have hblock := hfull block (mem_order_self _ h block)
    -- the node itself
    have hself : ∀ level, level = h → Collected tree generation [block] acc
        (acc.insert block ⟨block, level, generation, BtrfsCowNode.pointers node, false⟩) := by
      rintro level rfl
      refine ⟨fun x hx => ?_, fun x hx => ⟨level, BtrfsCowNode.pointers node, ?_⟩⟩
      · rw [OrdMap.get?_insert, if_neg (by simpa using hx)]
      · rw [List.mem_singleton.mp hx]
        exact ⟨htree', hcs, by rw [OrdMap.get?_insert, if_pos rfl]⟩
    unfold collectNodes
    rw [hnew block (mem_order_self _ h block), hnode]
    cases node with
    | leaf items =>
      cases h with
      | zero => exact ⟨_, rfl, hself 0 rfl⟩
      | succ h =>
        obtain ⟨cs, hcs', hne, -⟩ := htree
        exact absurd (Option.some.inj (hcs'.symm.trans hcs)) hne
    | internal keys children =>
      have hne : children ≠ [] := hblock keys children hnode
      cases h with
      | zero => exact absurd (Option.some.inj (hcs.symm.trans htree)) hne
      | succ h =>
        obtain ⟨cs, hcs', -, hsub⟩ := htree
        obtain rfl := Option.some.inj (hcs.symm.trans hcs')
        rw [order_succ hcs] at hfull hnodup hnew ⊢
        rw [List.nodup_append] at hnodup
        have habove : ∀ x ∈ [block], x ∉ children.flatMap (order (pointersOf tree) h) :=
          fun x hx hx' => hnodup.2.2 x hx' x hx rfl
        obtain ⟨acc', hrun, hacc'⟩ := foldlM_collectNodes
          (fun c hc acc hacc => ih (hsub c hc)
            (fun x hx => hfull x (List.mem_append_left _ (List.mem_flatMap.mpr ⟨c, hc, hx⟩)))
            ((List.nodup_flatMap.mp hnodup.1).1 c hc) hacc (by omega)) hnodup.1
          fun x hx => by
            rw [(hself (h + 1) rfl).others x fun hx' => habove x hx' hx]
            exact hnew x (List.mem_append_left _ hx)
        exact ⟨acc', hrun, ((hself (h + 1) rfl).trans hacc' habove).congr fun x => by
          rw [List.mem_append, List.mem_append, or_comm]⟩

theorem fromCowTree_shaped (hshaped : Shaped tree h) {fuel : Nat} (hfuel : h < fuel)
    (generation : Nat) :
    ∃ dag, fromCowTree fuel tree generation = .ok dag ∧ dag.root = tree.root ∧
      Collected tree generation (order (pointersOf tree) h tree.root) ∅ dag.nodes := by
  have hfull : ∀ x ∈ order (pointersOf tree) h tree.root, ∀ keys children,
      tree.nodes x = some (.internal keys children) → children ≠ [] := by
    intro x hx keys children hnode hnil
    have := hshaped.wide x hx keys children hnode
    rw [hnil] at this
    simp at this
  have hlevel : rootLevel fuel tree = h := by
    unfold rootLevel
    rw [heightOf_tree hshaped.rooted hfull hfuel]
    have := hshaped.height_lt
    simp only [Nat.succ_pos, if_true, Nat.add_sub_cancel]
    omega
  obtain ⟨nodes, hrun, hnodes⟩ := @collectNodes_tree tree h generation ∅ fuel tree.root
    hshaped.rooted hfull hshaped.nodup (fun _ _ => rfl) hfuel
  refine ⟨⟨nodes, tree.root, generation⟩, ?_, rfl, hnodes⟩
  unfold fromCowTree
  rw [hlevel, hrun]
  rfl

end Collect

end Trees

/-! ## The order -/

structure TreeDag (dag : WriteDependencyDag) (h : Nat) : Prop where
  rooted : Tree dag.children h dag.root
  nodup : (order dag.children h dag.root).Nodup
  nodes : ∀ block, (dag.nodes.get? block).isSome ↔ block ∈ order dag.children h dag.root

section Order

variable {tree : InMemoryCowBtrfsTree} {dag : WriteDependencyDag} {h : Nat}

theorem Collected.treeDag {generation : Nat} (hshaped : Shaped tree h)
    (hroot : dag.root = tree.root)
    (hnodes : Collected tree generation (order (pointersOf tree) h tree.root) ∅ dag.nodes) :
    TreeDag dag h ∧ order dag.children h dag.root = order (pointersOf tree) h tree.root := by
  have hsame : ∀ x ∈ order (pointersOf tree) h tree.root, dag.children x = pointersOf tree x := by
    intro x hx
    obtain ⟨level, cs, -, hcs, hget⟩ := hnodes.added x hx
    unfold WriteDependencyDag.children
    rw [hget, hcs]
    rfl
  have htree := hshaped.rooted.congr hsame
  have horder := (hshaped.rooted.within.congr hsame).2
  rw [← hroot] at htree horder
  refine ⟨⟨htree, ?_, fun block => ?_⟩, by rw [horder, hroot]⟩
  · rw [horder, hroot]
    exact hshaped.nodup
  · rw [horder, hroot]
    constructor
    · intro hsome
      by_contra hnot
      rw [hnodes.others block hnot] at hsome
      cases hsome
    · intro hblock
      obtain ⟨level, cs, -, -, hget⟩ := hnodes.added block hblock
      rw [hget]
      rfl

theorem TreeDag.perm_keys (hdag : TreeDag dag h) :
    (order dag.children h dag.root).Perm dag.nodes.keys := by
  refine (List.perm_ext_iff_of_nodup hdag.nodup dag.nodes.keys_nodup).mpr fun block => ?_
  rw [OrdMap.mem_keys, hdag.nodes]

theorem TreeDag.nodeCount (hdag : TreeDag dag h) :
    dag.nodeCount = (order dag.children h dag.root).length := by
  rw [hdag.perm_keys.length_eq, OrdMap.keys, List.length_map]
  rfl

variable {ε α : Type} {emit : Nat → EStateM ε α Unit} {emitted : α → Nat}

theorem lt_length_order {kids : Nat → Option (List Nat)} {b : Nat} (htree : Tree kids h b) :
    h < (order kids h b).length := by
  induction h generalizing b with
  | zero => exact Nat.one_pos
  | succ h ih =>
    obtain ⟨cs, hcs, hne, hsub⟩ := htree
    obtain ⟨c, cs', rfl⟩ := List.exists_cons_of_ne_nil hne
    have := ih (hsub c List.mem_cons_self)
    rw [order_succ hcs, List.length_append, List.flatMap_cons, List.length_append,
      List.length_singleton]
    omega

theorem TreeDag.traverse (hdag : TreeDag dag h) {a : α}
    (hcount : ∀ a', each emit (order dag.children h dag.root) a = .ok () a' →
      emitted a' = (order dag.children h dag.root).length) :
    Walk.forget (dag.traverse emit emitted ⟨[], a⟩) =
      each emit (order dag.children h dag.root) a := by
  have hfuel : h < dag.nodeCount + 1 := by
    rw [hdag.nodeCount]
    exact Nat.lt_succ_of_lt (lt_length_order hdag.rooted)
  have hwalk : Emits (walk dag.children emit (dag.nodeCount + 1) dag.root) ⟨[], a⟩
      (order dag.children h dag.root) (order dag.children h dag.root) emit :=
    walk_emits hdag.rooted hfuel hdag.nodup fun _ _ => List.not_mem_nil
  have hrun := hwalk.run
  unfold WriteDependencyDag.traverse
  cases hw : walk dag.children emit (dag.nodeCount + 1) dag.root ⟨[], a⟩ with
  | ok u w =>
    rw [hw] at hrun
    have hall := hcount w.acc hrun.symm
    rw [bind_run hw, ← hrun]
    show Walk.forget ((ite (emitted w.acc ≠ dag.nodeCount) _ _ : EStateM ε (Walk Nat α) Unit) w) = _
    rw [if_neg (by rw [hall, hdag.nodeCount]; exact fun hne => hne rfl)]
    rfl
  | error e w =>
    rw [hw] at hrun
    rw [bind_run_error hw, ← hrun]

theorem each_push {β : Type} (f : Nat → β) (l : List Nat) (acc : List β) :
    each (fun block => modify (· ++ [f block]) : Nat → EStateM BtrfsMutationError (List β) Unit) l
      acc = .ok () (acc ++ l.map f) := by
  induction l generalizing acc with
  | nil => exact congrArg _ (List.append_nil acc).symm
  | cons b l ih =>
    show each _ l (acc ++ [f b]) = _
    rw [ih, List.map_cons, List.append_assoc]
    rfl

theorem TreeDag.reverseTopologicalOrder (hdag : TreeDag dag h) :
    dag.reverseTopologicalOrder = order dag.children h dag.root := by
  unfold WriteDependencyDag.reverseTopologicalOrder
  rw [hdag.traverse fun a' ha' => ?_]
  · rw [each_push (fun block => block), List.map_id']
    rfl
  · rw [each_push (fun block => block), List.map_id'] at ha'
    cases ha'
    rfl

theorem TreeDag.reverseTopologicalOrderWithLevels (hdag : TreeDag dag h) :
    dag.reverseTopologicalOrderWithLevels =
      (order dag.children h dag.root).map fun block => (block, dag.nodeLevel block) := by
  unfold WriteDependencyDag.reverseTopologicalOrderWithLevels
  rw [hdag.traverse fun a' ha' => ?_]
  · rw [each_push (fun block => (block, dag.nodeLevel block))]
    rfl
  · rw [each_push (fun block => (block, dag.nodeLevel block))] at ha'
    cases ha'
    rw [List.nil_append, List.length_map]

variable {τ : Type} {visit : Nat → Nat → EStateM ε τ Unit} {level : Nat → Nat}

theorem each_streamed (l : List Nat) (visitor : τ) (n : Nat) :
    WriteDependencyDag.Streamed.finish
        (each (fun block => WriteDependencyDag.Streamed.visit visit block (level block)) l
          ⟨visitor, n⟩) = each (fun block => visit block (level block)) l visitor ∧
      ∀ s, each (fun block => WriteDependencyDag.Streamed.visit visit block (level block)) l
        ⟨visitor, n⟩ = .ok () s → s.emitted = n + l.length := by
  induction l generalizing visitor n with
  | nil =>
    refine ⟨rfl, fun s hs => ?_⟩
    injection hs with _ hs
    rw [← hs]
    rfl
  | cons b l ih =>
    unfold each
    cases hvisit : visit b (level b) visitor with
    | ok u visitor' =>
      have hstep : WriteDependencyDag.Streamed.visit visit b (level b) ⟨visitor, n⟩ =
          .ok () ⟨visitor', n + 1⟩ := by
        unfold WriteDependencyDag.Streamed.visit
        rw [hvisit]
      rw [bind_run hstep, bind_run hvisit]
      refine ⟨(ih visitor' (n + 1)).1, fun s hs => ?_⟩
      rw [(ih visitor' (n + 1)).2 s hs, List.length_cons]
      omega
    | error e visitor' =>
      have hstep : WriteDependencyDag.Streamed.visit visit b (level b) ⟨visitor, n⟩ =
          .error e ⟨visitor', n⟩ := by
        unfold WriteDependencyDag.Streamed.visit
        rw [hvisit]
      rw [bind_run_error hstep, bind_run_error hvisit]
      refine ⟨rfl, fun s hs => ?_⟩
      injection hs

theorem TreeDag.tryForEach (hdag : TreeDag dag h) (visitor : τ) :
    dag.tryForEachReverseTopologicalWithLevels visit visitor =
      each (fun block => visit block (dag.nodeLevel block)) (order dag.children h dag.root)
        visitor := by
  unfold WriteDependencyDag.tryForEachReverseTopologicalWithLevels
  rw [hdag.traverse fun s hs => ?_, (each_streamed _ _ _).1]
  rw [(each_streamed _ _ _).2 s hs, Nat.zero_add]

end Order

/-! ## Executions -/

section Execution

variable {dag : WriteDependencyDag} {h : Nat}

theorem check_ok_iff {durableBlocks : Finset Nat} :
    check durableBlocks dag = .ok () ↔ ∀ block ∈ durableBlocks, ∀ cs,
      dag.children block = some cs → ∀ c ∈ cs, c ∈ durableBlocks := by
  have hnone : check durableBlocks dag = .ok () ↔ ∀ entry ∈ dag.nodes.entries,
      entry.1 ∈ durableBlocks → ∀ c ∈ entry.2.children, c ∈ durableBlocks := by
    unfold check
    rw [show ∀ o : Option WbI1Violation, o.elim (.ok ()) .error = (.ok () : Except _ Unit) ↔ o = none
      from fun o => by cases o <;> simp, List.findSome?_eq_none_iff]
    refine forall₂_congr fun entry _ => ?_
    split_ifs with hdurable
    · rw [Option.map_eq_none_iff, List.find?_eq_none]
      simp [hdurable]
    · simp [hdurable]
  rw [hnone]
  constructor
  · intro hall block hblock cs hcs
    obtain ⟨node, hnode, rfl⟩ := Option.map_eq_some_iff.mp hcs
    exact hall (block, node) (dag.nodes.mem_entries.mpr hnode) hblock
  · rintro hall ⟨block, node⟩ hentry hblock
    refine hall block hblock node.children ?_
    unfold WriteDependencyDag.children
    rw [dag.nodes.mem_entries.mp hentry]
    rfl

/-- What was flushed, and what each crash point holds, is a beginning of the order. -/
structure Consistent (dag : WriteDependencyDag) (l : List Nat) (x : Execution) : Prop where
  flushed : ∃ p, p <+: l ∧ x.flushed = p.map fun block => (block, dag.nodeLevel block)
  points : ∀ point ∈ x.executor.crashPoints, ∃ p, p <+: l ∧ point.durableBlocks = p.toFinset
  children : x.executor.dag.children = dag.children

variable {flushNode : FlushNode} {l done : List Nat} {x : Execution}

theorem Consistent.record (hx : Consistent dag l x) {p : List Nat} (hp : p <+: l) (id : String) :
    Ensures (recordCrashPoint id p.toFinset) x
      (fun _ x' => Consistent dag l x' ∧ x'.flushed = x.flushed) fun _ _ => False := by
  refine ⟨⟨hx.flushed, fun point hpoint => ?_, hx.children⟩, rfl⟩
  rcases List.mem_append.mp hpoint with hpoint | hpoint
  · exact hx.points point hpoint
  · rw [List.mem_singleton.mp hpoint]
    exact ⟨p, hp, rfl⟩

theorem Consistent.flush (hx : Consistent dag l x) {block : Nat}
    (hdone : x.flushed = done.map fun block => (block, dag.nodeLevel block))
    (hnext : done ++ [block] <+: l) :
    Ensures (flush flushNode block (dag.nodeLevel block)) x
      (fun _ x' => Consistent dag l x' ∧
        x'.flushed = (done ++ [block]).map fun block => (block, dag.nodeLevel block))
      fun _ x' => Consistent dag l x' := by
  refine ensures_get_bind.mpr (Ensures.bind (Q := fun _ x' => x' = x)
    (ensures_ofExcept (fun _ _ => rfl) fun _ _ => hx) ?_)
  rintro _ x' rfl
  have hflushed : x'.flushed ++ [(block, dag.nodeLevel block)] =
      (done ++ [block]).map fun block => (block, dag.nodeLevel block) := by
    rw [hdone, List.map_append]
    rfl
  exact ⟨⟨⟨_, hnext, hflushed⟩, hx.points, hx.children⟩, hflushed⟩

theorem markDurable_children {dag' : WriteDependencyDag} {block : Nat}
    (hmark : dag.markDurable block = .ok dag') : dag'.children = dag.children := by
  unfold WriteDependencyDag.markDurable at hmark
  cases hnode : dag.nodes.get? block with
  | none =>
    rw [hnode] at hmark
    cases hmark
  | some node =>
    rw [hnode] at hmark
    cases hmark
    funext b
    unfold WriteDependencyDag.children
    rw [OrdMap.get?_insert]
    split_ifs with hb
    · rw [hb, hnode]
      rfl
    · rfl

theorem Consistent.mark (hx : Consistent dag l x) (block : Nat) :
    Ensures (markFlushed block) x
      (fun _ x' => Consistent dag l x' ∧ x'.flushed = x.flushed) fun _ x' => Consistent dag l x' := by
  refine ensures_get_bind.mpr (Ensures.bind
    (Q := fun dag' x' => x' = x ∧ dag'.children = x.executor.dag.children)
    (ensures_ofExcept (fun _ hmark => ⟨rfl, markDurable_children hmark⟩) fun _ _ => hx) ?_)
  rintro dag' x' ⟨rfl, hchildren⟩
  exact ⟨⟨hx.flushed, hx.points, hchildren.trans hx.children⟩, rfl⟩

theorem flushTracked_consistent (rest : List Nat) (hl : done ++ rest = l)
    (hx : Consistent dag l x)
    (hdone : x.flushed = done.map fun block => (block, dag.nodeLevel block)) :
    Ensures (flushTracked flushNode (rest.map fun block => (block, dag.nodeLevel block))
      done.toFinset) x (fun _ => Consistent dag l) fun _ => Consistent dag l := by
  induction rest generalizing done x with
  | nil => exact hx
  | cons block rest ih =>
    have hnext : done ++ [block] <+: l := ⟨rest, by rw [← hl]; simp⟩
    have hinsert : insert block done.toFinset = (done ++ [block]).toFinset := by
      rw [List.toFinset_append, Finset.union_comm, List.toFinset_cons, List.toFinset_nil]
      rfl
    refine Ensures.bind ((hx.record ⟨block :: rest, hl⟩ _).mono (fun _ _ h => h)
      fun _ _ h => h.elim) fun _ x₁ ⟨hx₁, hsame₁⟩ => ?_
    refine Ensures.bind (hx₁.flush (hsame₁.trans hdone) hnext) fun _ x₂ ⟨hx₂, hdone₂⟩ => ?_
    refine Ensures.bind (hx₂.mark block) fun _ x₃ ⟨hx₃, hsame₃⟩ => ?_
    dsimp only
    rw [hinsert]
    refine Ensures.bind ((hx₃.record hnext _).mono (fun _ _ h => h) fun _ _ h => h.elim)
      fun _ x₄ ⟨hx₄, hsame₄⟩ => ?_
    exact ih (by rw [← hl]; simp) hx₄ (hsame₄.trans (hsame₃.trans hdone₂))

theorem each_flush_consistent (rest : List Nat) (hl : done ++ rest = l) (hx : Consistent dag l x)
    (hdone : x.flushed = done.map fun block => (block, dag.nodeLevel block)) :
    Ensures (each (fun block => flush flushNode block (dag.nodeLevel block)) rest) x
      (fun _ => Consistent dag l) fun _ => Consistent dag l := by
  induction rest generalizing done x with
  | nil => exact hx
  | cons block rest ih =>
    have hnext : done ++ [block] <+: l := ⟨rest, by rw [← hl]; simp⟩
    refine Ensures.bind (hx.flush hdone hnext) fun _ x₁ ⟨hx₁, hdone₁⟩ => ?_
    exact ih (by rw [← hl]; simp) hx₁ hdone₁

/-- **An execution flushes a beginning of the order**, with or without crash points. -/
theorem TreeDag.execute (hdag : TreeDag dag h) (hfresh : dag.durableBlockSet = ∅) (record : Bool) :
    Ensures (execute flushNode) ⟨⟨dag, [], false, record⟩, []⟩
      (fun _ => Consistent dag (order dag.children h dag.root))
      fun _ => Consistent dag (order dag.children h dag.root) := by
  have hstart : Consistent dag (order dag.children h dag.root) ⟨⟨dag, [], false, record⟩, []⟩ :=
    ⟨⟨[], List.nil_prefix, rfl⟩, nofun, rfl⟩
  refine ensures_get_bind.mpr ?_
  cases record with
  | true =>
    dsimp only
    rw [if_pos rfl, hdag.reverseTopologicalOrderWithLevels, hfresh]
    exact flushTracked_consistent (order dag.children h dag.root) (List.nil_append _) hstart rfl
  | false =>
    have heach : Ensures (each (fun block => flush flushNode block (dag.nodeLevel block))
        (order dag.children h dag.root)) _ _ _ :=
      each_flush_consistent (order dag.children h dag.root) (List.nil_append _) hstart rfl
    unfold Ensures at heach ⊢
    rw [← hdag.tryForEach] at heach
    exact heach

theorem Consistent.verifyWbI1 (hclosed : PrefixClosed dag.children l) (hx : Consistent dag l x) :
    x.executor.verifyWbI1 = .ok () := by
  have hpoints : ∀ point ∈ x.executor.crashPoints,
      check point.durableBlocks x.executor.dag = .ok () := by
    intro point hpoint
    obtain ⟨p, hp, hdurable⟩ := hx.points point hpoint
    refine check_ok_iff.mpr fun block hblock cs hcs c hc => ?_
    rw [hx.children] at hcs
    rw [hdurable, List.mem_toFinset] at hblock ⊢
    exact hclosed p hp block hblock cs hcs c hc
  unfold WritebackExecutor.verifyWbI1
  generalize x.executor.crashPoints = points at hpoints
  induction points with
  | nil => rfl
  | cons point points ih =>
    rw [List.forall_mem_cons] at hpoints
    show (check point.durableBlocks x.executor.dag >>= fun _ => _) = _
    rw [hpoints.1]
    exact ih hpoints.2

end Execution

/-- In each moment of the execution what was flushed is closed under children, and every crash
point passes. -/
def Sound (tree : InMemoryCowBtrfsTree) (x : Execution) : Prop :=
  PrefixClosed (pointersOf tree) (x.flushed.map Prod.fst) ∧ x.executor.verifyWbI1 = .ok ()

/-- **Writeback puts children before parents.** -/
theorem writeback_children_first (tree : InMemoryCowBtrfsTree) (h : Nat)
    (hshaped : Shaped tree h) (fuel : Nat) (hfuel : h < fuel) (generation : Nat) :
    ∃ dag, fromCowTree fuel tree generation = .ok dag ∧
      (∀ block, (dag.nodes.get? block).isSome ↔ Reaches (pointersOf tree) tree.root block) ∧
      (∀ block node, dag.nodes.get? block = some node → node.block = block ∧
        Tree (pointersOf tree) node.level block ∧ pointersOf tree block = some node.children) ∧
      dag.reverseTopologicalOrder.Perm dag.nodes.keys ∧
      PrefixClosed (pointersOf tree) dag.reverseTopologicalOrder ∧
      dag.reverseTopologicalOrder.getLast? = some tree.root ∧
      dag.reverseTopologicalOrderWithLevels =
        dag.reverseTopologicalOrder.map (fun block => (block, dag.nodeLevel block)) ∧
      (∀ (ε τ : Type) (visit : Nat → Nat → EStateM ε τ Unit) (visitor : τ),
        dag.tryForEachReverseTopologicalWithLevels visit visitor =
          each (fun block => visit block (dag.nodeLevel block)) dag.reverseTopologicalOrder
            visitor) ∧
      ∀ flushNode executor,
        executor = .new dag ∨ executor = (WritebackExecutor.new dag).withoutCrashTracking →
        Ensures (execute flushNode) ⟨executor, []⟩ (fun _ => Sound tree) fun _ => Sound tree := by
  obtain ⟨dag, hdag, hroot, hnodes⟩ := fromCowTree_shaped hshaped hfuel generation
  obtain ⟨htree, horder⟩ := hnodes.treeDag hshaped hroot
  have hclosed := hshaped.rooted.prefixClosed
  have hfaithful : ∀ block node, dag.nodes.get? block = some node →
      Tree (pointersOf tree) node.level block ∧ pointersOf tree block = some node.children ∧
        node.durable = false ∧ node.block = block := by
    intro block node hnode
    have hblock : block ∈ order (pointersOf tree) h tree.root := by
      rw [← horder, ← htree.nodes, hnode]
      rfl
    obtain ⟨level, cs, hlevel, hcs, hget⟩ := hnodes.added block hblock
    rw [hnode] at hget
    cases hget
    exact ⟨hlevel, hcs, rfl, rfl⟩
  have hfresh : dag.durableBlockSet = ∅ := by
    unfold WriteDependencyDag.durableBlockSet
    rw [List.filter_eq_nil_iff.mpr, List.map_nil, List.toFinset_nil]
    rintro ⟨block, node⟩ hentry
    rw [(hfaithful block node (dag.nodes.mem_entries.mp hentry)).2.2.1]
    exact Bool.false_ne_true
  refine ⟨dag, hdag, fun block => ?_, fun block node hnode => ?_, ?_, ?_, ?_, ?_, ?_, ?_⟩
  · rw [htree.nodes, horder, hshaped.rooted.within.mem_order_iff]
  · obtain ⟨hlevel, hcs, -, hself⟩ := hfaithful block node hnode
    exact ⟨hself, hlevel, hcs⟩
  · rw [htree.reverseTopologicalOrder]
    exact htree.perm_keys
  · rw [htree.reverseTopologicalOrder, horder]
    exact hclosed
  · rw [htree.reverseTopologicalOrder, horder]
    exact getLast?_order _ _ _
  · rw [htree.reverseTopologicalOrder, htree.reverseTopologicalOrderWithLevels]
  · intro ε τ visit visitor
    rw [htree.reverseTopologicalOrder, htree.tryForEach]
  · intro flushNode executor hexecutor
    have hsound : ∀ x, Consistent dag (order dag.children h dag.root) x → Sound tree x := by
      intro x hx
      refine ⟨?_, hx.verifyWbI1 htree.rooted.prefixClosed⟩
      obtain ⟨p, hp, hflushed⟩ := hx.flushed
      rw [hflushed, List.map_map, show Prod.fst ∘ _ = fun block : Nat => block from rfl,
        List.map_id']
      rw [horder] at hp
      exact fun q hq => hclosed q (hq.trans hp)
    rcases hexecutor with rfl | rfl
    · exact (htree.execute hfresh true).mono (fun _ => hsound) fun _ => hsound
    · exact (htree.execute hfresh false).mono (fun _ => hsound) fun _ => hsound

def twoLeaves : InMemoryCowBtrfsTree :=
  { root := 3
    nodes := fun block =>
      if block = 3 then some (.internal [⟨7, 1, 0⟩] [1, 2])
      else if block = 1 ∨ block = 2 then some (.leaf []) else none }

theorem twoLeaves_shaped : Shaped twoLeaves 1 := by
  refine ⟨⟨[1, 2], rfl, by decide, fun c hc => ?_⟩, by decide, by decide, ?_⟩
  · simp only [List.mem_cons, List.not_mem_nil, or_false] at hc
    rcases hc with rfl | rfl <;> rfl
  · intro block hblock keys children hnode
    have hcases : block = 1 ∨ block = 2 ∨ block = 3 := by
      simpa [order, twoLeaves, pointersOf, BtrfsCowNode.pointers, or_assoc] using hblock
    rcases hcases with rfl | rfl | rfl
    · cases hnode
    · cases hnode
    · cases hnode
      decide

theorem writeback_children_first_sample :
    ∃ dag, fromCowTree 8 twoLeaves 5 = .ok dag ∧
      PrefixClosed (pointersOf twoLeaves) dag.reverseTopologicalOrder ∧
      dag.reverseTopologicalOrder.getLast? = some 3 := by
  obtain ⟨dag, hdag, -, -, -, hclosed, hlast, -⟩ :=
    writeback_children_first twoLeaves 1 twoLeaves_shaped 8 (by decide) 5
  exact ⟨dag, hdag, hclosed, hlast⟩

end FrankenFs.Btrfs.Writeback
