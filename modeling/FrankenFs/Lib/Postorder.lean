import FrankenFs.Lib.Outcome
import Mathlib.Data.List.Nodup
import Mathlib.Data.List.Infix
import Mathlib.Logic.Relation
import Mathlib.Algebra.Group.Nat.Defs

/-!
# Children before parents

`Tree` says that what is below a node is a tree of one height, `order` is its postorder, and `walk`
the traversal that marks what it visited and emits a node behind its children.
-/

namespace FrankenFs.Lib.Postorder

variable {ν α ε : Type} {kids kids' : ν → Option (List ν)} {h : Nat} {b x : ν}

/-! ## Trees -/

def Tree (kids : ν → Option (List ν)) : Nat → ν → Prop
  | 0, b => kids b = some []
  | h + 1, b => ∃ cs, kids b = some cs ∧ cs ≠ [] ∧ ∀ c ∈ cs, Tree kids h c

def Within (kids : ν → Option (List ν)) : Nat → ν → Prop
  | 0, b => kids b = some []
  | h + 1, b => ∃ cs, kids b = some cs ∧ ∀ c ∈ cs, Within kids h c

def order (kids : ν → Option (List ν)) : Nat → ν → List ν
  | 0, b => [b]
  | h + 1, b => ((kids b).getD []).flatMap (order kids h) ++ [b]

def Reaches (kids : ν → Option (List ν)) : ν → ν → Prop :=
  Relation.ReflTransGen fun a b => ∃ cs, kids a = some cs ∧ b ∈ cs

theorem order_succ {cs : List ν} (hkids : kids b = some cs) :
    order kids (h + 1) b = cs.flatMap (order kids h) ++ [b] := by
  rw [order, hkids, Option.getD_some]

theorem mem_order_self (kids : ν → Option (List ν)) (h : Nat) (b : ν) : b ∈ order kids h b := by
  cases h with
  | zero => exact List.mem_singleton_self b
  | succ h => exact List.mem_append_right _ (List.mem_singleton_self b)

theorem getLast?_order (kids : ν → Option (List ν)) (h : Nat) (b : ν) :
    (order kids h b).getLast? = some b := by
  cases h with
  | zero => rfl
  | succ h => rw [order, List.getLast?_append, List.getLast?_singleton, Option.some_or]

theorem Tree.kids_eq (htree : Tree kids h b) : ∃ cs, kids b = some cs := by
  cases h with
  | zero => exact ⟨_, htree⟩
  | succ h => exact htree.imp fun _ hcs => hcs.1

theorem Tree.within (htree : Tree kids h b) : Within kids h b := by
  induction h generalizing b with
  | zero => exact htree
  | succ h ih =>
    obtain ⟨cs, hkids, -, hcs⟩ := htree
    exact ⟨cs, hkids, fun c hc => ih (hcs c hc)⟩

theorem Within.below (htree : Within kids h b) (hx : x ∈ order kids h b) :
    ∃ h', Within kids h' x ∧ ∀ y ∈ order kids h' x, y ∈ order kids h b := by
  induction h generalizing b with
  | zero =>
    rw [List.mem_singleton.mp hx]
    exact ⟨0, htree, fun _ hy => hy⟩
  | succ h ih =>
    have htree' := htree
    obtain ⟨cs, hkids, hcs⟩ := htree
    rw [order_succ hkids] at hx ⊢
    rcases List.mem_append.mp hx with hx | hx
    · obtain ⟨c, hc, hx⟩ := List.mem_flatMap.mp hx
      obtain ⟨h', hsub, hmem⟩ := ih (hcs c hc) hx
      exact ⟨h', hsub, fun y hy =>
        List.mem_append_left _ (List.mem_flatMap.mpr ⟨c, hc, hmem y hy⟩)⟩
    · rw [List.mem_singleton.mp hx]
      exact ⟨h + 1, htree', fun y hy => by rwa [← order_succ hkids]⟩

theorem Within.mem_order_iff (htree : Within kids h b) : x ∈ order kids h b ↔ Reaches kids b x := by
  constructor
  · intro hx
    induction h generalizing b with
    | zero =>
      rw [List.mem_singleton.mp hx]
      exact Relation.ReflTransGen.refl
    | succ h ih =>
      obtain ⟨cs, hkids, hcs⟩ := htree
      rw [order_succ hkids] at hx
      rcases List.mem_append.mp hx with hx | hx
      · obtain ⟨c, hc, hx⟩ := List.mem_flatMap.mp hx
        exact (ih (hcs c hc) hx).head ⟨cs, hkids, hc⟩
      · rw [List.mem_singleton.mp hx]
        exact Relation.ReflTransGen.refl
  · intro hreach
    induction hreach with
    | refl => exact mem_order_self kids h b
    | tail _ hstep ih =>
      obtain ⟨h', hsub, hmem⟩ := htree.below ih
      obtain ⟨cs, hkids, hc⟩ := hstep
      refine hmem _ ?_
      cases h' with
      | zero =>
        obtain rfl := Option.some.inj (hkids.symm.trans hsub)
        cases hc
      | succ h' =>
        rw [order_succ hkids]
        exact List.mem_append_left _ (List.mem_flatMap.mpr ⟨_, hc, mem_order_self kids h' _⟩)

theorem Within.congr (htree : Within kids h b) (hkids : ∀ x ∈ order kids h b, kids' x = kids x) :
    Within kids' h b ∧ order kids' h b = order kids h b := by
  induction h generalizing b with
  | zero => exact ⟨(hkids b (mem_order_self kids 0 b)).trans htree, rfl⟩
  | succ h ih =>
    have hb := hkids b (mem_order_self kids (h + 1) b)
    obtain ⟨cs, hcs, hsub⟩ := htree
    rw [order_succ hcs] at hkids
    have hchildren : ∀ c ∈ cs, Within kids' h c ∧ order kids' h c = order kids h c := fun c hc =>
      ih (hsub c hc) fun x hx =>
        hkids x (List.mem_append_left _ (List.mem_flatMap.mpr ⟨c, hc, hx⟩))
    refine ⟨⟨cs, hb.trans hcs, fun c hc => (hchildren c hc).1⟩, ?_⟩
    rw [order_succ (hb.trans hcs), order_succ hcs, List.flatMap_congr fun c hc => (hchildren c hc).2]

theorem Tree.congr (htree : Tree kids h b) (hkids : ∀ x ∈ order kids h b, kids' x = kids x) :
    Tree kids' h b := by
  induction h generalizing b with
  | zero => exact (hkids b (mem_order_self kids 0 b)).trans htree
  | succ h ih =>
    have hb := hkids b (mem_order_self kids (h + 1) b)
    obtain ⟨cs, hcs, hne, hsub⟩ := htree
    rw [order_succ hcs] at hkids
    exact ⟨cs, hb.trans hcs, hne, fun c hc => ih (hsub c hc) fun x hx =>
      hkids x (List.mem_append_left _ (List.mem_flatMap.mpr ⟨c, hc, hx⟩))⟩

theorem Tree.two_pow_le (htree : Tree kids h b)
    (hwide : ∀ x ∈ order kids h b, ∀ cs, kids x = some cs → cs ≠ [] → 2 ≤ cs.length) :
    2 ^ h ≤ (order kids h b).length := by
  induction h generalizing b with
  | zero => exact Nat.le_refl _
  | succ h ih =>
    obtain ⟨cs, hcs, hne, hsub⟩ := htree
    have htwo := hwide b (mem_order_self kids (h + 1) b) cs hcs hne
    rw [order_succ hcs] at hwide ⊢
    have hchild : ∀ c ∈ cs, 2 ^ h ≤ (order kids h c).length := fun c hc =>
      ih (hsub c hc) fun x hx =>
        hwide x (List.mem_append_left _ (List.mem_flatMap.mpr ⟨c, hc, hx⟩))
    obtain ⟨c, c', cs, rfl⟩ : ∃ c c' cs', cs = c :: c' :: cs' := by
      rcases cs with _ | ⟨c, _ | ⟨c', cs⟩⟩
      · simp at htwo
      · simp at htwo
      · exact ⟨c, c', cs, rfl⟩
    have hfirst := hchild c (by simp)
    have hsecond := hchild c' (by simp)
    simp only [List.flatMap_cons, List.length_append, Nat.pow_succ]
    omega

/-! ## Prefixes -/

def PrefixClosed (kids : ν → Option (List ν)) (l : List ν) : Prop :=
  ∀ p, p <+: l → ∀ x ∈ p, ∀ cs, kids x = some cs → ∀ c ∈ cs, c ∈ p

theorem PrefixClosed.append {l l' : List ν} (hl : PrefixClosed kids l)
    (hl' : PrefixClosed kids l') : PrefixClosed kids (l ++ l') := by
  intro p hp x hx cs hcs c hc
  rcases List.prefix_or_prefix_of_prefix hp (List.prefix_append l l') with hp | ⟨q, rfl⟩
  · exact hl p hp x hx cs hcs c hc
  · have hq : q <+: l' := (List.prefix_append_right_inj l).mp hp
    rcases List.mem_append.mp hx with hx | hx
    · exact List.mem_append_left _ (hl l (List.prefix_refl l) x hx cs hcs c hc)
    · exact List.mem_append_right _ (hl' q hq x hx cs hcs c hc)

theorem PrefixClosed.flatMap {f : ν → List ν} {l : List ν} (hl : ∀ a ∈ l, PrefixClosed kids (f a)) :
    PrefixClosed kids (l.flatMap f) := by
  induction l with
  | nil =>
    intro p hp x hx
    rw [List.prefix_nil.mp hp] at hx
    cases hx
  | cons a l ih =>
    rw [List.flatMap_cons]
    exact (hl a List.mem_cons_self).append (ih fun a' ha' => hl a' (List.mem_cons_of_mem _ ha'))

theorem PrefixClosed.concat {l : List ν} (hl : PrefixClosed kids l)
    (hb : ∀ cs, kids b = some cs → ∀ c ∈ cs, c ∈ l) : PrefixClosed kids (l ++ [b]) := by
  intro p hp x hx cs hcs c hc
  rcases List.prefix_concat_iff.mp hp with rfl | hp
  · rcases List.mem_append.mp hx with hx | hx
    · exact List.mem_append_left _ (hl l (List.prefix_refl l) x hx cs hcs c hc)
    · rw [List.mem_singleton.mp hx] at hcs
      exact List.mem_append_left _ (hb cs hcs c hc)
  · exact hl p hp x hx cs hcs c hc

theorem Tree.prefixClosed (htree : Tree kids h b) : PrefixClosed kids (order kids h b) := by
  induction h generalizing b with
  | zero =>
    refine PrefixClosed.concat (l := []) ?_ fun cs hcs c hc => ?_
    · intro p hp x hx
      rw [List.prefix_nil.mp hp] at hx
      cases hx
    · rw [← Option.some.inj (htree.symm.trans hcs)] at hc
      exact hc
  | succ h ih =>
    obtain ⟨cs, hkids, -, hcs⟩ := htree
    rw [order_succ hkids]
    refine PrefixClosed.concat (PrefixClosed.flatMap fun c hc => ih (hcs c hc)) fun cs' hcs' c hc => ?_
    rw [← Option.some.inj (hkids.symm.trans hcs')] at hc
    exact List.mem_flatMap.mpr ⟨c, hc, mem_order_self kids h c⟩

/-! ## Walks -/

def each (emit : ν → EStateM ε α Unit) : List ν → EStateM ε α Unit
  | [] => pure ()
  | b :: bs => do
    emit b
    each emit bs

theorem each_append (emit : ν → EStateM ε α Unit) (l l' : List ν) :
    each emit (l ++ l') = (do each emit l; each emit l') := by
  induction l with
  | nil => rw [List.nil_append, each, pure_bind]
  | cons b l ih => rw [List.cons_append, each, ih, each, bind_assoc]

structure Walk (ν α : Type) where
  visited : List ν
  acc : α

def Walk.lift (m : EStateM ε α Unit) : EStateM ε (Walk ν α) Unit := fun w =>
  match m w.acc with
  | .ok _ a => .ok () { w with acc := a }
  | .error e a => .error e { w with acc := a }

def Walk.forget : EStateM.Result ε (Walk ν α) Unit → EStateM.Result ε α Unit
  | .ok _ w => .ok () w.acc
  | .error e w => .error e w.acc

structure Emits (m : EStateM ε (Walk ν α) Unit) (w : Walk ν α) (l marked : List ν)
    (emit : ν → EStateM ε α Unit) : Prop where
  run : Walk.forget (m w) = each emit l w.acc
  visited : ∀ w', m w = .ok () w' → ∀ x, x ∈ w'.visited ↔ x ∈ w.visited ∨ x ∈ marked

variable {emit : ν → EStateM ε α Unit} {w : Walk ν α} {m m' : EStateM ε (Walk ν α) Unit}

theorem Emits.pure : Emits (pure ()) w [] [] emit :=
  ⟨rfl, by
    rintro w' ⟨⟩ x
    simp⟩

theorem Emits.lift (b : ν) : Emits (Walk.lift (emit b)) w [b] [] emit := by
  have heach : each emit [b] = emit b := bind_pure_unit
  constructor
  · rw [heach]
    unfold Walk.lift
    cases emit b w.acc <;> rfl
  · intro w' hw' x
    unfold Walk.lift at hw'
    cases hemit : emit b w.acc with
    | ok u a =>
      rw [hemit] at hw'
      cases hw'
      simp
    | error e a =>
      rw [hemit] at hw'
      cases hw'

theorem Emits.seq {l l' marked marked' : List ν} (hm : Emits m w l marked emit)
    (hm' : ∀ w', (∀ x, x ∈ w'.visited ↔ x ∈ w.visited ∨ x ∈ marked) →
      Emits m' w' l' marked' emit) :
    Emits (do m; m') w (l ++ l') (marked ++ marked') emit := by
  have hrun := hm.run
  cases hmw : m w with
  | ok u w₁ =>
    have hnext := hm' w₁ (hm.visited w₁ hmw)
    rw [hmw] at hrun
    refine ⟨?_, fun w' hw' x => ?_⟩
    · rw [bind_run hmw, hnext.run, each_append, bind_run hrun.symm]
    · rw [bind_run hmw] at hw'
      rw [hnext.visited w' hw' x, hm.visited w₁ hmw x, List.mem_append, or_assoc]
  | error e w₁ =>
    rw [hmw] at hrun
    refine ⟨?_, fun w' hw' x => ?_⟩
    · rw [bind_run_error hmw, each_append, bind_run_error hrun.symm]
      rfl
    · rw [bind_run_error hmw] at hw'
      cases hw'

variable [DecidableEq ν]

def walk (kids : ν → Option (List ν)) (emit : ν → EStateM ε α Unit) :
    (fuel : Nat) → ν → EStateM ε (Walk ν α) Unit
  | 0, _ => pure ()
  | fuel + 1, b => do
    let w ← get
    if b ∈ w.visited then pure ()
    else do
      set { w with visited := b :: w.visited }
      (kids b).elim (pure ()) fun cs => do
        each (walk kids emit fuel) cs
        Walk.lift (emit b)

theorem each_walk_emits {fuel : Nat} {cs : List ν}
    (hwalk : ∀ c ∈ cs, ∀ w : Walk ν α, (∀ x ∈ order kids h c, x ∉ w.visited) →
      Emits (walk kids emit fuel c) w (order kids h c) (order kids h c) emit)
    (hnodup : (cs.flatMap (order kids h)).Nodup)
    (hnew : ∀ x ∈ cs.flatMap (order kids h), x ∉ w.visited) :
    Emits (each (walk kids emit fuel) cs) w (cs.flatMap (order kids h))
      (cs.flatMap (order kids h)) emit := by
  induction cs generalizing w with
  | nil => exact Emits.pure
  | cons c cs ih =>
    rw [List.flatMap_cons] at hnodup hnew ⊢
    rw [List.nodup_append] at hnodup
    rw [List.forall_mem_append] at hnew
    rw [List.forall_mem_cons] at hwalk
    refine (hwalk.1 w hnew.1).seq fun w' hw' => ih hwalk.2 hnodup.2.1 fun x hx hvisited => ?_
    rcases (hw' x).mp hvisited with hold | hfirst
    · exact hnew.2 x hx hold
    · exact hnodup.2.2 x hfirst x hx rfl

/-- **A walk over a tree emits its postorder.** -/
theorem walk_emits {fuel : Nat} (htree : Tree kids h b) (hfuel : h < fuel)
    (hnodup : (order kids h b).Nodup) (hnew : ∀ x ∈ order kids h b, x ∉ w.visited) :
    Emits (walk kids emit fuel b) w (order kids h b) (order kids h b) emit := by
  induction fuel generalizing h b w with
  | zero => omega
  | succ fuel ih =>
    have hunvisited := hnew b (mem_order_self kids h b)
    obtain ⟨cs, hcs⟩ := htree.kids_eq
    have hstart : walk kids emit (fuel + 1) b w =
        ((do each (walk kids emit fuel) cs; Walk.lift (emit b)) : EStateM ε (Walk ν α) Unit)
          { w with visited := b :: w.visited } := by
      show (ite (b ∈ w.visited) _ _ : EStateM ε (Walk ν α) Unit) w = _
      rw [if_neg hunvisited, hcs]
      rfl
    -- the node is marked before its children, which do not contain it
    obtain ⟨l, horder, hchildren⟩ : ∃ l, order kids h b = l ++ [b] ∧
        ∀ w' : Walk ν α, (∀ x ∈ l, x ∉ w'.visited) →
          Emits (each (walk kids emit fuel) cs) w' l l emit := by
      cases h with
      | zero =>
        obtain rfl := Option.some.inj (hcs.symm.trans htree)
        exact ⟨[], rfl, fun _ _ => Emits.pure⟩
      | succ h =>
        obtain ⟨cs', hcs', -, hsub⟩ := htree
        obtain rfl := Option.some.inj (hcs.symm.trans hcs')
        rw [order_succ hcs] at hnodup
        have hbelow := (List.nodup_append.mp hnodup).1
        refine ⟨_, order_succ hcs, fun w' hw' => each_walk_emits (fun c hc w'' hw'' => ?_) hbelow hw'⟩
        exact ih (hsub c hc) (by omega) ((List.nodup_flatMap.mp hbelow).1 c hc) hw''
    rw [horder] at hnodup hnew ⊢
    have hwhole := (hchildren { w with visited := b :: w.visited } fun x hx hvisited => ?_).seq
      fun w' _ => Emits.lift (w := w') b
    · refine ⟨?_, fun w' hw' x => ?_⟩
      · rw [hstart, hwhole.run]
      · rw [hstart] at hw'
        rw [hwhole.visited w' hw' x]
        simp only [List.mem_cons, List.append_nil, List.mem_append, List.not_mem_nil, or_false]
        tauto
    · rcases List.mem_cons.mp hvisited with rfl | hold
      · exact (List.nodup_append.mp hnodup).2.2 x hx x (List.mem_singleton_self x) rfl
      · exact hnew x (List.mem_append_left _ hx) hold

end FrankenFs.Lib.Postorder
