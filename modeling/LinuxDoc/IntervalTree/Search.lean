import LinuxDoc.Foundations.LinkedTree
import LinuxDoc.Foundations.Loop
import Mathlib.Order.Bounds.Basic

/-! The interval tree of the rbtree document and its search for the first overlap.
Nodes lie at addresses of any type. Starts and ends are `unsigned long`, of which the
listings use only the order.
-/

namespace LinuxDoc.IntervalTree

open Foundations
open Foundations.LinkedTree

structure IntervalTreeNode (κ α : Type*) where
  rb : Links κ
  start : α
  last : α
  subtreeLast : α
  deriving DecidableEq, Repr

structure RbRoot (κ α : Type*) where
  rbNode : Option κ
  nodes : κ → IntervalTreeNode κ α

variable {κ α : Type*} [LinearOrder α]

def firstMatchPass (nodes : κ → IntervalTreeNode κ α) (start last : α) (node : κ)
    : Loop.Pass κ (Option κ) :=
  -- The code after the test of the left child, to which both of its failures lead.
  let here : Loop.Pass κ (Option κ) :=
    if (nodes node).start ≤ last then
      if start ≤ (nodes node).last then .leave (some node)
      else
        match (nodes node).rb.right with
        | some right =>
            if start ≤ (nodes right).subtreeLast then .again right else .leave none
        | none => .leave none
    else .leave none
  match (nodes node).rb.left with
  | some left => if start ≤ (nodes left).subtreeLast then .again left else here
  | none => here

def intervalTreeFirstMatch (root : RbRoot κ α) (start last : α) (fuel : Nat)
    : Option (Option κ) :=
  match root.rbNode with
  | none => some none
  | some node =>
      Loop.run (fun node => some (firstMatchPass root.nodes start last node)) fuel node

/-- The memory below the root holds a tree of this shape. -/
structure RbRoot.Represents (root : RbRoot κ α) (t : BinaryTree κ) : Prop where
  rbNode : root.rbNode = pointer t
  linked : Linked (fun n => (root.nodes n).rb) none t
  distinct : (inorder t).Nodup

omit [LinearOrder α] in
/-- Only the links matter. -/
theorem RbRoot.Represents.congr {root other : RbRoot κ α} {t : BinaryTree κ}
    (represents : root.Represents t) (rbNode : other.rbNode = root.rbNode)
    (rb : ∀ n, (other.nodes n).rb = (root.nodes n).rb)
    : other.Represents t where
  rbNode := rbNode.trans represents.rbNode
  linked := represents.linked.congr (fun n _ => rb n)
  distinct := represents.distinct

/-- Starts do not decrease from left to right. -/
def Ordered (nodes : κ → IntervalTreeNode κ α) (t : BinaryTree κ) : Prop :=
  (inorder t).Pairwise (fun a b => (nodes a).start ≤ (nodes b).start)

theorem Ordered.congr {nodes other : κ → IntervalTreeNode κ α} {t t' : BinaryTree κ}
    (ordered : Ordered nodes t) (start : ∀ n, (other n).start = (nodes n).start)
    (same : inorder t' = inorder t)
    : Ordered other t' := by
  rw [Ordered] at ordered ⊢
  rw [same]
  simpa only [start] using ordered

def lasts (nodes : κ → IntervalTreeNode κ α) (t : BinaryTree κ) : Set α :=
  Set.image (fun n => (nodes n).last) {n | n ∈ inorder t}

/-- Every node has the greatest end of its subtree. -/
def Augmented (nodes : κ → IntervalTreeNode κ α) : BinaryTree κ → Prop
  | .nil => True
  | .node a l r =>
      IsGreatest (lasts nodes (.node a l r)) (nodes a).subtreeLast
      ∧ Augmented nodes l
      ∧ Augmented nodes r

def Intersects (nodes : κ → IntervalTreeNode κ α) (start last : α) (n : κ) : Prop :=
  (nodes n).start ≤ last ∧ start ≤ (nodes n).last

instance (nodes : κ → IntervalTreeNode κ α) (start last : α)
    : DecidablePred (Intersects nodes start last) :=
  fun _ => inferInstanceAs (Decidable (_ ∧ _))

def firstIntersecting (nodes : κ → IntervalTreeNode κ α) (start last : α) (ns : List κ)
    : Option κ :=
  ns.find? (fun n => decide (Intersects nodes start last n))

section Search

variable {nodes : κ → IntervalTreeNode κ α} {start last : α}

theorem firstIntersecting_eq_none_iff {ns : List κ}
    : firstIntersecting nodes start last ns = none ↔ ∀ n ∈ ns, ¬ Intersects nodes start last n := by
  simp [firstIntersecting]

variable {a : κ} {l r : BinaryTree κ}

/-- An overlap before the node is the first one, then the node itself, then those after. -/
theorem firstIntersecting_node
    : firstIntersecting nodes start last (inorder (.node a l r))
      = (firstIntersecting nodes start last (inorder l)).or
          (if Intersects nodes start last a then some a
           else firstIntersecting nodes start last (inorder r)) := by
  rw [firstIntersecting, inorder, List.find?_append, List.find?_cons]
  by_cases hit : Intersects nodes start last a <;> simp [hit, firstIntersecting]

/-- No interval of a subtree that ends too early overlaps the query. -/
theorem firstIntersecting_of_subtreeLast {b : κ} (augmented : Augmented nodes (.node b l r))
    (early : ¬ start ≤ (nodes b).subtreeLast)
    : firstIntersecting nodes start last (inorder (.node b l r)) = none := by
  rw [firstIntersecting_eq_none_iff]
  intro n member hit
  have bound := augmented.1.2 (Set.mem_image_of_mem _ member)
  exact early (hit.2.trans bound)

/-- If some interval of the left subtree ends late enough and none overlaps, the query lies
before it, and so before everything to the right.
-/
theorem firstIntersecting_of_left {a b : κ} {l r l' r' : BinaryTree κ}
    (shape : l = .node b l' r') (ordered : Ordered nodes (.node a l r))
    (augmented : Augmented nodes l) (late : start ≤ (nodes b).subtreeLast)
    : firstIntersecting nodes start last (inorder (.node a l r))
      = firstIntersecting nodes start last (inorder l) := by
  cases found : firstIntersecting nodes start last (inorder l) with
  | some n => rw [firstIntersecting_node, found, Option.some_or]
  | none =>
      rw [firstIntersecting_eq_none_iff] at found ⊢
      subst shape
      obtain ⟨m, member, ends⟩ := augmented.1.1
      have beyond : last < (nodes m).start := by
        by_contra before
        exact found m member ⟨not_lt.mp before, late.trans ends.ge⟩
      rw [Ordered, inorder, List.pairwise_append] at ordered
      intro n inside hit
      rcases List.mem_append.mp inside with left | right
      · exact found n left hit
      · exact absurd ((ordered.2.2 m member n right).trans hit.1) (not_le.mpr beyond)

/-- A query before the node is before everything to its right. -/
theorem firstIntersecting_of_lt_start (ordered : Ordered nodes (.node a l r))
    (beyond : ¬ (nodes a).start ≤ last)
    : (if Intersects nodes start last a then some a
       else firstIntersecting nodes start last (inorder r)) = none := by
  rw [Ordered, inorder, List.pairwise_append, List.pairwise_cons] at ordered
  rw [if_neg (fun hit => beyond hit.1), firstIntersecting_eq_none_iff]
  intro n member hit
  exact beyond ((ordered.2.1.1 n member).trans hit.1)

theorem Ordered.left (ordered : Ordered nodes (.node a l r))
    : Ordered nodes l := by
  rw [Ordered, inorder, List.pairwise_append] at ordered
  exact ordered.1

theorem Ordered.right (ordered : Ordered nodes (.node a l r))
    : Ordered nodes r := by
  rw [Ordered, inorder, List.pairwise_append, List.pairwise_cons] at ordered
  exact ordered.2.1.2

/-- What is left to do once the left subtree is known to have no overlap. -/
theorem firstIntersecting_of_left_none
    (left : firstIntersecting nodes start last (inorder l) = none)
    : firstIntersecting nodes start last (inorder (.node a l r))
      = if Intersects nodes start last a then some a
        else firstIntersecting nodes start last (inorder r) := by
  rw [firstIntersecting_node, left, Option.none_or]

/-- A pass leaves with the first overlap of the subtree, or goes on to a child whose subtree
has the same first overlap.
-/
theorem firstMatchPass_cases (start last : α) {parent : Option κ}
    (links : (nodes a).rb = ⟨parent, pointer l, pointer r⟩) (ordered : Ordered nodes (.node a l r))
    (augmented : Augmented nodes (.node a l r))
    : firstMatchPass nodes start last a
        = .leave (firstIntersecting nodes start last (inorder (.node a l r)))
      ∨ ∃ b child, (child = l ∨ child = r) ∧ pointer child = some b
          ∧ firstMatchPass nodes start last a = .again b
          ∧ firstIntersecting nodes start last (inorder (.node a l r))
            = firstIntersecting nodes start last (inorder child) := by
  rcases augmented with ⟨_, augmentedL, augmentedR⟩
  by_cases late : ∃ b l' r', l = .node b l' r' ∧ start ≤ (nodes b).subtreeLast
  · obtain ⟨b, l', r', rfl, late⟩ := late
    right
    refine ⟨b, _, .inl rfl, rfl, ?_, firstIntersecting_of_left rfl ordered augmentedL late⟩
    simp [firstMatchPass, links, pointer, late]
  -- Otherwise the test of the left child fails, and there is no overlap on the left.
  have left : firstIntersecting nodes start last (inorder l) = none := by
    cases l with
    | nil => rfl
    | node b l' r' =>
        exact firstIntersecting_of_subtreeLast augmentedL
          (fun reached => late ⟨b, l', r', rfl, reached⟩)
  have here : firstMatchPass nodes start last a
      = if (nodes a).start ≤ last then
          if start ≤ (nodes a).last then .leave (some a)
          else
            match pointer r with
            | some right =>
                if start ≤ (nodes right).subtreeLast then .again right else .leave none
            | none => .leave none
        else .leave none := by
    cases l with
    | nil => simp [firstMatchPass, links, pointer]
    | node b l' r' =>
        have early : ¬ start ≤ (nodes b).subtreeLast :=
          fun reached => late ⟨b, l', r', rfl, reached⟩
        simp [firstMatchPass, links, pointer, early]
  rw [here, firstIntersecting_of_left_none left]
  by_cases cond1 : (nodes a).start ≤ last
  · by_cases cond2 : start ≤ (nodes a).last
    · left
      rw [if_pos cond1, if_pos cond2, if_pos ⟨cond1, cond2⟩]
    · rw [if_pos cond1, if_neg cond2, if_neg (fun hit => cond2 hit.2)]
      cases r with
      | nil => exact .inl rfl
      | node c l' r' =>
          by_cases reached : start ≤ (nodes c).subtreeLast
          · exact .inr ⟨c, _, .inr rfl, rfl, by simp [pointer, reached], rfl⟩
          · left
            rw [firstIntersecting_of_subtreeLast augmentedR reached]
            simp [pointer, reached]
  · left
    rw [if_neg cond1, firstIntersecting_of_lt_start ordered cond1]

/-- The search from the root of a subtree ends with the subtree's first overlap. -/
theorem firstMatch_settles (start last : α) {t : BinaryTree κ} {parent : Option κ}
    (root : pointer t = some a) (linked : Linked (fun n => (nodes n).rb) parent t)
    (ordered : Ordered nodes t) (augmented : Augmented nodes t)
    : Loop.Settles (fun _ node => some (firstMatchPass nodes start last node)) a
        (firstIntersecting nodes start last (inorder t)) := by
  induction t generalizing parent a with
  | nil => cases root
  | node b l r ihl ihr =>
      cases root
      rcases linked with ⟨links, left, right⟩
      rcases firstMatchPass_cases start last links ordered augmented with
        done | ⟨c, child, side, found, pass, same⟩
      · exact .leave (.const fun _ => congrArg some done)
      · rw [same]
        refine .again (.const fun _ => congrArg some pass) ?_
        rcases side with rfl | rfl
        · exact ihl found left ordered.left augmented.2.1
        · exact ihr found right ordered.right augmented.2.2

/-- In an ordered tree the first overlap has the smallest start of all. -/
theorem firstIntersecting_least {ns : List κ} {n : κ}
    (sorted : ns.Pairwise (fun a b => (nodes a).start ≤ (nodes b).start))
    (found : firstIntersecting nodes start last ns = some n)
    : n ∈ ns ∧ Intersects nodes start last n
      ∧ ∀ m ∈ ns, Intersects nodes start last m → (nodes n).start ≤ (nodes m).start := by
  rw [firstIntersecting, List.find?_eq_some_iff_append] at found
  obtain ⟨hit, before, after, rfl, missed⟩ := found
  rw [List.pairwise_append, List.pairwise_cons] at sorted
  refine ⟨by simp, of_decide_eq_true hit, ?_⟩
  intro m member overlaps
  rcases List.mem_append.mp member with early | late
  · exact absurd overlaps (by simpa using missed m early)
  · rcases List.mem_cons.mp late with rfl | late
    · exact le_rfl
    · exact sorted.2.1.1 m late

/-- The search returns the first overlap of the tree. -/
theorem intervalTreeFirstMatch_returns {root : RbRoot κ α} {t : BinaryTree κ} (start last : α)
    (represents : root.Represents t) (ordered : Ordered root.nodes t)
    (augmented : Augmented root.nodes t)
    : Loop.Returns (intervalTreeFirstMatch root start last)
        (firstIntersecting root.nodes start last (inorder t)) := by
  cases t with
  | nil =>
      apply Loop.Returns.const
      intro fuel
      rw [intervalTreeFirstMatch, represents.rbNode]
      rfl
  | node a l r =>
      have search : intervalTreeFirstMatch root start last
          = fun fuel =>
              Loop.run (fun node => some (firstMatchPass root.nodes start last node)) fuel a := by
        funext fuel
        rw [intervalTreeFirstMatch, represents.rbNode]
        rfl
      rw [search]
      exact (firstMatch_settles start last rfl represents.linked ordered augmented).returns

end Search

/-- The search returns the first node in order that overlaps the query, so one of smallest start,
and nothing exactly if no node overlaps it. The loop is followed down the tree by
`intervalTreeFirstMatch_returns`.
-/
theorem intervalTreeFirstMatch_exact (root : RbRoot κ α) (t : BinaryTree κ) (start last : α)
    (represents : root.Represents t) (ordered : Ordered root.nodes t)
    (augmented : Augmented root.nodes t)
    : ∃ result,
        Loop.Returns (intervalTreeFirstMatch root start last) result
        ∧ result = firstIntersecting root.nodes start last (inorder t)
        ∧ (∀ n, result = some n →
            n ∈ inorder t
            ∧ Intersects root.nodes start last n
            ∧ ∀ m ∈ inorder t, Intersects root.nodes start last m →
                (root.nodes n).start ≤ (root.nodes m).start)
        ∧ (result = none ↔ ∀ n ∈ inorder t, ¬ Intersects root.nodes start last n) := by
  refine ⟨_, intervalTreeFirstMatch_returns start last represents ordered augmented, rfl, ?_,
    firstIntersecting_eq_none_iff⟩
  intro n found
  exact firstIntersecting_least ordered found

section Sample

def sampleRoot : RbRoot Nat Nat where
  rbNode := some 1
  nodes
    | 0 => ⟨⟨some 1, none, none⟩, 5, 30, 30⟩
    | 1 => ⟨⟨none, some 0, some 2⟩, 10, 12, 40⟩
    | _ => ⟨⟨some 1, none, none⟩, 20, 40, 40⟩

def sampleShape : BinaryTree Nat :=
  .node 1 (.node 0 .nil .nil) (.node 2 .nil .nil)

theorem sampleRoot_represents : sampleRoot.Represents sampleShape where
  rbNode := rfl
  linked := by simp [sampleRoot, sampleShape, LinkedTree.Linked, pointer]
  distinct := by decide

theorem sampleRoot_ordered : Ordered sampleRoot.nodes sampleShape := by
  simp [Ordered, sampleShape, sampleRoot, inorder]

theorem sampleRoot_augmented : Augmented sampleRoot.nodes sampleShape := by
  simp [Augmented, sampleShape, sampleRoot, lasts, IsGreatest, upperBounds, or_imp, forall_and]

/-- The overlap with 35 to 50 is found to the right, past a node that ends too early. -/
theorem sampleRoot_firstMatch
    : ∃ result,
        Loop.Returns (intervalTreeFirstMatch sampleRoot 35 50) result ∧ result = some 2 := by
  obtain ⟨result, returned, first, _⟩ :=
    intervalTreeFirstMatch_exact sampleRoot sampleShape 35 50 sampleRoot_represents
      sampleRoot_ordered sampleRoot_augmented
  exact ⟨result, returned, first⟩

end Sample

end LinuxDoc.IntervalTree
