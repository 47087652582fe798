import LinuxDoc.IntervalTree.Search

/-! The augmented callbacks of the interval tree, and its insertion.
Each of them restores the greatest end of every subtree: the callbacks from what they find
next to the changed node, the insertion already on its way down.
-/

namespace LinuxDoc.IntervalTree

open Foundations
open Foundations.LinkedTree

variable {κ α : Type*}

section Stores

variable [DecidableEq κ] {nodes : κ → IntervalTreeNode κ α}

def setSubtreeLast (nodes : κ → IntervalTreeNode κ α) (node : κ) (subtreeLast : α)
    : κ → IntervalTreeNode κ α :=
  Function.update nodes node { nodes node with subtreeLast }

@[simp]
theorem setSubtreeLast_rb (node n : κ) (value : α)
    : (setSubtreeLast nodes node value n).rb = (nodes n).rb := by
  by_cases same : n = node
  · rw [same, setSubtreeLast, Function.update_self]
  · rw [setSubtreeLast, Function.update_of_ne same]

@[simp]
theorem setSubtreeLast_start (node n : κ) (value : α)
    : (setSubtreeLast nodes node value n).start = (nodes n).start := by
  by_cases same : n = node
  · rw [same, setSubtreeLast, Function.update_self]
  · rw [setSubtreeLast, Function.update_of_ne same]

@[simp]
theorem setSubtreeLast_last (node n : κ) (value : α)
    : (setSubtreeLast nodes node value n).last = (nodes n).last := by
  by_cases same : n = node
  · rw [same, setSubtreeLast, Function.update_self]
  · rw [setSubtreeLast, Function.update_of_ne same]

@[simp]
theorem setSubtreeLast_self (node : κ) (value : α)
    : (setSubtreeLast nodes node value node).subtreeLast = value := by
  rw [setSubtreeLast, Function.update_self]

theorem setSubtreeLast_of_ne {node n : κ} (other : n ≠ node) (value : α)
    : (setSubtreeLast nodes node value n).subtreeLast = (nodes n).subtreeLast := by
  rw [setSubtreeLast, Function.update_of_ne other]

end Stores

section Ends

variable {nodes other : κ → IntervalTreeNode κ α}

theorem lasts_nil : lasts nodes .nil = ∅ := by
  simp [lasts]

theorem lasts_node (a : κ) (l r : BinaryTree κ)
    : lasts nodes (.node a l r) = {(nodes a).last} ∪ lasts nodes l ∪ lasts nodes r := by
  ext x
  simp [lasts, or_and_right, exists_or, or_assoc, eq_comm]

theorem lasts_congr {t t' : BinaryTree κ} (same : inorder t' = inorder t)
    (last : ∀ n ∈ inorder t, (other n).last = (nodes n).last)
    : lasts other t' = lasts nodes t := by
  rw [lasts, lasts, same]
  exact Set.image_congr last

/-- The added leaf adds its end. -/
theorem lasts_insertLeaf {turn : κ → Bool} {t : BinaryTree κ} {new : κ}
    (ends : ∀ n ∈ inorder t, (other n).last = (nodes n).last)
    : lasts other (insertLeaf turn new t) = insert (other new).last (lasts nodes t) := by
  rw [← lasts_congr rfl ends]
  ext x
  simp [lasts, eq_comm]

end Ends

variable [LinearOrder α]

def joinSubtreeLast (nodes : κ → IntervalTreeNode κ α) (max : α) : Option κ → α
  | some child =>
      let subtreeLast := (nodes child).subtreeLast
      if max < subtreeLast then subtreeLast else max
  | none => max

def computeSubtreeLast (nodes : κ → IntervalTreeNode κ α) (node : κ) : α :=
  let max := (nodes node).last
  let max := joinSubtreeLast nodes max (nodes node).rb.left
  joinSubtreeLast nodes max (nodes node).rb.right

section Local

variable {nodes other : κ → IntervalTreeNode κ α}

variable {t : BinaryTree κ}

/-- Only the ends and the augmented values of the tree's own nodes matter. -/
theorem Augmented.congr (augmented : Augmented nodes t)
    (last : ∀ n ∈ inorder t, (other n).last = (nodes n).last)
    (subtreeLast : ∀ n ∈ inorder t, (other n).subtreeLast = (nodes n).subtreeLast)
    : Augmented other t := by
  induction t with
  | nil => trivial
  | node a l r ihl ihr =>
      rcases augmented with ⟨here, left, right⟩
      refine ⟨?_, ihl left ?_ ?_, ihr right ?_ ?_⟩
      · rw [lasts_congr rfl last, subtreeLast a (by simp)]
        exact here
      · exact fun n member => last n (by simp [member])
      · exact fun n member => subtreeLast n (by simp [member])
      · exact fun n member => last n (by simp [member])
      · exact fun n member => subtreeLast n (by simp [member])

/-- Joining a child that is right about its subtree gives the greatest end of both. -/
theorem joinSubtreeLast_isGreatest {ends : Set α} {max : α} (greatest : IsGreatest ends max)
    (augmented : Augmented nodes t)
    : IsGreatest (ends ∪ lasts nodes t) (joinSubtreeLast nodes max (pointer t)) := by
  cases t with
  | nil => simpa [lasts_nil, pointer, joinSubtreeLast] using greatest
  | node a l r =>
      have larger : joinSubtreeLast nodes max (pointer (.node a l r))
          = Max.max max (nodes a).subtreeLast := by
        simp only [pointer, joinSubtreeLast]
        split
        · next below => exact (max_eq_right below.le).symm
        · next above => exact (max_eq_left (not_lt.mp above)).symm
      rw [larger]
      exact greatest.union augmented.1

/-- A node above right subtrees computes the greatest end of its own. -/
theorem computeSubtreeLast_isGreatest {a : κ} {l r : BinaryTree κ}
    (toLeft : (nodes a).rb.left = pointer l) (toRight : (nodes a).rb.right = pointer r)
    (left : Augmented nodes l) (right : Augmented nodes r)
    : IsGreatest (lasts nodes (.node a l r)) (computeSubtreeLast nodes a) := by
  rw [lasts_node, computeSubtreeLast, toLeft, toRight]
  exact joinSubtreeLast_isGreatest (joinSubtreeLast_isGreatest isGreatest_singleton left) right

def Settled (nodes : κ → IntervalTreeNode κ α) (n : κ) : Prop :=
  (nodes n).subtreeLast = computeSubtreeLast nodes n

/-- All values are right about their subtrees if each is right about its children. -/
theorem augmented_iff_settled {parent : Option κ} (linked : Linked (fun n => (nodes n).rb) parent t)
    : Augmented nodes t ↔ ∀ n ∈ inorder t, Settled nodes n := by
  induction t generalizing parent with
  | nil => simp [Augmented]
  | node a l r ihl ihr =>
      rcases linked with ⟨links, left, right⟩
      have computed : Augmented nodes l → Augmented nodes r →
          IsGreatest (lasts nodes (.node a l r)) (computeSubtreeLast nodes a) :=
        computeSubtreeLast_isGreatest (congrArg Links.left links) (congrArg Links.right links)
      rw [Augmented, ihl left, ihr right]
      constructor
      · intro h n member
        rcases h with ⟨greatest, settledL, settledR⟩
        rcases mem_inorder_node.mp member with rfl | inLeft | inRight
        · exact greatest.unique
            (computed ((ihl left).mpr settledL) ((ihr right).mpr settledR))
        · exact settledL n inLeft
        · exact settledR n inRight
      · intro settled
        have settledL : ∀ n ∈ inorder l, Settled nodes n :=
          fun n member => settled n (by simp [member])
        have settledR : ∀ n ∈ inorder r, Settled nodes n :=
          fun n member => settled n (by simp [member])
        refine ⟨?_, settledL, settledR⟩
        rw [settled a (by simp)]
        exact computed ((ihl left).mpr settledL) ((ihr right).mpr settledR)

/-- What `compute_subtree_last` reads: the node's end and children, and their values. -/
theorem computeSubtreeLast_congr {n : κ} (last : (other n).last = (nodes n).last)
    (left : (other n).rb.left = (nodes n).rb.left)
    (right : (other n).rb.right = (nodes n).rb.right)
    (children
      : ∀ c, (nodes n).rb.left = some c ∨ (nodes n).rb.right = some c →
          (other c).subtreeLast = (nodes c).subtreeLast)
    : computeSubtreeLast other n = computeSubtreeLast nodes n := by
  have join (max : α) (child : Option κ)
      (same : ∀ c, child = some c → (other c).subtreeLast = (nodes c).subtreeLast)
      : joinSubtreeLast other max child = joinSubtreeLast nodes max child := by
    cases child with
    | none => rfl
    | some c => simp only [joinSubtreeLast, same c rfl]
  rw [computeSubtreeLast, computeSubtreeLast, last, left, right,
    join _ _ (fun c child => children c (.inl child)),
    join _ _ (fun c child => children c (.inr child))]

end Local

section Callbacks

variable [DecidableEq κ]

inductive Fault where
  | nullDereference
  deriving DecidableEq, Repr

def augmentPropagatePass (stop : Option κ)
    : (κ → IntervalTreeNode κ α) × Option κ →
        Loop.Pass ((κ → IntervalTreeNode κ α) × Option κ)
          (Except Fault (κ → IntervalTreeNode κ α))
  | (nodes, rb) =>
      if rb = stop then .leave (.ok nodes)
      else
        match rb with
        | none => .leave (.error .nullDereference)
        | some node =>
            let subtreeLast := computeSubtreeLast nodes node
            if (nodes node).subtreeLast = subtreeLast then .leave (.ok nodes)
            else
              let nodes := setSubtreeLast nodes node subtreeLast
              .again (nodes, (nodes node).rb.parent)

def augmentPropagate (nodes : κ → IntervalTreeNode κ α) (rb stop : Option κ) (fuel : Nat)
    : Option (Except Fault (κ → IntervalTreeNode κ α)) :=
  Loop.run (fun state => some (augmentPropagatePass stop state)) fuel (nodes, rb)

def augmentCopy (nodes : κ → IntervalTreeNode κ α) (old new : κ) : κ → IntervalTreeNode κ α :=
  setSubtreeLast nodes new (nodes old).subtreeLast

def augmentRotate (nodes : κ → IntervalTreeNode κ α) (old new : κ) : κ → IntervalTreeNode κ α :=
  let nodes := augmentCopy nodes old new
  setSubtreeLast nodes old (computeSubtreeLast nodes old)

end Callbacks

section Rotation

variable [DecidableEq κ] {nodes : κ → IntervalTreeNode κ α}

theorem Augmented.setSubtreeLast {t : BinaryTree κ} (augmented : Augmented nodes t) {n : κ}
    (outside : n ∉ inorder t) (value : α)
    : Augmented (setSubtreeLast nodes n value) t := by
  apply augmented.congr
  · exact fun m _ => setSubtreeLast_last n m value
  · exact fun m member => setSubtreeLast_of_ne (ne_of_mem_of_not_mem member outside) value

@[simp]
theorem augmentRotate_rb (old new n : κ)
    : (augmentRotate nodes old new n).rb = (nodes n).rb := by
  simp [augmentRotate, augmentCopy]

@[simp]
theorem augmentRotate_start (old new n : κ)
    : (augmentRotate nodes old new n).start = (nodes n).start := by
  simp [augmentRotate, augmentCopy]

@[simp]
theorem augmentRotate_last (old new n : κ)
    : (augmentRotate nodes old new n).last = (nodes n).last := by
  simp [augmentRotate, augmentCopy]

variable {old new : κ}

theorem augmentRotate_new (other : new ≠ old)
    : (augmentRotate nodes old new new).subtreeLast = (nodes old).subtreeLast := by
  simp [augmentRotate, augmentCopy, setSubtreeLast_of_ne other]

/-- The callback touches no node but the two. -/
theorem augmentRotate_of_ne {old new n : κ} (notOld : n ≠ old) (notNew : n ≠ new)
    : (augmentRotate nodes old new n).subtreeLast = (nodes n).subtreeLast := by
  simp [augmentRotate, augmentCopy, setSubtreeLast_of_ne notOld, setSubtreeLast_of_ne notNew]

theorem Augmented.augmentRotate {t : BinaryTree κ} (augmented : Augmented nodes t)
    (notOld : old ∉ inorder t) (notNew : new ∉ inorder t)
    : Augmented (augmentRotate nodes old new) t :=
  (augmented.setSubtreeLast notNew _).setSubtreeLast notOld _

/-- The old root, now a child, computes its value from the subtrees it has now. -/
theorem augmentRotate_old {l r : BinaryTree κ} (toLeft : (nodes old).rb.left = pointer l)
    (toRight : (nodes old).rb.right = pointer r) (left : Augmented nodes l)
    (right : Augmented nodes r) (newLeft : new ∉ inorder l) (newRight : new ∉ inorder r)
    : IsGreatest (lasts (augmentRotate nodes old new) (.node old l r))
        (augmentRotate nodes old new old).subtreeLast := by
  have computed
      : IsGreatest (lasts (augmentCopy nodes old new) (.node old l r))
          (computeSubtreeLast (augmentCopy nodes old new) old) := by
    apply computeSubtreeLast_isGreatest
    · simpa [augmentCopy] using toLeft
    · simpa [augmentCopy] using toRight
    · exact left.setSubtreeLast newLeft _
    · exact right.setSubtreeLast newRight _
  rw [augmentRotate, setSubtreeLast_self,
    lasts_congr rfl (fun n _ => setSubtreeLast_last old n _)]
  exact computed

variable {t t' : BinaryTree κ}

theorem lasts_augmentRotate (old new : κ) (same : inorder t' = inorder t)
    : lasts (augmentRotate nodes old new) t' = lasts nodes t :=
  lasts_congr same (fun n _ => augmentRotate_last old new n)

/-- The new root covers the nodes that the old root covered, whose value it takes over. -/
theorem augmentRotate_top (other : new ≠ old)
    (greatest : IsGreatest (lasts nodes t) (nodes old).subtreeLast) (same : inorder t' = inorder t)
    : IsGreatest (lasts (augmentRotate nodes old new) t')
        (augmentRotate nodes old new new).subtreeLast := by
  rw [augmentRotate_new other, lasts_augmentRotate old new same]
  exact greatest

/-- Nodes above the rotation keep the nodes they cover, and their values. -/
theorem augmentRotate_above {old new n : κ}
    (greatest : IsGreatest (lasts nodes t) (nodes n).subtreeLast) (same : inorder t' = inorder t)
    (notOld : n ≠ old) (notNew : n ≠ new)
    : IsGreatest (lasts (augmentRotate nodes old new) t')
        (augmentRotate nodes old new n).subtreeLast := by
  rw [augmentRotate_of_ne notOld notNew, lasts_augmentRotate old new same]
  exact greatest

/-- The callback makes the rotated tree right, if the tree was right before the rotation. -/
theorem rotation_augmented (rotation : Rotation old new t t') {parent : Option κ}
    (linked : Linked (fun n => (nodes n).rb) parent t') (distinct : (inorder t).Nodup)
    (augmented : Augmented nodes t)
    : Augmented (augmentRotate nodes old new) t' := by
  induction rotation generalizing parent with
  | left a b c =>
      -- `new` gets the maximum of `old`, which is computed again; the subtrees are not touched
      rcases linked with ⟨_, ⟨links, _, _⟩, _⟩
      rcases augmented with ⟨top, augmentedA, _, augmentedB, augmentedC⟩
      simp only [nodup_inorder_node, mem_inorder_node, not_or] at distinct
      rcases distinct with ⟨oldA, ⟨oldNew, oldB, oldC⟩, apart, _, newB, newC, _⟩
      have newA : new ∉ inorder a := fun member => (apart new member).1 rfl
      refine ⟨augmentRotate_top (Ne.symm oldNew) top (by simp [inorder]), ⟨?_, ?_, ?_⟩, ?_⟩
      · exact augmentRotate_old (congrArg Links.left links) (congrArg Links.right links)
          augmentedA augmentedB newA newB
      · exact augmentedA.augmentRotate oldA newA
      · exact augmentedB.augmentRotate oldB newB
      · exact augmentedC.augmentRotate oldC newC
  | right a b c =>
      rcases linked with ⟨_, _, ⟨links, _, _⟩⟩
      rcases augmented with ⟨top, ⟨_, augmentedA, augmentedB⟩, augmentedC⟩
      simp only [nodup_inorder_node, mem_inorder_node, not_or] at distinct
      rcases distinct with ⟨⟨oldNew, oldA, oldB⟩, oldC, apart, ⟨newA, newB, _⟩, _⟩
      have newC : new ∉ inorder c := apart new (.inl rfl)
      refine ⟨augmentRotate_top (Ne.symm oldNew) top (by simp [inorder]), ?_, ?_, ?_, ?_⟩
      · exact augmentedA.augmentRotate oldA newA
      · exact augmentRotate_old (congrArg Links.left links) (congrArg Links.right links)
          augmentedB augmentedC newB newC
      · exact augmentedB.augmentRotate oldB newB
      · exact augmentedC.augmentRotate oldC newC
  | @inLeft n l l' r below ih =>
      -- above the rotation a node has the same nodes below it
      rcases linked with ⟨_, left, _⟩
      rcases augmented with ⟨top, augmentedL, augmentedR⟩
      rcases nodup_inorder_node.mp distinct with ⟨notLeft, _, apart, distinctL, _⟩
      rcases below.mem with ⟨oldL, newL⟩
      refine ⟨?_, ih left distinctL augmentedL, ?_⟩
      · exact augmentRotate_above top (Rotation.inorder_eq (.inLeft n r below))
          (ne_of_mem_of_not_mem oldL notLeft).symm (ne_of_mem_of_not_mem newL notLeft).symm
      · exact augmentedR.augmentRotate (apart old oldL) (apart new newL)
  | @inRight n l r r' below ih =>
      rcases linked with ⟨_, _, right⟩
      rcases augmented with ⟨top, augmentedL, augmentedR⟩
      rcases nodup_inorder_node.mp distinct with ⟨_, notRight, apart, _, distinctR⟩
      rcases below.mem with ⟨oldR, newR⟩
      refine ⟨?_, ?_, ih right distinctR augmentedR⟩
      · exact augmentRotate_above top (Rotation.inorder_eq (.inRight n l below))
          (ne_of_mem_of_not_mem oldR notRight).symm (ne_of_mem_of_not_mem newR notRight).symm
      · exact augmentedL.augmentRotate (fun oldL => apart old oldL oldR)
          (fun newL => apart new newL newR)

end Rotation

section Change

/-- A change of nothing but the children and the end of one node, whose augmented value is
not yet adapted. Parent pointers follow the children.
-/
structure ChangedAt (a : κ) (before after : κ → IntervalTreeNode κ α) : Prop where
  left : ∀ n, n ≠ a → (after n).rb.left = (before n).rb.left
  right : ∀ n, n ≠ a → (after n).rb.right = (before n).rb.right
  last : ∀ n, n ≠ a → (after n).last = (before n).last
  subtreeLast : ∀ n, (after n).subtreeLast = (before n).subtreeLast

def WasAugmented (before : κ → IntervalTreeNode κ α) (n : κ) : Prop :=
  ∃ parent s, Linked (fun m => (before m).rb) parent s ∧ Augmented before s ∧ n ∈ inorder s

theorem ChangedAt.settled {a n : κ} {before after : κ → IntervalTreeNode κ α}
    (change : ChangedAt a before after) (other : n ≠ a) (was : WasAugmented before n)
    : Settled after n := by
  obtain ⟨parent, s, linked, augmented, member⟩ := was
  have settled := (augmented_iff_settled linked).mp augmented n member
  rw [Settled, change.subtreeLast n, settled]
  exact (computeSubtreeLast_congr (change.last n other) (change.left n other)
    (change.right n other) (fun c _ => change.subtreeLast c)).symm

end Change

section Propagation

variable [DecidableEq κ] {nodes : κ → IntervalTreeNode κ α} {t : BinaryTree κ}

/-- A store to a node's value is seen by nothing that its parent is not. -/
theorem computeSubtreeLast_setSubtreeLast {parent : Option κ}
    (linked : Linked (fun n => (nodes n).rb) parent t) {n c : κ} (inside : n ∈ inorder t)
    (notParent : (nodes c).rb.parent ≠ some n) (value : α)
    : computeSubtreeLast (setSubtreeLast nodes c value) n = computeSubtreeLast nodes n := by
  apply computeSubtreeLast_congr
  · exact setSubtreeLast_last c n value
  · rw [setSubtreeLast_rb]
  · rw [setSubtreeLast_rb]
  · intro child link
    apply setSubtreeLast_of_ne
    intro same
    exact notParent (same ▸ (linked.parent_of_child inside link).2)

/-- During the climb everything but the augmented values is as at the start, and every node
but the current one is right about its children.
-/
structure Climbing (initial : κ → IntervalTreeNode κ α) (t : BinaryTree κ)
    (state : (κ → IntervalTreeNode κ α) × Option κ)
    : Prop where
  rb : ∀ n, (state.1 n).rb = (initial n).rb
  start : ∀ n, (state.1 n).start = (initial n).start
  last : ∀ n, (state.1 n).last = (initial n).last
  inside : ∀ n, state.2 = some n → n ∈ inorder t
  settled : ∀ n ∈ inorder t, state.2 ≠ some n → Settled state.1 n

def remaining (t : BinaryTree κ) (state : (κ → IntervalTreeNode κ α) × Option κ) : Nat :=
  match state.2 with
  | none => 0
  | some n => depth t n + 1

variable {initial : κ → IntervalTreeNode κ α}

/-- A pass that goes on settles its node and can only unsettle the parent, which is next. -/
theorem Climbing.next {c : κ} (linked : Linked (fun n => (initial n).rb) none t)
    (distinct : (inorder t).Nodup) (climbing : Climbing initial t (nodes, some c))
    : let after := setSubtreeLast nodes c (computeSubtreeLast nodes c)
      Climbing initial t (after, (after c).rb.parent)
      ∧ remaining t (after, (after c).rb.parent) < remaining t (nodes, some c) := by
  intro after
  have inside := climbing.inside c rfl
  have present : Linked (fun n => (nodes n).rb) none t :=
    linked.congr (fun n _ => climbing.rb n)
  have up := present.parent_depth distinct inside
  have back : (after c).rb.parent = (nodes c).rb.parent := by simp [after]
  have settledSelf : Settled after c := by
    rw [Settled, setSubtreeLast_self, computeSubtreeLast_setSubtreeLast present inside]
    rcases up with top | ⟨p, _, up, less⟩
    · simp [top]
    · rw [up]
      rintro ⟨⟩
      exact Nat.lt_irrefl _ less
  rw [back]
  refine ⟨⟨?_, ?_, ?_, ?_, ?_⟩, ?_⟩
  · exact fun n => (setSubtreeLast_rb c n _).trans (climbing.rb n)
  · exact fun n => (setSubtreeLast_start c n _).trans (climbing.start n)
  · exact fun n => (setSubtreeLast_last c n _).trans (climbing.last n)
  · intro p parent
    rcases up with top | ⟨q, member, up, _⟩
    · rw [top] at parent
      cases parent
    · rw [up] at parent
      cases parent
      exact member
  · intro n member notParent
    by_cases same : n = c
    · rw [same]
      exact settledSelf
    · rw [Settled, setSubtreeLast_of_ne same,
        computeSubtreeLast_setSubtreeLast present member notParent]
      exact climbing.settled n member (fun current => same (Option.some.inj current).symm)
  · rcases up with top | ⟨p, _, up, less⟩
    · simp [remaining, top]
    · simpa [remaining, up] using less

/-- A climb that ends leaves no node that is wrong about its children. -/
theorem Climbing.finish {c : κ} (climbing : Climbing initial t (nodes, some c))
    (settled : Settled nodes c)
    : Climbing initial t (nodes, none) := by
  refine ⟨climbing.rb, climbing.start, climbing.last, by simp, ?_⟩
  intro n member _
  by_cases same : n = c
  · rw [same]
    exact settled
  · exact climbing.settled n member (fun current => same (Option.some.inj current).symm)

/-- A pass ends the climb, also early, with every node right, or it goes on further up. -/
theorem Climbing.pass_cases (linked : Linked (fun n => (initial n).rb) none t)
    (distinct : (inorder t).Nodup) {state : (κ → IntervalTreeNode κ α) × Option κ}
    (climbing : Climbing initial t state)
    : (∃ after, augmentPropagatePass none state = .leave (.ok after)
        ∧ Climbing initial t (after, none))
      ∨ ∃ next, augmentPropagatePass none state = .again next
          ∧ Climbing initial t next ∧ remaining t next < remaining t state := by
  obtain ⟨nodes, current⟩ := state
  cases current with
  | none => exact .inl ⟨nodes, rfl, climbing⟩
  | some c =>
      by_cases settled : (nodes c).subtreeLast = computeSubtreeLast nodes c
      · exact .inl ⟨nodes, by simp [augmentPropagatePass, settled], climbing.finish settled⟩
      · exact .inr ⟨_, by simp [augmentPropagatePass, settled], climbing.next linked distinct⟩

/-- Climbing from a node to the root makes the whole tree right, if every other node is
right about its children as the values stand.
-/
theorem augmentPropagate_returns (linked : Linked (fun n => (nodes n).rb) none t)
    (distinct : (inorder t).Nodup) {a : κ} (inside : a ∈ inorder t)
    (settled : ∀ n ∈ inorder t, n ≠ a → Settled nodes n)
    : ∃ after,
        Loop.Returns (augmentPropagate nodes (some a) none) (.ok after)
        ∧ (∀ n, (after n).rb = (nodes n).rb)
        ∧ (∀ n, (after n).start = (nodes n).start)
        ∧ (∀ n, (after n).last = (nodes n).last)
        ∧ Augmented after t := by
  have initial : Climbing nodes t (nodes, some a) := by
    refine ⟨fun _ => rfl, fun _ => rfl, fun _ => rfl, ?_, ?_⟩
    · intro n current
      cases current
      exact inside
    · intro n member other
      exact settled n member (fun same => other (congrArg some same.symm))
  have climb
      : ∃ result,
          Loop.Settles (fun _ state => some (augmentPropagatePass none state)) (nodes, some a)
            result
          ∧ ∃ after, result = .ok after ∧ Climbing nodes t (after, none) := by
    apply Loop.settles_post_of_wellFounded (measure (remaining t)).wf (Climbing nodes t) _ _ initial
    intro state climbing
    rcases climbing.pass_cases linked distinct with ⟨after, left, done⟩ | ⟨next, around, rest⟩
    · exact .inl ⟨_, .const fun _ => congrArg some left, after, rfl, done⟩
    · exact .inr ⟨next, .const fun _ => congrArg some around, rest⟩
  obtain ⟨_, settles, after, rfl, done⟩ := climb
  refine ⟨after, settles.returns, done.rb, done.start, done.last, ?_⟩
  rw [augmented_iff_settled (linked.congr fun n _ => done.rb n)]
  exact fun n member => done.settled n member (by simp)

end Propagation

end LinuxDoc.IntervalTree
