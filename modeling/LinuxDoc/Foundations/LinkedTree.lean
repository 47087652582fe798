import Mathlib.Data.List.Nodup
import Mathlib.Data.Tree.Basic

/-! Binary trees whose nodes lie in memory and are linked by their addresses.
The shape of a tree is a `BinaryTree` of addresses; a memory holds the tree if the links of
its nodes say so. Adding a leaf and rotating are operations on shapes.
-/

namespace Foundations.LinkedTree

open BinaryTree (nil node)

variable {κ : Type*}

structure Links (κ : Type*) where
  parent : Option κ
  left : Option κ
  right : Option κ
  deriving DecidableEq, Repr

def inorder : BinaryTree κ → List κ
  | .nil => []
  | .node a l r => inorder l ++ a :: inorder r

def pointer : BinaryTree κ → Option κ
  | .nil => none
  | .node a _ _ => some a

def Linked (links : κ → Links κ) : Option κ → BinaryTree κ → Prop
  | _, .nil => True
  | parent, .node a l r =>
      links a = ⟨parent, pointer l, pointer r⟩
      ∧ Linked links (some a) l
      ∧ Linked links (some a) r

@[simp]
theorem mem_inorder_node {n a : κ} {l r : BinaryTree κ}
    : n ∈ inorder (node a l r) ↔ n = a ∨ n ∈ inorder l ∨ n ∈ inorder r := by
  simp [inorder, or_left_comm]

@[simp]
theorem not_mem_inorder_nil {n : κ} : n ∉ inorder nil :=
  List.not_mem_nil

/-- The nodes of a tree are distinct if its root is new to the subtrees, these have no node
in common, and each has distinct nodes.
-/
theorem nodup_inorder_node {a : κ} {l r : BinaryTree κ}
    : (inorder (node a l r)).Nodup
      ↔ a ∉ inorder l ∧ a ∉ inorder r ∧ (∀ n ∈ inorder l, n ∉ inorder r)
        ∧ (inorder l).Nodup ∧ (inorder r).Nodup := by
  rw [inorder, List.nodup_append', List.nodup_cons, List.disjoint_cons_right]
  constructor
  · intro h
    rcases h with ⟨left, ⟨notRight, right⟩, notLeft, apart⟩
    exact ⟨notLeft, notRight, fun n inLeft inRight => apart inLeft inRight, left, right⟩
  · intro h
    rcases h with ⟨notLeft, notRight, apart, left, right⟩
    exact ⟨left, ⟨notRight, right⟩, notLeft, fun n inLeft inRight => apart n inLeft inRight⟩

/-- Only the links of the tree's own nodes matter. -/
theorem Linked.congr {links other : κ → Links κ} {parent : Option κ} {t : BinaryTree κ}
    (linked : Linked links parent t) (same : ∀ n ∈ inorder t, other n = links n)
    : Linked other parent t := by
  induction t generalizing parent with
  | nil => trivial
  | node a l r ihl ihr =>
      rcases linked with ⟨here, left, right⟩
      refine ⟨?_, ihl left ?_, ihr right ?_⟩
      · rw [same a (by simp), here]
      · exact fun n member => same n (by simp [member])
      · exact fun n member => same n (by simp [member])

/-- A child of a node of the tree is a node of it that points back. -/
theorem Linked.parent_of_child {links : κ → Links κ} {parent : Option κ} {t : BinaryTree κ}
    (linked : Linked links parent t) {n c : κ} (inside : n ∈ inorder t)
    (child : (links n).left = some c ∨ (links n).right = some c)
    : c ∈ inorder t ∧ (links c).parent = some n := by
  induction t generalizing parent with
  | nil => simp at inside
  | node a l r ihl ihr =>
      rcases linked with ⟨here, left, right⟩
      rcases mem_inorder_node.mp inside with rfl | inLeft | inRight
      · rw [here] at child
        rcases child with child | child
        · cases l with
          | nil => cases child
          | node b _ _ =>
              cases child
              exact ⟨by simp, congrArg Links.parent left.1⟩
        · cases r with
          | nil => cases child
          | node b _ _ =>
              cases child
              exact ⟨by simp, congrArg Links.parent right.1⟩
      · rcases ihl left inLeft with ⟨member, back⟩
        exact ⟨by simp [member], back⟩
      · rcases ihr right inRight with ⟨member, back⟩
        exact ⟨by simp [member], back⟩

section Depth

variable [DecidableEq κ]

def depth : BinaryTree κ → κ → Nat
  | .nil, _ => 0
  | .node a l r, n =>
      if n = a then 0
      else if n ∈ inorder l then depth l n + 1
      else depth r n + 1

/-- The parent of a node of the tree is the tree's own parent, or a node of the tree that
lies less deep.
-/
theorem Linked.parent_depth {links : κ → Links κ} {parent : Option κ} {t : BinaryTree κ}
    (linked : Linked links parent t) (distinct : (inorder t).Nodup) {n : κ}
    (inside : n ∈ inorder t)
    : (links n).parent = parent
      ∨ ∃ p ∈ inorder t, (links n).parent = some p ∧ depth t p < depth t n := by
  induction t generalizing parent with
  | nil => simp at inside
  | node a l r ihl ihr =>
      rcases linked with ⟨here, left, right⟩
      rcases nodup_inorder_node.mp distinct with ⟨notLeft, notRight, apart, distinctL, distinctR⟩
      rcases mem_inorder_node.mp inside with rfl | inLeft | inRight
      · exact .inl (congrArg Links.parent here)
      · have other : n ≠ a := fun same => notLeft (same ▸ inLeft)
        rcases ihl left distinctL inLeft with top | ⟨p, member, up, less⟩
        · exact .inr ⟨a, by simp, top, by simp [depth, other, inLeft]⟩
        · have below : p ≠ a := fun same => notLeft (same ▸ member)
          exact .inr ⟨p, by simp [member], up, by simp [depth, other, inLeft, below, member, less]⟩
      · have other : n ≠ a := fun same => notRight (same ▸ inRight)
        have elsewhere : n ∉ inorder l := fun inLeft => apart n inLeft inRight
        rcases ihr right distinctR inRight with top | ⟨p, member, up, less⟩
        · exact .inr ⟨a, by simp, top, by simp [depth, other, elsewhere]⟩
        · have below : p ≠ a := fun same => notRight (same ▸ member)
          have beside : p ∉ inorder l := fun inLeft => apart p inLeft member
          exact .inr
            ⟨p, by simp [member], up, by simp [depth, other, elsewhere, below, beside, less]⟩

end Depth

/-- A place where a pointer to a node is kept: the pointer to the whole tree, or one of the
two child pointers of a node.
-/
inductive Slot (κ : Type*) where
  | root
  | left (parent : κ)
  | right (parent : κ)
  deriving DecidableEq, Repr

def Slot.owner : Slot κ → Option κ
  | .root => none
  | .left parent => some parent
  | .right parent => some parent

section Insertion

variable (goLeft : κ → Bool)

def insertLeaf (new : κ) : BinaryTree κ → BinaryTree κ
  | .nil => .node new .nil .nil
  | .node a l r =>
      if goLeft a then .node a (insertLeaf new l) r
      else .node a l (insertLeaf new r)

def descent : BinaryTree κ → List κ
  | .nil => []
  | .node a l r => a :: if goLeft a then descent l else descent r

def vacant : Slot κ → BinaryTree κ → Slot κ
  | slot, .nil => slot
  | _, .node a l r => if goLeft a then vacant (.left a) l else vacant (.right a) r

variable {goLeft}

variable {t : BinaryTree κ}

theorem mem_inorder_of_mem_descent {n : κ} (member : n ∈ descent goLeft t)
    : n ∈ inorder t := by
  induction t with
  | nil => cases member
  | node a l r ihl ihr =>
      rw [descent] at member
      rcases List.mem_cons.mp member with rfl | below
      · simp
      · cases side : goLeft a with
        | true => simp [ihl (by simpa [side] using below)]
        | false => simp [ihr (by simpa [side] using below)]

@[simp]
theorem mem_inorder_insertLeaf {n new : κ}
    : n ∈ inorder (insertLeaf goLeft new t) ↔ n = new ∨ n ∈ inorder t := by
  induction t with
  | nil => simp [insertLeaf]
  | node a l r ihl ihr =>
      cases side : goLeft a with
      | true => simp [insertLeaf, side, ihl, or_left_comm, or_assoc]
      | false => simp [insertLeaf, side, ihr, or_left_comm]

/-- The descent ends in a slot of a node of the tree, unless the tree is empty. -/
theorem vacant_owner (slot : Slot κ) (t : BinaryTree κ)
    : t = nil ∨ ∃ n ∈ inorder t, (vacant goLeft slot t).owner = some n := by
  induction t generalizing slot with
  | nil => exact .inl rfl
  | node a l r ihl ihr =>
      right
      rw [vacant]
      cases goLeft a with
      | true =>
          rcases ihl (.left a) with rfl | ⟨n, member, owner⟩
          · exact ⟨a, by simp, rfl⟩
          · exact ⟨n, by simp [member], owner⟩
      | false =>
          rcases ihr (.right a) with rfl | ⟨n, member, owner⟩
          · exact ⟨a, by simp, rfl⟩
          · exact ⟨n, by simp [member], owner⟩

/-- A node outside a tree that is not empty does not get the leaf. -/
theorem vacant_owner_node_ne (slot : Slot κ) {n a : κ} {l r : BinaryTree κ}
    (outside : n ∉ inorder (node a l r))
    : (vacant goLeft slot (.node a l r)).owner ≠ some n := by
  rcases vacant_owner slot (node a l r) with empty | ⟨m, member, owner⟩
  · cases empty
  · rw [owner]
    exact fun same => outside (Option.some.inj same ▸ member)

/-- A node that neither has the slot nor is in the tree does not get the leaf. -/
theorem vacant_owner_ne {slot : Slot κ} {n : κ} (outside : n ∉ inorder t)
    (other : slot.owner ≠ some n)
    : (vacant goLeft slot t).owner ≠ some n := by
  cases t with
  | nil => exact other
  | node a l r => exact vacant_owner_node_ne slot outside

/-- If the nodes that send the descent to the left come last, the new leaf comes right
before them.
-/
theorem inorder_insertLeaf (new : κ)
    (sorted : (inorder t).Pairwise (fun a b => goLeft a = true → goLeft b = true))
    : ∃ before after,
        inorder t = before ++ after
        ∧ inorder (insertLeaf goLeft new t) = before ++ new :: after
        ∧ (∀ n ∈ before, goLeft n = false)
        ∧ ∀ n ∈ after, goLeft n = true := by
  induction t with
  | nil => exact ⟨[], [], rfl, rfl, by simp, by simp⟩
  | node a l r ihl ihr =>
      rw [inorder, List.pairwise_append, List.pairwise_cons] at sorted
      rcases sorted with ⟨sortedL, ⟨right, sortedR⟩, left⟩
      cases side : goLeft a with
      | true =>
          obtain ⟨before, after, whole, inserted, low, high⟩ := ihl sortedL
          refine ⟨before, after ++ a :: inorder r, ?_, ?_, low, ?_⟩
          · simp [inorder, whole]
          · simp [insertLeaf, side, inorder, inserted]
          · intro n member
            rcases List.mem_append.mp member with below | above
            · exact high n below
            · rcases List.mem_cons.mp above with rfl | above
              · exact side
              · exact right n above side
      | false =>
          obtain ⟨before, after, whole, inserted, low, high⟩ := ihr sortedR
          refine ⟨inorder l ++ a :: before, after, ?_, ?_, ?_, high⟩
          · simp [inorder, whole]
          · simp [insertLeaf, side, inorder, inserted]
          · intro n member
            rcases List.mem_append.mp member with below | above
            · cases turn : goLeft n with
              | false => rfl
              | true => exact absurd (left n below a (by simp) turn) (by simp [side])
            · rcases List.mem_cons.mp above with rfl | above
              · exact side
              · exact low n above

@[simp]
theorem pointer_insertLeaf_node (new a : κ) (l r : BinaryTree κ)
    : pointer (insertLeaf goLeft new (.node a l r)) = some a := by
  rw [insertLeaf]
  split <;> rfl

variable [DecidableEq κ]

def Slot.point (slot : Slot κ) (new n : κ) (links : Links κ) : Links κ :=
  if slot = .left n then { links with left := some new }
  else if slot = .right n then { links with right := some new }
  else links

/-- A slot of another node is none of the node's own. -/
theorem Slot.point_of_owner {slot : Slot κ} {n : κ} (other : slot.owner ≠ some n) (new : κ)
    (links : Links κ)
    : slot.point new n links = links := by
  cases slot with
  | root => simp [point]
  | left parent =>
      have apart : parent ≠ n := fun same => other (congrArg some same)
      simp [point, apart]
  | right parent =>
      have apart : parent ≠ n := fun same => other (congrArg some same)
      simp [point, apart]

/-- After a descent to the left, the left pointer leads to the subtree with the leaf. -/
theorem point_vacant_left {a : κ} {l : BinaryTree κ} (outside : a ∉ inorder l) (new : κ)
    (parent right : Option κ)
    : (vacant goLeft (.left a) l).point new a ⟨parent, pointer l, right⟩
      = ⟨parent, pointer (insertLeaf goLeft new l), right⟩ := by
  cases l with
  | nil => simp [vacant, Slot.point, insertLeaf, pointer]
  | node b l r =>
      rw [Slot.point_of_owner (vacant_owner_node_ne _ outside), pointer_insertLeaf_node]
      rfl

/-- After a descent to the right, the right pointer leads to the subtree with the leaf. -/
theorem point_vacant_right {a : κ} {r : BinaryTree κ} (outside : a ∉ inorder r) (new : κ)
    (parent left : Option κ)
    : (vacant goLeft (.right a) r).point new a ⟨parent, left, pointer r⟩
      = ⟨parent, left, pointer (insertLeaf goLeft new r)⟩ := by
  cases r with
  | nil => simp [vacant, Slot.point, insertLeaf, pointer]
  | node b l r =>
      rw [Slot.point_of_owner (vacant_owner_node_ne _ outside), pointer_insertLeaf_node]
      rfl

/-- Pointing the vacant slot to a leaf that points back links up the tree with the leaf
added.
-/
theorem Linked.insertLeaf {links other : κ → Links κ} {new : κ} (slot : Slot κ)
    (linked : Linked links slot.owner t) (distinct : (inorder t).Nodup)
    (leaf : other new = ⟨(vacant goLeft slot t).owner, none, none⟩)
    (pointed : ∀ n ∈ inorder t, other n = (vacant goLeft slot t).point new n (links n))
    : Linked other slot.owner (insertLeaf goLeft new t) := by
  induction t generalizing slot with
  | nil => exact ⟨leaf, trivial, trivial⟩
  | node a l r ihl ihr =>
      rcases linked with ⟨here, left, right⟩
      rcases nodup_inorder_node.mp distinct with ⟨notLeft, notRight, apart, distinctL, distinctR⟩
      have top := pointed a (by simp)
      -- The subtree that the descent leaves aside keeps its links.
      cases side : goLeft a with
      | true =>
          simp only [vacant, side, if_true] at leaf pointed top
          simp only [LinkedTree.insertLeaf, side, if_true]
          refine ⟨?_, ihl (.left a) left distinctL leaf ?_, right.congr ?_⟩
          · rw [top, here, point_vacant_left notLeft]
          · exact fun n member => pointed n (by simp [member])
          · intro n member
            rw [pointed n (by simp [member]), Slot.point_of_owner]
            apply vacant_owner_ne (fun inLeft => apart n inLeft member)
            exact fun same => notRight (Option.some.inj same ▸ member)
      | false =>
          simp only [vacant, side, if_false, Bool.false_eq_true] at leaf pointed top
          simp only [LinkedTree.insertLeaf, side, if_false, Bool.false_eq_true]
          refine ⟨?_, left.congr ?_, ihr (.right a) right distinctR leaf ?_⟩
          · rw [top, here, point_vacant_right notRight]
          · intro n member
            rw [pointed n (by simp [member]), Slot.point_of_owner]
            apply vacant_owner_ne (apart n member)
            exact fun same => notLeft (Option.some.inj same ▸ member)
          · exact fun n member => pointed n (by simp [member])

end Insertion

/-- A rotation somewhere in a tree, after which `new` is the root of the subtree that had the
root `old`.
-/
inductive Rotation (old new : κ) : BinaryTree κ → BinaryTree κ → Prop where
  | left (a b c : BinaryTree κ)
      : Rotation old new (.node old a (.node new b c)) (.node new (.node old a b) c)
  | right (a b c : BinaryTree κ)
      : Rotation old new (.node old (.node new a b) c) (.node new a (.node old b c))
  | inLeft (n : κ) {l l' : BinaryTree κ} (r : BinaryTree κ) (below : Rotation old new l l')
      : Rotation old new (.node n l r) (.node n l' r)
  | inRight (n : κ) (l : BinaryTree κ) {r r' : BinaryTree κ} (below : Rotation old new r r')
      : Rotation old new (.node n l r) (.node n l r')

theorem Rotation.inorder_eq {old new : κ} {t t' : BinaryTree κ} (rotation : Rotation old new t t')
    : inorder t' = inorder t := by
  induction rotation with
  | left a b c => simp [inorder]
  | right a b c => simp [inorder]
  | inLeft n r _ ih => simp [inorder, ih]
  | inRight n l _ ih => simp [inorder, ih]

theorem Rotation.mem {old new : κ} {t t' : BinaryTree κ} (rotation : Rotation old new t t')
    : old ∈ inorder t ∧ new ∈ inorder t := by
  induction rotation with
  | left a b c => simp
  | right a b c => simp
  | inLeft n r _ ih => simp [ih]
  | inRight n l _ ih => simp [ih]

end Foundations.LinkedTree
