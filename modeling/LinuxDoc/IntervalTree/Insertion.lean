import LinuxDoc.IntervalTree.Augmentation

/-! Insertion into the interval tree.
The descent raises the augmented values on its way, so that linking the new node leaves a
tree that is ordered and right; rebalancing by rotations with the callback keeps it so.
-/

namespace LinuxDoc.IntervalTree

open Foundations
open Foundations.LinkedTree

variable {κ α : Type*}

structure InsertState (κ α : Type*) where
  nodes : κ → IntervalTreeNode κ α
  rbParent : Option κ
  link : Slot κ

def readLink (rbNode : Option κ) (nodes : κ → IntervalTreeNode κ α) : Slot κ → Option κ
  | .root => rbNode
  | .left parent => (nodes parent).rb.left
  | .right parent => (nodes parent).rb.right

variable [DecidableEq κ]

/-- `rb_link_node`: the node becomes a leaf, and `*link` points to it. -/
def rbLinkNode (node : κ) (rbParent : Option κ) (link : Slot κ) (root : RbRoot κ α)
    : RbRoot κ α :=
  let nodes :=
    Function.update root.nodes node { root.nodes node with rb := ⟨rbParent, none, none⟩ }
  match link with
  | .root => { rbNode := some node, nodes }
  | .left parent =>
      let rb := { (nodes parent).rb with left := some node }
      { root with nodes := Function.update nodes parent { nodes parent with rb } }
  | .right parent =>
      let rb := { (nodes parent).rb with right := some node }
      { root with nodes := Function.update nodes parent { nodes parent with rb } }

variable [LinearOrder α]

def insertPass (rbNode : Option κ) (start last : α) (state : InsertState κ α)
    : Loop.Pass (InsertState κ α) (InsertState κ α) :=
  match readLink rbNode state.nodes state.link with
  | none => .leave state
  | some parent =>
      let nodes :=
        if (state.nodes parent).subtreeLast < last then
          setSubtreeLast state.nodes parent last
        else state.nodes
      .again
        {
          nodes
          rbParent := some parent
          link := if start < (nodes parent).start then .left parent else .right parent
        }

def linkInterval (node : κ) (root : RbRoot κ α) (fuel : Nat) : Option (RbRoot κ α) :=
  let start := (root.nodes node).start
  let last := (root.nodes node).last
  (Loop.run (fun state => some (insertPass root.rbNode start last state)) fuel
      ⟨root.nodes, none, .root⟩).map
    fun state =>
      rbLinkNode node state.rbParent state.link
        { root with nodes := setSubtreeLast state.nodes node last }

/-- `interval_tree_insert`, where rebalancing is left to the kernel's function. -/
def intervalTreeInsert (rbInsertAugmented : κ → RbRoot κ α → RbRoot κ α) (node : κ)
    (root : RbRoot κ α) (fuel : Nat)
    : Option (RbRoot κ α) :=
  (linkInterval node root fuel).map (rbInsertAugmented node)

section Link

omit [LinearOrder α]

/-- The node that is linked becomes a leaf. -/
theorem rbLinkNode_self {node : κ} {rbParent : Option κ} {link : Slot κ}
    (other : link.owner ≠ some node) (root : RbRoot κ α)
    : (rbLinkNode node rbParent link root).nodes node
      = { root.nodes node with rb := ⟨rbParent, none, none⟩ } := by
  cases link with
  | root => simp [rbLinkNode]
  | left parent | right parent =>
      have apart : node ≠ parent := fun same => other (congrArg some same.symm)
      simp [rbLinkNode, Function.update_of_ne apart]

/-- Of any other node at most the child pointer changes that the link is. -/
theorem rbLinkNode_of_ne {node n : κ} (other : n ≠ node) (rbParent : Option κ) (link : Slot κ)
    (root : RbRoot κ α)
    : (rbLinkNode node rbParent link root).nodes n
      = { root.nodes n with rb := link.point node n (root.nodes n).rb } := by
  cases link with
  | root => simp [rbLinkNode, Function.update_of_ne other, Slot.point]
  | left parent | right parent =>
      by_cases same : n = parent
      · subst same
        simp [rbLinkNode, Function.update_of_ne other, Slot.point]
      · simp [rbLinkNode, Function.update_of_ne other, Function.update_of_ne same, Slot.point,
          Ne.symm same]

theorem rbLinkNode_rbNode {link : Slot κ} {parent : κ} (owner : link.owner = some parent)
    (node : κ) (rbParent : Option κ) (root : RbRoot κ α)
    : (rbLinkNode node rbParent link root).rbNode = root.rbNode := by
  cases link with
  | root => cases owner
  | left _ => rfl
  | right _ => rfl

end Link

section Descent

def goLeft (nodes : κ → IntervalTreeNode κ α) (start : α) (n : κ) : Bool :=
  decide (start < (nodes n).start)

def raised (nodes : κ → IntervalTreeNode κ α) (last : α) (path : List κ)
    : κ → IntervalTreeNode κ α :=
  fun n =>
    if n ∈ path then { nodes n with subtreeLast := max last (nodes n).subtreeLast }
    else nodes n

variable {nodes : κ → IntervalTreeNode κ α} {start last : α}

@[simp]
theorem raised_rb (path : List κ) (n : κ) : (raised nodes last path n).rb = (nodes n).rb := by
  rw [raised]
  split <;> rfl

@[simp]
theorem raised_start (path : List κ) (n : κ)
    : (raised nodes last path n).start = (nodes n).start := by
  rw [raised]
  split <;> rfl

@[simp]
theorem raised_last (path : List κ) (n : κ)
    : (raised nodes last path n).last = (nodes n).last := by
  rw [raised]
  split <;> rfl

/-- Raising the first node of a path and then the others raises the path. -/
theorem raised_cons (a : κ) (path : List κ)
    : raised (raised nodes last [a]) last path = raised nodes last (a :: path) := by
  funext n
  by_cases first : n = a <;> by_cases later : n ∈ path <;> simp [raised, first, later]

/-- The test and the store of a pass raise the value of its node. -/
theorem raised_singleton (a : κ)
    : (if (nodes a).subtreeLast < last then setSubtreeLast nodes a last else nodes)
      = raised nodes last [a] := by
  funext n
  by_cases same : n = a
  · subst same
    by_cases below : (nodes n).subtreeLast < last
    · simp [raised, setSubtreeLast, below, max_eq_left below.le]
    · simp [raised, below, max_eq_right (not_lt.mp below)]
  · by_cases below : (nodes a).subtreeLast < last <;>
      simp [raised, setSubtreeLast, below, same]

theorem goLeft_raised (path : List κ)
    : goLeft (raised nodes last path) start = goLeft nodes start := by
  funext n
  rw [goLeft, goLeft, raised_start]

theorem insertPass_some {rbNode rbParent : Option κ} {link : Slot κ} {a : κ}
    (here : readLink rbNode nodes link = some a)
    : insertPass rbNode start last ⟨nodes, rbParent, link⟩
      = .again ⟨raised nodes last [a], some a,
          if goLeft nodes start a then .left a else .right a⟩ := by
  simp [insertPass, here, raised_singleton, goLeft]

/-- The descent from a slot that holds a tree raises its path and ends in the vacant slot. -/
theorem descent_settles (start last : α) (slot : Slot κ) {rbNode : Option κ}
    {t : BinaryTree κ} (linked : Linked (fun n => (nodes n).rb) slot.owner t)
    (here : readLink rbNode nodes slot = pointer t)
    : Loop.Settles (fun _ state => some (insertPass rbNode start last state))
        ⟨nodes, slot.owner, slot⟩
        ⟨raised nodes last (descent (goLeft nodes start) t),
          (vacant (goLeft nodes start) slot t).owner, vacant (goLeft nodes start) slot t⟩ := by
  induction t generalizing nodes slot with
  | nil =>
      apply Loop.Settles.leave
      apply Loop.Returns.const
      intro _
      have unchanged : raised nodes last [] = nodes := by
        funext n
        simp [raised]
      rw [insertPass, here, descent, vacant, unchanged]
      rfl
  | node a l r ihl ihr =>
      rcases linked with ⟨links, left, right⟩
      apply Loop.Settles.again (.const fun _ => congrArg some (insertPass_some here))
      have kept {parent : Option κ} {s : BinaryTree κ}
          (below : Linked (fun n => (nodes n).rb) parent s)
          : Linked (fun n => (raised nodes last [a] n).rb) parent s :=
        below.congr (fun n _ => raised_rb [a] n)
      rw [descent, vacant]
      cases goLeft nodes start a with
      | true =>
          have rest := ihl (.left a) (kept left)
            (by simp [readLink, links])
          rw [goLeft_raised, raised_cons] at rest
          exact rest
      | false =>
          have rest := ihr (.right a) (kept right)
            (by simp [readLink, links])
          rw [goLeft_raised, raised_cons] at rest
          exact rest

end Descent

structure RbRoot.Valid (root : RbRoot κ α) (t : BinaryTree κ) : Prop
    extends root.Represents t where
  ordered : Ordered root.nodes t
  augmented : Augmented root.nodes t

section Insertion

variable {nodes after : κ → IntervalTreeNode κ α} {last : α} {t : BinaryTree κ} {new : κ}

theorem raised_of_not_mem {path : List κ} {n : κ} (outside : n ∉ path)
    : raised nodes last path n = nodes n := by
  rw [raised, if_neg outside]

theorem raised_cons_of_ne {a n : κ} (other : n ≠ a) (path : List κ)
    : raised nodes last (a :: path) n = raised nodes last path n := by
  simp [raised, other]

/-- A leaf with its own end, below a path raised to that end, leaves the tree right. -/
theorem insertLeaf_augmented {turn : κ → Bool} (augmented : Augmented nodes t)
    (distinct : (inorder t).Nodup) (own : (after new).subtreeLast = (after new).last)
    (ends : ∀ n ∈ inorder t, (after n).last = (nodes n).last)
    (path
      : ∀ n ∈ inorder t, (after n).subtreeLast
          = (raised nodes (after new).last (descent turn t) n).subtreeLast)
    : Augmented after (insertLeaf turn new t) := by
  induction t with
  | nil =>
      refine ⟨?_, trivial, trivial⟩
      rw [own, lasts_node, lasts_nil, Set.union_empty, Set.union_empty]
      exact isGreatest_singleton
  | node a l r ihl ihr =>
      rcases augmented with ⟨top, augmentedL, augmentedR⟩
      rcases nodup_inorder_node.mp distinct with ⟨notLeft, notRight, apart, distinctL, distinctR⟩
      have here : IsGreatest (lasts after (insertLeaf turn new (.node a l r)))
          (after a).subtreeLast := by
        rw [lasts_insertLeaf ends, path a (by simp)]
        simpa [raised, descent] using top.insert (after new).last
      have endsL : ∀ n ∈ inorder l, (after n).last = (nodes n).last :=
        fun n member => ends n (by simp [member])
      have endsR : ∀ n ∈ inorder r, (after n).last = (nodes n).last :=
        fun n member => ends n (by simp [member])
      -- Away from the root the path is that of the subtree which the descent enters.
      have pathL : ∀ n ∈ inorder l, (after n).subtreeLast
          = (raised nodes (after new).last
              (if turn a then descent turn l else descent turn r) n).subtreeLast := by
        intro n member
        rw [path n (by simp [member]), descent,
          raised_cons_of_ne (ne_of_mem_of_not_mem member notLeft)]
      have pathR : ∀ n ∈ inorder r, (after n).subtreeLast
          = (raised nodes (after new).last
              (if turn a then descent turn l else descent turn r) n).subtreeLast := by
        intro n member
        rw [path n (by simp [member]), descent,
          raised_cons_of_ne (ne_of_mem_of_not_mem member notRight)]
      rw [insertLeaf] at here ⊢
      cases side : turn a with
      | true =>
          simp only [side, if_true] at here pathL pathR ⊢
          refine ⟨here, ihl augmentedL distinctL endsL pathL, augmentedR.congr endsR ?_⟩
          intro n member
          rw [pathR n member, raised_of_not_mem]
          exact fun onPath => apart n (mem_inorder_of_mem_descent onPath) member
      | false =>
          simp only [side, if_false, Bool.false_eq_true] at here pathL pathR ⊢
          refine ⟨here, augmentedL.congr endsL ?_, ihr augmentedR distinctR endsR pathR⟩
          intro n member
          rw [pathL n member, raised_of_not_mem]
          exact fun onPath => apart n member (mem_inorder_of_mem_descent onPath)

omit [DecidableEq κ] in
/-- In an ordered tree the new node comes after all that do not start later. -/
theorem inorder_insert (ordered : Ordered nodes t) (start : α) (new : κ)
    : ∃ before later,
        inorder t = before ++ later
        ∧ inorder (insertLeaf (goLeft nodes start) new t) = before ++ new :: later
        ∧ (∀ n ∈ before, (nodes n).start ≤ start)
        ∧ ∀ n ∈ later, start < (nodes n).start := by
  have sorted : (inorder t).Pairwise
      (fun a b => goLeft nodes start a = true → goLeft nodes start b = true) := by
    apply List.Pairwise.imp _ ordered
    intro a b le turn
    exact decide_eq_true (lt_of_lt_of_le (of_decide_eq_true turn) le)
  obtain ⟨before, later, whole, inserted, low, high⟩ := inorder_insertLeaf new sorted
  refine ⟨before, later, whole, inserted, ?_, ?_⟩
  · exact fun n member => not_lt.mp (of_decide_eq_false (low n member))
  · exact fun n member => of_decide_eq_true (high n member)

def inserted (node : κ) (root : RbRoot κ α) (t : BinaryTree κ) : RbRoot κ α :=
  let last := (root.nodes node).last
  let turn := goLeft root.nodes (root.nodes node).start
  let link := vacant turn .root t
  rbLinkNode node link.owner link
    { root with nodes := setSubtreeLast (raised root.nodes last (descent turn t)) node last }

theorem linkInterval_returns {root : RbRoot κ α} (represents : root.Represents t) (node : κ)
    : Loop.Returns (linkInterval node root) (inserted node root t) := by
  have settles := descent_settles (root.nodes node).start (root.nodes node).last .root
    represents.linked represents.rbNode
  exact settles.returns.map _

section Inserted

variable {root : RbRoot κ α} {node : κ}

theorem inserted_new (fresh : node ∉ inorder t)
    : (inserted node root t).nodes node
      = {
          rb :=
            ⟨(vacant (goLeft root.nodes (root.nodes node).start) .root t).owner, none, none⟩
          start := (root.nodes node).start
          last := (root.nodes node).last
          subtreeLast := (root.nodes node).last
        } := by
  rw [inserted, rbLinkNode_self (vacant_owner_ne fresh (by simp [Slot.owner]))]
  simp

theorem inserted_of_ne {n : κ} (other : n ≠ node)
    : let turn := goLeft root.nodes (root.nodes node).start
      (inserted node root t).nodes n
        = {
            rb := (vacant turn .root t).point node n (root.nodes n).rb
            start := (root.nodes n).start
            last := (root.nodes n).last
            subtreeLast :=
              (raised root.nodes (root.nodes node).last (descent turn t) n).subtreeLast
          } := by
  intro turn
  rw [inserted, rbLinkNode_of_ne other]
  simp [setSubtreeLast_of_ne other, turn]

/-- Insertion changes no interval. -/
theorem inserted_interval (fresh : node ∉ inorder t) (n : κ)
    : ((inserted node root t).nodes n).start = (root.nodes n).start
      ∧ ((inserted node root t).nodes n).last = (root.nodes n).last := by
  by_cases same : n = node
  · rw [same, inserted_new fresh]
    exact ⟨rfl, rfl⟩
  · rw [inserted_of_ne same]
    exact ⟨rfl, rfl⟩

theorem inserted_rbNode (represents : root.Represents t)
    : (inserted node root t).rbNode
      = pointer (insertLeaf (goLeft root.nodes (root.nodes node).start) node t) := by
  cases t with
  | nil => rfl
  | node a l r =>
      rw [pointer_insertLeaf_node, inserted]
      rcases vacant_owner .root (.node a l r) with empty | ⟨parent, _, owner⟩
      · cases empty
      · rw [rbLinkNode_rbNode owner]
        exact represents.rbNode

/-- The new node stands between those that start no later and those that start later. -/
theorem inserted_ordered (ordered : Ordered root.nodes t) (fresh : node ∉ inorder t)
    : Ordered (inserted node root t).nodes
        (insertLeaf (goLeft root.nodes (root.nodes node).start) node t) := by
  obtain ⟨before, later, whole, extended, low, high⟩ :=
    inorder_insert ordered (root.nodes node).start node
  rw [Ordered, whole, List.pairwise_append] at ordered
  rw [Ordered, extended, List.pairwise_append, List.pairwise_cons]
  simp only [(inserted_interval fresh _).1]
  refine ⟨ordered.1, ⟨fun n member => (high n member).le, ordered.2.1⟩, ?_⟩
  intro n early m member
  rcases List.mem_cons.mp member with rfl | late
  · exact low n early
  · exact ordered.2.2 n early m late

/-- Linking a new node at the end of its descent leaves a tree that is ordered and right. -/
theorem inserted_valid (valid : root.Valid t) (fresh : node ∉ inorder t)
    : (inserted node root t).Valid
        (insertLeaf (goLeft root.nodes (root.nodes node).start) node t) := by
  have others : ∀ n ∈ inorder t, n ≠ node := fun n member => ne_of_mem_of_not_mem member fresh
  refine ⟨⟨inserted_rbNode valid.toRepresents, ?_, ?_⟩, inserted_ordered valid.ordered fresh, ?_⟩
  · apply Linked.insertLeaf .root valid.linked valid.distinct
    · rw [inserted_new fresh]
    · intro n member
      rw [inserted_of_ne (others n member)]
  · obtain ⟨before, later, whole, extended, _, _⟩ :=
      inorder_insert valid.ordered (root.nodes node).start node
    rw [extended, List.nodup_middle, ← whole]
    exact List.nodup_cons.mpr ⟨fresh, valid.distinct⟩
  · apply insertLeaf_augmented valid.augmented valid.distinct
    · rw [inserted_new fresh]
    · exact fun n _ => (inserted_interval fresh n).2
    · intro n member
      rw [inserted_new fresh, inserted_of_ne (others n member)]

end Inserted

end Insertion

section Updates

structure SameValues (before after : κ → IntervalTreeNode κ α) : Prop where
  start : ∀ n, (after n).start = (before n).start
  last : ∀ n, (after n).last = (before n).last
  subtreeLast : ∀ n, (after n).subtreeLast = (before n).subtreeLast

/-- A rotation of a valid tree followed by the callback gives a valid tree. -/
theorem rotation_valid {before after : RbRoot κ α} {t t' : BinaryTree κ} {old new : κ}
    (valid : before.Valid t) (rotation : Rotation old new t t')
    (represents : after.Represents t') (same : SameValues before.nodes after.nodes)
    : RbRoot.Valid ⟨after.rbNode, augmentRotate after.nodes old new⟩ t' where
  toRepresents := represents.congr rfl (augmentRotate_rb old new)
  ordered := by
    apply valid.ordered.congr _ rotation.inorder_eq
    intro n
    rw [augmentRotate_start, same.start n]
  augmented := by
    apply rotation_augmented rotation represents.linked valid.distinct
    exact valid.augmented.congr (fun n _ => same.last n) (fun n _ => same.subtreeLast n)

/-- After a change at one node, the callback from there restores the tree. -/
theorem augmentPropagate_restores {before : κ → IntervalTreeNode κ α} {after : RbRoot κ α}
    {t : BinaryTree κ} {a : κ} (represents : after.Represents t) (inside : a ∈ inorder t)
    (change : ChangedAt a before after.nodes)
    (others : ∀ n ∈ inorder t, n ≠ a → WasAugmented before n)
    : ∃ nodes,
        Loop.Returns (augmentPropagate after.nodes (some a) none) (.ok nodes)
        ∧ RbRoot.Represents ⟨after.rbNode, nodes⟩ t
        ∧ (∀ n, (nodes n).start = (after.nodes n).start)
        ∧ (∀ n, (nodes n).last = (after.nodes n).last)
        ∧ Augmented nodes t := by
  obtain ⟨nodes, returned, rb, start, last, augmented⟩ :=
    augmentPropagate_returns represents.linked represents.distinct inside
      (fun n member other => change.settled other (others n member other))
  exact ⟨nodes, returned, represents.congr rfl rb, start, last, augmented⟩

/-- Every update of the interval tree keeps it ordered and right: the descent of an insertion and
the linking of the new node, a rotation with `augment_rotate`, and, after a change of one node's
children or end, `augment_propagate` from that node to the root. By `inserted_valid`,
`rotation_valid` and `augmentPropagate_restores`.
-/
theorem augmentation_preserved
    : (∀ (root : RbRoot κ α) (t : BinaryTree κ) (node : κ),
        root.Valid t → node ∉ inorder t →
          ∃ after t' before later,
            Loop.Returns (linkInterval node root) after
            ∧ after.Valid t'
            ∧ inorder t = before ++ later
            ∧ inorder t' = before ++ node :: later
            ∧ (∀ n ∈ before, (root.nodes n).start ≤ (root.nodes node).start)
            ∧ (∀ n ∈ later, (root.nodes node).start < (root.nodes n).start)
            ∧ ∀ n, (after.nodes n).start = (root.nodes n).start
                ∧ (after.nodes n).last = (root.nodes n).last)
      ∧ (∀ (before after : RbRoot κ α) (t t' : BinaryTree κ) (old new : κ),
          before.Valid t → Rotation old new t t' → after.Represents t' →
          SameValues before.nodes after.nodes →
            RbRoot.Valid ⟨after.rbNode, augmentRotate after.nodes old new⟩ t')
      ∧ ∀ (before after : RbRoot κ α) (t t' : BinaryTree κ) (a : κ),
          before.Valid t → after.Represents t' → a ∈ inorder t' →
          ChangedAt a before.nodes after.nodes →
          (∀ n ∈ inorder t', n ≠ a → n ∈ inorder t ∨ WasAugmented before.nodes n) →
            ∃ nodes,
              Loop.Returns (augmentPropagate after.nodes (some a) none) (.ok nodes)
              ∧ RbRoot.Represents ⟨after.rbNode, nodes⟩ t'
              ∧ (∀ n, (nodes n).start = (after.nodes n).start)
              ∧ (∀ n, (nodes n).last = (after.nodes n).last)
              ∧ Augmented nodes t' := by
  refine ⟨?_, ?_, ?_⟩
  · intro root t node valid fresh
    obtain ⟨before, later, whole, extended, low, high⟩ :=
      inorder_insert valid.ordered (root.nodes node).start node
    exact ⟨inserted node root t, _, before, later, linkInterval_returns valid.toRepresents node,
      inserted_valid valid fresh, whole, extended, low, high, inserted_interval fresh⟩
  · intro before after t t' old new valid rotation represents same
    exact rotation_valid valid rotation represents same
  · intro before after t t' a valid represents inside change known
    apply augmentPropagate_restores represents inside change
    intro n member other
    rcases known n member other with old | was
    · exact ⟨none, t, valid.linked, valid.augmented, old⟩
    · exact was

def turnedRoot : RbRoot Nat Nat where
  rbNode := some 2
  nodes
    | 0 => ⟨⟨some 1, none, none⟩, 5, 30, 30⟩
    | 1 => ⟨⟨some 2, some 0, none⟩, 10, 12, 40⟩
    | _ => ⟨⟨none, some 1, none⟩, 20, 40, 40⟩

def longerRoot : RbRoot Nat Nat where
  rbNode := some 1
  nodes
    | 0 => ⟨⟨some 1, none, none⟩, 5, 50, 30⟩
    | 1 => ⟨⟨none, some 0, some 2⟩, 10, 12, 40⟩
    | _ => ⟨⟨some 1, none, none⟩, 20, 40, 40⟩

/-- Inserting 20 to 40 once more into the sample tree, rotating it, and making one of its intervals
longer keep it right.
-/
theorem sampleRoot_updates
    : (∃ after t', Loop.Returns (linkInterval 3 sampleRoot) after ∧ after.Valid t')
      ∧ RbRoot.Valid ⟨some 2, augmentRotate turnedRoot.nodes 1 2⟩
          (.node 2 (.node 1 (.node 0 .nil .nil) .nil) .nil)
      ∧ ∃ nodes, Loop.Returns (augmentPropagate longerRoot.nodes (some 0) none) (.ok nodes)
        ∧ Augmented nodes sampleShape := by
  have valid : sampleRoot.Valid sampleShape :=
    ⟨sampleRoot_represents, sampleRoot_ordered, sampleRoot_augmented⟩
  obtain ⟨inserts, rotates, propagates⟩ := augmentation_preserved (κ := Nat) (α := Nat)
  refine ⟨?_, ?_, ?_⟩
  · obtain ⟨after, t', _, _, returned, valid, _⟩ :=
      inserts sampleRoot sampleShape 3 valid (by decide)
    exact ⟨after, t', returned, valid⟩
  · refine rotates sampleRoot turnedRoot sampleShape _ 1 2 valid (.left _ .nil .nil)
      ⟨rfl, ?_, by decide⟩ ⟨?_, ?_, ?_⟩
    · simp [turnedRoot, LinkedTree.Linked, pointer]
    all_goals
      intro n
      rcases n with _ | _ | n <;> rfl
  · obtain ⟨nodes, returned, _, _, _, augmented⟩ :=
      propagates sampleRoot longerRoot sampleShape sampleShape 0 valid
        ⟨rfl, by simp [longerRoot, sampleShape, LinkedTree.Linked, pointer], by decide⟩ (by decide)
        (by constructor <;> intro n <;> rcases n with _ | _ | n <;> simp [sampleRoot, longerRoot])
        (fun n member _ => .inl member)
    exact ⟨nodes, returned, augmented⟩

/-- What `rb_insert_augmented` does to the tree: rotations, each followed by the callback. -/
inductive Rebalanced (first : RbRoot κ α) (t : BinaryTree κ)
    : RbRoot κ α → BinaryTree κ → Prop where
  | refl : Rebalanced first t first t
  | rotate {root turned : RbRoot κ α} {u u' : BinaryTree κ} {old new : κ}
      (earlier : Rebalanced first t root u) (rotation : Rotation old new u u')
      (represents : turned.Represents u') (same : SameValues root.nodes turned.nodes)
      : Rebalanced first t ⟨turned.rbNode, augmentRotate turned.nodes old new⟩ u'

/-- Rebalancing keeps the tree valid and its nodes in order. -/
theorem Rebalanced.valid {first root : RbRoot κ α} {t u : BinaryTree κ}
    (rebalanced : Rebalanced first t root u) (valid : first.Valid t)
    : root.Valid u ∧ inorder u = inorder t := by
  induction rebalanced with
  | refl => exact ⟨valid, rfl⟩
  | rotate _ rotation represents same ih =>
      exact ⟨rotation_valid ih.1 rotation represents same, rotation.inorder_eq.trans ih.2⟩

theorem Rebalanced.interval {first root : RbRoot κ α} {t u : BinaryTree κ}
    (rebalanced : Rebalanced first t root u) (n : κ)
    : (root.nodes n).start = (first.nodes n).start
      ∧ (root.nodes n).last = (first.nodes n).last := by
  induction rebalanced with
  | refl => exact ⟨rfl, rfl⟩
  | rotate _ _ _ same ih =>
      rw [augmentRotate_start, augmentRotate_last, same.start, same.last]
      exact ih

/-- `rb_insert_augmented` is left open, but for what it may do to a valid tree. -/
def Rebalances (rbInsertAugmented : κ → RbRoot κ α → RbRoot κ α) : Prop :=
  ∀ node root t, root.Valid t → ∃ u, Rebalanced root t (rbInsertAugmented node root) u

/-- A whole insertion, rebalancing included, gives a valid tree with the node added and all
intervals as they were. Linking the node gives such a tree, and the rotations keep it so.
-/
theorem intervalTreeInsert_valid {rbInsertAugmented : κ → RbRoot κ α → RbRoot κ α}
    (rebalances : Rebalances rbInsertAugmented) {root : RbRoot κ α} {t : BinaryTree κ} {node : κ}
    (valid : root.Valid t) (fresh : node ∉ inorder t)
    : ∃ after u,
        Loop.Returns (intervalTreeInsert rbInsertAugmented node root) after
        ∧ after.Valid u
        ∧ (inorder u).Perm (node :: inorder t)
        ∧ ∀ n, (after.nodes n).start = (root.nodes n).start
            ∧ (after.nodes n).last = (root.nodes n).last := by
  have linked := inserted_valid valid fresh
  obtain ⟨u, rebalanced⟩ := rebalances node _ _ linked
  obtain ⟨before, later, whole, extended, _, _⟩ :=
    inorder_insert valid.ordered (root.nodes node).start node
  rcases rebalanced.valid linked with ⟨valid', same⟩
  refine ⟨_, u, (linkInterval_returns valid.toRepresents node).map _, valid', ?_, fun n => ?_⟩
  · rw [same, extended, whole]
    exact List.perm_middle
  · rw [(rebalanced.interval n).1, (rebalanced.interval n).2]
    exact inserted_interval fresh n

end Updates

end LinuxDoc.IntervalTree
