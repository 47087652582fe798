import LinuxDoc.IntervalTree.Insertion

/-! What has been inserted is found: after insertions into an empty tree, each rebalanced in its own
way, the search is right about the intervals that the nodes were given.
-/

namespace LinuxDoc.IntervalTree

open Foundations Foundations.LinkedTree

variable {κ α : Type*} [DecidableEq κ] [LinearOrder α]

def insertAll (rbInsertAugmented : κ → RbRoot κ α → RbRoot κ α) (members : List κ)
    (root : RbRoot κ α) (fuel : Nat)
    : Option (RbRoot κ α) :=
  members.foldlM (fun root node => intervalTreeInsert rbInsertAugmented node root fuel) root

structure Holds (nodes : κ → IntervalTreeNode κ α) (members : List κ) (root : RbRoot κ α)
    (t : BinaryTree κ) : Prop
    extends root.Valid t where
  members : ∀ n, n ∈ inorder t ↔ n ∈ members
  start : ∀ n, (root.nodes n).start = (nodes n).start
  last : ∀ n, (root.nodes n).last = (nodes n).last

variable {rbInsertAugmented : κ → RbRoot κ α → RbRoot κ α} {nodes : κ → IntervalTreeNode κ α}
  {root : RbRoot κ α} {t : BinaryTree κ}

theorem Holds.insert {members : List κ} (holds : Holds nodes members root t) {node : κ}
    (fresh : node ∉ members)
    (rebalances : Rebalances rbInsertAugmented)
    : ∃ after u,
        Loop.Returns (intervalTreeInsert rbInsertAugmented node root) after
        ∧ Holds nodes (members ++ [node]) after u := by
  have fresh : node ∉ inorder t := fun inside => fresh ((holds.members node).mp inside)
  obtain ⟨after, u, returned, valid, perm, same⟩ :=
    intervalTreeInsert_valid rebalances holds.toValid fresh
  refine ⟨after, u, returned, valid, fun n => ?_, fun n => ?_, fun n => ?_⟩
  · rw [perm.mem_iff, List.mem_cons, holds.members, List.mem_append, List.mem_singleton, or_comm]
  · rw [(same n).1, holds.start n]
  · rw [(same n).2, holds.last n]

theorem Holds.insertAll {members more : List κ} (holds : Holds nodes members root t)
    (distinct : (members ++ more).Nodup)
    (rebalances : Rebalances rbInsertAugmented)
    : ∃ after u,
        Loop.Returns (insertAll rbInsertAugmented more root) after
        ∧ Holds nodes (members ++ more) after u := by
  induction more generalizing members root t with
  | nil => exact ⟨root, t, .const fun _ => rfl, by rwa [List.append_nil]⟩
  | cons node rest ih =>
      have fresh : node ∉ members := fun inside =>
        List.disjoint_of_nodup_append distinct inside List.mem_cons_self
      obtain ⟨next, u, ⟨first, returned⟩, holds⟩ := holds.insert fresh rebalances
      rw [List.append_cons] at distinct ⊢
      obtain ⟨after, v, ⟨later, finished⟩, holds⟩ := ih holds distinct
      refine ⟨after, v, ⟨max first later, fun fuel enough => ?_⟩, holds⟩
      rw [IntervalTree.insertAll, List.foldlM_cons, returned fuel (by omega)]
      exact finished fuel (by omega)

/-- Insertions of distinct nodes into an empty tree return, and after them the search finds, of the
intervals that the nodes were given, one of smallest start that overlaps the query, and nothing
exactly if none does; whatever rotations with the callback each insertion makes. By induction on the
insertions, with the invariant `Holds`.
-/
theorem insertAll_found (rbInsertAugmented : κ → RbRoot κ α → RbRoot κ α)
    (nodes : κ → IntervalTreeNode κ α) (members : List κ) (distinct : members.Nodup)
    (start last : α)
    (rebalances : Rebalances rbInsertAugmented)
    : ∃ root result,
        Loop.Returns (insertAll rbInsertAugmented members ⟨none, nodes⟩) root
        ∧ Loop.Returns (intervalTreeFirstMatch root start last) result
        ∧ (∀ n, result = some n →
            n ∈ members
            ∧ Intersects nodes start last n
            ∧ ∀ m ∈ members, Intersects nodes start last m → (nodes n).start ≤ (nodes m).start)
        ∧ (result = none ↔ ∀ n ∈ members, ¬ Intersects nodes start last n) := by
  have empty : Holds nodes [] ⟨none, nodes⟩ .nil :=
    ⟨⟨⟨rfl, trivial, .nil⟩, .nil, trivial⟩, fun _ => Iff.rfl, fun _ => rfl, fun _ => rfl⟩
  obtain ⟨root, t, returned, holds⟩ := empty.insertAll distinct rebalances
  rw [List.nil_append] at holds
  have intersects (n : κ) : Intersects root.nodes start last n ↔ Intersects nodes start last n := by
    rw [Intersects, Intersects, holds.start, holds.last]
  refine ⟨root, _, returned,
    intervalTreeFirstMatch_returns start last holds.toRepresents holds.ordered holds.augmented,
    fun n found => ?_, ?_⟩
  · have least := firstIntersecting_least holds.ordered found
    simpa only [holds.members, intersects, holds.start] using least
  · rw [firstIntersecting_eq_none_iff]
    simp only [holds.members, intersects]

/-- The intervals from 10 to 12, 5 to 30 and 20 to 40, whose insertion in this order needs no
rotation.
-/
theorem insertAll_found_sample
    : ∃ root result,
        Loop.Returns (insertAll (fun _ root => root) [1, 0, 2] ⟨none, sampleRoot.nodes⟩) root
        ∧ Loop.Returns (intervalTreeFirstMatch root 11 15) result
        ∧ result ≠ none := by
  obtain ⟨root, result, returned, found, _, missing⟩ :=
    insertAll_found (fun _ root => root) sampleRoot.nodes [1, 0, 2] (by decide) 11 15
      fun _ _ t _ => ⟨t, .refl⟩
  exact ⟨root, result, returned, found, fun none => absurd (missing.mp none) (by decide)⟩

end LinuxDoc.IntervalTree
