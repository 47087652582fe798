import Mathlib.Logic.Function.Basic
import Mathlib.Data.List.Nodup

/-! Doubly linked lists closed by a head that is not an entry of theirs.
A node is an entry or the head, which is `none`; the links are two functions on nodes.
-/

namespace Foundations

universe u

variable {α : Type u}

def Linked (next prev : Option α → Option α) : Option α → List α → Prop
  | node, [] => next node = none ∧ prev none = node
  | node, entry :: rest =>
      next node = some entry ∧ prev (some entry) = node ∧ Linked next prev (some entry) rest

/-- The links lead from the head through the entries, each of them once, to the head. -/
structure Ring (next prev : Option α → Option α) (entries : List α) : Prop where
  linked : Linked next prev none entries
  nodup : entries.Nodup

def ringWalk (next : Option α → Option α) : Nat → Option α
  | 0 => next none
  | n + 1 => (ringWalk next n).bind fun entry => next (some entry)

def AtEntry (entries : List α) (node : Option α) : Prop :=
  ∀ entry ∈ node, entry ∈ entries

variable {node : Option α} {entries : List α}

/-- A list of entries is linked by any links that agree on its nodes. -/
theorem Linked.congr {next prev next' prev' : Option α → Option α}
    (linked : Linked next prev node entries) (same_node : next' node = next node)
    (same_next : ∀ entry ∈ entries, next' (some entry) = next (some entry))
    (same_prev : ∀ entry ∈ entries, prev' (some entry) = prev (some entry))
    (same_head : prev' none = prev none)
    : Linked next' prev' node entries := by
  induction entries generalizing node with
  | nil => exact ⟨same_node.trans linked.1, same_head.trans linked.2⟩
  | cons entry rest ih =>
      obtain ⟨forward, back, linked⟩ := linked
      refine ⟨same_node.trans forward, (same_prev entry List.mem_cons_self).trans back, ?_⟩
      exact ih linked (same_next entry List.mem_cons_self)
        (fun other mem => same_next other (List.mem_cons_of_mem _ mem))
        (fun other mem => same_prev other (List.mem_cons_of_mem _ mem))

variable {next prev : Option α → Option α}

/-- From a node of a linked list the next node is one of the list. -/
theorem Linked.next_mem (linked : Linked next prev node entries)
    : AtEntry entries (next node)
      ∧ ∀ entry ∈ entries, AtEntry entries (next (some entry)) := by
  induction entries generalizing node with
  | nil =>
      refine ⟨?_, fun _ mem => nomatch mem⟩
      rw [linked.1]
      exact fun _ mem => nomatch mem
  | cons first rest ih =>
      obtain ⟨forward, _, linked⟩ := linked
      obtain ⟨fromFirst, fromRest⟩ := ih linked
      have widen {node : Option α} (at_rest : AtEntry rest node)
          : AtEntry (first :: rest) node :=
        fun entry mem => List.mem_cons_of_mem _ (at_rest entry mem)
      constructor
      · rw [forward]
        rintro _ ⟨⟩
        exact List.mem_cons_self
      · intro entry mem
        rcases List.mem_cons.mp mem with rfl | mem
        · exact widen fromFirst
        · exact widen (fromRest entry mem)

/-- Back from an entry after the first one is an entry. -/
theorem Linked.prev_mem {first : α} {rest : List α} (linked : Linked next prev (some first) rest)
    {entry : α} (mem : entry ∈ rest)
    : ∃ before ∈ first :: rest, prev (some entry) = some before := by
  induction rest generalizing first with
  | nil => cases mem
  | cons second rest ih =>
      obtain ⟨_, back, linked⟩ := linked
      rcases List.mem_cons.mp mem with rfl | mem
      · exact ⟨first, List.mem_cons_self, back⟩
      · obtain ⟨before, mem_before, eq⟩ := ih linked mem
        exact ⟨before, List.mem_cons_of_mem _ mem_before, eq⟩

/-- No entry is its own neighbour. -/
theorem Linked.irrefl (linked : Linked next prev node entries) (nodup : entries.Nodup)
    (outside : ∀ entry ∈ node, entry ∉ entries) {entry : α} (mem : entry ∈ entries)
    : next (some entry) ≠ some entry ∧ prev (some entry) ≠ some entry := by
  induction entries generalizing node with
  | nil => cases mem
  | cons first rest ih =>
      obtain ⟨_, back, linked⟩ := linked
      obtain ⟨first_new, nodup⟩ := List.nodup_cons.mp nodup
      rcases List.mem_cons.mp mem with rfl | mem
      · refine ⟨fun self => first_new (linked.next_mem.1 entry self), fun self => ?_⟩
        exact outside entry (back.symm.trans self) List.mem_cons_self
      · refine ih linked nodup ?_ mem
        rintro _ ⟨⟩
        exact first_new

section

variable [DecidableEq α] {next prev : Option α → Option α} {entries : List α}

def insertNext (next : Option α → Option α) (entry : α) : Option α → Option α :=
  Function.update (Function.update next (some entry) (next none)) none (some entry)

def insertPrev (next prev : Option α → Option α) (entry : α) : Option α → Option α :=
  Function.update (Function.update prev (some entry) none) (next none) (some entry)

def removeNext (next prev : Option α → Option α) (entry : α) : Option α → Option α :=
  Function.update next (prev (some entry)) (next (some entry))

def removePrev (next prev : Option α → Option α) (entry : α) : Option α → Option α :=
  Function.update prev (next (some entry)) (prev (some entry))

/-- A new entry after the head makes a ring with that entry in front. -/
theorem Ring.insert (ring : Ring next prev entries) {entry : α} (new : entry ∉ entries)
    : Ring (insertNext next entry) (insertPrev next prev entry) (entry :: entries) := by
  refine ⟨?_, List.nodup_cons.mpr ⟨new, ring.nodup⟩⟩
  have linked := ring.linked
  have nodup := ring.nodup
  cases entries with
  | nil =>
      obtain ⟨forward, back⟩ := linked
      simp [Linked, insertNext, insertPrev, forward]
  | cons first rest =>
      obtain ⟨forward, back, linked⟩ := linked
      simp only [List.mem_cons, not_or] at new
      refine ⟨by simp [insertNext], by simp [insertPrev, forward, new.1], ?_⟩
      refine ⟨by simp [insertNext, forward], by simp [insertPrev, forward], ?_⟩
      apply linked.congr
      · simp [insertNext, Ne.symm new.1]
      · intro other mem
        have differs : other ≠ entry := fun same => new.2 (same ▸ mem)
        simp [insertNext, differs]
      · intro other mem
        have differs : other ≠ entry := fun same => new.2 (same ▸ mem)
        have after : other ≠ first := fun same => (List.nodup_cons.mp nodup).1 (same ▸ mem)
        simp [insertPrev, forward, differs, after]
      · simp [insertPrev, forward]

/-- Passing an entry by takes it out of the list, wherever it stands. -/
theorem Linked.remove {node : Option α} (linked : Linked next prev node entries)
    (nodup : entries.Nodup) (outside : ∀ entry ∈ node, entry ∉ entries) {entry : α}
    (mem : entry ∈ entries)
    : Linked (removeNext next prev entry) (removePrev next prev entry) node
        (entries.erase entry) := by
  induction entries generalizing node with
  | nil => cases mem
  | cons first rest ih =>
      obtain ⟨forward, back, linked⟩ := linked
      obtain ⟨first_new, nodup⟩ := List.nodup_cons.mp nodup
      by_cases same : first = entry
      · subst same
        rw [List.erase_cons_head]
        cases rest with
        | nil =>
            obtain ⟨last, _⟩ := linked
            simp [Linked, removeNext, removePrev, back, last]
        | cons second rest =>
            obtain ⟨forward', back', linked⟩ := linked
            have apart : ∀ other ∈ second :: rest, some other ≠ node := by
              rintro other mem rfl
              exact outside other rfl (List.mem_cons_of_mem _ mem)
            refine ⟨by simp [removeNext, back, forward'], by simp [removePrev, back, forward'], ?_⟩
            apply linked.congr
            · simp [removeNext, back, apart second List.mem_cons_self]
            · intro other mem
              simp [removeNext, back, apart other (List.mem_cons_of_mem _ mem)]
            · intro other mem
              have after : other ≠ second := fun same => (List.nodup_cons.mp nodup).1 (same ▸ mem)
              simp [removePrev, forward', after]
            · simp [removePrev, forward']
      · have mem : entry ∈ rest := (List.mem_cons.mp mem).resolve_left (Ne.symm same)
        obtain ⟨before, mem_before, before_eq⟩ := linked.prev_mem mem
        have node_ne : node ≠ some before := by
          rintro rfl
          exact outside before rfl mem_before
        have first_ne : some first ≠ next (some entry) :=
          fun eq => first_new (linked.next_mem.2 entry mem first eq.symm)
        rw [List.erase_cons_tail (by simpa using same)]
        refine ⟨?_, ?_, ih linked nodup ?_ mem⟩
        · simpa [removeNext, before_eq, node_ne] using forward
        · simpa [removePrev, first_ne] using back
        · rintro _ ⟨⟩
          exact first_new

theorem Ring.remove (ring : Ring next prev entries) {entry : α} (mem : entry ∈ entries)
    : Ring (removeNext next prev entry) (removePrev next prev entry) (entries.erase entry) :=
  ⟨ring.linked.remove ring.nodup (fun _ mem => nomatch mem) mem, ring.nodup.erase entry⟩

end

section

variable {next prev : Option α → Option α} {entries : List α}

/-- The empty list, whose head points to itself. -/
theorem ring_nil (next_head : next none = none) (prev_head : prev none = none)
    : Ring next prev [] :=
  ⟨⟨next_head, prev_head⟩, List.nodup_nil⟩

/-- After the head comes an entry, or the head again. -/
theorem Ring.atEntry_head (ring : Ring next prev entries) : AtEntry entries (next none) :=
  ring.linked.next_mem.1

/-- After an entry comes an entry, or the head. -/
theorem Ring.atEntry_next (ring : Ring next prev entries) {entry : α} (mem : entry ∈ entries)
    : AtEntry entries (next (some entry)) :=
  ring.linked.next_mem.2 entry mem

theorem Ring.atEntry_prev (ring : Ring next prev entries) {entry : α} (mem : entry ∈ entries)
    : AtEntry entries (prev (some entry)) := by
  have linked := ring.linked
  cases entries with
  | nil => cases mem
  | cons first rest =>
      obtain ⟨_, back, linked⟩ := linked
      rcases List.mem_cons.mp mem with rfl | mem
      · rw [back]
        exact fun _ mem => nomatch mem
      · obtain ⟨before, mem_before, before_eq⟩ := linked.prev_mem mem
        rw [before_eq]
        rintro _ ⟨⟩
        exact mem_before

theorem Ring.irrefl (ring : Ring next prev entries) {entry : α} (mem : entry ∈ entries)
    : next (some entry) ≠ some entry ∧ prev (some entry) ≠ some entry :=
  ring.linked.irrefl ring.nodup (fun _ mem => nomatch mem) mem

/-- A walk from the head meets entries only. -/
theorem Ring.atEntry_walk (ring : Ring next prev entries) (n : Nat)
    : AtEntry entries (ringWalk next n) := by
  induction n with
  | zero => exact ring.atEntry_head
  | succ n ih =>
      rw [ringWalk]
      cases walk : ringWalk next n with
      | none => exact fun _ mem => nomatch mem
      | some entry => exact ring.atEntry_next (ih entry walk)

end

end Foundations
