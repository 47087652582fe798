import LinuxDoc.Mpssd.BlockRequest

/-! Exactly which descriptor tables the chain walk handles within its bounds.
The walk follows indices that the guest wrote; the tables on which it ends, stays inside the
descriptor table and fits the iovec array are those with a short enough chain.
-/

namespace LinuxDoc.Mpssd

open Foundations Foundations.Loop

/-- Started after the header descriptor, the walk ends; the header and every descriptor it
reads on the way are inside the table; and it never stores more iovecs than were allocated.
-/
structure WalkSafe (ring : RingSize) (host : Endian) (vring : Vring) (fos : BitVec 64)
    : Prop where
  headInside : (headIndex ring host vring).toNat < ring.entries
  terminates
    : Terminates (walkPass host vring)
        (walkStart host (vring.desc (headIndex ring host vring)) fos)
  inside
    : ∀ state,
        Reaches (walkPass host vring)
          (walkStart host (vring.desc (headIndex ring host vring)) fos) state
        → state.descIdx.toNat < ring.entries
  fits
    : ∀ state,
        Reaches (walkPass host vring)
          (walkStart host (vring.desc (headIndex ring host vring)) fos) state
        → state.iovs.length ≤ ring.segMax

/-- The header is in the table, and from it the links lead through descriptors of the table,
at most `seg_max` of them before the last, to one without a next descriptor.
-/
def ChainFits (ring : RingSize) (host : Endian) (vring : Vring) : Prop :=
  (headIndex ring host vring).toNat < ring.entries
  ∧ ∃ visited,
      Trail (chainLink host vring)
        (some (nextDesc host (vring.desc (headIndex ring host vring)))) visited
      ∧ (∀ idx ∈ visited, idx.toNat < ring.entries)
      ∧ visited.length ≤ ring.segMax + 1

def OnTrail (host : Endian) (vring : Vring) (visited : List (BitVec 32))
    (state : WalkState)
    : Prop :=
  ∃ rest,
    Trail (chainLink host vring) (some state.descIdx) rest
    ∧ rest.Subset visited
    ∧ state.iovs.length + rest.length = visited.length

/-- A pass moves one descriptor along the trail and stores one iovec. -/
theorem OnTrail.continues {host : Endian} {vring : Vring} {visited : List (BitVec 32)}
    {state next : WalkState} (h : OnTrail host vring visited state)
    (pass : Continues (walkPass host vring) state next)
    : OnTrail host vring visited next := by
  obtain ⟨rest, trail, included, stored⟩ := h
  by_cases ends : (vring.desc state.descIdx).flags &&& vringDescFNext = 0
  · rw [Continues, walkPass, if_pos ends] at pass
    cases pass
  · rw [Continues, walkPass, if_neg ends] at pass
    cases pass
    cases trail with
    | cons tail =>
        rw [chainLink, if_neg ends] at tail
        refine ⟨_, tail, fun idx member => included (List.mem_cons_of_mem _ member), ?_⟩
        simp only [List.length_append, List.length_cons, List.length_nil] at stored ⊢
        omega

/-- The descriptor of a state on the trail is one of the visited, and not everything was
stored yet.
-/
theorem OnTrail.bounds {host : Endian} {vring : Vring} {visited : List (BitVec 32)}
    {state : WalkState} (h : OnTrail host vring visited state)
    : state.descIdx ∈ visited ∧ state.iovs.length < visited.length := by
  obtain ⟨rest, trail, included, stored⟩ := h
  cases trail with
  | cons tail =>
      refine ⟨included (by simp), ?_⟩
      simp only [List.length_cons] at stored
      omega

/-- A walk that leaves followed a trail: all of it was read, and all but its last
descriptor was stored. Witness: induction on the budget.
-/
theorem trail_of_run (host : Endian) (vring : Vring) (fuel : Nat) (state final : WalkState)
    (left : run (walkPass host vring) fuel state = some final)
    : ∃ visited,
        Trail (chainLink host vring) (some state.descIdx) visited
        ∧ (∀ idx ∈ visited, ∃ place, Reaches (walkPass host vring) state place ∧ place.descIdx = idx)
        ∧ Reaches (walkPass host vring) state final
        ∧ state.iovs.length + visited.length = final.iovs.length + 1 := by
  induction fuel generalizing state with
  | zero => cases left
  | succ fuel ih =>
      by_cases ends : (vring.desc state.descIdx).flags &&& vringDescFNext = 0
      · simp only [run, walkPass, ends, if_true, Option.some.injEq] at left
        subst left
        refine ⟨[state.descIdx], .cons ?_, ?_, .refl, rfl⟩
        · rw [chainLink, if_pos ends]
          exact .nil
        · intro idx member
          exact ⟨state, .refl, (List.mem_singleton.mp member).symm⟩
      · have pass : Continues (walkPass host vring) state
            {
              descIdx := nextDesc host (vring.desc state.descIdx)
              fos := state.fos + (vring.desc state.descIdx).len.setWidth 64
              iovs :=
                state.iovs ++ [⟨state.fos, (vring.desc state.descIdx).len.setWidth 64⟩]
            } := by
          rw [Continues, walkPass, if_neg ends]
        rw [run, pass] at left
        obtain ⟨rest, trail, reached, ended, count⟩ := ih _ left
        refine ⟨state.descIdx :: rest, .cons ?_, ?_, .head pass ended, ?_⟩
        · rw [chainLink, if_neg ends]
          exact trail
        · intro idx member
          rcases List.mem_cons.mp member with same | later
          · exact ⟨state, .refl, same.symm⟩
          · obtain ⟨place, there, same⟩ := reached idx later
            exact ⟨place, .head pass there, same⟩
        · simp only [List.length_append, List.length_cons, List.length_nil] at count ⊢
          omega

/-- The walk is safe exactly on the tables with a fitting chain. A run that ends leaves its trail
behind; and on a trail, which is an invariant of the walk, nothing is left of the chain when it
ends.
-/
theorem walkSafe_iff (ring : RingSize) (host : Endian) (vring : Vring) (fos : BitVec 64)
    : WalkSafe ring host vring fos ↔ ChainFits ring host vring := by
  constructor
  · intro safe
    obtain ⟨fuel, final, left⟩ := safe.terminates
    obtain ⟨visited, trail, reached, ended, count⟩ := trail_of_run host vring fuel _ final left
    refine ⟨safe.headInside, visited, trail, ?_, ?_⟩
    · intro idx member
      obtain ⟨place, there, same⟩ := reached idx member
      exact same ▸ safe.inside place there
    · have stored := safe.fits final ended
      simp only [walkStart, List.length_nil] at count
      omega
  · intro h
    rcases h with ⟨headInside, visited, trail, inside, short⟩
    have onTrail : ∀ state,
        Reaches (walkPass host vring)
          (walkStart host (vring.desc (headIndex ring host vring)) fos) state
        → OnTrail host vring visited state := by
      intro state reached
      refine reached.invariant (OnTrail host vring visited) ?_ (fun _ _ => OnTrail.continues)
      exact ⟨visited, trail, List.Subset.refl _, by simp [walkStart]⟩
    refine ⟨headInside, ?_, ?_, ?_⟩
    · obtain ⟨_, _, _, _, settled⟩ := walk_settles host vring trail fos []
      obtain ⟨bound, returned⟩ := settled.returns
      exact ⟨bound, _, returned bound (Nat.le_refl bound)⟩
    · intro state reached
      exact inside state.descIdx (onTrail state reached).bounds.1
    · intro state reached
      have stored := (onTrail state reached).bounds.2
      omega

def aloneVring : Vring :=
  { desc := fun _ => ⟨16, 0, 0⟩, availRing := fun _ => 0, infoAvailIdx := 0 }

def cyclicVring : Vring :=
  {
    desc := fun idx => if idx = 0 then ⟨16, 1, 1⟩ else ⟨512, 1, 1⟩
    availRing := fun _ => 0
    infoAvailIdx := 0
  }

/-- After a header without a next descriptor the walk reads the descriptor with index
`-1U`; on a cyclic chain it never ends.
-/
theorem walk_unsafe
    : ¬ WalkSafe micVringEntries .little aloneVring 0
      ∧ ¬ Terminates (walkPass .little cyclicVring)
          (walkStart .little
            (cyclicVring.desc (headIndex micVringEntries .little cyclicVring)) 0) := by
  constructor
  · intro safe
    have inside := safe.inside _ .refl
    exact absurd inside (by decide)
  · intro h
    rcases h with ⟨fuel, final, left⟩
    obtain ⟨visited, trail, -⟩ := trail_of_run .little cyclicVring fuel _ final left
    have link : chainLink .little cyclicVring 1 = some 1 := by decide
    have start : (walkStart .little
        (cyclicVring.desc (headIndex micVringEntries .little cyclicVring)) 0).descIdx = 1 := by
      decide
    rw [start] at trail
    cases trail with
    | cons tail =>
        -- The same start would have a trail and a longer one.
        rw [link] at tail
        have same := tail.unique (.cons (link ▸ tail))
        exact absurd (congrArg List.length same) (by simp)

end LinuxDoc.Mpssd
