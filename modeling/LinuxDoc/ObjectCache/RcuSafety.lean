import LinuxDoc.ObjectCache.RcuAccesses

/-! Reference counting in the RCU version of the object cache is safe, up to the number of
references that an `atomic_t` can count.
-/

namespace LinuxDoc.ObjectCache.Rcu

open Foundations

variable {Client : Type}

section

variable {s : State Client} {entries : List Addr} {stage : Addr → Stage Client}

variable {obj : Addr}

theorem Invariant.alive_of_stage (inv : Invariant s entries stage) (born : stage obj ≠ .unborn)
    (before : stage obj ≠ .handed)
    : obj < s.created ∧ obj ∉ s.freed :=
  inv.alive (inv.born born) (inv.references_pos_of_stage before)

theorem Invariant.alive_of_listed (inv : Invariant s entries stage) (listed : stage obj = .listed)
    : obj < s.created ∧ obj ∉ s.freed :=
  inv.alive_of_stage (by simp [listed]) (by simp [listed])

/-- Where a client walks, the objects are alive. -/
theorem Invariant.alive_of_walk (inv : Invariant s entries stage) {client : Client} (use : Use)
    {objs : List Addr} {q : Point} (at_point : s.point client = q) (role : q.role = use.role objs)
    (mem : obj ∈ objs)
    : obj < s.created ∧ obj ∉ s.freed := by
  have ok := inv.roles client
  rw [at_point, role] at ok
  cases use with
  | find =>
      have safe : Protected s stage client obj := ok obj mem
      exact inv.alive (inv.born_of_protected safe) (inv.references_pos_of_protected safe)
  | delete => exact inv.alive_of_listed (ok.1 obj mem)

/-- An object without references is off the list, and its grace period is over. -/
theorem Invariant.last_of_dead (inv : Invariant s entries stage) (dead : references s obj = 0)
    : ¬ OnList s obj ∧ GraceElapsed s obj ∧ s.holders obj = 0 := by
  obtain ⟨unheld, dropped⟩ := Nat.add_eq_zero_iff.mp dead
  refine ⟨?_, ?_, Multiset.card_eq_zero.mp unheld⟩
  · rintro ⟨n, walk⟩
    have listed := (inv.listed_iff obj).mpr (inv.ring.atEntry_walk n obj walk)
    exact (inv.references_pos_of_stage (by simp [listed])).ne' dead
  · cases callback : s.callback obj with
    | none | queued waits => simp [callback, Callback.reference] at dropped
    | free | done => simp [GraceElapsed, callback]

/-- An object given to `kfree` has no references left and was not given to it before. -/
theorem Invariant.frees (inv : Invariant s entries stage) (action : Action Client)
    (freeing : obj ∈ frees s action)
    : references s obj = 0 ∧ obj ∉ s.freed := by
  cases action with
  | advance client =>
      have role := inv.roles client
      cases at_point : s.point client with
      | free dying =>
          rw [at_point] at role
          simp only [Rcu.frees, at_point, Option.mem_def, Option.some.injEq] at freeing
          subst freeing
          exact ⟨role.dead, role.unfreed⟩
      | _ => simp [Rcu.frees, at_point] at freeing
  | callback dying =>
      cases callback : s.callback dying with
      | free =>
          simp only [Rcu.frees, callback, Option.mem_def, Option.some.injEq] at freeing
          subst freeing
          exact inv.free_dead dying callback
      | _ => simp [Rcu.frees, callback] at freeing
  | _ => cases freeing

end

section

variable [DecidableEq Client] {s : State Client} {entries : List Addr}
  {stage : Addr → Stage Client}

theorem agrees_goTo (s : State Client) (client : Client) (p : Point) : Agrees s (s.goTo client p) :=
  ⟨rfl, rfl, rfl, rfl, rfl, rfl, rfl, rfl, fun _ => rfl⟩

theorem agrees_cacheNum (s : State Client) (client : Client) (p : Point) (cacheNum : BitVec 32)
    : Agrees s ({ s with cacheNum := cacheNum }.goTo client p) :=
  ⟨rfl, rfl, rfl, rfl, rfl, rfl, rfl, rfl, fun _ => rfl⟩

theorem agrees_setPopularity (s : State Client) (client : Client) (p : Point) (obj : Addr)
    (popularity : BitVec 32)
    : Agrees s ((s.setPopularity obj popularity).goTo client p) := by
  refine ⟨rfl, rfl, rfl, rfl, rfl, rfl, rfl, rfl, fun y => ?_⟩
  by_cases same : y = obj <;> simp [State.goTo, State.setPopularity, same]

/-- Every access of an operation keeps the invariant. -/
theorem Invariant.advance (inv : Invariant s entries stage) (client : Client)
    : ∃ entries stage, Invariant (advance s client) entries stage := by
  have role := inv.roles client
  have reads := inv.reads_iff client
  unfold Rcu.advance
  cases at_point : s.point client with
  | outside => exact ⟨_, _, inv⟩
  | addLock obj =>
      rw [at_point] at role reads
      dsimp only
      split
      · rename_i open_
        exact ⟨_, _, inv.acquire open_ (by simpa [Point.role, Role.reads] using reads) rfl
          (by simp [Point.role]) fun none_removed => ⟨role, none_removed⟩⟩
      · exact ⟨_, _, inv⟩
  | addLink obj => exact ⟨_, _, inv.link at_point⟩
  | addCount =>
      exact ⟨_, _, inv.moveWalk .delete (agrees_cacheNum _ _ _ _) rfl at_point rfl
        (by split <;> rfl) fun ok head next here => here⟩
  | scanHead =>
      refine ⟨_, _, inv.moveWalk .delete (agrees_goTo _ _ _) rfl at_point rfl rfl ?_⟩
      exact fun ok head next here => by simpa using head
  | scan i outcast =>
      cases i with
      | none =>
          cases outcast with
          | none =>
              exact ⟨_, _, inv.moveWalk .delete (agrees_goTo _ _ _) rfl at_point rfl rfl
                fun ok head next here => here⟩
          | some outcast =>
              exact ⟨_, _, inv.moveWalk .delete (agrees_goTo _ _ _) rfl at_point rfl rfl
                fun ok head next here => here⟩
      | some i =>
          cases outcast with
          | none =>
              refine ⟨_, _, inv.moveWalk .delete (agrees_goTo _ _ _) rfl at_point rfl rfl ?_⟩
              exact fun ok head next here => by simpa using here
          | some outcast =>
              exact ⟨_, _, inv.moveWalk .delete (agrees_goTo _ _ _) rfl at_point rfl rfl
                fun ok head next here => here⟩
  | scanCompare i outcast popularity =>
      refine ⟨_, _, inv.moveWalk .delete (agrees_goTo _ _ _) rfl at_point rfl rfl ?_⟩
      intro ok head next here
      have at_i := here i (by simp)
      have at_outcast := here outcast (by simp)
      simp only [Option.toList_some, List.mem_cons, List.not_mem_nil, or_false, forall_eq_or_imp,
        forall_eq]
      refine ⟨at_i, ?_⟩
      split
      · exact at_i
      · exact at_outcast
  | scanNext i outcast =>
      refine ⟨_, _, inv.moveWalk .delete (agrees_goTo _ _ _) rfl at_point rfl rfl ?_⟩
      intro ok head next here x mem
      rcases List.mem_append.mp mem with mem | mem
      · exact next i (here i List.mem_cons_self) x (Option.mem_toList.mp mem)
      · exact here x (List.mem_cons_of_mem _ mem)
  | walkHead use id =>
      refine ⟨_, _, inv.moveWalk use (agrees_goTo _ _ _) rfl at_point rfl rfl ?_⟩
      exact fun ok head next here => by simpa using head
  | walk use id i =>
      cases i with
      | none =>
          refine ⟨_, _, inv.moveWalk use (agrees_goTo _ _ _) rfl at_point rfl ?_
            fun ok head next here => here⟩
          cases use <;> rfl
      | some i =>
          exact ⟨_, _, inv.moveWalk use (agrees_goTo _ _ _) rfl at_point rfl
            (by split <;> rfl) fun ok head next here => here⟩
  | walkNext use id i =>
      refine ⟨_, _, inv.moveWalk use (agrees_goTo _ _ _) rfl at_point rfl rfl ?_⟩
      intro ok head next here x mem
      exact next i (here i List.mem_cons_self) x (Option.mem_toList.mp mem)
  | bump use i =>
      exact ⟨_, _, inv.moveWalk use (agrees_goTo _ _ _) rfl at_point rfl rfl
        fun ok head next here => here⟩
  | bumpStore use i popularity =>
      refine ⟨_, _, inv.moveWalk use (agrees_setPopularity _ _ _ _ _) rfl at_point rfl ?_
        fun ok head next here => here⟩
      cases use <;> rfl
  | get obj =>
      rw [at_point] at role
      have safe : Protected s stage client obj := role obj List.mem_cons_self
      have got := inv.objectGet client (inv.born_of_protected safe)
        (inv.references_pos_of_protected safe)
      refine ⟨_, _, got.moveWalk .find (agrees_goTo _ _ _) rfl at_point rfl rfl ?_⟩
      intro ok head next here other mem
      cases mem
  | readUnlock => exact ⟨_, _, inv.readUnlock⟩
  | bug => exact ⟨_, _, inv⟩
  | unlink obj => exact ⟨_, _, inv.unlink at_point⟩
  | uncount obj =>
      rw [at_point] at role
      exact ⟨_, _, inv.move (agrees_cacheNum _ _ _ _) rfl (by rw [at_point]; rfl)
        (by rw [at_point]; exact fun _ => rfl) (by simp [Point.role]) role⟩
  | callRcu obj => exact ⟨_, _, inv.callRcu at_point⟩
  | unlock => exact ⟨_, _, inv.release at_point⟩
  | free obj => exact ⟨_, _, inv.clientFree at_point⟩

/-- Every access of a callback keeps the invariant. -/
theorem Invariant.runCallback (inv : Invariant s entries stage) (obj : Addr)
    (countable : references s obj ≤ 2 ^ 32)
    : Invariant (runCallback s obj) entries stage := by
  unfold Rcu.runCallback
  cases callback : s.callback obj with
  | none => exact inv
  | queued waits =>
      dsimp only
      split
      · rename_i ended
        exact inv.callbackPut (ended ▸ callback) countable
      · exact inv
  | free => exact inv.callbackFree callback
  | done => exact inv

/-- Every action keeps the invariant, as long as references can be counted. -/
theorem Invariant.step (inv : Invariant s entries stage) (countable : Countable s)
    (action : Action Client)
    : ∃ entries stage, Invariant (step s action) entries stage := by
  cases action with
  | add client id kmalloc =>
      simp only [Rcu.step]
      split
      · rename_i open_
        exact ⟨_, _, inv.create open_.1 id⟩
      · exact ⟨_, _, inv⟩
  | find client id =>
      simp only [Rcu.step]
      split
      · exact ⟨_, _, inv.readLock id⟩
      · exact ⟨_, _, inv⟩
  | delete client id =>
      simp only [Rcu.step]
      split
      · rename_i open_
        have reads := inv.reads_iff client
        rw [open_.1] at reads
        exact ⟨_, _, inv.acquire open_.2 (by simpa [Point.role, Role.reads] using reads) rfl nofun
          fun none_removed => ⟨nofun, none_removed⟩⟩
      · exact ⟨_, _, inv⟩
  | get client obj =>
      simp only [Rcu.step]
      split
      · rename_i open_
        exact ⟨_, _, inv.objectGet client (inv.born_of_held open_.2)
          (references_pos_of_held open_.2)⟩
      · exact ⟨_, _, inv⟩
  | put client obj =>
      simp only [Rcu.step]
      split
      · rename_i open_
        exact ⟨_, _, inv.put open_.1 open_.2 (countable obj)⟩
      · exact ⟨_, _, inv⟩
  | advance client => exact inv.advance client
  | callback obj => exact ⟨_, _, inv.runCallback obj (countable obj)⟩

/-- Every object that an operation accesses next is alive. -/
theorem Invariant.advance_touches (inv : Invariant s entries stage) (client : Client)
    {obj : Addr} (mem : obj ∈ touches s (.advance client))
    : obj < s.created ∧ obj ∉ s.freed := by
  have role := inv.roles client
  unfold touches at mem
  cases at_point : s.point client with
  | outside | addLock | addCount | scanHead | walkHead | readUnlock | bug | uncount | unlock
    | free => simp [at_point] at mem
  | addLink new =>
      rw [at_point] at role
      simp only [at_point, List.mem_cons, Option.mem_toList] at mem
      rcases mem with rfl | first
      · exact inv.alive_of_stage (by simp [role.1]) (by simp [role.1])
      · exact inv.alive_of_listed ((inv.listed_iff obj).mpr (inv.ring.atEntry_head obj first))
  | unlink old =>
      rw [at_point] at role
      have listed := role.1 old List.mem_cons_self
      have entry := (inv.listed_iff old).mp listed
      simp only [at_point, List.cons_append, List.mem_cons, List.mem_append,
        Option.mem_toList] at mem
      rcases mem with rfl | before | after
      · exact inv.alive_of_listed listed
      · exact inv.alive_of_listed
          ((inv.listed_iff obj).mpr (inv.ring.atEntry_prev entry obj before))
      · exact inv.alive_of_listed
          ((inv.listed_iff obj).mpr (inv.ring.atEntry_next entry obj after))
  | scan i outcast =>
      refine inv.alive_of_walk .delete at_point rfl ?_
      cases i <;> cases outcast <;> simp_all
  | scanCompare i outcast popularity =>
      refine inv.alive_of_walk .delete at_point rfl ?_
      simp_all
  | scanNext i outcast =>
      refine inv.alive_of_walk .delete at_point rfl ?_
      simp_all
  | walk use id i =>
      refine inv.alive_of_walk use at_point rfl ?_
      cases i <;> simp_all
  | walkNext use id i =>
      refine inv.alive_of_walk use at_point rfl ?_
      simpa [at_point] using mem
  | bump use i =>
      refine inv.alive_of_walk use at_point rfl ?_
      simpa [at_point] using mem
  | bumpStore use i popularity =>
      refine inv.alive_of_walk use at_point rfl ?_
      simpa [at_point] using mem
  | get found =>
      refine inv.alive_of_walk .find at_point rfl ?_
      simpa [at_point] using mem
  | callRcu old =>
      rw [at_point] at role
      simp only [at_point, List.mem_singleton] at mem
      subst mem
      exact inv.alive_of_stage (by simp [role.1]) (by simp [role.1])

/-- Every object that an action accesses is alive. -/
theorem Invariant.touches (inv : Invariant s entries stage) (action : Action Client)
    {obj : Addr} (mem : obj ∈ touches s action)
    : obj < s.created ∧ obj ∉ s.freed := by
  have held {client : Client} {held : Addr}
      (mem : obj ∈ if s.point client = .outside ∧ client ∈ s.holders held then [held] else [])
      : obj < s.created ∧ obj ∉ s.freed := by
    split at mem
    · rename_i open_
      rw [List.mem_singleton.mp mem]
      exact inv.alive (inv.born_of_held open_.2) (references_pos_of_held open_.2)
    · cases mem
  cases action with
  | add | find | delete => cases mem
  | get client => exact held mem
  | put client => exact held mem
  | advance client => exact inv.advance_touches client mem
  | callback queued =>
      cases callback : s.callback queued with
      | none | free | done => simp [Rcu.touches, callback] at mem
      | queued waits =>
          simp only [Rcu.touches, callback] at mem
          split at mem
          · rw [List.mem_singleton.mp mem]
            refine inv.alive (inv.born (by simp [inv.handed_of_queued callback])) ?_
            simp [references, callback, Callback.reference]
          · cases mem

theorem Invariant.safe (inv : Invariant s entries stage) : Safe s where
  touched := fun action _ mem => inv.touches action mem
  once := inv.once
  again := fun action _ freeing => (inv.frees action freeing).2
  last := fun action _ freeing => inv.last_of_dead (inv.frees action freeing).1

def run (s : State Client) (actions : List (Action Client)) : State Client :=
  actions.foldl step s

/-- In every interleaving in which the references to each object can be counted, the cache is safe.
By an invariant over the list of the entries and the stage of each object, which every step keeps.
-/
theorem rcuCache_safe (Client : Type) [DecidableEq Client] (actions : List (Action Client))
    (countable : Always step Countable (initial Client) actions)
    : Always step Safe (initial Client) actions := by
  have kept : Always step (fun s => ∃ entries stage, Invariant s entries stage)
      (initial Client) actions := by
    refine Always.of_preserved ?_ ⟨_, _, invariant_initial Client⟩ countable
    rintro s action ⟨entries, stage, inv⟩ countable
    exact inv.step countable action
  refine kept.imp ?_
  rintro s ⟨entries, stage, inv⟩
  exact inv.safe

/-! How many references there can be -/

omit [DecidableEq Client] in
theorem card_holders_objectGet (s : State Client) (client : Client) (obj y : Addr)
    : Multiset.card ((s.objectGet client obj).holders y) ≤ Multiset.card (s.holders y) + 1 := by
  by_cases same : y = obj
  · simp [State.objectGet, same]
  · simp [State.objectGet, State.setRefcnt, same]

/-- An action adds at most one reference. -/
theorem card_holders_step (s : State Client) (action : Action Client) (obj : Addr)
    : Multiset.card ((step s action).holders obj) ≤ Multiset.card (s.holders obj) + 1 := by
  cases action with
  | get client got =>
      simp only [Rcu.step]
      split
      · exact card_holders_objectGet s client got obj
      · exact Nat.le_succ _
  | put client dropped =>
      simp only [Rcu.step]
      split
      · by_cases same : obj = dropped
        · simpa [State.goTo, same] using (Multiset.card_erase_le).trans (Nat.le_succ _)
        · simp [State.goTo, State.setRefcnt, same]
      · exact Nat.le_succ _
  | advance client =>
      simp only [Rcu.step, Rcu.advance]
      split
      case h_18 => exact card_holders_objectGet s client _ obj
      case h_2 => split <;> exact Nat.le_succ _
      all_goals exact Nat.le_succ _
  | callback queued =>
      simp only [Rcu.step, Rcu.runCallback]
      split
      · split <;> exact Nat.le_succ _
      all_goals exact Nat.le_succ _
  | add | find | delete =>
      simp only [Rcu.step]
      split <;> exact Nat.le_succ _

omit [DecidableEq Client] in
theorem countable_of_few {s : State Client} {n : Nat}
    (few : ∀ obj, Multiset.card (s.holders obj) ≤ n) (small : n < 2 ^ 32)
    : Countable s := by
  intro obj
  have one : (s.callback obj).reference ≤ 1 := by
    cases s.callback obj <;> simp [Callback.reference]
  have := few obj
  rw [references]
  omega

/-- It takes billions of actions to lose count. -/
theorem countable_of_length (actions : List (Action Client)) (short : actions.length < 2 ^ 32)
    : Always step Countable (initial Client) actions := by
  suffices bounded : ∀ (s : State Client) (n : Nat), n + actions.length < 2 ^ 32 →
      (∀ obj, Multiset.card (s.holders obj) ≤ n) → Always step Countable s actions from
    bounded _ 0 (by omega) fun obj => by simp [initial]
  clear short
  induction actions with
  | nil => exact fun s n short few => countable_of_few few short
  | cons action rest ih =>
      intro s n short few
      rw [List.length_cons] at short
      refine ⟨countable_of_few few (by omega), ih _ (n + 1) (by omega) fun obj => ?_⟩
      exact (card_holders_step s action obj).trans (Nat.succ_le_succ (few obj))

def lifeOfOne : List (Action Bool) :=
  [.add true 7#32 true, .advance true, .advance true, .advance true, .advance true,
    .find false 7#32, .advance false, .advance false, .delete true 7#32, .advance true,
    .advance true, .advance true, .advance true, .advance true, .advance true, .advance false,
    .advance false, .advance true, .advance true, .advance false, .advance false, .callback 0,
    .put false 0, .advance false]

theorem lifeOfOne_safe
    : (run (initial Bool) lifeOfOne).freed = [0] ∧ Always step Safe (initial Bool) lifeOfOne :=
  ⟨by decide, rcuCache_safe Bool lifeOfOne (countable_of_length _ (by decide))⟩

/-! What happens when the count wraps -/

structure Holding (n : Nat) (s : State Unit) : Prop where
  outside : s.point () = .outside
  counted : (s.objects 0).refcnt = BitVec.ofNat 32 (n + 1)
  held : s.holders 0 = Multiset.replicate n ()
  first : s.next none = some 0

theorem Holding.get {n : Nat} {s : State Unit} (holding : Holding (n + 1) s)
    : Holding (n + 2) (step s (.get () 0)) := by
  have holds : () ∈ s.holders 0 := by
    rw [holding.held]
    exact Multiset.mem_replicate.mpr ⟨Nat.succ_ne_zero n, rfl⟩
  have stepped : step s (.get () 0) = s.objectGet () 0 := if_pos ⟨holding.outside, holds⟩
  rw [stepped]
  constructor
  · exact holding.outside
  · simp only [State.objectGet, State.setRefcnt, Function.update_self, holding.counted]
    exact (BitVec.ofNat_add (n + 1 + 1) 1).symm
  · simp [State.objectGet, holding.held, Multiset.replicate_succ]
  · exact holding.first

theorem Holding.getAll {n : Nat} {s : State Unit} (holding : Holding (n + 1) s) (times : Nat)
    : Holding (n + 1 + times) (run s (List.replicate times (.get () 0))) := by
  induction times generalizing n s with
  | zero => exact holding
  | succ times ih =>
      have later := ih holding.get
      rwa [Nat.add_right_comm, Nat.add_assoc] at later

def addAndFind : List (Action Unit) :=
  [.add () 7#32 true, .advance (), .advance (), .advance (), .advance (), .find () 7#32,
    .advance (), .advance (), .advance (), .advance (), .advance (), .advance ()]

theorem holding_addAndFind : Holding 1 (run (initial Unit) addAndFind) := by
  constructor <;> decide

/-- Where the count has wrapped to one, dropping a reference brings it to zero. -/
theorem Holding.put {n : Nat} {s : State Unit} (holding : Holding (n + 1) s)
    (wrapped : BitVec.ofNat 32 (n + 1) = 0#32)
    : frees (step s (.put () 0)) (.advance ()) = some 0 ∧ OnList (step s (.put () 0)) 0
      ∧ Multiset.card ((step s (.put () 0)).holders 0) = n := by
  have holds : () ∈ s.holders 0 := by
    rw [holding.held]
    exact Multiset.mem_replicate.mpr ⟨Nat.succ_ne_zero n, rfl⟩
  have zero : s.decAndTest 0 = true := by
    rw [State.decAndTest, holding.counted, BitVec.ofNat_add, wrapped]
    rfl
  simp only [step, holding.outside, holds, and_self, if_true, zero]
  refine ⟨by simp [frees, State.goTo], ⟨0, holding.first⟩, ?_⟩
  simp [State.goTo, holding.held, Multiset.replicate_succ]

/-- With `2 ^ 32` references held, dropping one of them frees the object, though it is still
on the list and all other references are held.
-/
theorem wrappedCount_frees
    : ∃ actions : List (Action Unit),
        frees (run (initial Unit) actions) (.advance ()) = some 0
        ∧ OnList (run (initial Unit) actions) 0
        ∧ Multiset.card ((run (initial Unit) actions).holders 0) = 2 ^ 32 - 1
        ∧ ¬ Safe (run (initial Unit) actions) := by
  -- the number stays a variable, or its references would be written out
  suffices wraps : ∀ times, BitVec.ofNat 32 (times + 1) = 0#32 → ∃ actions : List (Action Unit),
      frees (run (initial Unit) actions) (.advance ()) = some 0
      ∧ OnList (run (initial Unit) actions) 0
      ∧ Multiset.card ((run (initial Unit) actions).holders 0) = times
      ∧ ¬ Safe (run (initial Unit) actions) from
    wraps (2 ^ 32 - 1) (by decide)
  intro times wrapped
  have holding := holding_addAndFind.getAll times
  rw [Nat.zero_add, Nat.add_comm] at holding
  obtain ⟨freeing, listed, held⟩ := holding.put wrapped
  refine ⟨addAndFind ++ List.replicate times (.get () 0) ++ [.put () 0], ?_⟩
  simp only [run, List.foldl_append] at freeing listed held ⊢
  exact ⟨freeing, listed, held, fun safe => (safe.last _ 0 freeing).1 listed⟩

end

end LinuxDoc.ObjectCache.Rcu
