import LinuxDoc.ObjectCache.Rcu

/-! The invariant of the RCU version of the object cache.
Each object goes through stages: it belongs to the client that adds it, is on the list, is
off the list but not yet handed to RCU, and is in the hands of its callback. What a client
relies on depends on where it is only through a role.
-/

namespace LinuxDoc.ObjectCache.Rcu

open Foundations

variable {Client : Type}

inductive Stage (Client : Type) where
  | unborn
  | owned (client : Client)
  | listed
  | removed (client : Client)
  | handed

inductive Role where
  | outside
  | owns (obj : Addr)
  /-- the object is its own, under the lock -/
  | linking (obj : Addr)
  /-- the objects are on the list, under the lock -/
  | locked (objs : List Addr)
  /-- the object is off the list and nobody else's, under the lock -/
  | unlinked (obj : Addr)
  /-- the objects outlast its read-side section -/
  | reading (objs : List Addr)
  /-- the object has nobody else to free it -/
  | freeing (obj : Addr)

def Use.role : Use → List Addr → Role
  | .find, objs => .reading objs
  | .delete, objs => .locked objs

def Point.role : Point → Role
  | .outside => .outside
  | .addLock obj => .owns obj
  | .addLink obj => .linking obj
  | .addCount | .scanHead | .bug | .unlock => .locked []
  | .scan i outcast => .locked (i.toList ++ outcast.toList)
  | .scanCompare i outcast _ => .locked [i, outcast]
  | .scanNext i outcast => .locked (i :: outcast.toList)
  | .walkHead use _ => use.role []
  | .walk use _ i => use.role i.toList
  | .walkNext use _ i | .bump use i | .bumpStore use i _ => use.role [i]
  | .get obj => .reading [obj]
  | .readUnlock => .reading []
  | .unlink obj => .locked [obj]
  | .uncount obj | .callRcu obj => .unlinked obj
  | .free obj => .freeing obj

def Role.locks : Role → Bool
  | .linking _ | .locked _ | .unlinked _ => true
  | _ => false

def Role.reads : Role → Bool
  | .reading _ => true
  | _ => false

/-- A read-side section of the client keeps the object from its callback. -/
def Protected (s : State Client) (stage : Addr → Stage Client) (client : Client) (obj : Addr)
    : Prop :=
  stage obj = .listed ∨ (∃ other, stage obj = .removed other)
    ∨ ∃ waits, s.callback obj = .queued waits ∧ client ∈ waits

structure Dying (s : State Client) (client : Client) (obj : Addr) : Prop where
  dead : references s obj = 0
  born : obj < s.created
  unfreed : obj ∉ s.freed
  quiet : s.callback obj ≠ .free
  alone : ∀ other, (s.point other).role = .freeing obj → other = client

def RoleOk (s : State Client) (stage : Addr → Stage Client) (client : Client) : Role → Prop
  | .outside => True
  | .owns obj => stage obj = .owned client
  | .linking obj => stage obj = .owned client ∧ ∀ other by_, stage other ≠ .removed by_
  | .locked objs => (∀ obj ∈ objs, stage obj = .listed) ∧ ∀ other by_, stage other ≠ .removed by_
  | .unlinked obj => stage obj = .removed client
      ∧ ∀ other by_, stage other = .removed by_ → other = obj
  | .reading objs => ∀ obj ∈ objs, Protected s stage client obj
  | .freeing obj => Dying s client obj

structure Shared (s : State Client) (entries : List Addr) (stage : Addr → Stage Client)
    : Prop where
  ring : Ring s.next s.prev entries
  listed_iff : ∀ obj, stage obj = .listed ↔ obj ∈ entries
  unborn_iff : ∀ obj, stage obj = .unborn ↔ s.created ≤ obj
  handed_iff : ∀ obj, stage obj = .handed ↔ s.callback obj ≠ .none
  removed_lock : ∀ obj client, stage obj = .removed client → s.lock = some client
  /-- An object taken off the list leads back to it. -/
  removed_next : ∀ obj client, stage obj = .removed client →
    ∀ following ∈ s.next (some obj), stage following = .listed
  /-- Only sections that go on are waited for. -/
  waits : ∀ obj waits, s.callback obj = .queued waits → waits ⊆ s.readers
  /-- A reader that is waited for at an object is safe at the next one. -/
  closed : ∀ client obj waits, s.callback obj = .queued waits → client ∈ waits →
    ∀ following ∈ s.next (some obj), Protected s stage client following
  counted : ∀ obj < s.created,
    (s.objects obj).refcnt = BitVec.ofNat 32 (references s obj)
  unheld : ∀ obj, s.created ≤ obj → s.holders obj = 0
  once : s.freed.Nodup
  freed_dead : ∀ obj ∈ s.freed, references s obj = 0
  free_dead : ∀ obj, s.callback obj = .free → references s obj = 0 ∧ obj ∉ s.freed

structure Clients (s : State Client) (stage : Addr → Stage Client) : Prop where
  reads_iff : ∀ client, (s.point client).role.reads = true ↔ client ∈ s.readers
  locks : ∀ client, (s.point client).role.locks = true → s.lock = some client
  roles : ∀ client, RoleOk s stage client (s.point client).role

structure Invariant (s : State Client) (entries : List Addr) (stage : Addr → Stage Client)
    : Prop extends Shared s entries stage, Clients s stage

/-- A value that is neither the old one nor the new one is taken where it was before. -/
theorem update_eq_iff {α β : Type} [DecidableEq α] {f : α → β} {a : α} {old new value : β}
    (is : f a = old) (old_ne : old ≠ value) (new_ne : new ≠ value) (b : α)
    : Function.update f a new b = value ↔ f b = value := by
  by_cases same : b = a
  · simp [same, is, old_ne, new_ne]
  · simp [same]

theorem invariant_initial (Client : Type)
    : Invariant (initial Client) [] (fun _ => .unborn) where
  ring := ring_nil rfl rfl
  listed_iff := by simp
  unborn_iff := by simp [initial]
  handed_iff := by simp [initial]
  removed_lock := by simp
  removed_next := by simp
  waits := by simp [initial]
  closed := by simp [initial]
  counted := by simp [initial]
  unheld := fun _ _ => rfl
  once := List.nodup_nil
  freed_dead := by simp [initial]
  free_dead := by simp [initial]
  reads_iff := by simp [initial, Point.role, Role.reads]
  locks := by simp [initial, Point.role, Role.locks]
  roles := fun _ => trivial

section

variable {s s' : State Client} {entries : List Addr} {stage stage' : Addr → Stage Client}

variable {obj : Addr}

/-- An object that is on its way to its callback has the cache's reference. -/
theorem Invariant.references_pos_of_stage (inv : Invariant s entries stage)
    (before : stage obj ≠ .handed)
    : 0 < references s obj := by
  have none : s.callback obj = .none := by
    by_contra some
    exact before ((inv.handed_iff obj).mpr some)
  simp [references, none, Callback.reference]

theorem Shared.handed_of_queued (shared : Shared s entries stage) {waits : Finset Client}
    (queued : s.callback obj = .queued waits)
    : stage obj = .handed :=
  (shared.handed_iff obj).mpr (by simp [queued])

variable {client : Client}

/-- A reader that is safe at an object is safe at the next one. -/
theorem Shared.protected_next (shared : Shared s entries stage)
    (safe : Protected s stage client obj)
    : ∀ following ∈ s.next (some obj), Protected s stage client following := by
  intro following mem
  rcases safe with listed | ⟨other, removed⟩ | ⟨waits, queued, waited⟩
  · have next_entry := shared.ring.atEntry_next ((shared.listed_iff obj).mp listed)
    exact .inl ((shared.listed_iff following).mpr (next_entry following mem))
  · exact .inl (shared.removed_next obj other removed following mem)
  · exact shared.closed client obj waits queued waited following mem

theorem Invariant.references_pos_of_protected (inv : Invariant s entries stage)
    (safe : Protected s stage client obj)
    : 0 < references s obj := by
  rcases safe with listed | ⟨other, removed⟩ | ⟨waits, queued, _⟩
  · exact inv.references_pos_of_stage (by simp [listed])
  · exact inv.references_pos_of_stage (by simp [removed])
  · simp [references, queued, Callback.reference]

/-- An object with a reference exists and has not been given to `kfree`. -/
theorem Invariant.alive (inv : Invariant s entries stage) (born : obj < s.created)
    (referenced : 0 < references s obj)
    : obj < s.created ∧ obj ∉ s.freed :=
  ⟨born, fun freed => referenced.ne' (inv.freed_dead obj freed)⟩

theorem Invariant.born (inv : Invariant s entries stage) (staged : stage obj ≠ .unborn)
    : obj < s.created := by
  by_contra later
  exact staged ((inv.unborn_iff obj).mpr (not_lt.mp later))

theorem Invariant.born_of_protected (inv : Invariant s entries stage)
    (safe : Protected s stage client obj)
    : obj < s.created := by
  apply inv.born
  rcases safe with listed | ⟨other, removed⟩ | ⟨waits, queued, _⟩
  · simp [listed]
  · simp [removed]
  · simp [inv.handed_of_queued queued]

/-- A safe object stays safe where neither its stage nor its callback goes on. -/
theorem Protected.carry (safe : Protected s stage client obj)
    (listed : stage obj = .listed → stage' obj = .listed)
    (removed : ∀ other, stage obj = .removed other → stage' obj = .removed other)
    (callback : s'.callback obj = s.callback obj)
    : Protected s' stage' client obj := by
  rcases safe with is | ⟨other, is⟩ | ⟨waits, queued, waited⟩
  · exact .inl (listed is)
  · exact .inr (.inl ⟨other, removed other is⟩)
  · exact .inr (.inr ⟨waits, callback.trans queued, waited⟩)

/-- What a client relies on survives an action that leaves the client's own objects, what it
reads and, if it has the lock, the list as they are.
-/
theorem RoleOk.frame {role : Role} (ok : RoleOk s stage client role)
    (owned : ∀ obj, stage obj = .owned client → stage' obj = .owned client)
    (safe : role.reads = true → ∀ obj, Protected s stage client obj →
      Protected s' stage' client obj)
    (list : role.locks = true → (∀ obj, stage' obj = .listed ↔ stage obj = .listed)
      ∧ ∀ obj other, stage' obj = .removed other ↔ stage obj = .removed other)
    (dying : ∀ obj, role = .freeing obj → Dying s client obj → Dying s' client obj)
    : RoleOk s' stage' client role := by
  cases role with
  | outside => trivial
  | owns obj => exact owned obj ok
  | linking obj =>
      obtain ⟨_, removed⟩ := list rfl
      exact ⟨owned obj ok.1, fun other by_ => (removed other by_).not.mpr (ok.2 other by_)⟩
  | locked objs =>
      obtain ⟨listed, removed⟩ := list rfl
      exact ⟨fun obj mem => (listed obj).mpr (ok.1 obj mem),
        fun other by_ => (removed other by_).not.mpr (ok.2 other by_)⟩
  | unlinked obj =>
      obtain ⟨_, removed⟩ := list rfl
      exact ⟨(removed obj client).mpr ok.1,
        fun other by_ is => ok.2 other by_ ((removed other by_).mp is)⟩
  | reading objs => exact fun obj mem => safe rfl obj (ok obj mem)
  | freeing obj => exact dying obj rfl ok

/-- What a client relies on survives an action that touches neither list nor callbacks. -/
theorem RoleOk.keep {role : Role} (ok : RoleOk s stage client role)
    (callback : s'.callback = s.callback)
    (dying : ∀ obj, role = .freeing obj → Dying s client obj → Dying s' client obj)
    : RoleOk s' stage client role := by
  refine ok.frame (fun _ owned => owned) ?_ (fun _ => ⟨by simp, by simp⟩) dying
  intro _ obj safe
  rwa [Protected, callback]

/-- Two states that differ only in counters of no consequence and in where clients are. -/
structure Agrees (s s' : State Client) : Prop where
  next : s'.next = s.next
  prev : s'.prev = s.prev
  created : s'.created = s.created
  lock : s'.lock = s.lock
  readers : s'.readers = s.readers
  callback : s'.callback = s.callback
  holders : s'.holders = s.holders
  freed : s'.freed = s.freed
  refcnt : ∀ obj, (s'.objects obj).refcnt = (s.objects obj).refcnt

theorem Agrees.references (agrees : Agrees s s') (obj : Addr)
    : references s' obj = references s obj := by
  rw [Rcu.references, Rcu.references, agrees.holders, agrees.callback]

theorem Shared.of_agrees (shared : Shared s entries stage) (agrees : Agrees s s')
    : Shared s' entries stage where
  ring := agrees.next ▸ agrees.prev ▸ shared.ring
  listed_iff := shared.listed_iff
  unborn_iff := agrees.created ▸ shared.unborn_iff
  handed_iff := agrees.callback ▸ shared.handed_iff
  removed_lock := agrees.lock ▸ shared.removed_lock
  removed_next := agrees.next ▸ shared.removed_next
  waits := agrees.callback ▸ agrees.readers ▸ shared.waits
  closed := by
    have closed := shared.closed
    simpa only [Protected, agrees.callback, agrees.next] using closed
  counted := by
    have counted := shared.counted
    simpa only [agrees.created, agrees.refcnt, agrees.references] using counted
  unheld := agrees.created ▸ agrees.holders ▸ shared.unheld
  once := agrees.freed ▸ shared.once
  freed_dead := by
    have dead := shared.freed_dead
    simpa only [agrees.freed, agrees.references] using dead
  free_dead := by
    have dead := shared.free_dead
    simpa only [agrees.callback, agrees.freed, agrees.references] using dead

/-- Nobody but the holder of the lock relies on it. -/
theorem Clients.alone {client other : Client} (clients : Clients s stage)
    (locked : s.lock = some client) (differs : other ≠ client)
    : ¬ (s.point other).role.locks = true := by
  intro locks
  have lockedOther := clients.locks other locks
  rw [locked] at lockedOther
  exact differs (Option.some.inj lockedOther).symm

/-- An object that somebody holds a reference to exists. -/
theorem Shared.born_of_held (shared : Shared s entries stage) (holds : client ∈ s.holders obj)
    : obj < s.created := by
  by_contra later
  rw [shared.unheld obj (not_lt.mp later)] at holds
  exact Multiset.notMem_zero client holds

theorem references_pos_of_held (holds : client ∈ s.holders obj)
    : 0 < references s obj :=
  (Multiset.card_pos_iff_exists_mem.mpr ⟨client, holds⟩).trans_le (Nat.le_add_right _ _)

/-- Counting down tells the last reference, as long as the count has not wrapped. -/
theorem countDown {n : Nat} (countable : n + 1 ≤ 2 ^ 32)
    : BitVec.ofNat 32 (n + 1) - 1#32 = BitVec.ofNat 32 n
      ∧ (BitVec.ofNat 32 n = 0#32 ↔ n = 0) := by
  constructor
  · rw [BitVec.ofNat_add]
    exact BitVec.add_sub_cancel _ _
  · rw [← BitVec.toNat_inj, BitVec.toNat_ofNat, BitVec.toNat_ofNat, Nat.zero_mod,
      Nat.mod_eq_of_lt (by omega)]

/-- One reference less counts one less; who drops the last one is told so. -/
theorem Shared.dropped (shared : Shared s entries stage) (born : obj < s.created)
    (countable : references s obj ≤ 2 ^ 32) {left : Nat} (dropped : left + 1 = references s obj)
    : (s.objects obj).refcnt - 1#32 = BitVec.ofNat 32 left
      ∧ (s.decAndTest obj = true ↔ left = 0) := by
  rw [← dropped] at countable
  have counted := shared.counted obj born
  rw [← dropped] at counted
  obtain ⟨less, last⟩ := countDown countable
  rw [State.decAndTest, counted, less, decide_eq_true_iff]
  exact ⟨rfl, last⟩

/-! What happens to one object -/

/-- The references of an object depend on its callback only through the cache's own. -/
theorem references_congr (holders : s'.holders = s.holders)
    (callback : ∀ obj, (s'.callback obj).reference = (s.callback obj).reference) (obj : Addr)
    : references s' obj = references s obj := by
  rw [references, references, holders, callback]

theorem reference_update {callback : Addr → Callback Client} {new : Callback Client}
    (same : new.reference = (callback obj).reference) (y : Addr)
    : (Function.update callback obj new y).reference = (callback y).reference := by
  by_cases here : y = obj
  · rw [here, Function.update_self, same]
  · rw [Function.update_of_ne here]

structure Recounts (s s' : State Client) (obj : Addr) : Prop where
  alive : 0 < references s obj
  others : ∀ y, y ≠ obj → references s' y = references s y
  refcnt : (s'.objects obj).refcnt = BitVec.ofNat 32 (references s' obj)
  objects : ∀ y, y ≠ obj → s'.objects y = s.objects y

section

variable {obj y : Addr}

theorem Recounts.ne_of_dead (recounts : Recounts s s' obj) (dead : references s y = 0)
    : y ≠ obj := by
  rintro rfl
  exact recounts.alive.ne' dead

theorem Recounts.dead (recounts : Recounts s s' obj) (dead : references s y = 0)
    : references s' y = 0 :=
  (recounts.others y (recounts.ne_of_dead dead)).trans dead

theorem Recounts.counted (recounts : Recounts s s' obj) (shared : Shared s entries stage)
    : ∀ y < s.created, (s'.objects y).refcnt = BitVec.ofNat 32 (references s' y) := by
  intro y born
  by_cases same : y = obj
  · rw [same, recounts.refcnt]
  · rw [recounts.objects y same, recounts.others y same, shared.counted y born]

structure GoesOn (s s' : State Client) (obj : Addr) : Prop where
  others : ∀ y, y ≠ obj → s'.callback y = s.callback y
  before : s.callback obj ≠ .none
  after : s'.callback obj ≠ .none
  unwaited : ∀ waits, s.callback obj = .queued waits → waits = ∅
  unqueued : ∀ waits, s'.callback obj ≠ .queued waits

theorem GoesOn.queued (goesOn : GoesOn s s' obj) {waits : Finset Client}
    (queued : s'.callback y = .queued waits)
    : s.callback y = .queued waits := by
  have differs : y ≠ obj := by
    rintro rfl
    exact goesOn.unqueued waits queued
  rwa [goesOn.others y differs] at queued

theorem GoesOn.handed_iff (goesOn : GoesOn s s' obj) (shared : Shared s entries stage) (y : Addr)
    : stage y = .handed ↔ s'.callback y ≠ .none := by
  by_cases same : y = obj
  · subst same
    exact iff_of_true ((shared.handed_iff y).mpr goesOn.before) goesOn.after
  · rw [goesOn.others y same]
    exact shared.handed_iff y

/-- Nobody loses an object by it. -/
theorem GoesOn.protected (goesOn : GoesOn s s' obj) {client : Client}
    (safe : Protected s stage client y)
    : Protected s' stage client y := by
  rcases safe with listed | removed | ⟨waits, queued, waited⟩
  · exact .inl listed
  · exact .inr (.inl removed)
  · have differs : y ≠ obj := by
      rintro rfl
      rw [goesOn.unwaited waits queued] at waited
      exact absurd waited (Finset.notMem_empty client)
    exact .inr (.inr ⟨waits, (goesOn.others y differs).trans queued, waited⟩)

theorem mem_kfree : y ∈ (s.kfree obj).freed ↔ y ∈ s.freed ∨ y = obj := by
  simp [State.kfree]

theorem Shared.once_kfree (shared : Shared s entries stage) (unfreed : obj ∉ s.freed)
    : (s.kfree obj).freed.Nodup := by
  have once := shared.once.concat unfreed
  rwa [List.concat_eq_append] at once

end

variable [DecidableEq Client]

/-- After an action of one client, what holds of the others has to be carried over. -/
theorem Clients.update {client : Client} {p : Point} (clients : Clients s stage)
    (point_eq : s'.point = Function.update s.point client p)
    (reads : p.role.reads = true ↔ client ∈ s'.readers)
    (readers : ∀ other ≠ client, other ∈ s'.readers ↔ other ∈ s.readers)
    (locks : p.role.locks = true → s'.lock = some client)
    (lock : ∀ other ≠ client, s.lock = some other → s'.lock = some other)
    (ok : RoleOk s' stage' client p.role)
    (others : ∀ other ≠ client, RoleOk s stage other (s.point other).role →
      RoleOk s' stage' other (s.point other).role)
    : Clients s' stage' := by
  constructor <;> intro other <;> rw [point_eq] <;> by_cases same : other = client
  · rw [same, Function.update_self]
    exact reads
  · rw [Function.update_of_ne same, readers other same]
    exact clients.reads_iff other
  · rw [same, Function.update_self]
    exact locks
  · rw [Function.update_of_ne same]
    exact fun locked => lock other same (clients.locks other locked)
  · rw [same, Function.update_self]
    exact ok
  · rw [Function.update_of_ne same]
    exact others other same (clients.roles other)

theorem Dying.carry {client other : Client} {p : Point} {obj : Addr}
    (dying : Dying s other obj) (point_eq : s'.point = Function.update s.point client p)
    (apart : p.role ≠ .freeing obj) (dead : references s' obj = references s obj)
    (born : s.created ≤ s'.created) (unfreed : obj ∉ s'.freed) (quiet : s'.callback obj ≠ .free)
    : Dying s' other obj where
  dead := dead.trans dying.dead
  born := dying.born.trans_le born
  unfreed := unfreed
  quiet := quiet
  alone := by
    intro third freeing
    rw [point_eq] at freeing
    by_cases same : third = client
    · rw [same, Function.update_self] at freeing
      exact absurd freeing apart
    · rw [Function.update_of_ne same] at freeing
      exact dying.alone third freeing

end

end LinuxDoc.ObjectCache.Rcu
