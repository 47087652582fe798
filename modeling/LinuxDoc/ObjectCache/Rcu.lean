import Mathlib.Data.Finset.Basic
import LinuxDoc.Foundations.LinkedRing
import LinuxDoc.Foundations.Runs
import LinuxDoc.ObjectCache.UserContext

/-! The object cache of the locking guide, with reference counts and Read Copy Update.
Clients run the operations on their own; an action is one access to what they share, so that
a run is any interleaving. An object is named by the number of its allocation, so that a
pointer kept after `kfree` never names a later object.
-/

namespace LinuxDoc.ObjectCache.Rcu

open Foundations

abbrev Addr := Nat

/-- `struct object` without its links; the name is set before the object is shared and not
used by the cache.
-/
structure Object where
  id : BitVec 32
  popularity : BitVec 32
  refcnt : BitVec 32
  deriving DecidableEq

inductive Use where
  | find
  | delete
  deriving DecidableEq

inductive Point where
  | outside
  /-- `spin_lock_irqsave` in `cache_add` -/
  | addLock (obj : Addr)
  /-- `list_add_rcu` -/
  | addLink (obj : Addr)
  /-- `if (++cache_num > MAX_CACHE_SIZE)` -/
  | addCount
  /-- the first entry of the list in `__cache_add` -/
  | scanHead
  /-- the test of the loop in `__cache_add`, up to `i->popularity` -/
  | scan (i outcast : Option Addr)
  /-- `outcast->popularity` in the same test -/
  | scanCompare (i outcast : Addr) (popularity : BitVec 32)
  /-- the next entry of the list in `__cache_add` -/
  | scanNext (i : Addr) (outcast : Option Addr)
  /-- the first entry of the list in `__cache_find` -/
  | walkHead (use : Use) (id : BitVec 32)
  /-- `if (i->id == id)` -/
  | walk (use : Use) (id : BitVec 32) (i : Option Addr)
  /-- the next entry of the list in `__cache_find` -/
  | walkNext (use : Use) (id : BitVec 32) (i : Addr)
  /-- the read of `i->popularity++` -/
  | bump (use : Use) (i : Addr)
  /-- the write of `i->popularity++` -/
  | bumpStore (use : Use) (i : Addr) (popularity : BitVec 32)
  /-- `object_get` in `cache_find` -/
  | get (obj : Addr)
  | readUnlock
  /-- stopped at `BUG_ON(!obj)` -/
  | bug
  | unlink (obj : Addr)
  | uncount (obj : Addr)
  | callRcu (obj : Addr)
  | unlock
  /-- `kfree` in `object_put` -/
  | free (obj : Addr)
  deriving DecidableEq

variable {Client : Type}

inductive Callback (Client : Type) where
  /-- `call_rcu` has not been called. -/
  | none
  /-- It waits for read-side sections that had begun when `call_rcu` was called. -/
  | queued (waits : Finset Client)
  /-- It has dropped the last reference and is at `kfree`. -/
  | free
  /-- It has returned. -/
  | done

/-- What the clients share, and where each of them is. On record are the references that the
clients hold, with multiplicity, and the objects given to `kfree`.
-/
structure State (Client : Type) where
  objects : Addr → Object
  created : Addr
  next : Option Addr → Option Addr
  prev : Option Addr → Option Addr
  cacheNum : BitVec 32
  lock : Option Client
  readers : Finset Client
  point : Client → Point
  callback : Addr → Callback Client
  holders : Addr → Multiset Client
  freed : List Addr

def initial (Client : Type) : State Client where
  objects := fun _ => ⟨0#32, 0#32, 0#32⟩
  created := 0
  next := fun _ => none
  prev := fun _ => none
  cacheNum := 0#32
  lock := none
  readers := ∅
  point := fun _ => .outside
  callback := fun _ => .none
  holders := fun _ => 0
  freed := []

inductive Action (Client : Type) where
  /-- call `cache_add`, up to the set-up of the object; `kmalloc` may fail -/
  | add (client : Client) (id : BitVec 32) (kmalloc : Bool)
  /-- call `cache_find`: `rcu_read_lock` -/
  | find (client : Client) (id : BitVec 32)
  /-- call `cache_delete`: `spin_lock_irqsave` -/
  | delete (client : Client) (id : BitVec 32)
  /-- call `object_get` on an object that the client holds a reference to -/
  | get (client : Client) (obj : Addr)
  /-- call `object_put` to drop a reference that the client holds -/
  | put (client : Client) (obj : Addr)
  /-- the next access in the operation that the client is in -/
  | advance (client : Client)
  /-- the next access of an object's callback -/
  | callback (obj : Addr)

variable [DecidableEq Client]

namespace State

def goTo (s : State Client) (client : Client) (point : Point) : State Client :=
  { s with point := Function.update s.point client point }

def setRefcnt (s : State Client) (obj : Addr) (refcnt : BitVec 32) : State Client :=
  { s with objects :=
      Function.update s.objects obj { s.objects obj with refcnt := refcnt } }

def setPopularity (s : State Client) (obj : Addr) (popularity : BitVec 32) : State Client :=
  { s with objects :=
      Function.update s.objects obj { s.objects obj with popularity := popularity } }

def objectGet (s : State Client) (client : Client) (obj : Addr) : State Client :=
  { s.setRefcnt obj ((s.objects obj).refcnt + 1#32) with
    holders := Function.update s.holders obj (client ::ₘ s.holders obj) }

def decAndTest (s : State Client) (obj : Addr) : Bool :=
  (s.objects obj).refcnt - 1#32 = 0#32

def kfree (s : State Client) (obj : Addr) : State Client :=
  { s with freed := s.freed ++ [obj] }

end State

def Callback.readUnlock (callback : Callback Client) (client : Client) : Callback Client :=
  match callback with
  | .queued waits => .queued (waits.erase client)
  | other => other

def Use.found : Use → Addr → Point
  | .find, obj => .get obj
  | .delete, obj => .unlink obj

def Use.notFound : Use → Point
  | .find => .readUnlock
  | .delete => .bug

def advance (s : State Client) (client : Client) : State Client :=
  match s.point client with
  | .outside => s
  | .addLock obj =>
      if s.lock = none then { s with lock := some client }.goTo client (.addLink obj) else s
  | .addLink obj =>
      { s with next := insertNext s.next obj, prev := insertPrev s.next s.prev obj }.goTo client
        .addCount
  | .addCount =>
      { s with cacheNum := s.cacheNum + 1#32 }.goTo client
        (if s.cacheNum + 1#32 > maxCacheSize then .scanHead else .unlock)
  | .scanHead => s.goTo client (.scan (s.next none) none)
  | .scan none none => s.goTo client .bug
  | .scan none (some outcast) => s.goTo client (.unlink outcast)
  | .scan (some i) none => s.goTo client (.scanNext i (some i))
  | .scan (some i) (some outcast) =>
      s.goTo client (.scanCompare i outcast (s.objects i).popularity)
  | .scanCompare i outcast popularity =>
      s.goTo client (.scanNext i
        (some (if popularity.slt (s.objects outcast).popularity then i else outcast)))
  | .scanNext i outcast => s.goTo client (.scan (s.next (some i)) outcast)
  | .walkHead use id => s.goTo client (.walk use id (s.next none))
  | .walk use _ none => s.goTo client use.notFound
  | .walk use id (some i) =>
      s.goTo client (if (s.objects i).id = id then .bump use i else .walkNext use id i)
  | .walkNext use id i => s.goTo client (.walk use id (s.next (some i)))
  | .bump use i => s.goTo client (.bumpStore use i (s.objects i).popularity)
  | .bumpStore use i popularity =>
      (s.setPopularity i (popularity + 1#32)).goTo client (use.found i)
  | .get obj => (s.objectGet client obj).goTo client .readUnlock
  | .readUnlock =>
      { s with
        readers := s.readers.erase client
        callback := fun obj => (s.callback obj).readUnlock client }.goTo client .outside
  | .bug => s
  | .unlink obj =>
      { s with
        next := removeNext s.next s.prev obj
        prev := removePrev s.next s.prev obj }.goTo client (.uncount obj)
  | .uncount obj => { s with cacheNum := s.cacheNum - 1#32 }.goTo client (.callRcu obj)
  | .callRcu obj =>
      { s with callback := Function.update s.callback obj (.queued s.readers) }.goTo client .unlock
  | .unlock => { s with lock := none }.goTo client .outside
  | .free obj => (s.kfree obj).goTo client .outside

/-- `cache_delete_rcu`, which runs once nobody is waited for. -/
def runCallback (s : State Client) (obj : Addr) : State Client :=
  match s.callback obj with
  | .queued waits =>
      if waits = ∅ then
        { s.setRefcnt obj ((s.objects obj).refcnt - 1#32) with
          callback := Function.update s.callback obj (if s.decAndTest obj then .free else .done) }
      else s
  | .free => { s.kfree obj with callback := Function.update s.callback obj .done }
  | _ => s

def step (s : State Client) : Action Client → State Client
  | .add client id kmalloc =>
      if s.point client = .outside ∧ kmalloc then
        { s with
          objects := Function.update s.objects s.created ⟨id, 0#32, 1#32⟩
          created := s.created + 1 }.goTo client (.addLock s.created)
      else s
  | .find client id =>
      if s.point client = .outside then
        { s with readers := insert client s.readers }.goTo client (.walkHead .find id)
      else s
  | .delete client id =>
      if s.point client = .outside ∧ s.lock = none then
        { s with lock := some client }.goTo client (.walkHead .delete id)
      else s
  | .get client obj =>
      if s.point client = .outside ∧ client ∈ s.holders obj then s.objectGet client obj else s
  | .put client obj =>
      if s.point client = .outside ∧ client ∈ s.holders obj then
        { s.setRefcnt obj ((s.objects obj).refcnt - 1#32) with
          holders := Function.update s.holders obj ((s.holders obj).erase client) }.goTo client
          (if s.decAndTest obj then .free obj else .outside)
      else s
  | .advance client => advance s client
  | .callback obj => runCallback s obj

def touches (s : State Client) : Action Client → List Addr
  | .add _ _ _ | .find _ _ | .delete _ _ => []
  | .get client obj | .put client obj =>
      if s.point client = .outside ∧ client ∈ s.holders obj then [obj] else []
  | .callback obj =>
      match s.callback obj with
      | .queued waits => if waits = ∅ then [obj] else []
      | _ => []
  | .advance client =>
      match s.point client with
      | .addLink obj => obj :: (s.next none).toList
      | .unlink obj => obj :: (s.prev (some obj)).toList ++ (s.next (some obj)).toList
      | .scan (some i) (some _) | .scanNext i _ | .walk _ _ (some i) | .walkNext _ _ i
      | .bump _ i | .bumpStore _ i _ => [i]
      | .scanCompare _ outcast _ => [outcast]
      | .get obj | .callRcu obj => [obj]
      | _ => []

def frees (s : State Client) : Action Client → Option Addr
  | .advance client =>
      match s.point client with
      | .free obj => some obj
      | _ => none
  | .callback obj =>
      match s.callback obj with
      | .free => some obj
      | _ => none
  | _ => none

/-- A walk along the links from the head of the list comes to the object. -/
def OnList (s : State Client) (obj : Addr) : Prop :=
  ∃ n, ringWalk s.next n = some obj

/-- `call_rcu` was called for the object, and every read-side section that had begun by then
has ended.
-/
def GraceElapsed (s : State Client) (obj : Addr) : Prop :=
  match s.callback obj with
  | .none => False
  | .queued waits => waits = ∅
  | .free | .done => True

/-- Objects are accessed only between their creation and `kfree`, go to `kfree` only once, and
only off the list, after the grace period and without references.
-/
structure Safe (s : State Client) : Prop where
  touched : ∀ action, ∀ obj ∈ touches s action, obj < s.created ∧ obj ∉ s.freed
  once : s.freed.Nodup
  again : ∀ action, ∀ obj ∈ frees s action, obj ∉ s.freed
  last : ∀ action, ∀ obj ∈ frees s action,
    ¬ OnList s obj ∧ GraceElapsed s obj ∧ s.holders obj = 0

def Callback.reference : Callback Client → Nat
  | .none | .queued _ => 1
  | .free | .done => 0

def references (s : State Client) (obj : Addr) : Nat :=
  Multiset.card (s.holders obj) + (s.callback obj).reference

/-- There are no more references to any object than an `atomic_t` can tell apart, counting
down to zero.
-/
def Countable (s : State Client) : Prop :=
  ∀ obj, references s obj ≤ 2 ^ 32

end LinuxDoc.ObjectCache.Rcu
