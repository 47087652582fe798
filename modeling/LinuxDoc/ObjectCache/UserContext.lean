import LinuxDoc.Foundations.Bytes

/-! The object cache of the locking guide, with all its users in user context.
One mutex is held over each operation, so a run is a sequence of whole calls. A pointer to an
object is its address; `kmalloc` gives an address that no object of the cache has.
-/

namespace LinuxDoc.ObjectCache

open Foundations

structure CharArray (size : Nat) where
  bytes : List UInt8
  length_bytes : bytes.length = size
  deriving DecidableEq

/-- `strlcpy` into an array of `room + 1` characters: what does not fit is cut off, and the
bytes after the NUL keep their values.
-/
def strlcpy {room : Nat} (dest : CharArray (room + 1)) (src : CString)
    : CharArray (room + 1) where
  bytes := src.bytes.take room ++ 0 :: dest.bytes.drop ((src.bytes.take room).length + 1)
  length_bytes := by
    have := dest.length_bytes
    simp only [List.length_append, List.length_take, List.length_cons, List.length_drop]
    omega

def strcpy {size : Nat} (dest : Nat → UInt8) (src : CharArray size) : Nat → UInt8 :=
  let text := src.bytes.takeWhile (· ≠ 0)
  fun i => if h : i < text.length then text[i] else if i = text.length then 0 else dest i

/-- A copied string arrives cut to the size of the array it went through. -/
theorem strcpy_strlcpy {room : Nat} (buffer : Nat → UInt8) (dest : CharArray (room + 1))
    (src : CString)
    : HoldsString (strcpy buffer (strlcpy dest src)) (src.bytes.take room) := by
  have text : (strlcpy dest src).bytes.takeWhile (· ≠ 0) = src.bytes.take room := by
    have noNul : ∀ c ∈ src.bytes.take room, decide (c ≠ 0) = true := by
      intro c hc
      have : c ≠ 0 := fun zero => src.noNul (zero ▸ List.mem_of_mem_take hc)
      exact decide_eq_true this
    simp only [strlcpy]
    rw [List.takeWhile_append_of_pos noNul]
    simp
  unfold strcpy
  rw [text]
  constructor
  · intro i inside
    exact dif_pos inside
  · exact (dif_neg (lt_irrefl _)).trans (if_pos rfl)

structure Object where
  addr : Nat
  id : BitVec 32
  name : CharArray 32
  popularity : BitVec 32
  deriving DecidableEq

structure Cache where
  objects : List Object
  cacheNum : BitVec 32

def empty : Cache where
  objects := []
  cacheNum := 0#32

def maxCacheSize : BitVec 32 := 10#32

def enoent : Int := 2

def enomem : Int := 12

def lookUp (id : BitVec 32) : List Object → Option Object × List Object
  | [] => (none, [])
  | i :: rest =>
      if i.id = id then
        let used := { i with popularity := i.popularity + 1#32 }
        (some used, used :: rest)
      else
        let (found, rest) := lookUp id rest
        (found, i :: rest)

namespace Locked

def cacheFind (cache : Cache) (id : BitVec 32) : Option Object × Cache :=
  let (found, objects) := lookUp id cache.objects
  (found, { cache with objects := objects })

def cacheDelete (cache : Cache) : Option Object → Option Cache
  | none => none
  | some obj => some {
      objects := cache.objects.eraseP (fun i => i.addr = obj.addr)
      cacheNum := cache.cacheNum - 1#32 }

def lessPopular (outcast : Option Object) (i : Object) : Option Object :=
  match outcast with
  | none => some i
  | some best => if i.popularity.slt best.popularity then some i else some best

/-- `__cache_add`, with the object it throws out. -/
def cacheAdd (cache : Cache) (obj : Object) : Option (Option Object × Cache) :=
  let added : Cache := { objects := obj :: cache.objects, cacheNum := cache.cacheNum + 1#32 }
  if maxCacheSize < added.cacheNum then
    let outcast := added.objects.foldl lessPopular none
    (cacheDelete added outcast).map (outcast, ·)
  else some (none, added)

end Locked

/-- What `kmalloc` returns: an address, with whatever the name array holds there. -/
structure Memory where
  addr : Nat
  name : CharArray 32

structure AddOutcome where
  ret : Int
  thrownOut : Option Object
  cache : Cache

def newObject (memory : Memory) (id : BitVec 32) (name : CString) : Object where
  addr := memory.addr
  id := id
  name := strlcpy memory.name name
  popularity := 0#32

/-- `cache_add`; the allocation is `none` where `kmalloc` fails. -/
def cacheAdd (cache : Cache) (allocation : Option Memory) (id : BitVec 32) (name : CString)
    : Option AddOutcome :=
  match allocation with
  | none => some ⟨-enomem, none, cache⟩
  | some memory =>
      (Locked.cacheAdd cache (newObject memory id name)).map fun (thrownOut, cache) =>
        ⟨0, thrownOut, cache⟩

def cacheDelete (cache : Cache) (id : BitVec 32) : Option Cache :=
  let (found, cache) := Locked.cacheFind cache id
  Locked.cacheDelete cache found

structure FindOutcome where
  ret : Int
  buffer : Nat → UInt8
  cache : Cache

def cacheFind (cache : Cache) (id : BitVec 32) (buffer : Nat → UInt8) : FindOutcome :=
  match Locked.cacheFind cache id with
  | (some obj, cache) => ⟨0, strcpy buffer obj.name, cache⟩
  | (none, cache) => ⟨-enoent, buffer, cache⟩

/-- `kmalloc` never gives memory that an object of the cache occupies. -/
def Fresh (cache : Cache) (memory : Memory) : Prop :=
  ∀ obj ∈ cache.objects, obj.addr ≠ memory.addr

/-- The states that a sequence of calls reaches, each of which returned. -/
inductive Reachable : Cache → Prop where
  | empty : Reachable empty
  | add {cache : Cache} {allocation : Option Memory} {id : BitVec 32} {name : CString}
      {outcome : AddOutcome} (before : Reachable cache)
      (fresh : ∀ memory ∈ allocation, Fresh cache memory)
      (returns : cacheAdd cache allocation id name = some outcome) : Reachable outcome.cache
  | find {cache : Cache} (before : Reachable cache) (id : BitVec 32) (buffer : Nat → UInt8)
      : Reachable (cacheFind cache id buffer).cache
  | delete {cache next : Cache} {id : BitVec 32} (before : Reachable cache)
      (returns : cacheDelete cache id = some next) : Reachable next

/-! The invariant of the cache -/

/-- The counter counts, the cache is not overfull, addresses are distinct, and every name
ends inside its array.
-/
structure Valid (cache : Cache) : Prop where
  counted : cache.cacheNum.toNat = cache.objects.length
  bounded : cache.objects.length ≤ maxCacheSize.toNat
  distinct : (cache.objects.map (·.addr)).Nodup
  terminated : ∀ obj ∈ cache.objects, 0 ∈ obj.name.bytes

/-- A look-up changes nothing but popularities. -/
theorem lookUp_map {α : Type} (view : Object → α)
    (blind : ∀ obj popularity, view { obj with popularity := popularity } = view obj)
    (id : BitVec 32) (objects : List Object)
    : (lookUp id objects).2.map view = objects.map view := by
  induction objects with
  | nil => rfl
  | cons i rest ih =>
      rw [lookUp]
      split
      · simp [blind]
      · simpa using ih

variable {cache : Cache}

theorem Locked.cacheFind_valid (valid : Valid cache) (id : BitVec 32)
    : Valid (Locked.cacheFind cache id).2 := by
  have addrs := lookUp_map (·.addr) (fun _ _ => rfl) id cache.objects
  have names := lookUp_map (·.name.bytes) (fun _ _ => rfl) id cache.objects
  have length : (lookUp id cache.objects).2.length = cache.objects.length := by
    simpa using congrArg List.length addrs
  refine ⟨valid.counted.trans length.symm, length.trans_le valid.bounded, ?_, ?_⟩
  · exact addrs ▸ valid.distinct
  · intro obj hobj
    have mem : obj.name.bytes ∈ (lookUp id cache.objects).2.map (·.name.bytes) :=
      List.mem_map_of_mem hobj
    rw [names] at mem
    obtain ⟨old, hold, same⟩ := List.mem_map.mp mem
    exact same ▸ valid.terminated old hold

variable {objects : List Object}

/-- The object found is at an address of the cache. -/
theorem lookUp_mem {id : BitVec 32} {obj : Object} (found : (lookUp id objects).1 = some obj)
    : obj ∈ (lookUp id objects).2 := by
  induction objects with
  | nil => simp [lookUp] at found
  | cons i rest ih =>
      rw [lookUp] at found ⊢
      split at found
      · rename_i same
        obtain rfl := Option.some.inj found
        simp [same]
      · rename_i other
        simpa [other] using Or.inr (ih found)

/-- Deleting an object of a list whose counter is right leaves a counter that is right. -/
theorem Locked.cacheDelete_spec (cache : Cache) {obj : Object} (mem : obj ∈ cache.objects)
    (counted : cache.cacheNum.toNat = cache.objects.length)
    : ∃ next, Locked.cacheDelete cache (some obj) = some next
      ∧ next.objects = cache.objects.eraseP (fun i => i.addr = obj.addr)
      ∧ next.objects.length + 1 = cache.objects.length
      ∧ next.cacheNum.toNat = next.objects.length := by
  have length : (cache.objects.eraseP (fun i => i.addr = obj.addr)).length + 1
      = cache.objects.length := by
    have := List.length_pos_of_mem mem
    rw [List.length_eraseP_of_mem mem (by simp)]
    omega
  refine ⟨_, rfl, rfl, length, ?_⟩
  have small := cache.cacheNum.isLt
  simp only [BitVec.toNat_sub, BitVec.toNat_ofNat]
  omega

/-! The scan for the outcast -/

/-- The scan ends at an object that no object it passed is less popular than. -/
theorem Locked.foldl_lessPopular (objects : List Object) (best : Object)
    : ∃ outcast, objects.foldl lessPopular (some best) = some outcast
      ∧ outcast ∈ best :: objects
      ∧ ∀ i ∈ best :: objects, outcast.popularity.toInt ≤ i.popularity.toInt := by
  induction objects generalizing best with
  | nil => exact ⟨best, rfl, by simp, by simp⟩
  | cons i rest ih =>
      rw [List.foldl_cons, lessPopular]
      split
      · rename_i less
        have less := BitVec.slt_iff_toInt_lt.mp less
        obtain ⟨outcast, scan, mem, least⟩ := ih i
        refine ⟨outcast, scan, List.mem_cons_of_mem _ mem, ?_⟩
        intro j hj
        rcases List.mem_cons.mp hj with rfl | hj
        · exact (least i (by simp)).trans less.le
        · exact least j hj
      · rename_i notLess
        have notLess := not_lt.mp (mt BitVec.slt_iff_toInt_lt.mpr notLess)
        obtain ⟨outcast, scan, mem, least⟩ := ih best
        refine ⟨outcast, scan, ?_, ?_⟩
        · rcases List.mem_cons.mp mem with rfl | mem
          · simp
          · simp [mem]
        · intro j hj
          rcases List.mem_cons.mp hj with rfl | hj
          · exact least j (by simp)
          · rcases List.mem_cons.mp hj with rfl | hj
            · exact (least best (by simp)).trans notLess
            · exact least j (List.mem_cons_of_mem _ hj)

/-- The comparison is strict, so among the least popular objects the first one is kept. -/
theorem Locked.foldl_lessPopular_first (best : Object)
    (least : ∀ i ∈ objects, best.popularity.toInt ≤ i.popularity.toInt)
    : objects.foldl lessPopular (some best) = some best := by
  induction objects with
  | nil => rfl
  | cons i rest ih =>
      have notLess : ¬ i.popularity.slt best.popularity = true :=
        fun less => not_lt.mpr (least i (by simp)) (BitVec.slt_iff_toInt_lt.mp less)
      rw [List.foldl_cons, lessPopular, if_neg notLess]
      exact ih fun j hj => least j (List.mem_cons_of_mem _ hj)

def Cache.withNew (cache : Cache) (obj : Object) : Cache where
  objects := obj :: cache.objects
  cacheNum := cache.cacheNum + 1#32

theorem Valid.counted_withNew (valid : Valid cache) (obj : Object)
    : (cache.withNew obj).cacheNum.toNat = cache.objects.length + 1 := by
  have bounded := valid.bounded
  have counted := valid.counted
  simp only [maxCacheSize, BitVec.toNat_ofNat] at bounded
  simp only [Cache.withNew, BitVec.toNat_add, BitVec.toNat_ofNat]
  omega

/-- With room left, an object is added and nothing is thrown out. -/
theorem Locked.cacheAdd_of_room (valid : Valid cache) (obj : Object)
    (room : cache.objects.length < maxCacheSize.toNat)
    : Locked.cacheAdd cache obj = some (none, cache.withNew obj) := by
  have counted := valid.counted_withNew obj
  have fits : ¬ maxCacheSize < (cache.withNew obj).cacheNum := by
    rw [BitVec.lt_def, counted]
    omega
  exact if_neg fits

/-- In a full cache, the object that the scan ends at is thrown out, be it the new one. -/
theorem Locked.cacheAdd_of_full (valid : Valid cache) (obj : Object)
    (full : cache.objects.length = maxCacheSize.toNat)
    : ∃ outcast next, cache.objects.foldl lessPopular (some obj) = some outcast
      ∧ Locked.cacheAdd cache obj = some (some outcast, next)
      ∧ next.objects = (obj :: cache.objects).eraseP (fun i => i.addr = outcast.addr)
      ∧ next.objects.length = cache.objects.length
      ∧ next.cacheNum.toNat = next.objects.length := by
  have counted := valid.counted_withNew obj
  have exceeds : maxCacheSize < (cache.withNew obj).cacheNum := by
    rw [BitVec.lt_def, counted]
    omega
  obtain ⟨outcast, scan, mem, _⟩ := foldl_lessPopular cache.objects obj
  obtain ⟨next, deletes, objects, length, countedNext⟩ :=
    Locked.cacheDelete_spec (cache.withNew obj) mem counted
  have outcome : Locked.cacheAdd cache obj
      = (Locked.cacheDelete (cache.withNew obj) (cache.objects.foldl lessPopular (some obj))).map
          (cache.objects.foldl lessPopular (some obj), ·) :=
    if_pos exceeds
  refine ⟨outcast, next, scan, ?_, objects, by simpa [Cache.withNew] using length, countedNext⟩
  rw [outcome, scan, deletes]
  rfl

/-! Reachable states -/

/-- Taking entries out of a valid list keeps it valid, if the counter follows. -/
theorem Valid.of_sublist {next : Cache} (sublist : next.objects.Sublist objects)
    (counted : next.cacheNum.toNat = next.objects.length)
    (bounded : next.objects.length ≤ maxCacheSize.toNat) (distinct : (objects.map (·.addr)).Nodup)
    (terminated : ∀ obj ∈ objects, 0 ∈ obj.name.bytes)
    : Valid next where
  counted := counted
  bounded := bounded
  distinct := (sublist.map _).nodup distinct
  terminated := fun obj hobj => terminated obj (sublist.subset hobj)

theorem cacheDelete_valid {cache next : Cache} {id : BitVec 32} (valid : Valid cache)
    (returns : cacheDelete cache id = some next)
    : Valid next := by
  have validFound := Locked.cacheFind_valid valid id
  unfold cacheDelete at returns
  cases found : (Locked.cacheFind cache id).1 with
  | none => simp [found, Locked.cacheDelete] at returns
  | some obj =>
      obtain ⟨_, deletes, objects, length, counted⟩ :=
        Locked.cacheDelete_spec (Locked.cacheFind cache id).2 (lookUp_mem found)
          validFound.counted
      simp only [found, deletes, Option.some.injEq] at returns
      subst returns
      refine .of_sublist (objects ▸ List.eraseP_sublist) counted ?_ validFound.distinct
        validFound.terminated
      exact (Nat.le_succ _).trans (length.trans_le validFound.bounded)

/-- Adding always returns, keeps the invariant and brings in nothing but the new object. -/
theorem Locked.cacheAdd_valid (valid : Valid cache) (obj : Object)
    (fresh : ∀ i ∈ cache.objects, i.addr ≠ obj.addr) (terminated : 0 ∈ obj.name.bytes)
    : ∃ thrownOut next, Locked.cacheAdd cache obj = some (thrownOut, next)
      ∧ Valid next ∧ next.objects ⊆ obj :: cache.objects := by
  have distinct : ((obj :: cache.objects).map (·.addr)).Nodup := by
    rw [List.map_cons, List.nodup_cons]
    refine ⟨?_, valid.distinct⟩
    intro mem
    obtain ⟨i, hi, same⟩ := List.mem_map.mp mem
    exact fresh i hi same
  have terminatedAll : ∀ i ∈ obj :: cache.objects, 0 ∈ i.name.bytes := by
    intro i hi
    rcases List.mem_cons.mp hi with rfl | hi
    · exact terminated
    · exact valid.terminated i hi
  rcases valid.bounded.lt_or_eq with room | full
  · refine ⟨_, _, cacheAdd_of_room valid obj room, ?_, List.Subset.refl _⟩
    exact .of_sublist (List.Sublist.refl _) (valid.counted_withNew obj) room distinct terminatedAll
  · obtain ⟨outcast, next, _, adds, objects, length, counted⟩ := cacheAdd_of_full valid obj full
    have sublist : next.objects.Sublist (obj :: cache.objects) := objects ▸ List.eraseP_sublist
    refine ⟨_, _, adds, ?_, sublist.subset⟩
    exact .of_sublist sublist counted (length.trans_le valid.bounded) distinct terminatedAll

theorem newObject_terminated (memory : Memory) (id : BitVec 32) (name : CString)
    : 0 ∈ (newObject memory id name).name.bytes := by
  simp [newObject, strlcpy]

/-- Every reachable state satisfies the invariant. -/
theorem Reachable.valid (reached : Reachable cache) : Valid cache := by
  induction reached with
  | empty => exact ⟨rfl, by decide, List.nodup_nil, fun _ mem => nomatch mem⟩
  | @add cache allocation id name outcome _ fresh returns valid =>
      cases allocation with
      | none =>
          obtain rfl := Option.some.inj returns
          exact valid
      | some memory =>
          obtain ⟨_, _, adds, validNext, _⟩ :=
            Locked.cacheAdd_valid valid (newObject memory id name) (fresh memory rfl)
              (newObject_terminated memory id name)
          simp only [cacheAdd, adds, Option.map_some, Option.some.injEq] at returns
          exact returns ▸ validNext
  | @find cache _ id buffer valid =>
      have validFound := Locked.cacheFind_valid valid id
      unfold cacheFind
      split <;> rename_i found <;> rw [found] at validFound <;> exact validFound
  | delete _ returns valid => exact cacheDelete_valid valid returns

/-! What becomes of an added object -/

/-- A call of `cache_add` returns, and if it returns 0 then the object can be found at once
under its name, cut to 31 characters; a full cache has thrown out the least popular of the
objects that were in it.
-/
def AddedIsFound (cache : Cache) (allocation : Option Memory) (id : BitVec 32)
    (name : CString) : Prop :=
  ∃ outcome, cacheAdd cache allocation id name = some outcome ∧ (outcome.ret = 0 →
    (∀ buffer, (cacheFind outcome.cache id buffer).ret = 0
      ∧ HoldsString (cacheFind outcome.cache id buffer).buffer (name.bytes.take 31))
    ∧ (cache.objects.length = maxCacheSize.toNat →
        ∃ outcast ∈ cache.objects, outcome.thrownOut = some outcast
          ∧ ∀ obj ∈ cache.objects, outcast.popularity.toInt ≤ obj.popularity.toInt))

/-- An object at the front of the list is the one found. -/
theorem cacheFind_front {memory : Memory} {id : BitVec 32} {name : CString} {rest : List Object}
    (front : cache.objects = newObject memory id name :: rest) (buffer : Nat → UInt8)
    : (cacheFind cache id buffer).ret = 0
      ∧ HoldsString (cacheFind cache id buffer).buffer (name.bytes.take 31) := by
  have found : lookUp id cache.objects
      = (some { newObject memory id name with popularity := 1#32 },
          { newObject memory id name with popularity := 1#32 } :: rest) := by
    simp [front, lookUp, newObject]
  constructor
  · simp [cacheFind, Locked.cacheFind, found]
  · simpa [cacheFind, Locked.cacheFind, found, newObject]
      using strcpy_strlcpy buffer memory.name name

/-- In a full cache the new object stays exactly if a popularity has become negative:
otherwise the scan never leaves the new object, which is first in the list and has popularity
0.
-/
theorem addedIsFound_of_full (valid : Valid cache) {memory : Memory} (fresh : Fresh cache memory)
    (id : BitVec 32) (name : CString) (full : cache.objects.length = maxCacheSize.toNat)
    : AddedIsFound cache (some memory) id name
      ↔ ∃ obj ∈ cache.objects, obj.popularity.toInt < 0 := by
  obtain ⟨outcast, next, scan, adds, objects, _⟩ :=
    Locked.cacheAdd_of_full valid (newObject memory id name) full
  have returns : cacheAdd cache (some memory) id name = some ⟨0, some outcast, next⟩ := by
    simp [cacheAdd, adds]
  constructor
  · rintro ⟨_, same, kept⟩
    obtain rfl := Option.some.inj (returns.symm.trans same)
    obtain ⟨old, hold, thrown, _⟩ := (kept rfl).2 full
    obtain rfl := Option.some.inj thrown
    by_contra none_negative
    have first := Locked.foldl_lessPopular_first (newObject memory id name)
      fun i hi => not_lt.mp fun negative => none_negative ⟨i, hi, negative⟩
    rw [scan] at first
    exact fresh outcast hold (congrArg Object.addr (Option.some.inj first))
  · rintro ⟨obj, hobj, negative⟩
    obtain ⟨_, same, mem, least⟩ :=
      Locked.foldl_lessPopular cache.objects (newObject memory id name)
    obtain rfl := Option.some.inj (scan.symm.trans same)
    have old : outcast ∈ cache.objects := by
      rcases List.mem_cons.mp mem with rfl | old
      · exact absurd (least obj (List.mem_cons_of_mem _ hobj)) (not_le.mpr negative)
      · exact old
    have stays : ¬ (newObject memory id name).addr = outcast.addr :=
      fun sameAddr => fresh outcast old sameAddr.symm
    rw [List.eraseP_cons_of_neg (by simpa using stays)] at objects
    refine ⟨_, returns, fun _ => ⟨cacheFind_front objects, fun _ => ⟨outcast, old, rfl, ?_⟩⟩⟩
    exact fun i hi => least i (List.mem_cons_of_mem _ hi)

/-- From any reachable state, an added object can be found and the least popular old one goes,
exactly when memory ran out, the cache was not full, or a popularity had become negative. By cases
on the allocation and on the room in the cache.
-/
theorem addedIsFound_iff {cache : Cache} (reached : Reachable cache)
    {allocation : Option Memory} (fresh : ∀ memory ∈ allocation, Fresh cache memory)
    (id : BitVec 32) (name : CString)
    : AddedIsFound cache allocation id name
      ↔ allocation = none ∨ cache.objects.length < maxCacheSize.toNat
        ∨ ∃ obj ∈ cache.objects, obj.popularity.toInt < 0 := by
  have valid := reached.valid
  cases allocation with
  | none => simp [AddedIsFound, cacheAdd, enomem]
  | some memory =>
      rcases valid.bounded.lt_or_eq with room | full
      · have adds := Locked.cacheAdd_of_room valid (newObject memory id name) room
        have returns : cacheAdd cache (some memory) id name
            = some ⟨0, none, cache.withNew (newObject memory id name)⟩ := by
          simp [cacheAdd, adds]
        refine iff_of_true ⟨_, returns, fun _ => ⟨cacheFind_front rfl, ?_⟩⟩ (.inr (.inl room))
        exact fun full => absurd full room.ne
      · rw [addedIsFound_of_full valid (fresh memory rfl) id name full]
        simp [full]

def blank (addr : Nat) : Memory where
  addr := addr
  name := ⟨List.replicate 32 0, rfl⟩

def letter : CString where
  bytes := [120]
  noNul := by decide

def filled : Nat → Cache
  | 0 => empty
  | n + 1 =>
      match cacheAdd (filled n) (some (blank n)) (BitVec.ofNat 32 n) letter with
      | some outcome => outcome.cache
      | none => filled n

theorem reachable_filled (n : Nat)
    : Reachable (filled n) ∧ Fresh (filled n) (blank n) := by
  suffices reached : Reachable (filled n) ∧ ∀ obj ∈ (filled n).objects, obj.addr < n from
    ⟨reached.1, fun obj hobj => (reached.2 obj hobj).ne⟩
  induction n with
  | zero => exact ⟨.empty, fun _ mem => nomatch mem⟩
  | succ n ih =>
      have fresh : Fresh (filled n) (blank n) := fun obj hobj => (ih.2 obj hobj).ne
      obtain ⟨thrownOut, next, adds, _, subset⟩ :=
        Locked.cacheAdd_valid ih.1.valid (newObject (blank n) (BitVec.ofNat 32 n) letter) fresh
          (newObject_terminated _ _ _)
      have returns : cacheAdd (filled n) (some (blank n)) (BitVec.ofNat 32 n) letter
          = some ⟨0, thrownOut, next⟩ := by
        simp [cacheAdd, adds]
      have filledNext : filled (n + 1) = next := by
        simp [filled, returns]
      rw [filledNext]
      refine ⟨.add ih.1 (fun memory hm => Option.some.inj hm ▸ fresh) returns, ?_⟩
      intro obj hobj
      rcases List.mem_cons.mp (subset hobj) with rfl | old
      · exact Nat.lt_succ_self n
      · exact (ih.2 obj old).trans (Nat.lt_succ_self n)

/-- The last object that there is room for is found. -/
theorem tenth_found
    : (filled 9).objects.length = 9 ∧ AddedIsFound (filled 9) (some (blank 9)) 9#32 letter := by
  obtain ⟨reached, fresh⟩ := reachable_filled 9
  have length : (filled 9).objects.length = 9 := by decide +kernel
  refine ⟨length, (addedIsFound_iff reached ?_ 9#32 letter).mpr (.inr (.inl ?_))⟩
  · intro memory same
    cases same
    exact fresh
  · rw [length]
    decide

/-- The eleventh object added is thrown out by its own `cache_add`, and is not found. -/
theorem eleventh_not_found
    : Reachable (filled 10) ∧ Fresh (filled 10) (blank 10)
      ∧ ((cacheAdd (filled 10) (some (blank 10)) 10#32 letter).map fun outcome =>
          (outcome.ret, outcome.thrownOut.map (·.addr),
            (cacheFind outcome.cache 10#32 fun _ => 0).ret)) = some (0, some 10, -enoent)
      ∧ ¬ AddedIsFound (filled 10) (some (blank 10)) 10#32 letter := by
  have outcome : ((cacheAdd (filled 10) (some (blank 10)) 10#32 letter).map fun outcome =>
      (outcome.ret, outcome.thrownOut.map (·.addr),
        (cacheFind outcome.cache 10#32 fun _ => 0).ret)) = some (0, some 10, -enoent) := by
    decide +kernel
  refine ⟨(reachable_filled 10).1, (reachable_filled 10).2, outcome, ?_⟩
  rintro ⟨added, returns, found⟩
  rw [returns] at outcome
  simp only [Option.map_some, Option.some.injEq, Prod.mk.injEq] at outcome
  have missing := ((found outcome.1).1 fun _ => 0).1
  rw [outcome.2.2] at missing
  exact absurd missing (by decide)

end LinuxDoc.ObjectCache
