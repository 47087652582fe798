import LinuxDoc.Foundations.Loop
import Mathlib.Data.List.Perm.Basic
import Mathlib.Data.List.Nodup

/-! Locking a list of objects with wait/wound mutexes, by the first two methods of the design
document. A lock call that loses against an older task makes the function back off: it
drops all its locks, waits for the contended one, and tries again.
-/

namespace LinuxDoc.WwMutex

open Foundations

universe u

/-- What `ww_mutex_lock` can answer for a lock that the context does not hold, other than
success.
-/
inductive Refusal where
  | edeadlk
  | other (code : Nat)
  deriving DecidableEq, Repr

inductive Errno where
  | ealready
  | edeadlk
  | other (code : Nat)
  deriving DecidableEq, Repr

def Refusal.errno : Refusal → Errno
  | .edeadlk => .edeadlk
  | .other code => .other code

inductive Misuse where
  | unlockNotHeld
  | lockedTwice
  | slowWhileHolding
  deriving DecidableEq, Repr

inductive Phase where
  | acquiring
  | done
  | finished
  deriving DecidableEq, Repr

/-- `struct ww_acquire_ctx`: the locks held under it, none of them twice, and the number of
lock calls made.
-/
structure AcquireCtx (κ : Type*) where
  held : List κ
  distinct : held.Nodup
  calls : Nat
  phase : Phase

variable {ε κ : Type u}

def wwAcquireInit : AcquireCtx κ :=
  ⟨[], List.nodup_nil, 0, .acquiring⟩

def wwAcquireDone (ctx : AcquireCtx κ) : AcquireCtx κ :=
  { ctx with phase := .done }

def wwAcquireFini (ctx : AcquireCtx κ) : AcquireCtx κ :=
  { ctx with phase := .finished }

variable [DecidableEq κ]

def AcquireCtx.take (lock : κ) (ctx : AcquireCtx κ) : Except Misuse (AcquireCtx κ) :=
  if held : lock ∈ ctx.held then .error .lockedTwice
  else
    .ok { ctx with held := lock :: ctx.held, distinct := List.nodup_cons.mpr ⟨held, ctx.distinct⟩ }

def wwMutexLock (results : Nat → Option Refusal) (lock : κ) (ctx : AcquireCtx κ)
    : Except Misuse (AcquireCtx κ × Except Errno Unit) :=
  let called := { ctx with calls := ctx.calls + 1 }
  if lock ∈ ctx.held then .ok (called, .error .ealready)
  else
    match results ctx.calls with
    | some refusal => .ok (called, .error refusal.errno)
    | none => do
        let ctx ← called.take lock
        .ok (ctx, .ok ())

def wwMutexLockSlow (lock : κ) (ctx : AcquireCtx κ) : Except Misuse (AcquireCtx κ) :=
  if ctx.held ≠ [] then .error .slowWhileHolding
  else ctx.take lock

def wwMutexUnlock (lock : κ) (ctx : AcquireCtx κ) : Except Misuse (AcquireCtx κ) :=
  if lock ∈ ctx.held then
    .ok { ctx with held := ctx.held.erase lock, distinct := ctx.distinct.erase lock }
  else .error .unlockNotHeld

def unlockEntries (obj : ε → κ) : List ε → AcquireCtx κ → Except Misuse (AcquireCtx κ)
  | [], ctx => .ok ctx
  | entry :: rest, ctx => do
      let ctx ← wwMutexUnlock (obj entry) ctx
      unlockEntries obj rest ctx

def unlockObjs (obj : ε → κ) (list : List ε) (ctx : AcquireCtx κ)
    : Except Misuse (AcquireCtx κ) := do
  let ctx ← unlockEntries obj list ctx
  .ok (wwAcquireFini ctx)

def orMisuse {σ ρ : Type*} : Except Misuse (Loop.Pass σ ρ) → Loop.Pass σ (Except Misuse ρ)
  | .error misuse => .leave (.error misuse)
  | .ok pass => pass.map .ok

namespace Method1

/-- How the loop over the list ends. When a lock call fails, `passed` are the entries before
the contended one, the nearest first.
-/
inductive Walk (ε κ : Type u) where
  | finished (ctx : AcquireCtx κ)
  | failed (passed : List ε) (contendedEntry : ε) (ret : Errno) (resObj : Option κ)
      (ctx : AcquireCtx κ)

def lockEntries (obj : ε → κ) (results : Nat → Option Refusal) (passed : List ε)
    : List ε → Option κ → AcquireCtx κ → Except Misuse (Walk ε κ)
  | [], _, ctx => .ok (.finished ctx)
  | entry :: rest, resObj, ctx =>
      if some (obj entry) = resObj then
        lockEntries obj results (entry :: passed) rest none ctx
      else do
        let (ctx, ret) ← wwMutexLock results (obj entry) ctx
        match ret with
        | .ok _ => lockEntries obj results (entry :: passed) rest resObj ctx
        | .error ret => .ok (.failed passed entry ret resObj ctx)

def unlockResObj : Option κ → AcquireCtx κ → Except Misuse (AcquireCtx κ)
  | some resObj, ctx => wwMutexUnlock resObj ctx
  | none, ctx => .ok ctx

def retryPass (obj : ε → κ) (results : Nat → Option Refusal) (list : List ε)
    : Option κ × AcquireCtx κ →
        Except Misuse (Loop.Pass (Option κ × AcquireCtx κ) (AcquireCtx κ × Except Errno Unit))
  | (resObj, ctx) => do
      match ← lockEntries obj results [] list resObj ctx with
      | .finished ctx => .ok (.leave (wwAcquireDone ctx, .ok ()))
      | .failed passed contendedEntry ret resObj ctx =>
          let ctx ← unlockEntries obj passed ctx
          let ctx ← unlockResObj resObj ctx
          if ret = .edeadlk then
            let ctx ← wwMutexLockSlow (obj contendedEntry) ctx
            .ok (.again (some (obj contendedEntry), ctx))
          else
            .ok (.leave (wwAcquireFini ctx, .error ret))

def lockObjs (obj : ε → κ) (results : Nat → Option Refusal) (list : List ε) (fuel : Nat)
    : Option (Except Misuse (AcquireCtx κ × Except Errno Unit)) :=
  Loop.run (fun state => some (orMisuse (retryPass obj results list state))) fuel
    (none, wwAcquireInit)

end Method1

namespace Method2

structure Cursor (ε κ : Type u) where
  passed : List ε
  rest : List ε
  ctx : AcquireCtx κ

def lockPass (obj : ε → κ) (results : Nat → Option Refusal) (cursor : Cursor ε κ)
    : Except Misuse (Loop.Pass (Cursor ε κ) (AcquireCtx κ × List ε × Except Errno Unit)) :=
  match cursor.rest with
  | [] => .ok (.leave (wwAcquireDone cursor.ctx, cursor.passed.reverse, .ok ()))
  | entry :: rest => do
      let (ctx, ret) ← wwMutexLock results (obj entry) cursor.ctx
      match ret with
      | .ok _ => .ok (.again ⟨entry :: cursor.passed, rest, ctx⟩)
      | .error ret =>
          let ctx ← unlockEntries obj cursor.passed ctx
          if ret ≠ .edeadlk then
            .ok (.leave (wwAcquireFini ctx, cursor.passed.reverse ++ entry :: rest, .error ret))
          else
            let ctx ← wwMutexLockSlow (obj entry) ctx
            -- The entry is moved to the head of the list, and the loop goes on behind it.
            .ok (.again ⟨[entry], cursor.passed.reverse ++ rest, ctx⟩)

/-- `lock_objs`, method 2, with the list as it is afterwards -/
def lockObjs (obj : ε → κ) (results : Nat → Option Refusal) (list : List ε) (fuel : Nat)
    : Option (Except Misuse (AcquireCtx κ × List ε × Except Errno Unit)) :=
  Loop.run (fun cursor => some (orMisuse (lockPass obj results cursor))) fuel
    ⟨[], list, wwAcquireInit⟩

end Method2

/-- A step without misuse is followed by the next one. -/
theorem bind_of_ok {α β : Type u} {step : Except Misuse α} {value : α} (done : step = .ok value)
    (next : α → Except Misuse β)
    : (step >>= next) = next value := by
  rw [done]
  rfl

/-- A lock call is answered: the lock is now held in addition, or nothing has changed. -/
theorem wwMutexLock_cases (results : Nat → Option Refusal) (lock : κ) (ctx : AcquireCtx κ)
    : ∃ after ret,
        wwMutexLock results lock ctx = .ok (after, ret)
        ∧ (ret = .ok () ∧ after.held = lock :: ctx.held
          ∨ ∃ e, ret = .error e ∧ after.held = ctx.held) := by
  by_cases already : lock ∈ ctx.held
  · rw [wwMutexLock, if_pos already]
    exact ⟨_, _, rfl, .inr ⟨_, rfl, rfl⟩⟩
  · rw [wwMutexLock, if_neg already]
    cases results ctx.calls with
    | some refusal => exact ⟨_, _, rfl, .inr ⟨_, rfl, rfl⟩⟩
    | none =>
        dsimp only
        rw [AcquireCtx.take, dif_neg already]
        exact ⟨_, _, rfl, .inl ⟨rfl, rfl⟩⟩

variable {ctx : AcquireCtx κ}

/-- Without any lock the slow path may be taken, and leaves one lock held. -/
theorem wwMutexLockSlow_of_empty (lock : κ) (empty : ctx.held = [])
    : ∃ after, wwMutexLockSlow lock ctx = .ok after ∧ after.held = [lock] := by
  have free : lock ∉ ctx.held := by simp [empty]
  rw [wwMutexLockSlow, if_neg (not_not.mpr empty), AcquireCtx.take, dif_neg free]
  exact ⟨_, rfl, congrArg (List.cons lock) empty⟩

theorem wwMutexUnlock_of_perm {lock : κ} {rest : List κ} (held : ctx.held.Perm (lock :: rest))
    : ∃ after, wwMutexUnlock lock ctx = .ok after ∧ after.held.Perm rest := by
  rcases List.cons_perm_iff_perm_erase.mp held.symm with ⟨member, left⟩
  rw [wwMutexUnlock, if_pos member]
  exact ⟨_, rfl, left.symm⟩

/-- Unlocking entries whose locks are held releases exactly these. -/
theorem unlockEntries_of_perm (obj : ε → κ) {entries : List ε} {rest : List κ}
    (held : ctx.held.Perm (entries.map obj ++ rest))
    : ∃ after, unlockEntries obj entries ctx = .ok after ∧ after.held.Perm rest := by
  induction entries generalizing ctx with
  | nil => exact ⟨ctx, rfl, held⟩
  | cons entry entries ih =>
      obtain ⟨unlocked, done, left⟩ := wwMutexUnlock_of_perm held
      obtain ⟨after, released, remaining⟩ := ih left
      refine ⟨after, ?_, remaining⟩
      rw [unlockEntries, done]
      exact released

/-- Each object's lock is held once, and no other. -/
structure HoldsAll (obj : ε → κ) (list : List ε) (ctx : AcquireCtx κ) : Prop where
  exactly : ctx.held.Perm (list.map obj)
  once : ∀ entry ∈ list, ctx.held.count (obj entry) = 1

theorem HoldsAll.of_perm {obj : ε → κ} {list : List ε} (exactly : ctx.held.Perm (list.map obj))
    : HoldsAll obj list ctx where
  exactly := exactly
  once := by
    intro entry member
    apply List.count_eq_one_of_mem ctx.distinct
    exact exactly.mem_iff.mpr (List.mem_map_of_mem member)

namespace Method1

/-- Along the loop over a list the locks of the passed entries are held, and that of the
object already held, which is still to come.
-/
structure Holding (obj : ε → κ) (list passed rest : List ε) (resObj : Option κ)
    (ctx : AcquireCtx κ)
    : Prop where
  whole : (passed ++ rest).Perm list
  held : ctx.held.Perm (passed.map obj ++ resObj.toList)
  coming : ∀ object, resObj = some object → object ∈ rest.map obj

/-- The loop ends with all locks held, or with those of the entries before the contended one
and that of the object already held, if it was not passed.
-/
inductive Ends (obj : ε → κ) (list : List ε) : Except Misuse (Walk ε κ) → Prop where
  | finished {ctx : AcquireCtx κ} (held : ctx.held.Perm (list.map obj))
      : Ends obj list (.ok (.finished ctx))
  | failed {passed : List ε} {entry : ε} {ret : Errno} {resObj : Option κ}
      {ctx : AcquireCtx κ} (listed : entry ∈ list)
      (held : ctx.held.Perm (passed.map obj ++ resObj.toList))
      : Ends obj list (.ok (.failed passed entry ret resObj ctx))

variable {obj : ε → κ} {list passed rest : List ε} {ctx : AcquireCtx κ}

omit [DecidableEq κ] in
/-- The object already held is passed as if its lock had been taken now. -/
theorem Holding.pass_resObj {entry : ε}
    (holding : Holding obj list passed (entry :: rest) (some (obj entry)) ctx)
    : Holding obj list (entry :: passed) rest none ctx where
  whole := List.perm_middle.symm.trans holding.whole
  held := by
    apply holding.held.trans
    rw [Option.toList_none, List.append_nil, List.map_cons]
    exact List.perm_append_singleton (obj entry) (passed.map obj)
  coming := by simp

variable {resObj : Option κ}

omit [DecidableEq κ] in
/-- An entry whose lock was taken is passed. -/
theorem Holding.pass_locked {entry : ε} {ctx after : AcquireCtx κ}
    (holding : Holding obj list passed (entry :: rest) resObj ctx)
    (other : some (obj entry) ≠ resObj) (taken : after.held = obj entry :: ctx.held)
    : Holding obj list (entry :: passed) rest resObj after where
  whole := List.perm_middle.symm.trans holding.whole
  held := by
    rw [taken]
    exact holding.held.cons (obj entry)
  coming := by
    intro object res
    rcases List.mem_cons.mp (holding.coming object res) with same | later
    · exact absurd (res.trans (congrArg some same)).symm other
    · exact later

/-- By induction on the entries to come, with `Holding` as the invariant. -/
theorem lockEntries_ends (results : Nat → Option Refusal)
    (holding : Holding obj list passed rest resObj ctx)
    : Ends obj list (lockEntries obj results passed rest resObj ctx) := by
  induction rest generalizing passed resObj ctx with
  | nil =>
      have reached : resObj = none := by
        cases resObj with
        | none => rfl
        | some object => exact absurd (holding.coming object rfl) List.not_mem_nil
      apply Ends.finished
      apply List.Perm.trans _ (holding.whole.map obj)
      simpa [reached] using holding.held
  | cons entry rest ih =>
      rw [lockEntries]
      by_cases already : some (obj entry) = resObj
      · rw [if_pos already]
        subst already
        exact ih holding.pass_resObj
      · rw [if_neg already]
        obtain ⟨after, ret, call, outcome⟩ := wwMutexLock_cases results (obj entry) ctx
        rw [call]
        rcases outcome with ⟨rfl, taken⟩ | ⟨e, rfl, same⟩
        · exact ih (holding.pass_locked already taken)
        · refine .failed (holding.whole.mem_iff.mp (by simp)) ?_
          rw [same]
          exact holding.held

theorem unlockResObj_of_perm (held : ctx.held.Perm resObj.toList)
    : ∃ after, unlockResObj resObj ctx = .ok after ∧ after.held = [] := by
  cases resObj with
  | none => exact ⟨ctx, rfl, held.eq_nil⟩
  | some object =>
      obtain ⟨after, done, left⟩ := wwMutexUnlock_of_perm held
      exact ⟨after, done, left.eq_nil⟩

/-- What a retry starts from: at most the object that was waited for is held. -/
structure Retrying (obj : ε → κ) (list : List ε) (state : Option κ × AcquireCtx κ) : Prop where
  held : state.2.held = state.1.toList
  listed : ∀ object, state.1 = some object → object ∈ list.map obj

/-- The function returns without misuse, with all locks on success and none on failure. -/
inductive Balanced (obj : ε → κ) (list : List ε)
    : Except Misuse (AcquireCtx κ × Except Errno Unit) → Prop where
  | locked {ctx : AcquireCtx κ} (held : ctx.held.Perm (list.map obj))
      : Balanced obj list (.ok (ctx, .ok ()))
  | failed {ctx : AcquireCtx κ} (e : Errno) (empty : ctx.held = [])
      : Balanced obj list (.ok (ctx, .error e))

/-- From a retry the function returns with the locks balanced, or retries. -/
theorem retryPass_leads (results : Nat → Option Refusal) {list : List ε}
    {state : Option κ × AcquireCtx κ} (retrying : Retrying obj list state)
    : Loop.Leads (Retrying obj list) (Balanced obj list)
        (some (orMisuse (retryPass obj results list state))) := by
  obtain ⟨resObj, ctx⟩ := state
  have holding : Holding obj list [] list resObj ctx := by
    refine ⟨.refl _, ?_, retrying.listed⟩
    rw [retrying.held]
    exact .refl _
  have ends := lockEntries_ends results holding
  rw [retryPass]
  generalize lockEntries obj results [] list resObj ctx = walk at ends ⊢
  cases ends with
  | finished held => exact .leave (.locked held)
  | @failed passed entry ret resObj ctx listed held =>
      obtain ⟨unwound, unwind, left⟩ := unlockEntries_of_perm obj held
      obtain ⟨dropped, drop, empty⟩ := unlockResObj_of_perm left
      rw [bind_of_ok rfl]
      dsimp only
      rw [bind_of_ok unwind, bind_of_ok drop]
      by_cases deadlock : ret = .edeadlk
      · obtain ⟨waited, slow, single⟩ := wwMutexLockSlow_of_empty (obj entry) empty
        rw [if_pos deadlock, bind_of_ok slow]
        refine .again ⟨single, ?_⟩
        intro object same
        cases same
        exact List.mem_map_of_mem listed
      · rw [if_neg deadlock]
        exact .leave (.failed ret empty)

/-- Whatever the lock calls answer, method 1 returns balanced if it returns. -/
theorem lockObjs_balanced {results : Nat → Option Refusal} {list : List ε} {fuel : Nat}
    {result : Except Misuse (AcquireCtx κ × Except Errno Unit)}
    (returned : lockObjs obj results list fuel = some result)
    : Balanced obj list result := by
  apply Loop.run_result (Retrying obj list) (Balanced obj list) _ _ returned
  · exact fun _ retrying => retryPass_leads results retrying
  · exact ⟨rfl, by simp⟩

end Method1

namespace Method2

/-- Along the loop the locks of the passed entries are held, and the list is reordered. -/
structure Locking (obj : ε → κ) (list : List ε) (cursor : Cursor ε κ) : Prop where
  whole : (cursor.passed ++ cursor.rest).Perm list
  held : cursor.ctx.held.Perm (cursor.passed.map obj)

/-- The function returns without misuse and with the entries it was given, with all locks on
success and none on failure.
-/
inductive Balanced (obj : ε → κ) (list : List ε)
    : Except Misuse (AcquireCtx κ × List ε × Except Errno Unit) → Prop where
  | locked {ctx : AcquireCtx κ} {list' : List ε} (reordered : list'.Perm list)
      (held : ctx.held.Perm (list.map obj))
      : Balanced obj list (.ok (ctx, list', .ok ()))
  | failed {ctx : AcquireCtx κ} {list' : List ε} (reordered : list'.Perm list) (e : Errno)
      (empty : ctx.held = [])
      : Balanced obj list (.ok (ctx, list', .error e))

/-- A pass returns with the locks balanced, or goes on with those of the passed entries. -/
theorem lockPass_leads {obj : ε → κ} (results : Nat → Option Refusal) {list : List ε}
    {cursor : Cursor ε κ} (locking : Locking obj list cursor)
    : Loop.Leads (Locking obj list) (Balanced obj list)
        (some (orMisuse (lockPass obj results cursor))) := by
  obtain ⟨passed, rest, ctx⟩ := cursor
  have held : ctx.held.Perm (passed.map obj) := locking.held
  have whole : (passed ++ rest).Perm list := locking.whole
  -- The entries before the loop's own, as the list has them.
  have listed : (passed.reverse ++ rest).Perm list :=
    ((List.reverse_perm passed).append_right rest).trans whole
  rw [lockPass]
  cases rest with
  | nil =>
      rw [List.append_nil] at whole listed
      exact .leave (.locked listed (held.trans (whole.map obj)))
  | cons entry rest =>
      obtain ⟨after, ret, call, outcome⟩ := wwMutexLock_cases results (obj entry) ctx
      dsimp only
      rw [bind_of_ok call]
      rcases outcome with ⟨rfl, taken⟩ | ⟨e, rfl, same⟩
      · refine .again ⟨List.perm_middle.symm.trans whole, ?_⟩
        rw [taken]
        exact held.cons (obj entry)
      · have stillHeld : after.held.Perm (passed.map obj ++ []) := by
          rw [same, List.append_nil]
          exact held
        obtain ⟨unwound, unwind, left⟩ := unlockEntries_of_perm obj stillHeld
        dsimp only
        rw [bind_of_ok unwind]
        by_cases deadlock : e = .edeadlk
        · obtain ⟨waited, slow, single⟩ := wwMutexLockSlow_of_empty (obj entry) left.eq_nil
          have moved : (entry :: (passed.reverse ++ rest)).Perm list :=
            List.perm_middle.symm.trans listed
          rw [if_neg (not_not.mpr deadlock), bind_of_ok slow]
          refine .again ⟨moved, ?_⟩
          rw [single]
          exact .refl _
        · rw [if_pos deadlock]
          exact .leave (.failed listed e left.eq_nil)

/-- Whatever the lock calls answer, method 2 returns balanced if it returns. -/
theorem lockObjs_balanced {obj : ε → κ} {results : Nat → Option Refusal} {list : List ε}
    {fuel : Nat} {result : Except Misuse (AcquireCtx κ × List ε × Except Errno Unit)}
    (returned : lockObjs obj results list fuel = some result)
    : Balanced obj list result := by
  apply Loop.run_result (Locking obj list) (Balanced obj list) _ _ returned
  · exact fun _ locking => lockPass_leads results locking
  · exact ⟨.refl _, .refl _⟩

end Method2

/-- Both methods are balanced, whatever the lock calls answer and however often they back off. If a
call returns, no lock was released that was not held, none was taken twice, and the slow path was
taken without any lock; on success each object's lock is held once, and on failure none is. Method 2
only reorders the list. Along each loop the held locks are, up to their order, those of the entries
passed.
-/
theorem backoff_balanced (obj : ε → κ) (results : Nat → Option Refusal) (list : List ε)
    (fuel : Nat)
    : (∀ result, Method1.lockObjs obj results list fuel = some result →
        ∃ ctx ret, result = .ok (ctx, ret)
          ∧ (ret = .ok () → HoldsAll obj list ctx)
          ∧ ∀ e, ret = .error e → ctx.held = [])
      ∧ ∀ result, Method2.lockObjs obj results list fuel = some result →
          ∃ ctx list' ret, result = .ok (ctx, list', ret)
            ∧ list'.Perm list
            ∧ (ret = .ok () → HoldsAll obj list ctx)
            ∧ ∀ e, ret = .error e → ctx.held = [] := by
  constructor
  · intro result returned
    cases Method1.lockObjs_balanced returned with
    | @locked ctx held => exact ⟨ctx, _, rfl, fun _ => .of_perm held, by simp⟩
    | @failed ctx e empty => exact ⟨ctx, _, rfl, by simp, fun _ _ => empty⟩
  · intro result returned
    cases Method2.lockObjs_balanced returned with
    | @locked ctx list' reordered held =>
        exact ⟨ctx, list', _, rfl, reordered, fun _ => .of_perm held, by simp⟩
    | @failed ctx list' reordered e empty =>
        exact ⟨ctx, list', _, rfl, reordered, by simp, fun _ _ => empty⟩

def losesOnce : Nat → Option Refusal
  | 1 => some .edeadlk
  | _ => none

/-- Both methods return with two locks after backing off once; method 2 has then swapped the
two entries.
-/
theorem losesOnce_balanced
    : (∃ ctx, Method1.lockObjs id losesOnce [10, 20] 2 = some (.ok (ctx, .ok ()))
        ∧ HoldsAll id [10, 20] ctx)
      ∧ ∃ ctx, Method2.lockObjs id losesOnce [10, 20] 4 = some (.ok (ctx, [20, 10], .ok ()))
          ∧ HoldsAll id [10, 20] ctx := by
  constructor
  · refine ⟨⟨[10, 20], by decide, 3, .done⟩, rfl, ?_⟩
    obtain ⟨ctx, ret, same, locked, _⟩ :=
      (backoff_balanced id losesOnce [10, 20] 2).1 _ rfl
    cases same
    exact locked rfl
  · refine ⟨⟨[10, 20], by decide, 3, .done⟩, rfl, ?_⟩
    obtain ⟨ctx, list', ret, same, _, locked, _⟩ :=
      (backoff_balanced id losesOnce [10, 20] 4).2 _ rfl
    cases same
    exact locked rfl

/-- After a successful call of either method, `unlock_objs` releases every lock. -/
theorem unlockObjs_releases {obj : ε → κ} {list list' : List ε} {ctx : AcquireCtx κ}
    (holds : HoldsAll obj list ctx) (reordered : list'.Perm list)
    : ∃ after, unlockObjs obj list' ctx = .ok after
        ∧ after.held = []
        ∧ after.phase = .finished := by
  have held : ctx.held.Perm (list'.map obj ++ []) := by
    rw [List.append_nil]
    exact holds.exactly.trans (reordered.map obj).symm
  obtain ⟨after, released, left⟩ := unlockEntries_of_perm obj held
  rw [unlockObjs, bind_of_ok released]
  exact ⟨_, rfl, left.eq_nil, rfl⟩

end LinuxDoc.WwMutex
