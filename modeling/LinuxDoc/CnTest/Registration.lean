import Mathlib.Logic.Function.Basic
import Mathlib.Data.BitVec

/-! Loading and unloading cn_test, which registers two connector callbacks.
One identifier serves both: it is counted up between the registrations, so each removal has to
find it as it was at the matching registration.
-/

namespace LinuxDoc.CnTest

structure CbId where
  idx : BitVec 32
  val : BitVec 32
  deriving DecidableEq

def CbId.succ (id : CbId) : CbId :=
  { id with val := id.val + 1 }

def CbId.pred (id : CbId) : CbId :=
  { id with val := id.val - 1 }

theorem CbId.succ_ne (id : CbId) : id.succ ≠ id := by
  intro same
  have vals : id.val + 1 = id.val := congrArg CbId.val same
  simp at vals

@[simp]
theorem CbId.succ_pred (id : CbId) : id.succ.pred = id := by
  simp [CbId.succ, CbId.pred]

/-- The connector of the kernel. What a call of `cn_add_callback` depends on besides its arguments
is its circumstances; a call that fails registers nothing, and one that succeeds registers the
callback under an identifier that was free.
-/
structure Connector (Callback : Type*) where
  Circumstances : Type
  cnAddCallback : Circumstances → (CbId → Option Callback) → CbId → Callback
    → Int × (CbId → Option Callback)
  cnDelCallback : (CbId → Option Callback) → CbId → (CbId → Option Callback)
  refused : ∀ now registry id callback, (cnAddCallback now registry id callback).1 ≠ 0 →
    (cnAddCallback now registry id callback).2 = registry
  free : ∀ now registry id callback, (cnAddCallback now registry id callback).1 = 0 →
    registry id = none
  registered : ∀ now registry id callback, (cnAddCallback now registry id callback).1 = 0 →
    (cnAddCallback now registry id callback).2 = Function.update registry id (some callback)
  unregistered : ∀ registry id callback, registry id = some callback →
    cnDelCallback registry id = Function.update registry id none

structure Module (Callback : Type*) where
  registry : CbId → Option Callback
  cnTestId : CbId
  timer : Bool

section Init

variable {Callback : Type*} (connector : Connector Callback) (callback : Callback)

def cnTestInit (first second : connector.Circumstances) (m : Module Callback)
    : Int × Module Callback :=
  let (err, registry) := connector.cnAddCallback first m.registry m.cnTestId callback
  if err ≠ 0 then (err, { m with registry })
  else
    let cnTestId := m.cnTestId.succ
    let (err, registry) := connector.cnAddCallback second registry cnTestId callback
    if err ≠ 0 then
      (err, { m with registry := connector.cnDelCallback registry cnTestId, cnTestId })
    else (0, { registry, cnTestId, timer := true })

def cnTestFini (m : Module Callback) : Module Callback :=
  let registry := connector.cnDelCallback m.registry m.cnTestId
  let cnTestId := m.cnTestId.pred
  { registry := connector.cnDelCallback registry cnTestId, cnTestId, timer := false }

/-- The registered callbacks and `cn_test_id` are the same as before. -/
def Restored (before after : Module Callback) : Prop :=
  after.registry = before.registry ∧ after.cnTestId = before.cnTestId

def FirstAdded (first : connector.Circumstances) (m : Module Callback) : Prop :=
  (connector.cnAddCallback first m.registry m.cnTestId callback).1 = 0

def SecondAdded (second : connector.Circumstances) (m : Module Callback) : Prop :=
  (connector.cnAddCallback second (Function.update m.registry m.cnTestId (some callback))
    m.cnTestId.succ callback).1 = 0

variable {connector} {first second : connector.Circumstances} {m : Module Callback}

/-- Nothing has happened when the first registration fails. -/
theorem init_first_refused (second : connector.Circumstances)
    (refuses : ¬ FirstAdded connector callback first m)
    : (cnTestInit connector callback first second m).1 ≠ 0
      ∧ (cnTestInit connector callback first second m).2 = m := by
  have failed : (connector.cnAddCallback first m.registry m.cnTestId callback).1 ≠ 0 := refuses
  have unchanged := connector.refused first m.registry m.cnTestId callback failed
  simp [cnTestInit, failed, unchanged]

/-- When the second registration fails, `cn_test_id` stays counted up. What is removed is the
second identifier, while the first one stays registered.
-/
theorem init_second_refused (added : FirstAdded connector callback first m)
    (refuses : ¬ SecondAdded connector callback second m)
    : (cnTestInit connector callback first second m).1 ≠ 0
      ∧ (cnTestInit connector callback first second m).2
        = { m with
            registry := connector.cnDelCallback
              (Function.update m.registry m.cnTestId (some callback)) m.cnTestId.succ
            cnTestId := m.cnTestId.succ } := by
  have failed : (connector.cnAddCallback second
      (Function.update m.registry m.cnTestId (some callback)) m.cnTestId.succ callback).1 ≠ 0 :=
    refuses
  have unchanged := connector.refused second _ _ callback failed
  have registered := connector.registered first m.registry m.cnTestId callback added
  have added : (connector.cnAddCallback first m.registry m.cnTestId callback).1 = 0 := added
  simp [cnTestInit, added, registered, failed, unchanged]

theorem init_added (added : FirstAdded connector callback first m)
    (also : SecondAdded connector callback second m)
    : cnTestInit connector callback first second m
      = (0, {
          registry := Function.update (Function.update m.registry m.cnTestId (some callback))
            m.cnTestId.succ (some callback)
          cnTestId := m.cnTestId.succ
          timer := true }) := by
  have registered := connector.registered first m.registry m.cnTestId callback added
  have both := connector.registered second _ _ callback also
  have added : (connector.cnAddCallback first m.registry m.cnTestId callback).1 = 0 := added
  have also : (connector.cnAddCallback second
      (Function.update m.registry m.cnTestId (some callback)) m.cnTestId.succ callback).1 = 0 :=
    also
  simp [cnTestInit, added, registered, also, both]

/-- Unloading removes both registrations, under the identifiers they were made with. Both were
free before, so what is left is what was registered at first.
-/
theorem fini_restores (added : FirstAdded connector callback first m)
    (also : SecondAdded connector callback second m)
    : Restored m (cnTestFini connector (cnTestInit connector callback first second m).2) := by
  have first_free := connector.free first m.registry m.cnTestId callback added
  have second_free := connector.free second _ _ callback also
  rw [Function.update_of_ne m.cnTestId.succ_ne] at second_free
  rw [init_added callback added also]
  refine ⟨?_, m.cnTestId.succ_pred⟩
  have once := connector.unregistered
    (Function.update (Function.update m.registry m.cnTestId (some callback)) m.cnTestId.succ
      (some callback)) m.cnTestId.succ callback (Function.update_self ..)
  have twice := connector.unregistered
    (Function.update (Function.update m.registry m.cnTestId (some callback)) m.cnTestId.succ none)
    m.cnTestId callback (by simp [m.cnTestId.succ_ne.symm])
  simp only [cnTestFini, CbId.succ_pred, once, Function.update_idem, twice]
  funext id
  by_cases isFirst : id = m.cnTestId
  · simp [isFirst, first_free]
  by_cases isSecond : id = m.cnTestId.succ
  · simp [isSecond, m.cnTestId.succ_ne, second_free]
  · simp [isFirst, isSecond]

/-- A failed load leaves the registered callbacks and `cn_test_id` as they were, and a
successful one is undone by unloading, exactly if it is not the second registration that
fails. By cases on the two registrations.
-/
theorem init_restored_iff (connector : Connector Callback) (callback : Callback)
    (first second : connector.Circumstances) (m : Module Callback)
    : (((cnTestInit connector callback first second m).1 ≠ 0 →
          Restored m (cnTestInit connector callback first second m).2)
        ∧ ((cnTestInit connector callback first second m).1 = 0 →
          Restored m (cnTestFini connector (cnTestInit connector callback first second m).2)))
      ↔ (FirstAdded connector callback first m → SecondAdded connector callback second m) := by
  by_cases added : FirstAdded connector callback first m
  · by_cases also : SecondAdded connector callback second m
    · have loaded := congrArg Prod.fst (init_added callback added also)
      simp [added, also, loaded, fini_restores callback added also]
    · obtain ⟨failed, after⟩ := init_second_refused callback added also
      simp [added, also, after, failed, Restored, m.cnTestId.succ_ne]
  · obtain ⟨failed, after⟩ := init_first_refused callback second added
    simp [added, after, failed, Restored]

end Init

/-- A connector that refuses an identifier that is taken, with `-EINVAL`, and is never short of
memory.
-/
def strictConnector : Connector Bool where
  Circumstances := Unit
  cnAddCallback _ registry id callback :=
    if (registry id).isSome then (-22, registry)
    else (0, Function.update registry id (some callback))
  cnDelCallback registry id := Function.update registry id none
  refused _ registry id callback := by
    split <;> simp
  free _ registry id callback := by
    split <;> simp_all
  registered _ registry id callback := by
    split <;> simp
  unregistered _ _ _ _ := rfl

def clashingModule : Module Bool where
  registry id := if id = ⟨14, 0x457⟩ then some false else none
  cnTestId := ⟨14, 0x456⟩
  timer := false

/-- Loading fails, but the first callback (`true`) is registered afterwards, the other one is
not any more, and `cn_test_id` has changed.
-/
theorem clashingModule_leaks
    : (cnTestInit strictConnector true () () clashingModule).1 = -22
      ∧ clashingModule.registry ⟨14, 0x456⟩ = none
      ∧ (cnTestInit strictConnector true () () clashingModule).2.registry ⟨14, 0x456⟩ = some true
      ∧ clashingModule.registry ⟨14, 0x457⟩ = some false
      ∧ (cnTestInit strictConnector true () () clashingModule).2.registry ⟨14, 0x457⟩ = none
      ∧ (cnTestInit strictConnector true () () clashingModule).2.cnTestId = ⟨14, 0x457⟩ := by
  decide

end LinuxDoc.CnTest
