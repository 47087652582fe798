import LinuxDoc.GadgetHid.FillReport

/-! What is left in a report of a number that was rejected.
The byte that is cleared to take the number back is the one behind it.
-/

namespace LinuxDoc.GadgetHid

open Foundations

inductive Device where
  | mouse
  | joystick
  deriving DecidableEq

namespace Device

def first : Device → Nat
  | .mouse => 1
  | .joystick => 0

def limit : Device → Nat
  | .mouse => 2
  | .joystick => 3

section Run

variable (long : LongBits) (device : Device)

def body : Fill → Token → Fill :=
  match device with
  | .mouse => mouseToken long
  | .joystick => joystickToken long

def start : Fill :=
  match device with
  | .mouse => .cleared
  | .joystick => joystickStart .cleared

def fillReport (buf : List Char) : Int × Fill :=
  match device with
  | .mouse => mouseFillReport long buf .cleared
  | .joystick => joystickFillReport long buf .cleared

/-- The word is converted, and `strtol` sets `errno`. -/
def Rejects (s : Fill) (tok : Token) : Prop :=
  isOption tok = false ∧ s.mvt < device.limit ∧ (strtol long tok).2 = true

instance Rejects.decidable (s : Fill) (tok : Token) : Decidable (device.Rejects long s tok) :=
  inferInstanceAs (Decidable (_ ∧ _))

def withoutRejected : Fill → List Token → List Token
  | _, [] => []
  | s, tok :: rest =>
      if device.Rejects long s tok then withoutRejected (device.body long s tok) rest
      else tok :: withoutRejected (device.body long s tok) rest

/-- Every rejected word leaves the report and the count as they were, so that the report is the
one without these words.
-/
structure LeavesRejected (buf : List Char) : Prop where
  unchanged : EveryStep (device.body long)
    (fun s tok => device.Rejects long s tok → device.body long s tok = s)
    device.start (processed (strtok buf))
  deleted : (device.fillReport long buf).2.report
    = ((device.withoutRejected long device.start (processed (strtok buf))).foldl
        (device.body long) device.start).report

/-- A rejected word is below the range; and where it comes as the third number of a joystick,
neither a button nor a hat is shown.
-/
def Harmless (s : Fill) (tok : Token) : Prop :=
  device.Rejects long s tok →
    (strtol long tok).1 = long.longMin
    ∧ (device = .joystick → s.mvt = 2 → s.report 3 = 0)

end Run

theorem fillReport_eq (long : LongBits) (device : Device) (buf : List Char)
    : (device.fillReport long buf).2
      = (processed (strtok buf)).foldl (device.body long) device.start := by
  cases device with
  | mouse => exact congrArg Prod.snd (fillTokens_eq _ _ _ _)
  | joystick => exact congrArg Prod.snd (fillTokens_eq _ _ _ _)

section Step

variable {long : LongBits} {device : Device} {s : Fill} {tok : Token}

/-- The tables hold only words that begin like an option. -/
theorem lookup_eq_none {table : List (Token × BitVec 8)}
    (options : table.all (fun option => isOption option.1) = true) (plain : isOption tok = false)
    : table.lookup tok = none := by
  rw [List.lookup_eq_none_iff]
  intro option member
  have isOpt := List.all_eq_true.mp options option member
  rw [bne_iff_ne]
  intro same
  rw [same, isOpt] at plain
  cases plain

/-- A word that is no option is stored as a number while there is room. -/
theorem body_plain (plain : isOption tok = false)
    : device.body long s tok
      = if s.mvt < device.limit then storeNumber long device.first tok s else s := by
  cases device with
  | mouse =>
      have noHold : tok ≠ "--hold".toList := by
        rintro rfl
        exact absurd plain (by decide)
      have none : mmod.lookup tok = none := lookup_eq_none (by decide) plain
      rw [body, mouseToken, if_neg noHold, none]
      by_cases room : s.mvt < 2
      · exact (if_pos ⟨plain, room⟩).trans (if_pos room).symm
      · exact (if_neg fun h => room h.2).trans (if_neg room).symm
  | joystick =>
      have none : jmod.lookup tok = none := lookup_eq_none (by decide) plain
      rw [body, joystickToken, none]
      by_cases room : s.mvt < 3
      · exact (if_pos ⟨plain, room⟩).trans (if_pos room).symm
      · exact (if_neg fun h => room h.2).trans (if_neg room).symm

structure Ahead (device : Device) (s : Fill) : Prop where
  zero : ∀ i, device.first + s.mvt ≤ i → i < 4 → (device = .joystick → i ≠ 3) → s.report i = 0

theorem ahead_start : device.Ahead device.start := by
  cases device with
  | mouse => exact ⟨fun _ _ _ _ => rfl⟩
  | joystick =>
      refine ⟨fun i _ _ apart => ?_⟩
      exact Function.update_of_ne (apart rfl) _ _

theorem update_update_eq_self_iff {memory : Nat → BitVec 8} {i j : Nat} {value other : BitVec 8}
    (apart : i ≠ j)
    : Function.update (Function.update memory i value) j other = memory
      ↔ value = memory i ∧ other = memory j := by
  constructor
  · intro same
    have atFirst := congrFun same i
    have atSecond := congrFun same j
    rw [Function.update_of_ne apart, Function.update_self] at atFirst
    rw [Function.update_self] at atSecond
    exact ⟨atFirst, atSecond⟩
  · intro h
    rcases h with ⟨rfl, rfl⟩
    rw [Function.update_eq_self, Function.update_eq_self]

/-- The last byte of a rejected number is zero if the number is below the range. -/
theorem ofInt_rejected_iff (rejected : (strtol long tok).2 = true)
    : BitVec.ofInt 8 (strtol long tok).1 = 0 ↔ (strtol long tok).1 = long.longMin := by
  rcases strtol_rejected rejected with lowest | highest
  · rw [lowest]
    exact iff_of_true (ofInt_longMin long) rfl
  · rw [highest]
    refine iff_of_false ?_ ?_
    · rw [ofInt_longMax]
      decide
    · cases long <;> decide

/-- A rejected number changes nothing exactly if its last byte is zero, as the byte is that it
is stored in, and the next one is zero, too.
-/
theorem body_rejected_iff (ahead : device.Ahead s) (rejects : device.Rejects long s tok)
    : device.body long s tok = s
      ↔ (strtol long tok).1 = long.longMin ∧ (device = .joystick → s.mvt = 2 → s.report 3 = 0) := by
  obtain ⟨plain, room, rejected⟩ := rejects
  have inside : device.first + s.mvt < 3 := by
    cases device <;> simp only [first, limit] at room ⊢ <;> omega
  have here : s.report (device.first + s.mvt) = 0 :=
    ahead.zero _ (Nat.le_refl _) (by omega) (by omega)
  have next : 0 = s.report (device.first + s.mvt + 1)
      ↔ (device = .joystick → s.mvt = 2 → s.report 3 = 0) := by
    rw [eq_comm]
    constructor
    · intro zero isJoystick two
      subst isJoystick
      simpa [first, two] using zero
    · intro third
      by_cases shown : device = .joystick ∧ s.mvt = 2
      · obtain ⟨rfl, two⟩ := shown
        simpa [first, two] using third rfl two
      · refine ahead.zero _ (Nat.le_succ _) (by omega) fun isJoystick => ?_
        subst isJoystick
        simp only [first, true_and] at shown ⊢
        omega
  have sameReport : device.body long s tok = s ↔ (device.body long s tok).report = s.report := by
    rw [body_plain plain, if_pos room, storeNumber_rejected device.first s rejected]
    exact ⟨congrArg Fill.report, fun same => congrArg (Fill.mk · s.mvt s.hold) same⟩
  rw [sameReport, body_plain plain, if_pos room, storeNumber_rejected device.first s rejected,
    update_update_eq_self_iff (Nat.ne_of_lt (Nat.lt_succ_self (device.first + s.mvt))), here, next,
    ofInt_rejected_iff rejected]

/-- An option keeps the count, and of the report all but the byte of the options. -/
theorem body_option (option : isOption tok = true)
    : (device.body long s tok).mvt = s.mvt
      ∧ ∀ i, (device = .mouse → i ≠ 0) → (device = .joystick → i ≠ 3) →
          (device.body long s tok).report i = s.report i := by
  cases device with
  | mouse =>
      simp only [body, mouseToken, option]
      split
      · exact ⟨rfl, fun _ _ _ => rfl⟩
      · split
        · exact ⟨rfl, fun i apart _ => Function.update_of_ne (apart trivial) _ _⟩
        · exact ⟨rfl, fun _ _ _ => rfl⟩
  | joystick =>
      simp only [body, joystickToken, option]
      split
      · exact ⟨rfl, fun i _ apart => Function.update_of_ne (apart trivial) _ _⟩
      · exact ⟨rfl, fun _ _ _ => rfl⟩

/-- A number is stored in the first byte ahead, an option not ahead at all. -/
theorem ahead_body (ahead : device.Ahead s)
    (leaves : device.Rejects long s tok → device.body long s tok = s)
    : device.Ahead (device.body long s tok) := by
  cases option : isOption tok with
  | true =>
      have kept : (device.body long s tok).mvt = s.mvt ∧ _ := body_option option
      refine ⟨fun i after inside apart => ?_⟩
      rw [kept.1] at after
      have behind : device = .mouse → i ≠ 0 := by
        intro isMouse
        subst isMouse
        simp only [first] at after
        omega
      rw [kept.2 i behind apart]
      exact ahead.zero i after inside apart
  | false =>
      by_cases room : s.mvt < device.limit
      · cases rejected : (strtol long tok).2 with
        | true =>
            rw [leaves ⟨option, room, rejected⟩]
            exact ahead
        | false =>
            rw [body_plain option, if_pos room, storeNumber_accepted device.first s rejected]
            refine ⟨fun i after inside apart => ?_⟩
            have behind : i ≠ device.first + s.mvt := by
              simp only at after
              omega
            exact (Function.update_of_ne behind _ _).trans
              (ahead.zero i (by simp only at after; omega) inside apart)
      · rw [body_plain option, if_neg room]
        exact ahead

end Step

section Run

variable {long : LongBits} {device : Device}

/-- Where rejected words change nothing they can be left out. -/
theorem foldl_withoutRejected {tokens : List Token} {s : Fill}
    (unchanged : EveryStep (device.body long)
      (fun s tok => device.Rejects long s tok → device.body long s tok = s) s tokens)
    : (device.withoutRejected long s tokens).foldl (device.body long) s
      = tokens.foldl (device.body long) s := by
  induction tokens generalizing s with
  | nil => rfl
  | cons tok rest ih =>
      obtain ⟨here, later⟩ := unchanged
      rw [withoutRejected]
      split
      next rejects =>
        rw [here rejects] at later ⊢
        rw [ih later, List.foldl_cons, here rejects]
      · rw [List.foldl_cons, List.foldl_cons, ih later]

end Run

/-- Every rejected word leaves the report as it was exactly if every one is below the range, so that
its last byte is zero like the one it is stored in, and none comes as the third number of a joystick
whose buttons or hat are not zero. Word by word, by the invariant that the bytes ahead are still
zero.
-/
theorem leavesRejected_iff (long : LongBits) (device : Device) (buf : List Char)
    : device.LeavesRejected long buf
      ↔ EveryStep (device.body long) (device.Harmless long) device.start
          (processed (strtok buf)) := by
  have sameSteps : EveryStep (device.body long)
        (fun s tok => device.Rejects long s tok → device.body long s tok = s)
        device.start (processed (strtok buf))
      ↔ EveryStep (device.body long) (device.Harmless long) device.start
          (processed (strtok buf)) := by
    refine everyStep_congr_of_invariant (device.body long) device.Ahead ?_ ?_ _ ahead_start
    · intro s tok ahead
      exact forall_congr' fun rejects => body_rejected_iff ahead rejects
    · intro s tok
      exact ahead_body
  rw [← sameSteps]
  constructor
  · intro leaves
    exact leaves.unchanged
  · intro unchanged
    refine ⟨unchanged, ?_⟩
    rw [fillReport_eq, foldl_withoutRejected unchanged]

/-- A number above the range of 64 bits, as the first one of a mouse, is sent as -1. -/
theorem tooLarge_sent
    : (Device.mouse.fillReport .bits64 "99999999999999999999".toList).2.report 1 = 0xff
      ∧ ¬ Device.mouse.LeavesRejected .bits64 "99999999999999999999".toList := by
  have sent : (Device.mouse.fillReport .bits64 "99999999999999999999".toList).2.report 1 = 0xff := by
    decide
  refine ⟨sent, ?_⟩
  intro leaves
  have deleted := congrFun leaves.deleted 1
  rw [sent] at deleted
  exact absurd deleted (by decide)

end Device

end LinuxDoc.GadgetHid
