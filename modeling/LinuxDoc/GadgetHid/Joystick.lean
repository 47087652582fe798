import Mathlib.Data.List.Induction
import Mathlib.Data.List.TakeWhile
import LinuxDoc.GadgetHid.FillReport

/-! The last byte of the joystick's report: the buttons in its high half, the hat in its low
half. One masking expression serves both, and it clears the hat.
-/

namespace LinuxDoc.GadgetHid

open Foundations

def isHat (tok : Token) : Bool :=
  "--hat".toList.isPrefixOf tok

def hatValue (tok : Token) : Option (BitVec 8) :=
  if isHat tok then jmod.lookup tok else none

def buttonValue (tok : Token) : Option (BitVec 8) :=
  if isHat tok then none else jmod.lookup tok

def namedButtons (tokens : List Token) : BitVec 8 :=
  (tokens.filterMap buttonValue).foldl (· ||| ·) 0

def lastHat (tokens : List Token) : Option (BitVec 8) :=
  (tokens.filterMap hatValue).getLast?

def lastOption (tokens : List Token) : Option Token :=
  (tokens.filter fun tok => (jmod.lookup tok).isSome).getLast?

def JoystickWord (long : LongBits) (tok : Token) : Prop :=
  (jmod.lookup tok).isSome ∨ isOption tok = false ∧ (strtol long tok).2 = false

instance JoystickWord.decidable (long : LongBits) (tok : Token)
    : Decidable (JoystickWord long tok) :=
  inferInstanceAs (Decidable (_ ∨ _))

/-- The byte holds the buttons named in its high half, and in its low half the hat named last,
or the neutral one.
-/
structure OwnBits (tokens : List Token) (byte : BitVec 8) : Prop where
  buttons : byte &&& 0xF0 = namedButtons tokens
  hat : byte &&& 0x0F = (lastHat tokens).getD 0x04

theorem mem_jmod {tok : Token} {val : BitVec 8} (found : jmod.lookup tok = some val)
    : (tok, val) ∈ jmod := by
  obtain ⟨before, after, listed, -⟩ := List.lookup_eq_some_iff.mp found
  simp [listed]

/-- A button has bits in the high half only, a hat in the low half. -/
theorem jmod_halves {tok : Token} {val : BitVec 8} (found : jmod.lookup tok = some val)
    : if isHat tok then val &&& 0xF0 = 0 ∧ val &&& 0x0F = val
      else val &&& 0xF0 = val ∧ val &&& 0x0F = 0 := by
  have all : jmod.all (fun option => decide (
      if isHat option.1 then option.2 &&& 0xF0 = 0 ∧ option.2 &&& 0x0F = option.2
      else option.2 &&& 0xF0 = option.2 ∧ option.2 &&& 0x0F = 0)) = true := by
    decide
  exact of_decide_eq_true (List.all_eq_true.mp all _ (mem_jmod found))

variable {long : LongBits}

theorem quit_not_word : ¬ JoystickWord long quit := by
  intro word
  rcases word with named | number
  · exact absurd named (by decide)
  · exact absurd number.1 (by decide)

def maskOption (byte : BitVec 8) (tok : Token) : BitVec 8 :=
  match jmod.lookup tok with
  | some val => byte &&& 0xF0 ||| val
  | none => byte

/-- Numbers are stored in front of the byte. -/
theorem joystickToken_byte {tok : Token} (word : JoystickWord long tok) (s : Fill)
    : (joystickToken long s tok).report 3 = maskOption (s.report 3) tok := by
  rw [joystickToken, maskOption]
  cases found : jmod.lookup tok with
  | some val => simp
  | none =>
      have number : isOption tok = false ∧ (strtol long tok).2 = false :=
        word.resolve_left (by simp [found])
      dsimp only
      split
      next room =>
        have before : 3 ≠ 0 + s.mvt := by omega
        rw [storeNumber_accepted 0 s number.2]
        exact Function.update_of_ne before _ _
      · rfl

theorem foldl_joystickToken_byte {tokens : List Token}
    (words : ∀ tok ∈ tokens, JoystickWord long tok) (s : Fill)
    : (tokens.foldl (joystickToken long) s).report 3 = tokens.foldl maskOption (s.report 3) := by
  induction tokens generalizing s with
  | nil => rfl
  | cons tok rest ih =>
      rw [List.forall_mem_cons] at words
      rw [List.foldl_cons, List.foldl_cons, ih words.2, joystickToken_byte words.1]

/-- The high half collects the buttons, whatever the hats between them. -/
theorem maskOptions_buttons (tokens : List Token)
    : tokens.foldl maskOption 0x04 &&& 0xF0 = namedButtons tokens := by
  induction tokens using List.reverseRecOn with
  | nil => rfl
  | append_singleton tokens tok ih =>
      rw [List.foldl_append, namedButtons, List.filterMap_append, List.foldl_append,
        ← namedButtons, ← ih, List.foldl_cons, List.foldl_nil, maskOption]
      generalize tokens.foldl maskOption 0x04 = byte
      cases found : jmod.lookup tok with
      | none => simp [buttonValue, found]
      | some val =>
          have halves := jmod_halves found
          dsimp only
          rw [BitVec.and_or_distrib_right, BitVec.and_assoc, BitVec.and_self]
          split at halves
          next hat =>
            rw [halves.1]
            simp [buttonValue, hat]
          next button =>
            rw [halves.1]
            simp [buttonValue, button, found]

/-- The low half is the last option's, and a button's is empty. -/
theorem maskOptions_hat (tokens : List Token)
    : tokens.foldl maskOption 0x04 &&& 0x0F
      = match lastOption tokens with
        | none => 0x04
        | some tok => (hatValue tok).getD 0 := by
  induction tokens using List.reverseRecOn with
  | nil => rfl
  | append_singleton tokens tok ih =>
      rw [List.foldl_append, lastOption, List.filter_append, List.foldl_cons, List.foldl_nil,
        maskOption]
      cases found : jmod.lookup tok with
      | none => simpa [found, lastOption] using ih
      | some val =>
          have halves := jmod_halves found
          have apart : (0xF0 &&& 0x0F : BitVec 8) = 0 := by decide
          dsimp only
          rw [BitVec.and_or_distrib_right, BitVec.and_assoc, apart]
          split at halves
          next hat =>
            rw [halves.2]
            simp [found, hatValue, hat]
          next button =>
            rw [halves.2]
            simp [found, hatValue, button]

/-- Without options there is no hat, and a hat that comes last is the last hat. -/
theorem lastHat_of_lastOption (tokens : List Token)
    : match lastOption tokens with
      | none => lastHat tokens = none
      | some tok => (jmod.lookup tok).isSome
        ∧ (isHat tok = true → lastHat tokens = jmod.lookup tok) := by
  induction tokens using List.reverseRecOn with
  | nil => rfl
  | append_singleton tokens tok ih =>
      cases found : jmod.lookup tok with
      | none =>
          have sameOption : lastOption (tokens ++ [tok]) = lastOption tokens := by
            simp [lastOption, found]
          have sameHat : lastHat (tokens ++ [tok]) = lastHat tokens := by
            simp [lastHat, hatValue, found]
          rw [sameOption, sameHat]
          exact ih
      | some val =>
          have last : lastOption (tokens ++ [tok]) = some tok := by
            simp [lastOption, found]
          rw [last]
          refine ⟨by simp [found], ?_⟩
          intro hat
          simp [lastHat, hatValue, found, hat]

/-- The report of the joystick has the buttons and the hat that were named exactly if no option was
named, or a hat was the last one, or the last hat is `--hat1`, whose value a button leaves as well.
The options are masks on one byte, whose buttons and whose hat are followed by induction on the
words.
-/
theorem joystickFillReport_ownBits_iff (long : LongBits) (buf : List Char)
    (words : ∀ tok ∈ strtok buf, JoystickWord long tok)
    : OwnBits (strtok buf) ((joystickFillReport long buf .cleared).2.report 3)
      ↔ ∀ tok, lastOption (strtok buf) = some tok →
          isHat tok = true ∨ lastHat (strtok buf) = some 0 := by
  have stays : processed (strtok buf) = strtok buf := by
    refine List.takeWhile_eq_self_iff.mpr fun tok member => ?_
    have word := words tok member
    by_contra quits
    obtain rfl : tok = quit := by simpa using quits
    exact absurd word quit_not_word
  have byte : (joystickFillReport long buf .cleared).2.report 3
      = (strtok buf).foldl maskOption 0x04 := by
    rw [joystickFillReport, fillTokens_eq, stays, foldl_joystickToken_byte words]
    simp [joystickStart]
  have related := lastHat_of_lastOption (strtok buf)
  have low := maskOptions_hat (strtok buf)
  have buttons := maskOptions_buttons (strtok buf)
  have onlyHat : OwnBits (strtok buf) ((strtok buf).foldl maskOption 0x04)
      ↔ (strtok buf).foldl maskOption 0x04 &&& 0x0F = (lastHat (strtok buf)).getD 0x04 :=
    ⟨fun own => own.hat, fun hat => ⟨buttons, hat⟩⟩
  rw [byte, onlyHat, low]
  cases last : lastOption (strtok buf) with
  | none =>
      rw [last] at related
      simp [related]
  | some tok =>
      rw [last] at related
      obtain ⟨named, isLast⟩ := related
      obtain ⟨val, found⟩ := Option.isSome_iff_exists.mp named
      by_cases hat : isHat tok = true
      · simp [isLast hat, found, hatValue, hat]
      · have empty : (hatValue tok).getD 0 = 0 := by simp [hatValue, hat]
        simp only [empty]
        cases lastHat (strtok buf) with
        | none => simp [hat]
        | some other =>
            simp only [Option.getD_some, Option.some.injEq, forall_eq', hat, Bool.false_eq_true,
              false_or]
            exact eq_comm

/-- A number, a hat and a button before it. -/
theorem buttonThenHat_ownBits
    : OwnBits (strtok "--b2 10 --hat3".toList)
        ((joystickFillReport .bits64 "--b2 10 --hat3".toList .cleared).2.report 3) := by
  refine (joystickFillReport_ownBits_iff .bits64 _ (by decide)).mpr ?_
  intro tok last
  have hat : lastOption (strtok "--b2 10 --hat3".toList) = some "--hat3".toList := by
    decide
  obtain rfl := Option.some.inj (last.symm.trans hat)
  exact .inl (by decide)

/-- A button alone makes the neutral hat the first position. -/
theorem buttonAlone_moves_hat
    : (joystickFillReport .bits64 "--b1".toList .cleared).2.report 3 = 0x10
      ∧ ¬ OwnBits (strtok "--b1".toList) 0x10 := by
  refine ⟨by decide, ?_⟩
  intro own
  exact absurd own.hat (by decide)

end LinuxDoc.GadgetHid
