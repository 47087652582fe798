import Mathlib.Algebra.GroupWithZero.Nat
import Mathlib.Algebra.Ring.Int.Defs

/-! The conversion of text to a number by `strtol` with base 0.
A number that does not fit is an error, and the nearest one is returned.
-/

namespace Foundations

inductive LongBits where
  | bits32
  | bits64
  deriving DecidableEq

namespace LongBits

def longMin : LongBits → Int
  | .bits32 => -2 ^ 31
  | .bits64 => -2 ^ 63

def longMax : LongBits → Int
  | .bits32 => 2 ^ 31 - 1
  | .bits64 => 2 ^ 63 - 1

end LongBits

def isSpace (c : Char) : Bool :=
  c = ' ' ∨ c = '\t' ∨ c = '\n' ∨ c = '\x0b' ∨ c = '\x0c' ∨ c = '\r'

/-- The value of a digit or letter, if it is a digit of the base. -/
def digitValue (base : Nat) (c : Char) : Option Nat :=
  let value :=
    if '0' ≤ c ∧ c ≤ '9' then c.toNat - 48
    else if 'a' ≤ c ∧ c ≤ 'z' then c.toNat - 87
    else if 'A' ≤ c ∧ c ≤ 'Z' then c.toNat - 55
    else base
  if value < base then some value else none

def numeralValue (base : Nat) : List Char → Nat → Nat
  | [], before => before
  | c :: rest, before =>
      match digitValue base c with
      | some digit => numeralValue base rest (before * base + digit)
      | none => before

/-- A numeral without its sign; its beginning says which base it has. -/
def magnitude : List Char → Nat
  | '0' :: x :: rest =>
      if (x = 'x' ∨ x = 'X') ∧ (rest.head?.bind (digitValue 16)).isSome then numeralValue 16 rest 0
      else numeralValue 8 (x :: rest) 0
  | text => numeralValue 10 text 0

def signedValue (text : List Char) : Int :=
  match text.dropWhile isSpace with
  | '-' :: rest => -(magnitude rest : Int)
  | '+' :: rest => magnitude rest
  | rest => magnitude rest

/-- `strtol(text, NULL, 0)`: its result, and whether it sets `errno`. -/
def strtol (long : LongBits) (text : List Char) : Int × Bool :=
  if signedValue text < long.longMin then (long.longMin, true)
  else if signedValue text > long.longMax then (long.longMax, true)
  else (signedValue text, false)

/-- What is rejected is a number below or above the range. -/
theorem strtol_rejected {long : LongBits} {text : List Char}
    (rejected : (strtol long text).2 = true)
    : (strtol long text).1 = long.longMin ∨ (strtol long text).1 = long.longMax := by
  unfold strtol at rejected ⊢
  split at rejected
  next below => exact .inl (by rw [if_pos below])
  next notBelow =>
    split at rejected
    next above => exact .inr (by rw [if_neg notBelow, if_pos above])
    · cases rejected

/-- The lowest number has a last byte of zeros. -/
theorem ofInt_longMin (long : LongBits) : BitVec.ofInt 8 long.longMin = 0#8 := by
  cases long <;> decide

theorem ofInt_longMax (long : LongBits) : BitVec.ofInt 8 long.longMax = 0xff#8 := by
  cases long <;> decide

end Foundations
