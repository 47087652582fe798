import Mathlib.Logic.Function.Basic
import LinuxDoc.Foundations.Runs
import LinuxDoc.Foundations.Strtol

/-! How the HID gadget test program fills the report of a mouse or a joystick from a line.
Numbers are stored in the order they come; one that is rejected is meant to be taken back.
-/

namespace LinuxDoc.GadgetHid

open Foundations

abbrev Token := List Char

structure Fill where
  report : Nat → BitVec 8
  mvt : Nat
  hold : Bool

def Fill.cleared : Fill :=
  ⟨fun _ => 0, 0, false⟩

def strtok (buf : List Char) : List Token :=
  (buf.splitOnP (· == ' ')).filter (!·.isEmpty)

def quit : Token := "--quit".toList

def isOption (tok : Token) : Bool :=
  "--".toList.isPrefixOf tok

def mmod : List (Token × BitVec 8) :=
  [("--b1".toList, 0x01), ("--b2".toList, 0x02), ("--b3".toList, 0x04)]

def jmod : List (Token × BitVec 8) :=
  [
    ("--b1".toList, 0x10), ("--b2".toList, 0x20), ("--b3".toList, 0x40), ("--b4".toList, 0x80),
    ("--hat1".toList, 0x00), ("--hat2".toList, 0x01), ("--hat3".toList, 0x02),
    ("--hat4".toList, 0x03), ("--hatneutral".toList, 0x04)
  ]

section Tokens

variable (long : LongBits)

/-- The branch for a number, where the numbers begin at `report[first]`. A rejected one is
stored and counted first; then a byte is cleared, and the count goes back.
-/
def storeNumber (first : Nat) (tok : Token) (s : Fill) : Fill :=
  let (value, errno) := strtol long tok
  let stored := { s with
    report := Function.update s.report (first + s.mvt) (BitVec.ofInt 8 value)
    mvt := s.mvt + 1 }
  if errno then
    { stored with
      report := Function.update stored.report (first + stored.mvt) 0
      mvt := stored.mvt - 1 }
  else stored

def mouseToken (s : Fill) (tok : Token) : Fill :=
  if tok = "--hold".toList then { s with hold := true }
  else
    match mmod.lookup tok with
    | some val => { s with report := Function.update s.report 0 (s.report 0 ||| val) }
    | none => if isOption tok = false ∧ s.mvt < 2 then storeNumber long 1 tok s else s

def joystickToken (s : Fill) (tok : Token) : Fill :=
  match jmod.lookup tok with
  | some val => { s with report := Function.update s.report 3 (s.report 3 &&& 0xF0 ||| val) }
  | none => if isOption tok = false ∧ s.mvt < 3 then storeNumber long 0 tok s else s

def fillTokens (body : Fill → Token → Fill) (size : Int) : List Token → Fill → Int × Fill
  | [], s => (size, s)
  | tok :: rest, s => if tok = quit then (-1, s) else fillTokens body size rest (body s tok)

def mouseFillReport (buf : List Char) (s : Fill) : Int × Fill :=
  fillTokens (mouseToken long) 3 (strtok buf) s

def joystickStart (s : Fill) : Fill :=
  { s with report := Function.update s.report 3 0x04, hold := true }

def joystickFillReport (buf : List Char) (s : Fill) : Int × Fill :=
  fillTokens (joystickToken long) 4 (strtok buf) (joystickStart s)

end Tokens

section Numbers

variable {long : LongBits} {tok : Token} (first : Nat) (s : Fill)

theorem storeNumber_accepted (accepted : (strtol long tok).2 = false)
    : storeNumber long first tok s
      = { s with
          report := Function.update s.report (first + s.mvt) (BitVec.ofInt 8 (strtol long tok).1)
          mvt := s.mvt + 1 } := by
  simp [storeNumber, accepted]

/-- What is cleared is not what was stored, but the byte behind it. -/
theorem storeNumber_rejected (rejected : (strtol long tok).2 = true)
    : storeNumber long first tok s
      = { s with
          report := Function.update
            (Function.update s.report (first + s.mvt) (BitVec.ofInt 8 (strtol long tok).1))
            (first + s.mvt + 1) 0 } := by
  simp [storeNumber, rejected, Nat.add_assoc]

end Numbers

def processed (tokens : List Token) : List Token :=
  tokens.takeWhile (· ≠ quit)

theorem fillTokens_eq (body : Fill → Token → Fill) (size : Int) (tokens : List Token) (s : Fill)
    : fillTokens body size tokens s
      = (if quit ∈ tokens then -1 else size, (processed tokens).foldl body s) := by
  induction tokens generalizing s with
  | nil => rfl
  | cons tok rest ih =>
      rw [fillTokens]
      by_cases quits : tok = quit
      · simp [processed, quits]
      · simp [processed, quits, ih, Ne.symm quits]

end LinuxDoc.GadgetHid
