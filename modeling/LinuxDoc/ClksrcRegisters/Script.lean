import LinuxDoc.Foundations.TextEdit
import Mathlib.Logic.Function.Basic

/-! The script `clksrc-change-registers.awk`, which puts the masks of a register header into
clock initialisers as sizes and shifts. Files are lists of lines.
-/

namespace LinuxDoc.ClksrcRegisters

open Foundations

abbrev Text := List Char

/-- `index(s, c)`: positions are counted from 1, and 0 is none. -/
def index (s : Text) (c : Char) : Nat :=
  match firstOccurrence [c] s with
  | some i => i + 1
  | none => 0

def substr (s : Text) (start count : Nat) : Text :=
  (s.drop (start - 1)).take count

def extractValue (s : Text) : Text :=
  let eqat := index s '='
  let comat := index s ','
  substr s (eqat + 2) (comat - eqat - 2)

def removeBrackets (b : Text) : Text :=
  substr b 2 (b.length - 2)

def isBlank (c : Char) : Bool :=
  c = ' ' ∨ c = '\t'

def splitFrom : Text → Text → List Text
  | word, [] => if word = [] then [] else [word]
  | word, c :: rest =>
      if isBlank c then (if word = [] then [] else [word]) ++ splitFrom [] rest
      else splitFrom (word ++ [c]) rest

def split (l : Text) : List Text :=
  splitFrom [] l

def splitdefine (l : Text) : Text × Text :=
  let tp := split l
  (tp.getD 1 [], removeBrackets (tp.getD 2 []))

inductive Failure where
  | unknownLength (f : Text)
  | cannotFindShift (s : Text)
  | unexpectedEnd
  deriving DecidableEq

/-- `find_length`: the patterns `/0x1/`, `/0x3/`, `/0x7/` and `/0xf/` are tried in turn. -/
def findLength (f : Text) : Except Failure Nat :=
  if "0x1".toList <:+: f then .ok 1
  else if "0x3".toList <:+: f then .ok 2
  else if "0x7".toList <:+: f then .ok 3
  else if "0xf".toList <:+: f then .ok 4
  else .error (.unknownLength f)

def findShift (s : Text) : Except Failure Text :=
  let id := index s '<'
  if id ≤ 0 then .error (.cannotFindShift s)
  else .ok (s.drop (id + 1))

/-- `dmask[name,0]` and `dmask[name,1]`, for the names that have been stored. -/
abbrev Dmask := Text → Option (Nat × Text)

/-- Patterns with anything between them, as in `/\#define.*_MASK/`. -/
def matchesInOrder : List Text → Text → Bool
  | [], _ => true
  | pattern :: later, line =>
      match firstOccurrence pattern line with
      | some i => matchesInOrder later (line.drop (i + pattern.length))
      | none => false

def headerLine (dmask : Dmask) (line : Text) : Except Failure Dmask :=
  if matchesInOrder ["#define".toList, "_MASK".toList] line
      ∧ ¬ "USB_SIG_MASK".toList <:+: line then do
    let fields := splitdefine line
    let length ← findLength fields.2
    let shift ← findShift fields.2
    return Function.update dmask fields.1 (some (length, shift))
  else .ok dmask

def readHeader : Dmask → List Text → Except Failure Dmask
  | dmask, [] => .ok dmask
  | dmask, line :: rest => do
      let dmask ← headerLine dmask line
      readHeader dmask rest

inductive Register where
  | regDiv
  | regSrc
  deriving DecidableEq

/-- A line of the output. A register is printed as
`.reg_src = { .reg = REG, .shift = SHIFT, .size = SIZE, },`; shift and size are empty for a
name that is not in `dmask`.
-/
inductive OutLine where
  | copied (line : Text)
  | register (register : Register) (reg : Text) (shiftAndSize : Option (Nat × Text))
  deriving DecidableEq

structure Block where
  shift : Text
  mask : Text
  divshift : Text
  regDiv : Text
  regSrc : Text
  indent : Nat

def Block.start : Block :=
  { shift := [], mask := [], divshift := [], regDiv := [], regSrc := [], indent := 1 }

def sub (pattern replacement text : Text) : Text :=
  match firstOccurrence pattern text with
  | some i => text.take i ++ replacement ++ text.drop (i + pattern.length)
  | none => text

def registers (dmask : Dmask) (b : Block) : List OutLine :=
  let generated := sub b.regSrc b.regDiv b.mask
  (if b.regDiv ≠ [] then [.register .regDiv b.regDiv (dmask generated)] else [])
    ++ [.register .regSrc b.regSrc (dmask b.mask)]

def blockLine (dmask : Dmask) (b : Block) (line : Text) : Block × List OutLine :=
  if ".shift".toList <:+: line then ({ b with shift := extractValue line }, [])
  else if ".mask".toList <:+: line then ({ b with mask := extractValue line }, [])
  else if ".reg_divider".toList <:+: line then ({ b with regDiv := extractValue line }, [])
  else if ".reg_source".toList <:+: line then ({ b with regSrc := extractValue line }, [])
  else if ".divider_shift".toList <:+: line then ({ b with divshift := extractValue line }, [])
  else if '{' ∈ line then ({ b with indent := b.indent + 1 }, [.copied line])
  else if '}' ∈ line then
    let b := { b with indent := b.indent - 1 }
    (b, (if b.indent = 0 then registers dmask b else []) ++ [.copied line])
  else (b, [.copied line])

/-- `/clksrc_clk.*=.*{/` -/
def isClksrc (line : Text) : Bool :=
  matchesInOrder ["clksrc_clk".toList, ['='], ['{']] line

structure Result where
  printed : List OutLine
  failure : Option Failure
  deriving DecidableEq

def Result.after (printed : List OutLine) (result : Result) : Result :=
  { result with printed := printed ++ result.printed }

def processLines (dmask : Dmask) : Option Block → List Text → Result
  | none, [] => { printed := [], failure := none }
  | some _, [] => { printed := [], failure := some .unexpectedEnd }
  | none, line :: rest =>
      (processLines dmask (if isClksrc line then some .start else none) rest).after [.copied line]
  | some b, line :: rest =>
      let next := blockLine dmask b line
      (processLines dmask (if next.1.indent ≥ 1 then some next.1 else none) rest).after next.2

def script (header input : List Text) : Result :=
  match readHeader (fun _ => none) header with
  | .error failure => { printed := [], failure := some failure }
  | .ok dmask => processLines dmask none input

end LinuxDoc.ClksrcRegisters
