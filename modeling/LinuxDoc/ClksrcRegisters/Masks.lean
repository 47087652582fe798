import LinuxDoc.ClksrcRegisters.Script
import LinuxDoc.Foundations.Bytes
import LinuxDoc.Foundations.Strtol

/-! Register headers with their masks and clock initialisers that use them, and what
`clksrc-change-registers.awk` makes of them.
-/

namespace LinuxDoc.ClksrcRegisters

open Foundations

def isNameChar (c : Char) : Bool :=
  c.isAlphanum ∨ c = '_'

/-- A definition `#define NAME_MASK (0xM<<S)`, where M is a hexadecimal numeral for
2^width - 1 and S a numeral.
-/
structure MaskDefinition where
  firstGap : Text
  secondGap : Text
  gaps : (firstGap ≠ [] ∧ ∀ c ∈ firstGap, isBlank c) ∧ secondGap ≠ [] ∧ ∀ c ∈ secondGap, isBlank c
  name : Text
  name_chars : ∀ c ∈ name, isNameChar c
  name_mask : "_MASK".toList <:+ name
  digits : Text
  hexadecimal : ∀ c ∈ digits, (digitValue 16 c).isSome
  width : Nat
  width_pos : 1 ≤ width
  value_eq : numeralValue 16 digits 0 = 2 ^ width - 1
  shift : Text
  shift_chars : ∀ c ∈ shift, c.isAlphanum

namespace MaskDefinition

variable (d : MaskDefinition)

def mask : Text :=
  "0x".toList ++ (d.digits ++ ("<<".toList ++ d.shift))

def line : Text :=
  "#define".toList ++ (d.firstGap ++ (d.name ++ (d.secondGap ++ ('(' :: (d.mask ++ [')'])))))

end MaskDefinition

inductive HeaderLine where
  | mask (d : MaskDefinition)
  | other (text : Text)
      (notMask : matchesInOrder ["#define".toList, "_MASK".toList] text = false)

def HeaderLine.text : HeaderLine → Text
  | .mask d => d.line
  | .other text _ => text

def definition (name : Text) : List HeaderLine → Option MaskDefinition
  | [] => none
  | .mask d :: rest => (definition name rest).or (if d.name = name then some d else none)
  | .other _ _ :: rest => definition name rest

inductive Field where
  | shift
  | mask
  | regDivider
  | regSource
  | dividerShift
  deriving DecidableEq

def Field.pattern : Field → Text
  | .shift => ".shift".toList
  | .mask => ".mask".toList
  | .regDivider => ".reg_divider".toList
  | .regSource => ".reg_source".toList
  | .dividerShift => ".divider_shift".toList

def NoField (text : Text) : Prop :=
  ∀ field : Field, ¬ field.pattern <:+: text

structure FieldLine where
  field : Field
  front : Text
  front_free : '=' ∉ front ∧ ',' ∉ front
  value : Text
  value_chars : ∀ c ∈ value, isNameChar c
  back : Text
  named : field.pattern <:+: front ++ ("= ".toList ++ (value ++ ',' :: back))
  only : ∀ other : Field, other.pattern <:+: front ++ ("= ".toList ++ (value ++ ',' :: back)) →
    other = field

def FieldLine.text (f : FieldLine) : Text :=
  f.front ++ ("= ".toList ++ (f.value ++ ',' :: f.back))

inductive BodyLine where
  | field (f : FieldLine)
  | opens (text : Text) (noField : NoField text) (brace : '{' ∈ text) (notCloses : '}' ∉ text)
  | closes (text : Text) (noField : NoField text) (notOpens : '{' ∉ text) (brace : '}' ∈ text)
  | other (text : Text) (noField : NoField text) (notOpens : '{' ∉ text) (notCloses : '}' ∉ text)

def BodyLine.text : BodyLine → Text
  | .field f => f.text
  | .opens text _ _ _ => text
  | .closes text _ _ _ => text
  | .other text _ _ _ => text

def depth : Nat → List BodyLine → Option Nat
  | n, [] => some n
  | n, .opens _ _ _ _ :: rest => depth (n + 1) rest
  | n, .closes _ _ _ _ :: rest => if n ≤ 1 then none else depth (n - 1) rest
  | n, .field _ :: rest => depth n rest
  | n, .other _ _ _ _ :: rest => depth n rest

def fieldsOf (body : List BodyLine) : List FieldLine :=
  body.filterMap fun
    | .field f => some f
    | _ => none

def valueFrom (field : Field) (value : Text) (fields : List FieldLine) : Text :=
  fields.foldl (fun value f => if f.field = field then f.value else value) value

def valueOf (field : Field) (fields : List FieldLine) : Text :=
  valueFrom field [] fields

def copiedLines (body : List BodyLine) : List OutLine :=
  body.flatMap fun
    | .field _ => []
    | line => [.copied line.text]

def dividerMask (clock : List FieldLine) : Text :=
  sub (valueOf .regSource clock) (valueOf .regDivider clock) (valueOf .mask clock)

def clockRegisters (dmask : Dmask) (clock : List FieldLine) : List OutLine :=
  (if valueOf .regDivider clock = [] then []
    else [.register .regDiv (valueOf .regDivider clock) (dmask (dividerMask clock))])
    ++ [.register .regSrc (valueOf .regSource clock) (dmask (valueOf .mask clock))]

/-- Some lines as they are to be translated, inside braces of which the fields so far are given,
the innermost first. Fields directly inside a pair of braces are those of one clock: its registers
take their place before the braces are closed.
-/
def translateLines (dmask : Dmask) : List (List FieldLine) → List BodyLine → List OutLine
  | _, [] => []
  | clocks, .opens text _ _ _ :: rest =>
      .copied text :: translateLines dmask ([] :: clocks) rest
  | [], .closes text _ _ _ :: rest => .copied text :: translateLines dmask [] rest
  | clock :: outer, .closes text _ _ _ :: rest =>
      (if clock = [] then [] else clockRegisters dmask clock)
        ++ .copied text :: translateLines dmask outer rest
  | [], .field _ :: rest => translateLines dmask [] rest
  | clock :: outer, .field f :: rest => translateLines dmask ((clock ++ [f]) :: outer) rest
  | clocks, .other text _ _ _ :: rest => .copied text :: translateLines dmask clocks rest

/-- An initialiser of one clock or of an array of clocks that uses a mask, with one field or one
brace to a line.
-/
structure Initialiser where
  opening : Text
  opening_clksrc : isClksrc opening = true
  body : List BodyLine
  nested : depth 1 body = some 1
  uses : ∃ f ∈ fieldsOf body, f.field = .mask
  closing : Text
  closing_noField : NoField closing
  closing_brace : '{' ∉ closing ∧ '}' ∈ closing

namespace Initialiser

variable (i : Initialiser)

def lines : List Text :=
  i.opening :: (i.body.map BodyLine.text ++ [i.closing])

/-- The names of masks that are used, with all fields taken for those of one clock. -/
def usedMasks : List Text :=
  valueOf .mask (fieldsOf i.body)
    :: if valueOf .regDivider (fieldsOf i.body) = [] then [] else [dividerMask (fieldsOf i.body)]

def closingLine : BodyLine :=
  .closes i.closing i.closing_noField i.closing_brace.1 i.closing_brace.2

def output (dmask : Dmask) : List OutLine :=
  .copied i.opening :: translateLines dmask [[]] (i.body ++ [i.closingLine])

end Initialiser

/-- All fields are directly inside the outer braces, at the depth 1: these are the fields of one
clock, and not of several in an array.
-/
def OneClock : Nat → List BodyLine → Prop
  | _, [] => True
  | n, .opens _ _ _ _ :: rest => OneClock (n + 1) rest
  | n, .closes _ _ _ _ :: rest => OneClock (n - 1) rest
  | n, .field _ :: rest => n = 1 ∧ OneClock n rest
  | n, .other _ _ _ _ :: rest => OneClock n rest

inductive Item where
  | initialiser (i : Initialiser)
  | other (line : Text) (plain : isClksrc line = false)

def Item.lines : Item → List Text
  | .initialiser i => i.lines
  | .other line _ => [line]

def Item.output (dmask : Dmask) : Item → List OutLine
  | .initialiser i => i.output dmask
  | .other line _ => [.copied line]

def usedMasks (items : List Item) : List Text :=
  items.flatMap fun
    | .initialiser i => i.usedMasks
    | .other _ _ => []

def trueMasks (header : List HeaderLine) : Dmask :=
  fun name => (definition name header).map fun d => (d.width, d.shift)

/-- The masks of an input are translated faithfully, or the script stops with an error. -/
def Translates (header : List HeaderLine) (items : List Item) : Prop :=
  script (header.map HeaderLine.text) (items.flatMap Item.lines)
      = { printed := items.flatMap (Item.output (trueMasks header)), failure := none }
    ∨ ∃ failure, script (header.map HeaderLine.text) (items.flatMap Item.lines)
      = { printed := [], failure := some failure }

end LinuxDoc.ClksrcRegisters
