import LinuxDoc.Foundations.CaptureRegex
import LinuxDoc.TracePostprocess.EventRegex.Script

/-! Print formats of tracepoints with expected and additional fields, the lines that are printed
with them, and what the expression for a format is to capture.
-/

namespace LinuxDoc.TracePostprocess.EventRegex

open Foundations

def isNameChar (c : Char) : Bool :=
  c.isAlphanum ∨ c = '_'

/-- A character of a conversion: flags, width, precision, length and the letter itself. -/
def isSpecChar (c : Char) : Bool :=
  c.isAlphanum ∨ c = '-' ∨ c = '#' ∨ c = '.'

def specs : List Text :=
  [['s'], ['p'], ['d'], ['l', 'd'], ['l', 'u']]

/-- The conversions of `printf`: those that one of the scripts replaces, a pointer with an
extension such as `%pK`, and all others.
-/
inductive Conversion where
  | string
  | pointer
  | int
  | long
  | unsignedLong
  | extended (first : Char) (extension : Text) (letter : first.isAlpha = true)
      (chars : ∀ c ∈ extension, c.isAlphanum = true)
  | other (spec : Text) (chars : ∀ c ∈ spec, isSpecChar c = true)
      (unknown : ∀ known ∈ specs, ¬ known <+: spec)

namespace Conversion

def text : Conversion → Text
  | string => "%s".toList
  | pointer => "%p".toList
  | int => "%d".toList
  | long => "%ld".toList
  | unsignedLong => "%lu".toList
  | extended first extension _ _ => "%p".toList ++ first :: extension
  | other spec _ _ => '%' :: spec

/-- The characters that a conversion can print: of a number all of them, of a text those of names
and flags.
-/
def prints : Conversion → Char → Bool
  | string, c => c.isAlphanum ∨ c = '|' ∨ c = '_'
  | pointer, c => c.isDigit ∨ 'a' ≤ c ∧ c ≤ 'f'
  | int, c => c.isDigit ∨ c = '-'
  | long, c => c.isDigit ∨ c = '-'
  | unsignedLong, c => c.isDigit
  | extended _ _ _ _, c => c.isAlphanum
  | other _ _ _, c => c.isAlphanum

def isNumber : Conversion → Bool
  | int | long | unsignedLong => true
  | _ => false

end Conversion

/-- A field of a print format, and whether the script expects it. The texts that are printed for it
may have further characters, such as the dash in the name of a command or the parentheses of a
null pointer.
-/
structure Field where
  name : Text
  name_chars : ∀ c ∈ name, isNameChar c = true
  name_nonempty : name ≠ []
  conversion : Conversion
  further : Char → Bool
  expected : Bool

/-- The characters in the values of a field: any but blanks, if it is not a number. -/
def Field.prints (f : Field) (c : Char) : Bool :=
  f.conversion.prints c || (!f.conversion.isNumber && f.further c && c ≠ ' ')

def formatText (fields : List Field) : Text :=
  [' '].intercalate (fields.map fun f => f.name ++ '=' :: f.conversion.text)

def expectedNames (fields : List Field) : List Text :=
  (fields.filter Field.expected).map Field.name

/-- The arguments behind the format are not taken for a part of it. -/
def PlainArguments : Script → Text → Prop
  | .vmscan, arguments => '"' ∉ cutArguments arguments
  | .pageAlloc, arguments => '"' ∉ arguments ∧ [','] <+: arguments

/-- A format file with the print format of these fields. -/
structure FormatFile (script : Script) (fields : List Field) where
  before : List Text
  after : List Text
  others : ∀ line ∈ before ++ after, ¬ "print fmt:".toList <+: line
  arguments : Text
  plain : PlainArguments script arguments

def FormatFile.lines {script : Script} {fields : List Field} (file : FormatFile script fields)
    : List Text :=
  file.before
    ++ ("print fmt: \"".toList ++ (formatText fields ++ '"' :: file.arguments)) :: file.after

structure PrintedField where
  field : Field
  value : Text
  printed : ∀ c ∈ value, field.prints c = true

def eventLine (event : List PrintedField) : Text :=
  [' '].intercalate (event.map fun p => p.field.name ++ '=' :: p.value)

/-- For each event of the format, the groups are the values of the expected fields in order. -/
def CapturesExpected (fields : List Field) (regex : Text) : Prop :=
  ∀ event : List PrintedField, event.map PrintedField.field = fields →
    CaptureRegex.capture regex (eventLine event)
      = some ((event.filter (·.field.expected)).map PrintedField.value)

/-- The function returns an expression that captures the expected fields and no others. -/
def SkipsCleanly {script : Script} {fields : List Field} (file : FormatFile script fields)
    (event default : Text) : Prop :=
  ∃ regex, (generateTraceeventRegex script event default (some file.lines)
      (expectedNames fields)).outcome = .ok regex
    ∧ CapturesExpected fields regex

end LinuxDoc.TracePostprocess.EventRegex
