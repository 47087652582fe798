import LinuxDoc.Foundations.Strtol
import LinuxDoc.Foundations.TextEdit
import Mathlib.Data.List.DropRight

/-! `generate_traceevent_regex`, which makes a regular expression of the print format of a
tracepoint, in the two post-processing scripts that have it. Files are lists of lines.
-/

namespace LinuxDoc.TracePostprocess.EventRegex

open Foundations

abbrev Text := List Char

inductive Script where
  | vmscan
  | pageAlloc
  deriving DecidableEq

def Script.conversions : Script → List (Text × Text)
  | .vmscan =>
      [("%s".toList, "([0-9a-zA-Z|_]*)".toList),
        ("%p".toList, "([0-9a-f]*)".toList),
        ("%d".toList, "([-0-9]*)".toList),
        ("%ld".toList, "([-0-9]*)".toList),
        ("%lu".toList, "([0-9]*)".toList)]
  | .pageAlloc =>
      [("%p".toList, "([0-9a-f]*)".toList),
        ("%d".toList, "([-0-9]*)".toList),
        ("%lu".toList, "([0-9]*)".toList)]

/-- `s/%s/\([0-9a-zA-Z|_]*\)/g` and so on -/
def replaceConversions (conversions : List (Text × Text)) (text : Text) : Text :=
  conversions.foldl (fun text c => replaceAll c.1 c.2 text) text

/-- `s/, REC->.*//` -/
def cutArguments (line : Text) : Text :=
  match firstOccurrence ", REC->".toList line with
  | some i => line.take i
  | none => line

def Script.formatEnd : Script → Text
  | .vmscan => ['"']
  | .pageAlloc => ['"', ',']

/-- `/^print fmt:\s"(.*)".*/`, or with a comma behind the second quote -/
def quotedFormat (formatEnd line : Text) : Option Text :=
  if "print fmt:".toList <+: line then
    match line.drop "print fmt:".toList.length with
    | c :: '"' :: rest => if isSpace c then beforeLast formatEnd rest else none
    | _ => none
  else none

def printFormat (script : Script) (line : Text) : Option Text :=
  match script with
  | .vmscan => quotedFormat script.formatEnd (cutArguments line)
  | .pageAlloc => quotedFormat script.formatEnd line

def readLine (script : Script) (regex line : Text) : Text :=
  match printFormat script line with
  | some format => replaceConversions script.conversions format
  | none => regex

/-- The loop over the format file; without a print format, the expression stays undefined, which
counts as empty.
-/
def readFormat (script : Script) (file : List Text) : Text :=
  file.foldl (readLine script) []

/-- `s/\(REC.*\) \? __print_flags.*//` -/
def dropPrintFlags : Text → Text
  | [] => []
  | c :: rest =>
      if "(REC".toList <+: c :: rest ∧ ") ? __print_flags".toList <:+: (c :: rest).drop 4 then []
      else c :: dropPrintFlags rest

def tuplesOf (regex : Text) : List Text :=
  (regex.splitOnP isSpace).rdropWhile (· = [])

def keyOf (tuple : Text) : Text :=
  tuple.takeWhile (· ≠ '=')

/-- `s/$key=\((.*)\)/$key=$1/` for a key without special characters: the parenthesis behind the
key and the last one of the text are taken away.
-/
def ungroup (key regex : Text) : Text :=
  match firstOccurrence (key ++ ['=', '(']) regex with
  | none => regex
  | some i =>
      let inside := regex.drop (i + (key.length + 2))
      match beforeLast [')'] inside with
      | none => regex
      | some group => regex.take (i + (key.length + 1)) ++ (group ++ inside.drop (group.length + 1))

def Script.notExpected (event key expected : Text) : Script → Text
  | .vmscan =>
      "WARNING: Format not as expected for event ".toList ++ event ++ " '".toList ++ key
        ++ "' != '".toList ++ expected ++ "'\n".toList
  | .pageAlloc =>
      "WARNING: Format not as expected '".toList ++ key ++ "' != '".toList ++ expected
        ++ "'".toList

structure Verified where
  printed : List Text
  regex : Text
  expected : List Text

def verifyTuple (script : Script) (event : Text) (v : Verified) (tuple : Text) : Verified :=
  let key := keyOf tuple
  let expected := v.expected.headD []
  if key ≠ expected then
    { printed := v.printed ++ [script.notExpected event key expected]
      regex := ungroup key v.regex
      expected := v.expected.tail }
  else { v with expected := v.expected.tail }

structure Result where
  printed : List Text
  outcome : Except Text Text
  deriving DecidableEq

def verify (script : Script) (event regex : Text) (expected : List Text) : Result :=
  let v := (tuplesOf regex).foldl (verifyTuple script event) ⟨[], regex, expected⟩
  { printed := v.printed
    outcome :=
      if v.expected ≠ [] then .error "Fewer fields than expected in format".toList
      else .ok v.regex }

def generateTraceeventRegex (script : Script) (event default : Text)
    (format : Option (List Text)) (expected : List Text) : Result :=
  match script, format with
  | .vmscan, none =>
      { printed := ["WARNING: Event ".toList ++ event ++ " format string not found\n".toList]
        outcome := .ok default }
  | .pageAlloc, none => verify .pageAlloc event default expected
  | .vmscan, some file => verify .vmscan event (dropPrintFlags (readFormat .vmscan file)) expected
  | .pageAlloc, some file => verify .pageAlloc event (readFormat .pageAlloc file) expected

end LinuxDoc.TracePostprocess.EventRegex
