import LinuxDoc.Foundations.TextEdit

/-! The script `build-toc.sh`, which puts a table of contents into a markdown file.
A file is the list of its lines. The commands of the script edit it in place, by line numbers
that earlier commands wrote into shell variables; a `sed` whose script is not valid says so
and leaves the file as it is.
-/

namespace LinuxDoc.BuildToc

open Foundations

abbrev Line := List Char

inductive Language where
  | english
  | chinese
  deriving DecidableEq

def Language.contents : Language → Line
  | .english => "Contents".toList
  | .chinese => "目录".toList

def contentsText (language : Language) : Line :=
  "## ".toList ++ language.contents

/-! The patterns -/

/-- `^## ${contents}` -/
def isContents (language : Language) (line : Line) : Bool :=
  contentsText language <+: line

/-- `## ${contents}`, anywhere in the line -/
def mentionsContents (language : Language) (line : Line) : Bool :=
  contentsText language <:+: line

/-- `^# ` -/
def isTitle (line : Line) : Bool :=
  "# ".toList <+: line

def startsWithHash (line : Line) : Bool :=
  ['#'] <+: line

/-- `<span `, anywhere in the line -/
def hasSpan (line : Line) : Bool :=
  "<span ".toList <:+: line

/-- `^###* `: two or more `#` and a space -/
def isHeading (line : Line) : Bool :=
  2 ≤ (line.takeWhile (· = '#')).length ∧ [' '] <+: line.dropWhile (· = '#')

/-- `^##` -/
def startsWithHashes (line : Line) : Bool :=
  "##".toList <+: line

/-! Addresses of `sed`, from shell variables that may be empty -/

inductive Address where
  | every
  | line (n : Nat)
  /-- no address that `sed` understands -/
  | malformed
  deriving DecidableEq

/-- A variable that a pipeline `grep -n -m1 … | cut` was assigned to. -/
def address : Option Nat → Address
  | none => .every
  | some n => .line n

def decremented : Option Nat → Address
  | none => .malformed
  | some n => .line (n - 1)

/-- `sed -i -e "${address}i${text}"` -/
def sedInsert (address : Address) (text : Line) (file : List Line) : List Line :=
  match address with
  | .every => file.flatMap fun line => [text, line]
  | .line n => insertLine n text file
  | .malformed => file

/-- `sed -i -e "${address}a${text}"` -/
def sedAppend (address : Address) (text : Line) (file : List Line) : List Line :=
  match address with
  | .every => file.flatMap fun line => [line, text]
  | .line n => appendLines n [text] file
  | .malformed => file

/-- `sed -i -e "${address}r …"`; whether line 0 is an address for this command depends on the
version of `sed`.
-/
def sedRead (readsAtZero : Bool) (address : Address) (lines file : List Line) : List Line :=
  match address with
  | .every => file.flatMap fun line => line :: lines
  | .line 0 => if readsAtZero then lines ++ file else file
  | .line n => appendLines n lines file
  | .malformed => file

/-! Drop the old table of contents -/

/-- The lines up to `sed -i -e "${start_line},${end_line}d"`. The numbers are taken from the
file as it was before the lines with a span were deleted; if one of them is missing, the
range is not valid.
-/
def dropOld (language : Language) (md : List Line) : List Line :=
  let startLine := firstLine (isContents language) md
  let endLine := firstLine isTitle md
  let md := md.filter fun line => !hasSpan line
  match startLine, endLine with
  | some first, some title => deleteLines first (title - 1) md
  | _, _ => md

def insLine (language : Language) (md : List Line) : Option Nat :=
  firstLine startsWithHash (dropOld language md)

def withEntry (language : Language) (md : List Line) : List Line :=
  sedInsert (address (insLine language md)) [] (dropOld language md)

/-! Generate the table of contents -/

def tocId (first second : Nat) : Line :=
  "toc_".toList ++ Nat.toDigits 10 first ++ ['_'] ++ Nat.toDigits 10 second ++ ['_']

def headings (language : Language) (md : List Line) : List Line :=
  md.filter fun line => isHeading line && !mentionsContents language line

def link (toc : Line) (k : Nat) : Line :=
  "](#".toList ++ toc ++ Nat.toDigits 10 k ++ [')']

/-- `s/: */: /g`; `after` tells whether the spaces here follow a colon. -/
def spaceColons (after : Bool) : Line → Line
  | [] => []
  | c :: rest =>
      if c = ':' then ':' :: ' ' :: spaceColons true rest
      else if after ∧ c = ' ' then spaceColons true rest
      else c :: spaceColons false rest

/-- The heading as an item of a list with a link, up to the last `sed` before `xargs`. The
number and the `a` in front, which make it a command for `sed`, are left out: no
substitution touches them.
-/
def entryText (toc : Line) (k : Nat) (heading : Line) : Line :=
  let text := heading.takeWhile (· ≠ ' ') ++ " [".toList
    ++ (heading.dropWhile (· ≠ ' ')).drop 1 ++ link toc k
  let text := replaceAll "#####".toList "+            -   ".toList text
  let text := replaceAll "####".toList "+        -   ".toList text
  let text := replaceAll "###".toList "+    -   ".toList text
  let text := replaceAll "##".toList "-   ".toList text
  let text := replaceAll "'".toList "-+-+-+-".toList text
  spaceColons false text

inductive Quoting where
  | plain
  | quoted
  | escaped
  deriving DecidableEq

/-- How `xargs` reads a line: quotes and backslashes are taken away. `none` is an unmatched
quote, at which it stops.
-/
def xargsRead : Quoting → Line → Option Line
  | .quoted, [] => none
  | _, [] => some []
  | .plain, c :: rest =>
      if c = '"' then xargsRead .quoted rest
      else if c = '\\' then xargsRead .escaped rest
      else (xargsRead .plain rest).map (c :: ·)
  | .quoted, c :: rest =>
      if c = '"' then xargsRead .plain rest else (xargsRead .quoted rest).map (c :: ·)
  | .escaped, c :: rest => (xargsRead .plain rest).map (c :: ·)

/-! How `sed` reads the text of an `a` command -/

/-- The state of `sed` at a character. An escape by number has a letter, which stands for itself
if no digit comes, and so many more digits at most.
-/
inductive Escape where
  | plain
  | backslash
  | control
  | controlBackslash
  | number (letter : Char) (base left : Nat) (value : Option Nat)

/-- The character with a code, of which `sed` takes the low byte; `none` is the end of a line. A
byte that is not a character by itself is shown as the one with its number.
-/
def charOf (code : Nat) : Option Char :=
  if code % 256 = 10 then none else some (Char.ofNat (code % 256))

def digitOf (base : Nat) (c : Char) : Option Nat :=
  let value := if c.isDigit then c.toNat - '0'.toNat else c.toLower.toNat - 'a'.toNat + 10
  if c.isAlphanum ∧ value < base then some value else none

def controlled (c : Char) : List (Option Char) :=
  match String.utf8EncodeChar c.toUpper with
  | [] => []
  | first :: rest =>
      charOf (first.toNat ^^^ 0x40) :: rest.map fun byte => charOf byte.toNat

def Escape.finish : Escape → List (Option Char)
  | .number letter _ _ none => [some letter]
  | .number _ _ _ (some value) => [charOf value]
  | _ => []

def Escape.step : Escape → Char → Option (List (Option Char) × Escape)
  | .plain, c => if c = '\\' then some ([], .backslash) else some ([some c], .plain)
  | .backslash, c =>
      match c with
      | 'a' => some ([charOf 7], .plain)
      | 'f' => some ([charOf 12], .plain)
      | 'n' => some ([charOf 10], .plain)
      | 'r' => some ([charOf 13], .plain)
      | 't' => some ([charOf 9], .plain)
      | 'v' => some ([charOf 11], .plain)
      | 'c' => some ([], .control)
      | 'd' => some ([], .number 'd' 10 3 none)
      | 'o' => some ([], .number 'o' 8 3 none)
      | 'x' => some ([], .number 'x' 16 2 none)
      | c => some ([some c], .plain)
  | .control, c =>
      if c = '\\' then some ([], .controlBackslash) else some (controlled c, .plain)
  -- any other character here is an error of the script
  | .controlBackslash, c => if c = '\\' then some ([charOf 0x1c], .plain) else none
  | .number letter base left value, c =>
      match digitOf base c with
      | some digit =>
          let value := value.getD 0 * base + digit
          if left = 1 then some ([charOf value], .plain)
          else some ([], .number letter base (left - 1) (some value))
      | none =>
          let ended := (Escape.number letter base left value).finish
          if c = '\\' then some (ended, .backslash) else some (ended ++ [some c], .plain)

def readEscapes : Escape → Line → Option (List (Option Char))
  | state, [] => some state.finish
  | state, c :: rest =>
      (state.step c).bind fun (made, next) => (readEscapes next rest).map (made ++ ·)

/-- The lines of the text, which starts after blanks. -/
def sedText (text : Line) : Option (List Line) :=
  (readEscapes .plain (text.dropWhile (· = ' '))).map fun made =>
    (made.splitOn none).map (List.filterMap id)

/-- `sed -i -e "${k}a${text}" toc.tmp`; without a line `k` nothing is appended. -/
def appendEntry (k : Nat) (text : Line) (tmp : List Line) : List Line :=
  match sedText text with
  | none => tmp
  | some lines => appendLines k lines tmp

/-- `xargs -i sed -i -e "{}" toc.tmp`, for the headings from number `k` on -/
def appendEntries (toc : Line) : Nat → List Line → List Line → List Line
  | _, [], tmp => tmp
  | k, heading :: rest, tmp =>
      match xargsRead .plain (entryText toc k heading) with
      | none => tmp
      | some text => appendEntries toc (k + 1) rest (appendEntry k text tmp)

/-- `s/-+-+-+-/'/g`, then `s/^+   /   /g` -/
def finishEntry (line : Line) : Line :=
  let line := replaceAll "-+-+-+-".toList "'".toList line
  if "+   ".toList <+: line then line.drop 1 else line

/-- `toc.tmp`, once it is finished; `${ins_line}i\` inserts nothing into it -/
def tocTmp (language : Language) (toc : Line) (md : List Line) : List Line :=
  (appendEntries toc 1 (headings language md) [[]]).map finishEntry

/-! Insert the table of contents and the spans -/

def withToc (readsAtZero : Bool) (language : Language) (toc : Line) (md : List Line)
    : List Line :=
  let at_ := decremented (insLine language md)
  let file := withEntry language md
  let file := sedRead readsAtZero at_ (tocTmp language toc (withEntry language md)) file
  let file := sedAppend at_ (contentsText language) file
  sedAppend at_ [] file

def span (toc : Line) (t : Nat) : Line :=
  "<span id=\"".toList ++ toc ++ Nat.toDigits 10 t ++ "\"></span>".toList

def isSpanned (language : Language) (line : Line) : Bool :=
  startsWithHashes line && !mentionsContents language line

def withSpans (language : Language) (toc : Line) (file : List Line) : List Line :=
  insertMarks (span toc) (lineNumbers (isSpanned language) 1 file) 0 file

def buildToc (readsAtZero : Bool) (language : Language) (toc : Line) (md : List Line)
    : List Line :=
  withSpans language toc (withToc readsAtZero language toc md)

end LinuxDoc.BuildToc
