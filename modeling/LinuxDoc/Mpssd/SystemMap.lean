import LinuxDoc.Foundations.TextEdit
import Mathlib.Data.List.TakeWhile
import Mathlib.Tactic.Common

/-! How `set_log_buf_info` finds two symbols in the `System.map` of the card: it searches the
whole file for their names and copies what stands a fixed distance in front of them.
-/

namespace LinuxDoc.Mpssd.SystemMap

open Foundations

inductive Attribute where
  | logBufAddr
  | logBufLen
  deriving DecidableEq

def strstr (map name : List Char) : Option Nat :=
  firstOccurrence name (map.takeWhile (· ≠ '\x00'))

/-- `strncpy(log_buf, temp - 19, 16)`, unless that begins in front of the map. -/
def strncpyBefore (map : List Char) (temp : Nat) : Option (List Char) :=
  if 19 ≤ temp then some (((map.drop (temp - 19)).take 16).takeWhile (· ≠ '\x00')) else none

def logBufName : List Char := "__log_buf".toList

def logBufLenName : List Char := "log_buf_len".toList

/-- `set_log_buf_info`: the calls of `setsysfs`, for the text of the file if it can be mapped.
The result is `none` if it reads in front of the map.
-/
def setLogBufInfo : Option (List Char) → Option (List (Attribute × List Char))
  | none => some []
  | some map =>
      match strstr map logBufName with
      | none => some []
      | some temp => do
          let addr ← strncpyBefore map temp
          match strstr map logBufLenName with
          | none => some [(.logBufAddr, addr)]
          | some temp => do
              let len ← strncpyBefore map temp
              some [(.logBufAddr, addr), (.logBufLen, len)]

/-! The file -/

def isHexDigit (c : Char) : Bool :=
  c.isDigit || ('a' ≤ c && c ≤ 'f') || ('A' ≤ c && c ≤ 'F')

def isSymbolChar (c : Char) : Bool :=
  c != '\n' && c != '\x00'

structure Line where
  digits : List Char
  type : Char
  symbol : List Char
  digits_length : digits.length = 16
  digits_hex : ∀ c ∈ digits, isHexDigit c
  type_letter : type.isAlpha
  symbol_text : ∀ c ∈ symbol, isSymbolChar c

def Line.front (line : Line) : List Char :=
  line.digits ++ ' ' :: [line.type] ++ [' ']

def Line.text (line : Line) : List Char :=
  line.front ++ line.symbol

def mapText (lines : List Line) : List Char :=
  lines.flatMap fun line => line.text ++ ['\n']

def Line.copied (line : Line) (k : Nat) : List Char :=
  (line.text.drop k).take 16

/-- The name stands at the start of the symbol and the line has these digits; or, by accident,
the symbol itself has them so far in front of the name.
-/
def Line.Shows (line : Line) (name digits : List Char) : Prop :=
  (name <+: line.symbol ∧ line.digits = digits)
  ∨ ∃ k, firstOccurrence name line.symbol = some (k + 19) ∧ (line.symbol.drop k).take 16 = digits

/-- The first line whose symbol contains the name shows these digits. -/
def FirstShows (lines : List Line) (name digits : List Char) : Prop :=
  ∃ line, (lines.find? fun line => name <:+: line.symbol) = some line ∧ line.Shows name digits

/-! Searching line by line -/

structure Searchable (name : List Char) : Prop where
  blank : ' ' ∉ name
  newline : '\n' ∉ name
  long : 2 ≤ name.length
  underscore : '_' ∈ name

theorem searchable_logBufName : Searchable logBufName := by
  constructor <;> decide

theorem searchable_logBufLenName : Searchable logBufLenName := by
  constructor <;> decide

theorem Line.front_length (line : Line) : line.front.length = 19 := by
  simp [Line.front, line.digits_length]

section Search

variable {name : List Char}

theorem Searchable.ne_nil (searchable : Searchable name) : name ≠ [] :=
  List.ne_nil_of_mem searchable.underscore

/-- A name is found in a line only within the symbol. -/
theorem firstOccurrence_line (searchable : Searchable name) (line : Line)
    : firstOccurrence name line.text = (firstOccurrence name line.symbol).map (· + 19) := by
  have digits : firstOccurrence name line.digits = none := by
    rw [firstOccurrence_eq_none_iff]
    intro occurs
    have hex := line.digits_hex '_' (occurs.subset searchable.underscore)
    exact absurd hex (by decide)
  have type : firstOccurrence name [line.type] = none := by
    rw [firstOccurrence_eq_none_iff]
    intro occurs
    have := searchable.long.trans occurs.length_le
    exact absurd this (by simp)
  have text : line.text = line.digits ++ ' ' :: ([line.type] ++ ' ' :: line.symbol) := by
    simp [Line.text, Line.front]
  rw [text, firstOccurrence_append_cons searchable.blank searchable.ne_nil, digits, Option.none_or,
    firstOccurrence_append_cons searchable.blank searchable.ne_nil, type, Option.none_or,
    Option.map_map, line.digits_length]
  rfl

variable {line : Line}

theorem ne_zero_of_mem_text {c : Char} (member : c ∈ line.text) : c ≠ '\x00' := by
  rintro rfl
  have cases : '\x00' ∈ line.digits ∨ '\x00' = line.type ∨ '\x00' ∈ line.symbol := by
    simpa [Line.text, Line.front, or_assoc] using member
  rcases cases with digit | letter | symbol
  · exact absurd (line.digits_hex _ digit) (by decide)
  · exact absurd (letter ▸ line.type_letter) (by decide)
  · exact absurd (line.symbol_text _ symbol) (by decide)

theorem takeWhile_mapText (lines : List Line)
    : (mapText lines).takeWhile (· ≠ '\x00') = mapText lines := by
  rw [List.takeWhile_eq_self_iff]
  intro c member
  obtain ⟨line, _, inLine⟩ := List.mem_flatMap.mp member
  rcases List.mem_append.mp inLine with text | newline
  · exact decide_eq_true (ne_zero_of_mem_text text)
  · obtain rfl : c = '\n' := by simpa using newline
    decide

theorem strstr_mapText (lines : List Line)
    : strstr (mapText lines) name = firstOccurrence name (mapText lines) := by
  rw [strstr, takeWhile_mapText]

theorem mapText_cons (line : Line) (lines : List Line)
    : mapText (line :: lines) = line.text ++ '\n' :: mapText lines := by
  simp [mapText]

theorem strstr_cons (searchable : Searchable name) (line : Line) (lines : List Line)
    : strstr (mapText (line :: lines)) name
      = ((firstOccurrence name line.symbol).map (· + 19)).or
          ((strstr (mapText lines) name).map (· + (line.text.length + 1))) := by
  rw [strstr_mapText, strstr_mapText, mapText_cons,
    firstOccurrence_append_cons searchable.newline searchable.ne_nil,
    firstOccurrence_line searchable]

/-- A name that is found has a whole line in front of it. -/
theorem le_of_strstr (searchable : Searchable name) {lines : List Line} {temp : Nat}
    (found : strstr (mapText lines) name = some temp)
    : 19 ≤ temp := by
  induction lines generalizing temp with
  | nil => simp [strstr, mapText, firstOccurrence, searchable.ne_nil] at found
  | cons line lines ih =>
      rw [strstr_cons searchable] at found
      rcases Option.or_eq_some_iff.mp found with here | ⟨_, later⟩
      · obtain ⟨k, _, rfl⟩ := Option.map_eq_some_iff.mp here
        exact Nat.le_add_left 19 k
      · obtain ⟨next, foundLater, rfl⟩ := Option.map_eq_some_iff.mp later
        exact (ih foundLater).trans (Nat.le_add_right ..)

def fetch (map name : List Char) : Option (List Char) :=
  (strstr map name).bind (strncpyBefore map)

theorem length_of_firstOccurrence (searchable : Searchable name) {symbol : List Char} {k : Nat}
    (found : firstOccurrence name symbol = some k)
    : k < symbol.length := by
  have length := (prefix_drop_of_firstOccurrence found).length_le
  rw [List.length_drop] at length
  have := searchable.long
  omega

/-- In the line with the name the copy stays within the line. -/
theorem strncpyBefore_here (searchable : Searchable name) {k : Nat}
    (found : firstOccurrence name line.symbol = some k) (lines : List Line)
    : strncpyBefore (mapText (line :: lines)) (k + 19) = some (line.copied k) := by
  have inside := length_of_firstOccurrence searchable found
  have length : line.text.length = line.symbol.length + 19 := by
    rw [Line.text, List.length_append, line.front_length, Nat.add_comm]
  have noZero : (line.copied k).takeWhile (· ≠ '\x00') = line.copied k := by
    rw [List.takeWhile_eq_self_iff]
    intro c member
    exact decide_eq_true (ne_zero_of_mem_text (List.mem_of_mem_drop (List.mem_of_mem_take member)))
  rw [strncpyBefore, if_pos (Nat.le_add_left 19 k), Nat.add_sub_cancel, mapText_cons,
    List.drop_append_of_le_length (by omega), List.take_append_of_le_length (by
      rw [List.length_drop]
      omega)]
  exact congrArg some noZero

/-- In a later line it is as if the file began after this one. -/
theorem strncpyBefore_later (line : Line) (lines : List Line) {temp : Nat} (behind : 19 ≤ temp)
    : strncpyBefore (mapText (line :: lines)) (temp + (line.text.length + 1))
      = strncpyBefore (mapText lines) temp := by
  have drop : (mapText (line :: lines)).drop (temp + (line.text.length + 1) - 19)
      = (mapText lines).drop (temp - 19) := by
    have position : temp + (line.text.length + 1) - 19 = line.text.length + (temp - 19 + 1) := by
      omega
    rw [mapText_cons, position, List.drop_length_add_append, List.drop_succ_cons]
  rw [strncpyBefore, strncpyBefore, if_pos (by omega), if_pos behind, drop]

/-- What is copied is decided by the first line whose symbol contains the name. -/
theorem fetch_mapText (searchable : Searchable name) (lines : List Line)
    : fetch (mapText lines) name
      = (lines.find? fun line => name <:+: line.symbol).bind fun line =>
          (firstOccurrence name line.symbol).map line.copied := by
  induction lines with
  | nil => simp [fetch, strstr, mapText, firstOccurrence, searchable.ne_nil]
  | cons line lines ih =>
      rw [fetch, strstr_cons searchable]
      cases found : firstOccurrence name line.symbol with
      | none =>
          have absent := firstOccurrence_eq_none_iff.mp found
          rw [List.find?_cons_of_neg (by simpa using absent), ← ih, fetch]
          cases later : strstr (mapText lines) name with
          | none => rfl
          | some temp => exact strncpyBefore_later line lines (le_of_strstr searchable later)
      | some k =>
          have present : name <:+: line.symbol := by
            by_contra absent
            simp [firstOccurrence_eq_none_iff.mpr absent] at found
          rw [List.find?_cons_of_pos (by simpa using present), Option.bind_some, found]
          exact strncpyBefore_here searchable found lines

/-- What the line has at a place within the copy. -/
theorem mem_copied {k i : Nat} {c : Char} (entry : line.text[i]? = some c) (start : k ≤ i)
    (stop : i < k + 16)
    : c ∈ line.copied k := by
  have entryCopied : (line.copied k)[i - k]? = some c := by
    rw [Line.copied, List.getElem?_take_of_lt (by omega), List.getElem?_drop,
      Nat.add_sub_cancel' start, entry]
  exact List.mem_of_getElem? entryCopied

/-- A copy that begins within the front of the line has one of its blanks. -/
theorem blank_mem_copied (line : Line) {k : Nat} (positive : 0 < k) (front : k < 19)
    : ' ' ∈ line.copied k := by
  have first : line.text[16]? = some ' ' := by
    simp [Line.text, Line.front, line.digits_length]
  have second : line.text[18]? = some ' ' := by
    simp [Line.text, Line.front, List.getElem?_append, line.digits_length]
  rcases Nat.lt_or_ge k 17 with before | after
  · exact mem_copied first (by omega) (by omega)
  · exact mem_copied second (by omega) (by omega)

/-- Digits are copied only from the front of the line or from within the symbol. -/
theorem copied_eq_iff {k : Nat} {digits : List Char} (hex : ∀ c ∈ digits, isHexDigit c)
    (found : firstOccurrence name line.symbol = some k)
    : line.copied k = digits ↔ line.Shows name digits := by
  rw [Line.Shows, ← firstOccurrence_eq_zero_iff, found]
  rcases Nat.eq_zero_or_pos k with rfl | positive
  · have copied : line.copied 0 = line.digits := by
      simp [Line.copied, Line.text, Line.front, ← line.digits_length]
    simp [copied]
  · rcases Nat.lt_or_ge k 19 with front | behind
    · have differs : line.copied k ≠ digits := by
        rintro rfl
        exact absurd (hex _ (blank_mem_copied line positive front)) (by decide)
      simp only [differs, false_iff, Option.some.injEq]
      omega
    · obtain ⟨j, rfl⟩ := Nat.exists_eq_add_of_le' behind
      have copied : line.copied (j + 19) = (line.symbol.drop j).take 16 := by
        rw [Line.copied, Line.text, Nat.add_comm, ← line.front_length, List.drop_length_add_append]
      simp [copied]

theorem fetch_eq_some_iff (searchable : Searchable name) (lines : List Line) (line : Line)
    : fetch (mapText lines) name = some line.digits ↔ FirstShows lines name line.digits := by
  rw [fetch_mapText searchable, Option.bind_eq_some_iff, FirstShows]
  refine exists_congr fun first => and_congr_right fun found => ?_
  have present : name <:+: first.symbol := by simpa using List.find?_some found
  rw [Option.map_eq_some_iff]
  constructor
  · rintro ⟨k, occurs, copied⟩
    exact (copied_eq_iff line.digits_hex occurs).mp copied
  · intro shows
    obtain ⟨k, occurs⟩ : ∃ k, firstOccurrence name first.symbol = some k := by
      rw [← Option.isSome_iff_exists, Option.isSome_iff_ne_none, Ne, firstOccurrence_eq_none_iff,
        not_not]
      exact present
    exact ⟨k, occurs, (copied_eq_iff line.digits_hex occurs).mpr shows⟩

end Search

/-- Both attributes are written exactly if both copies succeed. -/
theorem setLogBufInfo_eq_iff (map addr len : List Char)
    : setLogBufInfo (some map) = some [(.logBufAddr, addr), (.logBufLen, len)]
      ↔ fetch map logBufName = some addr ∧ fetch map logBufLenName = some len := by
  rw [setLogBufInfo, fetch, fetch]
  cases strstr map logBufName with
  | none => simp
  | some temp =>
      simp only [Option.bind_some]
      cases addrCopy : strncpyBefore map temp with
      | none => simp
      | some text =>
          cases strstr map logBufLenName with
          | none => simp
          | some temp => cases lenCopy : strncpyBefore map temp <;> simp [lenCopy]

structure CardMap where
  lines : List Line
  logBuf : Line
  logBufLen : Line
  logBuf_mem : logBuf ∈ lines
  logBuf_symbol : logBuf.symbol = logBufName
  logBufLen_mem : logBufLen ∈ lines
  logBufLen_symbol : logBufLen.symbol = logBufLenName

/-- The attributes get the digits of the two lines exactly if, for each name, the first line that
has it anywhere in its symbol shows these digits. By `fetch_eq_some_iff` for each of the names.
-/
theorem setLogBufInfo_right_iff (map : CardMap)
    : setLogBufInfo (some (mapText map.lines))
        = some [(.logBufAddr, map.logBuf.digits), (.logBufLen, map.logBufLen.digits)]
      ↔ FirstShows map.lines logBufName map.logBuf.digits
        ∧ FirstShows map.lines logBufLenName map.logBufLen.digits := by
  rw [setLogBufInfo_eq_iff, fetch_eq_some_iff searchable_logBufName,
    fetch_eq_some_iff searchable_logBufLenName]

def setupLine : Line where
  digits := "ffffffff81d0f0a2".toList
  type := 't'
  symbol := "log_buf_len_setup".toList
  digits_length := by decide
  digits_hex := List.all_eq_true.mp (by decide)
  type_letter := by decide
  symbol_text := List.all_eq_true.mp (by decide)

def logBufLine : Line where
  digits := "ffffffff81e5c640".toList
  type := 'b'
  symbol := logBufName
  digits_length := by decide
  digits_hex := List.all_eq_true.mp (by decide)
  type_letter := by decide
  symbol_text := List.all_eq_true.mp (by decide)

def logBufLenLine : Line where
  digits := "ffffffff81a3b2c8".toList
  type := 'd'
  symbol := logBufLenName
  digits_length := by decide
  digits_hex := List.all_eq_true.mp (by decide)
  type_letter := by decide
  symbol_text := List.all_eq_true.mp (by decide)

def setupFirst : CardMap where
  lines := [setupLine, logBufLenLine, logBufLine]
  logBuf := logBufLine
  logBufLen := logBufLenLine
  logBuf_mem := by simp
  logBuf_symbol := rfl
  logBufLen_mem := by simp
  logBufLen_symbol := rfl

/-- The address of the function is taken for that of the variable. -/
theorem setupFirst_wrong
    : setLogBufInfo (some (mapText setupFirst.lines))
        = some [(.logBufAddr, setupFirst.logBuf.digits), (.logBufLen, setupLine.digits)]
      ∧ setupLine.digits ≠ setupFirst.logBufLen.digits := by
  decide +kernel

end LinuxDoc.Mpssd.SystemMap
