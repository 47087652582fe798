import Mathlib.Data.List.Basic
import Mathlib.Data.List.Count

/-! Formatted printing as Perl does it, without arguments: which parts of a text are taken as
directives, and when a text is printed as it is. What a directive prints without its argument
is left open.
-/

namespace Foundations.PerlFormat

def percent : UInt8 := 0x25

def isDigit (b : UInt8) : Bool := 0x30 ≤ b && b ≤ 0x39

/-- Why a text is not read as a directive: it is none, or it has a number that is too large, of
which the program dies.
-/
inductive Fault where
  | unknown
  | overflow
  deriving DecidableEq

def value (digits : List UInt8) : Nat :=
  digits.foldl (fun n b => 10 * n + (b.toNat - 0x30)) 0

def startsNumber : List UInt8 → Bool
  | [] => false
  | b :: _ => isDigit b && b ≠ 0x30

section Parts

variable (limit : Nat)

def number (text : List UInt8) : Except Fault (List UInt8) :=
  if startsNumber text && limit < value (text.takeWhile isDigit) then .error .overflow
  else if startsNumber text then .ok (text.dropWhile isDigit)
  else .ok text

def star (text : List UInt8) : Except Fault (List UInt8) := do
  if startsNumber text then
    match ← number limit text with
    | 0x24 :: rest => return rest
    | _ => throw .unknown
  else return text

def width (text : List UInt8) : Except Fault (List UInt8) :=
  match text with
  | 0x2a :: rest => star limit rest
  | 0x30 :: rest => number limit rest
  | _ => number limit text

def isFlag (b : UInt8) : Bool :=
  [0x20, 0x2b, 0x2d, 0x30, 0x23].contains b

/-- The vector flag `v`, also with a join string given by `*`, and the width; whether the flag
stands here.
-/
def vector (text : List UInt8) : Except Fault (Bool × List UInt8) :=
  match text with
  | 0x76 :: rest => (width limit rest).map (true, ·)
  | 0x2a :: rest => do
      match ← star limit rest with
      | 0x76 :: rest => (width limit rest).map (true, ·)
      | rest => return (false, rest)
  | _ => (width limit text).map (false, ·)

/-- What stands before the precision: a width alone, or an index, the flags and the rest. -/
def front (text : List UInt8) : Except Fault (Bool × List UInt8) := do
  if startsNumber text then
    match ← number limit text with
    | 0x24 :: rest => vector limit (rest.dropWhile isFlag)
    | rest => return (false, rest)
  else vector limit (text.dropWhile isFlag)

def precision (text : List UInt8) : Except Fault (List UInt8) :=
  match text with
  | 0x2e :: 0x2a :: rest => star limit rest
  | 0x2e :: rest => number limit (rest.dropWhile (· == 0x30))
  | _ => .ok text

/-- The size, and whether it is one that only integers have: `hh`, `h`, `z`, `t` and `j`, but not
`ll`, `l`, `q`, `L` and `V`.
-/
def size (text : List UInt8) : Bool × List UInt8 :=
  match text with
  | 0x68 :: 0x68 :: rest => (true, rest)
  | 0x6c :: 0x6c :: rest => (false, rest)
  | b :: rest =>
      if [0x68, 0x7a, 0x74, 0x6a].contains b then (true, rest)
      else if [0x6c, 0x71, 0x4c, 0x56].contains b then (false, rest)
      else (false, text)
  | [] => (false, [])

/-- The conversions of integers: `d`, `i`, `D`, `u`, `U`, `o`, `O`, `x`, `X`, `b`, `B`. -/
def isInteger (b : UInt8) : Bool :=
  [0x64, 0x69, 0x44, 0x75, 0x55, 0x6f, 0x4f, 0x78, 0x58, 0x62, 0x42].contains b

def isFloat (b : UInt8) : Bool :=
  [0x65, 0x45, 0x66, 0x46, 0x67, 0x47, 0x61, 0x41].contains b

def isOther (b : UInt8) : Bool :=
  [0x25, 0x63, 0x73, 0x70, 0x6e].contains b

/-- Behind a valid directive whose `%` has been read: index, flags, vector flag, width,
precision, size and conversion, in this order.
-/
def directive (text : List UInt8) : Except Fault (List UInt8) := do
  let (vectors, text) ← front limit text
  let text ← precision limit text
  let (integers, text) := size text
  match text with
  | [] => throw .unknown
  | b :: rest =>
      if isInteger b || (!vectors && (isOther b || (isFloat b && !integers))) then return rest
      else throw .unknown

end Parts

/-- An interpreter: the largest number that it takes in a directive, and what directives print
when their arguments are missing; `none` if the program dies of it. A directive is given by its
text behind the `%`. Only `%%`, whose text has another percent sign, prints one.
-/
structure Formatter where
  limit : Nat
  format : List UInt8 → Option (List UInt8)
  format_percent : ∀ text out, format text = some out → out.count percent ≤ text.count percent

section Suffix

variable {limit : Nat} {text rest : List UInt8}

theorem exists_of_bind_eq_ok {α β : Type} {x : Except Fault α} {f : α → Except Fault β} {b : β}
    (found : x >>= f = .ok b)
    : ∃ a, x = .ok a ∧ f a = .ok b := by
  cases x with
  | error fault => cases found
  | ok a => exact ⟨a, rfl, found⟩

theorem number_suffix (found : number limit text = .ok rest) : rest <:+ text := by
  unfold number at found
  split at found
  · cases found
  · split at found
    · cases found
      exact List.dropWhile_suffix _
    · cases found
      exact List.suffix_refl text

theorem star_suffix (found : star limit text = .ok rest) : rest <:+ text := by
  unfold star at found
  split at found
  · obtain ⟨behind, counted, found⟩ := exists_of_bind_eq_ok found
    split at found
    · cases found
      exact (List.suffix_cons _ rest).trans (number_suffix counted)
    · cases found
  · cases found
    exact List.suffix_refl text

theorem width_suffix (found : width limit text = .ok rest) : rest <:+ text := by
  unfold width at found
  split at found
  next later => exact (star_suffix found).trans (List.suffix_cons _ later)
  next later => exact (number_suffix found).trans (List.suffix_cons _ later)
  · exact number_suffix found

theorem map_width_suffix {before vectors : Bool}
    (found : (width limit text).map (before, ·) = .ok (vectors, rest))
    : rest <:+ text := by
  cases behind : width limit text with
  | error fault =>
      rw [behind] at found
      cases found
  | ok later =>
      rw [behind] at found
      cases found
      exact width_suffix behind

theorem vector_suffix {vectors : Bool} (found : vector limit text = .ok (vectors, rest))
    : rest <:+ text := by
  unfold vector at found
  split at found
  next later => exact (map_width_suffix found).trans (List.suffix_cons _ later)
  next later =>
    obtain ⟨behind, starred, found⟩ := exists_of_bind_eq_ok found
    refine List.IsSuffix.trans ?_ ((star_suffix starred).trans (List.suffix_cons _ later))
    split at found
    next more => exact (map_width_suffix found).trans (List.suffix_cons _ more)
    · cases found
      exact List.suffix_refl _
  · exact map_width_suffix found

theorem front_suffix {vectors : Bool} (found : front limit text = .ok (vectors, rest))
    : rest <:+ text := by
  unfold front at found
  split at found
  · obtain ⟨behind, counted, found⟩ := exists_of_bind_eq_ok found
    refine List.IsSuffix.trans ?_ (number_suffix counted)
    split at found
    next later =>
      exact (vector_suffix found).trans
        ((List.dropWhile_suffix _).trans (List.suffix_cons _ later))
    · cases found
      exact List.suffix_refl _
  · exact (vector_suffix found).trans (List.dropWhile_suffix _)

theorem precision_suffix (found : precision limit text = .ok rest) : rest <:+ text := by
  unfold precision at found
  split at found
  next later =>
    exact (star_suffix found).trans ((List.suffix_cons _ later).trans (List.suffix_cons _ _))
  next later _ =>
    exact (number_suffix found).trans
      ((List.dropWhile_suffix _).trans (List.suffix_cons _ later))
  · cases found
    exact List.suffix_refl text

theorem size_suffix (text : List UInt8) : (size text).2 <:+ text := by
  unfold size
  split
  next rest => exact (List.suffix_cons _ rest).trans (List.suffix_cons _ _)
  next rest => exact (List.suffix_cons _ rest).trans (List.suffix_cons _ _)
  next b rest _ _ =>
    split
    · exact List.suffix_cons b rest
    · split
      · exact List.suffix_cons b rest
      · exact List.suffix_refl _
  · exact List.suffix_refl []

/-- A directive takes something of the text: each of its parts leaves an end of what it is given,
and the conversion takes a byte.
-/
theorem directive_suffix (found : directive limit text = .ok rest)
    : ∃ taken, text = taken ++ rest ∧ taken ≠ [] := by
  obtain ⟨⟨vectors, later⟩, begun, found⟩ := exists_of_bind_eq_ok found
  obtain ⟨last, precise, found⟩ := exists_of_bind_eq_ok found
  have parts : (size last).2 <:+ text :=
    (size_suffix last).trans ((precision_suffix precise).trans (front_suffix begun))
  cases behind : (size last).2 with
  | nil =>
      simp only [behind] at found
      cases found
  | cons b more =>
      simp only [behind] at found
      split at found
      · cases found
        obtain ⟨before, whole⟩ := behind ▸ parts
        exact ⟨before ++ [b], by simp [← whole], by simp⟩
      · cases found

theorem directive_length (found : directive limit text = .ok rest)
    : rest.length < text.length := by
  obtain ⟨taken, rfl, some⟩ := directive_suffix found
  have positive := List.length_pos_iff.mpr some
  rw [List.length_append]
  omega

end Suffix

/-- What `printf` prints for a text without arguments, or `none` if the program dies. A `%`
that begins no valid directive is printed like any other byte.
-/
def printf (formatter : Formatter) : List UInt8 → Option (List UInt8)
  | [] => some []
  | b :: rest =>
      if b = percent then
        match _h : directive formatter.limit rest with
        | .error .unknown => (printf formatter rest).map (b :: ·)
        | .error .overflow => none
        | .ok later => do
            let out ← formatter.format (rest.take (rest.length - later.length))
            (printf formatter later).map (out ++ ·)
      else (printf formatter rest).map (b :: ·)
termination_by text => text.length
decreasing_by
  · simp
  · have := directive_length _h
    simp only [List.length_cons]
    omega
  · simp

/-- No percent sign of the text begins a valid directive, or a number that is too large. -/
def Literal (limit : Nat) (text : List UInt8) : Prop :=
  ∀ before rest, text = before ++ percent :: rest → directive limit rest = .error .unknown

theorem literal_cons {limit : Nat} {b : UInt8} {rest : List UInt8}
    : Literal limit (b :: rest)
      ↔ (b = percent → directive limit rest = .error .unknown) ∧ Literal limit rest := by
  constructor
  · intro literal
    constructor
    · rintro rfl
      exact literal [] rest rfl
    · intro before later split
      exact literal (b :: before) later (by rw [split, List.cons_append])
  · rintro ⟨first, others⟩ before later split
    cases before with
    | nil =>
        obtain ⟨rfl, rfl⟩ := List.cons.inj split
        exact first rfl
    | cons c before => exact others before later (List.cons.inj split).2

/-- A text without directives is printed as it is, by induction on it. -/
theorem printf_of_literal (formatter : Formatter) {text : List UInt8}
    (literal : Literal formatter.limit text)
    : printf formatter text = some text := by
  induction text with
  | nil => rw [printf]
  | cons b rest ih =>
      obtain ⟨first, others⟩ := literal_cons.mp literal
      rw [printf]
      split
      next isPercent =>
        have none := first isPercent
        split
        next => rw [ih others, Option.map_some]
        next found =>
          rw [none] at found
          cases found
        next later found =>
          rw [none] at found
          cases found
      next => rw [ih others, Option.map_some]

/-- Every directive costs its percent sign: what is printed has fewer of them than a text with
a directive, by induction on what is left of the text.
-/
theorem printf_count (formatter : Formatter) {text out : List UInt8}
    (printed : printf formatter text = some out)
    : (out = text ∧ Literal formatter.limit text) ∨ out.count percent < text.count percent := by
  fun_induction printf formatter text generalizing out with
  | case1 =>
      cases printed
      left
      refine ⟨rfl, ?_⟩
      intro before rest split
      simp at split
  | case2 rest found ih =>
      obtain ⟨later, behind, rfl⟩ := Option.map_eq_some_iff.mp printed
      rcases ih behind with ⟨rfl, literal⟩ | fewer
      · exact .inl ⟨rfl, literal_cons.mpr ⟨fun _ => found, literal⟩⟩
      · right
        simp only [List.count_cons]
        omega
  | case3 rest found => cases printed
  | case4 rest later found ih =>
      right
      obtain ⟨first, formatted, printed⟩ := Option.bind_eq_some_iff.mp printed
      obtain ⟨others, behind, rfl⟩ := Option.map_eq_some_iff.mp printed
      obtain ⟨taken, rfl, _⟩ := directive_suffix found
      have text : (taken ++ later).take ((taken ++ later).length - later.length) = taken := by
        rw [List.length_append, Nat.add_sub_cancel, List.take_left]
      rw [text] at formatted
      have bound := formatter.format_percent taken first formatted
      have fewer : others.count percent ≤ later.count percent := by
        rcases ih behind with ⟨rfl, _⟩ | fewer
        · exact Nat.le_refl _
        · exact Nat.le_of_lt fewer
      rw [List.count_cons_self, List.count_append, List.count_append]
      omega
  | case5 b rest notPercent ih =>
      obtain ⟨later, behind, rfl⟩ := Option.map_eq_some_iff.mp printed
      rcases ih behind with ⟨rfl, literal⟩ | fewer
      · exact .inl ⟨rfl, literal_cons.mpr ⟨fun isPercent => absurd isPercent notPercent, literal⟩⟩
      · right
        simp only [List.count_cons]
        omega

end Foundations.PerlFormat
