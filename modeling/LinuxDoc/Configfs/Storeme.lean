import Mathlib.Algebra.GroupWithZero.Nat
import Mathlib.Data.List.TakeWhile

/-! The storeme attributes of the configfs examples: a number is written as text and read back.
The text is converted with `simple_strtoul`, which stops at the first character that is not a
digit and wraps around, and only then checked.
-/

namespace LinuxDoc.Configfs

inductive LongSize where
  | bits32
  | bits64
  deriving DecidableEq

def LongSize.width : LongSize → Nat
  | .bits32 => 32
  | .bits64 => 64

structure Page where
  text : List Char
  noNul : '\x00' ∉ text

def intMax : Nat := 2 ^ 31 - 1

def einval : Int := -22

def erange : Int := -34

def leadingDigits (text : List Char) : List Char :=
  text.takeWhile Char.isDigit

def unconsumed (text : List Char) : List Char :=
  text.dropWhile Char.isDigit

def leadingValue (text : List Char) : Nat :=
  Nat.ofDigitChars 10 (leadingDigits text) 0

/-- `simple_strtoul` in base 10: the value, and what `p` points to afterwards. -/
def simpleStrtoul (long : LongSize) (text : List Char) : Nat × List Char :=
  (leadingValue text % 2 ^ long.width, unconsumed text)

def deref (p : List Char) : Char :=
  p.headD '\x00'

def sprintfLine : Int → List Char
  | .ofNat n => Nat.toDigits 10 n ++ ['\n']
  | .negSucc n => '-' :: Nat.toDigits 10 (n + 1) ++ ['\n']

/-- The body of the store functions, with the check of the character behind the number: the
result, and `storeme` afterwards.
-/
def store (rejects : Char → Bool) (long : LongSize) (page : Page) (count : Nat) (storeme : Int)
    : Int × Int :=
  let (tmp, p) := simpleStrtoul long page.text
  if rejects (deref p) then (einval, storeme)
  else if tmp > intMax then (erange, storeme)
  else (count, tmp)

namespace Explicit

def childlessStoremeRead (storeme : Int) : List Char :=
  sprintfLine storeme

def childlessStoremeWrite : LongSize → Page → Nat → Int → Int × Int :=
  store fun c => c != '\x00' && c != '\n'

def simpleChildAttrShow (storeme : Int) : List Char :=
  sprintfLine storeme

/-- The other half of the check, `!p`, never applies: `p` points into the page. -/
def simpleChildAttrStore : LongSize → Page → Nat → Int → Int × Int :=
  store fun c => c != '\x00' && c != '\n'

end Explicit

namespace Macros

def childlessStoremeRead (storeme : Int) : List Char :=
  sprintfLine storeme

def childlessStoremeWrite : LongSize → Page → Nat → Int → Int × Int :=
  store fun c => c != '\x00' && c != '\n'

def simpleChildAttrShow (storeme : Int) : List Char :=
  sprintfLine storeme

def simpleChildAttrStore : LongSize → Page → Nat → Int → Int × Int :=
  store fun c => c != '\x00' && c != '\n'

end Macros

inductive Attribute where
  | childlessExplicit
  | childlessMacros
  | simpleChildExplicit
  | simpleChildMacros

def Attribute.store : Attribute → LongSize → Page → Nat → Int → Int × Int
  | .childlessExplicit => Explicit.childlessStoremeWrite
  | .childlessMacros => Macros.childlessStoremeWrite
  | .simpleChildExplicit => Explicit.simpleChildAttrStore
  | .simpleChildMacros => Macros.simpleChildAttrStore

def Attribute.read : Attribute → Int → List Char
  | .childlessExplicit => Explicit.childlessStoremeRead
  | .childlessMacros => Macros.childlessStoremeRead
  | .simpleChildExplicit => Explicit.simpleChildAttrShow
  | .simpleChildMacros => Macros.simpleChildAttrShow

/-- The text is a decimal numeral, with a newline behind it or not. -/
def IsNumeral (digits text : List Char) : Prop :=
  digits ≠ [] ∧ (∀ c ∈ digits, c.isDigit = true) ∧ (text = digits ∨ text = digits ++ ['\n'])

/-- The write fails and changes nothing, or the text is a numeral in range and is what a read
prints then.
-/
def StoresText (a : Attribute) (long : LongSize) (page : Page) (count : Nat) (storeme : Int)
    : Prop :=
  ((a.store long page count storeme).1 < 0 ∧ (a.store long page count storeme).2 = storeme)
  ∨ ∃ digits,
      IsNumeral digits page.text
      ∧ Nat.ofDigitChars 10 digits 0 ≤ intMax
      ∧ 0 ≤ (a.store long page count storeme).1
      ∧ a.read (a.store long page count storeme).2
        = Nat.toDigits 10 (Nat.ofDigitChars 10 digits 0) ++ ['\n']

/-- The four attributes do the same. -/
theorem Attribute.store_eq (a : Attribute)
    : a.store = Configfs.store fun c => c != '\x00' && c != '\n' := by
  cases a <;> rfl

theorem Attribute.read_eq (a : Attribute) : a.read = sprintfLine := by
  cases a <;> rfl

/-- The numeral of a text is made of the digits it begins with. -/
theorem IsNumeral.eq_leadingDigits {digits text : List Char} (h : IsNumeral digits text)
    : digits = leadingDigits text := by
  obtain ⟨-, all, rfl | rfl⟩ := h
  · exact (List.takeWhile_eq_self_iff.mpr all).symm
  · rw [leadingDigits, List.takeWhile_append_of_pos all]
    simp

/-- Text behind the number that begins with anything but a newline. -/
def Trails (text : List Char) : Prop :=
  ∃ c rest, unconsumed text = c :: rest ∧ c ≠ '\n'

/-- The check of `*p` finds trailing text, as the page has no NUL before its end. -/
theorem rejects_iff_trails (page : Page)
    : (deref (unconsumed page.text) != '\x00' && deref (unconsumed page.text) != '\n') = true
      ↔ Trails page.text := by
  have inside : ∀ c ∈ unconsumed page.text, c ≠ '\x00' := by
    intro c member nul
    have inPage : c ∈ page.text := (List.dropWhile_suffix _).mem member
    exact page.noNul (nul ▸ inPage)
  rw [Trails]
  cases rest : unconsumed page.text with
  | nil => simp [deref]
  | cons c more =>
      have notNul := inside c (by simp [rest])
      simp [deref, notNul]

section Store

variable (a : Attribute) (long : LongSize) (page : Page) (count : Nat) (storeme : Int)

theorem store_trails (trails : Trails page.text)
    : a.store long page count storeme = (einval, storeme) := by
  rw [a.store_eq]
  exact if_pos ((rejects_iff_trails page).mpr trails)

/-- What does not trail is judged by its wrapped value. -/
theorem store_clean (clean : ¬ Trails page.text)
    : a.store long page count storeme
      = if leadingValue page.text % 2 ^ long.width > intMax then (erange, storeme)
        else (count, (leadingValue page.text % 2 ^ long.width : Nat)) := by
  rw [a.store_eq]
  exact if_neg (mt (rejects_iff_trails page).mp clean)

end Store

theorem intMax_lt_width (long : LongSize) : intMax < 2 ^ long.width := by
  cases long <;> decide

/-- A write stores the number that was written, or fails, exactly if the text goes on after its
leading digits with something else than a newline, or the number is out of range even after wrapping
around, or the text is a numeral in range. By cases on what stops the conversion and on the range.
-/
theorem storesText_iff (a : Attribute) (long : LongSize) (page : Page) (count : Nat)
    (storeme : Int)
    : StoresText a long page count storeme
      ↔ Trails page.text
        ∨ intMax < leadingValue page.text % 2 ^ long.width
        ∨ IsNumeral (leadingDigits page.text) page.text ∧ leadingValue page.text ≤ intMax := by
  by_cases trails : Trails page.text
  · refine iff_of_true (.inl ?_) (.inl trails)
    rw [store_trails a long page count storeme trails]
    exact ⟨Int.negSucc_lt_zero _, rfl⟩
  by_cases large : intMax < leadingValue page.text % 2 ^ long.width
  · refine iff_of_true (.inl ?_) (.inr (.inl large))
    rw [store_clean a long page count storeme trails, if_pos large]
    exact ⟨Int.negSucc_lt_zero _, rfl⟩
  have stored : a.store long page count storeme
      = ((count : Int), ((leadingValue page.text % 2 ^ long.width : Nat) : Int)) := by
    rw [store_clean a long page count storeme trails, if_neg large]
  simp only [StoresText, stored, trails, large, false_or]
  constructor
  · intro h
    rcases h with ⟨negative, -⟩ | ⟨digits, numeral, small, -, -⟩
    · omega
    · obtain rfl := numeral.eq_leadingDigits
      exact ⟨numeral, small⟩
  · intro h
    rcases h with ⟨numeral, small⟩
    refine .inr ⟨_, numeral, small, Int.natCast_nonneg count, ?_⟩
    rw [Nat.mod_eq_of_lt (Nat.lt_of_le_of_lt small (intMax_lt_width long)), a.read_eq]
    rfl

def wrappingPage : Page :=
  ⟨"18446744073709551616\n".toList, by decide⟩

/-- It is accepted, and 0 is stored. -/
theorem wrappingPage_stored
    : Explicit.childlessStoremeWrite .bits64 wrappingPage 21 7 = (21, 0)
      ∧ Explicit.simpleChildAttrStore .bits64 wrappingPage 21 7 = (21, 0)
      ∧ leadingValue wrappingPage.text = 2 ^ 64
      ∧ ¬ StoresText .childlessExplicit .bits64 wrappingPage 21 7 := by
  have stored : Explicit.childlessStoremeWrite .bits64 wrappingPage 21 7 = (21, 0) := by
    decide
  have value : leadingValue wrappingPage.text = 2 ^ 64 := by
    decide
  refine ⟨stored, by decide, value, ?_⟩
  intro h
  rcases h with ⟨negative, -⟩ | ⟨digits, numeral, small, -, -⟩
  · have result : (Attribute.childlessExplicit.store .bits64 wrappingPage 21 7).1 = 21 :=
      congrArg Prod.fst stored
    omega
  · rw [numeral.eq_leadingDigits] at small
    have same : leadingValue wrappingPage.text ≤ intMax := small
    rw [value] at same
    exact absurd same (by decide)

end LinuxDoc.Configfs
