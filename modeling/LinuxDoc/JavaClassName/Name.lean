import LinuxDoc.JavaClassName.ClassFile
import Mathlib.Data.List.TakeWhile

/-! How `javaclassname` prints the name of a class, and for which names it does so rightly. -/

namespace LinuxDoc.JavaClassName

open Foundations

/-- What the program has done when it ends: the arguments of its `putchar` calls, and the
error it has exited with, if any.
-/
structure Output where
  printed : List Nat
  error : Option Failure
  deriving DecidableEq

def putchar (c : Nat) (later : Output) : Output :=
  { later with printed := c :: later.printed }

def fail (failure : Failure) : Output :=
  { printed := [], error := some failure }

def printName (classfile : List UInt8) : Nat → Nat → Output
  | 0, _ => { printed := [0x0a], error := none }
  | count + 1, pos =>
      match read8 classfile pos with
      | .error failure => fail failure
      | .ok (x, pos) =>
          if x &&& 0x80 ≠ 0 ∨ x = 0 then
            if x &&& 0xE0 = 0xC0 then
              match read8 classfile pos with
              | .error failure => fail failure
              | .ok (y, pos) =>
                  if y &&& 0xC0 = 0x80 then
                    let c := (x &&& 0x1f) <<< 6 + (y &&& 0x3f)
                    if c ≠ 0 then putchar c (printName classfile count pos)
                    else fail .utf8
                  else fail .utf8
            else fail .utf8
          else if x = 0x2f then putchar 0x2e (printName classfile count pos)
          else putchar x (printName classfile count pos)

/-- `main` on a file that can be opened. The length field is stored to a `u_int8_t`. -/
def main (classfile : List UInt8) : Output :=
  match findName classfile with
  | .error failure => fail failure
  | .ok (length, pos) => printName classfile (length % 2 ^ 8) pos

def dotted (c : Nat) : Nat :=
  if c = 0x2f then 0x2e else c

/-- The characters that the program is made for. -/
def Supported (c : Nat) : Prop :=
  1 ≤ c ∧ c ≤ 255

instance supportedDecidable (c : Nat) : Decidable (Supported c) :=
  inferInstanceAs (Decidable (_ ∧ _))

structure PrintsName (file : ClassFile) : Prop where
  exactly : (∀ c ∈ file.name, Supported c) →
    main file.bytes = { printed := file.name.map dotted ++ [0x0a], error := none }
  refused : (∃ c ∈ file.name, 255 < c) →
    (main file.bytes).error ≠ none ∧ ∀ c ∈ (main file.bytes).printed, c ≤ 255

/-- The bytes of a character that takes two: both are recognised, and the character comes
back.
-/
theorem twoBytes {c : Nat} (fits : c < 0x800)
    : ((0xC0 + c / 64) &&& 0x80 ≠ 0) ∧ ((0xC0 + c / 64) &&& 0xE0 = 0xC0)
      ∧ ((0x80 + c % 64) &&& 0xC0 = 0x80)
      ∧ ((0xC0 + c / 64) &&& 0x1f) <<< 6 + ((0x80 + c % 64) &&& 0x3f) = c := by
  have highBits : ∀ h < 32, ((0xC0 + h) &&& 0x80 ≠ 0) ∧ ((0xC0 + h) &&& 0xE0 = 0xC0)
      ∧ ((0xC0 + h) &&& 0x1f) = h := by decide
  have lowBits : ∀ l < 64, ((0x80 + l) &&& 0xC0 = 0x80) ∧ ((0x80 + l) &&& 0x3f) = l := by decide
  obtain ⟨marked, two, upper⟩ := highBits (c / 64) (by omega)
  obtain ⟨following, lower⟩ := lowBits (c % 64) (by omega)
  refine ⟨marked, two, following, ?_⟩
  rw [upper, lower, Nat.shiftLeft_eq]
  omega

/-- The first byte of a character that takes three is not that of two. -/
theorem threeBytes {c : Nat} (fits : c < 2 ^ 16)
    : ((0xE0 + c / 4096) &&& 0x80 ≠ 0) ∧ ((0xE0 + c / 4096) &&& 0xE0 ≠ 0xC0) := by
  have bits : ∀ h < 16, ((0xE0 + h) &&& 0x80 ≠ 0) ∧ ((0xE0 + h) &&& 0xE0 ≠ 0xC0) := by decide
  exact bits (c / 4096) (by omega)

/-- The high bit of a character that takes one byte is clear. -/
theorem oneByte {c : Nat} (fits : c < 0x80) : c &&& 0x80 = 0 := by
  have bits : ∀ c < 0x80, c &&& 0x80 = 0 := by decide
  exact bits c fits

section Passes

variable {classfile : List UInt8} {pos : Nat}

/-- A pass at a character below 0x800 that is not 0 prints it. -/
theorem printName_char {c : Nat} (count : Nat) (positive : 1 ≤ c) (fits : c < 0x800)
    (stands : Stands classfile pos (encodeChar c))
    : printName classfile (count + 1) pos
      = putchar (dotted c) (printName classfile count (pos + (encodeChar c).length)) := by
  by_cases single : c < 0x80
  · rw [encodeChar, if_pos ⟨positive, single⟩] at stands ⊢
    have read := read8_of_stands stands
    have value : (UInt8.ofNat c).toNat = c := by
      simp only [UInt8.toNat_ofNat']
      omega
    have plain : ¬ (c &&& 0x80 ≠ 0 ∨ c = 0) := by
      rw [oneByte single]
      omega
    rw [value] at read
    simp only [printName, read, if_neg plain, List.length_singleton, dotted]
    split <;> rfl
  · rw [encodeChar, if_neg (by omega), if_pos fits] at stands ⊢
    have pair : Stands classfile pos
        ([UInt8.ofNat (0xC0 + c / 64)] ++ [UInt8.ofNat (0x80 + c % 64)]) := stands
    have first := read8_of_stands pair.left
    have second := read8_of_stands pair.right
    have high : (UInt8.ofNat (0xC0 + c / 64)).toNat = 0xC0 + c / 64 := by
      simp only [UInt8.toNat_ofNat']
      omega
    have low : (UInt8.ofNat (0x80 + c % 64)).toNat = 0x80 + c % 64 := by
      simp only [UInt8.toNat_ofNat']
      omega
    obtain ⟨marked, two, following, value⟩ := twoBytes fits
    have notSlash : c ≠ 0x2f := by omega
    rw [high] at first
    rw [low, List.length_singleton] at second
    simp only [printName, first, second, if_pos (Or.inl marked), two, following, value, if_true,
      if_pos (Nat.ne_of_gt positive), dotted, if_neg notSlash]
    rfl

/-- A pass at 0 or at a character that takes three bytes ends the program. -/
theorem printName_refused {c : Nat} (count : Nat) (fits : c < 2 ^ 16)
    (refused : c = 0 ∨ 0x800 ≤ c) (stands : Stands classfile pos (encodeChar c))
    : printName classfile (count + 1) pos = fail .utf8 := by
  rcases refused with rfl | large
  · have pair : Stands classfile pos ([0xC0] ++ [0x80]) := stands
    have first := read8_of_stands pair.left
    have second := read8_of_stands pair.right
    rw [List.length_singleton] at second
    simp only [printName, first, second]
    rfl
  · rw [encodeChar, if_neg (by omega), if_neg (by omega)] at stands
    have triple : Stands classfile pos ([UInt8.ofNat (0xE0 + c / 4096)]
        ++ [UInt8.ofNat (0x80 + c / 64 % 64), UInt8.ofNat (0x80 + c % 64)]) := stands
    have first := read8_of_stands triple.left
    have high : (UInt8.ofNat (0xE0 + c / 4096)).toNat = 0xE0 + c / 4096 := by
      simp only [UInt8.toNat_ofNat']
      omega
    obtain ⟨marked, notTwo⟩ := threeBytes fits
    rw [high] at first
    simp only [printName, first, if_pos (Or.inl marked), if_neg notTwo]

/-- The passes at characters that are printed, by induction on them. -/
theorem printName_chars {chars : List Nat} (count : Nat)
    (printable : ∀ c ∈ chars, 1 ≤ c ∧ c < 0x800)
    (stands : Stands classfile pos (chars.flatMap encodeChar))
    : printName classfile (chars.length + count) pos
      = chars.foldr (fun c later => putchar (dotted c) later)
          (printName classfile count (pos + (chars.flatMap encodeChar).length)) := by
  induction chars generalizing pos with
  | nil => simp
  | cons c rest ih =>
      rw [List.forall_mem_cons] at printable
      rw [List.flatMap_cons] at stands ⊢
      have passes : (c :: rest).length + count = rest.length + count + 1 := by
        rw [List.length_cons]
        omega
      rw [passes, printName_char _ printable.1.1 printable.1.2 stands.left,
        ih printable.2 stands.right, List.foldr_cons, List.length_append, Nat.add_assoc]

theorem foldr_putchar (chars : List Nat) (later : Output)
    : chars.foldr (fun c later => putchar (dotted c) later) later
      = { printed := chars.map dotted ++ later.printed, error := later.error } := by
  induction chars with
  | nil => rfl
  | cons c rest ih => rw [List.foldr_cons, ih, putchar, List.map_cons, List.cons_append]

/-- A loop that ends inside printable characters has printed so many of them. -/
theorem printName_take {chars : List Nat} {count : Nat}
    (printable : ∀ c ∈ chars, 1 ≤ c ∧ c < 0x800)
    (stands : Stands classfile pos (chars.flatMap encodeChar)) (inside : count ≤ chars.length)
    : printName classfile count pos
      = { printed := (chars.take count).map dotted ++ [0x0a], error := none } := by
  have first : Stands classfile pos ((chars.take count).flatMap encodeChar) := by
    rw [← List.take_append_drop count chars, List.flatMap_append] at stands
    exact stands.left
  have passes := printName_chars 0 (fun c member => printable c (List.mem_of_mem_take member)) first
  rw [List.length_take, Nat.min_eq_left inside, Nat.add_zero, foldr_putchar] at passes
  rw [passes]
  rfl

/-- What a pass can do: end the program with an error, or print one character. -/
theorem printName_succ (classfile : List UInt8) (count pos : Nat)
    : (∃ failure, printName classfile (count + 1) pos = fail failure)
      ∨ ∃ c next, printName classfile (count + 1) pos
          = putchar c (printName classfile count next) := by
  simp only [printName]
  repeat' split
  all_goals first | exact .inl ⟨_, rfl⟩ | exact .inr ⟨_, _, rfl⟩

/-- Without an error every pass prints one character, by induction on the passes. -/
theorem printName_length {count : Nat} (done : (printName classfile count pos).error = none)
    : (printName classfile count pos).printed.length = count + 1 := by
  induction count generalizing pos with
  | zero => rfl
  | succ count ih =>
      rcases printName_succ classfile count pos with ⟨failure, failed⟩ | ⟨c, next, printed⟩
      · rw [failed] at done
        cases done
      · rw [printed] at done ⊢
        rw [putchar, List.length_cons, ih done]

end Passes

/-- Two-byte characters make a name longer than its characters. -/
theorem length_flatMap_encodeChar {name : List Nat} (printable : ∀ c ∈ name, Supported c)
    : name.length ≤ (name.flatMap encodeChar).length
      ∧ (name.flatMap encodeChar).length ≤ 2 * name.length
      ∧ ((name.flatMap encodeChar).length = name.length ↔ ∀ c ∈ name, c ≤ 127) := by
  induction name with
  | nil => simp
  | cons c rest ih =>
      rw [List.forall_mem_cons] at printable
      obtain ⟨atLeast, atMost, equal⟩ := ih printable.2
      obtain ⟨positive, fits⟩ := printable.1
      rw [List.forall_mem_cons, List.flatMap_cons, List.length_append, List.length_cons, ← equal]
      by_cases single : c < 0x80
      · rw [encodeChar, if_pos ⟨positive, single⟩, List.length_singleton]
        omega
      · rw [encodeChar, if_neg (by omega), if_pos (by omega)]
        simp only [List.length_cons, List.length_nil]
        omega

structure Treated (name : List Nat) : Prop where
  ascii : (∀ c ∈ name, Supported c) → (∀ c ∈ name, c ≤ 127) ∧ name.length ≤ 255
  refusable : (∃ c ∈ name, 255 < c) →
    ∃ c, (name.dropWhile (Supported ·)).head? = some c ∧ (c = 0 ∨ 0x800 ≤ c)
      ∧ (name.takeWhile (Supported ·)).length < (name.flatMap encodeChar).length % 2 ^ 8

section Names

variable {classfile : List UInt8} {pos : Nat} {name : List Nat}

/-- A supported name is printed exactly if the loop makes one pass for each character. -/
theorem printName_exactlyiff (supported : ∀ c ∈ name, Supported c)
    (stands : Stands classfile pos (name.flatMap encodeChar)) (count : Nat)
    : printName classfile count pos
        = { printed := name.map dotted ++ [0x0a], error := none }
      ↔ count = name.length := by
  have printable : ∀ c ∈ name, 1 ≤ c ∧ c < 0x800 := by
    intro c member
    obtain ⟨positive, fits⟩ := supported c member
    exact ⟨positive, by omega⟩
  constructor
  · intro printed
    have done : (printName classfile count pos).error = none := by rw [printed]
    have length := printName_length done
    rw [printed] at length
    simpa using length.symm
  · rintro rfl
    rw [printName_take printable stands (Nat.le_refl _), List.take_length]

/-- A name with an unsupported character is refused exactly if the loop reaches the first one
and it is 0 or takes three bytes.
-/
theorem printName_refused_iff {before later : List Nat} {c : Nat}
    (supported : ∀ b ∈ before, Supported b) (unsupported : ¬ Supported c) (fits : c < 2 ^ 16)
    (stands : Stands classfile pos ((before ++ c :: later).flatMap encodeChar)) (count : Nat)
    : ((printName classfile count pos).error ≠ none
        ∧ ∀ b ∈ (printName classfile count pos).printed, b ≤ 255)
      ↔ (c = 0 ∨ 0x800 ≤ c) ∧ before.length < count := by
  have printable : ∀ b ∈ before, 1 ≤ b ∧ b < 0x800 := by
    intro b member
    obtain ⟨positive, small⟩ := supported b member
    exact ⟨positive, by omega⟩
  rw [List.flatMap_append, List.flatMap_cons] at stands
  by_cases reached : before.length < count
  · obtain ⟨more, rfl⟩ := Nat.exists_eq_add_of_lt reached
    have passes := printName_chars (more + 1) printable stands.left
    rw [← Nat.add_assoc, foldr_putchar] at passes
    rw [passes]
    by_cases refused : c = 0 ∨ 0x800 ≤ c
    · rw [printName_refused more fits refused stands.right.left]
      simp only [fail, ne_eq, reduceCtorEq, not_false_eq_true, true_and, refused, reached,
        List.append_nil, List.forall_mem_map, iff_true]
      intro b member
      have small := (supported b member).2
      rw [dotted]
      split <;> omega
    · -- a character of two bytes above 255 is printed
      have positive : 1 ≤ c := by omega
      have large : 255 < c := by
        by_contra small
        exact unsupported ⟨positive, by omega⟩
      have notSlash : c ≠ 0x2f := by omega
      rw [printName_char more positive (by omega) stands.right.left]
      simp only [refused, false_and, iff_false, not_and]
      intro _ all
      have printed := all (dotted c) (by simp [putchar])
      rw [dotted, if_neg notSlash] at printed
      omega
  · rw [printName_take printable stands.left (Nat.le_of_not_lt reached)]
    simp [reached]

end Names

/-- `javaclassname` does what it is to do with a class file exactly if its name is of the kind that
is treated rightly. The name is found where it stands, and `print_name` is run up to its first
unsupported character.
-/
theorem printsName_iff (file : ClassFile) : PrintsName file ↔ Treated file.name := by
  obtain ⟨pos, found, stands⟩ := findName_eq file
  have run : main file.bytes
      = printName file.bytes ((file.name.flatMap encodeChar).length % 2 ^ 8) pos := by
    simp only [main, found]
  have exactIff (supported : ∀ c ∈ file.name, Supported c)
      : main file.bytes = { printed := file.name.map dotted ++ [0x0a], error := none }
        ↔ (∀ c ∈ file.name, c ≤ 127) ∧ file.name.length ≤ 255 := by
    obtain ⟨atLeast, atMost, equal⟩ := length_flatMap_encodeChar supported
    rw [run, printName_exactlyiff supported stands, ← equal]
    omega
  have refusedIff (large : ∃ c ∈ file.name, 255 < c)
      : ((main file.bytes).error ≠ none ∧ ∀ c ∈ (main file.bytes).printed, c ≤ 255)
        ↔ ∃ c, (file.name.dropWhile (Supported ·)).head? = some c ∧ (c = 0 ∨ 0x800 ≤ c)
          ∧ (file.name.takeWhile (Supported ·)).length
            < (file.name.flatMap encodeChar).length % 2 ^ 8 := by
    obtain ⟨c, later, rest⟩ : ∃ c later, file.name.dropWhile (Supported ·) = c :: later := by
      apply List.exists_cons_of_ne_nil
      intro none
      obtain ⟨c, member, above⟩ := large
      have small := (of_decide_eq_true (List.dropWhile_eq_nil_iff.mp none c member)).2
      omega
    have whole : file.name = file.name.takeWhile (Supported ·) ++ c :: later := by
      rw [← rest, List.takeWhile_append_dropWhile]
    have unsupported : ¬ Supported c := by
      have first := List.head?_dropWhile_not (Supported ·) file.name
      rw [rest] at first
      exact of_decide_eq_false first
    have fits : c < 2 ^ 16 := by
      apply file.name_lt
      rw [whole]
      exact List.mem_append_right _ List.mem_cons_self
    have supported : ∀ b ∈ file.name.takeWhile (Supported ·), Supported b := by
      intro b member
      exact of_decide_eq_true (List.mem_takeWhile_imp (p := (Supported ·)) member)
    have parts := stands
    rw [whole] at parts
    rw [run, printName_refused_iff supported unsupported fits parts, rest, List.head?_cons]
    constructor
    · intro reached
      exact ⟨c, rfl, reached⟩
    · rintro ⟨_, ⟨⟩, reached⟩
      exact reached
  constructor
  · intro prints
    exact ⟨fun supported => (exactIff supported).mp (prints.exactly supported),
      fun large => (refusedIff large).mp (prints.refused large)⟩
  · intro treated
    exact ⟨fun supported => (exactIff supported).mpr (treated.ascii supported),
      fun large => (refusedIff large).mpr (treated.refusable large)⟩

def smallClassFile (name : List Nat) (name_lt : ∀ c ∈ name, c < 2 ^ 16)
    (name_short : (name.flatMap encodeChar).length < 2 ^ 16) : ClassFile :=
  { header := [0xCA, 0xFE, 0xBA, 0xBE, 0, 0, 0, 52]
    header_length := rfl
    constants := [.other .classRef (Endian.big.encode 2 2) rfl,
      .utf8 (name.flatMap encodeChar) name_short]
    count_lt := (by decide : 1 + (1 + (1 + 0)) < 2 ^ 16)
    accessFlags := [0, 0x21]
    accessFlags_length := rfl
    thisClass := 1
    nameIndex := 2
    name := name
    name_lt := name_lt
    name_short := name_short
    classEntry := ⟨[], _, rfl, rfl⟩
    nameEntry := ⟨[_], [], rfl, rfl⟩
    rest := [] }

/-- The loop counts characters, but the length is in bytes: behind the name of the one
character 0xE9 it makes another pass.
-/
theorem twoByteName_not_printed
    : ¬ PrintsName (smallClassFile [0xE9] (by decide) (by decide)) := by
  intro prints
  obtain ⟨pos, found, stands⟩ := findName_eq (smallClassFile [0xE9] (by decide) (by decide))
  have supported : ∀ c ∈ [0xE9], Supported c := by decide
  have printed := prints.exactly supported
  simp only [main, found] at printed
  have passes := (printName_exactlyiff supported stands _).mp printed
  exact absurd passes (by decide)

end LinuxDoc.JavaClassName
