import LinuxDoc.ClksrcRegisters.Masks

/-! What the script stores of a register header. -/

namespace LinuxDoc.ClksrcRegisters

open Foundations

def pattern (digit : Char) : Text :=
  ['0', 'x', digit]

section Numerals

/-- A numeral is at least its first part shifted by the digits behind it. -/
theorem le_numeralValue {text : Text} (digits : ∀ c ∈ text, (digitValue 16 c).isSome)
    (before : Nat) : before * 16 ^ text.length ≤ numeralValue 16 text before := by
  induction text generalizing before with
  | nil => simp [numeralValue]
  | cons c rest ih =>
      rw [List.forall_mem_cons] at digits
      obtain ⟨digit, value⟩ := Option.isSome_iff_exists.mp digits.1
      simp only [numeralValue, value, List.length_cons, Nat.pow_succ]
      refine Nat.le_trans ?_ (ih digits.2 (before * 16 + digit))
      rw [Nat.mul_comm (16 ^ rest.length) 16, ← Nat.mul_assoc]
      exact Nat.mul_le_mul_right _ (Nat.le_add_right _ _)

/-- A number below 16 whose numeral does not begin with 0 is its one digit. -/
theorem eq_of_numeralValue_lt {c : Char} {rest : Text} {digit : Nat}
    (digits : ∀ c ∈ rest, (digitValue 16 c).isSome) (value : digitValue 16 c = some digit)
    (positive : 1 ≤ digit) (small : numeralValue 16 (c :: rest) 0 < 16)
    : numeralValue 16 (c :: rest) 0 = digit := by
  simp only [numeralValue, value, Nat.zero_mul, Nat.zero_add] at small ⊢
  cases rest with
  | nil => rfl
  | cons next rest =>
      have bound := le_numeralValue digits digit
      have large : 16 ≤ digit * 16 ^ (next :: rest).length := by
        calc
          16 = 1 * 16 ^ 1 := rfl
          _ ≤ digit * 16 ^ (next :: rest).length :=
            Nat.mul_le_mul positive (Nat.pow_le_pow_right (by decide) (by simp))
      omega

end Numerals

section Characters

variable {d : MaskDefinition}

/-- A character that is neither in a name nor in a numeral. -/
theorem not_mem_digits {c : Char} (other : digitValue 16 c = none) : c ∉ d.digits := by
  intro member
  have digit := d.hexadecimal c member
  rw [other] at digit
  cases digit

theorem not_mem_shift {c : Char} (other : c.isAlphanum = false) : c ∉ d.shift := by
  intro member
  have letter := d.shift_chars c member
  rw [other] at letter
  cases letter

/-- The mask has only characters of numerals and `<`. -/
theorem not_mem_mask {c : Char} (notDigit : digitValue 16 c = none)
    (notLetter : c.isAlphanum = false) (notSign : c ≠ '<') : c ∉ d.mask := by
  intro member
  simp only [MaskDefinition.mask, List.mem_append] at member
  rcases member with zeroX | inDigits | signs | inShift
  · have letters : c.isAlphanum = true := by
      rcases List.mem_cons.mp zeroX with rfl | member
      · decide
      · rw [List.mem_singleton.mp member]
        decide
    rw [notLetter] at letters
    cases letters
  · exact not_mem_digits notDigit inDigits
  · have sign : c = '<' := by simpa using signs
    exact notSign sign
  · exact not_mem_shift notLetter inShift

end Characters

section Lengths

variable (d : MaskDefinition)

/-- `find_length` sees this digit: as the first of the mask or behind a `0x` in the shift. -/
def Hits (digit : Char) : Prop :=
  d.digits.head? = some digit ∨ pattern digit <:+: d.shift

instance hitsDecidable (digit : Char) : Decidable (Hits d digit) :=
  inferInstanceAs (Decidable (_ ∨ _))

def Stops : Prop :=
  ∀ digit ∈ ['1', '3', '7', 'f'], ¬ Hits d digit

def maskDigit : Nat → Char
  | 1 => '1'
  | 2 => '3'
  | 3 => '7'
  | _ => 'f'

/-- The mask has at most four bits, and its own digit is the first that `find_length` sees. -/
structure Measured : Prop where
  narrow : d.width ≤ 4
  noOther : ∀ j, 1 ≤ j → j < d.width → ¬ pattern (maskDigit j) <:+: d.shift
  own : Hits d (maskDigit d.width)

variable {d}

theorem pattern_infix_mask (digit : Char) (notSign : digit ≠ '<')
    : pattern digit <:+: d.mask ↔ Hits d digit := by
  have apart : '<' ∉ pattern digit := by
    simp only [pattern, List.mem_cons, List.not_mem_nil, or_false, not_or]
    exact ⟨by decide, by decide, notSign.symm⟩
  have parts : d.mask = ('0' :: 'x' :: d.digits) ++ '<' :: ([] ++ '<' :: d.shift) := by
    simp [MaskDefinition.mask]
  have front : pattern digit <:+: '0' :: 'x' :: d.digits ↔ d.digits.head? = some digit := by
    have noX : 'x' ∉ d.digits := not_mem_digits (by decide)
    have later : ¬ pattern digit <:+: d.digits :=
      fun inside => noX (inside.subset (by simp [pattern]))
    have second : ¬ pattern digit <+: 'x' :: d.digits := by
      intro here
      exact absurd (List.cons_prefix_cons.mp here).1 (by decide)
    have here : pattern digit <+: '0' :: 'x' :: d.digits ↔ d.digits.head? = some digit := by
      simp only [pattern, List.cons_prefix_cons, true_and]
      cases d.digits with
      | nil => simp
      | cons c rest => simp [eq_comm]
    rw [List.infix_cons_iff, List.infix_cons_iff, here]
    simp only [later, second, or_false]
  have empty : ¬ pattern digit <:+: [] := by simp [pattern]
  rw [parts, infix_append_cons_iff apart (by simp [pattern]),
    infix_append_cons_iff apart (by simp [pattern]), front, Hits]
  simp [empty]

/-- `find_length` by the digits that it sees. -/
theorem findLength_mask
    : findLength d.mask
      = if Hits d '1' then .ok 1 else if Hits d '3' then .ok 2
        else if Hits d '7' then .ok 3 else if Hits d 'f' then .ok 4
        else .error (.unknownLength d.mask) := by
  have one : "0x1".toList <:+: d.mask ↔ Hits d '1' := pattern_infix_mask '1' (by decide)
  have three : "0x3".toList <:+: d.mask ↔ Hits d '3' := pattern_infix_mask '3' (by decide)
  have seven : "0x7".toList <:+: d.mask ↔ Hits d '7' := pattern_infix_mask '7' (by decide)
  have fifteen : "0xf".toList <:+: d.mask ↔ Hits d 'f' := pattern_infix_mask 'f' (by decide)
  simp only [findLength, one, three, seven, fifteen]

/-- In a narrow mask only its own digit can stand first. -/
theorem width_of_head {c : Char} {digit : Nat} (narrow : d.width ≤ 4)
    (head : d.digits.head? = some c) (value : digitValue 16 c = some digit)
    (positive : 1 ≤ digit) : 2 ^ d.width - 1 = digit := by
  obtain ⟨rest, digits⟩ : ∃ rest, d.digits = c :: rest := by
    cases digits : d.digits with
    | nil =>
        rw [digits] at head
        cases head
    | cons first rest =>
        rw [digits, List.head?_cons] at head
        exact ⟨rest, by rw [Option.some.inj head]⟩
  have hexadecimal := d.hexadecimal
  rw [digits, List.forall_mem_cons] at hexadecimal
  have valueEq := d.value_eq
  rw [digits] at valueEq
  have bound : 2 ^ d.width ≤ 2 ^ 4 := Nat.pow_le_pow_right (by decide) narrow
  have exact := eq_of_numeralValue_lt hexadecimal.2 value positive (by omega)
  rw [← valueEq, exact]

/-- The digits of narrower masks are not seen in a mask that is measured. -/
theorem Measured.not_hits (measured : Measured d) {j : Nat} (positive : 1 ≤ j)
    (below : j < d.width) : ¬ Hits d (maskDigit j) := by
  rintro (head | inShift)
  · have narrow := measured.narrow
    have value : digitValue 16 (maskDigit j) = some (2 ^ j - 1) := by
      obtain rfl | rfl | rfl : j = 1 ∨ j = 2 ∨ j = 3 := by omega
      · decide
      · decide
      · decide
    have power : 2 ^ 1 ≤ 2 ^ j := Nat.pow_le_pow_right (by decide) positive
    have larger : 2 ^ j < 2 ^ d.width := Nat.pow_lt_pow_right (by decide) below
    have equal := width_of_head narrow head value (by omega)
    omega
  · exact measured.noOther j positive below inShift

/-- `find_length` finds the width exactly of the masks that are measured. -/
theorem findLength_eq_width_iff : findLength d.mask = .ok d.width ↔ Measured d := by
  rw [findLength_mask]
  constructor
  · intro found
    have noShift {digit : Char} (missed : ¬ Hits d digit) : ¬ pattern digit <:+: d.shift :=
      fun inside => missed (.inr inside)
    by_cases one : Hits d '1'
    · rw [if_pos one] at found
      obtain width : 1 = d.width := Except.ok.inj found
      exact ⟨by omega, fun j positive below => by omega, by rwa [← width]⟩
    · rw [if_neg one] at found
      by_cases three : Hits d '3'
      · rw [if_pos three] at found
        obtain width : 2 = d.width := Except.ok.inj found
        refine ⟨by omega, ?_, by rwa [← width]⟩
        intro j positive below
        obtain rfl : j = 1 := by omega
        exact noShift one
      · rw [if_neg three] at found
        by_cases seven : Hits d '7'
        · rw [if_pos seven] at found
          obtain width : 3 = d.width := Except.ok.inj found
          refine ⟨by omega, ?_, by rwa [← width]⟩
          intro j positive below
          obtain rfl | rfl : j = 1 ∨ j = 2 := by omega
          · exact noShift one
          · exact noShift three
        · rw [if_neg seven] at found
          by_cases fifteen : Hits d 'f'
          · rw [if_pos fifteen] at found
            obtain width : 4 = d.width := Except.ok.inj found
            refine ⟨by omega, ?_, by rwa [← width]⟩
            intro j positive below
            obtain rfl | rfl | rfl : j = 1 ∨ j = 2 ∨ j = 3 := by omega
            · exact noShift one
            · exact noShift three
            · exact noShift seven
          · rw [if_neg fifteen] at found
            cases found
  · intro measured
    have own := measured.own
    have positive := d.width_pos
    have narrow := measured.narrow
    obtain width | width | width | width
        : d.width = 1 ∨ d.width = 2 ∨ d.width = 3 ∨ d.width = 4 := by omega
    all_goals rw [width] at own ⊢
    · exact if_pos own
    · have one : ¬ Hits d '1' := measured.not_hits (j := 1) (by omega) (by omega)
      exact (if_neg one).trans (if_pos own)
    · have one : ¬ Hits d '1' := measured.not_hits (j := 1) (by omega) (by omega)
      have three : ¬ Hits d '3' := measured.not_hits (j := 2) (by omega) (by omega)
      exact (if_neg one).trans ((if_neg three).trans (if_pos own))
    · have one : ¬ Hits d '1' := measured.not_hits (j := 1) (by omega) (by omega)
      have three : ¬ Hits d '3' := measured.not_hits (j := 2) (by omega) (by omega)
      have seven : ¬ Hits d '7' := measured.not_hits (j := 3) (by omega) (by omega)
      exact (if_neg one).trans ((if_neg three).trans ((if_neg seven).trans (if_pos own)))

end Lengths

section Lines

variable {d : MaskDefinition}

theorem splitFrom_word {word : Text} (nonBlank : ∀ c ∈ word, isBlank c = false)
    (before rest : Text) : splitFrom before (word ++ rest) = splitFrom (before ++ word) rest := by
  induction word generalizing before with
  | nil => simp
  | cons c word ih =>
      rw [List.forall_mem_cons] at nonBlank
      rw [List.cons_append, splitFrom, nonBlank.1, if_neg Bool.false_ne_true, ih nonBlank.2]
      simp

theorem splitFrom_gap {gap : Text} (blank : ∀ c ∈ gap, isBlank c = true) (rest : Text)
    : splitFrom [] (gap ++ rest) = splitFrom [] rest := by
  induction gap with
  | nil => rfl
  | cons c gap ih =>
      rw [List.forall_mem_cons] at blank
      rw [List.cons_append, splitFrom, if_pos blank.1, ih blank.2]
      rfl

/-- A word that ends in a gap. -/
theorem splitFrom_word_gap {word gap : Text} (nonBlank : ∀ c ∈ word, isBlank c = false)
    (some : word ≠ []) (blank : ∀ c ∈ gap, isBlank c = true) (ends : gap ≠ []) (rest : Text)
    : splitFrom [] (word ++ (gap ++ rest)) = word :: splitFrom [] rest := by
  obtain ⟨c, more, rfl⟩ := List.exists_cons_of_ne_nil ends
  rw [List.forall_mem_cons] at blank
  rw [splitFrom_word nonBlank, List.nil_append, List.cons_append, splitFrom, if_pos blank.1,
    if_neg some, splitFrom_gap blank.2]
  rfl

/-- Three words with gaps between them. -/
theorem splitFrom_three {first second third gap gap' : Text}
    (firstNonBlank : ∀ c ∈ first, isBlank c = false) (firstSome : first ≠ [])
    (secondNonBlank : ∀ c ∈ second, isBlank c = false) (secondSome : second ≠ [])
    (thirdNonBlank : ∀ c ∈ third, isBlank c = false) (thirdSome : third ≠ [])
    (blank : gap ≠ [] ∧ ∀ c ∈ gap, isBlank c = true)
    (blank' : gap' ≠ [] ∧ ∀ c ∈ gap', isBlank c = true)
    : splitFrom [] (first ++ (gap ++ (second ++ (gap' ++ third)))) = [first, second, third] := by
  have last := splitFrom_word thirdNonBlank [] []
  rw [List.append_nil, List.nil_append] at last
  rw [splitFrom_word_gap firstNonBlank firstSome blank.2 blank.1,
    splitFrom_word_gap secondNonBlank secondSome blank'.2 blank'.1, last, splitFrom,
    if_neg thirdSome]

theorem define_nonBlank : ∀ c ∈ "#define".toList, isBlank c = false := by
  have all : ("#define".toList.all fun c => !isBlank c) = true := by decide
  intro c member
  simpa using List.all_eq_true.mp all c member

theorem isBlank_of_nameChar {c : Char} (char : isNameChar c = true) : isBlank c = false := by
  cases blank : isBlank c with
  | false => rfl
  | true =>
      rcases of_decide_eq_true blank with rfl | rfl
      · exact absurd char (by decide)
      · exact absurd char (by decide)

/-- The line is split into its three words, none of which has a blank in it. -/
theorem splitdefine_line : splitdefine d.line = (d.name, d.mask) := by
  have nameSome : d.name ≠ [] := by
    intro none
    have ended := d.name_mask
    rw [none] at ended
    exact absurd (List.suffix_nil.mp ended) (by decide)
  have valueNonBlank : ∀ c ∈ '(' :: (d.mask ++ [')']), isBlank c = false := by
    intro c member
    cases blank : isBlank c with
    | false => rfl
    | true =>
        have notMask : c ∉ d.mask := by
          rcases of_decide_eq_true blank with rfl | rfl
          · exact not_mem_mask (by decide) (by decide) (by decide)
          · exact not_mem_mask (by decide) (by decide) (by decide)
        have bracket : c = '(' ∨ c = ')' := by simpa [notMask] using member
        rcases bracket with rfl | rfl
        · exact absurd blank (by decide)
        · exact absurd blank (by decide)
  have words : split d.line = ["#define".toList, d.name, '(' :: (d.mask ++ [')'])] :=
    splitFrom_three define_nonBlank (by decide)
      (fun c member => isBlank_of_nameChar (d.name_chars c member)) nameSome valueNonBlank
      (by simp) d.gaps.1 d.gaps.2
  have brackets : removeBrackets ('(' :: (d.mask ++ [')'])) = d.mask := by
    simp [removeBrackets, substr]
  simp only [splitdefine, words, List.getD_cons_succ, List.getD_cons_zero, brackets]

theorem findShift_mask : findShift d.mask = .ok d.shift := by
  have free : '<' ∉ "0x".toList ++ d.digits := by
    intro member
    rcases List.mem_append.mp member with zeroX | inDigits
    · exact absurd zeroX (by decide)
    · exact not_mem_digits (by decide) inDigits
  have parts : d.mask = ("0x".toList ++ d.digits) ++ '<' :: ('<' :: d.shift) := by
    simp [MaskDefinition.mask]
  have found : index d.mask '<' = ("0x".toList ++ d.digits).length + 1 := by
    rw [index, parts, firstOccurrence_char free]
  have behind : d.mask.drop (("0x".toList ++ d.digits).length + 1 + 1) = d.shift := by
    rw [parts, Nat.add_assoc, ← List.drop_drop, List.drop_left]
    rfl
  simp only [findShift, found, behind]
  rfl

theorem matchesInOrder_two {first second rest : Text} (inside : second <:+: rest)
    : matchesInOrder [first, second] (first ++ rest) = true := by
  have start : firstOccurrence first (first ++ rest) = some 0 :=
    firstOccurrence_eq_zero_iff.mpr (List.prefix_append _ _)
  cases found : firstOccurrence second rest with
  | none => exact absurd inside (firstOccurrence_eq_none_iff.mp found)
  | some i => simp only [matchesInOrder, start, Nat.zero_add, List.drop_left, found]

/-- The line of a definition is one of those that the script looks for. -/
theorem matches_line : matchesInOrder ["#define".toList, "_MASK".toList] d.line = true := by
  apply matchesInOrder_two
  obtain ⟨before, name⟩ := d.name_mask
  refine ⟨d.firstGap ++ before, d.secondGap ++ ('(' :: (d.mask ++ [')'])), ?_⟩
  rw [← name]
  simp only [List.append_assoc]

/-- A gap cannot be part of a pattern without blanks. -/
theorem infix_gap_iff {pattern gap : Text} (some : pattern ≠ [])
    (nonBlank : ∀ c ∈ pattern, isBlank c = false)
    (blank : gap ≠ [] ∧ ∀ c ∈ gap, isBlank c = true) (front back : Text)
    : pattern <:+: front ++ (gap ++ back) ↔ pattern <:+: front ∨ pattern <:+: back := by
  obtain ⟨ends, blank⟩ := blank
  have apart {c : Char} (isBlank : isBlank c = true) : c ∉ pattern := by
    intro member
    rw [nonBlank c member] at isBlank
    cases isBlank
  induction gap generalizing front with
  | nil => exact absurd rfl ends
  | cons c gap ih =>
      rw [List.forall_mem_cons] at blank
      rw [List.cons_append, infix_append_cons_iff (apart blank.1) some]
      by_cases last : gap = []
      · rw [last, List.nil_append]
      · have empty : ¬ pattern <:+: [] := fun inside => some (List.infix_nil.mp inside)
        have later : pattern <:+: gap ++ back ↔ pattern <:+: [] ∨ pattern <:+: back :=
          ih [] last blank.2
        exact or_congr_right (later.trans (or_iff_right empty))

/-- A pattern without blanks in three words is in the second if it is not in the others. -/
theorem infix_three_iff {pattern first second third gap gap' : Text} (some : pattern ≠ [])
    (nonBlank : ∀ c ∈ pattern, isBlank c = false)
    (blank : gap ≠ [] ∧ ∀ c ∈ gap, isBlank c = true)
    (blank' : gap' ≠ [] ∧ ∀ c ∈ gap', isBlank c = true) (notFirst : ¬ pattern <:+: first)
    (notThird : ¬ pattern <:+: third)
    : pattern <:+: first ++ (gap ++ (second ++ (gap' ++ third))) ↔ pattern <:+: second := by
  rw [infix_gap_iff some nonBlank blank, infix_gap_iff some nonBlank blank',
    or_iff_right notFirst, or_iff_left notThird]

/-- The definitions that the script skips, by their names. -/
theorem skips_line_iff
    : "USB_SIG_MASK".toList <:+: d.line ↔ "USB_SIG_MASK".toList <:+: d.name := by
  have nonBlank : ∀ c ∈ "USB_SIG_MASK".toList, isBlank c = false := by
    have all : ("USB_SIG_MASK".toList.all fun c => !isBlank c) = true := by decide
    intro c member
    simpa using List.all_eq_true.mp all c member
  have notDefine : ¬ "USB_SIG_MASK".toList <:+: "#define".toList := by
    intro inside
    exact absurd inside.length_le (by decide)
  have notValue : ¬ "USB_SIG_MASK".toList <:+: '(' :: (d.mask ++ [')']) := by
    intro inside
    have member : '_' ∈ '(' :: (d.mask ++ [')']) := inside.subset (by decide)
    have notMask : '_' ∉ d.mask := not_mem_mask (by decide) (by decide) (by decide)
    simp [notMask] at member
  exact infix_three_iff (by decide) nonBlank d.gaps.1 d.gaps.2 notDefine notValue

/-- What the script does with the line of a definition. -/
theorem headerLine_mask (dmask : Dmask)
    : headerLine dmask d.line
      = if "USB_SIG_MASK".toList <:+: d.name then .ok dmask
        else (findLength d.mask).map fun length =>
          Function.update dmask d.name (some (length, d.shift)) := by
  have lines := splitdefine_line (d := d)
  by_cases skipped : "USB_SIG_MASK".toList <:+: d.name
  · rw [if_pos skipped, headerLine, if_neg]
    rw [not_and, not_not]
    exact fun _ => skips_line_iff.mpr skipped
  · rw [if_neg skipped, headerLine,
      if_pos ⟨matches_line, fun inside => skipped (skips_line_iff.mp inside)⟩, lines]
    simp only [findShift_mask]
    cases findLength d.mask <;> rfl

end Lines

def Skipped (name : Text) : Prop :=
  "USB_SIG_MASK".toList <:+: name

instance skippedDecidable (name : Text) : Decidable (Skipped name) :=
  inferInstanceAs (Decidable (_ <:+: _))

def SomeStops (header : List HeaderLine) : Prop :=
  ∃ d, HeaderLine.mask d ∈ header ∧ ¬ Skipped d.name ∧ Stops d

variable {d : MaskDefinition}

theorem findLength_error_iff
    : (∃ failure, findLength d.mask = .error failure) ↔ Stops d := by
  rw [findLength_mask]
  simp only [Stops, List.forall_mem_cons, List.not_mem_nil, false_implies, implies_true, and_true]
  by_cases one : Hits d '1'
  · simp [one]
  by_cases three : Hits d '3'
  · simp [one, three]
  by_cases seven : Hits d '7'
  · simp [one, three, seven]
  by_cases fifteen : Hits d 'f'
  · simp [one, three, seven, fifteen]
  · simp [one, three, seven, fifteen]

theorem not_someStops_cons {line : HeaderLine} {rest : List HeaderLine}
    (none : ¬ SomeStops (line :: rest)) : ¬ SomeStops rest := by
  rintro ⟨d, member, stops⟩
  exact none ⟨d, List.mem_cons_of_mem line member, stops⟩

def storedMasks (dmask : Dmask) (header : List HeaderLine) : Dmask :=
  fun name =>
    match definition name header with
    | none => dmask name
    | some d =>
        if Skipped name then dmask name
        else (findLength d.mask).toOption.map fun length => (length, d.shift)

theorem storedMasks_skipped (skipped : Skipped d.name) (dmask : Dmask) (rest : List HeaderLine)
    : storedMasks dmask (.mask d :: rest) = storedMasks dmask rest := by
  funext name
  simp only [storedMasks, definition]
  cases definition name rest with
  | some later => rfl
  | none =>
      by_cases same : d.name = name
      · subst same
        simp [skipped]
      · simp [same]

theorem storedMasks_stored {length : Nat} (kept : ¬ Skipped d.name)
    (measured : findLength d.mask = .ok length) (dmask : Dmask) (rest : List HeaderLine)
    : storedMasks dmask (.mask d :: rest)
      = storedMasks (Function.update dmask d.name (some (length, d.shift))) rest := by
  funext name
  simp only [storedMasks, definition]
  by_cases same : d.name = name
  · subst same
    cases definition d.name rest with
    | some later => simp [kept]
    | none => simp [kept, measured, Except.toOption]
  · have other : name ≠ d.name := fun equal => same equal.symm
    cases definition name rest with
    | some later => simp [Function.update_of_ne other]
    | none => simp [same, Function.update_of_ne other]

/-- A definition that is not known stops the script, by induction on the header. -/
theorem readHeader_stops {header : List HeaderLine} (stops : SomeStops header) (dmask : Dmask)
    : ∃ failure, readHeader dmask (header.map HeaderLine.text) = .error failure := by
  induction header generalizing dmask with
  | nil =>
      obtain ⟨d, member, _⟩ := stops
      cases member
  | cons line rest ih =>
      rw [List.map_cons, readHeader]
      cases stepped : headerLine dmask line.text with
      | error failure => exact ⟨failure, rfl⟩
      | ok next =>
          obtain ⟨d, member, kept, unknown⟩ := stops
          rcases List.mem_cons.mp member with rfl | member
          · -- the line itself would have been an error
            obtain ⟨failure, failed⟩ := findLength_error_iff.mpr unknown
            have notSkipped : ¬ "USB_SIG_MASK".toList <:+: d.name := kept
            rw [HeaderLine.text, headerLine_mask, if_neg notSkipped, failed] at stepped
            cases stepped
          · exact ih ⟨d, member, kept, unknown⟩ next

/-- Otherwise the definitions are stored, by induction on the header. -/
theorem readHeader_stored {header : List HeaderLine} (none : ¬ SomeStops header) (dmask : Dmask)
    : readHeader dmask (header.map HeaderLine.text) = .ok (storedMasks dmask header) := by
  induction header generalizing dmask with
  | nil => rfl
  | cons line rest ih =>
      have later := not_someStops_cons none
      rw [List.map_cons, readHeader]
      cases line with
      | other text notMask =>
          have stepped : headerLine dmask text = .ok dmask := by
            have unmatched : ¬ (matchesInOrder ["#define".toList, "_MASK".toList] text
                ∧ ¬ "USB_SIG_MASK".toList <:+: text) := by
              rintro ⟨found, _⟩
              exact absurd found (Bool.eq_false_iff.mp notMask)
            exact if_neg unmatched
          rw [HeaderLine.text, stepped]
          exact ih later dmask
      | mask d =>
          rw [HeaderLine.text, headerLine_mask]
          by_cases skipped : Skipped d.name
          · have inside : "USB_SIG_MASK".toList <:+: d.name := skipped
            rw [if_pos inside, storedMasks_skipped skipped]
            exact ih later dmask
          · have notInside : ¬ "USB_SIG_MASK".toList <:+: d.name := skipped
            rw [if_neg notInside]
            cases measured : findLength d.mask with
            | error failure =>
                have unknown := findLength_error_iff.mp ⟨failure, measured⟩
                exact absurd ⟨d, List.mem_cons_self, skipped, unknown⟩ none
            | ok length =>
                rw [storedMasks_stored skipped measured]
                exact ih later _

end LinuxDoc.ClksrcRegisters
