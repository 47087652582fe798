import LinuxDoc.TracePostprocess.EventRegex.Fields

/-! The expression that a format file is read as, before its fields are verified. -/

namespace LinuxDoc.TracePostprocess.EventRegex

open Foundations CaptureRegex

section Characters

/-- A character that is in none of these lists by its kind. -/
theorem not_mem_of_all {kind : Char → Bool} {c : Char} (of_kind : kind c = true) {list : List Char}
    (none : list.all (fun d => !kind d) = true) : c ∉ list := by
  intro member
  have other := List.all_eq_true.mp none c member
  rw [of_kind] at other
  cases other

def separators : List Char :=
  [' ', '\t', '\n', '\x0b', '\x0c', '\r', '=', '?', '"', ',']

theorem isSpace_eq_false {c : Char} (apart : c ∉ separators) : isSpace c = false := by
  simp only [separators, List.mem_cons, not_or] at apart
  simp [isSpace, apart]

end Characters

section Conversions

def Script.setOf : Script → Conversion → Option Text
  | .vmscan, .string => some "0-9a-zA-Z|_".toList
  | .pageAlloc, .string => none
  | _, .pointer => some "0-9a-f".toList
  | _, .int => some "-0-9".toList
  | .vmscan, .long => some "-0-9".toList
  | .pageAlloc, .long => none
  | _, .unsignedLong => some "0-9".toList
  | _, .extended _ _ _ _ => none
  | _, .other _ _ _ => none

def literal (c : Char) : Token :=
  if c = '.' then .any else .char c

theorem literal_text (c : Char) : (literal c).text = [c] := by
  unfold literal
  split
  next dot => rw [dot, Token.text]
  next => rfl

theorem render_literal (text : Text) : render (text.map literal) = text := by
  induction text with
  | nil => rfl
  | cons c text ih =>
      rw [render] at ih
      rw [List.map_cons, render, List.flatMap_cons, literal_text, ih, List.singleton_append]

def conversionTokens (script : Script) : Conversion → List Token
  | .extended first extension _ _ =>
      [.opens, .many "0-9a-f".toList, .closes] ++ (first :: extension).map .char
  | conversion =>
      match script.setOf conversion with
      | some set => [.opens, .many set, .closes]
      | none => conversion.text.map literal

theorem spec_apart : ∀ spec ∈ specs, ' ' ∉ '%' :: spec ∧ '=' ∉ '%' :: spec := by
  decide

theorem conversions_eq (script : Script)
    : ∀ c ∈ script.conversions, ∃ spec ∈ specs, c.1 = '%' :: spec := by
  have all : script.conversions.all (fun c => specs.any (fun spec => c.1 = '%' :: spec)) = true := by
    cases script <;> decide
  simpa only [List.all_eq_true, List.any_eq_true, decide_eq_true_eq] using all

theorem replaceConversions_free {conversions : List (Text × Text)}
    (marked : ∀ c ∈ conversions, ∃ spec, c.1 = '%' :: spec) {text : Text} (free : '%' ∉ text)
    : replaceConversions conversions text = text := by
  induction conversions with
  | nil => rfl
  | cons c conversions ih =>
      obtain ⟨spec, pattern⟩ := marked c List.mem_cons_self
      have same : replaceAll c.1 c.2 text = text := by
        rw [pattern]
        exact replaceFrom_of_not_mem free 0
      rw [replaceConversions, List.foldl_cons, same]
      exact ih fun d member => marked d (List.mem_cons_of_mem c member)

theorem replaceConversions_unknown {conversions : List (Text × Text)} {text : Text}
    (unknown : ∀ c ∈ conversions, ∃ spec, c.1 = '%' :: spec ∧ ¬ spec <+: text)
    (free : '%' ∉ text)
    : replaceConversions conversions ('%' :: text) = '%' :: text := by
  induction conversions with
  | nil => rfl
  | cons c conversions ih =>
      obtain ⟨spec, pattern, absent⟩ := unknown c List.mem_cons_self
      have same : replaceAll c.1 c.2 ('%' :: text) = '%' :: text := by
        rw [pattern, replaceAll_cons free, if_neg absent]
      rw [replaceConversions, List.foldl_cons, same]
      exact ih fun d member => unknown d (List.mem_cons_of_mem c member)

/-- A pointer is replaced also in front of an extension. -/
theorem replaceConversions_pointer (script : Script) {extension : Text} (free : '%' ∉ extension)
    : replaceConversions script.conversions ("%p".toList ++ extension)
      = "([0-9a-f]*)".toList ++ extension := by
  have notPercent : '%' ∉ 'p' :: extension := by
    simpa using free
  have hit : replaceAll "%p".toList "([0-9a-f]*)".toList ("%p".toList ++ extension)
      = "([0-9a-f]*)".toList ++ extension := by
    have known : ['p'] <+: 'p' :: extension := List.prefix_append ['p'] extension
    exact (replaceAll_cons notPercent).trans (if_pos known)
  have done : '%' ∉ "([0-9a-f]*)".toList ++ extension := by
    rw [List.mem_append, not_or]
    exact ⟨by decide, free⟩
  have marked := fun c member =>
    let ⟨spec, _, pattern⟩ := conversions_eq script c member
    Exists.intro spec pattern
  cases script with
  | vmscan =>
      have missed : replaceAll "%s".toList "([0-9a-zA-Z|_]*)".toList ("%p".toList ++ extension)
          = "%p".toList ++ extension := by
        have unknown : ¬ ['s'] <+: 'p' :: extension := by simp
        exact (replaceAll_cons notPercent).trans (if_neg unknown)
      have rest := replaceConversions_free
        (fun c member => marked c (List.mem_of_mem_drop (i := 2) member)) done
      rw [replaceConversions, Script.conversions, List.foldl_cons, List.foldl_cons, missed, hit]
      exact rest
  | pageAlloc =>
      have rest := replaceConversions_free
        (fun c member => marked c (List.mem_of_mem_drop (i := 1) member)) done
      rw [replaceConversions, Script.conversions, List.foldl_cons, hit]
      exact rest

theorem alphanumeric_extension {first : Char} {extension : Text} (letter : first.isAlpha = true)
    (chars : ∀ c ∈ extension, c.isAlphanum = true)
    : ∀ c ∈ first :: extension, c.isAlphanum = true := by
  intro c member
  rcases List.mem_cons.mp member with rfl | member
  · simp [Char.isAlphanum, letter]
  · exact chars c member

theorem replaceConversions_conversion (script : Script) (conversion : Conversion)
    : replaceConversions script.conversions conversion.text
      = render (conversionTokens script conversion) := by
  cases conversion with
  | string => cases script <;> decide
  | pointer => cases script <;> decide
  | int => cases script <;> decide
  | long => cases script <;> decide
  | unsignedLong => cases script <;> decide
  | extended first extension letter chars =>
      have free : '%' ∉ first :: extension := fun member => by
        cases alphanumeric_extension letter chars '%' member
      rw [Conversion.text, replaceConversions_pointer script free, conversionTokens, render_append,
        render_char]
      rfl
  | other spec chars unknown =>
      have free : '%' ∉ spec := fun member => by cases chars '%' member
      have absent : ∀ c ∈ script.conversions, ∃ known, c.1 = '%' :: known ∧ ¬ known <+: spec := by
        intro c member
        obtain ⟨known, inSpecs, pattern⟩ := conversions_eq script c member
        exact ⟨known, pattern, unknown known inSpecs⟩
      have tokens : conversionTokens script (.other spec chars unknown)
          = (Conversion.other spec chars unknown).text.map literal := by
        cases script <;> rfl
      rw [tokens, render_literal]
      exact replaceConversions_unknown absent free

/-- No conversion is given a character that separates. -/
theorem not_mem_separators_of_conversion (script : Script) (conversion : Conversion) {c : Char}
    (member : c ∈ render (conversionTokens script conversion)) : c ∉ separators := by
  have closed {text : Text} (inside : c ∈ text)
      (none : text.all (fun d => decide (d ∉ separators)) = true) : c ∉ separators := by
    simpa using List.all_eq_true.mp none c inside
  cases conversion with
  | string => cases script <;> exact closed member (by decide)
  | pointer => cases script <;> exact closed member (by decide)
  | int => cases script <;> exact closed member (by decide)
  | long => cases script <;> exact closed member (by decide)
  | unsignedLong => cases script <;> exact closed member (by decide)
  | extended first extension letter chars =>
      rw [conversionTokens, render_append, render_char] at member
      rcases List.mem_append.mp member with inClass | inExtension
      · exact closed inClass (by decide)
      · exact not_mem_of_all (alphanumeric_extension letter chars c inExtension) (by decide)
  | other spec chars unknown =>
      have tokens : conversionTokens script (.other spec chars unknown)
          = ('%' :: spec).map literal := by
        cases script <;> rfl
      rw [tokens, render_literal] at member
      rcases List.mem_cons.mp member with rfl | inSpec
      · decide
      · exact not_mem_of_all (chars c inSpec) (by decide)

theorem literal_plain {c : Char} (spec : isSpecChar c = true) : (literal c).Plain := by
  unfold literal
  split
  next => trivial
  next notDot =>
    have literally : c ∉ ['\\', '^', '$', '|', '?', '*', '+', '(', ')', '[', ']', '{', '}'] :=
      not_mem_of_all spec (by decide)
    have plain : isSpecial c = false := by
      simp only [List.mem_cons, not_or] at literally
      simp [isSpecial, literally, notDot]
    exact plain

theorem conversionTokens_plain (script : Script) (conversion : Conversion)
    : ∀ t ∈ conversionTokens script conversion, t.Plain := by
  cases conversion with
  | string => cases script <;> decide
  | pointer => cases script <;> decide
  | int => cases script <;> decide
  | long => cases script <;> decide
  | unsignedLong => cases script <;> decide
  | extended first extension letter chars =>
      intro t member
      rcases List.mem_append.mp member with inClass | inExtension
      · have known : ∀ t ∈ [.opens, .many "0-9a-f".toList, .closes], Token.Plain t := by decide
        exact known t inClass
      · obtain ⟨c, inside, rfl⟩ := List.mem_map.mp inExtension
        exact decide_eq_false
          (not_mem_of_all (alphanumeric_extension letter chars c inside) (by decide))
  | other spec chars unknown =>
      have tokens : conversionTokens script (.other spec chars unknown)
          = literal '%' :: spec.map literal := by
        cases script <;> rfl
      intro t member
      rw [tokens] at member
      rcases List.mem_cons.mp member with rfl | inSpec
      · decide
      · obtain ⟨c, inside, rfl⟩ := List.mem_map.mp inSpec
        exact literal_plain (chars c inside)

end Conversions

section Formats

variable (script : Script)

def fieldTokens (f : Field) : List Token :=
  (f.name ++ ['=']).map .char ++ conversionTokens script f.conversion

def formatTokens (fields : List Field) : List Token :=
  [.char ' '].intercalate (fields.map (fieldTokens script))

variable {script}

theorem Field.name_free (f : Field) {list : List Char}
    (none : list.all (fun d => !isNameChar d) = true) : ∀ c ∈ f.name, c ∉ list :=
  fun c member => not_mem_of_all (f.name_chars c member) none

theorem Field.not_mem_name (f : Field) {c : Char} (other : isNameChar c = false)
    : c ∉ f.name := by
  intro member
  rw [f.name_chars c member] at other
  cases other

theorem fieldTokens_plain (f : Field) : ∀ t ∈ fieldTokens script f, t.Plain := by
  intro t member
  rcases List.mem_append.mp member with inLabel | inConversion
  · obtain ⟨c, inside, rfl⟩ := List.mem_map.mp inLabel
    rcases List.mem_append.mp inside with inName | equals
    · exact decide_eq_false (f.name_free (by decide) c inName)
    · cases List.mem_singleton.mp equals
      decide
  · exact conversionTokens_plain script f.conversion t inConversion

theorem formatTokens_plain (fields : List Field)
    : ∀ t ∈ formatTokens script fields, t.Plain := by
  intro t member
  rcases eq_or_mem_of_mem_intercalate member with rfl | ⟨piece, known, inside⟩
  · decide
  · obtain ⟨f, _, rfl⟩ := List.mem_map.mp known
    exact fieldTokens_plain f t inside

theorem render_fieldTokens (f : Field)
    : render (fieldTokens script f)
      = f.name ++ '=' :: render (conversionTokens script f.conversion) := by
  rw [fieldTokens, render_append, render_char, List.append_assoc, List.singleton_append]

/-- A field is replaced behind its name. -/
theorem replaceConversions_field {conversions : List (Text × Text)}
    (marked : ∀ c ∈ conversions, ∃ spec ∈ specs, c.1 = '%' :: spec) {name : Text}
    (free : '%' ∉ name) (text : Text)
    : replaceConversions conversions (name ++ '=' :: text)
      = name ++ '=' :: replaceConversions conversions text := by
  induction conversions generalizing text with
  | nil => rfl
  | cons c conversions ih =>
      obtain ⟨spec, known, pattern⟩ := marked c List.mem_cons_self
      have apart : '=' ∉ c.1 := by
        rw [pattern]
        exact (spec_apart spec known).2
      have step : replaceAll c.1 c.2 (name ++ '=' :: text)
          = name ++ '=' :: replaceAll c.1 c.2 text := by
        rw [replaceAll_append_cons apart (by simp [pattern])]
        congr 1
        rw [pattern]
        exact replaceFrom_of_not_mem free 0
      rw [replaceConversions, List.foldl_cons, step]
      exact ih (fun d member => marked d (List.mem_cons_of_mem c member)) _

theorem replaceConversions_intercalate {conversions : List (Text × Text)}
    (marked : ∀ c ∈ conversions, ∃ spec ∈ specs, c.1 = '%' :: spec) (pieces : List Text)
    : replaceConversions conversions ([' '].intercalate pieces)
      = [' '].intercalate (pieces.map (replaceConversions conversions)) := by
  induction conversions generalizing pieces with
  | nil =>
      have same : replaceConversions [] = id := rfl
      rw [same, List.map_id, id]
  | cons c conversions ih =>
      obtain ⟨spec, known, pattern⟩ := marked c List.mem_cons_self
      have apart : ' ' ∉ c.1 := by
        rw [pattern]
        exact (spec_apart spec known).1
      have step : replaceAll c.1 c.2 ([' '].intercalate pieces)
          = [' '].intercalate (pieces.map (replaceAll c.1 c.2)) :=
        replaceAll_intercalate apart (by simp [pattern]) pieces
      rw [replaceConversions, List.foldl_cons, step]
      have rest := ih (fun d member => marked d (List.mem_cons_of_mem c member))
        (pieces.map (replaceAll c.1 c.2))
      rw [List.map_map] at rest
      exact rest

/-- The format is replaced field by field. -/
theorem replaceConversions_format (fields : List Field)
    : replaceConversions script.conversions (formatText fields)
      = render (formatTokens script fields) := by
  have marked := conversions_eq script
  rw [formatText, replaceConversions_intercalate marked, formatTokens, render_intercalate,
    List.map_map, List.map_map]
  congr 1
  apply List.map_congr_left
  intro f _
  have free : '%' ∉ f.name := f.not_mem_name (by decide)
  rw [Function.comp_apply, Function.comp_apply, replaceConversions_field marked free,
    replaceConversions_conversion, render_fieldTokens]

end Formats

section Files

/-- The arguments are cut off behind a front without a comma. -/
theorem cutArguments_append {front : Text} (free : ',' ∉ front) (back : Text)
    : cutArguments (front ++ back) = front ++ cutArguments back := by
  have found : firstOccurrence (',' :: " REC->".toList) (front ++ back)
      = (firstOccurrence (',' :: " REC->".toList) back).map (front.length + ·) :=
    firstOccurrence_append_of_not_mem free back
  have pattern : ", REC->".toList = ',' :: " REC->".toList := by decide
  rw [cutArguments, cutArguments, pattern, found]
  cases firstOccurrence (',' :: " REC->".toList) back with
  | none => rfl
  | some i => exact List.take_length_add_append i

theorem cutArguments_isPrefix (line : Text) : cutArguments line <+: line := by
  unfold cutArguments
  split
  next i _ => exact List.take_prefix i line
  next => exact List.prefix_refl line

variable {script : Script}

theorem printFormat_other {line : Text}
    (other : ¬ "print fmt:".toList <+: line) : printFormat script line = none := by
  cases script with
  | vmscan =>
      have cut : ¬ "print fmt:".toList <+: cutArguments line := fun begins =>
        other (begins.trans (cutArguments_isPrefix line))
      exact if_neg cut
  | pageAlloc => exact if_neg other

theorem quotedFormat_line (formatEnd rest : Text)
    : quotedFormat formatEnd ("print fmt: \"".toList ++ rest) = beforeLast formatEnd rest := by
  have opening : "print fmt: \"".toList = "print fmt:".toList ++ [' ', '"'] := by decide
  rw [opening, List.append_assoc, quotedFormat, if_pos (List.prefix_append _ _), List.drop_left]
  exact if_pos (by decide)

theorem comma_not_mem_conversion (conversion : Conversion) : ',' ∉ conversion.text := by
  cases conversion with
  | string => decide
  | pointer => decide
  | int => decide
  | long => decide
  | unsignedLong => decide
  | extended first extension letter chars =>
      intro member
      rcases List.mem_append.mp member with inPointer | inExtension
      · revert inPointer
        decide
      · cases alphanumeric_extension letter chars ',' inExtension
  | other spec chars unknown =>
      intro member
      rcases List.mem_cons.mp member with percent | inSpec
      · cases percent
      · cases chars ',' inSpec

theorem comma_not_mem_format (fields : List Field) : ',' ∉ formatText fields := by
  intro member
  rcases eq_or_mem_of_mem_intercalate member with blank | ⟨piece, known, inside⟩
  · cases blank
  · obtain ⟨f, _, rfl⟩ := List.mem_map.mp known
    rcases List.mem_append.mp inside with inName | inRest
    · exact f.not_mem_name (by decide) inName
    · rcases List.mem_cons.mp inRest with equals | inConversion
      · cases equals
      · exact comma_not_mem_conversion f.conversion inConversion

/-- The format is found between its quotes. -/
theorem printFormat_line {arguments : Text} (plain : PlainArguments script arguments)
    (fields : List Field)
    : printFormat script ("print fmt: \"".toList ++ (formatText fields ++ '"' :: arguments))
      = some (formatText fields) := by
  cases script with
  | vmscan =>
      have free : ',' ∉ "print fmt: \"".toList ++ (formatText fields ++ ['"']) := by
        simp only [List.mem_append, not_or]
        exact ⟨by decide, comma_not_mem_format fields, by decide⟩
      have cut := cutArguments_append free arguments
      simp only [List.append_assoc, List.singleton_append] at cut
      rw [printFormat, cut, quotedFormat_line]
      exact beforeLast_char plain (formatText fields)
  | pageAlloc =>
      obtain ⟨unquoted, comma⟩ := plain
      have here : ['"', ','] <+: '"' :: arguments := List.cons_prefix_cons.mpr ⟨rfl, comma⟩
      have last : ¬ ['"', ','] <:+: arguments := fun occurs =>
        unquoted (occurs.subset List.mem_cons_self)
      rw [printFormat, quotedFormat_line]
      exact beforeLast_append_cons here last (formatText fields)

theorem readLine_others {lines : List Text}
    (others : ∀ line ∈ lines, ¬ "print fmt:".toList <+: line) (regex : Text)
    : lines.foldl (readLine script) regex = regex := by
  induction lines with
  | nil => rfl
  | cons line lines ih =>
      rw [List.foldl_cons, readLine, printFormat_other (others line List.mem_cons_self)]
      exact ih fun l member => others l (List.mem_cons_of_mem line member)

/-- A format file is read as the tokens of its fields. -/
theorem readFormat_lines {fields : List Field} (file : FormatFile script fields)
    : readFormat script file.lines = render (formatTokens script fields) := by
  have before := fun line member => file.others line (List.mem_append_left file.after member)
  have after := fun line member => file.others line (List.mem_append_right file.before member)
  rw [readFormat, FormatFile.lines, List.foldl_append, readLine_others before, List.foldl_cons,
    readLine_others after, readLine, printFormat_line file.plain]
  exact replaceConversions_format fields

/-- Nothing is taken away from an expression without a question mark. -/
theorem dropPrintFlags_eq {regex : Text} (free : '?' ∉ regex) : dropPrintFlags regex = regex := by
  induction regex with
  | nil => rfl
  | cons c regex ih =>
      have absent : ¬ ("(REC".toList <+: c :: regex
          ∧ ") ? __print_flags".toList <:+: (c :: regex).drop 4) := by
        rintro ⟨_, inside⟩
        exact free (List.mem_of_mem_drop (inside.subset (by decide)))
      have rest := ih fun member => free (List.mem_cons_of_mem c member)
      rw [dropPrintFlags, if_neg absent, rest]

theorem question_not_mem_format (script : Script) (fields : List Field)
    : '?' ∉ render (formatTokens script fields) := by
  intro member
  rw [formatTokens, render_intercalate] at member
  rcases eq_or_mem_of_mem_intercalate member with blank | ⟨piece, known, inside⟩
  · cases blank
  · obtain ⟨tokens, inTokens, rfl⟩ := List.mem_map.mp known
    obtain ⟨f, _, rfl⟩ := List.mem_map.mp inTokens
    rw [render_fieldTokens] at inside
    rcases List.mem_append.mp inside with inName | inRest
    · exact f.not_mem_name (by decide) inName
    · rcases List.mem_cons.mp inRest with equals | inConversion
      · cases equals
      · exact not_mem_separators_of_conversion script f.conversion inConversion (by decide)

/-- The function verifies the tokens of the format's fields. -/
theorem generateTraceeventRegex_file {fields : List Field} (file : FormatFile script fields)
    (event default : Text) (expected : List Text)
    : generateTraceeventRegex script event default (some file.lines) expected
      = verify script event (render (formatTokens script fields)) expected := by
  cases script with
  | vmscan =>
      rw [generateTraceeventRegex, readFormat_lines,
        dropPrintFlags_eq (question_not_mem_format .vmscan fields)]
  | pageAlloc => rw [generateTraceeventRegex, readFormat_lines]

end Files

end LinuxDoc.TracePostprocess.EventRegex
