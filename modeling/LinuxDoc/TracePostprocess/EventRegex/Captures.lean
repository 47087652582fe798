import LinuxDoc.TracePostprocess.EventRegex.Verification
import Mathlib.Data.List.Forall2

/-! When the expression for a format captures the expected fields and no others. -/

namespace LinuxDoc.TracePostprocess.EventRegex

open Foundations CaptureRegex

section Events

def singleEvent (value : Field → Char) (printed : ∀ f : Field, f.prints (value f) = true)
    (fields : List Field) : List PrintedField :=
  fields.map fun f =>
    { field := f
      value := [value f]
      printed := by
        intro c member
        cases List.mem_singleton.mp member
        exact printed f }

theorem singleEvent_fields {value : Field → Char} (printed : ∀ f : Field, f.prints (value f) = true)
    (fields : List Field)
    : (singleEvent value printed fields).map PrintedField.field = fields := by
  rw [singleEvent, List.map_map]
  exact List.map_id fields

theorem Conversion.prints_digit (conversion : Conversion) (one : Bool)
    : conversion.prints (if one then '1' else '0') = true := by
  cases conversion <;> cases one <;> rfl

theorem Field.prints_digit (f : Field) (one : Bool)
    : f.prints (if one then '1' else '0') = true := by
  rw [Field.prints, f.conversion.prints_digit, Bool.true_or]

def digitEvent (one : Field → Bool) (fields : List Field) : List PrintedField :=
  singleEvent (fun f => if one f then '1' else '0') (fun f => f.prints_digit (one f)) fields

theorem digitEvent_fields (one : Field → Bool) (fields : List Field)
    : (digitEvent one fields).map PrintedField.field = fields :=
  singleEvent_fields _ fields

/-- A single 0 stands behind each equals sign of an event of zeros. -/
theorem zero_behind_equals {fields : List Field} {front back : Text}
    (split : eventLine (digitEvent (fun _ => false) fields) = front ++ '=' :: back)
    : ∃ rest, back = '0' :: rest ∧ ∀ c, rest.head? = some c → c = ' ' := by
  induction fields generalizing front with
  | nil => simp [eventLine, digitEvent, singleEvent] at split
  | cons f fields ih =>
      obtain ⟨tail, whole, shape⟩ : ∃ tail,
          eventLine (digitEvent (fun _ => false) (f :: fields)) = f.name ++ '=' :: '0' :: tail
          ∧ (tail = [] ∨ tail = ' ' :: eventLine (digitEvent (fun _ => false) fields)) := by
        cases fields with
        | nil => exact ⟨[], List.intercalate_singleton, .inl rfl⟩
        | cons g fields =>
            refine ⟨_, ?_, .inr rfl⟩
            simp [eventLine, digitEvent, singleEvent, List.intercalate_cons_cons]
      have ends : ∀ c, tail.head? = some c → c = ' ' := by
        intro c first
        rcases shape with rfl | rfl
        · cases first
        · exact (Option.some.inj first).symm
      rw [whole] at split
      rcases List.append_eq_append_iff.mp split with ⟨gap, _, parts⟩ | ⟨gap, named, parts⟩
      · rcases gap with _ | ⟨equals, _ | ⟨zero, gap⟩⟩
        · exact ⟨tail, (List.cons.inj parts).2.symm, ends⟩
        · cases (List.cons.inj (List.cons.inj parts).2).1
        · -- behind the first value
          have later := (List.cons.inj (List.cons.inj parts).2).2
          rcases shape with rfl | rfl
          · simp at later
          · rcases gap with _ | ⟨blank, gap⟩
            · cases (List.cons.inj later).1
            · exact ih (List.cons.inj later).2
      · rcases gap with _ | ⟨equals, gap⟩
        · exact ⟨tail, (List.cons.inj parts).2, ends⟩
        · obtain rfl := (List.cons.inj parts).1
          have inName : '=' ∈ f.name := by simp [named]
          exact absurd inName (f.not_mem_name (by decide))

end Events

section Unknown

variable {script : Script}

theorem percent_not_zero {tokens : List Token} {trace : Trace}
    (begins : trace.map Prod.fst = .char '%' :: tokens)
    (fits : ∀ step ∈ trace, step.1.Fits step.2) (back rest : Text)
    : trace.flatMap Prod.snd ++ back ≠ '0' :: rest := by
  intro equal
  obtain ⟨step, trace, rfl, first, _⟩ := List.map_eq_cons_iff.mp begins
  have own := fits step List.mem_cons_self
  rw [first] at own
  have part : step.2 = ['%'] := own
  rw [List.flatMap_cons, part] at equal
  cases (List.cons.inj equal).1

/-- What is matched for a conversion that is not replaced is no single 0. -/
theorem unknown_not_zero {conversion : Conversion} (unknown : script.setOf conversion = none)
    {trace : Trace}
    (tokens : trace.map Prod.fst = (conversionTokens script conversion).filter Token.solid)
    (fits : ∀ step ∈ trace, step.1.Fits step.2) {rest : Text}
    (ends : ∀ c, rest.head? = some c → c = ' ') (back : Text)
    : trace.flatMap Prod.snd ++ back ≠ '0' :: rest := by
  cases conversion with
  | string =>
      cases script with
      | vmscan => cases unknown
      | pageAlloc => exact percent_not_zero tokens fits back rest
  | long =>
      cases script with
      | vmscan => cases unknown
      | pageAlloc => exact percent_not_zero tokens fits back rest
  | pointer => cases script <;> cases unknown
  | int => cases script <;> cases unknown
  | unsignedLong => cases script <;> cases unknown
  | other spec chars notKnown =>
      cases script with
      | vmscan => exact percent_not_zero tokens fits back rest
      | pageAlloc => exact percent_not_zero tokens fits back rest
  | extended first extension letter chars =>
      -- the class takes nothing or the 0, and the extension's letter does not follow
      intro equal
      obtain ⟨hexStep, trace, rfl, hexToken, tokens⟩ := List.map_eq_cons_iff.mp tokens
      obtain ⟨letterStep, trace, rfl, letterToken, _⟩ := List.map_eq_cons_iff.mp tokens
      have hexFits := fits hexStep List.mem_cons_self
      have letterFits := fits letterStep (List.mem_cons_of_mem hexStep List.mem_cons_self)
      rw [hexToken] at hexFits
      rw [letterToken] at letterFits
      have part : letterStep.2 = [first] := letterFits
      rw [List.flatMap_cons, List.flatMap_cons, part] at equal
      rcases parts : hexStep.2 with _ | ⟨zero, _ | ⟨blank, more⟩⟩
      · rw [parts] at equal
        obtain rfl : first = '0' := (List.cons.inj equal).1
        cases letter
      · rw [parts] at equal
        obtain rfl : first = ' ' := ends first (by rw [← (List.cons.inj equal).2]; rfl)
        cases letter
      · rw [parts] at equal
        obtain rfl : blank = ' ' := ends blank (by rw [← (List.cons.inj equal).2]; rfl)
        have inHex : inSet "0-9a-f".toList ' ' = true := hexFits ' ' (by simp [parts])
        exact absurd inHex (by decide)

/-- A format with a conversion that is not replaced gives an expression that does not match. -/
theorem known_of_captures {fields : List Field} {keys expected : List Text}
    (captured : CapturesExpected fields
      (ungroupAll keys expected (render (formatTokens script fields))))
    {f : Field} (member : f ∈ fields) : script.setOf f.conversion ≠ none := by
  intro unknown
  obtain ⟨tokens, result, plain, solid⟩ :=
    ungroupAll_render (formatTokens_plain fields) keys expected
  have found := captured (digitEvent (fun _ => false) fields) (digitEvent_fields _ fields)
  rw [result] at found
  obtain ⟨read, trace, isRead, matched, _⟩ := exists_search_of_capture found
  obtain rfl : tokens = read := Option.some.inj ((tokensOf_render plain).symm.trans isRead)
  obtain ⟨front, text, line, fitting⟩ := search_fitting matched
  -- the match, without parentheses, has a part for this field
  obtain ⟨tokens_eq, fits, tail, parts⟩ := fitting.solid
  have inside : fieldTokens script f <:+: formatTokens script fields :=
    infix_intercalate (List.mem_map_of_mem member)
  obtain ⟨before, after, split⟩ := inside.filter Token.solid
  have order : (trace.filter (·.1.solid)).map Prod.fst
      = (before ++ f.name.map .char) ++ .char '='
        :: ((conversionTokens script f.conversion).filter Token.solid ++ after) := by
    rw [tokens_eq, solid, ← split, fieldTokens, List.filter_append, filter_solid_char]
    simp only [List.map_append, List.map_cons, List.map_nil, List.append_assoc,
      List.cons_append, List.nil_append]
  obtain ⟨earlier, fromEquals, steps, _, laterOrder⟩ := List.map_eq_append_iff.mp order
  obtain ⟨equals, behind, rfl, equalsToken, behindOrder⟩ := List.map_eq_cons_iff.mp laterOrder
  obtain ⟨own, rest, rfl, ownOrder, _⟩ := List.map_eq_append_iff.mp behindOrder
  rw [steps] at fits parts
  have equalsFits := fits equals (by simp)
  rw [equalsToken] at equalsFits
  have equalsPart : equals.2 = ['='] := equalsFits
  have whole : eventLine (digitEvent (fun _ => false) fields)
      = (front ++ earlier.flatMap Prod.snd)
        ++ '=' :: (own.flatMap Prod.snd ++ (rest.flatMap Prod.snd ++ tail)) := by
    rw [line, ← parts]
    simp only [List.flatMap_append, List.flatMap_cons, equalsPart, List.append_assoc,
      List.cons_append, List.nil_append]
  obtain ⟨zeros, zero, ends⟩ := zero_behind_equals whole
  exact unknown_not_zero unknown ownOrder (fun step inOwn => fits step (by simp [inOwn])) ends _ zero

end Unknown

section Known

variable {script : Script}

variable {conversion : Conversion} {set : Text}

theorem inSet_digit (known : script.setOf conversion = some set) (one : Bool)
    : inSet set (if one then '1' else '0') = true := by
  cases conversion <;> cases script <;> cases known <;> cases one <;> decide

/-- The set of a conversion is a class, and a blank is not in it. -/
theorem set_valid (known : script.setOf conversion = some set)
    : (∀ c ∈ set, isSetChar c = true) ∧ inSet set ' ' = false := by
  cases conversion <;> cases script <;> cases known <;>
    exact ⟨List.all_eq_true.mp (by decide), by decide⟩

def slotOf (script : Script) (grouped : Bool) (f : Field) (value : Text) : Slot where
  label := f.name ++ ['=']
  set := (script.setOf f.conversion).getD []
  grouped := grouped
  value := value

theorem slotOf_valid (grouped : Bool) {f : Field} (known : script.setOf f.conversion = some set)
    {value : Text}
    (inside : ∀ c ∈ value, inSet set c = true) : (slotOf script grouped f value).Valid ' ' := by
  have set_eq : (slotOf script grouped f value).set = set := by
    rw [slotOf, known, Option.getD_some]
  refine ⟨?_, ?_, ?_, ?_⟩
  · intro c member
    rcases List.mem_append.mp member with inName | equals
    · exact decide_eq_false (f.name_free (by decide) c inName)
    · cases List.mem_singleton.mp equals
      decide
  · rw [set_eq]
    exact (set_valid known).1
  · rw [set_eq]
    exact inside
  · rw [set_eq]
    exact (set_valid known).2

theorem conversionTokens_known (known : script.setOf conversion = some set)
    : conversionTokens script conversion = [.opens, .many set, .closes] := by
  cases conversion <;> cases script <;> cases known <;> rfl

def bareTokens (script : Script) (f : Field) : List Token :=
  (f.name ++ ['=']).map .char ++ [.many ((script.setOf f.conversion).getD [])]

theorem slotOf_tokens {f : Field} (known : script.setOf f.conversion ≠ none) (value : Text)
    : (slotOf script true f value).tokens = fieldTokens script f := by
  obtain ⟨set, is⟩ := Option.ne_none_iff_exists'.mp known
  rw [fieldTokens, conversionTokens_known is]
  simp [Slot.tokens, slotOf, is]

theorem filter_append_eq_left {α : Type} {p : α → Bool} {front back : List α}
    (kept : ∀ x ∈ front, p x = true) (dropped : ∀ x ∈ back, p x = false)
    : (front ++ back).filter p = front := by
  have none : back.filter p = [] := List.filter_eq_nil_iff.mpr fun x mem => by simp [dropped x mem]
  rw [List.filter_append, List.filter_eq_self.mpr kept, none, List.append_nil]

def PrintedField.InClass (script : Script) (p : PrintedField) : Prop :=
  ∃ set, script.setOf p.field.conversion = some set ∧ ∀ c ∈ p.value, inSet set c = true

/-- Fields with values of their classes are captured, whatever other slots and text follow. -/
theorem capture_front {front : List PrintedField} (inClass : ∀ p ∈ front, p.InClass script)
    (last : List Slot) (behind : Text) (valid : ∀ slot ∈ last, slot.Valid ' ')
    (bare : ∀ slot ∈ last, slot.grouped = false)
    (stops : ∀ slot ∈ (front.map (fun p => slotOf script true p.field p.value) ++ last).getLast?,
      ∀ c ∈ behind.head?, inSet slot.set c = false)
    : capture (render ([.char ' '].intercalate (front.map (fieldTokens script ·.field)
        ++ last.map Slot.tokens)))
        ([' '].intercalate (front.map (fun p => p.field.name ++ '=' :: p.value)
          ++ last.map Slot.text) ++ behind)
      = some (front.map PrintedField.value) := by
  set own : PrintedField → Slot := fun p => slotOf script true p.field p.value with own_eq
  have allValid : ∀ slot ∈ front.map own ++ last, slot.Valid ' ' := by
    intro slot member
    rcases List.mem_append.mp member with inFront | inLast
    · obtain ⟨p, isField, rfl⟩ := List.mem_map.mp inFront
      obtain ⟨set, known, inside⟩ := inClass p isField
      exact slotOf_valid true known inside
    · exact valid slot inLast
  have captured := capture_slots (by decide) allValid stops
  have tokens : (front.map own ++ last).map Slot.tokens
      = front.map (fieldTokens script ·.field) ++ last.map Slot.tokens := by
    rw [List.map_append, List.map_map]
    congr 1
    apply List.map_congr_left
    intro p member
    obtain ⟨set, known, _⟩ := inClass p member
    exact slotOf_tokens (by simp [known]) p.value
  have line : (front.map own ++ last).map Slot.text
      = front.map (fun p => p.field.name ++ '=' :: p.value) ++ last.map Slot.text := by
    simp [own_eq, Slot.text, slotOf, Function.comp_def]
  have values : ((front.map own ++ last).filter Slot.grouped).map Slot.value
      = front.map PrintedField.value := by
    rw [filter_append_eq_left (by simp [own_eq, slotOf]) bare]
    simp [own_eq, slotOf, Function.comp_def]
  rwa [tokens, line, values] at captured

theorem capture_fields {event : List PrintedField} (inClass : ∀ p ∈ event, p.InClass script)
    : capture (render ([.char ' '].intercalate (event.map (fieldTokens script ·.field))))
        (eventLine event)
      = some (event.map PrintedField.value) := by
  have captured := capture_front inClass [] [] (by simp) (by simp) (by simp)
  rw [List.map_nil, List.append_nil, List.map_nil, List.append_nil, List.append_nil] at captured
  exact captured

/-- The last field, which is not captured, may have any value: the match ends inside of it. -/
theorem capture_earlier {front : List PrintedField} (inClass : ∀ p ∈ front, p.InClass script)
    {p : PrintedField} (known : script.setOf p.field.conversion ≠ none)
    : capture (render ([.char ' '].intercalate (front.map (fieldTokens script ·.field)
        ++ [bareTokens script p.field]))) (eventLine (front ++ [p]))
      = some (front.map PrintedField.value) := by
  obtain ⟨set, is⟩ := Option.ne_none_iff_exists'.mp known
  set slot := slotOf script false p.field (p.value.takeWhile (inSet set)) with slot_eq
  have valid : slot.Valid ' ' :=
    slotOf_valid false is fun c member => List.mem_takeWhile_imp member
  have captured := capture_front inClass [slot] (p.value.dropWhile (inSet set))
    (by simpa using valid) (by simp [slot_eq, slotOf]) (by
      intro last isLast c first
      rw [List.getLast?_concat] at isLast
      cases isLast
      rw [slot_eq, slotOf, is, Option.getD_some]
      have stopped := List.head?_dropWhile_not (inSet set) p.value
      rw [first] at stopped
      simpa using stopped)
  have tokens : slot.tokens = bareTokens script p.field := by
    simp [slot_eq, Slot.tokens, slotOf, bareTokens, is]
  have line : [' '].intercalate (front.map (fun p => p.field.name ++ '=' :: p.value)
        ++ [slot.text]) ++ p.value.dropWhile (inSet set)
      = eventLine (front ++ [p]) := by
    rw [eventLine, List.map_append, List.map_singleton, intercalate_concat, intercalate_concat]
    simp [slot_eq, Slot.text, slotOf, List.takeWhile_append_dropWhile]
  rwa [List.map_singleton, List.map_singleton, tokens, line] at captured

end Known

section Fields

variable {script : Script}

theorem render_known {f : Field} {set : Text} (known : script.setOf f.conversion = some set)
    : render (fieldTokens script f)
      = f.name ++ '=' :: '(' :: ((Token.many set).text ++ [')']) := by
  rw [render_fieldTokens, conversionTokens_known known]
  rfl

/-- A key is found in a field exactly if the field's name ends in it. -/
theorem key_infix_iff {f : Field} (known : script.setOf f.conversion ≠ none) (key : Text)
    : key ++ ['=', '('] <:+: render (fieldTokens script f) ↔ key <:+ f.name := by
  obtain ⟨set, is⟩ := Option.ne_none_iff_exists'.mp known
  constructor
  · rintro ⟨before, after, split⟩
    have once : '=' ∉ render (conversionTokens script f.conversion) := fun member =>
      not_mem_separators_of_conversion script f.conversion member (by decide)
    have equal : f.name ++ '=' :: render (conversionTokens script f.conversion)
        = (before ++ key) ++ '=' :: ('(' :: after) := by
      rw [← render_fieldTokens, ← split]
      simp only [List.append_assoc, List.cons_append, List.nil_append]
    have name_eq :=
      ((List.append_cons_inj_of_notMem (f.not_mem_name (by decide)) once).mp equal).1
    exact ⟨before, name_eq.symm⟩
  · rintro ⟨before, name_eq⟩
    refine ⟨before, (Token.many set).text ++ [')'], ?_⟩
    rw [render_known is, ← name_eq]
    simp only [List.append_assoc, List.cons_append, List.nil_append]

variable {earlier : List Field} {last : Field}

def frontText (script : Script) (earlier : List Field) : Text :=
  (earlier.map fun f => render (fieldTokens script f)).flatMap (· ++ [' '])

theorem render_format (earlier : List Field) (tokens : List Token)
    : render ([.char ' '].intercalate (earlier.map (fieldTokens script) ++ [tokens]))
      = frontText script earlier ++ render tokens := by
  rw [render_intercalate, List.map_append, List.map_singleton, intercalate_concat, List.map_map]
  rfl

/-- A substitution for the end of an earlier field's name leaves the last group open. -/
theorem earlier_unclosed (known : script.setOf last.conversion ≠ none) {f : Field}
    (member : f ∈ earlier) (fKnown : script.setOf f.conversion ≠ none) {key : Text}
    (suffix : key <:+ f.name)
    : Unclosed (ungroup key (render (formatTokens script (earlier ++ [last])))) := by
  obtain ⟨set, is⟩ := Option.ne_none_iff_exists'.mp known
  have whole : render (formatTokens script (earlier ++ [last]))
      = (frontText script earlier ++ (last.name ++ ['=']))
        ++ '(' :: ((Token.many set).text ++ [')']) := by
    rw [formatTokens, List.map_append, List.map_singleton, render_format, render_known is]
    simp only [List.append_assoc, List.cons_append, List.nil_append]
  have inField := (key_infix_iff fKnown key).mpr suffix
  have inFront : render (fieldTokens script f) <:+: frontText script earlier := by
    obtain ⟨before, after, rfl⟩ := List.append_of_mem member
    refine ⟨frontText script before, ' ' :: frontText script after, ?_⟩
    simp only [frontText, List.map_append, List.map_cons, List.flatMap_append, List.flatMap_cons,
      List.append_assoc, List.cons_append, List.nil_append]
  have free : ')' ∉ (Token.many set).text := by
    intro inside
    have plain : (Token.many set).Plain := (set_valid is).1
    cases eq_of_mem_text (u := .closes) rfl plain rfl inside
  rw [whole]
  exact ungroup_unclosed ((inField.trans inFront).trans (List.prefix_append _ _).isInfix) free

/-- The last field loses its parentheses if no other name ends in its name. -/
theorem ungroup_last (known : ∀ f ∈ earlier ++ [last], script.setOf f.conversion ≠ none)
    (notSuffix : ∀ f ∈ earlier, ¬ last.name <:+ f.name)
    : ungroup last.name (render (formatTokens script (earlier ++ [last])))
      = render ([.char ' '].intercalate
          (earlier.map (fieldTokens script) ++ [bareTokens script last])) := by
  obtain ⟨set, is⟩ := Option.ne_none_iff_exists'.mp (known last (by simp))
  have whole : render (formatTokens script (earlier ++ [last]))
      = frontText script earlier ++ ((last.name ++ ['=', '('])
        ++ ((Token.many set).text ++ ')' :: [])) := by
    rw [formatTokens, List.map_append, List.map_singleton, render_format, render_known is]
    simp only [List.append_assoc, List.cons_append, List.nil_append]
  have first : firstOccurrence (last.name ++ ['=', '(']) (frontText script earlier
      ++ ((last.name ++ ['=', '(']) ++ ((Token.many set).text ++ ')' :: [])))
      = some (frontText script earlier).length := by
    have apart : ' ' ∉ last.name ++ ['=', '('] := by
      rw [List.mem_append, not_or]
      exact ⟨last.not_mem_name (by decide), by decide⟩
    apply firstOccurrence_pieces apart (by simp) _ (List.prefix_append _ _)
    intro piece isPiece
    obtain ⟨f, member, rfl⟩ := List.mem_map.mp isPiece
    rw [key_infix_iff (known f (List.mem_append_left _ member))]
    exact notSuffix f member
  rw [whole, ungroup_found first List.not_mem_nil, render_format, bareTokens, render_append,
    render_char, is, Option.getD_some, List.append_nil, List.append_assoc, List.singleton_append]
  congr 3
  exact (List.append_nil _).symm

end Fields

section Formats

variable {script : Script} {fields : List Field}

/-- An expression with a group that is left open cannot be compiled. -/
theorem not_captures_of_unclosed {keys expected : List Text}
    (unclosed : Unclosed (ungroupAll keys expected (render (formatTokens script fields))))
    : ¬ CapturesExpected fields
        (ungroupAll keys expected (render (formatTokens script fields))) := by
  intro captured
  obtain ⟨tokens, result, plain, _⟩ :=
    ungroupAll_render (formatTokens_plain fields) keys expected
  have found := captured (digitEvent (fun _ => false) fields) (digitEvent_fields _ fields)
  rw [result] at found unclosed
  rw [capture_unclosed plain unclosed] at found
  cases found

/-- Names that are expected leave the expression as it is. -/
theorem ungroupAll_names (keys later rest : List Text) (regex : Text)
    : ungroupAll (keys ++ later) (keys ++ rest) regex = ungroupAll later rest regex := by
  induction keys with
  | nil => rfl
  | cons key keys ih =>
      rw [List.cons_append, List.cons_append, ungroupAll, if_neg (by simp)]
      exact ih

theorem ungroupAll_last (earlier : List Field) (last : Field) (regex : Text)
    : ungroupAll ((earlier ++ [last]).map Field.name) (earlier.map Field.name) regex
      = ungroup last.name regex := by
  have names := ungroupAll_names (earlier.map Field.name) [last.name] [] regex
  rw [List.append_nil] at names
  rw [List.map_append, List.map_singleton, names]
  exact if_pos last.name_nonempty

theorem digitEvent_inClass (known : ∀ f ∈ fields, script.setOf f.conversion ≠ none)
    (one : Field → Bool) {p : PrintedField} (member : p ∈ digitEvent one fields)
    : p.InClass script := by
  obtain ⟨f, isField, rfl⟩ := List.mem_map.mp member
  obtain ⟨set, is⟩ := Option.ne_none_iff_exists'.mp (known f isField)
  refine ⟨set, is, fun c inValue => ?_⟩
  cases List.mem_singleton.mp inValue
  exact inSet_digit is (one f)

/-- The values that are captured are those of the expected fields only if all the earlier fields
are expected.
-/
theorem expected_of_captures {earlier : List Field} {last : Field}
    (known : ∀ f ∈ earlier ++ [last], script.setOf f.conversion ≠ none)
    (captured : CapturesExpected (earlier ++ [last]) (render ([.char ' '].intercalate
      (earlier.map (fieldTokens script) ++ [bareTokens script last]))))
    : ∀ f ∈ earlier, f.expected = true := by
  -- in this event, the values of the expected fields are 0 and those of the others 1
  have fields_eq := digitEvent_fields (fun f => !f.expected) (earlier ++ [last])
  have inClass := fun p => digitEvent_inClass known (fun f => !f.expected) (p := p)
  set event := digitEvent (fun f => !f.expected) (earlier ++ [last]) with event_def
  obtain ⟨front, back, event_eq, rfl, lastField⟩ := List.map_eq_append_iff.mp fields_eq
  obtain ⟨p, rfl, rfl⟩ := List.map_eq_singleton_iff.mp lastField
  have frontInClass : ∀ q ∈ front, q.InClass script := by
    intro q inFront
    exact inClass q (by rw [event_eq]; exact List.mem_append_left _ inFront)
  have values := capture_earlier frontInClass (known p.field (by simp))
  rw [← event_eq] at values
  rw [List.map_map] at captured
  have same := Option.some.inj (values.symm.trans (captured event fields_eq))
  have value_eq {r : PrintedField} (isPrinted : r ∈ event)
      : r.value = [if !r.field.expected then '1' else '0'] := by
    obtain ⟨g, _, rfl⟩ := List.mem_map.mp isPrinted
    rfl
  intro f member
  obtain ⟨q, inFront, rfl⟩ := List.mem_map.mp member
  have inEvent : q ∈ event := by
    rw [event_eq]
    exact List.mem_append_left [p] inFront
  have captive : q.value ∈ front.map PrintedField.value := List.mem_map_of_mem inFront
  rw [same] at captive
  obtain ⟨r, isExpected, equal⟩ := List.mem_map.mp captive
  obtain ⟨isPrinted, expected⟩ := List.mem_filter.mp isExpected
  rw [value_eq isPrinted, value_eq inEvent, expected] at equal
  cases kind : q.field.expected with
  | true => rfl
  | false => simp [kind] at equal

/-- The values that are printed for a field are of the class that the script puts in. -/
def Field.InClass (script : Script) (f : Field) : Prop :=
  ∀ set ∈ script.setOf f.conversion, ∀ c, f.prints c = true → inSet set c = true

theorem Field.InClass.printed {f : Field} (inClass : f.InClass script)
    (known : script.setOf f.conversion ≠ none) {p : PrintedField} (isField : p.field = f)
    : p.InClass script := by
  obtain ⟨set, is⟩ := Option.ne_none_iff_exists'.mp known
  subst isField
  exact ⟨set, is, fun c member => inClass set is c (p.printed c member)⟩

/-- What is captured for a field is of the class that is put in, whatever the line. -/
theorem captured_inClass {earlier extra : List Field}
    (known : ∀ f ∈ earlier ++ extra, script.setOf f.conversion ≠ none) {line : Text}
    {values : List Text}
    (found : capture (render ([.char ' '].intercalate
      (earlier.map (fieldTokens script) ++ extra.map (bareTokens script)))) line = some values)
    : List.Forall₂ (fun f value => ∀ set ∈ script.setOf f.conversion, ∀ c ∈ value,
        inSet set c = true) earlier values := by
  set slots := earlier.map (slotOf script true · []) ++ extra.map (slotOf script false · [])
    with slots_eq
  have tokens : slots.map Slot.tokens
      = earlier.map (fieldTokens script) ++ extra.map (bareTokens script) := by
    rw [slots_eq, List.map_append, List.map_map, List.map_map]
    congr 1
    apply List.map_congr_left
    intro g isField
    exact slotOf_tokens (known g (List.mem_append_left _ isField)) []
  have valid : ∀ slot ∈ slots, slot.Valid ' ' := by
    intro slot isSlot
    rcases List.mem_append.mp isSlot with inEarlier | inExtra
    · obtain ⟨g, isField, rfl⟩ := List.mem_map.mp inEarlier
      obtain ⟨_, is⟩ := Option.ne_none_iff_exists'.mp (known g (List.mem_append_left _ isField))
      exact slotOf_valid true is (List.forall_mem_nil _)
    · obtain ⟨g, isField, rfl⟩ := List.mem_map.mp inExtra
      obtain ⟨_, is⟩ := Option.ne_none_iff_exists'.mp (known g (List.mem_append_right _ isField))
      exact slotOf_valid false is (List.forall_mem_nil _)
  have grouped : slots.filter Slot.grouped = earlier.map (slotOf script true · []) :=
    filter_append_eq_left (by simp [slotOf]) (by simp [slotOf])
  rw [← tokens] at found
  have inside := capture_inside (by decide) valid found
  rw [grouped, List.forall₂_map_left_iff] at inside
  refine inside.imp fun f value own set is c member => ?_
  have own := own c member
  rwa [slotOf, is, Option.getD_some] at own

/-- What is captured is of the classes, so only such values may be printed for expected fields:
with another character, an event that has it wherever it is printed is not captured.
-/
theorem inClass_of_captures (earlier extra : List Field)
    (known : ∀ f ∈ earlier ++ extra, script.setOf f.conversion ≠ none)
    (expected : ∀ f ∈ earlier, f.expected = true) (additional : ∀ f ∈ extra, f.expected = false)
    (captured : CapturesExpected (earlier ++ extra) (render ([.char ' '].intercalate
      (earlier.map (fieldTokens script) ++ extra.map (bareTokens script)))))
    {f : Field} (member : f ∈ earlier)
    : f.InClass script := by
  intro set is c prints
  -- the event in which every field that can print `c` does so
  set value : Field → Char := fun g => if g.prints c then c else '0' with value_eq
  have printed (g : Field) : g.prints (value g) = true := by
    simp only [value_eq]
    split
    next own => exact own
    next => exact g.prints_digit false
  have found := captured (singleEvent value printed (earlier ++ extra))
    (singleEvent_fields printed (earlier ++ extra))
  have values : ((singleEvent value printed (earlier ++ extra)).filter (·.field.expected)).map
      PrintedField.value = earlier.map fun g => [value g] := by
    rw [singleEvent, List.filter_map, List.map_map]
    exact congrArg (List.map _) (filter_append_eq_left expected additional)
  rw [values] at found
  have inside := captured_inClass known found
  rw [List.forall₂_map_right_iff, List.forall₂_same] at inside
  exact inside f member set is c (by simp [value_eq, prints])

theorem ungroupAll_all_expected (all : ∀ f ∈ fields, f.expected = true) (regex : Text)
    : ungroupAll (fields.map Field.name) (expectedNames fields) regex = regex := by
  have same := ungroupAll_names (fields.map Field.name) [] [] regex
  rw [List.append_nil] at same
  rw [expectedNames, List.filter_eq_self.mpr all, same, ungroupAll]

theorem captures_of_all_expected (known : ∀ f ∈ fields, script.setOf f.conversion ≠ none)
    (inClass : ∀ f ∈ fields, f.expected = true → f.InClass script)
    (all : ∀ f ∈ fields, f.expected = true)
    : CapturesExpected fields (ungroupAll (fields.map Field.name) (expectedNames fields)
        (render (formatTokens script fields))) := by
  rw [ungroupAll_all_expected all]
  rintro event rfl
  have allExpected : event.filter (·.field.expected) = event :=
    List.filter_eq_self.mpr fun p member => all p.field (List.mem_map_of_mem member)
  rw [allExpected, formatTokens, List.map_map]
  apply capture_fields
  intro p member
  have isField := List.mem_map_of_mem (f := PrintedField.field) member
  exact (inClass p.field isField (all p.field isField)).printed (known p.field isField) rfl

theorem captures_of_last_additional {earlier : List Field} {last : Field}
    (known : ∀ f ∈ earlier ++ [last], script.setOf f.conversion ≠ none)
    (inClass : ∀ f ∈ earlier ++ [last], f.expected = true → f.InClass script)
    (expected : ∀ f ∈ earlier, f.expected = true) (additional : last.expected = false)
    (notSuffix : ∀ f ∈ earlier, ¬ last.name <:+ f.name)
    : CapturesExpected (earlier ++ [last]) (ungroupAll ((earlier ++ [last]).map Field.name)
        (expectedNames (earlier ++ [last])) (render (formatTokens script (earlier ++ [last])))) := by
  have names : expectedNames (earlier ++ [last]) = earlier.map Field.name := by
    rw [expectedNames, filter_append_eq_left expected (by simp [additional])]
  rw [names, ungroupAll_last, ungroup_last known notSuffix]
  intro event fields_eq
  obtain ⟨front, back, rfl, rfl, lastField⟩ := List.map_eq_append_iff.mp fields_eq
  obtain ⟨p, rfl, rfl⟩ := List.map_eq_singleton_iff.mp lastField
  have onlyFront : (front ++ [p]).filter (·.field.expected) = front :=
    filter_append_eq_left (fun q member => expected q.field (List.mem_map_of_mem member))
      (by simp [additional])
  rw [onlyFront, List.map_map]
  refine capture_earlier (fun q member => ?_) (known p.field (by simp))
  have isField := List.mem_map_of_mem (f := PrintedField.field) member
  have inFields := List.mem_append_left [p.field] isField
  exact (inClass q.field inFields (expected q.field isField)).printed (known q.field inFields) rfl

/-- With an additional field, the other fields are the expected ones and the last one is
additional, and is found first.
-/
theorem last_additional_of_captures (known : ∀ f ∈ fields, script.setOf f.conversion ≠ none)
    (captured : CapturesExpected fields (ungroupAll (fields.map Field.name) (expectedNames fields)
      (render (formatTokens script fields))))
    (some : ¬ ∀ f ∈ fields, f.expected = true)
    : ∃ earlier last, fields = earlier ++ [last] ∧ (∀ f ∈ earlier, f.expected = true)
      ∧ last.expected = false ∧ (∀ f ∈ earlier, ¬ last.name <:+ f.name)
      ∧ CapturesExpected fields (render ([.char ' '].intercalate
        (earlier.map (fieldTokens script) ++ [bareTokens script last]))) := by
  rcases List.eq_nil_or_concat' fields with rfl | ⟨earlier, last, rfl⟩
  · exact absurd (by simp) some
  have lastKnown := known last (by simp)
  have opens : ∀ key ∈ earlier.map Field.name,
      key ≠ [] ∧ Unclosed (ungroup key (render (formatTokens script (earlier ++ [last])))) := by
    intro key isName
    obtain ⟨f, member, rfl⟩ := List.mem_map.mp isName
    exact ⟨f.name_nonempty, earlier_unclosed lastKnown member
      (known f (List.mem_append_left _ member)) (List.suffix_refl f.name)⟩
  rcases ungroupAll_append opens [last.name] (expectedNames (earlier ++ [last])) with
    ⟨rest, names, result⟩ | unclosed
  · -- the names before the last one are the expected ones
    have fewer : (expectedNames (earlier ++ [last])).length < (earlier ++ [last]).length := by
      obtain ⟨f, member, additional⟩ : ∃ f ∈ earlier ++ [last], ¬ f.expected = true := by
        simpa only [not_forall, exists_prop] using some
      rw [expectedNames, List.length_map]
      exact List.length_filter_lt_length_iff_exists.mpr ⟨f, member, additional⟩
    obtain rfl : rest = [] := by
      rw [names] at fewer
      simp only [List.length_append, List.length_map, List.length_singleton] at fewer
      exact List.length_eq_zero_iff.mp (by omega)
    rw [List.append_nil] at names
    have regex_eq := ungroupAll_last earlier last (render (formatTokens script (earlier ++ [last])))
    rw [← names] at regex_eq
    have notSuffix : ∀ f ∈ earlier, ¬ last.name <:+ f.name := by
      intro f member suffix
      have unclosed := earlier_unclosed lastKnown member
        (known f (List.mem_append_left _ member)) suffix
      rw [← regex_eq] at unclosed
      exact not_captures_of_unclosed unclosed captured
    rw [regex_eq, ungroup_last known notSuffix] at captured
    have expected := expected_of_captures known captured
    refine ⟨earlier, last, rfl, expected, ?_, notSuffix, captured⟩
    rw [← Bool.not_eq_true]
    intro lastExpected
    apply some
    intro f member
    rcases List.mem_append.mp member with inEarlier | isLast
    · exact expected f inEarlier
    · rwa [List.mem_singleton.mp isLast]
  · rw [List.map_append] at captured
    exact absurd captured (not_captures_of_unclosed unclosed)

/-- The fields of a format are captured as expected exactly if all its conversions are replaced,
the values of expected fields have no other characters than the classes that are put in, and the
only additional field, if any, is the last one, whose name no other name ends in. In the other
cases there is an event of single characters that is not captured so.
-/
theorem skipsCleanly_iff (file : FormatFile script fields) (event default : Text)
    : SkipsCleanly file event default
      ↔ (∀ f ∈ fields, script.setOf f.conversion ≠ none)
        ∧ (∀ f ∈ fields, f.expected = true → f.InClass script)
        ∧ ((∀ f ∈ fields, f.expected = true)
          ∨ ∃ earlier last, fields = earlier ++ [last] ∧ (∀ f ∈ earlier, f.expected = true)
            ∧ last.expected = false ∧ ∀ f ∈ earlier, ¬ last.name <:+ f.name) := by
  rw [skipsCleanly_iff_captures]
  constructor
  · intro captured
    have known := fun f (member : f ∈ fields) => known_of_captures captured member
    refine ⟨known, ?_⟩
    by_cases all : ∀ f ∈ fields, f.expected = true
    · rw [ungroupAll_all_expected all, formatTokens] at captured
      refine ⟨fun f member _ => ?_, .inl all⟩
      exact inClass_of_captures fields [] (by simpa using known) all
        (by simp) (by simpa using captured) member
    · obtain ⟨earlier, last, rfl, expected, additional, notSuffix, bare⟩ :=
        last_additional_of_captures known captured all
      refine ⟨fun f member isExpected => ?_,
        .inr ⟨earlier, last, rfl, expected, additional, notSuffix⟩⟩
      rcases List.mem_append.mp member with inEarlier | isLast
      · exact inClass_of_captures earlier [last] known expected (by simpa using additional) bare
          inEarlier
      · rw [List.mem_singleton.mp isLast, additional] at isExpected
        cases isExpected
  · rintro ⟨known, inClass, all | ⟨earlier, last, rfl, expected, additional, notSuffix⟩⟩
    · exact captures_of_all_expected known inClass all
    · exact captures_of_last_additional known inClass expected additional notSuffix

def orderFirst : List Field :=
  [{ name := "order".toList
     name_chars := List.all_eq_true.mp (by decide)
     name_nonempty := by decide
     conversion := .int
     further := fun _ => false
     expected := false },
   { name := "nid".toList
     name_chars := List.all_eq_true.mp (by decide)
     name_nonempty := by decide
     conversion := .int
     further := fun _ => false
     expected := true }]

def orderFirstFile : FormatFile .vmscan orderFirst where
  before := []
  after := []
  others := by simp
  arguments := ", REC->order, REC->nid".toList
  plain := by
    rw [PlainArguments]
    decide

/-- The expression becomes `order=[-0-9]*) nid=([-0-9]*`. -/
theorem orderFirst_not_skipped : ¬ SkipsCleanly orderFirstFile [] [] := by
  rw [skipsCleanly_iff_captures]
  apply not_captures_of_unclosed
  exact ⟨"order=[-0-9]*) nid=".toList, "[-0-9]*".toList, by decide, by decide⟩

end Formats

end LinuxDoc.TracePostprocess.EventRegex
