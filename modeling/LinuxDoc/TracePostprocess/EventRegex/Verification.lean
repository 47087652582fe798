import LinuxDoc.TracePostprocess.EventRegex.Reading

/-! What the loop over the fields of a format does to its expression. -/

namespace LinuxDoc.TracePostprocess.EventRegex

open Foundations CaptureRegex

section Loop

variable {script : Script}

theorem keyOf_field (f : Field) : keyOf (render (fieldTokens script f)) = f.name := by
  have inside : ∀ c ∈ f.name, decide (c ≠ '=') = true := by
    intro c member
    exact decide_eq_true (ne_of_mem_of_not_mem member (f.not_mem_name (by decide)))
  rw [render_fieldTokens, keyOf, List.takeWhile_append_of_pos inside,
    List.takeWhile_cons_of_neg (by decide), List.append_nil]

theorem isSpace_field (f : Field) : ∀ c ∈ render (fieldTokens script f), isSpace c = false := by
  intro c member
  rw [render_fieldTokens] at member
  rcases List.mem_append.mp member with inName | inRest
  · exact isSpace_eq_false (f.name_free (by decide) c inName)
  · rcases List.mem_cons.mp inRest with rfl | inConversion
    · decide
    · exact isSpace_eq_false (not_mem_separators_of_conversion script f.conversion inConversion)

/-- The tuples are the fields. -/
theorem tuplesOf_format (fields : List Field)
    : tuplesOf (render (formatTokens script fields))
      = fields.map fun f => render (fieldTokens script f) := by
  rcases List.eq_nil_or_concat' fields with rfl | ⟨earlier, last, rfl⟩
  · rfl
  · have split : (render (formatTokens script (earlier ++ [last]))).splitOnP isSpace
        = (earlier ++ [last]).map fun f => render (fieldTokens script f) := by
      rw [formatTokens, render_intercalate, List.map_map]
      apply splitOnP_intercalate (by decide) (by simp)
      intro piece known
      obtain ⟨f, _, rfl⟩ := List.mem_map.mp known
      exact isSpace_field f
    have kept : ¬ decide (render (fieldTokens script last) = []) = true := by
      simp [render_fieldTokens]
    rw [tuplesOf, split, List.map_append, List.map_singleton]
    exact List.rdropWhile_concat_neg _ _ _ kept

def ungroupAll : List Text → List Text → Text → Text
  | [], _, regex => regex
  | key :: keys, expected, regex =>
      ungroupAll keys expected.tail
        (if key ≠ expected.headD [] then ungroup key regex else regex)

/-- The loop, by induction on the fields. -/
theorem foldl_verifyTuple (event : Text) (fields : List Field) (v : Verified)
    : let last := (fields.map fun f => render (fieldTokens script f)).foldl
        (verifyTuple script event) v
      last.regex = ungroupAll (fields.map Field.name) v.expected v.regex
        ∧ last.expected = v.expected.drop fields.length := by
  induction fields generalizing v with
  | nil => exact ⟨rfl, rfl⟩
  | cons f fields ih =>
      have step : (verifyTuple script event v (render (fieldTokens script f))).regex
          = (if f.name ≠ v.expected.headD [] then ungroup f.name v.regex else v.regex)
          ∧ (verifyTuple script event v (render (fieldTokens script f))).expected
            = v.expected.tail := by
        rw [verifyTuple, keyOf_field]
        split
        next => exact ⟨rfl, rfl⟩
        next => exact ⟨rfl, rfl⟩
      have rest := ih (verifyTuple script event v (render (fieldTokens script f)))
      rw [step.1, step.2] at rest
      exact ⟨rest.1, rest.2.trans (by rw [List.drop_tail, List.length_cons])⟩

theorem expectedNames_length (fields : List Field)
    : (expectedNames fields).length ≤ fields.length := by
  rw [expectedNames, List.length_map]
  exact List.length_filter_le _ fields

/-- The expression that is returned for a format file. -/
theorem outcome_eq {fields : List Field} (file : FormatFile script fields) (event default : Text)
    : (generateTraceeventRegex script event default (some file.lines)
        (expectedNames fields)).outcome
      = .ok (ungroupAll (fields.map Field.name) (expectedNames fields)
          (render (formatTokens script fields))) := by
  have loop := @foldl_verifyTuple script event fields
    ⟨[], render (formatTokens script fields), expectedNames fields⟩
  have used : (expectedNames fields).drop fields.length = [] :=
    List.drop_eq_nil_iff.mpr (expectedNames_length fields)
  rw [generateTraceeventRegex_file, verify, tuplesOf_format]
  simp only [loop.1, loop.2, used, ne_eq, not_true_eq_false, if_false]

theorem skipsCleanly_iff_captures {fields : List Field} (file : FormatFile script fields)
    (event default : Text)
    : SkipsCleanly file event default
      ↔ CapturesExpected fields (ungroupAll (fields.map Field.name) (expectedNames fields)
          (render (formatTokens script fields))) := by
  rw [SkipsCleanly, outcome_eq]
  constructor
  · rintro ⟨regex, returned, captured⟩
    cases returned
    exact captured
  · intro captured
    exact ⟨_, rfl, captured⟩

end Loop

section Ungroup

theorem drop_behind_key (key front rest : Text)
    : (front ++ ((key ++ ['=', '(']) ++ rest)).drop (front.length + (key.length + 2)) = rest := by
  rw [← List.append_assoc]
  exact List.drop_left' (by simp)

/-- The parentheses that are taken away, where the key is first found. -/
theorem ungroup_found {key front group back : Text}
    (first : firstOccurrence (key ++ ['=', '('])
        (front ++ ((key ++ ['=', '(']) ++ (group ++ ')' :: back))) = some front.length)
    (last : ')' ∉ back)
    : ungroup key (front ++ ((key ++ ['=', '(']) ++ (group ++ ')' :: back)))
      = front ++ (key ++ '=' :: (group ++ back)) := by
  have outside : (front ++ ((key ++ ['=', '(']) ++ (group ++ ')' :: back))).take
      (front.length + (key.length + 1)) = front ++ (key ++ ['=']) := by
    have regroup : front ++ ((key ++ ['=', '(']) ++ (group ++ ')' :: back))
        = (front ++ (key ++ ['='])) ++ '(' :: (group ++ ')' :: back) := by
      simp only [List.append_assoc, List.cons_append, List.nil_append]
    rw [regroup]
    exact List.take_left' (by simp)
  have taken : (group ++ ')' :: back).drop (group.length + 1) = back := by
    rw [← List.singleton_append, ← List.append_assoc]
    exact List.drop_left' (by simp)
  simp only [ungroup, first, drop_behind_key, outside, beforeLast_char last, taken]
  simp only [List.append_assoc, List.singleton_append]

/-- What a substitution takes away, if anything. -/
theorem ungroup_cases (key regex : Text)
    : ungroup key regex = regex
      ∨ ∃ front group back, regex = front ++ '(' :: (group ++ ')' :: back) ∧ ')' ∉ back
        ∧ ungroup key regex = front ++ (group ++ back) := by
  cases first : firstOccurrence (key ++ ['=', '(']) regex with
  | none => exact .inl (by rw [ungroup, first])
  | some i =>
      obtain ⟨front, rest, rfl, rfl⟩ := eq_append_of_firstOccurrence first
      cases closing : beforeLast [')'] rest with
      | none => exact .inl (by simp only [ungroup, first, drop_behind_key, closing])
      | some group =>
          obtain ⟨back, rfl, last⟩ := eq_append_of_beforeLast_char closing
          refine .inr ⟨front ++ (key ++ ['=']), group, back, ?_, last, ?_⟩
          · simp only [List.append_assoc, List.cons_append, List.nil_append]
          · rw [ungroup_found first last]
            simp only [List.append_assoc, List.singleton_append]

/-- A parenthesis that is not closed stays, since the last closing one stands before it. -/
theorem unclosed_ungroup {regex : Text} (unclosed : Unclosed regex) (key : Text)
    : Unclosed (ungroup key regex) := by
  rcases ungroup_cases key regex with same | ⟨front, group, back, split, last, result⟩
  · rwa [same]
  · obtain ⟨before, after, own, never⟩ := unclosed
    have equal : (front ++ '(' :: group) ++ ')' :: back = before ++ '(' :: after := by
      rw [← own, split, List.append_assoc, List.cons_append]
    obtain ⟨between, rfl⟩ : ∃ between, back = between ++ '(' :: after := by
      rcases List.append_eq_append_iff.mp equal with ⟨rest, _, parts⟩ | ⟨rest, _, parts⟩
      · cases rest with
        | nil => cases parts
        | cons c rest =>
            obtain ⟨rfl, rfl⟩ := List.cons.inj parts
            exact ⟨rest, rfl⟩
      · cases rest with
        | nil => cases parts
        | cons c rest =>
            obtain ⟨rfl, rfl⟩ := List.cons.inj parts
            exact absurd (List.mem_append_right rest List.mem_cons_self) never
    refine ⟨front ++ (group ++ between), after, ?_, never⟩
    rw [result]
    simp only [List.append_assoc]

theorem unclosed_ungroupAll {regex : Text} (unclosed : Unclosed regex) (keys expected : List Text)
    : Unclosed (ungroupAll keys expected regex) := by
  induction keys generalizing expected regex with
  | nil => exact unclosed
  | cons key keys ih =>
      rw [ungroupAll]
      apply ih
      split
      next => exact unclosed_ungroup unclosed key
      next => exact unclosed

/-- A substitution takes away tokens that are parentheses. -/
theorem ungroup_render {tokens : List Token} (plain : ∀ t ∈ tokens, t.Plain) (key : Text)
    : ∃ rest, ungroup key (render tokens) = render rest ∧ (∀ t ∈ rest, t.Plain)
      ∧ rest.filter Token.solid = tokens.filter Token.solid := by
  rcases ungroup_cases key (render tokens) with same | ⟨front, group, back, split, _, result⟩
  · exact ⟨tokens, same, plain, rfl⟩
  · obtain ⟨before, after, rfl, rfl, inside⟩ := render_eq_append (u := .opens) rfl
      (fun t member => eq_of_mem_text rfl (plain t member) rfl) split
    have later : ∀ t ∈ after, t.Plain := fun t member =>
      plain t (List.mem_append_right before (List.mem_cons_of_mem .opens member))
    obtain ⟨middle, last, rfl, rfl, rfl⟩ := render_eq_append (u := .closes) rfl
      (fun t member => eq_of_mem_text rfl (later t member) rfl) inside
    refine ⟨before ++ (middle ++ last), ?_, ?_, ?_⟩
    · rw [result, render_append, render_append]
    · intro t member
      apply plain t
      simp only [List.mem_append, List.mem_cons] at member ⊢
      tauto
    · simp [Token.solid]

theorem ungroupAll_render {tokens : List Token} (plain : ∀ t ∈ tokens, t.Plain)
    (keys expected : List Text)
    : ∃ rest, ungroupAll keys expected (render tokens) = render rest ∧ (∀ t ∈ rest, t.Plain)
      ∧ rest.filter Token.solid = tokens.filter Token.solid := by
  induction keys generalizing expected tokens with
  | nil => exact ⟨tokens, rfl, plain, rfl⟩
  | cons key keys ih =>
      obtain ⟨next, step, nextPlain, nextSolid⟩ : ∃ next,
          (if key ≠ expected.headD [] then ungroup key (render tokens) else render tokens)
            = render next
          ∧ (∀ t ∈ next, t.Plain) ∧ next.filter Token.solid = tokens.filter Token.solid := by
        split
        next => exact ungroup_render plain key
        next => exact ⟨tokens, rfl, plain, rfl⟩
      obtain ⟨rest, result, restPlain, restSolid⟩ := ih nextPlain expected.tail
      refine ⟨rest, ?_, restPlain, restSolid.trans nextSolid⟩
      rw [ungroupAll, step, result]

/-- If a key is found before the last group, the last parenthesis that is taken away is missed
by this group.
-/
theorem ungroup_unclosed {key front group : Text} (earlier : key ++ ['=', '('] <:+: front)
    (free : ')' ∉ group) : Unclosed (ungroup key (front ++ '(' :: (group ++ [')']))) := by
  have first := firstOccurrence_append_of_infix earlier ('(' :: (group ++ [')']))
  cases found : firstOccurrence (key ++ ['=', '(']) front with
  | none => exact absurd earlier (firstOccurrence_eq_none_iff.mp found)
  | some i =>
      obtain ⟨before, between, rfl, rfl⟩ := eq_append_of_firstOccurrence found
      rw [found] at first
      have regroup : before ++ (key ++ ['=', '('] ++ between) ++ '(' :: (group ++ [')'])
          = before ++ ((key ++ ['=', '(']) ++ ((between ++ '(' :: group) ++ ')' :: [])) := by
        simp only [List.append_assoc, List.cons_append]
      rw [regroup] at first ⊢
      rw [ungroup_found first List.not_mem_nil]
      refine ⟨before ++ (key ++ '=' :: between), group, ?_, free⟩
      simp only [List.append_assoc, List.cons_append, List.append_nil]

/-- As long as the substitution for a name would leave a group open, the names are the expected
ones or a group is left open, by induction on the names.
-/
theorem ungroupAll_append {regex : Text} {keys : List Text}
    (opens : ∀ key ∈ keys, key ≠ [] ∧ Unclosed (ungroup key regex)) (later expected : List Text)
    : (∃ rest, expected = keys ++ rest
        ∧ ungroupAll (keys ++ later) expected regex = ungroupAll later rest regex)
      ∨ Unclosed (ungroupAll (keys ++ later) expected regex) := by
  induction keys generalizing expected with
  | nil => exact .inl ⟨expected, rfl, rfl⟩
  | cons key keys ih =>
      obtain ⟨nonempty, unclosed⟩ := opens key List.mem_cons_self
      rw [List.cons_append, ungroupAll]
      by_cases same : key = expected.headD []
      · rw [if_neg (not_not_intro same)]
        obtain ⟨names, rfl⟩ : ∃ names, expected = key :: names := by
          cases expected with
          | nil => exact absurd same nonempty
          | cons name names =>
              rw [same]
              exact ⟨names, rfl⟩
        rcases ih (fun k member => opens k (List.mem_cons_of_mem key member)) names with
          ⟨rest, rfl, result⟩ | stays
        · exact .inl ⟨rest, rfl, result⟩
        · exact .inr stays
      · rw [if_pos same]
        exact .inr (unclosed_ungroupAll unclosed _ _)

end Ungroup

end LinuxDoc.TracePostprocess.EventRegex
