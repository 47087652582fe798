import LinuxDoc.Foundations.TextEdit
import Mathlib.Data.List.Basic
import Mathlib.Data.List.TakeWhile

/-! Regular expressions without alternatives: characters, repeated classes of characters and
capture groups. They are read from their text and matched greedily from the left, as Perl does
it.
-/

namespace Foundations.CaptureRegex

/-- The parts of an expression; a class is kept with the text between its brackets. -/
inductive Token where
  | opens
  | closes
  | char (c : Char)
  | any
  | many (set : List Char)
  deriving DecidableEq

def Token.text : Token → List Char
  | .opens => ['(']
  | .closes => [')']
  | .char c => [c]
  | .any => ['.']
  | .many set => '[' :: (set ++ [']', '*'])

def render (tokens : List Token) : List Char :=
  tokens.flatMap Token.text

def isSpecial (c : Char) : Bool :=
  c ∈ ['\\', '^', '$', '.', '|', '?', '*', '+', '(', ')', '[', ']', '{', '}']

def isSetChar (c : Char) : Bool :=
  c ∉ ['\\', '^', '[', ']', '(', ')']

/-- The tokens of a text, behind the beginning of a class or outside of one. Without a value,
the text is not one of these expressions.
-/
def tokensFrom : Option (List Char) → List Char → Option (List Token)
  | none, [] => some []
  | some _, [] => none
  | none, c :: rest =>
      if c = '(' then (tokensFrom none rest).map (.opens :: ·)
      else if c = ')' then (tokensFrom none rest).map (.closes :: ·)
      else if c = '.' then (tokensFrom none rest).map (.any :: ·)
      else if c = '[' then tokensFrom (some []) rest
      else if isSpecial c then none
      else (tokensFrom none rest).map (.char c :: ·)
  | some _, [_] => none
  | some set, c :: d :: rest =>
      if isSetChar c then tokensFrom (some (set ++ [c])) (d :: rest)
      else if c = ']' ∧ d = '*' then (tokensFrom none rest).map (.many set :: ·)
      else none

def tokensOf (text : List Char) : Option (List Token) :=
  tokensFrom none text

def closed : Nat → List Token → Bool
  | n, [] => n = 0
  | n, .opens :: rest => closed (n + 1) rest
  | 0, .closes :: _ => false
  | n + 1, .closes :: rest => closed n rest
  | n, _ :: rest => closed n rest

def inSet : List Char → Char → Bool
  | first :: '-' :: last :: rest, c => (first ≤ c && c ≤ last) || inSet rest c
  | first :: rest, c => c = first || inSet rest c
  | [], _ => false

abbrev Trace := List (Token × List Char)

def run : List Token → List Char → Option Trace
  | [], _ => some []
  | .opens :: tokens, text => (run tokens text).map ((.opens, []) :: ·)
  | .closes :: tokens, text => (run tokens text).map ((.closes, []) :: ·)
  | .char _ :: _, [] => none
  | .char c :: tokens, x :: text =>
      if x = c then (run tokens text).map ((.char c, [x]) :: ·) else none
  | .any :: _, [] => none
  | .any :: tokens, x :: text =>
      if x = '\n' then none else (run tokens text).map ((.any, [x]) :: ·)
  | .many set :: tokens, text =>
      (List.range ((text.takeWhile (inSet set)).length + 1)).reverse.findSome? fun n =>
        (run tokens (text.drop n)).map ((.many set, text.take n) :: ·)

def groupText : Nat → Trace → List Char
  | _, [] => []
  | n, (.opens, _) :: rest => groupText (n + 1) rest
  | 0, (.closes, _) :: _ => []
  | n + 1, (.closes, _) :: rest => groupText n rest
  | n, (_, part) :: rest => part ++ groupText n rest

def captures : Trace → List (List Char)
  | [] => []
  | (.opens, _) :: rest => groupText 0 rest :: captures rest
  | _ :: rest => captures rest

def search (tokens : List Token) : List Char → Option Trace
  | [] => run tokens []
  | x :: text => (run tokens (x :: text)).or (search tokens text)

/-- What the groups of an expression match in a text. There is no value for an expression that
cannot be compiled, or if there is no match.
-/
def capture (regex text : List Char) : Option (List (List Char)) := do
  let tokens ← tokensOf regex
  if closed 0 tokens then (search tokens text).map captures else none

example : capture "a=([0-9]*) b".toList "x a=12 b".toList = some ["12".toList] := by decide

section Text

def Token.Plain : Token → Prop
  | .char c => isSpecial c = false
  | .many set => ∀ c ∈ set, isSetChar c = true
  | _ => True

instance plainDecidable : (t : Token) → Decidable t.Plain
  | .opens => .isTrue trivial
  | .closes => .isTrue trivial
  | .char c => inferInstanceAs (Decidable (isSpecial c = false))
  | .any => .isTrue trivial
  | .many _ => decidable_of_iff _ List.all_eq_true

theorem tokensFrom_set (set front back : List Char) (plain : ∀ c ∈ set, isSetChar c = true)
    : tokensFrom (some front) (set ++ ']' :: '*' :: back)
      = (tokensFrom none back).map (.many (front ++ set) :: ·) := by
  induction set generalizing front with
  | nil =>
      rw [List.nil_append, tokensFrom, if_neg (by decide), if_pos ⟨rfl, rfl⟩, List.append_nil]
  | cons c set ih =>
      have first := plain c List.mem_cons_self
      have rest := ih (front ++ [c]) fun d member => plain d (List.mem_cons_of_mem c member)
      rw [List.append_assoc] at rest
      obtain ⟨d, more, split⟩ : ∃ d more, set ++ ']' :: '*' :: back = d :: more :=
        List.exists_cons_of_ne_nil (by simp)
      rw [List.cons_append, split, tokensFrom, if_pos first, ← split]
      exact rest

/-- The text of tokens is read as these tokens. -/
theorem tokensOf_render {tokens : List Token} (plain : ∀ t ∈ tokens, t.Plain)
    : tokensOf (render tokens) = some tokens := by
  induction tokens with
  | nil => rfl
  | cons t tokens ih =>
      have rest := ih fun u member => plain u (List.mem_cons_of_mem t member)
      have first := plain t List.mem_cons_self
      rw [tokensOf] at rest
      rw [tokensOf, render, List.flatMap_cons]
      cases t with
      | opens => exact congrArg (Option.map (.opens :: ·)) rest
      | closes => exact congrArg (Option.map (.closes :: ·)) rest
      | any => exact congrArg (Option.map (.any :: ·)) rest
      | char c =>
          have literal : isSpecial c = false := first
          have apart : c ≠ '(' ∧ c ≠ ')' ∧ c ≠ '.' ∧ c ≠ '[' := by
            refine ⟨?_, ?_, ?_, ?_⟩ <;> rintro rfl <;> exact absurd literal (by decide)
          rw [Token.text, List.singleton_append, tokensFrom, if_neg apart.1, if_neg apart.2.1,
            if_neg apart.2.2.1, if_neg apart.2.2.2, literal, if_neg Bool.false_ne_true]
          exact congrArg (Option.map (.char c :: ·)) rest
      | many set =>
          have read := tokensFrom_set set [] (render tokens) first
          rw [List.nil_append, rest] at read
          rw [Token.text, List.cons_append, List.append_assoc]
          exact read

theorem render_append (front back : List Token)
    : render (front ++ back) = render front ++ render back :=
  List.flatMap_append

theorem render_char (text : List Char) : render (text.map .char) = text := by
  induction text with
  | nil => rfl
  | cons c text ih => exact congrArg (c :: ·) ih

theorem render_intercalate (separator : Char) (pieces : List (List Token))
    : render ([.char separator].intercalate pieces)
      = [separator].intercalate (pieces.map render) := by
  induction pieces with
  | nil => rfl
  | cons piece pieces ih =>
      cases pieces with
      | nil => simp only [List.map_cons, List.map_nil, List.intercalate_singleton]
      | cons next pieces =>
          simp only [List.map_cons, List.intercalate_cons_cons, render_append] at ih ⊢
          rw [ih]
          rfl

/-- A character that only one token has in its text, by induction on the tokens. -/
theorem render_eq_append {tokens : List Token} {u : Token} {p : Char} (single : u.text = [p])
    (only : ∀ t ∈ tokens, p ∈ t.text → t = u) {front back : List Char}
    (split : render tokens = front ++ p :: back)
    : ∃ before after, tokens = before ++ u :: after ∧ render before = front
      ∧ render after = back := by
  induction tokens generalizing front with
  | nil => simp [render] at split
  | cons t tokens ih =>
      have later := fun {rest : List Char} (parts : render tokens = rest ++ p :: back) =>
        ih (fun w member => only w (List.mem_cons_of_mem t member)) parts
      have further {rest : List Char} (parts : render tokens = rest ++ p :: back)
          : ∃ before after, t :: tokens = before ++ u :: after
            ∧ render before = t.text ++ rest ∧ render after = back := by
        obtain ⟨before, after, rfl, rfl, rendered⟩ := later parts
        exact ⟨t :: before, after, rfl, List.flatMap_cons, rendered⟩
      have whole : t.text ++ render tokens = front ++ p :: back := split
      rcases List.append_eq_append_iff.mp whole with ⟨rest, rfl, parts⟩ | ⟨rest, text_eq, parts⟩
      · exact further parts
      · cases rest with
        | nil =>
            rw [List.append_nil] at text_eq
            rw [← text_eq, ← List.append_nil t.text]
            have here : render tokens = [] ++ p :: back := parts.symm
            exact further here
        | cons q rest =>
            -- the character is in the token's own text
            obtain ⟨rfl, rfl⟩ := List.cons.inj parts
            have same : t = u := only t List.mem_cons_self (by simp [text_eq])
            subst same
            obtain ⟨rfl, rfl⟩ : front = [] ∧ rest = [] := by
              rw [single] at text_eq
              have lengths := congrArg List.length text_eq
              simp only [List.length_append, List.length_cons, List.length_nil] at lengths
              exact ⟨List.length_eq_zero_iff.mp (by omega), List.length_eq_zero_iff.mp (by omega)⟩
            exact ⟨[], tokens, rfl, rfl, rfl⟩

def Token.solid : Token → Bool
  | .opens => false
  | .closes => false
  | _ => true

/-- A parenthesis is in the text of no other token. -/
theorem eq_of_mem_text {t u : Token} (paren : u.solid = false) (plain : t.Plain) {p : Char}
    (single : u.text = [p]) (member : p ∈ t.text) : t = u := by
  have kind : u = .opens ∧ '(' = p ∨ u = .closes ∧ ')' = p := by
    cases u with
    | opens => exact .inl ⟨rfl, (List.cons.inj single).1⟩
    | closes => exact .inr ⟨rfl, (List.cons.inj single).1⟩
    | char c => cases paren
    | any => cases paren
    | many set => cases paren
  cases t with
  | opens => rcases kind with ⟨rfl, rfl⟩ | ⟨rfl, rfl⟩ <;> simp_all [Token.text]
  | closes => rcases kind with ⟨rfl, rfl⟩ | ⟨rfl, rfl⟩ <;> simp_all [Token.text]
  | any => rcases kind with ⟨rfl, rfl⟩ | ⟨rfl, rfl⟩ <;> simp_all [Token.text]
  | char c =>
      cases List.mem_singleton.mp member
      rcases kind with ⟨_, rfl⟩ | ⟨_, rfl⟩ <;> cases plain
  | many set =>
      have inside : p ∈ set := by
        rcases kind with ⟨_, rfl⟩ | ⟨_, rfl⟩ <;> simpa [Token.text] using member
      have setChar := plain p inside
      rcases kind with ⟨_, rfl⟩ | ⟨_, rfl⟩ <;> cases setChar

end Text

section Groups

variable {tokens : List Token}

theorem closed_eq_false (none : .closes ∉ tokens) {n : Nat} (some : 0 < n)
    : closed n tokens = false := by
  induction tokens generalizing n with
  | nil => exact decide_eq_false (Nat.ne_of_gt some)
  | cons t tokens ih =>
      rw [List.mem_cons, not_or] at none
      cases t with
      | opens => exact ih none.2 (Nat.succ_pos n)
      | closes => exact absurd rfl none.1
      | char c => simpa only [closed] using ih none.2 some
      | any => simpa only [closed] using ih none.2 some
      | many set => simpa only [closed] using ih none.2 some

/-- A group that is not closed, by induction on the tokens before it. -/
theorem closed_append_opens {before after : List Token} (none : .closes ∉ after) (n : Nat)
    : closed n (before ++ .opens :: after) = false := by
  induction before generalizing n with
  | nil => exact closed_eq_false none (Nat.succ_pos n)
  | cons t before ih =>
      cases t with
      | opens => exact ih (n + 1)
      | closes =>
          cases n with
          | zero => rfl
          | succ n => exact ih n
      | char c => simpa only [List.cons_append, closed] using ih n
      | any => simpa only [List.cons_append, closed] using ih n
      | many set => simpa only [List.cons_append, closed] using ih n

theorem closed_append_solid (solid : ∀ t ∈ tokens, t.solid = true) (n : Nat) (rest : List Token)
    : closed n (tokens ++ rest) = closed n rest := by
  induction tokens with
  | nil => rfl
  | cons t tokens ih =>
      have later := ih fun u member => solid u (List.mem_cons_of_mem t member)
      have first := solid t List.mem_cons_self
      cases t with
      | opens => cases first
      | closes => cases first
      | char c => simpa only [List.cons_append, closed] using later
      | any => simpa only [List.cons_append, closed] using later
      | many set => simpa only [List.cons_append, closed] using later

def Unclosed (text : List Char) : Prop :=
  ∃ front back, text = front ++ '(' :: back ∧ ')' ∉ back

theorem capture_unclosed (plain : ∀ t ∈ tokens, t.Plain) (unclosed : Unclosed (render tokens))
    (text : List Char)
    : capture (render tokens) text = none := by
  obtain ⟨front, back, split, last⟩ := unclosed
  obtain ⟨before, after, rfl, _, rfl⟩ := render_eq_append (u := .opens) rfl
    (fun t member => eq_of_mem_text rfl (plain t member) rfl) split
  have never : .closes ∉ after := by
    intro member
    exact last (List.mem_flatMap.mpr ⟨.closes, member, List.mem_singleton.mpr rfl⟩)
  rw [capture, tokensOf_render plain]
  simp [closed_append_opens never]

theorem filter_solid_char (chars : List Char)
    : (chars.map Token.char).filter Token.solid = chars.map .char := by
  rw [List.filter_eq_self]
  intro t member
  obtain ⟨c, _, rfl⟩ := List.mem_map.mp member
  rfl

end Groups

section Matching

def Token.Fits : Token → List Char → Prop
  | .opens, part => part = []
  | .closes, part => part = []
  | .char c, part => part = [c]
  | .any, part => ∃ x, part = [x]
  | .many set, part => ∀ c ∈ part, inSet set c = true

/-- A match: its tokens in order, each with a part that it fits, one behind the other. -/
structure Fitting (tokens : List Token) (text : List Char) (trace : Trace) : Prop where
  tokens_eq : trace.map Prod.fst = tokens
  fits : ∀ step ∈ trace, step.1.Fits step.2
  parts : trace.flatMap Prod.snd <+: text

variable {tokens : List Token} {text : List Char} {trace : Trace}

theorem Fitting.cons (rest : Fitting tokens text trace) {t : Token} {part : List Char}
    (fits : t.Fits part)
    : Fitting (t :: tokens) (part ++ text) ((t, part) :: trace) where
  tokens_eq := by rw [List.map_cons, rest.tokens_eq]
  fits := by
    intro step member
    rcases List.mem_cons.mp member with rfl | member
    · exact fits
    · exact rest.fits step member
  parts := by
    rw [List.flatMap_cons]
    exact (List.prefix_append_right_inj part).mpr rest.parts

/-- What `run` finds is a match, by induction on the tokens. -/
theorem run_fitting (found : run tokens text = some trace) : Fitting tokens text trace := by
  induction tokens generalizing text trace with
  | nil =>
      cases found
      exact ⟨rfl, by simp, List.nil_prefix⟩
  | cons t tokens ih =>
      cases t with
      | opens =>
          rw [run] at found
          obtain ⟨rest, later, rfl⟩ := Option.map_eq_some_iff.mp found
          have fits : Token.opens.Fits [] := rfl
          exact (ih later).cons fits
      | closes =>
          rw [run] at found
          obtain ⟨rest, later, rfl⟩ := Option.map_eq_some_iff.mp found
          have fits : Token.closes.Fits [] := rfl
          exact (ih later).cons fits
      | char c =>
          cases text with
          | nil => cases found
          | cons x text =>
              rw [run] at found
              split at found
              next same =>
                obtain ⟨rest, later, rfl⟩ := Option.map_eq_some_iff.mp found
                have fits : (Token.char c).Fits [x] := by rw [same, Token.Fits]
                exact (ih later).cons fits
              next => cases found
      | any =>
          cases text with
          | nil => cases found
          | cons x text =>
              rw [run] at found
              split at found
              next => cases found
              next =>
                obtain ⟨rest, later, rfl⟩ := Option.map_eq_some_iff.mp found
                have fits : Token.any.Fits [x] := ⟨x, rfl⟩
                exact (ih later).cons fits
      | many set =>
          rw [run] at found
          obtain ⟨n, member, found⟩ := List.exists_of_findSome?_eq_some found
          obtain ⟨rest, later, rfl⟩ := Option.map_eq_some_iff.mp found
          have short : n ≤ (text.takeWhile (inSet set)).length := by
            simpa [Nat.lt_succ_iff] using member
          have fits : (Token.many set).Fits (text.take n) := by
            intro c inside
            have taken : text.take n <+: text.takeWhile (inSet set) :=
              List.prefix_of_prefix_length_le (List.take_prefix n text)
                (List.takeWhile_prefix _) (Nat.le_trans (List.length_take_le n text) short)
            exact List.mem_takeWhile_imp (taken.subset inside)
          have whole := (ih later).cons fits
          rwa [List.take_append_drop] at whole

/-- A match that `search` finds is one behind some front of the text. -/
theorem search_fitting (found : search tokens text = some trace)
    : ∃ front back, text = front ++ back ∧ Fitting tokens back trace := by
  induction text with
  | nil => exact ⟨[], [], rfl, run_fitting found⟩
  | cons x text ih =>
      rw [search] at found
      rcases Option.or_eq_some_iff.mp found with here | ⟨_, later⟩
      · exact ⟨[], x :: text, rfl, run_fitting here⟩
      · obtain ⟨front, back, rfl, fitting⟩ := ih later
        exact ⟨x :: front, back, rfl, fitting⟩

theorem search_of_run (found : run tokens text = some trace) : search tokens text = some trace := by
  cases text with
  | nil => exact found
  | cons x text => rw [search, found, Option.some_or]

theorem exists_search_of_capture {regex text : List Char} {values : List (List Char)}
    (found : capture regex text = some values)
    : ∃ tokens trace, tokensOf regex = some tokens ∧ search tokens text = some trace
      ∧ captures trace = values := by
  obtain ⟨tokens, read, rest⟩ := Option.bind_eq_some_iff.mp found
  split at rest
  next =>
    obtain ⟨trace, searched, values_eq⟩ := Option.map_eq_some_iff.mp rest
    exact ⟨tokens, trace, read, searched, values_eq⟩
  next => cases rest

/-- Characters match themselves. -/
theorem run_chars (chars : List Char) (rest : run tokens text = some trace)
    : run (chars.map .char ++ tokens) (chars ++ text)
      = some (chars.map (fun c => (.char c, [c])) ++ trace) := by
  induction chars with
  | nil => exact rest
  | cons c chars ih =>
      rw [List.map_cons, List.cons_append, List.cons_append, run, if_pos rfl, ih]
      rfl

/-- A repetition takes all the characters of its class, if a match of the rest follows. -/
theorem run_many {set value : List Char} (inside : ∀ c ∈ value, inSet set c = true)
    (ends : ∀ c, text.head? = some c → inSet set c = false) (rest : run tokens text = some trace)
    : run (.many set :: tokens) (value ++ text) = some ((.many set, value) :: trace) := by
  have longest : (value ++ text).takeWhile (inSet set) = value := by
    rw [List.takeWhile_append_of_pos inside]
    cases text with
    | nil => exact List.append_nil value
    | cons c text =>
        rw [List.takeWhile_cons_of_neg (by simp [ends c rfl]), List.append_nil]
  rw [run, longest, List.range_succ, List.reverse_append, List.reverse_singleton,
    List.singleton_append, List.findSome?_cons, List.drop_left, List.take_left, rest]
  rfl

/-- The parentheses of an expression match nothing. -/
theorem Fitting.solid (fitting : Fitting tokens text trace)
    : Fitting (tokens.filter Token.solid) text (trace.filter (·.1.solid)) where
  tokens_eq := by
    rw [← fitting.tokens_eq, List.filter_map]
    rfl
  fits := by
    intro step member
    exact fitting.fits step (List.mem_of_mem_filter member)
  parts := by
    have same : (trace.filter (·.1.solid)).flatMap Prod.snd = trace.flatMap Prod.snd := by
      have fits := fitting.fits
      clear fitting
      induction trace with
      | nil => rfl
      | cons step trace ih =>
          have later := ih fun s member => fits s (List.mem_cons_of_mem step member)
          have own := fits step List.mem_cons_self
          cases solid : step.1.solid with
          | true => simp [solid, later]
          | false =>
              have empty : step.2 = [] := by
                cases kind : step.1 with
                | opens => rwa [kind] at own
                | closes => rwa [kind] at own
                | char c => simp [kind, Token.solid] at solid
                | any => simp [kind, Token.solid] at solid
                | many set => simp [kind, Token.solid] at solid
              simp [solid, empty, later]
    rw [same]
    exact fitting.parts

end Matching

section Slots

/-- A place of an expression: literal characters and a repeated class, which may be captured,
together with what stands there in the text.
-/
structure Slot where
  label : List Char
  set : List Char
  grouped : Bool
  value : List Char

namespace Slot

structure Valid (separator : Char) (slot : Slot) : Prop where
  label_plain : ∀ c ∈ slot.label, isSpecial c = false
  set_plain : ∀ c ∈ slot.set, isSetChar c = true
  inside : ∀ c ∈ slot.value, inSet slot.set c = true
  outside : inSet slot.set separator = false

def tokens (slot : Slot) : List Token :=
  slot.label.map .char
    ++ if slot.grouped then [.opens, .many slot.set, .closes] else [.many slot.set]

def text (slot : Slot) : List Char :=
  slot.label ++ slot.value

def trace (slot : Slot) : Trace :=
  slot.label.map (fun c => (.char c, [c]))
    ++ if slot.grouped then [(.opens, []), (.many slot.set, slot.value), (.closes, [])]
      else [(.many slot.set, slot.value)]

theorem Valid.tokens_plain {separator : Char} {slot : Slot} (valid : slot.Valid separator)
    : ∀ t ∈ slot.tokens, t.Plain := by
  intro t member
  rcases List.mem_append.mp member with member | member
  · obtain ⟨c, inLabel, rfl⟩ := List.mem_map.mp member
    exact valid.label_plain c inLabel
  · have repeated : (Token.many slot.set).Plain := valid.set_plain
    cases grouped : slot.grouped <;> simp [grouped] at member
    · subst member
      exact repeated
    · rcases member with rfl | rfl | rfl
      · trivial
      · exact repeated
      · trivial

theorem Valid.run_append {separator : Char} {slot : Slot} (valid : slot.Valid separator)
    {tokens : List Token} {text : List Char} {trace : Trace}
    (stops : ∀ c, text.head? = some c → inSet slot.set c = false)
    (rest : run tokens text = some trace)
    : run (slot.tokens ++ tokens) (slot.text ++ text) = some (slot.trace ++ trace) := by
  rw [Slot.tokens, Slot.text, Slot.trace, List.append_assoc, List.append_assoc, List.append_assoc]
  apply run_chars
  cases slot.grouped with
  | false => exact run_many valid.inside stops rest
  | true =>
      have closing : run (.closes :: tokens) text = some ((.closes, []) :: trace) := by
        rw [run, rest, Option.map_some]
      have value := run_many valid.inside stops closing
      exact congrArg (Option.map ((.opens, []) :: ·)) value

theorem captures_chars {front : Trace} {chars : List Char}
    (tokens : front.map Prod.fst = chars.map .char) (trace : Trace)
    : captures (front ++ trace) = captures trace := by
  induction chars generalizing front with
  | nil => rw [List.map_eq_nil_iff.mp tokens, List.nil_append]
  | cons c chars ih =>
      obtain ⟨⟨token, part⟩, others, rfl, rfl, rest⟩ := List.map_eq_cons_iff.mp tokens
      have later : captures (others ++ trace) = captures trace := ih rest
      exact later

theorem captures_append (slot : Slot) (trace : Trace)
    : captures (slot.trace ++ trace)
      = (if slot.grouped then [slot.value] else []) ++ captures trace := by
  have label : (slot.label.map fun c => (Token.char c, [c])).map Prod.fst
      = slot.label.map .char := by
    rw [List.map_map]
    rfl
  rw [Slot.trace, List.append_assoc, captures_chars label]
  cases slot.grouped with
  | false => rfl
  | true => simp [captures, groupText]

/-- What is captured for a slot is of its class, in every match. -/
theorem exists_captures_eq {slot : Slot} {tokens : List Token} {trace : Trace}
    (tokens_eq : trace.map Prod.fst = slot.tokens ++ tokens)
    (fits : ∀ step ∈ trace, step.1.Fits step.2)
    : ∃ value later, captures trace = (if slot.grouped then [value] else []) ++ captures later
      ∧ (∀ c ∈ value, inSet slot.set c = true) ∧ later.map Prod.fst = tokens
      ∧ ∀ step ∈ later, step.1.Fits step.2 := by
  rw [Slot.tokens, List.append_assoc] at tokens_eq
  obtain ⟨front, behind, rfl, label, order⟩ := List.map_eq_append_iff.mp tokens_eq
  have fits := (List.forall_mem_append.mp fits).2
  rw [captures_chars label]
  cases grouped : slot.grouped with
  | false =>
      rw [grouped, if_neg Bool.false_ne_true] at order
      obtain ⟨⟨_, value⟩, later, rfl, rfl, rest⟩ := List.map_eq_cons_iff.mp order
      obtain ⟨own, others⟩ := List.forall_mem_cons.mp fits
      exact ⟨value, later, rfl, own, rest, others⟩
  | true =>
      rw [grouped, if_pos rfl] at order
      obtain ⟨⟨_, opening⟩, inside, rfl, rfl, orderInside⟩ := List.map_eq_cons_iff.mp order
      obtain ⟨⟨_, value⟩, ending, rfl, rfl, orderEnding⟩ := List.map_eq_cons_iff.mp orderInside
      obtain ⟨⟨_, closing⟩, later, rfl, rfl, rest⟩ := List.map_eq_cons_iff.mp orderEnding
      simp only [List.forall_mem_cons] at fits
      obtain ⟨_, own, _, others⟩ := fits
      exact ⟨value, later, by simp [captures, groupText], own, rest, others⟩

theorem closed_append (slot : Slot) (n : Nat) (rest : List Token)
    : closed n (slot.tokens ++ rest) = closed n rest := by
  have chars : ∀ t ∈ slot.label.map Token.char, t.solid = true := by
    intro t member
    obtain ⟨c, _, rfl⟩ := List.mem_map.mp member
    rfl
  rw [Slot.tokens, List.append_assoc, closed_append_solid chars]
  cases slot.grouped with
  | false => simp [closed]
  | true => simp [closed]

end Slot

variable {slots : List Slot} {separator : Char}

/-- Slots with a separator between them, and text behind them that the last class does not match.
By induction on the slots.
-/
theorem run_slots (valid : ∀ slot ∈ slots, slot.Valid separator) {behind : List Char}
    (stops : ∀ slot ∈ slots.getLast?, ∀ c ∈ behind.head?, inSet slot.set c = false)
    : ∃ trace, run ([.char separator].intercalate (slots.map Slot.tokens))
        ([separator].intercalate (slots.map Slot.text) ++ behind) = some trace
      ∧ captures trace = (slots.filter Slot.grouped).map Slot.value := by
  induction slots with
  | nil => exact ⟨[], rfl, rfl⟩
  | cons slot slots ih =>
      have own := valid slot List.mem_cons_self
      have values (trace : Trace)
          (later : captures trace = (slots.filter Slot.grouped).map Slot.value)
          : captures (slot.trace ++ trace)
            = ((slot :: slots).filter Slot.grouped).map Slot.value := by
        rw [slot.captures_append, later]
        cases grouped : slot.grouped <;> simp [grouped]
      cases slots with
      | nil =>
          refine ⟨slot.trace ++ [], ?_, values [] rfl⟩
          have single : run (slot.tokens ++ []) (slot.text ++ behind) = some (slot.trace ++ []) :=
            own.run_append (stops slot rfl) rfl
          simpa only [List.map_cons, List.map_nil, List.intercalate_singleton, List.append_nil]
            using single
      | cons next slots =>
          rw [List.getLast?_cons_cons] at stops
          obtain ⟨trace, found, later⟩ :=
            ih (fun s member => valid s (List.mem_cons_of_mem slot member)) stops
          refine ⟨slot.trace ++ (.char separator, [separator]) :: trace, ?_,
            values (_ :: trace) later⟩
          simp only [List.map_cons, List.intercalate_cons_cons, List.append_assoc,
            List.cons_append, List.nil_append]
          apply own.run_append
          · intro c first
            cases first
            exact own.outside
          · rw [run, if_pos rfl]
            exact congrArg (Option.map ((.char separator, [separator]) :: ·)) found

theorem closed_slots : closed 0 ([.char separator].intercalate (slots.map Slot.tokens)) = true := by
  induction slots with
  | nil => rfl
  | cons slot slots ih =>
      cases slots with
      | nil =>
          have single : closed 0 (slot.tokens ++ []) = true := slot.closed_append 0 []
          simpa only [List.map_cons, List.map_nil, List.intercalate_singleton, List.append_nil]
            using single
      | cons next slots =>
          simp only [List.map_cons, List.intercalate_cons_cons, List.append_assoc,
            List.singleton_append] at ih ⊢
          rw [slot.closed_append]
          exact ih

theorem slots_plain (separates : isSpecial separator = false)
    (valid : ∀ slot ∈ slots, slot.Valid separator)
    : ∀ t ∈ [.char separator].intercalate (slots.map Slot.tokens), t.Plain := by
  intro t member
  rcases eq_or_mem_of_mem_intercalate member with rfl | ⟨piece, known, inside⟩
  · exact separates
  · obtain ⟨slot, isSlot, rfl⟩ := List.mem_map.mp known
    exact (valid slot isSlot).tokens_plain t inside

/-- An expression of slots captures the values of those that are groups. -/
theorem capture_slots (separates : isSpecial separator = false)
    (valid : ∀ slot ∈ slots, slot.Valid separator) {behind : List Char}
    (stops : ∀ slot ∈ slots.getLast?, ∀ c ∈ behind.head?, inSet slot.set c = false)
    : capture (render ([.char separator].intercalate (slots.map Slot.tokens)))
        ([separator].intercalate (slots.map Slot.text) ++ behind)
      = some ((slots.filter Slot.grouped).map Slot.value) := by
  obtain ⟨trace, found, values⟩ := run_slots valid stops
  rw [capture, tokensOf_render (slots_plain separates valid)]
  simp only [Option.bind_eq_bind, Option.bind_some, closed_slots, if_true,
    search_of_run found, Option.map_some, values]

/-- What the groups of an expression of slots capture is of their classes. By induction on the
slots, with the match of the later ones.
-/
theorem captures_inside {trace : Trace}
    (tokens_eq : trace.map Prod.fst = [.char separator].intercalate (slots.map Slot.tokens))
    (fits : ∀ step ∈ trace, step.1.Fits step.2)
    : List.Forall₂ (fun slot value => ∀ c ∈ value, inSet slot.set c = true)
        (slots.filter Slot.grouped) (captures trace) := by
  induction slots generalizing trace with
  | nil =>
      rw [List.map_eq_nil_iff.mp tokens_eq]
      exact .nil
  | cons slot slots ih =>
      obtain ⟨tokens, whole, following⟩ : ∃ tokens,
          [.char separator].intercalate ((slot :: slots).map Slot.tokens) = slot.tokens ++ tokens
          ∧ ∀ {later : Trace}, later.map Prod.fst = tokens → (∀ step ∈ later, step.1.Fits step.2) →
            List.Forall₂ (fun slot value => ∀ c ∈ value, inSet slot.set c = true)
              (slots.filter Slot.grouped) (captures later) := by
        cases slots with
        | nil =>
            refine ⟨[], by simp, fun tokens_eq fits => ?_⟩
            rw [List.map_eq_nil_iff.mp tokens_eq]
            exact .nil
        | cons next slots =>
            refine ⟨.char separator :: [.char separator].intercalate
              ((next :: slots).map Slot.tokens), by simp [List.intercalate_cons_cons], ?_⟩
            intro later order fits
            obtain ⟨⟨_, part⟩, others, rfl, rfl, rest⟩ := List.map_eq_cons_iff.mp order
            have inside := ih rest (List.forall_mem_cons.mp fits).2
            exact inside
      rw [whole] at tokens_eq
      obtain ⟨value, later, captured, inside, tokens_eq, fits⟩ :=
        Slot.exists_captures_eq tokens_eq fits
      rw [captured]
      cases grouped : slot.grouped with
      | false =>
          rw [List.filter_cons_of_neg (by simp [grouped])]
          exact following tokens_eq fits
      | true =>
          rw [List.filter_cons_of_pos grouped]
          exact .cons inside (following tokens_eq fits)

/-- The same for the values that `capture` finds. -/
theorem capture_inside (separates : isSpecial separator = false)
    (valid : ∀ slot ∈ slots, slot.Valid separator) {text : List Char} {values : List (List Char)}
    (found : capture (render ([.char separator].intercalate (slots.map Slot.tokens))) text
      = some values)
    : List.Forall₂ (fun slot value => ∀ c ∈ value, inSet slot.set c = true)
        (slots.filter Slot.grouped) values := by
  obtain ⟨tokens, trace, read, searched, rfl⟩ := exists_search_of_capture found
  rw [tokensOf_render (slots_plain separates valid)] at read
  cases read
  obtain ⟨front, back, _, fitting⟩ := search_fitting searched
  exact captures_inside fitting.tokens_eq fitting.fits

end Slots

end Foundations.CaptureRegex
