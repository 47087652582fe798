import LinuxDoc.ClksrcRegisters.Header

/-! How the script goes through initialisers, and when the masks are translated faithfully. -/

namespace LinuxDoc.ClksrcRegisters

open Foundations

/-- `extract_value` finds the value of a field. -/
theorem extractValue_text (f : FieldLine) : extractValue f.text = f.value := by
  have commaFree : ',' ∉ f.front ++ ("= ".toList ++ f.value) := by
    intro member
    rcases List.mem_append.mp member with inFront | member
    · exact f.front_free.2 inFront
    · rcases List.mem_append.mp member with inSign | inValue
      · exact absurd inSign (by decide)
      · exact absurd (f.value_chars ',' inValue) (by decide)
  have eqat : index f.text '=' = f.front.length + 1 := by
    have found : firstOccurrence ['='] f.text = some f.front.length :=
      firstOccurrence_char f.front_free.1 _
    simp only [index, found]
  have comat : index f.text ',' = f.front.length + 2 + f.value.length + 1 := by
    have parts : f.text = (f.front ++ ("= ".toList ++ f.value)) ++ ',' :: f.back := by
      simp only [FieldLine.text, List.append_assoc]
    have found := firstOccurrence_char commaFree f.back
    rw [← parts] at found
    have length : (f.front ++ ("= ".toList ++ f.value)).length
        = f.front.length + 2 + f.value.length := by
      simp only [List.length_append]
      rw [Nat.add_assoc]
      rfl
    rw [length] at found
    simp only [index, found]
  have count : f.front.length + 2 + f.value.length + 1 - (f.front.length + 1) - 2
      = f.value.length := by omega
  have behind : f.text.drop (f.front.length + 2) = f.value ++ ',' :: f.back := by
    rw [FieldLine.text, ← List.drop_drop, List.drop_left]
    rfl
  have place : f.front.length + 1 + 2 - 1 = f.front.length + 2 := by omega
  simp only [extractValue, substr, eqat, comat, count, place, behind, List.take_left]

theorem fieldsOf_field (f : FieldLine) (rest : List BodyLine)
    : fieldsOf (.field f :: rest) = f :: fieldsOf rest :=
  rfl

def Block.set (b : Block) : Field → Text → Block
  | .shift, value => { b with shift := value }
  | .mask, value => { b with mask := value }
  | .regDivider, value => { b with regDiv := value }
  | .regSource, value => { b with regSrc := value }
  | .dividerShift, value => { b with divshift := value }

theorem blockLine_field (dmask : Dmask) (b : Block) (f : FieldLine)
    : blockLine dmask b f.text = (b.set f.field f.value, []) := by
  have named : f.field.pattern <:+: f.text := f.named
  have others : ∀ other : Field, other ≠ f.field → ¬ other.pattern <:+: f.text :=
    fun other different inside => different (f.only other inside)
  have value := extractValue_text f
  unfold blockLine
  rw [value]
  cases field : f.field with
  | shift =>
      rw [field] at named
      exact if_pos named
  | mask =>
      rw [field] at named others
      exact (if_neg (others .shift (by decide))).trans (if_pos named)
  | regDivider =>
      rw [field] at named others
      exact (if_neg (others .shift (by decide))).trans
        ((if_neg (others .mask (by decide))).trans (if_pos named))
  | regSource =>
      rw [field] at named others
      exact (if_neg (others .shift (by decide))).trans
        ((if_neg (others .mask (by decide))).trans
          ((if_neg (others .regDivider (by decide))).trans (if_pos named)))
  | dividerShift =>
      rw [field] at named others
      exact (if_neg (others .shift (by decide))).trans
        ((if_neg (others .mask (by decide))).trans
          ((if_neg (others .regDivider (by decide))).trans
            ((if_neg (others .regSource (by decide))).trans (if_pos named))))

/-- A line without a field is copied; its braces count. -/
theorem blockLine_noField (dmask : Dmask) (b : Block) {line : Text} (noField : NoField line)
    : blockLine dmask b line
      = if '{' ∈ line then ({ b with indent := b.indent + 1 }, [.copied line])
        else if '}' ∈ line then
          ({ b with indent := b.indent - 1 },
            (if b.indent - 1 = 0 then registers dmask b else []) ++ [.copied line])
        else (b, [.copied line]) :=
  (if_neg (noField .shift)).trans ((if_neg (noField .mask)).trans
    ((if_neg (noField .regDivider)).trans ((if_neg (noField .regSource)).trans
      (if_neg (noField .dividerShift)))))

def Block.through (b : Block) : List BodyLine → Block
  | [] => b
  | .field f :: rest => (b.set f.field f.value).through rest
  | .opens _ _ _ _ :: rest => { b with indent := b.indent + 1 }.through rest
  | .closes _ _ _ _ :: rest => { b with indent := b.indent - 1 }.through rest
  | .other _ _ _ _ :: rest => b.through rest

theorem Result.after_after (first second : List OutLine) (result : Result)
    : (result.after second).after first = result.after (first ++ second) := by
  simp only [Result.after, List.append_assoc]

/-- Inside an initialiser that does not end, by induction on its lines. -/
theorem processLines_body (dmask : Dmask) (rest : List Text) {body : List BodyLine} {b : Block}
    {n : Nat} (inside : 1 ≤ b.indent) (nested : depth b.indent body = some n)
    : processLines dmask (some b) (body.map BodyLine.text ++ rest)
      = (processLines dmask (some (b.through body)) rest).after (copiedLines body) := by
  induction body generalizing b with
  | nil => rfl
  | cons line body ih =>
      rw [List.map_cons, List.cons_append, processLines]
      cases line with
      | field f =>
          have same : (b.set f.field f.value).indent = b.indent := by
            cases f.field <;> rfl
          have next := ih (same.symm ▸ inside) (same.symm ▸ nested)
          simp only [BodyLine.text, blockLine_field, same, ge_iff_le, inside, if_true, next]
          rfl
      | opens text noField brace notCloses =>
          have stepped := blockLine_noField dmask b noField
          rw [if_pos brace] at stepped
          have next := ih (b := { b with indent := b.indent + 1 }) (Nat.le_add_left 1 _) nested
          simp only [BodyLine.text, stepped, ge_iff_le, Nat.le_add_left, if_true, next,
            Result.after_after]
          rfl
      | closes text noField notOpens brace =>
          have stepped := blockLine_noField dmask b noField
          rw [depth] at nested
          split at nested
          · cases nested
          next deep =>
            rw [if_neg notOpens, if_pos brace, if_neg (by omega)] at stepped
            have still : 1 ≤ b.indent - 1 := by omega
            have next := ih (b := { b with indent := b.indent - 1 }) still nested
            simp only [BodyLine.text, stepped, ge_iff_le, still, if_true, next,
              Result.after_after]
            rfl
      | other text noField notOpens notCloses =>
          have stepped := blockLine_noField dmask b noField
          rw [if_neg notOpens, if_neg notCloses] at stepped
          have next := ih inside nested
          simp only [BodyLine.text, stepped, ge_iff_le, inside, if_true, next, Result.after_after]
          rfl

/-- The variables that matter at the end of an initialiser, by induction on its lines. -/
theorem Block.through_eq {body : List BodyLine} {b : Block} {n : Nat}
    (nested : depth b.indent body = some n)
    : (b.through body).indent = n
      ∧ (b.through body).mask = valueFrom .mask b.mask (fieldsOf body)
      ∧ (b.through body).regDiv = valueFrom .regDivider b.regDiv (fieldsOf body)
      ∧ (b.through body).regSrc = valueFrom .regSource b.regSrc (fieldsOf body) := by
  induction body generalizing b with
  | nil => exact ⟨Option.some.inj nested, rfl, rfl, rfl⟩
  | cons line body ih =>
      cases line with
      | field f =>
          have same : (b.set f.field f.value).indent = b.indent := by
            cases f.field <;> rfl
          have next := ih (b := b.set f.field f.value) (same.symm ▸ nested)
          rw [Block.through, fieldsOf_field, valueFrom, valueFrom, valueFrom, List.foldl_cons,
            List.foldl_cons, List.foldl_cons]
          cases field : f.field <;> rw [field] at next <;> exact next
      | opens text noField brace notCloses =>
          exact ih (b := { b with indent := b.indent + 1 }) nested
      | closes text noField notOpens brace =>
          rw [depth] at nested
          split at nested
          · cases nested
          · exact ih (b := { b with indent := b.indent - 1 }) nested
      | other text noField notOpens notCloses => exact ih nested

/-- What the script prints for an initialiser: the registers of one clock with all its fields, at
the very end.
-/
def Initialiser.printed (i : Initialiser) (dmask : Dmask) : List OutLine :=
  .copied i.opening :: (copiedLines i.body
    ++ (clockRegisters dmask (fieldsOf i.body) ++ [.copied i.closing]))

/-- An initialiser is printed with the sizes and shifts that have been stored. The lines inside it
only set variables, of which the last values are there when it is closed.
-/
theorem processLines_initialiser (dmask : Dmask) (i : Initialiser) (rest : List Text)
    : processLines dmask none (i.lines ++ rest)
      = (processLines dmask none rest).after (i.printed dmask) := by
  obtain ⟨indent, mask, regDiv, regSrc⟩ : (Block.start.through i.body).indent = 1
      ∧ (Block.start.through i.body).mask = valueOf .mask (fieldsOf i.body)
      ∧ (Block.start.through i.body).regDiv = valueOf .regDivider (fieldsOf i.body)
      ∧ (Block.start.through i.body).regSrc = valueOf .regSource (fieldsOf i.body) :=
    Block.through_eq i.nested
  have body := processLines_body dmask (i.closing :: rest) (b := Block.start) (Nat.le_refl 1)
    i.nested
  have closing := blockLine_noField dmask (Block.start.through i.body) i.closing_noField
  rw [if_neg i.closing_brace.1, if_pos i.closing_brace.2, indent, if_pos rfl] at closing
  have printed : registers dmask (Block.start.through i.body)
      = clockRegisters dmask (fieldsOf i.body) := by
    simp only [registers, clockRegisters, dividerMask, mask, regDiv, regSrc]
    by_cases none : valueOf .regDivider (fieldsOf i.body) = []
    · rw [if_pos none, if_neg (not_not.mpr none)]
    · rw [if_neg none, if_pos none]
  have ended : processLines dmask (some (Block.start.through i.body)) (i.closing :: rest)
      = (processLines dmask none rest).after
          (registers dmask (Block.start.through i.body) ++ [.copied i.closing]) := by
    rw [processLines, closing]
    rfl
  rw [Initialiser.lines, List.cons_append, List.append_assoc, List.singleton_append, processLines,
    i.opening_clksrc, if_pos rfl, body, ended, printed, Result.after_after, Result.after_after]
  simp only [Initialiser.printed, List.cons_append, List.nil_append]

def Item.printed (dmask : Dmask) : Item → List OutLine
  | .initialiser i => i.printed dmask
  | .other line _ => [.copied line]

/-- The input is printed item by item. -/
theorem processLines_items (dmask : Dmask) (items : List Item)
    : processLines dmask none (items.flatMap Item.lines)
      = { printed := items.flatMap (Item.printed dmask), failure := none } := by
  induction items with
  | nil => rfl
  | cons item rest ih =>
      rw [List.flatMap_cons, List.flatMap_cons]
      cases item with
      | initialiser i =>
          rw [Item.lines, processLines_initialiser, ih]
          rfl
      | other line plain =>
          rw [Item.lines, List.singleton_append, processLines, plain,
            if_neg Bool.false_ne_true, ih]
          rfl

section Clocks

variable {dmask : Dmask}

def clocksAfter : List (List FieldLine) → List BodyLine → List (List FieldLine)
  | clocks, [] => clocks
  | clocks, .opens _ _ _ _ :: rest => clocksAfter ([] :: clocks) rest
  | clocks, .closes _ _ _ _ :: rest => clocksAfter clocks.tail rest
  | [], .field _ :: rest => clocksAfter [] rest
  | clock :: outer, .field f :: rest => clocksAfter ((clock ++ [f]) :: outer) rest
  | clocks, .other _ _ _ _ :: rest => clocksAfter clocks rest

theorem translateLines_append (clocks : List (List FieldLine)) (body later : List BodyLine)
    : translateLines dmask clocks (body ++ later)
      = translateLines dmask clocks body
        ++ translateLines dmask (clocksAfter clocks body) later := by
  fun_induction clocksAfter clocks body with
  | case1 clocks => rfl
  | case2 clocks text noField brace notCloses rest ih =>
      simp only [List.cons_append, translateLines, ih]
  | case3 clocks text noField notOpens brace rest ih =>
      cases clocks with
      | nil => exact congrArg (OutLine.copied text :: ·) ih
      | cons clock outer =>
          rw [List.tail_cons] at ih
          simp only [List.cons_append, translateLines, List.tail_cons, ih, List.append_assoc]
  | case4 f rest ih => simpa only [List.cons_append, translateLines] using ih
  | case5 clock outer f rest ih => simpa only [List.cons_append, translateLines] using ih
  | case6 clocks text noField notOpens notCloses rest ih =>
      simp only [List.cons_append, translateLines, ih]

variable {body : List BodyLine}

/-- As many braces are open as the depth says. -/
theorem length_clocksAfter (clocks : List (List FieldLine)) {n : Nat}
    (nested : depth clocks.length body = some n)
    : (clocksAfter clocks body).length = n := by
  fun_induction clocksAfter clocks body with
  | case1 clocks => exact Option.some.inj nested
  | case2 clocks text noField brace notCloses rest ih => exact ih nested
  | case3 clocks text noField notOpens brace rest ih =>
      rw [depth] at nested
      split at nested
      · cases nested
      · exact ih (by rwa [List.length_tail])
  | case4 f rest ih => exact ih nested
  | case5 clock outer f rest ih => exact ih nested
  | case6 clocks text noField notOpens notCloses rest ih => exact ih nested

/-- The translation of an initialiser, with the fields directly inside its outer braces. -/
theorem Initialiser.output_eq (i : Initialiser) (dmask : Dmask)
    : ∃ clock, clocksAfter [[]] i.body = [clock]
      ∧ i.output dmask = .copied i.opening :: (translateLines dmask [[]] i.body
        ++ ((if clock = [] then [] else clockRegisters dmask clock) ++ [.copied i.closing])) := by
  obtain ⟨clock, open_eq⟩ := List.length_eq_one_iff.mp
    (length_clocksAfter [[]] i.nested)
  refine ⟨clock, open_eq, ?_⟩
  rw [Initialiser.output, translateLines_append, open_eq]
  rfl

/-- The fields of one clock are gathered in its braces, and the other lines are copied. The inner
braces have no fields, so nothing takes the place of any; by induction on the lines.
-/
theorem translateLines_oneClock (dmask : Dmask) (inner : Nat) (clock : List FieldLine) {n : Nat}
    (one : OneClock (inner + 1) body) (nested : depth (inner + 1) body = some n)
    : translateLines dmask (List.replicate inner [] ++ [clock]) body = copiedLines body
      ∧ clocksAfter (List.replicate inner [] ++ [clock]) body
        = List.replicate (n - 1) [] ++ [clock ++ fieldsOf body] := by
  induction body generalizing inner clock with
  | nil =>
      obtain rfl : inner + 1 = n := Option.some.inj nested
      simp [translateLines, clocksAfter, copiedLines, fieldsOf]
  | cons line rest ih =>
      cases line with
      | field f =>
          obtain ⟨outermost, later⟩ := one
          obtain rfl : inner = 0 := by omega
          obtain ⟨lines, clocks⟩ := ih 0 (clock ++ [f]) later nested
          rw [List.append_assoc] at clocks
          exact ⟨lines, clocks⟩
      | opens text noField brace notCloses =>
          obtain ⟨lines, clocks⟩ := ih (inner + 1) clock one nested
          rw [List.replicate_succ, List.cons_append] at lines clocks
          exact ⟨congrArg (OutLine.copied text :: ·) lines, clocks⟩
      | closes text noField notOpens brace =>
          rw [depth] at nested
          split at nested
          · cases nested
          next deep =>
            obtain ⟨less, rfl⟩ : ∃ less, inner = less + 1 := ⟨inner - 1, by omega⟩
            obtain ⟨lines, clocks⟩ := ih less clock one nested
            exact ⟨congrArg (OutLine.copied text :: ·) lines, clocks⟩
      | other text noField notOpens notCloses =>
          obtain ⟨lines, clocks⟩ := ih inner clock one nested
          refine ⟨?_, ?_⟩
          · rw [translateLines, lines]
            rfl
          · rw [clocksAfter, clocks]
            rfl

/-- With the fields of one clock, the script prints what is to be printed. -/
theorem Initialiser.output_eq_printed {i : Initialiser} (one : OneClock 1 i.body) (dmask : Dmask)
    : i.output dmask = i.printed dmask := by
  obtain ⟨lines, clocks⟩ := translateLines_oneClock dmask 0 [] one i.nested
  obtain ⟨clock, open_eq, output⟩ := i.output_eq dmask
  obtain ⟨f, member, _⟩ := i.uses
  have clock_eq : clock = fieldsOf i.body := by
    have same : [clock] = [fieldsOf i.body] := open_eq.symm.trans clocks
    exact List.singleton_inj.mp same
  have some : clock ≠ [] := by
    rw [clock_eq]
    exact List.ne_nil_of_mem member
  have lines : translateLines dmask [[]] i.body = copiedLines i.body := lines
  rw [output, lines, if_neg some, clock_eq, Initialiser.printed]

def OutLine.isSource : OutLine → Bool
  | .register .regSrc _ _ => true
  | _ => false

def OutLine.isCopied : OutLine → Bool
  | .copied _ => true
  | _ => false

theorem countP_clockRegisters (dmask : Dmask) (clock : List FieldLine)
    : (clockRegisters dmask clock).countP OutLine.isSource = 1
      ∧ (clockRegisters dmask clock).countP OutLine.isCopied = 0 := by
  rw [clockRegisters]
  split <;> exact ⟨rfl, rfl⟩

/-- Without a source register among the lines, no inner braces have fields: their registers would
have been printed before they are closed. By induction on the lines.
-/
theorem oneClock_of_no_source (inner : List (List FieldLine)) (clock : List FieldLine)
    (nested : depth (inner.length + 1) body = some 1)
    (none : (translateLines dmask (inner ++ [clock]) body).countP OutLine.isSource = 0)
    : (∀ fields ∈ inner, fields = []) ∧ OneClock (inner.length + 1) body := by
  induction body generalizing inner clock with
  | nil =>
      have empty : inner = [] := List.length_eq_zero_iff.mp (by simpa using Option.some.inj nested)
      simp [empty, OneClock]
  | cons line rest ih =>
      cases line with
      | field f =>
          cases inner with
          | nil => exact ⟨List.forall_mem_nil _, rfl, (ih [] (clock ++ [f]) nested none).2⟩
          | cons fields outer =>
              have empty := (ih ((fields ++ [f]) :: outer) clock nested none).1
              simp at empty
      | opens text noField brace notCloses =>
          rw [translateLines, List.countP_cons_of_neg (by simp [OutLine.isSource])] at none
          obtain ⟨empty, later⟩ := ih ([] :: inner) clock nested none
          exact ⟨(List.forall_mem_cons.mp empty).2, later⟩
      | closes text noField notOpens brace =>
          rw [depth] at nested
          split at nested
          · cases nested
          next deep =>
            cases inner with
            | nil => simp at deep
            | cons fields outer =>
                rw [List.cons_append, translateLines, List.countP_append,
                  List.countP_cons_of_neg (by simp [OutLine.isSource])] at none
                obtain ⟨empty, later⟩ := ih outer clock nested (by omega)
                refine ⟨List.forall_mem_cons.mpr ⟨?_, empty⟩, later⟩
                by_contra some
                rw [if_neg some, (countP_clockRegisters dmask fields).1] at none
                omega
      | other text noField notOpens notCloses =>
          rw [translateLines, List.countP_cons_of_neg (by simp [OutLine.isSource])] at none
          exact ih inner clock nested none

/-- The last line of a translation is a copied one. -/
theorem isCopied_of_getLast? {clocks : List (List FieldLine)} {line : OutLine}
    (last : (translateLines dmask clocks body).getLast? = some line)
    : line.isCopied = true := by
  have behind {text : Text} {later : List OutLine}
      (found : (OutLine.copied text :: later).getLast? = some line)
      (ih : later.getLast? = some line → line.isCopied = true)
      : line.isCopied = true := by
    cases later with
    | nil =>
        cases found
        rfl
    | cons first more => exact ih (by rwa [List.getLast?_cons_cons] at found)
  fun_induction translateLines dmask clocks body with
  | case1 clocks => cases last
  | case2 clocks text noField brace notCloses rest ih => exact behind last ih
  | case3 text noField notOpens brace rest ih => exact behind last ih
  | case4 clock outer text noField notOpens brace rest ih =>
      rw [List.getLast?_append_of_ne_nil _ (List.cons_ne_nil _ _)] at last
      exact behind last ih
  | case5 f rest ih => exact ih last
  | case6 clock outer f rest ih => exact ih last
  | case7 clocks text noField notOpens notCloses rest ih => exact behind last ih

theorem countP_copiedLines (body : List BodyLine)
    : (copiedLines body).countP OutLine.isSource = 0 := by
  rw [List.countP_eq_zero]
  intro line member
  obtain ⟨bodyLine, _, inside⟩ := List.mem_flatMap.mp member
  cases bodyLine with
  | field f => cases inside
  | opens | closes | other =>
      cases List.mem_singleton.mp inside
      simp [OutLine.isSource]

/-- What is printed for an initialiser is its translation only if its fields are those of one
clock: a single source register is printed, right before the end.
-/
theorem Initialiser.oneClock_of_printed {i : Initialiser} {first second : Dmask}
    (same : i.printed first = i.output second)
    : OneClock 1 i.body := by
  obtain ⟨clock, _, output⟩ := i.output_eq second
  rw [output, Initialiser.printed, List.cons.injEq, ← List.append_assoc, ← List.append_assoc,
    List.append_left_inj] at same
  have same := same.2
  have counts := congrArg (List.countP OutLine.isSource) same
  rw [List.countP_append, List.countP_append, countP_copiedLines,
    (countP_clockRegisters first _).1] at counts
  by_cases empty : clock = []
  · -- then the translation of the body would have to end in a register
    rw [if_pos empty, List.append_nil, clockRegisters, ← List.append_assoc] at same
    have last := isCopied_of_getLast? (by rw [← same, List.getLast?_concat])
    cases last
  · rw [if_neg empty, (countP_clockRegisters second clock).1] at counts
    exact (oneClock_of_no_source [] [] i.nested (by simpa using counts)).2

theorem Initialiser.printed_eq_iff (i : Initialiser) (first second : Dmask)
    : i.printed first = i.printed second ↔ ∀ name ∈ i.usedMasks, first name = second name := by
  by_cases none : valueOf .regDivider (fieldsOf i.body) = []
  · simp [Initialiser.printed, Initialiser.usedMasks, clockRegisters, none]
  · simp [Initialiser.printed, Initialiser.usedMasks, clockRegisters, none, and_comm]

theorem countP_isCopied_translateLines (clocks : List (List FieldLine)) (body : List BodyLine)
    : (translateLines dmask clocks body).countP OutLine.isCopied = (copiedLines body).length := by
  fun_induction translateLines dmask clocks body with
  | case1 clocks => rfl
  | case4 clock outer text noField notOpens brace rest ih =>
      have none : (if clock = [] then [] else clockRegisters dmask clock).countP OutLine.isCopied
          = 0 := by
        split
        · rfl
        · exact (countP_clockRegisters dmask clock).2
      rw [List.countP_append, none, List.countP_cons_of_pos rfl, ih]
      simp [copiedLines]
  | case5 f rest ih => exact ih
  | case6 clock outer f rest ih => exact ih
  | case2 | case3 | case7 =>
      rename_i ih
      rw [List.countP_cons_of_pos rfl, ih]
      simp [copiedLines]

theorem Item.countP_printed (item : Item) (first second : Dmask)
    : (item.printed first).countP OutLine.isCopied
      = (item.output second).countP OutLine.isCopied := by
  cases item with
  | other line plain => rfl
  | initialiser i =>
      have all : (copiedLines i.body).countP OutLine.isCopied = (copiedLines i.body).length := by
        rw [List.countP_eq_length]
        intro line member
        obtain ⟨bodyLine, _, inside⟩ := List.mem_flatMap.mp member
        cases bodyLine with
        | field f => cases inside
        | opens | closes | other =>
            cases List.mem_singleton.mp inside
            rfl
      have lines : copiedLines (i.body ++ [i.closingLine])
          = copiedLines i.body ++ [.copied i.closing] := by
        simp [copiedLines, Initialiser.closingLine, BodyLine.text]
      rw [Item.printed, Item.output, Initialiser.printed, Initialiser.output, List.countP_cons,
        List.countP_cons, List.countP_append, List.countP_append, all,
        (countP_clockRegisters first _).2, countP_isCopied_translateLines, lines,
        List.length_append, Nat.zero_add]
      rfl

/-- Each item ends in a copied line. -/
theorem Item.getLast?_copied (item : Item) (dmask : Dmask)
    : (∀ line ∈ (item.printed dmask).getLast?, line.isCopied)
      ∧ ∀ line ∈ (item.output dmask).getLast?, line.isCopied := by
  cases item with
  | other line plain => exact ⟨fun _ last => by cases last; rfl, fun _ last => by cases last; rfl⟩
  | initialiser i =>
      obtain ⟨clock, _, output⟩ := i.output_eq dmask
      constructor
      · intro line last
        rw [Item.printed, Initialiser.printed, ← List.append_assoc, ← List.cons_append] at last
        cases List.getLast?_concat.symm.trans last
        rfl
      · intro line last
        rw [Item.output, output, ← List.append_assoc, ← List.cons_append] at last
        cases List.getLast?_concat.symm.trans last
        rfl

/-- What is printed is the translation exactly if each initialiser is for one clock and the two
tables agree on the masks that are used.
-/
theorem flatMap_printed_eq_iff (items : List Item) (first second : Dmask)
    : items.flatMap (Item.printed first) = items.flatMap (Item.output second)
      ↔ (∀ i, .initialiser i ∈ items → OneClock 1 i.body)
        ∧ ∀ name ∈ usedMasks items, first name = second name := by
  rw [flatMap_eq_flatMap_iff_of_marks (fun item _ => item.countP_printed first second)
    (fun item _ => (item.getLast?_copied first).1) (fun item _ => (item.getLast?_copied second).2)]
  simp only [usedMasks, List.mem_flatMap]
  constructor
  · intro same
    have one : ∀ i, .initialiser i ∈ items → OneClock 1 i.body :=
      fun i member => Initialiser.oneClock_of_printed (same _ member)
    refine ⟨one, ?_⟩
    rintro name ⟨item, member, used⟩
    cases item with
    | initialiser i =>
        have printed : i.printed first = i.printed second :=
          (same _ member).trans (Initialiser.output_eq_printed (one i member) second)
        exact (i.printed_eq_iff first second).mp printed name used
    | other line plain => cases used
  · rintro ⟨one, same⟩ item member
    cases item with
    | initialiser i =>
        rw [Item.printed, Item.output, Initialiser.output_eq_printed (one i member)]
        exact (i.printed_eq_iff first second).mpr fun name used => same name ⟨_, member, used⟩
    | other line plain => rfl

end Clocks

variable {header : List HeaderLine}

theorem script_stops (stops : SomeStops header) (input : List Text)
    : ∃ failure, script (header.map HeaderLine.text) input
      = { printed := [], failure := some failure } := by
  obtain ⟨failure, failed⟩ := readHeader_stops stops (fun _ => none)
  refine ⟨failure, ?_⟩
  rw [script, failed]

theorem script_items (reads : ¬ SomeStops header) (items : List Item)
    : script (header.map HeaderLine.text) (items.flatMap Item.lines)
      = { printed := items.flatMap (Item.printed (storedMasks (fun _ => none) header)),
          failure := none } := by
  rw [script, readHeader_stored reads]
  exact processLines_items _ items

/-- With a header that is read, the clocks and the tables are what matters. -/
theorem translates_iff_stored (reads : ¬ SomeStops header) (items : List Item)
    : Translates header items
      ↔ (∀ i, .initialiser i ∈ items → OneClock 1 i.body)
        ∧ ∀ name ∈ usedMasks items,
            storedMasks (fun _ => none) header name = trueMasks header name := by
  rw [Translates, script_items reads, ← flatMap_printed_eq_iff]
  constructor
  · rintro (same | ⟨failure, other⟩)
    · exact congrArg Result.printed same
    · cases congrArg Result.failure other
  · intro same
    exact .inl (by rw [same])

/-- A name has the right entry exactly if its definition is stored with its width. -/
theorem storedMasks_eq_trueMasks_iff (header : List HeaderLine) (name : Text)
    : storedMasks (fun _ => none) header name = trueMasks header name
      ↔ ∀ d, definition name header = some d → ¬ Skipped name ∧ Measured d := by
  rw [storedMasks, trueMasks]
  cases defined : definition name header with
  | none => simp
  | some d =>
      simp only [Option.map_some, Option.some.injEq, forall_eq', ← findLength_eq_width_iff]
      by_cases skipped : Skipped name
      · simp [skipped]
      · cases found : findLength d.mask with
        | error failure => simp [skipped, Except.toOption]
        | ok length => simp [skipped, Except.toOption]

def fiveBits : MaskDefinition where
  firstGap := [' ']
  secondGap := [' ']
  gaps := ⟨⟨by decide, List.all_eq_true.mp (by decide)⟩, by decide, List.all_eq_true.mp (by decide)⟩
  name := "S_MASK".toList
  name_chars := List.all_eq_true.mp (by decide)
  name_mask := by decide
  digits := "1f".toList
  hexadecimal := List.all_eq_true.mp (by decide)
  width := 5
  width_pos := by decide
  value_eq := by decide
  shift := "4".toList
  shift_chars := List.all_eq_true.mp (by decide)

def fiveBitsClock : Initialiser where
  opening := "clksrc_clk c = \x7b".toList
  opening_clksrc := by decide
  body := [.field {
    field := .mask
    front := ".mask ".toList
    front_free := by decide
    value := "S_MASK".toList
    value_chars := List.all_eq_true.mp (by decide)
    back := []
    named := by decide
    only := by
      intro other
      cases other <;> decide }]
  nested := rfl
  uses := by simp [fieldsOf]
  closing := "\x7d;".toList
  closing_noField := by
    intro field
    cases field <;> decide
  closing_brace := by decide

end LinuxDoc.ClksrcRegisters
