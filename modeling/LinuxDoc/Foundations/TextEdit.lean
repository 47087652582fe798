import Mathlib.Data.List.Infix

/-! Editing text by patterns and by line numbers. -/

namespace Foundations

universe u

variable {α : Type u}

/-! Replacing every occurrence of a pattern, from left to right and without overlap -/

section

variable [DecidableEq α]

/-- Replace from here on, after the rest of the last occurrence has been passed. -/
def replaceFrom (pattern replacement : List α) : Nat → List α → List α
  | _, [] => []
  | skip + 1, _ :: rest => replaceFrom pattern replacement skip rest
  | 0, c :: rest =>
      if pattern <+: c :: rest then
        replacement ++ replaceFrom pattern replacement (pattern.length - 1) rest
      else c :: replaceFrom pattern replacement 0 rest

attribute [local grind =] replaceFrom

def replaceAll (pattern replacement text : List α) : List α :=
  replaceFrom pattern replacement 0 text

variable {pattern replacement : List α}

omit [DecidableEq α] in
/-- A pattern does not reach past a character that it does not contain. -/
theorem prefix_append_cons_iff {c : α} (apart : c ∉ pattern) (front back : List α)
    : pattern <+: front ++ c :: back ↔ pattern <+: front := by
  constructor
  · intro occurs
    rcases List.prefix_or_prefix_of_prefix occurs (List.prefix_append front (c :: back)) with h | h
    · exact h
    · obtain ⟨rest, rfl⟩ := h
      cases rest with
      | nil => simp
      | cons d rest =>
          rw [List.prefix_append_right_inj] at occurs
          obtain ⟨same, _⟩ := List.cons_prefix_cons.mp occurs
          exact absurd (by simp [same]) apart
  · exact fun occurs => occurs.trans (List.prefix_append front _)

/-- Text on the two sides of a character outside the pattern is replaced on its own. -/
theorem replaceFrom_append_cons {c : α} (apart : c ∉ pattern) (nonempty : pattern ≠ [])
    (front back : List α) (skip : Nat) (inside : skip ≤ front.length)
    : replaceFrom pattern replacement skip (front ++ c :: back)
      = replaceFrom pattern replacement skip front
        ++ c :: replaceFrom pattern replacement 0 back := by
  induction front generalizing skip with
  | nil =>
      obtain rfl : skip = 0 := by simpa using inside
      have none : ¬ pattern <+: c :: back := by
        intro occurs
        have := (prefix_append_cons_iff apart [] back).mp occurs
        exact nonempty (List.prefix_nil.mp this)
      simp [replaceFrom, none]
  | cons d front ih =>
      cases skip with
      | succ skip =>
          simp only [List.cons_append, replaceFrom]
          exact ih skip (by simpa using inside)
      | zero =>
          have same := prefix_append_cons_iff apart (d :: front) back
          simp only [List.cons_append] at same
          simp only [List.cons_append, replaceFrom, same]
          split
          · rename_i occurs
            have length := occurs.length_le
            rw [List.length_cons] at length
            rw [ih _ (by omega), List.append_assoc]
          · rw [ih 0 (Nat.zero_le _), List.cons_append]

theorem replaceAll_append_cons {c : α} (apart : c ∉ pattern) (nonempty : pattern ≠ [])
    (front back : List α)
    : replaceAll pattern replacement (front ++ c :: back)
      = replaceAll pattern replacement front ++ c :: replaceAll pattern replacement back :=
  replaceFrom_append_cons apart nonempty front back 0 (Nat.zero_le _)

/-- Text without the pattern stays as it is. -/
theorem replaceAll_of_not_infix {text : List α} (absent : ¬ pattern <:+: text)
    : replaceAll pattern replacement text = text := by
  unfold replaceAll
  induction text with
  | nil => rfl
  | cons c rest ih =>
      have none : ¬ pattern <+: c :: rest := fun occurs => absent occurs.isInfix
      rw [replaceFrom, if_neg none,
        ih fun occurs => absent (occurs.trans (List.suffix_cons _ _).isInfix)]

theorem replaceFrom_of_not_mem {p : α} {tail text : List α} (free : p ∉ text) (skip : Nat)
    : replaceFrom (p :: tail) replacement skip text = text.drop skip := by
  induction text generalizing skip with
  | nil => simp [replaceFrom]
  | cons c text ih =>
      rw [List.mem_cons, not_or] at free
      cases skip with
      | succ skip => exact ih free.2 skip
      | zero =>
          have absent : ¬ p :: tail <+: c :: text := fun occurs =>
            free.1 (List.cons_prefix_cons.mp occurs).1
          rw [replaceFrom, if_neg absent, ih free.2]
          rfl

/-- A pattern whose first character stands only at the beginning of the text. -/
theorem replaceAll_cons {p : α} {tail text : List α} (free : p ∉ text)
    : replaceAll (p :: tail) replacement (p :: text)
      = if tail <+: text then replacement ++ text.drop tail.length else p :: text := by
  simp only [replaceAll, replaceFrom, List.cons_prefix_cons, true_and,
    replaceFrom_of_not_mem free, List.length_cons, Nat.add_sub_cancel, List.drop_zero]

/-- A separator outside the pattern keeps the pieces of a text apart. -/
theorem replaceAll_intercalate {c : α} (apart : c ∉ pattern) (nonempty : pattern ≠ [])
    (pieces : List (List α))
    : replaceAll pattern replacement ([c].intercalate pieces)
      = [c].intercalate (pieces.map (replaceAll pattern replacement)) := by
  induction pieces with
  | nil => rfl
  | cons piece pieces ih =>
      cases pieces with
      | nil => simp only [List.map_cons, List.map_nil, List.intercalate_singleton]
      | cons next pieces =>
          simp only [List.map_cons, List.intercalate_cons_cons, List.append_assoc,
            List.singleton_append] at ih ⊢
          rw [replaceAll_append_cons apart nonempty, ih]

/-- What a text starts with after replacing: the replacement or its own first character. -/
theorem head?_replaceAll (pattern : List α) (nonempty : replacement ≠ []) (c : α) (rest : List α)
    : (replaceAll pattern replacement (c :: rest)).head?
      = if pattern <+: c :: rest then replacement.head? else some c := by
  rw [replaceAll, replaceFrom]
  split
  · cases replacement with
    | nil => exact absurd rfl nonempty
    | cons d tail => rfl
  · rfl

end

/-! Finding the first occurrence of a pattern -/

section

variable [DecidableEq α]

def firstOccurrence (pattern : List α) : List α → Option Nat
  | [] => if pattern = [] then some 0 else none
  | c :: rest =>
      if pattern <+: c :: rest then some 0 else (firstOccurrence pattern rest).map (· + 1)

attribute [local grind =] firstOccurrence

variable {pattern : List α}

variable {text : List α}

theorem firstOccurrence_eq_none_iff
    : firstOccurrence pattern text = none ↔ ¬ pattern <:+: text := by
  induction text with
  | nil => simp [firstOccurrence]
  | cons c rest ih =>
      rw [firstOccurrence, List.infix_cons_iff]
      split
      next here => simp [here]
      next later => simp [later, ih]

theorem firstOccurrence_eq_zero_iff
    : firstOccurrence pattern text = some 0 ↔ pattern <+: text := by
  cases text with
  | nil => simp [firstOccurrence]
  | cons c rest => simp [firstOccurrence]

theorem prefix_drop_of_firstOccurrence {k : Nat} (found : firstOccurrence pattern text = some k)
    : pattern <+: text.drop k := by
  induction text generalizing k with
  | nil =>
      obtain ⟨rfl, _⟩ : pattern = [] ∧ 0 = k := by simpa [firstOccurrence] using found
      exact List.nil_prefix
  | cons c rest ih =>
      rw [firstOccurrence] at found
      split at found
      next here =>
        obtain rfl : 0 = k := Option.some.inj found
        exact here
      next later =>
        obtain ⟨i, foundLater, rfl⟩ := Option.map_eq_some_iff.mp found
        exact ih foundLater

/-- A character is found where it first stands. -/
theorem firstOccurrence_char {c : α} {front : List α} (free : c ∉ front) (back : List α)
    : firstOccurrence [c] (front ++ c :: back) = some front.length := by
  induction front with
  | nil => simp [firstOccurrence]
  | cons d front ih =>
      rw [List.mem_cons, not_or] at free
      simp [firstOccurrence, free.1, ih free.2]

/-- Text on the two sides of a character outside the pattern is searched on its own. -/
theorem firstOccurrence_append_cons {c : α} (apart : c ∉ pattern) (nonempty : pattern ≠ [])
    (front back : List α)
    : firstOccurrence pattern (front ++ c :: back)
      = (firstOccurrence pattern front).or
          ((firstOccurrence pattern back).map (· + (front.length + 1))) := by
  induction front with
  | nil =>
      have none : ¬ pattern <+: c :: back := by
        intro occurs
        have := (prefix_append_cons_iff apart [] back).mp occurs
        exact nonempty (List.prefix_nil.mp this)
      simp [firstOccurrence, none, nonempty]
  | cons d front ih =>
      have same := prefix_append_cons_iff apart (d :: front) back
      rw [List.cons_append] at same ⊢
      simp only [firstOccurrence, ih, same]
      split
      next here => rfl
      next later => cases firstOccurrence pattern front <;> simp [Function.comp_def, Nat.add_assoc]

/-- A pattern occurs on one of the sides of a character that it does not contain. -/
theorem infix_append_cons_iff {c : α} (apart : c ∉ pattern) (nonempty : pattern ≠ [])
    (front back : List α)
    : pattern <:+: front ++ c :: back ↔ pattern <:+: front ∨ pattern <:+: back := by
  have parts := firstOccurrence_append_cons apart nonempty front back
  have none := congrArg (· = none) parts
  simp only [Option.or_eq_none_iff, Option.map_eq_none_iff, firstOccurrence_eq_none_iff,
    eq_iff_iff] at none
  rw [← not_iff_not, none, not_or]

/-- Nothing is found in a front without the first character of the pattern. -/
theorem firstOccurrence_append_of_not_mem {p : α} {tail front : List α} (free : p ∉ front)
    (back : List α)
    : firstOccurrence (p :: tail) (front ++ back)
      = (firstOccurrence (p :: tail) back).map (front.length + ·) := by
  induction front with
  | nil => simp
  | cons c front ih =>
      rw [List.mem_cons, not_or] at free
      have absent : ¬ p :: tail <+: c :: (front ++ back) := fun occurs =>
        free.1 (List.cons_prefix_cons.mp occurs).1
      rw [List.cons_append, firstOccurrence, if_neg absent, ih free.2]
      simp [Function.comp_def, Nat.add_right_comm]

/-- What is found inside the front of a text is found first. -/
theorem firstOccurrence_append_of_infix {front : List α} (inside : pattern <:+: front)
    (back : List α)
    : firstOccurrence pattern (front ++ back) = firstOccurrence pattern front := by
  induction front with
  | nil =>
      rw [List.infix_nil.mp inside]
      simp [firstOccurrence, firstOccurrence_eq_zero_iff]
  | cons c front ih =>
      rw [List.cons_append, firstOccurrence, firstOccurrence]
      rcases List.infix_cons_iff.mp inside with here | later
      · have whole : pattern <+: c :: (front ++ back) := here.trans (List.prefix_append _ back)
        rw [if_pos here, if_pos whole]
      · -- an occurrence here is short enough to be one in the front
        have same : pattern <+: c :: (front ++ back) ↔ pattern <+: c :: front := by
          constructor
          · intro whole
            exact List.prefix_of_prefix_length_le whole (List.prefix_append (c :: front) back)
              (Nat.le_trans later.length_le (Nat.le_succ _))
          · intro here
            exact here.trans (List.prefix_append _ back)
        simp only [same, ih later]

theorem eq_append_of_firstOccurrence {k : Nat} (found : firstOccurrence pattern text = some k)
    : ∃ front back, text = front ++ (pattern ++ back) ∧ front.length = k := by
  obtain ⟨back, here⟩ := prefix_drop_of_firstOccurrence found
  have inside : k ≤ text.length := by
    by_contra behind
    have empty : text.drop k = [] := List.drop_eq_nil_of_le (by omega)
    have nothing : pattern = [] := (List.append_eq_nil_iff.mp (here.trans empty)).1
    have zero : firstOccurrence pattern text = some 0 := by
      rw [firstOccurrence_eq_zero_iff, nothing]
      exact List.nil_prefix
    obtain rfl : k = 0 := Option.some.inj (found.symm.trans zero)
    omega
  refine ⟨text.take k, back, ?_, List.length_take_of_le inside⟩
  rw [here, List.take_append_drop]

end

/-! Finding the last occurrence of a pattern -/

section

variable [DecidableEq α]

def beforeLast (pattern : List α) : List α → Option (List α)
  | [] => none
  | c :: rest =>
      match beforeLast pattern rest with
      | some front => some (c :: front)
      | none => if pattern <+: c :: rest then some [] else none

attribute [local grind =] beforeLast

variable {pattern : List α}

theorem beforeLast_eq_none {text : List α} (absent : ¬ pattern <:+: text)
    : beforeLast pattern text = none := by
  induction text with
  | nil => rfl
  | cons c text ih =>
      rw [List.infix_cons_iff, not_or] at absent
      rw [beforeLast, ih absent.2]
      exact if_neg absent.1

theorem beforeLast_append {front text last : List α} (found : beforeLast pattern text = some last)
    : beforeLast pattern (front ++ text) = some (front ++ last) := by
  induction front with
  | nil => exact found
  | cons c front ih => rw [List.cons_append, beforeLast, ih, List.cons_append]

/-- The last occurrence begins where no other one follows. -/
theorem beforeLast_append_cons {c : α} {rest : List α} (here : pattern <+: c :: rest)
    (last : ¬ pattern <:+: rest) (front : List α)
    : beforeLast pattern (front ++ c :: rest) = some front := by
  have found : beforeLast pattern (c :: rest) = some [] := by
    rw [beforeLast, beforeLast_eq_none last]
    exact if_pos here
  rw [beforeLast_append found, List.append_nil]

theorem beforeLast_char {c : α} {back : List α} (last : c ∉ back) (front : List α)
    : beforeLast [c] (front ++ c :: back) = some front :=
  beforeLast_append_cons (List.prefix_append [c] back)
    (fun occurs => last (occurs.subset List.mem_cons_self)) front

theorem eq_append_of_beforeLast_char {c : α} {text front : List α}
    (found : beforeLast [c] text = some front)
    : ∃ back, text = front ++ c :: back ∧ c ∉ back := by
  by_cases member : c ∈ text
  · obtain ⟨back, rest, reversed, last⟩ :=
      List.eq_append_cons_of_mem (List.mem_reverse.mpr member)
    have split : text = rest.reverse ++ c :: back.reverse := by
      rw [← List.reverse_reverse text, reversed]
      simp
    have last : c ∉ back.reverse := by rwa [List.mem_reverse]
    rw [split, beforeLast_char last] at found
    cases found
    exact ⟨back.reverse, split, last⟩
  · have absent : ¬ [c] <:+: text := fun occurs => member (occurs.subset List.mem_cons_self)
    rw [beforeLast_eq_none absent] at found
    cases found

end

/-! Pieces of text with a separator between them -/

theorem intercalate_concat (c : α) (pieces : List (List α)) (last : List α)
    : [c].intercalate (pieces ++ [last]) = pieces.flatMap (· ++ [c]) ++ last := by
  induction pieces with
  | nil => exact List.intercalate_singleton
  | cons piece pieces ih =>
      obtain ⟨next, more, split⟩ : ∃ next more, pieces ++ [last] = next :: more :=
        List.exists_cons_of_ne_nil (by simp)
      rw [split] at ih
      rw [List.cons_append, split, List.intercalate_cons_cons, ih, List.flatMap_cons,
        List.append_assoc (piece ++ [c])]

variable {pieces : List (List α)}

theorem eq_or_mem_of_mem_intercalate {c x : α}
    (member : x ∈ [c].intercalate pieces) : x = c ∨ ∃ piece ∈ pieces, x ∈ piece := by
  rcases List.eq_nil_or_concat' pieces with rfl | ⟨front, last, rfl⟩
  · cases member
  · rw [intercalate_concat] at member
    rcases List.mem_append.mp member with inFront | inLast
    · obtain ⟨piece, known, inPiece⟩ := List.mem_flatMap.mp inFront
      rcases List.mem_append.mp inPiece with own | separator
      · exact .inr ⟨piece, List.mem_append_left _ known, own⟩
      · exact .inl (List.mem_singleton.mp separator)
    · exact .inr ⟨last, by simp, inLast⟩

theorem infix_intercalate {c : α} {piece : List α}
    (member : piece ∈ pieces) : piece <:+: [c].intercalate pieces := by
  obtain ⟨before, after, rfl⟩ := List.append_of_mem member
  rcases List.eq_nil_or_concat' after with rfl | ⟨middle, last, rfl⟩
  · rw [intercalate_concat]
    exact (List.suffix_append _ piece).isInfix
  · rw [← List.cons_append, ← List.append_assoc, intercalate_concat, List.flatMap_append,
      List.flatMap_cons]
    exact ⟨before.flatMap (· ++ [c]), [c] ++ middle.flatMap (· ++ [c]) ++ last, by
      simp only [List.append_assoc]⟩

/-- A text is split at its separators into its pieces. -/
theorem splitOnP_intercalate {p : α → Bool} {c : α} (separates : p c = true)
    (nonempty : pieces ≠ []) (free : ∀ piece ∈ pieces, ∀ d ∈ piece, p d = false)
    : ([c].intercalate pieces).splitOnP p = pieces := by
  induction pieces with
  | nil => exact absurd rfl nonempty
  | cons piece pieces ih =>
      have own := free piece List.mem_cons_self
      cases pieces with
      | nil => rw [List.intercalate_singleton, List.splitOnP_eq_singleton own]
      | cons next pieces =>
          have rest := ih (List.cons_ne_nil next pieces) fun q member =>
            free q (List.mem_cons_of_mem piece member)
          rw [List.intercalate_cons_cons, List.append_assoc, List.singleton_append,
            List.splitOnP_append_cons _ _ separates, List.splitOnP_eq_singleton own, rest,
            List.singleton_append]

/-- Pieces that end before the pattern's first occurrence. -/
theorem firstOccurrence_pieces [DecidableEq α] {c : α} {pattern : List α} (apart : c ∉ pattern)
    (nonempty : pattern ≠ []) (absent : ∀ piece ∈ pieces, ¬ pattern <:+: piece) {rest : List α}
    (here : pattern <+: rest)
    : firstOccurrence pattern (pieces.flatMap (· ++ [c]) ++ rest)
      = some (pieces.flatMap (· ++ [c])).length := by
  induction pieces with
  | nil => exact firstOccurrence_eq_zero_iff.mpr here
  | cons piece pieces ih =>
      have none := firstOccurrence_eq_none_iff.mpr (absent piece List.mem_cons_self)
      have later := ih fun q member => absent q (List.mem_cons_of_mem piece member)
      rw [List.flatMap_cons, List.append_assoc, List.append_assoc, List.singleton_append,
        firstOccurrence_append_cons apart nonempty, none, later]
      simp only [Option.none_or, Option.map_some, List.length_append, List.length_cons,
        List.length_nil]
      congr 1
      omega

/-! Lines by number, counted from 1 -/

def firstLine (p : α → Bool) (file : List α) : Option Nat :=
  (file.findIdx? p).map (· + 1)

def lineNumbers (p : α → Bool) : Nat → List α → List Nat
  | _, [] => []
  | n, line :: rest =>
      if p line then n :: lineNumbers p (n + 1) rest else lineNumbers p (n + 1) rest

/-- Put a line in front of line `n`, if there is such a line. -/
def insertLine (n : Nat) (text : α) (file : List α) : List α :=
  if n = 0 ∨ file.length < n then file else file.take (n - 1) ++ text :: file.drop (n - 1)

/-- Put lines after line `n`, if there is such a line. -/
def appendLines (n : Nat) (lines file : List α) : List α :=
  if n = 0 ∨ file.length < n then file else file.take n ++ lines ++ file.drop n

/-- Delete the lines from `first` to `last`, but at least line `first`. -/
def deleteLines (first last : Nat) (file : List α) : List α :=
  file.take (first - 1) ++ file.drop (max first last)

/-- Put a mark in front of each of the numbered lines; the numbers are those of the lines
before any mark was put in.
-/
def insertMarks (mark : Nat → α) : List Nat → Nat → List α → List α
  | [], _, file => file
  | n :: rest, t, file => insertMarks mark rest (t + 1) (insertLine (n + t) (mark (t + 1)) file)

def marked (p : α → Bool) (mark : Nat → α) : Nat → List α → List α
  | _, [] => []
  | k, line :: rest =>
      if p line then mark k :: line :: marked p mark (k + 1) rest else line :: marked p mark k rest

attribute [local grind =] lineNumbers insertMarks marked

theorem insertLine_append (front back : List α) (text line : α)
    : insertLine (front.length + 1) text (front ++ line :: back)
      = front ++ text :: line :: back := by
  simp [insertLine]

theorem appendLines_append {front : List α} (nonempty : front ≠ []) (lines back : List α)
    : appendLines front.length lines (front ++ back) = front ++ lines ++ back := by
  have positive : front.length ≠ 0 := by simpa using nonempty
  have inside : ¬ (front.length = 0 ∨ (front ++ back).length < front.length) := by
    rw [List.length_append]
    omega
  rw [appendLines, if_neg inside, List.take_left, List.drop_left]

def linesOf (first last : Nat) (file : List α) : List α :=
  (file.take (max first last)).drop (first - 1)

theorem filter_deleteLines_eq_iff (keep : α → Bool) (first last : Nat) (file : List α)
    : (deleteLines first last file).filter keep = file.filter keep
      ↔ (linesOf first last file).filter keep = [] := by
  set m := max first last with m_eq
  have whole : file = file.take (first - 1) ++ linesOf first last file ++ file.drop m := by
    have split : (file.take m).take (first - 1) = file.take (first - 1) := by
      rw [List.take_take, Nat.min_eq_left (by omega)]
    rw [linesOf, ← m_eq, ← split, List.take_append_drop, List.take_append_drop]
  rw [deleteLines, ← m_eq]
  nth_rewrite 3 [whole]
  simp only [List.filter_append, List.append_assoc, List.append_cancel_left_eq]
  exact ⟨fun same => List.self_eq_append_left.mp same, fun empty => by rw [empty, List.nil_append]⟩

section

variable {front block : List α} (nonempty : block ≠ []) (back : List α)

include nonempty in
theorem deleteLines_append
    : deleteLines (front.length + 1) (front.length + block.length) (front ++ (block ++ back))
      = front ++ back := by
  have positive := List.length_pos_iff.mpr nonempty
  rw [deleteLines, Nat.max_eq_right (by omega), Nat.add_sub_cancel, List.take_left,
    List.drop_length_add_append, List.drop_left]

include nonempty in
theorem linesOf_append
    : linesOf (front.length + 1) (front.length + block.length) (front ++ (block ++ back))
      = block := by
  have positive := List.length_pos_iff.mpr nonempty
  rw [linesOf, Nat.max_eq_right (by omega), Nat.add_sub_cancel, List.take_length_add_append,
    List.drop_left, List.take_left]

end

/-- Deleting a range of lines from a file that may have become shorter, before the range or in
it, takes away exactly what is left of the old range if no line went missing there; or else
only by accident, if neither the range nor what is left of it has a line to keep.
-/
theorem filter_deleteLines_shifted (keep : α → Bool) {front block : List α} {line : α}
    (kept : keep line = true) (apart : line ∉ block) (rest : List α) {p n : Nat} (some : 0 < n)
    (front_le : front.length ≤ p) (block_le : block.length ≤ n)
    : (deleteLines (p + 1) (p + n) (front ++ (block ++ line :: rest))).filter keep
        = (front ++ line :: rest).filter keep
      ↔ (front.length = p ∧ block.length = n)
        ∨ (block.filter keep = []
          ∧ (linesOf (p + 1) (p + n) (front ++ (block ++ line :: rest))).filter keep = []) := by
  have exact_block (lengths : front.length = p ∧ block.length = n) : block ≠ [] := by
    rintro rfl
    simp at lengths
    omega
  by_cases empty : block.filter keep = []
  · have same : (front ++ line :: rest).filter keep
        = (front ++ (block ++ line :: rest)).filter keep := by
      simp only [List.filter_append, empty, List.nil_append]
    rw [same, filter_deleteLines_eq_iff]
    refine ⟨fun none => .inr ⟨empty, none⟩, ?_⟩
    rintro (lengths | ⟨_, none⟩)
    · obtain ⟨rfl, rfl⟩ := lengths
      rw [linesOf_append (exact_block ⟨rfl, rfl⟩), empty]
    · exact none
  · constructor
    · intro same
      left
      set a := p - front.length with a_eq
      rw [deleteLines, Nat.max_eq_right (by omega), Nat.add_sub_cancel, List.take_append,
        List.take_of_length_le front_le, List.drop_append, List.drop_of_length_le (by omega),
        List.nil_append, ← a_eq, show p + n - front.length = a + n by omega,
        List.filter_append, List.filter_append, List.filter_append, List.append_assoc,
        List.append_cancel_left_eq, List.filter_cons_of_pos kept, List.take_append,
        List.filter_append] at same
      cases before : (block.take a).filter keep with
      | cons first others =>
          -- a line of the block would be left, in front of the line after it
          rw [before] at same
          obtain rfl : first = line := (List.cons.inj same).1
          have mem : first ∈ (block.take a).filter keep := by simp [before]
          exact absurd (List.mem_of_mem_take (List.mem_filter.mp mem).1) apart
      | nil =>
          have inside : a < block.length := by
            by_contra outside
            rw [List.take_of_length_le (by omega)] at before
            exact empty before
          by_contra other
          -- the line after the block would be deleted
          rw [before, show a - block.length = 0 by omega, List.drop_append,
            List.drop_of_length_le (by omega)] at same
          obtain ⟨k, k_eq⟩ : ∃ k, a + n - block.length = k + 1 :=
            ⟨a + n - block.length - 1, by omega⟩
          rw [k_eq, List.drop_succ_cons] at same
          have shorter := ((List.drop_sublist k rest).filter keep).length_le
          have lengths := congrArg List.length same
          simp at lengths shorter
          omega
    · rintro (lengths | ⟨none, _⟩)
      · obtain ⟨rfl, rfl⟩ := lengths
        rw [deleteLines_append (exact_block ⟨rfl, rfl⟩)]
      · exact absurd none empty

variable {p : α → Bool} {file : List α}

/-- The lines up to the first one with a property. -/
theorem firstLine_eq_some {n : Nat} (found : firstLine p file = some n)
    : ∃ front line back, file = front ++ line :: back ∧ n = front.length + 1 ∧ p line = true
      ∧ ∀ line ∈ front, p line = false := by
  obtain ⟨i, at_i, rfl⟩ := Option.map_eq_some_iff.mp found
  obtain ⟨inside, here, before⟩ := List.findIdx?_eq_some_iff_getElem.mp at_i
  refine ⟨file.take i, file[i], file.drop (i + 1), ?_, ?_, here, ?_⟩
  · rw [List.getElem_cons_drop, List.take_append_drop]
  · rw [List.length_take, Nat.min_eq_left (Nat.le_of_lt inside)]
  · intro line mem
    obtain ⟨j, bound, rfl⟩ := List.getElem_of_mem mem
    rw [List.length_take] at bound
    rw [List.getElem_take]
    simpa using before j (by omega)

/-- Marking by number is marking by property. -/
theorem insertMarks_lineNumbers (p : α → Bool) (mark : Nat → α) (front file : List α) (n t : Nat)
    (position : n + t = front.length + 1)
    : insertMarks mark (lineNumbers p n file) t (front ++ file)
      = front ++ marked p mark (t + 1) file := by
  induction file generalizing front n t with
  | nil => simp [lineNumbers, insertMarks, marked]
  | cons line rest ih =>
      rw [lineNumbers, marked]
      split
      · rw [insertMarks, position, insertLine_append]
        have later := ih (front ++ [mark (t + 1), line]) (n + 1) (t + 1) (by simp; omega)
        simpa using later
      · have later := ih (front ++ [line]) (n + 1) t (by simp; omega)
        simpa using later

/-- The marks of a file are the only difference to it. -/
theorem filter_marked {p keep : α → Bool} {mark : Nat → α} (dropped : ∀ k, keep (mark k) = false)
    (k : Nat) (file : List α)
    : (marked p mark k file).filter keep = file.filter keep := by
  induction file generalizing k with
  | nil => rfl
  | cons line rest ih =>
      rw [marked]
      split
      · rw [List.filter_cons_of_neg (by simp [dropped]), List.filter_cons, List.filter_cons, ih]
      · rw [List.filter_cons, List.filter_cons, ih]

theorem marked_append (p : α → Bool) (mark : Nat → α) (k : Nat) (front back : List α)
    : marked p mark k (front ++ back)
      = marked p mark k front ++ marked p mark (k + front.countP p) back := by
  induction front generalizing k with
  | nil => rfl
  | cons line rest ih =>
      rw [List.cons_append, marked, marked]
      split
      next here =>
        rw [ih, List.countP_cons_of_pos here, Nat.add_right_comm, Nat.add_assoc k]
        rfl
      next other => rw [ih, List.countP_cons_of_neg other, List.cons_append]

/-- Lines without the property get no marks. -/
theorem marked_append_of_forall (mark : Nat → α) {front : List α}
    (none : ∀ line ∈ front, p line = false) (k : Nat) (back : List α)
    : marked p mark k (front ++ back) = front ++ marked p mark k back := by
  induction front with
  | nil => rfl
  | cons line rest ih =>
      have here : ¬ p line = true := by simp [none line List.mem_cons_self]
      rw [List.cons_append, marked, if_neg here, ih fun line mem => none line (.tail _ mem),
        List.cons_append]

/-- Right below the mark with a number is the line of that number among those marked. -/
theorem exists_marked (mark : Nat → α) {i : Nat} {line : α}
    (selected : (file.filter p)[i]? = some line) (k : Nat)
    : ∃ front back, marked p mark k file = front ++ mark (k + i) :: line :: back := by
  induction file generalizing i k with
  | nil => simp at selected
  | cons first rest ih =>
      rw [marked]
      by_cases here : p first = true
      · rw [List.filter_cons_of_pos here] at selected
        rw [if_pos here]
        cases i with
        | zero =>
            obtain rfl := Option.some.inj selected
            exact ⟨[], marked p mark (k + 1) rest, rfl⟩
        | succ i =>
            obtain ⟨front, back, eq⟩ := ih selected (k + 1)
            refine ⟨mark k :: first :: front, back, ?_⟩
            rw [eq, Nat.add_right_comm, Nat.add_assoc]
            rfl
      · rw [List.filter_cons_of_neg here] at selected
        rw [if_neg here]
        obtain ⟨front, back, eq⟩ := ih selected k
        exact ⟨first :: front, back, by rw [eq]; rfl⟩

/-- The line right below a mark is the one with its number among those marked, if no line is
like a mark. By induction on the file, with what is before the mark.
-/
theorem getElem?_filter_of_marked {mark : Nat → α} (injective : Function.Injective mark)
    (apart : ∀ line ∈ file, ∀ j, line ≠ mark j) {k m : Nat} {front back : List α} {line : α}
    (below : marked p mark k file = front ++ mark m :: line :: back)
    : k ≤ m ∧ (file.filter p)[m - k]? = some line := by
  induction file generalizing k front with
  | nil => simp [marked] at below
  | cons first rest ih =>
      obtain ⟨other, later⟩ := List.forall_mem_cons.mp apart
      rw [marked] at below
      split at below
      next here =>
        rw [List.filter_cons_of_pos here]
        cases front with
        | nil =>
            obtain ⟨number, lines⟩ := List.cons.inj below
            obtain rfl := injective number
            refine ⟨Nat.le_refl k, ?_⟩
            rw [Nat.sub_self]
            exact congrArg some (List.cons.inj lines).1
        | cons _ front =>
            have below := (List.cons.inj below).2
            cases front with
            | nil => exact absurd (List.cons.inj below).1 (other _)
            | cons _ front =>
                obtain ⟨le, selected⟩ := ih later (List.cons.inj below).2
                have number : m - k = m - (k + 1) + 1 := by omega
                rw [number, List.getElem?_cons_succ]
                exact ⟨Nat.le_of_succ_le le, selected⟩
      next none =>
        rw [List.filter_cons_of_neg none]
        cases front with
        | nil => exact absurd (List.cons.inj below).1 (other _)
        | cons _ front => exact ih later (List.cons.inj below).2

/-- The places of a list are its first one and those behind it. -/
theorem forall_eq_append_cons (Holds : List α → α → Prop) {first : α} {rest : List α}
    : (∀ front line back, first :: rest = front ++ line :: back → Holds front line)
      ↔ Holds [] first
        ∧ ∀ front line back, rest = front ++ line :: back → Holds (first :: front) line := by
  constructor
  · intro all
    exact ⟨all [] first rest rfl,
      fun front line back split => all (first :: front) line back (congrArg (first :: ·) split)⟩
  · intro h front line back split
    cases front with
    | nil => exact (List.cons.inj split).1 ▸ h.1
    | cons _ front =>
        obtain ⟨rfl, tail⟩ := List.cons.inj split
        exact h.2 front line back tail

/-- A selection of lines and a wider one begin with the same `n` lines exactly if no line that is
only in the wider one stands before the last of them. By induction on the file.
-/
theorem getElem?_filter_eq_iff {p q : α → Bool} (wider : ∀ line, q line = true → p line = true)
    {n : Nat} (enough : n ≤ (file.filter q).length)
    : (∀ i < n, (file.filter q)[i]? = (file.filter p)[i]?)
      ↔ ∀ front line back, file = front ++ line :: back → p line = true → q line = false →
        n ≤ (front.filter q).length := by
  induction file generalizing n with
  | nil => simp
  | cons first rest ih =>
      rw [forall_eq_append_cons fun front line => p line = true → q line = false →
        n ≤ (front.filter q).length]
      by_cases inner : q first = true
      · cases n with
        | zero => simp
        | succ n =>
            rw [List.filter_cons_of_pos inner] at enough
            simp only [List.filter_cons_of_pos inner, List.filter_cons_of_pos (wider first inner),
              Nat.forall_lt_succ_left, List.getElem?_cons_zero, List.getElem?_cons_succ, true_and,
              inner, Bool.true_eq_false, false_imp_iff, implies_true, List.length_cons,
              Nat.add_le_add_iff_right]
            exact ih (Nat.le_of_succ_le_succ enough)
      · rw [List.filter_cons_of_neg inner] at enough
        simp only [List.filter_cons_of_neg inner, Bool.eq_false_iff.mpr inner, true_imp_iff,
          List.filter_nil, List.length_nil, Nat.le_zero_eq]
        by_cases outer : p first = true
        · -- the wider selection begins with another line, so `n` is 0
          rw [List.filter_cons_of_pos outer]
          constructor
          · intro same
            have empty : n = 0 := by
              by_contra positive
              have found := same 0 (Nat.pos_of_ne_zero positive)
              rw [List.getElem?_cons_zero] at found
              exact inner (List.mem_filter.mp (List.mem_of_getElem? found)).2
            exact ⟨fun _ => empty, fun _ _ _ _ _ _ => empty ▸ Nat.zero_le _⟩
          · intro h i less
            exact absurd less (by simp [h.1 outer])
        · rw [List.filter_cons_of_neg outer, ih enough, iff_and_self]
          exact fun _ selected => absurd selected outer

end Foundations
