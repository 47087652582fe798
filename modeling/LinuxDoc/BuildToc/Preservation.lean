import LinuxDoc.BuildToc.Links

/-! What `build-toc.sh` keeps of a file. Everything after the old contents are dropped only
puts lines in: blank ones, the new contents and the anchors. So the text of the author is
kept if and only if dropping the old contents keeps it.
-/

namespace LinuxDoc.BuildToc

open Foundations

def isBlank (line : Line) : Bool :=
  line.all fun c => c = ' ' || c = '\t'

/-- `<span id="toc_…"></span>`, the form of the anchors that the script makes -/
def isAnchor (line : Line) : Bool :=
  "<span id=\"toc_".toList <+: line
    ∧ (line.drop 14).dropWhile (· ≠ '"') = "\"></span>".toList

def isWritten (line : Line) : Bool :=
  !isBlank line && !isAnchor line

def written (file : List Line) : List Line :=
  file.filter isWritten

def bare (file : List Line) : List Line :=
  file.filter fun line => !hasSpan line

def inked (file : List Line) : List Line :=
  file.filter fun line => !isBlank line

/-- The file without its old contents block, which is from the contents heading to the line
before the first title.
-/
def withoutOld (language : Language) (md : List Line) : List Line :=
  match firstLine (isContents language) md, firstLine isTitle md with
  | some first, some title =>
      if first < title then md.take (first - 1) ++ md.drop (title - 1) else md
  | _, _ => md

def oldBlock (language : Language) (md : List Line) : List Line :=
  match firstLine (isContents language) md, firstLine isTitle md with
  | some first, some title => (md.take (title - 1)).drop (first - 1)
  | _, _ => []

def deletedLines (language : Language) (md : List Line) : List Line :=
  match firstLine (isContents language) md, firstLine isTitle md with
  | some first, some title => linesOf first (title - 1) (bare md)
  | _, _ => []

def withoutNew (readsAtZero : Bool) (language : Language) (toc : Line) (md file : List Line)
    : List Line :=
  let table := tocTmp language toc (withEntry language md)
  match decremented (insLine language md) with
  | .line n =>
      let block := withSpans language toc (newBlock readsAtZero language table n)
      file.take n ++ file.drop (n + block.length)
  | _ => file

/-- The script keeps the text of the author. -/
def Preserves (readsAtZero : Bool) (language : Language) (toc : Line) (md : List Line) : Prop :=
  written (withoutNew readsAtZero language toc md (buildToc readsAtZero language toc md))
    = written (withoutOld language md)

instance (readsAtZero : Bool) (language : Language) (toc : Line) (md : List Line)
    : Decidable (Preserves readsAtZero language toc md) :=
  inferInstanceAs (Decidable (_ = _))

/-! The lines that the script puts in -/

variable {line : Line}

theorem hasSpan_of_isAnchor (anchor : isAnchor line = true)
    : hasSpan line = true := by
  obtain ⟨⟨rest, rfl⟩, _⟩ := of_decide_eq_true anchor
  exact decide_eq_true ⟨[], "id=\"toc_".toList ++ rest, rfl⟩

def anchorName (first second t : Nat) : Line :=
  Nat.toDigits 10 first ++ ['_'] ++ Nat.toDigits 10 second ++ ['_'] ++ Nat.toDigits 10 t

theorem span_eq (first second t : Nat)
    : span (tocId first second) t
      = "<span id=\"toc_".toList ++ (anchorName first second t ++ "\"></span>".toList) := by
  have opening : "<span id=\"toc_".toList = "<span id=\"".toList ++ "toc_".toList := rfl
  rw [opening]
  change "<span id=\"".toList ++ ("toc_".toList ++ Nat.toDigits 10 first ++ ['_']
    ++ Nat.toDigits 10 second ++ ['_']) ++ Nat.toDigits 10 t ++ "\"></span>".toList = _
  simp only [anchorName, List.append_assoc]

theorem not_quote_of_mem_anchorName {first second t : Nat} {c : Char}
    (mem : c ∈ anchorName first second t)
    : c ≠ '"' := by
  have digit : ∀ n, c ∈ Nat.toDigits 10 n → c ≠ '"' := by
    rintro n mem rfl
    exact absurd (Nat.isDigit_of_mem_toDigits (by decide) (by decide) mem) (by decide)
  simp only [anchorName, List.mem_append, List.mem_singleton] at mem
  rcases mem with (((number | rfl) | number) | rfl) | number
  · exact digit _ number
  · decide
  · exact digit _ number
  · decide
  · exact digit _ number

theorem isAnchor_span (first second t : Nat) : isAnchor (span (tocId first second) t) = true := by
  have plain : ∀ c ∈ anchorName first second t, decide (c ≠ '"') = true :=
    fun c mem => decide_eq_true (not_quote_of_mem_anchorName mem)
  rw [span_eq]
  refine decide_eq_true ⟨List.prefix_append _ _, ?_⟩
  have drop : ∀ rest, ("<span id=\"toc_".toList ++ rest).drop 14 = rest := fun _ => rfl
  rw [drop, List.dropWhile_append_of_pos plain]
  rfl

theorem isWritten_span (first second t : Nat)
    : isWritten (span (tocId first second) t) = false := by
  simp [isWritten, isAnchor_span]

theorem isWritten_nil : isWritten [] = false := rfl

theorem written_append (front back : List Line)
    : written (front ++ back) = written front ++ written back :=
  List.filter_append ..

theorem written_blank (file : List Line) : written ([] :: file) = written file :=
  List.filter_cons_of_neg (by simp [isWritten_nil])

theorem written_marked (language : Language) (first second k : Nat) (file : List Line)
    : written (marked (isSpanned language) (span (tocId first second)) k file) = written file :=
  filter_marked (isWritten_span first second) k file

/-- What is put in after the old contents are dropped is not text of the author. -/
theorem written_withoutNew (readsAtZero : Bool) (language : Language) (first second : Nat)
    (md : List Line)
    : written (withoutNew readsAtZero language (tocId first second) md
        (buildToc readsAtZero language (tocId first second) md))
      = written (dropOld language md) := by
  set toc := tocId first second with toc_eq
  rw [buildToc, withSpans_eq, withoutNew]
  cases found : insLine language md with
  | none =>
      -- no heading is left, and no contents are put in
      simp only [withToc, found, decremented, sedRead, sedAppend]
      rw [written_marked, written, withEntry, filter_sedInsert isWritten_nil]
      rfl
  | some n =>
      obtain ⟨front, heading, back, eq, rfl, entry, before⟩ := exists_withEntry_eq found
      set block := newBlock readsAtZero language (tocTmp language toc (withEntry language md))
        front.length with block_eq
      simp only [decremented, Nat.add_sub_cancel]
      rw [withToc_eq found entry, ← block_eq, withSpans_eq, List.append_assoc,
        marked_append_of_forall _ before, marked_append, ← List.drop_drop, List.drop_left,
        List.drop_left, List.take_left, written_append, written_marked, written_blank,
        ← written_append, ← eq]

/-! Dropping the old contents -/

theorem isBlank_of_hasSpan (spanned : hasSpan line = true) : isBlank line = false := by
  obtain ⟨front, back, rfl⟩ := of_decide_eq_true spanned
  rw [isBlank, Bool.eq_false_iff]
  intro blank
  have bracket : '<' ∈ front ++ "<span ".toList ++ back := by simp
  exact absurd (List.all_eq_true.mp blank '<' bracket) (by decide)

theorem isTitle_cons (title : isTitle line = true)
    : ∃ rest, line = '#' :: rest := by
  obtain ⟨rest, rfl⟩ := of_decide_eq_true title
  exact ⟨' ' :: rest, rfl⟩

theorem isBlank_of_isTitle (title : isTitle line = true) : isBlank line = false := by
  obtain ⟨rest, rfl⟩ := isTitle_cons title
  rfl

theorem isAnchor_of_isTitle (title : isTitle line = true)
    : isAnchor line = false := by
  obtain ⟨rest, rfl⟩ := isTitle_cons title
  simp [isAnchor]

variable {file : List Line}

/-- Where only anchors have a span, the written lines are those without a span that are not
blank.
-/
theorem written_eq (anchors : ∀ line ∈ file, hasSpan line = true → isAnchor line = true)
    : written file = inked (bare file) := by
  rw [written, inked, bare, List.filter_filter]
  refine List.filter_congr fun line mem => ?_
  have same : isAnchor line = hasSpan line :=
    Bool.eq_iff_iff.mpr ⟨hasSpan_of_isAnchor, anchors line mem⟩
  rw [isWritten, same]

variable {language : Language}

/-- A line with a span that is no anchor is written, and the script does not keep it. -/
theorem anchors_of_written_eq {md file : List Line}
    (same : written (dropOld language md) = written file)
    : ∀ line ∈ file, hasSpan line = true → isAnchor line = true := by
  intro line mem spanned
  by_contra other
  have kept : line ∈ written file :=
    List.mem_filter.mpr ⟨mem, by simp [isWritten, isBlank_of_hasSpan spanned, other]⟩
  rw [← same] at kept
  have absent := hasSpan_dropOld (List.mem_filter.mp kept).1
  rw [spanned] at absent
  cases absent

/-- The range that is deleted is the old contents: they come before the first title, with no
span before it, since the lines of the range were counted with the spans; or else the range
happens to hold only blank lines, and so does what the spans leave of the old contents.
-/
def RangeRight (language : Language) (md : List Line) : Prop :=
  (∃ first title, firstLine (isContents language) md = some first
    ∧ firstLine isTitle md = some title ∧ first < title
    ∧ ∀ line ∈ md.take (title - 1), hasSpan line = false)
  ∨ ∀ line ∈ bare (oldBlock language md) ++ deletedLines language md, isBlank line = true

/-- What has a span outside of the old contents is an anchor, and the range is right. -/
def DropsOnlyOld (language : Language) (md : List Line) : Prop :=
  (∀ line ∈ withoutOld language md, hasSpan line = true → isAnchor line = true)
  ∧ RangeRight language md

theorem inked_eq_nil
    : inked file = [] ↔ ∀ line ∈ file, isBlank line = true := by
  simp [inked, List.filter_eq_nil_iff]

theorem length_bare
    : (bare file).length = file.length ↔ ∀ line ∈ file, hasSpan line = false := by
  simp [bare, List.length_filter_eq_length_iff]

theorem length_bare_le (file : List Line) : (bare file).length ≤ file.length :=
  List.length_filter_le ..

theorem bare_append (front back : List Line) : bare (front ++ back) = bare front ++ bare back :=
  List.filter_append ..

theorem bare_cons (plain : hasSpan line = false) (rest : List Line)
    : bare (line :: rest) = line :: bare rest :=
  List.filter_cons_of_pos (by simp [plain])

/-- Contents heading and title split a file in three. -/
theorem split_of_lt {md : List Line} {first title : Nat}
    (contents : firstLine (isContents language) md = some first)
    (titled : firstLine isTitle md = some title) (lt : first < title)
    : ∃ front block line rest, md = front ++ (block ++ line :: rest) ∧ first = front.length + 1
      ∧ block ≠ [] ∧ title = front.length + block.length + 1 ∧ isTitle line = true
      ∧ ∀ line ∈ block, isTitle line = false := by
  obtain ⟨_, _, _, _, positive, _, _⟩ := firstLine_eq_some contents
  obtain ⟨before, line, rest, rfl, rfl, is, none⟩ := firstLine_eq_some titled
  have length : (before.take (first - 1)).length = first - 1 := by
    rw [List.length_take, Nat.min_eq_left (by omega)]
  refine ⟨before.take (first - 1), before.drop (first - 1), line, rest, ?_, by omega, ?_, ?_, is,
    fun line mem => none line (List.mem_of_mem_drop mem)⟩
  · rw [← List.append_assoc, List.take_append_drop]
  · rw [Ne, List.drop_eq_nil_iff]
    omega
  · rw [length, List.length_drop]
    omega

/-- With the contents heading before the title, the range may be shifted by the spans. -/
theorem rangeRight_of_lt {md : List Line} {first title : Nat}
    (anchors : ∀ line ∈ withoutOld language md, hasSpan line = true → isAnchor line = true)
    (contents : firstLine (isContents language) md = some first)
    (titled : firstLine isTitle md = some title) (lt : first < title)
    : inked (dropOld language md) = inked (bare (withoutOld language md))
      ↔ RangeRight language md := by
  obtain ⟨front, block, line, rest, eq, rfl, nonempty, rfl, is, none⟩ :=
    split_of_lt contents titled lt
  have outside : withoutOld language md = front ++ line :: rest := by
    rw [withoutOld, contents, titled]
    dsimp only
    rw [if_pos lt, eq, Nat.add_sub_cancel, Nat.add_sub_cancel, List.take_left,
      List.drop_length_add_append, List.drop_left]
  have inside : oldBlock language md = block := by
    rw [oldBlock, contents, titled]
    dsimp only
    rw [eq, Nat.add_sub_cancel, Nat.add_sub_cancel, List.take_length_add_append, List.drop_left,
      List.take_left]
  have before : md.take (front.length + block.length) = front ++ block := by
    rw [eq, List.take_length_add_append, List.take_left]
  have plain : hasSpan line = false := by
    rw [Bool.eq_false_iff]
    intro spanned
    have anchor := anchors line (by simp [outside]) spanned
    rw [isAnchor_of_isTitle is] at anchor
    cases anchor
  have parts : bare md = bare front ++ (bare block ++ line :: bare rest) := by
    rw [eq, bare_append, bare_append, bare_cons plain]
  have apart : line ∉ bare block := by
    intro mem
    have other := none line (List.mem_filter.mp mem).1
    rw [is] at other
    cases other
  have lengths : (bare front).length = front.length ∧ (bare block).length = block.length
      ↔ ∀ line ∈ md.take (front.length + block.length), hasSpan line = false := by
    rw [before, length_bare, length_bare, List.forall_mem_append]
  have dropped : dropOld language md
      = deleteLines (front.length + 1) (front.length + block.length) (bare md) := by
    rw [dropOld, contents, titled]
    rfl
  have deleted : deletedLines language md
      = linesOf (front.length + 1) (front.length + block.length) (bare md) := by
    rw [deletedLines, contents, titled]
    rfl
  -- lines with spans are gone when the range is deleted by its numbers
  have shifted := filter_deleteLines_shifted (fun line => !isBlank line)
    (by simp [isBlank_of_isTitle is]) apart (bare rest) (List.length_pos_iff.mpr nonempty)
    (length_bare_le front) (length_bare_le block)
  rw [dropped, outside, bare_append, bare_cons plain, parts]
  refine Iff.trans shifted ?_
  rw [RangeRight, inside, deleted, lengths, List.forall_mem_append, ← inked_eq_nil, ← inked_eq_nil,
    parts]
  refine or_congr_left ⟨fun none => ⟨_, _, contents, titled, lt, none⟩, ?_⟩
  rintro ⟨_, _, _, titled', _, none⟩
  obtain rfl := Option.some.inj (titled.symm.trans titled')
  exact none

/-- Whether the lines of the range are the old contents decides whether text is lost. -/
theorem dropOld_iff {md : List Line}
    (anchors : ∀ line ∈ withoutOld language md, hasSpan line = true → isAnchor line = true)
    : inked (dropOld language md) = inked (bare (withoutOld language md))
      ↔ RangeRight language md := by
  cases contents : firstLine (isContents language) md with
  | none => simp [RangeRight, dropOld, withoutOld, oldBlock, deletedLines, contents, bare]
  | some first =>
      cases titled : firstLine isTitle md with
      | none => simp [RangeRight, dropOld, withoutOld, oldBlock, deletedLines, contents, titled, bare]
      | some title =>
          by_cases lt : first < title
          · exact rangeRight_of_lt anchors contents titled lt
          · -- there are no old contents, and the range is the line of the contents heading
            have range := filter_deleteLines_eq_iff (fun line => !isBlank line) first (title - 1)
              (bare md)
            have block : (md.take (title - 1)).drop (first - 1) = [] := by
              rw [List.drop_eq_nil_iff, List.length_take]
              omega
            simp only [RangeRight, dropOld, withoutOld, oldBlock, deletedLines, contents, titled,
              if_neg lt, block]
            refine range.trans (inked_eq_nil.trans ⟨.inr, ?_⟩)
            rintro (⟨_, _, ⟨⟩, ⟨⟩, lt', _⟩ | blank)
            · exact absurd lt' lt
            · exact blank

/-- The text of the author is kept exactly if the script drops nothing but the old contents. Without
the new lines, what is written is the file without the old ones (`written_withoutNew`).
-/
theorem preserves_iff (readsAtZero : Bool) (language : Language) (first second : Nat)
    (md : List Line)
    : Preserves readsAtZero language (tocId first second) md ↔ DropsOnlyOld language md := by
  rw [Preserves, written_withoutNew, DropsOnlyOld]
  have plain : ∀ line ∈ dropOld language md, hasSpan line = false := fun _ => hasSpan_dropOld
  have dropped : written (dropOld language md) = inked (dropOld language md) := by
    have all : bare (dropOld language md) = dropOld language md :=
      List.filter_eq_self.mpr fun line mem => by simp [plain line mem]
    rw [written_eq fun line mem spanned => by simp [plain line mem] at spanned, all]
  constructor
  · intro same
    have anchors := anchors_of_written_eq same
    rw [dropped, written_eq anchors, dropOld_iff anchors] at same
    exact ⟨anchors, same⟩
  · rintro ⟨anchors, range⟩
    rw [dropped, written_eq anchors, dropOld_iff anchors]
    exact range

def fileWithPreface : List Line :=
  ["intro", "", "## Contents", "", "-    [Preface](#toc_1_2_1)", "",
    "<span id=\"toc_1_2_1\"></span>", "## Preface", "# Title", "text"].map String.toList

/-- The script deletes the title of this file: once the span is gone, the line in front of the
title is one line further up.
-/
theorem preface_loses_title
    : (∃ line ∈ fileWithPreface, isTitle line = true)
      ∧ buildToc false .english (tocId 3 4) fileWithPreface
        = ["", "intro", "", "", "", "text"].map String.toList
      ∧ written (withoutOld .english fileWithPreface)
        = ["intro", "# Title", "text"].map String.toList
      ∧ ¬ Preserves false .english (tocId 3 4) fileWithPreface := by
  decide +kernel

end LinuxDoc.BuildToc
