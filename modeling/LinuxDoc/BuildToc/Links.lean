import LinuxDoc.BuildToc.Entries

/-! Whether the links of the table of contents lead to their headings.
The entries are numbered by one selection of lines and the spans by another one.
-/

namespace LinuxDoc.BuildToc

open Foundations

/-! What the commands do to a selection of lines -/

variable {p : Line → Bool}

theorem filter_insertLine {text : Line} (blind : p text = false) (n : Nat) (file : List Line)
    : (insertLine n text file).filter p = file.filter p := by
  unfold insertLine
  split
  · rfl
  · rw [List.filter_append, List.filter_cons_of_neg (by simp [blind]), ← List.filter_append,
      List.take_append_drop]

theorem filter_appendLines {lines : List Line} (blind : ∀ line ∈ lines, p line = false) (n : Nat)
    (file : List Line)
    : (appendLines n lines file).filter p = file.filter p := by
  have none : lines.filter p = [] := by simpa [List.filter_eq_nil_iff] using blind
  unfold appendLines
  split
  · rfl
  · rw [List.filter_append, List.filter_append, none, List.append_nil, ← List.filter_append,
      List.take_append_drop]

theorem filter_sedInsert {text : Line} (blind : p text = false) (at_ : Address) (file : List Line)
    : (sedInsert at_ text file).filter p = file.filter p := by
  cases at_ with
  | every =>
      induction file with
      | nil => rfl
      | cons line rest ih =>
          simp only [sedInsert] at ih
          simp [sedInsert, List.filter_cons, blind, ih]
  | line n => exact filter_insertLine blind n file
  | malformed => rfl

theorem filter_sedAppend {text : Line} (blind : p text = false) (n : Option Nat) (file : List Line)
    : (sedAppend (decremented n) text file).filter p = file.filter p := by
  cases n with
  | none => rfl
  | some n => exact filter_appendLines (by simpa using blind) _ file

theorem filter_sedRead {lines : List Line} (blind : ∀ line ∈ lines, p line = false)
    (readsAtZero : Bool) (n : Option Nat) (file : List Line)
    : (sedRead readsAtZero (decremented n) lines file).filter p = file.filter p := by
  have none : lines.filter p = [] := by simpa [List.filter_eq_nil_iff] using blind
  cases n with
  | none => rfl
  | some n =>
      simp only [decremented, sedRead]
      split
      · contradiction
      · split
        · rw [List.filter_append, none, List.nil_append]
        · rfl
      · rename_i at_eq
        cases at_eq
        exact filter_appendLines blind _ file
      · contradiction

theorem mentionsContents_contentsText (language : Language)
    : mentionsContents language (contentsText language) = true :=
  decide_eq_true (List.infix_refl _)

theorem headings_withEntry (language : Language) (md : List Line)
    : headings language (withEntry language md) = headings language (dropOld language md) :=
  filter_sedInsert (by simp [isHeading]) _ _

variable {language : Language}

theorem hasSpan_dropOld {md : List Line} {line : Line} (mem : line ∈ dropOld language md)
    : hasSpan line = false := by
  have filtered : line ∈ md.filter fun line => !hasSpan line := by
    unfold dropOld at mem
    dsimp only at mem
    split at mem
    · rcases List.mem_append.mp mem with mem | mem
      · exact List.mem_of_mem_take mem
      · exact List.mem_of_mem_drop mem
    · exact mem
  simpa using (List.mem_filter.mp filtered).2

theorem withSpans_eq (language : Language) (toc : Line) (file : List Line)
    : withSpans language toc file = marked (isSpanned language) (span toc) 1 file :=
  insertMarks_lineNumbers _ _ [] _ 1 0 rfl

theorem isSpanned_of_startsWithHash {line : Line} (other : startsWithHash line = false)
    : isSpanned language line = false := by
  cases line with
  | nil => simp [isSpanned, startsWithHashes]
  | cons c rest =>
      have other : '#' ≠ c := by simpa [startsWithHash] using other
      simp [isSpanned, startsWithHashes, other]

/-- The contents block that the script puts in after line `n`. There is no `a` command for
line 0, and an `r` command for it only in some versions of `sed`.
-/
def newBlock (readsAtZero : Bool) (language : Language) (table : List Line) : Nat → List Line
  | 0 => if readsAtZero then table else []
  | _ + 1 => [] :: contentsText language :: table

/-- The new contents are one block, in front of the first heading. -/
theorem withToc_eq {readsAtZero : Bool} {toc : Line} {md : List Line} {front : List Line}
    (found : insLine language md = some (front.length + 1)) {back : List Line}
    (entry : withEntry language md = front ++ back)
    : withToc readsAtZero language toc md
      = front ++ newBlock readsAtZero language (tocTmp language toc (withEntry language md))
          front.length ++ back := by
  unfold withToc
  rw [found, decremented, Nat.add_sub_cancel]
  set table := tocTmp language toc (withEntry language md)
  rw [entry]
  cases front with
  | nil => cases readsAtZero <;> rfl
  | cons line rest =>
      set front := line :: rest with front_eq
      have nonempty : front ≠ [] := by simp [front_eq]
      have read : sedRead readsAtZero (.line front.length) table (front ++ back)
          = front ++ (table ++ back) := by
        rw [← List.append_assoc]
        exact appendLines_append nonempty table back
      have append (text : Line) (file : List Line)
          : sedAppend (.line front.length) text (front ++ file) = front ++ text :: file := by
        rw [List.append_cons]
        exact appendLines_append nonempty [text] file
      dsimp only
      rw [read, append, append]
      simp [front_eq, newBlock]

/-- The file up to its first heading and from there on. -/
theorem exists_withEntry_eq {md : List Line} {n : Nat} (found : insLine language md = some n)
    : ∃ front heading back, dropOld language md = front ++ heading :: back ∧ n = front.length + 1
      ∧ withEntry language md = front ++ [] :: heading :: back
      ∧ ∀ line ∈ front, isSpanned language line = false := by
  obtain ⟨front, heading, back, eq, rfl, _, before⟩ := firstLine_eq_some found
  refine ⟨front, heading, back, eq, rfl, ?_,
    fun line mem => isSpanned_of_startsWithHash (before line mem)⟩
  rw [withEntry, found, eq]
  exact insertLine_append front back [] heading

section Table

variable {readsAtZero : Bool} {language : Language} {toc : Line} {md : List Line}

variable {line : Line}

theorem mem_newBlock {table : List Line} {n : Nat}
    (mem : line ∈ newBlock readsAtZero language table n)
    : line = [] ∨ line = contentsText language ∨ line ∈ table := by
  cases n with
  | zero =>
      rw [newBlock] at mem
      split at mem
      · exact .inr (.inr mem)
      · cases mem
  | succ n => simpa [newBlock] using mem

/-- The table of contents has no lines that get a span. -/
theorem isSpanned_tocTmp (unescaped : Unescaped toc 1 (headings language md))
    (mem : line ∈ tocTmp language toc md)
    : isSpanned language line = false := by
  cases line with
  | nil => simp [isSpanned, startsWithHashes]
  | cons c rest =>
      have other : '#' ≠ c := by
        rintro rfl
        exact absurd (head?_tocTmp unescaped mem rfl) (by decide)
      simp [isSpanned, startsWithHashes, List.cons_prefix_cons, other]

theorem isSpanned_newBlock (unescaped : Unescaped toc 1 (headings language md)) {n : Nat}
    (mem : line ∈ newBlock readsAtZero language (tocTmp language toc md) n)
    : isSpanned language line = false := by
  rcases mem_newBlock mem with rfl | rfl | mem
  · simp [isSpanned, startsWithHashes]
  · simp [isSpanned, mentionsContents_contentsText]
  · exact isSpanned_tocTmp unescaped mem

/-- The spans go to lines that were in the file before the table was put in. -/
theorem filter_isSpanned_withToc (readsAtZero : Bool)
    (unescaped : Unescaped toc 1 (headings language (withEntry language md)))
    : (withToc readsAtZero language toc md).filter (isSpanned language)
      = (dropOld language md).filter (isSpanned language) := by
  have blank : isSpanned language [] = false := by simp [isSpanned, startsWithHashes]
  have heading : isSpanned language (contentsText language) = false := by
    simp [isSpanned, mentionsContents_contentsText]
  unfold withToc
  dsimp only
  rw [filter_sedAppend blank, filter_sedAppend heading,
    filter_sedRead fun line mem => isSpanned_tocTmp unescaped mem, withEntry,
    filter_sedInsert blank]

/-- A table is inserted: there is a line to put it in front of, and a line to put it behind or a
`sed` that reads at line 0.
-/
def TableInserted (readsAtZero : Bool) (language : Language) (md : List Line) : Prop :=
  ∃ n, insLine language md = some n ∧ (1 < n ∨ readsAtZero = true)

/-- The table is in the file in the end. -/
theorem tocTmp_infix_buildToc (inserted : TableInserted readsAtZero language md)
    (unescaped : Unescaped toc 1 (headings language (withEntry language md)))
    : tocTmp language toc (withEntry language md) <:+: buildToc readsAtZero language toc md := by
  obtain ⟨n, found, room⟩ := inserted
  obtain ⟨front, heading, back, _, rfl, entry, before⟩ := exists_withEntry_eq found
  set table := tocTmp language toc (withEntry language md)
  have inside : table <:+: newBlock readsAtZero language table front.length := by
    rcases room with behind | zero
    · obtain ⟨m, length⟩ : ∃ m, front.length = m + 1 := ⟨front.length - 1, by omega⟩
      rw [length]
      exact (List.suffix_append [[], contentsText language] table).isInfix
    · cases front with
      | nil =>
          rw [List.length_nil, newBlock, if_pos zero]
      | cons => exact (List.suffix_append [[], contentsText language] table).isInfix
  have unspanned : ∀ line ∈ front ++ newBlock readsAtZero language table front.length,
      isSpanned language line = false := by
    intro line mem
    rcases List.mem_append.mp mem with mem | mem
    · exact before line mem
    · exact isSpanned_newBlock unescaped mem
  rw [buildToc, withSpans_eq, withToc_eq found entry, marked_append_of_forall _ unspanned]
  exact (inside.trans (List.suffix_append front _).isInfix).trans (List.prefix_append _ _).isInfix

theorem span_injective (toc : Line) : Function.Injective (span toc) := by
  have cancel {opening first second closing : Line}
      (same : opening ++ toc ++ first ++ closing = opening ++ toc ++ second ++ closing)
      : first = second :=
    List.append_cancel_left (List.append_cancel_right same)
  intro i j same
  have digits : Nat.toDigits 10 i = Nat.toDigits 10 j := cancel same
  have number (n : Nat) : Nat.ofDigitChars 10 (Nat.toDigits 10 n) 0 = n :=
    Nat.ofDigitChars_toDigits (by decide) (by decide)
  rw [← number i, digits, number j]

/-- No line is like a span before the spans are put in. -/
theorem ne_span_of_mem_withToc (inserted : TableInserted readsAtZero language md)
    (unescaped : Unescaped toc 1 (headings language (withEntry language md)))
    (mem : line ∈ withToc readsAtZero language toc md) (j : Nat)
    : line ≠ span toc j := by
  obtain ⟨n, found, _⟩ := inserted
  obtain ⟨front, heading, back, eq, rfl, entry, _⟩ := exists_withEntry_eq found
  have begins : (span toc j).head? = some '<' := rfl
  have bare (mem : line ∈ dropOld language md) : line ≠ span toc j := by
    rintro rfl
    have spanned : hasSpan (span toc j) = true :=
      decide_eq_true ⟨[], "id=\"".toList ++ toc ++ Nat.toDigits 10 j ++ "\"></span>".toList, rfl⟩
    rw [hasSpan_dropOld mem] at spanned
    cases spanned
  rw [withToc_eq found entry, List.mem_append, List.mem_append, List.mem_cons] at mem
  rcases mem with (mem | mem) | rfl | mem
  · exact bare (by rw [eq]; exact List.mem_append_left _ mem)
  · rcases mem_newBlock mem with rfl | rfl | mem
    · exact (List.cons_ne_nil _ _).symm
    · intro same
      rw [← same] at begins
      cases begins
    · rintro rfl
      exact absurd (head?_tocTmp unescaped mem begins) (by decide)
  · exact (List.cons_ne_nil _ _).symm
  · exact bare (by rw [eq]; exact List.mem_append_right _ mem)

end Table

/-! The theorem -/

/-- The links of the table are right: the table is in the file, and each entry shows a heading and
links to the span right above it.
-/
def LinksRight (readsAtZero : Bool) (language : Language) (toc : Line) (md : List Line) : Prop :=
  tocTmp language toc (withEntry language md) <:+: buildToc readsAtZero language toc md
  ∧ ∀ i entry, (tocTmp language toc (withEntry language md)).tail[i]? = some entry →
    ∃ heading, (headings language (withEntry language md))[i]? = some heading
      ∧ Shows toc (i + 1) heading entry
      ∧ (∃ shown, entry = shown ++ link toc (i + 1))
      ∧ ∃ front back,
        buildToc readsAtZero language toc md = front ++ span toc (i + 1) :: heading :: back

/-- Of the lines that the script keeps, those that start with `##` without being a heading come
after the headings of that many entries.
-/
def BareLinesLast (language : Language) (md : List Line) (entries : Nat) : Prop :=
  ∀ front line back, dropOld language md = front ++ line :: back → isSpanned language line = true →
    isHeading line = false → entries ≤ (headings language front).length

theorem isSpanned_of_isHeading {language : Language} {line : Line}
    (heading : (isHeading line && !mentionsContents language line) = true)
    : isSpanned language line = true := by
  rw [Bool.and_eq_true] at heading
  obtain ⟨rest, rfl⟩ := hashes_of_isHeading heading.1
  rw [isSpanned, heading.2, Bool.and_true]
  exact decide_eq_true ⟨rest, rfl⟩

/-- The links are right if the selections of lines for the entries and for the spans agree as far
as there are entries, and only then: the span of a number stands above the line of that number.
-/
theorem linksRight_iff_getElem? {readsAtZero : Bool} {language : Language} {first second : Nat}
    {md : List Line} (inserted : TableInserted readsAtZero language md)
    (unescaped : Unescaped (tocId first second) 1 (headings language (dropOld language md)))
    : LinksRight readsAtZero language (tocId first second) md
      ↔ ∀ i < (tocTmp language (tocId first second) (withEntry language md)).tail.length,
        (headings language (dropOld language md))[i]?
          = ((dropOld language md).filter (isSpanned language))[i]? := by
  rw [← headings_withEntry] at unescaped
  have spans := filter_isSpanned_withToc readsAtZero unescaped
  obtain ⟨entries, table, made⟩ := tocTmp_spec unescaped
  rw [LinksRight, and_iff_right (tocTmp_infix_buildToc inserted unescaped), buildToc, withSpans_eq,
    ← spans, table, List.tail_cons, ← headings_withEntry]
  constructor
  · intro right i less
    obtain ⟨heading, at_heading, _, _, front, back, below⟩ :=
      right i _ (List.getElem?_eq_getElem less)
    obtain ⟨_, selected⟩ := getElem?_filter_of_marked (span_injective _)
      (fun line mem => ne_span_of_mem_withToc inserted unescaped mem) below
    rw [Nat.add_sub_cancel] at selected
    rw [at_heading, selected]
  · intro same i entry at_i
    obtain ⟨heading, at_heading, shows⟩ := made.getElem? at_i
    obtain ⟨less, _⟩ := List.getElem?_eq_some_iff.mp at_i
    rw [Nat.add_comm] at shows
    refine ⟨heading, at_heading, shows, ?_, ?_⟩
    · obtain ⟨text, read, shown⟩ := shows
      have plain := unescaped.not_mem at_heading (Nat.add_comm 1 i ▸ read)
      rw [sedText_plain plain] at shown
      obtain rfl : finishEntry (text.dropWhile (· = ' ')) = entry := by simpa using shown
      exact entry_link read
    · have selected := (same i less).symm.trans at_heading
      obtain ⟨front, back, marks⟩ := exists_marked (span (tocId first second)) selected 1
      exact ⟨front, back, by rw [marks, Nat.add_comm]⟩

/-- The two selections agree exactly if each line that starts with `##` goes on as a
heading.
-/
theorem headings_eq_iff (language : Language) (file : List Line)
    : headings language file = file.filter (isSpanned language)
      ↔ ∀ line ∈ file, isSpanned language line = true → isHeading line = true := by
  constructor
  · intro same line mem spanned
    have selected : line ∈ file.filter (isSpanned language) := List.mem_filter.mpr ⟨mem, spanned⟩
    rw [← same, headings, List.mem_filter, Bool.and_eq_true] at selected
    exact selected.2.1
  · intro all
    refine List.filter_congr fun line mem => Bool.eq_iff_iff.mpr ⟨isSpanned_of_isHeading, ?_⟩
    intro spanned
    rw [all line mem spanned, Bool.true_and]
    rw [isSpanned, Bool.and_eq_true] at spanned
    exact spanned.2

/-- In a file that gets a table, and with no backslash for `sed` in its headings, the links are
right exactly if no line that starts with `##` without being a heading (with a space after two or
more `#`) comes before a heading with an entry; and the lines with an entry and those with a span
are the same ones exactly if there is no such line at all. Entries and spans number two filters of
the same lines, which `getElem?_filter_eq_iff` compares.
-/
theorem linksRight_iff (readsAtZero : Bool) (language : Language) (first second : Nat)
    (md : List Line) (inserted : TableInserted readsAtZero language md)
    (unescaped : Unescaped (tocId first second) 1 (headings language (dropOld language md)))
    : (LinksRight readsAtZero language (tocId first second) md
        ↔ BareLinesLast language md
          (tocTmp language (tocId first second) (withEntry language md)).tail.length)
      ∧ (headings language (withEntry language md)
          = (withToc readsAtZero language (tocId first second) md).filter (isSpanned language)
        ↔ ∀ line ∈ dropOld language md, isSpanned language line = true →
          isHeading line = true) := by
  have plain := unescaped
  rw [← headings_withEntry] at plain
  refine ⟨?_, by rw [headings_withEntry, filter_isSpanned_withToc _ plain, headings_eq_iff]⟩
  obtain ⟨entries, table, made⟩ := tocTmp_spec plain
  have enough := made.length_le
  rw [linksRight_iff_getElem? inserted unescaped, table, List.tail_cons]
  rw [headings_withEntry] at enough
  refine (getElem?_filter_eq_iff (fun _ => isSpanned_of_isHeading) enough).trans ?_
  -- a line with a span does not mention the contents
  refine forall_congr' fun front => forall_congr' fun line => forall_congr' fun back =>
    imp_congr_right fun _ => imp_congr_right fun spanned => imp_congr_left ?_
  rw [isSpanned, Bool.and_eq_true] at spanned
  rw [spanned.2, Bool.and_true]

def fileWithHeadings : List Line :=
  ["intro", "# Title", "## One", "### Two's \"part\": end"].map String.toList

theorem headings_linked
    : LinksRight false .english (tocId 1 2) fileWithHeadings
      ∧ tocTmp .english (tocId 1 2) (withEntry .english fileWithHeadings)
        = ["", "-    [One](#toc_1_2_1)", "    -    [Two's part: end](#toc_1_2_2)"].map
          String.toList := by
  have kept : dropOld .english fileWithHeadings = fileWithHeadings := by decide +kernel
  have all : ∀ line ∈ fileWithHeadings, isSpanned .english line = true →
      isHeading line = true := by decide +kernel
  have unescaped : Unescaped (tocId 1 2) 1 (headings .english (dropOld .english fileWithHeadings)) :=
    show ∀ entry ∈ _, _ from by decide +kernel
  refine ⟨(linksRight_iff false .english 1 2 fileWithHeadings ⟨2, by decide +kernel, .inl (by decide)⟩
    unescaped).1.mpr ?_, by decide +kernel⟩
  intro front line back split spanned bare
  rw [kept] at split
  have heading := all line (by rw [split]; simp) spanned
  rw [bare] at heading
  cases heading

def fileWithBareLine : List Line :=
  ["intro", "# Title", "## One", "##Bare", "## Two"].map String.toList

/-- The entry that shows `Two` links to the span above `##Bare`. -/
theorem bareLine_misdirects
    : tocTmp .english (tocId 1 2) (withEntry .english fileWithBareLine)
        = ["", "-    [One](#toc_1_2_1)", "-    [Two](#toc_1_2_2)"].map String.toList
      ∧ buildToc false .english (tocId 1 2) fileWithBareLine
        = ["intro", "", "## Contents", "", "-    [One](#toc_1_2_1)", "-    [Two](#toc_1_2_2)", "",
            "# Title", "<span id=\"toc_1_2_1\"></span>", "## One",
            "<span id=\"toc_1_2_2\"></span>", "##Bare", "<span id=\"toc_1_2_3\"></span>",
            "## Two"].map String.toList
      ∧ ¬ LinksRight false .english (tocId 1 2) fileWithBareLine := by
  have table : tocTmp .english (tocId 1 2) (withEntry .english fileWithBareLine)
      = ["", "-    [One](#toc_1_2_1)", "-    [Two](#toc_1_2_2)"].map String.toList := by
    decide +kernel
  refine ⟨table, by decide +kernel, fun right => ?_⟩
  obtain ⟨heading, at_heading, _, _, front, back, below⟩ :=
    right.2 1 "-    [Two](#toc_1_2_2)".toList (by rw [table]; rfl)
  have second : (headings .english (withEntry .english fileWithBareLine))[1]?
      = some "## Two".toList := by decide +kernel
  obtain rfl : "## Two".toList = heading := Option.some.inj (second.symm.trans at_heading)
  have absent : ¬ [span (tocId 1 2) 2, "## Two".toList]
      <:+: buildToc false .english (tocId 1 2) fileWithBareLine := by decide +kernel
  exact absent ⟨front, back, by rw [below]; simp⟩

end LinuxDoc.BuildToc
