import LinuxDoc.BuildToc.Script

/-! The entries of the table of contents.
Each is a heading that has gone through a number of commands, with a link at its end.
-/

namespace LinuxDoc.BuildToc

open Foundations

/-! The link at the end of an entry is not disturbed on its way to the table. -/

def linkTail (toc : Line) (k : Nat) : Line :=
  "(#".toList ++ toc ++ Nat.toDigits 10 k ++ [')']

theorem link_eq (toc : Line) (k : Nat) : link toc k = ']' :: linkTail toc k := rfl

def Plain (c : Char) : Prop :=
  c.isDigit = true ∨ c ∈ "toc_".toList

instance : DecidablePred Plain :=
  fun c => inferInstanceAs (Decidable (c.isDigit = true ∨ c ∈ "toc_".toList))

theorem mem_tocId {first second : Nat} {c : Char}
    : c ∈ tocId first second ↔ c ∈ "toc_".toList ++ Nat.toDigits 10 first ++ ['_']
        ++ Nat.toDigits 10 second ++ ['_'] :=
  Iff.rfl

theorem plain_of_mem_tocId {first second : Nat} {c : Char} (mem : c ∈ tocId first second)
    : Plain c := by
  have digit : ∀ n, c ∈ Nat.toDigits 10 n → Plain c :=
    fun n mem => .inl (Nat.isDigit_of_mem_toDigits (by decide) (by decide) mem)
  simp only [mem_tocId, List.mem_append, List.mem_singleton] at mem
  rcases mem with (((word | number) | rfl) | number) | rfl
  · exact .inr word
  · exact digit first number
  · exact .inr (by decide)
  · exact digit second number
  · exact .inr (by decide)

/-- A character that is neither a digit nor a letter of the id is not in the link, but for
its brackets and the `#`.
-/
theorem not_mem_linkTail {first second k : Nat} {c : Char} (other : ¬ Plain c)
    (bracket : c ∉ ['(', '#', ')'])
    : c ∉ linkTail (tocId first second) k := by
  intro mem
  simp only [linkTail, List.mem_append] at mem
  rcases mem with ((opening | id) | number) | closing
  · exact bracket (by simp at opening ⊢; rcases opening with rfl | rfl <;> simp)
  · exact other (plain_of_mem_tocId id)
  · exact other (.inl (Nat.isDigit_of_mem_toDigits (by decide) (by decide) number))
  · exact bracket (by simp at closing ⊢; simp [closing])

section

variable {first second k : Nat}

theorem count_hash_linkTail : (linkTail (tocId first second) k).count '#' = 1 := by
  have rest : '#' ∉ tocId first second ++ Nat.toDigits 10 k ++ [')'] := by
    intro mem
    simp only [List.mem_append] at mem
    rcases mem with (id | number) | closing
    · exact absurd (plain_of_mem_tocId id) (by decide)
    · exact absurd (Nat.isDigit_of_mem_toDigits (by decide) (by decide) number) (by decide)
    · exact absurd closing (by decide)
  have split : linkTail (tocId first second) k
      = '(' :: '#' :: (tocId first second ++ Nat.toDigits 10 k ++ [')']) := by
    simp [linkTail]
  rw [split, List.count_cons, List.count_cons, List.count_eq_zero_of_not_mem rest]
  decide

/-- A pattern that has more of some character than the link is not in the link. -/
theorem replaceAll_link {pattern replacement : Line} (bracket : ']' ∉ pattern) {c : Char}
    (more : (linkTail (tocId first second) k).count c < pattern.count c) (front : Line)
    : replaceAll pattern replacement (front ++ link (tocId first second) k)
      = replaceAll pattern replacement front ++ link (tocId first second) k := by
  have nonempty : pattern ≠ [] := by
    rintro rfl
    simp at more
  have absent : ¬ pattern <:+: linkTail (tocId first second) k :=
    fun occurs => not_lt.mpr (occurs.sublist.count_le c) more
  rw [link_eq, replaceAll_append_cons bracket nonempty, replaceAll_of_not_infix absent]

theorem replaceAll_hashes_link {pattern replacement : Line} (bracket : ']' ∉ pattern)
    (two : 2 ≤ pattern.count '#') (front : Line)
    : replaceAll pattern replacement (front ++ link (tocId first second) k)
      = replaceAll pattern replacement front ++ link (tocId first second) k :=
  replaceAll_link bracket (by rw [count_hash_linkTail]; exact two) front

theorem mem_link {c : Char} (mem : c ∈ link (tocId first second) k)
    : Plain c ∨ c ∈ [']', '(', '#', ')'] := by
  by_contra other
  obtain ⟨notPlain, notBracket⟩ := not_or.mp other
  simp only [List.mem_cons, List.not_mem_nil, or_false, not_or] at notBracket
  rw [link_eq, List.mem_cons] at mem
  rcases mem with closing | mem
  · exact notBracket.1 closing
  · exact not_mem_linkTail notPlain (by simp [notBracket]) mem

/-- None of the characters that mean something to a later command is in the link. -/
theorem special_not_mem_link {c : Char} (special : c ∈ [':', ' ', '"', '\\', '+', '-', '\''])
    : c ∉ link (tocId first second) k := by
  intro mem
  simp only [List.mem_cons, List.not_mem_nil, or_false] at special
  rcases special with rfl | rfl | rfl | rfl | rfl | rfl | rfl <;>
    exact absurd (mem_link mem) (by decide)

variable {text : Line}

theorem spaceColons_plain (after : Bool) (colon : ':' ∉ text) (space : ' ' ∉ text)
    : spaceColons after text = text := by
  induction text generalizing after with
  | nil => rfl
  | cons c rest ih =>
      simp only [List.mem_cons, not_or] at colon space
      rw [spaceColons, if_neg (Ne.symm colon.1), if_neg fun h => space.1 h.2.symm,
        ih false colon.2 space.2]

theorem spaceColons_append (after : Bool) (front : Line) {back : Line} (colon : ':' ∉ back)
    (space : ' ' ∉ back)
    : spaceColons after (front ++ back) = spaceColons after front ++ back := by
  induction front generalizing after with
  | nil => exact spaceColons_plain after colon space
  | cons c rest ih =>
      simp only [List.cons_append, spaceColons, ih]
      split
      · rfl
      · split <;> rfl

theorem xargsRead_plain (quote : '"' ∉ text) (backslash : '\\' ∉ text)
    : xargsRead .plain text = some text ∧ xargsRead .quoted text = none := by
  induction text with
  | nil => exact ⟨rfl, rfl⟩
  | cons c rest ih =>
      simp only [List.mem_cons, not_or] at quote backslash
      obtain ⟨plain, quoted⟩ := ih quote.2 backslash.2
      simp [xargsRead, Ne.symm quote.1, Ne.symm backslash.1, plain, quoted]

/-- What `xargs` reads ends as the line does, if that end is plain. -/
theorem xargsRead_append {state : Quoting} {front back text : Line} (quote : '"' ∉ back)
    (backslash : '\\' ∉ back) (nonempty : back ≠ [])
    (read : xargsRead state (front ++ back) = some text)
    : ∃ shown, text = shown ++ back := by
  obtain ⟨plain, quoted⟩ := xargsRead_plain quote backslash
  induction front generalizing state text with
  | nil =>
      cases state with
      | plain => exact ⟨[], Option.some.inj (read.symm.trans plain)⟩
      | quoted => exact nomatch quoted.symm.trans read
      | escaped =>
          cases back with
          | nil => exact absurd rfl nonempty
          | cons c rest =>
              simp only [List.mem_cons, not_or] at quote backslash
              obtain ⟨plain, _⟩ := xargsRead_plain quote.2 backslash.2
              simp only [List.nil_append, xargsRead, plain, Option.map_some,
                Option.some.injEq] at read
              exact ⟨[], read.symm⟩
  | cons c rest ih =>
      have later {next : Quoting} (read : (xargsRead next (rest ++ back)).map (c :: ·) = some text)
          : ∃ shown, text = shown ++ back := by
        obtain ⟨tail, readTail, same⟩ := Option.map_eq_some_iff.mp read
        obtain ⟨shown, rfl⟩ := ih readTail
        exact ⟨c :: shown, same.symm⟩
      cases state with
      | plain =>
          simp only [List.cons_append, xargsRead] at read
          split at read
          · exact ih read
          · split at read
            · exact ih read
            · exact later read
      | quoted =>
          simp only [List.cons_append, xargsRead] at read
          split at read
          · exact ih read
          · exact later read
      | escaped => exact later read

theorem readEscapes_plain (backslash : '\\' ∉ text)
    : readEscapes .plain text = some (text.map some) := by
  induction text with
  | nil => rfl
  | cons c rest ih =>
      simp only [List.mem_cons, not_or] at backslash
      simp [readEscapes, Escape.step, Ne.symm backslash.1, ih backslash.2]

/-- Text without a backslash is appended as it is, without the blanks in front. -/
theorem sedText_plain (backslash : '\\' ∉ text)
    : sedText text = some [text.dropWhile (· = ' ')] := by
  have shorter : '\\' ∉ text.dropWhile (· = ' ') :=
    fun mem => backslash ((List.dropWhile_suffix _).subset mem)
  have unbroken : ∀ c ∈ (text.dropWhile (· = ' ')).map some, (c == none) = false := by
    intro c mem
    obtain ⟨_, _, rfl⟩ := List.mem_map.mp mem
    rfl
  rw [sedText, readEscapes_plain shorter, Option.map_some, List.splitOn,
    List.splitOnP_eq_singleton unbroken, List.map_singleton, List.filterMap_map]
  exact congrArg (some [·]) List.filterMap_some

theorem dropWhile_blank_append (front : Line) {back : Line} (space : ' ' ∉ back)
    : ∃ shown, (front ++ back).dropWhile (· = ' ') = shown ++ back := by
  induction front with
  | nil =>
      refine ⟨[], ?_⟩
      cases back with
      | nil => rfl
      | cons c rest =>
          simp only [List.mem_cons, not_or] at space
          simp [Ne.symm space.1]
  | cons c rest ih =>
      by_cases blank : c = ' '
      · simpa [blank] using ih
      · exact ⟨c :: rest, by simp [blank]⟩

/-- Every entry ends with its own link: each command leaves the end of its line alone, since the
link has none of the characters that the command is about.
-/
theorem entry_link {heading text : Line}
    (read : xargsRead .plain (entryText (tocId first second) k heading) = some text)
    : ∃ shown, finishEntry (text.dropWhile (· = ' ')) = shown ++ link (tocId first second) k := by
  have no (c : Char) (special : c ∈ [':', ' ', '"', '\\', '+', '-', '\''])
      : c ∉ link (tocId first second) k :=
    special_not_mem_link special
  have quotes : (linkTail (tocId first second) k).count '\'' < "'".toList.count '\'' := by
    have absent : '\'' ∉ linkTail (tocId first second) k := not_mem_linkTail (by decide) (by decide)
    rw [List.count_eq_zero_of_not_mem absent]
    decide
  have dashes : (linkTail (tocId first second) k).count '-' < "-+-+-+-".toList.count '-' := by
    have absent : '-' ∉ linkTail (tocId first second) k := not_mem_linkTail (by decide) (by decide)
    rw [List.count_eq_zero_of_not_mem absent]
    decide
  unfold entryText at read
  simp only [replaceAll_hashes_link (show ']' ∉ "#####".toList by decide) (by decide),
    replaceAll_hashes_link (show ']' ∉ "####".toList by decide) (by decide),
    replaceAll_hashes_link (show ']' ∉ "###".toList by decide) (by decide),
    replaceAll_hashes_link (show ']' ∉ "##".toList by decide) (by decide),
    replaceAll_link (show ']' ∉ "'".toList by decide) quotes] at read
  rw [spaceColons_append false _ (no ':' (by decide)) (no ' ' (by decide))] at read
  obtain ⟨shown, rfl⟩ := xargsRead_append (no '"' (by decide)) (no '\\' (by decide))
    (by rw [link_eq]; simp) read
  obtain ⟨shown, eq⟩ := dropWhile_blank_append shown (no ' ' (by decide))
  rw [eq, finishEntry, replaceAll_link (show ']' ∉ "-+-+-+-".toList by decide) dashes]
  split
  · rename_i plus
    cases replaced : replaceAll "-+-+-+-".toList "'".toList shown with
    | nil =>
        rw [replaced, link_eq] at plus
        exact absurd plus (by simp)
    | cons c rest => exact ⟨rest, rfl⟩
  · exact ⟨_, rfl⟩

end

/-! The table of contents has no lines that get a span. -/

def IsItem (text : Line) : Prop :=
  text.head? = some '+' ∨ text.head? = some '-'

variable {text : Line}

theorem IsItem.cons (item : IsItem text)
    : ∃ c rest, text = c :: rest ∧ (c = '+' ∨ c = '-') := by
  cases text with
  | nil => simp [IsItem] at item
  | cons c rest => exact ⟨c, rest, rfl, by simpa [IsItem] using item⟩

/-- Replacing something that begins otherwise leaves an item an item. -/
theorem IsItem.replaceAll (item : IsItem text) (pattern : Line) {replacement : Line}
    (nonempty : replacement ≠ []) {d : Char} (begins : pattern.head? = some d)
    (other : d ≠ '+' ∧ d ≠ '-')
    : IsItem (replaceAll pattern replacement text) := by
  obtain ⟨c, rest, rfl, marks⟩ := item.cons
  have none : ¬ pattern <+: c :: rest := by
    intro occurs
    cases pattern with
    | nil => simp at begins
    | cons e tail =>
        obtain ⟨same, _⟩ := List.cons_prefix_cons.mp occurs
        simp only [List.head?_cons, Option.some.injEq] at begins
        rcases marks with rfl | rfl
        · exact other.1 (begins.symm.trans same)
        · exact other.2 (begins.symm.trans same)
  rw [IsItem, head?_replaceAll pattern nonempty, if_neg none]
  simpa using marks

/-- Replacing a run of `#` makes an item of a heading, or leaves it a heading. -/
theorem replaceAll_hashes_item {m : Nat} {replacement text : Line} (item : IsItem replacement)
    (start : "##".toList <+: text ∨ IsItem text)
    : "##".toList <+: replaceAll (List.replicate (m + 2) '#') replacement text
      ∨ IsItem (replaceAll (List.replicate (m + 2) '#') replacement text) := by
  have nonempty : replacement ≠ [] := by
    rintro rfl
    simp [IsItem] at item
  rcases start with ⟨rest, rfl⟩ | is
  · by_cases here : List.replicate (m + 2) '#' <+: '#' :: '#' :: rest
    · right
      have head := head?_replaceAll (List.replicate (m + 2) '#') nonempty '#' ('#' :: rest)
      rw [if_pos here] at head
      rwa [IsItem, ← head] at item
    · left
      have next : ¬ List.replicate (m + 2) '#' <+: '#' :: rest := by
        intro occurs
        have shorter : List.replicate (m + 2) '#' <+: List.replicate (m + 3) '#' :=
          ⟨['#'], List.replicate_succ'.symm⟩
        exact here (shorter.trans (List.cons_prefix_cons.mpr ⟨rfl, occurs⟩))
      refine ⟨replaceFrom (List.replicate (m + 2) '#') replacement 0 rest, ?_⟩
      have unrolled : replaceAll (List.replicate (m + 2) '#') replacement ('#' :: '#' :: rest)
          = '#' :: '#' :: replaceFrom (List.replicate (m + 2) '#') replacement 0 rest := by
        rw [replaceAll, replaceFrom, if_neg here, replaceFrom, if_neg next]
      exact unrolled.symm
  · exact .inr (is.replaceAll _ nonempty (d := '#') (by simp [List.replicate_succ]) (by decide))

/-- Replacing `##` last makes an item of what is still a heading. -/
theorem isItem_replaceAll_two {replacement text : Line} (item : IsItem replacement)
    (start : "##".toList <+: text ∨ IsItem text)
    : IsItem (replaceAll "##".toList replacement text) := by
  have nonempty : replacement ≠ [] := by
    rintro rfl
    simp [IsItem] at item
  rcases start with hashes | is
  · obtain ⟨rest, rfl⟩ := hashes
    have head := head?_replaceAll "##".toList nonempty '#' ('#' :: rest)
    rw [if_pos ⟨rest, rfl⟩] at head
    rwa [IsItem, ← head] at item
  · exact is.replaceAll _ nonempty (d := '#') rfl (by decide)

theorem hashes_of_isHeading {line : Line} (heading : isHeading line = true)
    : ∃ rest, line = '#' :: '#' :: rest := by
  simp only [isHeading, decide_eq_true_eq] at heading
  obtain ⟨two, _⟩ := heading
  match line with
  | [] => simp at two
  | [c] =>
      rw [List.takeWhile_cons] at two
      split at two <;> simp at two
  | c :: d :: rest =>
      rw [List.takeWhile_cons] at two
      split at two
      · rename_i first
        rw [List.takeWhile_cons] at two
        split at two
        · rename_i second
          rw [decide_eq_true_eq] at first second
          exact ⟨rest, by rw [first, second]⟩
        · simp at two
      · simp at two

theorem IsItem.spaceColons (item : IsItem text)
    : IsItem (spaceColons false text) := by
  obtain ⟨c, rest, rfl, marks⟩ := item.cons
  rcases marks with rfl | rfl
  · exact .inl rfl
  · exact .inr rfl

theorem IsItem.xargsRead {line text : Line} (item : IsItem line)
    (read : xargsRead .plain line = some text)
    : IsItem text := by
  obtain ⟨c, rest, rfl, marks⟩ := item.cons
  rcases marks with rfl | rfl
  · obtain ⟨tail, _, rfl⟩ := Option.map_eq_some_iff.mp read
    exact .inl rfl
  · obtain ⟨tail, _, rfl⟩ := Option.map_eq_some_iff.mp read
    exact .inr rfl

theorem IsItem.dropWhile_blank (item : IsItem text)
    : text.dropWhile (· = ' ') = text := by
  obtain ⟨c, rest, rfl, marks⟩ := item.cons
  rcases marks with rfl | rfl <;> rfl

/-- What a finished item begins with. -/
theorem IsItem.finishEntry (item : IsItem text) {c : Char}
    (begins : (finishEntry text).head? = some c)
    : c ∈ [' ', '+', '-', '\''] := by
  obtain ⟨d, rest, rfl, marks⟩ := item.cons
  have head := head?_replaceAll "-+-+-+-".toList (show "'".toList ≠ [] by decide) d rest
  unfold BuildToc.finishEntry at begins
  dsimp only at begins
  split at begins
  next plus =>
    obtain ⟨tail, eq⟩ := plus
    rw [← eq] at begins
    cases begins
    decide
  next other =>
    rw [head] at begins
    split at begins
    · cases begins
      decide
    · cases begins
      rcases marks with rfl | rfl <;> decide

/-- The text of an entry begins as an item of a list. -/
theorem isItem_entryText (toc : Line) (k : Nat) {heading : Line} (is : isHeading heading = true)
    : IsItem (entryText toc k heading) := by
  obtain ⟨rest, rfl⟩ := hashes_of_isHeading is
  have item (replacement : Line) (begins : replacement.head? = some '+')
      : IsItem replacement := .inl begins
  set text : Line := ('#' :: '#' :: rest).takeWhile (· ≠ ' ') ++ " [".toList
    ++ (('#' :: '#' :: rest).dropWhile (· ≠ ' ')).drop 1 ++ link toc k with text_eq
  have start : "##".toList <+: text := by
    refine ⟨rest.takeWhile (· ≠ ' ') ++ " [".toList
      ++ (('#' :: '#' :: rest).dropWhile (· ≠ ' ')).drop 1 ++ link toc k, ?_⟩
    simp [text_eq]
  have five := replaceAll_hashes_item (m := 3) (item "+            -   ".toList rfl) (.inl start)
  have four := replaceAll_hashes_item (m := 2) (item "+        -   ".toList rfl) five
  have three := replaceAll_hashes_item (m := 1) (item "+    -   ".toList rfl) four
  have two := isItem_replaceAll_two (.inr rfl : IsItem "-   ".toList) three
  have quotes := two.replaceAll "'".toList (show "-+-+-+-".toList ≠ [] by decide) rfl (by decide)
  exact quotes.spaceColons

/-! The entries of the table -/

/-- An entry shows a heading and has a number: it is the one line that is made of them. -/
def Shows (toc : Line) (k : Nat) (heading entry : Line) : Prop :=
  ∃ text, xargsRead .plain (entryText toc k heading) = some text
    ∧ (sedText text).map (List.map finishEntry) = some [entry]

/-- No backslash of the headings from number `k` on gets through `xargs` to `sed`, where it would
begin an escape: a line break, for one.
-/
def Unescaped (toc : Line) (k : Nat) (headings : List Line) : Prop :=
  ∀ entry ∈ headings.zipIdx k, ∀ text ∈ xargsRead .plain (entryText toc entry.2 entry.1),
    '\\' ∉ text

variable {toc : Line}

theorem Unescaped.not_mem {k i : Nat} {headings : List Line} {heading text : Line}
    (unescaped : Unescaped toc k headings) (at_i : headings[i]? = some heading)
    (read : xargsRead .plain (entryText toc (k + i) heading) = some text)
    : '\\' ∉ text :=
  unescaped (heading, k + i) (List.mk_add_mem_zipIdx_iff_getElem?.mpr at_i) text read

inductive Entries (toc : Line) : Nat → List Line → List Line → Prop where
  | nil (k : Nat) (headings : List Line) : Entries toc k headings []
  | cons {k : Nat} {heading entry : Line} {headings entries : List Line}
      (shows : Shows toc k heading entry) (rest : Entries toc (k + 1) headings entries)
      : Entries toc k (heading :: headings) (entry :: entries)

/-- Each entry is appended to the table as its last line. By induction on the headings: the number
of an entry is that of the last line before it.
-/
theorem appendEntries_spec {headings : List Line} (tmp : List Line)
    (unescaped : Unescaped toc tmp.length headings) (nonempty : tmp ≠ [])
    : ∃ entries, (appendEntries toc tmp.length headings tmp).map finishEntry
        = tmp.map finishEntry ++ entries
      ∧ Entries toc tmp.length headings entries := by
  induction headings generalizing tmp with
  | nil => exact ⟨[], by simp [appendEntries], .nil _ _⟩
  | cons heading rest ih =>
      rw [Unescaped, List.zipIdx_cons] at unescaped
      obtain ⟨own, later⟩ := List.forall_mem_cons.mp unescaped
      rw [appendEntries]
      split
      · exact ⟨[], by simp, .nil _ _⟩
      · rename_i text read
        have made := sedText_plain (own text read)
        set line := text.dropWhile (· = ' ')
        have appended : appendEntry tmp.length text tmp = tmp ++ [line] := by
          rw [appendEntry, made]
          simpa using appendLines_append nonempty [line] []
        obtain ⟨entries, eq, following⟩ := ih (tmp ++ [line])
          (by simpa [Unescaped] using later) (by simp)
        rw [List.length_append, List.length_singleton] at eq following
        refine ⟨finishEntry line :: entries, ?_, .cons ⟨text, read, by rw [made]; rfl⟩ following⟩
        rw [appended, eq]
        simp

theorem tocTmp_spec {language : Language} {md : List Line}
    (unescaped : Unescaped toc 1 (headings language md))
    : ∃ entries, tocTmp language toc md = [] :: entries
      ∧ Entries toc 1 (headings language md) entries :=
  appendEntries_spec [[]] unescaped (by simp)

theorem Entries.length_le {k : Nat} {headings entries : List Line}
    (made : Entries toc k headings entries)
    : entries.length ≤ headings.length := by
  induction made with
  | nil => exact Nat.zero_le _
  | cons _ _ ih => exact Nat.succ_le_succ ih

theorem Entries.getElem? {k : Nat} {headings entries : List Line}
    (made : Entries toc k headings entries) {i : Nat} {entry : Line}
    (at_i : entries[i]? = some entry)
    : ∃ heading, headings[i]? = some heading ∧ Shows toc (k + i) heading entry := by
  induction made generalizing i with
  | nil => simp at at_i
  | cons shows _ ih =>
      cases i with
      | zero =>
          obtain rfl := Option.some.inj at_i
          exact ⟨_, rfl, shows⟩
      | succ i =>
          obtain ⟨heading, at_heading, shown⟩ := ih at_i
          refine ⟨heading, at_heading, ?_⟩
          rwa [Nat.add_right_comm, Nat.add_assoc] at shown

/-- The lines of the table begin as finished items. -/
theorem head?_tocTmp {language : Language} {md : List Line} {line : Line}
    (unescaped : Unescaped toc 1 (headings language md)) (mem : line ∈ tocTmp language toc md)
    {c : Char} (begins : line.head? = some c)
    : c ∈ [' ', '+', '-', '\''] := by
  obtain ⟨entries, eq, made⟩ := tocTmp_spec unescaped
  rw [eq] at mem
  rcases List.mem_cons.mp mem with rfl | mem
  · cases begins
  · obtain ⟨i, at_i⟩ := List.mem_iff_getElem?.mp mem
    obtain ⟨heading, at_heading, text, read, shown⟩ := made.getElem? at_i
    have selected := List.mem_of_getElem? at_heading
    simp only [headings, List.mem_filter, Bool.and_eq_true] at selected
    have item := (isItem_entryText toc _ selected.2.1).xargsRead read
    rw [sedText_plain (unescaped.not_mem at_heading read), item.dropWhile_blank] at shown
    obtain rfl : finishEntry text = line := by simpa using shown
    exact item.finishEntry begins

end LinuxDoc.BuildToc
