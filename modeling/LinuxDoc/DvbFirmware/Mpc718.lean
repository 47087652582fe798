import LinuxDoc.Foundations.PerlFormat

/-! The register file of the MPC718 tuner card, which `get_dvb_firmware` takes out of the
Windows driver: two pieces of data of one length, ended by the bytes of "TUNER GO".
-/

namespace LinuxDoc.DvbFirmware

open Foundations.PerlFormat

/-- `<IN>` with the line terminator 5d 01: a line with its terminator, and what is left. -/
def readLine : List UInt8 → List UInt8 × List UInt8
  | [] => ([], [])
  | [b] => ([b], [])
  | b :: c :: rest =>
      if b = 0x5d ∧ c = 0x01 then ([b, c], rest)
      else
        let line := readLine (c :: rest)
        (b :: line.1, line.2)

theorem readLine_append (input : List UInt8)
    : (readLine input).1 ++ (readLine input).2 = input := by
  fun_induction readLine input with
  | case1 => rfl
  | case2 => rfl
  | case3 => rfl
  | case4 b c rest other line ih => rw [List.cons_append, ih]

variable {input : List UInt8}

theorem readLine_ne_nil (more : input ≠ []) : (readLine input).1 ≠ [] := by
  fun_cases readLine input with
  | case1 => exact absurd rfl more
  | case2 => simp
  | case3 => simp
  | case4 => simp

def stripZeros : List UInt8 → List UInt8
  | 0 :: 0 :: rest => rest
  | text => text

def chopTwice (text : List UInt8) : List UInt8 :=
  text.dropLast.dropLast

/-- The loop of `mpc718` over the lines of `IN`: what is written to `OUT`, if a line is found.
A `printf` that dies writes nothing.
-/
def mpc718Loop (formatter : Formatter) (prevlen : Nat) (input : List UInt8)
    : Option (List UInt8) :=
  if _h : input = [] then none
  else
    let line := (readLine input).1
    if prevlen = line.length ∧ line.length ≤ 64 then
      some ((printf formatter (stripZeros (chopTwice line))).getD [])
    else mpc718Loop formatter line.length (readLine input).2
termination_by input.length
decreasing_by
  have whole := congrArg List.length (readLine_append input)
  have some := List.length_pos_iff.mpr (readLine_ne_nil _h)
  rw [List.length_append] at whole
  omega

/-- `mpc718` on the contents of the driver: the file it leaves, or none when it is unlinked. -/
def mpc718 (formatter : Formatter) (input : List UInt8) : Option (List UInt8) :=
  mpc718Loop formatter 0 input

def tunerGo : List UInt8 := [0x5d, 0x01]

inductive SplitsInto : List UInt8 → List (List UInt8) → Prop where
  | nil : SplitsInto [] []
  | last (data : List UInt8) (some : data ≠ []) (free : ¬ tunerGo <:+: data)
      : SplitsInto data [data]
  | cons (data rest : List UInt8) (pieces : List (List UInt8)) (free : ¬ tunerGo <:+: data)
      (later : SplitsInto rest pieces)
      : SplitsInto (data ++ (tunerGo ++ rest)) ((data ++ tunerGo) :: pieces)

/-- The second of the first two consecutive pieces of equal length, at most 64. -/
def firstPair : List (List UInt8) → Option (List UInt8)
  | first :: second :: rest =>
      if first.length = second.length ∧ second.length ≤ 64 then some second
      else firstPair (second :: rest)
  | _ => none

def content (piece : List UInt8) : List UInt8 :=
  if tunerGo <:+ piece then chopTwice piece else piece

/-- The data of the first pair is copied verbatim, and no file is left without a pair. -/
def CopiesVerbatim (formatter : Formatter) (input : List UInt8) (pieces : List (List UInt8))
    : Prop :=
  mpc718 formatter input = (firstPair pieces).map fun piece => stripZeros (content piece)

/-- The pieces that are copied verbatim: terminated ones without a directive, and two that
are made of zeros only.
-/
def Copied (limit : Nat) (piece : List UInt8) : Prop :=
  (tunerGo <:+ piece ∧ Literal limit (stripZeros (chopTwice piece)))
    ∨ piece = [0, 0] ∨ piece = [0, 0, 0]

theorem chopTwice_append (data : List UInt8) : chopTwice (data ++ tunerGo) = data := by
  have parts : data ++ tunerGo = (data ++ [0x5d]) ++ [0x01] := by simp [tunerGo]
  rw [chopTwice, parts, List.dropLast_concat, List.dropLast_concat]

/-- A line ends behind the first terminator, by induction on the data before it. -/
theorem readLine_terminated {data : List UInt8} (rest : List UInt8)
    (free : ¬ tunerGo <:+: data)
    : readLine (data ++ (tunerGo ++ rest)) = (data ++ tunerGo, rest) := by
  induction data with
  | nil => rfl
  | cons b data ih =>
      have laterFree : ¬ tunerGo <:+: data :=
        fun inside => free (inside.trans (List.suffix_cons b data).isInfix)
      obtain ⟨c, more, next⟩ : ∃ c more, data ++ (tunerGo ++ rest) = c :: more :=
        List.exists_cons_of_ne_nil (by simp [tunerGo])
      have notHere : ¬ (b = 0x5d ∧ c = 0x01) := by
        rintro ⟨rfl, rfl⟩
        cases data with
        | nil => cases next
        | cons d data =>
            obtain ⟨rfl, _⟩ := List.cons.inj next
            exact free ⟨[], data, rfl⟩
      have line := ih laterFree
      rw [next] at line
      rw [List.cons_append, next, readLine, if_neg notHere]
      simp only [line, List.cons_append]

/-- A file without terminators is one line. -/
theorem readLine_last {data : List UInt8} (free : ¬ tunerGo <:+: data)
    : readLine data = (data, []) := by
  fun_induction readLine data with
  | case1 => rfl
  | case2 => rfl
  | case3 b c rest found =>
      obtain ⟨rfl, rfl⟩ := found
      exact absurd ⟨[], rest, rfl⟩ free
  | case4 b c rest other line ih =>
      have laterFree : ¬ tunerGo <:+: c :: rest :=
        fun inside => free (inside.trans (List.suffix_cons b _).isInfix)
      simp only [line, ih laterFree]

variable {pieces : List (List UInt8)}

/-- The pieces of a file are its lines. -/
theorem SplitsInto.head {input piece : List UInt8} (split : SplitsInto input (piece :: pieces))
    : input ≠ [] ∧ (readLine input).1 = piece ∧ SplitsInto (readLine input).2 pieces := by
  cases split with
  | last data some free =>
      rw [readLine_last free]
      exact ⟨some, rfl, .nil⟩
  | cons data rest pieces free later =>
      rw [readLine_terminated rest free]
      exact ⟨by simp [tunerGo], rfl, later⟩

variable {piece : List UInt8}

/-- A piece has its terminator, or it is the rest of the file. -/
theorem SplitsInto.piece_cases (split : SplitsInto input pieces) (member : piece ∈ pieces)
    : (∃ data, piece = data ++ tunerGo) ∨ (piece ≠ [] ∧ ¬ tunerGo <:+ piece) := by
  induction split with
  | nil => cases member
  | last data some free =>
      obtain rfl := List.mem_singleton.mp member
      exact .inr ⟨some, fun ended => free ended.isInfix⟩
  | cons data rest pieces free later ih =>
      rcases List.mem_cons.mp member with rfl | member
      · exact .inl ⟨data, rfl⟩
      · exact ih member

def written (formatter : Formatter) (piece : List UInt8) : List UInt8 :=
  (printf formatter (stripZeros (chopTwice piece))).getD []

/-- Behind a piece the loop writes the second of the first pair that begins with it, by
induction on the pieces.
-/
theorem mpc718Loop_eq (formatter : Formatter) {input previous : List UInt8}
    (split : SplitsInto input pieces)
    : mpc718Loop formatter previous.length input
      = (firstPair (previous :: pieces)).map (written formatter) := by
  induction pieces generalizing input previous with
  | nil =>
      cases split
      rw [mpc718Loop, dif_pos rfl]
      rfl
  | cons piece rest ih =>
      obtain ⟨some, line, later⟩ := split.head
      rw [mpc718Loop, dif_neg some, firstPair]
      simp only [line]
      split
      · rfl
      · exact ih later

/-- The program writes the second piece of the first pair: no piece is empty, so the first
one is not taken.
-/
theorem mpc718_eq (formatter : Formatter) (split : SplitsInto input pieces)
    : mpc718 formatter input = (firstPair pieces).map (written formatter) := by
  have whole : mpc718Loop formatter ([] : List UInt8).length input = _ :=
    mpc718Loop_eq formatter split
  refine whole.trans ?_
  cases pieces with
  | nil => rfl
  | cons piece rest =>
      have some : 0 ≠ piece.length := by
        rcases split.piece_cases List.mem_cons_self with ⟨data, rfl⟩ | ⟨some, _⟩
        · simp [tunerGo]
        · exact Nat.ne_of_lt (List.length_pos_iff.mpr some)
      rw [firstPair, if_neg (by simp [some])]

theorem firstPair_mem (found : firstPair pieces = some piece) : piece ∈ pieces := by
  fun_induction firstPair pieces with
  | case1 first second rest equal =>
      cases found
      simp
  | case2 first second rest other ih => exact List.mem_cons_of_mem first (ih found)
  | case3 => cases found

/-- A terminated piece is written verbatim exactly if it has no directive. -/
theorem written_terminated (formatter : Formatter) (data : List UInt8)
    : written formatter (data ++ tunerGo) = stripZeros data
      ↔ Literal formatter.limit (stripZeros data) := by
  rw [written, chopTwice_append]
  constructor
  · intro same
    cases printed : printf formatter (stripZeros data) with
    | none =>
        rw [printed, Option.getD_none] at same
        rw [← same]
        intro before rest split
        simp at split
    | some out =>
        rw [printed, Option.getD_some] at same
        rcases printf_count formatter printed with ⟨_, literal⟩ | fewer
        · exact literal
        · rw [same] at fewer
          exact absurd fewer (Nat.lt_irrefl _)
  · intro literal
    rw [printf_of_literal formatter literal, Option.getD_some]

theorem count_stripZeros (text : List UInt8)
    : (stripZeros text).count percent = text.count percent := by
  fun_cases stripZeros text with
  | case1 rest => simp [percent]
  | case2 => rfl

theorem chopTwice_isPrefix (text : List UInt8) : chopTwice text <+: text :=
  (List.dropLast_prefix _).trans (List.dropLast_prefix _)

theorem chopTwice_length (text : List UInt8) : (chopTwice text).length = text.length - 2 := by
  rw [chopTwice, List.length_dropLast, List.length_dropLast]
  omega

theorem stripZeros_length_le (text : List UInt8) : (stripZeros text).length ≤ text.length := by
  fun_cases stripZeros text with
  | case1 rest =>
      simp only [List.length_cons]
      omega
  | case2 => exact Nat.le_refl _

/-- Text without percent signs is literal. -/
theorem literal_of_not_mem {limit : Nat} {text : List UInt8} (none : percent ∉ text)
    : Literal limit text := by
  rintro before rest rfl
  simp at none

/-- Two bytes fewer are the same only of two or three zeros. -/
theorem stripZeros_chopTwice (some : piece ≠ [])
    (same : stripZeros (chopTwice piece) = stripZeros piece)
    : piece = [0, 0] ∨ piece = [0, 0, 0] := by
  have lengths := congrArg List.length same
  have stripped := stripZeros_length_le (chopTwice piece)
  have positive := List.length_pos_iff.mpr some
  rw [chopTwice_length] at stripped
  revert lengths same
  fun_cases stripZeros piece with
  | case1 rest =>
      intro same lengths
      match rest with
      | [] => exact .inl rfl
      | [x] =>
          have chopped : [0] = [x] := same
          rw [← chopped]
          exact .inr rfl
      | x :: y :: more =>
          have chopped : chopTwice (x :: y :: more) = x :: y :: more := same
          have shorter := congrArg List.length chopped
          rw [chopTwice_length] at shorter
          simp only [List.length_cons] at shorter
          omega
  | case2 other =>
      intro same lengths
      omega

/-- Of a piece without a terminator two bytes of data are lost, unless it is nothing but two
or three zeros.
-/
theorem written_unterminated (formatter : Formatter) (some : piece ≠ [])
    : written formatter piece = stripZeros piece ↔ piece = [0, 0] ∨ piece = [0, 0, 0] := by
  constructor
  · intro same
    rw [written] at same
    cases printed : printf formatter (stripZeros (chopTwice piece)) with
    | none =>
        rw [printed, Option.getD_none] at same
        revert same
        fun_cases stripZeros piece with
        | case1 rest =>
            rintro rfl
            exact .inl rfl
        | case2 =>
            intro same
            exact absurd same.symm some
    | some out =>
        rw [printed, Option.getD_some] at same
        rcases printf_count formatter printed with ⟨verbatim, _⟩ | fewer
        · rw [verbatim] at same
          exact stripZeros_chopTwice some same
        · -- A directive would leave too few percent signs.
          have kept := (chopTwice_isPrefix piece).sublist.count_le percent
          rw [same, count_stripZeros, count_stripZeros] at fewer
          omega
  · rintro (rfl | rfl)
    · rw [written, printf_of_literal formatter (literal_of_not_mem (by decide))]
      rfl
    · rw [written, printf_of_literal formatter (literal_of_not_mem (by decide))]
      rfl

/-- The first pair is copied verbatim exactly if its second piece is one of those that are: it has
its terminator and no percent sign in it begins a directive, or it is two or three zeros. What
the loop writes is that piece without two bytes, and a directive would cost a percent sign.
-/
theorem copiesVerbatim_iff (formatter : Formatter) (input : List UInt8)
    (pieces : List (List UInt8)) (split : SplitsInto input pieces)
    : CopiesVerbatim formatter input pieces
      ↔ ∀ piece ∈ firstPair pieces, Copied formatter.limit piece := by
  rw [CopiesVerbatim, mpc718_eq formatter split]
  cases found : firstPair pieces with
  | none => simp
  | some piece =>
      simp only [Option.map_some, Option.some.injEq, Option.mem_def, forall_eq']
      rcases split.piece_cases (firstPair_mem found) with ⟨data, rfl⟩ | ⟨some, unterminated⟩
      · have ended : tunerGo <:+ data ++ tunerGo := List.suffix_append data tunerGo
        rw [content, if_pos ended, chopTwice_append, written_terminated, Copied, chopTwice_append]
        constructor
        · intro literal
          exact .inl ⟨ended, literal⟩
        · rintro (⟨_, literal⟩ | zeros | zeros)
          · exact literal
          · simpa [tunerGo] using congrArg List.getLast? zeros
          · simpa [tunerGo] using congrArg List.getLast? zeros
      · rw [content, if_neg unterminated, written_unterminated formatter some, Copied]
        simp [unterminated]

def missingArguments : Formatter :=
  { limit := 4611686018427387899
    format := fun text =>
      if text.getLast? = some percent then some [percent]
      else if text.getLast? = some 0x73 then some []
      else some [0x30]
    format_percent := by
      intro text out formatted
      split at formatted
      next last =>
        cases formatted
        exact List.count_pos_iff.mpr (List.mem_of_getLast? last)
      · split at formatted <;> cases formatted <;> simp [percent] }

/-- A pair whose data begins with zeros is copied. -/
theorem registers_copied
    : CopiesVerbatim missingArguments [9, 9, 9, 9, 0x5d, 1, 0, 0, 0x89, 0x10, 0x5d, 1]
        [[9, 9, 9, 9, 0x5d, 1], [0, 0, 0x89, 0x10, 0x5d, 1]] := by
  have split : SplitsInto [9, 9, 9, 9, 0x5d, 1, 0, 0, 0x89, 0x10, 0x5d, 1]
      [[9, 9, 9, 9, 0x5d, 1], [0, 0, 0x89, 0x10, 0x5d, 1]] :=
    .cons [9, 9, 9, 9] _ _ (by decide) (.cons [0, 0, 0x89, 0x10] [] [] (by decide) .nil)
  refine (copiesVerbatim_iff missingArguments _ _ split).mpr ?_
  intro piece found
  cases found
  exact .inl ⟨by decide, literal_of_not_mem (by decide)⟩

/-- The bytes 25 64 are taken for a directive. -/
theorem percent_not_copied
    : SplitsInto [9, 9, 0x5d, 1, 0x25, 0x64, 0x5d, 1] [[9, 9, 0x5d, 1], [0x25, 0x64, 0x5d, 1]]
      ∧ ¬ CopiesVerbatim missingArguments [9, 9, 0x5d, 1, 0x25, 0x64, 0x5d, 1]
        [[9, 9, 0x5d, 1], [0x25, 0x64, 0x5d, 1]] := by
  have split : SplitsInto [9, 9, 0x5d, 1, 0x25, 0x64, 0x5d, 1]
      [[9, 9, 0x5d, 1], [0x25, 0x64, 0x5d, 1]] :=
    .cons [9, 9] _ _ (by decide) (.cons [0x25, 0x64] [] [] (by decide) .nil)
  refine ⟨split, ?_⟩
  intro copied
  rw [CopiesVerbatim, mpc718_eq missingArguments split] at copied
  have literal := (written_terminated missingArguments [0x25, 0x64]).mp (Option.some.inj copied)
  exact absurd (literal [] [0x64] rfl) (by decide)

end LinuxDoc.DvbFirmware
