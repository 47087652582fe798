import LinuxDoc.Getdelays.NestedDecoding
import LinuxDoc.Getdelays.ReceiveLoop

/-! What getdelays writes to the log file of `-w` in listen mode.
A record is written from the data of its attribute on, but with the attribute's whole length,
which counts the header in front of the data.
-/

namespace LinuxDoc.Getdelays

open Foundations Foundations.Loop

variable {host : Endian}

/-- `write(fd, NLA_DATA(na), na->nla_len)` for a statistics record: the bytes that the log
takes.
-/
def writtenAt (settings : Settings) (writes : LogWrites) (reply : Datagram host)
    (na count : Nat) : List UInt8 :=
  if settings.fd = true ∧ NestedType.ofNlaType (nlaType host reply.msg na) = .stats then
    match writes (count + 1) with
    | none => []
    | some taken => (slice reply.msg (na + nlaHdrlen) (nlaLen host reply.msg na)).take taken
  else []

def written (settings : Settings) (writes : LogWrites) : ReceiveState host → List UInt8
  | .receiving _ _ => []
  | .walking _ _ ⟨.outer _ _, _⟩ => []
  | .walking _ reply ⟨.inner _ na len2 aggrLen, count⟩ =>
      if (len2 : Int) < aggrLen then writtenAt settings writes reply na count else []

/-- With `-l` and `-w`, and a log that takes every write whole, the file holds these bytes when
`n` messages have been received and the next `recv` begins.
-/
def LogAfter (host : Endian) (replies : Replies) (n : Nat) (log : List UInt8) : Prop :=
  ∃ count, Emits (receivePass ⟨true, true⟩ willingLog replies) (written ⟨true, true⟩ willingLog)
    (.receiving 0 0 : ReceiveState host) log (.receiving n count)

section Records

variable (host : Endian) (msg : Msg)

def recordBytes (size : Nat → Nat) : Examined → List UInt8
  | .attribute _ => []
  | .nested na =>
      if NestedType.ofNlaType (nlaType host msg na) = .stats then
        slice msg (na + nlaHdrlen) (size (nlaLen host msg na))
      else []

def recordPayloads (attrs : List ReplyAttr) : List UInt8 :=
  (headers genlmsgData attrs).flatMap (recordBytes host msg fun len => len - nlaHdrlen)

end Records

def IdAndStats (nested : List NestedAttr) : Prop :=
  ∃ id stats,
    nested = [id, stats]
    ∧ (NestedType.ofNlaType id.type = .pid ∨ NestedType.ofNlaType id.type = .tgid)
    ∧ NestedType.ofNlaType stats.type = .stats

/-- A well-formed taskstats reply: each of its aggregates holds an id and a record. -/
structure TaskstatsReply (host : Endian) (received : Received sizeofMsg)
    (attrs : List ReplyAttr) : Prop where
  decodes : checkReply host received.msg received.repLen = .decode
  formed : WellFormed (received.datagram decodes) attrs
  records : ∀ attr ∈ attrs, ReplyType.ofNlaType attr.type = .aggregate → IdAndStats attr.nested

section Walk

variable {reply : Datagram host}

/-- The data of a record is written with the attribute's length. -/
theorem written_walking (n : Nat) (walk : WalkState)
    : written ⟨true, true⟩ willingLog (.walking n reply walk)
      = (examined reply walk).flatMap (recordBytes host reply.msg id) := by
  obtain ⟨cursor, count⟩ := walk
  cases cursor with
  | outer na len =>
      rw [examined_outer]
      split <;> rfl
  | inner len na len2 aggrLen =>
      -- The length field has 16 bits.
      have short : nlaLen host reply.msg na ≤ 2 ^ 16 := Nat.le_of_lt (Endian.load_lt host _ 2)
      have whole : (slice reply.msg (na + nlaHdrlen) (nlaLen host reply.msg na)).take (2 ^ 16)
          = slice reply.msg (na + nlaHdrlen) (nlaLen host reply.msg na) :=
        List.take_of_length_le (by simpa using short)
      rw [examined_inner, written]
      split
      · simp only [writtenAt, willingLog, whole, true_and, List.flatMap_cons, List.flatMap_nil,
          List.append_nil, recordBytes, id]
      · rfl

/-- In listen mode, with a willing log, the walk over a reply ends at its end only. -/
theorem walkPass_leave {walk : WalkState} {exit : Exit}
    (left : walkPass ⟨true, true⟩ willingLog reply walk = some (.leave exit))
    : exit = .endOfReply := by
  obtain ⟨cursor, count⟩ := walk
  cases cursor with
  | outer na len =>
      simp only [walkPass, outerPass, Option.some.injEq] at left
      split at left
      · split at left <;> cases left
      · cases left
        rfl
  | inner len na len2 aggrLen =>
      obtain ⟨after, inspected⟩ : ∃ after, inspectNested ⟨true, true⟩ willingLog
          (.ofNlaType (nlaType host reply.msg na)) count = .ok after :=
        inspectNested_ok rfl (fun _ n => Option.some_ne_none _) _ count
      simp only [walkPass, innerPass, inspected, Option.some.injEq] at left
      split at left <;> cases left

/-- A walk that examines certain headers writes the records among them, and then comes to the
next `recv`.
-/
theorem emits_walk (replies : Replies) {walk : WalkState} {items : List Examined} (n : Nat)
    (examines : Examines ⟨true, true⟩ willingLog reply walk items)
    : ∃ count, Emits (receivePass ⟨true, true⟩ willingLog replies)
        (written ⟨true, true⟩ willingLog) (.walking n reply walk)
        (items.flatMap (recordBytes host reply.msg id)) (.receiving (n + 1) count) := by
  induction examines with
  | @leave walk exit left =>
      obtain rfl := walkPass_leave left
      refine ⟨walk.count, ?_⟩
      have pass : Continues (receivePass ⟨true, true⟩ willingLog replies)
          (.walking n reply walk) (.receiving (n + 1) walk.count) := by
        simp [Continues, receivePass, left, nextReply]
      rw [← written_walking n walk, ← List.append_nil (written _ _ _)]
      exact .head pass (.refl _)
  | @again walk next rest around _ ih =>
      obtain ⟨count, later⟩ := ih
      refine ⟨count, ?_⟩
      have pass : Continues (receivePass ⟨true, true⟩ willingLog replies)
          (.walking n reply walk) (.walking n reply next) := by
        rw [Continues] at around
        simp [Continues, receivePass, around]
      rw [List.flatMap_append, ← written_walking n walk]
      exact .head pass later

end Walk

variable {replies : Replies} {n : Nat}

/-- The walk over such a reply examines all its attributes, so that what it writes is known. -/
theorem TaskstatsReply.emits {attrs : List ReplyAttr}
    (reply : TaskstatsReply host (replies n) attrs) (count : Nat)
    : ∃ after, Emits (receivePass ⟨true, true⟩ willingLog replies)
        (written ⟨true, true⟩ willingLog) (.receiving n count : ReceiveState host)
        ((headers genlmsgData attrs).flatMap (recordBytes host (replies n).msg id))
        (.receiving (n + 1) after) := by
  have few : ∀ attr ∈ attrs, attr.nested.length ≤ 2 := by
    intro attr member
    by_cases aggregate : ReplyType.ofNlaType attr.type = .aggregate
    · obtain ⟨id, stats, pair, -⟩ := reply.records attr member aggregate
      simp [pair]
    · simp [attr.plain aggregate]
  have examines := (examines_wellFormed_iff ⟨true, true⟩ willingLog _ attrs count reply.formed
    rfl (fun _ n => Option.some_ne_none _)).mpr few
  obtain ⟨after, walked⟩ := emits_walk replies n examines
  have pass : Continues (receivePass ⟨true, true⟩ willingLog replies)
      (.receiving n count : ReceiveState host)
      (.walking n ((replies n).datagram reply.decodes) (walkStart count)) := by
    simp [Continues, receivePass, reply.decodes]
  exact ⟨after, .head pass walked⟩

/-- The records of all replies are written in order of arrival. -/
theorem logAfter_written {attrs : Nat → List ReplyAttr}
    (formed : ∀ i < n, TaskstatsReply host (replies i) (attrs i))
    : LogAfter host replies n ((List.range n).flatMap fun i =>
        (headers genlmsgData (attrs i)).flatMap (recordBytes host (replies i).msg id)) := by
  induction n with
  | zero => exact ⟨0, .refl _⟩
  | succ n ih =>
      obtain ⟨count, before⟩ := ih fun i below => formed i (by omega)
      obtain ⟨after, last⟩ := (formed n (by omega)).emits count
      rw [List.range_succ, List.flatMap_append]
      refine ⟨after, before.trans ?_⟩
      simpa using last

def ReceiveState.number : ReceiveState host → Nat
  | .receiving n _ | .walking n _ _ => n

/-- A pass goes on with the same message, which is then received, or turns to the next. -/
theorem receivePass_next {settings : Settings} {writes : LogWrites} {state next : ReceiveState host}
    (pass : Continues (receivePass settings writes replies) state next)
    : (∃ reply walk, next = .walking state.number reply walk)
      ∨ ∃ count, next = .receiving (state.number + 1) count := by
  have turned {n count : Nat} (again : nextReply settings n count = .again next)
      : ∃ count, next = .receiving (n + 1) count := by
    rw [nextReply] at again
    split at again
    · cases again
      exact ⟨count, rfl⟩
    · cases again
  cases state with
  | receiving n count =>
      simp only [Continues, receivePass] at pass
      split at pass
      · cases pass
        exact .inl ⟨_, _, rfl⟩
      · split at pass
        · cases pass
        · exact .inr (turned (Option.some.inj pass))
  | walking n reply walk =>
      simp only [Continues, receivePass] at pass
      split at pass
      · cases pass
      · cases pass
        exact .inl ⟨_, _, rfl⟩
      · exact .inr (turned (Option.some.inj pass))
      · cases pass

def Arrived (n : Nat) : ReceiveState host → Prop
  | .receiving m _ => n < m
  | .walking m _ _ => n ≤ m

theorem Arrived.le_number {state : ReceiveState host} (arrived : Arrived n state)
    : n ≤ state.number := by
  cases state with
  | receiving m count => exact Nat.le_of_lt arrived
  | walking m reply walk => exact arrived

theorem arrived_of_continues {settings : Settings} {writes : LogWrites}
    {state next : ReceiveState host} (reached : n ≤ state.number)
    (pass : Continues (receivePass settings writes replies) state next)
    : Arrived n next := by
  rcases receivePass_next pass with ⟨reply, walk, rfl⟩ | ⟨count, rfl⟩
  · exact reached
  · exact Nat.lt_succ_of_le reached

/-- Each `recv` is reached once, so the log before it is determined. -/
theorem LogAfter.unique {left right : List UInt8} (hl : LogAfter host replies n left)
    (hr : LogAfter host replies n right)
    : left = right := by
  obtain ⟨count, toLeft⟩ := hl
  obtain ⟨other, toRight⟩ := hr
  refine toLeft.unique (fun state => ∃ count, state = .receiving n count) (Arrived n) ?_
    (fun _ _ before pass => arrived_of_continues before.le_number pass) ?_ toRight
    ⟨count, rfl⟩ ⟨other, rfl⟩
  · intro s t here pass
    obtain ⟨count, rfl⟩ := here
    have here : n ≤ (.receiving n count : ReceiveState host).number := Nat.le_refl n
    exact arrived_of_continues here pass
  · intro s past here
    obtain ⟨count, rfl⟩ := here
    exact Nat.lt_irrefl n past

section Lengths

variable {msg : Msg}

theorem recordBytes_length_le (item : Examined)
    : (recordBytes host msg (fun len => len - nlaHdrlen) item).length
      ≤ (recordBytes host msg id item).length := by
  rcases item with na | na
  · exact Nat.le_refl 0
  · simp only [recordBytes, id]
    split
    · simp only [slice_length]
      exact Nat.sub_le _ _
    · exact Nat.le_refl 0

theorem recordPayloads_length_le (host : Endian) (msg : Msg) (attrs : List ReplyAttr)
    : (recordPayloads host msg attrs).length
      ≤ ((headers genlmsgData attrs).flatMap (recordBytes host msg id)).length :=
  length_flatMap_le fun item _ => recordBytes_length_le item

/-- An aggregate's record is one of the headers of the reply, and it has a length. -/
theorem record_mem_headers {attrs : List ReplyAttr} {na : Nat} (held : HoldsAttrs host msg na attrs)
    {attr : ReplyAttr} (member : attr ∈ attrs) (pair : IdAndStats attr.nested)
    : ∃ offset, .nested offset ∈ headers na attrs ∧ 0 < nlaLen host msg offset
        ∧ NestedType.ofNlaType (nlaType host msg offset) = .stats := by
  induction attrs generalizing na with
  | nil => simp at member
  | cons first rest ih =>
      obtain ⟨-, -, nestedHeld, restHeld⟩ := held
      rcases List.mem_cons.mp member with rfl | later
      · obtain ⟨id, stats, listed, -, type⟩ := pair
        rw [listed] at nestedHeld
        obtain ⟨-, -, length, typed, -⟩ := nestedHeld
        have headed := stats.header
        unfold nlaHdrlen at headed
        refine ⟨na + nlaHdrlen + nlaAlign id.len, ?_, by omega, by rwa [typed]⟩
        simp [headers, listed, nestedHeaders]
      · obtain ⟨offset, inside, rest⟩ := ih restHeld later
        refine ⟨offset, ?_, rest⟩
        rw [headers]
        exact List.mem_cons_of_mem _ (List.mem_append_right _ inside)

/-- Without aggregates there are only top-level headers. -/
theorem headers_plain {attrs : List ReplyAttr} (na : Nat)
    (plain : ∀ attr ∈ attrs, ReplyType.ofNlaType attr.type ≠ .aggregate)
    {item : Examined} (member : item ∈ headers na attrs)
    : ∃ offset, item = .attribute offset := by
  induction attrs generalizing na with
  | nil => simp [headers] at member
  | cons first rest ih =>
      rw [List.forall_mem_cons] at plain
      rw [headers, first.plain plain.1, nestedHeaders, List.nil_append, List.mem_cons] at member
      rcases member with rfl | later
      · exact ⟨na, rfl⟩
      · exact ih _ plain.2 later

end Lengths

/-- What is written of a reply is its records' payloads only if it has no records. -/
theorem TaskstatsReply.written_eq_payloads_iff {received : Received sizeofMsg}
    {attrs : List ReplyAttr} (reply : TaskstatsReply host received attrs)
    : (headers genlmsgData attrs).flatMap (recordBytes host received.msg id)
        = recordPayloads host received.msg attrs
      ↔ ∀ attr ∈ attrs, ReplyType.ofNlaType attr.type ≠ .aggregate := by
  rw [recordPayloads, flatMap_eq_flatMap_iff fun item _ => recordBytes_length_le item]
  constructor
  · intro same attr member aggregate
    obtain ⟨offset, inside, long, type⟩ :=
      record_mem_headers reply.formed.held member (reply.records attr member aggregate)
    have lengths := congrArg List.length (same _ inside)
    have msgs : (received.datagram reply.decodes).msg = received.msg := rfl
    rw [msgs] at type long
    simp only [recordBytes, if_pos type, slice_length, id, nlaHdrlen] at lengths
    omega
  · intro plain item member
    obtain ⟨offset, rfl⟩ := headers_plain _ plain member
    rfl

/-- After any sequence of well-formed replies the log file is the concatenation of the payloads of
their records exactly if they have none: each record takes four bytes of what follows it along. As
no block is shorter than its payloads, equal files have equal blocks.
-/
theorem logAfter_payloads_iff (host : Endian) (replies : Replies) (n : Nat)
    (attrs : Nat → List ReplyAttr)
    (formed : ∀ i < n, TaskstatsReply host (replies i) (attrs i))
    : LogAfter host replies n
        ((List.range n).flatMap fun i => recordPayloads host (replies i).msg (attrs i))
      ↔ ∀ i < n, ∀ attr ∈ attrs i, ReplyType.ofNlaType attr.type ≠ .aggregate := by
  have held := logAfter_written formed
  have blocks := flatMap_eq_flatMap_iff fun i (_ : i ∈ List.range n) =>
    recordPayloads_length_le host (replies i).msg (attrs i)
  constructor
  · intro payloads i below
    have same := blocks.mp (held.unique payloads) i (List.mem_range.mpr below)
    exact (formed i below).written_eq_payloads_iff.mp same
  · intro plain
    rwa [blocks.mpr] at held
    intro i inside
    have below := List.mem_range.mp inside
    exact (formed i below).written_eq_payloads_iff.mpr (plain i below)

def pairReceived : Received sizeofMsg :=
  ⟨48, pairReply.msg, by decide⟩

theorem pairReceived_taskstats : TaskstatsReply .little pairReceived pairAttrs where
  decodes := pairReply.accepted
  formed := ⟨pairReply_wellFormed.whole, pairReply_wellFormed.filled, pairReply_wellFormed.held⟩
  records := by
    intro attr member aggregate
    rcases List.mem_cons.mp member with rfl | later
    · exact ⟨_, _, rfl, .inl rfl, rfl⟩
    · rw [List.mem_singleton] at later
      subst later
      cases aggregate

theorem pairReceived_log_differs
    : TaskstatsReply .little pairReceived pairAttrs
      ∧ ¬ LogAfter .little (fun _ => pairReceived) 2
          ((List.range 2).flatMap fun _ => recordPayloads .little pairReceived.msg pairAttrs) := by
  refine ⟨pairReceived_taskstats, ?_⟩
  intro payloads
  exact (logAfter_payloads_iff .little (fun _ => pairReceived) 2 (fun _ => pairAttrs)
    (fun _ _ => pairReceived_taskstats)).mp payloads 0 (by decide) _ List.mem_cons_self rfl

/-- The record of eight bytes is followed in the log by the header of the next attribute. -/
theorem pairReceived_logged
    : TaskstatsReply .little pairReceived pairAttrs
      ∧ recordPayloads .little pairReceived.msg pairAttrs = [5, 0, 0, 0, 0, 0, 0, 0]
      ∧ LogAfter .little (fun _ => pairReceived) 1 [5, 0, 0, 0, 0, 0, 0, 0, 4, 0, 6, 0]
      ∧ ¬ LogAfter .little (fun _ => pairReceived) 1
          (recordPayloads .little pairReceived.msg pairAttrs) := by
  have payloads : recordPayloads .little pairReceived.msg pairAttrs
      = [5, 0, 0, 0, 0, 0, 0, 0] := by
    decide
  have holds : LogAfter .little (fun _ => pairReceived) 1 [5, 0, 0, 0, 0, 0, 0, 0, 4, 0, 6, 0] :=
    @logAfter_written .little (fun _ => pairReceived) 1 (fun _ => pairAttrs)
      fun _ _ => pairReceived_taskstats
  refine ⟨pairReceived_taskstats, payloads, holds, ?_⟩
  intro other
  have same := holds.unique other
  rw [payloads] at same
  simp at same

end LinuxDoc.Getdelays
