import LinuxDoc.Getdelays.AttributeWalk

/-! Which headers the walk examines in a well-formed taskstats reply.
Inside an aggregate the pointer moves by the running total of the lengths, which is the
right distance only up to the second nested attribute.
-/

namespace LinuxDoc.Getdelays

open Foundations Foundations.Loop

structure NestedAttr where
  type : Nat
  len : Nat
  header : nlaHdrlen ≤ len

/-- Attributes of the given lengths, each aligned, exactly fill a payload; the padding
after the last one may be missing.
-/
def Fills : List Nat → Nat → Prop
  | [], payload => payload = 0
  | [len], payload => len ≤ payload ∧ payload ≤ nlaAlign len
  | len :: next :: rest, payload =>
      nlaAlign len ≤ payload ∧ Fills (next :: rest) (payload - nlaAlign len)

instance Fills.decidable : ∀ lens payload, Decidable (Fills lens payload)
  | [], payload => inferInstanceAs (Decidable (payload = 0))
  | [len], payload => inferInstanceAs (Decidable (len ≤ payload ∧ payload ≤ nlaAlign len))
  | len :: next :: rest, payload =>
      have := Fills.decidable (next :: rest) (payload - nlaAlign len)
      inferInstanceAs (Decidable (nlaAlign len ≤ payload
        ∧ Fills (next :: rest) (payload - nlaAlign len)))

structure ReplyAttr where
  type : Nat
  len : Nat
  nested : List NestedAttr
  header : nlaHdrlen ≤ len
  filled : ReplyType.ofNlaType type = .aggregate
    → Fills (nested.map NestedAttr.len) (len - nlaHdrlen)
  plain : ReplyType.ofNlaType type ≠ .aggregate → nested = []

section Layout

variable (host : Endian) (msg : Msg)

def HoldsNested : Nat → List NestedAttr → Prop
  | _, [] => True
  | na, attr :: rest =>
      nlaLen host msg na = attr.len ∧ nlaType host msg na = attr.type
      ∧ HoldsNested (na + nlaAlign attr.len) rest

instance HoldsNested.decidable : ∀ na attrs, Decidable (HoldsNested host msg na attrs)
  | _, [] => .isTrue trivial
  | na, attr :: rest =>
      have := HoldsNested.decidable (na + nlaAlign attr.len) rest
      inferInstanceAs (Decidable (_ ∧ _ ∧ _))

def HoldsAttrs : Nat → List ReplyAttr → Prop
  | _, [] => True
  | na, attr :: rest =>
      nlaLen host msg na = attr.len ∧ nlaType host msg na = attr.type
      ∧ HoldsNested host msg (na + nlaHdrlen) attr.nested
      ∧ HoldsAttrs (na + nlaAlign attr.len) rest

instance HoldsAttrs.decidable : ∀ na attrs, Decidable (HoldsAttrs host msg na attrs)
  | _, [] => .isTrue trivial
  | na, attr :: rest =>
      have := HoldsAttrs.decidable (na + nlaAlign attr.len) rest
      inferInstanceAs (Decidable (_ ∧ _ ∧ _ ∧ _))

end Layout

/-- The reply's generic netlink payload is the given sequence of attributes. -/
structure WellFormed {host : Endian} (reply : Datagram host) (attrs : List ReplyAttr) : Prop where
  whole : genlmsgData ≤ nlmsgLen host reply.msg
  filled : Fills (attrs.map ReplyAttr.len) (nlmsgLen host reply.msg - genlmsgData)
  held : HoldsAttrs host reply.msg genlmsgData attrs

def nestedHeaders : Nat → List NestedAttr → List Examined
  | _, [] => []
  | na, attr :: rest => .nested na :: nestedHeaders (na + nlaAlign attr.len) rest

def headers : Nat → List ReplyAttr → List Examined
  | _, [] => []
  | na, attr :: rest =>
      .attribute na :: (nestedHeaders (na + nlaHdrlen) attr.nested
        ++ headers (na + nlaAlign attr.len) rest)

/-- A loop test that compares the aligned lengths so far with a size succeeds once for
each attribute.
-/
def Exhausts : List Nat → Int → Prop
  | [], size => size ≤ 0
  | len :: rest, size => 0 < size ∧ Exhausts rest (size - nlaAlign len)

/-- Attributes with headers that fill a payload take the loop test exactly to its end. -/
theorem Fills.exhausts {lens : List Nat} {payload : Nat} (filled : Fills lens payload)
    (headed : ∀ len ∈ lens, nlaHdrlen ≤ len)
    : Exhausts lens payload := by
  induction lens generalizing payload with
  | nil =>
      rw [Fills] at filled
      simp [Exhausts, filled]
  | cons len rest ih =>
      have whole : nlaHdrlen ≤ len := headed len List.mem_cons_self
      have aligned := nlaAlign_ge len
      unfold nlaHdrlen at whole
      cases rest with
      | nil =>
          rw [Fills] at filled
          simp only [Exhausts]
          omega
      | cons next rest =>
          obtain ⟨room, later⟩ := filled
          refine ⟨by omega, ?_⟩
          have tail := ih later (fun len member => headed len (List.mem_cons_of_mem _ member))
          rwa [Nat.cast_sub room] at tail

/-- The nested attributes of an aggregate take the inner loop test to its end. -/
theorem ReplyAttr.exhausts (attr : ReplyAttr)
    (aggregate : ReplyType.ofNlaType attr.type = .aggregate)
    : Exhausts (attr.nested.map NestedAttr.len) ((attr.len : Int) - nlaHdrlen) := by
  rw [← Nat.cast_sub attr.header]
  refine (attr.filled aggregate).exhausts ?_
  intro len member
  obtain ⟨inner, -, rfl⟩ := List.mem_map.mp member
  exact inner.header

section Walk

variable {host : Endian} (settings : Settings) (writes : LogWrites) (reply : Datagram host)

/-- The walk from a state ends, after examining exactly these headers in this order. -/
def Examines (state : WalkState) (items : List Examined) : Prop :=
  Yields (walkPass settings writes reply) (examined reply) state items

variable {settings writes reply}

theorem examines_end {na len count : Nat} (past : reply.payload ≤ len)
    (items : List Examined)
    : Examines settings writes reply ⟨.outer na len, count⟩ items ↔ items = [] := by
  rw [Examines, yields_leave_iff (walkPass_end settings writes reply past), examined_outer,
    if_neg (not_lt.mpr past)]

/-- A step that looks at one header accounts for the first of the items. -/
theorem examines_step {state next : WalkState} {item : Examined}
    (step : WalkStep settings writes reply state next) (looks : examined reply state = [item])
    (first : Examined) (items : List Examined)
    : Examines settings writes reply state (first :: items)
      ↔ first = item ∧ Examines settings writes reply next items := by
  rw [Examines, yields_again_iff step.continues, looks]
  simp only [List.singleton_append, List.cons.injEq]
  constructor
  · intro h
    rcases h with ⟨rest, ⟨same, rfl⟩, later⟩
    exact ⟨same, later⟩
  · intro h
    rcases h with ⟨same, later⟩
    exact ⟨items, ⟨same, rfl⟩, later⟩

/-- The step out of an aggregate looks at nothing. -/
theorem examines_close {len na len2 count : Nat} {aggrLen : Int} (past : aggrLen ≤ len2)
    (items : List Examined)
    : Examines settings writes reply ⟨.inner len na len2 aggrLen, count⟩ items
      ↔ Examines settings writes reply ⟨.outer (genlmsgData + len) len, count⟩ items := by
  rw [Examines, yields_again_iff (WalkStep.close past).continues, examined_inner,
    if_neg (not_lt.mpr past)]
  simp only [List.nil_append, exists_eq_left']
  rfl

/-- Whatever comes next, the first header is the one under the pointer. -/
theorem Examines.first_nested {len na len2 count : Nat} {aggrLen : Int} {first : Examined}
    {items : List Examined} (inside : (len2 : Int) < aggrLen)
    (h : Examines settings writes reply ⟨.inner len na len2 aggrLen, count⟩ (first :: items))
    : first = .nested na := by
  generalize listed : first :: items = all at h
  rcases h with _ | ⟨_, _⟩ <;>
    rw [examined_inner, if_pos inside] at listed <;>
    exact (List.cons.inj listed).1

/-- Behind two nested attributes the pointer has counted the first one twice. -/
theorem not_examines_third {len na first second : Nat} {aggrLen : Int}
    (headed : nlaHdrlen ≤ first)
    (inside : ((nlaAlign first + nlaAlign second : Nat) : Int) < aggrLen)
    (tail : List Examined) (count : Nat)
    : ¬ Examines settings writes reply
        ⟨.inner len (na + nlaAlign first + (nlaAlign first + nlaAlign second))
          (nlaAlign first + nlaAlign second) aggrLen, count⟩
        (.nested (na + nlaAlign first + nlaAlign second) :: tail) := by
  intro h
  have same := Examined.nested.inj (h.first_nested inside)
  have longer := nlaAlign_ge first
  unfold nlaHdrlen at headed
  omega

section Listening

variable (listening : settings.loop = true)
  (writable : settings.fd = true → ∀ n, writes n ≠ none)

include listening writable

/-- In listen mode, with a log that takes its writes, no nested attribute ends the walk. -/
theorem inspectNested_ok (type : NestedType) (count : Nat)
    : ∃ after, inspectNested settings writes type count = .ok after := by
  have taken : ¬ (settings.fd = true ∧ writes (count + 1) = none) := by
    intro h
    rcases h with ⟨logging, failed⟩
    exact writable logging (count + 1) failed
  cases type <;> simp [inspectNested, listening, taken]

/-- One nested attribute. What is examined later does not depend on the statistics count,
which is all that the pass may change besides the cursor.
-/
theorem examines_nested_iff {len na len2 attrLen : Nat} {aggrLen : Int}
    (inside : (len2 : Int) < aggrLen) (sized : nlaLen host reply.msg na = attrLen)
    {first : Examined} {items : List Examined} {Rest : Prop}
    (later : ∀ count, Examines settings writes reply
      ⟨.inner len (na + (len2 + nlaAlign attrLen)) (len2 + nlaAlign attrLen) aggrLen, count⟩ items
      ↔ Rest)
    (count : Nat)
    : Examines settings writes reply ⟨.inner len na len2 aggrLen, count⟩ (first :: items)
      ↔ first = .nested na ∧ Rest := by
  obtain ⟨after, inspected⟩ := inspectNested_ok listening writable
    (.ofNlaType (nlaType host reply.msg na)) count
  have looks : examined reply ⟨.inner len na len2 aggrLen, count⟩ = [.nested na] := by
    rw [examined_inner, if_pos inside]
  rw [examines_step (.nested inside inspected) looks, sized, later]

/-- An aggregate is decoded faithfully exactly when it has at most two nested attributes:
the pointer misses a third one.
-/
theorem examines_aggregate_iff {nested : List NestedAttr} {na len : Nat} {aggrLen : Int}
    (held : HoldsNested host reply.msg na nested)
    (exhausted : Exhausts (nested.map NestedAttr.len) aggrLen)
    {items : List Examined} {Rest : Prop}
    (later : ∀ count,
      Examines settings writes reply ⟨.outer (genlmsgData + len) len, count⟩ items ↔ Rest)
    (count : Nat)
    : Examines settings writes reply ⟨.inner len na 0 aggrLen, count⟩
        (nestedHeaders na nested ++ items)
      ↔ nested.length ≤ 2 ∧ Rest := by
  -- The walk is followed for one nested attribute more than it gets right.
  rcases nested with _ | ⟨first, _ | ⟨second, _ | ⟨third, more⟩⟩⟩ <;>
    simp only [List.map_cons, List.map_nil, Exhausts] at exhausted <;>
    simp only [nestedHeaders, List.cons_append, List.nil_append]
  · rw [examines_close (by omega), later]
    simp
  · obtain ⟨lenFirst, -, -⟩ := held
    rw [examines_nested_iff listening writable exhausted.1 lenFirst
      (fun count => (examines_close (by omega) items).trans (later count))]
    simp
  · obtain ⟨lenFirst, -, lenSecond, -, -⟩ := held
    have atSecond (count : Nat)
        : Examines settings writes reply
            ⟨.inner len (na + (0 + nlaAlign first.len)) (0 + nlaAlign first.len) aggrLen, count⟩
            (.nested (na + nlaAlign first.len) :: items)
          ↔ Rest := by
      rw [Nat.zero_add, examines_nested_iff listening writable (by omega) lenSecond
        (fun count => (examines_close (by omega) items).trans (later count))]
      simp
    rw [examines_nested_iff listening writable exhausted.1 lenFirst atSecond]
    simp
  · obtain ⟨lenFirst, -, lenSecond, -, -⟩ := held
    have atSecond (tail : List Examined) (count : Nat)
        : Examines settings writes reply
            ⟨.inner len (na + (0 + nlaAlign first.len)) (0 + nlaAlign first.len) aggrLen, count⟩
            (.nested (na + nlaAlign first.len)
              :: .nested (na + nlaAlign first.len + nlaAlign second.len) :: tail)
          ↔ False := by
      rw [Nat.zero_add, examines_nested_iff listening writable (by omega) lenSecond
        (fun count => iff_false_intro
          (not_examines_third first.header (by push_cast; omega) tail count))]
      simp
    rw [examines_nested_iff listening writable exhausted.1 lenFirst (atSecond _)]
    simp

/-- The whole walk, by induction on the top-level attributes: each plain one costs one
pass, each aggregate its nested passes.
-/
theorem examines_headers_iff {attrs : List ReplyAttr} {len : Nat}
    (held : HoldsAttrs host reply.msg (genlmsgData + len) attrs)
    (exhausted : Exhausts (attrs.map ReplyAttr.len) (reply.payload - len)) (count : Nat)
    : Examines settings writes reply ⟨.outer (genlmsgData + len) len, count⟩
        (headers (genlmsgData + len) attrs)
      ↔ ∀ attr ∈ attrs, attr.nested.length ≤ 2 := by
  induction attrs generalizing len count with
  | nil =>
      simp only [List.map_nil, Exhausts] at exhausted
      rw [headers, examines_end (by omega)]
      simp
  | cons attr rest ih =>
      obtain ⟨sized, typed, nestedHeld, restHeld⟩ := held
      obtain ⟨more, restExhausted⟩ := exhausted
      have inside : (len : Int) < reply.payload := by omega
      have looks : examined reply ⟨.outer (genlmsgData + len) len, count⟩
          = [.attribute (genlmsgData + len)] := by
        rw [examined_outer, if_pos inside]
      have later (count : Nat)
          : Examines settings writes reply
              ⟨.outer (genlmsgData + (len + nlaAlign attr.len)) (len + nlaAlign attr.len), count⟩
              (headers (genlmsgData + len + nlaAlign attr.len) rest)
            ↔ ∀ attr ∈ rest, attr.nested.length ≤ 2 := by
        rw [Nat.add_assoc]
        exact ih (by rwa [← Nat.add_assoc]) (by push_cast; rwa [← sub_sub]) count
      rw [headers, List.forall_mem_cons]
      by_cases aggregate : ReplyType.ofNlaType attr.type = .aggregate
      · rw [examines_step (.enter inside (typed ▸ aggregate)) looks, sized,
          examines_aggregate_iff listening writable nestedHeld (attr.exhausts aggregate) later]
        simp
      · rw [examines_step (.plain inside (typed ▸ aggregate)) looks, sized,
          attr.plain aggregate, nestedHeaders, List.nil_append, later]
        simp

end Listening

end Walk

theorem WellFormed.exhausts {host : Endian} {reply : Datagram host} {attrs : List ReplyAttr}
    (formed : WellFormed reply attrs)
    : Exhausts (attrs.map ReplyAttr.len) (reply.payload - (0 : Nat)) := by
  have sized : reply.payload - (0 : Nat) = (nlmsgLen host reply.msg - genlmsgData : Nat) := by
    rw [Datagram.payload, Nat.cast_sub formed.whole, genlmsgData]
    push_cast
    omega
  rw [sized]
  refine formed.filled.exhausts ?_
  intro len member
  obtain ⟨attr, -, rfl⟩ := List.mem_map.mp member
  exact attr.header

/-- In listen mode the walk over a well-formed reply examines each nested attribute once and in
order, and every later top-level attribute, exactly when no aggregate holds more than two nested
attributes. By induction on the attributes (`examines_headers_iff`).
-/
theorem examines_wellFormed_iff {host : Endian} (settings : Settings) (writes : LogWrites)
    (reply : Datagram host) (attrs : List ReplyAttr) (count : Nat)
    (formed : WellFormed reply attrs) (listening : settings.loop = true)
    (writable : settings.fd = true → ∀ n, writes n ≠ none)
    : Examines settings writes reply (walkStart count) (headers genlmsgData attrs)
      ↔ ∀ attr ∈ attrs, attr.nested.length ≤ 2 :=
  examines_headers_iff listening writable formed.held formed.exhausts count

def pairReply : Datagram .little :=
  {
    msg := fieldBytes [(4, 48), (2, 28), (14, 0), (2, 24), (2, 4), (2, 8), (2, 1), (4, 77),
      (2, 12), (2, 3), (8, 5), (2, 4), (2, 6)]
    repLen := 48
    fits := by decide
    accepted := by decide
  }

def pairAttrs : List ReplyAttr :=
  [
    ⟨4, 24, [⟨1, 8, by decide⟩, ⟨3, 12, by decide⟩], by decide, by decide, by decide⟩,
    ⟨6, 4, [], by decide, by decide, by simp⟩
  ]

theorem pairReply_wellFormed : WellFormed pairReply pairAttrs :=
  ⟨by decide, by decide, by decide⟩

theorem pairReply_examined
    : WellFormed pairReply pairAttrs
      ∧ Examines ⟨true, true⟩ some pairReply (walkStart 0)
          [.attribute 20, .nested 24, .nested 32, .attribute 44] :=
  ⟨
    pairReply_wellFormed,
    (examines_wellFormed_iff ⟨true, true⟩ some pairReply pairAttrs 0 pairReply_wellFormed rfl
      (by simp)).mpr (by simp [pairAttrs])
  ⟩

def tripleReply : Datagram .little :=
  {
    msg := fieldBytes [(4, 48), (2, 28), (14, 0), (2, 28), (2, 4), (2, 8), (2, 1), (4, 77),
      (2, 8), (2, 2), (4, 77), (2, 8), (2, 3), (4, 5)]
    repLen := 48
    fits := by decide
    accepted := by decide
  }

def tripleAttrs : List ReplyAttr :=
  [⟨4, 28, [⟨1, 8, by decide⟩, ⟨2, 8, by decide⟩, ⟨3, 8, by decide⟩], by decide,
    by decide, by decide⟩]

/-- The third nested attribute, at offset 40, is not examined: the pointer is at 48. -/
theorem tripleReply_misread
    : WellFormed tripleReply tripleAttrs
      ∧ headers genlmsgData tripleAttrs
        = [.attribute 20, .nested 24, .nested 32, .nested 40]
      ∧ ¬ Examines ⟨true, false⟩ some tripleReply (walkStart 0)
          (headers genlmsgData tripleAttrs) := by
  have formed : WellFormed tripleReply tripleAttrs := ⟨by decide, by decide, by decide⟩
  refine ⟨formed, rfl, ?_⟩
  rw [walkStart, ← Nat.add_zero genlmsgData,
    examines_headers_iff rfl (by simp) formed.held formed.exhausts]
  simp [tripleAttrs]

end LinuxDoc.Getdelays
