import LinuxDoc.Getdelays.NestedDecoding

/-! Which datagrams the attribute walk survives.
Nothing checks an attribute's length, so the walk stands still on an empty one and follows
an overlong one out of the datagram.
-/

namespace LinuxDoc.Getdelays

open Foundations Foundations.Loop

def willingLog : LogWrites :=
  fun _ => some (2 ^ 16)

section Survival

variable {host : Endian} (settings : Settings) (reply : Datagram host) (count : Nat)

/-- Whatever becomes of the log writes, the loops end and every attribute header they read
lies within the received bytes.
-/
def Survives : Prop :=
  ∀ writes : LogWrites,
    Terminates (walkPass settings writes reply) (walkStart count)
    ∧ ∀ state, Reaches (walkPass settings writes reply) (walkStart count) state
      → ∀ item ∈ examined reply state, item.offset + nlaHdrlen ≤ reply.repLen

/-- The walk comes to a state, unless a failed log write ends it before. -/
def Visits (state : WalkState) : Prop :=
  Reaches (walkPass settings willingLog reply) (walkStart count) state

/-- What the attributes the walk comes to must satisfy: none lies across the end of the
datagram, no top-level one is empty, and neither is the first of an aggregate, unless the
walk ends there.
-/
structure Navigable : Prop where
  topWhole : ∀ na len seen, Visits settings reply count ⟨.outer na len, seen⟩
    → (len : Int) < reply.payload → na ≠ reply.repLen / 4 * 4
  topMoves : ∀ na len seen, Visits settings reply count ⟨.outer na len, seen⟩
    → (len : Int) < reply.payload → nlaLen host reply.msg na ≠ 0
  nestedWhole : ∀ len na len2 aggrLen seen,
    Visits settings reply count ⟨.inner len na len2 aggrLen, seen⟩
    → (len2 : Int) < aggrLen → na + nlaHdrlen ≤ reply.repLen
  nestedMoves : ∀ len na aggrLen seen,
    Visits settings reply count ⟨.inner len na 0 aggrLen, seen⟩
    → 0 < aggrLen → nlaLen host reply.msg na = 0
    → NestedType.ofNlaType (nlaType host reply.msg na) = .stats ∧ settings.loop = false

variable {settings reply count}

variable {writes : LogWrites}

/-- A pass that goes around would also do so in listen mode with a willing log. -/
theorem inspectNested_listening {type : NestedType} {before after : Nat}
    (h : inspectNested settings writes type before = .ok after) (loop : Bool)
    (kept : settings.loop = true → loop = true)
    : inspectNested ⟨loop, settings.fd⟩ willingLog type before = .ok after := by
  cases type <;> simp_all [inspectNested, willingLog]
  grind

theorem WalkStep.listening {state next : WalkState}
    (step : WalkStep settings writes reply state next) (loop : Bool)
    (kept : settings.loop = true → loop = true)
    : WalkStep ⟨loop, settings.fd⟩ willingLog reply state next := by
  cases step with
  | plain inside type => exact .plain inside type
  | enter inside type => exact .enter inside type
  | nested inside inspected => exact .nested inside (inspectNested_listening inspected loop kept)
  | close past => exact .close past

variable {state : WalkState}

theorem visits_of_reaches (loop : Bool) (kept : settings.loop = true → loop = true)
    (reached : Reaches (walkPass settings writes reply) (walkStart count) state)
    : Visits ⟨loop, settings.fd⟩ reply count state := by
  induction reached with
  | refl => exact .refl
  | tail _ pass ih =>
      have step := walkStep_of_continues settings writes reply pass
      exact ih.tail (step.listening loop kept).continues

def Aligned (state : WalkState) : Prop :=
  match state.cursor with
  | .outer na len => na = genlmsgData + len ∧ 4 ∣ len
  | .inner len _ _ _ => 4 ∣ len

theorem Visits.aligned (visited : Visits settings reply count state)
    : Aligned state := by
  have initial : Aligned (walkStart count) := ⟨rfl, Nat.dvd_zero 4⟩
  refine Reaches.invariant Aligned initial ?_ visited
  intro s t before pass
  cases walkStep_of_continues settings willingLog reply pass with
  | plain => exact ⟨rfl, Nat.dvd_add before.2 (nlaAlign_dvd _)⟩
  | enter => exact Nat.dvd_add before.2 (nlaAlign_dvd _)
  | nested => exact before
  | close => exact ⟨rfl, before⟩

/-- Only a trailing fragment of a word can hold a top-level header that is cut off. -/
theorem Visits.topInside_iff {na len seen : Nat}
    (visited : Visits settings reply count ⟨.outer na len, seen⟩)
    (inside : (len : Int) < reply.payload)
    : na + nlaHdrlen ≤ reply.repLen ↔ na ≠ reply.repLen / 4 * 4 := by
  obtain ⟨rfl, words, rfl⟩ := visited.aligned
  have bounds := reply.nlmsgLen_bounds
  simp only [Datagram.payload, genlmsgData, nlmsgHdrlen, genlHdrlen, nlaHdrlen] at *
  omega

/-- An empty top-level attribute is met again and again, as an aggregate or not. -/
theorem Visits.top_moves {na len seen : Nat}
    (visited : Visits settings reply count ⟨.outer na len, seen⟩)
    (inside : (len : Int) < reply.payload)
    (h : Terminates (walkPass settings willingLog reply) (walkStart count))
    : nlaLen host reply.msg na ≠ 0 := by
  intro empty
  obtain ⟨rfl, -⟩ := visited.aligned
  refine not_terminates_of_trap
    (fun state => state.cursor = .outer (genlmsgData + len) len
      ∨ state.cursor = .inner len (genlmsgData + len + nlaHdrlen) 0 (-nlaHdrlen))
    ?_ (.inl rfl) (visited.terminates h)
  rintro ⟨cursor, seen⟩ (rfl | rfl)
  · by_cases type : ReplyType.ofNlaType (nlaType host reply.msg (genlmsgData + len)) = .aggregate
    · refine ⟨_, (WalkStep.enter inside type).continues, .inr ?_⟩
      simp [empty, nlaAlign]
    · refine ⟨_, (WalkStep.plain inside type).continues, .inl ?_⟩
      simp [empty, nlaAlign]
  · exact ⟨_, (WalkStep.close (by simp [nlaHdrlen])).continues, .inl rfl⟩

/-- An empty first attribute of an aggregate is met again and again. -/
theorem Visits.nested_moves {len na seen : Nat} {aggrLen : Int}
    (visited : Visits settings reply count ⟨.inner len na 0 aggrLen, seen⟩)
    (inside : 0 < aggrLen) (empty : nlaLen host reply.msg na = 0)
    (h : Terminates (walkPass settings willingLog reply) (walkStart count))
    : NestedType.ofNlaType (nlaType host reply.msg na) = .stats ∧ settings.loop = false := by
  by_contra passes
  refine not_terminates_of_trap (fun state => state.cursor = .inner len na 0 aggrLen) ?_ rfl
    (visited.terminates h)
  rintro ⟨cursor, seen⟩ rfl
  have inspected : ∃ after, inspectNested settings willingLog
      (.ofNlaType (nlaType host reply.msg na)) seen = .ok after := by
    cases type : NestedType.ofNlaType (nlaType host reply.msg na) <;>
      simp_all [inspectNested, willingLog]
  obtain ⟨after, inspected⟩ := inspected
  refine ⟨_, (WalkStep.nested inside inspected).continues, ?_⟩
  simp [empty, nlaAlign]

/-- In a navigable datagram every header the walk reads lies within the received bytes. -/
theorem Navigable.inside (h : Navigable settings reply count)
    (visited : Visits settings reply count state) {item : Examined}
    (member : item ∈ examined reply state)
    : item.offset + nlaHdrlen ≤ reply.repLen := by
  obtain ⟨cursor, seen⟩ := state
  cases cursor with
  | outer na len =>
      rw [examined_outer] at member
      split at member
      next inside =>
        obtain rfl := List.mem_singleton.mp member
        exact (visited.topInside_iff inside).mpr (h.topWhole na len seen visited inside)
      · cases member
  | inner len na len2 aggrLen =>
      rw [examined_inner] at member
      split at member
      next inside =>
        obtain rfl := List.mem_singleton.mp member
        exact h.nestedWhole len na len2 aggrLen seen visited inside
      · cases member

/-- What is left to walk: outer words first, then the distance of the inner pointer from
the end of the datagram.
-/
def remaining (reply : Datagram host) (state : WalkState) : Nat :=
  match state.cursor with
  | .outer _ len => (reply.payload.toNat - len) * (reply.repLen + 2)
  | .inner len na _ _ =>
      (reply.payload.toNat - len) * (reply.repLen + 2) + (reply.repLen - na) + 1

/-- An attribute that is not empty brings the outer loop nearer to its end by more than an
inner loop can take.
-/
theorem remaining_outer_lt {len attrLen : Nat} (inside : (len : Int) < reply.payload)
    (moves : attrLen ≠ 0)
    : (reply.payload.toNat - (len + nlaAlign attrLen)) * (reply.repLen + 2) + reply.repLen + 2
      ≤ (reply.payload.toNat - len) * (reply.repLen + 2) := by
  have longer := nlaAlign_ge attrLen
  have fewer : reply.payload.toNat - (len + nlaAlign attrLen) + 1 ≤ reply.payload.toNat - len := by
    omega
  calc
    (reply.payload.toNat - (len + nlaAlign attrLen)) * (reply.repLen + 2) + reply.repLen + 2
      = (reply.payload.toNat - (len + nlaAlign attrLen) + 1) * (reply.repLen + 2) := by ring
    _ ≤ (reply.payload.toNat - len) * (reply.repLen + 2) := Nat.mul_le_mul_right _ fewer

theorem Navigable.remaining_lt {state next : WalkState} (h : Navigable settings reply count)
    (visited : Visits settings reply count state)
    (step : WalkStep settings willingLog reply state next)
    : remaining reply next < remaining reply state := by
  cases step with
  | @plain na len seen inside _ =>
      have less := remaining_outer_lt inside (h.topMoves na len seen visited inside)
      simp only [remaining]
      omega
  | @enter na len seen inside _ =>
      have less := remaining_outer_lt inside (h.topMoves na len seen visited inside)
      simp only [remaining]
      omega
  | @nested len na len2 aggrLen seen after inside inspected =>
      have whole := h.nestedWhole len na len2 aggrLen seen visited inside
      have longer := nlaAlign_ge (nlaLen host reply.msg na)
      -- The pointer moves even over an empty attribute once the running total is positive.
      have moves : 0 < len2 + nlaAlign (nlaLen host reply.msg na) := by
        rcases Nat.eq_zero_or_pos len2 with rfl | positive
        · have passed : ¬ (NestedType.ofNlaType (nlaType host reply.msg na) = .stats
              ∧ settings.loop = false) := by
            intro h
            rcases h with ⟨type, stops⟩
            simp [type, inspectNested, willingLog, stops] at inspected
          have nonempty := mt (h.nestedMoves len na aggrLen seen visited inside) passed
          omega
        · omega
      simp only [remaining, nlaHdrlen] at *
      omega
  | close past =>
      simp only [remaining]
      omega

/-- A walk that ends and stays inside with a willing log has met navigable attributes. -/
theorem Navigable.of_willing
    (ends : Terminates (walkPass settings willingLog reply) (walkStart count))
    (inside : ∀ state, Visits settings reply count state
      → ∀ item ∈ examined reply state, item.offset + nlaHdrlen ≤ reply.repLen)
    : Navigable settings reply count := by
  refine ⟨?_, ?_, ?_, ?_⟩
  · intro na len seen visited more
    refine (visited.topInside_iff more).mp (inside _ visited (.attribute na) ?_)
    rw [examined_outer, if_pos more]
    exact List.mem_singleton_self _
  · intro na len seen visited more
    exact visited.top_moves more ends
  · intro len na len2 aggrLen seen visited more
    refine inside _ visited (.nested na) ?_
    rw [examined_inner, if_pos more]
    exact List.mem_singleton_self _
  · intro len na aggrLen seen visited more empty
    exact visited.nested_moves more empty ends

theorem Navigable.survives (h : Navigable settings reply count)
    : Survives settings reply count := by
  intro writes
  have visits {state : WalkState}
      (reached : Reaches (walkPass settings writes reply) (walkStart count) state)
      : Visits settings reply count state :=
    visits_of_reaches settings.loop id reached
  refine ⟨?_, fun state reached item member => h.inside (visits reached) member⟩
  apply terminates_of_measure (remaining reply)
  · intro state _
    unfold walkPass
    split <;> simp
  · intro state next reached pass
    have step := walkStep_of_continues settings writes reply pass
    exact h.remaining_lt (visits reached) (step.listening settings.loop id)

/-- The walk survives a datagram exactly when the attributes it comes to are navigable. A log that
takes every record shows all of them to the walk.
-/
theorem survives_iff (settings : Settings) (reply : Datagram host) (count : Nat)
    : Survives settings reply count ↔ Navigable settings reply count :=
  ⟨fun h => .of_willing (h willingLog).1 (h willingLog).2, Navigable.survives⟩

end Survival

def emptyReply : Datagram .little :=
  {
    msg := fieldBytes [(4, 24), (2, 28), (14, 0), (2, 0), (2, 6)]
    repLen := 24
    fits := by decide
    accepted := by decide
  }

/-- The walk stands still on an empty attribute, and reads the header at offset 48 of the
48 received bytes of a well-formed reply with three nested attributes.
-/
theorem replies_not_survived
    : ¬ Survives ⟨true, false⟩ emptyReply 0 ∧ ¬ Survives ⟨true, false⟩ tripleReply 0 := by
  constructor
  · intro h
    have visited : Visits ⟨true, false⟩ emptyReply 0 ⟨.outer 20 0, 0⟩ := .refl
    exact visited.top_moves (by decide) (h willingLog).1 (by decide)
  · intro h
    have enters : Continues (walkPass ⟨true, false⟩ willingLog tripleReply) (walkStart 0)
        ⟨.inner 28 24 0 24, 0⟩ := rfl
    have passesPid : Continues (walkPass ⟨true, false⟩ willingLog tripleReply)
        ⟨.inner 28 24 0 24, 0⟩ ⟨.inner 28 32 8 24, 0⟩ := rfl
    have passesTgid : Continues (walkPass ⟨true, false⟩ willingLog tripleReply)
        ⟨.inner 28 32 8 24, 0⟩ ⟨.inner 28 48 16 24, 0⟩ := rfl
    have visited : Visits ⟨true, false⟩ tripleReply 0 ⟨.inner 28 48 16 24, 0⟩ :=
      ((Relation.ReflTransGen.single enters).tail passesPid).tail passesTgid
    have inside := (h willingLog).2 _ visited (.nested 48) (by decide)
    revert inside
    decide

end LinuxDoc.Getdelays
