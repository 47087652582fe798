import Mathlib.Data.List.Chain
import LinuxDoc.V4l2Skeleton.Driver

/-! The fields that the interrupt handler stamps on frames captured in alternate mode.
The handler toggles `skel->field`; `queue_setup` assigns it, twice, whenever user space adds
buffers, also while frames are captured.
-/

namespace LinuxDoc.V4l2Skeleton

inductive Parity where
  | top
  | bottom
  deriving DecidableEq

def Parity.field : Parity → Field
  | .top => .top
  | .bottom => .bottom

def Parity.opposite : Parity → Parity
  | .top => .bottom
  | .bottom => .top

/-- `skeleton_irq` on a captured frame: the driver's state afterwards, and the field that the
frame is stamped with.
-/
def skeletonIrq (skel : Skeleton) : Skeleton × Field :=
  let toggled :=
    if skel.format.field = .alternate then
      if skel.field = .bottom then { skel with field := .top }
      else if skel.field = .top then { skel with field := .bottom }
      else skel
    else skel
  (toggled, skel.field)

def setupAssign (skel : Skeleton) : Skeleton :=
  { skel with field := skel.format.field }

def setupChoose (fileioActive : Bool) (skel : Skeleton) : Skeleton :=
  if skel.field = .alternate then
    if fileioActive then skel else { skel with field := .top }
  else skel

/-- After these two steps `queue_setup` leaves the driver's state alone. -/
theorem queueSetup_skel (fileioActive : Bool) (numBuffers : UInt32) (fmt : Option PixFormat)
    (nbuffers : UInt32) (skel : Skeleton)
    : (queueSetup fileioActive numBuffers fmt nbuffers skel).1
      = setupChoose fileioActive (setupAssign skel) := by
  simp only [queueSetup, setupAssign, setupChoose]
  cases fileioActive <;> cases fmt <;> simp <;> split_ifs <;> rfl

/-- What happens in a streaming session: a frame is captured, or a call of `queue_setup` makes
one of its two steps.
-/
inductive StreamEvent where
  | frame
  | assign
  | choose (fileioActive : Bool)

/-- The fields stamped in a session. The calls of `queue_setup` are made one at a time; the
flag says whether one is between its two steps.
-/
def stamps : Skeleton → Bool → List StreamEvent → List Field
  | _, _, [] => []
  | skel, calling, .frame :: rest =>
      (skeletonIrq skel).2 :: stamps (skeletonIrq skel).1 calling rest
  | skel, false, .assign :: rest => stamps (setupAssign skel) true rest
  | skel, true, .assign :: rest => stamps skel true rest
  | skel, true, .choose fileioActive :: rest => stamps (setupChoose fileioActive skel) false rest
  | skel, false, .choose _ :: rest => stamps skel false rest

/-- Every frame is a top or a bottom field, and no two successive ones are the same. -/
structure Alternates (fields : List Field) : Prop where
  parities : ∀ field ∈ fields, field = .top ∨ field = .bottom
  changing : fields.IsChain (· ≠ ·)

inductive Since where
  | nothing
  | assigned
  | refused
  | chosen
  deriving DecidableEq

def Since.choose (fileioActive : Bool) : Since → Since
  | .assigned => if fileioActive then .refused else .chosen
  | .nothing => .nothing
  | .refused => .refused
  | .chosen => .chosen

def due (first : Parity) : Option Parity → Parity
  | none => first
  | some last => last.opposite

/-- No frame is captured between the steps of a call or after a call that was refused, and
none after a complete call if the last frame was a top field.
-/
def Undisturbed (first : Parity) : Option Parity → Since → List StreamEvent → Prop
  | _, _, [] => True
  | last, .nothing, .frame :: rest => Undisturbed first (some (due first last)) .nothing rest
  | last, .chosen, .frame :: rest =>
      last ≠ some .top ∧ Undisturbed first (some .top) .nothing rest
  | _, .assigned, .frame :: _ => False
  | _, .refused, .frame :: _ => False
  | last, _, .assign :: rest => Undisturbed first last .assigned rest
  | last, since, .choose fileioActive :: rest =>
      Undisturbed first last (since.choose fileioActive) rest

def held (first : Parity) (last : Option Parity) : Since → Field
  | .nothing => (due first last).field
  | .assigned | .refused => .alternate
  | .chosen => .top

structure InSession (first : Parity) (last : Option Parity) (since : Since) (skel : Skeleton)
    (calling : Bool) : Prop where
  format : skel.format.field = .alternate
  field : skel.field = held first last since
  calling : calling = true ↔ since = .assigned

def AlternatesAfter : Option Parity → List Field → Prop
  | _, [] => True
  | last, field :: rest =>
      ∃ parity : Parity, field = parity.field ∧ last ≠ some parity
        ∧ AlternatesAfter (some parity) rest

theorem Parity.field_injective : Function.Injective Parity.field := by
  intro left right same
  cases left <;> cases right <;> first | rfl | cases same

theorem Parity.exists_field_iff (field : Field)
    : (∃ parity : Parity, field = parity.field) ↔ field = .top ∨ field = .bottom := by
  constructor
  · intro h
    rcases h with ⟨parity, rfl⟩
    cases parity with
    | top => exact .inl rfl
    | bottom => exact .inr rfl
  · intro h
    rcases h with rfl | rfl
    · exact ⟨.top, rfl⟩
    · exact ⟨.bottom, rfl⟩

theorem alternatesAfter_some_iff (last : Parity) (fields : List Field)
    : AlternatesAfter (some last) fields
      ↔ (∀ field ∈ fields, field = .top ∨ field = .bottom)
        ∧ (last.field :: fields).IsChain (· ≠ ·) := by
  induction fields generalizing last with
  | nil => simp [AlternatesAfter]
  | cons field rest ih =>
      rw [AlternatesAfter, List.forall_mem_cons, List.isChain_cons_cons]
      constructor
      · intro h
        rcases h with ⟨parity, rfl, changed, later⟩
        obtain ⟨parities, chain⟩ := (ih parity).mp later
        refine ⟨⟨(Parity.exists_field_iff _).mp ⟨parity, rfl⟩, parities⟩, ?_, chain⟩
        intro same
        exact changed (congrArg some (Parity.field_injective same))
      · intro h
        rcases h with ⟨⟨here, parities⟩, changed, chain⟩
        obtain ⟨parity, rfl⟩ := (Parity.exists_field_iff field).mpr here
        refine ⟨parity, rfl, ?_, (ih parity).mpr ⟨parities, chain⟩⟩
        intro same
        exact changed (congrArg Parity.field (Option.some.inj same))

theorem alternatesAfter_none_iff (fields : List Field)
    : AlternatesAfter none fields ↔ Alternates fields := by
  cases fields with
  | nil => exact iff_of_true trivial ⟨List.forall_mem_nil _, .nil⟩
  | cons field rest =>
      rw [AlternatesAfter]
      constructor
      · intro h
        rcases h with ⟨parity, rfl, -, later⟩
        obtain ⟨parities, chain⟩ := (alternatesAfter_some_iff parity rest).mp later
        exact ⟨List.forall_mem_cons.mpr
          ⟨(Parity.exists_field_iff _).mp ⟨parity, rfl⟩, parities⟩, chain⟩
      · intro h
        obtain ⟨here, parities⟩ := List.forall_mem_cons.mp h.parities
        obtain ⟨parity, rfl⟩ := (Parity.exists_field_iff field).mpr here
        exact ⟨parity, rfl, by simp,
          (alternatesAfter_some_iff parity rest).mpr ⟨parities, h.changing⟩⟩

variable {first : Parity} {last : Option Parity} {skel : Skeleton} {calling : Bool}

/-- A frame stamped with one field makes the other one due. -/
theorem InSession.frame {since : Since} (session : InSession first last since skel calling)
    {parity : Parity} (holds : skel.field = parity.field) (idle : since ≠ .assigned)
    : InSession first (some parity) .nothing (skeletonIrq skel).1 calling where
  format := by
    simp only [skeletonIrq]
    split_ifs <;> exact session.format
  field := by
    simp only [skeletonIrq, session.format, if_true, holds]
    cases parity <;> rfl
  calling := by simp [session.calling, idle]

theorem InSession.assign {since : Since} (session : InSession first last since skel calling)
    : InSession first last .assigned (setupAssign skel) true where
  format := session.format
  field := session.format
  calling := by simp

theorem InSession.choose (session : InSession first last .assigned skel calling)
    (fileioActive : Bool)
    : InSession first last (Since.assigned.choose fileioActive) (setupChoose fileioActive skel)
        false where
  format := by
    unfold setupChoose
    split_ifs <;> exact session.format
  field := by
    have holds : skel.field = .alternate := session.field
    cases fileioActive <;> simp [setupChoose, holds, Since.choose, held]
  calling := by cases fileioActive <;> simp [Since.choose]

theorem due_ne (first : Parity) (last : Option Parity) : last ≠ some (due first last) := by
  rcases last with _ | last
  · simp
  · cases last <;> simp [due, Parity.opposite]

/-- A frame with a given field continues an alternating sequence if that field is not the last
one.
-/
theorem alternatesAfter_field {field : Field} {rest : List Field} {parity : Parity}
    (holds : field = parity.field)
    : AlternatesAfter last (field :: rest)
      ↔ last ≠ some parity ∧ AlternatesAfter (some parity) rest := by
  rw [AlternatesAfter]
  constructor
  · intro h
    rcases h with ⟨other, stamped, changed, later⟩
    obtain rfl := Parity.field_injective (stamped.symm.trans holds)
    exact ⟨changed, later⟩
  · intro h
    rcases h with ⟨changed, later⟩
    exact ⟨parity, holds, changed, later⟩

theorem not_alternatesAfter_alternate {field : Field} {rest : List Field}
    (holds : field = .alternate)
    : ¬ AlternatesAfter last (field :: rest) := by
  intro h
  rcases h with ⟨parity, stamped, -⟩
  rw [holds] at stamped
  cases parity <;> cases stamped

/-- From any point of a session, by induction on what is still to happen. -/
theorem InSession.alternates_iff {since : Since} (session : InSession first last since skel calling)
    (events : List StreamEvent)
    : AlternatesAfter last (stamps skel calling events)
      ↔ Undisturbed first last since events := by
  induction events generalizing last since skel calling with
  | nil => exact iff_of_true trivial (by cases since <;> trivial)
  | cons event rest ih =>
      cases event with
      | frame =>
          have stamped : (skeletonIrq skel).2 = held first last since := session.field
          rw [stamps]
          cases since with
          | nothing =>
              have next := session.frame session.field (by simp)
              rw [alternatesAfter_field stamped, ih next, Undisturbed]
              exact and_iff_right (due_ne first last)
          | chosen =>
              have top : (skeletonIrq skel).2 = Parity.top.field := stamped
              rw [alternatesAfter_field top, ih (session.frame top (by simp)), Undisturbed]
          | assigned => exact iff_of_false (not_alternatesAfter_alternate stamped) id
          | refused => exact iff_of_false (not_alternatesAfter_alternate stamped) id
      | assign =>
          have unfolded : Undisturbed first last since (.assign :: rest)
              = Undisturbed first last .assigned rest := by
            cases since <;> rfl
          rw [unfolded]
          cases calling with
          | false => exact ih session.assign
          | true =>
              obtain rfl := session.calling.mp rfl
              exact ih session
      | choose fileioActive =>
          have unfolded : Undisturbed first last since (.choose fileioActive :: rest)
              = Undisturbed first last (since.choose fileioActive) rest := by
            cases since <;> rfl
          rw [unfolded]
          cases calling with
          | false =>
              have idle : since.choose fileioActive = since := by
                have away := mt session.calling.mpr Bool.false_ne_true
                cases since <;> first | rfl | exact absurd rfl away
              rw [idle]
              exact ih session
          | true =>
              obtain rfl := session.calling.mp rfl
              exact ih (session.choose fileioActive)

/-- In a session in alternate mode the fields stamped on the frames alternate exactly if no call of
`queue_setup` disturbs them: a frame that follows a call comes after both of its steps, and the
frame before it was not a top field. By induction on the events, with the stamp that is due
(`InSession`).
-/
theorem stamps_alternate_iff (skel : Skeleton) (first : Parity) (events : List StreamEvent)
    (alternate : skel.format.field = .alternate) (ready : skel.field = first.field)
    : Alternates (stamps skel false events) ↔ Undisturbed first none .nothing events := by
  have session : InSession first none .nothing skel false := ⟨alternate, ready, by simp⟩
  rw [← alternatesAfter_none_iff, session.alternates_iff events]

def interlacedSkeleton : Skeleton :=
  {
    std := v4l2Std62550
    timings := ⟨1920, 1080, 1, []⟩
    format := ⟨1920, 540, v4l2PixFmtYuyv, .alternate, 3840, 2073600, .rec709, 0, []⟩
    input := 1
    field := .top
    tvnorms := 0
  }

theorem interlacedSkeleton_alternates
    : Alternates (stamps interlacedSkeleton false
        [.frame, .frame, .assign, .choose false, .frame, .frame]) := by
  refine (stamps_alternate_iff interlacedSkeleton .top _ rfl rfl).mpr ?_
  simp [Undisturbed, Since.choose, due, Parity.opposite]

/-- Buffers that are added after the first frame make the second one a top field again. -/
theorem interlacedSkeleton_repeats
    : stamps interlacedSkeleton false [.frame, .assign, .choose false, .frame] = [.top, .top]
      ∧ ¬ Alternates [.top, .top] := by
  refine ⟨rfl, ?_⟩
  intro alternates
  simpa using alternates.changing

end LinuxDoc.V4l2Skeleton
