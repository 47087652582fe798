import LinuxDoc.Getdelays.NestedDecoding

/-! How getdelays learns the family id of taskstats.
`get_family_id` looks at one attribute of the controller's reply, the one behind the first,
and it takes for granted that there is one.
-/

namespace LinuxDoc.Getdelays

open Foundations

def ctrlAttrFamilyId : Nat := 1

def sizeofAns : Nat := nlmsgHdrlen + genlHdrlen + 256

structure Received (size : Nat) where
  repLen : Int
  msg : Msg
  fits : repLen ≤ size

structure FieldRead where
  offset : Nat
  size : Nat
  deriving DecidableEq

structure FamilyLookup where
  id : Nat
  reads : List FieldRead
  deriving DecidableEq

def getFamilyId (host : Endian) (rc : Int) (ans : Received sizeofAns) : FamilyLookup :=
  let type : FieldRead := ⟨4, 2⟩
  let len : FieldRead := ⟨0, 4⟩
  if rc < 0 then ⟨0, []⟩
  -- `NLMSG_OK` reads the length only of a reply that holds a header.
  else if nlmsgType host ans.msg = nlmsgError ∨ ans.repLen < nlmsgHdrlen then ⟨0, [type]⟩
  else if nlmsgOk host ans.msg ans.repLen = false then ⟨0, [type, len]⟩
  else
    let na := genlmsgData + nlaAlign (nlaLen host ans.msg genlmsgData)
    let reads : List FieldRead := [type, len, ⟨genlmsgData, 2⟩, ⟨na + 2, 2⟩]
    if nlaType host ans.msg na = ctrlAttrFamilyId then
      ⟨host.load (fun i => ans.msg (na + nlaHdrlen + i)) 2, reads ++ [⟨na + nlaHdrlen, 2⟩]⟩
    else ⟨0, reads⟩

section Reply

variable (host : Endian) (ans : Received sizeofAns) (attrs : List NestedAttr)

def familyValue : Nat → List NestedAttr → Option Nat
  | _, [] => none
  | na, attr :: rest =>
      if attr.type = ctrlAttrFamilyId then
        some (host.load (fun i => ans.msg (na + nlaHdrlen + i)) 2)
      else familyValue (na + nlaAlign attr.len) rest

/-- A reply of the controller: one message fills the datagram, the attributes fill the
message, and at most one of them is a family id, with a value of 16 bits.
-/
structure ControllerReply : Prop where
  reply : nlmsgType host ans.msg ≠ nlmsgError
  whole : genlmsgData ≤ nlmsgLen host ans.msg
  received : nlmsgLen host ans.msg = ans.repLen
  filled : Fills (attrs.map NestedAttr.len) (nlmsgLen host ans.msg - genlmsgData)
  held : HoldsNested host ans.msg genlmsgData attrs
  single : attrs.countP (·.type = ctrlAttrFamilyId) ≤ 1
  sized : ∀ attr ∈ attrs, attr.type = ctrlAttrFamilyId → attr.len = nlaHdrlen + 2

/-- The family id of the reply is returned, or 0 if there is none, and only received bytes
are read.
-/
structure FindsFamily : Prop where
  value : (getFamilyId host 0 ans).id = (familyValue host ans genlmsgData attrs).getD 0
  inside : ∀ read ∈ (getFamilyId host 0 ans).reads, (read.offset + read.size : Nat) ≤ ans.repLen

/-- There is a second attribute; and it is the family id, or there is none, or it is 0. -/
def FamilySecond : Prop :=
  ∃ first second rest, attrs = first :: second :: rest
    ∧ (second.type = ctrlAttrFamilyId ∨ (familyValue host ans genlmsgData attrs).getD 0 = 0)

end Reply

/-- The first of the attributes that fill a payload lies in it. -/
theorem Fills.head_le {len payload : Nat} {rest : List Nat} (filled : Fills (len :: rest) payload)
    : len ≤ payload := by
  cases rest with
  | nil => exact filled.1
  | cons next rest => exact (nlaAlign_ge len).trans filled.1

section Lookup

variable {host : Endian} {ans : Received sizeofAns} {attrs : List NestedAttr}

/-- A reply passes the checks, so its second attribute, or what stands there, is judged. -/
theorem ControllerReply.getFamilyId_eq (reply : ControllerReply host ans attrs) {na : Nat}
    (second : na = genlmsgData + nlaAlign (nlaLen host ans.msg genlmsgData))
    : getFamilyId host 0 ans
      = if nlaType host ans.msg na = ctrlAttrFamilyId then
          ⟨host.load (fun i => ans.msg (na + nlaHdrlen + i)) 2,
            [⟨4, 2⟩, ⟨0, 4⟩, ⟨genlmsgData, 2⟩, ⟨na + 2, 2⟩, ⟨na + nlaHdrlen, 2⟩]⟩
        else ⟨0, [⟨4, 2⟩, ⟨0, 4⟩, ⟨genlmsgData, 2⟩, ⟨na + 2, 2⟩]⟩ := by
  have whole := reply.whole
  have received := reply.received
  simp only [genlmsgData, nlmsgHdrlen, genlHdrlen] at whole
  have long : ¬ ans.repLen < nlmsgHdrlen := by
    simp only [nlmsgHdrlen]
    omega
  have ok : nlmsgOk host ans.msg ans.repLen = true := by
    simp only [nlmsgOk, Bool.and_eq_true, decide_eq_true_eq]
    simp only [nlmsgHdrlen]
    omega
  simp only [getFamilyId, ← second, reply.reply, long, ok, or_self, lt_irrefl, if_false,
    Bool.true_eq_false, List.cons_append, List.nil_append]

/-- The header behind the first attribute is always read. -/
theorem ControllerReply.reads_second (reply : ControllerReply host ans attrs)
    : ⟨genlmsgData, 2⟩ ∈ (getFamilyId host 0 ans).reads
      ∧ ⟨genlmsgData + nlaAlign (nlaLen host ans.msg genlmsgData) + 2, 2⟩
        ∈ (getFamilyId host 0 ans).reads := by
  rw [reply.getFamilyId_eq rfl]
  split <;> simp

/-- Without a second attribute, that header lies behind the reply. -/
theorem ControllerReply.second_of_inside (reply : ControllerReply host ans attrs)
    (inside : ∀ read ∈ (getFamilyId host 0 ans).reads,
      (read.offset + read.size : Nat) ≤ ans.repLen)
    : ∃ first second rest, attrs = first :: second :: rest := by
  have whole := reply.whole
  have received := reply.received
  have filled := reply.filled
  obtain ⟨first, next⟩ := reply.reads_second
  have firstInside := inside _ first
  have nextInside := inside _ next
  dsimp only at firstInside nextInside
  match attrs, reply.held with
  | [], _ =>
      -- already the length of a first attribute is not there
      have empty : nlmsgLen host ans.msg - genlmsgData = 0 := filled
      omega
  | [only], held =>
      have length : nlaLen host ans.msg genlmsgData = only.len := held.1
      have covers : nlmsgLen host ans.msg - genlmsgData ≤ nlaAlign only.len := filled.2
      rw [length] at nextInside
      omega
  | first :: second :: rest, _ => exact ⟨first, second, rest, rfl⟩

/-- The family id as it is found behind a first attribute that is another one. -/
theorem familyValue_second {first second : NestedAttr} {rest : List NestedAttr}
    (other : first.type ≠ ctrlAttrFamilyId) (found : second.type = ctrlAttrFamilyId) (na : Nat)
    : familyValue host ans na (first :: second :: rest)
      = some (host.load (fun i => ans.msg (na + nlaAlign first.len + nlaHdrlen + i)) 2) := by
  rw [familyValue, if_neg other, familyValue, if_pos found]

/-- What the lookup does with a reply of two or more attributes. -/
theorem ControllerReply.getFamilyId_second {first second : NestedAttr} {rest : List NestedAttr}
    (reply : ControllerReply host ans (first :: second :: rest))
    : (getFamilyId host 0 ans).id
        = (if second.type = ctrlAttrFamilyId then
            (familyValue host ans genlmsgData (first :: second :: rest)).getD 0 else 0)
      ∧ ∀ read ∈ (getFamilyId host 0 ans).reads,
          (read.offset + read.size : Nat) ≤ ans.repLen := by
  obtain ⟨length, _, _, type, _⟩ := reply.held
  have position : genlmsgData + nlaAlign first.len
      = genlmsgData + nlaAlign (nlaLen host ans.msg genlmsgData) := by rw [length]
  have received := reply.received
  obtain ⟨room, later⟩ := reply.filled
  have header := second.header
  have behind : second.len ≤ nlmsgLen host ans.msg - genlmsgData - nlaAlign first.len :=
    Fills.head_le later
  rw [reply.getFamilyId_eq position, type]
  simp only [nlaHdrlen, genlmsgData, nlmsgHdrlen, genlHdrlen] at *
  by_cases found : second.type = ctrlAttrFamilyId
  · have other : first.type ≠ ctrlAttrFamilyId := by
      intro same
      have single := reply.single
      simp [same, found] at single
    have sized : second.len = 4 + 2 := reply.sized second (by simp) found
    rw [if_pos found, if_pos found, familyValue_second other found]
    refine ⟨rfl, ?_⟩
    simp only [List.forall_mem_cons, List.not_mem_nil, false_imp_iff, implies_true, and_true]
    omega
  · rw [if_neg found, if_neg found]
    refine ⟨rfl, ?_⟩
    simp only [List.forall_mem_cons, List.not_mem_nil, false_imp_iff, implies_true, and_true]
    omega

/-- The family id is found, without a look outside the reply, exactly if it is in the second of the
attributes or does not differ from none. `getFamilyId_second` says what is read of any reply.
-/
theorem findsFamily_iff (reply : ControllerReply host ans attrs)
    : FindsFamily host ans attrs ↔ FamilySecond host ans attrs := by
  constructor
  · intro finds
    obtain ⟨first, second, rest, rfl⟩ := reply.second_of_inside finds.inside
    refine ⟨first, second, rest, rfl, ?_⟩
    by_cases found : second.type = ctrlAttrFamilyId
    · exact .inl found
    · have missed := reply.getFamilyId_second.1
      rw [if_neg found, finds.value] at missed
      exact .inr missed
  · intro condition
    obtain ⟨first, second, rest, rfl, placed⟩ := condition
    obtain ⟨id, inside⟩ := reply.getFamilyId_second
    refine ⟨?_, inside⟩
    rcases placed with found | zero
    · rw [id, if_pos found]
    · rw [id, zero, ite_self]

end Lookup

def taskstatsReply : Received sizeofAns where
  repLen := 52
  msg := fieldBytes [(4, 52), (2, 16), (14, 0), (2, 14), (2, 2), (12, 0), (2, 6), (2, 1),
    (4, 23), (2, 8), (2, 3), (4, 1)]
  fits := by decide

theorem hdrlen_le_eight : nlaHdrlen ≤ 8 := by
  decide

def taskstatsAttrs : List NestedAttr :=
  [⟨2, 14, by decide⟩, ⟨1, 6, by decide⟩, ⟨3, 8, hdrlen_le_eight⟩]

theorem taskstatsReply_found
    : ControllerReply .little taskstatsReply taskstatsAttrs
      ∧ FindsFamily .little taskstatsReply taskstatsAttrs := by
  have reply : ControllerReply .little taskstatsReply taskstatsAttrs :=
    ⟨by decide, by decide, by decide, by decide, by decide, by decide, by decide⟩
  exact ⟨reply, (findsFamily_iff reply).mpr ⟨_, _, _, rfl, .inl rfl⟩⟩

def reorderedReply : Received sizeofAns where
  repLen := 52
  msg := fieldBytes [(4, 52), (2, 16), (14, 0), (2, 14), (2, 2), (12, 0), (2, 8), (2, 3),
    (4, 1), (2, 6), (2, 1), (4, 23)]
  fits := by decide

def reorderedAttrs : List NestedAttr :=
  [⟨2, 14, by decide⟩, ⟨3, 8, hdrlen_le_eight⟩, ⟨1, 6, by decide⟩]

/-- The id is 23, and 0 is returned. -/
theorem reorderedReply_missed
    : ControllerReply .little reorderedReply reorderedAttrs
      ∧ familyValue .little reorderedReply genlmsgData reorderedAttrs = some 23
      ∧ (getFamilyId .little 0 reorderedReply).id = 0
      ∧ ¬ FindsFamily .little reorderedReply reorderedAttrs := by
  refine ⟨⟨by decide, by decide, by decide, by decide, by decide, by decide, by decide⟩,
    by decide, by decide, fun finds => ?_⟩
  have value := finds.value
  revert value
  decide

end LinuxDoc.Getdelays
