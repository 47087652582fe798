import LinuxDoc.Foundations.Bytes
import Mathlib.Logic.Function.Basic

/-! Java class files and how `javaclassname` of `java.txt` finds the name of the class: the
constants are skipped with their positions noted, and two indices are followed.
-/

namespace LinuxDoc.JavaClassName

open Foundations

inductive Failure where
  | corrupt
  | eof
  | utf8
  deriving DecidableEq

def read8 (classfile : List UInt8) (pos : Nat) : Except Failure (Nat × Nat) :=
  match classfile[pos]? with
  | none => .error .eof
  | some b => .ok (b.toNat, pos + 1)

def read16 (classfile : List UInt8) (pos : Nat) : Except Failure (Nat × Nat) := do
  let (b1, pos) ← read8 classfile pos
  let (b2, pos) ← read8 classfile pos
  return (b1 <<< 8 ||| b2, pos)

structure Skip where
  pos : Nat
  cur : Nat
  pool : Nat → Nat

/-- `skip_constant`, with the tags of the constant pool as numbers. -/
def skipConstant (classfile : List UInt8) (s : Skip) : Except Failure Skip := do
  let pool := Function.update s.pool s.cur s.pos
  let (tag, pos) ← read8 classfile s.pos
  match tag with
  -- CP_UTF8
  | 1 => do
      let (len, pos) ← read16 classfile pos
      return { pos := pos + len, cur := s.cur, pool }
  -- CP_CLASS, CP_STRING, CP_METHODTYPE
  | 7 | 8 | 16 => return { pos := pos + 2, cur := s.cur, pool }
  -- CP_METHODHANDLE
  | 15 => return { pos := pos + 3, cur := s.cur, pool }
  -- CP_INTEGER, CP_FLOAT, CP_FIELDREF, CP_METHODREF, CP_INTERFACEMETHODREF, CP_NAMEANDTYPE,
  -- CP_INVOKEDYNAMIC
  | 3 | 4 | 9 | 10 | 11 | 12 | 18 => return { pos := pos + 4, cur := s.cur, pool }
  -- CP_LONG, CP_DOUBLE
  | 5 | 6 => return { pos := pos + 8, cur := (s.cur + 1) % 2 ^ 16, pool }
  | _ => .error .corrupt

/-- A sequence that succeeds goes through its first part. -/
theorem exists_of_bind_ok {ε α β : Type} {first : Except ε α} {later : α → Except ε β} {b : β}
    (done : (first >>= later) = .ok b) : ∃ a, first = .ok a ∧ later a = .ok b := by
  cases first with
  | error failure => cases done
  | ok a => exact ⟨a, rfl, done⟩

variable {classfile : List UInt8}

theorem read8_pos {pos b next : Nat}
    (read : read8 classfile pos = .ok (b, next)) : pos < classfile.length ∧ next = pos + 1 := by
  unfold read8 at read
  split at read
  · cases read
  next byte found =>
    cases read
    exact ⟨(List.getElem?_eq_some_iff.mp found).1, rfl⟩

theorem read16_pos {pos v next : Nat}
    (read : read16 classfile pos = .ok (v, next)) : next = pos + 2 := by
  obtain ⟨⟨b1, middle⟩, first, read⟩ := exists_of_bind_ok read
  obtain ⟨⟨b2, behind⟩, second, read⟩ := exists_of_bind_ok read
  cases read
  rw [(read8_pos second).2, (read8_pos first).2]

/-- A constant that is skipped takes at least a byte of the file. -/
theorem skipConstant_pos {s next : Skip} (skipped : skipConstant classfile s = .ok next)
    : s.pos < classfile.length ∧ s.pos < next.pos := by
  obtain ⟨⟨tag, pos⟩, read, skipped⟩ := exists_of_bind_ok skipped
  obtain ⟨inside, rfl⟩ := read8_pos read
  refine ⟨inside, ?_⟩
  simp only at skipped
  split at skipped
  · obtain ⟨⟨len, behind⟩, word, skipped⟩ := exists_of_bind_ok skipped
    cases skipped
    rw [read16_pos word]
    simp only
    omega
  all_goals
    cases skipped
  all_goals
    simp only
    omega

/-- The loop over the constants: `for (i = 1; i < cp_count; ++i) skip_constant(classfile, &i)`. -/
def skipConstants (classfile : List UInt8) (cpCount : Nat) (s : Skip) : Except Failure Skip :=
  if s.cur < cpCount then
    match _h : skipConstant classfile s with
    | .error failure => .error failure
    | .ok next =>
        skipConstants classfile cpCount { next with cur := (next.cur + 1) % 2 ^ 16 }
  else .ok s
termination_by classfile.length - s.pos
decreasing_by
  have := skipConstant_pos _h
  omega

/-- Follow an index to a constant of the pool; the position is that behind its tag. A noted
position is never -1, which `main` also asks for.
-/
def followIndex (cpCount : Nat) (pool : Nat → Nat) (index : Nat) : Except Failure Nat :=
  if index < 1 ∨ index ≥ cpCount then .error .corrupt
  else if pool index = 0 then .error .corrupt
  else .ok (pool index + 1)

/-- The part of `main` that finds the name: its length field and the position behind that. -/
def findName (classfile : List UInt8) : Except Failure (Nat × Nat) := do
  let (cpCount, pos) ← read16 classfile 8
  let skipped ← skipConstants classfile cpCount { pos, cur := 1, pool := fun _ => 0 }
  -- skip access flags
  let (thisClass, _) ← read16 classfile (skipped.pos + 2)
  let pos ← followIndex cpCount skipped.pool thisClass
  let (classinfoPtr, _) ← read16 classfile pos
  let pos ← followIndex cpCount skipped.pool classinfoPtr
  read16 classfile pos

inductive Kind where
  | integer
  | float
  | long
  | double
  | classRef
  | string
  | fieldref
  | methodref
  | interfaceMethodref
  | nameAndType
  | methodHandle
  | methodType
  | invokeDynamic
  deriving DecidableEq

def Kind.tag : Kind → UInt8
  | .integer => 3
  | .float => 4
  | .long => 5
  | .double => 6
  | .classRef => 7
  | .string => 8
  | .fieldref => 9
  | .methodref => 10
  | .interfaceMethodref => 11
  | .nameAndType => 12
  | .methodHandle => 15
  | .methodType => 16
  | .invokeDynamic => 18

def Kind.size : Kind → Nat
  | .classRef | .string | .methodType => 2
  | .methodHandle => 3
  | .long | .double => 8
  | .integer | .float | .fieldref | .methodref | .interfaceMethodref | .nameAndType
  | .invokeDynamic => 4

def Kind.slots : Kind → Nat
  | .long | .double => 2
  | _ => 1

inductive Constant where
  | utf8 (content : List UInt8) (short : content.length < 2 ^ 16)
  | other (kind : Kind) (content : List UInt8) (length_eq : content.length = kind.size)

def Constant.bytes : Constant → List UInt8
  | .utf8 content _ => 1 :: (Endian.big.encode 2 content.length ++ content)
  | .other kind content _ => kind.tag :: content

def Constant.slots : Constant → Nat
  | .utf8 _ _ => 1
  | .other kind _ _ => kind.slots

def slots (constants : List Constant) : Nat :=
  (constants.map Constant.slots).sum

def EntryAt (constants : List Constant) (index : Nat) (constant : Constant) : Prop :=
  ∃ before later, constants = before ++ constant :: later ∧ index = 1 + slots before

def encodeChar (c : Nat) : List UInt8 :=
  if 1 ≤ c ∧ c < 0x80 then [UInt8.ofNat c]
  else if c < 0x800 then [UInt8.ofNat (0xC0 + c / 64), UInt8.ofNat (0x80 + c % 64)]
  else
    [UInt8.ofNat (0xE0 + c / 4096), UInt8.ofNat (0x80 + c / 64 % 64), UInt8.ofNat (0x80 + c % 64)]

structure ClassFile where
  /-- Magic and version numbers. -/
  header : List UInt8
  header_length : header.length = 8
  constants : List Constant
  count_lt : 1 + slots constants < 2 ^ 16
  accessFlags : List UInt8
  accessFlags_length : accessFlags.length = 2
  thisClass : Nat
  nameIndex : Nat
  name : List Nat
  name_lt : ∀ c ∈ name, c < 2 ^ 16
  name_short : (name.flatMap encodeChar).length < 2 ^ 16
  classEntry : EntryAt constants thisClass
    (.other .classRef (Endian.big.encode 2 nameIndex) (Endian.encode_length _ _ _))
  nameEntry : EntryAt constants nameIndex (.utf8 (name.flatMap encodeChar) name_short)
  /-- Everything behind `this_class`. -/
  rest : List UInt8

def ClassFile.bytes (file : ClassFile) : List UInt8 :=
  file.header ++ Endian.big.encode 2 (1 + slots file.constants)
    ++ file.constants.flatMap Constant.bytes ++ file.accessFlags
    ++ Endian.big.encode 2 file.thisClass ++ file.rest

def Stands (classfile : List UInt8) (pos : Nat) (bytes : List UInt8) : Prop :=
  bytes <+: classfile.drop pos

section Reading

variable {classfile : List UInt8} {pos : Nat}

theorem Stands.left {first second : List UInt8} (stands : Stands classfile pos (first ++ second))
    : Stands classfile pos first :=
  (List.prefix_append first second).trans stands

theorem Stands.right {first second : List UInt8}
    (stands : Stands classfile pos (first ++ second))
    : Stands classfile (pos + first.length) second := by
  obtain ⟨rest, whole⟩ := stands
  refine ⟨rest, ?_⟩
  rw [← List.drop_drop, ← whole, List.append_assoc, List.drop_left]

theorem read8_of_stands {b : UInt8} (stands : Stands classfile pos [b])
    : read8 classfile pos = .ok (b.toNat, pos + 1) := by
  obtain ⟨rest, whole⟩ := stands
  have found : classfile[pos]? = some b := by
    rw [← List.head?_drop, ← whole, List.singleton_append, List.head?_cons]
  simp only [read8, found]

theorem read16_of_stands {v : Nat} (fits : v < 2 ^ 16)
    (stands : Stands classfile pos (Endian.big.encode 2 v))
    : read16 classfile pos = .ok (v, pos + 2) := by
  have bytes : Endian.big.encode 2 v = [UInt8.ofNat (v / 256 ^ 1)] ++ [UInt8.ofNat (v / 256 ^ 0)] :=
    rfl
  rw [bytes] at stands
  have first := read8_of_stands stands.left
  have second := read8_of_stands stands.right
  have low : (UInt8.ofNat (v / 256 ^ 0)).toNat < 2 ^ 8 := UInt8.toNat_lt _
  have value : (UInt8.ofNat (v / 256 ^ 1)).toNat <<< 8 ||| (UInt8.ofNat (v / 256 ^ 0)).toNat
      = v := by
    rw [← Nat.shiftLeft_add_eq_or_of_lt low, Nat.shiftLeft_eq]
    simp only [UInt8.toNat_ofNat']
    omega
  simp only [read16, first, bind, Except.bind]
  rw [List.length_singleton] at second
  simp only [second, value, pure, Except.pure]

/-- One constant is skipped, and its position noted. -/
theorem skipConstant_of_stands {constant : Constant} {cur : Nat} (pool : Nat → Nat)
    (stands : Stands classfile pos constant.bytes) (fits : cur + constant.slots < 2 ^ 16)
    : skipConstant classfile { pos, cur, pool }
      = .ok { pos := pos + constant.bytes.length, cur := cur + constant.slots - 1,
              pool := Function.update pool cur pos } := by
  cases constant with
  | utf8 content short =>
      have tagged : Stands classfile pos
          ([1] ++ (Endian.big.encode 2 content.length ++ content)) := stands
      have tag := read8_of_stands tagged.left
      have len := read16_of_stands short tagged.right.left
      rw [List.length_singleton] at len
      simp only [skipConstant, tag, bind, Except.bind, UInt8.toNat_one, len, pure, Except.pure,
        Constant.bytes, Constant.slots, List.length_cons, List.length_append,
        Endian.encode_length, Except.ok.injEq, Skip.mk.injEq]
      exact ⟨by omega, rfl, trivial⟩
  | other kind content length_eq =>
      have tagged : Stands classfile pos ([kind.tag] ++ content) := stands
      have tag := read8_of_stands tagged.left
      simp only [Constant.slots] at fits
      simp only [skipConstant, tag, bind, Except.bind, Constant.bytes, Constant.slots,
        List.length_cons, length_eq]
      cases kind
      all_goals
        simp only [Kind.slots] at fits
        simp [Kind.tag, Kind.size, Kind.slots, pure, Except.pure]
      all_goals omega

end Reading

@[simp]
theorem slots_append (left right : List Constant)
    : slots (left ++ right) = slots left + slots right := by
  simp [slots]

@[simp]
theorem slots_cons (constant : Constant) (rest : List Constant)
    : slots (constant :: rest) = constant.slots + slots rest := by
  simp [slots]

theorem Constant.slots_pos (constant : Constant) : 0 < constant.slots := by
  cases constant with
  | utf8 => exact Nat.one_pos
  | other kind => cases kind <;> simp [slots, Kind.slots]

def notePositions : List Constant → Nat → Nat → (Nat → Nat) → (Nat → Nat)
  | [], _, _, pool => pool
  | constant :: rest, cur, pos, pool =>
      notePositions rest (cur + constant.slots) (pos + constant.bytes.length)
        (Function.update pool cur pos)

/-- Only indices from the current one on are noted. -/
theorem notePositions_of_lt (constants : List Constant) {cur index : Nat} (pos : Nat)
    (pool : Nat → Nat) (earlier : index < cur)
    : notePositions constants cur pos pool index = pool index := by
  induction constants generalizing cur pos pool with
  | nil => rfl
  | cons constant rest ih =>
      rw [notePositions, ih _ _ (by omega), Function.update_of_ne (by omega)]

/-- The position of a constant is noted at its index, by induction on those before it. -/
theorem notePositions_at (before later : List Constant) (constant : Constant) (cur pos : Nat)
    (pool : Nat → Nat)
    : notePositions (before ++ constant :: later) cur pos pool (cur + slots before)
      = pos + (before.flatMap Constant.bytes).length := by
  induction before generalizing cur pos pool with
  | nil =>
      have positive := constant.slots_pos
      simp only [List.nil_append, notePositions, slots, List.map_nil, List.sum_nil, Nat.add_zero,
        List.flatMap_nil, List.length_nil]
      rw [notePositions_of_lt _ _ _ (by omega), Function.update_self]
  | cons first rest ih =>
      have shifted := ih (cur + first.slots) (pos + first.bytes.length)
        (Function.update pool cur pos)
      simp only [List.cons_append, notePositions, slots_cons, List.flatMap_cons,
        List.length_append, ← Nat.add_assoc]
      exact shifted

/-- The loop skips the constants that stand in the file, by induction on them. -/
theorem skipConstants_eq {classfile : List UInt8} {constants : List Constant}
    {pos cur cpCount : Nat} (pool : Nat → Nat)
    (stands : Stands classfile pos (constants.flatMap Constant.bytes))
    (count : cur + slots constants = cpCount) (fits : cpCount < 2 ^ 16)
    : skipConstants classfile cpCount { pos, cur, pool }
      = .ok { pos := pos + (constants.flatMap Constant.bytes).length, cur := cpCount,
              pool := notePositions constants cur pos pool } := by
  induction constants generalizing pos cur pool with
  | nil =>
      simp only [slots, List.map_nil, List.sum_nil, Nat.add_zero] at count
      subst count
      rw [skipConstants, if_neg (Nat.lt_irrefl _)]
      rfl
  | cons constant rest ih =>
      rw [List.flatMap_cons] at stands
      rw [slots_cons] at count
      have positive := constant.slots_pos
      have skip := skipConstant_of_stands pool stands.left
        (by omega : cur + constant.slots < 2 ^ 16)
      have next : (cur + constant.slots - 1 + 1) % 2 ^ 16 = cur + constant.slots := by
        rw [Nat.sub_add_cancel (by omega), Nat.mod_eq_of_lt (by omega)]
      rw [skipConstants, if_pos (by simp only; omega)]
      split
      next failure failed =>
        rw [skip] at failed
        cases failed
      next skipped done =>
        rw [skip] at done
        cases done
        simp only [next]
        rw [ih _ stands.right (by omega), List.flatMap_cons, List.length_append, Nat.add_assoc]
        rfl

/-- An index that is in use leads behind the tag of its constant. -/
theorem followIndex_eq {classfile : List UInt8} {constants : List Constant} {pos index : Nat}
    {constant : Constant} (stands : Stands classfile pos (constants.flatMap Constant.bytes))
    (started : 0 < pos) (entry : EntryAt constants index constant)
    : ∃ place, Stands classfile place constant.bytes
      ∧ followIndex (1 + slots constants)
          (notePositions constants 1 pos fun _ => 0) index = .ok (place + 1)
      ∧ index < 1 + slots constants := by
  obtain ⟨before, later, rfl, rfl⟩ := entry
  have positive := constant.slots_pos
  refine ⟨pos + (before.flatMap Constant.bytes).length, ?_, ?_, ?_⟩
  · rw [List.flatMap_append, List.flatMap_cons] at stands
    exact stands.right.left
  · rw [followIndex, notePositions_at, if_neg, if_neg]
    · omega
    · simp only [slots_append, slots_cons]
      omega
  · simp only [slots_append, slots_cons]
    omega

/-- The name of a class file is found, with its length in bytes. -/
theorem findName_eq (file : ClassFile)
    : ∃ pos, findName file.bytes = .ok ((file.name.flatMap encodeChar).length, pos)
      ∧ Stands file.bytes pos (file.name.flatMap encodeChar) := by
  have whole : Stands file.bytes 0 (file.header
      ++ (Endian.big.encode 2 (1 + slots file.constants)
        ++ (file.constants.flatMap Constant.bytes
          ++ (file.accessFlags ++ (Endian.big.encode 2 file.thisClass ++ file.rest))))) := by
    simp only [Stands, List.drop_zero, ClassFile.bytes, List.append_assoc]
    exact List.prefix_refl _
  have counted := whole.right
  have pooled := counted.right
  have flagged := pooled.right
  have owned := flagged.right
  simp only [file.header_length, file.accessFlags_length, Endian.encode_length,
    Nat.zero_add] at counted pooled flagged owned
  obtain ⟨classPlace, classStands, toClass, classBelow⟩ :=
    followIndex_eq pooled.left (by decide) file.classEntry
  obtain ⟨namePlace, nameStands, toName, nameBelow⟩ :=
    followIndex_eq pooled.left (by decide) file.nameEntry
  have classBytes : Stands file.bytes classPlace ([7] ++ Endian.big.encode 2 file.nameIndex) :=
    classStands
  have nameBytes : Stands file.bytes namePlace
      ([1] ++ (Endian.big.encode 2 (file.name.flatMap encodeChar).length
        ++ file.name.flatMap encodeChar)) :=
    nameStands
  have countLt := file.count_lt
  have readCount := read16_of_stands countLt counted.left
  have skip := skipConstants_eq (fun _ => 0) pooled.left rfl countLt
  have readThis := read16_of_stands (by omega) owned.left
  have readIndex := read16_of_stands (by omega) classBytes.right
  have readLength := read16_of_stands file.name_short nameBytes.right.left
  rw [List.length_singleton] at readIndex readLength
  refine ⟨namePlace + 1 + 2, ?_, ?_⟩
  · simp only [findName, readCount, skip, readThis, toClass, readIndex, toName, readLength, bind,
      Except.bind]
  · have name := nameBytes.right.right
    rwa [Endian.encode_length] at name

end LinuxDoc.JavaClassName
