import LinuxDoc.Foundations.Sweep

/-! The frame buffer of the cfag12864b LCD example: 128 by 64 pixels, eight of them to a byte.
The drawing functions work on bytes; what they draw is a matrix of pixels.
-/

namespace LinuxDoc.Cfag12864b

open Foundations

def width : Nat := 128

def height : Nat := 64

def size : Nat := 128 * 64 / 8

def bpb : Nat := 8

def address (x y : Nat) : Nat :=
  y * width / bpb + x / bpb

def bit (n : Nat) : BitVec 8 :=
  1#8 <<< n

/-- `CFAG12864B_CHECK`, with `CFAG12864B_DOCHECK` undefined. -/
def check (_x _y : Nat) : Bool :=
  true

/-- The memory from `cfag12864b_buffer` on, of which the first `size` bytes are the buffer. -/
abbrev Buffer := Nat → BitVec 8

def set (buffer : Buffer) (x y : BitVec 8) : Buffer :=
  if check x.toNat y.toNat then
    let i := address x.toNat y.toNat
    Function.update buffer i (buffer i ||| bit (x.toNat % bpb))
  else buffer

def unset (buffer : Buffer) (x y : BitVec 8) : Buffer :=
  if check x.toNat y.toNat then
    let i := address x.toNat y.toNat
    Function.update buffer i (buffer i &&& ~~~ bit (x.toNat % bpb))
  else buffer

def isset (buffer : Buffer) (x y : BitVec 8) : BitVec 8 :=
  if check x.toNat y.toNat then
    if buffer (address x.toNat y.toNat) &&& bit (x.toNat % bpb) ≠ 0#8 then 1#8 else 0#8
  else 0#8

def not (buffer : Buffer) (x y : BitVec 8) : Buffer :=
  if isset buffer x y ≠ 0#8 then unset buffer x y else set buffer x y

def fill (buffer : Buffer) : Buffer :=
  (List.range size).foldl (fun b i => Function.update b i 0xFF#8) buffer

def clear (buffer : Buffer) : Buffer :=
  (List.range size).foldl (fun b i => Function.update b i 0#8) buffer

def formatByte (matrix : Nat → BitVec 8) (buffer : Buffer) (i j : Nat) : Buffer :=
  let k := i * width / bpb + j
  (List.range bpb).foldl
    (fun b n =>
      if matrix (i * width + j * bpb + n) ≠ 0#8 then Function.update b k (b k ||| bit n) else b)
    (Function.update buffer k 0#8)

def format (buffer : Buffer) (matrix : Nat → BitVec 8) : Buffer :=
  (List.range height).foldl
    (fun b i => (List.range (width / bpb)).foldl (fun b j => formatByte matrix b i j) b) buffer

-- Pixels

@[ext]
structure Pixel where
  x : BitVec 8
  y : BitVec 8
  x_lt : x.toNat < width
  y_lt : y.toNat < height
  deriving DecidableEq

abbrev Screen := Pixel → Bool

def screen (buffer : Buffer) : Screen :=
  fun p => isset buffer p.x p.y ≠ 0#8

inductive Operation where
  | set (p : Pixel)
  | unset (p : Pixel)
  | not (p : Pixel)
  | fill
  | clear
  | format (matrix : Nat → BitVec 8)

def perform (buffer : Buffer) : Operation → Buffer
  | .set p => set buffer p.x p.y
  | .unset p => unset buffer p.x p.y
  | .not p => not buffer p.x p.y
  | .fill => fill buffer
  | .clear => clear buffer
  | .format matrix => format buffer matrix

def draw (shown : Screen) : Operation → Screen
  | .set p => Function.update shown p true
  | .unset p => Function.update shown p false
  | .not p => Function.update shown p (!shown p)
  | .fill => fun _ => true
  | .clear => fun _ => false
  | .format matrix => fun p => matrix (p.y.toNat * width + p.x.toNat) ≠ 0#8

def Pixel.address (p : Pixel) : Nat :=
  Cfag12864b.address p.x.toNat p.y.toNat

def Pixel.bit (p : Pixel) : Nat :=
  p.x.toNat % bpb

theorem Pixel.bit_lt (p : Pixel)
    : p.bit < 8 :=
  Nat.mod_lt _ (by decide)

theorem Pixel.address_lt (p : Pixel)
    : p.address < size := by
  have column := p.x_lt
  have row := p.y_lt
  simp only [Pixel.address, Cfag12864b.address, width, height, bpb, size] at *
  omega

/-- Two pixels share a byte and a bit only if they are one. -/
theorem Pixel.eq_of_address_bit {p q : Pixel} (address : p.address = q.address)
    (bit : p.bit = q.bit)
    : p = q := by
  have columnP := p.x_lt
  have columnQ := q.x_lt
  simp only [Pixel.address, Pixel.bit, Cfag12864b.address, width, bpb] at *
  apply Pixel.ext <;> apply BitVec.eq_of_toNat_eq <;> omega

/-- Each bit of the buffer is a pixel. -/
theorem exists_pixel {i n : Nat} (byte : i < size) (bit : n < 8)
    : ∃ p : Pixel, p.address = i ∧ p.bit = n := by
  simp only [size] at byte
  have column : (i % 16 * 8 + n) % 256 = i % 16 * 8 + n := by omega
  have row : i / 16 % 256 = i / 16 := by omega
  refine ⟨⟨BitVec.ofNat 8 (i % 16 * 8 + n), BitVec.ofNat 8 (i / 16), ?_, ?_⟩, ?_, ?_⟩ <;>
    simp only [Pixel.address, Pixel.bit, address, width, height, bpb, BitVec.toNat_ofNat] <;>
    omega

theorem getLsbD_bit {n m : Nat} (inside : m < 8)
    : (bit n).getLsbD m = decide (m = n) := by
  rw [bit, BitVec.getLsbD_shiftLeft, BitVec.getLsbD_one]
  by_cases low : m < n
  · simp [low, Nat.ne_of_lt low]
  · have start : m - n = 0 ↔ m = n := by omega
    simp [inside, low, start]

/-- Masking a byte with one bit tests the bit. -/
theorem and_bit_eq_zero (byte : BitVec 8) {n : Nat} (inside : n < 8)
    : byte &&& bit n = 0#8 ↔ byte.getLsbD n = false := by
  constructor
  · intro zero
    have low := congrArg (BitVec.getLsbD · n) zero
    simpa [getLsbD_bit inside] using low
  · intro off
    apply BitVec.eq_of_getLsbD_eq
    intro m bound
    rw [BitVec.getLsbD_and, getLsbD_bit bound]
    by_cases same : m = n
    · simp [same, off]
    · simp [same]

theorem screen_apply (buffer : Buffer) (p : Pixel)
    : screen buffer p = (buffer p.address).getLsbD p.bit := by
  have tested := and_bit_eq_zero (buffer p.address) p.bit_lt
  have read : isset buffer p.x p.y
      = if buffer p.address &&& bit p.bit ≠ 0#8 then 1#8 else 0#8 := rfl
  rw [screen, read]
  cases on : (buffer p.address).getLsbD p.bit with
  | false => simp [tested.mpr on]
  | true =>
      have set : buffer p.address &&& bit p.bit ≠ 0#8 := by simp [tested, on]
      simp only [set, ne_eq, not_false_eq_true, if_true]
      decide

/-- The screen shows every bit of the buffer. -/
theorem eq_of_screen_eq {left right : Buffer} (shown : screen left = screen right)
    (beyond : ∀ i, size ≤ i → left i = right i)
    : left = right := by
  funext i
  rcases Nat.lt_or_ge i size with inside | outside
  · apply BitVec.eq_of_getLsbD_eq
    intro n bound
    obtain ⟨p, rfl, rfl⟩ := exists_pixel inside bound
    have same := congrFun shown p
    rwa [screen_apply, screen_apply] at same
  · exact beyond i outside

-- Drawing one pixel

/-- A write that changes one bit of a pixel's byte changes this pixel only. -/
theorem screen_update (buffer : Buffer) (p : Pixel) (byte : BitVec 8) {on : Bool}
    (here : byte.getLsbD p.bit = on)
    (others : ∀ n < 8, n ≠ p.bit → byte.getLsbD n = (buffer p.address).getLsbD n)
    : screen (Function.update buffer p.address byte)
      = Function.update (screen buffer) p on := by
  funext q
  rw [screen_apply]
  by_cases same : q = p
  · rw [same, Function.update_self, Function.update_self, here]
  · rw [Function.update_of_ne same, screen_apply]
    by_cases shared : q.address = p.address
    · have apart : q.bit ≠ p.bit := fun bits => same (Pixel.eq_of_address_bit shared bits)
      rw [shared, Function.update_self, others q.bit q.bit_lt apart]
    · rw [Function.update_of_ne shared]

theorem screen_set (buffer : Buffer) (p : Pixel)
    : screen (set buffer p.x p.y) = Function.update (screen buffer) p true := by
  refine screen_update buffer p (buffer p.address ||| bit p.bit) ?_ ?_
  · simp [getLsbD_bit p.bit_lt]
  · intro n inside other
    simp [getLsbD_bit inside, other]

theorem screen_unset (buffer : Buffer) (p : Pixel)
    : screen (unset buffer p.x p.y) = Function.update (screen buffer) p false := by
  refine screen_update buffer p (buffer p.address &&& ~~~ bit p.bit) ?_ ?_
  · simp [getLsbD_bit p.bit_lt]
  · intro n inside other
    rw [BitVec.getLsbD_and, BitVec.getLsbD_not, getLsbD_bit inside]
    simp [inside, other]

theorem screen_not (buffer : Buffer) (p : Pixel)
    : screen (not buffer p.x p.y) = Function.update (screen buffer) p (!screen buffer p) := by
  have read : screen buffer p = decide (isset buffer p.x p.y ≠ 0#8) := rfl
  by_cases on : isset buffer p.x p.y ≠ 0#8
  · rw [not, if_pos on, screen_unset, read, decide_eq_true on, Bool.not_true]
  · rw [not, if_neg on, screen_set, read, decide_eq_false on, Bool.not_false]

-- Drawing the whole display

theorem fill_apply (buffer : Buffer) (i : Nat)
    : fill buffer i = if i < size then 0xFF#8 else buffer i := by
  have swept := foldl_update id (fun _ => 0xFF#8) (List.range size) buffer i
  rwa [List.map_id, if_congr List.mem_range rfl rfl] at swept

theorem clear_apply (buffer : Buffer) (i : Nat)
    : clear buffer i = if i < size then 0#8 else buffer i := by
  have swept := foldl_update id (fun _ => 0#8) (List.range size) buffer i
  rwa [List.map_id, if_congr List.mem_range rfl rfl] at swept

def packed (matrix : Nat → BitVec 8) (start : Nat) : BitVec 8 :=
  (List.range bpb).foldl (fun v n => if matrix (start + n) ≠ 0#8 then v ||| bit n else v) 0#8

theorem getLsbD_packed (matrix : Nat → BitVec 8) (start : Nat) {m : Nat} (inside : m < 8)
    : (packed matrix start).getLsbD m = decide (matrix (start + m) ≠ 0#8) := by
  have loop (turns : List Nat) (v : BitVec 8)
      : (turns.foldl (fun v n => if matrix (start + n) ≠ 0#8 then v ||| bit n else v) v).getLsbD m
        = (v.getLsbD m || decide (m ∈ turns ∧ matrix (start + m) ≠ 0#8)) := by
    induction turns generalizing v with
    | nil => simp
    | cons n rest ih =>
        rw [List.foldl_cons, ih]
        by_cases now : m = n
        · subst now
          by_cases on : matrix (start + m) = 0#8 <;> simp [on, getLsbD_bit inside]
        · by_cases on : matrix (start + n) = 0#8 <;> simp [on, getLsbD_bit inside, now]
  rw [packed, loop]
  simp [bpb, inside]

theorem formatByte_eq (matrix : Nat → BitVec 8) (buffer : Buffer) (i j : Nat)
    : formatByte matrix buffer i j
      = Function.update buffer (i * width / bpb + j)
          (packed matrix (i * width + j * bpb)) := by
  have turn (b : Buffer) (n : Nat)
      : (if matrix (i * width + j * bpb + n) ≠ 0#8 then
          Function.update b (i * width / bpb + j) (b (i * width / bpb + j) ||| bit n) else b)
        = Function.update b (i * width / bpb + j)
            (if matrix (i * width + j * bpb + n) ≠ 0#8 then b (i * width / bpb + j) ||| bit n
              else b (i * width / bpb + j)) := by
    split <;> simp
  simp only [formatByte, turn]
  rw [foldl_update_same (i * width / bpb + j)
    (fun n v => if matrix (i * width + j * bpb + n) ≠ 0#8 then v ||| bit n else v)]
  rw [Function.update_self, Function.update_idem, packed]

/-- The nested loops of `cfag12864b_format` write each byte of the buffer once. -/
theorem format_apply (buffer : Buffer) (matrix : Nat → BitVec 8) (k : Nat)
    : format buffer matrix k = if k < size then packed matrix (k * 8) else buffer k := by
  let turns := (List.range height).flatMap (fun i => (List.range (width / bpb)).map (Prod.mk i))
  let place (turn : Nat × Nat) : Nat := turn.1 * 16 + turn.2
  have byte (i j : Nat) : i * 128 / 8 + j = i * 16 + j := by omega
  have start (i j : Nat) : i * 128 + j * 8 = (i * 16 + j) * 8 := by omega
  have flat : format buffer matrix
      = turns.foldl
          (fun b turn => Function.update b (place turn) (packed matrix (place turn * 8)))
          buffer := by
    rw [List.foldl_flatMap, format]
    simp only [List.foldl_map, formatByte_eq, width, bpb, byte, start, place]
  have visited : k ∈ turns.map place ↔ k < size := by
    simp only [turns, place, List.mem_map, List.mem_flatMap, List.mem_range, height, width, bpb,
      size]
    constructor
    · intro h
      obtain ⟨_, ⟨i, row, j, column, rfl⟩, rfl⟩ := h
      dsimp only
      omega
    · intro inside
      exact ⟨(k / 16, k % 16), ⟨k / 16, by omega, k % 16, by omega, rfl⟩, by dsimp only; omega⟩
  rw [flat, foldl_update place (fun k => packed matrix (k * 8)), if_congr visited rfl rfl]

theorem screen_fill (buffer : Buffer)
    : screen (fill buffer) = fun _ => true := by
  funext p
  have bits : ∀ n < 8, (0xFF#8).getLsbD n = true := by decide
  rw [screen_apply, fill_apply, if_pos p.address_lt, bits _ p.bit_lt]

theorem screen_clear (buffer : Buffer)
    : screen (clear buffer) = fun _ => false := by
  funext p
  rw [screen_apply, clear_apply, if_pos p.address_lt, BitVec.getLsbD_zero]

theorem screen_format (buffer : Buffer) (matrix : Nat → BitVec 8)
    : screen (format buffer matrix)
      = fun p : Pixel => decide (matrix (p.y.toNat * width + p.x.toNat) ≠ 0#8) := by
  funext p
  have place : p.address * 8 + p.bit = p.y.toNat * width + p.x.toNat := by
    simp only [Pixel.address, Pixel.bit, address, width, bpb]
    omega
  rw [screen_apply, format_apply, if_pos p.address_lt, getLsbD_packed _ _ p.bit_lt, place]

-- Sequences of calls

/-- Each call draws what it is for. -/
theorem screen_perform (buffer : Buffer) (operation : Operation)
    : screen (perform buffer operation) = draw (screen buffer) operation := by
  cases operation with
  | set p => exact screen_set buffer p
  | unset p => exact screen_unset buffer p
  | not p => exact screen_not buffer p
  | fill => exact screen_fill buffer
  | clear => exact screen_clear buffer
  | format matrix => exact screen_format buffer matrix

/-- No call writes past the end of the buffer. -/
theorem perform_beyond (buffer : Buffer) (operation : Operation) {i : Nat} (beyond : size ≤ i)
    : perform buffer operation i = buffer i := by
  have outside (p : Pixel) : i ≠ p.address :=
    Nat.ne_of_gt (Nat.lt_of_lt_of_le p.address_lt beyond)
  have off : ¬ i < size := Nat.not_lt.mpr beyond
  have setBeyond (p : Pixel) : set buffer p.x p.y i = buffer i :=
    Function.update_of_ne (outside p) _ _
  have unsetBeyond (p : Pixel) : unset buffer p.x p.y i = buffer i :=
    Function.update_of_ne (outside p) _ _
  cases operation with
  | set p => exact setBeyond p
  | unset p => exact unsetBeyond p
  | not p =>
      rw [perform, not]
      split
      · exact unsetBeyond p
      · exact setBeyond p
  | fill => rw [perform, fill_apply, if_neg off]
  | clear => rw [perform, clear_apply, if_neg off]
  | format matrix => rw [perform, format_apply, if_neg off]

theorem screen_run (operations : List Operation) (buffer : Buffer)
    : screen (operations.foldl perform buffer) = operations.foldl draw (screen buffer) := by
  induction operations generalizing buffer with
  | nil => rfl
  | cons operation rest ih => rw [List.foldl_cons, List.foldl_cons, ih, screen_perform]

theorem not_not (buffer : Buffer) (p : Pixel)
    : not (not buffer p.x p.y) p.x p.y = buffer := by
  apply eq_of_screen_eq
  · rw [screen_not, screen_not, Function.update_self, Bool.not_not, Function.update_idem,
      Function.update_eq_self]
  · intro i beyond
    have first := perform_beyond buffer (.not p) beyond
    have second := perform_beyond (not buffer p.x p.y) (.not p) beyond
    exact second.trans first

/-- Any sequence of calls draws what the calls are for on the matrix of pixels. A call for one pixel
changes no other, and inverting a pixel twice restores every byte. Call by call (`screen_set` and
its companions), then by induction on the sequence.
-/
theorem frameBuffer_refines_screen
    : (∀ (operations : List Operation) (buffer : Buffer),
        screen (operations.foldl perform buffer) = operations.foldl draw (screen buffer))
      ∧ (∀ (buffer : Buffer) (p q : Pixel), q ≠ p →
          screen (set buffer p.x p.y) q = screen buffer q
          ∧ screen (unset buffer p.x p.y) q = screen buffer q
          ∧ screen (not buffer p.x p.y) q = screen buffer q)
      ∧ ∀ (buffer : Buffer) (p : Pixel), not (not buffer p.x p.y) p.x p.y = buffer := by
  refine ⟨screen_run, ?_, not_not⟩
  intro buffer p q other
  rw [screen_set, screen_unset, screen_not, Function.update_of_ne other,
    Function.update_of_ne other, Function.update_of_ne other]
  exact ⟨rfl, rfl, rfl⟩

/-- Two pixels of one byte. -/
theorem neighbour_kept
    : screen (set (fun _ => 0#8) 3#8 5#8) ⟨4#8, 5#8, by decide, by decide⟩ = false :=
  ((frameBuffer_refines_screen.2.1 (fun _ => 0#8) ⟨3#8, 5#8, by decide, by decide⟩
    ⟨4#8, 5#8, by decide, by decide⟩ (by decide)).1).trans (by decide)

end LinuxDoc.Cfag12864b
