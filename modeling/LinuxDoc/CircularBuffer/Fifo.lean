import LinuxDoc.Foundations.RingIndex
import LinuxDoc.Foundations.Runs

/-! The producer and the consumer of a circular buffer, each deciding on a copy of the other's
index that may be out of date. An action is one step of one side, so that a run is any
interleaving of the two.
-/

namespace LinuxDoc.CircularBuffer

open Foundations

variable {w : Nat} {α : Type}

def circCnt (head tail size : BitVec w) : BitVec w :=
  (head - tail) &&& (size - 1#w)

def circSpace (head tail size : BitVec w) : BitVec w :=
  circCnt tail (head + 1#w) size

inductive Producer (w : Nat) where
  /-- `head = buffer->head` -/
  | readHead
  /-- `tail = ACCESS_ONCE(buffer->tail)` -/
  | readTail (head : BitVec w)
  /-- `if (CIRC_SPACE(head, tail, buffer->size) >= 1)` -/
  | test (head tail : BitVec w)
  /-- `produce_item` in the slot `buffer[head]` -/
  | write (head : BitVec w)
  /-- `smp_store_release(buffer->head, …)` -/
  | publish (head : BitVec w)
  deriving DecidableEq

inductive Consumer (w : Nat) where
  /-- `head = smp_load_acquire(buffer->head)` -/
  | readHead
  /-- `tail = buffer->tail` -/
  | readTail (head : BitVec w)
  /-- `if (CIRC_CNT(head, tail, buffer->size) >= 1)` -/
  | test (head tail : BitVec w)
  /-- `consume_item` from the slot `buffer[tail]` -/
  | read (tail : BitVec w)
  /-- `smp_store_release(buffer->tail, …)` -/
  | publish (tail : BitVec w)
  deriving DecidableEq

/-- The buffer and its two sides; on record are the items produced, each with the slot it was
put in, and the items consumed.
-/
structure State (w : Nat) (α : Type) where
  head : BitVec w
  tail : BitVec w
  slots : BitVec w → α
  producer : Producer w
  consumer : Consumer w
  produced : List (BitVec w × α)
  consumed : List α

def initial (w k start : Nat) (slots : BitVec w → α) : State w α where
  head := ringSlot w k start
  tail := ringSlot w k start
  slots := slots
  producer := .readHead
  consumer := .readHead
  produced := []
  consumed := []

def produce (size : BitVec w) (item : α) (s : State w α) : State w α :=
  match s.producer with
  | .readHead => { s with producer := .readTail s.head }
  | .readTail head => { s with producer := .test head s.tail }
  | .test head tail =>
      if circSpace head tail size ≥ 1#w then { s with producer := .write head }
      else { s with producer := .readHead }
  | .write head => { s with
      slots := fun i => if i = head then item else s.slots i
      produced := s.produced ++ [(head, item)]
      producer := .publish head }
  | .publish head => { s with
      head := (head + 1#w) &&& (size - 1#w)
      producer := .readHead }

def consume (size : BitVec w) (s : State w α) : State w α :=
  match s.consumer with
  | .readHead => { s with consumer := .readTail s.head }
  | .readTail head => { s with consumer := .test head s.tail }
  | .test head tail =>
      if circCnt head tail size ≥ 1#w then { s with consumer := .read tail }
      else { s with consumer := .readHead }
  | .read tail => { s with
      consumed := s.consumed ++ [s.slots tail]
      consumer := .publish tail }
  | .publish tail => { s with
      tail := (tail + 1#w) &&& (size - 1#w)
      consumer := .readHead }

inductive Action (α : Type) where
  | produce (item : α)
  | consume

def step (size : BitVec w) (s : State w α) : Action α → State w α
  | .produce item => produce size item s
  | .consume => consume size s

/-! The macros on the indices of counters -/

section

variable {k : Nat} (fits : k < w)
include fits

/-- `CIRC_CNT` is what the producer is ahead by. -/
theorem toNat_circCnt {low high : Nat} (ordered : low ≤ high) (near : high < low + 2 ^ k)
    : (circCnt (ringSlot w k high) (ringSlot w k low) (BitVec.ofNat w (2 ^ k))).toNat
      = high - low := by
  have difference := toNat_sub_and_ringMask fits (ringSlot_modEq fits high)
    (ringSlot_modEq fits low) ordered
  rw [Nat.mod_eq_of_lt (by omega)] at difference
  exact difference

/-- `CIRC_SPACE` leaves one slot of the ring unused. -/
theorem toNat_circSpace {low high : Nat} (ordered : low ≤ high) (near : high < low + 2 ^ k)
    : (circSpace (ringSlot w k high) (ringSlot w k low) (BitVec.ofNat w (2 ^ k))).toNat
      = 2 ^ k - 1 - (high - low) := by
  have divides : 2 ^ k ∣ 2 ^ w := Nat.pow_dvd_pow 2 fits.le
  have left : (ringSlot w k low).toNat ≡ low + 2 ^ k [MOD 2 ^ k] :=
    (ringSlot_modEq fits low).trans (Nat.add_modEq_right).symm
  have right : (ringSlot w k high + 1#w).toNat ≡ high + 1 [MOD 2 ^ k] := by
    rw [BitVec.toNat_add, BitVec.toNat_ofNat]
    have reduce : ∀ n, n % 2 ^ w ≡ n [MOD 2 ^ k] := fun n => (Nat.mod_modEq n _).of_dvd divides
    exact (reduce _).trans ((ringSlot_modEq fits high).add (reduce 1))
  have difference := toNat_sub_and_ringMask fits left right (by omega)
  rw [Nat.mod_eq_of_lt (by omega)] at difference
  rw [circSpace, circCnt]
  exact difference.trans (by omega)

end

/-! The invariant: `p` items are published and `c` slots given back. -/

def Producer.pending : Producer w → Nat
  | .publish _ => 1
  | _ => 0

def Consumer.pending : Consumer w → Nat
  | .publish _ => 1
  | _ => 0

/-- The producer's copy of `head` is right and its copy of `tail` is an earlier one; once past
the test there is a free slot besides the one that stays empty.
-/
def Producer.Sound (k start p c : Nat) : Producer w → Prop
  | .readHead => True
  | .readTail head => head = ringSlot w k (start + p)
  | .test head tail => head = ringSlot w k (start + p)
      ∧ ∃ old ≤ c, tail = ringSlot w k (start + old) ∧ old ≤ p ∧ p < old + 2 ^ k
  | .write head | .publish head => head = ringSlot w k (start + p) ∧ p + 1 < c + 2 ^ k

/-- The consumer's copy of `tail` is right and its copy of `head` is an earlier one; once past
the test there is a published item.
-/
def Consumer.Sound (k start p c : Nat) : Consumer w → Prop
  | .readHead => True
  | .readTail head => ∃ old ≤ p, head = ringSlot w k (start + old) ∧ c ≤ old ∧ old < c + 2 ^ k
  | .test head tail => tail = ringSlot w k (start + c)
      ∧ ∃ old ≤ p, head = ringSlot w k (start + old) ∧ c ≤ old ∧ old < c + 2 ^ k
  | .read tail | .publish tail => tail = ringSlot w k (start + c) ∧ c < p

/-- What the consumer gives back does not disturb the producer. -/
theorem Producer.Sound.mono {k start p c next : Nat} {producer : Producer w}
    (sound : producer.Sound k start p c) (later : c ≤ next)
    : producer.Sound k start p next := by
  cases producer with
  | readHead => trivial
  | readTail head => exact sound
  | test head tail =>
      obtain ⟨head_eq, old, earlier, rest⟩ := sound
      exact ⟨head_eq, old, earlier.trans later, rest⟩
  | write head => exact ⟨sound.1, sound.2.trans_le (by omega)⟩
  | publish head => exact ⟨sound.1, sound.2.trans_le (by omega)⟩

/-- What the producer publishes does not disturb the consumer. -/
theorem Consumer.Sound.mono {k start p c next : Nat} {consumer : Consumer w}
    (sound : consumer.Sound k start p c) (later : p ≤ next)
    : consumer.Sound k start next c := by
  cases consumer with
  | readHead => trivial
  | readTail head =>
      obtain ⟨old, earlier, rest⟩ := sound
      exact ⟨old, earlier.trans later, rest⟩
  | test head tail =>
      obtain ⟨tail_eq, old, earlier, rest⟩ := sound
      exact ⟨tail_eq, old, earlier.trans later, rest⟩
  | read tail => exact ⟨sound.1, sound.2.trans_le later⟩
  | publish tail => exact ⟨sound.1, sound.2.trans_le later⟩

/-- An entry of a list with one more item at its end is an old one or the new one. -/
theorem getElem?_concat_cases {β : Type} {items : List β} {last entry : β} {i : Nat}
    (at_i : (items ++ [last])[i]? = some entry)
    : (i < items.length ∧ items[i]? = some entry) ∨ (i = items.length ∧ entry = last) := by
  rcases Nat.lt_or_ge i items.length with below | above
  · exact .inl ⟨below, by rwa [List.getElem?_append_left below] at at_i⟩
  · rw [List.getElem?_append_right above, List.getElem?_singleton] at at_i
    split at at_i
    · exact .inr ⟨by omega, (Option.some.inj at_i).symm⟩
    · cases at_i

/-- A beginning of a list goes on with the list's next entry. -/
theorem concat_prefix {β : Type} {first items : List β} {entry : β} (start : first <+: items)
    (next : items[first.length]? = some entry)
    : first ++ [entry] <+: items := by
  obtain ⟨rest, rfl⟩ := start
  rw [List.getElem?_append_right le_rfl, Nat.sub_self] at next
  cases rest with
  | nil => cases next
  | cons head tail =>
      obtain rfl := Option.some.inj next
      exact ⟨tail, by simp⟩

structure Invariant (k start p c : Nat) (s : State w α) : Prop where
  head_eq : s.head = ringSlot w k (start + p)
  tail_eq : s.tail = ringSlot w k (start + c)
  ordered : c ≤ p
  near : p < c + 2 ^ k
  producer : s.producer.Sound k start p c
  consumer : s.consumer.Sound k start p c
  length_produced : s.produced.length = p + s.producer.pending
  length_consumed : s.consumed.length = c + s.consumer.pending
  /-- Items come out in the order they went in. -/
  fifo : s.consumed <+: s.produced.map Prod.snd
  /-- Items went into consecutive slots. -/
  placed : ∀ i entry, s.produced[i]? = some entry → entry.1 = ringSlot w k (start + i)
  /-- Items that are not consumed are still in their slots. -/
  kept : ∀ i entry, s.produced[i]? = some entry → s.consumed.length ≤ i →
    s.slots entry.1 = entry.2

theorem invariant_initial (w k start : Nat) (slots : BitVec w → α)
    : Invariant k start 0 0 (initial w k start slots) where
  head_eq := rfl
  tail_eq := rfl
  ordered := Nat.le_refl 0
  near := by
    rw [Nat.zero_add]
    exact Nat.two_pow_pos k
  producer := trivial
  consumer := trivial
  length_produced := rfl
  length_consumed := rfl
  fifo := List.nil_prefix
  placed := by simp [initial]
  kept := by simp [initial]

namespace Invariant

variable {k start p c : Nat} {s : State w α}

/-- The producer moves on without touching the buffer. -/
theorem withProducer (inv : Invariant k start p c s) {producer : Producer w}
    (sound : producer.Sound k start p c) (same : producer.pending = s.producer.pending)
    : Invariant k start p c { s with producer := producer } :=
  { inv with
    producer := sound
    length_produced := same ▸ inv.length_produced }

/-- The consumer moves on without touching the buffer. -/
theorem withConsumer (inv : Invariant k start p c s) {consumer : Consumer w}
    (sound : consumer.Sound k start p c) (same : consumer.pending = s.consumer.pending)
    : Invariant k start p c { s with consumer := consumer } :=
  { inv with
    consumer := sound
    length_consumed := same ▸ inv.length_consumed }

/-- Every step of the producer keeps the invariant. -/
theorem produce (inv : Invariant k start p c s) (fits : k < w) (item : α)
    : ∃ next, Invariant k start next c (produce (BitVec.ofNat w (2 ^ k)) item s) := by
  have sound := inv.producer
  have length := inv.length_produced
  unfold CircularBuffer.produce
  cases producer : s.producer with
  | readHead => exact ⟨p, inv.withProducer inv.head_eq (by rw [producer]; rfl)⟩
  | readTail head =>
      rw [producer] at sound
      refine ⟨p, inv.withProducer ⟨sound, c, le_rfl, inv.tail_eq, inv.ordered, inv.near⟩ ?_⟩
      rw [producer]
      rfl
  | test head tail =>
      rw [producer] at sound
      obtain ⟨rfl, old, earlier, rfl, ordered, near⟩ := sound
      dsimp only
      split
      · rename_i enough
        have space := toNat_circSpace fits (show start + old ≤ start + p by omega) (by omega)
        have one : 1 % 2 ^ w = 1 := Nat.mod_eq_of_lt (Nat.one_lt_two_pow (by omega))
        have room : p + 1 < c + 2 ^ k := by
          rw [ge_iff_le, BitVec.le_def, space, BitVec.toNat_ofNat, one] at enough
          omega
        refine ⟨p, inv.withProducer ⟨rfl, room⟩ ?_⟩
        rw [producer]
        rfl
      · refine ⟨p, inv.withProducer trivial ?_⟩
        rw [producer]
        rfl
  | write head =>
      rw [producer] at sound length
      obtain ⟨rfl, room⟩ := sound
      have length : s.produced.length = p := length
      have lengthConsumed := inv.length_consumed
      refine ⟨p, { inv with
        producer := ⟨rfl, room⟩
        length_produced := by simp [length, Producer.pending]
        fifo := by
          rw [List.map_append]
          exact inv.fifo.trans (List.prefix_append _ _)
        placed := ?_
        kept := ?_ }⟩
      · intro i entry at_i
        rcases getElem?_concat_cases at_i with ⟨_, old⟩ | ⟨rfl, rfl⟩
        · exact inv.placed i entry old
        · rw [length]
      · intro i entry at_i unread
        rcases getElem?_concat_cases at_i with ⟨below, old⟩ | ⟨rfl, rfl⟩
        · have differs : entry.1 ≠ ringSlot w k (start + p) := by
            rw [inv.placed i entry old]
            have from_c : c ≤ i := (Nat.le_add_right _ _).trans (lengthConsumed.ge.trans unread)
            exact ringSlot_ne fits (by omega) (by omega)
          exact (if_neg differs).trans (inv.kept i entry old unread)
        · exact if_pos rfl
  | publish head =>
      rw [producer] at sound length
      obtain ⟨rfl, room⟩ := sound
      exact ⟨p + 1, { inv with
        head_eq := ringSlot_succ fits (start + p)
        ordered := inv.ordered.trans (Nat.le_succ p)
        near := room
        producer := trivial
        consumer := inv.consumer.mono (Nat.le_succ p)
        length_produced := length }⟩

/-- Every step of the consumer keeps the invariant. -/
theorem consume (inv : Invariant k start p c s) (fits : k < w)
    : ∃ next, Invariant k start p next (consume (BitVec.ofNat w (2 ^ k)) s) := by
  have sound := inv.consumer
  have length := inv.length_consumed
  unfold CircularBuffer.consume
  cases consumer : s.consumer with
  | readHead =>
      refine ⟨c, inv.withConsumer ⟨p, le_rfl, inv.head_eq, inv.ordered, inv.near⟩ ?_⟩
      rw [consumer]
      rfl
  | readTail head =>
      rw [consumer] at sound
      refine ⟨c, inv.withConsumer ⟨inv.tail_eq, sound⟩ ?_⟩
      rw [consumer]
      rfl
  | test head tail =>
      rw [consumer] at sound
      obtain ⟨rfl, old, earlier, rfl, ordered, near⟩ := sound
      dsimp only
      split
      · rename_i enough
        have count := toNat_circCnt fits (show start + c ≤ start + old by omega) (by omega)
        have one : 1 % 2 ^ w = 1 := Nat.mod_eq_of_lt (Nat.one_lt_two_pow (by omega))
        have item : c < p := by
          rw [ge_iff_le, BitVec.le_def, count, BitVec.toNat_ofNat, one] at enough
          omega
        refine ⟨c, inv.withConsumer ⟨rfl, item⟩ ?_⟩
        rw [consumer]
        rfl
      · refine ⟨c, inv.withConsumer trivial ?_⟩
        rw [consumer]
        rfl
  | read tail =>
      rw [consumer] at sound length
      obtain ⟨rfl, item⟩ := sound
      have length : s.consumed.length = c := length
      -- the slot still holds the first item that is not consumed
      have inside : c < s.produced.length :=
        item.trans_le (inv.length_produced ▸ Nat.le_add_right p _)
      have at_c := List.getElem?_eq_getElem inside
      have found : s.slots (ringSlot w k (start + c)) = s.produced[c].2 := by
        rw [← inv.placed c _ at_c]
        exact inv.kept c _ at_c length.le
      refine ⟨c, { inv with
        consumer := ⟨rfl, item⟩
        length_consumed := by simp [length, Consumer.pending]
        fifo := concat_prefix inv.fifo ?_
        kept := ?_ }⟩
      · rw [length, List.getElem?_map, at_c, found]
        rfl
      · intro i entry at_i unread
        rw [List.length_append] at unread
        exact inv.kept i entry at_i ((Nat.le_add_right _ _).trans unread)
  | publish tail =>
      rw [consumer] at sound length
      obtain ⟨rfl, item⟩ := sound
      exact ⟨c + 1, { inv with
        tail_eq := ringSlot_succ fits (start + c)
        ordered := item
        near := inv.near.trans (by omega)
        producer := inv.producer.mono (Nat.le_succ c)
        consumer := trivial
        length_consumed := length }⟩

/-- The slot that the producer is about to write holds nothing that the consumer has still to
read, and is not the one that the consumer is reading.
-/
theorem write_safe (inv : Invariant k start p c s) (fits : k < w) {head : BitVec w}
    (writing : s.producer = .write head)
    : (∀ entry ∈ s.produced.drop s.consumed.length, entry.1 ≠ head)
      ∧ ∀ tail, s.consumer = .read tail ∨ s.consumer = .publish tail → tail ≠ head := by
  have sound := inv.producer
  have length := inv.length_produced
  rw [writing] at sound length
  obtain ⟨rfl, room⟩ := sound
  have length : s.produced.length = p := length
  have lengthConsumed := inv.length_consumed
  have free : ∀ i, c ≤ i → i < p → ringSlot w k (start + i) ≠ ringSlot w k (start + p) :=
    fun i from_c below => ringSlot_ne fits (by omega) (by omega)
  constructor
  · intro entry unread
    obtain ⟨i, at_i⟩ := List.mem_iff_getElem?.mp unread
    rw [List.getElem?_drop] at at_i
    have below := (List.getElem?_eq_some_iff.mp at_i).1
    rw [inv.placed _ entry at_i]
    exact free _ (by omega) (by omega)
  · intro tail at_slot
    have sound := inv.consumer
    rcases at_slot with consumer | consumer <;> rw [consumer] at sound <;>
      exact sound.1 ▸ free c le_rfl sound.2

end Invariant

def run (size : BitVec w) (s : State w α) (actions : List (Action α)) : State w α :=
  actions.foldl (step size) s

/-- Every interleaving keeps the invariant. -/
theorem invariant_run {k : Nat} (fits : k < w) (start : Nat) (slots : BitVec w → α)
    (actions : List (Action α))
    : ∃ p c, Invariant k start p c
        (run (BitVec.ofNat w (2 ^ k)) (initial w k start slots) actions) := by
  suffices kept : ∀ (p c : Nat) (s : State w α), Invariant k start p c s →
      ∃ p c, Invariant k start p c (run (BitVec.ofNat w (2 ^ k)) s actions) from
    kept 0 0 _ (invariant_initial w k start slots)
  induction actions with
  | nil => exact fun p c s inv => ⟨p, c, inv⟩
  | cons action rest ih =>
      intro p c s inv
      cases action with
      | produce item =>
          obtain ⟨next, stepped⟩ := inv.produce fits item
          exact ih next c _ stepped
      | consume =>
          obtain ⟨next, stepped⟩ := inv.consume fits
          exact ih p next _ stepped

def Reached (k : Nat) (s : State w α) : Prop :=
  ∃ start slots actions,
    run (BitVec.ofNat w (2 ^ k)) (initial w k start slots) actions = s

/-- In every interleaving, what is consumed is a beginning of what is produced, and the producer
never writes to a slot that the consumer has still to read or is reading. By an invariant with the
counts `p` and `c` of which the indices are the remainders.
-/
theorem circularBuffer_fifo {k : Nat} (fits : k < w) {s : State w α} (reached : Reached k s)
    : s.consumed <+: s.produced.map Prod.snd
      ∧ ∀ head, s.producer = .write head →
        (∀ entry ∈ s.produced.drop s.consumed.length, entry.1 ≠ head)
        ∧ ∀ tail, s.consumer = .read tail ∨ s.consumer = .publish tail → tail ≠ head := by
  obtain ⟨start, slots, actions, rfl⟩ := reached
  obtain ⟨p, c, inv⟩ := invariant_run fits start slots actions
  exact ⟨inv.fifo, fun _ writing => inv.write_safe fits writing⟩

def oneItem : State 8 Char where
  head := 2#8
  tail := 1#8
  slots := fun i => if i = 1#8 then 'b' else 'a'
  producer := .write 2#8
  consumer := .read 1#8
  produced := [(1#8, 'b')]
  consumed := []

theorem oneItem_fifo
    : Reached 2 oneItem ∧ oneItem.consumed <+: oneItem.produced.map Prod.snd
      ∧ (∀ entry ∈ oneItem.produced.drop oneItem.consumed.length, entry.1 ≠ 2#8)
      ∧ 1#8 ≠ 2#8 := by
  have reached : Reached 2 oneItem :=
    ⟨1, fun _ => 'a', [.produce 'b', .produce 'b', .produce 'b', .produce 'b', .produce 'b',
      .consume, .consume, .consume, .produce 'c', .produce 'c', .produce 'c'], rfl⟩
  obtain ⟨fifo, safe⟩ := circularBuffer_fifo (by decide) reached
  exact ⟨reached, fifo, (safe 2#8 rfl).1, (safe 2#8 rfl).2 1#8 (.inl rfl)⟩

end LinuxDoc.CircularBuffer
