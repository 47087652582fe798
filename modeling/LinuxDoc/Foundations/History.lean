/-! Histories, with the newest entry first, and what they say about the past. -/

namespace Foundations

universe u v w

variable {α : Type u} {β : Type v} {γ : Type w}

/-- An event is in the history, and every entry after it satisfies the condition. -/
def Since (Holds Event : α → Prop) : List α → Prop
  | [] => False
  | entry :: earlier => Event entry ∨ (Holds entry ∧ Since Holds Event earlier)

/-- Every entry of the history has a property of itself and of what was before it. -/
def Throughout (Right : α → List α → Prop) : List α → Prop
  | [] => True
  | entry :: earlier => Right entry earlier ∧ Throughout Right earlier

def collected (find : α → List α → Option β) : List α → List β
  | [] => []
  | entry :: earlier => collected find earlier ++ (find entry earlier).toList

instance decidableSince (Holds Event : α → Prop) [DecidablePred Holds] [DecidablePred Event]
    : (history : List α) → Decidable (Since Holds Event history)
  | [] => inferInstanceAs (Decidable False)
  | entry :: earlier =>
      have := decidableSince Holds Event earlier
      inferInstanceAs (Decidable (Event entry ∨ (Holds entry ∧ Since Holds Event earlier)))

instance decidableThroughout (Right : α → List α → Prop)
    [∀ entry earlier, Decidable (Right entry earlier)]
    : (history : List α) → Decidable (Throughout Right history)
  | [] => inferInstanceAs (Decidable True)
  | entry :: earlier =>
      have := decidableThroughout Right earlier
      inferInstanceAs (Decidable (Right entry earlier ∧ Throughout Right earlier))

variable {Holds Event : α → Prop} {Right : α → List α → Prop}

@[simp] theorem since_nil : ¬ Since Holds Event [] := id

@[simp] theorem since_cons {entry : α} {earlier : List α}
    : Since Holds Event (entry :: earlier)
      ↔ Event entry ∨ (Holds entry ∧ Since Holds Event earlier) :=
  Iff.rfl

@[simp] theorem throughout_nil : Throughout Right [] := trivial

@[simp] theorem throughout_cons {entry : α} {earlier : List α}
    : Throughout Right (entry :: earlier) ↔ Right entry earlier ∧ Throughout Right earlier :=
  Iff.rfl

/-- The event that a history has had since. -/
theorem since_iff_exists {history : List α}
    : Since Holds Event history
      ↔ ∃ later entry earlier, history = later ++ entry :: earlier ∧ Event entry
        ∧ ∀ entry ∈ later, Holds entry := by
  induction history with
  | nil => simp
  | cons first rest ih =>
      rw [since_cons, ih]
      constructor
      · rintro (here | ⟨holds, later, entry, earlier, rfl, event, all⟩)
        · exact ⟨[], first, rest, rfl, here, nofun⟩
        · exact ⟨first :: later, entry, earlier, rfl, event, by simpa [holds] using all⟩
      · rintro ⟨later, entry, earlier, eq, event, all⟩
        cases later with
        | nil =>
            obtain ⟨rfl, rfl⟩ := List.cons.inj eq
            exact .inl event
        | cons second later =>
            obtain ⟨rfl, rfl⟩ := List.cons.inj eq
            exact .inr ⟨all first (by simp), later, entry, earlier, rfl, event,
              fun entry mem => all entry (.tail _ mem)⟩

/-- What holds throughout a history held at every earlier time. -/
theorem Throughout.of_suffix {earlier history : List α} (suffix : earlier <:+ history)
    (right : Throughout Right history)
    : Throughout Right earlier := by
  obtain ⟨later, rfl⟩ := suffix
  induction later with
  | nil => exact right
  | cons _ _ ih => exact ih right.2

@[simp] theorem collected_nil (find : α → List α → Option β) : collected find [] = [] := rfl

@[simp] theorem collected_cons (find : α → List α → Option β) (entry : α) (earlier : List α)
    : collected find (entry :: earlier)
      = collected find earlier ++ (find entry earlier).toList :=
  rfl

theorem map_collected (f : β → γ) (find : α → List α → Option β) (history : List α)
    : (collected find history).map f
      = collected (fun entry earlier => (find entry earlier).map f) history := by
  induction history with
  | nil => rfl
  | cons entry earlier ih =>
      rw [collected_cons, collected_cons, List.map_append, ih]
      cases find entry earlier <;> rfl

end Foundations
