import LinuxDoc.Foundations.Loop
import Mathlib.Data.List.Induction

/-! Tables searched by following links, by hash chains, and by scanning all entries.
A trail is a finite witness that a linked structure is acyclic from its start: the links
after a position are determined by it, so a position that repeated would never end.
-/

namespace Foundations

variable {α ρ : Type*}

/-- The positions visited from a start, in order, up to the one whose link ends. -/
inductive Trail (next : α → Option α) : Option α → List α → Prop
  | nil : Trail next none []
  | cons {position : α} {rest : List α} (tail : Trail next (next position) rest)
    : Trail next (some position) (position :: rest)

/-- A start has at most one trail, by induction along the first of two. -/
theorem Trail.unique {next : α → Option α} {start : Option α} {left right : List α}
    (hl : Trail next start left) (hr : Trail next start right)
    : left = right := by
  induction hl generalizing right with
  | nil =>
      cases hr
      rfl
  | cons tail ih =>
      cases hr with
      | cons other => rw [ih other]

theorem Trail.next_mem {next : α → Option α} {start : Option α} {visited : List α}
    (trail : Trail next start visited) {position later : α} (member : position ∈ visited)
    (link : next position = some later)
    : later ∈ visited := by
  induction trail with
  | nil => simp at member
  | @cons first rest tail ih =>
      rcases List.mem_cons.mp member with rfl | inRest
      · rw [link] at tail
        cases tail with
        | cons _ => simp
      · exact List.mem_cons_of_mem first (ih inRest)

/-! Loops that follow links -/

section Follow

open Loop

variable {next : α → Option α}

/-- A loop that returns and goes where the links lead has a trail to follow; it gets to every
position of the trail, and no pass there runs out of its own budget.
-/
theorem exists_trail_of_terminates {body : α → Option (Pass α ρ)} {start : α}
    (follows : ∀ position later, body position ≠ none → next position = some later →
      Continues body position later) (terminates : Terminates body start)
    : ∃ visited, Trail next (some start) visited
        ∧ ∀ position ∈ visited, Reaches body start position ∧ body position ≠ none := by
  rcases terminates with ⟨fuel, result, returned⟩
  induction fuel generalizing start with
  | zero => simp [run] at returned
  | succ fuel ih =>
      have passes : body start ≠ none := by
        intro short
        simp [run, short] at returned
      cases link : next start with
      | none =>
          refine ⟨[start], .cons (link ▸ .nil), ?_⟩
          intro position member
          obtain rfl := List.mem_singleton.mp member
          exact ⟨.refl, passes⟩
      | some later =>
          have around := follows start later passes link
          have pass : body start = some (.again later) := around
          rw [run, pass] at returned
          obtain ⟨visited, trail, reached⟩ := ih returned
          refine ⟨start :: visited, .cons (link ▸ trail), ?_⟩
          intro position member
          rcases List.mem_cons.mp member with rfl | inRest
          · exact ⟨.refl, passes⟩
          · exact ⟨.head around (reached position inRest).1, (reached position inRest).2⟩

/-- A loop that goes where the links lead gets only to positions of the trail. -/
theorem Trail.mem_of_reaches {body : α → Option (Pass α ρ)} {start : α} {visited : List α}
    (trail : Trail next (some start) visited)
    (follows : ∀ position later, Continues body position later → next position = some later)
    {position : α} (reached : Reaches body start position)
    : position ∈ visited := by
  refine reached.invariant (· ∈ visited) ?_ ?_
  · cases trail with
    | cons _ => simp
  · intro earlier later member pass
    exact trail.next_mem member (follows earlier later pass)

/-- A loop settles if at each position of a trail it leaves or goes where the link leads. -/
theorem Trail.settles {body : Nat → α → Option (Pass α ρ)} {start : α} {visited : List α}
    (Post : ρ → Prop) (trail : Trail next (some start) visited)
    (pass
      : ∀ position ∈ visited,
          (∃ result, Returns (fun inner => body inner position) (.leave result) ∧ Post result)
          ∨ ∃ later, next position = some later
              ∧ Returns (fun inner => body inner position) (.again later))
    : ∃ result, Settles body start result ∧ Post result := by
  induction visited generalizing start with
  | nil => cases trail
  | cons first rest ih =>
      cases trail with
      | cons tail =>
          rcases pass first (by simp) with ⟨result, left, post⟩ | ⟨later, link, around⟩
          · exact ⟨result, .leave left, post⟩
          · rw [link] at tail
            obtain ⟨result, settled, post⟩ :=
              ih tail fun position member => pass position (List.mem_cons_of_mem _ member)
            exact ⟨result, .again around settled, post⟩

end Follow

/-- A search along a trail ends with the verdict on the first visited position that has
one, or with the default where no position does.
Witness: induction along the trail; `Answers` is what the search shows at each position.
-/
theorem Trail.search {next : α → Option α} {start : Option α} {visited : List α}
    (verdict : α → Option ρ) (default : ρ) (Answers : Option α → ρ → Prop)
    (finished : Answers none default)
    (found
      : ∀ position ∈ visited,
          ∀ result, verdict position = some result → Answers (some position) result)
    (skipped
      : ∀ position ∈ visited,
          ∀ result,
            verdict position = none → Answers (next position) result
            → Answers (some position) result)
    (trail : Trail next start visited)
    : Answers start ((visited.findSome? verdict).getD default) := by
  induction trail with
  | nil => exact finished
  | @cons position rest tail ih =>
      have later := ih (fun place member => found place (List.mem_cons_of_mem _ member))
        (fun place member => skipped place (List.mem_cons_of_mem _ member))
      cases judged : verdict position with
      | none =>
          rw [List.findSome?_cons, judged]
          exact skipped position (by simp) _ judged later
      | some result =>
          rw [List.findSome?_cons, judged]
          exact found position (by simp) result judged

/-- Searching for the value of the first wanted entry is searching for the entry. -/
theorem findSome?_guard (entries : List α) (wanted : α → Bool) (value : α → ρ)
    : entries.findSome? (fun entry => if wanted entry then some (value entry) else none)
      = (entries.find? wanted).map value := by
  induction entries with
  | nil => rfl
  | cons entry rest ih =>
      by_cases hit : wanted entry = true <;> simp [hit, ih]

/-- A table whose members are distributed over bucket chains by their hash. -/
structure ChainedTable (α : Type*) where
  member : α → Prop
  hash : α → Nat
  nbucket : Nat
  nonempty : 0 < nbucket
  chains : Nat → List α
  exact
    : ∀ bucket < nbucket,
        ∀ entry, entry ∈ chains bucket ↔ member entry ∧ hash entry % nbucket = bucket

/-- One chain decides a search of the whole table, if everything searched for has the
hash that selects the chain.
-/
theorem ChainedTable.find?_eq_none_iff (table : ChainedTable α) (wanted : α → Bool)
    (key : Nat) (keyed : ∀ entry, wanted entry = true → table.hash entry = key)
    : (table.chains (key % table.nbucket)).find? wanted = none
      ↔ ∀ entry, table.member entry → wanted entry = false := by
  have bucket : key % table.nbucket < table.nbucket := Nat.mod_lt _ table.nonempty
  rw [List.find?_eq_none]
  constructor
  · intro absent entry member
    by_contra present
    have found : wanted entry = true := by simpa using present
    apply absent entry _ found
    exact (table.exact _ bucket entry).mpr ⟨member, by rw [keyed entry found]⟩
  · intro absent entry inChain
    rw [absent entry ((table.exact _ bucket entry).mp inChain).1]
    simp

variable {σ β : Type*}

/-- A field that every matching entry overwrites ends with the last match. -/
theorem foldl_last (field : σ → β) (step : σ → α → σ) (isMatch : α → Bool) (value : α → β)
    (update : ∀ s a, field (step s a) = if isMatch a then value a else field s)
    (entries : List α) (init : σ)
    : field (entries.foldl step init)
      = (((entries.filter isMatch).getLast?).map value).getD (field init) := by
  induction entries using List.reverseRecOn with
  | nil => rfl
  | append_singleton entries entry ih =>
      rw [List.foldl_append, List.foldl_cons, List.foldl_nil, update, List.filter_append]
      by_cases hit : isMatch entry = true
      · simp [hit]
      · simp [hit, ih]

/-- A field that only the first match writes, as told by a flag, ends with that match. -/
theorem foldl_first (flag : σ → Bool) (field : σ → β) (step : σ → α → σ)
    (isMatch : α → Bool) (value : α → β)
    (raise : ∀ s a, flag (step s a) = (flag s || isMatch a))
    (update : ∀ s a, field (step s a) = if isMatch a && !flag s then value a else field s)
    (entries : List α) (init : σ) (lowered : flag init = false)
    : flag (entries.foldl step init) = (entries.find? isMatch).isSome
      ∧ field (entries.foldl step init)
        = ((entries.find? isMatch).map value).getD (field init) := by
  induction entries using List.reverseRecOn with
  | nil => exact ⟨lowered, rfl⟩
  | append_singleton entries entry ih =>
      rw [List.foldl_append, List.foldl_cons, List.foldl_nil, raise, update, ih.1, ih.2,
        List.find?_append]
      cases earlier : entries.find? isMatch with
      | some found => simp
      | none => by_cases hit : isMatch entry = true <;> simp [hit]

end Foundations
