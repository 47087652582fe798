import LinuxDoc.ObjectCache.RcuInvariant

/-! What each kind of access does to the invariant of the RCU version of the object cache.
-/

namespace LinuxDoc.ObjectCache.Rcu

open Foundations

variable {Client : Type}

section

variable [DecidableEq Client] {s s' : State Client} {entries : List Addr}
  {stage stage' : Addr → Stage Client}

variable {client : Client}

/-- A client goes from one point to another. -/
theorem Invariant.move {p : Point} (inv : Invariant s entries stage) (agrees : Agrees s s')
    (point_eq : s'.point = Function.update s.point client p)
    (reads : p.role.reads = (s.point client).role.reads)
    (locks : p.role.locks = true → (s.point client).role.locks = true)
    (apart : ∀ obj, p.role ≠ .freeing obj) (ok : RoleOk s stage client p.role)
    : Invariant s' entries stage := by
  refine ⟨inv.toShared.of_agrees agrees, inv.toClients.update point_eq ?_ ?_ ?_ ?_ ?_ ?_⟩
  · rw [reads, agrees.readers]
    exact inv.reads_iff client
  · simp [agrees.readers]
  · rw [agrees.lock]
    exact fun locked => inv.locks client (locks locked)
  · simp [agrees.lock]
  · exact ok.keep agrees.callback fun obj freeing => absurd freeing (apart obj)
  · intro other _ okOther
    refine okOther.keep agrees.callback fun obj _ dying => ?_
    exact dying.carry point_eq (apart obj) (agrees.references obj) agrees.created.ge
      (agrees.freed ▸ dying.unfreed) (agrees.callback ▸ dying.quiet)

/-- A client takes the lock. -/
theorem Invariant.acquire {p : Point} (inv : Invariant s entries stage) (open_ : s.lock = none)
    (outside : client ∉ s.readers) (reads : p.role.reads = false)
    (apart : ∀ obj, p.role ≠ .freeing obj)
    (ok : (∀ obj other, stage obj ≠ .removed other) → RoleOk s stage client p.role)
    : Invariant ({ s with lock := some client }.goTo client p) entries stage := by
  have none_removed : ∀ obj other, stage obj ≠ .removed other := by
    intro obj other removed
    have := inv.removed_lock obj other removed
    simp [open_] at this
  refine ⟨{ inv.toShared with removed_lock := ?_ }, inv.toClients.update rfl ?_ ?_ ?_ ?_ ?_ ?_⟩
  · exact fun obj other removed => absurd removed (none_removed obj other)
  · simpa [reads, State.goTo] using outside
  · exact fun _ _ => Iff.rfl
  · exact fun _ => rfl
  · intro other _ locked
    simp [open_] at locked
  · exact (ok none_removed).keep rfl fun obj freeing => absurd freeing (apart obj)
  · intro other _ okOther
    refine okOther.keep rfl fun obj _ dying => ?_
    exact dying.carry rfl (apart obj) rfl le_rfl dying.unfreed dying.quiet

/-- A client gives the lock back. -/
theorem Invariant.release (inv : Invariant s entries stage) (at_unlock : s.point client = .unlock)
    : Invariant ({ s with lock := none }.goTo client .outside) entries stage := by
  have locked : s.lock = some client := inv.locks client (by rw [at_unlock]; rfl)
  have role := inv.roles client
  have reads := inv.reads_iff client
  rw [at_unlock] at role reads
  refine ⟨{ inv.toShared with removed_lock := ?_ }, inv.toClients.update rfl reads ?_ ?_ ?_ ?_ ?_⟩
  · exact fun obj other removed => absurd removed (role.2 obj other)
  · exact fun _ _ => Iff.rfl
  · intro locks
    cases locks
  · intro other differs lockedOther
    rw [locked] at lockedOther
    exact absurd (Option.some.inj lockedOther).symm differs
  · trivial
  · intro other _ okOther
    refine okOther.keep rfl fun obj _ dying => ?_
    exact dying.carry rfl (by simp [Point.role]) rfl le_rfl dying.unfreed dying.quiet

/-- A client begins a read-side section. -/
theorem Invariant.readLock (inv : Invariant s entries stage) (id : BitVec 32)
    : Invariant ({ s with readers := insert client s.readers }.goTo client (.walkHead .find id))
        entries stage := by
  refine ⟨{ inv.toShared with waits := ?_ }, inv.toClients.update rfl ?_ ?_ ?_ ?_ ?_ ?_⟩
  · intro obj waits queued
    exact (inv.waits obj waits queued).trans (Finset.subset_insert _ _)
  · simp [Point.role, Use.role, Role.reads, State.goTo]
  · intro other differs
    simp [State.goTo, differs]
  · intro locks
    cases locks
  · exact fun _ _ locked => locked
  · intro _ mem
    cases mem
  · intro other _ okOther
    refine okOther.keep rfl fun obj _ dying => ?_
    exact dying.carry rfl (by simp [Point.role, Use.role]) rfl le_rfl dying.unfreed dying.quiet

@[simp] theorem Callback.reference_readUnlock (callback : Callback Client) (client : Client)
    : (callback.readUnlock client).reference = callback.reference := by
  cases callback <;> rfl

@[simp] theorem Callback.readUnlock_eq_none (callback : Callback Client) (client : Client)
    : callback.readUnlock client = .none ↔ callback = .none := by
  cases callback <;> simp [readUnlock]

@[simp] theorem Callback.readUnlock_eq_free (callback : Callback Client) (client : Client)
    : callback.readUnlock client = .free ↔ callback = .free := by
  cases callback <;> simp [readUnlock]

@[simp] theorem Callback.readUnlock_eq_queued (callback : Callback Client) (client : Client)
    (waits : Finset Client)
    : callback.readUnlock client = .queued waits
      ↔ ∃ before, callback = .queued before ∧ before.erase client = waits := by
  cases callback <;> simp [readUnlock]

/-- A client ends its read-side section. -/
theorem Invariant.readUnlock (inv : Invariant s entries stage)
    : Invariant ({ s with
        readers := s.readers.erase client
        callback := fun obj => (s.callback obj).readUnlock client }.goTo client .outside)
        entries stage := by
  set s' := { s with
    readers := s.readers.erase client
    callback := fun obj => (s.callback obj).readUnlock client }.goTo client .outside with s'_eq
  have refs : ∀ obj, references s' obj = references s obj := by
    simp [references, s'_eq, State.goTo]
  have safe : ∀ other ≠ client, ∀ obj, Protected s stage other obj →
      Protected s' stage other obj := by
    rintro other differs obj (listed | removed | ⟨waits, queued, waited⟩)
    · exact .inl listed
    · exact .inr (.inl removed)
    · refine .inr (.inr ⟨waits.erase client, ?_, Finset.mem_erase.mpr ⟨differs, waited⟩⟩)
      simp [s'_eq, State.goTo, queued, Callback.readUnlock]
  refine ⟨{ inv.toShared with
    handed_iff := ?_, waits := ?_, closed := ?_, counted := ?_, freed_dead := ?_,
    free_dead := ?_ }, inv.toClients.update rfl ?_ ?_ ?_ ?_ ?_ ?_⟩
  · simpa [s'_eq, State.goTo] using inv.handed_iff
  · rintro obj waits queued
    obtain ⟨before, was, rfl⟩ := (Callback.readUnlock_eq_queued _ _ _).mp queued
    exact Finset.erase_subset_erase client (inv.waits obj before was)
  · intro other obj waits queued waited following mem
    obtain ⟨before, was, rfl⟩ := (Callback.readUnlock_eq_queued _ _ _).mp queued
    obtain ⟨differs, waited⟩ := Finset.mem_erase.mp waited
    exact safe other differs following (inv.closed other obj before was waited following mem)
  · intro obj born
    rw [refs]
    exact inv.counted obj born
  · intro obj freed
    rw [refs]
    exact inv.freed_dead obj freed
  · intro obj free
    rw [refs]
    exact inv.free_dead obj ((Callback.readUnlock_eq_free _ _).mp free)
  · simp [s'_eq, State.goTo, Point.role, Role.reads]
  · intro other differs
    simp [s'_eq, State.goTo, differs]
  · intro locks
    cases locks
  · exact fun _ _ locked => locked
  · trivial
  · intro other differs okOther
    refine okOther.frame (fun _ owned => owned) (fun _ => safe other differs)
      (fun _ => ⟨by simp, by simp⟩) fun obj _ dying => ?_
    refine dying.carry rfl (by simp [Point.role]) (refs obj) le_rfl dying.unfreed ?_
    exact mt (Callback.readUnlock_eq_free _ _).mp dying.quiet

/-- A client sets up an object. -/
theorem Invariant.create (inv : Invariant s entries stage) (outside : s.point client = .outside)
    (id : BitVec 32)
    : Invariant ({ s with
        objects := Function.update s.objects s.created ⟨id, 0#32, 1#32⟩
        created := s.created + 1 }.goTo client (.addLock s.created))
        entries (Function.update stage s.created (.owned client)) := by
  have unborn : stage s.created = .unborn := (inv.unborn_iff _).mpr le_rfl
  have callback_new : s.callback s.created = .none := by
    by_contra some
    have handed := (inv.handed_iff _).mpr some
    simp [unborn] at handed
  set stage' := Function.update stage s.created (.owned client) with stage'_eq
  have listed : ∀ obj, stage' obj = .listed ↔ stage obj = .listed :=
    update_eq_iff unborn (by simp) (by simp)
  have removed : ∀ obj other, stage' obj = .removed other ↔ stage obj = .removed other :=
    fun obj other => update_eq_iff unborn (by simp) (by simp) obj
  have reads := inv.reads_iff client
  rw [outside] at reads
  refine ⟨{ inv.toShared with
    listed_iff := ?_, unborn_iff := ?_, handed_iff := ?_, removed_lock := ?_, removed_next := ?_,
    closed := ?_, counted := ?_, unheld := ?_ }, inv.toClients.update rfl reads ?_ ?_ ?_ ?_ ?_⟩
  · exact fun obj => (listed obj).trans (inv.listed_iff obj)
  · intro obj
    have := inv.unborn_iff obj
    by_cases same : obj = s.created
    · simp [stage'_eq, same, State.goTo]
    · rw [stage'_eq, Function.update_of_ne same, this]
      exact ⟨fun le => Nat.lt_of_le_of_ne le (Ne.symm same), Nat.le_of_succ_le⟩
  · exact fun obj => (update_eq_iff unborn (by simp) (by simp) obj).trans (inv.handed_iff obj)
  · exact fun obj other is => inv.removed_lock obj other ((removed obj other).mp is)
  · intro obj other is following mem
    exact (listed _).mpr (inv.removed_next obj other ((removed obj other).mp is) following mem)
  · intro other obj waits queued waited following mem
    have safe := inv.closed other obj waits queued waited following mem
    exact safe.carry (listed _).mpr (fun by_ => (removed _ by_).mpr) rfl
  · intro obj born
    by_cases same : obj = s.created
    · have held := inv.unheld s.created le_rfl
      simp [same, State.goTo, references, held, callback_new, Callback.reference]
    · have earlier : obj < s.created := lt_of_le_of_ne (Nat.lt_succ_iff.mp born) same
      simpa [State.goTo, same, references] using inv.counted obj earlier
  · intro obj unborn
    exact inv.unheld obj (Nat.le_of_succ_le unborn)
  · exact fun _ _ => Iff.rfl
  · intro locks
    cases locks
  · exact fun _ _ locked => locked
  · exact Function.update_self _ _ _
  · intro other differs okOther
    refine okOther.frame ?_ ?_ (fun _ => ⟨listed, removed⟩) fun obj _ dying => ?_
    · exact fun obj => (update_eq_iff unborn (by simp) (by simp [differs.symm]) obj).mpr
    · exact fun _ obj safe => safe.carry (listed _).mpr (fun by_ => (removed _ by_).mpr) rfl
    · exact dying.carry rfl (by simp [Point.role]) rfl (Nat.le_succ _) dying.unfreed dying.quiet

variable {obj : Addr}

/-- A client puts its object on the list. -/
theorem Invariant.link (inv : Invariant s entries stage) (at_link : s.point client = .addLink obj)
    : Invariant ({ s with
        next := insertNext s.next obj
        prev := insertPrev s.next s.prev obj }.goTo client .addCount)
        (obj :: entries) (Function.update stage obj .listed) := by
  have locked : s.lock = some client := inv.locks client (by rw [at_link]; rfl)
  have role := inv.roles client
  have reads := inv.reads_iff client
  rw [at_link] at role reads
  obtain ⟨owned, none_removed⟩ := role
  set stage' := Function.update stage obj .listed with stage'_eq
  have removed : ∀ y other, stage' y ≠ .removed other :=
    fun y other is => none_removed y other ((update_eq_iff owned (by simp) (by simp) y).mp is)
  have listed : ∀ y, stage y = .listed → stage' y = .listed := by
    intro y is
    by_cases same : y = obj
    · simp [stage'_eq, same]
    · simp [stage'_eq, same, is]
  have new : obj ∉ entries := by
    rw [← inv.listed_iff, owned]
    simp
  refine ⟨{ inv.toShared with
    ring := inv.ring.insert new, listed_iff := ?_, unborn_iff := ?_, handed_iff := ?_,
    removed_lock := ?_, removed_next := ?_, closed := ?_ },
    inv.toClients.update rfl reads ?_ ?_ ?_ ?_ ?_⟩
  · intro y
    by_cases same : y = obj
    · simp [stage'_eq, same]
    · simp [stage'_eq, same, inv.listed_iff]
  · exact fun y => (update_eq_iff owned (by simp) (by simp) y).trans (inv.unborn_iff y)
  · exact fun y => (update_eq_iff owned (by simp) (by simp) y).trans (inv.handed_iff y)
  · exact fun y other is => absurd is (removed y other)
  · exact fun y other is => absurd is (removed y other)
  · intro other y waits queued waited following mem
    have handed : stage y = .handed := inv.handed_of_queued queued
    have differs : y ≠ obj := by
      rintro rfl
      simp [owned] at handed
    have same : insertNext s.next obj (some y) = s.next (some y) := by
      simp [insertNext, differs]
    have safe := inv.closed other y waits queued waited following (same ▸ mem)
    exact safe.carry (listed _) (fun by_ is => absurd is (none_removed _ by_)) rfl
  · exact fun _ _ => Iff.rfl
  · exact fun _ => locked
  · exact fun _ _ is => is
  · exact ⟨List.forall_mem_nil _, removed⟩
  · intro other differs okOther
    refine okOther.frame ?_ ?_ (fun locks => absurd locks (inv.alone locked differs))
      fun y _ dying => ?_
    · exact fun y => (update_eq_iff owned (by simp [differs.symm]) (by simp) y).mpr
    · exact fun _ y safe => safe.carry (listed y) (fun by_ is => absurd is (none_removed y by_)) rfl
    · exact dying.carry rfl (by simp [Point.role]) rfl le_rfl dying.unfreed dying.quiet

/-- A client takes an object off the list; the readers that are at it find back. -/
theorem Invariant.unlink (inv : Invariant s entries stage)
    (at_unlink : s.point client = .unlink obj)
    : Invariant ({ s with
        next := removeNext s.next s.prev obj
        prev := removePrev s.next s.prev obj }.goTo client (.uncount obj))
        (entries.erase obj) (Function.update stage obj (.removed client)) := by
  have locked : s.lock = some client := inv.locks client (by rw [at_unlink]; rfl)
  have role := inv.roles client
  have reads := inv.reads_iff client
  rw [at_unlink] at role reads
  obtain ⟨positions, none_removed⟩ := role
  have is_listed := positions obj List.mem_cons_self
  have mem : obj ∈ entries := (inv.listed_iff obj).mp is_listed
  set stage' := Function.update stage obj (.removed client) with stage'_eq
  have removed : ∀ y other, stage' y = .removed other → y = obj ∧ other = client := by
    intro y other is
    by_cases same : y = obj
    · simp only [stage'_eq, same, Function.update_self, Stage.removed.injEq] at is
      exact ⟨same, is.symm⟩
    · rw [stage'_eq, Function.update_of_ne same] at is
      exact absurd is (none_removed y other)
  have listed_iff : ∀ y, stage' y = .listed ↔ y ∈ entries.erase obj := by
    intro y
    rw [inv.ring.nodup.mem_erase_iff, ← inv.listed_iff]
    by_cases same : y = obj
    · simp [stage'_eq, same]
    · simp [stage'_eq, same]
  -- a reader that is at the object is safe as long as it is not handed over
  have safe : ∀ other y, Protected s stage other y → ∀ t : State Client,
      t.callback = s.callback → Protected t stage' other y := by
    intro other y safe t callback
    by_cases same : y = obj
    · exact .inr (.inl ⟨client, by simp [stage'_eq, same]⟩)
    · have stage_same : stage' y = stage y := Function.update_of_ne same _ _
      exact safe.carry (fun is => stage_same.trans is) (fun _ is => stage_same.trans is)
        (congrFun callback y)
  refine ⟨{ inv.toShared with
    ring := inv.ring.remove mem, listed_iff := listed_iff, unborn_iff := ?_, handed_iff := ?_,
    removed_lock := ?_, removed_next := ?_, closed := ?_ },
    inv.toClients.update rfl reads ?_ ?_ ?_ ?_ ?_⟩
  · exact fun y => (update_eq_iff is_listed (by simp) (by simp) y).trans (inv.unborn_iff y)
  · exact fun y => (update_eq_iff is_listed (by simp) (by simp) y).trans (inv.handed_iff y)
  · intro y other is
    rw [(removed y other is).2]
    exact locked
  · intro y other is following follows
    obtain ⟨rfl, _⟩ := removed y other is
    have same : removeNext s.next s.prev y (some y) = s.next (some y) :=
      Function.update_of_ne (inv.ring.irrefl mem).2.symm _ _
    have follows : s.next (some y) = some following := same.symm.trans follows
    rw [listed_iff, inv.ring.nodup.mem_erase_iff]
    refine ⟨fun same => (inv.ring.irrefl mem).1 (same ▸ follows), ?_⟩
    exact inv.ring.atEntry_next mem following follows
  · intro other y waits queued waited following follows
    have handed : stage y = .handed := inv.handed_of_queued queued
    have differs : some y ≠ s.prev (some obj) := by
      intro same
      have := (inv.listed_iff y).mpr (inv.ring.atEntry_prev mem y same.symm)
      simp [handed] at this
    have same : removeNext s.next s.prev obj (some y) = s.next (some y) :=
      Function.update_of_ne differs _ _
    exact safe _ _ (inv.closed other y waits queued waited following (same ▸ follows)) _ rfl
  · exact fun _ _ => Iff.rfl
  · exact fun _ => locked
  · exact fun _ _ is => is
  · exact ⟨by simp [stage'_eq], fun y other is => (removed y other is).1⟩
  · intro other differs okOther
    refine okOther.frame ?_ (fun _ y is => safe other y is _ rfl)
      (fun locks => absurd locks (inv.alone locked differs)) fun y _ dying => ?_
    · exact fun y => (update_eq_iff is_listed (by simp) (by simp) y).mpr
    · exact dying.carry rfl (by simp [Point.role]) rfl le_rfl dying.unfreed dying.quiet

/-- A client hands an object to RCU; every reader that may be at it is waited for. -/
theorem Invariant.callRcu (inv : Invariant s entries stage)
    (at_call : s.point client = .callRcu obj)
    : Invariant ({ s with
        callback := Function.update s.callback obj (.queued s.readers) }.goTo client .unlock)
        entries (Function.update stage obj .handed) := by
  have locked : s.lock = some client := inv.locks client (by rw [at_call]; rfl)
  have role := inv.roles client
  have reads := inv.reads_iff client
  rw [at_call] at role reads
  obtain ⟨is_removed, only_removed⟩ := role
  set stage' := Function.update stage obj .handed with stage'_eq
  set s' := { s with
    callback := Function.update s.callback obj (.queued s.readers) }.goTo client .unlock with s'_eq
  have callback_obj : s'.callback obj = .queued s.readers := Function.update_self _ _ _
  have callback_ne : ∀ y, y ≠ obj → s'.callback y = s.callback y :=
    fun y differs => Function.update_of_ne differs _ _
  have none : s.callback obj = .none := by
    by_contra some
    have handed := (inv.handed_iff obj).mpr some
    simp [is_removed] at handed
  have refs : ∀ y, references s' y = references s y :=
    references_congr rfl (reference_update (by rw [none]; rfl))
  have listed : ∀ y, stage' y = .listed ↔ stage y = .listed :=
    update_eq_iff is_removed (by simp) (by simp)
  have removed : ∀ y other, stage' y ≠ .removed other := by
    intro y other is
    by_cases same : y = obj
    · simp [stage'_eq, same] at is
    · rw [stage'_eq, Function.update_of_ne same] at is
      exact same (only_removed y other is)
  -- who was safe by the lock is safe by being waited for
  have safe : ∀ other ∈ s.readers, ∀ y, Protected s stage other y →
      Protected s' stage' other y := by
    intro other reading y safe
    by_cases same : y = obj
    · exact .inr (.inr ⟨s.readers, same ▸ callback_obj, reading⟩)
    · have stage_same : stage' y = stage y := Function.update_of_ne same _ _
      exact safe.carry (fun is => stage_same.trans is) (fun _ is => stage_same.trans is)
        (callback_ne y same)
  refine ⟨{ inv.toShared with
    listed_iff := ?_, unborn_iff := ?_, handed_iff := ?_, removed_lock := ?_, removed_next := ?_,
    waits := ?_, closed := ?_, counted := ?_, freed_dead := ?_, free_dead := ?_ },
    inv.toClients.update rfl reads ?_ ?_ ?_ ?_ ?_⟩
  · exact fun y => (listed y).trans (inv.listed_iff y)
  · exact fun y => (update_eq_iff is_removed (by simp) (by simp) y).trans (inv.unborn_iff y)
  · intro y
    by_cases same : y = obj
    · simp [stage'_eq, same, callback_obj]
    · rw [stage'_eq, Function.update_of_ne same, callback_ne y same]
      exact inv.handed_iff y
  · exact fun y other is => absurd is (removed y other)
  · exact fun y other is => absurd is (removed y other)
  · intro y waits queued
    by_cases same : y = obj
    · rw [same, callback_obj] at queued
      obtain rfl := Callback.queued.inj queued
      exact Finset.Subset.refl _
    · rw [callback_ne y same] at queued
      exact inv.waits y waits queued
  · intro other y waits queued waited following follows
    by_cases same : y = obj
    · subst same
      exact .inl ((listed _).mpr (inv.removed_next y client is_removed following follows))
    · rw [callback_ne y same] at queued
      have reading := inv.waits y waits queued waited
      exact safe other reading _ (inv.closed other y waits queued waited following follows)
  · intro y born
    rw [refs]
    exact inv.counted y born
  · intro y freed
    rw [refs]
    exact inv.freed_dead y freed
  · intro y free
    by_cases same : y = obj
    · rw [same, callback_obj] at free
      cases free
    · rw [refs]
      exact inv.free_dead y (callback_ne y same ▸ free)
  · exact fun _ _ => Iff.rfl
  · exact fun _ => locked
  · exact fun _ _ is => is
  · exact ⟨List.forall_mem_nil _, removed⟩
  · intro other differs okOther
    refine okOther.frame ?_ (fun reads => safe other ((inv.reads_iff other).mp reads))
      (fun locks => absurd locks (inv.alone locked differs)) fun y _ dying => ?_
    · exact fun y => (update_eq_iff is_removed (by simp) (by simp) y).mpr
    · refine dying.carry rfl (by simp [Point.role]) (refs y) le_rfl dying.unfreed fun free => ?_
      by_cases same : y = obj
      · rw [same, callback_obj] at free
        cases free
      · exact dying.quiet (callback_ne y same ▸ free)

omit [DecidableEq Client] in
/-- Where the holders of one created object change, objects to come still have none. -/
theorem Invariant.unheld_of_others (inv : Invariant s entries stage) (born : obj < s.created)
    {holders : Addr → Multiset Client} (others : ∀ y, y ≠ obj → holders y = s.holders y)
    : ∀ y, s.created ≤ y → holders y = 0 := by
  intro y unborn
  have differs : y ≠ obj := fun same => not_lt.mpr unborn (same ▸ born)
  exact (others y differs).trans (inv.unheld y unborn)

omit [DecidableEq Client] in
/-- One more reference counts one more. -/
theorem Invariant.objectGet (inv : Invariant s entries stage) (client : Client)
    (born : obj < s.created) (alive : 0 < references s obj)
    : Invariant (s.objectGet client obj) entries stage := by
  have holders_obj : (s.objectGet client obj).holders obj = client ::ₘ s.holders obj :=
    Function.update_self _ _ _
  have holders_ne : ∀ y, y ≠ obj → (s.objectGet client obj).holders y = s.holders y :=
    fun y differs => Function.update_of_ne differs _ _
  have refs_ne : ∀ y, y ≠ obj → references (s.objectGet client obj) y = references s y := by
    intro y differs
    rw [references, references, holders_ne y differs]
    rfl
  have refs_obj : references (s.objectGet client obj) obj = references s obj + 1 := by
    rw [references, references, holders_obj, Multiset.card_cons, Nat.add_right_comm]
    rfl
  have recounts : Recounts s (s.objectGet client obj) obj := {
    alive, others := refs_ne
    refcnt := by
      rw [refs_obj, BitVec.ofNat_add, ← inv.counted obj born]
      simp [State.objectGet, State.setRefcnt]
    objects := by
      intro y differs
      simp [State.objectGet, State.setRefcnt, differs]
  }
  refine ⟨{ inv.toShared with
    counted := recounts.counted inv.toShared, unheld := ?_, freed_dead := ?_, free_dead := ?_ },
    ⟨inv.reads_iff, inv.locks, ?_⟩⟩
  · exact inv.unheld_of_others born holders_ne
  · exact fun y freed => recounts.dead (inv.freed_dead y freed)
  · exact fun y free => (inv.free_dead y free).imp_left recounts.dead
  · intro other
    refine (inv.roles other).keep rfl fun y _ dying => ?_
    exact ⟨recounts.dead dying.dead, dying.born, dying.unfreed, dying.quiet, dying.alone⟩

/-- A client drops a reference. -/
theorem Invariant.put (inv : Invariant s entries stage) (outside : s.point client = .outside)
    (holds : client ∈ s.holders obj) (countable : references s obj ≤ 2 ^ 32)
    : Invariant ({ s.setRefcnt obj ((s.objects obj).refcnt - 1#32) with
        holders := Function.update s.holders obj ((s.holders obj).erase client) }.goTo client
        (if s.decAndTest obj then .free obj else .outside)) entries stage := by
  set p : Point := if s.decAndTest obj then .free obj else .outside with p_eq
  set s' := { s.setRefcnt obj ((s.objects obj).refcnt - 1#32) with
    holders := Function.update s.holders obj ((s.holders obj).erase client) }.goTo client p with
    s'_eq
  have born := inv.born_of_held holds
  have alive := references_pos_of_held holds
  have holders_obj : s'.holders obj = (s.holders obj).erase client := Function.update_self _ _ _
  have holders_ne : ∀ y, y ≠ obj → s'.holders y = s.holders y :=
    fun y differs => Function.update_of_ne differs _ _
  have refs_ne : ∀ y, y ≠ obj → references s' y = references s y := by
    intro y differs
    rw [references, references, holders_ne y differs]
    rfl
  have refs_obj : references s' obj + 1 = references s obj := by
    rw [references, references, holders_obj, Nat.add_right_comm, Multiset.card_erase_add_one holds]
    rfl
  obtain ⟨refcnt, last⟩ := inv.dropped born countable refs_obj
  have recounts : Recounts s s' obj := {
    alive, others := refs_ne
    refcnt := by
      rw [← refcnt]
      simp [s'_eq, State.goTo, State.setRefcnt]
    objects := by
      intro y differs
      simp [s'_eq, State.goTo, State.setRefcnt, differs]
  }
  -- whoever drops the last reference is the only one to free the object
  have role_cases : p.role = .outside ∨ (p.role = .freeing obj ∧ references s' obj = 0) := by
    by_cases zero : s.decAndTest obj = true
    · exact .inr ⟨by rw [p_eq, if_pos zero]; rfl, last.mp zero⟩
    · exact .inl (by rw [p_eq, if_neg zero]; rfl)
  have reads := inv.reads_iff client
  rw [outside] at reads
  refine ⟨{ inv.toShared with
    counted := recounts.counted inv.toShared, unheld := ?_, freed_dead := ?_, free_dead := ?_ },
    inv.toClients.update rfl ?_ ?_ ?_ ?_ ?_ ?_⟩
  · exact inv.unheld_of_others born holders_ne
  · exact fun y freed => recounts.dead (inv.freed_dead y freed)
  · exact fun y free => (inv.free_dead y free).imp_left recounts.dead
  · rcases role_cases with role | ⟨role, _⟩ <;> rw [role] <;> exact reads
  · exact fun _ _ => Iff.rfl
  · rcases role_cases with role | ⟨role, _⟩ <;> rw [role] <;> intro locks <;> cases locks
  · exact fun _ _ is => is
  · rcases role_cases with role | ⟨role, zero⟩ <;> rw [role]
    · trivial
    · refine ⟨zero, born, (inv.alive born alive).2, ?_, ?_⟩
      · exact fun free => alive.ne' (inv.free_dead obj free).1
      · intro other freeing
        by_contra differs
        have point_same : s'.point other = s.point other := Function.update_of_ne differs _ _
        rw [point_same] at freeing
        have dying := inv.roles other
        rw [freeing] at dying
        exact alive.ne' dying.dead
  · intro other _ okOther
    refine okOther.keep rfl fun y _ dying => ?_
    have differs := recounts.ne_of_dead dying.dead
    refine dying.carry rfl ?_ (refs_ne y differs) le_rfl dying.unfreed dying.quiet
    rcases role_cases with role | ⟨role, _⟩ <;> rw [role] <;> simp [differs.symm]

/-- A client frees the object whose last reference it dropped. -/
theorem Invariant.clientFree (inv : Invariant s entries stage)
    (at_free : s.point client = .free obj)
    : Invariant ((s.kfree obj).goTo client .outside) entries stage := by
  have dying := inv.roles client
  have reads := inv.reads_iff client
  rw [at_free] at dying reads
  refine ⟨{ inv.toShared with once := ?_, freed_dead := ?_, free_dead := ?_ },
    inv.toClients.update rfl reads ?_ ?_ ?_ ?_ ?_⟩
  · exact inv.once_kfree dying.unfreed
  · intro y freed
    rcases mem_kfree.mp freed with before | rfl
    · exact inv.freed_dead y before
    · exact dying.dead
  · intro y free
    obtain ⟨dead, unfreed⟩ := inv.free_dead y free
    refine ⟨dead, fun freed => ?_⟩
    rcases mem_kfree.mp freed with before | rfl
    · exact unfreed before
    · exact dying.quiet free
  · exact fun _ _ => Iff.rfl
  · intro locks
    cases locks
  · exact fun _ _ is => is
  · trivial
  · intro other differs okOther
    refine okOther.keep rfl fun y freeing dyingOther => ?_
    refine dyingOther.carry rfl (by simp [Point.role]) rfl le_rfl (fun freed => ?_) dyingOther.quiet
    rcases mem_kfree.mp freed with before | rfl
    · exact dyingOther.unfreed before
    · exact differs (dying.alone other freeing)

omit [DecidableEq Client] in
/-- The callback of an object drops the cache's reference. -/
theorem Invariant.callbackPut (inv : Invariant s entries stage)
    (queued : s.callback obj = .queued ∅) (countable : references s obj ≤ 2 ^ 32)
    : Invariant { s.setRefcnt obj ((s.objects obj).refcnt - 1#32) with
        callback := Function.update s.callback obj (if s.decAndTest obj then .free else .done) }
        entries stage := by
  set after : Callback Client := if s.decAndTest obj then .free else .done with after_eq
  set s' := { s.setRefcnt obj ((s.objects obj).refcnt - 1#32) with
    callback := Function.update s.callback obj after } with s'_eq
  have handed := inv.handed_of_queued queued
  have born : obj < s.created := inv.born (by simp [handed])
  have alive : 0 < references s obj := by
    simp [references, queued, Callback.reference]
  have after_cases : after = .done ∨ (after = .free ∧ s.decAndTest obj = true) := by
    by_cases zero : s.decAndTest obj = true
    · exact .inr ⟨if_pos zero, zero⟩
    · exact .inl (if_neg zero)
  have callback_obj : s'.callback obj = after := Function.update_self _ _ _
  have callback_ne : ∀ y, y ≠ obj → s'.callback y = s.callback y :=
    fun y differs => Function.update_of_ne differs _ _
  have refs_ne : ∀ y, y ≠ obj → references s' y = references s y := by
    intro y differs
    rw [references, references, callback_ne y differs]
    rfl
  have refs_obj : references s' obj + 1 = references s obj := by
    rw [references, references, callback_obj, queued]
    rcases after_cases with is | ⟨is, _⟩ <;> rw [is] <;> rfl
  obtain ⟨refcnt, last⟩ := inv.dropped born countable refs_obj
  have recounts : Recounts s s' obj := {
    alive, others := refs_ne
    refcnt := by
      rw [← refcnt]
      simp [s'_eq, State.setRefcnt]
    objects := by
      intro y differs
      simp [s'_eq, State.setRefcnt, differs]
  }
  have goesOn : GoesOn s s' obj := {
    others := callback_ne
    before := by simp [queued]
    after := by rcases after_cases with is | ⟨is, _⟩ <;> simp [callback_obj, is]
    unwaited := fun waits is => Callback.queued.inj (is.symm.trans queued)
    unqueued := by
      intro waits
      rcases after_cases with is | ⟨is, _⟩ <;> simp [callback_obj, is]
  }
  refine ⟨{ inv.toShared with
    handed_iff := goesOn.handed_iff inv.toShared, waits := ?_, closed := ?_,
    counted := recounts.counted inv.toShared, freed_dead := ?_, free_dead := ?_ },
    ⟨inv.reads_iff, inv.locks, ?_⟩⟩
  · exact fun y waits is => inv.waits y waits (goesOn.queued is)
  · intro other y waits is waited following follows
    exact goesOn.protected (inv.closed other y waits (goesOn.queued is) waited following follows)
  · exact fun y freed => recounts.dead (inv.freed_dead y freed)
  · intro y free
    by_cases same : y = obj
    · subst same
      rw [callback_obj] at free
      rcases after_cases with is | ⟨_, zero⟩
      · rw [is] at free
        cases free
      · exact ⟨last.mp zero, (inv.alive born alive).2⟩
    · rw [callback_ne y same] at free
      exact (inv.free_dead y free).imp_left recounts.dead
  · intro other
    refine (inv.roles other).frame (fun _ is => is) (fun _ _ => goesOn.protected)
      (fun _ => ⟨by simp, by simp⟩) fun y _ dying => ?_
    have differs := recounts.ne_of_dead dying.dead
    exact ⟨recounts.dead dying.dead, dying.born, dying.unfreed,
      callback_ne y differs ▸ dying.quiet, dying.alone⟩

omit [DecidableEq Client] in
/-- The callback frees the object whose last reference it dropped. -/
theorem Invariant.callbackFree (inv : Invariant s entries stage) (free : s.callback obj = .free)
    : Invariant { s.kfree obj with callback := Function.update s.callback obj .done }
        entries stage := by
  set s' : State Client :=
    { s.kfree obj with callback := Function.update s.callback obj .done } with s'_eq
  obtain ⟨dead_obj, unfreed⟩ := inv.free_dead obj free
  have callback_obj : s'.callback obj = .done := Function.update_self _ _ _
  have callback_ne : ∀ y, y ≠ obj → s'.callback y = s.callback y :=
    fun y differs => Function.update_of_ne differs _ _
  have refs : ∀ y, references s' y = references s y :=
    references_congr rfl (reference_update (by rw [free]; rfl))
  have goesOn : GoesOn s s' obj := {
    others := callback_ne
    before := by simp [free]
    after := by simp [callback_obj]
    unwaited := fun waits is => by simp [free] at is
    unqueued := by simp [callback_obj]
  }
  refine ⟨{ inv.toShared with
    handed_iff := goesOn.handed_iff inv.toShared, waits := ?_, closed := ?_, counted := ?_,
    once := inv.once_kfree unfreed, freed_dead := ?_, free_dead := ?_ },
    ⟨inv.reads_iff, inv.locks, ?_⟩⟩
  · exact fun y waits is => inv.waits y waits (goesOn.queued is)
  · intro other y waits is waited following follows
    exact goesOn.protected (inv.closed other y waits (goesOn.queued is) waited following follows)
  · intro y before
    rw [refs]
    exact inv.counted y before
  · intro y freed
    rw [refs]
    rcases mem_kfree.mp freed with before | rfl
    · exact inv.freed_dead y before
    · exact dead_obj
  · intro y is
    have differs : y ≠ obj := by
      rintro rfl
      rw [callback_obj] at is
      cases is
    obtain ⟨dead, kept⟩ := inv.free_dead y (callback_ne y differs ▸ is)
    refine ⟨(refs y).trans dead, fun freed => ?_⟩
    rcases mem_kfree.mp freed with before | last
    · exact kept before
    · exact differs last
  · intro other
    refine (inv.roles other).frame (fun _ is => is) (fun _ _ => goesOn.protected)
      (fun _ => ⟨by simp, by simp⟩) fun y _ dying => ?_
    have differs : y ≠ obj := by
      rintro rfl
      exact dying.quiet free
    refine ⟨(refs y).trans dying.dead, dying.born, fun freed => ?_,
      callback_ne y differs ▸ dying.quiet, dying.alone⟩
    rcases mem_kfree.mp freed with before | last
    · exact dying.unfreed before
    · exact differs last

/-- A client walks on, with the lock or in a read-side section. What it may rely on holds of
the first entry, and with an object of the next one.
-/
theorem Invariant.moveWalk {p q : Point} (inv : Invariant s entries stage) (use : Use)
    {objs objs' : List Addr} (agrees : Agrees s s')
    (point_eq : s'.point = Function.update s.point client p) (at_point : s.point client = q)
    (role : q.role = use.role objs) (role' : p.role = use.role objs')
    (keeps : ∀ ok : Addr → Prop, (∀ y ∈ s.next none, ok y) →
      (∀ x, ok x → ∀ y ∈ s.next (some x), ok y) → (∀ x ∈ objs, ok x) → ∀ x ∈ objs', ok x)
    : Invariant s' entries stage := by
  have first : ∀ y ∈ s.next none, stage y = .listed :=
    fun y mem => (inv.listed_iff y).mpr (inv.ring.atEntry_head y mem)
  rw [← at_point] at role
  have current := inv.roles client
  rw [role] at current
  cases use with
  | find =>
      refine inv.move agrees point_eq (by rw [role, role']; rfl) ?_ ?_ ?_
      · rw [role']
        exact Bool.noConfusion
      · intro obj freeing
        rw [role'] at freeing
        cases freeing
      rw [role']
      exact keeps (Protected s stage client) (fun y mem => .inl (first y mem))
        (fun x safe => inv.protected_next safe) current
  | delete =>
      refine inv.move agrees point_eq (by rw [role, role']; rfl) (by rw [role]; exact fun _ => rfl)
        (by rw [role']; nofun) ?_
      rw [role']
      refine ⟨keeps (stage · = .listed) first ?_ current.1, current.2⟩
      intro x listed y mem
      exact (inv.listed_iff y).mpr (inv.ring.atEntry_next ((inv.listed_iff x).mp listed) y mem)

end

end LinuxDoc.ObjectCache.Rcu
