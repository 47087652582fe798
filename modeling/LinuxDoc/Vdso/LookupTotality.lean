import LinuxDoc.Vdso.Lookup
import Mathlib.Data.Fintype.EquivFin

/-! When a lookup ends and stays within the tables of an image that initialisation accepted.
Initialisation checks neither the hash table nor the version definitions, so this is a
property of the links in the image.
-/

namespace LinuxDoc.Vdso

open Foundations Foundations.Loop Target

variable {target : Target}

/-- An image on which `vdso_init_from_sysinfo_ehdr` has set `valid`. -/
structure AcceptedImage (target : Target) where
  mem : target.Memory
  base : target.Addr
  before : VdsoInfo target
  fuel : Nat
  info : VdsoInfo target
  initialised : vdsoInitFromSysinfoEhdr mem base before fuel = some info
  valid : info.valid = true

section Definitions

variable (mem : target.Memory) (info : VdsoInfo target)

def chainHead (name : CString) : BitVec 32 :=
  wordAt mem info.bucket ((elfHash target.bits.width name.bytes).toNat % info.nbucket.toNat)

def chainStep (i : BitVec 32) : Option (BitVec 32) :=
  if i = 0 then none else some (wordAt mem info.chain i.toNat)

def Indexes (version name : CString) (i : BitVec 32) : Prop :=
  i ≠ 0 ∧ ∃ fuel, Reaches (symPass mem info version name fuel) (chainHead mem info name) i

/-- The lookup does not divide by zero, it returns, and it stays within the tables. -/
structure LookupTotal (version name : CString) : Prop where
  divides : ∀ fuel, vdsoSym mem info version name fuel ≠ some (.error .divideByZero)
  returns : ∃ fuel result, vdsoSym mem info version name fuel = some result
  inside : ∀ i, Indexes mem info version name i → i.toNat < info.nchain.toNat

def definitionStep (ver : BitVec 16) (entry : target.Addr) : Option target.Addr :=
  if definesVersion (verdefAt mem entry) ver then none else ElfImage.versionLink mem entry

/-- The definitions from `verdef` on lead to one of this index or to the last one. -/
def DefinitionsEnd (ver : BitVec 16) : Prop :=
  ∃ entries, Trail (definitionStep mem ver) (some info.verdef) entries

/-- The chain that a name selects ends, it stays below `nchain`, and the definitions end for the
version of each function of that name.
-/
def ChainEnds (name : CString) : Prop :=
  ∃ indices, Trail (chainStep mem info) (some (chainHead mem info name)) indices
    ∧ ∀ i ∈ indices, i ≠ 0 →
        i.toNat < info.nchain.toNat
        ∧ (info.versym ≠ 0
          → isNamedFunction mem info.symstrings name (symbol mem info.symtab i) = true
          → DefinitionsEnd mem info (versymAt mem info.versym i &&& 0x7fff))

end Definitions

/-! Names that no table of strings holds -/

instance finite_bitVec (width : Nat) : Finite (BitVec width) :=
  Finite.of_injective BitVec.toFin fun _ _ => BitVec.toFin_inj.mp

/-- Finitely many strings do not hold all the names of a sequence. -/
theorem exists_unheld {ι : Type} [Finite ι] (strings : ι → Nat → UInt8) {names : Nat → CString}
    (distinct : Function.Injective names)
    : ∃ k, ∀ i, equalString (names k).bytes (strings i) = false := by
  by_contra none
  have held : ∀ k, ∃ i, HoldsString (strings i) (names k).bytes := by
    intro k
    by_contra absent
    refine none ⟨k, fun i => ?_⟩
    rw [Bool.eq_false_iff]
    exact fun equal => absent ⟨i, (equalString_iff _ _).mp equal⟩
  choose holder holds using held
  refine not_injective_infinite_finite holder fun a b same => distinct ?_
  have other := holds b
  rw [← same] at other
  exact (holds a).unique other

def zeroHash : List UInt8 := [0x09, 0x0f, 0x0f, 0x0f, 0x0f, 0x0f, 0x10, 0xa0]

def padded (name : CString) (k : Nat) : CString where
  bytes := (List.replicate k zeroHash).flatten ++ name.bytes
  noNul := by
    intro zero
    rcases List.mem_append.mp zero with padding | own
    · obtain ⟨block, member, inBlock⟩ := List.mem_flatten.mp padding
      rw [List.eq_of_mem_replicate member] at inBlock
      exact absurd inBlock (by decide)
    · exact name.noNul own

theorem elfHash_padded (target : Target) (name : CString) (k : Nat)
    : elfHash target.bits.width (padded name k).bytes = elfHash target.bits.width name.bytes := by
  have zero : zeroHash.foldl (elfHashStep target.bits.width) 0 = 0 := by
    cases target.bits <;> decide
  have padding
      : (List.replicate k zeroHash).flatten.foldl (elfHashStep target.bits.width) 0 = 0 := by
    induction k with
    | zero => rfl
    | succ k ih => rw [List.replicate_succ, List.flatten_cons, List.foldl_append, zero, ih]
  rw [elfHash, padded, List.foldl_append, padding, elfHash]

theorem padded_injective (name : CString) : Function.Injective (padded name) := by
  intro a b same
  have lengths := congrArg (fun text : CString => text.bytes.length) same
  have block : zeroHash.length = 8 := rfl
  simp only [padded, List.length_append, List.length_flatten, List.map_replicate,
    List.sum_replicate_nat, block] at lengths
  omega

section Walks

variable {mem : target.Memory} {info : VdsoInfo target}

/-! The walk over the version definitions -/

variable {ver : BitVec 16}

theorem matchVersionPass_continues {entry later : target.Addr}
    (link : definitionStep mem ver entry = some later) (version : CString) (hash : BitVec 32)
    : Continues (matchVersionPass mem info ver version hash) entry later := by
  unfold definitionStep ElfImage.versionLink at link
  split at link
  · cases link
  next other =>
    split at link
    · cases link
    next more =>
      rw [Continues, matchVersionPass, if_neg other, if_neg more, Option.some.inj link]

theorem matchVersionPass_leaves {entry : target.Addr} (final : definitionStep mem ver entry = none)
    (version : CString) (hash : BitVec 32)
    : ∃ accepted, matchVersionPass mem info ver version hash entry = some (.leave accepted) := by
  unfold definitionStep ElfImage.versionLink at final
  unfold matchVersionPass
  split at final
  next defines => exact ⟨_, if_pos defines⟩
  next other =>
    split at final
    next last => exact ⟨false, by rw [if_neg other, if_pos last]⟩
    · cases final

theorem DefinitionsEnd.matchVersion_returns (ends : DefinitionsEnd mem info (ver &&& 0x7fff))
    (version : CString) (hash : BitVec 32)
    : ∃ accepted, Returns (vdsoMatchVersion mem info ver version hash) accepted := by
  obtain ⟨entries, trail⟩ := ends
  let pass (_ : Nat) := matchVersionPass mem info (ver &&& 0x7fff) version hash
  have passes : ∀ entry ∈ entries,
      (∃ accepted, Returns (fun inner => pass inner entry) (.leave accepted) ∧ True)
      ∨ ∃ later, definitionStep mem (ver &&& 0x7fff) entry = some later
          ∧ Returns (fun inner => pass inner entry) (.again later) := by
    intro entry _
    cases link : definitionStep mem (ver &&& 0x7fff) entry with
    | none =>
        obtain ⟨accepted, left⟩
            : ∃ accepted, pass 0 entry = some (.leave accepted) :=
          matchVersionPass_leaves link version hash
        exact .inl ⟨accepted, .const fun _ => left, trivial⟩
    | some later =>
        exact .inr ⟨later, rfl, .const fun _ => matchVersionPass_continues link version hash⟩
  obtain ⟨accepted, settled, _⟩ := trail.settles (fun _ => True) passes
  exact ⟨accepted, settled.returns⟩

theorem definitionsEnd_of_matchVersion {version : CString} {hash : BitVec 32} {fuel : Nat}
    {accepted : Bool} (returned : vdsoMatchVersion mem info ver version hash fuel = some accepted)
    : DefinitionsEnd mem info (ver &&& 0x7fff) := by
  have follows (entry later : target.Addr)
      (_ : matchVersionPass mem info (ver &&& 0x7fff) version hash entry ≠ none)
      (link : definitionStep mem (ver &&& 0x7fff) entry = some later)
      : Continues (matchVersionPass mem info (ver &&& 0x7fff) version hash) entry later :=
    matchVersionPass_continues link version hash
  obtain ⟨entries, trail, _⟩ := exists_trail_of_terminates follows ⟨fuel, accepted, returned⟩
  exact ⟨entries, trail⟩

/-- A version that no definition has as its name is not accepted. -/
theorem matchVersion_eq_false {version : CString} {hash : BitVec 32} {fuel : Nat} {accepted : Bool}
    (unheld : ∀ entry : target.Addr,
      equalString version.bytes (stringAt mem info.symstrings (vdaName mem entry)) = false)
    (returned : vdsoMatchVersion mem info ver version hash fuel = some accepted)
    : accepted = false := by
  refine run_result (fun _ => True) (· = false) ?_ trivial returned
  intro entry _
  rw [matchVersionPass]
  split
  · exact .leave (by rw [unheld, Bool.and_false])
  · split
    · exact .leave rfl
    · exact .again trivial

/-! The walk over a chain -/

variable {version name : CString} {fuel : Nat} {i : BitVec 32}

theorem symPass_zero : symPass mem info version name fuel 0 = some (.leave (.ok 0)) := by
  simp [symPass]

theorem symPass_unnamed (nonzero : i ≠ 0)
    (unnamed : isNamedFunction mem info.symstrings name (symbol mem info.symtab i) = false)
    : symPass mem info version name fuel i
      = some (.again (wordAt mem info.chain i.toNat)) := by
  rw [symPass, if_neg nonzero, if_pos unnamed]

def versionPass (mem : target.Memory) (info : VdsoInfo target) (i : BitVec 32) (accepted : Bool)
    : Pass (BitVec 32) (Except Fault target.Addr) :=
  if accepted then .leave (.ok (info.loadOffset + (symbol mem info.symtab i).stValue))
  else .again (wordAt mem info.chain i.toNat)

theorem symPass_named (nonzero : i ≠ 0)
    (named : isNamedFunction mem info.symstrings name (symbol mem info.symtab i) = true)
    : symPass mem info version name fuel i
      = if info.versym = 0 then some (versionPass mem info i true)
        else
          (vdsoMatchVersion mem info (versymAt mem info.versym i) version
            ((elfHash target.bits.width version.bytes).setWidth 32) fuel).map
            (versionPass mem info i) := by
  rw [symPass, if_neg nonzero, if_neg (by simp [named])]
  rfl

/-- A pass at a symbol decides on it, unless the budget is too small for the definitions. -/
theorem symPass_cases (nonzero : i ≠ 0)
    : symPass mem info version name fuel i = none
      ∨ ∃ accepted,
          symPass mem info version name fuel i = some (versionPass mem info i accepted) := by
  cases named : isNamedFunction mem info.symstrings name (symbol mem info.symtab i) with
  | false => exact .inr ⟨false, symPass_unnamed nonzero named⟩
  | true =>
      rw [symPass_named nonzero named]
      split
      · exact .inr ⟨true, rfl⟩
      · cases vdsoMatchVersion mem info (versymAt mem info.versym i) version
          ((elfHash target.bits.width version.bytes).setWidth 32) fuel with
        | none => exact .inl rfl
        | some accepted => exact .inr ⟨accepted, rfl⟩

/-- A pass goes around only along the chain. -/
theorem chainStep_of_continues {later : BitVec 32}
    (pass : Continues (symPass mem info version name fuel) i later)
    : chainStep mem info i = some later := by
  by_cases ended : i = 0
  · rw [Continues, ended, symPass_zero] at pass
    simp at pass
  · rw [chainStep, if_neg ended]
    rcases symPass_cases ended with short | ⟨accepted, decided⟩
    · rw [Continues, short] at pass
      cases pass
    · rw [Continues, decided] at pass
      cases accepted with
      | true => simp [versionPass] at pass
      | false => simpa [versionPass] using pass

/-- On a chain that ends every pass returns, with a result or with the next index. -/
theorem symPass_returns (nonzero : i ≠ 0)
    (ends : info.versym ≠ 0
      → isNamedFunction mem info.symstrings name (symbol mem info.symtab i) = true
      → DefinitionsEnd mem info (versymAt mem info.versym i &&& 0x7fff))
    (version : CString)
    : ∃ accepted,
        Returns (fun fuel => symPass mem info version name fuel i)
          (versionPass mem info i accepted) := by
  cases named : isNamedFunction mem info.symstrings name (symbol mem info.symtab i) with
  | false => exact ⟨false, .const fun _ => symPass_unnamed nonzero named⟩
  | true =>
      simp only [symPass_named nonzero named]
      by_cases unversioned : info.versym = 0
      · exact ⟨true, .const fun _ => if_pos unversioned⟩
      · obtain ⟨accepted, returned⟩ := (ends unversioned named).matchVersion_returns version
          ((elfHash target.bits.width version.bytes).setWidth 32)
        refine ⟨accepted, ?_⟩
        simp only [if_neg unversioned]
        exact returned.map (versionPass mem info i)

theorem vdsoSym_eq (valid : info.valid = true) (buckets : info.nbucket ≠ 0)
    : vdsoSym mem info version name fuel
      = run (symPass mem info version name fuel) fuel (chainHead mem info name) := by
  rw [vdsoSym, if_neg (by simp [valid]), if_neg buckets]
  rfl

theorem vdsoSym_eq_divideByZero (valid : info.valid = true) (none : info.nbucket = 0)
    : vdsoSym mem info version name fuel = some (.error .divideByZero) := by
  rw [vdsoSym, if_neg (by simp [valid]), if_pos none]

/-- The walk itself raises no fault. -/
theorem run_symPass_ok {inner : Nat} {result : Except Fault target.Addr}
    (returned : run (symPass mem info version name inner) fuel i = some result)
    : ∃ address, result = .ok address := by
  refine run_result (fun _ => True) (fun result => ∃ address, result = .ok address) ?_ trivial
    returned
  intro i _
  by_cases ended : i = 0
  · rw [ended, symPass_zero]
    exact .leave ⟨0, rfl⟩
  · rcases symPass_cases ended with short | ⟨accepted, decided⟩
    · rw [short]
      exact .short
    · rw [decided]
      cases accepted with
      | true => exact .leave ⟨_, rfl⟩
      | false => exact .again trivial

/-- A chain that ends makes every lookup along it total. -/
theorem ChainEnds.lookupTotal (valid : info.valid = true) (buckets : info.nbucket ≠ 0)
    (ends : ChainEnds mem info name) (version : CString)
    : LookupTotal mem info version name := by
  obtain ⟨indices, trail, links⟩ := ends
  have passes : ∀ i ∈ indices,
      (∃ result, Returns (fun fuel => symPass mem info version name fuel i) (.leave result) ∧ True)
      ∨ ∃ later, chainStep mem info i = some later
          ∧ Returns (fun fuel => symPass mem info version name fuel i) (.again later) := by
    intro i member
    by_cases ended : i = 0
    · exact .inl ⟨.ok 0, .const fun _ => ended ▸ symPass_zero, trivial⟩
    · obtain ⟨accepted, returned⟩ := symPass_returns ended (links i member ended).2 version
      cases accepted with
      | true => exact .inl ⟨_, returned, trivial⟩
      | false => exact .inr ⟨_, if_neg ended, returned⟩
  obtain ⟨result, settled, _⟩ := trail.settles (fun _ => True) passes
  obtain ⟨bound, returned⟩ := settled.returns
  refine {
    divides := ?_
    returns := ⟨bound, result, (vdsoSym_eq valid buckets).trans (returned bound le_rfl)⟩
    inside := ?_
  }
  · intro fuel fault
    rw [vdsoSym_eq valid buckets] at fault
    obtain ⟨address, ok⟩ := run_symPass_ok fault
    cases ok
  · intro i indexed
    rcases indexed with ⟨nonzero, fuel, reached⟩
    have follows (position later : BitVec 32)
        (pass : Continues (symPass mem info version name fuel) position later)
        : chainStep mem info position = some later :=
      chainStep_of_continues pass
    exact (links i (trail.mem_of_reaches follows reached) nonzero).1

/-- If the passes follow the chain, a lookup that is total gets to its end. -/
theorem LookupTotal.exists_trail (valid : info.valid = true) (buckets : info.nbucket ≠ 0)
    (total : LookupTotal mem info version name)
    (follows : ∀ fuel i, i ≠ 0 → symPass mem info version name fuel i ≠ none →
      symPass mem info version name fuel i = some (.again (wordAt mem info.chain i.toNat)))
    : ∃ fuel indices, Trail (chainStep mem info) (some (chainHead mem info name)) indices
        ∧ ∀ i ∈ indices, i ≠ 0 →
            i.toNat < info.nchain.toNat ∧ symPass mem info version name fuel i ≠ none := by
  obtain ⟨fuel, result, returned⟩ := total.returns
  rw [vdsoSym_eq valid buckets] at returned
  have along (i later : BitVec 32) (passes : symPass mem info version name fuel i ≠ none)
      (link : chainStep mem info i = some later)
      : Continues (symPass mem info version name fuel) i later := by
    unfold chainStep at link
    split at link
    · cases link
    next nonzero => rw [Continues, follows fuel i nonzero passes, Option.some.inj link]
  obtain ⟨indices, trail, reached⟩ := exists_trail_of_terminates along ⟨fuel, result, returned⟩
  refine ⟨fuel, indices, trail, fun i member nonzero => ?_⟩
  exact ⟨total.inside i ⟨nonzero, fuel, (reached i member).1⟩, (reached i member).2⟩

/-- Without versions, look up a name with the same hash that no symbol has. -/
theorem chainEnds_of_unversioned (valid : info.valid = true) (buckets : info.nbucket ≠ 0)
    (unversioned : info.versym = 0) (name : CString)
    (total : ∀ version name, LookupTotal mem info version name)
    : ChainEnds mem info name := by
  obtain ⟨k, unheld⟩ := exists_unheld
    (fun i : BitVec 32 => stringAt mem info.symstrings (symbol mem info.symtab i).stName)
    (padded_injective name)
  have unnamed (i : BitVec 32)
      : isNamedFunction mem info.symstrings (padded name k) (symbol mem info.symtab i)
        = false := by
    rw [isNamedFunction, unheld i, Bool.and_false]
  obtain ⟨_, indices, trail, links⟩ := (total name (padded name k)).exists_trail valid buckets
    fun _ i nonzero _ => symPass_unnamed nonzero (unnamed i)
  have head : chainHead mem info (padded name k) = chainHead mem info name := by
    rw [chainHead, elfHash_padded, chainHead]
  rw [head] at trail
  exact ⟨indices, trail, fun i member nonzero =>
    ⟨(links i member nonzero).1, fun versioned => absurd unversioned versioned⟩⟩

/-- With versions, look up the name in a version that no definition has. -/
theorem chainEnds_of_versioned (valid : info.valid = true) (buckets : info.nbucket ≠ 0)
    (versioned : info.versym ≠ 0) (name : CString)
    (total : ∀ version name, LookupTotal mem info version name)
    : ChainEnds mem info name := by
  obtain ⟨k, unheld⟩ := exists_unheld
    (fun entry : target.Addr => stringAt mem info.symstrings (vdaName mem entry))
    (padded_injective name)
  have matched {fuel : Nat} {i : BitVec 32} (nonzero : i ≠ 0)
      (named : isNamedFunction mem info.symstrings name (symbol mem info.symtab i) = true)
      (passes : symPass mem info (padded name k) name fuel i ≠ none)
      : ∃ accepted, vdsoMatchVersion mem info (versymAt mem info.versym i) (padded name k)
          ((elfHash target.bits.width (padded name k).bytes).setWidth 32) fuel
          = some accepted := by
    rw [symPass_named nonzero named, if_neg versioned] at passes
    exact Option.ne_none_iff_exists'.mp fun short => passes (by rw [short, Option.map_none])
  obtain ⟨_, indices, trail, links⟩ := (total (padded name k) name).exists_trail valid buckets (by
    intro fuel i nonzero passes
    cases named : isNamedFunction mem info.symstrings name (symbol mem info.symtab i) with
    | false => exact symPass_unnamed nonzero named
    | true =>
        obtain ⟨accepted, returned⟩ := matched nonzero named passes
        obtain rfl := matchVersion_eq_false unheld returned
        rw [symPass_named nonzero named, if_neg versioned, returned]
        rfl)
  refine ⟨indices, trail, fun i member nonzero => ?_⟩
  obtain ⟨inside, passes⟩ := links i member nonzero
  refine ⟨inside, fun _ named => ?_⟩
  obtain ⟨accepted, returned⟩ := matched nonzero named passes
  exact definitionsEnd_of_matchVersion returned

end Walks

/-- Every lookup in an accepted image is total exactly if the image has buckets and the chain of
every name ends within the tables. For the chain of a name, a name of the same hash that no symbol
has, or a version that none has, is looked up: its lookup goes through the whole chain.
-/
theorem lookupTotal_iff (image : AcceptedImage target)
    : (∀ version name, LookupTotal image.mem image.info version name)
      ↔ image.info.nbucket ≠ 0 ∧ ∀ name, ChainEnds image.mem image.info name := by
  constructor
  · intro total
    have buckets : image.info.nbucket ≠ 0 := by
      intro zero
      have divides := (total ⟨[], by simp⟩ ⟨[], by simp⟩).divides 0
      exact divides (vdsoSym_eq_divideByZero image.valid zero)
    refine ⟨buckets, fun name => ?_⟩
    by_cases unversioned : image.info.versym = 0
    · exact chainEnds_of_unversioned image.valid buckets unversioned name total
    · exact chainEnds_of_versioned image.valid buckets unversioned name total
  · rintro ⟨buckets, ends⟩ version name
    exact (ends name).lookupTotal image.valid buckets version

/-! Well-formed images -/

def noBucketsMemory : sampleTarget.Memory :=
  fun address => if address = sampleBase + 344 then 0 else sampleMemory address

def noBucketsInfo : VdsoInfo sampleTarget where
  valid := true
  loadAddr := sampleBase
  loadOffset := sampleBase - 0x1000
  symtab := sampleBase + 272
  symstrings := sampleBase + 320
  bucket := sampleBase + 352
  chain := sampleBase + 352
  nbucket := 0
  nchain := 2
  versym := sampleBase + 364
  verdef := sampleBase + 368

deriving instance DecidableEq for VdsoInfo

def noBuckets : AcceptedImage sampleTarget where
  mem := noBucketsMemory
  base := sampleBase
  before := ⟨false, 0, 0, 0, 0, 0, 0, 0, 0, 0, 0⟩
  fuel := 6
  info := noBucketsInfo
  initialised := by decide +kernel
  valid := rfl

/-- The image is accepted, with all its tables inside, and every lookup divides by zero. -/
theorem noBuckets_divides
    : (∀ table ∈ [noBucketsInfo.symtab, noBucketsInfo.symstrings, noBucketsInfo.bucket,
          noBucketsInfo.chain, noBucketsInfo.versym, noBucketsInfo.verdef],
        (table - noBuckets.base).toNat < 424)
      ∧ ∀ version name, ¬ LookupTotal noBuckets.mem noBuckets.info version name := by
  have none : noBuckets.info.nbucket = 0 := rfl
  refine ⟨?_, fun version name total => ?_⟩
  · simp only [List.forall_mem_cons, List.not_mem_nil, false_implies, implies_true, and_true]
    decide +kernel
  · exact total.divides 1 (vdsoSym_eq_divideByZero noBuckets.valid none)

end LinuxDoc.Vdso
