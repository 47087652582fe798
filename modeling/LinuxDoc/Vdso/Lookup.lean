import LinuxDoc.Vdso.Parser

/-! Symbol lookup is exact on well-formed images.
An image is described by its tables; the parser's walks over memory are shown to find what
a search of those tables finds.
-/

namespace LinuxDoc.Vdso

open Foundations Foundations.Loop Target

variable {target : Target}

deriving instance DecidableEq for CString

/-- The tables of a mapped image: the two segments that locate them, the run-time address
of each, the symbols on each bucket chain, the version definitions, and the names that
symbols and definitions have in the string table.
-/
structure ElfImage (target : Target) where
  base : target.Addr
  loadSegment : Phdr target
  dynamicSegment : Phdr target
  dynamicCount : Nat
  symstrings : target.Addr
  symtab : target.Addr
  hash : target.Addr
  versym : Option target.Addr
  verdef : Option target.Addr
  chains : Nat → List (BitVec 32)
  symbolName : BitVec 32 → CString
  versionDefs : List target.Addr
  versionName : target.Addr → CString

namespace ElfImage

variable (image : ElfImage target) (mem : target.Memory)

def loadOffset : target.Addr :=
  image.base + image.loadSegment.pOffset - image.loadSegment.pVaddr

def dyn : target.Addr :=
  image.base + image.dynamicSegment.pOffset

def nbucket : BitVec 32 := wordAt mem image.hash 0
def nchain : BitVec 32 := wordAt mem image.hash 1
def bucketHead (bucket : Nat) : BitVec 32 := wordAt mem image.hash (2 + bucket)
def chainNext (i : BitVec 32) : BitVec 32 :=
  wordAt mem image.hash ((image.nbucket mem + 2).toNat + i.toNat)

def IsSymbol (i : BitVec 32) : Prop :=
  i ≠ 0 ∧ i.toNat < (image.nchain mem).toNat

def symbolHash (i : BitVec 32) : Nat :=
  (elfHash target.bits.width (image.symbolName i).bytes).toNat

def dynamicEntries : List (Dyn target) :=
  (List.range image.dynamicCount).map (dynEntry mem image.dyn)

def dynamicPointer (tag : target.Addr) : Option target.Addr :=
  (((image.dynamicEntries mem).filter (fun entry => entry.dTag == tag)).getLast?).map
    (fun entry => entry.dPtr + image.loadOffset)

def symbolLink (i : BitVec 32) : Option (BitVec 32) :=
  if i = 0 then none else some i

def versionLink (entry : target.Addr) : Option target.Addr :=
  if (verdefAt mem entry).vdNext = 0 then none
  else some (entry + extend (verdefAt mem entry).vdNext)

/-- The version definitions form an acyclic list with distinct non-base indices, and each
carries the hash of its name.
-/
structure VersionsWellFormed (verdef : target.Addr) : Prop where
  listed : Trail (versionLink mem) (some verdef) image.versionDefs
  named
    : ∀ entry ∈ image.versionDefs,
        HoldsString (stringAt mem image.symstrings (vdaName mem entry))
          (image.versionName entry).bytes
  hashed
    : ∀ entry ∈ image.versionDefs,
        (verdefAt mem entry).vdHash
          = (elfHash target.bits.width (image.versionName entry).bytes).setWidth 32
  distinct
    : ∀ left ∈ image.versionDefs,
        ∀ right ∈ image.versionDefs,
          ∀ ver,
            definesVersion (verdefAt mem left) ver = true
            → definesVersion (verdefAt mem right) ver = true
            → left = right

/-- The memory at `base` is a well-formed image with these tables. No table is at the null
address, where nothing can be mapped.
-/
structure WellFormed : Prop where
  elfClass : eiClass mem image.base = target.bits.elfClass
  load
    : (segments mem image.base).find? (fun pt => pt.pType == ptLoad)
      = some image.loadSegment
  dynamic
    : ((segments mem image.base).filter (fun pt => pt.pType == ptDynamic)).getLast?
      = some image.dynamicSegment
  dynamicEnd : (dynEntry mem image.dyn image.dynamicCount).dTag = dtNull
  dynamicOpen : ∀ i < image.dynamicCount, (dynEntry mem image.dyn i).dTag ≠ dtNull
  strtab : image.dynamicPointer mem dtStrtab = some image.symstrings
  symtab : image.dynamicPointer mem dtSymtab = some image.symtab
  hash : image.dynamicPointer mem dtHash = some image.hash
  versym : image.dynamicPointer mem dtVersym = image.versym
  verdef : image.dynamicPointer mem dtVerdef = image.verdef
  mapped
    : 0 ∉ [image.dyn, image.symstrings, image.symtab, image.hash]
          ++ image.versym.toList ++ image.verdef.toList
  nbucketPos : 0 < (image.nbucket mem).toNat
  chained
    : ∀ bucket < (image.nbucket mem).toNat,
        Trail (fun i => symbolLink (image.chainNext mem i))
          (symbolLink (image.bucketHead mem bucket)) (image.chains bucket)
  chainExact
    : ∀ bucket < (image.nbucket mem).toNat,
        ∀ i,
          i ∈ image.chains bucket
          ↔ image.IsSymbol mem i
            ∧ image.symbolHash i % (image.nbucket mem).toNat = bucket
  symbolNamed
    : ∀ i,
        image.IsSymbol mem i
        → HoldsString (stringAt mem image.symstrings (symbol mem image.symtab i).stName)
            (image.symbolName i).bytes
  versions
    : ∀ verdef,
        image.versym.isSome → image.verdef = some verdef
        → image.VersionsWellFormed mem verdef

def versionNamed (ver : BitVec 16) (version : CString) : Bool :=
  image.versionDefs.any
    (fun entry =>
      definesVersion (verdefAt mem entry) ver && image.versionName entry == version)

def versionOk (version : CString) (i : BitVec 32) : Bool :=
  match image.versym, image.verdef with
  | some versym, some _ =>
      image.versionNamed mem (versymAt mem versym i &&& 0x7fff) version
  | _, _ => true

/-- The symbol is a defined global or weak function of this name and version. -/
def provides (version name : CString) (i : BitVec 32) : Bool :=
  let sym := symbol mem image.symtab i
  isFunc sym.stInfo && isGlobalOrWeak sym.stInfo && sym.stShndx != 0
    && image.symbolName i == name && image.versionOk mem version i

def firstProvider (version name : CString) : Option (BitVec 32) :=
  (image.chains
    ((elfHash target.bits.width name.bytes).toNat % (image.nbucket mem).toNat)).find?
    (image.provides mem version name)

def addressOf (i : BitVec 32) : target.Addr :=
  image.loadOffset + (symbol mem image.symtab i).stValue

end ElfImage

-- Initialisation finds the tables

@[simp] theorem plus_plus (address : target.Addr) (m n : Nat)
    : plus (plus address m) n = plus address (m + n) := by
  simp only [plus, BitVec.add_assoc, BitVec.ofNat_add]

theorem wordAt_plus (mem : target.Memory) (words : target.Addr) (skip i : Nat)
    : wordAt mem (plus words (4 * skip)) i = wordAt mem words (skip + i) := by
  simp only [wordAt, plus_plus, Nat.mul_add]

/-- The segment loop keeps the first `PT_LOAD` and the last `PT_DYNAMIC`. -/
theorem scanSegments_spec (base : target.Addr) (pts : List (Phdr target))
    (offset : target.Addr)
    : let scan := pts.foldl (scanSegment base) ⟨false, offset, 0⟩
      scan.foundVaddr = (pts.find? (fun pt => pt.pType == ptLoad)).isSome
      ∧ scan.loadOffset
        = ((pts.find? (fun pt => pt.pType == ptLoad)).map
            (fun pt => base + pt.pOffset - pt.pVaddr)).getD offset
      ∧ scan.dyn
        = (((pts.filter (fun pt => pt.pType == ptDynamic)).getLast?).map
            (fun pt => base + pt.pOffset)).getD 0 := by
  have first := foldl_first SegmentScan.foundVaddr SegmentScan.loadOffset (scanSegment base)
    (fun pt => pt.pType == ptLoad) (fun pt => base + pt.pOffset - pt.pVaddr)
    (by
      intro scan pt
      simp only [scanSegment]
      split
      · simp_all
      · split <;> cases h : scan.foundVaddr <;> simp_all)
    (by
      intro scan pt
      simp only [scanSegment]
      split
      · simp_all
      · split <;> cases h : scan.foundVaddr <;> simp_all)
    pts ⟨false, offset, 0⟩ rfl
  have last := foldl_last SegmentScan.dyn (scanSegment base)
    (fun pt => pt.pType == ptDynamic) (fun pt => base + pt.pOffset)
    (by
      intro scan pt
      simp only [scanSegment]
      split
      · rename_i loads
        have other : pt.pType ≠ ptDynamic := by rw [loads.1]; decide
        simp [other]
      · split <;> simp_all)
    pts ⟨false, offset, 0⟩
  exact ⟨first.1, first.2, last⟩

/-- The dynamic table and the load offset of an image, if initialisation gets past the
segments: the class is right, and a `PT_LOAD` and a mapped `PT_DYNAMIC` segment are there.
-/
def locateDynamic (mem : target.Memory) (base : target.Addr)
    : Option (target.Addr × target.Addr) :=
  if eiClass mem base ≠ target.bits.elfClass then
    none
  else
    match (segments mem base).find? (fun pt => pt.pType == ptLoad),
      ((segments mem base).filter (fun pt => pt.pType == ptDynamic)).getLast? with
    | some load, some dynamic =>
        if base + dynamic.pOffset = 0 then none
        else some (base + dynamic.pOffset, base + load.pOffset - load.pVaddr)
    | _, _ => none

/-- An image without a dynamic table to read leaves `vdso_info` invalid. -/
theorem init_unlocated {mem : target.Memory} {base : target.Addr}
    (missing : locateDynamic mem base = none) (info : VdsoInfo target) (fuel : Nat)
    : ∃ failed,
        vdsoInitFromSysinfoEhdr mem base info fuel = some failed ∧ failed.valid = false := by
  obtain ⟨found, _, dyn⟩ := scanSegments_spec base (segments mem base) info.loadOffset
  by_cases wrongClass : eiClass mem base ≠ target.bits.elfClass
  · exact ⟨{ info with valid := false, loadAddr := base }, if_pos wrongClass, rfl⟩
  · simp only [locateDynamic, wrongClass, if_false] at missing
    simp only [vdsoInitFromSysinfoEhdr, wrongClass, if_false, found, dyn]
    cases load : (segments mem base).find? (fun pt => pt.pType == ptLoad) with
    | none => exact ⟨_, if_pos (.inl rfl), rfl⟩
    | some pt =>
        cases dynamic
          : ((segments mem base).filter (fun pt => pt.pType == ptDynamic)).getLast? with
        | none => exact ⟨_, if_pos (.inr rfl), rfl⟩
        | some segment =>
            have null : base + segment.pOffset = 0 := by
              simpa [load, dynamic] using missing
            exact ⟨_, if_pos (.inr null), rfl⟩

/-- Once the dynamic table is located, its scan decides the rest. -/
theorem init_located {mem : target.Memory} {base dyn loadOffset : target.Addr}
    (located : locateDynamic mem base = some (dyn, loadOffset)) (info : VdsoInfo target)
    (fuel : Nat)
    : vdsoInitFromSysinfoEhdr mem base info fuel
      = (scanDynamic mem dyn loadOffset fuel).map
          (finishInit mem { info with valid := false, loadAddr := base, loadOffset }) := by
  obtain ⟨found, offset, table⟩ := scanSegments_spec base (segments mem base) info.loadOffset
  have rightClass : ¬ eiClass mem base ≠ target.bits.elfClass := by
    intro wrongClass
    simp [locateDynamic, wrongClass] at located
  simp only [locateDynamic, rightClass, if_false] at located
  cases load : (segments mem base).find? (fun pt => pt.pType == ptLoad) with
  | none => simp [load] at located
  | some pt =>
      cases dynamic : ((segments mem base).filter (fun pt => pt.pType == ptDynamic)).getLast? with
      | none => simp [load, dynamic] at located
      | some segment =>
          have present : base + segment.pOffset ≠ 0 := by
            intro null
            simp [load, dynamic, null] at located
          obtain ⟨rfl, rfl⟩
              : base + segment.pOffset = dyn ∧ base + pt.pOffset - pt.pVaddr = loadOffset := by
            rw [load, dynamic] at located
            simpa only [if_neg present, Option.some.injEq, Prod.mk.injEq] using located
          rw [load] at found offset
          rw [dynamic] at table
          simp only [Option.map_some, Option.getD_some, Option.isSome_some] at found offset table
          simp only [vdsoInitFromSysinfoEhdr, rightClass, if_false, found, offset, table, present,
            Bool.true_eq_false, or_self]

theorem dynamicTags_nodup (target : Target)
    : [(dtStrtab : target.Addr), dtSymtab, dtHash, dtVersym, dtVerdef].Nodup := by
  rcases target with ⟨bits, endian⟩
  cases bits <;> cases endian <;> decide

/-- Each tag overwrites its own pointer and no other. -/
theorem scanDynamicEntry_spec (loadOffset : target.Addr) (scan : DynamicScan target)
    (entry : Dyn target)
    : let next := scanDynamicEntry loadOffset scan entry
      let pointer := entry.dPtr + loadOffset
      next.symstrings = (if entry.dTag == dtStrtab then pointer else scan.symstrings)
      ∧ next.symtab = (if entry.dTag == dtSymtab then pointer else scan.symtab)
      ∧ next.hash = (if entry.dTag == dtHash then pointer else scan.hash)
      ∧ next.versym = (if entry.dTag == dtVersym then pointer else scan.versym)
      ∧ next.verdef = (if entry.dTag == dtVerdef then pointer else scan.verdef) := by
  have distinct := dynamicTags_nodup target
  simp only [List.nodup_cons, List.mem_cons, List.not_mem_nil, or_false, not_or] at distinct
  simp only [scanDynamicEntry, beq_iff_eq]
  split_ifs <;> simp_all

def taggedPointer (loadOffset : target.Addr) (entries : List (Dyn target)) (tag : target.Addr)
    : Option target.Addr :=
  ((entries.filter (fun entry => entry.dTag == tag)).getLast?).map
    (fun entry => entry.dPtr + loadOffset)

/-- Folding the dynamic entries keeps the last pointer of each tag. -/
theorem scanDynamicEntries_eq (loadOffset : target.Addr) (entries : List (Dyn target))
    : entries.foldl (scanDynamicEntry loadOffset) ⟨0, 0, 0, 0, 0⟩
      = {
          symstrings := (taggedPointer loadOffset entries dtStrtab).getD 0
          symtab := (taggedPointer loadOffset entries dtSymtab).getD 0
          hash := (taggedPointer loadOffset entries dtHash).getD 0
          versym := (taggedPointer loadOffset entries dtVersym).getD 0
          verdef := (taggedPointer loadOffset entries dtVerdef).getD 0
        } := by
  have lastOf (field : DynamicScan target → target.Addr) (tag : target.Addr)
      (update : ∀ scan entry, field (scanDynamicEntry loadOffset scan entry)
        = if entry.dTag == tag then entry.dPtr + loadOffset else field scan)
      : field (entries.foldl (scanDynamicEntry loadOffset) ⟨0, 0, 0, 0, 0⟩)
        = (taggedPointer loadOffset entries tag).getD (field ⟨0, 0, 0, 0, 0⟩) :=
    foldl_last field _ _ _ update _ _
  have spec := scanDynamicEntry_spec loadOffset
  exact DynamicScan.ext
    (lastOf DynamicScan.symstrings dtStrtab (fun s e => (spec s e).1))
    (lastOf DynamicScan.symtab dtSymtab (fun s e => (spec s e).2.1))
    (lastOf DynamicScan.hash dtHash (fun s e => (spec s e).2.2.1))
    (lastOf DynamicScan.versym dtVersym (fun s e => (spec s e).2.2.2.1))
    (lastOf DynamicScan.verdef dtVerdef (fun s e => (spec s e).2.2.2.2))

/-- The dynamic loop keeps the last entry of each tag, up to `DT_NULL`. -/
theorem scanDynamic_returns (mem : target.Memory) (dyn loadOffset : target.Addr)
    (count : Nat) (ends : (dynEntry mem dyn count).dTag = dtNull)
    (isOpen : ∀ i < count, (dynEntry mem dyn i).dTag ≠ dtNull)
    : Returns (scanDynamic mem dyn loadOffset)
        (((List.range count).map (dynEntry mem dyn)).foldl (scanDynamicEntry loadOffset)
          ⟨0, 0, 0, 0, 0⟩) := by
  -- From index `i` on, the loop folds the entries that are left.
  have settles : ∀ left i scan, i + left = count
      → Settles (fun _ => scanDynamicPass mem dyn loadOffset) (i, scan)
          (((List.range' i left).map (dynEntry mem dyn)).foldl
            (scanDynamicEntry loadOffset) scan) := by
    intro left
    induction left with
    | zero =>
        intro i scan position
        have final : (dynEntry mem dyn i).dTag = dtNull := by
          rw [show i = count by omega]
          exact ends
        exact .leave (.const (fun _ => by simp [scanDynamicPass, final]))
    | succ left ih =>
        intro i scan position
        have inside := isOpen i (by omega)
        have pass : scanDynamicPass mem dyn loadOffset (i, scan)
            = some (.again (i + 1, scanDynamicEntry loadOffset scan (dynEntry mem dyn i))) := by
          simp [scanDynamicPass, inside]
        refine .again (.const (fun _ => pass)) ?_
        simpa only [List.range'_succ, List.map_cons, List.foldl_cons]
          using ih (i + 1) _ (by omega)
  rw [List.range_eq_range']
  exact (settles count 0 _ (by omega)).returns

namespace ElfImage

variable {image : ElfImage target} {mem : target.Memory}

def loaded (image : ElfImage target) (mem : target.Memory) : VdsoInfo target :=
  {
    valid := true
    loadAddr := image.base
    loadOffset := image.loadOffset
    symtab := image.symtab
    symstrings := image.symstrings
    bucket := plus image.hash (4 * 2)
    chain := plus image.hash (4 * (image.nbucket mem + 2).toNat)
    nbucket := image.nbucket mem
    nchain := image.nchain mem
    versym := if image.verdef = none then 0 else image.versym.getD 0
    verdef := image.verdef.getD 0
  }

/-- The dynamic loop ends with the pointers that the image's tables are at. -/
theorem WellFormed.scanDynamic_returns (wf : image.WellFormed mem)
    : Returns (scanDynamic mem image.dyn image.loadOffset)
        {
          symstrings := image.symstrings
          symtab := image.symtab
          hash := image.hash
          versym := image.versym.getD 0
          verdef := image.verdef.getD 0
        } := by
  have returned := Vdso.scanDynamic_returns mem image.dyn image.loadOffset image.dynamicCount
    wf.dynamicEnd wf.dynamicOpen
  have pointer (tag : target.Addr)
      : taggedPointer image.loadOffset
          ((List.range image.dynamicCount).map (dynEntry mem image.dyn)) tag
        = image.dynamicPointer mem tag := rfl
  simpa only [scanDynamicEntries_eq, pointer, wf.strtab, wf.symtab, wf.hash, wf.versym,
    wf.verdef, Option.getD_some] using returned

theorem WellFormed.ne_null (wf : image.WellFormed mem) (table : target.Addr)
    (member
      : table ∈ [image.dyn, image.symstrings, image.symtab, image.hash]
          ++ image.versym.toList ++ image.verdef.toList)
    : table ≠ 0 := by
  intro null
  exact wf.mapped (null ▸ member)

/-- Initialisation succeeds on a well-formed image, whatever `vdso_info` held before. -/
theorem WellFormed.init_returns (wf : image.WellFormed mem) (info : VdsoInfo target)
    : Returns (vdsoInitFromSysinfoEhdr mem image.base info) (image.loaded mem) := by
  have dynMapped := wf.ne_null image.dyn (by simp)
  have located : locateDynamic mem image.base = some (image.dyn, image.loadOffset) := by
    simp only [locateDynamic, wf.elfClass, wf.load, wf.dynamic, ne_eq, not_true_eq_false,
      if_false]
    exact if_neg dynMapped
  have stringsMapped := wf.ne_null image.symstrings (by simp)
  have symtabMapped := wf.ne_null image.symtab (by simp)
  have hashMapped := wf.ne_null image.hash (by simp)
  have returned := wf.scanDynamic_returns.map
    (finishInit mem
      { info with valid := false, loadAddr := image.base, loadOffset := image.loadOffset })
  have verdefNull : image.verdef.getD 0 = 0 ↔ image.verdef = none := by
    cases present : image.verdef with
    | none => simp
    | some verdef => simpa [present] using wf.ne_null verdef (by simp [present])
  have finished : finishInit mem
      { info with valid := false, loadAddr := image.base, loadOffset := image.loadOffset }
      ⟨image.symstrings, image.symtab, image.hash, image.versym.getD 0, image.verdef.getD 0⟩
      = image.loaded mem := by
    simp only [finishInit, loaded, stringsMapped, symtabMapped, hashMapped, verdefNull,
      or_self, if_false, nbucket, nchain]
  rw [finished] at returned
  rw [show vdsoInitFromSysinfoEhdr mem image.base info = _ from
    funext (init_located located info)]
  exact returned

-- Version matching and the chain walk

/-- Comparing with a stored name decides whether it is the name. -/
theorem equalString_eq_beq {bytes : Nat → UInt8} {stored : CString}
    (holds : HoldsString bytes stored.bytes) (name : CString)
    : equalString name.bytes bytes = (stored == name) := by
  rw [Bool.eq_iff_iff, equalString_iff, beq_iff_eq]
  exact ⟨fun named => holds.unique named, fun same => same ▸ holds⟩

variable {verdef : target.Addr}

/-- A definition's recorded hash never contradicts its name, so the hash test of
`vdso_match_version` changes nothing.
-/
theorem VersionsWellFormed.verdict (versions : image.VersionsWellFormed mem verdef)
    {entry : target.Addr} (member : entry ∈ image.versionDefs) (version : CString)
    : ((verdefAt mem entry).vdHash
            == (elfHash target.bits.width version.bytes).setWidth 32
          && equalString version.bytes
              (stringAt mem image.symstrings (vdaName mem entry)))
      = (image.versionName entry == version) := by
  rw [equalString_eq_beq (versions.named entry member), versions.hashed entry member]
  by_cases same : image.versionName entry = version <;> simp [same]

/-- With distinct indices, the verdict on the first definition of an index is the verdict
on all of them.
-/
theorem VersionsWellFormed.findSome?_eq (versions : image.VersionsWellFormed mem verdef)
    (ver : BitVec 16) (version : CString)
    : (image.versionDefs.findSome?
        (fun entry =>
          if definesVersion (verdefAt mem entry) ver then
            some (image.versionName entry == version)
          else none)).getD false
      = image.versionNamed mem ver version := by
  rw [findSome?_guard, versionNamed]
  cases first : image.versionDefs.find? (fun entry => definesVersion (verdefAt mem entry) ver)
    with
  | none =>
      have absent := List.find?_eq_none.mp first
      symm
      rw [Option.map_none, Option.getD_none, List.any_eq_false]
      intro entry member
      simp [absent entry member]
  | some entry =>
      have defines := List.find?_some first
      have member := List.mem_of_find?_eq_some first
      rw [Option.map_some, Option.getD_some, Bool.eq_iff_iff, List.any_eq_true]
      constructor
      · intro named
        exact ⟨entry, member, by simpa [defines] using named⟩
      · intro h
        rcases h with ⟨other, otherMember, accepted⟩
        rw [Bool.and_eq_true] at accepted
        have same := versions.distinct entry member other otherMember ver defines accepted.1
        exact same ▸ accepted.2

/-- The search along the definition list settles on the verdict of the first definition
with the index, and on `false` past the last one.
-/
theorem VersionsWellFormed.matchVersion_settles (versions : image.VersionsWellFormed mem verdef)
    (info : VdsoInfo target) (strings : info.symstrings = image.symstrings) (ver : BitVec 16)
    (version : CString)
    : Settles
        (fun _ => matchVersionPass mem info ver version
          ((elfHash target.bits.width version.bytes).setWidth 32))
        verdef
        ((image.versionDefs.findSome?
          (fun entry =>
            if definesVersion (verdefAt mem entry) ver then
              some (image.versionName entry == version)
            else none)).getD false) := by
  refine versions.listed.search _ false
    (fun position result =>
      position.elim (result = false)
        (fun entry =>
          Settles
            (fun _ => matchVersionPass mem info ver version
              ((elfHash target.bits.width version.bytes).setWidth 32))
            entry result))
    rfl ?_ ?_
  · intro entry member result judged
    have verdict := versions.verdict member version
    split at judged
    next defines =>
      refine .leave (.const (fun _ => ?_))
      rw [matchVersionPass, if_pos defines, strings, verdict, Option.some.inj judged]
    · cases judged
  · intro entry member result judged rest
    split at judged
    · cases judged
    next other =>
      by_cases final : (verdefAt mem entry).vdNext = 0
      · simp only [versionLink, final, if_true, Option.elim_none] at rest
        refine .leave (.const (fun _ => ?_))
        rw [matchVersionPass, if_neg other, if_pos final, rest]
      · simp only [versionLink, final, if_false, Option.elim_some] at rest
        refine .again (.const (fun _ => ?_)) rest
        rw [matchVersionPass, if_neg other, if_neg final]

/-- `vdso_match_version` decides whether a non-base definition with this index has the
wanted name. Indices are distinct, so the first definition with the index is the only one.
-/
theorem VersionsWellFormed.matchVersion_returns (versions : image.VersionsWellFormed mem verdef)
    (info : VdsoInfo target) (strings : info.symstrings = image.symstrings)
    (defs : info.verdef = verdef) (ver : BitVec 16) (version : CString)
    : Returns
        (vdsoMatchVersion mem info ver version
          ((elfHash target.bits.width version.bytes).setWidth 32))
        (image.versionNamed mem (ver &&& 0x7fff) version) := by
  have searched := versions.matchVersion_settles info strings (ver &&& 0x7fff) version
  rw [versions.findSome?_eq, ← defs] at searched
  exact searched.returns

theorem symbolLink_getD (i : BitVec 32) : (symbolLink i).getD 0 = i := by
  by_cases ended : i = 0
  · rw [symbolLink, if_pos ended, Option.getD_none, ended]
  · rw [symbolLink, if_neg ended, Option.getD_some]

theorem loaded_versym_ne_zero_iff (wf : image.WellFormed mem)
    : (image.loaded mem).versym ≠ 0 ↔ image.versym.isSome ∧ image.verdef.isSome := by
  cases versym : image.versym with
  | none => simp [loaded, versym]
  | some table =>
      cases verdef : image.verdef with
      | none => simp [loaded, verdef]
      | some defs => simpa [loaded, versym, verdef] using wf.ne_null table (by simp [versym])

/-- The checks before the version are those of `provides`. -/
theorem WellFormed.isNamedFunction_eq (wf : image.WellFormed mem) (name : CString)
    {i : BitVec 32} (isSymbol : image.IsSymbol mem i)
    : isNamedFunction mem (image.loaded mem).symstrings name
        (symbol mem (image.loaded mem).symtab i)
      = (isFunc (symbol mem image.symtab i).stInfo
          && isGlobalOrWeak (symbol mem image.symtab i).stInfo
          && (symbol mem image.symtab i).stShndx != 0 && image.symbolName i == name) := by
  rw [isNamedFunction]
  exact congrArg _ (equalString_eq_beq (wf.symbolNamed i isSymbol) name)

/-- With both version tables present, the match of a symbol's version returns whether the
symbol's version is accepted.
-/
theorem WellFormed.versionOk_returns (wf : image.WellFormed mem) (version : CString)
    (i : BitVec 32) (versioned : (image.loaded mem).versym ≠ 0)
    : Returns
        (vdsoMatchVersion mem (image.loaded mem)
          (versymAt mem (image.loaded mem).versym i) version
          ((elfHash target.bits.width version.bytes).setWidth 32))
        (image.versionOk mem version i) := by
  obtain ⟨hasVersym, hasVerdef⟩ := (loaded_versym_ne_zero_iff wf).mp versioned
  obtain ⟨versym, versymEq⟩ := Option.isSome_iff_exists.mp hasVersym
  obtain ⟨verdef, verdefEq⟩ := Option.isSome_iff_exists.mp hasVerdef
  have table : (image.loaded mem).versym = versym := by
    simp [loaded, versymEq, verdefEq]
  have accepted : image.versionOk mem version i
      = image.versionNamed mem (versymAt mem versym i &&& 0x7fff) version := by
    simp only [versionOk, versymEq, verdefEq]
  rw [table, accepted]
  exact (wf.versions verdef hasVersym verdefEq).matchVersion_returns (image.loaded mem) rfl
    (by simp [loaded, verdefEq]) (versymAt mem versym i) version

/-- A pass over the hash chain leaves with the address of a providing symbol and moves on
from any other.
-/
theorem WellFormed.symPass_returns (wf : image.WellFormed mem) (version name : CString)
    {i : BitVec 32} (isSymbol : image.IsSymbol mem i)
    : Returns (fun fuel => symPass mem (image.loaded mem) version name fuel i)
        (if image.provides mem version name i then .leave (.ok (image.addressOf mem i))
        else .again (image.chainNext mem i)) := by
  have next : wordAt mem (image.loaded mem).chain i.toNat = image.chainNext mem i :=
    wordAt_plus mem image.hash _ _
  have named := wf.isNamedFunction_eq name isSymbol
  cases wanted : isNamedFunction mem (image.loaded mem).symstrings name
      (symbol mem (image.loaded mem).symtab i) with
  | false =>
      have refused : image.provides mem version name i = false := by
        rw [provides, ← named, wanted, Bool.false_and]
      refine .const (fun fuel => ?_)
      simp only [symPass, isSymbol.1, wanted, if_true, if_false, refused, next,
        Bool.false_eq_true]
  | true =>
      have decided : image.provides mem version name i = image.versionOk mem version i := by
        rw [provides, ← named, wanted, Bool.true_and]
      by_cases unversioned : (image.loaded mem).versym = 0
      · have absent := mt (loaded_versym_ne_zero_iff wf).mpr (not_not.mpr unversioned)
        have accepted : image.versionOk mem version i = true := by
          cases versym : image.versym <;> cases verdef : image.verdef <;>
            simp_all [versionOk]
        refine .const (fun fuel => ?_)
        simp only [symPass, isSymbol.1, wanted, if_true, if_false, unversioned, decided,
          accepted, Bool.true_eq_false]
        rfl
      · have unfolded (fuel : Nat)
            : symPass mem (image.loaded mem) version name fuel i
              = (vdsoMatchVersion mem (image.loaded mem)
                  (versymAt mem (image.loaded mem).versym i) version
                  ((elfHash target.bits.width version.bytes).setWidth 32) fuel).map
                  (fun accepted : Bool =>
                    if accepted then .leave (.ok (image.addressOf mem i))
                    else .again (image.chainNext mem i)) := by
          simp only [symPass, isSymbol.1, wanted, if_false, unversioned, next,
            Bool.true_eq_false]
          rfl
        rw [decided]
        simpa only [unfolded] using (wf.versionOk_returns version i unversioned).map
          (fun accepted : Bool =>
            if accepted then
              Pass.leave (Except.ok (image.addressOf mem i) : Except Fault target.Addr)
            else .again (image.chainNext mem i))

/-- On an initialised parser `vdso_sym` walks the chain whose head is the bucket of the
name's hash.
-/
theorem WellFormed.vdsoSym_loaded (wf : image.WellFormed mem) (version name : CString)
    : vdsoSym mem (image.loaded mem) version name
      = fun fuel =>
          run (symPass mem (image.loaded mem) version name fuel) fuel
            (image.bucketHead mem
              ((elfHash target.bits.width name.bytes).toNat % (image.nbucket mem).toNat)) := by
  funext fuel
  have some : image.nbucket mem ≠ 0 := by
    intro zero
    have positive := wf.nbucketPos
    simp [zero] at positive
  rw [bucketHead, ← wordAt_plus]
  simp only [vdsoSym, loaded, some, if_false, Bool.true_eq_false]

/-- The chain walk settles on the first providing symbol of its chain, or on the null
pointer. Witness: a search along the bucket's chain.
-/
theorem WellFormed.sym_returns (wf : image.WellFormed mem) (version name : CString)
    : Returns (vdsoSym mem (image.loaded mem) version name)
        (.ok (((image.firstProvider mem version name).map (image.addressOf mem)).getD 0)) := by
  have index : (elfHash target.bits.width name.bytes).toNat % (image.nbucket mem).toNat
      < (image.nbucket mem).toNat := Nat.mod_lt _ wf.nbucketPos
  have searched := (wf.chained _ index).search
    (fun i =>
      if image.provides mem version name i then
        some (Except.ok (image.addressOf mem i) : Except Fault target.Addr)
      else none)
    (.ok 0)
    (fun position result =>
      Settles (fun fuel => symPass mem (image.loaded mem) version name fuel)
        (position.getD 0) result)
    (.leave (.const (fun fuel => by simp [symPass])))
    (by
      intro i member result judged
      have pass := wf.symPass_returns version name ((wf.chainExact _ index i).mp member).1
      split at judged
      · rename_i provided
        rw [if_pos provided, Option.some.inj judged] at pass
        exact .leave pass
      · cases judged)
    (by
      intro i member result judged rest
      have pass := wf.symPass_returns version name ((wf.chainExact _ index i).mp member).1
      split at judged
      · cases judged
      · rename_i refused
        rw [if_neg refused] at pass
        rw [symbolLink_getD] at rest
        exact .again pass rest)
  rw [findSome?_guard, ← firstProvider, symbolLink_getD] at searched
  have value : (((image.firstProvider mem version name).map
        (fun i => (Except.ok (image.addressOf mem i) : Except Fault target.Addr))).getD (.ok 0))
      = .ok (((image.firstProvider mem version name).map (image.addressOf mem)).getD 0) := by
    cases image.firstProvider mem version name <;> rfl
  rw [wf.vdsoSym_loaded, ← value]
  exact searched.returns

def WellFormed.symbolTable (wf : image.WellFormed mem) : ChainedTable (BitVec 32) where
  member := image.IsSymbol mem
  hash := image.symbolHash
  nbucket := (image.nbucket mem).toNat
  nonempty := wf.nbucketPos
  chains := image.chains
  exact := wf.chainExact

/-- One chain decides for the whole symbol table: a providing symbol has the name that
selects the chain.
-/
theorem WellFormed.firstProvider_eq_none_iff (wf : image.WellFormed mem)
    (version name : CString)
    : image.firstProvider mem version name = none
      ↔ ∀ i, image.IsSymbol mem i → image.provides mem version name i = false := by
  refine wf.symbolTable.find?_eq_none_iff (image.provides mem version name)
    (elfHash target.bits.width name.bytes).toNat ?_
  intro i provided
  simp only [provides, Bool.and_eq_true, beq_iff_eq] at provided
  exact congrArg (fun text : CString => (elfHash target.bits.width text.bytes).toNat)
    provided.1.2

end ElfImage

/-- After initialisation from a well-formed image, `vdso_sym` returns the address of the first
providing symbol on the chain of the name. It returns null exactly when no symbol of the whole table
provides the name and version, or when the provider's address is null. From the runs of the two
functions (`init_returns`, `sym_returns`).
-/
theorem vdsoSym_exact (image : ElfImage target) (mem : target.Memory)
    (wf : image.WellFormed mem) (info : VdsoInfo target) (version name : CString)
    : ∃ loaded result,
        Returns (vdsoInitFromSysinfoEhdr mem image.base info) loaded
        ∧ Returns (vdsoSym mem loaded version name) (.ok result)
        ∧ (∀ i, image.firstProvider mem version name = some i
            → result = image.loadOffset + (symbol mem image.symtab i).stValue)
        ∧ (image.firstProvider mem version name = none
            ↔ ∀ i, image.IsSymbol mem i → image.provides mem version name i = false)
        ∧ (result = 0
            ↔ (∀ i, image.IsSymbol mem i → image.provides mem version name i = false)
              ∨ ∃ i, image.firstProvider mem version name = some i
                  ∧ image.loadOffset + (symbol mem image.symtab i).stValue = 0) := by
  refine ⟨_, _, wf.init_returns info, wf.sym_returns version name, ?_,
    wf.firstProvider_eq_none_iff version name, ?_⟩
  · intro i first
    simp [first, ElfImage.addressOf]
  · rw [← wf.firstProvider_eq_none_iff version name]
    cases first : image.firstProvider mem version name with
    | none => simp
    | some i => simp [ElfImage.addressOf]

-- A mapped image with one versioned function

def gettimeofday : CString :=
  ⟨[103, 101, 116, 116, 105, 109, 101, 111, 102, 100, 97, 121], by decide⟩

def linux26 : CString :=
  ⟨[76, 73, 78, 85, 88, 95, 50, 46, 54], by decide⟩

/-- A 64-bit image linked at 0x1000: ELF header, two segments, dynamic table, two symbols,
strings, hash table, symbol versions, and a base and a named version definition.
-/
def sampleFields : List (Nat × Nat) :=
  [(4, 0x464c457f), (28, 2), (8, 64), (16, 0), (8, 2)]
  ++ [(8, 1), (8, 0), (40, 0x1000)] ++ [(8, 2), (8, 176), (40, 0x10b0)]
  ++ [(8, 5), (8, 0x1140), (8, 6), (8, 0x1110), (8, 4), (8, 0x1158)]
  ++ [(8, 0x6ffffff0), (8, 0x116c), (8, 0x6ffffffc), (8, 0x1170), (16, 0)]
  ++ [(24, 0), (4, 1), (1, 0x12), (1, 0), (2, 1), (16, 0x1a00)]
  ++ [(1, 0)] ++ gettimeofday.bytes.map (fun char => (1, char.toNat))
  ++ [(1, 0)] ++ linux26.bytes.map (fun char => (1, char.toNat)) ++ [(1, 0)]
  ++ [(4, 1), (4, 2), (4, 1), (8, 0)] ++ [(2, 0), (2, 2)]
  ++ [(2, 1), (2, 1), (2, 1), (2, 1), (4, 0), (4, 20), (4, 28), (8, 0)]
  ++ [(2, 1), (2, 0), (2, 2), (2, 1), (4, 0x3ae75f6), (4, 20), (4, 0), (8, 14)]

abbrev sampleTarget : Target :=
  ⟨.elf64, .little⟩

def sampleBase : sampleTarget.Addr := BitVec.ofNat 64 0x7ffff7fce000

def sampleMemory : sampleTarget.Memory :=
  fun address => fieldBytes sampleFields (address - sampleBase).toNat

def sampleImage : ElfImage sampleTarget :=
  {
    base := sampleBase
    loadSegment := ⟨1, 0, 0x1000⟩
    dynamicSegment := ⟨2, 176, 0x10b0⟩
    dynamicCount := 5
    symstrings := sampleBase + 320
    symtab := sampleBase + 272
    hash := sampleBase + 344
    versym := some (sampleBase + 364)
    verdef := some (sampleBase + 368)
    chains := fun _ => [1]
    symbolName := fun _ => gettimeofday
    versionDefs := [sampleBase + 368, sampleBase + 396]
    versionName := fun entry => if entry = sampleBase + 368 then ⟨[], by simp⟩ else linux26
  }

theorem sampleImage_isSymbol (i : BitVec 32)
    : sampleImage.IsSymbol sampleMemory i ↔ i = 1 := by
  have count : sampleImage.nchain sampleMemory = 2 := by decide +kernel
  simp only [ElfImage.IsSymbol, count]
  constructor
  · intro h
    rcases h with ⟨nonzero, small⟩
    bv_omega
  · rintro rfl
    decide

theorem sampleImage_versions
    : sampleImage.VersionsWellFormed sampleMemory (sampleBase + 368) := by
  refine ⟨?_, ?_, ?_, ?_⟩
  · have first : ElfImage.versionLink sampleMemory (sampleBase + 368)
        = some (sampleBase + 396) := by decide +kernel
    have second : ElfImage.versionLink sampleMemory (sampleBase + 396) = none := by
      decide +kernel
    refine .cons ?_
    rw [first]
    refine .cons ?_
    rw [second]
    exact .nil
  · intro entry member
    apply (equalString_iff _ _).mp
    simp only [sampleImage, List.mem_cons, List.not_mem_nil, or_false] at member
    rcases member with rfl | rfl <;> decide +kernel
  · intro entry member
    simp only [sampleImage, List.mem_cons, List.not_mem_nil, or_false] at member
    rcases member with rfl | rfl <;> decide +kernel
  · have base (ver : BitVec 16)
        : definesVersion (verdefAt sampleMemory (sampleBase + 368)) ver = false := by
      have flags : (verdefAt sampleMemory (sampleBase + 368)).vdFlags = 1 := by decide +kernel
      rw [definesVersion, flags]
      rfl
    intro left inLeft right inRight ver hl hr
    simp only [sampleImage, List.mem_cons, List.not_mem_nil, or_false] at inLeft inRight
    rcases inLeft with rfl | rfl <;> rcases inRight with rfl | rfl
    · rfl
    · exact absurd hl (by rw [base]; decide)
    · exact absurd hr (by rw [base]; decide)
    · rfl

theorem sampleImage_wellFormed : sampleImage.WellFormed sampleMemory := by
  refine {
    elfClass := by decide +kernel
    load := by decide +kernel
    dynamic := by decide +kernel
    dynamicEnd := by decide +kernel
    dynamicOpen := by decide +kernel
    strtab := by decide +kernel
    symtab := by decide +kernel
    hash := by decide +kernel
    versym := by decide +kernel
    verdef := by decide +kernel
    mapped := by decide +kernel
    nbucketPos := by decide +kernel
    chained := ?_
    chainExact := ?_
    symbolNamed := ?_
    versions := ?_
  }
  · have buckets : (sampleImage.nbucket sampleMemory).toNat = 1 := by decide +kernel
    have head : ElfImage.symbolLink (sampleImage.bucketHead sampleMemory 0) = some 1 := by
      decide +kernel
    have next : ElfImage.symbolLink (sampleImage.chainNext sampleMemory 1) = none := by
      decide +kernel
    intro bucket inside
    rw [show bucket = 0 by omega, head]
    refine .cons ?_
    rw [next]
    exact .nil
  · have buckets : (sampleImage.nbucket sampleMemory).toNat = 1 := by decide +kernel
    intro bucket inside i
    rw [sampleImage_isSymbol, buckets, Nat.mod_one, show bucket = 0 by omega]
    simp [sampleImage]
  · intro i isSymbol
    rw [sampleImage_isSymbol] at isSymbol
    subst isSymbol
    apply (equalString_iff _ _).mp
    decide +kernel
  · intro verdef _ present
    have same : verdef = sampleBase + 368 := (Option.some.inj present).symm
    exact same ▸ sampleImage_versions

/-- Looking up `gettimeofday` of `LINUX_2.6` in the sample image finds its function. -/
theorem sampleImage_lookup
    : sampleImage.WellFormed sampleMemory
      ∧ ∃ loaded,
          Returns
            (vdsoInitFromSysinfoEhdr sampleMemory sampleBase ⟨false, 0, 0, 0, 0, 0, 0, 0, 0, 0, 0⟩)
            loaded
          ∧ Returns (vdsoSym sampleMemory loaded linux26 gettimeofday)
              (.ok (sampleBase + 0xa00)) := by
  refine ⟨sampleImage_wellFormed, ?_⟩
  obtain ⟨loaded, result, initialised, found, first, -⟩ :=
    vdsoSym_exact sampleImage sampleMemory sampleImage_wellFormed
      ⟨false, 0, 0, 0, 0, 0, 0, 0, 0, 0, 0⟩ linux26 gettimeofday
  have provider : sampleImage.firstProvider sampleMemory linux26 gettimeofday = some 1 := by
    decide +kernel
  have address : sampleImage.loadOffset + (symbol sampleMemory sampleImage.symtab 1).stValue
      = sampleBase + 0xa00 := by decide +kernel
  refine ⟨loaded, initialised, ?_⟩
  rw [← address, ← first 1 provider]
  exact found

end LinuxDoc.Vdso
