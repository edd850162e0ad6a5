import DolRecomp.BigEndian
import DolRecomp.MaskedWrites

/-!
# Relocation of REL modules

`rel_apply_relocations` patches the section bytes of a loaded module. The order
of the calls for several modules, and how often each is made, does not matter.
-/

namespace DolRecomp

namespace Rel

inductive RelocationType
  | none | addr32 | addr24 | addr16 | addr16Lo | addr16Hi | addr16Ha
  | addr14 | addr14Brtaken | addr14Brntaken | rel24 | rel14
  | dolphinNop | dolphinSection | dolphinEnd | unsupported
  deriving DecidableEq, Repr

def RelocationType.ofByte (type : BitVec 8) : RelocationType :=
  match type.toNat with
  | 0 => .none
  | 1 => .addr32
  | 2 => .addr24
  | 3 => .addr16
  | 4 => .addr16Lo
  | 5 => .addr16Hi
  | 6 => .addr16Ha
  | 7 => .addr14
  | 8 => .addr14Brtaken
  | 9 => .addr14Brntaken
  | 10 => .rel24
  | 11 => .rel14
  | 201 => .dolphinNop
  | 202 => .dolphinSection
  | 203 => .dolphinEnd
  | _ => .unsupported

/-- A section; its bytes are kept apart. -/
structure RELSection where
  address : BitVec 32
  size : BitVec 32
  bss : Bool

/-- What relocation reads of a loaded file. -/
structure RELFile where
  moduleId : BitVec 32
  sections : List RELSection
  fileData : ℕ → BitVec 8
  fileSize : BitVec 32
  relocationOffset : BitVec 32
  importOffset : BitVec 32
  importSize : BitVec 32

abbrev RELModuleMap := List (BitVec 32 × RELFile)

/-- The buffers `owned_data` of the sections of a module. -/
abbrev SectionData := ℕ × ℕ → BitVec 8

def readBe16 (bytes : ℕ → BitVec 8) (offset : ℕ) : BitVec 16 :=
  (Runtime.readBe bytes offset 2).truncate 16

def readBe32 (bytes : ℕ → BitVec 8) (offset : ℕ) : BitVec 32 :=
  (Runtime.readBe bytes offset 4).truncate 32

def writeBe16 (bytes : ℕ → BitVec 8) (offset : ℕ) (value : BitVec 16) : ℕ → BitVec 8 :=
  Runtime.writeBe bytes offset 2 (value.zeroExtend 64)

def writeBe32 (bytes : ℕ → BitVec 8) (offset : ℕ) (value : BitVec 32) : ℕ → BitVec 8 :=
  Runtime.writeBe bytes offset 4 (value.zeroExtend 64)

def rangeFits (offset size total : BitVec 32) : Bool := offset ≤ total ∧ size ≤ total - offset

def addChecked (a b : BitVec 32) : Option (BitVec 32) :=
  if b.toNat > 0xFFFFFFFF - a.toNat then none else some (a + b)

def sectionAddressAt (rel : RELFile) (sectionIndex : ℕ) (offset : BitVec 32) :
    Option (BitVec 32) := do
  let sec ← rel.sections[sectionIndex]?
  if sec.size = 0 ∨ offset > sec.size then none else addChecked sec.address offset

def findModule (modules : RELModuleMap) (moduleId : BitVec 32) : Option RELFile :=
  (modules.find? fun entry => entry.1 == moduleId).map (·.2)

def relocationTarget (rel : RELFile) (modules : RELModuleMap) (importModule : BitVec 32)
    (sectionIndex : ℕ) (symbolOffset : BitVec 32) : Option (BitVec 32) :=
  if importModule = 0 then some symbolOffset
  else if importModule ≠ rel.moduleId then do
    let imported ← findModule modules importModule
    sectionAddressAt imported sectionIndex symbolOffset
  else sectionAddressAt rel sectionIndex symbolOffset

def RELSection.hasFileData (sec : RELSection) : Bool := sec.size ≠ 0 && !sec.bss

def requirePatchRange (sec : RELSection) (offset patchSize : BitVec 32) : Bool :=
  sec.hasFileData && offset ≤ sec.size && patchSize ≤ sec.size - offset

def RelocationType.patchSize : RelocationType → BitVec 32
  | .addr16 | .addr16Lo | .addr16Hi | .addr16Ha => 2
  | _ => 4

def checkRelDelta (delta : BitVec 32) (min max : ℤ) : Bool :=
  delta &&& 3#32 = 0 ∧ min ≤ delta.toInt ∧ delta.toInt ≤ max

/-- Replace the bits of a word that `keep` leaves out. -/
def patchWord (bytes : ℕ → BitVec 8) (offset : ℕ) (keep bits : BitVec 32) : ℕ → BitVec 8 :=
  writeBe32 bytes offset ((readBe32 bytes offset &&& keep) ||| bits)

def applyRelocation (sec : RELSection) (bytes : ℕ → BitVec 8) (offset patchAddress : BitVec 32)
    (type : RelocationType) (target : BitVec 32) : Option (ℕ → BitVec 8) :=
  let patch := offset.toNat
  if type = .none then some bytes
  else if !requirePatchRange sec offset type.patchSize then none
  else
    match type with
    | .addr32 => some (writeBe32 bytes patch target)
    | .addr24 =>
      if target &&& 3#32 ≠ 0 then none
      else some (patchWord bytes patch 0xFC000003#32 (target &&& 0x03FFFFFC#32))
    | .addr16 | .addr16Lo => some (writeBe16 bytes patch (target.truncate 16))
    | .addr16Hi => some (writeBe16 bytes patch ((target >>> 16).truncate 16))
    | .addr16Ha => some (writeBe16 bytes patch (((target + 0x8000#32) >>> 16).truncate 16))
    | .addr14 | .addr14Brtaken | .addr14Brntaken =>
      if target &&& 3#32 ≠ 0 then none
      else some (patchWord bytes patch 0xFFFF0003#32 (target &&& 0x0000FFFC#32))
    | .rel24 =>
      let delta := target - patchAddress
      if checkRelDelta delta (-0x02000000) 0x01FFFFFC then
        some (patchWord bytes patch 0xFC000003#32 (delta &&& 0x03FFFFFC#32))
      else none
    | .rel14 =>
      let delta := target - patchAddress
      if checkRelDelta delta (-0x8000) 0x7FFC then
        some (patchWord bytes patch 0xFFFF0003#32 (delta &&& 0x0000FFFC#32))
      else none
    | _ => none

structure Entry where
  offsetDelta : BitVec 16
  type : RelocationType
  sectionIndex : ℕ
  symbolOffset : BitVec 32

def entryAt (file : ℕ → BitVec 8) (cursor : ℕ) : Entry where
  offsetDelta := readBe16 file cursor
  type := .ofByte (file (cursor + 2))
  sectionIndex := (file (cursor + 3)).toNat
  symbolOffset := readBe32 file (cursor + 4)

/-- The entries from `cursor` that fit the file. -/
def entries (rel : RELFile) (cursor : ℕ) : List Entry :=
  (List.range ((rel.fileSize.toNat - cursor)/8)).map fun k => entryAt rel.fileData (cursor + 8*k)

def bufferOf (data : SectionData) (index : ℕ) : ℕ → BitVec 8 := fun n => data (index,n)

def setBuffer (data : SectionData) (index : ℕ) (bytes : ℕ → BitVec 8) : SectionData :=
  fun n => if n.1 = index then bytes n.2 else data n

/-- The patch of one entry that relocates. -/
def patchEntry (rel : RELFile) (modules : RELModuleMap) (importModule : BitVec 32) (e : Entry)
    (current : ℕ) (offset : BitVec 32) (data : SectionData) : Option SectionData := do
  let sec ← rel.sections[current]?
  let target ← relocationTarget rel modules importModule e.sectionIndex e.symbolOffset
  let patchAddress ← sectionAddressAt rel current offset
  let bytes ← applyRelocation sec (bufferOf data current) offset patchAddress e.type target
  some (setBuffer data current bytes)

/-- The loop over one list; patches made before a failure stay. -/
def relocate (rel : RELFile) (modules : RELModuleMap) (importModule : BitVec 32) :
    List Entry → ℕ → BitVec 32 → SectionData → Bool × SectionData
  | [], _, _, data => (false,data)
  | e :: es, current, offset, data =>
    if e.type = .dolphinSection then
      if e.sectionIndex ≥ rel.sections.length then (false,data)
      else relocate rel modules importModule es e.sectionIndex 0 data
    else if e.type = .dolphinEnd then (true,data)
    else
      match addChecked offset (e.offsetDelta.zeroExtend 32) with
      | none => (false,data)
      | some offset =>
        if e.type = .dolphinNop then relocate rel modules importModule es current offset data
        else
          match patchEntry rel modules importModule e current offset data with
          | none => (false,data)
          | some data => relocate rel modules importModule es current offset data

def importAt (rel : RELFile) (index : ℕ) : BitVec 32 × BitVec 32 :=
  let entry := rel.importOffset.toNat + 8*index
  (readBe32 rel.fileData entry,readBe32 rel.fileData (entry + 4))

def relocateImports (rel : RELFile) (modules : RELModuleMap) :
    List ℕ → SectionData → Bool × SectionData
  | [], data => (true,data)
  | index :: rest, data =>
    let (importModule,cursor) := importAt rel index
    if !rangeFits cursor 8 rel.fileSize ∨ cursor < rel.relocationOffset then (false,data)
    else
      match relocate rel modules importModule (entries rel cursor.toNat) 0 0 data with
      | (false,data) => (false,data)
      | (true,data) => relocateImports rel modules rest data

def relApplyRelocations (rel : RELFile) (modules : RELModuleMap) (data : SectionData) :
    Bool × SectionData :=
  if rel.importSize = 0 then (true,data)
  else if rel.importSize.toNat % 8 ≠ 0 ∨ !rangeFits rel.importOffset rel.importSize rel.fileSize then
    (false,data)
  else relocateImports rel modules (List.range (rel.importSize.toNat/8)) data

end Rel

end DolRecomp
