import DolRecomp.Alignment
import DolRecomp.RpxLoader

/-!
# Entry points

`dol_load`, and for the three containers whether the entry point of an accepted image is an
address at which the pipeline decodes an instruction. Only the REL loader looks at the alignment
of its code sections.
-/

namespace DolRecomp

namespace Dol

open CheckedBytes DolRecomp.Rel

def dolHeaderSize : ℕ := 0x100
def dolNumText : ℕ := 7
def dolNumData : ℕ := 11

structure DOLHeader where
  textOffsets : List (BitVec 32)
  dataOffsets : List (BitVec 32)
  textAddresses : List (BitVec 32)
  textSizes : List (BitVec 32)
  dataSizes : List (BitVec 32)
  entryPoint : BitVec 32

structure DOLSection where
  offset : BitVec 32
  address : BitVec 32
  size : BitVec 32

structure DOLFile where
  header : DOLHeader
  fileSize : BitVec 32

/-- The text sections by index. -/
def DOLHeader.texts (header : DOLHeader) : List DOLSection :=
  List.zipWith (fun offset s => ⟨offset,s.1,s.2⟩) header.textOffsets
    (List.zip header.textAddresses header.textSizes)

/-- `count` words from `offset` on. -/
def readWords (file : Bytes) : ℕ → ℕ → Checked (List (BitVec 32))
  | _, 0 => pure []
  | offset, count+1 => do
    let word ← read32 file offset
    let words ← readWords file (offset + 4) count
    pure (word :: words)

def validateSectionRange (offset size fileSize : BitVec 32) : Bool :=
  size = 0 ∨ rangeFits offset size fileSize = true

def validateDolLayout (dol : DOLFile) : Bool :=
  decide (dol.header.entryPoint &&& 3#32 = 0) &&
  (dol.header.texts.all fun s => validateSectionRange s.offset s.size dol.fileSize &&
    decide (s.size &&& 3#32 = 0)) &&
  ((List.zip dol.header.dataOffsets dol.header.dataSizes).all fun s =>
    validateSectionRange s.1 s.2 dol.fileSize) &&
  dol.header.texts.any fun s => Rpx.addressInRange dol.header.entryPoint s.address s.size

def dolLoad (file : Bytes) : Checked DOLFile := do
  require (dolHeaderSize ≤ file.size)
  let textOffsets ← readWords file 0x00 dolNumText
  let dataOffsets ← readWords file 0x1C dolNumData
  let textAddresses ← readWords file 0x48 dolNumText
  let textSizes ← readWords file 0x90 dolNumText
  let dataSizes ← readWords file 0xAC dolNumData
  let entryPoint ← read32 file 0xE0
  let dol : DOLFile :=
    ⟨{ textOffsets, dataOffsets, textAddresses, textSizes, dataSizes, entryPoint },
      BitVec.ofNat 32 file.size⟩
  require (validateDolLayout dol)
  pure dol

theorem noFault_readWords {file : Bytes} {offset count : ℕ} (h : offset + 4*count ≤ file.size) :
    NoFault (readWords file offset count) := by
  induction count generalizing offset with
  | zero => exact noFault_pure _
  | succ count ih =>
    refine (noFault_read32 (by omega)).bind fun _ _ => ?_
    refine (ih (by omega)).bind fun _ _ => ?_
    exact noFault_pure _

theorem noFault_dolLoad (file : Bytes) : NoFault (dolLoad file) := by
  unfold dolLoad
  refine (noFault_require _).bind fun _ h => ?_
  have h := require_eq_ok.mp h
  simp only [dolHeaderSize] at h
  simp only [dolNumText,dolNumData]
  iterate 5 refine (noFault_readWords (by omega)).bind fun _ _ => ?_
  refine (noFault_read32 (by omega)).bind fun _ _ => ?_
  refine (noFault_require _).bind fun _ _ => ?_
  exact noFault_pure _

theorem dolLoad_ok {file : Bytes} {dol : DOLFile} (h : dolLoad file = .ok dol) :
    dol.header.entryPoint &&& 3#32 = 0 ∧ ∀ s ∈ dol.header.texts, s.size &&& 3#32 = 0 := by
  unfold dolLoad at h
  iterate 7
    obtain ⟨_,-,h⟩ := bind_eq_ok.mp h
  obtain ⟨_,hvalid,h⟩ := bind_eq_ok.mp h
  cases h
  obtain ⟨hvalid,-⟩ := Bool.and_eq_true_iff.mp (require_eq_ok.mp hvalid)
  obtain ⟨hvalid,-⟩ := Bool.and_eq_true_iff.mp hvalid
  obtain ⟨hentry,htexts⟩ := Bool.and_eq_true_iff.mp hvalid
  refine ⟨of_decide_eq_true hentry,fun s hs => ?_⟩
  exact of_decide_eq_true (Bool.and_eq_true_iff.mp (List.all_eq_true.mp htexts s hs)).2

end Dol

open CheckedBytes

/-- A section that the pipeline takes apart, a word at a time from its address on. -/
structure LoadedCodeSection where
  address : BitVec 32
  size : BitVec 32
  deriving DecidableEq

/-- The address of one of the instructions that are decoded. -/
def Decodes (code : List LoadedCodeSection) (address : BitVec 32) : Prop :=
  ∃ s ∈ code, ∃ k < s.size.toNat/4, address = s.address + BitVec.ofNat 32 (4*k)

/-- The address is in a section that starts at a multiple of four. -/
def InAligned (code : List LoadedCodeSection) (address : BitVec 32) : Prop :=
  ∃ s ∈ code, s.address &&& 3#32 = 0 ∧ address - s.address < s.size

theorem decodes_iff {code : List LoadedCodeSection} {address : BitVec 32}
    (ha : address &&& 3#32 = 0) (hs : ∀ s ∈ code, s.size &&& 3#32 = 0) :
    Decodes code address ↔ InAligned code address := by
  have ha := (Alignment.and_three_eq_zero address).mp ha
  constructor
  · rintro ⟨s,hm,k,hk,rfl⟩
    have hlt := s.size.isLt
    have hbase := s.address.isLt
    refine ⟨s,hm,(Alignment.and_three_eq_zero _).mpr ?_,BitVec.lt_def.mpr ?_⟩
    · rw [BitVec.toNat_add,BitVec.toNat_ofNat] at ha
      omega
    · rw [BitVec.toNat_sub,BitVec.toNat_add,BitVec.toNat_ofNat]
      omega
  · rintro ⟨s,hm,hbase,hlt⟩
    have hbase := (Alignment.and_three_eq_zero _).mp hbase
    have hsize := (Alignment.and_three_eq_zero _).mp (hs s hm)
    have hlt := BitVec.lt_def.mp hlt
    have h1 := address.isLt
    have h2 := s.address.isLt
    rw [BitVec.toNat_sub] at hlt
    refine ⟨s,hm,(address - s.address).toNat/4,?_,?_⟩
    · rw [BitVec.toNat_sub]
      omega
    · apply BitVec.eq_of_toNat_eq
      rw [BitVec.toNat_add,BitVec.toNat_ofNat,BitVec.toNat_sub]
      omega

/-- An image that one of the loaders accepts. -/
inductive Image
  | dol (file : Dol.DOLFile)
  | rpx (file : Rpx.RPXFile)
  | rel (file : Rel.RELImage)

/-- What the loaders are given. -/
inductive Container
  | dol (file : Bytes)
  | rpx (file : Bytes) (uncompress : Rpx.Uncompress)
  | rel (file : Bytes) (base : BitVec 32)

def Container.load : Container → Checked Image
  | .dol file => Image.dol <$> Dol.dolLoad file
  | .rpx file uncompress => Image.rpx <$> Rpx.rpxLoad file uncompress
  | .rel file base => Image.rel <$> Rel.relLoadImage file base

def Image.entryPoint : Image → Option (BitVec 32)
  | .dol file => some file.header.entryPoint
  | .rpx file => some file.entryPoint
  | .rel file => file.entryPoint

/-- What `emit_dol_split`, `emit_rpx_split` and `emit_rel_split` pass on. -/
def Image.code : Image → List LoadedCodeSection
  | .dol file => (file.header.texts.filter (·.size ≠ 0)).map fun s => ⟨s.address,s.size⟩
  | .rpx file => file.codeSections.map fun s => ⟨s.address,s.size⟩
  | .rel file => (file.sections.filter Rel.isCode).map fun s => ⟨s.address,s.size⟩

def Image.isRel : Image → Bool
  | .rel _ => true
  | _ => false

theorem map_ok {α β : Type} {f : α → β} {x : Checked α} {b : β} (h : f <$> x = .ok b) :
    ∃ a, x = .ok a ∧ f a = b := by
  cases x with
  | error e => cases h
  | ok a => exact ⟨a,rfl,Except.ok.inj h⟩

theorem Image.code_size {container : Container} {image : Image}
    (h : container.load = .ok image) : ∀ s ∈ image.code, s.size &&& 3#32 = 0 := by
  cases container with
  | dol file =>
    obtain ⟨dol,hload,rfl⟩ := map_ok h
    intro s hs
    obtain ⟨t,ht,rfl⟩ := List.mem_map.mp hs
    exact (Dol.dolLoad_ok hload).2 t (List.mem_of_mem_filter ht)
  | rpx file uncompress =>
    obtain ⟨rpx,hload,rfl⟩ := map_ok h
    intro s hs
    obtain ⟨t,ht,rfl⟩ := List.mem_map.mp hs
    exact ((Rpx.rpxLoad_ok hload).2.1 t ht).2
  | rel file base =>
    obtain ⟨rel,hload,rfl⟩ := map_ok h
    obtain ⟨_,_,ha⟩ := Rel.relLoadImage_ok hload
    intro s hs
    obtain ⟨t,ht,rfl⟩ := List.mem_map.mp hs
    obtain ⟨hm,hcode⟩ := List.mem_filter.mp ht
    obtain ⟨hexec,hdata⟩ := Bool.and_eq_true_iff.mp hcode
    exact ((ha.place hm).code hdata hexec).1

theorem Rel.entry_inAligned {file : Bytes} {base entry : BitVec 32} {image : RELImage}
    (h : relLoadImage file base = .ok image) (he : image.entryPoint = some entry) :
    entry &&& 3#32 = 0 ∧ InAligned (Image.rel image).code entry := by
  obtain ⟨_,_,ha⟩ := relLoadImage_ok h
  rcases ha.entry with ⟨-,hnone⟩ | ⟨hprolog,entry',hsome,haddress⟩
  · rw [hnone] at he
    cases he
  rw [hsome] at he
  cases he
  have hvalid := ha.prolog
  unfold validateEntry at hvalid
  unfold sectionAddressAt at haddress
  simp only [RELImage.rel,List.getElem?_map] at haddress
  cases hsec : image.sections[image.header.prologSection.toNat]? with
  | none =>
    rw [hsec] at haddress
    cases haddress
  | some sec =>
    rw [hsec] at haddress hvalid
    have hvalid := (Bool.or_eq_true _ _ ▸ hvalid).resolve_left (by simpa using hprolog)
    obtain ⟨hcode,hoffset⟩ := Bool.and_eq_true_iff.mp hvalid
    obtain ⟨hexec,hdata⟩ := Bool.and_eq_true_iff.mp hcode
    obtain ⟨hoffset,hlt⟩ := of_decide_eq_true hoffset
    simp only [Option.map_some,Option.bind_eq_bind,Option.bind_some] at haddress
    split at haddress
    next => cases haddress
    have hadd := addChecked_some haddress
    have hplaced := ha.place (List.mem_of_getElem? hsec)
    have hbase := (hplaced.filed hdata).1
    have hbase4 := (Alignment.and_three_eq_zero _).mp ha.aligned
    have hsec4 := (Alignment.and_three_eq_zero _).mp (hplaced.code hdata hexec).2
    have hoffset4 := (Alignment.and_three_eq_zero _).mp hoffset
    have haddress4 := sec.address.isLt
    refine ⟨(Alignment.and_three_eq_zero _).mpr (by omega),⟨sec.address,sec.size⟩,?_,
      (Alignment.and_three_eq_zero _).mpr (by dsimp only; omega),?_⟩
    · exact List.mem_map.mpr ⟨sec,List.mem_filter.mpr ⟨List.mem_of_getElem? hsec,hcode⟩,rfl⟩
    · have hlt := BitVec.lt_def.mp hlt
      have hentry := entry.isLt
      refine BitVec.lt_def.mpr ?_
      dsimp only
      rw [BitVec.toNat_sub]
      omega

theorem Image.entryPoint_aligned {container : Container} {image : Image} {entry : BitVec 32}
    (h : container.load = .ok image) (he : image.entryPoint = some entry) :
    entry &&& 3#32 = 0 := by
  cases container with
  | dol file =>
    obtain ⟨dol,hload,rfl⟩ := map_ok h
    cases he
    exact (Dol.dolLoad_ok hload).1
  | rpx file uncompress =>
    obtain ⟨rpx,hload,rfl⟩ := map_ok h
    cases he
    exact (Rpx.rpxLoad_ok hload).1
  | rel file base =>
    obtain ⟨rel,hload,rfl⟩ := map_ok h
    exact (Rel.entry_inAligned hload he).1

/-- The entry point of an accepted image is decoded exactly when one of the sections that it is
in starts at a multiple of four; in a REL image one always does. -/
theorem entry_point_decodes_iff (container : Container) (image : Image) (entry : BitVec 32)
    (h : container.load = .ok image) (he : image.entryPoint = some entry) :
    Decodes image.code entry ↔ image.isRel = true ∨ InAligned image.code entry := by
  rw [decodes_iff (Image.entryPoint_aligned h he) (Image.code_size h)]
  constructor
  · exact .inr
  · rintro (hrel | h)
    · cases container with
      | dol file =>
        obtain ⟨dol,-,rfl⟩ := map_ok h
        cases hrel
      | rpx file uncompress =>
        obtain ⟨rpx,-,rfl⟩ := map_ok h
        cases hrel
      | rel file base =>
        obtain ⟨rel,hload,rfl⟩ := map_ok h
        exact (Rel.entry_inAligned hload he).2
    · exact h

/-- A DOL file with one text section of two words, and its second word as entry point. -/
def twoWords (address entry : List (BitVec 8)) : Bytes := .ofList
  ([0,0,1,0] ++ List.replicate 0x44 0 ++ address ++ List.replicate 0x44 0 ++ [0,0,0,8] ++
    List.replicate 0x4C 0 ++ entry ++ List.replicate 0x1C 0 ++ [0x60,0,0,0,0x4E,0x80,0,0x20])

def hasEntry (entry : BitVec 32) (p : List LoadedCodeSection → Bool) : Checked Image → Bool
  | .ok image => image.entryPoint == some entry && p image.code
  | _ => false

theorem hasEntry_spec {entry : BitVec 32} {p : List LoadedCodeSection → Bool} {x : Checked Image}
    (h : hasEntry entry p x = true) :
    ∃ image, x = .ok image ∧ image.entryPoint = some entry ∧ p image.code = true := by
  match x, h with
  | .ok image, h =>
    obtain ⟨he,hp⟩ := Bool.and_eq_true_iff.mp h
    exact ⟨image,rfl,eq_of_beq he,hp⟩

theorem entry_point_decodes_iff_second_word : ∃ image,
    (Container.dol (twoWords [0x80,0,0x31,0] [0x80,0,0x31,4])).load = .ok image ∧
      (Decodes image.code 0x80003104 ↔
        image.isRel = true ∨ InAligned image.code 0x80003104) := by
  obtain ⟨image,h,he,-⟩ := hasEntry_spec (show hasEntry 0x80003104 (fun _ => true)
    (Container.dol (twoWords [0x80,0,0x31,0] [0x80,0,0x31,4])).load = true by decide +kernel)
  exact ⟨image,h,entry_point_decodes_iff _ image _ h he⟩

/-- A text section at `0x80003101` has its words between the addresses of instructions. -/
theorem entry_point_between_words : ∃ image,
    (Container.dol (twoWords [0x80,0,0x31,1] [0x80,0,0x31,4])).load = .ok image ∧
      image.entryPoint = some 0x80003104 ∧ ¬Decodes image.code 0x80003104 := by
  obtain ⟨image,h,he,hp⟩ := hasEntry_spec (show hasEntry 0x80003104
    (fun code => code.all fun s => s.address == 0x80003101)
    (Container.dol (twoWords [0x80,0,0x31,1] [0x80,0,0x31,4])).load = true by decide +kernel)
  refine ⟨image,h,he,fun hd => ?_⟩
  obtain ⟨s,hs,h4,-⟩ :=
    (decodes_iff (Image.entryPoint_aligned h he) (Image.code_size h)).mp hd
  rw [eq_of_beq (List.all_eq_true.mp hp s hs)] at h4
  exact absurd h4 (by decide)

end DolRecomp
