import DolRecomp.RelLoader

/-!
# Placing the modules of a directory

`emit_rel_directory` loads each module behind the one before it. The next base counts the BSS
size of the header, the sections are laid out by the section table: the modules are disjoint
where no table has its BSS run past the next base.
-/

namespace DolRecomp

namespace Rel

open CheckedBytes

def relAutoAlign : ℕ := 0x10000

def alignUpCli (value alignment : ℕ) : Option (BitVec 32) :=
  let result := (value + alignment - 1)/alignment*alignment
  if result > 0xFFFFFFFF then none else some (BitVec.ofNat 32 result)

def nextRelBase (image : RELImage) : Option (BitVec 32) :=
  let base := image.baseAddress.toNat
  let fileSize := image.header.fileSize.toNat
  let bssSize := image.header.bssSize.toNat
  if fileSize > 0xFFFFFFFF - base ∨ bssSize > 0xFFFFFFFF - base - fileSize then none
  else alignUpCli (base + fileSize + bssSize) relAutoAlign

def checkDuplicateRelModule (items : List RELImage) (moduleId : BitVec 32) : Prop :=
  ∀ item ∈ items, item.header.moduleId ≠ moduleId

instance (items : List RELImage) (moduleId : BitVec 32) :
    Decidable (checkDuplicateRelModule items moduleId) := by
  unfold checkDuplicateRelModule
  infer_instance

/-- The loop that loads the modules. -/
def loadModules : List RELImage → List Bytes → BitVec 32 → Checked (List RELImage)
  | _, [], _ => pure []
  | items, file :: files, cursor => do
    let image ← relLoadImage file cursor
    require (checkDuplicateRelModule items image.header.moduleId)
    let cursor ← orReject (nextRelBase image)
    let images ← loadModules (items ++ [image]) files cursor
    pure (image :: images)

/-- The section data after `memcpy` from the file. -/
def RELImage.ownedData (image : RELImage) (file : Bytes) : SectionData := fun n =>
  match image.sections[n.1]? with
  | none => 0
  | some sec => file.get (sec.offset.toNat + n.2)

/-- The modules of an accepted directory: every one is loaded and relocated. -/
def emitRelDirectory (files : List Bytes) (startBase : BitVec 32) : Checked (List RELImage) := do
  require (files ≠ [])
  let images ← loadModules [] files startBase
  let loaded := images.zip files
  let modules := loaded.map fun item => (item.1.header.moduleId,item.1.rel item.2)
  require (∀ item ∈ loaded,
    (relApplyRelocations (item.1.rel item.2) modules (item.1.ownedData item.2)).1 = true)
  pure images

def LoadedSection.Has (sec : LoadedSection) (n : ℕ) : Prop :=
  sec.address.toNat ≤ n ∧ n < sec.address.toNat + sec.size.toNat

def LoadedSection.Apart (s t : LoadedSection) : Prop := ∀ n, ¬(s.Has n ∧ t.Has n)

/-- The sections of different modules are apart, and none wraps. -/
def Disjoint (images : List RELImage) : Prop :=
  (images.Pairwise fun a b => ∀ s ∈ a.sections, ∀ t ∈ b.sections, s.Apart t) ∧
  ∀ image ∈ images, ∀ s ∈ image.sections, s.address.toNat + s.size.toNat ≤ 2^32

def LoadedSection.Below (sec : LoadedSection) (n : ℕ) : Prop := ∀ m, sec.Has m → m < n

def roundUp (n a : ℕ) : ℕ := (n + a - 1)/a*a

def wordAt (file : Bytes) (offset : ℕ) : ℕ := (readBe32 file.get offset).toNat

/-- What the file says of the alignment of BSS. -/
def bssAlignmentOf (file : Bytes) : ℕ :=
  if 0x48 ≤ file.size % 2^32 ∧ wordAt file 0x44 ≠ 0 then wordAt file 0x44 else 4

/-- Where BSS begins, less the base. -/
def fixSizeOf (file : Bytes) : ℕ :=
  if 3 ≤ wordAt file 0x1C ∧ 0x4C ≤ file.size % 2^32 then wordAt file 0x48 else file.size % 2^32

/-- The size of a BSS section, for an entry of the section table that lists one. -/
def bssSizeAt (file : Bytes) (i : ℕ) : Option ℕ :=
  let entry := wordAt file 0x10 + i*8
  if wordAt file entry = 0 ∧ wordAt file (entry + 4) ≠ 0 then some (wordAt file (entry + 4))
  else none

/-- The BSS sections of a module follow one another, each from an aligned address on. -/
def layBss (alignment : ℕ) : List ℕ → ℕ → ℕ
  | [], n => n
  | size :: sizes, n => layBss alignment sizes (roundUp n alignment + size)

/-- The end of the BSS that the section table lists. -/
def bssEnd (file : Bytes) (base : ℕ) : ℕ :=
  layBss (bssAlignmentOf file) ((List.range (wordAt file 0x0C)).filterMap (bssSizeAt file))
    (base + fixSizeOf file)

/-- The end of the file and of the BSS that the header counts. -/
def nextBase (file : Bytes) (base : ℕ) : ℕ :=
  roundUp (base + file.size % 2^32 + wordAt file 0x20) relAutoAlign

/-- Ahead of another module, the listed BSS ends where that module begins, or before. -/
def BssFits : List Bytes → ℕ → Prop
  | [], _ => True
  | [_], _ => True
  | file :: next :: files, base =>
    bssEnd file base ≤ nextBase file base ∧ BssFits (next :: files) (nextBase file base)

/-- The sections of a module lie below the base of the one behind it. -/
def KeepsBelow (images : List RELImage) : Prop :=
  images.IsChain fun a b => ∀ s ∈ a.sections, s.Below b.baseAddress.toNat

theorem below_iff {s : LoadedSection} {n : ℕ} (h : s.size.toNat ≠ 0) :
    s.Below n ↔ s.address.toNat + s.size.toNat ≤ n := by
  constructor
  · intro hbelow
    have := hbelow (s.address.toNat + s.size.toNat - 1) ⟨by omega,by omega⟩
    omega
  · rintro hle m ⟨-,hm⟩
    omega

theorem below_of_size {s : LoadedSection} (h : s.size.toNat = 0) (n : ℕ) : s.Below n := by
  rintro m ⟨h1,h2⟩
  omega

theorem le_roundUp {n a : ℕ} (h : 0 < a) : n ≤ roundUp n a := by
  have := Nat.lt_div_mul_add (a := n + a - 1) h
  unfold roundUp
  omega

theorem le_layBss {alignment n : ℕ} {sizes : List ℕ} (h : 0 < alignment) :
    n ≤ layBss alignment sizes n := by
  induction sizes generalizing n with
  | nil => exact Nat.le_refl n
  | cons size sizes ih =>
    have hup := le_roundUp (n := n) h
    exact (by omega : n ≤ _ + size).trans ih

theorem alignUp_eq {value alignment result : BitVec 32} (h0 : alignment ≠ 0)
    (h : alignUp value alignment = some result) :
    result.toNat = roundUp value.toNat alignment.toNat := by
  have hpos : alignment.toNat ≠ 0 := BitVec.toNat_ne.mp h0
  unfold alignUp at h
  split at h
  next hle =>
    cases h
    have hle : alignment.toNat ≤ 1 := BitVec.le_def.mp hle
    have hone : alignment.toNat = 1 := by omega
    simp [roundUp,hone]
  next =>
    dsimp only at h
    split at h
    next => cases h
    next hfits =>
      cases h
      rw [BitVec.toNat_ofNat,Nat.mod_eq_of_lt (by omega)]
      rfl

theorem nextRelBase_some {image : RELImage} {next : BitVec 32} (h : nextRelBase image = some next) :
    next.toNat = roundUp (image.baseAddress.toNat + image.header.fileSize.toNat +
        image.header.bssSize.toNat) relAutoAlign ∧
      image.baseAddress.toNat + image.header.fileSize.toNat < 2^32 := by
  unfold nextRelBase alignUpCli at h
  dsimp only at h
  split at h
  next => cases h
  next hle =>
    split at h
    next => cases h
    next hfits =>
      cases h
      have hbase := image.baseAddress.isLt
      rw [BitVec.toNat_ofNat,Nat.mod_eq_of_lt (by omega)]
      exact ⟨rfl,by omega⟩

theorem nextRelBase_le {image : RELImage} {next : BitVec 32} (h : nextRelBase image = some next) :
    image.baseAddress.toNat + image.header.fileSize.toNat ≤ next.toNat ∧
      image.baseAddress.toNat + image.header.fileSize.toNat < 2^32 := by
  obtain ⟨hnext,hfits⟩ := nextRelBase_some h
  have hup := le_roundUp (n := image.baseAddress.toNat + image.header.fileSize.toNat +
    image.header.bssSize.toNat) (show 0 < relAutoAlign by decide)
  exact ⟨by omega,hfits⟩

theorem read32_eq {file : Bytes} {offset : ℕ} {value : BitVec 32}
    (h : read32 file offset = .ok value) : value = readBe32 file.get offset := by
  obtain ⟨_,-,h⟩ := bind_eq_ok.mp h
  cases h
  rfl

theorem readWhen_eq {p : Prop} [Decidable p] {file : Bytes} {offset : ℕ} {default value : BitVec 32}
    (h : readWhen p file offset default = .ok value) :
    value = if p then readBe32 file.get offset else default := by
  unfold readWhen at h
  split at h
  next hp => rw [read32_eq h,if_pos hp]
  next hp =>
    cases h
    rw [if_neg hp]

/-- The fields of a header that lay a module out, as the file has them. -/
structure RELHeader.Read (header : RELHeader) (file : Bytes) : Prop where
  fileSize : header.fileSize.toNat = file.size % 2^32
  sectionCount : header.sectionCount.toNat = wordAt file 0x0C
  sectionInfoOffset : header.sectionInfoOffset.toNat = wordAt file 0x10
  bssSize : header.bssSize.toNat = wordAt file 0x20
  alignment : header.alignment.toNat = bssAlignmentOf file
  fixSize : header.fixSize.toNat = fixSizeOf file

theorem loadHeader_read {file : Bytes} {header : RELHeader} (h : loadHeader file = .ok header) :
    header.Read file := by
  unfold loadHeader at h
  obtain ⟨_,-,h⟩ := bind_eq_ok.mp h
  obtain ⟨_,-,h⟩ := bind_eq_ok.mp h
  obtain ⟨sectionCount,hcount,h⟩ := bind_eq_ok.mp h
  obtain ⟨sectionInfoOffset,hinfo,h⟩ := bind_eq_ok.mp h
  obtain ⟨version,hversion,h⟩ := bind_eq_ok.mp h
  obtain ⟨bssSize,hbss,h⟩ := bind_eq_ok.mp h
  iterate 9
    obtain ⟨_,-,h⟩ := bind_eq_ok.mp h
  obtain ⟨bssAlignment,halign,h⟩ := bind_eq_ok.mp h
  obtain ⟨fixSize,hfix,h⟩ := bind_eq_ok.mp h
  obtain ⟨_,-,h⟩ := bind_eq_ok.mp h
  obtain ⟨_,-,h⟩ := bind_eq_ok.mp h
  have hcount := read32_eq hcount
  have hinfo := read32_eq hinfo
  have hversion := read32_eq hversion
  have hbss := read32_eq hbss
  have halign := readWhen_eq halign
  have hfix := readWhen_eq hfix
  cases h
  have hsize : ∀ n : ℕ, n < 2^32 →
      (BitVec.ofNat 32 n ≤ BitVec.ofNat 32 file.size ↔ n ≤ file.size % 2^32) := fun n hn => by
    rw [BitVec.le_def,BitVec.toNat_ofNat,BitVec.toNat_ofNat,Nat.mod_eq_of_lt hn]
  refine ⟨BitVec.toNat_ofNat _ _,congrArg _ hcount,congrArg _ hinfo,congrArg _ hbss,?_,?_⟩
  · rw [RELHeader.alignment,bssAlignmentOf,halign]
    simp only [hsize 0x48 (by decide)]
    by_cases h48 : 0x48 ≤ file.size % 2^32
    · rw [if_pos h48,wordAt]
      by_cases h0 : readBe32 file.get 0x44 = 0
      · simp [h0]
      · have h0' : (readBe32 file.get 0x44).toNat ≠ 0 := BitVec.toNat_ne.mp h0
        rw [if_pos h0,if_pos ⟨h48,h0'⟩]
    · simp only [h48,false_and,if_false]
      rfl
  · rw [fixSizeOf,hfix,hversion]
    have hiff : (3#32 ≤ readBe32 file.get 0x1C ∧ 0x4C#32 ≤ BitVec.ofNat 32 file.size) ↔
        3 ≤ wordAt file 0x1C ∧ 0x4C ≤ file.size % 2^32 :=
      and_congr BitVec.le_def (hsize 0x4C (by decide))
    by_cases h : 3 ≤ wordAt file 0x1C ∧ 0x4C ≤ file.size % 2^32
    · rw [if_pos h,if_pos (hiff.mpr h)]
      rfl
    · rw [if_neg h,if_neg (hiff.not.mpr h),BitVec.toNat_ofNat]

theorem RELHeader.alignment_ne_zero (header : RELHeader) : header.alignment ≠ 0 := by
  unfold RELHeader.alignment
  split
  next h => exact h
  next => decide

theorem rawOffset_eq_zero {rawOffset : BitVec 32} :
    rawOffset.toNat = 0 ↔ rawOffset &&& ~~~1#32 = 0 ∧ rawOffset &&& 1#32 = 0 := by
  constructor
  · intro h
    have h : rawOffset = 0 := BitVec.eq_of_toNat_eq h
    simp [h]
  · rintro ⟨h1,h2⟩
    have hsplit : rawOffset &&& (~~~1#32 ||| 1#32) = rawOffset := BitVec.and_allOnes
    rw [BitVec.and_or_distrib_left,h1,h2] at hsplit
    rw [← hsplit]
    rfl

/-- What a section of the table gets, and where the next BSS section starts. -/
theorem loadSection_bss {file : Bytes} {header : RELHeader} {base cursor cursor' : BitVec 32}
    {i : ℕ} {sec : LoadedSection} (hr : header.Read file)
    (h : loadSection file header base i cursor = .ok (sec,cursor')) :
    match bssSizeAt file i with
    | none => sec.bss = false ∧ cursor' = cursor
    | some size => sec.bss = true ∧ sec.address = cursor ∧ sec.size.toNat = size ∧ size ≠ 0 ∧
        cursor'.toNat = roundUp (cursor.toNat + size) (bssAlignmentOf file) := by
  unfold loadSection at h
  obtain ⟨rawOffset,hraw,h⟩ := bind_eq_ok.mp h
  obtain ⟨size,hsize,h⟩ := bind_eq_ok.mp h
  have hraw := read32_eq hraw
  have hsize := read32_eq hsize
  rw [hr.sectionInfoOffset] at hraw hsize
  have hentry : bssSizeAt file i = if rawOffset.toNat = 0 ∧ size.toNat ≠ 0 then some size.toNat
      else none := by
    rw [bssSizeAt,hraw,hsize]
    rfl
  rw [hentry]
  dsimp only at h
  split at h
  next h0 =>
    cases h
    have hnone : ¬(rawOffset.toNat = 0 ∧ size.toNat ≠ 0) := fun h' => h'.2 (by rw [h0]; rfl)
    rw [if_neg hnone]
    exact ⟨by simp [h0],rfl⟩
  next h0 =>
    have hpos : size.toNat ≠ 0 := BitVec.toNat_ne.mp h0
    split at h
    next hb =>
      obtain ⟨next,hnext,h⟩ := bind_eq_ok.mp h
      obtain ⟨next',hnext',h⟩ := bind_eq_ok.mp h
      have hnext := addChecked_some (orReject_eq_ok.mp hnext)
      have hnext' := alignUp_eq header.alignment_ne_zero (orReject_eq_ok.mp hnext')
      cases h
      have hraw0 := (of_decide_eq_true hb).2
      rw [if_pos ⟨rawOffset_eq_zero.mpr ⟨hraw0.1,by simpa using hraw0.2⟩,hpos⟩]
      exact ⟨hb,rfl,rfl,hpos,by rw [hnext',hnext,hr.alignment]⟩
    next hb =>
      obtain ⟨_,-,h⟩ := bind_eq_ok.mp h
      obtain ⟨_,-,h⟩ := bind_eq_ok.mp h
      obtain ⟨_,-,h⟩ := bind_eq_ok.mp h
      obtain ⟨_,-,h⟩ := bind_eq_ok.mp h
      cases h
      rw [if_neg fun h' => hb (by
        obtain ⟨h1,h2⟩ := rawOffset_eq_zero.mp h'.1
        exact decide_eq_true ⟨h0,h1,by simp [h2]⟩)]
      exact ⟨Bool.eq_false_of_not_eq_true hb,rfl⟩

theorem loadSections_bss {file : Bytes} {header : RELHeader} {base cursor : BitVec 32}
    {is : List ℕ} {sections : List LoadedSection} (hr : header.Read file)
    (h : loadSections file header base is cursor = .ok sections) {m n : ℕ}
    (hm : cursor.toNat = roundUp m (bssAlignmentOf file)) (hpos : 0 < bssAlignmentOf file)
    (hle : m ≤ n) :
    layBss (bssAlignmentOf file) (is.filterMap (bssSizeAt file)) m ≤ n ↔
      ∀ s ∈ sections, s.bss = true → s.Below n := by
  induction is generalizing cursor sections m with
  | nil =>
    cases h
    exact iff_of_true hle fun s hs => by cases hs
  | cons i is ih =>
    unfold loadSections at h
    obtain ⟨⟨first,cursor'⟩,hfirst,h⟩ := bind_eq_ok.mp h
    obtain ⟨rest,hrest,h⟩ := bind_eq_ok.mp h
    cases h
    have hbss := loadSection_bss hr hfirst
    rw [List.forall_mem_cons]
    cases hi : bssSizeAt file i with
    | none =>
      rw [hi] at hbss
      rw [List.filterMap_cons_none hi,ih hrest (by rw [hbss.2,hm]) hle,hbss.1]
      simp
    | some size =>
      rw [hi] at hbss
      obtain ⟨hb,haddress,hsize,hsize0,hnext⟩ := hbss
      rw [← hsize] at hsize0
      rw [List.filterMap_cons_some hi,layBss,hb,below_iff hsize0,haddress,hsize,hm]
      rw [hm] at hnext
      by_cases hfits : roundUp m (bssAlignmentOf file) + size ≤ n
      · rw [ih hrest hnext hfits]
        simp [hfits]
      · exact iff_of_false (fun h => hfits ((le_layBss hpos).trans h)) fun h => hfits (h.1 rfl)

/-- A section of a loaded module starts at its base or later, and does not wrap. -/
theorem section_bounds {file : Bytes} {base next : BitVec 32} {image : RELImage}
    (h : relLoadImage file base = .ok image) (hn : nextRelBase image = some next)
    {s : LoadedSection} (hs : s ∈ image.sections) (h0 : s.size ≠ 0) :
    base.toNat ≤ s.address.toNat ∧ s.address.toNat + s.size.toNat ≤ 2^32 ∧
      (s.bss = false → s.address.toNat + s.size.toNat ≤ next.toNat) := by
  obtain ⟨_,_,ha⟩ := relLoadImage_ok h
  have hplaced := ha.place hs
  obtain ⟨hle,hfits⟩ := nextRelBase_le hn
  rw [ha.placed] at hle hfits
  cases hb : s.bss with
  | true =>
    obtain ⟨h1,h2⟩ := hplaced.bss hb
    exact ⟨h1,by omega,fun h => by cases h⟩
  | false =>
    have hd : s.hasFileData = true := by
      rw [RELSection.hasFileData,hb]
      simpa using h0
    obtain ⟨h1,h2⟩ := hplaced.filed hd
    exact ⟨by omega,by omega,fun _ => by omega⟩

theorem nextRelBase_eq {file : Bytes} {base next : BitVec 32} {image : RELImage}
    (h : relLoadImage file base = .ok image) (hn : nextRelBase image = some next) :
    next.toNat = nextBase file base.toNat := by
  obtain ⟨_,_,ha⟩ := relLoadImage_ok h
  have hr := loadHeader_read ha.header
  rw [(nextRelBase_some hn).1,ha.placed,hr.fileSize,hr.bssSize,nextBase]

/-- The end worked out from the table is the one that loading assigns. -/
theorem bssEnd_le_iff {file : Bytes} {base next : BitVec 32} {image : RELImage}
    (h : relLoadImage file base = .ok image) (hn : nextRelBase image = some next) :
    bssEnd file base.toNat ≤ next.toNat ↔ ∀ s ∈ image.sections, s.Below next.toNat := by
  obtain ⟨bssStart,bssCursor,ha⟩ := relLoadImage_ok h
  have hr := loadHeader_read ha.header
  have hstart := addChecked_some ha.start
  have hcursor := alignUp_eq image.header.alignment_ne_zero ha.cursor
  have hpos : image.header.alignment.toNat ≠ 0 := BitVec.toNat_ne.mp image.header.alignment_ne_zero
  have hle := (nextRelBase_le hn).1
  have hfix := (loadHeader_ok ha.header).fix
  rw [ha.placed] at hle
  rw [hstart,hr.fixSize,hr.alignment] at hcursor
  rw [hr.alignment] at hpos
  rw [hr.fixSize] at hfix
  have hbss := loadSections_bss hr ha.sections hcursor (by omega) (n := next.toNat) (by omega)
  rw [hr.sectionCount] at hbss
  rw [bssEnd,hbss]
  constructor
  · intro hb s hs
    by_cases h0 : s.size = 0
    · exact below_of_size (by rw [h0]; rfl) _
    · have h0' : s.size.toNat ≠ 0 := BitVec.toNat_ne.mp h0
      cases hsb : s.bss with
      | true => exact hb s hs hsb
      | false => exact (below_iff h0').mpr ((section_bounds h hn hs h0).2.2 hsb)
  · exact fun hb s hs _ => hb s hs

theorem apart_of_size {s t : LoadedSection} (h : s.size = 0 ∨ t.size = 0) : s.Apart t := by
  rintro n ⟨⟨h1,h2⟩,h3,h4⟩
  rcases h with h | h
  · rw [h] at h2
    change n < s.address.toNat + 0 at h2
    omega
  · rw [h] at h4
    change n < t.address.toNat + 0 at h4
    omega

/-- The first module is at the cursor, the others follow from the next base. -/
theorem loadModules_cons {items : List RELImage} {file : Bytes} {files : List Bytes}
    {cursor : BitVec 32} {images : List RELImage}
    (h : loadModules items (file :: files) cursor = .ok images) :
    ∃ first next rest, relLoadImage file cursor = .ok first ∧ nextRelBase first = some next ∧
      loadModules (items ++ [first]) files next = .ok rest ∧ images = first :: rest := by
  unfold loadModules at h
  obtain ⟨first,hfirst,h⟩ := bind_eq_ok.mp h
  obtain ⟨_,-,h⟩ := bind_eq_ok.mp h
  obtain ⟨next,hnext,h⟩ := bind_eq_ok.mp h
  obtain ⟨rest,hrest,h⟩ := bind_eq_ok.mp h
  cases h
  exact ⟨first,next,rest,hfirst,orReject_eq_ok.mp hnext,hrest,rfl⟩

theorem loadModules_head {items : List RELImage} {files : List Bytes} {cursor : BitVec 32}
    {images : List RELImage} (h : loadModules items files cursor = .ok images) :
    ∀ image ∈ images.head?, image.baseAddress = cursor := by
  cases files with
  | nil =>
    cases h
    exact fun image hm => by cases hm
  | cons file files =>
    obtain ⟨first,next,rest,hfirst,-,-,rfl⟩ := loadModules_cons h
    obtain ⟨_,_,ha⟩ := relLoadImage_ok hfirst
    rintro image ⟨⟩
    exact ha.placed

/-- Every module of the rest is loaded at the cursor or behind it. -/
theorem loadModules_base {items : List RELImage} {files : List Bytes} {cursor : BitVec 32}
    {images : List RELImage} (h : loadModules items files cursor = .ok images) :
    ∀ image ∈ images, ∃ file base next, relLoadImage file base = .ok image ∧
      nextRelBase image = some next ∧ cursor.toNat ≤ base.toNat := by
  induction files generalizing items cursor images with
  | nil =>
    cases h
    exact fun image hm => by cases hm
  | cons file files ih =>
    obtain ⟨first,next,rest,hfirst,hnext,hrest,rfl⟩ := loadModules_cons h
    intro image hm
    rcases List.mem_cons.mp hm with rfl | hm
    · exact ⟨file,cursor,next,hfirst,hnext,Nat.le_refl _⟩
    · obtain ⟨file',base,next',h1,h2,h3⟩ := ih hrest image hm
      obtain ⟨_,_,ha⟩ := relLoadImage_ok hfirst
      have hle := (nextRelBase_le hnext).1
      rw [ha.placed] at hle
      exact ⟨file',base,next',h1,h2,by omega⟩

theorem loadModules_fits {items : List RELImage} {files : List Bytes} {cursor : BitVec 32}
    {images : List RELImage} (h : loadModules items files cursor = .ok images) :
    BssFits files cursor.toNat ↔ KeepsBelow images := by
  induction files generalizing items cursor images with
  | nil =>
    cases h
    exact iff_of_true trivial .nil
  | cons file files ih =>
    obtain ⟨first,next,rest,hfirst,hnext,hrest,rfl⟩ := loadModules_cons h
    cases files with
    | nil =>
      cases hrest
      exact iff_of_true trivial (.singleton _)
    | cons file' files =>
      have hhead := loadModules_head hrest
      have ih := ih hrest
      obtain ⟨second,_,_,-,-,-,rfl⟩ := loadModules_cons hrest
      have hbase := nextRelBase_eq hfirst hnext
      rw [BssFits,KeepsBelow,List.isChain_cons_cons,hhead second rfl,← bssEnd_le_iff hfirst hnext,
        ← hbase,ih,KeepsBelow]

theorem loadModules_disjoint {items : List RELImage} {files : List Bytes} {cursor : BitVec 32}
    {images : List RELImage} (h : loadModules items files cursor = .ok images)
    (hkeep : KeepsBelow images) : Disjoint images := by
  induction files generalizing items cursor images with
  | nil =>
    cases h
    exact ⟨.nil,fun image hm => by cases hm⟩
  | cons file files ih =>
    have hall := loadModules_base h
    obtain ⟨first,next,rest,hfirst,hnext,hrest,rfl⟩ := loadModules_cons h
    obtain ⟨hbelow,hrestKeep⟩ := List.isChain_cons.mp hkeep
    obtain ⟨hpair,-⟩ := ih hrest hrestKeep
    refine ⟨.cons (fun image hm s hs t ht => ?_) hpair,fun image hm s hs => ?_⟩
    · by_cases h0 : s.size = 0 ∨ t.size = 0
      · exact apart_of_size h0
      · rw [not_or] at h0
        obtain ⟨second,hsecond⟩ : ∃ second, rest.head? = some second := by
          cases rest with
          | nil => cases hm
          | cons second rest => exact ⟨second,rfl⟩
        have hs := hbelow second hsecond s hs
        rw [loadModules_head hrest second hsecond] at hs
        -- what is behind the next base is above every address of the first module
        obtain ⟨file',base,next',h1,h2,h3⟩ := loadModules_base hrest image hm
        have hstart := (section_bounds h1 h2 ht h0.2).1
        rintro n ⟨hn,hn',-⟩
        have := hs n hn
        omega
    · by_cases h0 : s.size = 0
      · rw [h0]
        have := s.address.isLt
        change s.address.toNat + 0 ≤ _
        omega
      · obtain ⟨file',base,next',h1,h2,-⟩ := hall image hm
        exact (section_bounds h1 h2 hs h0).2.1

/-- Where the listed BSS fits, the sections of different modules are disjoint; where it does not,
a section runs into the image of the module loaded next. -/
theorem rel_modules_disjoint (files : List Bytes) (startBase : BitVec 32)
    (images : List RELImage) (h : emitRelDirectory files startBase = .ok images) :
    (BssFits files startBase.toNat → Disjoint images) ∧
    (BssFits files startBase.toNat ↔ KeepsBelow images) := by
  unfold emitRelDirectory at h
  obtain ⟨_,-,h⟩ := bind_eq_ok.mp h
  obtain ⟨loaded,hload,h⟩ := bind_eq_ok.mp h
  obtain ⟨_,-,h⟩ := bind_eq_ok.mp h
  cases h
  have hfits := loadModules_fits hload
  exact ⟨fun h => loadModules_disjoint hload (hfits.mp h),hfits⟩

def bssModule (moduleId : BitVec 8) (bssSize : List (BitVec 8)) : Bytes := .ofList
  ([0,0,0,moduleId] ++ List.replicate 8 0 ++ [0,0,0,3] ++ [0,0,0,0x40] ++ List.replicate 8 0 ++
    [0,0,0,1] ++ bssSize ++ List.replicate 28 0 ++ List.replicate 8 0 ++ [0,0,0,0x59] ++
    [0,0,0,4] ++ [0,0,0,0] ++ [0,2,0,0] ++ [0x4E,0x80,0,0x20])

/-- The BSS that the header counts. -/
def countedBss (moduleId : BitVec 8) : Bytes := bssModule moduleId [0,2,0,0]

def uncountedBss (moduleId : BitVec 8) : Bytes := bssModule moduleId [0,0,0,0]

theorem rel_modules_disjoint_two : ∃ images,
    emitRelDirectory [countedBss 1,countedBss 2] 0x80500000 = .ok images ∧ Disjoint images := by
  have h : (emitRelDirectory [countedBss 1,countedBss 2] 0x80500000).isOk = true := by
    decide
  have hfits : BssFits [countedBss 1,countedBss 2] (0x80500000#32).toNat :=
    ⟨by decide,trivial⟩
  cases he : emitRelDirectory [countedBss 1,countedBss 2] 0x80500000 with
  | error e =>
    rw [he] at h
    cases h
  | ok images => exact ⟨images,rfl,(rel_modules_disjoint _ _ _ he).1 hfits⟩

/-- Whether BSS of the first module covers the start of the code of the second. -/
def firstCoversSecond : Checked (List RELImage) → Bool
  | .ok [a,b] =>
    match a.sections[2]?, b.sections[1]? with
    | some s, some t => decide (s.address.toNat ≤ t.address.toNat ∧
        t.address.toNat < s.address.toNat + s.size.toNat ∧ 0 < t.size.toNat)
    | _, _ => false
  | _ => false

theorem not_disjoint_of_covers {r : Checked (List RELImage)} (h : firstCoversSecond r = true) :
    ∃ images, r = .ok images ∧ ¬Disjoint images := by
  unfold firstCoversSecond at h
  split at h
  next a b =>
    refine ⟨[a,b],rfl,fun hd => ?_⟩
    split at h
    next s t hs ht =>
      obtain ⟨h1,h2,h3⟩ := of_decide_eq_true h
      have hpair := List.pairwise_cons.mp hd.1
      exact hpair.1 b List.mem_cons_self s (List.mem_of_getElem? hs) t (List.mem_of_getElem? ht)
        t.address.toNat ⟨⟨h1,h2⟩,Nat.le_refl _,by omega⟩
    next => cases h
  next => cases h

theorem rel_modules_overlap : ∃ images,
    emitRelDirectory [uncountedBss 1,uncountedBss 2] 0x80500000 = .ok images ∧ ¬Disjoint images :=
  not_disjoint_of_covers (by decide)

end Rel

end DolRecomp
