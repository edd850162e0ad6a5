import DolRecomp.DiscExtract

/-!
# The size of the executable of a disc

The extractor takes the size of `main.dol` from its header, as the largest end of a section. The
ends are sums of 32-bit words.
-/

namespace DolRecomp

namespace Disc

/-- The rows of one kind in the header: where the offsets and the sizes start, and how many. -/
structure SectionRows where
  offsets : ℕ
  sizes : ℕ
  count : ℕ

def textRows : SectionRows := ⟨0,0x90,7⟩
def dataRows : SectionRows := ⟨0x1C,0xAC,11⟩

variable (header : ℕ → BitVec 8) (rows : SectionRows)

def SectionRows.offset (i : ℕ) : BitVec 32 := Rel.readBe32 header (rows.offsets + i*4)
def SectionRows.size (i : ℕ) : BitVec 32 := Rel.readBe32 header (rows.sizes + i*4)

/-- One of the loops, over the rows below a number. -/
def SectionRows.maxEnd (header : ℕ → BitVec 8) (rows : SectionRows) (start : BitVec 32) :
    ℕ → BitVec 32
  | 0 => start
  | i + 1 =>
    let maxEnd := rows.maxEnd header start i
    let off := rows.offset header i
    let size := rows.size header i
    if size ≠ 0 ∧ off + size > maxEnd then off + size else maxEnd

def dolFileSizeFromHeader : BitVec 32 :=
  dataRows.maxEnd header (textRows.maxEnd header 0x100 textRows.count) dataRows.count

namespace SectionRows

def endOf (i : ℕ) : ℕ := (rows.offset header i).toNat + (rows.size header i).toNat

def CoveredBy (fileSize : ℕ) : Prop :=
  ∀ i < rows.count, rows.size header i ≠ 0 → rows.endOf header i ≤ fileSize

/-- No end of a non-empty section wraps. -/
def EndsFit : Prop := rows.CoveredBy header (2^32 - 1)

variable {header rows} {start : BitVec 32}

theorem start_le_maxEnd (n : ℕ) : start.toNat ≤ (rows.maxEnd header start n).toNat := by
  induction n with
  | zero => exact le_rfl
  | succ n ih =>
    rw [maxEnd]
    split
    · next h =>
      have hlt := BitVec.lt_def.mp h.2
      omega
    · exact ih

/-- An end that does not wrap is not above the maximum. -/
theorem endOf_le_maxEnd {n i : ℕ} (hi : i < n) (hsize : rows.size header i ≠ 0)
    (hfit : rows.endOf header i < 2^32) :
    rows.endOf header i ≤ (rows.maxEnd header start n).toNat := by
  induction n with
  | zero => omega
  | succ n ih =>
    rw [maxEnd]
    by_cases hn : i = n
    · subst hn
      have hsum : (rows.offset header i + rows.size header i).toNat = rows.endOf header i := by
        rw [BitVec.toNat_add]
        exact Nat.mod_eq_of_lt hfit
      split
      · exact hsum.ge
      · next h =>
        have hle : ¬ rows.maxEnd header start i < rows.offset header i + rows.size header i :=
          fun hlt => h ⟨hsize,hlt⟩
        rw [BitVec.lt_def,hsum] at hle
        omega
    · have hle := ih (by omega)
      split
      · next h =>
        have hlt := BitVec.lt_def.mp h.2
        omega
      · exact hle

theorem coveredBy_mono {a b : ℕ} (hab : a ≤ b) (h : rows.CoveredBy header a) :
    rows.CoveredBy header b :=
  fun i hi hsize => (h i hi hsize).trans hab

theorem coveredBy_maxEnd (hfit : rows.EndsFit header) :
    rows.CoveredBy header (rows.maxEnd header start rows.count).toNat := fun i hi hsize => by
  have hlt := hfit i hi hsize
  exact endOf_le_maxEnd hi hsize (by omega)

end SectionRows

/-- The size covers every non-empty section exactly when no end of one wraps. -/
theorem dol_size_covers_iff :
    (textRows.CoveredBy header (dolFileSizeFromHeader header).toNat ∧
      dataRows.CoveredBy header (dolFileSizeFromHeader header).toNat) ↔
    textRows.EndsFit header ∧ dataRows.EndsFit header := by
  have hlt : (dolFileSizeFromHeader header).toNat ≤ 2^32 - 1 := by
    have := (dolFileSizeFromHeader header).isLt
    omega
  constructor
  · rintro ⟨htext,hdata⟩
    exact ⟨SectionRows.coveredBy_mono hlt htext,SectionRows.coveredBy_mono hlt hdata⟩
  · rintro ⟨htext,hdata⟩
    refine ⟨?_,SectionRows.coveredBy_maxEnd hdata⟩
    exact SectionRows.coveredBy_mono (SectionRows.start_le_maxEnd _)
      (SectionRows.coveredBy_maxEnd htext)

/-- A header whose first text section starts at `0x100` and has `0xFFFFFF80` bytes. -/
def wrappingHeader : ℕ → BitVec 8
  | 2 => 0x01
  | 0x90 => 0xFF
  | 0x91 => 0xFF
  | 0x92 => 0xFF
  | 0x93 => 0x80
  | _ => 0

/-- The end of its only section wraps to `0x80`, and the size is that of the header alone. -/
theorem dol_size_misses_section :
    ¬ (textRows.CoveredBy wrappingHeader (dolFileSizeFromHeader wrappingHeader).toNat ∧
      dataRows.CoveredBy wrappingHeader (dolFileSizeFromHeader wrappingHeader).toNat) := by
  rintro ⟨htext,-⟩
  have h := htext 0 (by decide) (by decide)
  revert h
  decide

end Disc

end DolRecomp
