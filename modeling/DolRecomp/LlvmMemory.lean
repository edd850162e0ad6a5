import DolRecomp.GuestMemory
import Mathlib.Data.Nat.Bitwise

/-!
# Guest accesses in LLVM code

`emitGuestLoad` and `emitGuestStore` compute the address of an access in
generated code. They find the bytes that `resolve_addr` finds.
-/

namespace DolRecomp

open DolRecomp.Runtime

namespace LlvmMemory

/-- Where an access goes, with the offset of its first byte. -/
inductive GuestPath
  | mem1 (offset : BitVec 32)
  | mem2 (offset : BitVec 32)
  | slow
  deriving DecidableEq, Repr

def normalizeAddress (address : BitVec 32) : BitVec 32 := address &&& ~~~0x40000000#32

def rangeCheck (normalized base size : BitVec 32) (width : ℕ) : Bool :=
  BitVec.ofNat 32 width ≤ size && normalized - base ≤ size - BitVec.ofNat 32 width

def guestPath (ramSize mem2Size : BitVec 32) (mem2Present : Bool) (address : BitVec 32)
    (width : ℕ) : GuestPath :=
  let normalized := normalizeAddress address
  if rangeCheck normalized gcRamBase ramSize width then .mem1 (normalized - gcRamBase)
  else if mem2Present && rangeCheck normalized wiiMem2Base mem2Size width then
    .mem2 (normalized - wiiMem2Base)
  else .slow

/-- An integer load on a little-endian machine. -/
def readLe (bytes : ℕ → BitVec 8) (offset : ℕ) : ℕ → BitVec 64
  | 0 => 0
  | n+1 => (readLe bytes (offset + 1) n <<< 8) ||| (bytes offset).zeroExtend 64

def writeLe (bytes : ℕ → BitVec 8) (offset width : ℕ) (value : BitVec 64) : ℕ → BitVec 8 :=
  fun n => if offset ≤ n ∧ n < offset + width then (value >>> (8*(n - offset))).truncate 8
    else bytes n

/-- `llvm.bswap` on the low `width` bytes. -/
def bswap (value : BitVec 64) : ℕ → BitVec 64
  | 0 => 0
  | n+1 => ((value &&& 0xFF#64) <<< (8*n)) ||| bswap (value >>> 8) n

def endianLoad (bytes : ℕ → BitVec 8) (offset width : ℕ) : BitVec 64 :=
  bswap (readLe bytes offset width) width

def endianStore (bytes : ℕ → BitVec 8) (offset width : ℕ) (value : BitVec 64) : ℕ → BitVec 8 :=
  writeLe bytes offset width (bswap (truncateWidth width value) width)

/-- The value of a load, unless the service is called. -/
def emitGuestLoad (cpu : CPUState) (mem2Size : BitVec 32) (mem2Present : Bool)
    (address : BitVec 32) (width : ℕ) : Option (BitVec 64) :=
  match guestPath cpu.ramSize mem2Size mem2Present address width with
  | .mem1 offset => some (endianLoad cpu.ram offset.toNat width)
  | .mem2 offset => some (endianLoad cpu.mem2 offset.toNat width)
  | .slow => none

/-- The bytes of the two regions behind a store. -/
def emitGuestStore (cpu : CPUState) (mem2Size : BitVec 32) (mem2Present : Bool)
    (address : BitVec 32) (value : BitVec 64) (width : ℕ) : Region → ℕ → BitVec 8 :=
  match guestPath cpu.ramSize mem2Size mem2Present address width with
  | .mem1 offset => Function.update (bytesOf cpu) .ram (endianStore cpu.ram offset.toNat width value)
  | .mem2 offset =>
    Function.update (bytesOf cpu) .mem2 (endianStore cpu.mem2 offset.toNat width value)
  | .slow => bytesOf cpu

theorem getLsbD_readLe (bytes : ℕ → BitVec 8) (offset width : ℕ) (hw : width ≤ 8) (n : ℕ) :
    (readLe bytes offset width).getLsbD n =
      (decide (n < 8*width) && (bytes (offset + n/8)).getLsbD (n % 8)) := by
  induction width generalizing offset n with
  | zero => simp [readLe]
  | succ w ih =>
    rw [readLe,BitVec.getLsbD_or,BitVec.getLsbD_shiftLeft,ih _ (by omega)]
    by_cases h : n < 8
    · have hd : n/8 = 0 := Nat.div_eq_of_lt h
      have hm : n % 8 = n := Nat.mod_eq_of_lt h
      have hlt : n < 64 := by omega
      have hlt' : n < 8*(w + 1) := by omega
      simp [h,hd,hm,hlt,hlt']
    · have hb : (bytes offset).getLsbD n = false := BitVec.getLsbD_of_ge _ _ (by omega)
      have hx : offset + 1 + (n - 8)/8 = offset + n/8 := by omega
      have hm : (n - 8) % 8 = n % 8 := by omega
      have hiff : n < 8*(w + 1) ↔ n - 8 < 8*w := by omega
      by_cases hlt' : n - 8 < 8*w
      · have hlt : n < 64 := by omega
        simp [h,hb,hx,hm,hiff,hlt',hlt]
      · simp [h,hb,hiff,hlt']

theorem getLsbD_bswap (value : BitVec 64) (width : ℕ) (hw : width ≤ 8) (n : ℕ) :
    (bswap value width).getLsbD n =
      (decide (n < 8*width) && value.getLsbD (8*(width - 1 - n/8) + n % 8)) := by
  induction width generalizing value with
  | zero => simp [bswap]
  | succ w ih =>
    rw [bswap,BitVec.getLsbD_or,BitVec.getLsbD_shiftLeft,BitVec.getLsbD_and,ih _ (by omega)]
    have hff : ∀ k, (0xFF#64).getLsbD k = decide (k < 8) := by
      intro k
      by_cases hk : k < 64
      · revert k
        decide
      · rw [BitVec.getLsbD_of_ge _ _ (by omega)]
        simp
        omega
    rw [hff]
    by_cases h : n < 8*w
    · have hx : 8 + (8*(w - 1 - n/8) + n % 8) = 8*(w + 1 - 1 - n/8) + n % 8 := by omega
      have hlt : n < 8*(w + 1) := by omega
      simp only [h,hlt,hx,BitVec.getLsbD_ushiftRight,decide_true,Bool.true_and,Bool.not_true,
        Bool.and_false,Bool.false_and,Bool.false_or]
    · by_cases hlt : n < 8*(w + 1)
      · have hx : 8*(w - n/8) + n % 8 = n - 8*w := by omega
        have h8 : n - 8*w < 8 := by omega
        have h64 : n < 64 := by omega
        simp [h,hlt,hx,h8,h64]
      · have h8 : ¬ n - 8*w < 8 := by omega
        simp [h,hlt,h8]

theorem endianLoad_eq (bytes : ℕ → BitVec 8) (offset width : ℕ) (hw : width ≤ 8) :
    endianLoad bytes offset width = readBe bytes offset width := by
  apply BitVec.eq_of_getLsbD_eq
  intro n hn
  rw [endianLoad,getLsbD_bswap _ _ hw,getLsbD_readLe _ _ _ hw,getLsbD_readBe _ _ _ hw]
  by_cases h : n < 8*width
  · have hlt : 8*(width - 1 - n/8) + n % 8 < 8*width := by omega
    have hd : (8*(width - 1 - n/8) + n % 8)/8 = width - 1 - n/8 := by omega
    have hm : (8*(width - 1 - n/8) + n % 8) % 8 = n % 8 := by omega
    have hx : offset + (width - 1 - n/8) = offset + width - 1 - n/8 := by omega
    simp only [h,hlt,hd,hm,hx,decide_true,Bool.true_and]
  · simp [h]

theorem getLsbD_truncateWidth (value : BitVec 64) {width : ℕ} (hw : width ≤ 8) (n : ℕ) :
    (truncateWidth width value).getLsbD n = (decide (n < 8*width) && value.getLsbD n) := by
  rw [truncateWidth,BitVec.getLsbD_and,BitVec.getLsbD_ofNat,Nat.testBit_two_pow_sub_one]
  by_cases h : n < 8*width
  · have hlt : n < 64 := by omega
    simp [h,hlt]
  · simp [h]

theorem endianStore_eq (bytes : ℕ → BitVec 8) (offset width : ℕ) (hw : width ≤ 8)
    (value : BitVec 64) :
    endianStore bytes offset width value = writeBe bytes offset width value := by
  funext n
  rw [endianStore,writeLe,writeBe]
  split
  next h =>
    apply BitVec.eq_of_getLsbD_eq
    intro k hk
    simp only [BitVec.truncate_eq_setWidth,BitVec.getLsbD_setWidth,BitVec.getLsbD_ushiftRight,
      getLsbD_bswap _ _ hw,getLsbD_truncateWidth _ hw]
    have hlt : 8*(n - offset) + k < 8*width := by omega
    have hx : 8*(width - 1 - (8*(n - offset) + k)/8) + (8*(n - offset) + k) % 8 =
        8*(offset + width - 1 - n) + k := by omega
    have hlt' : 8*(offset + width - 1 - n) + k < 8*width := by omega
    simp only [hk,hlt,hx,hlt',decide_true,Bool.true_and]
  next => rfl

/-- The path of the runtime: `resolve_addr` and the test of the bytes left. -/
def runtimePath (cpu : CPUState) (address : BitVec 32) (width : ℕ) : GuestPath :=
  match resolveAddr cpu address with
  | some (region,offset,avail) =>
    if avail.toNat < width then .slow
    else match region with
      | .ram => .mem1 offset
      | .mem2 => .mem2 offset
  | none => .slow

def pathOf : Region → BitVec 32 → GuestPath
  | .ram, offset => .mem1 offset
  | .mem2, offset => .mem2 offset

/-- A word is the sum of what a mask clears and what it keeps. -/
theorem and_not_add_and (x m : BitVec 32) :
    (x &&& ~~~m).toNat + (x &&& m).toNat = x.toNat := by
  have hand : (x &&& ~~~m) &&& (x &&& m) = 0#32 := by
    apply BitVec.eq_of_getLsbD_eq
    intro n hn
    simp only [BitVec.getLsbD_and,BitVec.getLsbD_not,hn,decide_true,Bool.true_and]
    cases x.getLsbD n <;> cases m.getLsbD n <;> simp
  have hor : (x &&& ~~~m) + (x &&& m) = x := by
    rw [BitVec.add_eq_or_of_and_eq_zero _ _ hand]
    apply BitVec.eq_of_getLsbD_eq
    intro n hn
    simp only [BitVec.getLsbD_or,BitVec.getLsbD_and,BitVec.getLsbD_not,hn,decide_true,
      Bool.true_and]
    cases x.getLsbD n <;> cases m.getLsbD n <;> rfl
  rw [← BitVec.toNat_add_of_and_eq_zero hand,hor]

theorem normalizeAddress_toNat (address : BitVec 32) : (normalizeAddress address).toNat =
    if address.toNat/2^30 % 2 = 1 then address.toNat - 2^30 else address.toNat := by
  have hbit : (address &&& 0x40000000#32).toNat = 2^30*(address.toNat/2^30 % 2) := by
    rw [BitVec.toNat_and,show (0x40000000#32).toNat = 2^30 by rfl,Nat.and_two_pow,
      Nat.toNat_testBit,Nat.mul_comm]
  have hsum := and_not_add_and address 0x40000000#32
  rw [hbit] at hsum
  rw [normalizeAddress]
  split <;> omega

/-- The range check passes when all bytes are in the region, through either alias. -/
theorem rangeCheck_iff {address base size : BitVec 32} {width : ℕ} (hw : width ≤ 8)
    (hsize : size.toNat ≤ 2^26) (hbase : base.toNat/2^30 = 2) (hwin : base.toNat % 2^30 ≤ 2^28) :
    rangeCheck (normalizeAddress address) base size width ↔
      (normalizeAddress address - base).toNat + width ≤ size.toNat ∧
        (address.toNat = base.toNat + (normalizeAddress address - base).toNat ∨
          address.toNat = base.toNat + 2^30 + (normalizeAddress address - base).toNat) := by
  have hn := normalizeAddress_toNat address
  have ha := address.isLt
  have hof : (BitVec.ofNat 32 width).toNat = width := by
    rw [BitVec.toNat_ofNat]
    omega
  have hsub : (normalizeAddress address - base).toNat =
      if base.toNat ≤ (normalizeAddress address).toNat then
        (normalizeAddress address).toNat - base.toNat
      else 2^32 - base.toNat + (normalizeAddress address).toNat := by
    rw [BitVec.toNat_sub]
    split <;> omega
  rw [rangeCheck,Bool.and_eq_true,decide_eq_true_iff,decide_eq_true_iff]
  constructor
  · rintro ⟨hle,hlast⟩
    have hlast := BitVec.le_def.mp hlast
    rw [BitVec.toNat_sub_of_le hle,hof] at hlast
    rw [BitVec.le_def,hof] at hle
    split at hsub <;> split at hn <;> omega
  · rintro ⟨hfit,-⟩
    have hle : BitVec.ofNat 32 width ≤ size := by
      rw [BitVec.le_def,hof]
      omega
    refine ⟨hle,?_⟩
    rw [BitVec.le_def,BitVec.toNat_sub_of_le hle,hof]
    omega

theorem runtimePath_fits {cpu : CPUState} (h : Sized cpu) {address offset : BitVec 32} {width : ℕ}
    {region : Region} (hf : Fits cpu address width region offset.toNat) :
    runtimePath cpu address width = pathOf region offset := by
  obtain ⟨o,avail,hr,ho,ha⟩ := resolveAddr_fits h hf
  obtain rfl : o = offset := BitVec.eq_of_toNat_eq ho
  simp only [runtimePath,hr,if_neg ha]
  cases region <;> rfl

theorem runtimePath_not_fits {cpu : CPUState} (h : Sized cpu) {address : BitVec 32} {width : ℕ}
    (hf : ∀ region offset, ¬ Fits cpu address width region offset) :
    runtimePath cpu address width = .slow := by
  unfold runtimePath
  cases hr : resolveAddr cpu address with
  | none => rfl
  | some r =>
    obtain ⟨region,o,avail⟩ := r
    simp only [if_pos (resolveAddr_not_fits h hf hr)]

theorem rangeCheck_fits {cpu : CPUState} (h : Sized cpu) (address size : BitVec 32)
    {base : BitVec 32} {region : Region} {width : ℕ} (hw : width ≤ 8) (hpos : 0 < width)
    (hb : base = gcRamBase ∧ region = .ram ∨ base = wiiMem2Base ∧ region = .mem2)
    (hs : size.toNat = sizeOf cpu region) :
    rangeCheck (normalizeAddress address) base size width ↔
      Fits cpu address width region (normalizeAddress address - base).toNat := by
  have hram := h.ram_le
  have hmem2 := h.mem2_le
  have hlt : (normalizeAddress address - base).toNat + width ≤ size.toNat →
      (normalizeAddress address - base).toNat < size.toNat := by omega
  rcases hb with ⟨rfl,rfl⟩ | ⟨rfl,rfl⟩
  · rw [rangeCheck_iff hw (by rw [hs]; exact hram.trans (by decide)) (by decide) (by decide)]
    constructor
    · rintro ⟨hfit,hr⟩
      rw [hs] at hfit hlt
      exact ⟨names_cases.mpr ⟨hlt hfit,.inl ⟨rfl,hr⟩⟩,hfit⟩
    · rintro ⟨hn,hfit⟩
      rcases (names_cases.mp hn).2 with ⟨-,hr⟩ | ⟨hr,-⟩
      · exact ⟨hs ▸ hfit,hr⟩
      · cases hr
  · rw [rangeCheck_iff hw (by rw [hs]; exact hmem2.trans (by decide)) (by decide) (by decide)]
    constructor
    · rintro ⟨hfit,hr⟩
      rw [hs] at hfit hlt
      exact ⟨names_cases.mpr ⟨hlt hfit,.inr ⟨rfl,hr⟩⟩,hfit⟩
    · rintro ⟨hn,hfit⟩
      rcases (names_cases.mp hn).2 with ⟨hr,-⟩ | ⟨-,hr⟩
      · cases hr
      · exact ⟨hs ▸ hfit,hr⟩

theorem fits_offset {cpu : CPUState} (h : Sized cpu) {address base : BitVec 32} {region : Region}
    {width offset : ℕ} (hb : base = gcRamBase ∧ region = .ram ∨ base = wiiMem2Base ∧ region = .mem2)
    (hf : Fits cpu address width region offset) :
    (normalizeAddress address - base).toNat = offset := by
  have hram := h.ram_le
  have hmem2 := h.mem2_le
  have hn := normalizeAddress_toNat address
  have hb1 : gcRamBase.toNat = 0x80000000 := rfl
  have hb3 : wiiMem2Base.toNat = 0x90000000 := rfl
  have hlt := hf.1.1
  rcases hb with ⟨rfl,rfl⟩ | ⟨rfl,rfl⟩
  · rcases (names_cases.mp hf.1).2 with ⟨-,ha⟩ | ⟨hr,-⟩
    · simp only [Runtime.sizeOf] at hlt
      rw [BitVec.toNat_sub,hb1]
      split at hn <;> omega
    · cases hr
  · rcases (names_cases.mp hf.1).2 with ⟨hr,-⟩ | ⟨-,ha⟩
    · cases hr
    · simp only [Runtime.sizeOf] at hlt
      rw [BitVec.toNat_sub,hb3]
      split at hn <;> omega

def withMem2 (cpu : CPUState) (mem2Size : BitVec 32) (mem2Present : Bool) : CPUState :=
  { cpu with mem2Size := if mem2Present then mem2Size else 0 }

theorem guestPath_eq {cpu : CPUState} {mem2Size : BitVec 32} {mem2Present : Bool}
    (h : Sized (withMem2 cpu mem2Size mem2Present)) (address : BitVec 32) (width : Width) :
    guestPath cpu.ramSize mem2Size mem2Present address width.bytes =
      runtimePath (withMem2 cpu mem2Size mem2Present) address width.bytes := by
  have hw : width.bytes ≤ 8 := by cases width <;> decide
  have hpos : 0 < width.bytes := by cases width <;> decide
  have hram := rangeCheck_fits h address cpu.ramSize hw hpos
    (.inl ⟨rfl,rfl⟩) rfl
  have hmem2 : (mem2Present && rangeCheck (normalizeAddress address) wiiMem2Base mem2Size
      width.bytes) = true ↔ Fits (withMem2 cpu mem2Size mem2Present) address width.bytes .mem2
        (normalizeAddress address - wiiMem2Base).toNat := by
    cases mem2Present with
    | false =>
      simp only [Bool.false_and,Bool.false_eq_true,false_iff]
      exact fun hf => absurd hf.1.1 (Nat.not_lt_zero _)
    | true =>
      rw [Bool.true_and]
      exact rangeCheck_fits h address mem2Size hw hpos (.inr ⟨rfl,rfl⟩) rfl
  unfold guestPath
  dsimp only
  split
  next hc => exact (runtimePath_fits h (hram.mp hc)).symm
  next hc =>
    split
    next hc2 => exact (runtimePath_fits h (hmem2.mp hc2)).symm
    next hc2 =>
      refine (runtimePath_not_fits h fun region offset hf => ?_).symm
      cases region with
      | ram =>
        have ho := fits_offset h (.inl ⟨rfl,rfl⟩) hf
        exact hc (hram.mpr (ho ▸ hf))
      | mem2 =>
        have ho := fits_offset h (.inr ⟨rfl,rfl⟩) hf
        exact hc2 (hmem2.mpr (ho ▸ hf))

/-- The generated code and the runtime take the same path, with the same offset, and there load
and store the same bytes. -/
theorem llvm_memory_agrees {cpu : CPUState} {mem2Size : BitVec 32} (hram : cpu.ramSize ≤ gcMainRamSize)
    (hmem2 : mem2Size ≤ wiiMem2Size) (mem2Present : Bool) (address : BitVec 32) (width : Width) :
    guestPath cpu.ramSize mem2Size mem2Present address width.bytes =
      runtimePath (withMem2 cpu mem2Size mem2Present) address width.bytes ∧
    (∀ host, emitGuestLoad cpu mem2Size mem2Present address width.bytes =
      if runtimePath (withMem2 cpu mem2Size mem2Present) address width.bytes = .slow then none
      else some (memValue host (withMem2 cpu mem2Size mem2Present) address width.bytes)) ∧
    (∀ value, emitGuestStore cpu mem2Size mem2Present address value width.bytes =
      bytesOf (memWrite (withMem2 cpu mem2Size mem2Present) address value width.bytes)) := by
  have h : Sized (withMem2 cpu mem2Size mem2Present) := by
    refine ⟨hram,?_⟩
    cases mem2Present with
    | false => exact BitVec.le_def.mpr (Nat.zero_le _)
    | true => exact hmem2
  have hw : width.bytes ≤ 8 := by cases width <;> decide
  have hpath := guestPath_eq h address width
  rw [emitGuestLoad,hpath]
  simp only [emitGuestStore,hpath]
  by_cases hfit : ∃ region offset, Fits (withMem2 cpu mem2Size mem2Present) address width.bytes
      region offset
  · obtain ⟨region,offset,hf⟩ := hfit
    obtain ⟨o,avail,hr,rfl,ha⟩ := resolveAddr_fits h hf
    rw [runtimePath_fits h hf]
    refine ⟨trivial,fun host => ?_,fun value => ?_⟩
    · rw [memValue_fits host h hf]
      cases region <;> simp only [pathOf,reduceCtorEq,if_false,endianLoad_eq _ _ _ hw] <;> rfl
    · funext region' n
      rw [bytesOf_memWrite h hf]
      cases region <;> cases region' <;>
        simp [pathOf,Function.update,endianStore_eq _ _ _ hw,writeBe] <;> rfl
  · push Not at hfit
    rw [runtimePath_not_fits h hfit]
    refine ⟨trivial,fun host => rfl,fun value => ?_⟩
    rw [memWrite_not_fits h hfit]
    funext region n
    cases region <;> rfl

/-- The last word of MEM1, through the uncached alias. -/
theorem llvm_memory_agrees_lastWord :
    guestPath gcMainRamSize 0 false 0xC17FFFFC 4 = .mem1 0x017FFFFC ∧
    guestPath gcMainRamSize 0 false 0xC17FFFFC 4 =
      runtimePath (withMem2 cpuInit 0 false) 0xC17FFFFC 4 :=
  ⟨by decide,(llvm_memory_agrees (show cpuInit.ramSize ≤ gcMainRamSize by decide) (by decide) false
    0xC17FFFFC .w32).1⟩

end LlvmMemory

end DolRecomp
