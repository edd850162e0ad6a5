import DolRecomp.Alignment
import DolRecomp.Relocation
import DolRecomp.Emitter

/-!
# Relocated branches and address pairs

`ppc_decode` reads back the target that `apply_relocation` wrote into a branch
word, as long as the field holds the target. The halves of an address that are
written into `lis` and `addi` or `ori` add up to it.
-/

namespace DolRecomp

open Decoder

namespace Rel

theorem getLsbD_readBe32 (bytes : ℕ → BitVec 8) (offset n : ℕ) :
    (readBe32 bytes offset).getLsbD n =
      (decide (n < 32) && (bytes (offset + 3 - n/8)).getLsbD (n % 8)) := by
  rw [readBe32,BitVec.truncate_eq_setWidth,BitVec.getLsbD_setWidth,
    Runtime.getLsbD_readBe _ _ _ (by omega)]
  simp

theorem readBe32_writeBe32 (bytes : ℕ → BitVec 8) (offset : ℕ) (word : BitVec 32) :
    readBe32 (writeBe32 bytes offset word) offset = word := by
  apply BitVec.eq_of_getLsbD_eq
  intro n hn
  rw [readBe32,writeBe32,BitVec.truncate_eq_setWidth,BitVec.getLsbD_setWidth,
    Runtime.getLsbD_readBe_writeBe _ _ _ (by omega)]
  simp [hn,show n < 64 by omega]

theorem readBe32_patchWord (bytes : ℕ → BitVec 8) (offset : ℕ) (keep bits : BitVec 32) :
    readBe32 (patchWord bytes offset keep bits) offset =
      (readBe32 bytes offset &&& keep) ||| bits :=
  readBe32_writeBe32 _ _ _

theorem readBe32_writeBe16 (bytes : ℕ → BitVec 8) (offset : ℕ) (half : BitVec 16) :
    readBe32 (writeBe16 bytes (offset + 2) half) offset =
      (readBe32 bytes offset).extractLsb' 16 16 ++ half := by
  apply BitVec.eq_of_getLsbD_eq
  intro n hn
  rw [getLsbD_readBe32,BitVec.getLsbD_append,BitVec.getLsbD_extractLsb',getLsbD_readBe32]
  have hm : n % 8 < 8 := Nat.mod_lt _ (by omega)
  by_cases h : n < 16
  · have hx : 8*(offset + 3 - (offset + 3 - n/8)) + n % 8 = n := by omega
    have hlt : n < 64 := by omega
    rw [writeBe16,Runtime.writeBe_inside _ _ _ _ (by omega) (by omega)]
    simp [h,hn,hm,hx,hlt]
  · have hx : offset + 3 - n/8 = offset + 3 - (16 + (n - 16))/8 := by omega
    have hx' : (16 + (n - 16)) % 8 = n % 8 := by omega
    have hlt : n - 16 < 16 := by omega
    have hlt' : 16 + (n - 16) < 32 := by omega
    rw [writeBe16,Runtime.writeBe_outside _ _ _ _ (by omega)]
    simp [h,hn,hx,hx',hlt,hlt']

/-- The bits of a branch word that its relocation keeps. -/
def RelocationType.kept : RelocationType → BitVec 32
  | .addr24 | .rel24 => 0xFC000003#32
  | _ => 0xFFFF0003#32

/-- A branch word with the `AA` bit of the relocation. -/
def Matches (type : RelocationType) (word : BitVec 32) : Prop :=
  match type with
  | .rel24 => ppcPrimary word = 18 ∧ word.getLsbD 1 = false
  | .addr24 => ppcPrimary word = 18 ∧ word.getLsbD 1 = true
  | .rel14 => ppcPrimary word = 16 ∧ word.getLsbD 1 = false
  | .addr14 => ppcPrimary word = 16 ∧ word.getLsbD 1 = true
  | _ => False

instance (type : RelocationType) (word : BitVec 32) : Decidable (Matches type word) := by
  unfold Matches
  split <;> infer_instance

/-- The patched word decodes to the target and is otherwise the branch it was. -/
structure BranchRelocated (type : RelocationType) (bytes bytes' : ℕ → BitVec 8) (offset : ℕ)
    (place target : BitVec 32) : Prop where
  decoded : ppcDecode (readBe32 bytes' offset) place =
    { ppcDecode (readBe32 bytes offset) place with
      raw := readBe32 bytes' offset, branchTarget := target }
  field : readBe32 bytes' offset &&& type.kept = readBe32 bytes offset &&& type.kept
  outside : ∀ n, n < offset ∨ offset + 4 ≤ n → bytes' n = bytes n

/-- The absolute target fits the sign-extended field; a relative one is checked. -/
def TargetFits (type : RelocationType) (target : BitVec 32) : Prop :=
  match type with
  | .addr24 => checkRelDelta target (-0x02000000) 0x01FFFFFC
  | .addr14 => checkRelDelta target (-0x8000) 0x7FFC
  | _ => True

theorem extractLsb'_append {x : BitVec 32} (h : x &&& 3#32 = 0) (k : ℕ) :
    x.extractLsb' 2 k ++ 0#2 = x.setWidth (k + 2) := by
  have hmod := (Alignment.and_three_eq_zero _).mp h
  have hmul : x.toNat % (4*2^k) = x.toNat % 4 + 4*(x.toNat/4 % 2^k) := Nat.mod_mul
  apply BitVec.eq_of_toNat_eq
  rw [BitVec.toNat_append,BitVec.extractLsb'_toNat,BitVec.toNat_setWidth,Nat.shiftRight_eq_div_pow,
    Nat.shiftLeft_eq,show 2^(k + 2) = 4*2^k by ring,hmul,hmod]
  show x.toNat/4 % 2^k*4 ||| 0 = 0 + 4*(x.toNat/4 % 2^k)
  rw [Nat.or_zero,Nat.zero_add,Nat.mul_comm]

/-- An aligned word that comes back from its field is in the range of the field. -/
theorem signExtend_field {x : BitVec 32} (h : x &&& 3#32 = 0) {k : ℕ} (hk : k + 2 ≤ 32) :
    (x.extractLsb' 2 k ++ 0#2).signExtend 32 = x ↔
      (x.toNat : ℤ).bmod (2^(k + 2)) = (x.toNat : ℤ).bmod (2^32) := by
  rw [extractLsb'_append h,← BitVec.toInt_inj,BitVec.toInt_signExtend_of_le hk,
    BitVec.toInt_setWidth,BitVec.toInt_eq_toNat_bmod]

theorem displacement24_eq {x : BitVec 32} (h : x &&& 3#32 = 0) :
    displacement24 x = x ↔ checkRelDelta x (-0x02000000) 0x01FFFFFC := by
  have hmod := (Alignment.and_three_eq_zero _).mp h
  rw [displacement24,signExtend_field h (by omega),checkRelDelta,decide_eq_true_iff,
    BitVec.toInt_eq_toNat_bmod]
  have hlt := x.isLt
  generalize x.toNat = n at hmod hlt
  simp only [h,true_and,Int.bmod]
  omega

theorem displacement14_eq {x : BitVec 32} (h : x &&& 3#32 = 0) :
    displacement14 x = x ↔ checkRelDelta x (-0x8000) 0x7FFC := by
  have hmod := (Alignment.and_three_eq_zero _).mp h
  rw [displacement14,signExtend_field h (by omega),checkRelDelta,decide_eq_true_iff,
    BitVec.toInt_eq_toNat_bmod]
  have hlt := x.isLt
  generalize x.toNat = n at hmod hlt
  simp only [h,true_and,Int.bmod]
  omega

theorem checkRelDelta_aligned {x : BitVec 32} {min max : ℤ} (h : checkRelDelta x min max) :
    x &&& 3#32 = 0 := (of_decide_eq_true h).1

/-- The fields of a word of which some bits are kept and the others come from `x`. -/
structure Merged (word x patched : BitVec 32) (keep : BitVec 32) : Prop where
  low : ∀ n, keep.getLsbD n = true → patched.getLsbD n = word.getLsbD n
  high : ∀ n, n < 32 → keep.getLsbD n = false → patched.getLsbD n = x.getLsbD n

theorem merged (word x : BitVec 32) {keep mask : BitVec 32} (h : mask = ~~~keep) :
    Merged word x ((word &&& keep) ||| (x &&& mask)) keep where
  low n hn := by
    have hlt : n < 32 := BitVec.lt_of_getLsbD hn
    simp only [h,BitVec.getLsbD_or,BitVec.getLsbD_and,BitVec.getLsbD_not,hn,hlt,decide_true,
      Bool.and_true,Bool.not_true,Bool.and_false,Bool.or_false]
  high n hlt hn := by
    simp only [h,BitVec.getLsbD_or,BitVec.getLsbD_and,BitVec.getLsbD_not,hn,hlt,decide_true,
      Bool.and_false,Bool.not_false,Bool.and_true,Bool.false_or]

/-- A field inside the kept bits. -/
theorem Merged.extract_low {word x patched keep : BitVec 32} (h : Merged word x patched keep)
    (start len : ℕ) (hk : ∀ n, n < len → keep.getLsbD (start + n) = true) :
    patched.extractLsb' start len = word.extractLsb' start len := by
  apply BitVec.eq_of_getLsbD_eq
  intro n hn
  rw [BitVec.getLsbD_extractLsb',BitVec.getLsbD_extractLsb',h.low _ (hk n hn)]

theorem Merged.extract_high {word x patched keep : BitVec 32} (h : Merged word x patched keep)
    (start len : ℕ) (hk : ∀ n, n < len → start + n < 32 ∧ keep.getLsbD (start + n) = false) :
    patched.extractLsb' start len = x.extractLsb' start len := by
  apply BitVec.eq_of_getLsbD_eq
  intro n hn
  rw [BitVec.getLsbD_extractLsb',BitVec.getLsbD_extractLsb',h.high _ (hk n hn).1 (hk n hn).2]

theorem Merged.and_keep {word x patched keep : BitVec 32} (h : Merged word x patched keep) :
    patched &&& keep = word &&& keep := by
  apply BitVec.eq_of_getLsbD_eq
  intro n hn
  rw [BitVec.getLsbD_and,BitVec.getLsbD_and]
  cases hk : keep.getLsbD n with
  | false => rw [Bool.and_false,Bool.and_false]
  | true => rw [h.low n hk]

theorem decode_b {word place : BitVec 32} (h : ppcPrimary word = 18) : ppcDecode word place =
    { raw := word, address := place, op := .b, aa := word.getLsbD 1, lk := word.getLsbD 0,
      branchTarget := branchDestination word place (displacement24 word) } := by
  simp only [ppcDecode,h]

theorem decode_bc {word place : BitVec 32} (h : ppcPrimary word = 16) : ppcDecode word place =
    { raw := word, address := place, op := .bc, bo := ppcBo word, bi := ppcBi word,
      aa := word.getLsbD 1, lk := word.getLsbD 0,
      branchTarget := branchDestination word place (displacement14 word) } := by
  simp only [ppcDecode,h]

/-- A patched branch decodes to the destination of the new displacement. -/
theorem decode_b_merged {word x patched place : BitVec 32} (h : ppcPrimary word = 18)
    (hm : Merged word x patched 0xFC000003#32) : ppcDecode patched place =
    { ppcDecode word place with
      raw := patched, branchTarget := branchDestination word place (displacement24 x) } := by
  have hp : ppcPrimary patched = 18 := by
    rw [ppcPrimary,hm.extract_low 26 6 (by decide)]
    exact h
  have hd : displacement24 patched = displacement24 x := by
    rw [displacement24,hm.extract_high 2 24 (by decide),displacement24]
  rw [decode_b hp,decode_b h,hm.low 1 (by decide),hm.low 0 (by decide),hd,branchDestination,
    branchDestination,hm.low 1 (by decide)]
  rfl

theorem decode_bc_merged {word x patched place : BitVec 32} (h : ppcPrimary word = 16)
    (hm : Merged word x patched 0xFFFF0003#32) : ppcDecode patched place =
    { ppcDecode word place with
      raw := patched, branchTarget := branchDestination word place (displacement14 x) } := by
  have hp : ppcPrimary patched = 16 := by
    rw [ppcPrimary,hm.extract_low 26 6 (by decide)]
    exact h
  have hd : displacement14 patched = displacement14 x := by
    rw [displacement14,hm.extract_high 2 14 (by decide),displacement14]
  have hbo : ppcBo patched = ppcBo word := hm.extract_low 21 5 (by decide)
  have hbi : ppcBi patched = ppcBi word := hm.extract_low 16 5 (by decide)
  rw [decode_bc hp,decode_bc h,hm.low 1 (by decide),hm.low 0 (by decide),hd,hbo,hbi,
    branchDestination,branchDestination,hm.low 1 (by decide)]
  rfl

theorem patchWord_outside (bytes : ℕ → BitVec 8) (offset : ℕ) (keep bits : BitVec 32) {n : ℕ}
    (h : n < offset ∨ offset + 4 ≤ n) : patchWord bytes offset keep bits n = bytes n :=
  Runtime.writeBe_outside _ _ _ _ h

/-- A patch relocates a branch exactly when the patched word decodes to the target. -/
theorem branchRelocated_iff (type : RelocationType) (x dest : BitVec 32) {bytes : ℕ → BitVec 8}
    {offset : ℕ} {place target mask : BitVec 32} (hmask : mask = ~~~type.kept)
    (hd : ∀ patched, Merged (readBe32 bytes offset) x patched type.kept →
      ppcDecode patched place = { ppcDecode (readBe32 bytes offset) place with
        raw := patched, branchTarget := dest }) :
    BranchRelocated type bytes (patchWord bytes offset type.kept (x &&& mask)) offset place target ↔
      dest = target := by
  have hm := merged (readBe32 bytes offset) x hmask
  rw [← readBe32_patchWord] at hm
  constructor
  · intro h
    have := congrArg PPCInst.branchTarget (h.decoded.symm.trans (hd _ hm))
    exact this.symm
  · rintro rfl
    exact ⟨hd _ hm,hm.and_keep,fun n hn => patchWord_outside bytes offset _ _ hn⟩

/-- An accepted relocation of a branch decodes to its target when the target fits the field. -/
theorem applyRelocation_branch {sec : RELSection} {bytes bytes' : ℕ → BitVec 8}
    {offset place target : BitVec 32} {type : RelocationType}
    (h : applyRelocation sec bytes offset place type target = some bytes')
    (hm : Matches type (readBe32 bytes offset.toNat)) :
    BranchRelocated type bytes bytes' offset.toNat place target ↔ TargetFits type target := by
  unfold applyRelocation at h
  cases type with
  | addr24 =>
    obtain ⟨hp,ha⟩ := hm
    simp only [reduceCtorEq,if_false] at h
    split_ifs at h with hr h3
    cases h
    refine (branchRelocated_iff .addr24 target _ rfl fun patched hmerged => ?_).trans
      (displacement24_eq (not_not.mp h3))
    rw [decode_b_merged hp hmerged,branchDestination,if_pos ha]
  | addr14 =>
    obtain ⟨hp,ha⟩ := hm
    simp only [reduceCtorEq,if_false] at h
    split_ifs at h with hr h3
    cases h
    refine (branchRelocated_iff .addr14 target _ rfl fun patched hmerged => ?_).trans
      (displacement14_eq (not_not.mp h3))
    rw [decode_bc_merged hp hmerged,branchDestination,if_pos ha]
  | rel24 =>
    obtain ⟨hp,ha⟩ := hm
    simp only [reduceCtorEq,if_false] at h
    split_ifs at h with hr hc
    cases h
    have hdelta := (displacement24_eq (checkRelDelta_aligned hc)).mpr hc
    refine (branchRelocated_iff .rel24 (target - place) target rfl
      fun patched hmerged => ?_).trans ⟨fun _ => trivial,fun _ => rfl⟩
    rw [decode_b_merged hp hmerged,branchDestination,if_neg (ha ▸ Bool.false_ne_true),hdelta,
      BitVec.add_comm,BitVec.sub_add_cancel]
  | rel14 =>
    obtain ⟨hp,ha⟩ := hm
    simp only [reduceCtorEq,if_false] at h
    split_ifs at h with hr hc
    cases h
    have hdelta := (displacement14_eq (checkRelDelta_aligned hc)).mpr hc
    refine (branchRelocated_iff .rel14 (target - place) target rfl
      fun patched hmerged => ?_).trans ⟨fun _ => trivial,fun _ => rfl⟩
    rw [decode_bc_merged hp hmerged,branchDestination,if_neg (ha ▸ Bool.false_ne_true),hdelta,
      BitVec.add_comm,BitVec.sub_add_cancel]
  | none | addr32 | addr16 | addr16Lo | addr16Hi | addr16Ha | addr14Brtaken | addr14Brntaken
  | dolphinNop | dolphinSection | dolphinEnd | unsupported => cases hm

/-- An instruction word and what a relocation of its low half makes of it. -/
def PatchedHalf (type : RelocationType) (word word' target : BitVec 32) : Prop :=
  ∃ (sec : RELSection) (bytes bytes' : ℕ → BitVec 8) (offset place : BitVec 32) (n : ℕ),
    offset.toNat = n + 2 ∧ applyRelocation sec bytes offset place type target = some bytes' ∧
    readBe32 bytes n = word ∧ readBe32 bytes' n = word'

/-- `lis rD,hi`. -/
def IsLis (word : BitVec 32) : Prop := ppcPrimary word = 15 ∧ ppcRa word = 0

/-- `addi rD,rA,lo` with a register other than `r0`. -/
def IsAddi (word : BitVec 32) (rA : BitVec 5) : Prop :=
  ppcPrimary word = 14 ∧ ppcRa word = rA ∧ rA ≠ 0

/-- `ori rA,rS,lo`. -/
def IsOri (word : BitVec 32) (rS : BitVec 5) : Prop := ppcPrimary word = 24 ∧ ppcRs word = rS

def halfOf (type : RelocationType) (target : BitVec 32) : BitVec 16 :=
  match type with
  | .addr16Hi => (target >>> 16).truncate 16
  | .addr16Ha => ((target + 0x8000#32) >>> 16).truncate 16
  | _ => target.truncate 16

theorem patchedHalf_eq {type : RelocationType} {word word' target : BitVec 32}
    (ht : type = .addr16Lo ∨ type = .addr16Hi ∨ type = .addr16Ha)
    (h : PatchedHalf type word word' target) :
    word' = word.extractLsb' 16 16 ++ halfOf type target := by
  obtain ⟨sec,bytes,bytes',offset,place,n,hn,h,rfl,rfl⟩ := h
  unfold applyRelocation at h
  rcases ht with rfl | rfl | rfl <;>
  · simp only [reduceCtorEq,if_false] at h
    split_ifs at h
    cases h
    rw [hn]
    exact readBe32_writeBe16 bytes n _

theorem extractLsb'_high_append (word : BitVec 32) (half : BitVec 16) {start len : ℕ}
    (hs : 16 ≤ start) (hl : start + len ≤ 32) :
    (word.extractLsb' 16 16 ++ half).extractLsb' start len = word.extractLsb' start len := by
  apply BitVec.eq_of_getLsbD_eq
  intro n hn
  have h16 : ¬ start + n < 16 := by omega
  have hlt : start + n - 16 < 16 := by omega
  have hx : 16 + (start + n - 16) = start + n := by omega
  rw [BitVec.getLsbD_extractLsb',BitVec.getLsbD_extractLsb',BitVec.getLsbD_append,if_neg h16,
    BitVec.getLsbD_extractLsb',hx]
  simp [hlt]

theorem extractLsb'_low_append (word : BitVec 32) (half : BitVec 16) :
    (word.extractLsb' 16 16 ++ half).extractLsb' 0 16 = half := by
  apply BitVec.eq_of_getLsbD_eq
  intro n hn
  rw [BitVec.getLsbD_extractLsb',BitVec.getLsbD_append,Nat.zero_add,if_pos hn]
  simp [hn]

theorem signExtend_shiftLeft (half : BitVec 16) :
    (half.signExtend 32 <<< 16).toNat = half.toNat*65536 := by
  rw [BitVec.toNat_shiftLeft,BitVec.toNat_signExtend,BitVec.toNat_setWidth,Nat.shiftLeft_eq]
  have := half.isLt
  split <;> omega

/-- The adjusted high half makes up for the sign of the low half. -/
theorem high_adjusted_add_low (target : BitVec 32) :
    ((halfOf .addr16Ha target).signExtend 32 <<< 16) + (halfOf .addr16Lo target).signExtend 32 =
      target := by
  apply BitVec.eq_of_toNat_eq
  rw [BitVec.toNat_add,signExtend_shiftLeft,BitVec.toNat_signExtend]
  have hlt := target.isLt
  have hlo : (halfOf .addr16Lo target).toNat = target.toNat % 65536 :=
    BitVec.toNat_setWidth 16 target
  have hhi : (halfOf .addr16Ha target).toNat = (target.toNat + 32768) % 4294967296/65536 := by
    rw [halfOf,BitVec.truncate_eq_setWidth,BitVec.toNat_setWidth,BitVec.toNat_ushiftRight,
      BitVec.toNat_add,Nat.shiftRight_eq_div_pow]
    simp only [BitVec.toNat_ofNat]
    omega
  rw [BitVec.toNat_setWidth,hlo,hhi,BitVec.msb_eq_decide,hlo]
  split <;> simp_all <;> omega

theorem high_or_low (target : BitVec 32) :
    ((halfOf .addr16Hi target).signExtend 32 <<< 16) ||| (halfOf .addr16Lo target).zeroExtend 32 =
      target := by
  apply BitVec.eq_of_getLsbD_eq
  intro n hn
  simp only [halfOf,BitVec.getLsbD_or,BitVec.getLsbD_shiftLeft,BitVec.getLsbD_signExtend,
    BitVec.truncate_eq_setWidth,BitVec.getLsbD_setWidth,BitVec.getLsbD_ushiftRight,hn]
  by_cases h : n < 16
  · simp [h]
  · have hx : 16 + (n - 16) = n := by omega
    have hlt : n - 16 < 16 := by omega
    have hlt' : n - 16 < 32 := by omega
    simp [h,hx,hlt,hlt']

theorem lis_gpr {word word' place : BitVec 32} {half : BitVec 16}
    (hw : word' = word.extractLsb' 16 16 ++ half) (h : IsLis word) (cpu : CPUState) :
    (Emitter.emitInteger (ppcDecode word' place) cpu).gpr (ppcRd word) =
      half.signExtend 32 <<< 16 := by
  have hp : ppcPrimary word' = 15 := by
    rw [hw,ppcPrimary,extractLsb'_high_append _ _ (by omega) (by omega)]
    exact h.1
  have hd : ppcRd word' = ppcRd word := by
    rw [hw,ppcRd,extractLsb'_high_append _ _ (by omega) (by omega),ppcRd]
  have ha : ppcRa word' = 0 := by
    rw [hw,ppcRa,extractLsb'_high_append _ _ (by omega) (by omega)]
    exact h.2
  have hs : ppcSimm word' = half := by rw [hw,ppcSimm,extractLsb'_low_append]
  simp only [ppcDecode,hp,decodeDRtRa,Emitter.emitInteger,hd,ha,hs,if_true,CPUState.setGpr_gpr]

theorem addi_gpr {word word' place : BitVec 32} {half : BitVec 16} {rA : BitVec 5}
    (hw : word' = word.extractLsb' 16 16 ++ half) (h : IsAddi word rA) (cpu : CPUState) :
    (Emitter.emitInteger (ppcDecode word' place) cpu).gpr (ppcRd word) =
      cpu.gpr rA + half.signExtend 32 := by
  have hp : ppcPrimary word' = 14 := by
    rw [hw,ppcPrimary,extractLsb'_high_append _ _ (by omega) (by omega)]
    exact h.1
  have hd : ppcRd word' = ppcRd word := by
    rw [hw,ppcRd,extractLsb'_high_append _ _ (by omega) (by omega),ppcRd]
  have ha : ppcRa word' = rA := by
    rw [hw,ppcRa,extractLsb'_high_append _ _ (by omega) (by omega)]
    exact h.2.1
  have hs : ppcSimm word' = half := by rw [hw,ppcSimm,extractLsb'_low_append]
  simp only [ppcDecode,hp,decodeDRtRa,Emitter.emitInteger,hd,ha,hs,if_neg h.2.2,if_true,
    CPUState.setGpr_gpr]

theorem ori_gpr {word word' place : BitVec 32} {half : BitVec 16} {rS : BitVec 5}
    (hw : word' = word.extractLsb' 16 16 ++ half) (h : IsOri word rS) (cpu : CPUState) :
    (Emitter.emitInteger (ppcDecode word' place) cpu).gpr (ppcRa word) =
      cpu.gpr rS ||| half.zeroExtend 32 := by
  have hp : ppcPrimary word' = 24 := by
    rw [hw,ppcPrimary,extractLsb'_high_append _ _ (by omega) (by omega)]
    exact h.1
  have ha : ppcRa word' = ppcRa word := by
    rw [hw,ppcRa,extractLsb'_high_append _ _ (by omega) (by omega),ppcRa]
  have hr : ppcRs word' = rS := by
    rw [hw,ppcRs,extractLsb'_high_append _ _ (by omega) (by omega)]
    exact h.2
  have hu : ppcUimm word' = half := by rw [hw,ppcUimm,extractLsb'_low_append]
  simp only [ppcDecode,hp,decodeLogicalImmediate,Emitter.emitInteger,ha,hr,hu]
  split
  next hz =>
    rw [hz.1,hz.2.1,hz.2.2]
    simp
  next => rw [CPUState.setGpr_gpr,if_pos rfl]

/-- Relocated branches decode to their target when it fits the field, and nothing else of them
changes; relocated halves add up to the target. -/
theorem relocation_decodes (target : BitVec 32) :
    (∀ sec bytes bytes' offset place type,
      applyRelocation sec bytes offset place type target = some bytes' →
      Matches type (readBe32 bytes offset.toNat) →
      (BranchRelocated type bytes bytes' offset.toNat place target ↔ TargetFits type target)) ∧
    (∀ hi hi' lo lo' place place' cpu, PatchedHalf .addr16Ha hi hi' target →
      PatchedHalf .addr16Lo lo lo' target → IsLis hi → IsAddi lo (ppcRd hi) →
      (Emitter.emitInteger (ppcDecode lo' place')
        (Emitter.emitInteger (ppcDecode hi' place) cpu)).gpr (ppcRd lo) = target) ∧
    (∀ hi hi' lo lo' place place' cpu, PatchedHalf .addr16Hi hi hi' target →
      PatchedHalf .addr16Lo lo lo' target → IsLis hi → IsOri lo (ppcRd hi) →
      (Emitter.emitInteger (ppcDecode lo' place')
        (Emitter.emitInteger (ppcDecode hi' place) cpu)).gpr (ppcRa lo) = target) := by
  refine ⟨fun sec bytes bytes' offset place type h hm => applyRelocation_branch h hm,?_,?_⟩
  · intro hi hi' lo lo' place place' cpu hhi hlo hlis haddi
    rw [addi_gpr (patchedHalf_eq (.inl rfl) hlo) haddi,
      lis_gpr (patchedHalf_eq (.inr (.inr rfl)) hhi) hlis]
    exact high_adjusted_add_low target
  · intro hi hi' lo lo' place place' cpu hhi hlo hlis hori
    rw [ori_gpr (patchedHalf_eq (.inl rfl) hlo) hori,
      lis_gpr (patchedHalf_eq (.inr (.inl rfl)) hhi) hlis]
    exact high_or_low target

def codeSection : RELSection := ⟨0x80400000,4,false⟩

def absoluteBranch : ℕ → BitVec 8 := writeBe32 (fun _ => 0) 0 0x48000002

def absoluteBranch' : ℕ → BitVec 8 :=
  patchWord absoluteBranch 0 0xFC000003#32 (0x80003000#32 &&& 0x03FFFFFC#32)

/-- `ba 0x80003000` is relocated, and decodes to a branch to `0x00003000`. -/
theorem relocation_truncates :
    applyRelocation codeSection absoluteBranch 0 0x80400000 .addr24 0x80003000 =
      some absoluteBranch' ∧
    Matches .addr24 (readBe32 absoluteBranch 0) ∧
    (ppcDecode (readBe32 absoluteBranch' 0) 0x80400000).branchTarget = 0x00003000 ∧
    ¬ BranchRelocated .addr24 absoluteBranch absoluteBranch' 0 0x80400000 0x80003000 := by
  have hdest : (ppcDecode (readBe32 absoluteBranch' 0) 0x80400000).branchTarget = 0x00003000 := by
    decide
  refine ⟨rfl,by decide,hdest,fun h => ?_⟩
  have := congrArg PPCInst.branchTarget h.decoded
  rw [hdest] at this
  exact absurd this (by decide)

end Rel

end DolRecomp
