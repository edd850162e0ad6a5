import DolRecomp.FpscrWriters

/-!
# The fields FI, FR and FPRF

What the estimates, the fused multiply-add and `fctiw` leave in them. Their literal `0x6000` lies
inside FPRF and touches neither `FPSCR_FI` nor `FPSCR_FR`.
-/

namespace DolRecomp

namespace Fpscr

open DolRecomp.Runtime

def fiBit : ℕ := 17
def frBit : ℕ := 18
def fprfMask : BitVec 32 := 0x0001F000

/-- FI, FR and FPRF. -/
def fieldMask : BitVec 32 := 0x0007F000

def fields (cpu : CPUState) : BitVec 32 := cpu.fpscr &&& fieldMask

theorem fpscrUpdated_and (x : BitVec 32) {mask : BitVec 32}
    (h : ∀ n < 32, mask.getLsbD n = true → n < 29) : fpscrUpdated x &&& mask = x &&& mask := by
  refine BitVec.eq_of_getLsbD_eq fun n hn => ?_
  rw [BitVec.getLsbD_and,BitVec.getLsbD_and]
  cases hm : mask.getLsbD n with
  | false => rw [Bool.and_false,Bool.and_false]
  | true =>
    have hlt := h n hn hm
    rw [fpscrUpdated_getLsbD,if_neg (by rw [fexBit]; omega),vxUpdated_getLsbD,
      if_neg (by rw [vxBit]; omega)]

/-- An exception changes its own bit, FX and the summary. -/
theorem setFpException_and (cpu : CPUState) {bit mask : BitVec 32} (hbit : bit &&& mask = 0#32)
    (hmask : ∀ n < 32, mask.getLsbD n = true → n < 29) :
    (setFpException cpu bit).fpscr &&& mask = cpu.fpscr &&& mask := by
  have hfx : 0x80000000#32 &&& mask = 0#32 := by
    refine BitVec.eq_of_getLsbD_eq fun n hn => ?_
    have hone : ∀ n < 32, n < 29 → (0x80000000#32).getLsbD n = false := by decide
    rw [BitVec.getLsbD_and,BitVec.getLsbD_zero]
    cases hm : mask.getLsbD n with
    | false => rw [Bool.and_false]
    | true => rw [hone n hn (hmask n hn hm),Bool.false_and]
  show fpscrUpdated _ &&& mask = _
  rw [fpscrUpdated_and _ hmask]
  show ((if cpu.fpscr &&& bit ≠ bit then cpu.fpscr ||| 0x80000000#32 else cpu.fpscr) ||| bit) &&&
    mask = _
  rw [BitVec.and_or_distrib_right,hbit,BitVec.or_zero]
  split
  · rw [BitVec.and_or_distrib_right,hfx,BitVec.or_zero]
  · rfl

theorem fields_setFpException (cpu : CPUState) {bit : BitVec 32} (h : bit &&& fieldMask = 0#32) :
    fields (setFpException cpu bit) = fields cpu :=
  setFpException_and cpu h (by decide)

theorem fields_clearFpscr (cpu : CPUState) (mask : BitVec 32) :
    fields (clearFpscr cpu mask) = fields cpu &&& ~~~mask := by
  rw [fields,fields,clearFpscr,BitVec.and_assoc,BitVec.and_comm (~~~mask),BitVec.and_assoc]

theorem fields_orFpscr (cpu : CPUState) (mask : BitVec 32) :
    fields (orFpscr cpu mask) = fields cpu ||| (mask &&& fieldMask) :=
  BitVec.and_or_distrib_right

def classField (value : BitVec 32) : BitVec 32 := (value &&& 0x1F#32) <<< 12

theorem classField_and (value : BitVec 32) : classField value &&& fprfMask = classField value := by
  refine BitVec.eq_of_getLsbD_eq fun n hn => ?_
  have hmask : ∀ n < 32, 12 ≤ n → (0x1F#32).getLsbD (n - 12) = fprfMask.getLsbD n := by decide
  rw [BitVec.getLsbD_and,classField,BitVec.getLsbD_shiftLeft,BitVec.getLsbD_and]
  by_cases h : n < 12
  · simp [h]
  · simp [hmask n hn (by omega),Bool.and_assoc]

theorem fields_setFprf (cpu : CPUState) (value : BitVec 32) :
    fields (setFprf cpu value) = (fields cpu &&& ~~~fprfMask) ||| classField value := by
  have hclass : classField value &&& fieldMask = classField value := by
    rw [← classField_and,BitVec.and_assoc]
    rfl
  show (cpu.fpscr &&& ~~~fprfMask ||| classField value) &&& fieldMask = _
  rw [BitVec.and_or_distrib_right,hclass,BitVec.and_assoc,BitVec.and_comm (~~~fprfMask),
    ← BitVec.and_assoc]
  rfl

theorem fields_raiseWhen (p : Bool) (cpu : CPUState) {bit : BitVec 32}
    (h : bit &&& fieldMask = 0#32) : fields (raiseWhen p bit cpu) = fields cpu := by
  cases p with
  | false => rfl
  | true => exact fields_setFpException cpu h

/-- The fields that a result of the class leaves, whatever part of FPRF was cleared before. -/
theorem fields_result (cpu : CPUState) {x value : BitVec 32}
    (h : fields cpu = x ∨ fields cpu = x &&& ~~~0x6000) :
    fields (setFprf cpu value) = (x &&& ~~~fprfMask) ||| classField value := by
  rw [fields_setFprf]
  rcases h with h | h
  · rw [h]
  · rw [h,BitVec.and_assoc]
    rfl

/-- A call of one of the helpers that claim the fields. -/
inductive FieldCall
  | fres (value : F64)
  | frsqrte (value : F64)
  | psRes (a b : F64)
  | psRsqrte (a b : F64)
  | fma (a c b : F64) (single subtract negative : Bool)
  | fctiw (value : F64) (towardZero : Bool)

section

variable (F : FloatOps) (cpu : CPUState)

def FieldCall.run : FieldCall → CPUState
  | .fres value => (ppcFres F cpu value).1
  | .frsqrte value => (ppcFrsqrte F cpu value).1
  | .psRes a b => (ppcPsRes F cpu a b).1
  | .psRsqrte a b => (ppcPsRsqrte F cpu a b).1
  | .fma a c b single subtract negative => (ppcFma F cpu a c b single subtract negative).1
  | .fctiw value towardZero => (ppcFctiw F cpu value towardZero).1

/-- The class of the result, where there is one; the word of `fctiw` has none. -/
def FieldCall.resultClass : FieldCall → Option (BitVec 32)
  | .fres value => (ppcFres F cpu value).2.map fun r => classifyF32 (F.toSingle r)
  | .frsqrte value => (ppcFrsqrte F cpu value).2.map classifyF64
  | .psRes a b => some (classifyF32 (F.toSingle (ppcPsRes F cpu a b).2.1))
  | .psRsqrte a b => some (classifyF32 (F.toSingle (ppcPsRsqrte F cpu a b).2.1))
  | .fma a c b single subtract negative =>
    (ppcFma F cpu a c b single subtract negative).2.map fun r =>
      if single then classifyF32 (F.toSingle r) else classifyF64 r
  | .fctiw _ _ => none

/-- What `ppc_fma` has the host compute. -/
def fusedResult (a c b : F64) (single subtract : Bool) : F64 :=
  let addend := if subtract then fpNeg b else b
  if single then F.fromSingle (F.toSingle (singleFmaValue F cpu a c addend)) else F.fma a c addend

/-- The operands that take a NaN, infinity, zero or invalid path. -/
def FieldCall.Special : FieldCall → Prop
  | .fres value => F.eq value fpZero ∨ isNan value ∨ isInf value
  | .frsqrte value => F.lt value fpZero ∨ F.eq value fpZero ∨ isNan value ∨ isInf value
  | .psRes a b => F.eq a fpZero ∨ F.eq b fpZero ∨ isNan a ∨ isInf a ∨ isNan b ∨ isInf b
  | .psRsqrte a b => F.lt a fpZero ∨ F.lt b fpZero ∨ F.eq a fpZero ∨ F.eq b fpZero ∨ isNan a ∨
      isInf a ∨ isNan b ∨ isInf b
  | .fma a c b single subtract _ => isNan (fusedResult F cpu a c b single subtract) ∨ isInf a ∨
      isInf b ∨ isInf c
  | .fctiw _ _ => False

/-- The operand is no NaN and fits once it is rounded. -/
def fctiwValid (value : F64) (towardZero : Bool) : Prop :=
  isNan value = false ∧ F.le 0x41E0000000000000 (fctiwRounded F cpu value towardZero) = false ∧
    F.lt (fctiwRounded F cpu value towardZero) 0xC1E0000000000000 = false

def fctiwInexact (value : F64) (towardZero : Bool) : Prop :=
  fctiwValid F cpu value towardZero ∧ F.eq (fctiwRounded F cpu value towardZero) value = false

def fctiwIncreased (value : F64) (towardZero : Bool) : Prop :=
  fctiwInexact F cpu value towardZero ∧
    F.lt (fpAbs value) (fpAbs (fctiwRounded F cpu value towardZero)) = true

/-- FPRF after a call: the class of the result, and without one what it was. -/
def expectedFprf : Option (BitVec 32) → BitVec 32
  | none => cpu.fpscr &&& fprfMask
  | some value => classField value

/-- FI and FR say how the result was rounded, and FPRF changes with a result only. -/
structure FieldCall.Disciplined (call : FieldCall) : Prop where
  cleared : call.Special F cpu → (call.run F cpu).fpscr.getLsbD fiBit = false ∧
    (call.run F cpu).fpscr.getLsbD frBit = false
  fi : ∀ value towardZero, call = .fctiw value towardZero →
    ((call.run F cpu).fpscr.getLsbD fiBit = true ↔ fctiwInexact F cpu value towardZero)
  fr : ∀ value towardZero, call = .fctiw value towardZero →
    ((call.run F cpu).fpscr.getLsbD frBit = true ↔ fctiwIncreased F cpu value towardZero)
  fprf : (call.run F cpu).fpscr &&& fprfMask = expectedFprf cpu (call.resultClass F cpu)

/-- The operands and enables with which the call returns no result. -/
def FieldCall.Stopped : FieldCall → Prop
  | .fres value =>
    if F.eq value fpZero then hasFpscr cpu fpscrZE
    else isSnan value ∧ hasFpscr cpu fpscrVE
  | .frsqrte value =>
    if F.lt value fpZero then hasFpscr cpu fpscrVE
    else if F.eq value fpZero then hasFpscr cpu fpscrZE
    else isSnan value ∧ hasFpscr cpu fpscrVE
  | .fma a c b single subtract _ =>
    isNan (fusedResult F cpu a c b single subtract) ∧
      (isSnan a ∨ isSnan b ∨ isSnan c ∨ ¬(isNan a ∨ isNan b ∨ isNan c)) ∧ hasFpscr cpu fpscrVE
  | _ => False

/-- What had to be in the fields before the call. -/
def FieldCall.Ready (call : FieldCall) : Prop :=
  (call.Special F cpu → cpu.fpscr.getLsbD fiBit = false ∧ cpu.fpscr.getLsbD frBit = false) ∧
    (call.Stopped F cpu → cpu.fpscr.getLsbD 13 = false ∧ cpu.fpscr.getLsbD 14 = false) ∧
    ∀ value towardZero, call = .fctiw value towardZero →
      ((cpu.fpscr.getLsbD fiBit = true ↔ fctiwInexact F cpu value towardZero) ∧
        (cpu.fpscr.getLsbD frBit = true ↔ fctiwIncreased F cpu value towardZero)) ∧
      (cpu.fpscr.getLsbD 14 = true ↔ fctiwInexact F cpu value towardZero) ∧
        (cpu.fpscr.getLsbD 13 = true ↔ fctiwIncreased F cpu value towardZero)

end

section

variable {F : FloatOps} {cpu : CPUState}

theorem hasFpscr_setFpException {bit mask : BitVec 32} (hbit : bit &&& mask = 0#32)
    (hmask : ∀ n < 32, mask.getLsbD n = true → n < 29) (hclear : ~~~0x6000 &&& mask = mask) :
    hasFpscr (clearFpscr (setFpException cpu bit) 0x6000) mask = hasFpscr cpu mask := by
  have h := setFpException_and cpu hbit hmask
  unfold hasFpscr clearFpscr
  rw [BitVec.and_assoc,hclear,h]

/-- The state and the class that a call leaves: without a result two bits of FPRF are cleared. -/
structure Outcome (cpu : CPUState) (stopped : Prop) (after : CPUState)
    (result : Option (BitVec 32)) : Prop where
  none_iff : result = none ↔ stopped
  fields : Fpscr.fields after = match result with
    | none => Fpscr.fields cpu &&& ~~~0x6000
    | some value => (Fpscr.fields cpu &&& ~~~fprfMask) ||| classField value

theorem outcome_finish {α : Type} {x : CPUState × Bool} {stopped : Prop} (r : α)
    (c : α → BitVec 32) (hstop : x.2 = true ↔ stopped)
    (hx : fields x.1 = fields cpu &&& ~~~0x6000 ∨ (x.2 = false ∧ fields x.1 = fields cpu)) :
    Outcome cpu stopped
      (if x.2 = true then (x.1,none) else (setFprf x.1 (c r),some r) : CPUState × Option α).1
      ((if x.2 = true then (x.1,none) else (setFprf x.1 (c r),some r) :
        CPUState × Option α).2.map c) := by
  by_cases h : x.2 = true
  · rw [if_pos h]
    refine ⟨iff_of_true rfl (hstop.mp h),hx.resolve_right fun hno => ?_⟩
    rw [h] at hno
    exact absurd hno.1 (by decide)
  · rw [if_neg h]
    refine ⟨iff_of_false (by simp) fun hs => h (hstop.mpr hs),?_⟩
    exact fields_result _ (hx.elim .inr fun hx => .inl hx.2)

theorem fields_raised (bit : BitVec 32) (h : bit &&& fieldMask = 0#32) :
    fields (clearFpscr (setFpException cpu bit) 0x6000) = fields cpu &&& ~~~0x6000 := by
  rw [fields_clearFpscr,fields_setFpException cpu h]

theorem fields_clearWhen (p : Bool) : fields (clearWhen p 0x6000 cpu) = fields cpu ∨
    fields (clearWhen p 0x6000 cpu) = fields cpu &&& ~~~0x6000 := by
  cases p with
  | false => exact .inl rfl
  | true => exact .inr (fields_clearFpscr _ _)

theorem outcome_fres (value : F64) : Outcome cpu ((FieldCall.fres value).Stopped F cpu)
    ((FieldCall.fres value).run F cpu) ((FieldCall.fres value).resultClass F cpu) := by
  have hze := @hasFpscr_setFpException cpu fpscrZX fpscrZE rfl (by decide) rfl
  have hve := @hasFpscr_setFpException cpu fpscrVXSNAN fpscrVE rfl (by decide) rfl
  unfold FieldCall.run FieldCall.resultClass FieldCall.Stopped ppcFres
  dsimp only
  refine outcome_finish _ (fun r => classifyF32 (F.toSingle r)) ?_ ?_
  · split
    · rw [hze]
    · split
      next hs => rw [hve]; simp [hs]
      next hs => simp [hs]
  · split
    · exact .inl (fields_raised _ rfl)
    · split
      · exact .inl (fields_raised _ rfl)
      · exact (fields_clearWhen _).elim (fun h => .inr ⟨rfl,h⟩) .inl

theorem outcome_frsqrte (value : F64) : Outcome cpu ((FieldCall.frsqrte value).Stopped F cpu)
    ((FieldCall.frsqrte value).run F cpu) ((FieldCall.frsqrte value).resultClass F cpu) := by
  have hneg := @hasFpscr_setFpException cpu fpscrVXSQRT fpscrVE rfl (by decide) rfl
  have hze := @hasFpscr_setFpException cpu fpscrZX fpscrZE rfl (by decide) rfl
  have hve := @hasFpscr_setFpException cpu fpscrVXSNAN fpscrVE rfl (by decide) rfl
  unfold FieldCall.run FieldCall.resultClass FieldCall.Stopped ppcFrsqrte
  dsimp only
  refine outcome_finish _ classifyF64 ?_ ?_
  · split
    · rw [hneg]
    · split
      · rw [hze]
      · split
        next hs => rw [hve]; simp [hs]
        next hs => simp [hs]
  · split
    · exact .inl (fields_raised _ rfl)
    · split
      · exact .inl (fields_raised _ rfl)
      · split
        · exact .inl (fields_raised _ rfl)
        · exact (fields_clearWhen _).elim (fun h => .inr ⟨rfl,h⟩) .inl

/-- Raising and clearing in turn leaves the fields as they were, or with two bits cleared. -/
def Touched (cpu after : CPUState) : Prop :=
  fields after = fields cpu ∨ fields after = fields cpu &&& ~~~0x6000

theorem Touched.raiseWhen {after : CPUState} (h : Touched cpu after) (p : Bool) {bit : BitVec 32}
    (hbit : bit &&& fieldMask = 0#32) : Touched cpu (raiseWhen p bit after) := by
  unfold Touched
  rw [fields_raiseWhen p after hbit]
  exact h

theorem Touched.clearWhen {after : CPUState} (h : Touched cpu after) (p : Bool) :
    Touched cpu (clearWhen p 0x6000 after) := by
  unfold Touched
  rcases @fields_clearWhen after p with hp | hp
  · rw [hp]
    exact h
  · rw [hp]
    rcases h with h | h
    · rw [h]
      exact .inr rfl
    · rw [h,BitVec.and_assoc,BitVec.and_self]
      exact .inr rfl

theorem Touched.outcome {after : CPUState} (h : Touched cpu after) (value : BitVec 32) :
    Outcome cpu False (setFprf after value) (some value) :=
  ⟨by simp,fields_result _ h⟩

theorem outcome_psRes (a b : F64) : Outcome cpu ((FieldCall.psRes a b).Stopped F cpu)
    ((FieldCall.psRes a b).run F cpu) ((FieldCall.psRes a b).resultClass F cpu) := by
  have hstart : Touched cpu cpu := .inl rfl
  exact ((((hstart.raiseWhen _ rfl).clearWhen _).raiseWhen _ rfl).clearWhen _).outcome _

theorem outcome_psRsqrte (a b : F64) : Outcome cpu ((FieldCall.psRsqrte a b).Stopped F cpu)
    ((FieldCall.psRsqrte a b).run F cpu) ((FieldCall.psRsqrte a b).resultClass F cpu) := by
  have hstart : Touched cpu cpu := .inl rfl
  have hzero := (hstart.raiseWhen (F.eq a fpZero || F.eq b fpZero)
    (show fpscrZX &&& fieldMask = 0#32 from rfl)).clearWhen (F.eq a fpZero || F.eq b fpZero)
  exact ((((hzero.raiseWhen _ rfl).clearWhen _).raiseWhen _ rfl).clearWhen _).outcome _

/-- The quiet NaN of a fused multiply-add, and the exceptions that it raises. -/
def fmaQuieted (F : FloatOps) (a c b : F64) : F64 × BitVec 32 :=
  let snan := if isSnan a || isSnan b || isSnan c then fpscrVXSNAN else 0
  if isNan a then (quietNan a,snan)
  else if isNan b then (quietNan b,snan)
  else if isNan c then (quietNan c,snan)
  else
    let invalidMultiply := (F.eq a fpZero && isInf c) || (isInf a && F.eq c fpZero)
    (fpQuietNan,snan ||| if invalidMultiply then fpscrVXIMZ else fpscrVXISI)

/-- The enables and the three fields. -/
def fmaKept : BitVec 32 := 0x0007F0FF

theorem fmaQuieted_and (a c b : F64) : (fmaQuieted F a c b).2 &&& fmaKept = 0#32 := by
  have hsnan : ∀ p : Bool, (if p then fpscrVXSNAN else 0) &&& fmaKept = 0#32 := by decide
  have hboth : ∀ p q : Bool, ((if p then fpscrVXSNAN else 0) |||
    if q then fpscrVXIMZ else fpscrVXISI) &&& fmaKept = 0#32 := by decide
  unfold fmaQuieted
  dsimp only
  split
  · exact hsnan _
  · split
    · exact hsnan _
    · split
      · exact hsnan _
      · exact hboth _ _

theorem fmaQuieted_ne_zero (a c b : F64) : (fmaQuieted F a c b).2 ≠ 0 ↔
    isSnan a ∨ isSnan b ∨ isSnan c ∨ ¬(isNan a ∨ isNan b ∨ isNan c) := by
  have hsnan : ∀ p : Bool, (if p then fpscrVXSNAN else 0) ≠ 0 ↔ p = true := by decide
  have hboth : ∀ p q : Bool, ((if p then fpscrVXSNAN else 0) |||
    if q then fpscrVXIMZ else fpscrVXISI) ≠ 0 := by decide
  unfold fmaQuieted
  dsimp only
  split
  next ha => rw [hsnan]; simp [ha,or_assoc]
  next ha =>
    split
    next hb => rw [hsnan]; simp [hb,or_assoc]
    next hb =>
      split
      next hc => rw [hsnan]; simp [hc,or_assoc]
      next hc => exact iff_of_true (hboth _ _) (.inr (.inr (.inr (by simp [ha,hb,hc]))))

theorem ppcFma_eq (a c b : F64) (single subtract negative : Bool) :
    ppcFma F cpu a c b single subtract negative =
      let x : CPUState × F64 × Bool :=
        if isNan (fusedResult F cpu a c b single subtract) = true then
          (raiseWhen ((fmaQuieted F a c b).2 ≠ 0) (fmaQuieted F a c b).2 (clearFpscr cpu 0x6000),
            (fmaQuieted F a c b).1,(fmaQuieted F a c b).2 ≠ 0 && hasFpscr
              (raiseWhen ((fmaQuieted F a c b).2 ≠ 0) (fmaQuieted F a c b).2
                (clearFpscr cpu 0x6000)) fpscrVE)
        else (clearWhen (isInf a || isInf b || isInf c) 0x6000 cpu,
          fusedResult F cpu a c b single subtract,false)
      if x.2.2 = true then (x.1,none)
      else
        let result := if negative && !isNan x.2.1 then fpNeg x.2.1 else x.2.1
        (setFprf x.1 (if single then classifyF32 (F.toSingle result) else classifyF64 result),
          some result) := rfl

theorem outcome_fma (a c b : F64) (single subtract negative : Bool) :
    Outcome cpu ((FieldCall.fma a c b single subtract negative).Stopped F cpu)
      ((FieldCall.fma a c b single subtract negative).run F cpu)
      ((FieldCall.fma a c b single subtract negative).resultClass F cpu) := by
  have hbit : ∀ {mask : BitVec 32}, fmaKept &&& mask = mask →
      (fmaQuieted F a c b).2 &&& mask = 0#32 := fun {mask} h => by
    rw [← h,← BitVec.and_assoc,fmaQuieted_and,BitVec.zero_and]
  have hve : ∀ p, hasFpscr (raiseWhen p (fmaQuieted F a c b).2 (clearFpscr cpu 0x6000)) fpscrVE =
      hasFpscr cpu fpscrVE := fun p => by
    have hclear : (clearFpscr cpu 0x6000).fpscr &&& fpscrVE = cpu.fpscr &&& fpscrVE := by
      rw [clearFpscr,BitVec.and_assoc]
      rfl
    have hset := setFpException_and (clearFpscr cpu 0x6000) (@hbit fpscrVE rfl) (by decide)
    unfold hasFpscr raiseWhen
    split
    · rw [hset,hclear]
    · rw [hclear]
  have hraised : fields (raiseWhen ((fmaQuieted F a c b).2 ≠ 0) (fmaQuieted F a c b).2
      (clearFpscr cpu 0x6000)) = fields cpu &&& ~~~0x6000 := by
    rw [fields_raiseWhen _ _ (@hbit fieldMask rfl),fields_clearFpscr]
  unfold FieldCall.run FieldCall.resultClass FieldCall.Stopped
  dsimp only
  rw [ppcFma_eq]
  by_cases hnan : isNan (fusedResult F cpu a c b single subtract) = true
  · rw [if_pos hnan]
    refine outcome_finish (x := (_,_)) _
      (fun r => if single = true then classifyF32 (F.toSingle r) else classifyF64 r) ?_ (.inl hraised)
    rw [Bool.and_eq_true,hve,decide_eq_true_eq,fmaQuieted_ne_zero]
    exact ⟨fun h => ⟨hnan,h⟩,And.right⟩
  · rw [if_neg hnan]
    refine outcome_finish (x := (_,_)) _
      (fun r => if single = true then classifyF32 (F.toSingle r) else classifyF64 r) ?_ ?_
    · exact iff_of_false Bool.false_ne_true fun h => hnan h.1
    · exact (fields_clearWhen _).elim (fun h => .inr ⟨rfl,h⟩) .inl

instance (value : F64) (towardZero : Bool) : Decidable (fctiwInexact F cpu value towardZero) :=
  inferInstanceAs (Decidable ((_ ∧ _ ∧ _) ∧ _))

instance (value : F64) (towardZero : Bool) : Decidable (fctiwIncreased F cpu value towardZero) :=
  inferInstanceAs (Decidable (_ ∧ _))

/-- What `ppc_fctiw` puts in two bits of FPRF. -/
def fctiwField (F : FloatOps) (cpu : CPUState) (value : F64) (towardZero : Bool) : BitVec 32 :=
  if fctiwInexact F cpu value towardZero then
    if fctiwIncreased F cpu value towardZero then 0x6000 else 0x4000
  else 0#32

theorem fields_fctiw (value : F64) (towardZero : Bool) :
    fields ((FieldCall.fctiw value towardZero).run F cpu) =
      (fields cpu &&& ~~~0x6000) ||| fctiwField F cpu value towardZero := by
  have hstart : fields (clearFpscr (raiseWhen (isNan value && isSnan value) fpscrVXSNAN cpu)
      0x6000) = fields cpu &&& ~~~0x6000 := by
    rw [fields_clearFpscr,fields_raiseWhen _ _ rfl]
  have hfst : ∀ (x : CPUState) (p : Bool) (r : BitVec 64),
      (if p = true then (x,none) else (x,some r) : CPUState × Option (BitVec 64)).1 = x :=
    fun x p r => by split <;> rfl
  unfold FieldCall.run ppcFctiw
  dsimp only
  rw [hfst]
  generalize hconv : (if isNan value = true then _ else _ : BitVec 32 × Bool) = converted
  have hvalid : converted.2 = false ↔ fctiwValid F cpu value towardZero := by
    rw [← hconv]
    unfold fctiwValid
    split
    next h => exact iff_of_false (by simp) fun hv => by simp [h] at hv
    next h =>
      split
      next hle => exact iff_of_false (by simp) fun hv => Bool.false_ne_true (hv.2.1.symm.trans hle)
      next hle =>
        split
        next hlt => exact iff_of_false (by simp) fun hv =>
          Bool.false_ne_true (hv.2.2.symm.trans hlt)
        next hlt =>
          exact iff_of_true rfl
            ⟨eq_false_of_ne_true h,eq_false_of_ne_true hle,eq_false_of_ne_true hlt⟩
  unfold fctiwField
  split
  next hinv =>
    have hno : ¬fctiwInexact F cpu value towardZero := fun h => by
      rw [hvalid.mpr h.1] at hinv
      exact absurd hinv (by decide)
    rw [if_neg hno,BitVec.or_zero,fields_setFpException _ rfl,hstart]
  next hinv =>
    have hval := hvalid.mp (eq_false_of_ne_true hinv)
    split
    next heq =>
      have hexact : fctiwInexact F cpu value towardZero := ⟨hval,by simpa using heq⟩
      have hset : fields (orFpscr (setFpException (clearFpscr (raiseWhen
          (isNan value && isSnan value) fpscrVXSNAN cpu) 0x6000) fpscrXX) 0x4000) =
          fields cpu &&& ~~~0x6000 ||| 0x4000 := by
        rw [fields_orFpscr,fields_setFpException _ rfl,hstart]
        rfl
      rw [if_pos hexact]
      split
      next hlt =>
        rw [if_pos ⟨hexact,hlt⟩,fields_orFpscr,hset,BitVec.or_assoc]
        rfl
      next hlt => rw [if_neg fun h => hlt h.2,hset]
    next heq =>
      rw [if_neg fun h => heq (by rw [h.2]; rfl),BitVec.or_zero,hstart]

theorem fields_getLsbD (cpu : CPUState) {n : ℕ} (hn : fieldMask.getLsbD n = true) :
    (fields cpu).getLsbD n = cpu.fpscr.getLsbD n := by
  rw [fields,BitVec.getLsbD_and,hn,Bool.and_true]

theorem fields_and_fprf (cpu : CPUState) : fields cpu &&& fprfMask = cpu.fpscr &&& fprfMask := by
  rw [fields,BitVec.and_assoc]
  rfl

theorem fprf_replace_iff (x : BitVec 32) {y : BitVec 32} (hy : y &&& ~~~0x6000 = 0#32) :
    ((x &&& ~~~0x6000) ||| y) &&& fprfMask = x &&& fprfMask ↔
      x.getLsbD 13 = y.getLsbD 13 ∧ x.getLsbD 14 = y.getLsbD 14 := by
  have hbits : ∀ n, (((x &&& ~~~0x6000) ||| y) &&& fprfMask).getLsbD n =
      (((x.getLsbD n && (~~~0x6000#32).getLsbD n) || y.getLsbD n) && fprfMask.getLsbD n) :=
    fun n => by rw [BitVec.getLsbD_and,BitVec.getLsbD_or,BitVec.getLsbD_and]; rfl
  have hmask : ∀ n < 32, n ≠ 13 → n ≠ 14 → (~~~0x6000#32).getLsbD n = true := by decide
  constructor
  · intro h
    have h13 := congrArg (BitVec.getLsbD · 13) h
    have h14 := congrArg (BitVec.getLsbD · 14) h
    simp only [hbits,BitVec.getLsbD_and] at h13 h14
    have hc13 : (~~~0x6000#32).getLsbD 13 = false ∧ fprfMask.getLsbD 13 = true := by decide
    have hc14 : (~~~0x6000#32).getLsbD 14 = false ∧ fprfMask.getLsbD 14 = true := by decide
    rw [hc13.1,hc13.2] at h13
    rw [hc14.1,hc14.2] at h14
    simp only [Bool.and_false,Bool.false_or,Bool.and_true] at h13 h14
    exact ⟨h13.symm,h14.symm⟩
  · rintro ⟨h13,h14⟩
    refine BitVec.eq_of_getLsbD_eq fun n hn => ?_
    rw [hbits,BitVec.getLsbD_and]
    by_cases hn13 : n = 13
    · subst hn13
      rw [h13,show (~~~0x6000#32).getLsbD 13 = false from rfl,Bool.and_false,Bool.false_or]
    · by_cases hn14 : n = 14
      · subst hn14
        rw [h14,show (~~~0x6000#32).getLsbD 14 = false from rfl,Bool.and_false,Bool.false_or]
      · have hzero : y.getLsbD n = false := by
          have := congrArg (BitVec.getLsbD · n) hy
          simp only [BitVec.getLsbD_and,BitVec.getLsbD_zero] at this
          rw [show (~~~0x6000 : BitVec 32) = ~~~0x6000#32 from rfl,hmask n hn hn13 hn14,
            Bool.and_true] at this
          exact this
        rw [hmask n hn hn13 hn14,hzero,Bool.and_true,Bool.or_false]

theorem fprf_clear_iff (x : BitVec 32) : (x &&& ~~~0x6000) &&& fprfMask = x &&& fprfMask ↔
    x.getLsbD 13 = false ∧ x.getLsbD 14 = false := by
  have h := fprf_replace_iff x (y := 0#32) rfl
  rw [BitVec.or_zero] at h
  rw [h,BitVec.getLsbD_zero,BitVec.getLsbD_zero]

/-- FI and FR stay as they were. -/
theorem Outcome.kept {stopped : Prop} {after : CPUState} {result : Option (BitVec 32)}
    (h : Outcome cpu stopped after result) {n : ℕ} (hn : n = fiBit ∨ n = frBit) :
    after.fpscr.getLsbD n = cpu.fpscr.getLsbD n := by
  have hmask : fieldMask.getLsbD n = true ∧ (~~~0x6000#32).getLsbD n = true ∧
      (~~~fprfMask).getLsbD n = true ∧ fprfMask.getLsbD n = false := by
    rcases hn with rfl | rfl <;> decide
  have hfields := h.fields
  rw [← fields_getLsbD after hmask.1,hfields,← fields_getLsbD cpu hmask.1]
  cases result with
  | none =>
    show (Fpscr.fields cpu &&& ~~~0x6000#32).getLsbD n = _
    rw [BitVec.getLsbD_and,hmask.2.1,Bool.and_true]
  | some value =>
    show (Fpscr.fields cpu &&& ~~~fprfMask ||| classField value).getLsbD n = _
    rw [BitVec.getLsbD_or,BitVec.getLsbD_and,hmask.2.2.1,← classField_and,BitVec.getLsbD_and,
      hmask.2.2.2,Bool.and_true,Bool.and_false,Bool.or_false]

theorem Outcome.fprf_iff {stopped : Prop} {after : CPUState} {result : Option (BitVec 32)}
    (h : Outcome cpu stopped after result) :
    after.fpscr &&& fprfMask = expectedFprf cpu result ↔
    (stopped → cpu.fpscr.getLsbD 13 = false ∧ cpu.fpscr.getLsbD 14 = false) := by
  have hfields := h.fields
  rw [← fields_and_fprf after,hfields]
  cases result with
  | none =>
    have hstop := h.none_iff.mp rfl
    have hiff := fprf_clear_iff (Fpscr.fields cpu)
    rw [fields_and_fprf,fields_getLsbD cpu rfl,fields_getLsbD cpu rfl] at hiff
    exact hiff.trans ⟨fun hb _ => hb,fun hb => hb hstop⟩
  | some value =>
    refine iff_of_true ?_ fun hs => absurd (h.none_iff.mpr hs) (by simp)
    show (Fpscr.fields cpu &&& ~~~fprfMask ||| classField value) &&& fprfMask = classField value
    rw [BitVec.and_or_distrib_right,BitVec.and_assoc,classField_and,
      show ~~~fprfMask &&& fprfMask = 0#32 from rfl,BitVec.and_zero,BitVec.zero_or]

theorem disciplined_iff {call : FieldCall}
    (h : Outcome cpu (call.Stopped F cpu) (call.run F cpu) (call.resultClass F cpu))
    (hcall : ∀ value towardZero, call ≠ .fctiw value towardZero) :
    call.Disciplined F cpu ↔ call.Ready F cpu := by
  have hfi := h.kept (.inl rfl)
  have hfr := h.kept (.inr rfl)
  constructor
  · intro hd
    refine ⟨fun hs => ?_,h.fprf_iff.mp hd.fprf,fun v z hv => absurd hv (hcall v z)⟩
    rw [← hfi,← hfr]
    exact hd.cleared hs
  · intro hr
    refine ⟨fun hs => ?_,fun v z hv => absurd hv (hcall v z),fun v z hv => absurd hv (hcall v z),
      h.fprf_iff.mpr hr.2.1⟩
    rw [hfi,hfr]
    exact hr.1 hs

theorem fctiwField_and (value : F64) (towardZero : Bool) :
    fctiwField F cpu value towardZero &&& ~~~0x6000 = 0#32 := by
  unfold fctiwField
  split
  · split <;> rfl
  · rfl

theorem fctiwField_inexact (value : F64) (towardZero : Bool) :
    (fctiwField F cpu value towardZero).getLsbD 14 = true ↔
      fctiwInexact F cpu value towardZero := by
  unfold fctiwField
  split
  next h => split <;> exact iff_of_true rfl h
  next h => exact iff_of_false (by decide) h

theorem fctiwField_increased (value : F64) (towardZero : Bool) :
    (fctiwField F cpu value towardZero).getLsbD 13 = true ↔
      fctiwIncreased F cpu value towardZero := by
  unfold fctiwField
  split
  next h =>
    split
    next h' => exact iff_of_true rfl h'
    next h' => exact iff_of_false (by decide) h'
  next h => exact iff_of_false (by decide) fun h' => h h'.1

theorem disciplined_fctiw_iff (value : F64) (towardZero : Bool) :
    (FieldCall.fctiw value towardZero).Disciplined F cpu ↔
      (FieldCall.fctiw value towardZero).Ready F cpu := by
  have hfields := @fields_fctiw F cpu value towardZero
  have hand := @fctiwField_and F cpu value towardZero
  have hkept : ∀ n, n = fiBit ∨ n = frBit → (FieldCall.run F cpu (.fctiw value
      towardZero)).fpscr.getLsbD n = cpu.fpscr.getLsbD n := fun n hn => by
    have hmask : fieldMask.getLsbD n = true ∧ (~~~0x6000#32).getLsbD n = true := by
      rcases hn with rfl | rfl <;> decide
    have hzero := congrArg (BitVec.getLsbD · n) hand
    rw [show (~~~0x6000 : BitVec 32) = ~~~0x6000#32 from rfl] at hzero
    simp only [BitVec.getLsbD_and,hmask.2,Bool.and_true,BitVec.getLsbD_zero] at hzero
    rw [← fields_getLsbD _ hmask.1,hfields,← fields_getLsbD cpu hmask.1]
    show (fields cpu &&& ~~~0x6000#32 ||| _).getLsbD n = _
    rw [BitVec.getLsbD_or,BitVec.getLsbD_and,hmask.2,hzero,Bool.and_true,Bool.or_false]
  have hfprf : (FieldCall.run F cpu (.fctiw value towardZero)).fpscr &&& fprfMask =
      cpu.fpscr &&& fprfMask ↔ (cpu.fpscr.getLsbD 13 = true ↔
        fctiwIncreased F cpu value towardZero) ∧ (cpu.fpscr.getLsbD 14 = true ↔
        fctiwInexact F cpu value towardZero) := by
    rw [← fields_and_fprf,hfields,← fields_and_fprf cpu,fprf_replace_iff _ hand,
      fields_getLsbD cpu rfl,fields_getLsbD cpu rfl,← fctiwField_increased,← fctiwField_inexact]
    exact and_congr Bool.eq_iff_iff Bool.eq_iff_iff
  have hfi := hkept _ (.inl rfl)
  have hfr := hkept _ (.inr rfl)
  constructor
  · intro hd
    have hf := hfprf.mp hd.fprf
    refine ⟨fun hs => hs.elim,fun hs => hs.elim,?_⟩
    rintro v z ⟨⟩
    refine ⟨⟨?_,?_⟩,hf.2,hf.1⟩
    · rw [← hfi]
      exact hd.fi _ _ rfl
    · rw [← hfr]
      exact hd.fr _ _ rfl
  · rintro ⟨-,-,hr⟩
    obtain ⟨⟨hrfi,hrfr⟩,h14,h13⟩ := hr _ _ rfl
    refine ⟨fun hs => hs.elim,?_,?_,hfprf.mpr ⟨h13,h14⟩⟩
    · rintro v z ⟨⟩
      rw [hfi]
      exact hrfi
    · rintro v z ⟨⟩
      rw [hfr]
      exact hrfr

end

/-- The calls leave FI, FR and FPRF as they should exactly when the bits that they ought to have
written were right before. -/
theorem field_call_disciplined_iff (F : FloatOps) (cpu : CPUState) (call : FieldCall) :
    call.Disciplined F cpu ↔ call.Ready F cpu := by
  cases call with
  | fres => exact disciplined_iff (outcome_fres _) (by simp)
  | frsqrte => exact disciplined_iff (outcome_frsqrte _) (by simp)
  | psRes => exact disciplined_iff (outcome_psRes _ _) (by simp)
  | psRsqrte => exact disciplined_iff (outcome_psRsqrte _ _) (by simp)
  | fma => exact disciplined_iff (outcome_fma _ _ _ _ _ _) (by simp)
  | fctiw => exact disciplined_fctiw_iff _ _

/-- `fres` of zero leaves FI set. -/
theorem field_call_undisciplined : (FieldCall.fres 0).Special zeroOps { floatInit with
      fpscr := 0x00020000 } ∧
    ((FieldCall.fres 0).run zeroOps { floatInit with fpscr := 0x00020000 }).fpscr.getLsbD fiBit =
      true ∧
    ¬(FieldCall.fres 0).Disciplined zeroOps { floatInit with fpscr := 0x00020000 } := by
  have hfi : ((FieldCall.fres 0).run zeroOps { floatInit with
      fpscr := 0x00020000 }).fpscr.getLsbD fiBit = true := by decide
  have hs : (FieldCall.fres 0).Special zeroOps { floatInit with fpscr := 0x00020000 } := .inl rfl
  refine ⟨hs,hfi,fun hd => ?_⟩
  rw [(hd.cleared hs).1] at hfi
  exact absurd hfi (by decide)

end Fpscr

end DolRecomp
