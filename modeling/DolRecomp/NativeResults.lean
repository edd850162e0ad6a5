import DolRecomp.DolIR
import DolRecomp.LanePacking

/-!
# The results of native functions

The slots that a native function returns are packed into lanes by one walk over the state, taken
out again by another, and counted by two more. The model is that of the modules with cold escapes,
which are the only ones whose results are packed.
-/

namespace DolRecomp

namespace NativeResults

open LanePacking

/-- The slots in the order of the enumeration. -/
def stateSlots : List DolIRStateSlot :=
  List.flatten [(List.range 32).map fun r => .gpr (BitVec.ofNat 5 r),
    (List.range 32).map fun r => .fpr (BitVec.ofNat 5 r),
    (List.range 32).map fun r => .ps1 (BitVec.ofNat 5 r),
    [.pc,.lr,.ctr,.cr],
    (List.range 8).map fun f => .crField (BitVec.ofNat 3 f),
    [.xer,.xerCa,.xerOv,.xerSo,.fpscr,.msr,.srr0,.srr1,.dar,.dsisr,.ear,.hid2,.timebase],
    (List.range 16).map fun n => .sr (BitVec.ofNat 4 n),
    (List.range 8).map fun n => .gqr (BitVec.ofNat 3 n),
    [.exception,.programException,.reserveAddr,.reserveValid,.downcount]]

def stateWidth (slot : DolIRStateSlot) : ℕ :=
  match dolirStateType slot with
  | .i1 => 1
  | .i64 | .f64 => 64
  | _ => 32

structure FunctionRange where
  outputState : StateMask
  native : Bool

structure ResultConfig where
  coldEscapes : Bool
  isAArch64 : Bool

def stateOutput (range : Option FunctionRange) (slot : DolIRStateSlot) : Bool :=
  range.any fun r => slot ∈ r.outputState

def placeOutput (lane offset width : ℕ) : ℕ × ℕ :=
  if offset ≠ 0 ∧ offset + width > 64 then (lane + 1,0) else (lane,offset)

/-- The step to the next free bit. -/
def advance (lane offset width : ℕ) : ℕ × ℕ :=
  if offset + width = 64 then (lane + 1,0) else (lane,offset + width)

def laneCountLoop (range : Option FunctionRange) :
    List DolIRStateSlot → ℕ → ℕ → ℕ × ℕ
  | [], lane, offset => (lane,offset)
  | slot :: slots, lane, offset =>
    if stateOutput range slot then
      let (lane,offset) := placeOutput lane offset (stateWidth slot)
      let (lane,offset) := advance lane offset (stateWidth slot)
      laneCountLoop range slots lane offset
    else laneCountLoop range slots lane offset

def nativeOutputLaneCount (range : Option FunctionRange) : ℕ :=
  let (lane,offset) := laneCountLoop range stateSlots 0 0
  lane + if offset ≠ 0 then 1 else 0

def packedLanesLoop (mask : StateMask) : List DolIRStateSlot → ℕ → ℕ → ℕ × ℕ
  | [], lanes, bits => (lanes,bits)
  | slot :: slots, lanes, bits =>
    if slot ∉ mask then packedLanesLoop mask slots lanes bits
    else
      let type := dolirStateType slot
      let width := if type = .i1 then 1 else if type = .i64 ∨ type = .f64 then 64 else 32
      let (lanes,bits) := if bits ≠ 0 ∧ bits + width > 64 then (lanes + 1,0) else (lanes,bits)
      let bits := bits + width
      if bits = 64 then packedLanesLoop mask slots (lanes + 1) 0
      else packedLanesLoop mask slots lanes bits

/-- `packedReturnLanes` of the ABI policy. -/
def packedReturnLanes (mask : StateMask) : ℕ :=
  let (lanes,bits) := packedLanesLoop mask stateSlots 0 0
  lanes + if bits ≠ 0 then 1 else 0

/-- The cycle count has a lane of its own where the registers suffice. -/
def nativeCyclesInResult (cfg : ResultConfig) (range : Option FunctionRange) : Bool :=
  range.any fun r => cfg.coldEscapes && r.native &&
    nativeOutputLaneCount range + 1 ≤ if cfg.isAArch64 then 8 else 3

def nativeResultLaneCount (cfg : ResultConfig) (range : Option FunctionRange) : ℕ :=
  nativeOutputLaneCount range + (nativeCyclesInResult cfg range).toNat

/-- The values of the slots, doubles as bit patterns. -/
abbrev SlotValues := (slot : DolIRStateSlot) → BitVec (stateWidth slot)

/-- What a native function returns: one lane goes as it is. -/
inductive NativeValue
  | void
  | lane (x : BitVec 64)
  | aggregate (xs : List (BitVec 64))

def packLoop (range : Option FunctionRange) (values : SlotValues) :
    List DolIRStateSlot → ℕ → ℕ → List (BitVec 64) → List (BitVec 64)
  | [], _, _, lanes => lanes
  | slot :: slots, lane, offset, lanes =>
    if stateOutput range slot then
      let (lane,offset) := placeOutput lane offset (stateWidth slot)
      let value := (values slot).zeroExtend 64 <<< offset
      let lanes := lanes.modify lane (· ||| value)
      let (lane,offset) := advance lane offset (stateWidth slot)
      packLoop range values slots lane offset lanes
    else packLoop range values slots lane offset lanes

def nativeOutputs (cfg : ResultConfig) (range : Option FunctionRange) (values : SlotValues)
    (cycles : BitVec 64) : NativeValue :=
  let stateLanes := nativeOutputLaneCount range
  let laneCount := nativeResultLaneCount cfg range
  if laneCount = 0 then .void
  else
    let lanes := packLoop range values stateSlots 0 0 (List.replicate laneCount 0)
    let lanes := if nativeCyclesInResult cfg range then lanes.set stateLanes cycles else lanes
    if laneCount = 1 then .lane (lanes.headD 0) else .aggregate lanes

/-- `laneCount == 1 ? result : CreateExtractValue(result, lane)` -/
def extractLane (result : NativeValue) (laneCount lane : ℕ) : Option (BitVec 64) :=
  match result with
  | .void => none
  | .lane x => if laneCount = 1 then some x else none
  | .aggregate xs => if laneCount = 1 then none else xs[lane]?

/-- The lane and the offset at which the walk finds a slot. -/
def outputPlace (range : Option FunctionRange) (wanted : DolIRStateSlot) :
    List DolIRStateSlot → ℕ → ℕ → Option (ℕ × ℕ)
  | [], _, _ => none
  | slot :: slots, lane, offset =>
    if stateOutput range slot then
      let (lane,offset) := placeOutput lane offset (stateWidth slot)
      if slot = wanted then some (lane,offset)
      else
        let (lane,offset) := advance lane offset (stateWidth slot)
        outputPlace range wanted slots lane offset
    else outputPlace range wanted slots lane offset

/-- `nativeOutputValue`, undefined for a slot that is not returned. -/
def nativeOutputValue (cfg : ResultConfig) (range : Option FunctionRange) (result : NativeValue)
    (wanted : DolIRStateSlot) : Option (BitVec (stateWidth wanted)) := do
  let (lane,offset) ← outputPlace range wanted stateSlots 0 0
  let value ← extractLane result (nativeResultLaneCount cfg range) lane
  return (value >>> offset).setWidth _

def nativeCycleValue (cfg : ResultConfig) (range : Option FunctionRange) (result : NativeValue) :
    Option (BitVec 64) :=
  extractLane result (nativeResultLaneCount cfg range) (nativeOutputLaneCount range)

theorem mem_stateSlots (slot : DolIRStateSlot) : slot ∈ stateSlots := by
  have hmap : ∀ {w n : ℕ} (f : BitVec w → DolIRStateSlot) (x : BitVec w), 2^w = n →
      f x ∈ (List.range n).map fun k => f (BitVec.ofNat w k) := fun f x hn =>
    List.mem_map.mpr ⟨x.toNat,List.mem_range.mpr (hn ▸ x.isLt),by simp⟩
  have hin : ∀ {l : List DolIRStateSlot}, slot ∈ l → (k : ℕ) → _ = some l → slot ∈ stateSlots :=
    fun h k hk => List.mem_flatten.mpr ⟨_,List.mem_of_getElem? (i := k) hk,h⟩
  cases slot with
  | gpr r => exact hin (hmap .gpr r rfl) 0 rfl
  | fpr r => exact hin (hmap .fpr r rfl) 1 rfl
  | ps1 r => exact hin (hmap .ps1 r rfl) 2 rfl
  | crField f => exact hin (hmap .crField f rfl) 4 rfl
  | sr n => exact hin (hmap .sr n rfl) 6 rfl
  | gqr n => exact hin (hmap .gqr n rfl) 7 rfl
  | pc => exact hin (by simp) 3 rfl
  | lr => exact hin (by simp) 3 rfl
  | ctr => exact hin (by simp) 3 rfl
  | cr => exact hin (by simp) 3 rfl
  | exception => exact hin (by simp) 8 rfl
  | programException => exact hin (by simp) 8 rfl
  | reserveAddr => exact hin (by simp) 8 rfl
  | reserveValid => exact hin (by simp) 8 rfl
  | downcount => exact hin (by simp) 8 rfl
  | _ => exact hin (by simp) 5 rfl

theorem stateWidth_range (slot : DolIRStateSlot) : 0 < stateWidth slot ∧ stateWidth slot ≤ 64 := by
  unfold stateWidth
  split <;> decide

theorem placeOutput_eq (pos w : ℕ) :
    placeOutput (pos/64) (pos % 64) w = (place pos w/64,place pos w % 64) := by
  unfold placeOutput place
  by_cases h : pos % 64 ≠ 0 ∧ 64 < pos % 64 + w
  · rw [if_pos h,if_pos h]
    exact Prod.ext (by simp) (by simp)
  · rw [if_neg h,if_neg h]

theorem advance_eq {q w : ℕ} (h : q % 64 + w ≤ 64) (hw : 0 < w) :
    advance (q/64) (q % 64) w = ((q + w)/64,(q + w) % 64) := by
  unfold advance
  split
  · exact Prod.ext (show q/64 + 1 = (q + w)/64 by omega) (show 0 = (q + w) % 64 by omega)
  · exact Prod.ext (show q/64 = (q + w)/64 by omega) (show q % 64 + w = (q + w) % 64 by omega)

/-- A slot of the walk takes the next free bits. -/
theorem advance_placeOutput (pos : ℕ) (slot : DolIRStateSlot) :
    advance (place pos (stateWidth slot)/64) (place pos (stateWidth slot) % 64) (stateWidth slot) =
      ((place pos (stateWidth slot) + stateWidth slot)/64,
        (place pos (stateWidth slot) + stateWidth slot) % 64) :=
  advance_eq (place_fits pos (stateWidth_range slot).2) (stateWidth_range slot).1

section

variable (range : Option FunctionRange)

theorem laneCountLoop_eq (slots : List DolIRStateSlot) (pos : ℕ) :
    laneCountLoop range slots (pos/64) (pos % 64) =
      (finish stateWidth (slots.filter (stateOutput range)) pos/64,
        finish stateWidth (slots.filter (stateOutput range)) pos % 64) := by
  induction slots generalizing pos with
  | nil => rfl
  | cons slot slots ih =>
    rw [laneCountLoop,List.filter_cons]
    split
    next h => simp only [placeOutput_eq,advance_placeOutput,ih,finish]
    next h => exact ih pos

theorem packedLanesLoop_eq (r : FunctionRange) (slots : List DolIRStateSlot) (lane offset : ℕ) :
    packedLanesLoop r.outputState slots lane offset =
      laneCountLoop (some r) slots lane offset := by
  induction slots generalizing lane offset with
  | nil => rfl
  | cons slot slots ih =>
    have hwidth : (if dolirStateType slot = .i1 then 1
        else if dolirStateType slot = .i64 ∨ dolirStateType slot = .f64 then 64 else 32) =
          stateWidth slot := by
      unfold stateWidth
      cases dolirStateType slot <;> rfl
    rw [packedLanesLoop,laneCountLoop]
    by_cases h : slot ∈ r.outputState
    · have ho : stateOutput (some r) slot = true := decide_eq_true h
      rw [if_neg (not_not.mpr h),if_pos ho]
      simp only [hwidth,ih,advance,placeOutput]
      split <;> split <;> rfl
    · have ho : ¬stateOutput (some r) slot = true := fun hno => h (of_decide_eq_true hno)
      rw [if_pos h,if_neg ho,ih]

theorem packLoop_eq (values : SlotValues) (slots : List DolIRStateSlot) (pos : ℕ)
    (lanes : List (BitVec 64)) :
    packLoop range values slots (pos/64) (pos % 64) lanes =
      pack stateWidth (fun slot => (values slot).zeroExtend 64)
        (slots.filter (stateOutput range)) pos lanes := by
  induction slots generalizing pos lanes with
  | nil => rfl
  | cons slot slots ih =>
    rw [packLoop,List.filter_cons]
    split
    next h => simp only [placeOutput_eq,advance_placeOutput,ih,pack]
    next h => exact ih pos lanes

theorem outputPlace_eq (wanted : DolIRStateSlot) (slots : List DolIRStateSlot) (pos : ℕ) :
    outputPlace range wanted slots (pos/64) (pos % 64) =
      (position stateWidth wanted (slots.filter (stateOutput range)) pos).map
        fun q => (q/64,q % 64) := by
  induction slots generalizing pos with
  | nil => rfl
  | cons slot slots ih =>
    rw [outputPlace,List.filter_cons]
    split
    next h =>
      simp only [placeOutput_eq,advance_placeOutput,ih,position]
      split <;> rfl
    next h => exact ih pos

def outputs : List DolIRStateSlot := stateSlots.filter (stateOutput range)

theorem mem_outputs {slot : DolIRStateSlot} (hs : stateOutput range slot = true) :
    slot ∈ outputs range :=
  List.mem_filter.mpr ⟨mem_stateSlots slot,hs⟩

theorem nativeOutputLaneCount_eq :
    nativeOutputLaneCount range = (finish stateWidth (outputs range) 0 + 63)/64 := by
  have h := laneCountLoop_eq range stateSlots 0
  rw [Nat.zero_div,Nat.zero_mod] at h
  unfold nativeOutputLaneCount
  rw [h]
  show _/64 + (if _ % 64 ≠ 0 then 1 else 0) = _
  rw [outputs]
  split <;> omega

theorem outputPlace_position {slot : DolIRStateSlot} {q : ℕ}
    (h : position stateWidth slot (outputs range) 0 = some q) :
    outputPlace range slot stateSlots 0 0 = some (q/64,q % 64) := by
  have := outputPlace_eq range slot stateSlots 0
  rw [Nat.zero_div,Nat.zero_mod] at this
  rw [this]
  show (position stateWidth slot (outputs range) 0).map _ = _
  rw [h]
  rfl

variable (cfg : ResultConfig) (values : SlotValues) (cycles : BitVec 64)

def resultLanes : List (BitVec 64) :=
  let lanes := packLoop range values stateSlots 0 0
    (List.replicate (nativeResultLaneCount cfg range) 0)
  if nativeCyclesInResult cfg range then lanes.set (nativeOutputLaneCount range) cycles else lanes

theorem packLoop_start (lanes : List (BitVec 64)) : packLoop range values stateSlots 0 0 lanes =
    pack stateWidth (fun slot => (values slot).zeroExtend 64) (outputs range) 0 lanes := by
  have := packLoop_eq range values stateSlots 0 lanes
  rwa [Nat.zero_div,Nat.zero_mod] at this

theorem length_resultLanes :
    (resultLanes range cfg values cycles).length = nativeResultLaneCount cfg range := by
  unfold resultLanes
  dsimp only
  rw [packLoop_start]
  split
  · rw [List.length_set,length_pack,List.length_replicate]
  · rw [length_pack,List.length_replicate]

theorem extractLane_nativeOutputs {lane : ℕ} (h : lane < nativeResultLaneCount cfg range) :
    extractLane (nativeOutputs cfg range values cycles) (nativeResultLaneCount cfg range) lane =
      (resultLanes range cfg values cycles)[lane]? := by
  have hlen := length_resultLanes range cfg values cycles
  have hout : nativeOutputs cfg range values cycles =
      if nativeResultLaneCount cfg range = 0 then .void
      else if nativeResultLaneCount cfg range = 1 then
        .lane ((resultLanes range cfg values cycles).headD 0)
      else .aggregate (resultLanes range cfg values cycles) := rfl
  rw [hout,if_neg (by omega)]
  by_cases hone : nativeResultLaneCount cfg range = 1
  · obtain ⟨x,hx⟩ := List.length_eq_one_iff.mp (hlen.trans hone)
    have hlane : lane = 0 := by omega
    rw [if_pos hone,hx,hlane]
    exact if_pos hone
  · rw [if_neg hone]
    exact if_neg hone

theorem laneBit_resultLanes {slot : DolIRStateSlot} {q k : ℕ}
    (h : position stateWidth slot (outputs range) 0 = some q) (hk : k < stateWidth slot) :
    laneBit (resultLanes range cfg values cycles) (q + k) = (values slot).getLsbD k := by
  have hfin := (le_position stateWidth h).2
  have hcount := nativeOutputLaneCount_eq range
  have hle : nativeOutputLaneCount range ≤ nativeResultLaneCount cfg range := Nat.le_add_right _ _
  have hword : ∀ slot k, stateWidth slot ≤ k →
      ((values slot).zeroExtend 64).getLsbD k = false := fun slot k hk => by
    rw [BitVec.getLsbD_setWidth,BitVec.getLsbD_of_ge _ _ hk,Bool.and_false]
  have hlen : finish stateWidth (outputs range) 0 ≤
      64*(List.replicate (nativeResultLaneCount cfg range) (0 : BitVec 64)).length := by
    rw [List.length_replicate]
    omega
  have hfree : ∀ i, 0 ≤ i →
      laneBit (List.replicate (nativeResultLaneCount cfg range) (0 : BitVec 64)) i = false := fun i _ => by
    unfold laneBit
    rw [List.getElem?_replicate]
    split <;> exact BitVec.getLsbD_zero
  have hpack := laneBit_pack stateWidth_range hword hlen hfree h hk
  have hw := (stateWidth_range slot).2
  rw [BitVec.getLsbD_setWidth,decide_eq_true (show k < 64 by omega),Bool.true_and] at hpack
  rw [← hpack]
  unfold resultLanes
  dsimp only
  rw [packLoop_start]
  split
  · unfold laneBit
    rw [List.getElem?_set_ne (by omega)]
  · rfl

theorem nativeOutputValue_nativeOutputs {slot : DolIRStateSlot} (hs : stateOutput range slot = true) :
    nativeOutputValue cfg range (nativeOutputs cfg range values cycles) slot =
      some (values slot) := by
  obtain ⟨q,h⟩ := position_mem stateWidth (mem_outputs range hs) 0
  have hfin := (le_position stateWidth h).2
  have hfits := position_fits stateWidth (fun s => (stateWidth_range s).2) h
  have hpos := (stateWidth_range slot).1
  have hcount := nativeOutputLaneCount_eq range
  have hle : nativeOutputLaneCount range ≤ nativeResultLaneCount cfg range := Nat.le_add_right _ _
  have hlane : q/64 < (resultLanes range cfg values cycles).length := by
    rw [length_resultLanes]
    omega
  unfold nativeOutputValue
  rw [outputPlace_position range h]
  show (extractLane _ _ (q/64)).bind _ = _
  rw [extractLane_nativeOutputs range cfg values cycles (by omega),List.getElem?_eq_getElem hlane]
  refine congrArg some (BitVec.eq_of_getLsbD_eq fun k hk => ?_)
  have hbit := laneBit_resultLanes range cfg values cycles h hk
  unfold laneBit at hbit
  rw [show (q + k)/64 = q/64 by omega,show (q + k) % 64 = q % 64 + k by omega,
    List.getElem?_eq_getElem hlane] at hbit
  rw [BitVec.getLsbD_setWidth,decide_eq_true hk,Bool.true_and,BitVec.getLsbD_ushiftRight]
  exact hbit

theorem nativeCycleValue_nativeOutputs (h : nativeCyclesInResult cfg range = true) :
    nativeCycleValue cfg range (nativeOutputs cfg range values cycles) = some cycles := by
  have hcount : nativeResultLaneCount cfg range = nativeOutputLaneCount range + 1 := by
    rw [nativeResultLaneCount,h]
    rfl
  unfold nativeCycleValue
  rw [extractLane_nativeOutputs range cfg values cycles (by omega)]
  have hlen := length_resultLanes range cfg values cycles
  unfold resultLanes at hlen ⊢
  dsimp only at hlen ⊢
  rw [if_pos h] at hlen ⊢
  rw [List.getElem?_set_self (by rw [List.length_set] at hlen; omega)]

end

/-- Whatever slots a function returns, each is read back from where it was put, no two share a
bit, the cycle count comes back where it is carried, and the policy counts the same lanes. -/
theorem native_results_round_trip (cfg : ResultConfig) (r : FunctionRange) (values : SlotValues)
    (cycles : BitVec 64) :
    (∀ slot ∈ r.outputState,
      nativeOutputValue cfg (some r) (nativeOutputs cfg (some r) values cycles) slot =
        some (values slot)) ∧
    (nativeCyclesInResult cfg (some r) = true →
      nativeCycleValue cfg (some r) (nativeOutputs cfg (some r) values cycles) = some cycles) ∧
    (∀ slot ∈ r.outputState, ∀ other ∈ r.outputState, slot ≠ other →
      ∃ p o, outputPlace (some r) slot stateSlots 0 0 = some p ∧
        outputPlace (some r) other stateSlots 0 0 = some o ∧
        ∀ k < stateWidth slot, ∀ l < stateWidth other, 64*p.1 + p.2 + k ≠ 64*o.1 + o.2 + l) ∧
    nativeOutputLaneCount (some r) = packedReturnLanes r.outputState := by
  have houtput : ∀ {slot}, slot ∈ r.outputState → stateOutput (some r) slot = true :=
    fun h => decide_eq_true h
  refine ⟨fun slot h => nativeOutputValue_nativeOutputs _ _ _ _ (houtput h),
    nativeCycleValue_nativeOutputs _ _ _ _,fun slot hs other ho hne => ?_,?_⟩
  · obtain ⟨p,hp⟩ := position_mem stateWidth (mem_outputs (some r) (houtput hs)) 0
    obtain ⟨o,ho⟩ := position_mem stateWidth (mem_outputs (some r) (houtput ho)) 0
    have hdisjoint := position_disjoint stateWidth hne hp ho
    refine ⟨_,_,outputPlace_position _ hp,outputPlace_position _ ho,fun k hk l hl => ?_⟩
    dsimp only
    omega
  · unfold nativeOutputLaneCount packedReturnLanes
    rw [packedLanesLoop_eq]

end NativeResults

end DolRecomp
