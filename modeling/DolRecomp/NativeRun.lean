import DolRecomp.NativeLookup
import DolRecomp.NativeState

/-!
# The entry of a native module

`moderngekko_native_run` chains native functions: an exit at the budget with
cycles left goes on in the function of the exit address, and the registers stay
in the state buffer between the two.
-/

namespace DolRecomp

inductive MGNativeExitReason
  | budget | exception | fallback | intercept | invalidatedCode | stop
  deriving DecidableEq, Repr

structure MGNativeExit where
  reason : MGNativeExitReason
  pc : BitVec 32
  nextPc : BitVec 32
  cycles : BitVec 32
  instructions : BitVec 32
  loadStoreInstructions : BitVec 32
  fpInstructions : BitVec 32
  deriving DecidableEq, Repr

namespace NativeRun

open NativeState

/-- The host: its registers, the flag `needs_validation` and everything else the callbacks,
the entries and the validation reach. -/
structure Machine (W : Type*) where
  cpu : CPUState
  needsValidation : Bool
  rest : W

/-- The generated tables, with what a validation and a native function do. -/
structure NativeModule (W : Type*) where
  table : NativeTable
  entryMap : NativeLookup.EntryMap
  /-- The ABI's input mask of a range. -/
  inputState : ℕ → StateMask
  /-- A patch is linked in place of the function. -/
  patched : ℕ → Bool
  validateIndex : ℕ → Machine W → Machine W × Bool
  entry : ℕ → Machine W → Staged → BitVec 32 → BitVec 32 → BitVec 32 →
    Machine W × Staged × MGNativeExit

variable {W : Type*} (M : NativeModule W)

/-- The `input_mask` that `emit_ranges` writes for a range. -/
def NativeModule.inputMask (i : ℕ) : StateMask :=
  if M.patched i then ∅ else (M.inputState i).filter Persistent

def find (address : BitVec 32) : Option ℕ := NativeTable.search M.table.ranges address

def supportsEntry (address : BitVec 32) : Bool :=
  NativeLookup.supportsEntry M.table M.entryMap address (find M address)

def validateAll (m : Machine W) : Machine W :=
  if m.needsValidation then
    (List.range M.table.ranges.length).foldl (fun m i => (M.validateIndex i m).1)
      { m with needsValidation := false }
  else m

def addSat (a b : BitVec 32) : BitVec 32 := if (-1 : BitVec 32) - a < b then -1 else a + b

def prepareState (cpu : CPUState) (s : Staged) (required : StateMask) : Staged :=
  let missing := required \ (s.dirty ∪ s.valid)
  if missing = ∅ then s
  else { s with values := reloadState cpu s.values missing, valid := s.valid ∪ missing }

def retainPersistentDirty (s : Staged) : Staged := { s with dirty := s.dirty.filter Persistent }

/-- The variables of `moderngekko_native_run` at the head of its loop. -/
structure Chain (W : Type*) where
  machine : Machine W
  staged : Staged
  index : ℕ
  entryPc : BitVec 32
  priorCycles : BitVec 32
  priorInstructions : BitVec 32
  priorLoadStore : BitVec 32
  priorFp : BitVec 32
  remaining : BitVec 32

inductive Outcome (W : Type*)
  | chained (c : Chain W)
  | returned (machine : Machine W) (exit : MGNativeExit)

/-- `moderngekko_native_run` up to its loop. -/
def start (m : Machine W) (entryPc cycleBudget : BitVec 32) : Outcome W :=
  let m := validateAll M m
  let miss (m : Machine W) : Outcome W :=
    .returned m ⟨.invalidatedCode,entryPc,entryPc + 4,0,0,0,0⟩
  match find M entryPc with
  | none => miss m
  | some index =>
    let (m,ok) := M.validateIndex index m
    if ok then .chained ⟨m,.zero,index,entryPc,0,0,0,0,cycleBudget⟩ else miss m

def prepared (c : Chain W) : Staged :=
  prepareState c.machine.cpu c.staged (M.inputMask c.index)

def callEntry (c : Chain W) : Machine W × Staged × MGNativeExit :=
  M.entry c.index c.machine (prepared M c) c.entryPc c.remaining c.priorCycles

/-- The index to go on with after an exit, with the machine the validation leaves. -/
def nextIndex (remaining : BitVec 32) (m : Machine W) (exit : MGNativeExit) :
    Machine W × Option ℕ :=
  if exit.reason = .budget ∧ exit.cycles < remaining ∧
      (exit.cycles ≠ 0 ∨ exit.instructions ≠ 0) then
    match find M exit.pc with
    | none => (m,none)
    | some index =>
      if supportsEntry M exit.pc then
        let (m,ok) := M.validateIndex index m
        (m,if ok then some index else none)
      else (m,none)
  else (m,none)

def iterate (c : Chain W) : Outcome W :=
  let (m,staged,exit) := callEntry M c
  let staged := retainPersistentDirty staged
  match nextIndex M c.remaining m exit with
  | (m,none) =>
    let m := if staged.dirty = ∅ then m
      else { m with cpu := commitState staged.values staged.dirty m.cpu }
    .returned m { exit with
      cycles := addSat c.priorCycles exit.cycles
      instructions := addSat c.priorInstructions exit.instructions
      loadStoreInstructions := addSat c.priorLoadStore exit.loadStoreInstructions
      fpInstructions := addSat c.priorFp exit.fpInstructions }
  | (m,some index) =>
    .chained
      { machine := m
        staged := staged
        index := index
        entryPc := exit.pc
        priorCycles := c.priorCycles + exit.cycles
        priorInstructions := addSat c.priorInstructions exit.instructions
        priorLoadStore := addSat c.priorLoadStore exit.loadStoreInstructions
        priorFp := addSat c.priorFp exit.fpInstructions
        remaining := c.remaining - exit.cycles }

/-- The outcomes of a run so far, with the exits that the called entries reported. -/
inductive Reaches (m : Machine W) (entryPc cycleBudget : BitVec 32) :
    List MGNativeExit → Outcome W → Prop
  | start : Reaches m entryPc cycleBudget [] (start M m entryPc cycleBudget)
  | iterate {reports : List MGNativeExit} {c : Chain W}
      (h : Reaches m entryPc cycleBudget reports (.chained c)) :
      Reaches m entryPc cycleBudget (reports ++ [(callEntry M c).2.2]) (iterate M c)

variable {M}

theorem mem_prepareState (cpu : CPUState) (s : Staged) {required : StateMask}
    {slot : DolIRStateSlot} (h : slot ∈ required) :
    slot ∈ (prepareState cpu s required).dirty ∪ (prepareState cpu s required).valid := by
  simp only [prepareState]
  split_ifs with hm
  · simpa [Finset.sdiff_eq_empty_iff_subset] using (Finset.sdiff_eq_empty_iff_subset.1 hm) h
  · by_cases hd : slot ∈ s.dirty ∪ s.valid
    · simp only [Finset.mem_union] at hd ⊢
      tauto
    · simp only [Finset.mem_union,Finset.mem_sdiff] at hd ⊢
      tauto

@[simp] theorem prepareState_dirty (cpu : CPUState) (s : Staged) (required : StateMask) :
    (prepareState cpu s required).dirty = s.dirty := by
  simp only [prepareState]
  split_ifs <;> rfl

/-- A reload keeps what is staged. -/
theorem prepareState_values (cpu : CPUState) (s : Staged) (required : StateMask)
    {slot : DolIRStateSlot} (h : slot ∈ s.dirty ∪ s.valid) :
    (prepareState cpu s required).values slot = s.values slot := by
  simp only [prepareState]
  split_ifs
  · rfl
  · exact reloadState_of_notMem cpu s.values fun hm => (Finset.mem_sdiff.1 hm).2 h

/-- The saturating sum of one counter over the reports. -/
def satSum (counter : MGNativeExit → BitVec 32) (reports : List MGNativeExit) : BitVec 32 :=
  .ofNat 32 (min ((reports.map fun e => (counter e).toNat).sum) (2 ^ 32 - 1))

theorem addSat_toNat (a b : BitVec 32) :
    (addSat a b).toNat = min (a.toNat + b.toNat) (2 ^ 32 - 1) := by
  have ha := a.isLt
  have hs : ((-1 : BitVec 32) - a).toNat = 2 ^ 32 - 1 - a.toNat := by
    rw [BitVec.toNat_sub]
    have : (-1 : BitVec 32).toNat = 2 ^ 32 - 1 := by decide
    omega
  unfold addSat
  split_ifs with h <;> rw [BitVec.lt_def,hs] at h
  · have : (-1 : BitVec 32).toNat = 2 ^ 32 - 1 := by decide
    omega
  · rw [BitVec.toNat_add_of_lt (by omega)]
    omega

theorem satSum_toNat (counter : MGNativeExit → BitVec 32) (reports : List MGNativeExit) :
    (satSum counter reports).toNat =
      min ((reports.map fun e => (counter e).toNat).sum) (2 ^ 32 - 1) := by
  rw [satSum,BitVec.toNat_ofNat,Nat.mod_eq_of_lt]
  omega

@[simp] theorem satSum_nil (counter : MGNativeExit → BitVec 32) : satSum counter [] = 0 := rfl

theorem satSum_append (counter : MGNativeExit → BitVec 32) (reports : List MGNativeExit)
    (e : MGNativeExit) :
    satSum counter (reports ++ [e]) = addSat (satSum counter reports) (counter e) := by
  apply BitVec.eq_of_toNat_eq
  rw [addSat_toNat,satSum_toNat,satSum_toNat]
  simp only [List.map_append,List.sum_append,List.map_cons,List.map_nil,List.sum_singleton]
  omega

theorem nextIndex_some {remaining : BitVec 32} {m m' : Machine W} {exit : MGNativeExit} {i : ℕ}
    (h : nextIndex M remaining m exit = (m',some i)) :
    exit.reason = .budget ∧ exit.cycles < remaining ∧ find M exit.pc = some i ∧
      supportsEntry M exit.pc = true ∧ M.validateIndex i m = (m',true) := by
  unfold nextIndex at h
  split at h
  case isFalse => simp at h
  case isTrue hg =>
    obtain ⟨hr,hc,-⟩ := hg
    split at h
    case h_1 => simp at h
    case h_2 index hf =>
      split at h
      case isFalse => simp at h
      case isTrue hs =>
        rcases hv : M.validateIndex index m with ⟨m1,ok⟩
        cases ok <;> simp only [hv,Prod.mk.injEq,reduceCtorEq,and_false,↓reduceIte,
          Bool.false_eq_true,Option.some.injEq] at h
        obtain ⟨rfl,rfl⟩ := h
        exact ⟨hr,hc,hf,hs,hv⟩

/-- The counters of a chain, against the reports so far. -/
structure Counted (cycleBudget : BitVec 32) (reports : List MGNativeExit) (c : Chain W) : Prop where
  cycles : c.priorCycles.toNat = (reports.map fun e => e.cycles.toNat).sum
  budget : c.priorCycles.toNat + c.remaining.toNat = cycleBudget.toNat
  instructions : c.priorInstructions = satSum (·.instructions) reports
  loadStore : c.priorLoadStore = satSum (·.loadStoreInstructions) reports
  fp : c.priorFp = satSum (·.fpInstructions) reports

theorem Counted.satSum_cycles {cycleBudget : BitVec 32} {reports : List MGNativeExit} {c : Chain W}
    (h : Counted cycleBudget reports c) : c.priorCycles = satSum (·.cycles) reports := by
  apply BitVec.eq_of_toNat_eq
  have := c.priorCycles.isLt
  rw [satSum_toNat,← h.cycles]
  omega

theorem counted_start {m : Machine W} {entryPc cycleBudget : BitVec 32} {c : Chain W}
    (h : start M m entryPc cycleBudget = .chained c) : Counted cycleBudget [] c := by
  simp only [start] at h
  split at h
  · cases h
  · split at h
    · cases h
      exact ⟨rfl,by simp,rfl,rfl,rfl⟩
    · cases h

theorem counted_iterate {cycleBudget : BitVec 32} {reports : List MGNativeExit} {c c' : Chain W}
    (hc : Counted cycleBudget reports c) (h : iterate M c = .chained c') :
    Counted cycleBudget (reports ++ [(callEntry M c).2.2]) c' := by
  rcases he : callEntry M c with ⟨m,staged,exit⟩
  rcases hn : nextIndex M c.remaining m exit with ⟨m',_ | i⟩ <;>
    simp only [iterate,he,hn,Outcome.chained.injEq,reduceCtorEq] at h
  subst h
  obtain ⟨-,hlt,-⟩ := nextIndex_some hn
  have hb := hc.budget
  have hbound := cycleBudget.isLt
  rw [BitVec.lt_def] at hlt
  have hsum : (c.priorCycles + exit.cycles).toNat = c.priorCycles.toNat + exit.cycles.toNat :=
    BitVec.toNat_add_of_lt (by omega)
  refine ⟨?_,?_,?_,?_,?_⟩
  · simp [hsum,hc.cycles]
  · show (c.priorCycles + exit.cycles).toNat + (c.remaining - exit.cycles).toNat = _
    rw [hsum,BitVec.toNat_sub_of_le (BitVec.le_def.2 hlt.le)]
    omega
  · rw [satSum_append,← hc.instructions]
  · rw [satSum_append,← hc.loadStore]
  · rw [satSum_append,← hc.fp]

/-- The counters hold the sums in every round. -/
theorem counted_reaches {m : Machine W} {entryPc cycleBudget : BitVec 32}
    {reports : List MGNativeExit} {c : Chain W}
    (h : Reaches M m entryPc cycleBudget reports (.chained c)) : Counted cycleBudget reports c := by
  generalize ho : Outcome.chained c = o at h
  induction h generalizing c with
  | start => exact counted_start ho.symm
  | iterate _ ih => exact counted_iterate (ih rfl) ho.symm

/-- What the counters of a returned exit are to be. -/
def Totals (reports : List MGNativeExit) (exit : MGNativeExit) : Prop :=
  exit.cycles = satSum (·.cycles) reports ∧
    exit.instructions = satSum (·.instructions) reports ∧
    exit.loadStoreInstructions = satSum (·.loadStoreInstructions) reports ∧
    exit.fpInstructions = satSum (·.fpInstructions) reports

theorem totals_start {m m' : Machine W} {entryPc cycleBudget : BitVec 32} {exit : MGNativeExit}
    (h : start M m entryPc cycleBudget = .returned m' exit) : Totals [] exit := by
  simp only [start] at h
  split at h
  · cases h
    exact ⟨rfl,rfl,rfl,rfl⟩
  · split at h <;> cases h
    exact ⟨rfl,rfl,rfl,rfl⟩

theorem totals_iterate {m' : Machine W} {cycleBudget : BitVec 32} {reports : List MGNativeExit}
    {c : Chain W} {exit : MGNativeExit} (hc : Counted cycleBudget reports c)
    (h : iterate M c = .returned m' exit) : Totals (reports ++ [(callEntry M c).2.2]) exit := by
  rcases he : callEntry M c with ⟨m,staged,report⟩
  rcases hn : nextIndex M c.remaining m report with ⟨m1,_ | i⟩ <;>
    simp only [iterate,he,hn,Outcome.returned.injEq,reduceCtorEq] at h
  obtain ⟨-,rfl⟩ := h
  refine ⟨?_,?_,?_,?_⟩ <;> rw [satSum_append]
  · rw [← hc.satSum_cycles]
  · rw [← hc.instructions]
  · rw [← hc.loadStore]
  · rw [← hc.fp]

/-- A staged value after the round: still dirty when the next entry is called, or with the
host. -/
def Kept (M : NativeModule W) (slot : DolIRStateSlot) (value : BitVec 64) : Outcome W → Prop
  | .chained c => slot ∈ (prepared M c).dirty ∧ (prepared M c).values slot = value
  | .returned m _ => hostValue m.cpu slot = some (committed value slot)

theorem kept_iterate (c : Chain W) {slot : DolIRStateSlot} (hp : Persistent slot)
    (hd : slot ∈ (callEntry M c).2.1.dirty) :
    Kept M slot ((callEntry M c).2.1.values slot) (iterate M c) := by
  rcases he : callEntry M c with ⟨m,staged,exit⟩
  rw [he] at hd
  have hr : slot ∈ (retainPersistentDirty staged).dirty := Finset.mem_filter.2 ⟨hd,hp⟩
  rcases hn : nextIndex M c.remaining m exit with ⟨m',_ | i⟩ <;> simp only [iterate,he,hn,Kept]
  · rw [if_neg (Finset.ne_empty_of_mem hr)]
    exact hostValue_commitState m'.cpu hp hr
  · refine ⟨by simpa only [prepared,prepareState_dirty] using hr,?_⟩
    exact prepareState_values m'.cpu _ _ (Finset.mem_union_left _ hr)

/-- What holds of an outcome of the run: the input mask of a round's entry is staged when the
entry is called, the budget is split without a wrap, and the dirty registers survive the
round; the counters of a return are the saturating sums. -/
def RunOk (M : NativeModule W) (cycleBudget : BitVec 32) (reports : List MGNativeExit) :
    Outcome W → Prop
  | .chained c =>
    (∀ slot ∈ M.inputMask c.index, slot ∈ (prepared M c).dirty ∪ (prepared M c).valid) ∧
      c.priorCycles.toNat + c.remaining.toNat = cycleBudget.toNat ∧
      ∀ slot ∈ (callEntry M c).2.1.dirty, Persistent slot →
        Kept M slot ((callEntry M c).2.1.values slot) (iterate M c)
  | .returned _ exit => Totals reports exit

theorem native_run {m : Machine W} {entryPc cycleBudget : BitVec 32} {reports : List MGNativeExit}
    {outcome : Outcome W} (h : Reaches M m entryPc cycleBudget reports outcome) :
    RunOk M cycleBudget reports outcome := by
  cases ho : outcome with
  | chained c =>
    rw [ho] at h
    exact ⟨fun slot hs => mem_prepareState _ _ hs,(counted_reaches h).budget,
      fun slot hd hp => kept_iterate c hp hd⟩
  | returned m' exit =>
    cases h with
    | start => exact totals_start ho
    | iterate h => exact totals_iterate (counted_reaches h) ho

/-- The first word sets `gpr 3` and uses three cycles, the second one falls back. -/
def twoWords : NativeModule Unit where
  table := NativeLookup.twoRanges
  entryMap := ⟨[0,4],fun _ => 3⟩
  inputState _ := {.gpr 3,.lr}
  patched _ := false
  validateIndex _ m := (m,true)
  entry _ m s entryPc _ _ :=
    if entryPc = 0x80003100 then
      (m,{ s with values := Function.update s.values (.gpr 3) 7, dirty := insert (.gpr 3) s.dirty },
        ⟨.budget,0x80003104,0x80003108,3,2,1,0⟩)
    else (m,s,⟨.fallback,entryPc,entryPc + 4,1,1,0,0⟩)

def firstReport : MGNativeExit := ⟨.budget,0x80003104,0x80003108,3,2,1,0⟩
def secondReport : MGNativeExit := ⟨.fallback,0x80003104,0x80003108,1,1,0,0⟩

def firstRound : Chain Unit := ⟨⟨cpuInit,false,()⟩,.zero,0,0x80003100,0,0,0,0,100⟩

theorem start_twoWords :
    start twoWords ⟨cpuInit,true,()⟩ 0x80003100 100 = .chained firstRound := rfl

theorem native_run_twoWords : ∃ c m, iterate twoWords firstRound = .chained c ∧ c.remaining = 97 ∧
    RunOk twoWords 100 [firstReport] (.chained c) ∧
    RunOk twoWords 100 [firstReport,secondReport]
      (.returned m ⟨.fallback,0x80003104,0x80003108,4,3,1,0⟩) := by
  have h0 : Reaches twoWords ⟨cpuInit,true,()⟩ 0x80003100 100 [] (.chained firstRound) := by
    rw [← start_twoWords]
    exact .start
  have h1 : Reaches twoWords ⟨cpuInit,true,()⟩ 0x80003100 100 [firstReport] _ := h0.iterate
  have h2 : Reaches twoWords ⟨cpuInit,true,()⟩ 0x80003100 100 [firstReport,secondReport] _ :=
    Reaches.iterate (c := _) h1
  exact ⟨_,_,rfl,rfl,native_run h1,native_run h2⟩

end NativeRun

end DolRecomp
