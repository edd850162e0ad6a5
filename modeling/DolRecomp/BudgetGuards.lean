import Mathlib.Logic.Relation
import DolRecomp.Block
import DolRecomp.WellFormed

/-!
# Budget guards of native bodies

The control flow of the functions that the LLVM backend emits: blocks, the
fallback handler, calls and returns, with the counters that they charge and the
guards that they pass. What the blocks compute is left open, so that every run of
the emitted code is a run here.
-/

namespace DolRecomp

namespace BudgetGuards

/-- How a module is emitted. -/
structure Mode where
  modern : Bool
  coldEscapes : Bool
  /-- `cold_escapes_ = modern_runtime_ || ...` -/
  modern_cold : modern = true → coldEscapes = true

/-- A function with a body, built from consecutive instructions. `nativeABIFlags` refuses a
block without a cost. -/
structure NativeFunction where
  insts : List PPCInst
  source : DolIRFunction
  nativeAbi : Bool
  built : dolirBuildChunk insts source.guestStart = some source
  consecutive : Consecutive insts source.guestStart
  fits : source.guestStart.toNat + 4*insts.length < 2^32
  charges : nativeAbi = true → ∀ b ∈ source.blocks, 0 < b.cycleCost

structure Emission extends Mode where
  functions : List NativeFunction
  modern_native : modern = true → ∀ f ∈ functions, f.nativeAbi = true

def continuationIndex (f : DolIRFunction) (pc : BitVec 32) : Option ℕ :=
  if f.guestStart ≤ pc ∧ pc < f.guestEnd ∧ (pc - f.guestStart) &&& 3#32 = 0 ∧
      (pc - f.guestStart).toNat / 4 < f.blocks.length then
    some ((pc - f.guestStart).toNat / 4)
  else none

/-- `scanContinuations`. -/
def continuations (f : DolIRFunction) : List ℕ :=
  f.blocks.filterMap fun b =>
    if b.terminator.linked then continuationIndex f (b.terminator.guestPc + 4) else none

def branchesBack (b : DolIRBlock) (index header : ℕ) : Bool :=
  header ≤ index &&
    match b.terminator.kind with
    | .condBranch => b.terminator.target0 = some header || b.terminator.target1 = some header
    | .branch => b.terminator.target0 = some header
    | _ => false

/-- `scanLoopHeaders`. -/
def loopHeader (f : DolIRFunction) (header : ℕ) : Bool :=
  (List.range f.blocks.length).any fun index =>
    f.blocks[index]?.any fun b => branchesBack b index header

/-- In front of a block, or of the fallback handler for the instruction of a block. -/
inductive Place
  | block (index : ℕ)
  | handler (index : ℕ)

def Place.index : Place → ℕ
  | .block index | .handler index => index

def isFallback (f : DolIRFunction) (index : ℕ) : Bool :=
  f.blocks[index]?.any fun b => b.terminator.kind == .fallback

/-- `blocks_[index]`: the entry of a block that falls back is an edge to the handler. -/
def arrive (f : DolIRFunction) (index : ℕ) : Place :=
  if isFallback f index then .handler index else .block index

/-- A guard stands at the loop headers; the handler has one for ModernGekko only. -/
def guardedAt (mode : Mode) (f : DolIRFunction) : Place → Bool
  | .block index => loopHeader f index
  | .handler index => mode.modern && loopHeader f index

/-- A write of the MSR is followed by a guard for ModernGekko. -/
def guardsInside (mode : Mode) (b : DolIRBlock) : Bool :=
  mode.modern && b.instructions.any fun i => i.op == .stateWrite .msr

/-- The counters of a body, and of the chain that bodies share. -/
structure Counters where
  cycles : ℕ
  guardLocal : ℕ
  pending : ℕ
  guard : ℕ
  steps : ℕ
  budget : ℕ

/-- The guard count is kept in the chain, not only in the body. -/
def sharesGuard (mode : Mode) (f : NativeFunction) : Bool := !f.nativeAbi || !mode.coldEscapes

def chargeCycles (cycles : ℕ) (c : Counters) : Counters := { c with cycles := c.cycles + cycles }

def settleCycles (mode : Mode) (c : Counters) : Counters :=
  if mode.modern then { c with pending := c.cycles, cycles := 0 }
  else { c with guardLocal := c.guardLocal + c.cycles, cycles := 0, pending := 0 }

def flushCallCounters (mode : Mode) (f : NativeFunction) (c : Counters) : Counters :=
  { c with pending := c.cycles, guard := if sharesGuard mode f then c.guardLocal else c.guard }

def reloadCallCounters (mode : Mode) (f : NativeFunction) (c : Counters) : Counters :=
  { c with
    cycles := c.pending
    guardLocal := if sharesGuard mode f then c.guard else c.guardLocal }

def elapsed (c : Counters) : ℕ := c.guardLocal + c.cycles

def limit (mode : Mode) (c : Counters) : ℕ := if mode.modern then c.budget else 256

/-- `emitBudgetGuard`, when the run goes on; the flag says that the host renewed the budget. -/
inductive Guard (mode : Mode) (f : NativeFunction) : Counters → Bool → Counters → Prop
  | run {c : Counters} (h : elapsed c < limit mode c)
      (hs : sharesGuard mode f = true → c.steps + 1 < 2048) :
      Guard mode f c false { c with steps := if sharesGuard mode f then c.steps + 1 else c.steps }
  | renew {c : Counters} {remaining : ℕ} (hm : mode.modern = true) (h : limit mode c ≤ elapsed c)
      (hr : 0 < remaining) : Guard mode f c true { c with budget := elapsed c + remaining }

def MayGuard (mode : Mode) (f : NativeFunction) (present : Bool) (c : Counters) (renewed : Bool)
    (c' : Counters) : Prop :=
  if present then Guard mode f c renewed c' else renewed = false ∧ c' = c

/-- A call of the runtime inside a block. ModernGekko services keep the cycles and set the
budget; the other runtime settles them. -/
inductive Boundary (mode : Mode) (f : NativeFunction) : Counters → Counters → Prop
  | service {c : Counters} (hm : mode.modern = true) (budget : ℕ) :
      Boundary mode f c
        { reloadCallCounters mode f (settleCycles mode c) with budget }
  | helper {c : Counters} (hm : mode.modern = false) : Boundary mode f c (settleCycles mode c)

inductive Edge
  | direct | continuation | resume | call | return
  deriving DecidableEq

/-- What a step did: whether it passed a guard, whether the host renewed the budget, whether the
body called the runtime, and the cycles it charged. -/
structure Label where
  edge : Edge
  guarded : Bool
  renewed : Bool
  settled : Bool
  charged : ℕ

/-- A caller that waits to go on at a block. -/
structure Waiting where
  function : NativeFunction
  continuation : ℕ
  guardLocal : ℕ

structure NativeState where
  function : NativeFunction
  place : Place
  counters : Counters
  callers : List Waiting

/-- A block, or the instruction that the handler interprets, up to its last guard. -/
structure Ran (mode : Mode) (s : NativeState) (b : DolIRBlock) (guarded renewed settled : Bool)
    (c : Counters) : Prop where
  block : s.function.source.blocks[s.place.index]? = some b
  guarded_eq : guarded = (guardedAt mode s.function.source s.place || guardsInside mode b)
  counters : ∃ c1 r1 c2 r2, MayGuard mode s.function (guardedAt mode s.function.source s.place)
    s.counters r1 c1 ∧
    (if settled then Relation.TransGen (Boundary mode s.function) (chargeCycles b.cycleCost c1) c2
      else c2 = chargeCycles b.cycleCost c1) ∧
    MayGuard mode s.function (guardsInside mode b) c2 r2 c ∧
    renewed = (r1 || r2 || (mode.modern && settled))

/-- The local targets that a terminator jumps to directly. -/
def directTargets (t : DolIRTerminator) : List ℕ :=
  match t.kind with
  | .fallthrough | .branch => t.target0.toList
  | .condBranch => t.target0.toList ++ t.target1.toList
  | .indirect => t.target1.toList
  | _ => []

def called (mode : Mode) (f : NativeFunction) (c : Counters) : Counters :=
  { flushCallCounters mode f c with guardLocal := (flushCallCounters mode f c).guard }

def returned (mode : Mode) (g : NativeFunction) (caller : Waiting) (c : Counters) : Counters :=
  reloadCallCounters mode caller.function
    { flushCallCounters mode g (if mode.coldEscapes then c else settleCycles mode c) with
      guardLocal := caller.guardLocal }

/-- A body without the native ABI leaves through the context: its cycles go to the downcount,
and under cold escapes its guard count is not handed back. -/
def dropped (mode : Mode) (g : NativeFunction) (caller : Waiting) (c : Counters) : Counters :=
  reloadCallCounters mode caller.function
    (if mode.coldEscapes then { c with pending := 0 }
      else { flushCallCounters mode g { c with cycles := 0 } with guardLocal := caller.guardLocal })

inductive Step (e : Emission) : NativeState → Label → NativeState → Prop
  | direct {s : NativeState} {b : DolIRBlock} {i t : ℕ} {guarded renewed settled : Bool}
      {c : Counters} (hp : s.place = .block i) (hr : Ran e.toMode s b guarded renewed settled c)
      (ht : t ∈ directTargets b.terminator) :
      Step e s ⟨.direct,guarded,renewed,settled,b.cycleCost⟩
        { s with place := arrive s.function.source t, counters := c }
  | continuation {s : NativeState} {b : DolIRBlock} {i t : ℕ} {guarded renewed settled : Bool}
      {c : Counters} (hp : s.place = .block i) (hr : Ran e.toMode s b guarded renewed settled c)
      (hk : b.terminator.kind = .indirect) (ht : t ∈ continuations s.function.source) :
      Step e s ⟨.continuation,guarded,renewed,settled,b.cycleCost⟩
        { s with place := arrive s.function.source t, counters := c }
  /-- The ModernGekko handler goes on behind the instruction it had interpreted. -/
  | service {s : NativeState} {b : DolIRBlock} {i : ℕ} {guarded renewed settled : Bool}
      {c : Counters} (hm : e.modern = true) (hp : s.place = .handler i)
      (hr : Ran e.toMode s b guarded renewed settled c) :
      Step e s ⟨.direct,guarded,renewed,settled,b.cycleCost⟩
        { s with place := arrive s.function.source (i + 1), counters := c }
  /-- The other handler goes on where the host left the program counter, at a block or in
  itself. -/
  | resume {s : NativeState} {b : DolIRBlock} {i : ℕ} {p : Place} {guarded renewed settled : Bool}
      {c : Counters} (hm : e.modern = false) (hp : s.place = .handler i)
      (hr : Ran e.toMode s b guarded renewed settled c)
      (hb : p.index < s.function.source.blocks.length) :
      Step e s ⟨.resume,guarded,renewed,settled,b.cycleCost⟩ { s with place := p, counters := c }
  /-- A call of another body, behind a guard; a tail call leaves nothing to go on with. -/
  | call {s : NativeState} {b : DolIRBlock} {i : ℕ} {g : NativeFunction} {p : Place}
      {guarded renewed settled r : Bool} {c c' : Counters} {callers : List Waiting}
      (hp : s.place = .block i) (hr : Ran e.toMode s b guarded renewed settled c)
      (hg : Guard e.toMode s.function c r c')
      (hm : g ∈ e.functions) (hcold : e.coldEscapes = true → g.nativeAbi = s.function.nativeAbi)
      (hf : callers = s.callers ∨ ∃ k, continuationIndex s.function.source
        (b.terminator.guestPc + 4) = some k ∧ callers = ⟨s.function,k,c'.guardLocal⟩ :: s.callers) :
      Step e s ⟨.call,true,renewed || r,settled,b.cycleCost⟩
        ⟨g,p,called e.toMode s.function c',callers⟩
  | return {s : NativeState} {b : DolIRBlock} {i : ℕ} {guarded renewed settled : Bool}
      {c c' : Counters} {caller : Waiting} {callers : List Waiting} (hp : s.place = .block i)
      (hr : Ran e.toMode s b guarded renewed settled c) (hc : s.callers = caller :: callers)
      (hret : c' = if s.function.nativeAbi then returned e.toMode s.function caller c
        else dropped e.toMode s.function caller c) :
      Step e s ⟨.return,guarded,renewed,settled,b.cycleCost⟩
        ⟨caller.function,arrive caller.function.source caller.continuation,c',callers⟩

/-- The steps that keep the guards sound. A taken indirect jump to a continuation and a resumption
go forward or to a guard, and outside ModernGekko so does an edge to the handler; there a native
body under cold escapes calls no helper, and a body without the native ABI returns only with its
cycles settled and its guard count shared. -/
structure Orderly (e : Emission) (s : NativeState) (l : Label) (s' : NativeState) : Prop where
  jump : l.edge = .continuation ∨ l.edge = .resume →
    s.place.index < s'.place.index ∨ guardedAt e.toMode s'.function.source s'.place = true
  handler : e.modern = false → l.edge = .direct → ∀ i, s'.place = .handler i → s.place.index < i
  settled : e.modern = false → sharesGuard e.toMode s.function = false → l.settled = false
  leave : l.edge = .return →
    s.function.nativeAbi = true ∨ (e.coldEscapes = false ∧ l.settled = true)

def OrderlyStep (e : Emission) (s : NativeState) (l : Label) (s' : NativeState) : Prop :=
  Step e s l s' ∧ Orderly e s l s'

inductive Run (step : NativeState → Label → NativeState → Prop) :
    NativeState → List Label → NativeState → Prop
  | nil (s : NativeState) : Run step s [] s
  | cons {s s' s'' : NativeState} {l : Label} {ls : List Label} (h : step s l s')
      (hr : Run step s' ls s'') : Run step s (l :: ls) s''

structure Entered (e : Emission) (s : NativeState) : Prop where
  function : s.function ∈ e.functions
  callers : s.callers = []
  guard : s.counters.guardLocal = s.counters.guard

/-- How far a body can go on before it needs a guard. -/
def room (mode : Mode) (f : NativeFunction) (p : Place) : ℕ :=
  if guardedAt mode f.source p then 0 else f.source.blocks.length - p.index

def owed (callers : List Waiting) : ℕ :=
  (callers.map fun w => w.function.source.blocks.length - w.continuation + 1).sum

def potential (mode : Mode) (s : NativeState) : ℕ :=
  room mode s.function s.place + owed s.callers

def largest (e : Emission) : ℕ :=
  (e.functions.map fun f => f.source.blocks.length).foldr max 0

/-- What the guards make of a run from `s` to `s'`. -/
structure Guarded (e : Emission) (s : NativeState) (ls : List Label) (s' : NativeState) : Prop where
  /-- Every cycle of control passes a guard. -/
  cycle : ls ≠ [] → s'.function = s.function → s'.place = s.place → s'.callers = s.callers →
    ∃ l ∈ ls, l.guarded = true
  /-- The guarded count and the accumulated cycles grow by all the cycles charged. -/
  grows : elapsed s'.counters = elapsed s.counters + (ls.map Label.charged).sum
  strict : sharesGuard e.toMode s.function = false → ls.length ≤ (ls.map Label.charged).sum
  /-- Without a renewal the run is bounded. -/
  bounded : (∀ l ∈ ls, l.renewed = false) → ls.length ≤
    potential e.toMode s + (2*largest e + 2)*max (limit e.toMode s.counters) 2048

/-- Every run, from every state that is reached, is guarded. -/
def ReachesBudget (e : Emission) (step : NativeState → Label → NativeState → Prop) : Prop :=
  ∀ s₀ ls₀ s ls s', Entered e s₀ → Run step s₀ ls₀ s → Run step s ls s' → Guarded e s ls s'

namespace NativeFunction

variable (f : NativeFunction)

theorem fallthrough_target {i t : ℕ} {b : DolIRBlock} (hb : f.source.blocks[i]? = some b)
    (hk : b.terminator.kind = .fallthrough) (ht : t ∈ b.terminator.target0) : t = i + 1 := by
  obtain ⟨inst,first,-,-,-,hbuilt⟩ := (build_blocks f.built).2.2 i b hb
  rw [(hbuilt.terminator.fallthrough hk).2] at ht
  simp only [Option.mem_def,Option.ite_none_right_eq_some,Option.some.injEq] at ht
  exact ht.2.symm

theorem untaken_target {i t : ℕ} {b : DolIRBlock} (hb : f.source.blocks[i]? = some b)
    (hk : b.terminator.kind = .indirect) (ht : t ∈ b.terminator.target1) : t = i + 1 := by
  obtain ⟨inst,first,hi,-,-,hbuilt⟩ := (build_blocks f.built).2.2 i b hb
  have hlt := (List.getElem?_eq_some_iff.mp hi).1
  have hnext : inst.address + 4 = f.source.guestStart + BitVec.ofNat 32 (4*(i + 1)) := by
    rw [f.consecutive i inst hi,BitVec.add_assoc,Nat.mul_add,BitVec.ofNat_add]
    rfl
  rw [hbuilt.terminator.direct1 (.inr hk),hbuilt.terminator.address1 (.inr hk),hnext] at ht
  obtain ⟨hk,he⟩ := (blockForAddress_eq_some f.fits _ t).mp ht
  have := (address_inj f.fits hk.le (by omega)).mp he
  omega

end NativeFunction

variable {e : Emission} {s s' : NativeState} {l : Label}

@[simp] theorem arrive_index (f : DolIRFunction) (t : ℕ) : (arrive f t).index = t := by
  unfold arrive
  split <;> rfl

theorem loopHeader_of_back {f : DolIRFunction} {i t : ℕ} {b : DolIRBlock}
    (hb : f.blocks[i]? = some b) (h : branchesBack b i t = true) : loopHeader f t = true := by
  have hlt := (List.getElem?_eq_some_iff.mp hb).1
  exact List.any_eq_true.mpr ⟨i,List.mem_range.mpr hlt,by rw [hb]; exact h⟩

/-- A direct jump goes forward or to a loop header. -/
theorem direct_forward (f : NativeFunction) {i t : ℕ} {b : DolIRBlock}
    (hb : f.source.blocks[i]? = some b) (ht : t ∈ directTargets b.terminator) :
    i < t ∨ loopHeader f.source t = true := by
  by_cases hlt : i < t
  · exact .inl hlt
  · refine .inr (loopHeader_of_back hb ?_)
    have hle : t ≤ i := Nat.le_of_not_lt hlt
    unfold directTargets at ht
    split at ht
    case h_1 hk =>
      have := f.fallthrough_target hb hk (Option.mem_toList.mp ht)
      omega
    case h_2 hk =>
      have h0 : b.terminator.target0 = some t := Option.mem_toList.mp ht
      simp [branchesBack,hk,hle,h0]
    case h_3 hk =>
      have h0 : b.terminator.target0 = some t ∨ b.terminator.target1 = some t := by
        simpa using ht
      simp [branchesBack,hk,hle,h0]
    case h_4 hk =>
      have := f.untaken_target hb hk (Option.mem_toList.mp ht)
      omega
    case h_5 => cases ht

theorem room_le (mode : Mode) (f : NativeFunction) (p : Place) :
    room mode f p ≤ f.source.blocks.length - p.index := by
  unfold room
  split
  · exact Nat.zero_le _
  · exact Nat.le_refl _

theorem room_lt {mode : Mode} {f : NativeFunction} {p q : Place}
    (hp : guardedAt mode f.source p = false) (hlt : p.index < f.source.blocks.length)
    (h : p.index < q.index ∨ guardedAt mode f.source q = true) :
    room mode f q < room mode f p := by
  have hroom : room mode f p = f.source.blocks.length - p.index := by simp [room,hp]
  rw [hroom]
  rcases h with h | h
  · have := room_le mode f q
    omega
  · simp only [room,h,if_true]
    omega

theorem owed_cons (w : Waiting) (ws : List Waiting) :
    owed (w :: ws) = (w.function.source.blocks.length - w.continuation + 1) + owed ws := by
  simp [owed]

theorem Ran.unguarded {mode : Mode} {b : DolIRBlock} {renewed settled : Bool} {c : Counters}
    (hr : Ran mode s b false renewed settled c) :
    guardedAt mode s.function.source s.place = false ∧
      s.place.index < s.function.source.blocks.length := by
  have hg := hr.guarded_eq
  rw [eq_comm,Bool.or_eq_false_iff] at hg
  exact ⟨hg.1,(List.getElem?_eq_some_iff.mp hr.block).1⟩

/-- Inside a body a jump forward or to a guard lowers the potential of an unguarded block. -/
theorem Ran.potential_lt {mode : Mode} {b : DolIRBlock} {renewed settled : Bool} {c : Counters}
    {q : Place} (hr : Ran mode s b false renewed settled c)
    (h : s.place.index < q.index ∨ guardedAt mode s.function.source q = true) :
    potential mode { s with place := q, counters := c } < potential mode s := by
  obtain ⟨hg,hlt⟩ := hr.unguarded
  have := room_lt hg hlt h
  simp only [potential]
  omega

/-- A step without a guard uses up some of the potential. -/
theorem unguarded_lt (h : OrderlyStep e s l s') (hl : l.guarded = false) :
    potential e.toMode s' < potential e.toMode s := by
  obtain ⟨h,ho⟩ := h
  cases h with
  | @direct b i t guarded _ _ _ hp hr ht =>
    obtain rfl : guarded = false := hl
    refine hr.potential_lt ?_
    rw [arrive_index]
    rcases direct_forward s.function hr.block ht with hf | hf
    · exact .inl hf
    · unfold arrive at ho ⊢
      split
      next hfall =>
        -- only the handler of ModernGekko has the guard of a loop header
        cases hm : e.modern with
        | true => exact .inr (by simp [guardedAt,hm,hf])
        | false => exact .inl (ho.handler hm rfl t (by simp [hfall]))
      next => exact .inr hf
  | @continuation b i t guarded _ _ _ hp hr hk ht =>
    obtain rfl : guarded = false := hl
    exact hr.potential_lt (ho.jump (.inl rfl))
  | @service b i guarded _ _ _ hm hp hr =>
    obtain rfl : guarded = false := hl
    refine hr.potential_lt (.inl ?_)
    rw [arrive_index,hp]
    exact Nat.lt_succ_self i
  | @resume b i p guarded _ _ _ hm hp hr hb =>
    obtain rfl : guarded = false := hl
    exact hr.potential_lt (ho.jump (.inr rfl))
  | call => cases hl
  | @«return» b i guarded _ _ c c' caller callers hp hr hc hret =>
    have := room_le e.toMode caller.function
      (arrive caller.function.source caller.continuation)
    rw [arrive_index] at this
    simp only [potential,hc,owed_cons]
    omega

section Counters

variable {mode : Mode} {f g : NativeFunction} {c c' : Counters}

/-- A guard changes the steps and the budget only. -/
theorem Guard.same {r : Bool} (h : Guard mode f c r c') : elapsed c' = elapsed c ∧
    c'.cycles = c.cycles ∧ c'.guardLocal = c.guardLocal ∧ c'.guard = c.guard ∧
    c.steps ≤ c'.steps := by
  cases h with
  | run h hs =>
    refine ⟨rfl,rfl,rfl,rfl,?_⟩
    split
    · exact Nat.le_succ _
    · exact Nat.le_refl _
  | renew hm h hr => exact ⟨rfl,rfl,rfl,rfl,Nat.le_refl _⟩

/-- What a guard that was not renewed had checked. -/
theorem Guard.checked (h : Guard mode f c false c') : c'.budget = c.budget ∧
    elapsed c < limit mode c ∧
    (sharesGuard mode f = true → c.steps < c'.steps ∧ c.steps < 2048) := by
  cases h with
  | run h hs =>
    refine ⟨rfl,h,fun hf => ?_⟩
    have := hs hf
    simp only [hf,if_true]
    omega

theorem MayGuard.same {present r : Bool} (h : MayGuard mode f present c r c') :
    elapsed c' = elapsed c ∧ c'.cycles = c.cycles ∧ c'.guardLocal = c.guardLocal ∧
      c'.guard = c.guard ∧ c.steps ≤ c'.steps := by
  unfold MayGuard at h
  split at h
  · exact h.same
  · rw [h.2]
    exact ⟨rfl,rfl,rfl,rfl,Nat.le_refl _⟩

theorem MayGuard.checked {present : Bool} (h : MayGuard mode f present c false c') :
    c'.budget = c.budget ∧ (present = true → elapsed c < limit mode c ∧
      (sharesGuard mode f = true → c.steps < c'.steps ∧ c.steps < 2048)) := by
  unfold MayGuard at h
  split at h
  case isTrue hp => exact ⟨h.checked.1,fun _ => h.checked.2⟩
  case isFalse hp => exact ⟨by rw [h.2],fun ht => absurd ht hp⟩

theorem Boundary.same (h : Boundary mode f c c')
    (hn : mode.modern = true → sharesGuard mode f = false) :
    elapsed c' = elapsed c ∧ c'.steps = c.steps ∧
      (mode.modern = false → c'.budget = c.budget ∧ c'.cycles = 0) ∧
      (mode.modern = true → c'.guardLocal = c.guardLocal ∧ c'.guard = c.guard) := by
  cases h with
  | service hm budget =>
    simp [elapsed,reloadCallCounters,settleCycles,hm,hn hm]
  | helper hm =>
    simp [elapsed,settleCycles,hm]

theorem boundaries_same (h : Relation.TransGen (Boundary mode f) c c')
    (hn : mode.modern = true → sharesGuard mode f = false) : elapsed c' = elapsed c ∧
      c'.steps = c.steps ∧ (mode.modern = false → c'.budget = c.budget ∧ c'.cycles = 0) ∧
      (mode.modern = true → c'.guardLocal = c.guardLocal ∧ c'.guard = c.guard) := by
  induction h with
  | single h => exact h.same hn
  | tail _ h ih =>
    obtain ⟨he,hs,hold,hnew⟩ := h.same hn
    obtain ⟨he',hs',hold',hnew'⟩ := ih
    exact ⟨he.trans he',hs.trans hs',fun hm => ⟨(hold hm).1.trans (hold' hm).1,(hold hm).2⟩,
      fun hm => ⟨(hnew hm).1.trans (hnew' hm).1,(hnew hm).2.trans (hnew' hm).2⟩⟩

end Counters

/-- What the counters of a step say about the cycles and the guards. -/
structure Counted (mode : Mode) (f : NativeFunction) (c : Counters) (guarded renewed : Bool)
    (charged : ℕ) (c' : Counters) : Prop where
  elapsed_eq : elapsed c' = elapsed c + charged
  steps_le : c.steps ≤ c'.steps
  budget_eq : renewed = false → c'.budget = c.budget
  checked : renewed = false → guarded = true → elapsed c < limit mode c ∧
    (sharesGuard mode f = true → c.steps < c'.steps ∧ c.steps < 2048)

theorem limit_eq {mode : Mode} {c c' : Counters} (h : c'.budget = c.budget) :
    limit mode c' = limit mode c := by
  unfold limit
  rw [h]

/-- A block charges its cycles, and a body that keeps its guard count to itself does not lose
track of it. -/
theorem Ran.counted {mode : Mode} {b : DolIRBlock} {guarded renewed settled : Bool} {c : Counters}
    (hr : Ran mode s b guarded renewed settled c)
    (hn : mode.modern = true → sharesGuard mode s.function = false)
    (ho : mode.modern = false → sharesGuard mode s.function = false → settled = false) :
    Counted mode s.function s.counters guarded renewed b.cycleCost c ∧
    (sharesGuard mode s.function = false →
      c.guardLocal = s.counters.guardLocal ∧ c.guard = s.counters.guard) ∧
    (mode.modern = false → settled = true → c.cycles = 0) := by
  obtain ⟨c1,r1,c2,r2,h1,h2,h3,hren⟩ := hr.counters
  have hcharged : elapsed (chargeCycles b.cycleCost c1) = elapsed c1 + b.cycleCost := by
    simp only [elapsed,chargeCycles,Nat.add_assoc]
  obtain ⟨he1,-,hl1,hg1,hs1⟩ := h1.same
  obtain ⟨he3,hc3,hl3,hg3,hs3⟩ := h3.same
  -- what the calls of the runtime leave alone
  have hmid : elapsed c2 = elapsed c1 + b.cycleCost ∧ c2.steps = c1.steps ∧
      ((mode.modern && settled) = false → c2.budget = c1.budget) ∧
      (sharesGuard mode s.function = false → c2.guardLocal = c1.guardLocal ∧ c2.guard = c1.guard) ∧
      (mode.modern = false → settled = true → c2.cycles = 0) := by
    cases settled with
    | false =>
      obtain rfl : c2 = chargeCycles b.cycleCost c1 := h2
      exact ⟨hcharged,rfl,fun _ => rfl,fun _ => ⟨rfl,rfl⟩,fun _ h => by cases h⟩
    | true =>
      obtain ⟨he,hs,hold,hnew⟩ := boundaries_same h2 hn
      refine ⟨he.trans hcharged,hs,fun hm => (hold (by simpa using hm)).1,fun hf => ?_,
        fun hm _ => (hold hm).2⟩
      cases hm : mode.modern with
      | true => exact hnew hm
      | false => cases ho hm hf
  obtain ⟨he2,hs2,hb2,hk2,hz2⟩ := hmid
  refine ⟨⟨by rw [he3,he2,he1],?_,fun h => ?_,fun h hg => ?_⟩,fun hf => ?_,fun hm hs => ?_⟩
  · have := hs2 ▸ hs3
    exact hs1.trans this
  · rw [hren] at h
    simp only [Bool.or_eq_false_iff] at h
    obtain ⟨⟨rfl,rfl⟩,hms⟩ := h
    exact (h3.checked.1.trans (hb2 hms)).trans h1.checked.1
  · rw [hren] at h
    simp only [Bool.or_eq_false_iff] at h
    obtain ⟨⟨rfl,rfl⟩,hms⟩ := h
    rw [hr.guarded_eq,Bool.or_eq_true_iff] at hg
    rcases hg with hg | hg
    · obtain ⟨hlt,hsteps⟩ := h1.checked.2 hg
      refine ⟨hlt,fun hf => ?_⟩
      have := hsteps hf
      omega
    · obtain ⟨hlt,hsteps⟩ := h3.checked.2 hg
      have hlim : limit mode c2 = limit mode s.counters :=
        limit_eq ((hb2 hms).trans h1.checked.1)
      refine ⟨by omega,fun hf => ?_⟩
      have := hsteps hf
      omega
  · exact ⟨(hl3.trans (hk2 hf).1).trans hl1,(hg3.trans (hk2 hf).2).trans hg1⟩
  · exact hc3.trans (hz2 hm hs)

/-- What holds at every step of an orderly run: the bodies on the chain keep their guard counts
in one way, and where each keeps its own the count is the one at the entry. -/
structure Coherent (e : Emission) (s : NativeState) : Prop where
  function : s.function ∈ e.functions
  callers : ∀ w ∈ s.callers, w.function ∈ e.functions ∧
    sharesGuard e.toMode w.function = sharesGuard e.toMode s.function ∧
    (sharesGuard e.toMode s.function = false → w.guardLocal = s.counters.guard)
  guard : sharesGuard e.toMode s.function = false → s.counters.guardLocal = s.counters.guard

theorem Entered.coherent (h : Entered e s) : Coherent e s where
  function := h.function
  callers := by simp [h.callers]
  guard := fun _ => h.guard

theorem Emission.modern_keeps (e : Emission) {f : NativeFunction} (hf : f ∈ e.functions)
    (hm : e.modern = true) : sharesGuard e.toMode f = false := by
  simp [sharesGuard,e.modern_native hm f hf,e.modern_cold hm]

theorem sharesGuard_eq {mode : Mode} {f g : NativeFunction}
    (h : mode.coldEscapes = true → g.nativeAbi = f.nativeAbi) :
    sharesGuard mode g = sharesGuard mode f := by
  unfold sharesGuard
  cases hc : mode.coldEscapes with
  | true => rw [h hc]
  | false => simp

theorem called_elapsed {mode : Mode} {f : NativeFunction} {c : Counters}
    (hk : sharesGuard mode f = false → c.guardLocal = c.guard) :
    elapsed (called mode f c) = elapsed c := by
  cases hf : sharesGuard mode f with
  | true => simp [elapsed,called,flushCallCounters,hf]
  | false => simp [elapsed,called,flushCallCounters,hf,hk hf]

theorem returned_elapsed {mode : Mode} {g : NativeFunction} {w : Waiting} {c : Counters}
    (hg : g.nativeAbi = true) (hs : sharesGuard mode w.function = sharesGuard mode g)
    (hw : sharesGuard mode g = false → w.guardLocal = c.guard ∧ c.guardLocal = c.guard) :
    elapsed (returned mode g w c) = elapsed c := by
  cases hc : mode.coldEscapes with
  | true =>
    have hf : sharesGuard mode g = false := by simp [sharesGuard,hg,hc]
    obtain ⟨h1,h2⟩ := hw hf
    simp [elapsed,returned,reloadCallCounters,flushCallCounters,hc,hs,hf,h1,h2]
  | false =>
    have hf : sharesGuard mode g = true := by simp [sharesGuard,hc]
    have hm : mode.modern = false := by
      cases hm : mode.modern with
      | true => rw [mode.modern_cold hm] at hc; cases hc
      | false => rfl
    simp [elapsed,returned,reloadCallCounters,flushCallCounters,settleCycles,hc,hs,hf,hm]

/-- Without cold escapes a body whose cycles are settled hands back its guard count. -/
theorem dropped_elapsed {mode : Mode} {g : NativeFunction} {w : Waiting} {c : Counters}
    (hc : mode.coldEscapes = false) (hz : c.cycles = 0) :
    elapsed (dropped mode g w c) = elapsed c := by
  have hf : ∀ f, sharesGuard mode f = true := fun f => by simp [sharesGuard,hc]
  simp [elapsed,dropped,reloadCallCounters,flushCallCounters,hc,hf,hz]

@[simp] theorem called_steps (mode : Mode) (f : NativeFunction) (c : Counters) :
    (called mode f c).steps = c.steps := rfl

@[simp] theorem called_budget (mode : Mode) (f : NativeFunction) (c : Counters) :
    (called mode f c).budget = c.budget := rfl

theorem returned_same (mode : Mode) (g : NativeFunction) (w : Waiting) (c : Counters) :
    (returned mode g w c).steps = c.steps ∧ (returned mode g w c).budget = c.budget := by
  simp only [returned,reloadCallCounters,flushCallCounters,settleCycles]
  split
  · exact ⟨rfl,rfl⟩
  · split <;> exact ⟨rfl,rfl⟩

theorem dropped_same (mode : Mode) (g : NativeFunction) (w : Waiting) (c : Counters) :
    (dropped mode g w c).steps = c.steps ∧ (dropped mode g w c).budget = c.budget := by
  simp only [dropped,reloadCallCounters,flushCallCounters]
  split <;> exact ⟨rfl,rfl⟩

theorem returned_kept {mode : Mode} {g : NativeFunction} {w : Waiting} {c : Counters}
    (hg : sharesGuard mode g = false) (hs : sharesGuard mode w.function = sharesGuard mode g) :
    (returned mode g w c).guard = c.guard ∧ (returned mode g w c).guardLocal = w.guardLocal := by
  have hc : mode.coldEscapes = true := by
    simp only [sharesGuard,Bool.or_eq_false_iff,Bool.not_eq_false'] at hg
    exact hg.2
  simp [returned,reloadCallCounters,flushCallCounters,hs,hg,hc]

theorem Counted.of_elapsed {mode : Mode} {f : NativeFunction} {c c' d : Counters}
    {guarded renewed : Bool} {charged : ℕ} (h : Counted mode f c guarded renewed charged c')
    (he : elapsed d = elapsed c') (hs : c'.steps ≤ d.steps) (hb : d.budget = c'.budget) :
    Counted mode f c guarded renewed charged d where
  elapsed_eq := he.trans h.elapsed_eq
  steps_le := h.steps_le.trans hs
  budget_eq := fun hr => hb.trans (h.budget_eq hr)
  checked := fun hr hg =>
    ⟨(h.checked hr hg).1,fun hf =>
      ⟨((h.checked hr hg).2 hf).1.trans_le hs,((h.checked hr hg).2 hf).2⟩⟩

/-- A guard in front of a call counts for the step. -/
theorem Counted.guard {mode : Mode} {f : NativeFunction} {c c' d : Counters}
    {guarded renewed r : Bool} {charged : ℕ} (h : Counted mode f c guarded renewed charged c')
    (hg : Guard mode f c' r d) : Counted mode f c true (renewed || r) charged d := by
  obtain ⟨he,-,-,-,hs⟩ := hg.same
  refine ⟨he.trans h.elapsed_eq,h.steps_le.trans hs,fun hr => ?_,fun hr _ => ?_⟩
  all_goals
    simp only [Bool.or_eq_false_iff] at hr
    obtain ⟨hr,rfl⟩ := hr
    obtain ⟨hb,hlt,hsteps⟩ := hg.checked
  · exact hb.trans (h.budget_eq hr)
  · rw [limit_eq (h.budget_eq hr),h.elapsed_eq] at hlt
    refine ⟨by omega,fun hf => ?_⟩
    have := hsteps hf
    have := h.steps_le
    omega

theorem Coherent.ran {b : DolIRBlock} {guarded renewed settled : Bool} {c : Counters}
    (hs : Coherent e s) (hr : Ran e.toMode s b guarded renewed settled c)
    (ho : e.modern = false → sharesGuard e.toMode s.function = false → settled = false) :
    Counted e.toMode s.function s.counters guarded renewed b.cycleCost c ∧
    (sharesGuard e.toMode s.function = false →
      c.guardLocal = s.counters.guard ∧ c.guard = s.counters.guard ∧ 1 ≤ b.cycleCost) ∧
    (e.modern = false → settled = true → c.cycles = 0) := by
  obtain ⟨hcount,hkept,hz⟩ := hr.counted (e.modern_keeps hs.function) ho
  refine ⟨hcount,fun hf => ?_,hz⟩
  have hnative : s.function.nativeAbi = true := by
    simp only [sharesGuard,Bool.or_eq_false_iff,Bool.not_eq_false'] at hf
    exact hf.1
  exact ⟨(hkept hf).1.trans (hs.guard hf),(hkept hf).2,
    s.function.charges hnative b (List.mem_of_getElem? hr.block)⟩

/-- A step inside a body keeps the chain as it is. -/
theorem Coherent.inside {b : DolIRBlock} {guarded renewed settled : Bool} {c : Counters}
    (hs : Coherent e s) (hr : Ran e.toMode s b guarded renewed settled c)
    (ho : e.modern = false → sharesGuard e.toMode s.function = false → settled = false)
    (p : Place) : Coherent e { s with place := p, counters := c } ∧
      Counted e.toMode s.function s.counters guarded renewed b.cycleCost c ∧
      sharesGuard e.toMode s.function = sharesGuard e.toMode s.function ∧
      (sharesGuard e.toMode s.function = false → 1 ≤ b.cycleCost) := by
  obtain ⟨hcount,hkept,-⟩ := hs.ran hr ho
  refine ⟨⟨hs.function,fun w hw => ?_,fun hf => ?_⟩,hcount,rfl,fun hf => (hkept hf).2.2⟩
  · obtain ⟨hm,hsh,hg⟩ := hs.callers w hw
    exact ⟨hm,hsh,fun hf => (hg hf).trans (hkept hf).2.1.symm⟩
  · exact (hkept hf).1.trans (hkept hf).2.1.symm

/-- One orderly step: the chain stays coherent, and the counters tell what was charged. -/
theorem step_counted (h : OrderlyStep e s l s') (hs : Coherent e s) : Coherent e s' ∧
    Counted e.toMode s.function s.counters l.guarded l.renewed l.charged s'.counters ∧
    sharesGuard e.toMode s'.function = sharesGuard e.toMode s.function ∧
    (sharesGuard e.toMode s.function = false → 1 ≤ l.charged) := by
  obtain ⟨h,ho⟩ := h
  cases h with
  | direct hp hr ht => exact hs.inside hr ho.settled _
  | continuation hp hr hk ht => exact hs.inside hr ho.settled _
  | service hm hp hr => exact hs.inside hr ho.settled _
  | resume hm hp hr hb => exact hs.inside hr ho.settled _
  | @call b i g p _ _ _ r c c' callers hp hr hg hm hcold hf =>
    obtain ⟨hcount,hkept,-⟩ := hs.ran hr ho.settled
    obtain ⟨-,-,hl,hgd,-⟩ := hg.same
    have hsh := sharesGuard_eq hcold
    have hk : sharesGuard e.toMode s.function = false →
        c'.guardLocal = s.counters.guard ∧ c'.guard = s.counters.guard := fun hf =>
      ⟨hl.trans (hkept hf).1,hgd.trans (hkept hf).2.1⟩
    have hcalled : sharesGuard e.toMode s.function = false →
        (called e.toMode s.function c').guard = s.counters.guard := fun hf => by
      simpa [called,flushCallCounters,hf] using (hk hf).2
    refine ⟨⟨hm,fun w hw => ?_,fun _ => rfl⟩,(hcount.guard hg).of_elapsed
      (called_elapsed fun hf => (hk hf).1.trans (hk hf).2.symm) (Nat.le_refl _) rfl,hsh,
      fun hf => (hkept hf).2.2⟩
    have hold : ∀ w ∈ s.callers, w.function ∈ e.functions ∧
        sharesGuard e.toMode w.function = sharesGuard e.toMode g ∧
        (sharesGuard e.toMode g = false →
          w.guardLocal = (called e.toMode s.function c').guard) := fun w hw => by
      obtain ⟨hm,hw1,hw2⟩ := hs.callers w hw
      rw [hsh]
      exact ⟨hm,hw1,fun hf => (hw2 hf).trans (hcalled hf).symm⟩
    rcases hf with rfl | ⟨k,-,rfl⟩
    · exact hold w hw
    · rcases List.mem_cons.mp hw with rfl | hw
      · exact ⟨hs.function,hsh.symm,fun hf =>
          (hk (hsh ▸ hf)).1.trans (hcalled (hsh ▸ hf)).symm⟩
      · exact hold w hw
  | @«return» b i _ _ settled c c' caller callers hp hr hc hret =>
    obtain ⟨hcount,hkept,hz⟩ := hs.ran hr ho.settled
    have hmem : ∀ w ∈ caller :: callers, w ∈ s.callers := fun w hw => hc ▸ hw
    obtain ⟨hcm,hcs,hcg⟩ := hs.callers caller (hmem caller List.mem_cons_self)
    have hsame : elapsed c' = elapsed c ∧ c'.steps = c.steps ∧ c'.budget = c.budget := by
      rw [hret]
      split
      case isTrue hn =>
        exact ⟨returned_elapsed hn hcs fun hf => ⟨(hcg hf).trans (hkept hf).2.1.symm,
          (hkept hf).1.trans (hkept hf).2.1.symm⟩,returned_same _ _ _ _⟩
      case isFalse hn =>
        obtain hl | ⟨hcold,hset⟩ := ho.leave rfl
        · exact absurd hl hn
        · have hm : e.modern = false := by
            cases hm : e.modern with
            | true => rw [e.modern_cold hm] at hcold; cases hcold
            | false => rfl
          exact ⟨dropped_elapsed hcold (hz hm hset),dropped_same _ _ _ _⟩
    have hguard : sharesGuard e.toMode s.function = false →
        c'.guard = s.counters.guard ∧ c'.guardLocal = caller.guardLocal := fun hf => by
      have hn : s.function.nativeAbi = true := by
        simp only [sharesGuard,Bool.or_eq_false_iff,Bool.not_eq_false'] at hf
        exact hf.1
      rw [hret,if_pos hn]
      obtain ⟨h1,h2⟩ := returned_kept (c := c) hf hcs
      exact ⟨h1.trans (hkept hf).2.1,h2⟩
    refine ⟨⟨hcm,fun w hw => ?_,fun hf => ?_⟩,
      hcount.of_elapsed hsame.1 (Nat.le_of_eq hsame.2.1.symm) hsame.2.2,hcs,
      fun hf => (hkept hf).2.2⟩
    · obtain ⟨hm,hw1,hw2⟩ := hs.callers w (hmem w (List.mem_cons_of_mem _ hw))
      exact ⟨hm,hw1.trans hcs.symm,fun hf =>
        (hw2 (hcs ▸ hf)).trans (hguard (hcs ▸ hf)).1.symm⟩
    · have hf' := hcs ▸ hf
      exact (hguard hf').2.trans ((hcg hf').trans (hguard hf').1.symm)

variable {ls : List Label}

theorem length_le_largest {f : NativeFunction} (h : f ∈ e.functions) :
    f.source.blocks.length ≤ largest e := by
  have : ∀ n ∈ e.functions.map fun f => f.source.blocks.length, n ≤ largest e := by
    unfold largest
    generalize e.functions.map (fun f => f.source.blocks.length) = ns
    induction ns with
    | nil => simp
    | cons m ns ih =>
      intro n hn
      rcases List.mem_cons.mp hn with rfl | hn
      · exact Nat.le_max_left _ _
      · exact (ih n hn).trans (Nat.le_max_right _ _)
  exact this _ (List.mem_map_of_mem h)

/-- Any step, guarded or not, raises the potential by a bounded amount. -/
theorem potential_le (h : Step e s l s') (hs : Coherent e s) (hs' : s'.function ∈ e.functions) :
    potential e.toMode s' + 1 ≤ potential e.toMode s + (2*largest e + 2) := by
  have hroom := room_le e.toMode s'.function s'.place
  have hlen := length_le_largest hs'
  have hkeep : owed s.callers ≤ owed s.callers + largest e + 1 := by omega
  have howed : owed s'.callers ≤ owed s.callers + largest e + 1 := by
    cases h with
    | direct => exact hkeep
    | continuation => exact hkeep
    | service => exact hkeep
    | resume => exact hkeep
    | call hp hr hg hm hcold hf =>
      rcases hf with rfl | ⟨k,-,rfl⟩
      · exact hkeep
      · have := length_le_largest hs.function
        rw [owed_cons]
        show s.function.source.blocks.length - k + 1 + owed s.callers ≤ _
        omega
    | @«return» b i _ _ _ c c' caller callers hp hr hc hret =>
      rw [hc,owed_cons]
      show owed callers ≤ _
      omega
  simp only [potential]
  omega

theorem run_unguarded (hr : Run (OrderlyStep e) s ls s') (hl : ∀ l ∈ ls, l.guarded = false) :
    ls.length + potential e.toMode s' ≤ potential e.toMode s := by
  induction hr with
  | nil s => simp
  | cons h _ ih =>
    rw [List.forall_mem_cons] at hl
    have hlt := unguarded_lt h hl.1
    have := ih hl.2
    rw [List.length_cons]
    omega

theorem run_counted (hr : Run (OrderlyStep e) s ls s') (hs : Coherent e s) : Coherent e s' ∧
    sharesGuard e.toMode s'.function = sharesGuard e.toMode s.function ∧
    elapsed s'.counters = elapsed s.counters + (ls.map Label.charged).sum ∧
    (sharesGuard e.toMode s.function = false → ls.length ≤ (ls.map Label.charged).sum) := by
  induction hr with
  | nil s => exact ⟨hs,rfl,rfl,fun _ => Nat.le_refl _⟩
  | cons h _ ih =>
    obtain ⟨hs1,hcount,hsh,hpos⟩ := step_counted h hs
    obtain ⟨hs',hsh',hel,hlen⟩ := ih hs1
    simp only [List.map_cons,List.sum_cons,List.length_cons]
    refine ⟨hs',hsh'.trans hsh,?_,fun hf => ?_⟩
    · rw [hel,hcount.elapsed_eq,Nat.add_assoc]
    · have := hlen (hsh.trans hf)
      have := hpos hf
      omega

/-- Without a renewal the steps, or the cycles, allow only so many guards. -/
theorem run_guards (hr : Run (OrderlyStep e) s ls s') (hs : Coherent e s)
    (hn : ∀ l ∈ ls, l.renewed = false) :
    (sharesGuard e.toMode s.function = true → ls.countP Label.guarded ≤ 2048 - s.counters.steps) ∧
    (sharesGuard e.toMode s.function = false →
      ls.countP Label.guarded ≤ limit e.toMode s.counters - elapsed s.counters) := by
  induction hr with
  | nil s => simp
  | @cons s s1 s' l ls h _ ih =>
    rw [List.forall_mem_cons] at hn
    obtain ⟨hs1,hcount,hsh,hpos⟩ := step_counted h hs
    obtain ⟨hsteps,hcycles⟩ := ih hs1 hn.2
    rw [hsh] at hsteps hcycles
    have hle := hcount.steps_le
    have hel := hcount.elapsed_eq
    rw [limit_eq (hcount.budget_eq hn.1)] at hcycles
    rw [List.countP_cons]
    cases hg : l.guarded with
    | true =>
      obtain ⟨hlt,hst⟩ := hcount.checked hn.1 hg
      refine ⟨fun hf => ?_,fun hf => ?_⟩
      · have := hsteps hf
        have := hst hf
        simp only [if_true]
        omega
      · have := hcycles hf
        have := hpos hf
        simp only [if_true]
        omega
    | false =>
      refine ⟨fun hf => ?_,fun hf => ?_⟩
      · have := hsteps hf
        simp only [Bool.false_eq_true,if_false]
        omega
      · have := hcycles hf
        simp only [Bool.false_eq_true,if_false]
        omega

/-- Between two guards a run lowers the potential, and a guard raises it by a bounded amount. -/
theorem run_amortized (hr : Run (OrderlyStep e) s ls s') (hs : Coherent e s) :
    ls.length + potential e.toMode s' ≤
      potential e.toMode s + (2*largest e + 2)*ls.countP Label.guarded := by
  induction hr with
  | nil s => simp
  | @cons s s1 s' l ls h _ ih =>
    have hs1 := (step_counted h hs).1
    have := ih hs1
    rw [List.countP_cons,List.length_cons,Nat.mul_add]
    cases hg : l.guarded with
    | true =>
      have := potential_le h.1 hs hs1.function
      simp only [if_true]
      omega
    | false =>
      have := unguarded_lt h hg
      simp only [Bool.false_eq_true,if_false]
      omega

theorem orderly_reaches_budget (e : Emission) : ReachesBudget e (OrderlyStep e) := by
  intro s₀ ls₀ s ls s' h₀ hr₀ hr
  have hs := (run_counted hr₀ h₀.coherent).1
  obtain ⟨-,-,hgrows,hstrict⟩ := run_counted hr hs
  refine ⟨fun hne hf hp hc => ?_,hgrows,hstrict,fun hn => ?_⟩
  · by_contra hno
    have hl : ∀ l ∈ ls, l.guarded = false := fun l hl => by
      cases hg : l.guarded with
      | true => exact absurd ⟨l,hl,hg⟩ hno
      | false => rfl
    have hpot : potential e.toMode s' = potential e.toMode s := by simp only [potential,hf,hp,hc]
    have := run_unguarded hr hl
    have := List.length_pos_iff.mpr hne
    omega
  · have hcount : ls.countP Label.guarded ≤ max (limit e.toMode s.counters) 2048 := by
      obtain ⟨h1,h2⟩ := run_guards hr hs hn
      cases hf : sharesGuard e.toMode s.function with
      | true => exact (h1 hf).trans ((Nat.sub_le _ _).trans (Nat.le_max_right _ _))
      | false => exact (h2 hf).trans ((Nat.sub_le _ _).trans (Nat.le_max_left _ _))
    have := run_amortized hr hs
    have := Nat.mul_le_mul_left (2*largest e + 2) hcount
    omega

theorem Ran.header {mode : Mode} {b : DolIRBlock} {renewed : Bool} {c : Counters}
    (hb : s.function.source.blocks[s.place.index]? = some b)
    (hg : guardedAt mode s.function.source s.place = true) (hi : guardsInside mode b = false)
    (h : Guard mode s.function s.counters renewed c) :
    Ran mode s b true renewed false (chargeCycles b.cycleCost c) where
  block := hb
  guarded_eq := by rw [hg,hi]; rfl
  counters := by
    refine ⟨c,renewed,_,false,?_,rfl,?_,by simp⟩
    · rw [hg]
      exact h
    · rw [hi]
      exact ⟨rfl,rfl⟩

theorem Ran.plain {mode : Mode} {b : DolIRBlock}
    (hb : s.function.source.blocks[s.place.index]? = some b)
    (hg : guardedAt mode s.function.source s.place = false) (hi : guardsInside mode b = false) :
    Ran mode s b false false false (chargeCycles b.cycleCost s.counters) where
  block := hb
  guarded_eq := by rw [hg,hi]; rfl
  counters := by
    refine ⟨s.counters,false,_,false,?_,rfl,?_,by simp⟩
    · rw [hg]
      exact ⟨rfl,rfl⟩
    · rw [hi]
      exact ⟨rfl,rfl⟩

/-- `addi` and a branch back to it. -/
def counting : NativeFunction where
  insts := [ppcDecode 0x38630001#32 0x80003000#32,ppcDecode 0x4BFFFFFC#32 0x80003004#32]
  source := dolirAnalyzeAddresses (buildFunction [ppcDecode 0x38630001#32 0x80003000#32,
    ppcDecode 0x4BFFFFFC#32 0x80003004#32] 0x80003000#32)
  nativeAbi := true
  built := rfl
  consecutive := by
    intro n i hi
    rcases n with _ | _ | n
    · obtain rfl := Option.some.inj hi
      rfl
    · obtain rfl := Option.some.inj hi
      rfl
    · simp at hi
  fits := by decide
  charges := by decide

def countingModule : Emission where
  modern := true
  coldEscapes := true
  functions := [counting]
  modern_cold := fun _ => rfl
  modern_native := by decide

def countingAt (index cycles budget : ℕ) : NativeState :=
  ⟨counting,.block index,⟨cycles,0,0,0,0,budget⟩,[]⟩

theorem counting_counts {cycles budget budget' : ℕ} {renewed : Bool}
    (h : Guard countingModule.toMode counting ⟨cycles,0,0,0,0,budget⟩ renewed
      ⟨cycles,0,0,0,0,budget'⟩) :
    OrderlyStep countingModule (countingAt 0 cycles budget) ⟨.direct,true,renewed,false,1⟩
      (countingAt 1 (cycles + 1) budget') := by
  have hr : Ran countingModule.toMode (countingAt 0 cycles budget) _ true renewed false _ :=
    .header rfl (by decide : guardedAt countingModule.toMode counting.source (.block 0) = true)
      (by decide) h
  have ht : 1 ∈ directTargets counting.source.blocks[0].terminator := by decide
  exact ⟨.direct rfl hr ht,by simp,by rintro ⟨⟩,by rintro ⟨⟩,by rintro ⟨⟩⟩

theorem counting_branches (cycles budget : ℕ) :
    OrderlyStep countingModule (countingAt 1 cycles budget) ⟨.direct,false,false,false,1⟩
      (countingAt 0 (cycles + 1) budget) := by
  have hr : Ran countingModule.toMode (countingAt 1 cycles budget) _ false false false _ :=
    .plain rfl (by decide : guardedAt countingModule.toMode counting.source (.block 1) = false)
      (by decide)
  have ht : 0 ∈ directTargets counting.source.blocks[1].terminator := by decide
  exact ⟨.direct rfl hr ht,by simp,by rintro ⟨⟩,by rintro ⟨⟩,by rintro ⟨⟩⟩

/-- Twice round the loop; the second time the budget is used up and the host renews it. -/
theorem counting_goes_round : Guarded countingModule (countingAt 0 0 2)
    [⟨.direct,true,false,false,1⟩,⟨.direct,false,false,false,1⟩,⟨.direct,true,true,false,1⟩,
      ⟨.direct,false,false,false,1⟩] (countingAt 0 4 12) :=
  orderly_reaches_budget countingModule (countingAt 0 0 2) [] (countingAt 0 0 2) _
    (countingAt 0 4 12) ⟨List.mem_singleton_self _,rfl,rfl⟩ (.nil _)
    (.cons (counting_counts (.run (by decide) (by decide))) (.cons (counting_branches 1 2)
      (.cons (counting_counts (@Guard.renew _ _ _ 10 rfl (by decide) (by decide)))
        (.cons (counting_branches 3 12) (.nil _)))))

/-- `bl` to the `blr`, `addi`, `blr`. -/
def spinning : NativeFunction where
  insts := [ppcDecode 0x48000009#32 0x80003000#32,ppcDecode 0x38630001#32 0x80003004#32,
    ppcDecode 0x4E800020#32 0x80003008#32]
  source := dolirAnalyzeAddresses (buildFunction [ppcDecode 0x48000009#32 0x80003000#32,
    ppcDecode 0x38630001#32 0x80003004#32,ppcDecode 0x4E800020#32 0x80003008#32] 0x80003000#32)
  nativeAbi := true
  built := rfl
  consecutive := by
    intro n i hi
    rcases n with _ | _ | _ | n
    · obtain rfl := Option.some.inj hi
      rfl
    · obtain rfl := Option.some.inj hi
      rfl
    · obtain rfl := Option.some.inj hi
      rfl
    · simp at hi
  fits := by decide
  charges := by decide

/-- The link register stays at the `addi` while the two instructions behind it run, so that the
`blr` goes back to it every time. -/
theorem spinning_goes_round (m : Machine) (cpu : CPUState) :
    (∀ b ∈ spinning.source.blocks[2]?, (m.execBlock b cpu).result.map (fun c => (c.pc,c.lr)) =
      some (cpu.lr &&& ~~~3#32,cpu.lr)) ∧
    ∀ b ∈ spinning.source.blocks[1]?, (m.execBlock b cpu).result.map (fun c => (c.pc,c.lr)) =
      some (0x80003008#32,cpu.lr) := by
  constructor
  · intro b hb
    obtain rfl := Option.some.inj hb
    rfl
  · intro b hb
    obtain rfl := Option.some.inj hb
    rfl

def spinningModule : Emission where
  modern := true
  coldEscapes := true
  functions := [spinning]
  modern_cold := fun _ => rfl
  modern_native := by decide

def spinningAt (index : ℕ) (cycles : ℕ) : NativeState :=
  ⟨spinning,.block index,⟨cycles,0,0,0,0,100⟩,[]⟩

theorem spinning_enters : Step spinningModule (spinningAt 0 0) ⟨.direct,false,false,false,1⟩
    (spinningAt 2 1) := by
  have hr : Ran spinningModule.toMode (spinningAt 0 0) _ false false false _ :=
    .plain rfl (by decide) (by decide)
  have ht : 2 ∈ directTargets spinning.source.blocks[0].terminator := by decide
  exact .direct rfl hr ht

theorem spinning_returns (cycles : ℕ) : Step spinningModule (spinningAt 2 cycles)
    ⟨.continuation,false,false,false,1⟩ (spinningAt 1 (cycles + 1)) := by
  have hg : guardedAt spinningModule.toMode spinning.source (.block 2) = false := by decide
  have hr : Ran spinningModule.toMode (spinningAt 2 cycles) _ false false false _ :=
    .plain rfl hg (by decide)
  have ht : 1 ∈ continuations spinning.source := by decide
  exact .continuation rfl hr rfl ht

theorem spinning_falls (cycles : ℕ) : Step spinningModule (spinningAt 1 cycles)
    ⟨.direct,false,false,false,1⟩ (spinningAt 2 (cycles + 1)) := by
  have hg : guardedAt spinningModule.toMode spinning.source (.block 1) = false := by decide
  have hr : Ran spinningModule.toMode (spinningAt 1 cycles) _ false false false _ :=
    .plain rfl hg (by decide)
  have ht : 2 ∈ directTargets spinning.source.blocks[1].terminator := by decide
  exact .direct rfl hr ht

theorem spinning_unguarded : ¬ ∀ e, ReachesBudget e (Step e) := by
  intro h
  have hcycle := (h spinningModule (spinningAt 0 0) _ (spinningAt 2 1) _ (spinningAt 2 3)
    ⟨List.mem_singleton_self _,rfl,rfl⟩ (.cons spinning_enters (.nil _))
    (.cons (spinning_returns 1) (.cons (spinning_falls 2) (.nil _)))).cycle
  obtain ⟨l,hl,hg⟩ := hcycle (by simp) rfl rfl rfl
  simp only [List.mem_cons,List.not_mem_nil,or_false] at hl
  rcases hl with rfl | rfl <;> cases hg

end BudgetGuards

end DolRecomp
