import DolRecomp.FunctionProgress
import DolRecomp.DispatchLookup

/-!
# Calls across chunks

A program of generated functions under its dispatcher. A `bl` into another chunk is
a call of that chunk as long as `dolrecomp_call_enter` admits it, and a return to the
dispatcher otherwise; with a limit of zero every one of them returns.
-/

namespace DolRecomp

namespace Emitter

/-- The flow when `dolrecomp_call_enter` says no. -/
def declined : CFlow → CFlow
  | .call _ cpu => .ret cpu
  | flow => flow

theorem emitDirectBranch_declined (cfg : EmitConfig) (i : PPCInst) (cpu : CPUState) :
    emitDirectBranch { cfg with callEnter := false } i cpu =
      declined (emitDirectBranch cfg i cpu) := by
  have hback : ∀ cpu, emitBackedge i cpu = declined (emitBackedge i cpu) := by
    intro cpu
    unfold emitBackedge
    split <;> rfl
  unfold emitDirectBranch
  dsimp only
  have hlocal : branchTargetIsLocal { cfg with callEnter := false } = branchTargetIsLocal cfg := rfl
  rw [hlocal]
  split
  · split
    · split
      · exact hback _
      · rfl
    · unfold emitCrossChunkCall
      have hchunk : chunkStartFor { cfg with callEnter := false } = chunkStartFor cfg := rfl
      dsimp only
      rw [hlocal,hchunk]
      split
      · rfl
      · split
        · rfl
        · rw [if_neg Bool.false_ne_true]
          split <;> rfl
  · split
    · split
      · exact hback _
      · rfl
    · split <;> rfl

/-- Refusing a call only turns it into a return. -/
theorem emitInstruction_declined (cfg : EmitConfig) (ho : PlainStatements cfg.otherStatements)
    (i : PPCInst) (cpu : CPUState) :
    emitInstruction { cfg with callEnter := false } i cpu =
      declined (emitInstruction cfg i cpu) := by
  by_cases hop : i.op = .b ∨ i.op = .bc
  · have hfpu : ppcOpUsesFpu i.op = false := by
      rcases hop with hop | hop <;> rw [hop] <;> rfl
    unfold emitInstruction
    split
    · rfl
    · rw [if_neg (by simp [hfpu]),if_neg (by simp [hfpu])]
      rcases hop with hop | hop
      · simp only [emitStatements,emitBranch,hop]
        exact emitDirectBranch_declined cfg i cpu
      · simp only [emitStatements,emitBranch,hop]
        split
        · exact emitDirectBranch_declined cfg i _
        · rfl
  · have hsame : ∀ cpu, emitStatements { cfg with callEnter := false } i cpu =
        emitStatements cfg i cpu := by
      intro cpu
      rw [not_or] at hop
      generalize ho' : i.op = op at hop
      cases op
      all_goals
        first
          | exact absurd rfl hop.1
          | exact absurd rfl hop.2
          | (simp only [emitStatements,ho']; rfl)
          | (simp only [emitStatements,emitBranch,ho'])
    have he : emitInstruction { cfg with callEnter := false } i cpu =
        emitInstruction cfg i cpu := by
      unfold emitInstruction
      simp only [hsame]
    rw [he]
    have hends := emitInstruction_ends cfg ho i cpu
    generalize emitInstruction cfg i cpu = flow at hends
    cases hends with
    | call hop' => exact absurd hop' hop
    | next => rfl
    | goto => rfl
    | dispatch => rfl
    | ret => rfl

/-- A chunk that is found is one of the table. -/
theorem chunkStartFor_mem (cfg : EmitConfig) (address : BitVec 32)
    (h : chunkStartFor cfg address ≠ 0) : chunkStartFor cfg address ∈ cfg.chunkStarts := by
  unfold chunkStartFor at h ⊢
  dsimp only at h ⊢
  split at h
  · exact absurd rfl h
  next hlo =>
    rw [if_neg hlo]
    rw [List.getD_eq_getElem?_getD] at h ⊢
    cases hg : cfg.chunkStarts[chunkStartLoop cfg.chunkStarts address cfg.chunkStarts.length 0
        cfg.chunkStarts.length - 1]? with
    | none =>
      rw [hg] at h
      exact absurd rfl h
    | some start => exact List.mem_of_getElem? hg

end Emitter

namespace CFunction

/-- The function whose calls `dolrecomp_call_enter` answers with `answer`. -/
def admitting (f : CFunction) (answer : Bool) : CFunction := { f with callEnter := answer }

/-- A caller, and the label behind its call. -/
structure Frame where
  function : CFunction
  continuation : BitVec 32

/-- The generated functions that are linked together. -/
structure Program where
  functions : List CFunction

namespace Program

variable (p : Program)

/-- `func_%08X` -/
def functionAt (start : BitVec 32) : Option CFunction :=
  p.functions.find? fun f => f.address = start

def ranges : Dispatch.FunctionList := p.functions.map fun f => ⟨f.address,f.endAddress⟩

/-- `dolrecomp_find_original` -/
def findOriginal (address : BitVec 32) : Option CFunction :=
  (Dispatch.emitFunctionLookup p.ranges address).bind p.functionAt

/-- `dolrecomp_physical_pc_alias` -/
def physicalPcAlias (cpu : CPUState) (address : BitVec 32) : Option (BitVec 32) :=
  if address < cpu.ramSize ∧ address ||| gcRamBase ≠ address then some (address ||| gcRamBase)
  else none

/-- `dolrecomp_call` without a replacement and a host call: the function and the state it is
called in. -/
def dolrecompCall (cpu : CPUState) : Option CFunction × CPUState :=
  match p.findOriginal cpu.pc with
  | some f => (some f,cpu)
  | none =>
    match physicalPcAlias cpu cpu.pc with
    | some address => (p.findOriginal address,{ cpu with pc := address })
    | none => (none,cpu)

/-- The functions on the host stack with `dolrecomp_call_depth`, or the dispatcher has stopped. -/
inductive Machine
  | inside (frames : List Frame) (depth : ℕ) (f : CFunction) (s : FunctionState)
  | stopped (depth : ℕ) (cpu : CPUState)

/-- `dolrecomp_run_blocks`, behind a call. -/
def dispatch (depth : ℕ) (cpu : CPUState) : Machine :=
  if cpu.exception ≠ 0 then .stopped depth cpu
  else
    match p.dolrecompCall cpu with
    | (some f,cpu) => .inside [] depth f (f.enter cpu)
    | (none,cpu) => .stopped depth cpu

/-- A step; `limit` is `DOLRECOMP_C_MAX_CALL_DEPTH`. -/
def step (limit : ℕ) : Machine → Machine
  | .stopped depth cpu => .stopped depth cpu
  | .inside frames depth f s =>
    match s.site with
    | .call chunk continuation =>
      match p.functionAt chunk with
      | some g => .inside (⟨f,continuation⟩ :: frames) (depth + 1) g (g.enter s.cpu)
      | none => .stopped depth s.cpu
    | .returned =>
      match frames with
      | frame :: frames =>
        .inside frames (depth - 1) frame.function (frame.function.resume frame.continuation s.cpu)
      | [] => p.dispatch depth s.cpu
    | _ => .inside frames depth f ((f.admitting (depth < limit)).run s)

/-- The dispatcher has called a function. -/
def runs (limit depth : ℕ) (f : CFunction) (cpu : CPUState) (n : ℕ) : Machine :=
  (p.step limit)^[n] (.inside [] depth f (f.enter cpu))

namespace Machine

def cpu : Machine → CPUState
  | .inside _ _ _ s => s.cpu
  | .stopped _ cpu => cpu

/-- A generated function returns in this state. -/
def Returns (m : Machine) (cpu : CPUState) : Prop :=
  ∃ frames depth f, m = .inside frames depth f ⟨.returned,cpu⟩

end Machine

/-- The chunks are apart, so that an address has one label, and the chunk table names chunks. -/
structure Tiled : Prop where
  words : ∀ f ∈ p.functions, f.FromWords
  plain : ∀ f ∈ p.functions, PlainStatements f.otherStatements
  symbols : ∀ f ∈ p.functions, ∀ g ∈ p.functions, f.address = g.address → f = g
  apart : ∀ f ∈ p.functions, ∀ g ∈ p.functions, ∀ address, f.contains address = true →
    g.contains address = true → f = g
  table : ∀ f ∈ p.functions, ∀ start ∈ f.chunkStarts, start ≠ 0 →
    ∃ g ∈ p.functions, g.address = start

namespace Tiled

variable {p} (h : p.Tiled)

include h

theorem functionAt_eq {f : CFunction} (hf : f ∈ p.functions) : p.functionAt f.address = some f := by
  cases hat : p.functionAt f.address with
  | none => exact absurd (decide_eq_true rfl) (List.find?_eq_none.mp hat f hf)
  | some g =>
    have hg := List.mem_of_find?_eq_some hat
    have he : g.address = f.address := by
      have := List.find?_some hat
      simpa using this
    rw [h.symbols g hg f hf he]

/-- The dispatcher finds the function of a label. -/
theorem findOriginal_eq {f : CFunction} (hf : f ∈ p.functions) {address : BitVec 32}
    (hc : f.contains address = true) : p.findOriginal address = some f := by
  have hcovers : ∀ (g : CFunction), Dispatch.Covers ⟨g.address,g.endAddress⟩ address ↔
      g.contains address = true := by
    intro g
    rw [Dispatch.covers_iff,contains,decide_eq_true_eq]
  have hfinds : ∀ start, Dispatch.Finds p.ranges address start → start = f.address := by
    rintro start ⟨r,hr,hcover,rfl⟩
    obtain ⟨g,hg,rfl⟩ := List.mem_map.mp hr
    rw [h.apart g hg f hf address ((hcovers g).mp hcover) hc]
  have hfound : Dispatch.Finds p.ranges address f.address :=
    ⟨_,List.mem_map_of_mem hf,(hcovers f).mpr hc,rfl⟩
  have hlookup := (Dispatch.linear_finds (fun s t hs ht => (hfinds s hs).trans (hfinds t ht).symm)
    f.address).mpr hfound
  rw [findOriginal,hlookup]
  exact h.functionAt_eq hf

end Tiled

end Program

section

variable (f : CFunction)

theorem jump_site (address : BitVec 32) (cpu : CPUState) (chunk continuation : BitVec 32) :
    (f.jump address cpu).site ≠ .call chunk continuation := by
  unfold jump
  split <;> simp

theorem enter_site (cpu : CPUState) (chunk continuation : BitVec 32) :
    (f.enter cpu).site ≠ .call chunk continuation := by
  unfold enter
  split <;> simp

theorem resume_site (address : BitVec 32) (cpu : CPUState) (chunk continuation : BitVec 32) :
    (f.resume address cpu).site ≠ .call chunk continuation := by
  unfold resume
  split
  · exact f.jump_site _ _ _ _
  · simp

theorem afterLoop_site (last : ℕ) (cpu : CPUState) (chunk continuation : BitVec 32) :
    (f.afterLoop last cpu).site ≠ .call chunk continuation := by
  unfold afterLoop
  dsimp only
  split
  · exact f.jump_site _ _ _ _
  · simp

theorem afterLoopStatements_site (first last index : ℕ) (i : PPCInst) (flow : CFlow)
    (chunk continuation : BitVec 32) :
    (f.afterLoopStatements first last index i flow).site ≠ .call chunk continuation := by
  unfold afterLoopStatements
  split
  · split
    · exact f.afterLoop_site _ _ _ _
    · simp
  · split <;> simp
  all_goals exact f.afterLoop_site _ _ _ _

theorem returnDispatch_site (cpu : CPUState) (chunk continuation : BitVec 32) :
    (f.returnDispatch cpu).site ≠ .call chunk continuation := by
  unfold returnDispatch
  split
  · simp
  · split
    · split <;> simp
    · simp

theorem cyclesFrom_admitting (answer : Bool) (is : List PPCInst) (index : ℕ) :
    (f.admitting answer).cyclesFrom index is = f.cyclesFrom index is := by
  induction is generalizing index with
  | nil => rfl
  | cons i is ih =>
    simp only [cyclesFrom,ih]
    rfl

theorem blockCycles_admitting (answer : Bool) (index : ℕ) :
    (f.admitting answer).blockCycles index = f.blockCycles index := by
  unfold blockCycles
  rw [cyclesFrom_admitting]
  rfl

theorem inlineStatements_admitting (answer : Bool) (index : ℕ) (i : PPCInst) (cpu : CPUState) :
    (f.admitting answer).inlineStatements index i cpu = Emitter.emitInstruction
      ((f.admitting answer).config (f.canLoopDirectly index) f.hasLocalReturns) i
      (f.prepared index i cpu) := by
  have hp : (f.admitting answer).prepared index i cpu = f.prepared index i cpu := by
    unfold prepared
    rw [blockCycles_admitting]
    rfl
  rw [inlineStatements_eq,hp]
  rfl

theorem loopStatements_admitting (answer : Bool) (first last index : ℕ) (i : PPCInst)
    (cpu : CPUState) : (f.admitting answer).loopStatements first last index i cpu =
      Emitter.emitInstruction ((f.admitting answer).config (index = last) false) i
        (f.materialize index i
          (if index = first then charge (f.blockCycles first) cpu else cpu)) := by
  unfold loopStatements
  rw [blockCycles_admitting]
  rfl

/-- A step that may call is a step that may not, or a call instead of a return. -/
theorem run_admitting (ho : PlainStatements f.otherStatements) (answer : Bool) (s : FunctionState)
    (hs : ∀ chunk continuation, s.site ≠ .call chunk continuation) :
    ((f.admitting answer).run s = (f.admitting false).run s ∧
      ∀ chunk continuation, ((f.admitting answer).run s).site ≠ .call chunk continuation) ∨
    ∃ chunk continuation cpu, (f.admitting answer).run s = ⟨.call chunk continuation,cpu⟩ ∧
      (f.admitting false).run s = ⟨.returned,cpu⟩ ∧ f.contains continuation = true ∧
      chunk ∈ f.chunkStarts ∧ chunk ≠ 0 := by
  obtain ⟨site,cpu⟩ := s
  cases site with
  | call chunk continuation => exact absurd rfl (hs chunk continuation)
  | returned => exact .inl ⟨rfl,by simp [run]⟩
  | dispatch => exact .inl ⟨rfl,(f.admitting answer).returnDispatch_site cpu⟩
  | loop first last index =>
    left
    cases hi : f.insts[index]? with
    | none =>
      rw [run_loop_end (f := f.admitting answer) hi,run_loop_end (f := f.admitting false) hi]
      exact ⟨rfl,by simp⟩
    | some i =>
      rw [run_loop (f := f.admitting answer) hi,run_loop (f := f.admitting false) hi]
      refine ⟨?_,f.afterLoopStatements_site _ _ _ _ _⟩
      have hflow : (f.admitting false).loopStatements first last index i cpu =
          Emitter.declined ((f.admitting answer).loopStatements first last index i cpu) := by
        rw [loopStatements_admitting,loopStatements_admitting]
        exact Emitter.emitInstruction_declined ((f.admitting answer).config (index = last) false)
          ho i _
      show f.afterLoopStatements first last index i _ = f.afterLoopStatements first last index i _
      rw [hflow]
      generalize (f.admitting answer).loopStatements first last index i cpu = flow
      cases flow <;> rfl
  | label index =>
    cases hi : f.insts[index]? with
    | none =>
      rw [run_label_end (f := f.admitting answer) hi,run_label_end (f := f.admitting false) hi]
      exact .inl ⟨rfl,by simp⟩
    | some i =>
      cases hl : f.loopEnds index with
      | some last =>
        rw [run_label_loop (f := f.admitting answer) hi hl,
          run_label_loop (f := f.admitting false) hi hl]
        exact .inl ⟨rfl,by simp⟩
      | none =>
        rw [run_label (f := f.admitting answer) hi hl,run_label (f := f.admitting false) hi hl]
        have hends := Emitter.emitInstruction_ends ((f.admitting answer).config
          (f.canLoopDirectly index) f.hasLocalReturns) ho i (f.prepared index i cpu)
        have hflow : (f.admitting false).inlineStatements index i cpu =
            Emitter.declined ((f.admitting answer).inlineStatements index i cpu) := by
          rw [inlineStatements_admitting,inlineStatements_admitting]
          exact Emitter.emitInstruction_declined ((f.admitting answer).config
            (f.canLoopDirectly index) f.hasLocalReturns) ho i (f.prepared index i cpu)
        rw [← inlineStatements_admitting] at hends
        rw [hflow]
        generalize (f.admitting answer).inlineStatements index i cpu = flow at hends
        cases hends with
        | next => exact .inl ⟨rfl,by simp [afterStatements]⟩
        | goto => exact .inl ⟨rfl,f.jump_site _ _⟩
        | dispatch => exact .inl ⟨rfl,by simp [afterStatements]⟩
        | ret => exact .inl ⟨rfl,by simp [afterStatements]⟩
        | call hop hdata hlk henter htarget hlocal hchunk hpc hd =>
          exact .inr ⟨_,_,_,rfl,rfl,hlocal,Emitter.chunkStartFor_mem _ _ hchunk,hchunk⟩

end

namespace Program

variable {p : Program}

/-- The host stack holds waiting functions of the program, counted by the call depth. -/
def Sound (p : Program) (depth₀ : ℕ) : Machine → Prop
  | .stopped _ _ => True
  | .inside frames depth f s => f ∈ p.functions ∧ depth = depth₀ + frames.length ∧
    (∀ frame ∈ frames, frame.function ∈ p.functions ∧
      frame.function.contains frame.continuation = true) ∧
    ∀ chunk continuation, s.site = .call chunk continuation →
      f.contains continuation = true ∧ ∃ g ∈ p.functions, g.address = chunk

/-- The dispatcher without calls is at the same place; for a call, and for a return, it has the
state of a function that has returned. -/
def Follows (plain : Machine) : Machine → Prop
  | .stopped _ cpu => ∃ depth, plain = .stopped depth cpu
  | .inside _ _ f s =>
    match s.site with
    | .call _ _ | .returned => ∃ depth g, plain = .inside [] depth g ⟨.returned,s.cpu⟩
    | _ => ∃ depth, plain = .inside [] depth f s

theorem follows_entered {plain : Machine} {frames : List Frame} {depth d : ℕ} {f : CFunction}
    {s : FunctionState} (hs : ∀ chunk continuation, s.site ≠ .call chunk continuation)
    (h : plain = .inside [] d f s) : Follows plain (.inside frames depth f s) := by
  obtain ⟨site,cpu⟩ := s
  cases site with
  | call chunk continuation => exact absurd rfl (hs chunk continuation)
  | returned => exact ⟨d,f,h⟩
  | _ => exact ⟨d,h⟩

/-- A function that returns with the address of a label goes on there, by the dispatcher. -/
theorem dispatch_label (h : p.Tiled) {f : CFunction} (hf : f ∈ p.functions) {cpu : CPUState}
    (hx : cpu.exception = 0) (hc : f.contains cpu.pc = true) (depth : ℕ) :
    p.dispatch depth cpu = .inside [] depth f (f.enter cpu) := by
  rw [dispatch,if_neg (not_not.mpr hx),dolrecompCall,h.findOriginal_eq hf hc]

theorem contains_of_labelIndex {f : CFunction} (hw : f.FromWords) {address : BitVec 32} {k : ℕ}
    (hk : f.labelIndex address = some k) : f.contains address = true :=
  (hw.contains_iff address).mpr ⟨k,hw.labelIndex_iff.mp hk⟩

theorem findOriginal_mem {address : BitVec 32} {f : CFunction}
    (h : p.findOriginal address = some f) : f ∈ p.functions := by
  obtain ⟨start,-,hat⟩ := Option.bind_eq_some_iff.mp h
  exact List.mem_of_find?_eq_some hat

theorem dolrecompCall_mem {cpu cpu' : CPUState} {f : CFunction}
    (h : p.dolrecompCall cpu = (some f,cpu')) : f ∈ p.functions := by
  unfold dolrecompCall at h
  split at h
  next g hg =>
    cases Option.some.inj (Prod.mk.inj h).1
    exact findOriginal_mem hg
  next =>
    split at h
    · exact findOriginal_mem (Prod.mk.inj h).1
    · cases (Prod.mk.inj h).1

section

variable (h : p.Tiled) (limit depth₀ : ℕ) {plain : Machine} {frames : List Frame} {depth : ℕ}
  {f : CFunction} {cpu : CPUState}

include h

theorem inside_follows {site : Site} (hcall : ∀ chunk continuation, site ≠ .call chunk continuation)
    (hret : site ≠ .returned) (hs : p.Sound depth₀ (.inside frames depth f ⟨site,cpu⟩))
    (hf : Follows plain (.inside frames depth f ⟨site,cpu⟩)) :
    p.Sound depth₀ (.inside frames depth f ((f.admitting (depth < limit)).run ⟨site,cpu⟩)) ∧
    ∃ k, Follows ((p.step 0)^[k] plain)
      (.inside frames depth f ((f.admitting (depth < limit)).run ⟨site,cpu⟩)) := by
  obtain ⟨hmem,hdepth,hframes,-⟩ := hs
  obtain ⟨d,rfl⟩ : ∃ d, plain = .inside [] d f ⟨site,cpu⟩ := by
    cases site with
    | call chunk continuation => exact absurd rfl (hcall chunk continuation)
    | returned => exact absurd rfl hret
    | _ => exact hf
  have hstep : p.step 0 (.inside [] d f ⟨site,cpu⟩) =
      .inside [] d f ((f.admitting false).run ⟨site,cpu⟩) := by
    cases site with
    | call chunk continuation => exact absurd rfl (hcall chunk continuation)
    | returned => exact absurd rfl hret
    | _ => rfl
  rcases f.run_admitting (h.plain f hmem) (depth < limit) ⟨site,cpu⟩ hcall with
    ⟨he,hno⟩ | ⟨chunk,continuation,cpu',he,hplain,hcont,hchunk,hne⟩
  · refine ⟨⟨hmem,hdepth,hframes,fun _ _ hc => absurd hc (hno _ _)⟩,1,
      follows_entered (d := d) hno ?_⟩
    rw [he]
    exact hstep
  · rw [he]
    refine ⟨⟨hmem,hdepth,hframes,fun c k hc => ?_⟩,1,d,f,?_⟩
    · cases hc
      exact ⟨hcont,h.table f hmem chunk hchunk hne⟩
    · rw [hplain] at hstep
      exact hstep

theorem call_follows {chunk continuation : BitVec 32} (hx : cpu.exception = 0)
    (hs : p.Sound depth₀ (.inside frames depth f ⟨.call chunk continuation,cpu⟩))
    (hf : Follows plain (.inside frames depth f ⟨.call chunk continuation,cpu⟩)) :
    p.Sound depth₀ (p.step limit (.inside frames depth f ⟨.call chunk continuation,cpu⟩)) ∧
    ∃ k, Follows ((p.step 0)^[k] plain)
      (p.step limit (.inside frames depth f ⟨.call chunk continuation,cpu⟩)) := by
  obtain ⟨hmem,hdepth,hframes,hcall⟩ := hs
  obtain ⟨hcont,g,hg,rfl⟩ := hcall chunk continuation rfl
  obtain ⟨d,e,rfl⟩ := hf
  have hstep : p.step limit (.inside frames depth f ⟨.call g.address continuation,cpu⟩) =
      .inside (⟨f,continuation⟩ :: frames) (depth + 1) g (g.enter cpu) := by
    show (match p.functionAt g.address with | some g => _ | none => _) = _
    rw [h.functionAt_eq hg]
  rw [hstep]
  refine ⟨⟨hg,by rw [hdepth,List.length_cons]; omega,?_,fun _ _ hc =>
    absurd hc (g.enter_site _ _ _)⟩,?_⟩
  · intro frame hframe
    rcases List.mem_cons.mp hframe with rfl | hframe
    · exact ⟨hmem,hcont⟩
    · exact hframes frame hframe
  · cases hk : g.labelIndex cpu.pc with
    | some k =>
      refine ⟨1,follows_entered (d := d) (g.enter_site cpu) ?_⟩
      exact dispatch_label h hg hx (contains_of_labelIndex (h.words g hg) hk) d
    | none =>
      have he : g.enter cpu = ⟨.returned,cpu⟩ := by rw [enter,hk]
      rw [he]
      exact ⟨0,d,e,rfl⟩

theorem return_follows {frame : Frame} (hx : cpu.exception = 0)
    (hs : p.Sound depth₀ (.inside (frame :: frames) depth f ⟨.returned,cpu⟩))
    (hf : Follows plain (.inside (frame :: frames) depth f ⟨.returned,cpu⟩)) :
    p.Sound depth₀ (p.step limit (.inside (frame :: frames) depth f ⟨.returned,cpu⟩)) ∧
    ∃ k, Follows ((p.step 0)^[k] plain)
      (p.step limit (.inside (frame :: frames) depth f ⟨.returned,cpu⟩)) := by
  obtain ⟨hmem,hdepth,hframes,-⟩ := hs
  obtain ⟨hg,hcont⟩ := hframes frame List.mem_cons_self
  obtain ⟨d,e,rfl⟩ := hf
  have hsite := frame.function.resume_site frame.continuation cpu
  refine ⟨⟨hg,?_,fun fr hfr => hframes fr (List.mem_cons_of_mem _ hfr),fun _ _ hc =>
    absurd hc (hsite _ _)⟩,?_⟩
  · rw [hdepth,List.length_cons]
    omega
  · show ∃ k, Follows _ (.inside frames (depth - 1) frame.function
      (frame.function.resume frame.continuation cpu))
    by_cases hpc : cpu.pc = frame.continuation
    · refine ⟨1,follows_entered (d := d) hsite ?_⟩
      have hd := dispatch_label h hg hx (by rwa [hpc]) d
      have he : frame.function.enter cpu = frame.function.resume frame.continuation cpu := by
        obtain ⟨k,hk,ha⟩ := ((h.words _ hg).contains_iff _).mp hcont
        have hl := (h.words _ hg).labelIndex_iff.mpr ⟨hk,ha⟩
        rw [resume,if_pos hpc,enter,jump,hpc,hl]
      rw [← he]
      exact hd
    · have he : frame.function.resume frame.continuation cpu = ⟨.returned,cpu⟩ := by
        rw [resume,if_neg hpc]
      rw [he]
      exact ⟨0,d,e,rfl⟩

omit h in
theorem dispatch_follows (hs : p.Sound depth₀ (.inside [] depth f ⟨.returned,cpu⟩))
    (hf : Follows plain (.inside [] depth f ⟨.returned,cpu⟩)) :
    p.Sound depth₀ (p.step limit (.inside [] depth f ⟨.returned,cpu⟩)) ∧
    ∃ k, Follows ((p.step 0)^[k] plain) (p.step limit (.inside [] depth f ⟨.returned,cpu⟩)) := by
  obtain ⟨hmem,hdepth,hframes,-⟩ := hs
  obtain ⟨d,e,rfl⟩ := hf
  show p.Sound depth₀ (p.dispatch depth cpu) ∧ ∃ k, Follows _ (p.dispatch depth cpu)
  have hplain : p.step 0 (.inside [] d e ⟨.returned,cpu⟩) = p.dispatch d cpu := rfl
  unfold dispatch at hplain ⊢
  split
  next hx =>
    rw [if_pos hx] at hplain
    exact ⟨trivial,1,d,hplain⟩
  next hx =>
    rw [if_neg hx] at hplain
    rcases hc : p.dolrecompCall cpu with ⟨_ | g,cpu'⟩
    · rw [hc] at hplain
      exact ⟨trivial,1,d,hplain⟩
    · rw [hc] at hplain
      exact ⟨⟨dolrecompCall_mem hc,hdepth,hframes,fun _ _ hc => absurd hc (g.enter_site _ _ _)⟩,
        1,follows_entered (g.enter_site cpu') hplain⟩

theorem step_follows {m : Machine} (hs : p.Sound depth₀ m) (hf : Follows plain m)
    (hx : m.cpu.exception = 0) :
    p.Sound depth₀ (p.step limit m) ∧ ∃ k, Follows ((p.step 0)^[k] plain) (p.step limit m) := by
  cases m with
  | stopped depth cpu => exact ⟨trivial,0,hf⟩
  | inside frames depth f s =>
    obtain ⟨site,cpu⟩ := s
    cases site with
    | call chunk continuation => exact call_follows h limit depth₀ hx hs hf
    | returned =>
      cases frames with
      | nil => exact dispatch_follows limit depth₀ hs hf
      | cons frame frames => exact return_follows h limit depth₀ hx hs hf
    | _ => exact inside_follows h limit depth₀ (by simp) (by simp) hs hf

/-- A run with calls, as long as no exception is pending. -/
theorem runs_follow {f : CFunction} (hf : f ∈ p.functions) (cpu : CPUState) (n : ℕ)
    (hx : ∀ k < n, (p.runs limit depth₀ f cpu k).cpu.exception = 0) :
    p.Sound depth₀ (p.runs limit depth₀ f cpu n) ∧
      ∃ k, Follows (p.runs 0 depth₀ f cpu k) (p.runs limit depth₀ f cpu n) := by
  induction n with
  | zero =>
    refine ⟨⟨hf,rfl,by simp,fun _ _ hc => absurd hc (f.enter_site _ _ _)⟩,0,?_⟩
    exact follows_entered (f.enter_site cpu) rfl
  | succ n ih =>
    obtain ⟨hs,k,hfollow⟩ := ih fun j hj => hx j (by omega)
    obtain ⟨hs',j,hfollow'⟩ := step_follows h limit depth₀ hs hfollow (hx n (by omega))
    have hn : p.runs limit depth₀ f cpu (n + 1) = p.step limit (p.runs limit depth₀ f cpu n) :=
      Function.iterate_succ_apply' _ _ _
    rw [hn]
    refine ⟨hs',j + k,?_⟩
    rw [runs,Function.iterate_add_apply]
    exact hfollow'

end

/-- A state in which a function returns, in a run where calls go up to the limit, is one in which
a function returns when every call goes through the dispatcher, and the call depth is that of the
functions that wait. -/
theorem direct_calls_simulate (p : Program) (h : p.Tiled) (limit depth₀ : ℕ) (f : CFunction)
    (hf : f ∈ p.functions) (start : CPUState) (n : ℕ)
    (hx : ∀ k < n, (p.runs limit depth₀ f start k).cpu.exception = 0) :
    (∀ cpu, (p.runs limit depth₀ f start n).Returns cpu →
      ∃ k, (p.runs 0 depth₀ f start k).Returns cpu) ∧
    ∀ frames depth g s, p.runs limit depth₀ f start n = .inside frames depth g s →
      depth = depth₀ + frames.length := by
  obtain ⟨hs,k,hfollow⟩ := runs_follow h limit depth₀ hf start n hx
  constructor
  · rintro cpu ⟨frames,depth,g,he⟩
    rw [he] at hfollow
    obtain ⟨d,e,hplain⟩ := hfollow
    exact ⟨k,[],d,e,hplain⟩
  · intro frames depth g s he
    rw [he] at hs
    exact hs.2.1

/-- `bl` of the callee, and a word behind it. -/
def caller : CFunction where
  insts := [ppcDecode 0x48000101#32 0x80003100#32,ppcDecode 0x60000000#32 0x80003104#32]
  address := 0x80003100
  host := {}
  chunkStarts := [0x80003100,0x80003200]
  callEnter := true

/-- `blr` -/
def callee : CFunction where
  insts := [ppcDecode 0x4E800020#32 0x80003200#32]
  address := 0x80003200
  host := {}
  chunkStarts := [0x80003100,0x80003200]
  callEnter := true

def linked : Program := ⟨[caller,callee]⟩

theorem linked_tiled : linked.Tiled := by
  have hcaller : caller.FromWords := by
    refine ⟨fun k i hi => ?_,by decide⟩
    rcases k with _ | _ | k
    · exact ⟨0x48000101#32,false,(Option.some.inj hi).symm,fun h => by cases h⟩
    · exact ⟨0x60000000#32,false,(Option.some.inj hi).symm,fun h => by cases h⟩
    · simp [caller] at hi
  have hcallee : callee.FromWords := by
    refine ⟨fun k i hi => ?_,by decide⟩
    rcases k with _ | k
    · exact ⟨0x4E800020#32,false,(Option.some.inj hi).symm,fun h => by cases h⟩
    · simp [callee] at hi
  have hapart : ∀ address, caller.contains address = true → callee.contains address = true →
      False := by
    intro address h h'
    obtain ⟨k,hk,ha⟩ := (hcaller.contains_iff address).mp h
    obtain ⟨j,hj,hb⟩ := (hcallee.contains_iff address).mp h'
    have hk' : k < 2 := hk
    have ha' : address.toNat = 0x80003100 + 4*k := ha
    have hb' : address.toNat = 0x80003200 + 4*j := hb
    omega
  have hmem : ∀ f ∈ linked.functions, f = caller ∨ f = callee := by simp [linked]
  refine ⟨?_,?_,?_,?_,?_⟩
  · intro f hf
    rcases hmem f hf with rfl | rfl
    · exact hcaller
    · exact hcallee
  · intro f hf
    rcases hmem f hf with rfl | rfl <;> exact fun _ _ cpu => .inl ⟨cpu,rfl⟩
  · intro f hf g hg he
    rcases hmem f hf with rfl | rfl <;> rcases hmem g hg with rfl | rfl
    · rfl
    · exact absurd he (by decide)
    · exact absurd he (by decide)
    · rfl
  · intro f hf g hg address h h'
    rcases hmem f hf with rfl | rfl <;> rcases hmem g hg with rfl | rfl
    · rfl
    · exact (hapart address h h').elim
    · exact (hapart address h' h).elim
    · rfl
  · intro f hf start hs _
    have hs' : start = 0x80003100#32 ∨ start = 0x80003200#32 := by
      rcases hmem f hf with rfl | rfl <;> simpa [caller,callee] using hs
    rcases hs' with rfl | rfl
    · exact ⟨caller,by simp [linked],rfl⟩
    · exact ⟨callee,by simp [linked],rfl⟩

def callStart : CPUState := { cpuInit with pc := 0x80003100 }

/-- The callee returns to its caller, one call deep. -/
theorem direct_calls_simulate_linked : ∃ cpu, (linked.runs 24 0 caller callStart 3).Returns cpu ∧
    ∃ k, (linked.runs 0 0 caller callStart k).Returns cpu := by
  have hreturns : ∃ cpu frames depth f, linked.runs 24 0 caller callStart 3 =
      .inside frames depth f ⟨.returned,cpu⟩ := ⟨_,_,_,_,rfl⟩
  obtain ⟨cpu,hcpu⟩ := hreturns
  refine ⟨cpu,hcpu,(direct_calls_simulate linked linked_tiled 24 0 caller (by simp [linked])
    callStart 3 fun k hk => ?_).1 cpu hcpu⟩
  have : k = 0 ∨ k = 1 ∨ k = 2 := by omega
  rcases this with rfl | rfl | rfl <;> rfl

end Program

end CFunction

end DolRecomp
