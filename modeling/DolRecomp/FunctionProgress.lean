import DolRecomp.GeneratedFunction

/-!
# Progress of generated functions

Every cycle of control in a printed function passes a guard of the cycle counter.
Between two guards the counter goes down, unless control falls through a word of
embedded data into code that no leader charges.
-/

namespace DolRecomp

namespace CFunction

variable (f : CFunction)

/-- A step when `callee` is what the called chunks do. -/
def stepWith (callee : BitVec 32 → CPUState → CPUState) (s : FunctionState) : FunctionState :=
  match s.site with
  | .call chunk continuation => f.resume continuation (callee chunk s.cpu)
  | _ => f.run s

/-- The step from here passes a guard and goes on: a jump backwards, or a local return. -/
def Passes (s : FunctionState) : Prop :=
  (f.run s).site ≠ .returned ∧ match s.site with
  | .label index => f.loopEnds index = none ∧ ∃ i address cpu, f.insts[index]? = some i ∧
      f.inlineStatements index i s.cpu = .goto address cpu ∧ address ≤ i.address
  | .loop first last index => ∃ i address cpu, f.insts[index]? = some i ∧
      f.loopStatements first last index i s.cpu = .goto address cpu
  | .dispatch => True
  | .call _ _ | .returned => False

def states (callee : BitVec 32 → CPUState → CPUState) (cpu : CPUState) (n : ℕ) : FunctionState :=
  (f.stepWith callee)^[n] (f.enter cpu)

def counter (s : FunctionState) : ℤ := s.cpu.downcount.toInt

/-- The run of the function from a state; its label is that of the program counter. -/
structure Progresses (callee : BitVec 32 → CPUState → CPUState) (cpu : CPUState) : Prop where
  guarded : ∀ n, f.Passes (f.states callee cpu n) →
    -Emitter.loopCycleBudget < counter (f.states callee cpu (n + 1))
  cycle : ∀ m n, m < n → (f.states callee cpu m).site = (f.states callee cpu n).site →
    (f.states callee cpu n).site ≠ .returned →
    ∃ k, m ≤ k ∧ k < n ∧ f.Passes (f.states callee cpu k)
  decreases : ∀ m n, m < n → f.Passes (f.states callee cpu m) → f.Passes (f.states callee cpu n) →
    counter (f.states callee cpu (n + 1)) < counter (f.states callee cpu (m + 1))
  returns : ∃ n, (f.states callee cpu n).site = .returned

/-- The next step does not fall through embedded data into code that no branch goes to, its charge
does not overflow the signed counter, and a called chunk does not add to it. -/
structure Charged (callee : BitVec 32 → CPUState → CPUState) (s : FunctionState) : Prop where
  data : ∀ index i, s.site = .label index → f.insts[index]? = some i → i.embeddedData = true →
    index + 1 < f.insts.length → ∃ j ∈ f.insts, f.branchesTo j (index + 1) = true
  room : s.site ≠ .returned → -2^63 + 2^32 ≤ counter s
  call : ∀ chunk continuation, s.site = .call chunk continuation →
    (callee chunk s.cpu).downcount.toInt ≤ counter s

/-- How far control has come since the last guard. -/
def position : Site → ℕ
  | .label index => 4*index + 1
  | .loop _ _ index => 4*index + 2
  | .call _ continuation => 4*f.indexOf continuation
  | .dispatch => 4*f.insts.length + 4
  | .returned => 4*f.insts.length + 5

/-- A place in the function. In front of an instruction that no leader charges any more, the
counter has gone down since it was `limit`. -/
def Since (limit : ℤ) (s : FunctionState) : Prop :=
  counter s ≤ limit ∧
  match s.site with
  | .label index => index ≤ f.insts.length ∧
      (index < f.insts.length → f.leaders index = false → counter s < limit)
  | .loop first last index => f.loopEnds first = some last ∧ first ≤ index ∧ index ≤ last ∧
      (first < index → counter s < limit)
  | .call _ continuation => f.contains continuation = true ∧ counter s < limit
  | .dispatch => counter s < limit
  | .returned => True

variable {f}

theorem instructionCycles_pos_of {i : PPCInst} (hd : i.embeddedData = false)
    (hf : instructionUsesFallback i = false) : 1 ≤ instructionCycles i := by
  unfold instructionCycles
  rw [if_neg (by simp [hd,hf])]
  split <;> omega

theorem blockCycles_ne (hsmall : 40*f.insts.length < 2^32) {k : ℕ} {i : PPCInst}
    (hl : f.leaders k = true) (hi : f.insts[k]? = some i) (hc : 1 ≤ instructionCycles i) :
    f.blockCycles k ≠ 0 := by
  have hle : ∀ (is : List PPCInst) (j : ℕ), f.cyclesFrom j is ≤ 40*is.length := by
    intro is
    induction is with
    | nil => intro j; simp [cyclesFrom]
    | cons i is ih =>
      intro j
      have := instructionCycles_le i
      have := ih (j + 1)
      rw [cyclesFrom,List.length_cons]
      split <;> omega
  have hlt := (List.getElem?_eq_some_iff.mp hi).1
  have hdrop : f.insts.drop k = i :: f.insts.drop (k + 1) := by
    rw [List.drop_eq_getElem_cons hlt,(List.getElem?_eq_some_iff.mp hi).2]
  have hsum := hle (f.insts.drop k) k
  have hpos : 1 ≤ f.cyclesFrom k (f.insts.drop k) := by
    rw [hdrop,cyclesFrom]
    omega
  rw [List.length_drop] at hsum
  rw [blockCycles,if_pos hl,ne_eq,← BitVec.toNat_inj,BitVec.toNat_ofNat,
    Nat.mod_eq_of_lt (by omega)]
  show ¬ f.cyclesFrom k (f.insts.drop k) = 0
  omega

theorem charge_toInt {cycles : BitVec 32} {cpu : CPUState}
    (h : -2^63 + 2^32 ≤ cpu.downcount.toInt) :
    (charge cycles cpu).downcount.toInt = cpu.downcount.toInt - cycles.toNat := by
  have hlt : cpu.downcount.toInt < 2^63 := BitVec.toInt_lt
  have hc := cycles.isLt
  have hz : (cycles.zeroExtend 64).toInt = cycles.toNat := by
    rw [BitVec.toInt_eq_toNat_of_lt]
    · rw [BitVec.toNat_setWidth_of_le (by decide)]
    · rw [BitVec.toNat_setWidth_of_le (by decide)]
      omega
  show (cpu.downcount - cycles.zeroExtend 64).toInt = _
  rw [BitVec.toInt_sub,hz]
  apply Int.bmod_eq_of_le <;> omega

theorem charge_lt {cycles : BitVec 32} {cpu : CPUState} (hc : cycles ≠ 0)
    (h : -2^63 + 2^32 ≤ cpu.downcount.toInt) :
    (charge cycles cpu).downcount.toInt < cpu.downcount.toInt := by
  have hpos : 0 < cycles.toNat := by
    rw [Nat.pos_iff_ne_zero]
    exact fun hz => hc (BitVec.toNat_inj.mp hz)
  rw [charge_toInt h]
  omega

/-- What a step does: it returns, it comes further, or it passes a guard with less on the
counter than there was at the last one. -/
def Outcome (f : CFunction) (limit : ℤ) (s s' : FunctionState) : Prop :=
  s'.site = .returned ∨
  (¬ f.Passes s ∧ f.position s.site < f.position s'.site ∧ f.Since limit s') ∨
  (f.Passes s ∧ -Emitter.loopCycleBudget < counter s' ∧ counter s' < limit ∧
    f.Since (counter s') s')

/-- The state in which the statements of a labelled instruction begin. -/
def prepared (f : CFunction) (index : ℕ) (i : PPCInst) (cpu : CPUState) : CPUState :=
  if f.leaders index ∧ f.blockCycles index ≠ 0 then
    charge (f.blockCycles index) (f.materialize index i cpu)
  else f.materialize index i cpu

theorem inlineStatements_eq (index : ℕ) (i : PPCInst) (cpu : CPUState) :
    f.inlineStatements index i cpu = Emitter.emitInstruction
      (f.config (f.canLoopDirectly index) f.hasLocalReturns) i (f.prepared index i cpu) := rfl

theorem prepared_le {k : ℕ} {i : PPCInst} {cpu : CPUState}
    (h : -2^63 + 2^32 ≤ cpu.downcount.toInt) :
    (f.prepared k i cpu).downcount.toInt ≤ cpu.downcount.toInt := by
  unfold prepared
  rw [← f.materialize_downcount k i cpu] at h ⊢
  split
  · rw [charge_toInt h]
    omega
  · exact le_rfl

theorem branch_leads (hw : f.FromWords) {k : ℕ} {i : PPCInst} (hi : f.insts[k]? = some i)
    (hop : i.op = .b ∨ i.op = .bc) (hd : i.embeddedData = false)
    (hc : f.contains i.branchTarget = true) : f.leaders (f.indexOf i.branchTarget) = true := by
  have hlt := (hw.jump_label _ hc cpuInit).2.1
  have hto : f.branchesTo i (f.indexOf i.branchTarget) = true := by
    simp only [branchesTo,hd,hop,hc]
    simp
  have hany : (f.insts.any fun j => f.branchesTo j (f.indexOf i.branchTarget)) = true :=
    List.any_eq_true.mpr ⟨i,List.mem_of_getElem? hi,hto⟩
  simp only [leaders,hany,Bool.or_true,Bool.and_true,decide_eq_true_eq]
  exact hlt

theorem return_leads (hw : f.FromWords) {k : ℕ} (h : f.returnTargets k = true) :
    f.leaders k = true := by
  simp only [returnTargets,Bool.and_eq_true,decide_eq_true_eq,ne_eq] at h
  obtain ⟨⟨hlt,hne⟩,hany⟩ := h
  obtain ⟨i,hi,hlk⟩ := (Option.any_eq_true _ _).mp hany
  rw [Bool.and_eq_true,Bool.not_eq_true'] at hlk
  have hfollows : f.followsBlock k = true := by
    simp only [followsBlock,hi,Option.any_some,hlk.1,hw.linked hi hlk.2]
    simp [hne]
  simp only [leaders,hfollows,hlt,decide_true,Bool.or_true,Bool.true_or,Bool.and_self]

section

variable (ho : PlainStatements f.otherStatements) (hsmall : 40*f.insts.length < 2^32)

include ho hsmall

/-- Behind an instruction that does not return the counter is below the last guard. -/
theorem charged_strict {limit : ℤ} {k : ℕ} {i : PPCInst} {cpu : CPUState}
    (hs : f.Since limit ⟨.label k,cpu⟩) (hi : f.insts[k]? = some i) (hd : i.embeddedData = false)
    (hret : ∀ cpu', f.inlineStatements k i cpu ≠ .ret cpu')
    (hroom : -2^63 + 2^32 ≤ cpu.downcount.toInt) :
    (f.prepared k i cpu).downcount.toInt < limit := by
  have hlt := (List.getElem?_eq_some_iff.mp hi).1
  have hf : instructionUsesFallback i = false := by
    rw [← Bool.not_eq_true]
    intro hf
    obtain ⟨cpu',he⟩ := Emitter.emitInstruction_fallback
      (f.config (f.canLoopDirectly k) f.hasLocalReturns) ho hd hf (f.prepared k i cpu)
    exact hret cpu' he
  have hlimit : cpu.downcount.toInt ≤ limit := hs.1
  have hle := prepared_le (f := f) (k := k) (i := i) hroom
  cases hl : f.leaders k with
  | true =>
    have hne := blockCycles_ne hsmall hl hi (instructionCycles_pos_of hd hf)
    have hp : f.prepared k i cpu = charge (f.blockCycles k) (f.materialize k i cpu) := by
      rw [prepared,if_pos ⟨hl,hne⟩]
    rw [← f.materialize_downcount k i cpu] at hroom
    have := charge_lt hne hroom
    rw [materialize_downcount] at this
    rw [hp]
    omega
  | false =>
    have : cpu.downcount.toInt < limit := hs.2.2 hlt hl
    omega

variable (hw : f.FromWords)

include hw

omit ho hsmall in
theorem succ_address {k : ℕ} {i : PPCInst} (hi : f.insts[k]? = some i) :
    (i.address + 4).toNat = i.address.toNat + 4 := by
  have haddress := hw.address_toNat hi
  have hlt := (List.getElem?_eq_some_iff.mp hi).1
  have hfits := hw.fits
  rw [BitVec.toNat_add]
  show (i.address.toNat + 4) % 2^32 = _
  omega

omit ho hsmall hw in
/-- Only a jump backwards passes a guard at a label. -/
theorem not_passes_label {k : ℕ} {i : PPCInst} {cpu : CPUState} (hi : f.insts[k]? = some i)
    (h : ∀ address cpu', f.inlineStatements k i cpu = .goto address cpu' →
      ¬ address ≤ i.address) : ¬ f.Passes ⟨.label k,cpu⟩ := by
  rintro ⟨-,-,j,address,cpu',hj,hgoto,hle⟩
  obtain rfl : i = j := Option.some.inj (hi.symm.trans hj)
  exact h address cpu' hgoto hle

omit ho hsmall hw in
theorem not_passes_loop {first last k : ℕ} {i : PPCInst} {cpu : CPUState}
    (hi : f.insts[k]? = some i)
    (h : ∀ address cpu', f.loopStatements first last k i cpu ≠ .goto address cpu') :
    ¬ f.Passes ⟨.loop first last k,cpu⟩ := by
  rintro ⟨-,j,address,cpu',hj,hgoto⟩
  obtain rfl : i = j := Option.some.inj (hi.symm.trans hj)
  exact h address cpu' hgoto

theorem label_step {callee : BitVec 32 → CPUState → CPUState} {limit : ℤ} {k : ℕ} {cpu : CPUState}
    (hs : f.Since limit ⟨.label k,cpu⟩) (hc : f.Charged callee ⟨.label k,cpu⟩) :
    f.Outcome limit ⟨.label k,cpu⟩ (f.run ⟨.label k,cpu⟩) := by
  cases hi : f.insts[k]? with
  | none =>
    left
    simp only [run,hi]
  | some i =>
    have hlt := (List.getElem?_eq_some_iff.mp hi).1
    cases hloop : f.loopEnds k with
    | some last =>
      obtain ⟨branch,hout⟩ := outlined_of_loopEnds hloop
      rw [run_label_loop hi hloop]
      right
      left
      refine ⟨fun hp => ?_,?_,hs.1,hloop,le_rfl,hout.lt.le,fun h => absurd h (lt_irrefl k)⟩
      · have := hp.2.1
        rw [hloop] at this
        cases this
      · show 4*k + 1 < 4*k + 2
        omega
    | none =>
      have hrun : f.run ⟨.label k,cpu⟩ = f.afterStatements k i (f.inlineStatements k i cpu) :=
        run_label hi hloop
      have hstrict := charged_strict ho hsmall hs hi
      have hends := Emitter.emitInstruction_ends
        (f.config (f.canLoopDirectly k) f.hasLocalReturns) ho i (f.prepared k i cpu)
      rw [← inlineStatements_eq] at hends
      have hroom : -2^63 + 2^32 ≤ cpu.downcount.toInt := hc.room (by simp)
      have hle' := prepared_le (f := f) (k := k) (i := i) hroom
      rw [hrun]
      generalize hflow : f.inlineStatements k i cpu = flow at hends hstrict ⊢
      cases hends with
      | next hd =>
        rename_i cpu'
        have hle : cpu'.downcount.toInt ≤ cpu.downcount.toInt := by rwa [hd]
        refine .inr (.inl ⟨not_passes_label hi (by simp [hflow]),?_,?_,?_,fun hlt' hl => ?_⟩)
        · show 4*k + 1 < 4*(k + 1) + 1
          omega
        · exact hle.trans hs.1
        · exact hlt
        · show cpu'.downcount.toInt < limit
          cases hdata : i.embeddedData with
          | true =>
            rw [(leaders_behind_data hi hdata hlt').mpr (hc.data k i rfl hi hdata hlt')] at hl
            cases hl
          | false =>
            rw [hd]
            exact hstrict hdata (by simp) hroom
      | goto hop hdata hlocal hguard hd =>
        rename_i cpu'
        obtain ⟨hj,hjl,hja⟩ := hw.jump_label i.branchTarget hlocal cpu'
        rw [afterStatements,hj]
        have hlt' : cpu'.downcount.toInt < limit := by
          rw [hd]
          exact hstrict hdata (by simp) hroom
        have hi' := hw.address_toNat hi
        by_cases hback : i.branchTarget ≤ i.address
        · have hgo : (f.run ⟨.label k,cpu⟩).site ≠ .returned := by
            rw [hrun,hflow,afterStatements,hj]
            simp
          refine .inr (.inr ⟨⟨hgo,hloop,i,_,_,hi,hflow,hback⟩,hguard hback,hlt',le_rfl,hjl.le,?_⟩)
          intro _ hl
          rw [branch_leads hw hi hop hdata hlocal] at hl
          cases hl
        · refine .inr (.inl ⟨not_passes_label hi fun a c hgoto => ?_,?_,hlt'.le,hjl.le,
            fun _ _ => hlt'⟩)
          · rw [hflow] at hgoto
            cases hgoto
            exact hback
          · rw [BitVec.not_le,BitVec.lt_def] at hback
            show 4*k + 1 < 4*f.indexOf i.branchTarget + 1
            omega
      | dispatch hop hdata hroute hd =>
        rename_i cpu'
        have hlt' : cpu'.downcount.toInt < limit := by
          rw [hd]
          exact hstrict hdata (by simp) hroom
        refine .inr (.inl ⟨not_passes_label hi (by simp [hflow]),?_,hlt'.le,hlt'⟩)
        show 4*k + 1 < 4*f.insts.length + 4
        omega
      | call hop hdata hlk henter htarget hlocal hchunk hpc hd =>
        rename_i cpu'
        have hlt' : cpu'.downcount.toInt < limit := by
          rw [hd]
          exact hstrict hdata (by simp) hroom
        obtain ⟨-,hjl,hja⟩ := hw.jump_label (i.address + 4) hlocal cpu'
        refine .inr (.inl ⟨not_passes_label hi (by simp [hflow]),?_,hlt'.le,hlocal,hlt'⟩)
        have hi' := hw.address_toNat hi
        have hnext := succ_address hw hi
        show 4*k + 1 < 4*f.indexOf (i.address + 4)
        omega
      | ret cpu' => exact .inl rfl

omit ho in
theorem loop_body_step {callee : BitVec 32 → CPUState → CPUState} {limit : ℤ} {first last k : ℕ}
    {cpu : CPUState} {branch : PPCInst} (hout : f.Outlined first last branch)
    (hs : f.Since limit ⟨.loop first last k,cpu⟩)
    (hc : f.Charged callee ⟨.loop first last k,cpu⟩) (hlt : k < last) :
    f.Outcome limit ⟨.loop first last k,cpu⟩ (f.run ⟨.loop first last k,cpu⟩) := by
  obtain ⟨hlimit,hloop,hfk,hkl,hstrict⟩ := hs
  obtain ⟨i,hi⟩ := hout.get_of_le hkl
  have hdata := hw.embeddedData
  have hd := hout.not_embedded hdata hfk hkl hi
  obtain ⟨g,hg,hnext⟩ := emitInstruction_body f (hout.outlinable k i hfk hkl hi)
    (hout.straight k i hfk hlt hi) hd
  have hflow : f.loopStatements first last k i cpu = .next (g (f.materialize k i
      (if k = first then charge (f.blockCycles first) cpu else cpu))) := by
    rw [loopStatements]
    exact hnext _ _ _
  rw [run_loop hi,hflow,afterLoopStatements,if_neg hlt.ne]
  have hdown := hg (f.materialize k i
    (if k = first then charge (f.blockCycles first) cpu else cpu))
  rw [materialize_downcount] at hdown
  generalize g (f.materialize k i
    (if k = first then charge (f.blockCycles first) cpu else cpu)) = cpu' at *
  have hroom : -2^63 + 2^32 ≤ cpu.downcount.toInt := hc.room (by simp)
  have hlimit' : cpu.downcount.toInt ≤ limit := hlimit
  have hlt' : cpu'.downcount.toInt < limit := by
    by_cases hf : k = first
    · rw [if_pos hf] at hdown
      rw [hdown]
      subst hf
      have hne := blockCycles_ne hsmall (hout.leaders_first hdata) hi
        (instructionCycles_pos (hout.outlinable k i hfk hkl hi) hd)
      have := charge_lt hne hroom
      omega
    · rw [hdown,if_neg hf]
      exact hstrict (by omega)
  refine .inr (.inl ⟨not_passes_loop hi (by simp [hflow]),?_,hlt'.le,hloop,by omega,hlt,
    fun _ => hlt'⟩)
  show 4*k + 2 < 4*(k + 1) + 2
  omega

section BackEdge
variable {limit : ℤ} {first k : ℕ} {cpu : CPUState} {branch : PPCInst}
  (hloop : f.loopEnds first = some k) (hout : f.Outlined first k branch)
  (hstrict : cpu.downcount.toInt < limit)

include hout hstrict

include hloop in
omit ho hsmall in
theorem backedge_outcome {c : CPUState} (hcd : c.downcount = cpu.downcount)
    (hflow : f.loopStatements first k k branch cpu = Emitter.emitBackedge branch c) :
    f.Outcome limit ⟨.loop first k k,cpu⟩ (f.run ⟨.loop first k k,cpu⟩) := by
  have hrun : f.run ⟨.loop first k k,cpu⟩ =
      f.afterLoopStatements first k k branch (f.loopStatements first k k branch cpu) :=
    run_loop hout.get
  have hat : f.addressAt k = branch.address := by rw [addressAt,hout.get]; rfl
  rw [hrun,hflow]
  unfold Emitter.emitBackedge at hflow ⊢
  split
  next hbudget =>
    left
    rw [afterLoopStatements,afterLoop,hat,if_neg]
    rintro ⟨-,hpc⟩
    have hb := hout.backward
    have hpc' : branch.branchTarget = branch.address + 4 := hpc
    rw [hpc',BitVec.le_def,succ_address hw hout.get] at hb
    omega
  next hbudget =>
    rw [if_neg hbudget] at hflow
    obtain ⟨j,hj,hja⟩ := (hw.contains_iff _).mp hout.inside
    have hfirst : f.labelIndex branch.branchTarget = some first := by
      rw [← hout.start,indexOf_eq hja,hw.labelIndex_iff]
      exact ⟨hj,hja⟩
    rw [afterLoopStatements,if_pos hfirst]
    have hcount : c.downcount.toInt = cpu.downcount.toInt := by rw [hcd]
    have hgo : (f.run ⟨.loop first k k,cpu⟩).site ≠ .returned := by
      rw [hrun,hflow,afterLoopStatements,if_pos hfirst]
      simp
    refine .inr (.inr ⟨⟨hgo,branch,_,_,hout.get,hflow⟩,?_,?_,le_rfl,hloop,le_rfl,hout.lt.le,
      fun h => absurd h (lt_irrefl _)⟩)
    · show -Emitter.loopCycleBudget < c.downcount.toInt
      omega
    · show c.downcount.toInt < limit
      omega

omit ho hsmall in
theorem loop_exit_outcome {c : CPUState} (hcd : c.downcount = cpu.downcount)
    (hflow : f.loopStatements first k k branch cpu = .next c) :
    f.Outcome limit ⟨.loop first k k,cpu⟩ (f.run ⟨.loop first k k,cpu⟩) := by
  have hrun : f.run ⟨.loop first k k,cpu⟩ =
      f.afterLoopStatements first k k branch (f.loopStatements first k k branch cpu) :=
    run_loop hout.get
  have haddress := hw.address_toNat hout.get
  have hat : f.addressAt k = branch.address := by rw [addressAt,hout.get]; rfl
  rw [hrun,hflow,afterLoopStatements,if_pos rfl,afterLoop,hat]
  split
  next hin =>
    obtain ⟨hlt',-⟩ := hin
    have hsucc := succ_address hw hout.get
    rw [BitVec.lt_def,hsucc,hw.endAddress_toNat] at hlt'
    have hlabel : f.labelIndex (branch.address + 4) = some (k + 1) := by
      rw [hw.labelIndex_iff]
      omega
    rw [jump,hlabel]
    have hless : c.downcount.toInt < limit := by
      rw [hcd]
      exact hstrict
    refine .inr (.inl ⟨not_passes_loop hout.get (by simp [hflow]),?_,hless.le,by omega,
      fun _ _ => hless⟩)
    show 4*k + 2 < 4*(k + 1) + 1
    omega
  next => exact .inl rfl

include hloop in
omit ho hsmall in
theorem loop_back_step : f.Outcome limit ⟨.loop first k k,cpu⟩ (f.run ⟨.loop first k k,cpu⟩) := by
  have hne : k ≠ first := hout.lt.ne'
  have hd := hout.not_embedded hw.embeddedData hout.lt.le le_rfl hout.get
  have hflow : f.loopStatements first k k branch cpu =
      Emitter.emitInstruction (f.config true false) branch (f.materialize k branch cpu) := by
    rw [loopStatements]
    simp only [if_neg hne,decide_true]
  rw [hout.emitInstruction hd] at hflow
  have hm := f.materialize_downcount k branch cpu
  split at hflow
  · exact backedge_outcome hw hloop hout hstrict hm hflow
  · have hb := emitBranchCondition_downcount branch (f.materialize k branch cpu)
    rw [hm] at hb
    split at hflow
    · exact backedge_outcome hw hloop hout hstrict hb hflow
    · exact loop_exit_outcome hw hout hstrict hb hflow

end BackEdge

omit ho in
theorem loop_step {callee : BitVec 32 → CPUState → CPUState} {limit : ℤ} {first last k : ℕ}
    {cpu : CPUState} (hs : f.Since limit ⟨.loop first last k,cpu⟩)
    (hc : f.Charged callee ⟨.loop first last k,cpu⟩) :
    f.Outcome limit ⟨.loop first last k,cpu⟩ (f.run ⟨.loop first last k,cpu⟩) := by
  obtain ⟨branch,hout⟩ := outlined_of_loopEnds hs.2.1
  rcases Nat.lt_or_ge k last with hlt | hge
  · exact loop_body_step hsmall hw hout hs hc hlt
  · obtain rfl : k = last := le_antisymm hs.2.2.2.1 hge
    exact loop_back_step hw hs.2.1 hout (hs.2.2.2.2 hout.lt)

/-- Every step returns, comes further or passes a guard with less on the counter. -/
theorem step_outcome {callee : BitVec 32 → CPUState → CPUState} {limit : ℤ} {s : FunctionState}
    (hs : f.Since limit s) (hc : f.Charged callee s) :
    f.Outcome limit s (f.stepWith callee s) := by
  obtain ⟨site,cpu⟩ := s
  cases site with
  | label k => exact label_step ho hsmall hw hs hc
  | loop first last k => exact loop_step hsmall hw hs hc
  | dispatch =>
    have hlt : cpu.downcount.toInt < limit := hs.2
    show f.Outcome limit _ (f.returnDispatch cpu)
    by_cases hbudget : cpu.downcount.toInt ≤ -Emitter.loopCycleBudget
    · left
      rw [returnDispatch,if_pos hbudget]
    · cases hk : f.labelIndex cpu.pc with
      | none =>
        left
        simp only [returnDispatch,if_neg hbudget,hk]
      | some k =>
        cases ht : f.returnTargets k with
        | false =>
          left
          simp [returnDispatch,hk,ht]
        | true =>
          have hr : f.returnDispatch cpu = ⟨.label k,cpu⟩ := by
            simp [returnDispatch,if_neg hbudget,hk,ht]
          have hguard : -Emitter.loopCycleBudget < cpu.downcount.toInt := by omega
          have hgo : (f.run ⟨.dispatch,cpu⟩).site ≠ .returned := by
            show (f.returnDispatch cpu).site ≠ _
            simp [hr]
          rw [hr]
          have hk' := (hw.labelIndex_iff.mp hk).1
          refine .inr (.inr ⟨⟨hgo,trivial⟩,hguard,hlt,le_rfl,hk'.le,fun _ hl => ?_⟩)
          rw [return_leads hw ht] at hl
          cases hl
  | call chunk continuation =>
    obtain ⟨hcontains,hlt⟩ := hs.2
    have hstep : f.stepWith callee ⟨.call chunk continuation,cpu⟩ =
        f.resume continuation (callee chunk cpu) := rfl
    rw [hstep]
    unfold resume
    split
    next hpc =>
      obtain ⟨hj,hjl,hja⟩ := hw.jump_label _ hcontains (callee chunk cpu)
      rw [hj]
      have hle : (callee chunk cpu).downcount.toInt ≤ cpu.downcount.toInt := hc.call _ _ rfl
      have hlt' : (callee chunk cpu).downcount.toInt < limit := lt_of_le_of_lt hle hlt
      refine .inr (.inl ⟨fun hp => hp.2,?_,hlt'.le,hjl.le,fun _ _ => hlt'⟩)
      show 4*f.indexOf continuation < 4*f.indexOf continuation + 1
      omega
    next => exact .inl rfl
  | returned => exact .inl rfl

variable {callee : BitVec 32 → CPUState → CPUState} {cpu : CPUState}

omit ho hsmall hw in
theorem states_succ (n : ℕ) :
    f.states callee cpu (n + 1) = f.stepWith callee (f.states callee cpu n) :=
  Function.iterate_succ_apply' _ _ _

omit ho hsmall hw in
theorem returned_forever {m : ℕ} (h : (f.states callee cpu m).site = .returned) (n : ℕ) :
    (f.states callee cpu (m + n)).site = .returned := by
  induction n with
  | zero => exact h
  | succ n ih =>
    rw [← Nat.add_assoc,states_succ,stepWith,ih]
    simp only [run,ih]

omit ho hsmall in
theorem enter_since : f.Since (2^63) (f.enter cpu) := by
  have hlt : cpu.downcount.toInt < 2^63 := BitVec.toInt_lt
  unfold enter
  split
  next k hk =>
    have hk' := (hw.labelIndex_iff.mp hk).1
    exact ⟨hlt.le,hk'.le,fun _ _ => hlt⟩
  next => exact ⟨hlt.le,trivial⟩

variable (hrun : ∀ n, f.Charged callee (f.states callee cpu n))

include hrun

theorem outcome_at {limit : ℤ} {n : ℕ} (hs : f.Since limit (f.states callee cpu n)) :
    f.Outcome limit (f.states callee cpu n) (f.states callee cpu (n + 1)) := by
  rw [states_succ]
  exact step_outcome ho hsmall hw hs (hrun n)

/-- The limit only goes down, as long as the function does not return. -/
theorem since_later {limit : ℤ} {m : ℕ} (hs : f.Since limit (f.states callee cpu m)) (n : ℕ) :
    (f.states callee cpu (m + n)).site = .returned ∨
      ∃ limit' ≤ limit, f.Since limit' (f.states callee cpu (m + n)) := by
  induction n with
  | zero => exact .inr ⟨limit,le_rfl,hs⟩
  | succ n ih =>
    rcases ih with hr | ⟨limit',hle,hs'⟩
    · exact .inl (returned_forever hr 1)
    · rcases outcome_at ho hsmall hw hrun hs' with hr | ⟨-,-,hs''⟩ | ⟨-,-,hlt,hs''⟩
      · exact .inl hr
      · exact .inr ⟨limit',hle,hs''⟩
      · exact .inr ⟨_,hlt.le.trans hle,hs''⟩

theorem since_at (n : ℕ) : (f.states callee cpu n).site = .returned ∨
    ∃ limit ≤ 2^63, f.Since limit (f.states callee cpu n) := by
  have h := since_later ho hsmall hw hrun (m := 0) (enter_since hw) n
  rwa [Nat.zero_add] at h

omit ho hsmall hw hrun in
theorem passes_not_returned {s : FunctionState} (hp : f.Passes s) : s.site ≠ .returned := by
  intro hr
  obtain ⟨-,hp⟩ := hp
  rw [hr] at hp
  exact hp

omit ho hsmall hw hrun in
theorem passes_goes_on {s : FunctionState} (hp : f.Passes s) :
    (f.stepWith callee s).site ≠ .returned := by
  obtain ⟨hgo,hp⟩ := hp
  obtain ⟨site,cpu⟩ := s
  cases site with
  | call chunk continuation => exact absurd hp id
  | _ => exact hgo

/-- Without a guard control only comes further. -/
theorem position_lt {m : ℕ} (n : ℕ) (hr : (f.states callee cpu (m + n + 1)).site ≠ .returned)
    (hno : ∀ k, m ≤ k → k < m + n + 1 → ¬ f.Passes (f.states callee cpu k)) :
    f.position (f.states callee cpu m).site <
      f.position (f.states callee cpu (m + n + 1)).site := by
  induction n with
  | zero =>
    rcases since_at ho hsmall hw hrun m with hm | ⟨limit,-,hs⟩
    · exact absurd (returned_forever hm 1) hr
    · rcases outcome_at ho hsmall hw hrun hs with h | ⟨-,hlt,-⟩ | ⟨hp,-⟩
      · exact absurd h hr
      · exact hlt
      · exact absurd hp (hno m le_rfl (by omega))
  | succ n ih =>
    have hr' : (f.states callee cpu (m + n + 1)).site ≠ .returned := fun h =>
      hr (returned_forever h 1)
    have hlt := ih hr' fun k hm hk => hno k hm (by omega)
    rcases since_at ho hsmall hw hrun (m + n + 1) with hm | ⟨limit,-,hs⟩
    · exact absurd hm hr'
    · rcases outcome_at ho hsmall hw hrun hs with h | ⟨-,hlt',-⟩ | ⟨hp,-⟩
      · exact absurd h hr
      · exact hlt.trans hlt'
      · exact absurd hp (hno _ (by omega) (by omega))

omit ho hsmall hrun in
theorem position_le {limit : ℤ} {s : FunctionState} (hs : f.Since limit s) :
    f.position s.site ≤ 4*f.insts.length + 5 := by
  obtain ⟨site,cpu⟩ := s
  cases site with
  | label k =>
    have := hs.2.1
    show 4*k + 1 ≤ _
    omega
  | loop first last k =>
    obtain ⟨hloop,-,hkl,-⟩ := hs.2
    obtain ⟨branch,hout⟩ := outlined_of_loopEnds hloop
    have := (List.getElem?_eq_some_iff.mp hout.get).1
    show 4*k + 2 ≤ _
    omega
  | call chunk continuation =>
    have := (hw.jump_label _ hs.2.1 cpu).2.1
    show 4*f.indexOf continuation ≤ _
    omega
  | dispatch => exact Nat.le_succ _
  | returned => exact le_rfl

/-- What is left to do: the counter down to the budget, and the way to the next guard. -/
def remaining (f : CFunction) (limit : ℤ) (s : FunctionState) : ℕ :=
  (limit + Emitter.loopCycleBudget).toNat*(4*f.insts.length + 6) +
    (4*f.insts.length + 5 - f.position s.site)

theorem remaining_lt {limit : ℤ} {m : ℕ} (hlimit : -Emitter.loopCycleBudget ≤ limit)
    (hs : f.Since limit (f.states callee cpu m)) :
    (f.states callee cpu (m + 1)).site = .returned ∨
    ∃ limit', -Emitter.loopCycleBudget ≤ limit' ∧ f.Since limit' (f.states callee cpu (m + 1)) ∧
      f.remaining limit' (f.states callee cpu (m + 1)) <
        f.remaining limit (f.states callee cpu m) := by
  rcases outcome_at ho hsmall hw hrun hs with hr | ⟨-,hlt,hs'⟩ | ⟨-,hguard,hlt,hs'⟩
  · exact .inl hr
  · refine .inr ⟨limit,hlimit,hs',?_⟩
    have := position_le hw hs'
    unfold remaining
    omega
  · refine .inr ⟨_,hguard.le,hs',?_⟩
    unfold remaining
    generalize counter (f.states callee cpu (m + 1)) = limit' at hguard hlt
    have hle : (limit' + Emitter.loopCycleBudget).toNat + 1 ≤
        (limit + Emitter.loopCycleBudget).toNat := by omega
    have hmul := Nat.mul_le_mul_right (4*f.insts.length + 6) hle
    rw [Nat.add_mul,Nat.one_mul] at hmul
    omega

theorem returns_within (bound m : ℕ) (limit : ℤ) (hlimit : -Emitter.loopCycleBudget ≤ limit)
    (hs : f.Since limit (f.states callee cpu m))
    (hb : f.remaining limit (f.states callee cpu m) ≤ bound) :
    ∃ n, (f.states callee cpu n).site = .returned := by
  induction bound generalizing m limit with
  | zero =>
    rcases remaining_lt ho hsmall hw hrun hlimit hs with hr | ⟨limit',-,-,hlt⟩
    · exact ⟨_,hr⟩
    · omega
  | succ bound ih =>
    rcases remaining_lt ho hsmall hw hrun hlimit hs with hr | ⟨limit',hlimit',hs',hlt⟩
    · exact ⟨_,hr⟩
    · exact ih (m + 1) limit' hlimit' hs' (by omega)

/-- At a guard the counter is above the budget, and below the limit. -/
theorem passes_outcome {limit : ℤ} {n : ℕ} (hs : f.Since limit (f.states callee cpu n))
    (hp : f.Passes (f.states callee cpu n)) :
    -Emitter.loopCycleBudget < counter (f.states callee cpu (n + 1)) ∧
    counter (f.states callee cpu (n + 1)) < limit ∧
    f.Since (counter (f.states callee cpu (n + 1))) (f.states callee cpu (n + 1)) := by
  rcases outcome_at ho hsmall hw hrun hs with h | ⟨hno,-⟩ | ⟨-,h⟩
  · rw [states_succ] at h
    exact absurd h (passes_goes_on hp)
  · exact absurd hp hno
  · exact h

end

/-- A run in which no cycles are lost behind embedded data passes a guard in every cycle, each time
with less on the counter, and returns. -/
theorem generated_function_progresses (f : CFunction) (hw : f.FromWords)
    (ho : PlainStatements f.otherStatements) (hsmall : 40*f.insts.length < 2^32)
    (callee : BitVec 32 → CPUState → CPUState) (cpu : CPUState)
    (hrun : ∀ n, f.Charged callee (f.states callee cpu n)) : f.Progresses callee cpu := by
  refine ⟨fun n hp => ?_,fun m n hmn hsite hr => ?_,fun m n hmn hm hn => ?_,?_⟩
  · rcases since_at ho hsmall hw hrun n with h | ⟨limit,-,hs⟩
    · exact absurd h (passes_not_returned hp)
    · exact (passes_outcome ho hsmall hw hrun hs hp).1
  · by_contra hno
    push Not at hno
    obtain ⟨d,rfl⟩ := Nat.exists_eq_add_of_lt hmn
    have := position_lt ho hsmall hw hrun d hr fun k hk hk' => hno k hk hk'
    rw [hsite] at this
    exact absurd this (lt_irrefl _)
  · obtain ⟨d,rfl⟩ := Nat.exists_eq_add_of_lt hmn
    rcases since_at ho hsmall hw hrun m with h | ⟨limit,-,hs⟩
    · exact absurd h (passes_not_returned hm)
    · have hafter := (passes_outcome ho hsmall hw hrun hs hm).2.2
      rw [show m + d + 1 = m + 1 + d by omega] at hn ⊢
      rcases since_later ho hsmall hw hrun hafter d with h | ⟨limit',hle,hs'⟩
      · exact absurd h (passes_not_returned hn)
      · exact lt_of_lt_of_le (passes_outcome ho hsmall hw hrun hs' hn).2.1 hle
  · have hstart : f.Since (2^63) (f.enter cpu) := enter_since hw
    exact returns_within ho hsmall hw hrun _ 0 (2^63) (by decide) hstart le_rfl

/-- A branch to itself. -/
def selfLoop : CFunction where
  insts := [ppcDecode 0x48000000#32 0x80003100#32]
  address := 0x80003100
  host := {}
  chunkStarts := []
  callEnter := false

/-- Two cycles are left until the budget. -/
def selfLoopStart : CPUState := { cpuInit with pc := 0x80003100, downcount := -254 }

theorem selfLoop_fromWords : selfLoop.FromWords := by
  refine ⟨?_,by decide⟩
  intro k i hk
  rcases k with _ | k
  · exact ⟨0x48000000#32,false,(Option.some.inj hk).symm,fun h => by cases h⟩
  · simp [selfLoop] at hk

theorem selfLoop_returns : selfLoop.Progresses (fun _ cpu => cpu) selfLoopStart := by
  have hi : selfLoop.insts[0]? = some (ppcDecode 0x48000000#32 0x80003100#32) := rfl
  have hl : selfLoop.loopEnds 0 = none := by decide
  have hm : selfLoop.materializePc 0 = false := by decide
  have hb : selfLoop.leaders 0 = true ∧ selfLoop.blockCycles 0 ≠ 0 := by decide
  have hj : selfLoop.labelIndex 0x80003100#32 = some 0 := by decide
  have h1 : selfLoop.states (fun _ cpu => cpu) selfLoopStart 1 =
      ⟨.label 0,{ selfLoopStart with downcount := -255 }⟩ := by
    have hs : selfLoop.inlineStatements 0 (ppcDecode 0x48000000#32 0x80003100#32) selfLoopStart =
        .goto 0x80003100#32 { selfLoopStart with downcount := -255 } := by
      simp only [inlineStatements,materialize,hm,if_pos hb]
      rfl
    show selfLoop.run ⟨.label 0,selfLoopStart⟩ = _
    simp only [run,hi,hl,hs,afterStatements,jump,hj]
  have h2 : (selfLoop.states (fun _ cpu => cpu) selfLoopStart 2).site = .returned := by
    have hs : selfLoop.inlineStatements 0 (ppcDecode 0x48000000#32 0x80003100#32)
        { selfLoopStart with downcount := -255 } =
        .ret { selfLoopStart with downcount := -256 } := by
      simp only [inlineStatements,materialize,hm,if_pos hb]
      rfl
    rw [states_succ,h1]
    show (selfLoop.run ⟨.label 0,{ selfLoopStart with downcount := -255 }⟩).site = _
    simp only [run,hi,hl,hs,afterStatements]
  refine generated_function_progresses selfLoop selfLoop_fromWords (fun _ _ cpu => .inl ⟨cpu,rfl⟩)
    (by decide) _ _ fun n => ⟨?_,?_,?_⟩
  · intro index i _ hk hd
    rcases index with _ | index
    · rw [← Option.some.inj hk] at hd
      cases hd
    · simp [selfLoop] at hk
  · intro hr
    rcases n with _ | _ | n
    · show _ ≤ selfLoopStart.downcount.toInt
      decide
    · rw [h1]
      show _ ≤ (-255#64).toInt
      decide
    · have := returned_forever h2 n
      rw [Nat.add_comm] at this
      exact absurd this hr
  · intro chunk continuation _
    exact le_rfl

/-- A branch to the word of embedded data in front of it. -/
def dataLoop : CFunction where
  insts := [{ ppcDecode 0#32 0x80003100#32 with embeddedData := true },
    ppcDecode 0x4BFFFFFC#32 0x80003104#32]
  address := 0x80003100
  host := {}
  chunkStarts := []
  callEnter := false

def dataLoopStart : CPUState := { cpuInit with pc := 0x80003100 }

theorem dataLoop_label_zero :
    dataLoop.run ⟨.label 0,dataLoopStart⟩ = ⟨.label 1,dataLoopStart⟩ := by
  have hi : dataLoop.insts[0]? =
    some { ppcDecode 0#32 0x80003100#32 with embeddedData := true } := rfl
  have hl : dataLoop.loopEnds 0 = none := by decide
  have hm : dataLoop.materializePc 0 = true := by decide
  have hb : dataLoop.blockCycles 0 = 0 := by decide
  have hs : dataLoop.inlineStatements 0
      { ppcDecode 0#32 0x80003100#32 with embeddedData := true } dataLoopStart =
      .next dataLoopStart := by
    simp only [inlineStatements,materialize,hm,hb]
    rfl
  simp only [run,hi,hl,hs,afterStatements]

theorem dataLoop_label_one :
    dataLoop.run ⟨.label 1,dataLoopStart⟩ = ⟨.label 0,dataLoopStart⟩ := by
  have hi : dataLoop.insts[1]? = some (ppcDecode 0x4BFFFFFC#32 0x80003104#32) := rfl
  have hl : dataLoop.loopEnds 1 = none := by decide
  have hm : dataLoop.materializePc 1 = false := by decide
  have hb : dataLoop.leaders 1 = false := by decide
  have hs : dataLoop.inlineStatements 1 (ppcDecode 0x4BFFFFFC#32 0x80003104#32) dataLoopStart =
      .goto 0x80003100#32 dataLoopStart := by
    simp only [inlineStatements,materialize,hm,hb]
    rfl
  have hj : dataLoop.labelIndex 0x80003100#32 = some 0 := by decide
  simp only [run,hi,hl,hs,afterStatements,jump,hj]

/-- The loop charges nothing, and never returns. -/
theorem dataLoop_spins : dataLoop.FromWords ∧ PlainStatements dataLoop.otherStatements ∧
    40*dataLoop.insts.length < 2^32 ∧
    (∀ n, (dataLoop.states (fun _ cpu => cpu) dataLoopStart n).site ≠ .returned) ∧
    ¬ dataLoop.Progresses (fun _ cpu => cpu) dataLoopStart := by
  have hstates : ∀ n,
      dataLoop.states (fun _ cpu => cpu) dataLoopStart n = ⟨.label 0,dataLoopStart⟩ ∨
      dataLoop.states (fun _ cpu => cpu) dataLoopStart n = ⟨.label 1,dataLoopStart⟩ := by
    intro n
    induction n with
    | zero => exact .inl rfl
    | succ n ih =>
      rw [states_succ]
      rcases ih with he | he
      · rw [he]
        exact .inr dataLoop_label_zero
      · rw [he]
        exact .inl dataLoop_label_one
  have hno : ∀ n, (dataLoop.states (fun _ cpu => cpu) dataLoopStart n).site ≠ .returned := by
    intro n
    rcases hstates n with he | he <;> simp [he]
  refine ⟨⟨?_,by decide⟩,fun _ _ cpu => .inl ⟨cpu,rfl⟩,by decide,hno,fun h => ?_⟩
  · intro k i hi
    rcases k with _ | _ | k
    · exact ⟨0#32,true,(Option.some.inj hi).symm,fun _ => by rw [← Option.some.inj hi]; rfl⟩
    · exact ⟨0x4BFFFFFC#32,false,(Option.some.inj hi).symm,fun h => by cases h⟩
    · simp [dataLoop] at hi
  · obtain ⟨n,hn⟩ := h.returns
    exact hno n hn

end CFunction

end DolRecomp
