import DolRecomp.Liveness
import DolRecomp.MemoryAgreement

/-!
# The recorded effects of an operation

An operation reads no slot but those it is recorded to use, and what it leaves in
the slots it is recorded to define does not depend on what was there: states that
agree on the uses, and on what is live afterwards and not defined, are taken to
states that agree on what is live, or native code is left from both.
-/

namespace DolRecomp

/-- The memory of two states is the same, and so is what devices have seen. -/
structure SameMemory (cpu cpu' : CPUState) : Prop where
  ram : cpu.ram = cpu'.ram
  ramSize : cpu.ramSize = cpu'.ramSize
  mem2 : cpu.mem2 = cpu'.mem2
  mem2Size : cpu.mem2Size = cpu'.mem2Size
  history : cpu.history = cpu'.history

namespace SameMemory

theorem refl (cpu : CPUState) : SameMemory cpu cpu := ⟨rfl,rfl,rfl,rfl,rfl⟩

theorem trans {a b c : CPUState} (h : SameMemory a b) (h' : SameMemory b c) : SameMemory a c :=
  ⟨h.1.trans h'.1,h.2.trans h'.2,h.3.trans h'.3,h.4.trans h'.4,h.5.trans h'.5⟩

theorem symm {a b : CPUState} (h : SameMemory a b) : SameMemory b a :=
  ⟨h.1.symm,h.2.symm,h.3.symm,h.4.symm,h.5.symm⟩

variable {cpu cpu' : CPUState}

theorem onto_eq (h : SameMemory cpu cpu') (ha : cpu.reserveAddr = cpu'.reserveAddr)
    (hv : cpu.reserveValid = cpu'.reserveValid) (base : CPUState) :
    cpu.onto base = cpu'.onto base := by
  unfold CPUState.onto
  rw [h.ram,h.ramSize,h.mem2,h.mem2Size,h.history,ha,hv]

theorem memValue_eq (h : SameMemory cpu cpu') (host : Host) (ea : BitVec 32) (width : ℕ) :
    Runtime.memValue host cpu ea width = Runtime.memValue host cpu' ea width := by
  have hr : Runtime.resolveAddr cpu ea = Runtime.resolveAddr cpu' ea := by
    unfold Runtime.resolveAddr
    rw [h.ramSize,h.mem2Size]
  have hb (region : Runtime.Region) : Runtime.bytesOf cpu region = Runtime.bytesOf cpu' region := by
    cases region
    · exact h.ram
    · exact h.mem2
  simp only [Runtime.memValue,hr,hb,h.history]

end SameMemory

namespace Exec

/-- Two outcomes go on with related results, leave with the same memory, or have no meaning. -/
def Lift {α β : Type} (R : α → β → Prop) : Exec α → Exec β → Prop
  | .next a, .next b => R a b
  | .exit cpu, .exit cpu' => SameMemory cpu cpu'
  | .stuck, .stuck => True
  | _, _ => False

theorem Lift.bind {α β γ δ : Type} {R : α → β → Prop} {Q : γ → δ → Prop} {x : Exec α}
    {y : Exec β} {f : α → Exec γ} {g : β → Exec δ} (h : Lift R x y)
    (hf : ∀ a b, R a b → Lift Q (f a) (g b)) : Lift Q (x >>= f) (y >>= g) := by
  cases x with
  | next a => cases y with
    | next b => exact hf a b h
    | exit => exact h.elim
    | stuck => exact h.elim
  | exit cpu => cases y with
    | next => exact h.elim
    | exit cpu' => exact h
    | stuck => exact h.elim
  | stuck => cases y with
    | next => exact h.elim
    | exit => exact h.elim
    | stuck => exact h

def lifting : Liveness.Lifting Exec where
  lift := Lift
  pure h := h
  bind := Lift.bind

/-- The same value is missing in both outcomes or in neither. -/
theorem lift_ofOption {α γ δ : Type} {Q : γ → δ → Prop} {o : Option α} {f : α → Exec γ}
    {g : α → Exec δ} (h : ∀ a, Lift Q (f a) (g a)) :
    Lift Q (ofOption o >>= f) (ofOption o >>= g) := by
  cases o with
  | none => trivial
  | some a => exact h a

end Exec

def slots : Liveness.View IRState DolIRStateSlot Value where
  read := IRState.readSlot
  same st st' := SameMemory st.cpu st'.cpu

/-- The slots of a point of execution, over memory and the values so far. -/
def frameSlots : Liveness.View Machine.Frame DolIRStateSlot Value where
  read f := f.st.readSlot
  same f g := SameMemory f.st.cpu g.st.cpu ∧ f.env = g.env

namespace IRState

/-- A value has no meaning in a slot, or is what the slot and no other one then holds. -/
theorem writeSlot_cases (slot : DolIRStateSlot) (v : Value) :
    (∀ st : IRState, st.writeSlot slot v = none) ∨
    ∃ w : IRState → IRState, (∀ st, st.writeSlot slot v = some (w st)) ∧
      (∀ st, (w st).readSlot slot = v) ∧
      (∀ st x, x ≠ slot → (w st).readSlot x = st.readSlot x) ∧
      ∀ st, SameMemory (w st).cpu st.cpu := by
  cases slot <;> cases v <;> first
    | exact .inl fun _ => rfl
    | refine .inr ⟨_,fun _ => rfl,fun _ => ?_,fun _ x hx => ?_,fun _ => ⟨rfl,rfl,rfl,rfl,rfl⟩⟩
  all_goals first
    | rfl
    | exact congrArg Value.i32 (Function.update_self _ _ _)
    | exact congrArg Value.f64 (Function.update_self _ _ _)
    | skip
  all_goals cases x <;> first
    | rfl
    | exact absurd rfl hx
    | exact congrArg Value.i32 (Function.update_of_ne (fun h => hx (congrArg _ h)) _ _)
    | exact congrArg Value.f64 (Function.update_of_ne (fun h => hx (congrArg _ h)) _ _)

/-- What happens to memory is seen in the slots of the reservation only. -/
theorem readSlot_onto (st : IRState) (cpu : CPUState) {x : DolIRStateSlot}
    (ha : x ≠ .reserveAddr) (hv : x ≠ .reserveValid) :
    { st with cpu := cpu.onto st.cpu }.readSlot x = st.readSlot x := by
  cases x <;> first
    | rfl
    | exact absurd rfl ha
    | exact absurd rfl hv

theorem readSlot_setGpr (st : IRState) (r : BitVec 5) (v : BitVec 32) {x : DolIRStateSlot}
    (h : x ≠ .gpr r) : (st.setGpr r v).readSlot x = st.readSlot x := by
  cases x <;> first
    | rfl
    | exact congrArg Value.i32 (Function.update_of_ne (fun hr => h (congrArg _ hr)) _ _)

theorem readSlot_history (st : IRState) (history : List MemAccess) (x : DolIRStateSlot) :
    { st with cpu := { st.cpu with history } }.readSlot x = st.readSlot x := by cases x <;> rfl

theorem readSlot_setFpscr (st : IRState) (fpscr : BitVec 32) {x : DolIRStateSlot} (h : x ≠ .fpscr) :
    { st with cpu := { st.cpu with fpscr } }.readSlot x = st.readSlot x := by
  cases x <;> first
    | rfl
    | exact absurd rfl h

end IRState

/-- Outcomes with the same value, and with states that agree. -/
def SameOutcome (live : Set DolIRStateSlot) (a b : Option Value × IRState) : Prop :=
  a.1 = b.1 ∧ slots.Agree live a.2 b.2

section

variable {live : Set DolIRStateSlot} {st st' : IRState}

theorem stateWrite_sound {slot : DolIRStateSlot} (h : slots.Agree (live \ {slot}) st st')
    (v : Value) : Exec.Lift (SameOutcome live)
      (Exec.ofOption (st.writeSlot slot v) >>= fun st => .next (none,st))
      (Exec.ofOption (st'.writeSlot slot v) >>= fun st => .next (none,st)) := by
  obtain hn | ⟨w,hw,hself,hother,hsame⟩ := IRState.writeSlot_cases slot v
  · rw [hn,hn]
    trivial
  · rw [hw,hw]
    refine ⟨rfl,(hsame st).trans (h.1.trans (hsame st').symm),fun x hx => ?_⟩
    change (w st).readSlot x = (w st').readSlot x
    by_cases hxs : x = slot
    · rw [hxs,hself,hself]
    · rw [hother st x hxs,hother st' x hxs]
      exact h.2 x ⟨hx,hxs⟩

theorem guestLoad_sound (m : Machine) (h : slots.Agree live st st') (ea : BitVec 32)
    (t : DolIRType) (width : ℕ) (sign : Bool) : Exec.Lift (SameOutcome live)
      (m.guestLoad st ea t width sign) (m.guestLoad st' ea t width sign) := by
  have hv := h.1.memValue_eq m.host ea width
  simp only [Machine.guestLoad,Runtime.memRead,hv]
  refine Exec.lift_ofOption fun v => ⟨rfl,?_,fun x hx => ?_⟩
  · exact ⟨h.1.ram,h.1.ramSize,h.1.mem2,h.1.mem2Size,congrArg (List.cons _) h.1.history⟩
  · exact (st.readSlot_history _ x).trans ((h.2 x hx).trans (st'.readSlot_history _ x).symm)

theorem memWrite_sound (h : slots.Agree ({.reserveAddr,.reserveValid} ∪ (live \ {.reserveValid}))
    st st') (ea : BitVec 32) (value : BitVec 64) (width : ℕ) :
    slots.Agree live { st with cpu := Runtime.memWrite st.cpu ea value width }
      { st' with cpu := Runtime.memWrite st'.cpu ea value width } := by
  have ha : st.cpu.reserveAddr = st'.cpu.reserveAddr :=
    Value.i32.inj (h.2 .reserveAddr (.inl (.inl rfl)))
  have hv : st.cpu.reserveValid = st'.cpu.reserveValid :=
    Value.i1.inj (h.2 .reserveValid (.inl (.inr rfl)))
  have hon : (Runtime.memWrite st.cpu ea value width).onto st.cpu =
      (Runtime.memWrite st'.cpu ea value width).onto st.cpu := by
    rw [← memWrite_onto ea width st.cpu,← memWrite_onto ea width st'.cpu,h.1.onto_eq ha hv]
  refine ⟨⟨congrArg (·.ram) hon,congrArg (·.ramSize) hon,congrArg (·.mem2) hon,
    congrArg (·.mem2Size) hon,congrArg (·.history) hon⟩,fun x hx => ?_⟩
  change ({ st with cpu := _ } : IRState).readSlot x = ({ st' with cpu := _ } : IRState).readSlot x
  by_cases hxa : x = .reserveAddr
  · rw [hxa]
    exact congrArg (Value.i32 ·.reserveAddr) hon
  by_cases hxv : x = .reserveValid
  · rw [hxv]
    exact congrArg (Value.i1 ·.reserveValid) hon
  rw [memWrite_self ea width st.cpu,memWrite_self ea width st'.cpu,
    st.readSlot_onto _ hxa hxv,st'.readSlot_onto _ hxa hxv]
  exact h.2 x (.inr ⟨hx,hxv⟩)

theorem guestStore_sound (h : slots.Agree ({.reserveAddr,.reserveValid} ∪
    (live \ {.reserveValid})) st st') (ea : BitVec 32) (v : Value) (width : ℕ) :
    Exec.Lift (SameOutcome live) (Machine.guestStore st ea v width)
      (Machine.guestStore st' ea v width) :=
  Exec.lift_ofOption fun _ => ⟨rfl,memWrite_sound h ea _ width⟩

theorem fpscr_sound (h : slots.Agree ({.fpscr} ∪ (live \ {.fpscr})) st st')
    {c : CPUState → CPUState}
    (hc : ∃ g : BitVec 32 → BitVec 32, ∀ cpu, c cpu = { cpu with fpscr := g cpu.fpscr }) :
    slots.Agree live { st with cpu := c st.cpu } { st' with cpu := c st'.cpu } := by
  obtain ⟨g,hg⟩ := hc
  rw [hg,hg]
  have hf : st.cpu.fpscr = st'.cpu.fpscr := Value.i32.inj (h.2 .fpscr (.inl rfl))
  refine ⟨⟨h.1.ram,h.1.ramSize,h.1.mem2,h.1.mem2Size,h.1.history⟩,fun x hx => ?_⟩
  change ({ st with cpu := _ } : IRState).readSlot x = ({ st' with cpu := _ } : IRState).readSlot x
  by_cases hxf : x = .fpscr
  · rw [hxf]
    exact congrArg (fun w => Value.i32 (g w)) hf
  · rw [st.readSlot_setFpscr _ hxf,st'.readSlot_setFpscr _ hxf]
    exact h.2 x (.inr ⟨hx,hxf⟩)

theorem ppcMtfsb_fpscr (bit : BitVec 5) (set : Bool) :
    ∃ g : BitVec 32 → BitVec 32, ∀ cpu : CPUState,
    (if set then Runtime.ppcMtfsb1Op cpu bit else Runtime.ppcMtfsb0Op cpu bit) =
      { cpu with fpscr := g cpu.fpscr } := by
  cases set with
  | false =>
    exact ⟨fun w => Runtime.fpscrUpdated (w &&& ~~~(0x80000000#32 >>> bit.toNat)),fun cpu => by
      rw [if_neg Bool.false_ne_true]
      rfl⟩
  | true =>
    have hop (cpu : CPUState) : (if true = true then Runtime.ppcMtfsb1Op cpu bit
        else Runtime.ppcMtfsb0Op cpu bit) = Runtime.ppcFpscrControlUpdated
        (if (0x80000000#32 >>> bit.toNat) &&& Runtime.fpscrVxAny ≠ 0
          then Runtime.setFpException cpu (0x80000000#32 >>> bit.toNat)
          else { cpu with fpscr := cpu.fpscr ||| (0x80000000#32 >>> bit.toNat) }) := rfl
    by_cases hx : (0x80000000#32 >>> bit.toNat) &&& Runtime.fpscrVxAny ≠ 0
    · exact ⟨fun w => Runtime.fpscrUpdated (Runtime.fpscrUpdated
        ((if w &&& (0x80000000#32 >>> bit.toNat) ≠ (0x80000000#32 >>> bit.toNat)
          then w ||| 0x80000000#32 else w) ||| (0x80000000#32 >>> bit.toNat))),fun cpu => by
        rw [hop,if_pos hx]
        rfl⟩
    · exact ⟨fun w => Runtime.fpscrUpdated (w ||| (0x80000000#32 >>> bit.toNat)),fun cpu => by
        rw [hop,if_neg hx]
        rfl⟩

/-- An operation is recorded with all that it reads and changes: it is no helper call, or a call
without operands of a helper that looks at nothing else. -/
def Complete (i : DolIRInstruction) : Prop :=
  match i.op with
  | .helperCall helper =>
    helper ∈ [.fpAvailable,.fpscrUpdated,.fpscrBit,.memoryFence] ∧ i.operands = []
  | _ => True

instance (i : DolIRInstruction) : Decidable (Complete i) := by
  unfold Complete
  split <;> infer_instance

abbrev usesOf (i : DolIRInstruction) : Set DolIRStateSlot := (Effects.effects i.op i.immediate).1

abbrev defsOf (i : DolIRInstruction) : Set DolIRStateSlot := (Effects.effects i.op i.immediate).2

theorem sameMemory_takeException (cpu : CPUState) (cause vector cia srr1 : BitVec 32) :
    SameMemory (Runtime.ppcTakeException cpu cause vector cia srr1) cpu := ⟨rfl,rfl,rfl,rfl,rfl⟩

theorem callHelper_sound (m : Machine) {helper : DolIRHelper} (immediate : BitVec 64)
    (pc : BitVec 32) (hh : helper ∈ [.fpAvailable,.fpscrUpdated,.fpscrBit,.memoryFence])
    (h : slots.Agree ((Effects.helperEffects helper immediate).1 ∪
      (live \ (Effects.helperEffects helper immediate).2)) st st') :
    Exec.Lift (SameOutcome live) (m.callHelper st helper immediate pc [])
      (m.callHelper st' helper immediate pc []) := by
  simp only [List.mem_cons,List.not_mem_nil,or_false] at hh
  rcases hh with rfl | rfl | rfl | rfl
  · have hmsr : st.cpu.msr = st'.cpu.msr :=
      Value.i32.inj (h.2 .msr (.inl (by simp [Effects.helperEffects])))
    have ha : slots.Agree live st st' := h.mono fun x hx => by
      by_cases he : x = .exception
      · exact .inl (by simp [Effects.helperEffects,he])
      · exact .inr ⟨hx,by simpa [Effects.helperEffects] using he⟩
    have hcall (s : IRState) : m.callHelper s .fpAvailable immediate pc [] =
        (if (Runtime.ppcFpAvailable (s.materialize pc) pc).1 then .next (some (.i1 true),s)
        else .exit (Runtime.ppcFpAvailable (s.materialize pc) pc).2) := rfl
    have hcheck (s : IRState) : Runtime.ppcFpAvailable (s.materialize pc) pc =
        if s.cpu.msr &&& Runtime.ppcMsrFp ≠ 0 then (true,s.materialize pc)
        else (false,Runtime.ppcTakeException (s.materialize pc) Runtime.ppcExcFpUnavailable
          Runtime.ppcVectorFpUnavailable pc 0) := rfl
    rw [hcall,hcall,hcheck,hcheck,hmsr]
    by_cases hm : st'.cpu.msr &&& Runtime.ppcMsrFp ≠ 0
    · rw [if_pos hm,if_pos hm]
      exact ⟨rfl,ha⟩
    · rw [if_neg hm,if_neg hm]
      have hs : SameMemory (st.materialize pc) (st'.materialize pc) :=
        ⟨h.1.ram,h.1.ramSize,h.1.mem2,h.1.mem2Size,h.1.history⟩
      exact (sameMemory_takeException _ _ _ _ _).trans
        (hs.trans (sameMemory_takeException _ _ _ _ _).symm)
  · have hcall (s : IRState) : m.callHelper s .fpscrUpdated immediate pc [] =
        .next (none,{ s with cpu := Runtime.ppcFpscrControlUpdated s.cpu }) := rfl
    rw [hcall,hcall]
    exact ⟨rfl,fpscr_sound (h.mono (by simp [Effects.helperEffects])) ⟨_,fun _ => rfl⟩⟩
  · have hcall (s : IRState) : m.callHelper s .fpscrBit immediate pc [] =
        .next (none,{ s with cpu := if immediate.getLsbD 8
          then Runtime.ppcMtfsb1Op s.cpu (immediate.truncate 5)
          else Runtime.ppcMtfsb0Op s.cpu (immediate.truncate 5) }) := rfl
    rw [hcall,hcall]
    exact ⟨rfl,fpscr_sound (h.mono (by simp [Effects.helperEffects])) (ppcMtfsb_fpscr _ _)⟩
  · have hcall (s : IRState) : m.callHelper s .memoryFence immediate pc [] =
        .next (none,s) := rfl
    rw [hcall,hcall]
    exact ⟨rfl,h.mono (by simp [Effects.helperEffects])⟩

theorem evalUnary_store (op : DolIROp) (t : DolIRType) (a : Value)
    (h : (∃ slot, op = .stateWrite slot) ∨ ∃ width, op = .guestStore width) :
    evalUnary op t a = none := by
  obtain ⟨slot,rfl⟩ | ⟨width,rfl⟩ := h <;> cases a <;> rfl

theorem evalBinary_store (op : DolIROp) (t : DolIRType) (a b : Value)
    (h : (∃ slot, op = .stateWrite slot) ∨ ∃ width, op = .guestStore width) :
    evalBinary op t a b = none := by
  obtain ⟨slot,rfl⟩ | ⟨width,rfl⟩ := h <;> cases a <;> cases b <;> cases t <;> rfl

theorem execOp_sound (m : Machine) (i : DolIRInstruction) (hc : Complete i) {args : List Value}
    (hargs : i.operands = [] → args = [])
    (h : slots.Agree (usesOf i ∪ (live \ defsOf i)) st st') :
    Exec.Lift (SameOutcome live) (m.execOp st i args) (m.execOp st' i args) := by
  have hpure (ha : slots.Agree live st st') (o : Option Value) : Exec.Lift (SameOutcome live)
      (Exec.ofOption o >>= fun v => .next (some v,st))
      (Exec.ofOption o >>= fun v => .next (some v,st')) := Exec.lift_ofOption fun _ => ⟨rfl,ha⟩
  have hkeep (hd : Effects.effects i.op i.immediate = (∅,∅)) : slots.Agree live st st' :=
    h.mono (by simp [usesOf,defsOf,hd])
  unfold Machine.execOp
  cases hop : i.op
  case helperCall helper =>
    simp only [Complete,hop] at hc
    rw [hargs hc.2]
    refine callHelper_sound m i.immediate i.guestPc hc.1 (h.mono ?_)
    simp [usesOf,defsOf,hop,Effects.effects]
  case stateWrite slot =>
    have hw : slots.Agree (live \ {slot}) st st' :=
      h.mono (by simp [usesOf,defsOf,hop,Effects.effects])
    rcases args with _ | ⟨v,_ | ⟨b,_ | ⟨c,args⟩⟩⟩
    · trivial
    · exact stateWrite_sound hw v
    · simp only [evalBinary_store _ _ _ _ (.inl ⟨slot,rfl⟩)]
      trivial
    · trivial
  case guestStore width =>
    have hw : slots.Agree ({.reserveAddr,.reserveValid} ∪ (live \ {.reserveValid})) st st' :=
      h.mono (by simp [usesOf,defsOf,hop,Effects.effects])
    rcases args with _ | ⟨a,_ | ⟨v,_ | ⟨c,args⟩⟩⟩
    · trivial
    · simp only [evalUnary_store _ _ _ (.inr ⟨width,rfl⟩)]
      trivial
    · cases a
      case i32 ea => exact guestStore_sound hw ea v width
      all_goals
        simp only [evalBinary_store _ _ _ _ (.inr ⟨width,rfl⟩)]
        trivial
    · cases a <;> trivial
  case stateRead slot =>
    have hslot : st.readSlot slot = st'.readSlot slot :=
      h.2 slot (.inl (by simp [usesOf,hop,Effects.effects]))
    have ha : slots.Agree live st st' := h.mono (by simp [usesOf,defsOf,hop,Effects.effects])
    rcases args with _ | ⟨v,_ | ⟨b,_ | ⟨c,args⟩⟩⟩
    · exact ⟨congrArg some hslot,ha⟩
    · exact hpure ha _
    · exact hpure ha _
    · trivial
  case guestLoad width sign =>
    have ha := hkeep (by rw [hop]; rfl)
    rcases args with _ | ⟨a,_ | ⟨v,_ | ⟨c,args⟩⟩⟩
    · trivial
    · cases a
      case i32 ea => exact guestLoad_sound m ha ea i.type width sign
      all_goals exact hpure ha _
    · cases a <;> exact hpure ha _
    · cases a <;> trivial
  -- what is left does not touch the state
  all_goals
    have ha := hkeep (by rw [hop]; rfl)
    rcases args with _ | ⟨a,_ | ⟨b,_ | ⟨c,_ | ⟨d,args⟩⟩⟩⟩ <;> first
      | trivial
      | exact hpure ha _

end

theorem args_of_nil {env : DolIRValue → Option Value} {ids : List DolIRValue} {args : List Value}
    (h : Machine.operands env ids = some args) (hids : ids = []) : args = [] := by
  subst hids
  exact (Option.some.inj h).symm

/-- An instruction reads the recorded uses and the values of its operands. -/
theorem execInstruction_sound (m : Machine) (i : DolIRInstruction) (hc : Complete i) :
    frameSlots.Sound Exec.lifting (usesOf i) (defsOf i) (m.execInstruction i) := by
  intro live f g h
  obtain ⟨st,env⟩ := f
  obtain ⟨st',env'⟩ := g
  obtain ⟨⟨hsame,henv⟩,hread⟩ := h
  obtain rfl : env = env' := henv
  change Exec.Lift (frameSlots.Agree live) _ _
  unfold Machine.execInstruction
  rcases ho : Machine.operands env i.operands with _ | args
  · trivial
  simp only [Exec.ofOption_some,Exec.next_bind]
  refine Exec.Lift.bind (execOp_sound m i hc (args_of_nil ho) ⟨hsame,hread⟩) ?_
  rintro ⟨v,s⟩ ⟨v',s'⟩ ⟨hv,ha⟩
  obtain rfl : v = v' := hv
  unfold Machine.Frame.define
  by_cases hr : i.result = dolirNoValue
  · simp only [hr,if_true]
    exact ⟨⟨ha.1,rfl⟩,ha.2⟩
  · simp only [hr,if_false]
    cases v with
    | none => trivial
    | some v => exact ⟨⟨ha.1,rfl⟩,ha.2⟩

end DolRecomp
