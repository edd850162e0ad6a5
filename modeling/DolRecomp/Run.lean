import DolRecomp.Builder
import DolRecomp.Semantics

/-!
# Running what a builder appends

`Builder.run` builds from the next free value number and executes the appended
instructions at once; each primitive of the builder has one equation, so a
lowering function is executed by rewriting.
-/

namespace DolRecomp

/-- Rewriting executes the first part before it looks at what follows. -/
@[congr] theorem Exec.bind_congr_left {α β : Type} {x x' : Exec α} {f : α → Exec β}
    (h : x = x') : (x >>= f) = (x' >>= f) := by rw [h]

/-- A point of execution together with the next free value number. -/
structure Point where
  next : DolIRValue
  pos : next ≠ dolirNoValue
  st : IRState
  env : DolIRValue → Option Value

namespace Point

theorem succ_ne (n : DolIRValue) : n + 1 ≠ dolirNoValue := Nat.succ_ne_zero n

def push (s : Point) (v : Value) : Point :=
  ⟨s.next + 1, succ_ne s.next, s.st, Function.update s.env s.next (some v)⟩

def withSt (s : Point) (st : IRState) : Point := ⟨s.next, s.pos, st, s.env⟩

/-- Later point with `used` more numbers and the state and values of a frame. -/
def resume (s : Point) (used : Nat) (f : Machine.Frame) : Point :=
  ⟨s.next + used, fun h => s.pos (Nat.eq_zero_of_add_eq_zero_right h), f.st, f.env⟩

variable (s : Point) (v : Value) (st st' : IRState) (id : DolIRValue)

@[simp] theorem push_next : (s.push v).next = s.next + 1 := rfl

@[simp] theorem push_st : (s.push v).st = s.st := rfl

@[simp] theorem push_env : (s.push v).env id = if id = s.next then some v else s.env id := by
  simp only [push,Function.update_apply]

@[simp] theorem withSt_next : (s.withSt st).next = s.next := rfl

@[simp] theorem withSt_st : (s.withSt st).st = st := rfl

@[simp] theorem withSt_env : (s.withSt st).env id = s.env id := rfl

/-- Value numbers are written as a distance from one point. -/
@[simp] theorem next_add_add (a b : Nat) : s.next + a + b = s.next + (a + b) :=
  Nat.add_assoc _ _ _

@[simp] theorem push_withSt_self : (s.push v).withSt s.st = s.push v := rfl

@[simp] theorem withSt_withSt : (s.withSt st).withSt st' = s.withSt st' := rfl

@[simp] theorem resume_next (used : Nat) (f : Machine.Frame) :
    (s.resume used f).next = s.next + used := rfl

/-- Executing from an explicit point keeps it explicit. -/
@[simp] theorem mk_push (n : DolIRValue) (p : n ≠ dolirNoValue) (env : DolIRValue → Option Value) :
    push ⟨n,p,st,env⟩ v = ⟨n + 1, succ_ne n, st, Function.update env n (some v)⟩ := by rfl

@[simp] theorem mk_withSt (n : DolIRValue) (p : n ≠ dolirNoValue)
    (env : DolIRValue → Option Value) : withSt ⟨n,p,st,env⟩ st' = ⟨n,p,st',env⟩ := by rfl

theorem resume_resume (used used' : Nat) (f g : Machine.Frame) :
    (s.resume used f).resume used' g = s.resume (used + used') g := by
  simp only [resume,Nat.add_assoc]

end Point

namespace Builder

variable {α β : Type} (m : Machine) (i : PPCInst) (s : Point)

def run (b : Builder α) (i : PPCInst) (s : Point) : Exec (α × Point) :=
  m.execInstructions (b i s.next).2.2 ⟨s.st,s.env⟩ >>= fun f =>
    .next ((b i s.next).1, s.resume (b i s.next).2.1 f)

@[simp] theorem run_pure (a : α) : run m (pure a) i s = .next (a, s) := rfl

@[simp] theorem run_bind (b : Builder α) (f : α → Builder β) :
    run m (b >>= f) i s = run m b i s >>= fun x => run m (f x.1) i x.2 := by
  show run m (Builder.bind b f) i s = _
  simp only [run,Builder.bind,Machine.execInstructions_append,bind_assoc,Exec.next_bind,
    Point.resume_resume]
  rfl

@[simp] theorem run_bind' (b : Builder α) (f : α → Builder β) :
    run m (Builder.bind b f) i s = run m b i s >>= fun x => run m (f x.1) i x.2 :=
  run_bind m i s b f

theorem run_forM_cons (x : β) (xs : List β) (f : β → Builder PUnit) :
    run m ((x :: xs).forM f) i s = run m (f x) i s >>= fun r => run m (xs.forM f) i r.2 :=
  run_bind m i s (f x) fun _ => xs.forM f

def built (op : DolIROp) (t : DolIRType) (imm : BitVec 64) (i : PPCInst) : DolIRInstruction :=
  { op, type := t, immediate := imm, guestPc := i.address }

@[simp] theorem run_inst : run m inst i s = .next (i, s) := rfl

theorem run_value (op : DolIROp) (t : DolIRType) (ops : List DolIRValue) (imm : BitVec 64)
    (ht : t ≠ .void) :
    run m (dolirAppend op t ops imm) i s =
      Exec.ofOption (Machine.operands s.env ops) >>= fun args =>
        m.execOp s.st (built op t imm i) args >>= fun x =>
          Exec.ofOption x.1 >>= fun v => .next (s.next, (s.push v).withSt x.2) := by
  simp only [run,dolirAppend,ht,if_false,Machine.execInstructions,Machine.execInstruction,
    dolirPopulateEffects,bind_assoc]
  congr 1
  funext args
  change (m.execOp s.st (built op t imm i) args >>= _) = _
  congr 1
  funext x
  rcases x with ⟨v,st⟩
  cases v <;> simp [Machine.Frame.define,s.pos,Point.push,Point.withSt,Point.resume]

theorem run_void (op : DolIROp) (ops : List DolIRValue) (imm : BitVec 64) :
    run m (dolirAppend op .void ops imm) i s =
      Exec.ofOption (Machine.operands s.env ops) >>= fun args =>
        m.execOp s.st (built op .void imm i) args >>= fun x => .next (0, s.withSt x.2) := by
  simp only [run,dolirAppend,if_true,Machine.execInstructions,Machine.execInstruction,
    dolirPopulateEffects,bind_assoc]
  congr 1

/-- Rewriting runs a computation before it looks at what follows. -/
@[congr] theorem bind_congr_left {b b' : Builder α} {f : α → Builder β} (h : b = b') :
    (b >>= f) = (b' >>= f) := by rw [h]

@[simp] theorem operands_nil (env : DolIRValue → Option Value) :
    Machine.operands env [] = some [] := rfl

@[simp] theorem operands_cons (env : DolIRValue → Option Value) (a : DolIRValue)
    (as : List DolIRValue) :
    Machine.operands env (a :: as) =
      (env a).bind fun v => (Machine.operands env as).bind fun vs => some (v :: vs) := by
  simp [Machine.operands]

/-- Operators on one or two values, without an effect on the slots. -/
abbrev isPure (op : DolIROp) : Bool :=
  match op with
  | .stateRead _ | .stateWrite _ | .guestLoad .. | .guestStore _ | .helperCall _ | .select
  | .constant => false
  | _ => true

theorem execOp_unary {op : DolIROp} (h : isPure op) (t : DolIRType) (imm : BitVec 64)
    (st : IRState) (a : Value) :
    m.execOp st (built op t imm i) [a] =
      Exec.ofOption (evalUnary op t a) >>= fun v => .next (some v, st) := by
  cases op <;> first | rfl | cases h

theorem execOp_binary {op : DolIROp} (h : isPure op) (t : DolIRType) (imm : BitVec 64)
    (st : IRState) (a b : Value) :
    m.execOp st (built op t imm i) [a,b] =
      Exec.ofOption (evalBinary op t a b) >>= fun v => .next (some v, st) := by
  cases op <;> first | rfl | cases h

theorem execOp_constant (t : DolIRType) (imm : BitVec 64) (st : IRState) :
    m.execOp st (built .constant t imm i) [] =
      Exec.ofOption (Value.ofBits t imm) >>= fun v => .next (some v, st) := rfl

theorem execOp_stateRead (slot : DolIRStateSlot) (t : DolIRType) (imm : BitVec 64)
    (st : IRState) :
    m.execOp st (built (.stateRead slot) t imm i) [] = .next (some (st.readSlot slot), st) := rfl

theorem execOp_stateWrite (slot : DolIRStateSlot) (t : DolIRType) (imm : BitVec 64)
    (st : IRState) (v : Value) :
    m.execOp st (built (.stateWrite slot) t imm i) [v] =
      Exec.ofOption (st.writeSlot slot v) >>= fun st => .next (none, st) := rfl

theorem execOp_select (t : DolIRType) (imm : BitVec 64) (st : IRState) (c a b : Value) :
    m.execOp st (built .select t imm i) [c,a,b] =
      Exec.ofOption (evalSelect c a b) >>= fun v => .next (some v, st) := rfl

@[simp] theorem run_c32 (v : BitVec 32) :
    run m (c32 v) i s = .next (s.next, s.push (.i32 v)) := by
  rw [c32,run_value _ _ _ _ _ _ _ (by decide)]
  simp [execOp_constant,Value.ofBits]

@[simp] theorem run_c64 (v : BitVec 64) :
    run m (c64 v) i s = .next (s.next, s.push (.i64 v)) := by
  rw [c64,run_value _ _ _ _ _ _ _ (by decide)]
  simp [execOp_constant,Value.ofBits]

@[simp] theorem run_c1 (v : Bool) :
    run m (c1 v) i s = .next (s.next, s.push (.i1 v)) := by
  rw [c1,run_value _ _ _ _ _ _ _ (by decide)]
  simp [execOp_constant,Value.ofBits]

@[simp] theorem run_readSlot (slot : DolIRStateSlot) :
    run m (readSlot slot) i s = .next (s.next, s.push (s.st.readSlot slot)) := by
  rw [readSlot,run_value _ _ _ _ _ _ _ (by cases slot <;> simp [dolirStateType])]
  simp [execOp_stateRead]

@[simp] theorem run_writeSlot (slot : DolIRStateSlot) (value : DolIRValue) :
    run m (writeSlot slot value) i s =
      Exec.ofOption ((s.env value).bind (s.st.writeSlot slot)) >>= fun st =>
        .next ((), s.withSt st) := by
  rw [writeSlot,run_bind',run_void,operands_cons,operands_nil]
  cases s.env value with
  | none => simp
  | some v => cases h : s.st.writeSlot slot v <;> simp [execOp_stateWrite,h]

@[simp] theorem run_unary {op : DolIROp} (h : isPure op) {t : DolIRType} (ht : t ≠ .void)
    (a : DolIRValue) :
    run m (unary op t a) i s =
      Exec.ofOption ((s.env a).bind (evalUnary op t)) >>= fun v => .next (s.next, s.push v) := by
  rw [unary,run_value _ _ _ _ _ _ _ ht,operands_cons,operands_nil]
  cases s.env a with
  | none => simp
  | some v => cases hv : evalUnary op t v <;> simp [execOp_unary m i h,hv]

@[simp] theorem run_binary {op : DolIROp} (h : isPure op) {t : DolIRType} (ht : t ≠ .void)
    (a b : DolIRValue) :
    run m (binary op t a b) i s =
      Exec.ofOption ((s.env a).bind fun x => (s.env b).bind (evalBinary op t x)) >>= fun v =>
        .next (s.next, s.push v) := by
  simp only [binary,run_value _ _ _ _ _ _ _ ht,operands_cons,operands_nil]
  cases s.env a with
  | none => simp
  | some x =>
    cases s.env b with
    | none => simp
    | some y => cases hv : evalBinary op t x y <;> simp [execOp_binary m i h,hv]

@[simp] theorem run_select {t : DolIRType} (ht : t ≠ .void)
    (c a b : DolIRValue) :
    run m (selectValue t c a b) i s =
      Exec.ofOption ((s.env c).bind fun x => (s.env a).bind fun y => (s.env b).bind fun z =>
        evalSelect x y z) >>= fun v => .next (s.next, s.push v) := by
  simp only [selectValue,run_value _ _ _ _ _ _ _ ht,operands_cons,operands_nil]
  cases s.env c with
  | none => simp
  | some x =>
    cases s.env a with
    | none => simp
    | some y =>
      cases s.env b with
      | none => simp
      | some z => cases hv : evalSelect x y z <;> simp [execOp_select,hv]

attribute [simp] gpr setGpr fpr ps1 setFpr setPs1 truncValue zextValue sextValue Builder.setXerCa
  Builder.xerCa

/-- The answer and the slots after a run; the values are forgotten. -/
def effect (b : Builder α) (i : PPCInst) (s : Point) : Exec (α × IRState) :=
  run m b i s >>= fun x => .next (x.1, x.2.st)

@[simp] theorem effect_pure (a : α) : effect m (pure a) i s = .next (a, s.st) := rfl

@[simp] theorem effect_bind (b : Builder α) (f : α → Builder β) :
    effect m (b >>= f) i s = run m b i s >>= fun x => effect m (f x.1) i x.2 := by
  simp only [effect,run_bind,bind_assoc]

theorem run_of_effect {b : Builder α} {a : α} {st : IRState}
    (h : effect m b i s = .next (a, st)) : ∃ s', run m b i s = .next (a, s') ∧ s'.st = st := by
  rw [effect] at h
  rcases hr : run m b i s with ⟨x,s'⟩ | cpu | _
  · rw [hr] at h
    cases h
    exact ⟨s',rfl,rfl⟩
  · rw [hr] at h
    cases h
  · rw [hr] at h
    cases h

/-- The value a run answers with, which is no later value, and the slots. -/
def value (b : Builder DolIRValue) (i : PPCInst) (s : Point) : Exec (Option Value × IRState) :=
  run m b i s >>= fun x => .next (if x.1 < x.2.next then x.2.env x.1 else none, x.2.st)

theorem run_of_value {b : Builder DolIRValue} {v : Value} {st : IRState}
    (h : value m b i s = .next (some v, st)) :
    ∃ id s', run m b i s = .next (id, s') ∧ id < s'.next ∧ s'.env id = some v ∧ s'.st = st := by
  rw [value] at h
  rcases hr : run m b i s with ⟨id,s'⟩ | cpu | _
  · rw [hr,Exec.next_bind] at h
    simp only [Exec.next.injEq,Prod.mk.injEq] at h
    by_cases hlt : id < s'.next
    · rw [if_pos hlt] at h
      exact ⟨id,s',rfl,hlt,h⟩
    · rw [if_neg hlt] at h
      cases h.1
  · rw [hr] at h
    cases h
  · rw [hr] at h
    cases h

@[simp ↓] theorem effect_last (b : Builder Unit) (a : α) :
    effect m (b >>= fun _ => pure a) i s = effect m b i s >>= fun x => .next (a, x.2) := by
  simp only [effect,run_bind,run_pure,bind_assoc,Exec.next_bind]

@[simp] theorem effect_writeSlot (slot : DolIRStateSlot) (value : DolIRValue) :
    effect m (writeSlot slot value) i s =
      Exec.ofOption ((s.env value).bind (s.st.writeSlot slot)) >>= fun st => .next ((), st) := by
  simp only [effect,run_writeSlot,bind_assoc]
  rfl

@[simp] theorem effect_setCr0 (v : DolIRValue) (hv : v < s.next) :
    effect m (setCr0 v) i s =
      Exec.ofOption ((s.env v).bind Value.asI32) >>= fun x => .next ((), s.st.recordCr0 x) := by
  have h0 : v ≠ s.next := Nat.ne_of_lt hv
  have hk (k : Nat) : v ≠ s.next + k := Nat.ne_of_lt (Nat.lt_add_right k hv)
  rcases h : s.env v with _ | w
  · simp [setCr0,setCrField,h,h0]
  · rcases hw : w.asI32 with _ | x
    · have hn : evalBinary .icmpSlt .i1 w (.i32 0#32) = none := by
        cases w <;> first | rfl | cases hw
      simp [setCr0,setCrField,h,h0,hn,hw]
    · rw [Value.asI32_eq_some] at hw
      subst hw
      show _ = Exec.next ((), s.st.recordCr0 x)
      rw [IRState.recordCr0,← IRState.fieldBits_nibble]
      simp [setCr0,setCrField,writeCrField,zextValue,h,h0,hk,IRState.fieldBits,
        -IRState.fieldBits_nibble]

theorem effect_recordIfNeeded (v : DolIRValue) (hv : v < s.next) {x : BitVec 32}
    (hx : s.env v = some (.i32 x)) :
    effect m (recordIfNeeded v) i s = .next ((), s.st.recordIf i.rc x) := by
  cases h : i.rc <;> simp [recordIfNeeded,IRState.recordIf,h,hv,hx]

/-- A comparison of two words writes the four bits of its field. -/
@[simp] theorem effect_setCrField (f : BitVec 3) (l r : DolIRValue) (isSigned : Bool)
    (hl : l < s.next) (hr : r < s.next) {a b : BitVec 32} (ha : s.env l = some (.i32 a))
    (hb : s.env r = some (.i32 b)) :
    effect m (setCrField f l r isSigned) i s =
      .next ((), s.st.setCrField f (IRState.fieldBits (if isSigned then a.slt b else a.ult b)
        (if isSigned then b.slt a else b.ult a) (a == b) s.st.xerSo)) := by
  have hl0 : l ≠ s.next := Nat.ne_of_lt hl
  have hr0 : r ≠ s.next := Nat.ne_of_lt hr
  have hlk (k : Nat) : l ≠ s.next + k := Nat.ne_of_lt (Nat.lt_add_right k hl)
  have hrk (k : Nat) : r ≠ s.next + k := Nat.ne_of_lt (Nat.lt_add_right k hr)
  rw [← IRState.fieldBits_nibble]
  cases isSigned <;> simp [setCrField,writeCrField,ha,hb,hl0,hr0,hlk,hrk,IRState.fieldBits,
    -IRState.fieldBits_nibble]

/-- A run for its effect, with the slots committed. -/
def commits (b : Builder α) (i : PPCInst) (s : Point) : Exec (α × CPUState) :=
  effect m b i s >>= fun x => .next (x.1, x.2.commit)

theorem effect_recordWhen (record : Bool) (v : DolIRValue) (hv : v < s.next) {x : BitVec 32}
    (hx : s.env v = some (.i32 x)) :
    effect m (if record then setCr0 v else pure ()) i s = .next ((), s.st.recordIf record x) := by
  cases record <;> simp [IRState.recordIf,hv,hx]

/-- The sum, its carry and its record of a 64-bit addition. -/
@[simp] theorem effect_writeCarryResult (reg : BitVec 5) (wide : DolIRValue) (record : Bool)
    (hw : wide < s.next) : effect m (writeCarryResult reg wide record) i s =
      Exec.ofOption ((s.env wide).bind Value.asI64) >>= fun w => .next ((),
        ((s.st.setGpr reg (w.setWidth 32)).setCa (w.getLsbD 32)).recordIf record
          (w.setWidth 32)) := by
  have h0 : wide ≠ s.next := Nat.ne_of_lt hw
  have hk (k : Nat) : wide ≠ s.next + k := Nat.ne_of_lt (Nat.lt_add_right k hw)
  rcases h : s.env wide with _ | w
  · simp [writeCarryResult,truncValue,h]
  · rcases hw64 : w.asI64 with _ | x
    · have hn : evalBinary .lshr .i64 w (.i64 32#64) = none := by
        cases w <;> first | rfl | cases hw64
      rcases ht : w.toInt with _ | t
      · simp [writeCarryResult,truncValue,h,ht,hw64]
      · simp [writeCarryResult,truncValue,carryOut,h,h0,hk,ht,hn,hw64]
    · rw [Value.asI64_eq_some] at hw64
      subst hw64
      simp [writeCarryResult,truncValue,carryOut,setGpr,setXerCa,h,h0,hk,
        intOp_lshr,effect_recordWhen]

end Builder

end DolRecomp
