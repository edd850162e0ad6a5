import DolRecomp.Block
import DolRecomp.CallsiteStates
import DolRecomp.EffectSoundness

/-!
# Dead slots

Runs through the blocks of a function on the slots themselves: what the analysis of
call sites does not count as live cannot be told from outside. Two runs that agree on
memory and on the live slots pass the same blocks, make the same accesses and are
left at the same place, with agreement on what is live there.
-/

namespace DolRecomp

namespace DeadSlots

open AbiLiveness CallsiteStates

/-- How the blocks are left: for a guest address, or for the runtime, which handles the
instruction on the whole state. -/
inductive Left
  | target (pc : BitVec 32)
  | runtime (kind : DolIRTerminatorKind)
  deriving DecidableEq

variable (f : DolIRFunction)

/-- The block of a target, or its address where no block of the function is named. -/
def place (target : Option ℕ) (address : BitVec 32) : BlockIndex f ⊕ Left :=
  match target.bind (blockOf f) with
  | some b => .inl b
  | none => .inr (.target address)

/-- Where a terminator goes. The dispatch behind a taken indirect branch begins a new run. -/
def follow (t : DolIRTerminator) (env : DolIRValue → Option Value) :
    Exec (BlockIndex f ⊕ Left) :=
  match t.kind with
  | .fallthrough | .branch => .next (place f t.target0 t.targetAddress0)
  | .condBranch => do
    let taken ← Machine.truth env t.condition
    .next (if taken then place f t.target0 t.targetAddress0
      else place f t.target1 t.targetAddress1)
  | .indirect => do
    if ← Machine.truth env t.condition then
      let target ← Machine.word env t.targetValue
      .next (.inr (.target target))
    else .next (place f t.target1 t.targetAddress1)
  | .fallback | .systemCall | .rfi => .next (.inr (.runtime t.kind))
  | .none | .return | .sideExit => .stuck

variable (m : Machine)

/-- Run a block on the slots. -/
def pass (b : BlockIndex f) (st : IRState) : Exec ((BlockIndex f ⊕ Left) × IRState) :=
  m.execInstructions (f.blocks.get b).instructions ⟨st,fun _ => none⟩ >>= fun frame =>
    follow f (terminator f b) frame.env >>= fun place => .next (place,frame.st)

abbrev runBlocks (k : ℕ) (b : BlockIndex f) (st : IRState) :
    Exec ((BlockIndex f ⊕ BlockIndex f × Left) × IRState) :=
  Liveness.run (pass f m) k b st

/-- The slots that the analysis finds live at a place. -/
def liveAt (functionOutputs : StateMask) : BlockIndex f ⊕ BlockIndex f × Left → StateMask
  | .inl b => (live f functionOutputs b).1
  | .inr (b,_) => (live f functionOutputs b).2

def Populated (i : DolIRInstruction) : Prop := dolirPopulateEffects i = i

instance (i : DolIRInstruction) : Decidable (Populated i) := inferInstanceAs (Decidable (_ = _))

theorem exposed_written (is : List DolIRInstruction) (written : StateMask) :
    exposed is written = exposed is ∅ \ written := by
  induction is generalizing written with
  | nil => simp [exposed]
  | cons i is ih =>
    rw [exposed,exposed,ih,ih (∅ ∪ i.stateDefs)]
    ext slot
    simp only [Finset.mem_union,Finset.mem_sdiff,Finset.notMem_empty,not_false_eq_true]
    tauto

theorem execInstructions_sound (is : List DolIRInstruction)
    (h : ∀ i ∈ is, Populated i ∧ Complete i) : frameSlots.Sound Exec.lifting
      (exposed is ∅ : StateMask) (union is (·.stateDefs) : StateMask) (m.execInstructions is) := by
  induction is with
  | nil =>
    intro live s t ha
    refine Liveness.View.sound_pure live s t (ha.mono ?_)
    simp [exposed,union]
  | cons i is ih =>
    obtain ⟨hp,hc⟩ := h i List.mem_cons_self
    have huses : (Effects.effects i.op i.immediate).1 = i.stateUses := congrArg (·.stateUses) hp
    have hdefs : (Effects.effects i.op i.immediate).2 = i.stateDefs := congrArg (·.stateDefs) hp
    have hseq := (execInstruction_sound m i hc).bind
      (ih fun j hj => h j (List.mem_cons_of_mem _ hj))
    rw [usesOf,defsOf,huses,hdefs,← Finset.coe_sdiff,← Finset.coe_union,← Finset.coe_union] at hseq
    have hexposed : exposed (i :: is) ∅ = i.stateUses ∪ (exposed is ∅ \ i.stateDefs) := by
      rw [exposed,exposed_written is (∅ ∪ i.stateDefs),Finset.sdiff_empty,Finset.empty_union]
    rw [hexposed]
    exact hseq

variable {f}

theorem mem_successors_of_target {b b' : BlockIndex f} {target : ℕ}
    (ht : target ∈ targets (terminator f b)) (hb : blockOf f target = some b') :
    b' ∈ successors f b := by
  have hd : b' ∈ (targets (terminator f b)).filterMap (blockOf f) :=
    List.mem_filterMap.mpr ⟨target,ht,hb⟩
  unfold successors
  split
  · simp only
    split
    · exact hd
    · exact List.mem_append_left _ hd
  · exact hd

theorem place_eq {target : Option ℕ} {address : BitVec 32} {b : BlockIndex f}
    (h : place f target address = .inl b) : ∃ n ∈ target, blockOf f n = some b := by
  unfold place at h
  split at h
  next hb =>
    obtain rfl := Sum.inl.inj h
    exact Option.bind_eq_some_iff.mp hb
  next => cases h

/-- The analysis follows a run from block to block. -/
theorem follow_successor {b : BlockIndex f} {env : DolIRValue → Option Value}
    {o : BlockIndex f ⊕ Left} (h : follow f (terminator f b) env = .next o) {b' : BlockIndex f}
    (ho : o = .inl b') : b' ∈ successors f b := by
  subst ho
  have hplace {target : Option ℕ} {address : BitVec 32} (hp : place f target address = .inl b')
      (ht : ∀ n ∈ target, n ∈ targets (terminator f b)) : b' ∈ successors f b := by
    obtain ⟨n,hn,hb⟩ := place_eq hp
    exact mem_successors_of_target (ht n hn) hb
  cases hk : (terminator f b).kind <;> simp only [follow,hk] at h
  case fallthrough | branch =>
    exact hplace (Exec.next.inj h) fun n hn => by simpa [targets,hk] using hn
  case condBranch =>
    rcases ht : Machine.truth env (terminator f b).condition with taken | cpu | _ <;>
      simp only [ht,Exec.next_bind,Exec.exit_bind,Exec.stuck_bind] at h
    case next =>
      cases taken
      · exact hplace (Exec.next.inj h) fun n hn => by simpa [targets,hk] using .inr hn
      · exact hplace (Exec.next.inj h) fun n hn => by simpa [targets,hk] using .inl hn
    all_goals cases h
  case indirect =>
    rcases ht : Machine.truth env (terminator f b).condition with taken | cpu | _ <;>
      simp only [ht,Exec.next_bind,Exec.exit_bind,Exec.stuck_bind] at h
    case next =>
      cases taken
      · exact hplace (Exec.next.inj h) fun n hn => by simpa [targets,hk] using .inr hn
      · rcases hw : Machine.word env (terminator f b).targetValue with target | cpu | _ <;>
          simp [hw] at h
    all_goals cases h
  case none | «return» | sideExit => cases h
  all_goals cases Exec.next.inj h

theorem place_target {target : Option ℕ} {address pc : BitVec 32}
    (h : place f target address = .inr (.target pc)) : address = pc := by
  unfold place at h
  split at h
  next => cases h
  next => exact Left.target.inj (Sum.inr.inj h)

theorem follow_execTerminator {t : DolIRTerminator} {frame : Machine.Frame}
    {o : BlockIndex f ⊕ Left} (h : follow f t frame.env = .next o)
    (hr : ∀ kind, o ≠ .inr (.runtime kind)) :
    ∃ pc, m.execTerminator t frame = .next (frame.st.materialize pc) ∧
      ∀ pc', o = .inr (.target pc') → pc = pc' := by
  cases hk : t.kind <;> simp only [follow,hk] at h <;> simp only [Machine.execTerminator,hk]
  case fallthrough | branch =>
    obtain rfl := Exec.next.inj h
    exact ⟨_,rfl,fun _ => place_target⟩
  case condBranch =>
    rcases ht : Machine.truth frame.env t.condition with taken | cpu | _ <;>
      simp only [ht,Exec.next_bind,Exec.exit_bind,Exec.stuck_bind] at h
    case next =>
      obtain rfl := Exec.next.inj h
      refine ⟨_,rfl,fun pc' hp => ?_⟩
      cases taken
      · exact place_target hp
      · exact place_target hp
    all_goals cases h
  case indirect =>
    rcases ht : Machine.truth frame.env t.condition with taken | cpu | _ <;>
      simp only [ht,Exec.next_bind,Exec.exit_bind,Exec.stuck_bind] at h
    case next =>
      cases taken
      · obtain rfl := Exec.next.inj h
        exact ⟨_,rfl,fun _ => place_target⟩
      · rcases hw : Machine.word frame.env t.targetValue with target | cpu | _ <;>
          simp only [hw,if_true,Exec.next_bind,Exec.exit_bind,Exec.stuck_bind] at h
        case next =>
          obtain rfl := Exec.next.inj h
          refine ⟨target,?_,fun pc' hp => Left.target.inj (Sum.inr.inj hp)⟩
          simp only [Exec.next_bind,if_true]
        all_goals cases h
    all_goals cases h
  case none | «return» | sideExit => cases h
  all_goals
    obtain rfl := Exec.next.inj h
    exact absurd rfl (hr _)

/-- From a committed state a block on the slots does what the block does between commits. -/
theorem pass_execBlock {b : BlockIndex f} {cpu : CPUState} {o : BlockIndex f ⊕ Left}
    {st : IRState} (h : pass f m b (IRState.load cpu) = .next (o,st))
    (hr : ∀ kind, o ≠ .inr (.runtime kind)) :
    ∃ pc, m.execBlock (f.blocks.get b) cpu = .next (st.materialize pc) ∧
      ∀ pc', o = .inr (.target pc') → pc = pc' := by
  unfold pass at h
  unfold Machine.execBlock Machine.execBody
  rcases hbody : m.execInstructions (f.blocks.get b).instructions ⟨IRState.load cpu,fun _ => none⟩
    with frame | cpu' | _ <;> simp only [hbody,Exec.next_bind,Exec.exit_bind,Exec.stuck_bind] at h
  case next =>
    rcases hfollow : follow f (terminator f b) frame.env with o' | cpu' | _ <;>
      simp only [hfollow,Exec.next_bind,Exec.exit_bind,Exec.stuck_bind] at h
    case next =>
      obtain ⟨rfl,rfl⟩ := Prod.mk.inj (Exec.next.inj h)
      exact follow_execTerminator m hfollow hr
    all_goals cases h
  all_goals cases h

variable {m}

theorem lift_self {α : Type} (x : Exec α) : Exec.Lift (fun a b => a = b ∧ x = .next a) x x := by
  cases x with
  | next a => exact ⟨rfl,rfl⟩
  | exit cpu => exact .refl cpu
  | stuck => trivial

theorem lift_mono {α β : Type} {R Q : α → β → Prop} {x : Exec α} {y : Exec β}
    (h : Exec.Lift R x y) (hrq : ∀ a b, R a b → Q a b) : Exec.Lift Q x y := by
  cases x <;> cases y <;> first
    | exact hrq _ _ h
    | exact h

/-- Whether every instruction is recorded with all that it reads and changes. -/
def Recorded (f : DolIRFunction) : Prop :=
  ∀ block ∈ f.blocks, ∀ i ∈ block.instructions, Populated i ∧ Complete i

instance (f : DolIRFunction) : Decidable (Recorded f) :=
  inferInstanceAs (Decidable (∀ _ ∈ _, ∀ _ ∈ _, _))

/-- A block reads its uses only, and what it defines does not depend on what was there. -/
theorem pass_sound (hf : Recorded f) {b : BlockIndex f} {out : Set DolIRStateSlot}
    {st st' : IRState}
    (h : slots.Agree ((usesIn f b : Set DolIRStateSlot) ∪ (out \ recorded f b)) st st') :
    Exec.Lift (fun a a' => a.1 = a'.1 ∧ (∀ b', a.1 = .inl b' → b' ∈ successors f b) ∧
      slots.Agree out a.2 a'.2) (pass f m b st) (pass f m b st') := by
  have hbody := execInstructions_sound m (f.blocks.get b).instructions
    (hf _ (List.get_mem f.blocks b))
  refine Exec.Lift.bind (hbody out ⟨st,fun _ => none⟩ ⟨st',fun _ => none⟩ ⟨⟨h.1,rfl⟩,h.2⟩) ?_
  rintro ⟨s,env⟩ ⟨s',env'⟩ ⟨⟨hsame,henv⟩,hread⟩
  obtain rfl : env = env' := henv
  refine Exec.Lift.bind (lift_self (follow f (terminator f b) env)) ?_
  rintro o _ ⟨rfl,ho⟩
  exact ⟨rfl,fun b' hb => follow_successor ho hb,hsame,hread⟩

theorem runBlocks_sound (hf : Recorded f) {into out : BlockIndex f → Set DolIRStateSlot}
    (hin : ∀ b, (usesIn f b : Set DolIRStateSlot) ∪ (out b \ recorded f b) ⊆ into b)
    (hnext : ∀ b, ∀ b' ∈ successors f b, into b' ⊆ out b) {b : BlockIndex f} {st st' : IRState}
    (h : slots.Agree (into b) st st') (k : ℕ) :
    Exec.Lift (fun r r' => r.1 = r'.1 ∧ slots.Agree (Liveness.setAt into out r.1) r.2 r'.2)
      (runBlocks f m k b st) (runBlocks f m k b st') := by
  refine Liveness.run_agree (L := Exec.lifting) (fun b s s' ha => ?_) k h
  refine lift_mono (pass_sound hf (ha.mono (hin b))) ?_
  rintro a a' ⟨ho,hs,hout⟩
  exact ⟨ho,fun b' hb => hnext b b' (hs b' hb),hout⟩

variable (m) in
/-- Two runs from a block that agree on memory and on what is live there stay together: they pass
the same blocks, and where they are left they agree on memory and on what is live behind the
block, which is the outputs of the function where nothing follows. -/
theorem runs_agree (f : DolIRFunction) (hf : Recorded f) (functionOutputs : StateMask)
    (b : BlockIndex f) (st st' : IRState)
    (h : slots.Agree (liveAt f functionOutputs (.inl b)) st st') (k : ℕ) :
    Exec.Lift (fun r r' => r.1 = r'.1 ∧ slots.Agree (liveAt f functionOutputs r.1) r.2 r'.2 ∧
      ∀ b' e, r.1 = .inr (b',e) → successors f b' = [] → slots.Agree functionOutputs r.2 r'.2)
      (runBlocks f m k b st) (runBlocks f m k b st') := by
  let g := graph f functionOutputs
  have hrun := runBlocks_sound (m := m) hf (fun b => (g.liveIn_eq b).ge)
    (fun _ _ => g.subset_liveOut) (h.mono (coe_liveIn b).ge) k
  refine lift_mono hrun ?_
  rintro ⟨o,s⟩ ⟨o',s'⟩ ⟨ho,ha⟩
  have hat : slots.Agree (liveAt f functionOutputs o) s s' := by
    cases o with
    | inl b' => exact ha.mono (coe_liveIn b').le
    | inr e => exact ha.mono (coe_liveOut e.1).le
  refine ⟨ho,hat,?_⟩
  rintro b' e rfl he
  have hout : (functionOutputs : Set DolIRStateSlot) ⊆ g.liveOut b' :=
    g.outputs_subset fun n' hn => by
      have hn' : n' ∈ successors f b' := hn
      rw [he] at hn'
      exact List.not_mem_nil hn'
  exact ha.mono hout

/-- A slot is not live in a part of a function that does not use it and either overwrites it or
goes on in the part. -/
theorem not_mem_live {functionOutputs : StateMask} {slot : DolIRStateSlot}
    (part : BlockIndex f → Bool) (hp : ∀ b, part b = true → slot ∉ usesIn f b ∧
      (slot ∈ recorded f b ∨ (∀ b' ∈ successors f b, part b' = true) ∧
        (successors f b = [] → slot ∉ functionOutputs))) {b : BlockIndex f}
    (hb : part b = true) : slot ∉ (live f functionOutputs b).1 := by
  rw [mem_liveIn]
  intro h
  induction h with
  | use h => exact (hp _ hb).1 h
  | pass h hn _ ih => exact ih (((hp _ hb).2.resolve_left h).1 _ hn)
  | out h he ho =>
    exact ((hp _ hb).2.resolve_left h).2 (List.eq_nil_iff_forall_not_mem.mpr he) ho

/-- `lwz r4,0(r3)`, `stw r4,4(r3)`, `addi r3,r3,4`, `bdnz` back to the first and `blr`. -/
def copyWords : DolIRFunction :=
  buildFunction [ppcDecode 0x80830000 0x80003100,ppcDecode 0x90830004 0x80003104,
    ppcDecode 0x38630004 0x80003108,ppcDecode 0x4200FFF4 0x8000310C,
    ppcDecode 0x4E800020 0x80003110] 0x80003100

def copyWordsEntry : BlockIndex copyWords := ⟨0,by decide⟩

def copyWordsOutputs : StateMask := {.gpr 3}

theorem copyWords_dead : .gpr 4 ∉ (live copyWords copyWordsOutputs copyWordsEntry).1 :=
  not_mem_live (fun b => b.val = 0) (by decide) rfl

theorem copyWords_recorded : Recorded copyWords := by decide

theorem copyWords_agree : slots.Agree (liveAt copyWords copyWordsOutputs (.inl copyWordsEntry))
    (IRState.load cpuInit) ((IRState.load cpuInit).setGpr 4 7) := by
  refine ⟨⟨rfl,rfl,rfl,rfl,rfl⟩,fun slot hs => ?_⟩
  have hne : slot ≠ .gpr 4 := fun h => copyWords_dead (h ▸ hs)
  exact ((IRState.load cpuInit).readSlot_setGpr 4 7 hne).symm

/-- What was in the register of the loaded words is not told from outside. -/
theorem runs_agree_copyWords :
    Exec.Lift (fun r r' => r.1 = r'.1 ∧
      slots.Agree (liveAt copyWords copyWordsOutputs r.1) r.2 r'.2 ∧
      ∀ b' e, r.1 = .inr (b',e) → successors copyWords b' = [] →
        slots.Agree copyWordsOutputs r.2 r'.2)
      (runBlocks copyWords { host := {} } 9 copyWordsEntry (IRState.load cpuInit))
      (runBlocks copyWords { host := {} } 9 copyWordsEntry
        ((IRState.load cpuInit).setGpr 4 7)) :=
  runs_agree { host := {} } copyWords copyWords_recorded copyWordsOutputs copyWordsEntry
    (IRState.load cpuInit) ((IRState.load cpuInit).setGpr 4 7) copyWords_agree 9

end DeadSlots
end DolRecomp
