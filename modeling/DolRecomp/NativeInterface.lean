import DolRecomp.DeadSlots
import DolRecomp.Reservation

/-!
# The interface of a native body

What the analysis of a function gives as its inputs is all that a run from the entry
reads of the slots, and what it gives as its outputs is all that the run changes: the
body can be entered with the inputs and memory alone and left with the outputs alone.
-/

namespace DolRecomp

namespace NativeInterface

open AbiLiveness CallsiteStates DeadSlots

theorem ofOption_eq_next {α β : Type} {o : Option α} {f : α → Exec β} {b : β}
    (h : (Exec.ofOption o >>= f) = .next b) : ∃ a, o = some a ∧ f a = .next b := by
  cases o with
  | none => cases h
  | some a => exact ⟨a,rfl,h⟩

theorem ofOption_next {α : Type} {o : Option α} {a : α} (h : Exec.ofOption o = .next a) :
    o = some a := by
  cases o with
  | none => cases h
  | some b => rw [Exec.next.inj h]

theorem bind_eq_next {α β : Type} {x : Exec α} {f : α → Exec β} {b : β}
    (h : (x >>= f) = .next b) : ∃ a, x = .next a ∧ f a = .next b := by
  cases x with
  | next a => exact ⟨a,rfl,h⟩
  | exit => cases h
  | stuck => cases h

theorem readSlot_memWrite (st : IRState) (ea : BitVec 32) (value : BitVec 64) (width : ℕ)
    {x : DolIRStateSlot} (hx : x ≠ .reserveValid) :
    { st with cpu := Runtime.memWrite st.cpu ea value width }.readSlot x = st.readSlot x := by
  by_cases ha : x = .reserveAddr
  · subst ha
    exact congrArg Value.i32 (Reservation.memWrite_reserve st.cpu ea value width).1
  · rw [memWrite_self ea width st.cpu]
    exact st.readSlot_onto _ ha hx

theorem callHelper_frame (m : Machine) {helper : DolIRHelper} (immediate : BitVec 64)
    (pc : BitVec 32) (hh : helper ∈ [.fpAvailable,.fpscrUpdated,.fpscrBit,.memoryFence])
    {st st' : IRState} {v : Option Value}
    (h : m.callHelper st helper immediate pc [] = .next (v,st')) {x : DolIRStateSlot}
    (hx : x ∉ (Effects.helperEffects helper immediate).2) : st'.readSlot x = st.readSlot x := by
  simp only [List.mem_cons,List.not_mem_nil,or_false] at hh
  rcases hh with rfl | rfl | rfl | rfl
  · have hcall : (if (Runtime.ppcFpAvailable (st.materialize pc) pc).1
        then Exec.next (some (Value.i1 true),st)
        else .exit (Runtime.ppcFpAvailable (st.materialize pc) pc).2) = .next (v,st') := h
    split at hcall
    · obtain rfl := (Prod.mk.inj (Exec.next.inj hcall)).2
      rfl
    · cases hcall
  · have hcall : Exec.next ((none : Option Value),
        { st with cpu := Runtime.ppcFpscrControlUpdated st.cpu }) = .next (v,st') := h
    obtain rfl := (Prod.mk.inj (Exec.next.inj hcall)).2
    exact st.readSlot_setFpscr _ (by simpa [Effects.helperEffects] using hx)
  · let bit : BitVec 5 := immediate.truncate 5
    have hcall : Exec.next ((none : Option Value), { st with cpu := (if immediate.getLsbD 8
        then (Runtime.ppcMtfsb1Op st.cpu bit) else (Runtime.ppcMtfsb0Op st.cpu bit)) }) =
        .next (v,st') := h
    obtain rfl := (Prod.mk.inj (Exec.next.inj hcall)).2
    obtain ⟨g,hg⟩ := ppcMtfsb_fpscr bit (immediate.getLsbD 8)
    rw [hg]
    exact st.readSlot_setFpscr _ (by simpa [Effects.helperEffects] using hx)
  · have hcall : Exec.next ((none : Option Value),st) = .next (v,st') := h
    obtain rfl := (Prod.mk.inj (Exec.next.inj hcall)).2
    rfl

theorem execOp_frame (m : Machine) (i : DolIRInstruction) (hc : Complete i) {args : List Value}
    (hargs : i.operands = [] → args = []) {st st' : IRState} {v : Option Value}
    (h : m.execOp st i args = .next (v,st')) {x : DolIRStateSlot} (hx : x ∉ defsOf i) :
    st'.readSlot x = st.readSlot x := by
  have hpure {o : Option Value}
      (ho : (Exec.ofOption o >>= fun w => .next (some w,st)) = .next (v,st')) : st' = st := by
    obtain ⟨w,-,hw⟩ := ofOption_eq_next ho
    exact (Prod.mk.inj (Exec.next.inj hw)).2.symm
  unfold Machine.execOp at h
  cases hop : i.op <;> simp only [hop] at h
  case helperCall helper =>
    simp only [Complete,hop] at hc
    rw [hargs hc.2] at h
    refine callHelper_frame m i.immediate i.guestPc hc.1 h fun hd => hx ?_
    simpa [defsOf,hop,Effects.effects] using hd
  case stateWrite slot =>
    have hslot : x ≠ slot := by simpa [defsOf,hop,Effects.effects] using hx
    rcases args with _ | ⟨w,_ | ⟨b,_ | ⟨c,args⟩⟩⟩
    · cases h
    · obtain ⟨s,hs,hn⟩ := ofOption_eq_next h
      obtain rfl := (Prod.mk.inj (Exec.next.inj hn)).2
      obtain hnone | ⟨f,hf,-,hother,-⟩ := IRState.writeSlot_cases slot w
      · rw [hnone] at hs
        cases hs
      · obtain rfl := Option.some.inj ((hf st).symm.trans hs)
        exact hother st x hslot
    · rw [hpure h]
    · cases h
  case guestStore width =>
    have hslot : x ≠ .reserveValid := by simpa [defsOf,hop,Effects.effects] using hx
    rcases args with _ | ⟨a,_ | ⟨w,_ | ⟨c,args⟩⟩⟩
    · cases h
    · cases a <;> rw [hpure h]
    · cases a
      case i32 ea =>
        obtain ⟨⟨n,bits⟩,-,hn⟩ := ofOption_eq_next h
        obtain rfl := (Prod.mk.inj (Exec.next.inj hn)).2
        exact readSlot_memWrite st ea _ width hslot
      all_goals rw [hpure h]
    · cases a <;> cases h
  case guestLoad width sign =>
    rcases args with _ | ⟨a,_ | ⟨w,_ | ⟨c,args⟩⟩⟩
    · cases h
    · cases a
      case i32 ea =>
        obtain ⟨w,-,hn⟩ := ofOption_eq_next h
        obtain rfl := (Prod.mk.inj (Exec.next.inj hn)).2
        exact st.readSlot_history _ x
      all_goals rw [hpure h]
    · cases a <;> rw [hpure h]
    · cases a <;> cases h
  case stateRead slot =>
    rcases args with _ | ⟨w,_ | ⟨b,_ | ⟨c,args⟩⟩⟩
    · obtain rfl := (Prod.mk.inj (Exec.next.inj h)).2
      rfl
    · rw [hpure h]
    · rw [hpure h]
    · cases h
  -- what is left does not touch the state
  all_goals
    rcases args with _ | ⟨a,_ | ⟨b,_ | ⟨c,_ | ⟨d,args⟩⟩⟩⟩ <;> first
      | cases h
      | rw [hpure h]

theorem define_st {frame frame' : Machine.Frame} {result : DolIRValue} {v : Option Value}
    (h : frame.define result v = some frame') : frame'.st = frame.st := by
  unfold Machine.Frame.define at h
  split at h
  · obtain rfl := Option.some.inj h
    rfl
  · cases v with
    | none => cases h
    | some v =>
      obtain rfl := Option.some.inj h
      rfl

theorem execInstruction_frame (m : Machine) (i : DolIRInstruction) (hc : Complete i)
    {frame frame' : Machine.Frame} (h : m.execInstruction i frame = .next frame')
    {x : DolIRStateSlot} (hx : x ∉ defsOf i) : frame'.st.readSlot x = frame.st.readSlot x := by
  unfold Machine.execInstruction at h
  obtain ⟨args,hargs,h⟩ := ofOption_eq_next h
  obtain ⟨⟨v,st⟩,hop,h⟩ := bind_eq_next h
  have hd : Machine.Frame.define { frame with st } i.result v = some frame' := ofOption_next h
  have hst : frame'.st = st := define_st hd
  rw [hst]
  exact execOp_frame m i hc (args_of_nil hargs) hop hx

theorem execInstructions_frame (m : Machine) (is : List DolIRInstruction)
    (h : ∀ i ∈ is, Populated i ∧ Complete i) {frame frame' : Machine.Frame}
    (hrun : m.execInstructions is frame = .next frame') {x : DolIRStateSlot}
    (hx : x ∉ union is (·.stateDefs)) : frame'.st.readSlot x = frame.st.readSlot x := by
  induction is generalizing frame with
  | nil =>
    obtain rfl := Exec.next.inj hrun
    rfl
  | cons i is ih =>
    obtain ⟨hp,hc⟩ := h i List.mem_cons_self
    obtain ⟨hi,his⟩ : x ∉ i.stateDefs ∧ x ∉ union is (·.stateDefs) := by
      rw [union,List.foldr_cons,Finset.mem_union,not_or] at hx
      exact hx
    have hdefs : x ∉ defsOf i := by
      have hd : (Effects.effects i.op i.immediate).2 = i.stateDefs := congrArg (·.stateDefs) hp
      rwa [defsOf,hd,Finset.mem_coe]
    obtain ⟨g,hg,hrest⟩ := bind_eq_next hrun
    rw [ih (fun j hj => h j (List.mem_cons_of_mem _ hj)) hrest his,
      execInstruction_frame m i hc hg hdefs]

variable {f : DolIRFunction} {m : Machine}

theorem recorded_subset_mayDef (b : BlockIndex f) : recorded f b ⊆ mayDef f := fun _ hs =>
  (mem_foldr_union _).mpr ⟨b,List.mem_finRange b,hs⟩

theorem mem_semanticInput {slot : DolIRStateSlot} : slot ∈ semanticInput f ↔
    ∃ b : BlockIndex f, slot ∈ exposed (f.blocks.get b).instructions (definite f b).1 := by
  have h := @mem_foldr_union f (fun b => exposed (f.blocks.get b).instructions (definite f b).1)
    slot (List.finRange _)
  simp only [List.mem_finRange,true_and] at h
  exact h

/-- A run changes no slot that no block may define. -/
theorem runBlocks_frame (hf : Recorded f) (k : ℕ) {b : BlockIndex f} {st : IRState}
    {r : (BlockIndex f ⊕ BlockIndex f × Left) × IRState}
    (h : runBlocks f m k b st = .next r) {slot : DolIRStateSlot} (hs : slot ∉ mayDef f) :
    r.2.readSlot slot = st.readSlot slot := by
  induction k generalizing b st with
  | zero =>
    obtain rfl := Exec.next.inj h
    rfl
  | succ k ih =>
    obtain ⟨⟨o,st'⟩,hpass,h⟩ := bind_eq_next h
    have hst : st'.readSlot slot = st.readSlot slot := by
      obtain ⟨frame,hbody,hrest⟩ := bind_eq_next hpass
      obtain ⟨o',-,hrest⟩ := bind_eq_next hrest
      obtain rfl := (Prod.mk.inj (Exec.next.inj hrest)).2
      exact execInstructions_frame m _ (hf _ (List.get_mem f.blocks b)) hbody
        fun hd => hs (recorded_subset_mayDef b hd)
    cases o with
    | inl b' => rw [ih h,hst]
    | inr e =>
      obtain rfl := Exec.next.inj h
      exact hst

variable (m) in
/-- A native body that is entered with its inputs and with memory passes the same blocks and makes
the same accesses whatever is in the other slots, leaves the same outputs behind a block without
a successor, and changes nothing else. -/
theorem interface_sound (f : DolIRFunction) (hf : Recorded f) {range range' : DolLLVMFunctionRange}
    (h : analyzeFunctionAbi f range = some range') (b : BlockIndex f) (hb : b.val = 0)
    (st st' : IRState) (ha : slots.Agree range'.input st st') (k : ℕ) :
    Exec.Lift (fun r r' => r.1 = r'.1 ∧ slots.Agree range'.input r.2 r'.2 ∧
      ∀ b' e, r.1 = .inr (b',e) → successors f b' = [] → slots.Agree range'.output r.2 r'.2)
      (runBlocks f m k b st) (runBlocks f m k b st') ∧
    ∀ r, runBlocks f m k b st = .next r → ∀ slot ∉ range'.output,
      r.2.readSlot slot = st.readSlot slot := by
  obtain ⟨hin,hout⟩ : range'.input = semanticInput f ∪ (mayDef f \ mustDef f) ∧
      range'.output = mayDef f := by
    unfold analyzeFunctionAbi at h
    split at h
    · obtain rfl := Option.some.inj h
      exact ⟨rfl,rfl⟩
    · cases h
  refine ⟨?_,fun r hr slot hs => runBlocks_frame hf k hr (hout ▸ hs)⟩
  -- in front of a block the states agree on the inputs and on what is certainly defined
  let into : BlockIndex f → Set DolIRStateSlot := fun b => range'.input ∪ (definite f b).1
  let out : BlockIndex f → Set DolIRStateSlot := fun b => range'.input ∪ (definite f b).2
  have hdef (b : BlockIndex f) : (definite f b).2 = (definite f b).1 ∪ recorded f b := by
    rw [definite_eq]
    rfl
  have huse (b : BlockIndex f) :
      (usesIn f b : Set DolIRStateSlot) ∪ (out b \ recorded f b) ⊆ into b := by
    rintro slot (hs | ⟨hs | hs,hn⟩)
    · by_cases hd : slot ∈ (definite f b).1
      · exact .inr hd
      · refine .inl ?_
        rw [hin]
        refine Finset.mem_union_left _ (mem_semanticInput.mpr ⟨b,?_⟩)
        rw [exposed_written]
        exact Finset.mem_sdiff.mpr ⟨hs,hd⟩
    · exact .inl hs
    · rw [Finset.mem_coe,hdef] at hs
      exact .inr ((Finset.mem_union.mp hs).resolve_right hn)
  have hnext (b : BlockIndex f) : ∀ b' ∈ successors f b, into b' ⊆ out b := by
    rintro b' hs slot (hi | hd)
    · exact .inl hi
    · rw [Finset.mem_coe,definite_eq] at hd
      exact .inr ((mem_incoming.mp hd).2.2 b hs)
  have hstart : slots.Agree (into b) st st' := ha.mono fun slot hs => by
    rcases hs with hs | hs
    · exact hs
    · rw [Finset.mem_coe,definite_eq] at hs
      exact absurd hb (mem_incoming.mp hs).1
  refine lift_mono (runBlocks_sound hf huse hnext hstart k) ?_
  rintro ⟨o,s⟩ ⟨o',s'⟩ ⟨ho,hat⟩
  refine ⟨ho,hat.mono ?_,?_⟩
  · cases o with
    | inl b' => exact fun _ => .inl
    | inr e => exact fun _ => .inl
  · rintro b' e rfl he
    have hsub : (range'.output : Set DolIRStateSlot) ⊆ out b' := fun slot hs => by
      by_cases hm : slot ∈ mustDef f
      · exact .inr (mem_definite.mpr ((mem_mustDef.mp hm).2 b' he))
      · refine .inl ?_
        rw [hout] at hs
        rw [hin]
        exact Finset.mem_union_right _ (Finset.mem_sdiff.mpr ⟨hs,hm⟩)
    exact hat.mono hsub

def copyWordsRange : DolLLVMFunctionRange := { start := 0x80003100, endAddr := 0x80003114 }

def copyWordsAbi : DolLLVMFunctionRange :=
  { copyWordsRange with
    semanticInput := semanticInput copyWords
    mayDef := mayDef copyWords
    mustDef := mustDef copyWords
    callsiteLiveAfter := ∅
    semanticOutput := ∅
    input := semanticInput copyWords ∪ (mayDef copyWords \ mustDef copyWords)
    output := mayDef copyWords
    escape := ∅
    native := nativeAbi copyWords }

theorem copyWords_analysis : analyzeFunctionAbi copyWords copyWordsRange = some copyWordsAbi :=
  if_pos (by decide)

/-- The loop neither reads nor writes `gpr 5`. -/
theorem copyWords_untouched : .gpr 5 ∉ copyWordsAbi.input := by
  have huse : ∀ b, .gpr 5 ∉ usesIn copyWords b := by decide
  have hmay : .gpr 5 ∉ mayDef copyWords := by decide
  intro h
  rcases Finset.mem_union.mp h with hs | hs
  · obtain ⟨b,hb⟩ := mem_semanticInput.mp hs
    rw [exposed_written] at hb
    exact huse b (Finset.mem_sdiff.mp hb).1
  · exact hmay (Finset.mem_sdiff.mp hs).1

theorem copyWords_inputs : slots.Agree copyWordsAbi.input (IRState.load cpuInit)
    ((IRState.load cpuInit).setGpr 5 7) := by
  refine ⟨⟨rfl,rfl,rfl,rfl,rfl⟩,fun slot hs => ?_⟩
  have hne : slot ≠ .gpr 5 := fun h => copyWords_untouched (h ▸ hs)
  exact ((IRState.load cpuInit).readSlot_setGpr 5 7 hne).symm

theorem interface_sound_copyWords :
    Exec.Lift (fun r r' => r.1 = r'.1 ∧ slots.Agree copyWordsAbi.input r.2 r'.2 ∧
      ∀ b e, r.1 = .inr (b,e) → successors copyWords b = [] →
        slots.Agree copyWordsAbi.output r.2 r'.2)
      (runBlocks copyWords { host := {} } 9 copyWordsEntry (IRState.load cpuInit))
      (runBlocks copyWords { host := {} } 9 copyWordsEntry ((IRState.load cpuInit).setGpr 5 7)) ∧
    ∀ r, runBlocks copyWords { host := {} } 9 copyWordsEntry (IRState.load cpuInit) = .next r →
      ∀ slot ∉ copyWordsAbi.output, r.2.readSlot slot = (IRState.load cpuInit).readSlot slot :=
  interface_sound { host := {} } copyWords copyWords_recorded copyWords_analysis copyWordsEntry rfl
    (IRState.load cpuInit) ((IRState.load cpuInit).setGpr 5 7) copyWords_inputs 9

end NativeInterface
end DolRecomp
