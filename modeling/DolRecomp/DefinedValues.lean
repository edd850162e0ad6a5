import DolRecomp.AddressSoundness
import DolRecomp.Block
import DolRecomp.WellFormed

/-!
# Values are there when they are read

A value that a block of a built function reads is the result of an instruction in
front of it. Hence a run of the block has a value for each operand it comes to and
for what the terminator reads: no run is undefined for want of a value.
-/

namespace DolRecomp

namespace DefinedValues

open Machine

variable {m : Machine}

def Has (env : DolIRValue → Option Value) (first next : ℕ) : Prop :=
  ∀ v, first ≤ v → v < next → ∃ w, env v = some w

theorem result_eq {first next : ℕ} {ty : ℕ → DolIRType} {i : DolIRInstruction}
    (hi : WellFormed first ty next i) (ht : i.type ≠ .void) : i.result = next := by
  rw [hi.result,if_neg ht]

theorem has_step {first next : ℕ} (hfirst : 1 ≤ first) (hn : first ≤ next)
    {i : DolIRInstruction} {ty : ℕ → DolIRType} (hi : WellFormed first ty next i)
    {frame frame' : Frame} (hhas : Has frame.env first next)
    (h : m.execInstruction i frame = .next frame') : Has frame'.env first (next + i.size) := by
  intro v hv hlt
  obtain ⟨-,-,-,-,⟨hr,he⟩ | ⟨hr,w,-,he⟩⟩ :=
    AddressAnalysis.execInstruction_cases h
  · have hsize : i.size = 0 := by
      rw [DolIRInstruction.size,if_pos]
      by_contra ht
      have hnext : (next : ℕ) = 0 := by rw [← result_eq hi ht,hr,dolirNoValue]
      omega
    rw [hsize,Nat.add_zero] at hlt
    rw [he]
    exact hhas v hv hlt
  · rw [he]
    by_cases hvr : v = i.result
    · exact ⟨w,by rw [hvr,Function.update_self]⟩
    · rw [Function.update_of_ne hvr]
      have ht : i.type ≠ .void := fun ht => hr (by rw [hi.result,if_pos ht])
      rw [DolIRInstruction.size,if_neg ht] at hlt
      rw [result_eq hi ht] at hvr
      exact hhas v hv (by omega)

/-- Behind a prefix of a block every number that the prefix uses up has a value. -/
theorem has_prefix {first : ℕ} (hfirst : 1 ≤ first) {is : List DolIRInstruction}
    (hok : BlockOk first is) (pre post : List DolIRInstruction) (he : is = pre ++ post)
    {st : IRState} {frame : Frame}
    (h : m.execInstructions pre ⟨st,fun _ => none⟩ = .next frame) :
    Has frame.env first (first + Builder.size pre) := by
  induction pre using List.reverseRecOn generalizing post frame with
  | nil =>
    intro v hv hlt
    simp only [Builder.size,List.map_nil,List.sum_nil] at hlt
    omega
  | append_singleton pre i ih =>
    rw [execInstructions_append] at h
    cases hpre : m.execInstructions pre ⟨st,fun _ => none⟩ with
    | next g =>
      simp only [hpre,Exec.next_bind,execInstructions] at h
      have hg := ih (i :: post) (by rw [he,List.append_assoc,List.singleton_append]) hpre
      cases hi : m.execInstruction i g with
      | next g' =>
        rw [hi] at h
        obtain rfl := Exec.next.inj h
        have hw := hok pre i post (by rw [he,List.append_assoc,List.singleton_append])
        have hstep := has_step hfirst (Nat.le_add_right _ _) hw hg hi
        rwa [Nat.add_assoc,show Builder.size pre + i.size = Builder.size (pre ++ [i]) by
          simp [Builder.size]] at hstep
      | exit => rw [hi] at h; cases h
      | stuck => rw [hi] at h; cases h
    | exit => rw [hpre] at h; cases h
    | stuck => rw [hpre] at h; cases h

theorem operands_some {env : DolIRValue → Option Value} {ids : List DolIRValue}
    (h : ∀ v ∈ ids, ∃ w, env v = some w) : ∃ args, operands env ids = some args := by
  induction ids with
  | nil => exact ⟨[],rfl⟩
  | cons v ids ih =>
    obtain ⟨w,hw⟩ := h v List.mem_cons_self
    obtain ⟨args,hargs⟩ := ih fun u hu => h u (List.mem_cons_of_mem v hu)
    refine ⟨w :: args,?_⟩
    rw [operands] at hargs ⊢
    rw [List.mapM_cons,hw,hargs]
    rfl

/-- In a built function, a run of a block from any slots has values for the operands of each
instruction that it reaches, and for what the terminator reads. -/
theorem values_defined {insts : List PPCInst} {guestStart : BitVec 32} {f : DolIRFunction}
    (hbuild : dolirBuildChunk insts guestStart = some f) (m : Machine) {b : DolIRBlock}
    (hb : b ∈ f.blocks) (st : IRState) :
    (∀ pre i post frame, b.instructions = pre ++ i :: post →
      m.execInstructions pre ⟨st,fun _ => none⟩ = .next frame →
      ∃ args, operands frame.env i.operands = some args) ∧
    ∀ frame, m.execInstructions b.instructions ⟨st,fun _ => none⟩ = .next frame →
      ∀ v ∈ b.terminator.values, ∃ w, frame.env v = some w := by
  obtain ⟨-,-,hblocks⟩ := build_blocks hbuild
  obtain ⟨n,hn⟩ := List.getElem?_of_mem hb
  obtain ⟨i,first,-,hfirst,-,hbuilt⟩ := hblocks n b hn
  refine ⟨fun pre j post frame he hrun => ?_,fun frame hrun v hv => ?_⟩
  · have hhas := has_prefix hfirst hbuilt.body pre (j :: post) he hrun
    exact operands_some fun v hv =>
      hhas v ((hbuilt.body pre j post he).operands v hv).1
        ((hbuilt.body pre j post he).operands v hv).2
  · have hhas := has_prefix hfirst hbuilt.body b.instructions [] (List.append_nil _).symm hrun
    have ht := hbuilt.terminator
    unfold DolIRTerminator.values at hv
    split at hv
    next hk =>
      obtain rfl := List.mem_singleton.mp hv
      obtain ⟨h1,h2⟩ := ht.condition (.inl hk)
      exact hhas _ h1 h2
    next hk =>
      simp only [List.mem_cons,List.not_mem_nil,or_false] at hv
      rcases hv with rfl | rfl
      · obtain ⟨h1,h2⟩ := ht.condition (.inr hk)
        exact hhas _ h1 h2
      · obtain ⟨h1,h2⟩ := ht.targetValue hk
        exact hhas _ h1 h2
    next => exact absurd hv List.not_mem_nil

/-- A load and a return. -/
def loadReturn : List PPCInst :=
  [ppcDecode 0x80630000#32 0x80003100#32,ppcDecode 0x4E800020#32 0x80003104#32]

def loadFunction : DolIRFunction :=
  dolirAnalyzeAddresses (buildFunction loadReturn 0x80003100#32)

def loadEntry : DolIRBlock := loadFunction.blocks.get ⟨0,by decide⟩

theorem values_defined_load :
    (∀ pre i post frame, loadEntry.instructions = pre ++ i :: post →
      execInstructions { host := {} } pre ⟨IRState.load cpuInit,fun _ => none⟩ = .next frame →
      ∃ args, operands frame.env i.operands = some args) ∧
    ∀ frame, execInstructions { host := {} } loadEntry.instructions
        ⟨IRState.load cpuInit,fun _ => none⟩ = .next frame →
      ∀ v ∈ loadEntry.terminator.values, ∃ w, frame.env v = some w :=
  values_defined (rfl : dolirBuildChunk loadReturn 0x80003100#32 = some loadFunction)
    { host := {} } (List.get_mem _ _) (IRState.load cpuInit)

end DefinedValues

end DolRecomp
