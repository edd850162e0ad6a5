import DolRecomp.AddressValues
import DolRecomp.AbiLiveness
import DolRecomp.LlvmMemory

/-!
Executions of an analysed function against the facts `dolir_analyze_addresses` has at each
instruction, and what follows for the accesses that leave out the region checks.
-/

namespace DolRecomp

namespace AddressAnalysis

variable {m : Machine} {facts : Facts} {frame : Machine.Frame}

theorem execInstruction_cases {i : DolIRInstruction} {frame' : Machine.Frame}
    (h : m.execInstruction i frame = .next frame') : ∃ args v,
      Machine.operands frame.env i.operands = some args ∧
      m.execOp frame.st i args = .next (v,frame'.st) ∧
      (i.result = dolirNoValue ∧ frame'.env = frame.env ∨ i.result ≠ dolirNoValue ∧
        ∃ w, v = some w ∧ frame'.env = Function.update frame.env i.result (some w)) := by
  unfold Machine.execInstruction at h
  rcases ha : Machine.operands frame.env i.operands with _ | args
  · rw [ha] at h
    cases h
  · rw [ha,Exec.ofOption_some,Exec.next_bind] at h
    rcases ho : m.execOp frame.st i args with ⟨v,st⟩ | cpu | _
    · rw [ho,Exec.next_bind] at h
      refine ⟨args,v,rfl,?_⟩
      unfold Machine.Frame.define at h
      dsimp only at h
      by_cases hr : i.result = dolirNoValue
      · rw [if_pos hr] at h
        cases h
        exact ⟨ho,.inl ⟨hr,rfl⟩⟩
      · rw [if_neg hr] at h
        cases v with
        | none => cases h
        | some w =>
          cases h
          exact ⟨ho,.inr ⟨hr,w,rfl,rfl⟩⟩
    · rw [ho] at h
      cases h
    · rw [ho] at h
      cases h

theorem execOp_stateWrite {i : DolIRInstruction} {slot : DolIRStateSlot} {st st' : IRState}
    {args : List Value} {v : Option Value} (hop : i.op = .stateWrite slot)
    (h : m.execOp st i args = .next (v,st')) :
    ∃ w, args = [w] ∧ st.writeSlot slot w = some st' ∧ v = none := by
  unfold Machine.execOp at h
  rw [hop] at h
  rcases args with _ | ⟨a,_ | ⟨b,_ | ⟨c,_⟩⟩⟩
  · cases h
  · rcases hw : st.writeSlot slot a with _ | st₁
    · simp only [hw] at h
      cases h
    · simp only [hw] at h
      cases h
      exact ⟨a,rfl,hw,rfl⟩
  · dsimp only at h
    rw [evalBinary_impure rfl] at h
    cases h
  · cases h

theorem readSlot_writeSlot {st st' : IRState} {slot : DolIRStateSlot} {w : Value}
    (h : st.writeSlot slot w = some st') : st'.readSlot slot = w := by
  cases slot <;> cases w <;> simp only [IRState.writeSlot,Option.some.injEq,reduceCtorEq] at h
  all_goals
    subst h
    first
      | rfl
      | simp [IRState.readSlot,CPUState.setGpr,CPUState.setFpr,CPUState.setPs1,CPUState.setSr,
          CPUState.setGqr]

/-- An instruction changes no slot but those it is recorded to define. -/
def Covers (m : Machine) (i : DolIRInstruction) : Prop :=
  ∀ frame frame', m.execInstruction i frame = .next frame' → ∀ slot, slot ∉ i.stateDefs →
    frame'.st.readSlot slot = frame.st.readSlot slot

theorem covers_constant {i : DolIRInstruction} (hop : i.op = .constant) : Covers m i := by
  intro frame frame' h slot _
  obtain ⟨args,v,-,he,-⟩ := execInstruction_cases h
  suffices frame'.st = frame.st by rw [this]
  generalize frame'.st = st at he ⊢
  unfold Machine.execOp at he
  rw [hop] at he
  rcases args with _ | ⟨a,_ | ⟨b,_ | ⟨c,_⟩⟩⟩
  · rcases hv : Value.ofBits i.type i.immediate with _ | w
    · simp only [hv] at he
      cases he
    · simp only [hv] at he
      cases he
      rfl
  · dsimp only at he
    rw [evalUnary_impure rfl] at he
    cases he
  · dsimp only at he
    rw [evalBinary_impure rfl] at he
    cases he
  · cases he

/-- A load changes the history alone. -/
theorem covers_guestLoad {i : DolIRInstruction} {width : ℕ} {sign : Bool}
    (hop : i.op = .guestLoad width sign) : Covers m i := by
  intro frame frame' h slot _
  obtain ⟨args,v,-,he,-⟩ := execInstruction_cases h
  generalize frame'.st = st at he ⊢
  unfold Machine.execOp at he
  rw [hop] at he
  rcases args with _ | ⟨a,_ | ⟨b,_ | ⟨c,_⟩⟩⟩
  · cases he
  · cases a with
    | i32 ea =>
      dsimp only [Machine.guestLoad] at he
      generalize Value.ofBits i.type _ = o at he
      cases o with
      | none => cases he
      | some w =>
        cases he
        cases slot <;> rfl
    | _ =>
      dsimp only at he
      rw [evalUnary_impure rfl] at he
      cases he
  · cases a <;>
    · dsimp only at he
      rw [evalBinary_impure rfl] at he
      cases he
  · cases a <;> cases he

theorem transfer_sound {i : DolIRInstruction} {frame' : Machine.Frame} (hs : Sound facts frame)
    (hc : Covers m i) (h : m.execInstruction i frame = .next frame') :
    Sound (transfer facts i) frame' := by
  obtain ⟨args,v,hargs,hop,hresult⟩ := execInstruction_cases h
  refine ⟨fun id w hid => ?_,fun slot => ?_⟩
  · rcases hresult with ⟨hr,henv⟩ | ⟨hr,r,rfl,henv⟩
    · rw [henv] at hid
      simp only [transfer,hr,ne_eq,not_true_eq_false,if_false]
      exact hs.values id w hid
    · rw [henv] at hid
      simp only [transfer,ne_eq,hr,not_false_eq_true,if_true]
      by_cases heq : id = i.result
      · subst heq
        rw [Function.update_self] at hid ⊢
        cases hid
        exact instructionValue_holds hs hargs hop
      · rw [Function.update_of_ne heq] at hid ⊢
        exact hs.values id w hid
  · by_cases hw : i.op = .stateWrite slot
    · obtain ⟨w,rfl,hst,rfl⟩ := execOp_stateWrite hw hop
      have hr : i.result = dolirNoValue := by
        rcases hresult with ⟨hr,-⟩ | ⟨-,r,hr,-⟩
        · exact hr
        · cases hr
      have hall := hs.operands hargs
      simp only [transfer,hw,hr,ne_eq,not_true_eq_false,if_false,if_true]
      rw [readSlot_writeSlot hst]
      generalize hids : i.operands = ids at hall
      obtain _ | ⟨ha,⟨⟩⟩ := hall
      exact ha
    · simp only [transfer,hw,if_false]
      split
      next => exact holds_unknown _
      next hmem =>
        rw [hc frame frame' h slot hmem]
        exact hs.state slot

def entering (all : List DolIRBlock) (index : ℕ) (facts : Facts) : Facts :=
  if regionLeader all index then { facts with state := fun _ => unknownValue } else facts

def blockFacts (all : List DolIRBlock) (index : ℕ) (facts : Facts) : List DolIRBlock → ℕ → Facts
  | [], _ => facts
  | _ :: _, 0 => entering all index facts
  | block :: rest, n+1 =>
    blockFacts all (index + 1)
      (analyzeInstructions (entering all index facts) block.instructions).1 rest n

theorem analyzeInstructions_facts (facts : Facts) (is : List DolIRInstruction) :
    (analyzeInstructions facts is).1 = is.foldl transfer facts := by
  induction is generalizing facts with
  | nil => rfl
  | cons i is ih => exact ih _

theorem analyzeInstructions_length (facts : Facts) (is : List DolIRInstruction) :
    (analyzeInstructions facts is).2.length = is.length := by
  induction is generalizing facts with
  | nil => rfl
  | cons i is ih => exact congrArg (· + 1) (ih _)

theorem analyzeInstructions_get (facts : Facts) (is : List DolIRInstruction) (k : ℕ) :
    (analyzeInstructions facts is).2[k]? =
      is[k]?.map (annotate ((is.take k).foldl transfer facts)) := by
  induction is generalizing facts k with
  | nil => rfl
  | cons i is ih =>
    cases k with
    | zero => rfl
    | succ k => exact ih _ _

def annotateBlock (facts : Facts) (block : DolIRBlock) : DolIRBlock :=
  { block with instructions := (analyzeInstructions facts block.instructions).2 }

section

variable (all : List DolIRBlock)

theorem analyzeBlocks_get (index : ℕ) (facts : Facts) (blocks : List DolIRBlock) (n : ℕ) :
    (analyzeBlocks all index facts blocks)[n]? =
      blocks[n]?.map (annotateBlock (blockFacts all index facts blocks n)) := by
  induction blocks generalizing index facts n with
  | nil => rfl
  | cons block rest ih =>
    cases n with
    | zero => rfl
    | succ n => exact ih _ _ _

theorem analyzeBlocks_terminators (index : ℕ) (facts : Facts) (blocks : List DolIRBlock) :
    (analyzeBlocks all index facts blocks).map DolIRBlock.terminator =
      blocks.map DolIRBlock.terminator := by
  induction blocks generalizing index facts with
  | nil => rfl
  | cons block rest ih => exact congrArg (block.terminator :: ·) (ih _ _)

theorem blockFacts_leader (index : ℕ) (facts : Facts) {n : ℕ} {blocks : List DolIRBlock}
    (hn : n < blocks.length) (hl : regionLeader all (index + n) = true) :
    (blockFacts all index facts blocks n).state = fun _ => unknownValue := by
  induction blocks generalizing index facts n with
  | nil => cases hn
  | cons block rest ih =>
    cases n with
    | zero =>
      rw [Nat.add_zero] at hl
      rw [blockFacts,entering,if_pos hl]
    | succ n =>
      refine ih _ _ (Nat.lt_of_succ_lt_succ hn) ?_
      rw [show index + 1 + n = index + (n + 1) by omega]
      exact hl

theorem blockFacts_succ (index : ℕ) (facts : Facts) {n : ℕ} {blocks : List DolIRBlock}
    {block : DolIRBlock} (hb : blocks[n]? = some block) (hn : n + 1 < blocks.length) :
    blockFacts all index facts blocks (n + 1) = entering all (index + n + 1)
      (block.instructions.foldl transfer (blockFacts all index facts blocks n)) := by
  induction blocks generalizing index facts n with
  | nil => cases hn
  | cons block' rest ih =>
    cases n with
    | zero =>
      cases hb
      obtain _ | ⟨next,rest⟩ := rest
      · simp at hn
      · rw [← analyzeInstructions_facts]
        rfl
    | succ n =>
      have := ih (index + 1)
        (analyzeInstructions (entering all index facts) block'.instructions).1 hb
        (Nat.lt_of_succ_lt_succ hn)
      rw [show index + (n + 1) + 1 = index + 1 + n + 1 by omega]
      exact this

end

/-- Only the terminators decide which blocks are leaders. -/
theorem regionLeader_congr {blocks blocks' : List DolIRBlock}
    (h : blocks.map DolIRBlock.terminator = blocks'.map DolIRBlock.terminator) (index : ℕ) :
    regionLeader blocks index = regionLeader blocks' index := by
  have hget : ∀ (blocks : List DolIRBlock) (n : ℕ) (p : DolIRTerminator → Bool),
      (blocks[n]?.any fun b => p b.terminator) =
        (blocks.map DolIRBlock.terminator)[n]?.any p := fun blocks n p => by
    rw [List.getElem?_map,Option.any_map]
  have hany : ∀ (blocks : List DolIRBlock) (p : DolIRTerminator → Bool),
      (blocks.any fun b => p b.terminator) = (blocks.map DolIRBlock.terminator).any p :=
    fun blocks p => by
      rw [List.any_map]
      rfl
  unfold regionLeader
  rw [hget blocks index fun t => t.kind == .fallback,
    hget blocks (index - 1) fun t => index != 0 && t.kind != .fallthrough,
    hany blocks fun t => t.targets.contains index,
    hget blocks' index fun t => t.kind == .fallback,
    hget blocks' (index - 1) fun t => index != 0 && t.kind != .fallthrough,
    hany blocks' fun t => t.targets.contains index,h]

/-- An execution that enters at leaders, in any state, comes to instruction `k` of a block. The
emitter forgets the values at the end of a block, so the next one starts with the slots alone. -/
inductive Reaches (m : Machine) (blocks : List DolIRBlock) : ℕ → ℕ → Machine.Frame → Prop
  | enter {b : ℕ} (hl : regionLeader blocks b = true) (st : IRState) :
      Reaches m blocks b 0 ⟨st,fun _ => none⟩
  | step {b k : ℕ} {frame frame' : Machine.Frame} {block : DolIRBlock} {i : DolIRInstruction}
      (h : Reaches m blocks b k frame) (hb : blocks[b]? = some block)
      (hi : block.instructions[k]? = some i) (he : m.execInstruction i frame = .next frame') :
      Reaches m blocks b (k + 1) frame'
  | fall {b : ℕ} {frame : Machine.Frame} {block : DolIRBlock} (hb : blocks[b]? = some block)
      (h : Reaches m blocks b block.instructions.length frame)
      (hl : regionLeader blocks (b + 1) = false) :
      Reaches m blocks (b + 1) 0 ⟨frame.st,fun _ => none⟩

theorem execInstruction_annotate (facts : Facts) (i : DolIRInstruction) (frame : Machine.Frame) :
    m.execInstruction (annotate facts i) frame = m.execInstruction i frame := by
  unfold annotate
  dsimp only
  split <;> rfl

def factsAt (blocks : List DolIRBlock) (b k : ℕ) (block : DolIRBlock) : Facts :=
  (block.instructions.take k).foldl transfer (blockFacts blocks 0 .start blocks b)

/-- The facts hold wherever an execution of the analysed function comes. -/
theorem reaches_sound {f : DolIRFunction}
    (hc : ∀ block ∈ f.blocks, ∀ i ∈ block.instructions, Covers m i) {b k : ℕ}
    (h : Reaches m (dolirAnalyzeAddresses f).blocks b k frame) {block : DolIRBlock}
    (hb : f.blocks[b]? = some block) :
    k ≤ block.instructions.length ∧ Sound (factsAt f.blocks b k block) frame := by
  have hleader : ∀ n, regionLeader (dolirAnalyzeAddresses f).blocks n = regionLeader f.blocks n :=
    regionLeader_congr (analyzeBlocks_terminators f.blocks 0 .start f.blocks)
  have hblocks : ∀ n, (dolirAnalyzeAddresses f).blocks[n]? =
      f.blocks[n]?.map (annotateBlock (blockFacts f.blocks 0 .start f.blocks n)) :=
    analyzeBlocks_get f.blocks 0 .start f.blocks
  induction h generalizing block with
  | @enter b hl st =>
    refine ⟨Nat.zero_le _,⟨fun _ _ hid => (by cases hid),fun slot => ?_⟩⟩
    rw [hleader,← Nat.zero_add b] at hl
    have hstate := blockFacts_leader f.blocks 0 .start
      (List.getElem?_eq_some_iff.mp hb).1 hl
    show Holds ((blockFacts f.blocks 0 .start f.blocks b).state slot) _
    rw [hstate]
    exact holds_unknown _
  | @step b k frame frame' block' i' h hb' hi he ih =>
    obtain ⟨hk,hs⟩ := ih hb
    rw [hblocks,hb] at hb'
    cases hb'
    rw [annotateBlock,analyzeInstructions_get] at hi
    obtain ⟨i,hget,rfl⟩ := Option.map_eq_some_iff.mp hi
    rw [execInstruction_annotate] at he
    have hlt := (List.getElem?_eq_some_iff.mp hget).1
    refine ⟨hlt,?_⟩
    have hmem := hc block (List.mem_of_getElem? hb) i (List.mem_of_getElem? hget)
    rw [factsAt,List.take_add_one,hget,Option.toList_some,List.foldl_append]
    exact transfer_sound hs hmem he
  | @fall b frame block' hb' h hl ih =>
    rw [hblocks] at hb'
    obtain ⟨before,hbefore,rfl⟩ := Option.map_eq_some_iff.mp hb'
    obtain ⟨-,hs⟩ := ih hbefore
    have hsucc := blockFacts_succ f.blocks 0 .start hbefore
      (List.getElem?_eq_some_iff.mp hb).1
    rw [hleader] at hl
    rw [Nat.zero_add,entering,if_neg (by rw [hl]; exact Bool.false_ne_true)] at hsucc
    rw [annotateBlock,analyzeInstructions_length,factsAt,List.take_length] at hs
    refine ⟨Nat.zero_le _,⟨fun _ _ hid => (by cases hid),fun slot => ?_⟩⟩
    show Holds ((blockFacts f.blocks 0 .start f.blocks (b + 1)).state slot) _
    rw [hsucc]
    exact hs.state slot

/-- A region of RAM, through either alias. -/
def InRegion (base size : BitVec 32) (address : BitVec 32) : Prop :=
  base ≤ LlvmMemory.normalizeAddress address ∧ LlvmMemory.normalizeAddress address - base < size

/-- The addresses that a domain names. -/
def Window : DolIRAddressDomain → BitVec 32 → Prop
  | .unknown, _ => True
  | .fifo, address => 0xCC008000#32 ≤ address ∧ address < 0xCC009000#32
  | .mmio, address => 0xCC000000#32 ≤ address ∧ address < 0xCE000000#32
  | .mem1, address => InRegion gcRamBase gcMainRamSize address
  | .mem2, address => InRegion wiiMem2Base wiiMem2Size address
  | .physical, address => address < gcRamBase
  | .guestData, address => gcRamBase ≤ address ∧ address < 0xE0000000#32

theorem inRegion_of {base size address : BitVec 32}
    (h : base ≤ LlvmMemory.normalizeAddress address ∧
      LlvmMemory.normalizeAddress address < base + size)
    (hsum : base.toNat + size.toNat < 2^32) : InRegion base size address := by
  refine ⟨h.1,?_⟩
  have h1 := BitVec.le_def.mp h.1
  have h2 := BitVec.lt_def.mp h.2
  rw [BitVec.toNat_add,Nat.mod_eq_of_lt hsum] at h2
  rw [BitVec.lt_def,BitVec.toNat_sub_of_le h.1]
  omega

theorem classifyAddress_window (address : BitVec 32) :
    Window (classifyAddress address) address := by
  unfold classifyAddress
  dsimp only
  split
  next h => exact h
  next =>
    split
    next h => exact h
    next =>
      split
      next h => exact inRegion_of h (by decide)
      next =>
        split
        next h => exact inRegion_of h (by decide)
        next =>
          split
          next h => exact h
          next hlow =>
            split
            next h => exact ⟨BitVec.not_lt.mp hlow,h⟩
            next => trivial

/-- Both ends of the interval are in the region, through one alias. -/
structure Within (base size lower upper : BitVec 32) : Prop where
  inside : ∃ k, (k = 0 ∨ k = 2^30) ∧ base.toNat + k ≤ lower.toNat ∧
    lower.toNat ≤ upper.toNat ∧ upper.toNat < base.toNat + k + size.toNat

theorem within_of_rangeInWindow {lower upper base size window : BitVec 32} (k : ℕ)
    (hk : k = 0 ∨ k = 2^30) (hwindow : window.toNat = base.toNat + k)
    (h : rangeInWindow lower upper window size = true) : Within base size lower upper := by
  simp only [rangeInWindow,decide_eq_true_eq] at h
  obtain ⟨-,hlo,hle,-,hup⟩ := h
  have hlo' := BitVec.le_def.mp hlo
  have hle' := BitVec.le_def.mp hle
  have hup' := BitVec.lt_def.mp hup
  rw [BitVec.toNat_sub_of_le (BitVec.le_def.mpr (hlo'.trans hle'))] at hup'
  rw [hwindow] at hlo' hup'
  exact ⟨k,hk,hlo',hle',by omega⟩

/-- What a domain that is not unknown was found from. -/
theorem classifyRange_cases {lower upper : BitVec 32}
    (h : classifyRange lower upper ≠ .unknown) : lower = upper ∨
    classifyRange lower upper = .mem1 ∧ Within gcRamBase gcMainRamSize lower upper ∨
    classifyRange lower upper = .mem2 ∧ Within wiiMem2Base wiiMem2Size lower upper := by
  unfold classifyRange at h ⊢
  split
  next heq => exact .inl heq
  next hne =>
    rw [if_neg hne] at h
    right
    split
    next hw => exact .inl ⟨rfl,within_of_rangeInWindow 0 (.inl rfl) rfl hw⟩
    next h1 =>
      split
      next hw => exact .inr ⟨rfl,within_of_rangeInWindow 0 (.inl rfl) rfl hw⟩
      next h2 =>
        split
        next hw => exact .inl ⟨rfl,within_of_rangeInWindow (2^30) (.inr rfl) rfl hw⟩
        next h3 =>
          split
          next hw => exact .inr ⟨rfl,within_of_rangeInWindow (2^30) (.inr rfl) rfl hw⟩
          next h4 =>
            rw [if_neg h1,if_neg h2,if_neg h3,if_neg h4] at h
            exact absurd rfl h

/-- Normalising keeps the order inside a window, and an address between the ends is inside. -/
theorem Within.between {base size lower upper address : BitVec 32}
    (h : Within base size lower upper) (hbase : base.toNat/2^30 = 2)
    (hwin : base.toNat % 2^30 + size.toNat ≤ 2^30) (hlo : lower ≤ address) (hhi : address ≤ upper) :
    InRegion base size address ∧
      LlvmMemory.normalizeAddress lower ≤ LlvmMemory.normalizeAddress address ∧
      LlvmMemory.normalizeAddress address ≤ LlvmMemory.normalizeAddress upper := by
  obtain ⟨k,hk,h1,h2,h3⟩ := h
  have hlo := BitVec.le_def.mp hlo
  have hhi := BitVec.le_def.mp hhi
  have hnorm : ∀ x : BitVec 32, base.toNat + k ≤ x.toNat → x.toNat < base.toNat + k + size.toNat →
      (LlvmMemory.normalizeAddress x).toNat = x.toNat - k := by
    intro x hx hx'
    rw [LlvmMemory.normalizeAddress_toNat]
    rcases hk with rfl | rfl <;> split <;> omega
  have hna := hnorm address (by omega) (by omega)
  have hbase' : base ≤ LlvmMemory.normalizeAddress address := by
    rw [BitVec.le_def,hna]
    omega
  refine ⟨⟨hbase',?_⟩,?_,?_⟩
  · rw [BitVec.lt_def,BitVec.toNat_sub_of_le hbase',hna]
    omega
  · rw [BitVec.le_def,hna,hnorm lower (by omega) (by omega)]
    omega
  · rw [BitVec.le_def,hna,hnorm upper (by omega) (by omega)]
    omega

/-- `base` of `nativeMemoryAccess` and `provenMemoryPointer` -/
def regionBase (domain : DolIRAddressDomain) : BitVec 32 :=
  if domain = .mem2 then wiiMem2Base else gcRamBase

/-- `provenMemoryPointer`: the offset of the access in its region. -/
def provenMemoryPointer (fixedMemoryLayout : Bool) (expectedRamSize expectedMem2Size : BitVec 32)
    (i : DolIRInstruction) (address : BitVec 32) (width : ℕ) : Option (BitVec 32) :=
  let lower := i.addressLower &&& ~~~0x40000000#32
  let upper := i.addressUpper &&& ~~~0x40000000#32
  let base := regionBase i.addressDomain
  let expectedSize := if i.addressDomain = .mem2 then expectedMem2Size else expectedRamSize
  if !fixedMemoryLayout ∨ i.addressDomain ≠ .mem1 ∧ i.addressDomain ≠ .mem2 then none
  else if expectedSize.toNat < width ∨ lower < base ∨ upper < lower ∨
      expectedSize.toNat - width < (upper - base).toNat then none
  else some (LlvmMemory.normalizeAddress address - base)

/-- The bytes of an access are in a region of RAM. -/
def TouchesOnly (base size address : BitVec 32) (width : ℕ) : Prop :=
  base ≤ LlvmMemory.normalizeAddress address ∧
    (LlvmMemory.normalizeAddress address - base).toNat + width ≤ size.toNat

/-- What the analysis has recorded of an access is true of its address. -/
structure AddressSound (i : DolIRInstruction) (address : BitVec 32) : Prop where
  bounds : i.addressDomain ≠ .unknown → i.addressLower ≤ address ∧ address ≤ i.addressUpper
  window : Window i.addressDomain address
  native : ∀ width, AbiLiveness.nativeMemoryAccess i width = true →
    TouchesOnly (regionBase i.addressDomain)
      (if i.addressDomain = .mem2 then wiiMem2Size else gcMainRamSize) address width
  proven : ∀ fixedMemoryLayout expectedRamSize expectedMem2Size width offset,
    provenMemoryPointer fixedMemoryLayout expectedRamSize expectedMem2Size i address width =
      some offset →
    offset = LlvmMemory.normalizeAddress address - regionBase i.addressDomain ∧
    TouchesOnly (regionBase i.addressDomain)
      (if i.addressDomain = .mem2 then expectedMem2Size else expectedRamSize) address width

theorem touchesOnly_of {base size lower upper address : BitVec 32} {width : ℕ}
    (hsize : width ≤ size.toNat) (hbase : base ≤ lower)
    (hup : (upper - base).toNat ≤ size.toNat - width)
    (hlo : lower ≤ LlvmMemory.normalizeAddress address)
    (hhi : LlvmMemory.normalizeAddress address ≤ upper) : TouchesOnly base size address width := by
  have h1 := BitVec.le_def.mp hbase
  have h2 := BitVec.le_def.mp hlo
  have h3 := BitVec.le_def.mp hhi
  have hb : base ≤ LlvmMemory.normalizeAddress address := BitVec.le_def.mpr (h1.trans h2)
  rw [BitVec.toNat_sub_of_le (BitVec.le_def.mpr ((h1.trans h2).trans h3))] at hup
  refine ⟨hb,?_⟩
  rw [BitVec.toNat_sub_of_le hb]
  omega

/-- The bounds and the window are enough for the unchecked paths. -/
theorem addressSound_of {i : DolIRInstruction} {address : BitVec 32}
    (hlo : i.addressLower ≤ address) (hhi : address ≤ i.addressUpper)
    (hw : Window i.addressDomain address)
    (hnlo : LlvmMemory.normalizeAddress i.addressLower ≤ LlvmMemory.normalizeAddress address)
    (hnhi : LlvmMemory.normalizeAddress address ≤ LlvmMemory.normalizeAddress i.addressUpper) :
    AddressSound i address := by
  refine ⟨fun _ => ⟨hlo,hhi⟩,hw,fun width h => ?_,fun fixed ram mem2 width offset h => ?_⟩
  · unfold AbiLiveness.nativeMemoryAccess at h
    dsimp only at h
    split at h
    next hd =>
      simp only [decide_eq_true_eq] at h
      rw [regionBase,hd]
      exact touchesOnly_of h.2.1 h.2.2.1 h.2.2.2.2 hnlo hnhi
    next hd =>
      simp only [decide_eq_true_eq] at h
      rw [regionBase,hd]
      exact touchesOnly_of h.2.1 h.2.2.1 h.2.2.2.2 hnlo hnhi
    next => cases h
  · unfold provenMemoryPointer at h
    dsimp only at h
    generalize (if i.addressDomain = .mem2 then mem2 else ram) = size at h ⊢
    split at h
    next => cases h
    next =>
      split at h
      next => cases h
      next hno =>
        simp only [not_or,Nat.not_lt,BitVec.not_lt] at hno
        obtain ⟨hsize,hbase,-,hup⟩ := hno
        exact ⟨(Option.some.inj h).symm,touchesOnly_of hsize hbase hup hnlo hnhi⟩

/-- Without a domain no check is left out. -/
theorem addressSound_unknown {i : DolIRInstruction} (address : BitVec 32)
    (h : i.addressDomain = .unknown) : AddressSound i address := by
  refine ⟨fun hd => absurd h hd,?_,fun width hn => ?_,fun fixed ram mem2 width offset hp => ?_⟩
  · rw [h]
    trivial
  · simp only [AbiLiveness.nativeMemoryAccess,h] at hn
    cases hn
  · simp only [provenMemoryPointer,h] at hp
    rw [if_pos (.inr (by decide))] at hp
    cases hp

theorem annotate_cases {i : DolIRInstruction}
    (h : (annotate facts i).addressDomain ≠ .unknown) :
    let address := facts.values (i.operands.getD 0 0)
    address.bounded = true ∧ address.upper ≤ 0xFFFFFFFF#64 ∧
      (annotate facts i).addressLower = address.lower.truncate 32 ∧
      (annotate facts i).addressUpper = address.upper.truncate 32 ∧
      (annotate facts i).addressDomain =
        classifyRange (address.lower.truncate 32) (address.upper.truncate 32) := by
  unfold annotate at h ⊢
  dsimp only at h ⊢
  split at h
  next hc =>
    rw [if_pos hc]
    exact ⟨hc.2.1,hc.2.2.1,rfl,rfl,rfl⟩
  next => exact absurd rfl h

theorem annotate_operands (facts : Facts) (i : DolIRInstruction) :
    (annotate facts i).operands = i.operands := by
  unfold annotate
  dsimp only
  split <;> rfl

theorem annotate_sound {i : DolIRInstruction} {address : BitVec 32} (hs : Sound facts frame)
    (ha : frame.env (i.operands.getD 0 0) = some (.i32 address)) :
    AddressSound (annotate facts i) address := by
  by_cases h : (annotate facts i).addressDomain = .unknown
  · exact addressSound_unknown address h
  obtain ⟨hb,hmax,hlower,hupper,hdomain⟩ := annotate_cases h
  obtain ⟨hlo,hhi,-⟩ := (holds_of_toInt (Value.toInt_i32 address)).mp (hs.values _ _ ha) hb
  rw [zeroExtend_toNat (by decide)] at hlo hhi
  have hmax' : (facts.values (i.operands.getD 0 0)).upper.toNat ≤ 0xFFFFFFFF :=
    BitVec.le_def.mp hmax
  have hlo' : (annotate facts i).addressLower ≤ address := by
    rw [hlower,BitVec.le_def,BitVec.toNat_setWidth,Nat.mod_eq_of_lt (by omega)]
    exact hlo
  have hhi' : address ≤ (annotate facts i).addressUpper := by
    rw [hupper,BitVec.le_def,BitVec.toNat_setWidth,Nat.mod_eq_of_lt (by omega)]
    exact hhi
  rw [← hlower,← hupper] at hdomain
  rw [hdomain] at h
  rcases classifyRange_cases h with heq | ⟨hd,hin⟩ | ⟨hd,hin⟩
  · have hsame : (annotate facts i).addressLower = address :=
      BitVec.le_antisymm hlo' (by rw [heq]; exact hhi')
    have hsame' : (annotate facts i).addressUpper = address := heq.symm.trans hsame
    refine addressSound_of hlo' hhi' ?_ ?_ ?_
    · rw [hdomain,classifyRange,if_pos heq,hsame]
      exact classifyAddress_window address
    · rw [hsame]
      exact BitVec.le_refl _
    · rw [hsame']
      exact BitVec.le_refl _
  · obtain ⟨hregion,hnlo,hnhi⟩ := hin.between (by decide) (by decide) hlo' hhi'
    refine addressSound_of hlo' hhi' ?_ hnlo hnhi
    rw [hdomain,hd]
    exact hregion
  · obtain ⟨hregion,hnlo,hnhi⟩ := hin.between (by decide) (by decide) hlo' hhi'
    refine addressSound_of hlo' hhi' ?_ hnlo hnhi
    rw [hdomain,hd]
    exact hregion

/-- Whatever state an execution enters its leader in, the address of an access with a domain is in
its bounds and its window, and an access that leaves out the checks stays in its region. -/
theorem analyze_addresses_sound (m : Machine) (f : DolIRFunction)
    (hc : ∀ block ∈ f.blocks, ∀ i ∈ block.instructions, Covers m i) (b k : ℕ)
    (frame : Machine.Frame) (h : Reaches m (dolirAnalyzeAddresses f).blocks b k frame)
    (block : DolIRBlock) (hb : (dolirAnalyzeAddresses f).blocks[b]? = some block)
    (i : DolIRInstruction) (hi : block.instructions[k]? = some i) (address : BitVec 32)
    (ha : frame.env (i.operands.getD 0 0) = some (.i32 address)) : AddressSound i address := by
  have hblocks := analyzeBlocks_get f.blocks 0 .start f.blocks b
  change (dolirAnalyzeAddresses f).blocks[b]? = _ at hblocks
  rw [hblocks] at hb
  obtain ⟨before,hbefore,rfl⟩ := Option.map_eq_some_iff.mp hb
  rw [annotateBlock,analyzeInstructions_get] at hi
  obtain ⟨i,-,rfl⟩ := Option.map_eq_some_iff.mp hi
  rw [annotate_operands] at ha
  exact annotate_sound (reaches_sound hc h hbefore).2 ha

def constantLoad : DolIRFunction where
  guestStart := 0x80003100
  guestEnd := 0x80003104
  blocks :=
    [{ guestAddress := 0x80003100
       instructions :=
         [{ op := .constant, type := .i32, result := 1, immediate := 0x80003100 },
          { op := .guestLoad 4 false, type := .i32, result := 2, operands := [1] }] }]
  valueCount := 3

theorem constantLoad_covers :
    ∀ block ∈ constantLoad.blocks, ∀ i ∈ block.instructions, Covers m i := by
  intro block hb i hi
  obtain rfl := List.mem_singleton.mp hb
  simp only [List.mem_cons,List.not_mem_nil,or_false] at hi
  rcases hi with rfl | rfl
  · exact covers_constant rfl
  · exact covers_guestLoad rfl

def constantAccess : DolIRInstruction :=
  { op := .guestLoad 4 false, type := .i32, result := 2, operands := [1], addressDomain := .mem1
    addressLower := 0x80003100, addressUpper := 0x80003100 }

theorem analyze_addresses_sound_constant : AddressSound constantAccess 0x80003100 :=
  analyze_addresses_sound { host := {} } constantLoad constantLoad_covers 0 1 _
    (.step (.enter (by decide) (IRState.load cpuInit)) rfl rfl rfl) _ rfl constantAccess (by decide)
    0x80003100 rfl

end AddressAnalysis

end DolRecomp
