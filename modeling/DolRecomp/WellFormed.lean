import DolRecomp.AddressAnalysis
import DolRecomp.LoweringSpecs

/-!
# Built functions are well formed

The specifications of the lowering functions are put together, block by block,
to the function that `dolir_build_chunk` returns, and that is compared with what
`dolir_verify` checks.
-/

namespace DolRecomp

namespace Builder

variable {first : ℕ} {ty : ℕ → DolIRType}

/-- The terminator of the block `index` of the instruction `i`, whose values lie between
`first` and `next`. -/
structure TerminatorOk (chunk : ChunkRange) (index : ℕ) (i : PPCInst) (first next : ℕ)
    (t : DolIRTerminator) : Prop where
  kind : t.kind ≠ .none
  condition : t.kind = .condBranch ∨ t.kind = .indirect → Defined first t.condition next
  targetValue : t.kind = .indirect → Defined first t.targetValue next
  fallthrough : t.kind = .fallthrough → t.targetAddress0 = i.address + 4 ∧
    t.target0 = if index + 1 < chunk.blockCount then some (index + 1) else none
  direct0 : t.kind = .branch ∨ t.kind = .condBranch →
    t.target0 = blockForAddress chunk t.targetAddress0
  direct1 : t.kind = .condBranch ∨ t.kind = .indirect →
    t.target1 = blockForAddress chunk t.targetAddress1
  address1 : t.kind = .condBranch ∨ t.kind = .indirect → t.targetAddress1 = i.address + 4
  bound0 : ∀ k, t.target0 = some k → k < chunk.blockCount
  bound1 : ∀ k, t.target1 = some k → k < chunk.blockCount

theorem blockForAddress_lt {chunk : ChunkRange} {address : BitVec 32} {k : ℕ}
    (h : blockForAddress chunk address = some k) : k < chunk.blockCount := by
  unfold blockForAddress at h
  split at h
  · cases h
  · simp only [Option.ite_none_right_eq_some,Option.some.injEq] at h
    exact h.2 ▸ h.1

theorem fallbackTerminator_ok (chunk : ChunkRange) (index : ℕ) (i : PPCInst) (next : ℕ) :
    TerminatorOk chunk index i first next (fallbackTerminator i) := by
  constructor <;> simp [fallbackTerminator]

theorem normalFallthrough_ok (chunk : ChunkRange) (index : ℕ) (i : PPCInst) (next : ℕ) :
    TerminatorOk chunk index i first next (normalFallthrough i index chunk.blockCount) := by
  constructor <;> simp [normalFallthrough]

instance (chunk : ChunkRange) (k : PPCInst) : Spec first ty (lowerControl chunk k)
    (fun _ => True) fun t next => ∀ u ∈ t, ∀ index, TerminatorOk chunk index k first next u := by
  refine ⟨fun i next hn hp => ?_⟩
  unfold lowerControl
  split
  all_goals
    repeat' first
      | refine wp_step ?_ ?_ ?_ | refine wp_pure ?_ | refine wp_bind ?_
      | rintro _ _ _ ⟨_,_⟩ | intro _ _ _ _ | refine ⟨?_,?_⟩ | trivial | omega | simp | split
  all_goals
    intro index
    constructor <;> simp
    all_goals first | omega | exact fun _ => blockForAddress_lt

theorem lowerBlock_wp (chunk : ChunkRange) (index : ℕ) (i : PPCInst) :
    wp first ty (lowerBlock chunk index i) i first fun t next =>
      TerminatorOk chunk index i first next t := by
  unfold lowerBlock
  split
  · exact wp_pure (fallbackTerminator_ok chunk index i first)
  · have rest {k : Option DolIRTerminator → Builder DolIRTerminator}
        (hsome : ∀ t, k (some t) = Pure.pure t)
        (hnone : k none = (do
          if ← lowerInstruction i then return normalFallthrough i index chunk.blockCount
          else return fallbackTerminator i))
        (next : ℕ) (hn : first ≤ next) : wp first ty (lowerControl chunk i >>= k) i next
          fun t next => TerminatorOk chunk index i first next t := by
      refine wp_step hn trivial ?_
      intro t m hm ht
      cases t with
      | some t =>
        rw [hsome]
        exact wp_pure (ht t rfl index)
      | none =>
        rw [hnone]
        refine wp_step (hn.trans hm) trivial ?_
        intro known m' hm' _
        split
        · exact wp_pure (normalFallthrough_ok chunk index i m')
        · exact wp_pure (fallbackTerminator_ok chunk index i m')
    split
    · refine wp_step (Nat.le_refl _) (by simp) fun _ m hm _ => ?_
      exact rest (fun _ => rfl) rfl m hm
    · exact rest (fun _ => rfl) rfl first (Nat.le_refl _)

end Builder

/-- The type of value `v` in a list of instructions from value number `next` on. -/
def typeFrom : ℕ → List DolIRInstruction → ℕ → DolIRType
  | _, [], _ => .void
  | next, i :: is, v => if v = next ∧ i.type ≠ .void then i.type else typeFrom (next + i.size) is v

theorem typeFrom_append {i : DolIRInstruction} (is js : List DolIRInstruction) (next : ℕ)
    (h : i.type ≠ .void) : typeFrom next (is ++ i :: js) (next + Builder.size is) = i.type := by
  induction is generalizing next with
  | nil => simp [typeFrom,Builder.size,h]
  | cons j is ih =>
    have hs : next + Builder.size (j :: is) = next + j.size + Builder.size is := by
      rw [Builder.size,Builder.size,List.map_cons,List.sum_cons,Nat.add_assoc]
    rw [List.cons_append,typeFrom,hs,if_neg,ih]
    rintro ⟨hv,hj⟩
    rw [DolIRInstruction.size,if_neg hj] at hv
    omega

def BlockOk (first : ℕ) (is : List DolIRInstruction) : Prop :=
  ∀ pre i post, is = pre ++ i :: post →
    WellFormed first (typeFrom first is) (first + Builder.size pre) i

theorem Builder.accepts_elim {first : ℕ} {ty : ℕ → DolIRType} {is : List DolIRInstruction}
    {next : ℕ} {Q : Prop} (h : Accepts first ty next is Q)
    (hty : ∀ pre i post, is = pre ++ i :: post → i.type ≠ .void →
      ty (next + size pre) = i.type) :
    (∀ pre i post, is = pre ++ i :: post → WellFormed first ty (next + size pre) i) ∧ Q := by
  induction is generalizing next with
  | nil => exact ⟨fun pre i post he => by simp at he,h⟩
  | cons j is ih =>
    have hs : ∀ pre, next + size (j :: pre) = next + j.size + size pre := fun pre => by
      rw [size,size,List.map_cons,List.sum_cons,Nat.add_assoc]
    obtain ⟨hj,hrest⟩ := h (hty [] j is rfl)
    obtain ⟨hw,hQ⟩ := ih hrest fun pre i post he hi => by
      rw [← hs,hty (j :: pre) i post (by rw [he,List.cons_append]) hi]
    refine ⟨fun pre i post he => ?_,hQ⟩
    cases pre with
    | nil =>
      obtain ⟨rfl,rfl⟩ := List.cons.inj he
      exact hj
    | cons k pre =>
      obtain ⟨rfl,he'⟩ := List.cons.inj he
      rw [hs]
      exact hw pre i post he'

theorem lowerBlock_ok (chunk : Builder.ChunkRange) (index : ℕ) (i : PPCInst) (first : ℕ) :
    BlockOk first (Builder.lowerBlock chunk index i i first).2.2 ∧
      (Builder.lowerBlock chunk index i i first).2.1 =
        Builder.size (Builder.lowerBlock chunk index i i first).2.2 ∧
      Builder.TerminatorOk chunk index i first
        (first + (Builder.lowerBlock chunk index i i first).2.1)
        (Builder.lowerBlock chunk index i i first).1 := by
  refine Builder.accepts_elim (Builder.lowerBlock_wp chunk index i) fun pre j post he hj => ?_
  rw [he]
  exact typeFrom_append pre post first hj

theorem exists_of_lt_size {is : List DolIRInstruction} {n : ℕ} (h : n < Builder.size is) :
    ∃ pre d post, is = pre ++ d :: post ∧ d.type ≠ .void ∧ Builder.size pre = n := by
  induction is generalizing n with
  | nil => simp [Builder.size] at h
  | cons j is ih =>
    by_cases hj : j.type = .void
    · obtain ⟨pre,d,post,he,hd,hs⟩ := ih (n := n) (by simpa [Builder.size,DolIRInstruction.size,hj] using h)
      exact ⟨j :: pre,d,post,by rw [he,List.cons_append],hd,
        by simpa [Builder.size,DolIRInstruction.size,hj] using hs⟩
    · cases n with
      | zero => exact ⟨[],j,is,rfl,hj,rfl⟩
      | succ n =>
        have hn : n < Builder.size is := by
          simp only [Builder.size,List.map_cons,List.sum_cons,DolIRInstruction.size,if_neg hj] at h ⊢
          omega
        obtain ⟨pre,d,post,he,hd,hs⟩ := ih hn
        refine ⟨j :: pre,d,post,by rw [he,List.cons_append],hd,?_⟩
        simp only [Builder.size,List.map_cons,List.sum_cons,DolIRInstruction.size,if_neg hj] at hs ⊢
        omega

namespace BlockOk

variable {first : ℕ} {is : List DolIRInstruction}

/-- A value number that a prefix of the block uses up is defined there. -/
theorem defined (h : BlockOk first is) {pre post : List DolIRInstruction} (he : is = pre ++ post)
    {v : ℕ} (hv : first ≤ v ∧ v < first + Builder.size pre) :
    ∃ d ∈ pre, d.result = v ∧ d.type ≠ .void ∧ d.type = typeFrom first is v := by
  obtain ⟨p,d,q,hp,hd,hs⟩ := exists_of_lt_size (show v - first < Builder.size pre by omega)
  have hi : is = p ++ d :: (q ++ post) := by rw [he,hp,List.append_assoc,List.cons_append]
  have hv' : first + Builder.size p = v := by omega
  have hr := (h p d _ hi).result
  rw [if_neg hd,hv'] at hr
  refine ⟨d,by simp [hp],hr,hd,?_⟩
  rw [← hv',hi]
  exact (typeFrom_append p _ first hd).symm

theorem operands (h : BlockOk first is) {pre post : List DolIRInstruction} {i : DolIRInstruction}
    (he : is = pre ++ i :: post) {v : DolIRValue} (hv : v ∈ i.operands) :
    ∃ d ∈ pre, d.result = v ∧ d.type ≠ .void := by
  obtain ⟨d,hd,hr,ht,-⟩ := h.defined he ((h pre i post he).operands v hv)
  exact ⟨d,hd,hr,ht⟩

theorem writes (h : BlockOk first is) {pre post : List DolIRInstruction} {i : DolIRInstruction}
    (he : is = pre ++ i :: post) {slot : DolIRStateSlot} (hop : i.op = .stateWrite slot) :
    ∃ d ∈ pre, i.operands = [d.result] ∧ d.type = dolirStateType slot := by
  have hw := h pre i post he
  obtain ⟨v,hv,ht⟩ := hw.write slot hop
  obtain ⟨d,hd,hr,-,htd⟩ := h.defined he (hw.operands v (by simp [hv]))
  exact ⟨d,hd,by rw [hv,hr],htd.trans ht⟩

end BlockOk

def definitions (is : List DolIRInstruction) : List DolIRValue :=
  (is.map (·.result)).filter (· ≠ dolirNoValue)

theorem definitions_of_ok {first : ℕ} (hf : 1 ≤ first) {ty : ℕ → DolIRType}
    {is : List DolIRInstruction} {next : ℕ} (hn : first ≤ next)
    (h : ∀ pre i post, is = pre ++ i :: post → WellFormed first ty (next + Builder.size pre) i) :
    definitions is = List.range' next (Builder.size is) := by
  induction is generalizing next with
  | nil => rfl
  | cons i is ih =>
    have hr := (h [] i is rfl).result
    have hrest := ih (show first ≤ next + i.size by omega) fun pre j post he => by
      have := h (i :: pre) j post (by rw [he,List.cons_append])
      simpa [Builder.size,Nat.add_assoc] using this
    by_cases hv : i.type = .void
    · rw [if_pos hv] at hr
      simpa [definitions,hr,Builder.size,DolIRInstruction.size,hv] using hrest
    · have hsize : Builder.size (i :: is) = Builder.size is + 1 := by
        simp [Builder.size,DolIRInstruction.size,hv,Nat.add_comm]
      have hne : next ≠ dolirNoValue := by
        rw [dolirNoValue]
        omega
      rw [if_neg hv] at hr
      rw [hsize,List.range'_succ]
      simpa [definitions,hr,Builder.size,DolIRInstruction.size,hv,hne] using hrest

def DolIRInstruction.strip (i : DolIRInstruction) : DolIRInstruction :=
  { i with addressDomain := .unknown, addressLower := 0, addressUpper := 0 }

namespace AddressAnalysis

theorem annotate_strip (facts : Facts) (i : DolIRInstruction) :
    (annotate facts i).strip = i.strip := by
  simp only [annotate]
  split <;> rfl

theorem analyzeInstructions_strip (facts : Facts) (is : List DolIRInstruction) :
    (analyzeInstructions facts is).2.map DolIRInstruction.strip = is.map DolIRInstruction.strip := by
  induction is generalizing facts with
  | nil => rfl
  | cons i is ih =>
    simp only [analyzeInstructions,List.map_cons,annotate_strip,ih]

theorem classifyRange_le {lower upper : BitVec 32} (h : classifyRange lower upper ≠ .unknown) :
    lower ≤ upper := by
  unfold classifyRange rangeInWindow at h
  split at h
  · rename_i he
    exact he ▸ BitVec.le_refl _
  · simp only [decide_eq_true_eq] at h
    split_ifs at h <;> tauto

theorem annotate_bounds (facts : Facts) (i : DolIRInstruction)
    (h : (annotate facts i).addressDomain ≠ .unknown) :
    (annotate facts i).addressLower ≤ (annotate facts i).addressUpper := by
  simp only [annotate] at h ⊢
  split_ifs at h ⊢ with hc
  · exact classifyRange_le hc.2.2.2
  · exact absurd rfl h

theorem analyzeInstructions_bounds (facts : Facts) (is : List DolIRInstruction) :
    ∀ i ∈ (analyzeInstructions facts is).2, i.addressDomain ≠ .unknown →
      i.addressLower ≤ i.addressUpper := by
  induction is generalizing facts with
  | nil => simp [analyzeInstructions]
  | cons j is ih =>
    intro i hi
    rcases List.mem_cons.mp hi with rfl | hi
    · exact annotate_bounds facts j
    · exact ih _ i hi

end AddressAnalysis

def DolIRBlock.strip (b : DolIRBlock) : DolIRBlock :=
  { b with instructions := b.instructions.map DolIRInstruction.strip }

theorem AddressAnalysis.analyzeBlocks_strip (all : List DolIRBlock) (index : ℕ) (facts : Facts)
    (blocks : List DolIRBlock) : (analyzeBlocks all index facts blocks).map DolIRBlock.strip =
      blocks.map DolIRBlock.strip := by
  induction blocks generalizing index facts with
  | nil => rfl
  | cons b blocks ih =>
    simp only [analyzeBlocks,List.map_cons,ih,DolIRBlock.strip,analyzeInstructions_strip]

theorem AddressAnalysis.analyzeBlocks_bounds (all : List DolIRBlock) (index : ℕ) (facts : Facts)
    (blocks : List DolIRBlock) : ∀ b ∈ analyzeBlocks all index facts blocks,
      ∀ i ∈ b.instructions, i.addressDomain ≠ .unknown → i.addressLower ≤ i.addressUpper := by
  induction blocks generalizing index facts with
  | nil => simp [analyzeBlocks]
  | cons c blocks ih =>
    intro b hb
    rcases List.mem_cons.mp hb with rfl | hb
    · exact analyzeInstructions_bounds _ _
    · exact ih _ _ b hb

@[simp] theorem size_map_strip (is : List DolIRInstruction) :
    Builder.size (is.map DolIRInstruction.strip) = Builder.size is := by
  rw [Builder.size,List.map_map]
  rfl

@[simp] theorem typeFrom_map_strip (is : List DolIRInstruction) (next : ℕ) :
    typeFrom next (is.map DolIRInstruction.strip) = typeFrom next is := by
  funext v
  induction is generalizing next with
  | nil => rfl
  | cons i is ih =>
    rw [List.map_cons,typeFrom,typeFrom,ih]
    rfl

@[simp] theorem definitions_map_strip (is : List DolIRInstruction) :
    definitions (is.map DolIRInstruction.strip) = definitions is := by
  rw [definitions,List.map_map]
  rfl

theorem wellFormed_strip {first : ℕ} {ty : ℕ → DolIRType} {next : ℕ} {i : DolIRInstruction} :
    WellFormed first ty next i.strip ↔ WellFormed first ty next i :=
  ⟨fun h => ⟨h.operands,h.arity,h.result,h.write⟩,fun h => ⟨h.operands,h.arity,h.result,h.write⟩⟩

theorem blockOk_strip {first : ℕ} {is : List DolIRInstruction} :
    BlockOk first (is.map DolIRInstruction.strip) ↔ BlockOk first is := by
  constructor
  · intro h pre i post he
    have := h (pre.map DolIRInstruction.strip) i.strip (post.map DolIRInstruction.strip)
      (by rw [he,List.map_append,List.map_cons])
    rw [wellFormed_strip,size_map_strip] at this
    simpa only [typeFrom_map_strip] using this
  · intro h pre i post he
    obtain ⟨pre',rest,hsplit,rfl,hrest⟩ := List.map_eq_append_iff.mp he
    obtain ⟨i',post',rfl,rfl,rfl⟩ := List.map_eq_cons_iff.mp hrest
    have := h pre' i' post' hsplit
    rw [wellFormed_strip,size_map_strip]
    simpa only [typeFrom_map_strip] using this

/-- What holds of the block of one instruction, whatever its annotations. -/
structure BuiltBlock (chunk : Builder.ChunkRange) (index : ℕ) (i : PPCInst) (first : ℕ)
    (b : DolIRBlock) : Prop where
  address : b.guestAddress = i.address
  body : BlockOk first b.instructions
  terminator : Builder.TerminatorOk chunk index i first (first + Builder.size b.instructions)
    b.terminator

theorem builtBlock_strip {chunk : Builder.ChunkRange} {index : ℕ} {i : PPCInst} {first : ℕ}
    {b : DolIRBlock} : BuiltBlock chunk index i first b.strip ↔ BuiltBlock chunk index i first b := by
  constructor
  · rintro ⟨ha,hb,ht⟩
    exact ⟨ha,blockOk_strip.mp hb,by simpa [DolIRBlock.strip] using ht⟩
  · rintro ⟨ha,hb,ht⟩
    exact ⟨ha,blockOk_strip.mpr hb,by simpa [DolIRBlock.strip] using ht⟩

theorem buildBlocks_built (chunk : Builder.ChunkRange) (insts : List PPCInst) (index next : ℕ)
    (hn : 1 ≤ next) :
    next ≤ (buildBlocks chunk index next insts).2 ∧
    (buildBlocks chunk index next insts).1.flatMap (fun b => definitions b.instructions) =
      List.range' next ((buildBlocks chunk index next insts).2 - next) ∧
    (buildBlocks chunk index next insts).1.length = insts.length ∧
    ∀ (n : ℕ) b, (buildBlocks chunk index next insts).1[n]? = some b → ∃ i first,
      insts[n]? = some i ∧ 1 ≤ first ∧
      first + Builder.size b.instructions ≤ (buildBlocks chunk index next insts).2 ∧
      BuiltBlock chunk (index + n) i first b := by
  induction insts generalizing index next with
  | nil => simp [buildBlocks]
  | cons i insts ih =>
    obtain ⟨hok,hsize,hterm⟩ := lowerBlock_ok chunk index i next
    have hsum : 1 ≤ next + (Builder.lowerBlock chunk index i i next).2.1 := by omega
    obtain ⟨hle,hdefs,hlen,hblocks⟩ := ih (index + 1) _ hsum
    have hfirst := definitions_of_ok hn (Nat.le_refl next) hok
    simp only [buildBlocks]
    refine ⟨by omega,?_,by simp [hlen],?_⟩
    · rw [List.flatMap_cons,hdefs,hfirst,← hsize,List.range'_append_1]
      congr 1
      omega
    · intro n b hb
      cases n with
      | zero =>
        obtain rfl := Option.some.inj hb
        refine ⟨i,next,rfl,hn,?_,rfl,hok,?_⟩
        · simpa only [← hsize] using hle
        · simpa only [← hsize,Nat.add_zero] using hterm
      | succ n =>
        obtain ⟨j,first,hj,h1,hf,hb⟩ := hblocks n b hb
        refine ⟨j,first,hj,h1,hf,?_⟩
        rwa [show index + (n + 1) = index + 1 + n by omega]

def verifyInstruction (f : DolIRFunction) (i : DolIRInstruction) : Bool :=
  i.result < f.valueCount && i.operands.length ≤ 4 &&
    i.operands.all (fun v => v ≠ dolirNoValue && v < f.valueCount) &&
    (i.addressDomain = .unknown || i.addressLower ≤ i.addressUpper)

def verifyTarget (f : DolIRFunction) (target : Option ℕ) : Bool :=
  target.all fun k => k < f.blocks.length

def verifyBlock (f : DolIRFunction) (b : DolIRBlock) : Bool :=
  b.terminator.kind ≠ .none && b.instructions.all (verifyInstruction f) &&
    verifyTarget f b.terminator.target0 && verifyTarget f b.terminator.target1

def verifyFunction (f : DolIRFunction) : Bool :=
  f.guestStart < f.guestEnd && f.blocks ≠ [] && f.blocks.all (verifyBlock f)

/-- `dolir_verify`; an empty module is refused. -/
def dolirVerify (functions : List DolIRFunction) : Bool :=
  functions ≠ [] && functions.all verifyFunction

/-- The values that a terminator of its kind reads. -/
def DolIRTerminator.values (t : DolIRTerminator) : List DolIRValue :=
  match t.kind with
  | .condBranch => [t.condition]
  | .indirect => [t.condition,t.targetValue]
  | _ => []

/-- A target names the block of its address, or no block when none has the address. -/
def TargetOk (f : DolIRFunction) (target : Option ℕ) (address : BitVec 32) : Prop :=
  ∀ k, target = some k ↔ ∃ b, f.blocks[k]? = some b ∧ b.guestAddress = address

structure WellFormedFunction (f : DolIRFunction) : Prop where
  verified : dolirVerify [f] = true
  once : ∀ v, dolirNoValue < v → v < f.valueCount →
    (f.blocks.flatMap fun b => definitions b.instructions).count v = 1
  operands : ∀ b ∈ f.blocks, ∀ pre i post, b.instructions = pre ++ i :: post →
    ∀ v ∈ i.operands, ∃ d ∈ pre, d.result = v ∧ d.type ≠ .void
  values : ∀ b ∈ f.blocks, ∀ v ∈ b.terminator.values,
    ∃ d ∈ b.instructions, d.result = v ∧ d.type ≠ .void
  writes : ∀ b ∈ f.blocks, ∀ pre i post slot, b.instructions = pre ++ i :: post →
    i.op = .stateWrite slot → ∃ d ∈ pre, i.operands = [d.result] ∧ d.type = dolirStateType slot
  address : ∀ (n : ℕ) b, f.blocks[n]? = some b →
    b.guestAddress = f.guestStart + BitVec.ofNat 32 (4*n)
  target0 : ∀ b ∈ f.blocks, b.terminator.kind = .fallthrough ∨ b.terminator.kind = .branch ∨
    b.terminator.kind = .condBranch →
    TargetOk f b.terminator.target0 b.terminator.targetAddress0
  target1 : ∀ b ∈ f.blocks, b.terminator.kind = .condBranch ∨ b.terminator.kind = .indirect →
    TargetOk f b.terminator.target1 b.terminator.targetAddress1

/-- Instructions at consecutive words. -/
def Consecutive (insts : List PPCInst) (guestStart : BitVec 32) : Prop :=
  ∀ (n : ℕ) i, insts[n]? = some i → i.address = guestStart + BitVec.ofNat 32 (4*n)

section

variable {insts : List PPCInst} {guestStart : BitVec 32} {f : DolIRFunction}

theorem address_inj (hfit : guestStart.toNat + 4*insts.length < 2^32) {a c : ℕ}
    (ha : a ≤ insts.length) (hc : c ≤ insts.length) :
    guestStart + BitVec.ofNat 32 (4*a) = guestStart + BitVec.ofNat 32 (4*c) ↔ a = c := by
  rw [BitVec.add_right_inj,← BitVec.toNat_inj,BitVec.toNat_ofNat,BitVec.toNat_ofNat,
    Nat.mod_eq_of_lt (by omega),Nat.mod_eq_of_lt (by omega)]
  omega

theorem blockForAddress_eq_some (hfit : guestStart.toNat + 4*insts.length < 2^32)
    (address : BitVec 32) (k : ℕ) :
    Builder.blockForAddress (chunkRange insts guestStart) address = some k ↔
      k < insts.length ∧ guestStart + BitVec.ofNat 32 (4*k) = address := by
  have hand : ∀ w : BitVec 32, w &&& 3#32 ≠ 0 ↔ w.toNat % 4 ≠ 0 := fun w => by
    rw [ne_eq,← BitVec.toNat_inj,BitVec.toNat_and]
    exact not_congr (by rw [show (3#32).toNat = 2^2 - 1 from rfl,Nat.and_two_pow_sub_one_eq_mod]; rfl)
  have hend : (guestStart + BitVec.ofNat 32 (4*insts.length)).toNat =
      guestStart.toNat + 4*insts.length := by
    rw [BitVec.toNat_add,BitVec.toNat_ofNat,Nat.mod_eq_of_lt (a := 4*insts.length) (by omega),
      Nat.mod_eq_of_lt hfit]
  have hk : k < insts.length → (guestStart + BitVec.ofNat 32 (4*k)).toNat =
      guestStart.toNat + 4*k := fun hk => by
    rw [BitVec.toNat_add,BitVec.toNat_ofNat,Nat.mod_eq_of_lt (a := 4*k) (by omega),
      Nat.mod_eq_of_lt (by omega)]
  simp only [Builder.blockForAddress,chunkRange,hand,BitVec.lt_def,BitVec.le_def,hend]
  have hsub : guestStart.toNat ≤ address.toNat →
      (address - guestStart).toNat = address.toNat - guestStart.toNat := BitVec.toNat_sub_of_le
  have hlt := address.isLt
  split
  · rename_i h
    refine iff_of_false (by simp) ?_
    rintro ⟨hkl,rfl⟩
    rw [hk hkl] at h hsub
    rcases h with h | h | h
    · omega
    · omega
    · rw [hsub (by omega)] at h
      omega
  · rename_i h
    simp only [not_or,not_lt,not_le,not_not] at h
    obtain ⟨h1,h2,h3⟩ := h
    rw [hsub h1] at h3
    simp only [Option.ite_none_right_eq_some,Option.some.injEq,hsub h1]
    constructor
    · rintro ⟨hc,rfl⟩
      refine ⟨hc,?_⟩
      rw [← BitVec.toNat_inj,hk hc]
      omega
    · rintro ⟨hc,rfl⟩
      rw [hk hc] at h1 h2 h3 ⊢
      omega

theorem build_blocks (h : dolirBuildChunk insts guestStart = some f) :
    f.blocks.length = insts.length ∧
    (f.blocks.flatMap fun b => definitions b.instructions) = List.range' 1 (f.valueCount - 1) ∧
    ∀ (n : ℕ) b, f.blocks[n]? = some b → ∃ i first, insts[n]? = some i ∧ 1 ≤ first ∧
      first + Builder.size b.instructions ≤ f.valueCount ∧
      BuiltBlock (chunkRange insts guestStart) n i first b := by
  have hf : f = dolirAnalyzeAddresses (buildFunction insts guestStart) := by
    unfold dolirBuildChunk at h
    split at h
    · cases h
    · exact (Option.some.inj h).symm
  have hstrip : f.blocks.map DolIRBlock.strip =
      (buildFunction insts guestStart).blocks.map DolIRBlock.strip := by
    rw [hf]
    exact AddressAnalysis.analyzeBlocks_strip _ _ _ _
  have hcount : f.valueCount = (buildFunction insts guestStart).valueCount := by rw [hf]; rfl
  obtain ⟨-,hdefs,hlen,hblocks⟩ :=
    buildBlocks_built (chunkRange insts guestStart) insts 0 1 (Nat.le_refl 1)
  have hflat : ∀ blocks : List DolIRBlock, (blocks.flatMap fun b => definitions b.instructions) =
      (blocks.map DolIRBlock.strip).flatMap fun b => definitions b.instructions := fun blocks => by
    simp [List.flatMap_map,DolIRBlock.strip]
  refine ⟨?_,?_,?_⟩
  · have := congrArg List.length hstrip
    rw [List.length_map,List.length_map] at this
    exact this.trans hlen
  · rw [hflat,hstrip,← hflat,hcount]
    exact hdefs
  · intro n b hb
    have hget : (f.blocks.map DolIRBlock.strip)[n]? = some b.strip := by rw [List.getElem?_map,hb]; rfl
    rw [hstrip,List.getElem?_map] at hget
    obtain ⟨c,hc,hcb⟩ := Option.map_eq_some_iff.mp hget
    obtain ⟨i,first,hi,h1,hfirst,hbuilt⟩ := hblocks n c hc
    refine ⟨i,first,hi,h1,?_,?_⟩
    · have hsize : Builder.size b.instructions = Builder.size c.instructions := by
        rw [← size_map_strip,← size_map_strip c.instructions]
        exact congrArg (fun b : DolIRBlock => Builder.size b.instructions) hcb.symm
      rw [hsize,hcount]
      exact hfirst
    · rw [← builtBlock_strip,← hcb,builtBlock_strip]
      simpa using hbuilt

theorem build_target (h : dolirBuildChunk insts guestStart = some f)
    (ha : Consecutive insts guestStart) {target : Option ℕ} {address : BitVec 32}
    (ht : ∀ k, target = some k ↔
      k < insts.length ∧ guestStart + BitVec.ofNat 32 (4*k) = address) : TargetOk f target address := by
  obtain ⟨hlen,-,hblocks⟩ := build_blocks h
  intro k
  rw [ht]
  constructor
  · rintro ⟨hk,rfl⟩
    obtain ⟨b,hb⟩ : ∃ b, f.blocks[k]? = some b := ⟨_,List.getElem?_eq_getElem (hlen ▸ hk)⟩
    obtain ⟨i,first,hi,-,-,hbuilt⟩ := hblocks k b hb
    exact ⟨b,hb,hbuilt.address.trans (ha k i hi)⟩
  · rintro ⟨b,hb,rfl⟩
    obtain ⟨i,first,hi,-,-,hbuilt⟩ := hblocks k b hb
    exact ⟨(List.getElem?_eq_some_iff.mp hi).1,(hbuilt.address.trans (ha k i hi)).symm⟩

theorem build_fallthrough (h : dolirBuildChunk insts guestStart = some f)
    (ha : Consecutive insts guestStart) (hfit : guestStart.toNat + 4*insts.length < 2^32)
    {n : ℕ} {i : PPCInst} (hi : insts[n]? = some i) :
    TargetOk f (if n + 1 < insts.length then some (n + 1) else none) (i.address + 4) := by
  have hn := (List.getElem?_eq_some_iff.mp hi).1
  have hnext : i.address + 4 = guestStart + BitVec.ofNat 32 (4*(n + 1)) := by
    rw [ha n i hi,BitVec.add_assoc,Nat.mul_add,BitVec.ofNat_add]
    rfl
  refine build_target h ha fun k => ?_
  rw [hnext]
  simp only [Option.ite_none_right_eq_some,Option.some.injEq]
  constructor
  · rintro ⟨hn1,rfl⟩
    exact ⟨hn1,rfl⟩
  · rintro ⟨hk,he⟩
    have := (address_inj hfit hk.le (by omega)).mp he
    omega

theorem build_verified (h : dolirBuildChunk insts guestStart = some f)
    (hfit : guestStart.toNat + 4*insts.length < 2^32) : dolirVerify [f] = true := by
  obtain ⟨hlen,-,hblocks⟩ := build_blocks h
  have hf : insts ≠ [] ∧ f = dolirAnalyzeAddresses (buildFunction insts guestStart) := by
    unfold dolirBuildChunk at h
    split at h
    · cases h
    · exact ⟨by assumption,(Option.some.inj h).symm⟩
  have hpos : 0 < insts.length := List.length_pos_iff.mpr hf.1
  have hrange : f.guestStart < f.guestEnd := by
    rw [hf.2]
    show guestStart < guestStart + BitVec.ofNat 32 (4*insts.length)
    rw [BitVec.lt_def,BitVec.toNat_add,BitVec.toNat_ofNat,
      Nat.mod_eq_of_lt (a := 4*insts.length) (by omega),Nat.mod_eq_of_lt hfit]
    omega
  have hne : f.blocks ≠ [] := List.ne_nil_of_length_pos (hlen ▸ hpos)
  have htarget : ∀ target : Option ℕ, (∀ k, target = some k → k < insts.length) →
      verifyTarget f target = true := fun target ht => by
    cases target with
    | none => rfl
    | some k => simpa [verifyTarget,hlen] using ht k rfl
  have hblock : ∀ b ∈ f.blocks, verifyBlock f b = true := by
    intro b hb
    obtain ⟨n,hn⟩ := List.mem_iff_getElem?.mp hb
    obtain ⟨i,first,-,h1,hfirst,hbuilt⟩ := hblocks n b hn
    have ht := hbuilt.terminator
    have hbody : ∀ j ∈ b.instructions, verifyInstruction f j = true := by
      intro j hj
      obtain ⟨pre,post,he⟩ := List.append_of_mem hj
      have hw := hbuilt.body pre j post he
      have hsize : Builder.size pre + j.size ≤ Builder.size b.instructions := by
        rw [he,Builder.size_append]
        simp only [Builder.size,List.map_cons,List.sum_cons]
        omega
      have hresult : j.result < f.valueCount := by
        rw [hw.result]
        unfold DolIRInstruction.size at hsize
        split_ifs with hv
        · exact (by omega : 0 < f.valueCount)
        · rw [if_neg hv] at hsize
          exact (by omega : first + Builder.size pre < f.valueCount)
      have hoperand : ∀ v ∈ j.operands, v ≠ dolirNoValue ∧ v < f.valueCount := by
        intro v hv
        obtain ⟨hfv,hvl⟩ := hw.operands v hv
        have hle : first + Builder.size pre ≤ f.valueCount := by omega
        exact ⟨Nat.ne_of_gt (h1.trans hfv),Nat.lt_of_lt_of_le hvl hle⟩
      have hbounds : j.addressDomain = .unknown ∨ j.addressLower ≤ j.addressUpper := by
        by_cases hu : j.addressDomain = .unknown
        · exact Or.inl hu
        · rw [hf.2] at hb
          exact Or.inr (AddressAnalysis.analyzeBlocks_bounds _ _ _ _ b hb j hj hu)
      simp only [verifyInstruction,Bool.and_eq_true,Bool.or_eq_true,decide_eq_true_eq,List.all_eq_true]
      exact ⟨⟨⟨hresult,hw.arity⟩,hoperand⟩,hbounds⟩
    simp only [verifyBlock,Bool.and_eq_true,decide_eq_true_eq,List.all_eq_true]
    exact ⟨⟨⟨ht.kind,hbody⟩,htarget _ ht.bound0⟩,htarget _ ht.bound1⟩
  simp only [dolirVerify,verifyFunction,List.all_cons,List.all_nil,Bool.and_true,Bool.and_eq_true,
    decide_eq_true_eq,List.all_eq_true]
  exact ⟨by simp,⟨hrange,hne⟩,hblock⟩

end

/-- A chunk whose end address is a word is lowered to a well formed function. -/
theorem build_chunk_well_formed (insts : List PPCInst) (guestStart : BitVec 32) (f : DolIRFunction)
    (h : dolirBuildChunk insts guestStart = some f) (ha : Consecutive insts guestStart)
    (hfit : guestStart.toNat + 4*insts.length < 2^32) : WellFormedFunction f := by
  obtain ⟨hlen,hdefs,hblocks⟩ := build_blocks h
  have hget : ∀ b ∈ f.blocks, ∃ (n : ℕ) (i : PPCInst) (first : ℕ), insts[n]? = some i ∧
      1 ≤ first ∧ BuiltBlock (chunkRange insts guestStart) n i first b := by
    intro b hb
    obtain ⟨n,hn⟩ := List.mem_iff_getElem?.mp hb
    obtain ⟨i,first,hi,h1,-,hbuilt⟩ := hblocks n b hn
    exact ⟨n,i,first,hi,h1,hbuilt⟩
  refine ⟨build_verified h hfit,?_,?_,?_,?_,?_,?_,?_⟩
  · intro v hv hvc
    rw [hdefs]
    refine List.count_eq_one_of_mem List.nodup_range' (List.mem_range'_1.mpr ⟨hv,?_⟩)
    exact Nat.lt_of_lt_of_le hvc (by omega)
  · intro b hb pre i post he v hv
    obtain ⟨n,j,first,hi,-,hbuilt⟩ := hget b hb
    exact hbuilt.body.operands he hv
  · intro b hb v hv
    obtain ⟨n,j,first,hi,-,hbuilt⟩ := hget b hb
    have hd : Builder.Defined first v (first + Builder.size b.instructions) := by
      unfold DolIRTerminator.values at hv
      split at hv
      · rename_i hk
        obtain rfl := List.mem_singleton.mp hv
        exact hbuilt.terminator.condition (Or.inl hk)
      · rename_i hk
        rcases List.mem_cons.mp hv with rfl | hv
        · exact hbuilt.terminator.condition (Or.inr hk)
        · obtain rfl := List.mem_singleton.mp hv
          exact hbuilt.terminator.targetValue hk
      · cases hv
    obtain ⟨d,hd,hr,ht,-⟩ := hbuilt.body.defined (List.append_nil _).symm hd
    exact ⟨d,hd,hr,ht⟩
  · intro b hb pre i post slot he hop
    obtain ⟨n,j,first,hi,-,hbuilt⟩ := hget b hb
    exact hbuilt.body.writes he hop
  · intro n b hb
    obtain ⟨i,first,hi,-,-,hbuilt⟩ := hblocks n b hb
    have hstart : f.guestStart = guestStart := by
      unfold dolirBuildChunk at h
      split at h
      · cases h
      · rw [← Option.some.inj h]
        rfl
    rw [hbuilt.address,ha n i hi,hstart]
  · intro b hb hk
    obtain ⟨n,i,first,hi,-,hbuilt⟩ := hget b hb
    rcases hk with hk | hk
    · obtain ⟨haddr,ht⟩ := hbuilt.terminator.fallthrough hk
      rw [haddr,ht]
      exact build_fallthrough h ha hfit hi
    · rw [hbuilt.terminator.direct0 hk]
      exact build_target h ha (blockForAddress_eq_some hfit _)
  · intro b hb hk
    obtain ⟨n,i,first,hi,-,hbuilt⟩ := hget b hb
    rw [hbuilt.terminator.direct1 hk]
    exact build_target h ha (blockForAddress_eq_some hfit _)

/-- `li r3,0` at the last word of the address space. -/
theorem build_chunk_end_wraps : ¬ ∀ insts guestStart f, dolirBuildChunk insts guestStart = some f →
    Consecutive insts guestStart → WellFormedFunction f := by
  intro h
  have hv := (h [ppcDecode 0x38600000#32 0xFFFFFFFC#32] 0xFFFFFFFC#32 _ rfl (by
    intro n i hi
    cases n with
    | zero =>
      obtain rfl := Option.some.inj hi
      rfl
    | succ n => simp at hi)).verified
  revert hv
  decide

/-- A branch to itself and a return. -/
theorem build_chunk_well_formed_loop : WellFormedFunction (dolirAnalyzeAddresses (buildFunction
    [ppcDecode 0x48000000#32 0x80003000#32,ppcDecode 0x4E800020#32 0x80003004#32]
    0x80003000#32)) := by
  have ha : Consecutive
      [ppcDecode 0x48000000#32 0x80003000#32,ppcDecode 0x4E800020#32 0x80003004#32]
      0x80003000#32 := by
    intro n i hi
    rcases n with _ | _ | n
    · obtain rfl := Option.some.inj hi
      rfl
    · obtain rfl := Option.some.inj hi
      rfl
    · simp at hi
  exact build_chunk_well_formed _ _ _ rfl ha (by decide)

end DolRecomp
