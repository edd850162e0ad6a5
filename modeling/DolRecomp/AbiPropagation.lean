import Mathlib
import DolRecomp.DolIR
import DolRecomp.Worklist

/-!
# Propagation of function ABIs

The masks of every function are joined along the call edges, first from callee
to caller, then the escaping state from caller to callee.
-/

namespace DolRecomp

deriving instance Fintype for DolIRStateSlot

/-- The masks of a function and its place; `native` is `DOLLLVM_FUNCTION_ABI_NATIVE`. -/
@[ext] structure DolLLVMFunctionRange where
  start : BitVec 32
  endAddr : BitVec 32
  semanticInput : StateMask := ∅
  mayDef : StateMask := ∅
  mustDef : StateMask := ∅
  callsiteLiveAfter : StateMask := ∅
  semanticOutput : StateMask := ∅
  input : StateMask := ∅
  output : StateMask := ∅
  escape : StateMask := ∅
  native : Bool := true
  deriving DecidableEq

structure DolLLVMCallEdge where
  callerStart : BitVec 32
  calleeAddress : BitVec 32
  liveAfter : StateMask := ∅
  definedBefore : StateMask := ∅
  deriving DecidableEq

def DolLLVMFunctionRange.Contains (r : DolLLVMFunctionRange) (address : BitVec 32) : Prop :=
  r.start ≤ address ∧ address < r.endAddr

/-- Disjoint functions, in any order. -/
@[ext] structure FunctionTable (n : ℕ) where
  range : Fin n → DolLLVMFunctionRange
  proper : ∀ i, (range i).start < (range i).endAddr
  disjoint : ∀ i j, i ≠ j → (range i).endAddr ≤ (range j).start ∨ (range j).endAddr ≤ (range i).start

namespace AbiPropagation

variable {n : ℕ}

/-- `starts.find`: the first range that was entered under a start. -/
def startIndex (ranges : Fin n → DolLLVMFunctionRange) (start : BitVec 32) : Option (Fin n) :=
  (List.finRange n).find? fun i => (ranges i).start == start

def order (ranges : Fin n → DolLLVMFunctionRange) : List (Fin n) :=
  (List.finRange n).mergeSort fun left right => (ranges left).start ≤ (ranges right).start

/-- The last range that starts at or before the address, if it reaches it. -/
def containing (ranges : Fin n → DolLLVMFunctionRange) (address : BitVec 32) : Option (Fin n) :=
  match ((order ranges).takeWhile fun i => (ranges i).start ≤ address).getLast? with
  | none => none
  | some index => if address < (ranges index).endAddr then some index else none

structure Relation (n : ℕ) where
  caller : Fin n
  callee : Fin n
  edge : DolLLVMCallEdge

/-- The edges between known ranges whose callee is native. -/
def relations (ranges : Fin n → DolLLVMFunctionRange) (edges : List DolLLVMCallEdge) :
    List (Relation n) :=
  edges.filterMap fun edge =>
    match startIndex ranges edge.callerStart, containing ranges edge.calleeAddress with
    | some caller, some callee =>
      if (ranges callee).native then some ⟨caller,callee,edge⟩ else none
    | _, _ => none

/-- `callsite_live_after` with what is live after every call. -/
def liveAfter (ranges : Fin n → DolLLVMFunctionRange) (rels : List (Relation n)) (i : Fin n) :
    StateMask :=
  rels.foldl (fun mask r => if r.callee = i then mask ∪ r.edge.liveAfter else mask)
    (ranges i).callsiteLiveAfter

abbrev CallerMasks := StateMask × StateMask × StateMask × StateMask

def callerMasks (ranges : Fin n → DolLLVMFunctionRange) (i : Fin n) : CallerMasks :=
  ((ranges i).semanticInput, (ranges i).mayDef, (ranges i).input, (ranges i).output)

/-- What a caller takes over from a callee. -/
def callerEdge (r : Relation n) : Worklist.Edge (Fin n) CallerMasks where
  src := r.callee
  dst := r.caller
  transfer m := (m.1 \ r.edge.definedBefore, m.2.1, m.2.2.1 \ r.edge.definedBefore, m.2.2.2)

/-- What a native caller hands to its callee. -/
def calleeEdge (masks : Fin n → CallerMasks) (r : Relation n) : Worklist.Edge (Fin n) StateMask where
  src := r.caller
  dst := r.callee
  transfer escape := escape ∪ (masks r.caller).2.2.2

/-- The two worklists: the masks of all functions and their escaping state. -/
def solve (ranges : Fin n → DolLLVMFunctionRange) (edges : List DolLLVMCallEdge) :
    (Fin n → CallerMasks) × (Fin n → StateMask) :=
  let rels := relations ranges edges
  let masks := (Worklist.run (rels.map callerEdge) ⟨callerMasks ranges,List.finRange n⟩).values
  let native := rels.filter fun r => (ranges r.caller).native
  (masks, (Worklist.run (native.map (calleeEdge masks))
    ⟨fun i => (ranges i).escape,List.finRange n⟩).values)

/-- `dolllvm_propagate_function_abis` -/
def propagate (table : FunctionTable n) (edges : List DolLLVMCallEdge) : FunctionTable n where
  range i :=
    let solved := solve table.range edges
    let live := liveAfter table.range (relations table.range edges) i
    { table.range i with
      callsiteLiveAfter := live
      semanticInput := (solved.1 i).1
      mayDef := (solved.1 i).2.1
      input := (solved.1 i).2.2.1
      output := (solved.1 i).2.2.2
      semanticOutput := (solved.1 i).2.1 ∩ live
      escape := solved.2 i }
  proper := table.proper
  disjoint := table.disjoint

variable (table : FunctionTable n)

theorem start_inj {i j : Fin n} (h : (table.range i).start = (table.range j).start) : i = j := by
  by_contra hne
  have hi := table.proper i
  have hj := table.proper j
  rcases table.disjoint i j hne with h' | h' <;> bv_omega

theorem startIndex_eq_some {start : BitVec 32} {i : Fin n} :
    startIndex table.range start = some i ↔ (table.range i).start = start := by
  constructor
  · intro h
    exact beq_iff_eq.1 (List.find?_some (p := fun i => (table.range i).start == start) h)
  · intro h
    rcases hf : startIndex table.range start with _ | j
    · have := List.find?_eq_none.1 hf i (List.mem_finRange i)
      exact absurd (beq_iff_eq.2 h) this
    · have hj : (table.range j).start = start :=
        beq_iff_eq.1 (List.find?_some (p := fun i => (table.range i).start == start) hf)
      rw [start_inj table (hj.trans h.symm)]

theorem order_pairwise (ranges : Fin n → DolLLVMFunctionRange) :
    (order ranges).Pairwise fun i j => (ranges i).start ≤ (ranges j).start := by
  have h := @List.pairwise_mergeSort _ (fun i j => decide ((ranges i).start ≤ (ranges j).start))
    (fun a b c hab hbc => by
      simp only [decide_eq_true_eq] at hab hbc ⊢
      exact BitVec.le_trans hab hbc)
    (fun a b => by
      simp only [Bool.or_eq_true,decide_eq_true_eq]
      exact BitVec.le_total _ _) (List.finRange n)
  rw [order]
  simpa only [decide_eq_true_eq] using h

theorem mem_order (ranges : Fin n → DolLLVMFunctionRange) (i : Fin n) : i ∈ order ranges :=
  (List.mergeSort_perm _ _).mem_iff.2 (List.mem_finRange i)

/-- In a sorted list the initial part is all that lies below. -/
theorem mem_takeWhile {l : List (Fin n)} {f : Fin n → BitVec 32}
    (hl : l.Pairwise fun i j => f i ≤ f j) {a : BitVec 32} {i : Fin n} (hi : i ∈ l) (h : f i ≤ a) :
    i ∈ l.takeWhile fun i => decide (f i ≤ a) := by
  induction l with
  | nil => cases hi
  | cons b l ih =>
    rw [List.pairwise_cons] at hl
    have hb : f b ≤ a := by
      rcases List.mem_cons.1 hi with rfl | hi
      · exact h
      · exact BitVec.le_trans (hl.1 i hi) h
    rw [List.takeWhile_cons_of_pos (by simpa using hb)]
    rcases List.mem_cons.1 hi with rfl | hi
    · exact List.mem_cons_self
    · exact List.mem_cons_of_mem _ (ih hl.2 hi)

theorem le_getLast {l : List (Fin n)} {f : Fin n → BitVec 32}
    (hl : l.Pairwise fun i j => f i ≤ f j) {i j : Fin n} (hi : i ∈ l) (hj : l.getLast? = some j) :
    f i ≤ f j := by
  obtain ⟨ys,rfl⟩ := List.getLast?_eq_some_iff.1 hj
  rcases List.mem_append.1 hi with hi | hi
  · exact (List.pairwise_append.1 hl).2.2 i hi j (List.mem_singleton_self j)
  · rw [List.mem_singleton.1 hi]
    exact BitVec.le_refl _

theorem containing_eq_some {address : BitVec 32} {i : Fin n} :
    containing table.range address = some i ↔ (table.range i).Contains address := by
  have hpw := order_pairwise table.range
  have htake : ((order table.range).takeWhile fun i => (table.range i).start ≤ address).Pairwise
      fun i j => (table.range i).start ≤ (table.range j).start :=
    hpw.sublist (List.takeWhile_sublist _)
  rw [containing]
  constructor
  · intro h
    split at h
    · cases h
    · next j hj =>
      split at h
      · next hlt =>
        cases h
        have hmem := List.mem_of_getLast? hj
        exact ⟨by simpa using List.mem_takeWhile_imp hmem,hlt⟩
      · cases h
  · rintro ⟨h1,h2⟩
    have hmem := mem_takeWhile hpw (mem_order table.range i) h1
    split
    · next hnone =>
      rw [List.getLast?_eq_none_iff] at hnone
      rw [hnone] at hmem
      cases hmem
    · next j hj =>
      have hij := le_getLast htake hmem hj
      have hja : (table.range j).start ≤ address := by
        simpa using List.mem_takeWhile_imp (List.mem_of_getLast? hj)
      have heq : j = i := by
        by_contra hne
        have := table.proper j
        rcases table.disjoint j i hne with h | h <;> bv_omega
      rw [heq,if_pos h2]

/-- The pairs of functions that an edge relates. -/
def Relates (table : FunctionTable n) (edge : DolLLVMCallEdge) (caller callee : Fin n) : Prop :=
  (table.range caller).start = edge.callerStart ∧
    (table.range callee).Contains edge.calleeAddress ∧ (table.range callee).native = true

theorem mem_relations {edges : List DolLLVMCallEdge} {r : Relation n} :
    r ∈ relations table.range edges ↔ r.edge ∈ edges ∧ Relates table r.edge r.caller r.callee := by
  rw [relations,List.mem_filterMap]
  constructor
  · rintro ⟨edge,hmem,h⟩
    split at h
    · next caller callee h1 h2 =>
      split at h
      · next hn =>
        cases h
        exact ⟨hmem,(startIndex_eq_some table).1 h1,(containing_eq_some table).1 h2,hn⟩
      · cases h
    · cases h
  · rintro ⟨hmem,h1,h2,hn⟩
    refine ⟨r.edge,hmem,?_⟩
    rw [(startIndex_eq_some table).2 h1,(containing_eq_some table).2 h2]
    simp only [hn,if_true]

@[ext] structure Masks where
  semanticInput : StateMask
  mayDef : StateMask
  input : StateMask
  output : StateMask
  escape : StateMask

instance : PartialOrder Masks where
  le a b := a.semanticInput ⊆ b.semanticInput ∧ a.mayDef ⊆ b.mayDef ∧ a.input ⊆ b.input ∧
    a.output ⊆ b.output ∧ a.escape ⊆ b.escape
  le_refl a := ⟨subset_rfl,subset_rfl,subset_rfl,subset_rfl,subset_rfl⟩
  le_trans a b c h h' := ⟨h.1.trans h'.1,h.2.1.trans h'.2.1,h.2.2.1.trans h'.2.2.1,
    h.2.2.2.1.trans h'.2.2.2.1,h.2.2.2.2.trans h'.2.2.2.2⟩
  le_antisymm a b h h' := Masks.ext (h.1.antisymm h'.1) (h.2.1.antisymm h'.2.1)
    (h.2.2.1.antisymm h'.2.2.1) (h.2.2.2.1.antisymm h'.2.2.2.1)
    (h.2.2.2.2.antisymm h'.2.2.2.2)

def masksOf (r : DolLLVMFunctionRange) : Masks where
  semanticInput := r.semanticInput
  mayDef := r.mayDef
  input := r.input
  output := r.output
  escape := r.escape

def tableMasks (table : FunctionTable n) (i : Fin n) : Masks := masksOf (table.range i)

/-- The inclusions that a call asks for. -/
structure EdgeSatisfied (edge : DolLLVMCallEdge) (callerNative : Bool) (caller callee : Masks) :
    Prop where
  semanticInput : callee.semanticInput \ edge.definedBefore ⊆ caller.semanticInput
  mayDef : callee.mayDef ⊆ caller.mayDef
  input : callee.input \ edge.definedBefore ⊆ caller.input
  output : callee.output ⊆ caller.output
  escape : callerNative = true → caller.escape ∪ caller.output ⊆ callee.escape

/-- Every edge is satisfied, between all functions that it relates. -/
def Satisfies (table : FunctionTable n) (edges : List DolLLVMCallEdge) (m : Fin n → Masks) : Prop :=
  ∀ edge ∈ edges, ∀ caller callee, Relates table edge caller callee →
    EdgeSatisfied edge (table.range caller).native (m caller) (m callee)

def Solutions (table : FunctionTable n) (edges : List DolLLVMCallEdge) : Set (Fin n → Masks) :=
  {m | tableMasks table ≤ m ∧ Satisfies table edges m}

theorem callerEdge_monotone (r : Relation n) : Monotone (callerEdge r).transfer := fun _ _ h =>
  ⟨Finset.sdiff_subset_sdiff h.1 subset_rfl,h.2.1,Finset.sdiff_subset_sdiff h.2.2.1 subset_rfl,
    h.2.2.2⟩

theorem calleeEdge_monotone (masks : Fin n → CallerMasks) (r : Relation n) :
    Monotone (calleeEdge masks r).transfer := fun _ _ h => Finset.union_subset_union h subset_rfl

variable (edges : List DolLLVMCallEdge)

theorem solve_masks : IsLeast
    {w | callerMasks table.range ≤ w ∧
      ∀ r ∈ relations table.range edges, Worklist.Closed w (callerEdge r)}
    (solve table.range edges).1 := by
  have h := Worklist.run_isLeast ((relations table.range edges).map callerEdge)
    ⟨callerMasks table.range,List.finRange n⟩
    (fun e he => by
      obtain ⟨r,-,rfl⟩ := List.mem_map.1 he
      exact callerEdge_monotone r) (List.mem_finRange)
  simp only [List.forall_mem_map] at h
  exact h

theorem solve_escape : IsLeast
    {w | (fun i => (table.range i).escape) ≤ w ∧
      ∀ r ∈ relations table.range edges, (table.range r.caller).native = true →
        Worklist.Closed w (calleeEdge (solve table.range edges).1 r)}
    (solve table.range edges).2 := by
  have h := Worklist.run_isLeast
    (((relations table.range edges).filter fun r => (table.range r.caller).native).map
      (calleeEdge (solve table.range edges).1))
    ⟨fun i => (table.range i).escape,List.finRange n⟩
    (fun e he => by
      obtain ⟨r,-,rfl⟩ := List.mem_map.1 he
      exact calleeEdge_monotone _ r) (List.mem_finRange)
  simp only [List.forall_mem_map,List.mem_filter,and_imp] at h
  exact h

/-- The propagated masks are the least that lie above the first ones and satisfy every edge. -/
theorem propagate_isLeast :
    IsLeast (Solutions table edges) (tableMasks (propagate table edges)) := by
  obtain ⟨⟨hle,hclosed⟩,hleast⟩ := solve_masks table edges
  obtain ⟨⟨hle',hclosed'⟩,hleast'⟩ := solve_escape table edges
  refine ⟨⟨fun i => ?_,fun edge hmem caller callee hrel => ?_⟩,?_⟩
  · exact ⟨(hle i).1,(hle i).2.1,(hle i).2.2.1,(hle i).2.2.2,hle' i⟩
  · have hr : (⟨caller,callee,edge⟩ : Relation n) ∈ relations table.range edges :=
      (mem_relations table).2 ⟨hmem,hrel⟩
    have hc := hclosed _ hr
    exact ⟨hc.1,hc.2.1,hc.2.2.1,hc.2.2.2,fun hn => hclosed' _ hr hn⟩
  · rintro m ⟨hm,hsat⟩
    have h1 : (solve table.range edges).1 ≤
        fun i => ((m i).semanticInput,(m i).mayDef,(m i).input,(m i).output) := by
      refine hleast ⟨fun i => ⟨(hm i).1,(hm i).2.1,(hm i).2.2.1,(hm i).2.2.2.1⟩,fun r hr => ?_⟩
      obtain ⟨hmem,hrel⟩ := (mem_relations table).1 hr
      have h := hsat r.edge hmem r.caller r.callee hrel
      exact ⟨h.semanticInput,h.mayDef,h.input,h.output⟩
    have h2 : (solve table.range edges).2 ≤ fun i => (m i).escape := by
      refine hleast' ⟨fun i => (hm i).2.2.2.2,fun r hr hn => ?_⟩
      obtain ⟨hmem,hrel⟩ := (mem_relations table).1 hr
      have h := (hsat r.edge hmem r.caller r.callee hrel).escape hn
      exact (Finset.union_subset_union subset_rfl (h1 r.caller).2.2.2).trans h
    exact fun i => ⟨(h1 i).1,(h1 i).2.1,(h1 i).2.2.1,(h1 i).2.2.2,h2 i⟩

theorem mem_foldl_live (rels : List (Relation n)) (i : Fin n) (mask : StateMask)
    (slot : DolIRStateSlot) :
    slot ∈ rels.foldl (fun mask r => if r.callee = i then mask ∪ r.edge.liveAfter else mask) mask ↔
      slot ∈ mask ∨ ∃ r ∈ rels, r.callee = i ∧ slot ∈ r.edge.liveAfter := by
  induction rels generalizing mask with
  | nil => simp
  | cons r rels ih =>
    rw [List.foldl_cons,ih]
    by_cases h : r.callee = i
    · simp [h,or_assoc]
    · simp [h]

theorem mem_liveAfter {i : Fin n} {slot : DolIRStateSlot} :
    slot ∈ ((propagate table edges).range i).callsiteLiveAfter ↔
      slot ∈ (table.range i).callsiteLiveAfter ∨
        ∃ edge ∈ edges, ∃ caller, Relates table edge caller i ∧ slot ∈ edge.liveAfter := by
  refine (mem_foldl_live _ _ _ _).trans (or_congr_right ?_)
  constructor
  · rintro ⟨r,hr,rfl,hs⟩
    obtain ⟨hmem,hrel⟩ := (mem_relations table).1 hr
    exact ⟨r.edge,hmem,r.caller,hrel,hs⟩
  · rintro ⟨edge,hmem,caller,hrel,hs⟩
    exact ⟨⟨caller,i,edge⟩,(mem_relations table).2 ⟨hmem,hrel⟩,rfl,hs⟩

theorem semanticOutput_eq (i : Fin n) : ((propagate table edges).range i).semanticOutput =
    ((propagate table edges).range i).mayDef ∩
      ((propagate table edges).range i).callsiteLiveAfter := rfl

def FunctionTable.reindex (table : FunctionTable n) (π : Equiv.Perm (Fin n)) : FunctionTable n where
  range i := table.range (π i)
  proper i := table.proper (π i)
  disjoint i j h := table.disjoint (π i) (π j) fun h' => h (π.injective h')

theorem solutions_reindex (π : Equiv.Perm (Fin n)) {edges' : List DolLLVMCallEdge}
    (h : ∀ edge, edge ∈ edges' ↔ edge ∈ edges) (m : Fin n → Masks) :
    (fun i => m (π i)) ∈ Solutions (FunctionTable.reindex table π) edges' ↔
      m ∈ Solutions table edges := by
  constructor
  · rintro ⟨hle,hsat⟩
    refine ⟨fun i => ?_,fun edge he caller callee hrel => ?_⟩
    · have := hle (π.symm i)
      simpa [tableMasks,FunctionTable.reindex] using this
    · have := hsat edge ((h edge).2 he) (π.symm caller) (π.symm callee)
        (by simpa [Relates,FunctionTable.reindex] using hrel)
      simpa [FunctionTable.reindex] using this
  · rintro ⟨hle,hsat⟩
    exact ⟨fun i => hle (π i),fun edge he caller callee hrel =>
      hsat edge ((h edge).1 he) (π caller) (π callee) hrel⟩

/-- The masks do not depend on the order of the functions, or on the order of the edges and
how often they occur. -/
theorem propagate_reindex (π : Equiv.Perm (Fin n)) {edges' : List DolLLVMCallEdge}
    (h : ∀ edge, edge ∈ edges' ↔ edge ∈ edges) (i : Fin n) :
    tableMasks (propagate (FunctionTable.reindex table π) edges') i =
        tableMasks (propagate table edges) (π i) ∧
      ((propagate (FunctionTable.reindex table π) edges').range i).callsiteLiveAfter =
        ((propagate table edges).range (π i)).callsiteLiveAfter := by
  constructor
  · have h1 := propagate_isLeast (FunctionTable.reindex table π) edges'
    have h2 := propagate_isLeast table edges
    have hleast : IsLeast (Solutions (FunctionTable.reindex table π) edges')
        fun i => tableMasks (propagate table edges) (π i) := by
      refine ⟨(solutions_reindex table edges π h _).2 h2.1,fun m hm => ?_⟩
      have hm' : (fun i => m (π.symm i)) ∈ Solutions table edges := by
        rw [← solutions_reindex table edges π h]
        simpa using hm
      intro i
      simpa using h2.2 hm' (π i)
    exact congrFun (h1.unique hleast) i
  · ext slot
    rw [mem_liveAfter,mem_liveAfter]
    refine or_congr Iff.rfl ?_
    constructor
    · rintro ⟨edge,he,caller,hrel,hs⟩
      exact ⟨edge,(h edge).1 he,π caller,hrel,hs⟩
    · rintro ⟨edge,he,caller,hrel,hs⟩
      refine ⟨edge,(h edge).2 he,π.symm caller,?_,hs⟩
      simpa [Relates,FunctionTable.reindex] using hrel

/-- A second run changes nothing. -/
theorem propagate_propagate : propagate (propagate table edges) edges = propagate table edges := by
  have h1 := propagate_isLeast (propagate table edges) edges
  have h2 := propagate_isLeast table edges
  have hleast : IsLeast (Solutions (propagate table edges) edges)
      (tableMasks (propagate table edges)) := ⟨⟨le_refl _,h2.1.2⟩,fun m hm => hm.1⟩
  have hmasks (i : Fin n) := congrFun (h1.unique hleast) i
  have hlive (i : Fin n) :
      ((propagate (propagate table edges) edges).range i).callsiteLiveAfter =
        ((propagate table edges).range i).callsiteLiveAfter := by
    ext slot
    rw [mem_liveAfter]
    constructor
    · rintro (h | ⟨edge,he,caller,hrel,hs⟩)
      · exact h
      · exact (mem_liveAfter table edges).2 (.inr ⟨edge,he,caller,hrel,hs⟩)
    · exact .inl
  have hmay (i : Fin n) : ((propagate (propagate table edges) edges).range i).mayDef =
      ((propagate table edges).range i).mayDef := congrArg Masks.mayDef (hmasks i)
  refine FunctionTable.ext (funext fun i => DolLLVMFunctionRange.ext rfl rfl
    (congrArg Masks.semanticInput (hmasks i)) (hmay i) rfl (hlive i) ?_
    (congrArg Masks.input (hmasks i)) (congrArg Masks.output (hmasks i))
    (congrArg Masks.escape (hmasks i)) rfl)
  rw [semanticOutput_eq,hmay,hlive,← semanticOutput_eq]

/-- Propagation ends in the least masks above the first ones that satisfy every call, with
the semantic output that follows from them; neither the order of the functions nor that of
the edges matters, and a second run changes nothing. -/
theorem propagate_spec :
    IsLeast (Solutions table edges) (tableMasks (propagate table edges)) ∧
    (∀ i, ((propagate table edges).range i).semanticOutput =
      ((propagate table edges).range i).mayDef ∩
        ((propagate table edges).range i).callsiteLiveAfter) ∧
    (∀ (π : Equiv.Perm (Fin n)) (edges' : List DolLLVMCallEdge),
      (∀ edge, edge ∈ edges' ↔ edge ∈ edges) → ∀ i,
        tableMasks (propagate (FunctionTable.reindex table π) edges') i =
            tableMasks (propagate table edges) (π i) ∧
          ((propagate (FunctionTable.reindex table π) edges').range i).semanticOutput =
            ((propagate table edges).range (π i)).semanticOutput) ∧
    propagate (propagate table edges) edges = propagate table edges := by
  refine ⟨propagate_isLeast table edges,semanticOutput_eq table edges,fun π edges' h i => ?_,
    propagate_propagate table edges⟩
  obtain ⟨hm,hl⟩ := propagate_reindex table edges π h i
  have hmay : ((propagate (FunctionTable.reindex table π) edges').range i).mayDef =
      ((propagate table edges).range (π i)).mayDef := congrArg Masks.mayDef hm
  exact ⟨hm,by rw [semanticOutput_eq,semanticOutput_eq,hmay,hl]⟩

/-- A native function and one that is not native and reads `gpr 3`. -/
def genericCallee : FunctionTable 2 where
  range i := if i = 0 then { start := 0x80003000, endAddr := 0x80003008 }
    else { start := 0x80003008, endAddr := 0x80003010, semanticInput := {.gpr 3}
           input := {.gpr 3}, native := false }
  proper := by decide
  disjoint := by decide

def genericCall : DolLLVMCallEdge where
  callerStart := 0x80003000
  calleeAddress := 0x80003008

theorem genericCallee_least :
    tableMasks (propagate genericCallee [genericCall]) = tableMasks genericCallee := by
  obtain ⟨⟨hle,-⟩,hleast⟩ := propagate_isLeast genericCallee [genericCall]
  refine le_antisymm (hleast ⟨le_rfl,fun edge he caller callee h => ?_⟩) hle
  obtain rfl := List.mem_singleton.mp he
  -- no native function contains the address that is called
  have hno : ∀ callee : Fin 2, (genericCallee.range callee).native = true →
      ¬(genericCallee.range callee).Contains genericCall.calleeAddress := by
    unfold DolLLVMFunctionRange.Contains
    decide
  exact absurd h.2.1 (hno callee h.2.2)

/-- The caller does not take over what a callee without a native ABI reads. -/
theorem generic_callee_dropped : ¬ ∀ (n : ℕ) (table : FunctionTable n)
    (edges : List DolLLVMCallEdge), ∀ edge ∈ edges, ∀ caller callee,
      (table.range caller).start = edge.callerStart →
      (table.range callee).Contains edge.calleeAddress →
      ((propagate table edges).range callee).input \ edge.definedBefore ⊆
        ((propagate table edges).range caller).input := by
  intro h
  have hmasks (i : Fin 2) : ((propagate genericCallee [genericCall]).range i).input =
      (genericCallee.range i).input :=
    congrArg Masks.input (congrFun genericCallee_least i)
  have hcall := h 2 genericCallee [genericCall] genericCall List.mem_cons_self 0 1 rfl
    (by unfold DolLLVMFunctionRange.Contains; decide)
  rw [hmasks,hmasks] at hcall
  exact absurd hcall (by decide)

end AbiPropagation

end DolRecomp
