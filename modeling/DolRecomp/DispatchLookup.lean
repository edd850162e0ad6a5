import DolRecomp.Alignment
import Mathlib.Data.List.TakeWhile
import Mathlib.Tactic.Ring
import Mathlib.Tactic.Linarith

/-!
# Dispatch lookups

The two functions that `dispatch.c` can print to find the chunk of an address: a
chain of range tests, and a walk that starts from a page table. Where the second
is printed they return the same function.
-/

namespace DolRecomp

namespace Dispatch

/-- A chunk from `start` up to `limit`. -/
structure FunctionRange where
  start : BitVec 32
  limit : BitVec 32
  deriving DecidableEq, Repr

abbrev FunctionList := List FunctionRange

def FunctionRange.width (r : FunctionRange) : BitVec 32 := r.limit - r.start

/-- How many further chunks continue a run: equal ones, and at most one short one at its end. -/
def runLength (stride : BitVec 32) : FunctionRange → FunctionList → ℕ
  | _, [] => 0
  | previous, current :: rest =>
    if previous.limit ≠ current.start ∨ current.start ≥ current.limit then 0
    else if current.width > stride then 0
    else if current.width ≠ stride then 1
    else 1 + runLength stride current rest

/-- The chunks of a run behind the first. -/
def extraRanges (first : FunctionRange) (rest : FunctionList) : ℕ :=
  if first.start ≥ first.limit then 0
  else if first.width &&& 3#32 ≠ 0 then 0
  else runLength first.width first rest

/-- The runs that repeated calls of `uniform_run_end` find. -/
def runs : FunctionList → List FunctionList
  | [] => []
  | first :: rest =>
    (first :: rest.take (extraRanges first rest)) :: runs (rest.drop (extraRanges first rest))
termination_by funcs => funcs.length
decreasing_by
  simp only [List.length_cons,List.length_drop]
  omega

def headOf (run : FunctionList) : FunctionRange := run.headD ⟨0,0⟩

def lastOf (run : FunctionList) : FunctionRange := run.getLastD ⟨0,0⟩

/-- The test that `emit_lookup_run` prints; the function is named by its start. -/
def lookupRun (run : FunctionList) (address : BitVec 32) : Option (BitVec 32) :=
  let first := headOf run
  if run.length = 1 ∨ first.start ≥ first.limit then
    if first.start ≤ address ∧ address < first.limit ∧ (address - first.start) &&& 3#32 = 0 then
      some first.start
    else none
  else
    let offset := address - first.start
    if offset < (lastOf run).limit - first.start ∧ offset &&& 3#32 = 0 then
      run[(offset / first.width).toNat]?.map (·.start)
    else none

def emitFunctionLookup (funcs : FunctionList) (address : BitVec 32) : Option (BitVec 32) :=
  (runs funcs).findSome? fun run => lookupRun run address

/-- `range_compare`. -/
def rangeLe (a b : FunctionRange) : Bool :=
  if a.start ≠ b.start then a.start < b.start else a.limit ≤ b.limit

def sortedRanges (funcs : FunctionList) : FunctionList :=
  (funcs.filter fun r => r.start < r.limit).mergeSort rangeLe

/-- No range starts in front of the end of the one before. -/
def disjoint : FunctionList → Bool
  | a :: b :: rest => a.limit ≤ b.start && disjoint (b :: rest)
  | _ => true

def runEnds (funcs : FunctionList) : List (BitVec 32) :=
  (runs funcs).map fun run => (lastOf run).limit

/-- Go on to the first run that ends behind an address. -/
def skipRuns (ends : List (BitVec 32)) (run : ℕ) (address : BitVec 32) : ℕ :=
  run + ((ends.drop run).takeWhile fun limit => limit ≤ address).length

def indexBase (sorted : FunctionList) : BitVec 32 := (headOf sorted).start &&& ~~~0xFFF#32

def pageCount (sorted : FunctionList) : ℕ :=
  (((lastOf sorted).limit - indexBase sorted) >>> 12).toNat + 1

def pageStart (sorted : FunctionList) (page : ℕ) : BitVec 32 :=
  indexBase sorted + BitVec.ofNat 32 (4096*page)

/-- The first run that reaches each page; the walk goes on from the page before. -/
def pageFirsts (sorted : FunctionList) : List ℕ → ℕ → List ℕ
  | [], _ => []
  | page :: pages, run =>
    let run := skipRuns (runEnds sorted) run (pageStart sorted page)
    run :: pageFirsts sorted pages run

/-- The index of the first chunk of a run. -/
def runBase (sorted : FunctionList) (run : ℕ) : ℕ :=
  (((runs sorted).take run).map List.length).sum

/-- The printed `dolrecomp_find_original`. -/
def findIndexed (sorted : FunctionList) (address : BitVec 32) : Option (BitVec 32) :=
  if address < indexBase sorted then none
  else
    let page := ((address - indexBase sorted) >>> 12).toNat
    if page ≥ pageCount sorted then none
    else
      let first := (pageFirsts sorted (List.range (pageCount sorted)) 0).getD page 0
      let run := skipRuns (runEnds sorted) first address
      match (runs sorted)[run]? with
      | none => none
      | some chunks =>
        if address < (headOf chunks).start then none
        else
          let offset := address - (headOf chunks).start
          if offset &&& 3#32 ≠ 0 then none
          else
            sorted[runBase sorted run + (offset / (headOf chunks).width).toNat]?.map (·.start)

/-- `emit_lookup_indexed`, which refuses some lists. -/
def emitLookupIndexed (funcs : FunctionList) : Option (BitVec 32 → Option (BitVec 32)) :=
  let sorted := sortedRanges funcs
  if sorted = [] ∨ disjoint sorted = false ∨ pageCount sorted > 65536 then none
  else some (findIndexed sorted)

/-- The range holds the address, at a multiple of four. -/
def Covers (r : FunctionRange) (address : BitVec 32) : Prop :=
  r.start.toNat ≤ address.toNat ∧ address.toNat < r.limit.toNat ∧
    (address.toNat - r.start.toNat) % 4 = 0

/-- The start of a range of the list that covers the address. -/
def Finds (funcs : FunctionList) (address start : BitVec 32) : Prop :=
  ∃ r ∈ funcs, Covers r address ∧ start = r.start

/-- Chunks at the multiples of a stride; the last may be short. -/
structure Uniform (run : FunctionList) : Prop where
  ne : run ≠ []
  nonempty : (headOf run).start.toNat < (headOf run).limit.toNat
  aligned : 1 < run.length → (headOf run).width.toNat % 4 = 0
  at_ : ∀ i r, run[i]? = some r →
    r.start.toNat = (headOf run).start.toNat + i*(headOf run).width.toNat ∧
    r.start.toNat < r.limit.toNat ∧
    r.limit.toNat ≤ (headOf run).start.toNat + (i + 1)*(headOf run).width.toNat ∧
    (i + 1 < run.length →
      r.limit.toNat = (headOf run).start.toNat + (i + 1)*(headOf run).width.toNat)

theorem width_toNat {r : FunctionRange} (h : r.start.toNat < r.limit.toNat) :
    r.width.toNat = r.limit.toNat - r.start.toNat :=
  BitVec.toNat_sub_of_le (BitVec.le_def.mpr h.le)

/-- The chunks that `runLength` takes, behind a chunk that ends at a multiple of the stride. -/
theorem runLength_at {base : ℕ} {stride : BitVec 32}
    (previous : FunctionRange) (rest : FunctionList) (k : ℕ)
    (hp : previous.limit.toNat = base + k*stride.toNat) (i : ℕ) (r : FunctionRange)
    (hr : (rest.take (runLength stride previous rest))[i]? = some r) :
    r.start.toNat = base + (k + i)*stride.toNat ∧ r.start.toNat < r.limit.toNat ∧
      r.limit.toNat ≤ base + (k + i + 1)*stride.toNat ∧
      (i + 1 < (rest.take (runLength stride previous rest)).length →
        r.limit.toNat = base + (k + i + 1)*stride.toNat) := by
  induction rest generalizing previous k i with
  | nil => simp at hr
  | cons current rest ih =>
    unfold runLength at hr ⊢
    split at hr
    next => simp at hr
    next h1 =>
      rw [if_neg h1]
      split at hr
      next => simp at hr
      next h2 =>
        rw [if_neg h2]
        simp only [ne_eq,ge_iff_le,not_or,not_not,BitVec.not_le] at h1
        have hlt : current.start.toNat < current.limit.toNat := h1.2
        have hw := width_toNat hlt
        have hstart : current.start.toNat = base + k*stride.toNat := by rw [← h1.1,hp]
        have hle : current.width.toNat ≤ stride.toNat := Nat.le_of_not_lt h2
        have hlim : current.limit.toNat ≤ base + (k + 1)*stride.toNat := by
          rw [Nat.add_mul,Nat.one_mul]
          omega
        split at hr
        next h3 =>
          rw [if_pos h3]
          cases i with
          | zero =>
            simp only [List.take_succ_cons,List.take_zero,List.getElem?_cons_zero,
              Option.some.injEq] at hr
            subst hr
            refine ⟨by rw [Nat.add_zero]; exact hstart,hlt,by rw [Nat.add_zero]; exact hlim,?_⟩
            intro h
            simp at h
          | succ i => simp at hr
        next h3 =>
          rw [if_neg h3]
          have heq : current.width = stride := not_not.mp h3
          have hlim' : current.limit.toNat = base + (k + 1)*stride.toNat := by
            rw [heq] at hw
            rw [Nat.add_mul,Nat.one_mul]
            omega
          rw [Nat.add_comm 1,List.take_succ_cons] at hr ⊢
          cases i with
          | zero =>
            rw [List.getElem?_cons_zero,Option.some.injEq] at hr
            subst hr
            rw [Nat.add_zero]
            exact ⟨hstart,hlt,hlim'.le,fun _ => hlim'⟩
          | succ i =>
            rw [List.getElem?_cons_succ] at hr
            obtain ⟨ha,hb,hc,hd⟩ := ih current (k + 1) hlim' i hr
            have hk : k + 1 + i = k + (i + 1) := by omega
            rw [hk] at ha hc hd
            refine ⟨ha,hb,hc,fun h => hd ?_⟩
            rw [List.length_cons] at h
            omega

theorem run_uniform {first : FunctionRange} (rest : FunctionList)
    (hf : first.start.toNat < first.limit.toNat) :
    Uniform (first :: rest.take (extraRanges first rest)) := by
  have hw := width_toNat hf
  have hfirst : first.limit.toNat = first.start.toNat + 1*first.width.toNat := by omega
  refine ⟨by simp,hf,?_,?_⟩
  · intro hlen
    show first.width.toNat % 4 = 0
    rw [← Alignment.and_three_eq_zero]
    by_contra h3
    have hx : extraRanges first rest = 0 := by
      unfold extraRanges
      split
      · rfl
      · rfl
    simp [hx] at hlen
  · intro i r hr
    show r.start.toNat = first.start.toNat + i*first.width.toNat ∧ _ ∧
      r.limit.toNat ≤ first.start.toNat + (i + 1)*first.width.toNat ∧
      (_ → r.limit.toNat = first.start.toNat + (i + 1)*first.width.toNat)
    cases i with
    | zero =>
      simp only [List.getElem?_cons_zero,Option.some.injEq] at hr
      subst hr
      omega
    | succ i =>
      rw [List.getElem?_cons_succ] at hr
      have hx : extraRanges first rest = runLength first.width first rest := by
        unfold extraRanges at hr ⊢
        split at hr
        · simp at hr
        next h1 =>
          rw [if_neg h1]
          split at hr
          · simp at hr
          next h2 => rw [if_neg h2]
      rw [hx] at hr ⊢
      obtain ⟨ha,hb,hc,hd⟩ := runLength_at first rest 1 hfirst i r hr
      rw [Nat.add_comm 1 i] at ha hc hd
      refine ⟨ha,hb,hc,fun h => hd ?_⟩
      rw [List.length_cons] at h
      omega

namespace Uniform

variable {run : FunctionList} (h : Uniform run)

include h

theorem width_pos : 0 < (headOf run).width.toNat := by
  have := width_toNat h.nonempty
  have := h.nonempty
  omega

theorem length_pos : 0 < run.length := List.length_pos_iff.mpr h.ne

theorem last : run[run.length - 1]? = some (lastOf run) := by
  rw [← List.getLast?_eq_getElem?,lastOf,List.getLastD_eq_getLast?,
    List.getLast?_eq_some_getLast h.ne]
  rfl

/-- The start of a chunk lies at its index, and the run ends behind it. -/
theorem bounds {i : ℕ} {r : FunctionRange} (hr : run[i]? = some r) :
    (headOf run).start.toNat ≤ r.start.toNat ∧ r.limit.toNat ≤ (lastOf run).limit.toNat := by
  obtain ⟨ha,hb,hc,hd⟩ := h.at_ i r hr
  refine ⟨by rw [ha]; omega,?_⟩
  have hi : i < run.length := (List.getElem?_eq_some_iff.mp hr).1
  rcases Nat.lt_or_ge (i + 1) run.length with hlt | hge
  · obtain ⟨ka,kb,-⟩ := h.at_ _ _ h.last
    have hm := Nat.mul_le_mul_right (headOf run).width.toNat (show i + 1 ≤ run.length - 1 by omega)
    omega
  · have he : run.length - 1 = i := by omega
    have hl := h.last
    rw [he,hr,Option.some.injEq] at hl
    rw [hl]

/-- Between the first start and the last limit, the index is found by division. -/
theorem at_index {address : ℕ} (hlo : (headOf run).start.toNat ≤ address)
    (hhi : address < (lastOf run).limit.toNat) :
    ∃ r, run[(address - (headOf run).start.toNat)/(headOf run).width.toNat]? = some r ∧
      r.start.toNat ≤ address ∧ address < r.limit.toNat := by
  have hw := h.width_pos
  have hn := h.length_pos
  obtain ⟨ka,kb,kc,-⟩ := h.at_ _ _ h.last
  rw [Nat.sub_add_cancel hn] at kc
  have hlt : (address - (headOf run).start.toNat)/(headOf run).width.toNat < run.length := by
    rw [Nat.div_lt_iff_lt_mul hw]
    omega
  have hdiv := Nat.div_add_mod (address - (headOf run).start.toNat) (headOf run).width.toNat
  have hmod := Nat.mod_lt (address - (headOf run).start.toNat) hw
  rw [Nat.mul_comm] at hdiv
  generalize (address - (headOf run).start.toNat)/(headOf run).width.toNat = i at hlt hdiv ⊢
  have hr : run[i]? = some run[i] := List.getElem?_eq_getElem hlt
  obtain ⟨ha,hb,hc,hd⟩ := h.at_ i _ hr
  refine ⟨_,hr,by omega,?_⟩
  rcases Nat.lt_or_ge (i + 1) run.length with hl | hl
  · rw [hd hl,Nat.add_mul]
    omega
  · have he : run.length - 1 = i := by omega
    have hlast := h.last
    rw [he,hr,Option.some.injEq] at hlast
    rw [hlast]
    exact hhi

/-- Only the chunk at that index can hold the address. -/
theorem index_of {address i : ℕ} {r : FunctionRange} (hr : run[i]? = some r)
    (hlo : r.start.toNat ≤ address) (hhi : address < r.limit.toNat) :
    (address - (headOf run).start.toNat)/(headOf run).width.toNat = i := by
  obtain ⟨ha,hb,hc,-⟩ := h.at_ i r hr
  rw [Nat.div_eq_iff h.width_pos]
  rw [Nat.add_mul] at hc
  have := h.width_pos
  omega

/-- Alignment in the chunk is alignment in the run. -/
theorem mod_four {i address : ℕ} {r : FunctionRange} (hr : run[i]? = some r)
    (hlo : r.start.toNat ≤ address) :
    (address - r.start.toNat) % 4 = (address - (headOf run).start.toNat) % 4 := by
  obtain ⟨ha,-⟩ := h.at_ i r hr
  have hi : i < run.length := (List.getElem?_eq_some_iff.mp hr).1
  rcases Nat.eq_zero_or_pos i with rfl | hpos
  · rw [ha,Nat.zero_mul,Nat.add_zero]
  · have h4 := h.aligned (by omega)
    have hm : i*(headOf run).width.toNat % 4 = 0 := by
      rw [Nat.mul_mod,h4,Nat.mul_zero,Nat.zero_mod]
    omega

/-- What a run finds. -/
theorem finds_iff (address start : BitVec 32) :
    Finds run address start ↔
      (headOf run).start.toNat ≤ address.toNat ∧ address.toNat < (lastOf run).limit.toNat ∧
      (address.toNat - (headOf run).start.toNat) % 4 = 0 ∧
      run[(address.toNat - (headOf run).start.toNat)/(headOf run).width.toNat]?.map (·.start)
        = some start := by
  constructor
  · rintro ⟨r,hmem,⟨hlo,hhi,h4⟩,rfl⟩
    obtain ⟨i,hr⟩ := List.mem_iff_getElem?.mp hmem
    have hb := h.bounds hr
    have hm := h.mod_four hr hlo
    rw [h.index_of hr hlo hhi,hr]
    exact ⟨by omega,by omega,by omega,rfl⟩
  · rintro ⟨hlo,hhi,h4,hs⟩
    obtain ⟨r,hr,ha,hb⟩ := h.at_index hlo hhi
    rw [hr,Option.map_some,Option.some.injEq] at hs
    have hm := h.mod_four hr ha
    exact ⟨r,List.mem_of_getElem? hr,⟨ha,hb,by omega⟩,hs.symm⟩

end Uniform

theorem singleton_finds (r : FunctionRange) (address start : BitVec 32) :
    Finds [r] address start ↔ Covers r address ∧ start = r.start := by
  simp [Finds]

theorem covers_iff (r : FunctionRange) (address : BitVec 32) :
    Covers r address ↔
      r.start ≤ address ∧ address < r.limit ∧ (address - r.start) &&& 3#32 = 0 := by
  rw [Covers,BitVec.le_def,BitVec.lt_def,Alignment.and_three_eq_zero]
  constructor
  · rintro ⟨ha,hb,hc⟩
    exact ⟨ha,hb,by rwa [BitVec.toNat_sub_of_le (BitVec.le_def.mpr ha)]⟩
  · rintro ⟨ha,hb,hc⟩
    exact ⟨ha,hb,by rwa [BitVec.toNat_sub_of_le (BitVec.le_def.mpr ha)] at hc⟩

/-- An offset that wraps around lies behind every run. -/
theorem offset_lt_iff {first last address : BitVec 32} (hle : first.toNat ≤ last.toNat) :
    address - first < last - first ↔ first.toNat ≤ address.toNat ∧ address.toNat < last.toNat := by
  rw [BitVec.lt_def,BitVec.toNat_sub_of_le (BitVec.le_def.mpr hle),BitVec.toNat_sub]
  have := address.isLt
  have := first.isLt
  have := last.isLt
  omega

theorem lookupRun_finds {run : FunctionList} (h : Uniform run) (address start : BitVec 32) :
    lookupRun run address = some start ↔ Finds run address start := by
  unfold lookupRun
  have hne : ¬ (headOf run).start ≥ (headOf run).limit := by
    have := h.nonempty
    rw [ge_iff_le,BitVec.le_def]
    omega
  simp only [hne,or_false]
  split
  next h1 =>
    obtain ⟨r,rfl⟩ := List.length_eq_one_iff.mp h1
    rw [singleton_finds,covers_iff]
    show (if r.start ≤ address ∧ address < r.limit ∧ (address - r.start) &&& 3#32 = 0
      then some r.start else none) = some start ↔ _
    split
    next hc => simp [hc,eq_comm]
    next hc => exact ⟨fun hs => by simp at hs,fun hs => absurd hs.1 hc⟩
  next h1 =>
    obtain ⟨-,hb⟩ := h.bounds h.last
    have hle : (headOf run).start.toNat ≤ (lastOf run).limit.toNat := by
      obtain ⟨ka,kb,-⟩ := h.at_ _ _ h.last
      omega
    simp only [offset_lt_iff hle,h.finds_iff,Alignment.and_three_eq_zero]
    by_cases hlo : (headOf run).start.toNat ≤ address.toNat
    · rw [BitVec.toNat_udiv,BitVec.toNat_sub_of_le (BitVec.le_def.mpr hlo)]
      split
      next hc => exact ⟨fun hs => ⟨hc.1.1,hc.1.2,hc.2,hs⟩,fun hs => hs.2.2.2⟩
      next hc =>
        refine ⟨fun hs => by simp at hs,fun hs => ?_⟩
        exact absurd ⟨⟨hs.1,hs.2.1⟩,hs.2.2.1⟩ hc
    · rw [if_neg (fun hc => hlo hc.1.1)]
      exact ⟨fun hs => by simp at hs,fun hs => absurd hs.1 hlo⟩

theorem runs_flatten (funcs : FunctionList) : (runs funcs).flatten = funcs := by
  induction funcs using runs.induct with
  | case1 => simp [runs]
  | case2 first rest ih =>
    rw [runs,List.flatten_cons,ih,List.cons_append,List.take_append_drop]

/-- Every run is an empty chunk of its own or uniform. -/
theorem mem_runs {funcs : FunctionList} {run : FunctionList} (h : run ∈ runs funcs) :
    (∃ r : FunctionRange, run = [r] ∧ r.limit.toNat ≤ r.start.toNat) ∨ Uniform run := by
  induction funcs using runs.induct with
  | case1 => simp [runs] at h
  | case2 first rest ih =>
    rw [runs,List.mem_cons] at h
    rcases h with rfl | h
    · rcases Nat.lt_or_ge first.start.toNat first.limit.toNat with hlt | hge
      · exact Or.inr (run_uniform rest hlt)
      · have hx : extraRanges first rest = 0 := by
          unfold extraRanges
          rw [if_pos (show first.start ≥ first.limit from BitVec.le_def.mpr hge)]
        rw [hx,List.take_zero]
        exact Or.inl ⟨first,rfl,hge⟩
    · exact ih h

theorem lookupRun_runs {funcs run : FunctionList} (h : run ∈ runs funcs)
    (address start : BitVec 32) : lookupRun run address = some start ↔ Finds run address start := by
  rcases mem_runs h with ⟨r,rfl,hge⟩ | hu
  · have hno : ¬ Finds [r] address start := by
      rintro ⟨q,hq,⟨ha,hb,-⟩,-⟩
      rw [List.mem_singleton] at hq
      subst hq
      omega
    refine ⟨fun hs => ?_,fun hs => absurd hs hno⟩
    unfold lookupRun at hs
    simp only [List.length_singleton,true_or,if_true] at hs
    split at hs
    next hc =>
      obtain ⟨ha,hb,-⟩ := hc
      rw [BitVec.le_def] at ha
      rw [BitVec.lt_def] at hb
      change r.start.toNat ≤ _ at ha
      change _ < r.limit.toNat at hb
      omega
    next => simp at hs
  · exact lookupRun_finds hu address start

theorem finds_flatten (lists : List FunctionList) (address start : BitVec 32) :
    Finds lists.flatten address start ↔ ∃ run ∈ lists, Finds run address start := by
  constructor
  · rintro ⟨r,hr,hc⟩
    obtain ⟨run,hrun,hmem⟩ := List.mem_flatten.mp hr
    exact ⟨run,hrun,r,hmem,hc⟩
  · rintro ⟨run,hrun,r,hmem,hc⟩
    exact ⟨r,List.mem_flatten.mpr ⟨run,hrun,hmem⟩,hc⟩

/-- The chain of tests finds a chunk that covers the address, if there is one. -/
theorem linear_sound {funcs : FunctionList} {address start : BitVec 32}
    (h : emitFunctionLookup funcs address = some start) : Finds funcs address start := by
  obtain ⟨run,hrun,hs⟩ := List.exists_of_findSome?_eq_some h
  rw [← runs_flatten funcs,finds_flatten]
  exact ⟨run,hrun,(lookupRun_runs hrun address start).mp hs⟩

theorem linear_complete {funcs : FunctionList} {address start : BitVec 32}
    (h : Finds funcs address start) : ∃ found, emitFunctionLookup funcs address = some found := by
  rw [← runs_flatten funcs,finds_flatten] at h
  obtain ⟨run,hrun,hf⟩ := h
  rw [← Option.isSome_iff_exists,emitFunctionLookup,List.findSome?_isSome_iff]
  refine ⟨run,hrun,?_⟩
  rw [(lookupRun_runs hrun address start).mpr hf]
  rfl

/-- Where the chunk is unique, the chain of tests finds exactly it. -/
theorem linear_finds {funcs : FunctionList} {address : BitVec 32}
    (unique : ∀ s t, Finds funcs address s → Finds funcs address t → s = t) (start : BitVec 32) :
    emitFunctionLookup funcs address = some start ↔ Finds funcs address start := by
  refine ⟨linear_sound,fun h => ?_⟩
  obtain ⟨found,hs⟩ := linear_complete h
  rw [hs,unique _ _ (linear_sound hs) h]

/-- No chunk is empty, and each ends before the next one starts. -/
structure Sorted (sorted : FunctionList) : Prop where
  nonempty : ∀ r ∈ sorted, r.start.toNat < r.limit.toNat
  apart : sorted.Pairwise fun a b => a.limit.toNat ≤ b.start.toNat

theorem disjoint_pairwise {ranges : FunctionList} (hd : disjoint ranges = true)
    (hn : ∀ r ∈ ranges, r.start.toNat < r.limit.toNat) :
    ranges.Pairwise fun a b => a.limit.toNat ≤ b.start.toNat := by
  induction ranges with
  | nil => exact List.Pairwise.nil
  | cons a rest ih =>
    cases rest with
    | nil => exact List.pairwise_singleton _ _
    | cons b rest =>
      rw [disjoint,Bool.and_eq_true,decide_eq_true_eq,BitVec.le_def] at hd
      have hp := ih hd.2 fun r hr => hn r (List.mem_cons_of_mem _ hr)
      refine List.pairwise_cons.mpr ⟨fun c hc => ?_,hp⟩
      rcases List.mem_cons.mp hc with rfl | hc
      · exact hd.1
      · have hb := hn b (by simp)
        have := (List.pairwise_cons.mp hp).1 c hc
        omega

theorem mem_sortedRanges {funcs : FunctionList} {r : FunctionRange} :
    r ∈ sortedRanges funcs ↔ r ∈ funcs ∧ r.start.toNat < r.limit.toNat := by
  rw [sortedRanges,List.mem_mergeSort,List.mem_filter,decide_eq_true_eq,BitVec.lt_def]

theorem sorted_of_disjoint {funcs : FunctionList} (hd : disjoint (sortedRanges funcs) = true) :
    Sorted (sortedRanges funcs) :=
  ⟨fun _ hr => (mem_sortedRanges.mp hr).2,
    disjoint_pairwise hd fun _ hr => (mem_sortedRanges.mp hr).2⟩

theorem finds_sortedRanges (funcs : FunctionList) (address start : BitVec 32) :
    Finds (sortedRanges funcs) address start ↔ Finds funcs address start := by
  constructor
  · rintro ⟨r,hr,hc⟩
    exact ⟨r,(mem_sortedRanges.mp hr).1,hc⟩
  · rintro ⟨r,hr,hc,hs⟩
    exact ⟨r,mem_sortedRanges.mpr ⟨hr,by have := hc.1; have := hc.2.1; omega⟩,hc,hs⟩

namespace Sorted

variable {sorted : FunctionList} (h : Sorted sorted)

include h

theorem unique {address s t : BitVec 32} (hs : Finds sorted address s)
    (ht : Finds sorted address t) : s = t := by
  obtain ⟨q,hq,hcq,rfl⟩ := hs
  obtain ⟨r,hr,hcr,rfl⟩ := ht
  obtain ⟨i,hi,rfl⟩ := List.mem_iff_getElem.mp hq
  obtain ⟨j,hj,rfl⟩ := List.mem_iff_getElem.mp hr
  have hp := List.pairwise_iff_getElem.mp h.apart
  have := hcq.1
  have := hcq.2.1
  have := hcr.1
  have := hcr.2.1
  rcases Nat.lt_trichotomy i j with hlt | rfl | hlt
  · have := hp i j hi hj hlt
    omega
  · rfl
  · have := hp j i hj hi hlt
    omega

theorem uniform {run : FunctionList} (hr : run ∈ runs sorted) : Uniform run := by
  rcases mem_runs hr with ⟨r,rfl,hge⟩ | hu
  · have hmem : r ∈ sorted := by
      rw [← runs_flatten sorted]
      exact List.mem_flatten.mpr ⟨_,hr,by simp⟩
    have := h.nonempty r hmem
    omega
  · exact hu

theorem runs_apart : (runs sorted).Pairwise fun a b =>
    ∀ q ∈ a, ∀ r ∈ b, q.limit.toNat ≤ r.start.toNat := by
  have hp := h.apart
  rw [← runs_flatten sorted,List.pairwise_flatten] at hp
  exact hp.2

theorem head_le {r : FunctionRange} (hr : r ∈ sorted) :
    (headOf sorted).start.toNat ≤ r.start.toNat := by
  cases sorted with
  | nil => simp at hr
  | cons a rest =>
    rcases List.mem_cons.mp hr with rfl | hr
    · exact le_rfl
    · have ha := h.nonempty a (by simp)
      have := (List.pairwise_cons.mp h.apart).1 r hr
      show a.start.toNat ≤ r.start.toNat
      omega

theorem le_last {r : FunctionRange} (hr : r ∈ sorted) :
    r.limit.toNat ≤ (lastOf sorted).limit.toNat := by
  induction sorted generalizing r with
  | nil => simp at hr
  | cons a rest ih =>
    cases rest with
    | nil =>
      rw [List.mem_singleton] at hr
      subst hr
      exact le_rfl
    | cons b rest =>
      have hrest : Sorted (b :: rest) :=
        ⟨fun r hr => h.nonempty r (List.mem_cons_of_mem _ hr),(List.pairwise_cons.mp h.apart).2⟩
      have hl : lastOf (a :: b :: rest) = lastOf (b :: rest) := by
        simp [lastOf,List.getLastD_eq_getLast?]
      rw [hl]
      rcases List.mem_cons.mp hr with rfl | hr
      · have hb := ih hrest List.mem_cons_self
        have := (List.pairwise_cons.mp h.apart).1 b List.mem_cons_self
        have := hrest.nonempty b List.mem_cons_self
        omega
      · exact ih hrest hr

end Sorted

theorem skipRuns_from {ends : List (BitVec 32)} {run : ℕ} {address : BitVec 32}
    (h : run ≤ skipRuns ends 0 address) : skipRuns ends run address = skipRuns ends 0 address := by
  unfold skipRuns at h ⊢
  rw [List.drop_zero,Nat.zero_add] at h ⊢
  induction ends generalizing run with
  | nil => simpa using h
  | cons limit rest ih =>
    cases run with
    | zero => simp
    | succ run =>
      rw [List.takeWhile_cons] at h ⊢
      split at h
      next hp =>
        rw [if_pos hp,List.drop_succ_cons,List.length_cons] at *
        have := ih (Nat.le_of_succ_le_succ h)
        omega
      next => simp at h

theorem skipRuns_mono {ends : List (BitVec 32)} {a b : BitVec 32} (hab : a ≤ b) :
    skipRuns ends 0 a ≤ skipRuns ends 0 b := by
  unfold skipRuns
  rw [List.drop_zero,Nat.zero_add,Nat.zero_add]
  induction ends with
  | nil => simp
  | cons limit rest ih =>
    rw [List.takeWhile_cons,List.takeWhile_cons]
    split
    next hp =>
      rw [if_pos (decide_eq_true (BitVec.le_trans (of_decide_eq_true hp) hab))]
      simpa using ih
    next => simp

theorem skipRuns_before {ends : List (BitVec 32)} {address limit : BitVec 32} {i : ℕ}
    (hi : i < skipRuns ends 0 address) (hl : ends[i]? = some limit) : limit ≤ address := by
  unfold skipRuns at hi
  rw [List.drop_zero,Nat.zero_add] at hi
  induction ends generalizing i with
  | nil => simp at hl
  | cons first rest ih =>
    rw [List.takeWhile_cons] at hi
    split at hi
    next hp =>
      cases i with
      | zero =>
        simp only [List.getElem?_cons_zero,Option.some.injEq] at hl
        subst hl
        exact of_decide_eq_true hp
      | succ i => exact ih (Nat.lt_of_succ_lt_succ hi) hl
    next => simp at hi

theorem skipRuns_stop {ends : List (BitVec 32)} {address limit : BitVec 32}
    (hl : ends[skipRuns ends 0 address]? = some limit) : address < limit := by
  unfold skipRuns at hl
  rw [List.drop_zero,Nat.zero_add] at hl
  induction ends with
  | nil => simp at hl
  | cons first rest ih =>
    rw [List.takeWhile_cons] at hl
    split at hl
    next => exact ih hl
    next hp =>
      simp only [List.length_nil,List.getElem?_cons_zero,Option.some.injEq] at hl
      subst hl
      exact BitVec.not_le.mp fun hle => hp (decide_eq_true hle)

/-- The page table holds, for every page, the run that a walk from the first one would reach. -/
theorem pageFirsts_eq {sorted : FunctionList} (pages : List ℕ) (run : ℕ)
    (hp : pages.Pairwise fun a b => pageStart sorted a ≤ pageStart sorted b)
    (hr : ∀ page ∈ pages, run ≤ skipRuns (runEnds sorted) 0 (pageStart sorted page)) :
    pageFirsts sorted pages run =
      pages.map fun page => skipRuns (runEnds sorted) 0 (pageStart sorted page) := by
  induction pages generalizing run with
  | nil => rfl
  | cons page pages ih =>
    have hfirst := skipRuns_from (hr page List.mem_cons_self)
    rw [List.pairwise_cons] at hp
    have hnext := ih (skipRuns (runEnds sorted) run (pageStart sorted page)) hp.2
      fun later hl => by
        rw [hfirst]
        exact skipRuns_mono (hp.1 later hl)
    rw [pageFirsts,List.map_cons,hnext,hfirst]

theorem getElem?_flatten {α : Type} (lists : List (List α)) {i j : ℕ} {list : List α}
    (hi : lists[i]? = some list) (hj : j < list.length) :
    lists.flatten[((lists.take i).map List.length).sum + j]? = list[j]? := by
  induction lists generalizing i with
  | nil => simp at hi
  | cons first rest ih =>
    cases i with
    | zero =>
      simp only [List.getElem?_cons_zero,Option.some.injEq] at hi
      subst hi
      rw [List.take_zero,List.map_nil,List.sum_nil,Nat.zero_add,List.flatten_cons,
        List.getElem?_append_left hj]
    | succ i =>
      rw [List.getElem?_cons_succ] at hi
      rw [List.take_succ_cons,List.map_cons,List.sum_cons,List.flatten_cons,Nat.add_assoc,
        List.getElem?_append_right (Nat.le_add_right _ _),Nat.add_sub_cancel_left]
      exact ih hi

theorem getElem?_runEnds {sorted : FunctionList} {k : ℕ} {run : FunctionList}
    (hk : (runs sorted)[k]? = some run) : (runEnds sorted)[k]? = some (lastOf run).limit := by
  rw [runEnds,List.getElem?_map,hk]
  rfl

namespace Sorted

variable {sorted : FunctionList} (h : Sorted sorted)

include h

/-- A chunk that covers the address is in a run that ends behind the address. -/
theorem covers_index {address : BitVec 32} {r : FunctionRange} (hr : r ∈ sorted)
    (hc : Covers r address) : ∃ i run, (runs sorted)[i]? = some run ∧ r ∈ run ∧
      skipRuns (runEnds sorted) 0 address ≤ i := by
  rw [← runs_flatten sorted,List.mem_flatten] at hr
  obtain ⟨run,hrun,hmem⟩ := hr
  obtain ⟨i,hi⟩ := List.mem_iff_getElem?.mp hrun
  refine ⟨i,run,hi,hmem,?_⟩
  by_contra hlt
  have hle := skipRuns_before (Nat.lt_of_not_le hlt) (getElem?_runEnds hi)
  obtain ⟨j,hj⟩ := List.mem_iff_getElem?.mp hmem
  have := ((h.uniform hrun).bounds hj).2
  have := hc.2.1
  rw [BitVec.le_def] at hle
  omega

/-- Where the walk stops, there is the only run that can cover the address. -/
theorem finds_stop {address : BitVec 32} {chunks : FunctionList}
    (hk : (runs sorted)[skipRuns (runEnds sorted) 0 address]? = some chunks) (start : BitVec 32) :
    Finds sorted address start ↔ Finds chunks address start := by
  have hmem := List.mem_of_getElem? hk
  constructor
  · rintro ⟨r,hr,hc,hs⟩
    obtain ⟨i,run,hi,hrun,hle⟩ := h.covers_index hr hc
    rcases Nat.lt_or_ge (skipRuns (runEnds sorted) 0 address) i with hlt | hge
    · have hstop := skipRuns_stop (getElem?_runEnds hk)
      have hap := List.pairwise_iff_getElem.mp h.runs_apart
      obtain ⟨hk',rfl⟩ := List.getElem?_eq_some_iff.mp hk
      obtain ⟨hi',rfl⟩ := List.getElem?_eq_some_iff.mp hi
      have := hap _ _ hk' hi' hlt _ (List.mem_of_getElem? (h.uniform hmem).last) r hrun
      have := hc.1
      rw [BitVec.lt_def] at hstop
      omega
    · have he : i = skipRuns (runEnds sorted) 0 address := by omega
      rw [he,hk,Option.some.injEq] at hi
      subst hi
      exact ⟨r,hrun,hc,hs⟩
  · rintro ⟨r,hr,hc⟩
    refine ⟨r,?_,hc⟩
    rw [← runs_flatten sorted]
    exact List.mem_flatten.mpr ⟨chunks,hmem,hr⟩

theorem index_stop {address : BitVec 32} {chunks : FunctionList} {k : ℕ}
    (hk : (runs sorted)[k]? = some chunks)
    (hlo : (headOf chunks).start.toNat ≤ address.toNat)
    (hhi : address.toNat < (lastOf chunks).limit.toNat) :
    sorted[runBase sorted k + ((address - (headOf chunks).start) / (headOf chunks).width).toNat]? =
      chunks[(address.toNat - (headOf chunks).start.toNat)/(headOf chunks).width.toNat]? := by
  have hu := h.uniform (List.mem_of_getElem? hk)
  obtain ⟨r,hr,-⟩ := hu.at_index hlo hhi
  have hlt := (List.getElem?_eq_some_iff.mp hr).1
  have hflat := getElem?_flatten (runs sorted) hk hlt
  rw [runs_flatten] at hflat
  rw [BitVec.toNat_udiv,BitVec.toNat_sub_of_le (BitVec.le_def.mpr hlo)]
  exact hflat

end Sorted

theorem indexBase_le (sorted : FunctionList) :
    (indexBase sorted).toNat ≤ (headOf sorted).start.toNat := by
  rw [indexBase,BitVec.toNat_and]
  exact Nat.and_le_left

section Pages

variable {sorted : FunctionList} (h : Sorted sorted) (ne : sorted ≠ [])

include h ne

theorem base_le_last : (indexBase sorted).toNat ≤ (lastOf sorted).limit.toNat := by
  obtain ⟨a,rest,rfl⟩ := List.exists_cons_of_ne_nil ne
  have ha : a ∈ a :: rest := List.mem_cons_self
  have := indexBase_le (a :: rest)
  have := h.head_le ha
  have := h.nonempty a ha
  have := h.le_last ha
  omega

theorem pageCount_eq : pageCount sorted =
    ((lastOf sorted).limit.toNat - (indexBase sorted).toNat)/4096 + 1 := by
  rw [pageCount,BitVec.toNat_ushiftRight,BitVec.toNat_sub_of_le
    (BitVec.le_def.mpr (base_le_last h ne)),Nat.shiftRight_eq_div_pow]

theorem pageStart_toNat {page : ℕ} (hp : page < pageCount sorted) :
    (pageStart sorted page).toNat = (indexBase sorted).toNat + 4096*page := by
  rw [pageCount_eq h ne] at hp
  have := base_le_last h ne
  have := (lastOf sorted).limit.isLt
  rw [pageStart,BitVec.toNat_add,BitVec.toNat_ofNat]
  omega

theorem page_first {page : ℕ} (hp : page < pageCount sorted) :
    (pageFirsts sorted (List.range (pageCount sorted)) 0).getD page 0 =
      skipRuns (runEnds sorted) 0 (pageStart sorted page) := by
  have hpages : (List.range (pageCount sorted)).Pairwise fun a b =>
      pageStart sorted a ≤ pageStart sorted b := by
    rw [List.pairwise_iff_getElem]
    intro i j hi hj hij
    rw [List.length_range] at hi hj
    rw [List.getElem_range,List.getElem_range,BitVec.le_def,pageStart_toNat h ne hi,
      pageStart_toNat h ne hj]
    omega
  rw [pageFirsts_eq _ 0 hpages fun _ _ => Nat.zero_le _,List.getD_eq_getElem?_getD,
    List.getElem?_map,List.getElem?_range hp]
  rfl

theorem walk_eq {address : BitVec 32} (hbase : ¬ address < indexBase sorted)
    (hp : ((address - indexBase sorted) >>> 12).toNat < pageCount sorted) :
    skipRuns (runEnds sorted) ((pageFirsts sorted (List.range (pageCount sorted)) 0).getD
      ((address - indexBase sorted) >>> 12).toNat 0) address =
      skipRuns (runEnds sorted) 0 address := by
  rw [BitVec.not_lt] at hbase
  rw [page_first h ne hp]
  apply skipRuns_from
  apply skipRuns_mono
  rw [BitVec.le_def,pageStart_toNat h ne hp,BitVec.toNat_ushiftRight,
    BitVec.toNat_sub_of_le hbase,Nat.shiftRight_eq_div_pow]
  rw [BitVec.le_def] at hbase
  omega

theorem indexed_finds (address start : BitVec 32) :
    findIndexed sorted address = some start ↔ Finds sorted address start := by
  unfold findIndexed
  split
  next hlt =>
    refine ⟨fun hs => by simp at hs,?_⟩
    rintro ⟨r,hr,hc,-⟩
    have := hc.1
    have := h.head_le hr
    have := indexBase_le sorted
    rw [BitVec.lt_def] at hlt
    omega
  next hbase =>
    show (if _ then none else _) = _ ↔ _
    split
    next hpage =>
      refine ⟨fun hs => by simp at hs,?_⟩
      rintro ⟨r,hr,hc,-⟩
      have := hc.2.1
      have := h.le_last hr
      rw [BitVec.not_lt] at hbase
      rw [ge_iff_le,pageCount_eq h ne,BitVec.toNat_ushiftRight,BitVec.toNat_sub_of_le hbase,
        Nat.shiftRight_eq_div_pow] at hpage
      rw [BitVec.le_def] at hbase
      omega
    next hpage =>
      simp only [walk_eq h ne hbase (Nat.lt_of_not_le hpage)]
      generalize hk : (runs sorted)[skipRuns (runEnds sorted) 0 address]? = found
      cases found with
      | none =>
        refine ⟨fun hs => by simp at hs,?_⟩
        rintro ⟨r,hr,hc,-⟩
        obtain ⟨i,run,hi,-,hle⟩ := h.covers_index hr hc
        have := (List.getElem?_eq_some_iff.mp hi).1
        have := List.getElem?_eq_none_iff.mp hk
        omega
      | some chunks =>
        have hhi := skipRuns_stop (getElem?_runEnds hk)
        have hu := h.uniform (List.mem_of_getElem? hk)
        rw [h.finds_stop hk,hu.finds_iff]
        show (if _ then none else _) = _ ↔ _
        split
        next hlt => exact ⟨fun hs => by simp at hs,fun hs => absurd hs.1 (Nat.not_le.mpr hlt)⟩
        next hge =>
          have hlo := Nat.le_of_not_lt hge
          have hoffset : (address - (headOf chunks).start) &&& 3#32 = 0 ↔
              (address.toNat - (headOf chunks).start.toNat) % 4 = 0 := by
            rw [Alignment.and_three_eq_zero,BitVec.toNat_sub_of_le (BitVec.le_def.mpr hlo)]
          show (if ¬ (_ &&& 3#32 = 0) then none else _) = _ ↔ _
          rw [h.index_stop hk hlo hhi]
          split
          next h4 => exact ⟨fun hs => by simp at hs,fun hs => absurd (hoffset.mpr hs.2.2.1) h4⟩
          next h4 =>
            exact ⟨fun hs => ⟨hlo,hhi,hoffset.mp (not_not.mp h4),hs⟩,fun hs => hs.2.2.2⟩

end Pages

/-- Where the page table is printed, it gives the same lookup as the chain of tests. -/
theorem indexed_matches_linear (funcs : FunctionList) (find : BitVec 32 → Option (BitVec 32))
    (h : emitLookupIndexed funcs = some find) (address : BitVec 32) :
    find address = emitFunctionLookup funcs address := by
  unfold emitLookupIndexed at h
  simp only at h
  split at h
  · simp at h
  next hc =>
    simp only [not_or,Bool.not_eq_false] at hc
    obtain ⟨ne,hd,-⟩ := hc
    rw [Option.some.injEq] at h
    subst h
    have hsorted := sorted_of_disjoint hd
    have unique : ∀ s t, Finds funcs address s → Finds funcs address t → s = t := by
      intro s t hs ht
      rw [← finds_sortedRanges] at hs ht
      exact hsorted.unique hs ht
    have he (start : BitVec 32) : findIndexed (sortedRanges funcs) address = some start ↔
        emitFunctionLookup funcs address = some start := by
      rw [indexed_finds hsorted ne,linear_finds unique,finds_sortedRanges]
    exact Option.ext he

theorem indexed_matches_linear_unsorted :
    findIndexed (sortedRanges [⟨0x80004000#32,0x80004100#32⟩,⟨0x80003100#32,0x80003106#32⟩])
      0x80004004#32 =
    emitFunctionLookup [⟨0x80004000#32,0x80004100#32⟩,⟨0x80003100#32,0x80003106#32⟩]
      0x80004004#32 :=
  indexed_matches_linear _ _ (by
    have hs : sortedRanges [⟨0x80004000#32,0x80004100#32⟩,⟨0x80003100#32,0x80003106#32⟩] =
        [⟨0x80003100#32,0x80003106#32⟩,⟨0x80004000#32,0x80004100#32⟩] := by
      simp [sortedRanges,rangeLe,List.mergeSort,List.MergeSort.Internal.splitInTwo]
    rw [emitLookupIndexed,hs]
    rfl) _

end Dispatch

end DolRecomp
