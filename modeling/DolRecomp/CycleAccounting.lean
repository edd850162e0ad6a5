import DolRecomp.OutlinedLoops
import Mathlib.Algebra.BigOperators.Ring.Nat
import Mathlib.Algebra.Order.BigOperators.Group.Finset

/-!
# Cycle accounting

`c_function_cfg_build` charges the cycles of a block at its leader. Every
instruction is in one block as long as a branch goes to the word behind every
embedded word that ends a block.
-/

namespace DolRecomp

namespace CFunction

variable (f : CFunction)

def cyclesAt (index : ℕ) : ℕ := (f.insts[index]?.map instructionCycles).getD 0

def endsBlockAt (index : ℕ) : Bool := f.insts[index]?.any instructionEndsBlock

def Reaches (first index : ℕ) : Prop :=
  first ≤ index ∧ index < f.insts.length ∧
    ∀ j < index, first ≤ j → f.endsBlockAt j = false ∧ f.leaders (j + 1) = false

instance (first index : ℕ) : Decidable (f.Reaches first index) :=
  inferInstanceAs (Decidable (_ ∧ _))

def countedFrom (first : ℕ) : Finset ℕ :=
  (Finset.range f.insts.length).filter (f.Reaches first)

def leaderSet : Finset ℕ := (Finset.range f.insts.length).filter fun l => f.leaders l = true

/-- Every instruction is counted at one leader, which is charged the sum of its block; the
charges add up to the cycles of all instructions. -/
structure CyclesPartitioned : Prop where
  one : ∀ index < f.insts.length, ∃! l, f.leaders l = true ∧ f.Reaches l index
  block : ∀ l, f.leaders l = true →
    f.blockCycles l = BitVec.ofNat 32 (∑ index ∈ f.countedFrom l, f.cyclesAt index)
  total : (∑ l ∈ f.leaderSet, (f.blockCycles l).toNat) % 2^32 =
    (∑ index ∈ Finset.range f.insts.length, f.cyclesAt index) % 2^32
  exact : 40*f.insts.length < 2^32 → ∑ l ∈ f.leaderSet, (f.blockCycles l).toNat =
    ∑ index ∈ Finset.range f.insts.length, f.cyclesAt index

/-- To the word behind an embedded word that ends a block goes a branch. -/
def EmbeddedEndsLead : Prop :=
  ∀ index i, index + 1 < f.insts.length → f.insts[index]? = some i → i.embeddedData = true →
    instructionEndsBlock i = true → ∃ j ∈ f.insts, f.branchesTo j (index + 1) = true

variable {f}

theorem mem_countedFrom {first index : ℕ} :
    index ∈ f.countedFrom first ↔ f.Reaches first index := by
  rw [countedFrom,Finset.mem_filter,Finset.mem_range]
  exact ⟨fun h => h.2,fun h => ⟨h.2.1,h⟩⟩

/-- A block is its first instruction and, unless that ends it, what is counted from the next. -/
theorem countedFrom_step {first : ℕ} (hlt : first < f.insts.length) : f.countedFrom first =
    insert first (if f.endsBlockAt first ∨ f.leaders (first + 1) then ∅
      else f.countedFrom (first + 1)) := by
  ext index
  rw [mem_countedFrom,Finset.mem_insert]
  constructor
  · rintro ⟨hle,hl,hall⟩
    by_cases he : index = first
    · exact .inl he
    · have hs := hall first (by omega) le_rfl
      right
      rw [if_neg (by simp [hs.1,hs.2]),mem_countedFrom]
      exact ⟨by omega,hl,fun j hj hf => hall j hj (by omega)⟩
  · rintro (rfl | hm)
    · exact ⟨le_rfl,hlt,fun j hj hf => by omega⟩
    · split at hm
      next => exact absurd hm (Finset.notMem_empty _)
      next hs =>
        obtain ⟨hle,hl,hall⟩ := mem_countedFrom.mp hm
        refine ⟨by omega,hl,fun j hj hf => ?_⟩
        by_cases he : j = first
        · subst he
          simpa only [not_or,Bool.not_eq_true] using hs
        · exact hall j hj (by omega)

theorem first_notMem (first : ℕ) (p : Prop) [Decidable p] :
    first ∉ (if p then ∅ else f.countedFrom (first + 1)) := by
  split
  · exact Finset.notMem_empty _
  · rw [mem_countedFrom]
    exact fun h => absurd h.1 (by omega)

theorem cyclesFrom_eq (is : List PPCInst) (first : ℕ) (hd : f.insts.drop first = is) :
    f.cyclesFrom first is = ∑ index ∈ f.countedFrom first, f.cyclesAt index := by
  induction is generalizing first with
  | nil =>
    have hlen : f.insts.length ≤ first := List.drop_eq_nil_iff.mp hd
    rw [cyclesFrom,Finset.sum_eq_zero]
    intro index hm
    have hr := mem_countedFrom.mp hm
    exact absurd (hr.1.trans_lt hr.2.1) (by omega)
  | cons i is ih =>
    have hlt : first < f.insts.length := by
      by_contra hge
      rw [List.drop_eq_nil_of_le (by omega)] at hd
      cases hd
    have hget : f.insts[first]? = some i := by
      have := congrArg List.head? hd
      rwa [List.head?_drop] at this
    have hnext : f.insts.drop (first + 1) = is := by
      rw [← List.drop_drop,hd,List.drop_one,List.tail_cons]
    have hcycles : f.cyclesAt first = instructionCycles i := by rw [cyclesAt,hget]; rfl
    have hends : f.endsBlockAt first = instructionEndsBlock i := by rw [endsBlockAt,hget]; rfl
    rw [cyclesFrom,countedFrom_step hlt,Finset.sum_insert (first_notMem _ _),hcycles,hends]
    congr 1
    by_cases hs : instructionEndsBlock i ∨ f.leaders (first + 1)
    · rw [if_pos hs,if_pos (hs.elim .inl fun h => .inr (.inr h)),Finset.sum_empty]
    · rw [if_neg hs]
      cases is with
      | nil =>
        rw [if_pos (.inr (.inl rfl)),← ih _ hnext]
        rfl
      | cons j js =>
        rw [if_neg (by simpa only [reduceCtorEq,false_or] using hs),ih _ hnext]

theorem blockCycles_eq {l : ℕ} (hl : f.leaders l = true) :
    f.blockCycles l = BitVec.ofNat 32 (∑ index ∈ f.countedFrom l, f.cyclesAt index) := by
  rw [blockCycles,if_pos hl,cyclesFrom_eq _ l rfl]

theorem leaders_zero (h : 0 < f.insts.length) : f.leaders 0 = true := by
  simp [leaders,h]

theorem leaders_lt {l : ℕ} (h : f.leaders l = true) : l < f.insts.length := by
  simp only [leaders,Bool.and_eq_true,decide_eq_true_eq] at h
  exact h.1

/-- An instruction that is no embedded word and ends a block is followed by a leader. -/
theorem leaders_behind {index : ℕ} (hlt : index + 1 < f.insts.length)
    (he : f.endsBlockAt index = true)
    (hd : (f.insts[index]?.any fun i => i.embeddedData) = false) : f.leaders (index + 1) = true := by
  have hget : f.insts[index]? = some f.insts[index] := List.getElem?_eq_getElem (by omega)
  rw [endsBlockAt,hget,Option.any_some] at he
  rw [hget,Option.any_some] at hd
  have hfollows : f.followsBlock (index + 1) = true := by
    simp only [followsBlock,Nat.add_sub_cancel,hget,Option.any_some,hd,he]
    simp
  simp only [leaders,hlt,hfollows,decide_true,Bool.or_true,Bool.true_or,Bool.and_self]

theorem reaches_unique {l l' index : ℕ} (hl : f.leaders l = true) (hl' : f.leaders l' = true)
    (h : f.Reaches l index) (h' : f.Reaches l' index) : l = l' := by
  have hle : ∀ {a b : ℕ}, f.leaders b = true → f.Reaches a index → f.Reaches b index → ¬ a < b := by
    intro a b hb ha hr hlt
    have := (ha.2.2 (b - 1) (by have := hr.1; omega) (by omega)).2
    rw [show b - 1 + 1 = b by omega,hb] at this
    cases this
  have h1 := hle hl' h h'
  have h2 := hle hl h' h
  omega

/-- The greatest leader up to an instruction counts it. -/
theorem reaches_greatest (h : f.EmbeddedEndsLead) {index : ℕ} (hlt : index < f.insts.length) :
    ∃ l, f.leaders l = true ∧ f.Reaches l index := by
  have hex : ∃ l, l ≤ index ∧ f.leaders l = true := ⟨0,by omega,leaders_zero (by omega)⟩
  obtain ⟨l,⟨hle,hl⟩,hmax⟩ : ∃ l, (l ≤ index ∧ f.leaders l = true) ∧
      ∀ m, m ≤ index → f.leaders m = true → m ≤ l := by
    obtain ⟨l,hl⟩ := hex
    have hspec : f.leaders (Nat.findGreatest (fun m => f.leaders m = true) index) = true :=
      Nat.findGreatest_spec (P := fun m => f.leaders m = true) hl.1 hl.2
    refine ⟨Nat.findGreatest (fun m => f.leaders m = true) index,
      ⟨Nat.findGreatest_le index,hspec⟩,fun m hm hlead => ?_⟩
    exact Nat.le_findGreatest hm hlead
  refine ⟨l,hl,hle,hlt,fun j hj hf => ?_⟩
  have hno : f.leaders (j + 1) = false := by
    rw [← Bool.not_eq_true]
    intro hlead
    have := hmax (j + 1) (by omega) hlead
    omega
  refine ⟨?_,hno⟩
  rw [← Bool.not_eq_true]
  intro he
  have hlead : f.leaders (j + 1) = true := by
    have hget : f.insts[j]? = some f.insts[j] := List.getElem?_eq_getElem (by omega)
    cases hd : f.insts[j].embeddedData with
    | true =>
      rw [endsBlockAt,hget,Option.any_some] at he
      exact (leaders_behind_data hget hd (by omega)).mpr (h j _ (by omega) hget hd he)
    | false => exact leaders_behind (by omega) he (by rw [hget,Option.any_some,hd])
  rw [hno] at hlead
  cases hlead

/-- Behind an embedded word that ends a block, an instruction that no branch goes to is lost. -/
theorem embeddedEndsLead_of_one (h : ∀ index < f.insts.length, ∃! l,
    f.leaders l = true ∧ f.Reaches l index) : f.EmbeddedEndsLead := by
  intro index i hlt hi hd he
  obtain ⟨l,⟨hl,hr⟩,-⟩ := h (index + 1) hlt
  rw [← leaders_behind_data hi hd hlt]
  by_cases hle : l ≤ index
  · have := (hr.2.2 index (by omega) hle).1
    rw [endsBlockAt,hi,Option.any_some,he] at this
    cases this
  · have hle' := hr.1
    rwa [show index + 1 = l by omega]

theorem sum_blocks (h : ∀ index < f.insts.length, ∃! l, f.leaders l = true ∧ f.Reaches l index) :
    ∑ l ∈ f.leaderSet, ∑ index ∈ f.countedFrom l, f.cyclesAt index =
      ∑ index ∈ Finset.range f.insts.length, f.cyclesAt index := by
  simp only [countedFrom,Finset.sum_filter]
  rw [Finset.sum_comm]
  refine Finset.sum_congr rfl fun index hm => ?_
  obtain ⟨l,⟨hl,hr⟩,huniq⟩ := h index (Finset.mem_range.mp hm)
  rw [Finset.sum_eq_single l]
  · rw [if_pos hr]
  · intro l' hl' hne
    refine if_neg fun hr' => hne (huniq l' ⟨?_,hr'⟩)
    exact (Finset.mem_filter.mp hl').2
  · intro hno
    exact absurd (Finset.mem_filter.mpr ⟨Finset.mem_range.mpr (leaders_lt hl),hl⟩) hno

theorem cyclesAt_le (index : ℕ) : f.cyclesAt index ≤ 40 := by
  rw [cyclesAt]
  cases f.insts[index]? with
  | none => exact Nat.zero_le _
  | some i => exact instructionCycles_le i

theorem sum_cycles_le : ∑ index ∈ Finset.range f.insts.length, f.cyclesAt index ≤
    40*f.insts.length := by
  refine (Finset.sum_le_card_nsmul _ _ 40 fun index _ => cyclesAt_le index).trans ?_
  rw [Finset.card_range,smul_eq_mul,Nat.mul_comm]

theorem block_sum_le (l : ℕ) : ∑ index ∈ f.countedFrom l, f.cyclesAt index ≤
    ∑ index ∈ Finset.range f.insts.length, f.cyclesAt index :=
  Finset.sum_le_sum_of_subset (Finset.filter_subset _ _)

/-- The accounting is a partition exactly when branches go to the words behind the embedded words
that end a block. -/
theorem cycles_partitioned_iff (f : CFunction) : f.CyclesPartitioned ↔ f.EmbeddedEndsLead := by
  constructor
  · exact fun h => embeddedEndsLead_of_one h.one
  · intro h
    have hone : ∀ index < f.insts.length, ∃! l, f.leaders l = true ∧ f.Reaches l index := by
      intro index hlt
      obtain ⟨l,hl,hr⟩ := reaches_greatest h hlt
      exact ⟨l,⟨hl,hr⟩,fun l' hl' => reaches_unique hl'.1 hl hl'.2 hr⟩
    have hsum := sum_blocks hone
    have hblock : ∀ l ∈ f.leaderSet, (f.blockCycles l).toNat =
        (∑ index ∈ f.countedFrom l, f.cyclesAt index) % 2^32 := fun l hl => by
      rw [blockCycles_eq (Finset.mem_filter.mp hl).2,BitVec.toNat_ofNat]
    refine ⟨hone,fun l hl => blockCycles_eq hl,?_,fun hlt => ?_⟩
    · rw [Finset.sum_congr rfl hblock,← Finset.sum_nat_mod,hsum]
    · rw [← hsum]
      refine Finset.sum_congr rfl fun l hl => ?_
      have hle := (block_sum_le (f := f) l).trans sum_cycles_le
      rw [hblock l hl,Nat.mod_eq_of_lt (by omega)]

/-- A word of embedded data in front of one `addi`. -/
def dataThenCode : CFunction where
  insts := [{ embeddedData := true },{ op := .addi, address := 4 }]
  address := 0
  host := {}
  chunkStarts := []
  callEnter := false

/-- The only leader is the embedded word; the `addi` behind it is charged to nobody. -/
theorem dataThenCode_loses : ¬ dataThenCode.CyclesPartitioned ∧
    dataThenCode.leaders 0 = true ∧ dataThenCode.leaders 1 = false ∧
    dataThenCode.blockCycles 0 = 0 ∧ dataThenCode.cyclesAt 1 = 1 := by
  refine ⟨fun h => ?_,by decide,by decide,by decide,by decide⟩
  have hto := embeddedEndsLead_of_one h.one 0 _ (by decide) rfl rfl (by decide)
  exact absurd hto (by decide)

end CFunction

end DolRecomp
