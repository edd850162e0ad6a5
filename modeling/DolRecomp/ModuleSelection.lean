import Mathlib.Data.Finset.Card
import Mathlib.Data.Nat.Bitwise
import DolRecomp.FirstBest

/-!
# Selection of a module variant

A module carries variants for different hosts. The loader takes the one that requires the most
features among those that the host can run.
-/

namespace DolRecomp

/-- `DolRecompSemanticMode` -/
inductive SemanticMode
  | exact | fast
  deriving DecidableEq

/-- `DolRecompVariantV4`; a dispatch of type `δ` may be null. -/
structure Variant (δ : Type) where
  requiredFeatures : BitVec 64
  semantics : SemanticMode
  dispatch : Option δ
  name : String

structure DolRecompModule (δ : Type) where
  abiVersion : BitVec 32
  cpuStateSize : BitVec 32
  variants : List (Variant δ)
  legacyDispatch : Option δ

structure LoadedModule (δ : Type) where
  dispatch : Option δ
  variantName : Option String
  hostFeatures : BitVec 64
  semantics : SemanticMode

inductive SelectDiagnostic
  | incompatibleLayout
  | unsupportedAbi (version : BitVec 32)
  | noCompatibleVariant (semantics : SemanticMode) (features : BitVec 64)

def moduleAbiV3 : BitVec 32 := 3
def moduleAbiV4 : BitVec 32 := 4

theorem clear_lowest_lt {features : BitVec 64} (h : features ≠ 0#64) :
    (features &&& (features - 1#64)).toNat < features.toNat := by
  have hpos : 0 < features.toNat := Nat.pos_of_ne_zero fun h0 => h (BitVec.eq_of_toNat_eq h0)
  have hsub : (features - 1#64).toNat = features.toNat - 1 :=
    BitVec.toNat_sub_of_le (BitVec.le_def.mpr hpos)
  have hand : (features &&& (features - 1#64)).toNat ≤ (features - 1#64).toNat := by
    rw [BitVec.toNat_and]
    exact Nat.and_le_right
  omega

def featureScore (features : BitVec 64) : ℕ :=
  if h : features = 0#64 then 0
  else featureScore (features &&& (features - 1#64)) + 1
termination_by features.toNat
decreasing_by exact clear_lowest_lt h

section
variable {δ : Type} (sizeofCPUState : BitVec 32) (hostFeatures : BitVec 64)
  (semantics : SemanticMode)

/-- The variant passes the guard of the loop. -/
def Selectable (v : Variant δ) : Prop :=
  v.dispatch.isSome ∧ v.semantics = semantics ∧
    v.requiredFeatures &&& hostFeatures = v.requiredFeatures

instance : DecidablePred (Selectable (δ := δ) hostFeatures semantics) :=
  fun _ => inferInstanceAs (Decidable (_ ∧ _ ∧ _))

/-- One round of the loop, with the best score so far. -/
def selectStep (best : LoadedModule δ × ℕ) (v : Variant δ) : LoadedModule δ × ℕ :=
  if ¬ Selectable hostFeatures semantics v then best
  else
    let score := featureScore v.requiredFeatures
    if best.1.dispatch.isNone ∨ score > best.2 then
      ({ best.1 with dispatch := v.dispatch, variantName := some v.name }, score)
    else best

/-- `dolrecomp_select_module`, with whether a dispatch has been selected. -/
def dolrecompSelectModule (m : DolRecompModule δ) (loaded : LoadedModule δ) :
    Bool × LoadedModule δ × Option SelectDiagnostic :=
  if m.cpuStateSize ≠ sizeofCPUState then (false,loaded,some .incompatibleLayout)
  else
    let loaded : LoadedModule δ := ⟨none,none,hostFeatures,semantics⟩
    if m.abiVersion = moduleAbiV3 then
      (m.legacyDispatch.isSome,
        { loaded with dispatch := m.legacyDispatch, variantName := some "legacy-v3" },none)
    else if m.abiVersion ≠ moduleAbiV4 then (false,loaded,some (.unsupportedAbi m.abiVersion))
    else
      let loaded := (m.variants.foldl (selectStep hostFeatures semantics) (loaded,0)).1
      (loaded.dispatch.isSome,loaded,
        if loaded.dispatch.isNone then some (.noCompatibleVariant semantics hostFeatures) else none)

end

def featuresOf (features : BitVec 64) : Finset ℕ :=
  (Finset.range 64).filter fun n => features.getLsbD n

theorem mem_featuresOf {features : BitVec 64} {n : ℕ} :
    n ∈ featuresOf features ↔ features.getLsbD n := by
  rw [featuresOf,Finset.mem_filter,Finset.mem_range]
  exact ⟨fun h => h.2,fun h => ⟨BitVec.lt_of_getLsbD h,h⟩⟩

theorem testBit_clear_lowest (n : ℕ) (h : 0 < n) : ∃ k, n.testBit k ∧
    ∀ j, (n &&& (n - 1)).testBit j = (n.testBit j && decide (j ≠ k)) := by
  induction n using Nat.strong_induction_on with
  | h n ih =>
    rcases Nat.even_or_odd' n with ⟨m,rfl | rfl⟩
    · obtain ⟨k,hk,hbits⟩ := ih m (by omega) (by omega)
      have hhalf : (2*m - 1)/2 = m - 1 := by omega
      refine ⟨k + 1,?_,fun j => ?_⟩
      · rw [Nat.testBit_succ,Nat.mul_div_cancel_left m (by omega),hk]
      cases j with
      | zero => simp
      | succ j =>
        have hj := hbits j
        rw [Nat.testBit_and] at hj
        rw [Nat.testBit_and,Nat.testBit_succ,Nat.testBit_succ,hhalf,
          Nat.mul_div_cancel_left m (by omega),hj]
        simp
    · have hhalf : (2*m + 1)/2 = m := by omega
      refine ⟨0,by simp,fun j => ?_⟩
      cases j with
      | zero => simp
      | succ j =>
        rw [Nat.testBit_and,Nat.add_sub_cancel,Nat.testBit_succ,Nat.testBit_succ,hhalf,
          Nat.mul_div_cancel_left m (by omega)]
        simp

theorem featuresOf_clear_lowest {features : BitVec 64} (h : features ≠ 0#64) :
    ∃ k ∈ featuresOf features,
      featuresOf (features &&& (features - 1#64)) = (featuresOf features).erase k := by
  have hpos : 0 < features.toNat := Nat.pos_of_ne_zero fun h0 => h (BitVec.eq_of_toNat_eq h0)
  have hsub : (features - 1#64).toNat = features.toNat - 1 :=
    BitVec.toNat_sub_of_le (BitVec.le_def.mpr hpos)
  obtain ⟨k,hk,hbits⟩ := testBit_clear_lowest features.toNat hpos
  refine ⟨k,mem_featuresOf.mpr hk,Finset.ext fun n => ?_⟩
  have hn := hbits n
  rw [← hsub,← BitVec.toNat_and] at hn
  rw [Finset.mem_erase,mem_featuresOf,mem_featuresOf,BitVec.getLsbD,hn,BitVec.getLsbD]
  simp [and_comm]

theorem featureScore_eq (features : BitVec 64) :
    featureScore features = (featuresOf features).card := by
  induction features using featureScore.induct with
  | case1 =>
    rw [featureScore]
    simp [featuresOf]
  | case2 features h ih =>
    obtain ⟨k,hk,herase⟩ := featuresOf_clear_lowest h
    rw [featureScore,dif_neg h,ih,herase,Finset.card_erase_add_one hk]

section
variable {δ : Type} (hostFeatures : BitVec 64) (semantics : SemanticMode)

/-- A variant that the host can run. -/
structure Compatible (v : Variant δ) : Prop where
  dispatch : v.dispatch.isSome
  semantics : v.semantics = semantics
  features : featuresOf v.requiredFeatures ⊆ featuresOf hostFeatures

def requiredCount (v : Variant δ) : ℕ := (featuresOf v.requiredFeatures).card

theorem selectable_iff (v : Variant δ) :
    Selectable hostFeatures semantics v ↔ Compatible hostFeatures semantics v := by
  have hsubset : v.requiredFeatures &&& hostFeatures = v.requiredFeatures ↔
      featuresOf v.requiredFeatures ⊆ featuresOf hostFeatures := by
    constructor
    · intro h n hn
      rw [mem_featuresOf,← h,BitVec.getLsbD_and,Bool.and_eq_true] at hn
      exact mem_featuresOf.mpr hn.2
    · intro h
      refine BitVec.eq_of_getLsbD_eq fun n _ => ?_
      rw [BitVec.getLsbD_and]
      cases hn : v.requiredFeatures.getLsbD n with
      | false => rfl
      | true =>
        rw [Bool.true_and]
        exact mem_featuresOf.mp (h (mem_featuresOf.mpr hn))
  rw [Selectable,hsubset]
  exact ⟨fun ⟨hd,hs,hf⟩ => ⟨hd,hs,hf⟩,fun ⟨hd,hs,hf⟩ => ⟨hd,hs,hf⟩⟩

/-- The state of the loop for the best variant so far. -/
def loadedOf : Option (Variant δ) → LoadedModule δ × ℕ
  | none => (⟨none,none,hostFeatures,semantics⟩,0)
  | some v =>
    (⟨v.dispatch,some v.name,hostFeatures,semantics⟩,featureScore v.requiredFeatures)

variable {hostFeatures semantics}

theorem selectStep_loadedOf {best : Option (Variant δ)} (hbest : ∀ v ∈ best, v.dispatch.isSome)
    (v : Variant δ) :
    selectStep hostFeatures semantics (loadedOf hostFeatures semantics best) v =
      loadedOf hostFeatures semantics
        (FirstBest.step (Selectable hostFeatures semantics) requiredCount best v) := by
  rw [selectStep,FirstBest.step]
  by_cases hv : Selectable hostFeatures semantics v
  · have hcond : (loadedOf hostFeatures semantics best).1.dispatch.isNone ∨
        featureScore v.requiredFeatures > (loadedOf hostFeatures semantics best).2 ↔
        ∀ b ∈ best, requiredCount b < requiredCount v := by
      cases best with
      | none => simp [loadedOf]
      | some b =>
        have hsome : b.dispatch.isSome := hbest b rfl
        have hnone : ¬ b.dispatch.isNone := by simpa [Option.isSome_iff_ne_none] using hsome
        simp [loadedOf,featureScore_eq,requiredCount,Option.isNone_iff_eq_none.not.mp hnone]
    rw [if_neg (not_not.mpr hv)]
    by_cases hlt : ∀ b ∈ best, requiredCount b < requiredCount v
    · simp only [if_pos (hcond.mpr hlt),if_pos (And.intro hv hlt)]
      cases best <;> rfl
    · simp only [if_neg (mt hcond.mp hlt),if_neg fun h : _ ∧ _ => hlt h.2]
  · rw [if_pos hv,if_neg fun h => hv h.1]

theorem foldl_selectStep (variants : List (Variant δ)) :
    variants.foldl (selectStep hostFeatures semantics) (loadedOf hostFeatures semantics none) =
      loadedOf hostFeatures semantics
        (variants.foldl (FirstBest.step (Selectable hostFeatures semantics) requiredCount)
          none) := by
  induction variants using List.reverseRecOn with
  | nil => rfl
  | append_singleton variants v ih =>
    rw [List.foldl_append,List.foldl_append,ih]
    refine selectStep_loadedOf (fun b hb => ?_) v
    have hfound := @FirstBest.found_foldl _ _ _ (Selectable hostFeatures semantics)
      requiredCount _ variants
    rw [Option.mem_def.mp hb] at hfound
    obtain ⟨i,-,hp,-⟩ := hfound
    exact hp.1

end

section
variable {δ : Type}

/-- A module with variants fails exactly when its CPU state has another size or no variant is
compatible; otherwise the first compatible variant with the most required features is taken. -/
theorem select_module_first_best (sizeofCPUState : BitVec 32) (hostFeatures : BitVec 64)
    (semantics : SemanticMode) (m : DolRecompModule δ) (loaded : LoadedModule δ)
    (hversion : m.abiVersion = moduleAbiV4) :
    ((dolrecompSelectModule sizeofCPUState hostFeatures semantics m loaded).1 = false ↔
      m.cpuStateSize ≠ sizeofCPUState ∨
        ∀ v ∈ m.variants, ¬ Compatible hostFeatures semantics v) ∧
    ((dolrecompSelectModule sizeofCPUState hostFeatures semantics m loaded).1 = true →
      ∃ i v, FirstBest.IsBestAt (Compatible hostFeatures semantics) requiredCount m.variants i v ∧
        (dolrecompSelectModule sizeofCPUState hostFeatures semantics m loaded).2.1 =
          ⟨v.dispatch,some v.name,hostFeatures,semantics⟩) := by
  have hpred : Selectable (δ := δ) hostFeatures semantics = Compatible hostFeatures semantics :=
    funext fun v => propext (selectable_iff hostFeatures semantics v)
  unfold dolrecompSelectModule
  by_cases hsize : m.cpuStateSize = sizeofCPUState
  · have hv3 : ¬ m.abiVersion = moduleAbiV3 := by
      rw [hversion]
      decide
    rw [if_neg (not_not.mpr hsize)]
    simp only [if_neg hv3,if_neg (not_not.mpr hversion)]
    rw [show ((⟨none,none,hostFeatures,semantics⟩ : LoadedModule δ),0) =
      loadedOf hostFeatures semantics none from rfl,foldl_selectStep]
    have hfound := @FirstBest.found_foldl _ _ _ (Selectable hostFeatures semantics)
      requiredCount _ m.variants
    revert hfound
    cases m.variants.foldl (FirstBest.step (Selectable hostFeatures semantics) requiredCount)
      none with
    | none =>
      intro hfound
      refine ⟨⟨fun _ => Or.inr fun v hv => ?_,fun _ => rfl⟩,fun h => absurd h Bool.false_ne_true⟩
      exact fun hc => hfound v hv ((selectable_iff hostFeatures semantics v).mpr hc)
    | some v =>
      rintro ⟨i,hi⟩
      have hsome : v.dispatch.isSome := hi.2.1.1
      refine ⟨⟨fun h => ?_,?_⟩,fun _ => ⟨i,v,hpred ▸ hi,rfl⟩⟩
      · rw [loadedOf,hsome] at h
        exact absurd h.symm Bool.false_ne_true
      · rintro (h | h)
        · exact absurd hsize h
        · exact absurd ((selectable_iff hostFeatures semantics v).mp hi.2.1)
            (h v (List.mem_of_getElem? hi.1))
  · rw [if_pos hsize]
    exact ⟨⟨fun _ => Or.inl hsize,fun _ => rfl⟩,fun h => absurd h Bool.false_ne_true⟩

end

/-- Only the first and the third variant run on a host with the two lowest features. -/
def sampleModule (cpuStateSize : BitVec 32) : DolRecompModule ℕ where
  abiVersion := 4
  cpuStateSize := cpuStateSize
  variants := [⟨0,.exact,some 0,"baseline"⟩,⟨7,.exact,some 1,"wide"⟩,⟨3,.exact,some 2,"sse42"⟩,
    ⟨5,.exact,some 3,"popcnt"⟩]
  legacyDispatch := none

/-- The two others need more; the third variant needs more features than the first. -/
theorem select_module_sample :
    (dolrecompSelectModule 700 3 .exact (sampleModule 700) ⟨none,none,0,.fast⟩).2.1 =
      ⟨some 2,some "sse42",3,.exact⟩ := by
  obtain ⟨hfails,hbest⟩ :=
    select_module_first_best 700 3 .exact (sampleModule 700) ⟨none,none,0,.fast⟩ rfl
  have hok : (dolrecompSelectModule 700 3 .exact (sampleModule 700)
      ⟨none,none,0,.fast⟩).1 = true := by
    rw [← Bool.not_eq_false,hfails]
    rintro (hsize | hnone)
    · exact hsize rfl
    · refine hnone _ List.mem_cons_self ((selectable_iff _ _ _).mp ?_)
      decide
  obtain ⟨i,v,⟨hv,hc,hmax⟩,hloaded⟩ := hbest hok
  have hs := (selectable_iff 3 .exact v).mpr hc
  have hthird := (hmax 2 _ rfl ((selectable_iff _ _ _).mp (by decide))).1
  rcases i with _ | _ | _ | _ | i
  · cases hv
    exact absurd hthird (by decide)
  · cases hv
    exact absurd hs (by decide)
  · cases hv
    exact hloaded
  · cases hv
    exact absurd hs (by decide)
  · cases hv

/-- A module for another CPU state is rejected with a compatible variant in it. -/
theorem select_module_rejects_layout :
    (dolrecompSelectModule 700 3 .exact (sampleModule 696) ⟨none,none,0,.fast⟩).1 = false ∧
      ∃ v ∈ (sampleModule 696).variants, Compatible 3 .exact v := by
  refine ⟨rfl,_,List.mem_cons_self,(selectable_iff _ _ _).mp ?_⟩
  decide

end DolRecomp
