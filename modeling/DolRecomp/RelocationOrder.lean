import DolRecomp.Relocation

/-!
# The order of relocation calls

Every call writes fixed bits of its own module, so a call can be repeated and
calls for different modules commute.
-/

namespace DolRecomp

open Masked

namespace Rel

theorem writeBe_fixing (offset width : ℕ) (value : BitVec 64) :
    Fixing (fun bytes => Runtime.writeBe bytes offset width value) := by
  have h := fixing_keep (fun n => if offset ≤ n ∧ n < offset + width then 0#8 else -1#8)
    (fun n => if offset ≤ n ∧ n < offset + width then
      (value >>> (8*(offset + width - 1 - n))).truncate 8 else 0#8)
  convert h using 3 with bytes n
  by_cases hn : offset ≤ n ∧ n < offset + width
  · rw [Runtime.writeBe_inside _ _ _ _ hn.1 hn.2,if_pos hn,if_pos hn,BitVec.and_zero,BitVec.zero_or]
  · rw [Runtime.writeBe_outside _ _ _ _ (by omega),if_neg hn,if_neg hn,BitVec.or_zero]
    exact (BitVec.and_allOnes).symm

theorem getLsbD_patchWord (bytes : ℕ → BitVec 8) {offset : ℕ} (keep bits : BitVec 32) {n k : ℕ}
    (hl : offset ≤ n) (hu : n < offset + 4) (hk : k < 8) :
    (patchWord bytes offset keep bits n).getLsbD k =
      ((bytes n).getLsbD k && keep.getLsbD (8*(offset + 3 - n) + k) ||
        bits.getLsbD (8*(offset + 3 - n) + k)) := by
  have hd : (8*(offset + 3 - n) + k)/8 = offset + 3 - n := by omega
  have hm : (8*(offset + 3 - n) + k) % 8 = k := by omega
  have hx : offset + 4 - 1 - n = offset + 3 - n := by omega
  have hx' : offset + 4 - 1 - (offset + 3 - n) = n := by omega
  have hlt : 8*(offset + 3 - n) + k < 32 := by omega
  rw [patchWord,writeBe32,Runtime.writeBe_inside _ _ _ _ hl hu,hx]
  simp only [readBe32,BitVec.truncate_eq_setWidth,BitVec.getLsbD_setWidth,
    BitVec.getLsbD_ushiftRight,BitVec.getLsbD_or,BitVec.getLsbD_and,
    Runtime.getLsbD_readBe _ _ _ (show 4 ≤ 8 by omega),hd,hm,hx',hk,hlt,decide_true,Bool.true_and]
  simp [show 8*(offset + 3 - n) + k < 64 by omega]

theorem patchWord_fixing (offset : ℕ) (keep bits : BitVec 32) :
    Fixing (fun bytes => patchWord bytes offset keep bits) := by
  have h := fixing_keep
    (fun n => if offset ≤ n ∧ n < offset + 4 then
      (keep >>> (8*(offset + 3 - n))).truncate 8 else -1#8)
    (fun n => if offset ≤ n ∧ n < offset + 4 then
      (bits >>> (8*(offset + 3 - n))).truncate 8 else 0#8)
  convert h using 3 with bytes n
  by_cases hn : offset ≤ n ∧ n < offset + 4
  · rw [if_pos hn,if_pos hn]
    apply BitVec.eq_of_getLsbD_eq
    intro k hk
    rw [getLsbD_patchWord _ _ _ hn.1 hn.2 hk]
    simp [hk]
  · rw [patchWord,writeBe32,Runtime.writeBe_outside _ _ _ _ (by omega),if_neg hn,if_neg hn,
      BitVec.or_zero]
    exact (BitVec.and_allOnes).symm

/-- Whether a change is made does not depend on the words, and it sets fixed bits. -/
def Fixes {ι : Type*} (f : (ι → BitVec 8) → Option (ι → BitVec 8)) : Prop :=
  (∀ data, f data = none) ∨ ∃ g, Fixing g ∧ ∀ data, f data = some (g data)

theorem fixes_none {ι : Type*} : Fixes (fun _ : ι → BitVec 8 => none) := Or.inl fun _ => rfl

theorem fixes_some {ι : Type*} {g : (ι → BitVec 8) → ι → BitVec 8} (hg : Fixing g) :
    Fixes (fun data => some (g data)) := Or.inr ⟨g,hg,fun _ => rfl⟩

theorem fixes_ite {ι : Type*} {f g : (ι → BitVec 8) → Option (ι → BitVec 8)} (p : Prop)
    [Decidable p] (hf : Fixes f) (hg : Fixes g) :
    Fixes (fun data => if p then f data else g data) := by
  by_cases hp : p
  · simpa only [if_pos hp] using hf
  · simpa only [if_neg hp] using hg

theorem applyRelocation_fixes (sec : RELSection) (offset patchAddress : BitVec 32)
    (type : RelocationType) (target : BitVec 32) :
    Fixes (fun bytes => applyRelocation sec bytes offset patchAddress type target) := by
  unfold applyRelocation
  refine fixes_ite _ (fixes_some fixing_id) (fixes_ite _ fixes_none ?_)
  have hword := fun keep bits => fixes_some (patchWord_fixing offset.toNat keep bits)
  have hbe := fun width value => fixes_some (writeBe_fixing offset.toNat width value)
  cases type with
  | addr32 => exact hbe 4 _
  | addr16 | addr16Lo | addr16Hi | addr16Ha => exact hbe 2 _
  | addr24 | addr14 | addr14Brtaken | addr14Brntaken =>
    exact fixes_ite _ fixes_none (hword _ _)
  | rel24 | rel14 => exact fixes_ite _ (hword _ _) fixes_none
  | none | dolphinNop | dolphinSection | dolphinEnd | unsupported => exact fixes_none

theorem fixing_buffer {g : (ℕ → BitVec 8) → ℕ → BitVec 8} (hg : Fixing g) (index : ℕ) :
    Fixing (fun data : SectionData => setBuffer data index (g (bufferOf data index))) := by
  obtain ⟨m,v,hg⟩ := hg
  refine ⟨fun n => if n.1 = index then m n.2 else 0#8,fun n => v n.2,fun data => ?_⟩
  funext n
  by_cases hn : n.1 = index
  · subst hn
    simp [setBuffer,hg,write,bufferOf]
  · apply BitVec.eq_of_getLsbD_eq
    intro k hk
    simp only [setBuffer,write,if_neg hn,BitVec.getLsbD_or,BitVec.getLsbD_and,BitVec.getLsbD_not,
      BitVec.getLsbD_zero,hk,decide_true,Bool.not_false,Bool.and_true,Bool.and_false,Bool.or_false]

theorem patchEntry_fixes (rel : RELFile) (modules : RELModuleMap) (importModule : BitVec 32)
    (e : Entry) (current : ℕ) (offset : BitVec 32) :
    Fixes (patchEntry rel modules importModule e current offset) := by
  cases hs : rel.sections[current]? with
  | none => exact Or.inl fun data => by simp [patchEntry,hs]
  | some sec =>
    cases ht : relocationTarget rel modules importModule e.sectionIndex e.symbolOffset with
    | none => exact Or.inl fun data => by simp [patchEntry,ht]
    | some target =>
      cases ha : sectionAddressAt rel current offset with
      | none => exact Or.inl fun data => by simp [patchEntry,ha]
      | some address =>
        rcases applyRelocation_fixes sec offset address e.type target with h | ⟨g,hg,h⟩
        · exact Or.inl fun data => by simp [patchEntry,hs,ht,ha,h]
        · exact Or.inr ⟨_,fixing_buffer hg current,fun data => by simp [patchEntry,hs,ht,ha,h]⟩

/-- Success does not depend on the section bytes, and fixed bits of them are set. -/
def Total (f : SectionData → Bool × SectionData) : Prop :=
  ∃ ok g, Fixing g ∧ ∀ data, f data = (ok,g data)

theorem total_pure (ok : Bool) : Total (fun data => (ok,data)) := ⟨ok,_,fixing_id,fun _ => rfl⟩

theorem total_ite {f g : SectionData → Bool × SectionData} (p : Prop) [Decidable p]
    (hf : Total f) (hg : Total g) : Total (fun data => if p then f data else g data) := by
  by_cases hp : p
  · simpa only [if_pos hp] using hf
  · simpa only [if_neg hp] using hg

theorem total_bind {f : SectionData → Option SectionData} {g : SectionData → Bool × SectionData}
    (hf : Fixes f) (hg : Total g) :
    Total (fun data => match f data with | none => (false,data) | some data => g data) := by
  rcases hf with hf | ⟨h,hh,hf⟩
  · simpa only [hf] using total_pure false
  · obtain ⟨ok,g',hg',hg⟩ := hg
    exact ⟨ok,_,hh.comp hg',fun data => by simp only [hf,hg]⟩

theorem relocate_total (rel : RELFile) (modules : RELModuleMap) (importModule : BitVec 32)
    (es : List Entry) (current : ℕ) (offset : BitVec 32) :
    Total (relocate rel modules importModule es current offset) := by
  induction es generalizing current offset with
  | nil => exact total_pure false
  | cons e es ih =>
    show Total (fun data => relocate rel modules importModule (e :: es) current offset data)
    simp only [relocate]
    refine total_ite _ (total_ite _ (total_pure false) (ih _ _)) (total_ite _ (total_pure true) ?_)
    cases addChecked offset (e.offsetDelta.zeroExtend 32) with
    | none => exact total_pure false
    | some offset =>
      exact total_ite _ (ih _ _) (total_bind (patchEntry_fixes _ _ _ _ _ _) (ih _ _))

theorem relocateImports_total (rel : RELFile) (modules : RELModuleMap) (indices : List ℕ) :
    Total (relocateImports rel modules indices) := by
  induction indices with
  | nil => exact total_pure true
  | cons index rest ih =>
    obtain ⟨ok,g,hg,h⟩ := relocate_total rel modules (importAt rel index).1
      (entries rel (importAt rel index).2.toNat) 0 0
    obtain ⟨ok',g',hg',h'⟩ := ih
    show Total (fun data => relocateImports rel modules (index :: rest) data)
    simp only [relocateImports]
    refine total_ite _ (total_pure false) ?_
    simp only [h]
    cases ok with
    | false => exact ⟨false,g,hg,fun _ => rfl⟩
    | true => exact ⟨ok',_,hg.comp hg',fun data => h' _⟩

theorem relApplyRelocations_total (rel : RELFile) (modules : RELModuleMap) :
    Total (relApplyRelocations rel modules) :=
  total_ite _ (total_pure true) (total_ite _ (total_pure false) (relocateImports_total _ _ _))

section

variable {κ : Type*} [DecidableEq κ] (rel : κ → RELFile) (modules : RELModuleMap)

/-- The calls for the modules `ks`, if all succeed. -/
def applyAll : List κ → (κ → SectionData) → Option (κ → SectionData)
  | [], data => some data
  | k :: ks, data =>
    match relApplyRelocations (rel k) modules (data k) with
    | (false,_) => none
    | (true,bytes) => applyAll ks (Function.update data k bytes)

/-- Calls that succeed change each module on its own. -/
theorem applyAll_each {ks : List κ} {data final : κ → SectionData}
    (h : applyAll rel modules ks data = some final) :
    final = each (fun k bytes => (relApplyRelocations (rel k) modules bytes).2) ks data := by
  induction ks generalizing data with
  | nil => exact (Option.some.inj h).symm
  | cons k ks ih =>
    rw [applyAll] at h
    split at h
    next => cases h
    next bytes hb =>
      rw [ih h,each,each,List.foldl_cons,hb]

theorem relApplyRelocations_idem (r : RELFile) (bytes : SectionData) :
    (relApplyRelocations r modules (relApplyRelocations r modules bytes).2).2 =
      (relApplyRelocations r modules bytes).2 := by
  obtain ⟨ok,g,hg,h⟩ := relApplyRelocations_total r modules
  simp only [h]
  exact hg.idem bytes

/-- Two sequences of successful calls with every module in both end with the same bytes. -/
theorem relocation_order_independent {ks ks' : List κ} (hks : ∀ k, k ∈ ks) (hks' : ∀ k, k ∈ ks')
    {data final final' : κ → SectionData} (h : applyAll rel modules ks data = some final)
    (h' : applyAll rel modules ks' data = some final') : final = final' := by
  rw [applyAll_each rel modules h,applyAll_each rel modules h']
  funext k
  have hidem := fun k => relApplyRelocations_idem modules (rel k)
  rw [each_mem _ hidem (hks k),each_mem _ hidem (hks' k)]

end

/-- Two modules of one section; the second imports a word of the first. -/
def linked (k : Bool) : RELFile where
  moduleId := if k then 2 else 1
  sections := [⟨if k then 0x80500000 else 0x80400000,0x10,false⟩]
  fileData := fun n => ([0,0,0,1,0,0,0,8,0,4,1,0,0,0,0,8,0,0,203,0,0,0,0,0] :
    List (BitVec 8)).getD n 0
  fileSize := 24
  relocationOffset := 8
  importOffset := 0
  importSize := 8

def linkedMap : RELModuleMap := [(1,linked false),(2,linked true)]

theorem relocation_order_independent_linked : ∃ final,
    applyAll linked linkedMap [false,true] (fun _ _ => 0) = some final ∧
    applyAll linked linkedMap [true,false,true] (fun _ _ => 0) = some final := by
  have hs : (applyAll linked linkedMap [false,true] (fun _ _ => 0)).isSome := by decide
  have hs' : (applyAll linked linkedMap [true,false,true] (fun _ _ => 0)).isSome := by
    decide
  obtain ⟨final,hf⟩ := Option.isSome_iff_exists.mp hs
  obtain ⟨final',hf'⟩ := Option.isSome_iff_exists.mp hs'
  refine ⟨final,hf,?_⟩
  rw [relocation_order_independent linked linkedMap (by decide) (by decide) hf hf']
  exact hf'

end Rel

end DolRecomp
