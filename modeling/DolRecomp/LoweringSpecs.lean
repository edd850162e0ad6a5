import DolRecomp.BuilderLogic

/-!
# Specifications of the lowering functions

One instance for each builder: what it needs of the values of the block, and that
its instructions then use values of their own block only and store values of the
right type. Instance search walks the builder and leaves a proposition.
-/

namespace DolRecomp

set_option synthInstance.maxHeartbeats 200000
set_option synthInstance.maxSize 1000

namespace Builder

variable {first : ℕ} {ty : ℕ → DolIRType}

instance (op : DolIROp) (type : DolIRType) (operands : List DolIRValue) (immediate : BitVec 64) :
    Spec first ty (dolirAppend op type operands immediate)
      (fun next => (∀ slot, op ≠ .stateWrite slot) ∧ type ≠ .void ∧ operands.length ≤ 4 ∧
        ∀ v ∈ operands, Defined first v next) (Typed first ty type) :=
  ⟨fun _ _ hn h => wp_append h.1 h.2.1 h.2.2.1 hn h.2.2.2⟩

instance : Spec first ty inst (fun _ => True) fun _ _ => True := ⟨fun _ _ _ _ => wp_inst trivial⟩

instance (value : BitVec 32) : Spec first ty (c32 value) (fun _ => True) (Typed first ty .i32) :=
  ⟨fun _ _ hn _ => wp_append (by simp) (by simp) (by simp) hn (by simp)⟩

instance (value : BitVec 64) : Spec first ty (c64 value) (fun _ => True) (Typed first ty .i64) :=
  ⟨fun _ _ hn _ => wp_append (by simp) (by simp) (by simp) hn (by simp)⟩

instance (value : Bool) : Spec first ty (c1 value) (fun _ => True) (Typed first ty .i1) :=
  ⟨fun _ _ hn _ => wp_append (by simp) (by simp) (by simp) hn (by simp)⟩

theorem dolirStateType_ne_void (slot : DolIRStateSlot) : dolirStateType slot ≠ .void := by
  cases slot <;> simp [dolirStateType]

instance (slot : DolIRStateSlot) :
    Spec first ty (readSlot slot) (fun _ => True) (Stored first ty slot) :=
  ⟨fun _ _ hn _ => wp_append (by simp) (dolirStateType_ne_void slot) (by simp) hn (by simp)⟩

instance (slot : DolIRStateSlot) (value : DolIRValue) :
    Spec first ty (writeSlot slot value) (Stored first ty slot value) fun _ _ => True :=
  ⟨fun _ _ _ h => wp_void (by simp) (by simpa using h.1) (by simpa using h.2)⟩

instance (h : DolIRHelper) (operands : List DolIRValue) (immediate : BitVec 64) :
    Spec first ty (helper h operands immediate)
      (fun next => operands.length ≤ 4 ∧ ∀ v ∈ operands, Defined first v next) fun _ _ => True :=
  ⟨fun _ _ _ h => wp_void h.1 h.2 (by simp)⟩

instance (op : DolIROp) (type : DolIRType) (a c : DolIRValue) :
    Spec first ty (binary op type a c)
      (fun next => (∀ slot, op ≠ .stateWrite slot) ∧ type ≠ .void ∧
        Defined first a next ∧ Defined first c next) (Typed first ty type) :=
  ⟨fun _ _ hn h => wp_append h.1 h.2.1 (by simp) hn (by simpa using h.2.2)⟩

instance (op : DolIROp) (type : DolIRType) (a : DolIRValue) :
    Spec first ty (unary op type a)
      (fun next => (∀ slot, op ≠ .stateWrite slot) ∧ type ≠ .void ∧ Defined first a next)
      (Typed first ty type) :=
  ⟨fun _ _ hn h => wp_append h.1 h.2.1 (by simp) hn (by simpa using h.2.2)⟩

instance (type : DolIRType) (condition yes no : DolIRValue) :
    Spec first ty (selectValue type condition yes no)
      (fun next => type ≠ .void ∧ Defined first condition next ∧ Defined first yes next ∧
        Defined first no next) (Typed first ty type) :=
  ⟨fun _ _ hn h => wp_append (by simp) h.1 (by simp) hn (by simpa using h.2)⟩

instance (address value : DolIRValue) (width : ℕ) :
    Spec first ty (guestStore address value width)
      (fun next => Defined first address next ∧ Defined first value next) fun _ _ => True :=
  ⟨fun _ _ _ h => wp_void (by simp) (by simpa using h) (by simp)⟩

instance (address : DolIRValue) (type : DolIRType) (width : ℕ) (sign : Bool) :
    Spec first ty (guestLoadTyped address type width sign)
      (fun next => type ≠ .void ∧ Defined first address next) (Typed first ty type) :=
  ⟨fun _ _ hn h => wp_append (by simp) h.1 (by simp) hn (by simpa using h.2)⟩

instance (address : DolIRValue) (width : ℕ) (sign : Bool) :
    Spec first ty (guestLoad address width sign) (Defined first address) (Typed first ty .i32) :=
  ⟨fun _ _ hn h => wp_append (by simp) (by simp) (by simp) hn (by simpa using h)⟩

instance (reg : BitVec 5) : Spec first ty (gpr reg) (fun _ => True) (Typed first ty .i32) :=
  inferInstanceAs (Spec first ty (readSlot (.gpr reg)) _ _)

instance (reg : BitVec 5) : Spec first ty (fpr reg) (fun _ => True) (Typed first ty .f64) :=
  inferInstanceAs (Spec first ty (readSlot (.fpr reg)) _ _)

instance (reg : BitVec 5) : Spec first ty (ps1 reg) (fun _ => True) (Typed first ty .f64) :=
  inferInstanceAs (Spec first ty (readSlot (.ps1 reg)) _ _)

instance (reg : BitVec 5) (value : DolIRValue) :
    Spec first ty (setGpr reg value) (Typed first ty .i32 value) fun _ _ => True :=
  inferInstanceAs (Spec first ty (writeSlot (.gpr reg) value) _ _)

instance (reg : BitVec 5) (value : DolIRValue) :
    Spec first ty (setFpr reg value) (Typed first ty .f64 value) fun _ _ => True :=
  inferInstanceAs (Spec first ty (writeSlot (.fpr reg) value) _ _)

instance (reg : BitVec 5) (value : DolIRValue) :
    Spec first ty (setPs1 reg value) (Typed first ty .f64 value) fun _ _ => True :=
  inferInstanceAs (Spec first ty (writeSlot (.ps1 reg) value) _ _)

instance (field : BitVec 3) :
    Spec first ty (readCrField field) (fun _ => True) (Typed first ty .i32) :=
  inferInstanceAs (Spec first ty (readSlot (.crField field)) _ _)

instance (carry : DolIRValue) :
    Spec first ty (setXerCa carry) (Typed first ty .i1 carry) fun _ _ => True :=
  inferInstanceAs (Spec first ty (writeSlot .xerCa carry) _ _)

instance (type : DolIRType) (v : DolIRValue) : Spec first ty (zextValue type v)
    (fun next => type ≠ .void ∧ Defined first v next) (Typed first ty type) :=
  ⟨fun _ _ hn h => wp_append (by simp) h.1 (by simp) hn (by simpa using h.2)⟩

instance (type : DolIRType) (v : DolIRValue) : Spec first ty (sextValue type v)
    (fun next => type ≠ .void ∧ Defined first v next) (Typed first ty type) :=
  ⟨fun _ _ hn h => wp_append (by simp) h.1 (by simp) hn (by simpa using h.2)⟩

instance (type : DolIRType) (v : DolIRValue) : Spec first ty (truncValue type v)
    (fun next => type ≠ .void ∧ Defined first v next) (Typed first ty type) :=
  ⟨fun _ _ hn h => wp_append (by simp) h.1 (by simp) hn (by simpa using h.2)⟩

instance : Spec first ty fpscrUpdated (fun _ => True) fun _ _ => True :=
  ⟨fun _ _ _ _ => wp_void (by simp) (by simp) (by simp)⟩

instance (spr : BitVec 10) :
    Spec first ty (readSprHelper spr) (fun _ => True) (Typed first ty .i32) :=
  ⟨fun _ _ hn _ => wp_append (by simp) (by simp) (by simp) hn (by simp)⟩

instance : Spec first ty readTimebase (fun _ => True) (Typed first ty .i64) :=
  ⟨fun _ _ hn _ => wp_append (by simp) (by simp) (by simp) hn (by simp)⟩

instance (op : DolIROp) (type : DolIRType) (immediate : BitVec 64) :
    Meets first ty (dolirAppend op type [] immediate)
      (fun _ => (∀ slot, op ≠ .stateWrite slot) ∧ type ≠ .void) (Result ty type) :=
  .of_typed inferInstance fun _ h => ⟨h.1,h.2,by simp,by simp⟩

instance (op : DolIROp) (type : DolIRType) (a : DolIRValue) (immediate : BitVec 64) :
    Meets first ty (dolirAppend op type [a] immediate)
      (fun D => (∀ slot, op ≠ .stateWrite slot) ∧ type ≠ .void ∧ D a) (Result ty type) :=
  .of_typed inferInstance fun _ h => ⟨h.1,h.2.1,by simp,by simpa using h.2.2⟩

instance : Meets first ty inst (fun _ => True) fun _ _ => True :=
  .of_done inferInstance fun _ h => h

instance (value : BitVec 32) : Meets first ty (c32 value) (fun _ => True) (Result ty .i32) :=
  .of_typed inferInstance fun _ h => h

instance (value : BitVec 64) : Meets first ty (c64 value) (fun _ => True) (Result ty .i64) :=
  .of_typed inferInstance fun _ h => h

instance (value : Bool) : Meets first ty (c1 value) (fun _ => True) (Result ty .i1) :=
  .of_typed inferInstance fun _ h => h

instance (slot : DolIRStateSlot) :
    Meets first ty (readSlot slot) (fun _ => True) (Result ty (dolirStateType slot)) :=
  .of_typed inferInstance fun _ h => h

instance (slot : DolIRStateSlot) (value : DolIRValue) :
    Meets first ty (writeSlot slot value)
      (fun D => D value ∧ ty value = dolirStateType slot) fun _ _ => True :=
  .of_done inferInstance fun _ h => h

instance (h : DolIRHelper) (immediate : BitVec 64) :
    Meets first ty (helper h [] immediate) (fun _ => True) fun _ _ => True :=
  .of_done inferInstance fun _ _ => ⟨by simp,by simp⟩

instance (h : DolIRHelper) (a : DolIRValue) (immediate : BitVec 64) :
    Meets first ty (helper h [a] immediate) (fun D => D a) fun _ _ => True :=
  .of_done inferInstance fun _ h => ⟨by simp,by simpa using h⟩

instance (h : DolIRHelper) (a c : DolIRValue) (immediate : BitVec 64) :
    Meets first ty (helper h [a,c] immediate) (fun D => D a ∧ D c) fun _ _ => True :=
  .of_done inferInstance fun _ h => ⟨by simp,by simpa using h⟩

instance (op : DolIROp) (type : DolIRType) (a c : DolIRValue) :
    Meets first ty (binary op type a c)
      (fun D => (∀ slot, op ≠ .stateWrite slot) ∧ type ≠ .void ∧
        D a ∧ D c) (Result ty type) :=
  .of_typed inferInstance fun _ h => h

instance (op : DolIROp) (type : DolIRType) (a : DolIRValue) :
    Meets first ty (unary op type a)
      (fun D => (∀ slot, op ≠ .stateWrite slot) ∧ type ≠ .void ∧ D a)
      (Result ty type) :=
  .of_typed inferInstance fun _ h => h

instance (type : DolIRType) (condition yes no : DolIRValue) :
    Meets first ty (selectValue type condition yes no)
      (fun D => type ≠ .void ∧ D condition ∧ D yes ∧
        D no) (Result ty type) :=
  .of_typed inferInstance fun _ h => h

instance (address value : DolIRValue) (width : ℕ) :
    Meets first ty (guestStore address value width)
      (fun D => D address ∧ D value) fun _ _ => True :=
  .of_done inferInstance fun _ h => h

instance (address : DolIRValue) (type : DolIRType) (width : ℕ) (sign : Bool) :
    Meets first ty (guestLoadTyped address type width sign)
      (fun D => type ≠ .void ∧ D address) (Result ty type) :=
  .of_typed inferInstance fun _ h => h

instance (address : DolIRValue) (width : ℕ) (sign : Bool) :
    Meets first ty (guestLoad address width sign) (fun D => D address) (Result ty .i32) :=
  .of_typed inferInstance fun _ h => h

instance (reg : BitVec 5) : Meets first ty (gpr reg) (fun _ => True) (Result ty .i32) :=
  .of_typed inferInstance fun _ h => h

instance (reg : BitVec 5) : Meets first ty (fpr reg) (fun _ => True) (Result ty .f64) :=
  .of_typed inferInstance fun _ h => h

instance (reg : BitVec 5) : Meets first ty (ps1 reg) (fun _ => True) (Result ty .f64) :=
  .of_typed inferInstance fun _ h => h

instance (reg : BitVec 5) (value : DolIRValue) :
    Meets first ty (setGpr reg value) (fun D => D value ∧ ty value = .i32) fun _ _ => True :=
  .of_done inferInstance fun _ h => h

instance (reg : BitVec 5) (value : DolIRValue) :
    Meets first ty (setFpr reg value) (fun D => D value ∧ ty value = .f64) fun _ _ => True :=
  .of_done inferInstance fun _ h => h

instance (reg : BitVec 5) (value : DolIRValue) :
    Meets first ty (setPs1 reg value) (fun D => D value ∧ ty value = .f64) fun _ _ => True :=
  .of_done inferInstance fun _ h => h

instance (field : BitVec 3) :
    Meets first ty (readCrField field) (fun _ => True) (Result ty .i32) :=
  .of_typed inferInstance fun _ h => h

instance (carry : DolIRValue) :
    Meets first ty (setXerCa carry) (fun D => D carry ∧ ty carry = .i1) fun _ _ => True :=
  .of_done inferInstance fun _ h => h

instance (type : DolIRType) (v : DolIRValue) : Meets first ty (zextValue type v)
    (fun D => type ≠ .void ∧ D v) (Result ty type) :=
  .of_typed inferInstance fun _ h => h

instance (type : DolIRType) (v : DolIRValue) : Meets first ty (sextValue type v)
    (fun D => type ≠ .void ∧ D v) (Result ty type) :=
  .of_typed inferInstance fun _ h => h

instance (type : DolIRType) (v : DolIRValue) : Meets first ty (truncValue type v)
    (fun D => type ≠ .void ∧ D v) (Result ty type) :=
  .of_typed inferInstance fun _ h => h

instance : Meets first ty fpscrUpdated (fun _ => True) fun _ _ => True :=
  .of_done inferInstance fun _ h => h

instance (spr : BitVec 10) :
    Meets first ty (readSprHelper spr) (fun _ => True) (Result ty .i32) :=
  .of_typed inferInstance fun _ h => h

instance : Meets first ty readTimebase (fun _ => True) (Result ty .i64) :=
  .of_typed inferInstance fun _ h => h

theorem forall_ite_ne {p : Prop} [Decidable p] {op op' : DolIROp} :
    (∀ slot, (if p then op else op') ≠ .stateWrite slot) ↔
      (p → ∀ slot, op ≠ .stateWrite slot) ∧ (¬p → ∀ slot, op' ≠ .stateWrite slot) := by
  split <;> simp [*]

theorem ite_ne_void {p : Prop} [Decidable p] {type type' : DolIRType} :
    (if p then type else type') ≠ .void ↔ (p → type ≠ .void) ∧ (¬p → type' ≠ .void) := by
  split <;> simp [*]

instance (original value : DolIRValue) (mask : BitVec 32) :
    Meets first ty (insertMasked original value mask)
      (fun D => D original ∧ D value) (Result ty .i32) := by
  unfold insertMasked
  exact .of_needs inferInstance (by tauto)

instance (field : BitVec 3) (value : DolIRValue) :
    Meets first ty (writeCrField field value)
      (fun D => D value) fun _ _ => True := by
  unfold writeCrField
  exact .of_needs inferInstance (by tauto)

instance (packed : DolIRValue) (slot : DolIRStateSlot) (shift : BitVec 32) :
    Meets first ty (packXerBit packed slot shift)
      (fun D => D packed) (Result ty .i32) := by
  unfold packXerBit
  exact .of_needs inferInstance (by tauto)

instance : Meets first ty (packXer) (fun _ => True) (Result ty .i32) := by
  unfold packXer
  exact .of_needs inferInstance (by tauto)

instance (field : BitVec 3) (lhs rhs : DolIRValue) (s : Bool) :
    Meets first ty (setCrField field lhs rhs s)
      (fun D => D lhs ∧ D rhs) fun _ _ => True := by
  unfold setCrField
  exact .of_needs inferInstance (by simp only [forall_ite_ne]; tauto)

instance (value : DolIRValue) :
    Meets first ty (setCr0 value) (fun D => D value) fun _ _ => True := by
  unfold setCr0
  exact .of_needs inferInstance (by tauto)

instance : Meets first ty (setCr1FromFpscr) (fun _ => True) fun _ _ => True := by
  unfold setCr1FromFpscr
  exact .of_needs inferInstance (by tauto)

instance : Meets first ty (requireSupervisor) (fun _ => True) fun _ _ => True := by
  unfold requireSupervisor
  exact .of_needs inferInstance (by tauto)

instance (value : DolIRValue) :
    Meets first ty (recordIfNeeded value)
      (fun D => D value) fun _ _ => True := by
  unfold recordIfNeeded
  exact .of_needs inferInstance (by tauto)

instance : Meets first ty (xerCa) (fun _ => True) (Result ty .i32) := by
  unfold xerCa
  exact .of_needs inferInstance (by tauto)

instance (a c : DolIRValue) :
    Meets first ty (addWide a c)
      (fun D => D a ∧ D c) (Result ty .i64) := by
  unfold addWide
  exact .of_needs inferInstance (by tauto)

instance (a c carry : DolIRValue) :
    Meets first ty (addWideWithCarry a c carry)
      (fun D => D a ∧ D c ∧ D carry) (Result ty .i64) := by
  unfold addWideWithCarry
  exact .of_needs inferInstance (by tauto)

instance (wide : DolIRValue) :
    Meets first ty (carryOut wide) (fun D => D wide) (Result ty .i1) := by
  unfold carryOut
  exact .of_needs inferInstance (by tauto)

instance (reg : BitVec 5) (wide : DolIRValue) (record : Bool) :
    Meets first ty (writeCarryResult reg wide record)
      (fun D => D wide) fun _ _ => True := by
  unfold writeCarryResult
  exact .of_needs inferInstance (by tauto)

instance : Meets first ty (branchCondition) (fun _ => True) (Result ty .i1) := by
  unfold branchCondition
  exact .of_needs inferInstance (by tauto)

instance (indexed update : Bool) :
    Meets first ty (effectiveAddress indexed update) (fun _ => True) (Result ty .i32) := by
  unfold effectiveAddress
  exact .of_needs inferInstance (by tauto)

instance (reg : BitVec 5) :
    Meets first ty (pairValue reg) (fun _ => True) (Result ty .v2f64) := by
  unfold pairValue
  exact .of_needs inferInstance (by tauto)

instance (pair : DolIRValue) (lane : ℕ) :
    Meets first ty (vectorLane pair lane)
      (fun D => D pair) (Result ty .f64) := by
  unfold vectorLane
  exact .of_needs inferInstance (by tauto)

instance (reg : BitVec 5) (pair : DolIRValue) :
    Meets first ty (setPair reg pair) (fun D => D pair) fun _ _ => True := by
  unfold setPair
  exact .of_needs inferInstance (by tauto)

instance (packed : DolIRValue) (slot : DolIRStateSlot) (shift : BitVec 32) :
    Meets first ty (unpackXerBit packed slot shift)
      (fun D => dolirStateType slot = .i1 ∧ D packed) fun _ _ => True := by
  unfold unpackXerBit
  exact .of_needs inferInstance fun D h => by
    simp only [h.1]
    tauto

instance (packed : DolIRValue) :
    Meets first ty (unpackXer packed) (fun D => D packed) fun _ _ => True := by
  unfold unpackXer
  exact .of_needs inferInstance (by tauto)

instance {γ : Type} (l : List γ) (step : γ → Builder Unit) (pre : (ℕ → Prop) → Prop)
    [hs : ∀ k, Meets first ty (step k) pre fun _ _ => True] :
    Meets first ty (l.forM step) pre fun _ _ => True := by
  refine ⟨fun i next hn h => ?_⟩
  induction l generalizing next with
  | nil => exact wp_pure fun _ _ => trivial
  | cons k l ih =>
    refine wp_bind (wp_mono ((hs k).meets i next hn h) fun _ m hm _ => ?_)
    exact ih m (hn.trans hm) fun D hD => h D (hD.mono hm)

instance (reg : BitVec 5) (step : ℕ → Builder Unit) (pre : (ℕ → Prop) → Prop)
    [∀ k, Meets first ty (step k) pre fun _ _ => True] :
    Meets first ty (forRegistersFrom reg step) pre fun _ _ => True :=
  inferInstanceAs (Meets first ty ((List.range _).forM step) _ _)

theorem meets_foldlM {γ : Type} {type : DolIRType} (l : List γ)
    {step : DolIRValue → γ → Builder DolIRValue} {pre : (ℕ → Prop) → Prop}
    (hs : ∀ a k, Meets first ty (step a k) (fun D => pre D ∧ D a) (Result ty type))
    (a : DolIRValue) : Meets first ty (l.foldlM step a)
      (fun D => pre D ∧ D a ∧ ty a = type) (Result ty type) := by
  refine ⟨fun i next hn h => ?_⟩
  induction l generalizing next a with
  | nil => exact wp_pure fun D hD => (h D hD).2
  | cons k l ih =>
    refine wp_bind (wp_mono ((hs a k).meets i next hn fun D hD => ⟨(h D hD).1,(h D hD).2.1⟩)
      fun c m hm hc => ?_)
    exact ih c m (hn.trans hm) fun D hD => ⟨(h D (hD.mono hm)).1,hc D hD⟩

instance : Meets first ty packCr (fun _ => True) (Result ty .i32) := by
  unfold packCr
  have hfold := fun a => @meets_foldlM first ty ℕ .i32 [0,1,2,3,4,5,6,7] (fun packed field => do
    let value ← binary .shl .i32 (← readCrField (BitVec.ofNat 3 field))
      (← c32 (BitVec.ofNat 32 (28 - 4*field)))
    binary .or .i32 packed value) (fun _ => True)
    (fun _ _ => .of_needs inferInstance (by tauto)) a
  exact .of_needs inferInstance (by tauto)

instance (k : PPCInst) (address : DolIRValue) (n : ℕ) :
    Meets first ty (lowerLmwStep k address n)
      (fun D => D address) fun _ _ => True := by
  unfold lowerLmwStep
  exact .of_needs inferInstance (by tauto)

instance (k : PPCInst) (address : DolIRValue) (n : ℕ) :
    Meets first ty (lowerStmwStep k address n)
      (fun D => D address) fun _ _ => True := by
  unfold lowerStmwStep
  exact .of_needs inferInstance (by tauto)

instance (address : DolIRValue) (n : ℕ) :
    Meets first ty (lowerDcbzStep address n)
      (fun D => D address) fun _ _ => True := by
  unfold lowerDcbzStep
  exact .of_needs inferInstance (by tauto)

instance (k : PPCInst) (n : ℕ) :
    Meets first ty (lowerMtcrfStep k n) (fun _ => True) fun _ _ => True := by
  unfold lowerMtcrfStep
  exact .of_needs inferInstance (by tauto)

instance (index value : DolIRValue) (n : ℕ) :
    Meets first ty (lowerMfsrinStep index value n)
      (fun D => D index ∧ D value) (Result ty .i32) := by
  unfold lowerMfsrinStep
  exact .of_needs inferInstance (by tauto)

instance (index value : DolIRValue) (n : ℕ) :
    Meets first ty (lowerMtsrinStep index value n)
      (fun D => D index ∧ D value) fun _ _ => True := by
  unfold lowerMtsrinStep
  exact .of_needs inferInstance (by tauto)

instance (index value : DolIRValue) (l : List ℕ) :
    Meets first ty (l.foldlM (lowerMfsrinStep index) value)
      (fun D => D index ∧ D value ∧ ty value = .i32) (Result ty .i32) :=
  meets_foldlM l (fun _ _ => inferInstance) value

instance (set : Bool) (op : DolIROp) (condition a c : DolIRValue) :
    Meets first ty (trapBit set op condition a c) (fun D => (∀ slot, op ≠ .stateWrite slot) ∧
    D condition ∧ ty condition = .i1 ∧ D a ∧ D c) (Result ty .i1) := by
  unfold trapBit
  exact .of_needs inferInstance (by tauto)

instance (a c : DolIRValue) :
    Meets first ty (trapCondition a c)
      (fun D => D a ∧ D c) (Result ty .i1) := by
  unfold trapCondition
  exact .of_needs inferInstance (by tauto)

instance (reg : BitVec 5) (result : DolIRValue) :
    Meets first ty (finish reg result) (fun D => D result ∧ ty result = .i32) fun _ _ => True := by
  unfold finish
  exact .of_needs inferInstance (by tauto)

instance (k : PPCInst) : Meets first ty (lowerTrap k) (fun _ => True) fun _ _ => True := by
  unfold lowerTrap
  exact .of_needs inferInstance (by tauto)

instance (k : PPCInst) :
    Meets first ty (lowerLogicalImmediate k) (fun _ => True) fun _ _ => True := by
  unfold lowerLogicalImmediate
  exact .of_needs inferInstance (by simp only [forall_ite_ne]; tauto)

instance (k : PPCInst) : Meets first ty (lowerCompare k) (fun _ => True) fun _ _ => True := by
  unfold lowerCompare
  exact .of_needs inferInstance (by tauto)

instance (k : PPCInst) : Meets first ty (lowerAdd k) (fun _ => True) fun _ _ => True := by
  unfold lowerAdd
  exact .of_needs inferInstance (by tauto)

instance (k : PPCInst) : Meets first ty (lowerSubf k) (fun _ => True) fun _ _ => True := by
  unfold lowerSubf
  exact .of_needs inferInstance (by tauto)

instance (k : PPCInst) : Meets first ty (lowerExtended k) (fun _ => True) fun _ _ => True := by
  unfold lowerExtended
  exact .of_needs inferInstance (by tauto)

instance (k : PPCInst) : Meets first ty (lowerLogical k) (fun _ => True) fun _ _ => True := by
  unfold lowerLogical
  exact .of_needs inferInstance (by simp only [forall_ite_ne]; tauto)

instance (k : PPCInst) : Meets first ty (lowerRotate k) (fun _ => True) fun _ _ => True := by
  unfold lowerRotate
  exact .of_needs inferInstance (by tauto)

instance (k : PPCInst) : Meets first ty (lowerShift k) (fun _ => True) fun _ _ => True := by
  unfold lowerShift
  exact .of_needs inferInstance (by simp only [forall_ite_ne]; tauto)

instance (k : PPCInst) :
    Meets first ty (lowerShiftAlgebraic k) (fun _ => True) fun _ _ => True := by
  unfold lowerShiftAlgebraic
  exact .of_needs inferInstance (by tauto)

instance (k : PPCInst) : Meets first ty (lowerMultiply k) (fun _ => True) fun _ _ => True := by
  unfold lowerMultiply
  exact .of_needs inferInstance (by tauto)

instance (k : PPCInst) : Meets first ty (lowerDivide k) (fun _ => True) fun _ _ => True := by
  unfold lowerDivide
  exact .of_needs inferInstance (by tauto)

instance (k : PPCInst) : Meets first ty (lowerInteger k) (fun _ => True) fun _ _ => True := by
  unfold lowerInteger
  split
  all_goals first
    | exact .of_needs inferInstance (by tauto)
    | exact .of_needs inferInstance (by simp only [ite_ne_void]; tauto)

instance (reverse : Bool) (value : DolIRValue) :
    Meets first ty (reverseIf reverse value)
      (fun D => D value ∧ ty value = .i32) (Result ty .i32) := by
  unfold reverseIf
  exact .of_needs inferInstance (by tauto)

instance (k : PPCInst) (form : MemoryForm) :
    Meets first ty (lowerMemoryForm k form) (fun _ => True) fun _ _ => True := by
  unfold lowerMemoryForm
  exact .of_needs inferInstance (by tauto)

instance (k : PPCInst) : Meets first ty (lowerMemory k) (fun _ => True) fun _ _ => True := by
  unfold lowerMemory
  split
  · exact .of_needs inferInstance (by tauto)
  · split
    all_goals exact .of_needs inferInstance (by tauto)

instance (k : PPCInst) (form : FloatMemoryForm) (address : DolIRValue) :
    Meets first ty (lowerFloatLoad k form address)
      (fun D => D address) fun _ _ => True := by
  unfold lowerFloatLoad
  cases form.single
  all_goals
    exact .of_needs inferInstance (by simp only [Bool.false_eq_true,if_true,if_false]; tauto)

instance (k : PPCInst) (form : FloatMemoryForm) (address : DolIRValue) :
    Meets first ty (lowerFloatStore k form address)
      (fun D => D address) fun _ _ => True := by
  unfold lowerFloatStore
  cases form.single
  all_goals
    exact .of_needs inferInstance (by simp only [Bool.false_eq_true,if_true,if_false]; tauto)

instance (k : PPCInst) : Meets first ty (lowerFloatMemory k) (fun _ => True) fun _ _ => True := by
  unfold lowerFloatMemory
  cases floatMemoryForm k.op
  all_goals exact .of_needs inferInstance (by tauto)

instance (k : PPCInst) : Meets first ty (lowerPsq k) (fun _ => True) fun _ _ => True := by
  unfold lowerPsq
  split
  all_goals exact .of_needs inferInstance (by tauto)

instance (k : PPCInst) : Meets first ty (recordCr1 k) (fun _ => True) fun _ _ => True := by
  unfold recordCr1
  exact .of_needs inferInstance (by tauto)

instance (k : PPCInst) (h : DolIRHelper) (exact : ℕ) :
    Meets first ty (lowerExact k h exact) (fun _ => True) fun _ _ => True := by
  unfold lowerExact
  exact .of_needs inferInstance (by tauto)

instance (k : PPCInst) (value : DolIRValue) :
    Meets first ty (lowerMove k value) (fun D => D value ∧ ty value = .f64) fun _ _ => True := by
  unfold lowerMove
  exact .of_needs inferInstance (by tauto)

instance (k : PPCInst) : Meets first ty (lowerFloat k) (fun _ => True) fun _ _ => True := by
  unfold lowerFloat
  split
  all_goals first
    | exact .of_needs inferInstance (by tauto)
    | (split <;> exact .of_needs inferInstance (by tauto))

instance (k : PPCInst) (pair : DolIRValue) :
    Meets first ty (lowerPairMove k pair) (fun D => D pair) fun _ _ => True := by
  unfold lowerPairMove
  exact .of_needs inferInstance (by tauto)

instance (pa pb pc zeroF : DolIRValue) (lane : ℕ) :
    Meets first ty (selectLane pa pb pc zeroF lane)
      (fun D => D pa ∧ D pb ∧ D pc ∧ D zeroF) (Result ty .f64) := by
  unfold selectLane
  exact .of_needs inferInstance (by tauto)

instance (k : PPCInst) : Meets first ty (lowerPaired k) (fun _ => True) fun _ _ => True := by
  unfold lowerPaired
  split
  all_goals first
    | exact .of_needs inferInstance (by tauto)
    | (split <;> exact .of_needs inferInstance (by tauto))

instance (bit : BitVec 5) :
    Meets first ty (readCrBit bit) (fun _ => True) (Result ty .i32) := by
  unfold readCrBit
  exact .of_needs inferInstance (by tauto)

instance (slot : DolIRStateSlot) (shift : BitVec 32) :
    Meets first ty (xerFieldBit slot shift) (fun _ => True) (Result ty .i32) := by
  unfold xerFieldBit
  exact .of_needs inferInstance (by tauto)

instance (k : PPCInst) : Meets first ty (lowerCrLogical k) (fun _ => True) fun _ _ => True := by
  unfold lowerCrLogical
  exact .of_needs inferInstance (by simp only [forall_ite_ne]; tauto)

instance (k : PPCInst) : Meets first ty (lowerMcrxr k) (fun _ => True) fun _ _ => True := by
  unfold lowerMcrxr
  exact .of_needs inferInstance (by tauto)

theorem dolirStateType_sprSlot {spr : BitVec 10} {slot : DolIRStateSlot}
    (h : sprSlot spr = some slot) : dolirStateType slot = .i32 := by
  unfold sprSlot at h
  split at h
  all_goals try split at h
  all_goals simp_all [dolirStateType]
  all_goals subst h
  all_goals rfl

instance (k : PPCInst) : Meets first ty (lowerMfspr k) (fun _ => True) fun _ _ => True := by
  unfold lowerMfspr
  cases hs : sprSlot k.spr with
  | none => exact .of_needs inferInstance (by tauto)
  | some slot =>
    have ht := dolirStateType_sprSlot hs
    exact .of_needs inferInstance (by simp only [ht]; tauto)

instance (k : PPCInst) : Meets first ty (lowerMttb k) (fun _ => True) fun _ _ => True := by
  unfold lowerMttb
  exact .of_needs inferInstance (by tauto)

instance (k : PPCInst) : Meets first ty (lowerMtspr k) (fun _ => True) fun _ _ => True := by
  unfold lowerMtspr
  cases hs : sprSlot k.spr with
  | none => exact .of_needs inferInstance (by tauto)
  | some slot =>
    have ht := dolirStateType_sprSlot hs
    exact .of_needs inferInstance (by simp only [ht]; tauto)

instance (k : PPCInst) : Meets first ty (segmentIndex k) (fun _ => True) (Result ty .i32) := by
  unfold segmentIndex
  exact .of_needs inferInstance (by tauto)

instance (k : PPCInst) : Meets first ty (lowerMftb k) (fun _ => True) fun _ _ => True := by
  unfold lowerMftb
  exact .of_needs inferInstance (by tauto)

instance (k : PPCInst) : Meets first ty (lowerState k) (fun _ => True) fun _ _ => True := by
  unfold lowerState
  split
  all_goals exact .of_needs inferInstance (by tauto)

instance (k : PPCInst) : Meets first ty (lowerInstruction k) (fun _ => True) fun _ _ => True := by
  unfold lowerInstruction
  exact .of_needs inferInstance (by tauto)

instance (k : PPCInst) : Meets first ty (writeLink k) (fun _ => True) fun _ _ => True := by
  unfold writeLink
  exact .of_needs inferInstance (by tauto)

instance : Spec first ty branchCondition (fun _ => True) (Typed first ty .i1) :=
  Meets.typed inferInstance

instance (k : PPCInst) : Spec first ty (lowerInstruction k) (fun _ => True) fun _ _ => True :=
  Meets.done inferInstance

instance (k : PPCInst) : Spec first ty (writeLink k) (fun _ => True) fun _ _ => True :=
  Meets.done inferInstance

end Builder

end DolRecomp
