import DolRecomp.BitField
import DolRecomp.NativeResults
import DolRecomp.NativeState

/-!
# The packed condition and exception registers

The condition fields and the bits of XER are slots of their own, merged into packed words when the
state is committed. The code that does it exists for the context of the runtime, for the state
interface of ModernGekko, and in the emitted `moderngekko_commit_state`.
-/

namespace DolRecomp

namespace PackedViews

open BitField NativeResults

/-- The slots that are parts of a packed word. -/
inductive SplitSlot
  | crField (f : BitVec 3) | xer | xerCa | xerOv | xerSo
  deriving DecidableEq

def SplitSlot.slot : SplitSlot → DolIRStateSlot
  | .crField f => .crField f
  | .xer => .xer
  | .xerCa => .xerCa
  | .xerOv => .xerOv
  | .xerSo => .xerSo

def SplitSlot.inCr : SplitSlot → Bool
  | .crField _ => true
  | _ => false

def SplitSlot.shift : SplitSlot → ℕ
  | .crField f => 28 - 4*f.toNat
  | .xer => 0
  | .xerCa => 29
  | .xerOv => 30
  | .xerSo => 31

def SplitSlot.width : SplitSlot → ℕ
  | .crField _ => 4
  | .xer => 29
  | _ => 1

structure PackedWords where
  cr : BitVec 32
  xer : BitVec 32

namespace PackedWords

def view (s : SplitSlot) (w : PackedWords) : BitVec 32 :=
  get s.shift s.width (if s.inCr then w.cr else w.xer)

def merge (s : SplitSlot) (v : BitVec 32) (w : PackedWords) : PackedWords :=
  if s.inCr then { w with cr := put s.shift s.width v w.cr }
  else { w with xer := put s.shift s.width v w.xer }

def mergeAll (values : SplitSlot → BitVec 32) (l : List SplitSlot) (w : PackedWords) : PackedWords :=
  l.foldl (fun w s => merge s (values s) w) w

theorem shift_width (s : SplitSlot) : s.shift + s.width ≤ 32 := by
  cases s with
  | crField f =>
    show 28 - 4*f.toNat + 4 ≤ 32
    omega
  | _ => decide

theorem view_merge (s : SplitSlot) (v : BitVec 32) (w : PackedWords) :
    view s (merge s v w) = v &&& low 32 s.width := by
  unfold view merge
  cases s.inCr <;> exact get_put (shift_width s) _ _

theorem disjoint {s t : SplitSlot} (h : s ≠ t) (hin : s.inCr = t.inCr) :
    t.shift + t.width ≤ s.shift ∨ s.shift + s.width ≤ t.shift := by
  cases s with
  | crField f =>
    cases t with
    | crField g =>
      have hf := f.isLt
      have hg := g.isLt
      have hne : f.toNat ≠ g.toNat := fun hno => h (congrArg _ (BitVec.eq_of_toNat_eq hno))
      show 28 - 4*g.toNat + 4 ≤ 28 - 4*f.toNat ∨ 28 - 4*f.toNat + 4 ≤ 28 - 4*g.toNat
      omega
    | _ => cases hin
  | _ =>
    cases t with
    | crField g => cases hin
    | _ => first | exact absurd rfl h | decide

theorem view_merge_of_ne {s t : SplitSlot} (h : s ≠ t) (v : BitVec 32) (w : PackedWords) :
    view t (merge s v w) = view t w := by
  unfold view merge
  by_cases hs : s.inCr = true
  · rw [if_pos hs]
    by_cases ht : t.inCr = true
    · rw [if_pos ht,if_pos ht]
      exact get_put_of_disjoint (disjoint h (hs.trans ht.symm)) _ _
    · rw [if_neg ht,if_neg ht]
  · rw [if_neg hs]
    by_cases ht : t.inCr = true
    · rw [if_pos ht,if_pos ht]
    · rw [if_neg ht,if_neg ht]
      exact get_put_of_disjoint (disjoint h
        ((eq_false_of_ne_true hs).trans (eq_false_of_ne_true ht).symm)) _ _

/-- A slot of the list has its value, and every other slot what it had. -/
theorem view_mergeAll (values : SplitSlot → BitVec 32) (l : List SplitSlot) (w : PackedWords)
    (t : SplitSlot) : view t (mergeAll values l w) =
      if t ∈ l then values t &&& low 32 t.width else view t w := by
  induction l generalizing w with
  | nil => rfl
  | cons s l ih =>
    show view t (mergeAll values l (merge s (values s) w)) = _
    rw [ih]
    by_cases hl : t ∈ l
    · rw [if_pos hl,if_pos (List.mem_cons_of_mem _ hl)]
    · rw [if_neg hl]
      by_cases hs : s = t
      · subst hs
        rw [if_pos List.mem_cons_self,view_merge]
      · rw [view_merge_of_ne hs,if_neg fun hm => (List.mem_cons.mp hm).elim (Ne.symm hs) hl]

end PackedWords

/-- `storeContext` where the state is the `CPUState` of the runtime. -/
def storeContext : (slot : DolIRStateSlot) → BitVec (stateWidth slot) → CPUState → CPUState
  | .gpr r, v, cpu => { cpu with gpr := Function.update cpu.gpr r v }
  | .fpr r, v, cpu => { cpu with fpr := Function.update cpu.fpr r v }
  | .ps1 r, v, cpu => { cpu with ps1 := Function.update cpu.ps1 r v }
  | .crField f, v, cpu =>
    let shift := 28 - 4*f.toNat
    let mask := 0xF#32 <<< shift
    let value : BitVec 32 := v
    { cpu with cr := (cpu.cr &&& ~~~mask) ||| ((value &&& 0xF#32) <<< shift) }
  | .xerCa, v, cpu => { cpu with xer := (cpu.xer &&& ~~~(1#32 <<< 29)) ||| (v.zeroExtend 32 <<< 29) }
  | .xerOv, v, cpu => { cpu with xer := (cpu.xer &&& ~~~(1#32 <<< 30)) ||| (v.zeroExtend 32 <<< 30) }
  | .xerSo, v, cpu => { cpu with xer := (cpu.xer &&& ~~~(1#32 <<< 31)) ||| (v.zeroExtend 32 <<< 31) }
  | .xer, v, cpu =>
    let value : BitVec 32 := v
    { cpu with xer := (cpu.xer &&& 0xE0000000#32) ||| (value &&& 0x1FFFFFFF#32) }
  | .sr n, v, cpu => { cpu with sr := Function.update cpu.sr n v }
  | .gqr n, v, cpu => { cpu with gqr := Function.update cpu.gqr n v }
  | .pc, v, cpu => { cpu with pc := v }
  | .lr, v, cpu => { cpu with lr := v }
  | .ctr, v, cpu => { cpu with ctr := v }
  | .cr, v, cpu => { cpu with cr := v }
  | .fpscr, v, cpu => { cpu with fpscr := v }
  | .msr, v, cpu => { cpu with msr := v }
  | .srr0, v, cpu => { cpu with srr0 := v }
  | .srr1, v, cpu => { cpu with srr1 := v }
  | .dar, v, cpu => { cpu with dar := v }
  | .dsisr, v, cpu => { cpu with dsisr := v }
  | .ear, v, cpu => { cpu with ear := v }
  | .hid2, v, cpu => { cpu with hid2 := v }
  | .timebase, v, cpu => { cpu with timebase := v }
  | .exception, v, cpu => { cpu with exception := v }
  | .programException, v, cpu => { cpu with programException := v }
  | .reserveAddr, v, cpu => { cpu with reserveAddr := v }
  | .reserveValid, v, cpu => { cpu with reserveValid := v.getLsbD 0 }
  | .downcount, v, cpu => { cpu with downcount := v }

def loadContext : (slot : DolIRStateSlot) → CPUState → BitVec (stateWidth slot)
  | .gpr r, cpu => cpu.gpr r
  | .fpr r, cpu => cpu.fpr r
  | .ps1 r, cpu => cpu.ps1 r
  | .crField f, cpu => (cpu.cr >>> (28 - 4*f.toNat)) &&& 0xF#32
  | .xerCa, cpu => (cpu.xer >>> 29).truncate 1
  | .xerOv, cpu => (cpu.xer >>> 30).truncate 1
  | .xerSo, cpu => (cpu.xer >>> 31).truncate 1
  | .xer, cpu => cpu.xer
  | .sr n, cpu => cpu.sr n
  | .gqr n, cpu => cpu.gqr n
  | .pc, cpu => cpu.pc
  | .lr, cpu => cpu.lr
  | .ctr, cpu => cpu.ctr
  | .cr, cpu => cpu.cr
  | .fpscr, cpu => cpu.fpscr
  | .msr, cpu => cpu.msr
  | .srr0, cpu => cpu.srr0
  | .srr1, cpu => cpu.srr1
  | .dar, cpu => cpu.dar
  | .dsisr, cpu => cpu.dsisr
  | .ear, cpu => cpu.ear
  | .hid2, cpu => cpu.hid2
  | .timebase, cpu => cpu.timebase
  | .exception, cpu => cpu.exception
  | .programException, cpu => cpu.programException
  | .reserveAddr, cpu => cpu.reserveAddr
  | .reserveValid, cpu => BitVec.ofBool cpu.reserveValid
  | .downcount, cpu => cpu.downcount

/-- The functions that the host gives to native code for its state. -/
structure StateInterface (σ : Type) where
  readGPR : BitVec 5 → σ → BitVec 32
  writeGPR : BitVec 5 → BitVec 32 → σ → σ
  readFPR : BitVec 5 → ℕ → σ → BitVec 64
  writeFPR : BitVec 5 → ℕ → BitVec 64 → σ → σ
  readCR : σ → BitVec 32
  writeCR : BitVec 32 → σ → σ
  readXER : σ → BitVec 32
  writeXER : BitVec 32 → σ → σ
  readSR : BitVec 4 → σ → BitVec 32
  writeSR : BitVec 4 → BitVec 32 → σ → σ
  readSPR : ℕ → σ → BitVec 32
  writeSPR : ℕ → BitVec 32 → σ → σ
  readFPSCR : σ → BitVec 32
  writeFPSCR : BitVec 32 → σ → σ
  readMSR : σ → BitVec 32
  writeMSR : BitVec 32 → σ → σ
  readExceptions : σ → BitVec 32
  writeExceptions : BitVec 32 → σ → σ
  readReserveAddress : σ → BitVec 32
  writeReserveAddress : BitVec 32 → σ → σ
  readReserveValid : σ → BitVec 32
  writeReserveValid : BitVec 32 → σ → σ

/-- The host keeps what is written to CR and XER, each apart from the other. -/
structure StateInterface.KeepsPacked {σ : Type} (I : StateInterface σ) : Prop where
  readCR_writeCR : ∀ v x, I.readCR (I.writeCR v x) = v
  readXER_writeXER : ∀ v x, I.readXER (I.writeXER v x) = v
  readXER_writeCR : ∀ v x, I.readXER (I.writeCR v x) = I.readXER x
  readCR_writeXER : ∀ v x, I.readCR (I.writeXER v x) = I.readCR x

def sprLr : ℕ := 8
def sprCtr : ℕ := 9
def sprDsisr : ℕ := 18
def sprDar : ℕ := 19
def sprSrr0 : ℕ := 26
def sprSrr1 : ℕ := 27
def sprEar : ℕ := 282
def sprGqr0 : ℕ := 912
def sprHid2 : ℕ := 920

section

variable {σ : Type} (I : StateInterface σ)

/-- `storeContext` for ModernGekko; the slots that it has no function for stay. -/
def storeInterface : (slot : DolIRStateSlot) → BitVec (stateWidth slot) → σ → σ
  | .gpr r, v, x => I.writeGPR r v x
  | .fpr r, v, x => I.writeFPR r 0 v x
  | .ps1 r, v, x => I.writeFPR r 1 v x
  | .crField f, v, x =>
    let shift := 28 - 4*f.toNat
    let mask := 0xF#32 <<< shift
    let value : BitVec 32 := v
    I.writeCR ((I.readCR x &&& ~~~mask) ||| ((value &&& 0xF#32) <<< shift)) x
  | .xerCa, v, x => I.writeXER ((I.readXER x &&& ~~~(1#32 <<< 29)) ||| (v.zeroExtend 32 <<< 29)) x
  | .xerOv, v, x => I.writeXER ((I.readXER x &&& ~~~(1#32 <<< 30)) ||| (v.zeroExtend 32 <<< 30)) x
  | .xerSo, v, x => I.writeXER ((I.readXER x &&& ~~~(1#32 <<< 31)) ||| (v.zeroExtend 32 <<< 31)) x
  | .sr n, v, x => I.writeSR n v x
  | .gqr n, v, x => I.writeSPR (sprGqr0 + n.toNat) v x
  | .lr, v, x => I.writeSPR sprLr v x
  | .ctr, v, x => I.writeSPR sprCtr v x
  | .srr0, v, x => I.writeSPR sprSrr0 v x
  | .srr1, v, x => I.writeSPR sprSrr1 v x
  | .dar, v, x => I.writeSPR sprDar v x
  | .dsisr, v, x => I.writeSPR sprDsisr v x
  | .ear, v, x => I.writeSPR sprEar v x
  | .hid2, v, x => I.writeSPR sprHid2 v x
  | .cr, v, x => I.writeCR v x
  | .xer, v, x =>
    let value : BitVec 32 := v
    I.writeXER ((I.readXER x &&& 0xE0000000#32) ||| (value &&& 0x1FFFFFFF#32)) x
  | .fpscr, v, x => I.writeFPSCR v x
  | .msr, v, x => I.writeMSR v x
  | .exception, v, x => I.writeExceptions v x
  | .reserveAddr, v, x => I.writeReserveAddress v x
  | .reserveValid, v, x => I.writeReserveValid (v.zeroExtend 32) x
  | .pc, _, x | .timebase, _, x | .programException, _, x | .downcount, _, x => x

/-- `loadContext` for ModernGekko; `entryPc` is the address that the function was entered at. -/
def loadInterface (entryPc : BitVec 32) : (slot : DolIRStateSlot) → σ → BitVec (stateWidth slot)
  | .gpr r, x => I.readGPR r x
  | .fpr r, x => I.readFPR r 0 x
  | .ps1 r, x => I.readFPR r 1 x
  | .crField f, x => (I.readCR x >>> (28 - 4*f.toNat)) &&& 0xF#32
  | .xerCa, x => (I.readXER x >>> 29).truncate 1
  | .xerOv, x => (I.readXER x >>> 30).truncate 1
  | .xerSo, x => (I.readXER x >>> 31).truncate 1
  | .sr n, x => I.readSR n x
  | .gqr n, x => I.readSPR (sprGqr0 + n.toNat) x
  | .lr, x => I.readSPR sprLr x
  | .ctr, x => I.readSPR sprCtr x
  | .cr, x => I.readCR x
  | .xer, x => I.readXER x
  | .fpscr, x => I.readFPSCR x
  | .msr, x => I.readMSR x
  | .srr0, x => I.readSPR sprSrr0 x
  | .srr1, x => I.readSPR sprSrr1 x
  | .dar, x => I.readSPR sprDar x
  | .dsisr, x => I.readSPR sprDsisr x
  | .ear, x => I.readSPR sprEar x
  | .hid2, x => I.readSPR sprHid2 x
  | .exception, x => I.readExceptions x
  | .reserveAddr, x => I.readReserveAddress x
  | .reserveValid, x => if I.readReserveValid x ≠ 0 then 1#1 else 0#1
  | .pc, _ => entryPc
  | .timebase, _ => 0#64
  | .programException, _ => 0#32
  | .downcount, _ => 0#64

end

/-- The bits of a slot's value in its field. -/
def toView : (s : SplitSlot) → BitVec (stateWidth s.slot) → BitVec 32
  | .crField _, v => v
  | .xer, v => (show BitVec 32 from v) &&& 0x1FFFFFFF#32
  | .xerCa, v => v.zeroExtend 32
  | .xerOv, v => v.zeroExtend 32
  | .xerSo, v => v.zeroExtend 32

/-- The same value; of the slot XER the low 29 bits. -/
def SameView : (s : SplitSlot) → BitVec (stateWidth s.slot) → BitVec (stateWidth s.slot) → Prop
  | .xer, a, b => (show BitVec 32 from a) &&& 0x1FFFFFFF#32 = (show BitVec 32 from b) &&& 0x1FFFFFFF#32
  | _, a, b => a = b

theorem sameView_of_toView {s : SplitSlot} {a b : BitVec (stateWidth s.slot)}
    (h : toView s a = toView s b) : SameView s a b := by
  have hbit : ∀ a b : BitVec 1, a.zeroExtend 32 = b.zeroExtend 32 → a = b := fun a b h => by
    have := congrArg (BitVec.truncate 1) h
    simpa using this
  cases s with
  | crField f => exact h
  | xer => exact h
  | xerCa => exact hbit _ _ h
  | xerOv => exact hbit _ _ h
  | xerSo => exact hbit _ _ h

/-- The word that is merged for a slot. -/
def merged (values : SlotValues) : SplitSlot → BitVec 32
  | .crField f => values (.crField f)
  | .xer => values .xer
  | .xerCa => (values .xerCa).zeroExtend 32
  | .xerOv => (values .xerOv).zeroExtend 32
  | .xerSo => (values .xerSo).zeroExtend 32

theorem bit_and_low (v : BitVec 1) : v.zeroExtend 32 &&& low 32 1 = v.zeroExtend 32 :=
  and_low (by
    have := v.isLt
    rw [BitVec.zeroExtend,BitVec.toNat_setWidth]
    omega)

theorem toView_values {values : SlotValues} (hwell : ∀ f, (merged values (.crField f)).toNat < 16)
    (s : SplitSlot) : toView s (values s.slot) = merged values s &&& low 32 s.width := by
  cases s with
  | crField f => exact (and_low (hwell f)).symm
  | xer => rfl
  | xerCa => exact (bit_and_low _).symm
  | xerOv => exact (bit_and_low _).symm
  | xerSo => exact (bit_and_low _).symm

/-- The words of a load and a store, for whatever holds the packed registers. -/
theorem toView_bit (x : BitVec 32) (shift : ℕ) :
    ((x >>> shift).truncate 1).zeroExtend 32 = get shift 1 x := by
  refine BitVec.eq_of_getLsbD_eq fun i hi => ?_
  rw [get_getLsbD _ _ _ hi,BitVec.zeroExtend,BitVec.truncate,BitVec.getLsbD_setWidth,
    BitVec.getLsbD_setWidth,BitVec.getLsbD_ushiftRight,decide_eq_true hi,Bool.true_and,
    Bool.and_comm]

theorem get_low (x : BitVec 32) : x &&& 0x1FFFFFFF#32 = get 0 29 x := by
  rw [BitField.get,BitVec.ushiftRight_zero]
  rfl

theorem put_low (v x : BitVec 32) :
    (x &&& 0xE0000000#32) ||| (v &&& 0x1FFFFFFF#32) = put 0 29 v x := by
  rw [put,BitVec.shiftLeft_zero,BitVec.shiftLeft_zero]
  rfl

theorem put_bit (v : BitVec 1) (x : BitVec 32) (shift : ℕ) :
    (x &&& ~~~(1#32 <<< shift)) ||| (v.zeroExtend 32 <<< shift) =
      put shift 1 (v.zeroExtend 32) x := by
  rw [put,bit_and_low]
  rfl

def contextWords (cpu : CPUState) : PackedWords := ⟨cpu.cr,cpu.xer⟩

theorem contextWords_storeContext (s : SplitSlot) (values : SlotValues) (cpu : CPUState) :
    contextWords (storeContext s.slot (values s.slot) cpu) =
      PackedWords.merge s (merged values s) (contextWords cpu) := by
  cases s with
  | crField f => rfl
  | xer => exact congrArg (PackedWords.mk _) (put_low _ _)
  | xerCa => exact congrArg (PackedWords.mk _) (put_bit _ _ _)
  | xerOv => exact congrArg (PackedWords.mk _) (put_bit _ _ _)
  | xerSo => exact congrArg (PackedWords.mk _) (put_bit _ _ _)

theorem toView_loadContext (s : SplitSlot) (cpu : CPUState) :
    toView s (loadContext s.slot cpu) = PackedWords.view s (contextWords cpu) := by
  cases s with
  | crField f => rfl
  | xer => exact get_low _
  | xerCa => exact toView_bit _ _
  | xerOv => exact toView_bit _ _
  | xerSo => exact toView_bit _ _

section

variable {σ : Type} {I : StateInterface σ}

def interfaceWords (I : StateInterface σ) (x : σ) : PackedWords := ⟨I.readCR x,I.readXER x⟩

theorem interfaceWords_storeInterface (hI : I.KeepsPacked) (s : SplitSlot) (values : SlotValues)
    (x : σ) : interfaceWords I (storeInterface I s.slot (values s.slot) x) =
      PackedWords.merge s (merged values s) (interfaceWords I x) := by
  have hcr : ∀ v x, interfaceWords I (I.writeCR v x) = ⟨v,I.readXER x⟩ := fun v x => by
    rw [interfaceWords,hI.readCR_writeCR,hI.readXER_writeCR]
  have hxer : ∀ v x, interfaceWords I (I.writeXER v x) = ⟨I.readCR x,v⟩ := fun v x => by
    rw [interfaceWords,hI.readXER_writeXER,hI.readCR_writeXER]
  cases s with
  | crField f => exact hcr _ _
  | xer => exact (hxer _ _).trans (congrArg (PackedWords.mk _) (put_low _ _))
  | xerCa => exact (hxer _ _).trans (congrArg (PackedWords.mk _) (put_bit _ _ _))
  | xerOv => exact (hxer _ _).trans (congrArg (PackedWords.mk _) (put_bit _ _ _))
  | xerSo => exact (hxer _ _).trans (congrArg (PackedWords.mk _) (put_bit _ _ _))

theorem toView_loadInterface (entryPc : BitVec 32) (s : SplitSlot) (x : σ) :
    toView s (loadInterface I entryPc s.slot x) = PackedWords.view s (interfaceWords I x) := by
  cases s with
  | crField f => rfl
  | xer => exact get_low _
  | xerCa => exact toView_bit _ _
  | xerOv => exact toView_bit _ _
  | xerSo => exact toView_bit _ _

end

def commitContext (values : SlotValues) (dirty : StateMask) (cpu : CPUState) : CPUState :=
  (stateSlots.filter (· ∈ dirty)).foldl (fun cpu slot => storeContext slot (values slot) cpu) cpu

def commitInterface {σ : Type} (I : StateInterface σ) (values : SlotValues) (dirty : StateMask)
    (x : σ) : σ :=
  (stateSlots.filter (· ∈ dirty)).foldl (fun x slot => storeInterface I slot (values slot) x) x

theorem slot_injective : Function.Injective SplitSlot.slot := by
  intro s t h
  cases s <;> cases t <;> first | rfl | (cases h; rfl) | cases h

theorem exists_split {l : List DolIRStateSlot} (h : ∀ slot ∈ l, ∃ s : SplitSlot, s.slot = slot) :
    ∃ L : List SplitSlot, L.map SplitSlot.slot = l := by
  induction l with
  | nil => exact ⟨[],rfl⟩
  | cons slot l ih =>
    obtain ⟨s,hs⟩ := h slot List.mem_cons_self
    obtain ⟨L,hL⟩ := ih fun slot' hm => h slot' (List.mem_cons_of_mem _ hm)
    exact ⟨s :: L,by rw [List.map_cons,hs,hL]⟩

/-- Stores of split slots, whatever the words are kept in. -/
theorem words_foldl {τ : Type} {words : τ → PackedWords}
    {store : (slot : DolIRStateSlot) → BitVec (stateWidth slot) → τ → τ} {values : SlotValues}
    (hstore : ∀ (s : SplitSlot) (x : τ), words (store s.slot (values s.slot) x) =
      PackedWords.merge s (merged values s) (words x)) (L : List SplitSlot) (x : τ) :
    words ((L.map SplitSlot.slot).foldl (fun x slot => store slot (values slot) x) x) =
      PackedWords.mergeAll (merged values) L (words x) := by
  induction L generalizing x with
  | nil => rfl
  | cons s L ih =>
    show words ((L.map SplitSlot.slot).foldl _ (store s.slot (values s.slot) x)) = _
    rw [ih,hstore]
    rfl

/-- What a load finds after the dirty slots were stored. -/
theorem sameView_commit {τ : Type} {words : τ → PackedWords}
    {store : (slot : DolIRStateSlot) → BitVec (stateWidth slot) → τ → τ}
    {load : (slot : DolIRStateSlot) → τ → BitVec (stateWidth slot)} {values : SlotValues}
    (hstore : ∀ (s : SplitSlot) (x : τ), words (store s.slot (values s.slot) x) =
      PackedWords.merge s (merged values s) (words x))
    (hload : ∀ (s : SplitSlot) (x : τ), toView s (load s.slot x) = PackedWords.view s (words x))
    (hwell : ∀ f, (merged values (.crField f)).toNat < 16) {dirty : StateMask}
    (hdirty : ∀ slot ∈ dirty, ∃ s : SplitSlot, s.slot = slot) (x : τ) (s : SplitSlot) :
    SameView s (load s.slot ((stateSlots.filter (· ∈ dirty)).foldl
        (fun x slot => store slot (values slot) x) x))
      (if s.slot ∈ dirty then values s.slot else load s.slot x) := by
  obtain ⟨L,hL⟩ := exists_split (l := stateSlots.filter (· ∈ dirty)) fun slot hm =>
    hdirty slot (of_decide_eq_true (List.mem_filter.mp hm).2)
  have hmem : s ∈ L ↔ s.slot ∈ dirty := by
    rw [← List.mem_map_of_injective slot_injective,hL,List.mem_filter,decide_eq_true_eq]
    exact and_iff_right (mem_stateSlots _)
  refine sameView_of_toView ?_
  rw [← hL,hload,words_foldl hstore,PackedWords.view_mergeAll]
  by_cases h : s.slot ∈ dirty
  · rw [if_pos (hmem.mpr h),if_pos h,toView_values hwell]
  · rw [if_neg fun hno => h (hmem.mp hno),if_neg h,hload]

open NativeState

def buffered (values : SlotValues) : StateValues := fun slot => (values slot).zeroExtend 64

/-- The slots in the order of `moderngekko_commit_state`. -/
def commitOrder : List SplitSlot :=
  fields.map SplitSlot.crField ++ [SplitSlot.xer,.xerCa,.xerOv,.xerSo]

theorem commitFields (values : StateValues) (mask : StateMask) (l : List (BitVec 3))
    (w : PackedWords) :
    PackedWords.mergeAll (fun s => (values s.slot).truncate 32)
        ((l.map SplitSlot.crField).filter fun s => s.slot ∈ mask) w =
      ⟨l.foldl (fun cr field =>
        if .crField field ∈ mask then
          let shift := 28 - 4 * field.toNat
          (cr &&& ~~~(15#32 <<< shift)) ||| (((values (.crField field)).truncate 32 &&& 15) <<< shift)
        else cr) w.cr,w.xer⟩ := by
  induction l generalizing w with
  | nil => rfl
  | cons field l ih =>
    rw [List.map_cons,List.filter_cons,List.foldl_cons]
    by_cases h : DolIRStateSlot.crField field ∈ mask
    · rw [if_pos (decide_eq_true (p := (SplitSlot.crField field).slot ∈ mask) h),if_pos h]
      exact ih (PackedWords.merge (.crField field) ((values (.crField field)).truncate 32) w)
    · rw [if_neg (show ¬decide ((SplitSlot.crField field).slot ∈ mask) = true from
        fun hno => h (of_decide_eq_true hno)),if_neg h]
      exact ih w

/-- A part of XER that is merged where it is dirty. -/
theorem mergeAll_filter_cons (values : SplitSlot → BitVec 32) (mask : StateMask) {s : SplitSlot}
    (hs : s.inCr = false) (l : List SplitSlot) (w : PackedWords) :
    PackedWords.mergeAll values ((s :: l).filter fun s => s.slot ∈ mask) w =
      PackedWords.mergeAll values (l.filter fun s => s.slot ∈ mask)
        ⟨w.cr,if s.slot ∈ mask then put s.shift s.width (values s) w.xer else w.xer⟩ := by
  have hmerge : ∀ v, PackedWords.merge s v w = ⟨w.cr,put s.shift s.width v w.xer⟩ := fun v => by
    rw [PackedWords.merge,if_neg (by rw [hs]; decide)]
  rw [List.filter_cons]
  by_cases h : s.slot ∈ mask
  · rw [if_pos (decide_eq_true h),if_pos h,← hmerge]
    rfl
  · rw [if_neg fun hno => h (of_decide_eq_true hno),if_neg h]

theorem commitWords (values : StateValues) {mask : StateMask} (hcr : .cr ∉ mask) (cpu : CPUState) :
    contextWords (commitState values mask cpu) =
      PackedWords.mergeAll (fun s => (values s.slot).truncate 32)
        (commitOrder.filter fun s => s.slot ∈ mask) (contextWords cpu) := by
  have happend : ∀ (v : SplitSlot → BitVec 32) (l l' : List SplitSlot) (w : PackedWords),
      PackedWords.mergeAll v (l ++ l') w =
        PackedWords.mergeAll v l' (PackedWords.mergeAll v l w) := fun v l l' w => List.foldl_append
  rw [commitOrder,List.filter_append,happend,commitFields,mergeAll_filter_cons _ _ rfl,
    mergeAll_filter_cons _ _ rfl,mergeAll_filter_cons _ _ rfl,mergeAll_filter_cons _ _ rfl]
  show PackedWords.mk (commitCr values mask cpu.cr) (commitXer values mask cpu.xer) = _
  have hxer : ∀ v x : BitVec 32, (x &&& 0xe0000000) ||| (v &&& 0x1fffffff) = put 0 29 v x :=
    put_low
  rw [commitCr,if_neg hcr,commitXer,hxer]
  rfl

/-- The value of a slot in the buffer, as a value of its type. -/
theorem view_hostValue (s : SplitSlot) (cpu : CPUState) :
    ∃ x, hostValue cpu s.slot = some x ∧ (if s = .xer then x &&& 0x1FFFFFFF#64 else x) =
      (PackedWords.view s (contextWords cpu)).zeroExtend 64 := by
  cases s with
  | crField f => exact ⟨_,rfl,rfl⟩
  | xer =>
    refine ⟨_,rfl,?_⟩
    show cpu.xer.zeroExtend 64 &&& 0x1FFFFFFF#64 = (get 0 29 cpu.xer).zeroExtend 64
    rw [← get_low]
    exact (BitVec.setWidth_and (x := cpu.xer) (y := 0x1FFFFFFF#32)).symm
  | xerCa => exact ⟨_,rfl,rfl⟩
  | xerOv => exact ⟨_,rfl,rfl⟩
  | xerSo => exact ⟨_,rfl,rfl⟩

/-- The same value in the buffer; of the slot XER the low 29 bits. -/
def SameBuffered (s : SplitSlot) (a b : BitVec 64) : Prop :=
  (if s = .xer then a &&& 0x1FFFFFFF#64 else a) = if s = .xer then b &&& 0x1FFFFFFF#64 else b

theorem sameBuffered_values {values : SlotValues}
    (hwell : ∀ f, (merged values (.crField f)).toNat < 16) (s : SplitSlot) :
    (merged values s &&& low 32 s.width).zeroExtend 64 =
      if s = .xer then buffered values s.slot &&& 0x1FFFFFFF#64 else buffered values s.slot := by
  have hbit : ∀ v : BitVec 1, (v.zeroExtend 32 &&& low 32 1).zeroExtend 64 = v.zeroExtend 64 :=
    fun v => by
      have hv := v.isLt
      refine BitVec.eq_of_toNat_eq ?_
      rw [bit_and_low]
      simp only [BitVec.zeroExtend,BitVec.toNat_setWidth]
      omega
  cases s with
  | crField f => exact congrArg _ (and_low (hwell f))
  | xer => exact BitVec.setWidth_and
  | xerCa => exact hbit _
  | xerOv => exact hbit _
  | xerSo => exact hbit _

theorem sameBuffered_commit {values : SlotValues}
    (hwell : ∀ f, (merged values (.crField f)).toNat < 16) {dirty : StateMask}
    (hdirty : ∀ slot ∈ dirty, ∃ s : SplitSlot, s.slot = slot) (cpu : CPUState) (s : SplitSlot)
    (buffer : StateValues) {mask : StateMask} (hm : s.slot ∈ mask) :
    SameBuffered s (reloadState (commitState (buffered values) dirty cpu) buffer mask s.slot)
      (if s.slot ∈ dirty then buffered values s.slot else reloadState cpu buffer mask s.slot) := by
  have hcr : DolIRStateSlot.cr ∉ dirty := fun h => by
    obtain ⟨t,ht⟩ := hdirty _ h
    cases t <;> cases ht
  have hreload : ∀ cpu : CPUState, ∀ x, hostValue cpu s.slot = some x →
      reloadState cpu buffer mask s.slot = x := fun cpu x hx => by
    rw [reloadState,if_pos hm,hx]
    rfl
  have hin : s ∈ commitOrder.filter (fun s => s.slot ∈ dirty) ↔ s.slot ∈ dirty := by
    rw [List.mem_filter,decide_eq_true_eq]
    refine and_iff_right ?_
    cases s with
    | crField f =>
      exact List.mem_append_left _ (List.mem_map.mpr ⟨f,List.mem_map.mpr
        ⟨f.toFin,List.mem_finRange _,rfl⟩,rfl⟩)
    | _ => exact List.mem_append_right _ (by simp)
  have htrunc : ∀ t : SplitSlot, (buffered values t.slot).truncate 32 = merged values t := by
    have hword : ∀ v : BitVec 32, (v.zeroExtend 64).truncate 32 = v := fun v => by simp
    intro t
    cases t with
    | crField f => exact hword _
    | xer => exact hword _
    | _ => simp [buffered,merged,SplitSlot.slot]
  obtain ⟨x,hx,hxv⟩ := view_hostValue s (commitState (buffered values) dirty cpu)
  obtain ⟨y,hy,hyv⟩ := view_hostValue s cpu
  unfold SameBuffered
  rw [hreload _ x hx,hreload _ y hy,hxv,commitWords _ hcr,PackedWords.view_mergeAll]
  by_cases h : s.slot ∈ dirty
  · rw [if_pos (hin.mpr h),if_pos h,htrunc,sameBuffered_values hwell]
  · rw [if_neg fun hno => h (hin.mp hno),if_neg h,hyv]

/-- Split slots that were stored are read back, and the others read as before, through the context
of the runtime, through the state interface, and through the emitted functions. -/
theorem packed_views_lossless {σ : Type} (I : StateInterface σ) (hI : I.KeepsPacked)
    (values : SlotValues) (hwell : ∀ f, (merged values (.crField f)).toNat < 16)
    (dirty : StateMask) (hdirty : ∀ slot ∈ dirty, ∃ s : SplitSlot, s.slot = slot) (s : SplitSlot) :
    (∀ cpu, SameView s (loadContext s.slot (commitContext values dirty cpu))
      (if s.slot ∈ dirty then values s.slot else loadContext s.slot cpu)) ∧
    (∀ x entryPc, SameView s (loadInterface I entryPc s.slot (commitInterface I values dirty x))
      (if s.slot ∈ dirty then values s.slot else loadInterface I entryPc s.slot x)) ∧
    ∀ cpu buffer, ∀ mask : StateMask, s.slot ∈ mask →
      SameBuffered s (reloadState (commitState (buffered values) dirty cpu) buffer mask s.slot)
        (if s.slot ∈ dirty then buffered values s.slot
          else reloadState cpu buffer mask s.slot) := by
  refine ⟨fun cpu => ?_,fun x entryPc => ?_,fun cpu buffer mask hm => ?_⟩
  · exact sameView_commit (fun s cpu => contextWords_storeContext s values cpu)
      toView_loadContext hwell hdirty cpu s
  · exact sameView_commit (fun s x => interfaceWords_storeInterface hI s values x)
      (toView_loadInterface entryPc) hwell hdirty x s
  · exact sameBuffered_commit hwell hdirty cpu s buffer hm

/-- A host that keeps the registers in a `CPUState`. -/
def cpuInterface : StateInterface CPUState where
  readGPR r cpu := cpu.gpr r
  writeGPR r v cpu := { cpu with gpr := Function.update cpu.gpr r v }
  readFPR r lane cpu := if lane = 0 then cpu.fpr r else cpu.ps1 r
  writeFPR r lane v cpu :=
    if lane = 0 then { cpu with fpr := Function.update cpu.fpr r v }
    else { cpu with ps1 := Function.update cpu.ps1 r v }
  readCR cpu := cpu.cr
  writeCR v cpu := { cpu with cr := v }
  readXER cpu := cpu.xer
  writeXER v cpu := { cpu with xer := v }
  readSR n cpu := cpu.sr n
  writeSR n v cpu := { cpu with sr := Function.update cpu.sr n v }
  readSPR n cpu :=
    if n = sprLr then cpu.lr else if n = sprCtr then cpu.ctr else if n = sprDsisr then cpu.dsisr
    else if n = sprDar then cpu.dar else if n = sprSrr0 then cpu.srr0
    else if n = sprSrr1 then cpu.srr1 else if n = sprEar then cpu.ear
    else if n = sprHid2 then cpu.hid2 else cpu.gqr (BitVec.ofNat 3 (n - sprGqr0))
  writeSPR n v cpu :=
    if n = sprLr then { cpu with lr := v } else if n = sprCtr then { cpu with ctr := v }
    else if n = sprDsisr then { cpu with dsisr := v } else if n = sprDar then { cpu with dar := v }
    else if n = sprSrr0 then { cpu with srr0 := v } else if n = sprSrr1 then { cpu with srr1 := v }
    else if n = sprEar then { cpu with ear := v } else if n = sprHid2 then { cpu with hid2 := v }
    else { cpu with gqr := Function.update cpu.gqr (BitVec.ofNat 3 (n - sprGqr0)) v }
  readFPSCR cpu := cpu.fpscr
  writeFPSCR v cpu := { cpu with fpscr := v }
  readMSR cpu := cpu.msr
  writeMSR v cpu := { cpu with msr := v }
  readExceptions cpu := cpu.exception
  writeExceptions v cpu := { cpu with exception := v }
  readReserveAddress cpu := cpu.reserveAddr
  writeReserveAddress v cpu := { cpu with reserveAddr := v }
  readReserveValid cpu := if cpu.reserveValid then 1 else 0
  writeReserveValid v cpu := { cpu with reserveValid := v != 0 }

def fives : SlotValues := fun _ => BitVec.ofNat _ 5

def allOnes : CPUState := { cpuInit with cr := 0xFFFFFFFF, xer := 0xFFFFFFFF }

/-- With field 0 and XER dirty, on the three paths. -/
theorem packed_views_lossless_fives :
    loadContext (.crField 0) (commitContext fives {.crField 0,.xer} allOnes) = 5#32 ∧
    loadInterface cpuInterface 0 (.crField 0)
      (commitInterface cpuInterface fives {.crField 0,.xer} allOnes) = 5#32 ∧
    reloadState (commitState (buffered fives) {.crField 0,.xer} allOnes) (fun _ => 0)
      {.crField 0} (.crField 0) = 5#64 := by
  have hmem : DolIRStateSlot.crField 0 ∈ ({.crField 0,.xer} : StateMask) :=
    Finset.mem_insert_self _ _
  obtain ⟨hcontext,hinterface,hbuffer⟩ := packed_views_lossless cpuInterface
    ⟨fun _ _ => rfl,fun _ _ => rfl,fun _ _ => rfl,fun _ _ => rfl⟩ fives (fun _ => (by decide : 5 < 16))
    {.crField 0,.xer} (fun slot hslot => by
      rcases Finset.mem_insert.mp hslot with rfl | hslot
      · exact ⟨.crField 0,rfl⟩
      · exact ⟨.xer,(Finset.mem_singleton.mp hslot).symm⟩) (.crField 0)
  refine ⟨(hcontext allOnes).trans (if_pos hmem),(hinterface allOnes 0).trans (if_pos hmem),
    ?_⟩
  have hfield := hbuffer allOnes (fun _ => 0) {.crField 0} (Finset.mem_singleton_self _)
  exact hfield.trans ((if_neg (by decide)).trans ((if_pos hmem).trans (by rfl)))

end PackedViews

end DolRecomp
