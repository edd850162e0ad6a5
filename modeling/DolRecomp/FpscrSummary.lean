import DolRecomp.Cpu

/-!
# The summary bits of the FPSCR

VX stands for the invalid-operation bits and FEX for the exceptions that are enabled.
`ppc_fpscr_updated` works both out; a bit that is changed without it can leave them behind.
-/

namespace DolRecomp

namespace Fpscr

open DolRecomp.Runtime

def vxBit : ℕ := 29
def fexBit : ℕ := 30

/-- The bits of VXSNAN, VXISI, VXIDI, VXZDZ, VXIMZ, VXVC, VXSOFT, VXSQRT and VXCVI. -/
def vxBits : List ℕ := [24,23,22,21,20,19,10,9,8]

/-- VX, OX, UX, ZX and XX, each with the bit that enables it. -/
def enables : List (ℕ × ℕ) := [(29,7),(28,6),(27,5),(26,4),(25,3)]

/-- VX is the disjunction of the invalid-operation bits, and FEX of the enabled exceptions. -/
structure Consistent (x : BitVec 32) : Prop where
  vx : x.getLsbD vxBit = true ↔ ∃ n ∈ vxBits, x.getLsbD n = true
  fex : x.getLsbD fexBit = true ↔ ∃ p ∈ enables, x.getLsbD p.1 = true ∧ x.getLsbD p.2 = true

/-- The bits that the summary is about. -/
def summaryBits : List ℕ := [vxBit,fexBit] ++ vxBits ++ enables.map (·.1) ++ enables.map (·.2)

theorem Consistent.congr {x y : BitVec 32} (hx : Consistent x)
    (h : ∀ n ∈ summaryBits, y.getLsbD n = x.getLsbD n) : Consistent y := by
  simp only [summaryBits,List.mem_append,List.mem_map] at h
  refine ⟨?_,?_⟩
  · rw [h vxBit (by simp),hx.vx]
    exact exists_congr fun n => and_congr_right fun hn => by rw [h n (.inl (.inl (.inr hn)))]
  · rw [h fexBit (by simp),hx.fex]
    exact exists_congr fun p => and_congr_right fun hp => by
      rw [h p.1 (.inl (.inr ⟨p,hp,rfl⟩)),h p.2 (.inr ⟨p,hp,rfl⟩)]

theorem Consistent.and {x : BitVec 32} (hx : Consistent x) {mask : BitVec 32}
    (h : ∀ n ∈ summaryBits, mask.getLsbD n = true) : Consistent (x &&& mask) :=
  hx.congr fun n hn => by rw [BitVec.getLsbD_and,h n hn,Bool.and_true]

theorem Consistent.or {x : BitVec 32} (hx : Consistent x) {mask : BitVec 32}
    (h : ∀ n ∈ summaryBits, mask.getLsbD n = false) : Consistent (x ||| mask) :=
  hx.congr fun n hn => by rw [BitVec.getLsbD_or,h n hn,Bool.or_false]

theorem and_ne_zero {x mask : BitVec 32} {bits : List ℕ}
    (hmask : ∀ n < 32, mask.getLsbD n = decide (n ∈ bits)) (hbits : ∀ n ∈ bits, n < 32) :
    x &&& mask ≠ 0#32 ↔ ∃ n ∈ bits, x.getLsbD n = true := by
  constructor
  · intro h
    by_contra hnone
    refine h (BitVec.eq_of_getLsbD_eq fun n hn => ?_)
    rw [BitVec.getLsbD_and,hmask n hn,BitVec.getLsbD_zero]
    cases hx : x.getLsbD n with
    | false => rfl
    | true => exact decide_eq_false fun hm => hnone ⟨n,hm,hx⟩
  · rintro ⟨n,hm,hx⟩ h
    have hbit := congrArg (BitVec.getLsbD · n) h
    rw [BitVec.getLsbD_and,hmask n (hbits n hm),hx,decide_eq_true hm,BitVec.getLsbD_zero] at hbit
    exact absurd hbit (by decide)

theorem vxAny_ne_zero (x : BitVec 32) :
    x &&& fpscrVxAny ≠ 0#32 ↔ ∃ n ∈ vxBits, x.getLsbD n = true :=
  and_ne_zero (by decide) (by decide)

theorem anyE_ne_zero (x : BitVec 32) : (x >>> 22) &&& x &&& fpscrAnyE ≠ 0#32 ↔
    ∃ p ∈ enables, x.getLsbD p.1 = true ∧ x.getLsbD p.2 = true := by
  rw [@and_ne_zero _ _ [7,6,5,4,3] (by decide) (by decide)]
  simp only [BitVec.getLsbD_and,BitVec.getLsbD_ushiftRight,Bool.and_eq_true,enables,
    List.exists_mem_cons_iff,List.not_mem_nil,false_and,exists_false]

theorem replace_getLsbD (x : BitVec 32) (p : Prop) [Decidable p] (bit : ℕ) (hbit : bit < 32)
    (n : ℕ) : ((x &&& ~~~(1#32 <<< bit)) ||| (if p then 1#32 <<< bit else 0#32)).getLsbD n =
      if n = bit then decide p else x.getLsbD n := by
  have hone : ∀ n < 32, (1#32 <<< bit).getLsbD n = decide (n = bit) := fun n hn => by
    rw [BitVec.getLsbD_shiftLeft,decide_eq_true hn,Bool.true_and,BitVec.getLsbD_one]
    by_cases h : n = bit
    · subst h
      simp
    · by_cases h' : n < bit
      · simp [h,h']
      · have h0 : n - bit ≠ 0 := by omega
        simp [h,h',h0]
  have hif : ∀ n, (if p then 1#32 <<< bit else 0#32).getLsbD n =
      (decide p && (1#32 <<< bit).getLsbD n) := fun n => by
    split
    next h => rw [decide_eq_true h,Bool.true_and]
    next h => rw [decide_eq_false h,BitVec.getLsbD_zero,Bool.false_and]
  rw [BitVec.getLsbD_or,BitVec.getLsbD_and,BitVec.getLsbD_not,hif]
  by_cases hn : n < 32
  · rw [hone n hn,decide_eq_true hn]
    by_cases h : n = bit
    · simp [h]
    · simp [h]
  · have hx := BitVec.getLsbD_of_ge x n (by omega)
    have h1 := BitVec.getLsbD_of_ge (1#32 <<< bit) n (by omega)
    rw [hx,h1,if_neg (by omega)]
    simp

/-- The word with VX worked out. -/
def vxUpdated (x : BitVec 32) : BitVec 32 :=
  (x &&& ~~~(1#32 <<< vxBit)) ||| (if x &&& fpscrVxAny ≠ 0#32 then 1#32 <<< vxBit else 0#32)

theorem vxUpdated_getLsbD (x : BitVec 32) (n : ℕ) : (vxUpdated x).getLsbD n =
    if n = vxBit then decide (∃ k ∈ vxBits, x.getLsbD k = true) else x.getLsbD n := by
  rw [vxUpdated,replace_getLsbD _ _ vxBit (by decide)]
  simp only [vxAny_ne_zero]

theorem fpscrUpdated_getLsbD (x : BitVec 32) (n : ℕ) : (fpscrUpdated x).getLsbD n =
    if n = fexBit then decide (∃ p ∈ enables, (vxUpdated x).getLsbD p.1 = true ∧
      (vxUpdated x).getLsbD p.2 = true)
    else (vxUpdated x).getLsbD n := by
  have heq : fpscrUpdated x = (vxUpdated x &&& ~~~(1#32 <<< fexBit)) |||
    (if (vxUpdated x >>> 22) &&& vxUpdated x &&& fpscrAnyE ≠ 0#32 then 1#32 <<< fexBit
      else 0#32) := rfl
  rw [heq,replace_getLsbD _ _ fexBit (by decide)]
  simp only [anyE_ne_zero]

/-- Whatever the word was, its summary is right once it has been worked out. -/
theorem consistent_fpscrUpdated (x : BitVec 32) : Consistent (fpscrUpdated x) := by
  have hne : ∀ n ∈ vxBits, n ≠ vxBit ∧ n ≠ fexBit := by decide
  have hne' : ∀ p ∈ enables, p.1 ≠ fexBit ∧ p.2 ≠ fexBit := by decide
  have hkept : ∀ n, n ≠ fexBit → (fpscrUpdated x).getLsbD n = (vxUpdated x).getLsbD n :=
    fun n hn => by rw [fpscrUpdated_getLsbD,if_neg hn]
  refine ⟨?_,?_⟩
  · rw [hkept vxBit (by decide),vxUpdated_getLsbD,if_pos rfl,decide_eq_true_eq]
    exact exists_congr fun n => and_congr_right fun hn => by
      rw [hkept n (hne n hn).2,vxUpdated_getLsbD,if_neg (hne n hn).1]
  · rw [fpscrUpdated_getLsbD,if_pos rfl,decide_eq_true_eq]
    exact exists_congr fun p => and_congr_right fun hp => by
      rw [hkept p.1 (hne' p hp).1,hkept p.2 (hne' p hp).2]

/-- Setting the bit would make VX or FEX true, which is false. -/
def StaleSet (x : BitVec 32) (bit : ℕ) : Prop :=
  (bit ∈ vxBits ∧ x.getLsbD vxBit = false) ∨ (x.getLsbD fexBit = false ∧
    ∃ p ∈ enables, (bit = p.1 ∧ x.getLsbD p.2 = true) ∨ (bit = p.2 ∧ x.getLsbD p.1 = true))

/-- Clearing the bit would make VX or FEX false, which is true. -/
def StaleClear (x : BitVec 32) (bit : ℕ) : Prop :=
  (x.getLsbD vxBit = true ∧ ∀ n ∈ vxBits, x.getLsbD n = true → n = bit) ∨
    (x.getLsbD fexBit = true ∧
      ∀ p ∈ enables, x.getLsbD p.1 = true → x.getLsbD p.2 = true → p.1 = bit ∨ p.2 = bit)

section

variable {x y : BitVec 32} {bit : ℕ} (hx : Consistent x) (hvx : bit ≠ vxBit) (hfex : bit ≠ fexBit)

include hx hvx hfex in
theorem consistent_set_iff (hy : ∀ n, y.getLsbD n = (x.getLsbD n || decide (n = bit))) :
    Consistent y ↔ ¬StaleSet x bit := by
  have hkept : ∀ n, n ≠ bit → y.getLsbD n = x.getLsbD n := fun n hn => by
    rw [hy,decide_eq_false hn,Bool.or_false]
  have hset : ∀ n, y.getLsbD n = true ↔ x.getLsbD n = true ∨ n = bit := fun n => by
    rw [hy,Bool.or_eq_true,decide_eq_true_eq]
  have hne : ∀ p ∈ enables, p.1 ≠ p.2 := by decide
  constructor
  · rintro hcons (⟨hm,hno⟩ | ⟨hno,p,hm,hp⟩)
    · have := hcons.vx.mpr ⟨bit,hm,(hset bit).mpr (.inr rfl)⟩
      rw [hkept _ hvx.symm,hno] at this
      cases this
    · have := hcons.fex.mpr ⟨p,hm,(hset _).mpr (hp.elim (fun h => .inr h.1.symm) fun h => .inl h.2),
        (hset _).mpr (hp.elim (fun h => .inl h.2) fun h => .inr h.1.symm)⟩
      rw [hkept _ hfex.symm,hno] at this
      cases this
  · intro hnot
    refine ⟨?_,?_⟩
    · rw [hkept _ hvx.symm]
      constructor
      · intro h
        obtain ⟨n,hm,hn⟩ := hx.vx.mp h
        exact ⟨n,hm,(hset n).mpr (.inl hn)⟩
      · rintro ⟨n,hm,hn⟩
        rcases (hset n).mp hn with hn | rfl
        · exact hx.vx.mpr ⟨n,hm,hn⟩
        · by_contra hno
          exact hnot (.inl ⟨hm,eq_false_of_ne_true hno⟩)
    · rw [hkept _ hfex.symm]
      constructor
      · intro h
        obtain ⟨p,hm,h1,h2⟩ := hx.fex.mp h
        exact ⟨p,hm,(hset _).mpr (.inl h1),(hset _).mpr (.inl h2)⟩
      · rintro ⟨p,hm,h1,h2⟩
        by_contra hno
        have hstale : ∀ h : (bit = p.1 ∧ x.getLsbD p.2 = true) ∨
            (bit = p.2 ∧ x.getLsbD p.1 = true), False := fun h =>
          hnot (.inr ⟨eq_false_of_ne_true hno,p,hm,h⟩)
        rcases (hset _).mp h1 with h1 | h1 <;> rcases (hset _).mp h2 with h2 | h2
        · exact hno (hx.fex.mpr ⟨p,hm,h1,h2⟩)
        · exact hstale (.inr ⟨h2.symm,h1⟩)
        · exact hstale (.inl ⟨h1.symm,h2⟩)
        · exact hne p hm (h1.trans h2.symm)

include hx hvx hfex in
theorem consistent_clear_iff (hy : ∀ n, y.getLsbD n = (x.getLsbD n && !decide (n = bit))) :
    Consistent y ↔ ¬StaleClear x bit := by
  have hkept : ∀ n, n ≠ bit → y.getLsbD n = x.getLsbD n := fun n hn => by
    rw [hy,decide_eq_false hn,Bool.not_false,Bool.and_true]
  have hset : ∀ n, y.getLsbD n = true ↔ x.getLsbD n = true ∧ n ≠ bit := fun n => by
    rw [hy,Bool.and_eq_true,Bool.not_eq_true',decide_eq_false_iff_not]
  constructor
  · rintro hcons (⟨hyes,honly⟩ | ⟨hyes,honly⟩)
    · rw [← hkept _ hvx.symm] at hyes
      obtain ⟨n,hm,hn⟩ := hcons.vx.mp hyes
      obtain ⟨hn,hbit⟩ := (hset n).mp hn
      exact hbit (honly n hm hn)
    · rw [← hkept _ hfex.symm] at hyes
      obtain ⟨p,hm,h1,h2⟩ := hcons.fex.mp hyes
      obtain ⟨h1,hbit1⟩ := (hset _).mp h1
      obtain ⟨h2,hbit2⟩ := (hset _).mp h2
      exact (honly p hm h1 h2).elim hbit1 hbit2
  · intro hnot
    refine ⟨?_,?_⟩
    · rw [hkept _ hvx.symm]
      constructor
      · intro h
        by_contra hnone
        refine hnot (.inl ⟨h,fun n hm hn => ?_⟩)
        by_contra hbit
        exact hnone ⟨n,hm,(hset n).mpr ⟨hn,hbit⟩⟩
      · rintro ⟨n,hm,hn⟩
        exact hx.vx.mpr ⟨n,hm,((hset n).mp hn).1⟩
    · rw [hkept _ hfex.symm]
      constructor
      · intro h
        by_contra hnone
        refine hnot (.inr ⟨h,fun p hm h1 h2 => ?_⟩)
        by_contra hbit
        obtain ⟨hbit1,hbit2⟩ := not_or.mp hbit
        exact hnone ⟨p,hm,(hset _).mpr ⟨h1,hbit1⟩,(hset _).mpr ⟨h2,hbit2⟩⟩
      · rintro ⟨p,hm,h1,h2⟩
        exact hx.fex.mpr ⟨p,hm,((hset _).mp h1).1,((hset _).mp h2).1⟩

end

end Fpscr

end DolRecomp
