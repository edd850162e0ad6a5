import Mathlib.Algebra.Order.Round
import Mathlib.Data.Int.Log
import Mathlib.Tactic.Linarith
import Mathlib.Tactic.Positivity
import Mathlib.Tactic.Ring

/-!
# Rounding to a binary format

A magnitude is rounded to the nearest multiple of a power of two, a tie to the even one. The power
keeps as many leading bits as the format has, down to the unit of its denormals.
-/

namespace FloatRounding

/-- A binary format: its significant bits, the exponent of its smallest unit and the exponent of
the first magnitude above all of its numbers. -/
structure Format where
  precision : ℕ
  unit : ℤ
  top : ℤ

variable {K : Type*} [Field K] [LinearOrder K] [FloorRing K]

def nearestEven (y : K) : ℤ :=
  if 2*(y - ⌊y⌋) < 1 then ⌊y⌋
  else if 1 < 2*(y - ⌊y⌋) then ⌊y⌋ + 1
  else if ⌊y⌋ % 2 = 0 then ⌊y⌋ else ⌊y⌋ + 1

/-- The exponent of the unit in the last place at a magnitude. -/
def Format.ulp (f : Format) (a : K) : ℤ :=
  if a = 0 then f.unit else max (Int.log 2 a + 1 - f.precision) f.unit

def Format.round (f : Format) (a : K) : K := nearestEven (a/2^f.ulp a)*2^f.ulp a

theorem ulp_of_pos {f : Format} {a : K} (h : 0 < a) :
    f.ulp a = max (Int.log 2 a + 1 - f.precision) f.unit :=
  if_neg h.ne'

theorem floor_le_nearestEven (y : K) : ⌊y⌋ ≤ nearestEven y := by
  rw [nearestEven]
  split_ifs <;> omega

theorem nearestEven_le_floor_succ (y : K) : nearestEven y ≤ ⌊y⌋ + 1 := by
  rw [nearestEven]
  split_ifs <;> omega

theorem le_nearestEven {n : ℤ} {y : K} (h : (n : K) ≤ y) : n ≤ nearestEven y :=
  (Int.le_floor.mpr h).trans (floor_le_nearestEven y)

variable [IsStrictOrderedRing K]

theorem nearestEven_le {n : ℤ} {y : K} (h : y ≤ n) : nearestEven y ≤ n := by
  rcases h.eq_or_lt with heq | hlt
  · rw [nearestEven,heq,Int.floor_intCast,sub_self,mul_zero,if_pos one_pos]
  · exact (nearestEven_le_floor_succ y).trans (Int.add_one_le_of_lt (Int.floor_lt.mpr hlt))

theorem nearestEven_intCast (n : ℤ) : nearestEven (n : K) = n :=
  le_antisymm (nearestEven_le le_rfl) (le_nearestEven le_rfl)

section
variable {f : Format} {a : K}

theorem pow_pos_two (z : ℤ) : (0 : K) < 2^z := zpow_pos two_pos z

/-- A multiple of a larger power is one of a smaller power. -/
theorem exists_multiple {i j : ℤ} (h : i ≤ j) (k : ℕ) : ∃ n : ℤ, (k : K)*2^j = n*2^i := by
  refine ⟨k*2^(j - i).toNat,?_⟩
  have hpow : (2 : K)^j = 2^(j - i).toNat*2^i := by
    rw [← zpow_natCast,← zpow_add₀ two_pos.ne',Int.toNat_of_nonneg (by omega),Int.sub_add_cancel]
  rw [hpow,← mul_assoc]
  push_cast
  rfl

theorem ulp_eq {k : ℕ} {j : ℤ} (hf : 0 < f.precision) (hk : k < 2^f.precision) (hj : f.unit ≤ j)
    (h : 2^(f.precision - 1) ≤ k ∨ j = f.unit) : f.ulp ((k : K)*2^j) = j := by
  rcases k.eq_zero_or_pos with rfl | hpos
  · have hunit : j = f.unit := h.resolve_left (Nat.not_le.mpr (Nat.two_pow_pos _))
    rw [Nat.cast_zero,zero_mul,Format.ulp,if_pos rfl,hunit]
  have ha : 0 < (k : K)*2^j := mul_pos (Nat.cast_pos.mpr hpos) (pow_pos_two j)
  have hhigh : Int.log 2 ((k : K)*2^j) < f.precision + j := by
    refine (Int.lt_zpow_iff_log_lt one_lt_two ha).mp ?_
    rw [Nat.cast_ofNat,zpow_add₀ two_ne_zero,zpow_natCast]
    exact mul_lt_mul_of_pos_right (by exact_mod_cast hk) (pow_pos_two j)
  rw [ulp_of_pos ha]
  rcases h with h | rfl
  · have hlow : (f.precision - 1 : ℕ) + j ≤ Int.log 2 ((k : K)*2^j) := by
      refine (Int.zpow_le_iff_le_log one_lt_two ha).mp ?_
      rw [Nat.cast_ofNat,zpow_add₀ two_ne_zero,zpow_natCast]
      exact mul_le_mul_of_nonneg_right (by exact_mod_cast h) (pow_pos_two j).le
    omega
  · omega

theorem le_round_multiple {n : ℤ} (h : (n : K)*2^f.ulp a ≤ a) : (n : K)*2^f.ulp a ≤ f.round a := by
  refine mul_le_mul_of_nonneg_right ?_ (pow_pos_two _).le
  exact Int.cast_le.mpr (le_nearestEven ((le_div_iff₀ (pow_pos_two _)).mpr h))

theorem round_le_multiple {n : ℤ} (h : a ≤ (n : K)*2^f.ulp a) : f.round a ≤ (n : K)*2^f.ulp a := by
  refine mul_le_mul_of_nonneg_right ?_ (pow_pos_two _).le
  exact Int.cast_le.mpr (nearestEven_le ((div_le_iff₀ (pow_pos_two _)).mpr h))

/-- A multiple of at most the precision lies below the binade of a number with a larger unit. -/
theorem representable_le_binade {k : ℕ} {j : ℤ} (hk : k ≤ 2^f.precision) (hj : f.unit ≤ j)
    (ha : 0 < a) (h : j < f.ulp a) :
    (k : K)*2^j ≤ 2^Int.log 2 a ∧ f.ulp a ≤ Int.log 2 a + 1 - f.precision := by
  rw [ulp_of_pos ha] at h ⊢
  have hlog : j < Int.log 2 a + 1 - f.precision := by
    rcases lt_max_iff.mp h with h | h
    · exact h
    · omega
  refine ⟨?_,max_le le_rfl (by omega)⟩
  calc (k : K)*2^j ≤ 2^f.precision*2^j :=
        mul_le_mul_of_nonneg_right (by exact_mod_cast hk) (pow_pos_two _).le
    _ = 2^((f.precision : ℤ) + j) := by rw [zpow_add₀ two_ne_zero,zpow_natCast]
    _ ≤ 2^Int.log 2 a := zpow_le_zpow_right₀ one_le_two (by omega)

theorem log_le_self (ha : 0 < a) : (2 : K)^Int.log 2 a ≤ a := by
  exact_mod_cast Int.zpow_log_le_self (b := 2) one_lt_two ha

/-- Rounding does not pass a number of the format from above. -/
theorem le_round {k : ℕ} {j : ℤ} (hf : 0 < f.precision) (hk : k ≤ 2^f.precision)
    (hj : f.unit ≤ j) (h : (k : K)*2^j ≤ a) : (k : K)*2^j ≤ f.round a := by
  rcases Int.lt_or_le j (f.ulp a) with hlt | hle
  · rcases k.eq_zero_or_pos with rfl | hpos
    · have hzero : ((0 : ℤ) : K)*2^f.ulp a ≤ a := by simpa using h
      simpa using le_round_multiple hzero
    · have ha : 0 < a := (mul_pos (Nat.cast_pos.mpr hpos) (pow_pos_two j)).trans_le h
      obtain ⟨hbinade,hulp⟩ := representable_le_binade hk hj ha hlt
      obtain ⟨n,hn⟩ := exists_multiple (K := K) (show f.ulp a ≤ Int.log 2 a by omega) 1
      rw [Nat.cast_one,one_mul] at hn
      refine hbinade.trans ?_
      rw [hn]
      exact le_round_multiple (hn ▸ log_le_self ha)
  · obtain ⟨n,hn⟩ := exists_multiple (K := K) hle k
    rw [hn] at h ⊢
    exact le_round_multiple h

/-- Rounding does not pass a number of the format from below. -/
theorem round_le {k : ℕ} {j : ℤ} (hf : 0 < f.precision) (hk : k ≤ 2^f.precision)
    (hj : f.unit ≤ j) (ha : 0 ≤ a) (h : a ≤ (k : K)*2^j) : f.round a ≤ (k : K)*2^j := by
  rcases Int.lt_or_le j (f.ulp a) with hlt | hle
  · rcases ha.eq_or_lt with rfl | ha
    · rw [Format.ulp,if_pos rfl] at hlt
      omega
    · obtain ⟨hbinade,hulp⟩ := representable_le_binade hk hj ha hlt
      obtain ⟨n,hn⟩ := exists_multiple (K := K) (show f.ulp a ≤ Int.log 2 a by omega) 1
      rw [Nat.cast_one,one_mul] at hn
      have heq : (k : K)*2^j = n*2^f.ulp a :=
        le_antisymm (hn ▸ hbinade) (hn ▸ (log_le_self ha).trans h)
      rw [heq] at h ⊢
      exact round_le_multiple h
  · obtain ⟨n,hn⟩ := exists_multiple (K := K) hle k
    rw [hn] at h ⊢
    exact round_le_multiple h

theorem round_eq_self {k : ℕ} {j : ℤ} (hf : 0 < f.precision) (hk : k ≤ 2^f.precision)
    (hj : f.unit ≤ j) : f.round ((k : K)*2^j) = (k : K)*2^j :=
  le_antisymm (round_le hf hk hj (mul_nonneg k.cast_nonneg (pow_pos_two j).le) le_rfl)
    (le_round hf hk hj le_rfl)

theorem round_nonneg (ha : 0 ≤ a) : 0 ≤ f.round a := by
  have h : ((0 : ℤ) : K)*2^f.ulp a ≤ a := by simpa using ha
  simpa using le_round_multiple h

/-- Rounding keeps the integral part of what has few enough bits, denormal or not. -/
theorem floor_round {k : ℕ} {j : ℤ} (hf : 0 < f.precision) (hk : k ≤ 2^f.precision)
    (hsmall : f.unit + f.precision < 0) : ⌊f.round ((k : K)*2^j)⌋ = ⌊(k : K)*2^j⌋ := by
  rcases Int.lt_or_le j f.unit with hlt | hle
  · have hnonneg : 0 ≤ (k : K)*2^j := mul_nonneg k.cast_nonneg (pow_pos_two j).le
    have hhalf : (k : K)*2^j ≤ ((1 : ℕ) : K)*2^(-1 : ℤ) := by
      calc (k : K)*2^j ≤ 2^f.precision*2^j :=
            mul_le_mul_of_nonneg_right (by exact_mod_cast hk) (pow_pos_two _).le
        _ = 2^((f.precision : ℤ) + j) := by rw [zpow_add₀ two_ne_zero,zpow_natCast]
        _ ≤ 2^(-1 : ℤ) := zpow_le_zpow_right₀ one_le_two (by omega)
        _ = ((1 : ℕ) : K)*2^(-1 : ℤ) := by rw [Nat.cast_one,one_mul]
    have hround := round_le (f := f) hf Nat.one_le_two_pow (by omega) hnonneg hhalf
    have hone : ((1 : ℕ) : K)*2^(-1 : ℤ) < 1 := by
      rw [Nat.cast_one,one_mul]
      exact zpow_lt_one_of_neg₀ one_lt_two (by decide)
    rw [Int.floor_eq_zero_iff.mpr ⟨round_nonneg hnonneg,hround.trans_lt hone⟩,
      Int.floor_eq_zero_iff.mpr ⟨hnonneg,hhalf.trans_lt hone⟩]
  · rw [round_eq_self hf hk hle]

end

end FloatRounding
