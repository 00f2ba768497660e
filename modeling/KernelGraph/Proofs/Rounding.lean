import KernelGraph.Decimal.Binary
import Mathlib.Algebra.Order.Field.Power
import Mathlib.Data.Rat.Cast.Order
import Mathlib.Tactic.FieldSimp
import Mathlib.Tactic.Linarith
import Mathlib.Tactic.Positivity
import Mathlib.Tactic.Ring

/-!
Rounding leaves a number of a format as it is (`Format.round_value`). As every number of 32 bits is
one of 64 bits, too, widening it and narrowing it again changes nothing (`narrow_widen`).
-/

namespace KernelGraph.Decimal

/-! ### Binary exponents -/

theorem dyadic_snd_pos (n : Nat) (e : Int) : 0 < (dyadic n e).2 := by
  unfold dyadic
  split
  · exact Nat.one_pos
  · exact Nat.pow_pos (by decide)

theorem dyadic_eq (n : Nat) (e : Int) :
    ((dyadic n e).1 : ℚ) = n * 2 ^ e * (dyadic n e).2 := by
  unfold dyadic
  by_cases h : 0 ≤ e
  · rw [if_pos h]
    obtain ⟨k, rfl⟩ := Int.eq_ofNat_of_zero_le h
    simp
  · rw [if_neg h]
    obtain ⟨k, hk⟩ := Int.eq_ofNat_of_zero_le (show 0 ≤ -e by omega)
    have he : e = -(k : Int) := by omega
    rw [hk, he]
    have hpow : ((2 : ℚ) ^ k) ≠ 0 := by positivity
    simp [zpow_neg, hpow]

/-- A quotient lies between the power of two of its binary exponent and the next one. -/
theorem floorLog2_spec {n d : Nat} (hn : 0 < n) (hd : 0 < d) :
    (2 : ℚ) ^ floorLog2 n d * d ≤ n ∧ (n : ℚ) < 2 ^ (floorLog2 n d + 1) * d := by
  have hnlow : (2 : ℚ) ^ (n.log2 : Int) ≤ n := by
    exact_mod_cast Nat.log2_self_le (Nat.pos_iff_ne_zero.1 hn)
  have hnhigh : (n : ℚ) < 2 ^ ((n.log2 : Int) + 1) := by exact_mod_cast Nat.lt_log2_self
  have hdlow : (2 : ℚ) ^ (d.log2 : Int) ≤ d := by
    exact_mod_cast Nat.log2_self_le (Nat.pos_iff_ne_zero.1 hd)
  have hdhigh : (d : ℚ) < 2 ^ ((d.log2 : Int) + 1) := by exact_mod_cast Nat.lt_log2_self
  have htwo : (2 : ℚ) ≠ 0 := by norm_num
  let k : Int := n.log2 - d.log2
  have htest : (dyadic d k).1 ≤ n * (dyadic d k).2 ↔ (d : ℚ) * 2 ^ k ≤ n := by
    have hone : (0 : ℚ) < (dyadic d k).2 := by exact_mod_cast dyadic_snd_pos d k
    rw [← Nat.cast_le (α := ℚ), Nat.cast_mul, dyadic_eq]
    exact mul_le_mul_iff_left₀ hone
  have hfloor : floorLog2 n d = if (dyadic d k).1 ≤ n * (dyadic d k).2 then k else k - 1 := rfl
  rw [hfloor]
  by_cases hle : (d : ℚ) * 2 ^ k ≤ n
  · rw [if_pos (htest.2 hle)]
    refine ⟨by rwa [mul_comm], ?_⟩
    calc (n : ℚ) < 2 ^ ((n.log2 : Int) + 1) := hnhigh
      _ = 2 ^ (k + 1) * 2 ^ (d.log2 : Int) := by
        rw [← zpow_add₀ htwo]
        congr 1
        omega
      _ ≤ 2 ^ (k + 1) * d := by gcongr
  · rw [if_neg (mt htest.1 hle), sub_add_cancel]
    refine ⟨?_, by rw [mul_comm]; exact not_le.1 hle⟩
    calc (2 : ℚ) ^ (k - 1) * d ≤ 2 ^ (k - 1) * 2 ^ ((d.log2 : Int) + 1) := by gcongr
      _ = 2 ^ (n.log2 : Int) := by
        rw [← zpow_add₀ htwo]
        congr 1
        omega
      _ ≤ n := hnlow

theorem floorLog2_eq {n d : Nat} {k : Int} (hn : 0 < n) (hd : 0 < d)
    (hlow : (2 : ℚ) ^ k * d ≤ n) (hhigh : (n : ℚ) < 2 ^ (k + 1) * d) : floorLog2 n d = k := by
  obtain ⟨hlow', hhigh'⟩ := floorLog2_spec hn hd
  have hd' : (0 : ℚ) < d := by exact_mod_cast hd
  have htwo : (1 : ℚ) < 2 := by norm_num
  have hle : k < floorLog2 n d + 1 :=
    (zpow_lt_zpow_iff_right₀ htwo).1 (lt_of_mul_lt_mul_right (hlow.trans_lt hhigh') hd'.le)
  have hge : floorLog2 n d < k + 1 :=
    (zpow_lt_zpow_iff_right₀ htwo).1 (lt_of_mul_lt_mul_right (hlow'.trans_lt hhigh) hd'.le)
  omega

/-- A quotient is rounded to a natural number that is half a unit away at most, and less if it is
odd. -/
theorem roundHalfEven_eq {n d k : Nat} {x : ℚ} (hd : 0 < d) (hx : (n : ℚ) = x * d)
    (hlow : k - 1 / 2 ≤ x) (hhigh : x ≤ k + 1 / 2)
    (htie : k % 2 = 0 ∨ (k - 1 / 2 < x ∧ x < k + 1 / 2)) : roundHalfEven n d = k := by
  have hd' : (0 : ℚ) < d := by exact_mod_cast hd
  have hlow' : 2 * (k * d) ≤ 2 * n + d := by
    have h : (2 * (k * d) : ℚ) ≤ 2 * n + d := by rw [hx]; nlinarith
    exact_mod_cast h
  have hhigh' : 2 * n ≤ 2 * (k * d) + d := by
    have h : (2 * n : ℚ) ≤ 2 * (k * d) + d := by rw [hx]; nlinarith
    exact_mod_cast h
  have htie' : k % 2 = 0 ∨ (2 * (k * d) < 2 * n + d ∧ 2 * n < 2 * (k * d) + d) := by
    refine htie.imp_right fun ⟨hlow, hhigh⟩ => ⟨?_, ?_⟩
    · have h : (2 * (k * d) : ℚ) < 2 * n + d := by rw [hx]; nlinarith
      exact_mod_cast h
    · have h : (2 * n : ℚ) < 2 * (k * d) + d := by rw [hx]; nlinarith
      exact_mod_cast h
  have hround : roundHalfEven n d = if 2 * (n % d) < d then n / d
      else if d < 2 * (n % d) then n / d + 1 else n / d + n / d % 2 := rfl
  have hmod := Nat.mod_lt n hd
  have hdiv := Nat.div_add_mod' n d
  rw [hround]
  generalize n / d = quotient at hdiv ⊢
  generalize n % d = rest at hmod hdiv ⊢
  have hle : quotient ≤ k := by
    by_contra h
    have hmul := Nat.mul_le_mul_right d (Nat.not_le.1 h)
    rw [Nat.succ_mul] at hmul
    omega
  have hge : k ≤ quotient + 1 := by
    by_contra h
    have hmul := Nat.mul_le_mul_right d (Nat.not_le.1 h)
    rw [Nat.succ_mul, Nat.succ_mul] at hmul
    omega
  obtain rfl | rfl : k = quotient ∨ k = quotient + 1 := by omega
  · split
    · rfl
    · split <;> omega
  · have hnext : (quotient + 1) * d = quotient * d + d := Nat.succ_mul quotient d
    rw [hnext] at hlow' hhigh' htie'
    split
    · omega
    · split <;> omega

/-! ### Numbers of a format -/

namespace Format

variable {fmt : Format}

/-- The number at a rank. -/
def value (fmt : Format) (rank : Nat) : ℚ := fmt.significand rank * 2 ^ fmt.exponent rank

theorem unit_pos (fmt : Format) : 0 < fmt.unit := Nat.pow_pos (by decide)

theorem unit_eq (fmt : Format) : (fmt.unit : ℚ) = 2 ^ ((fmt.precision - 1 : Nat) : Int) := by
  simp [unit]

/-- A rank is the exponents below it and its significand. -/
theorem steps_add_significand (fmt : Format) (rank : Nat) :
    fmt.steps rank * fmt.unit + fmt.significand rank = rank := by
  have hle : fmt.steps rank * fmt.unit ≤ rank := by
    calc fmt.steps rank * fmt.unit ≤ rank / fmt.unit * fmt.unit :=
          Nat.mul_le_mul_right _ (Nat.sub_le _ _)
      _ ≤ rank := Nat.div_mul_le_self _ _
  rw [significand]
  omega

theorem significand_lt (fmt : Format) (rank : Nat) : fmt.significand rank < 2 * fmt.unit := by
  have hrank := Nat.lt_div_mul_add (a := rank) fmt.unit_pos
  have hsum := fmt.steps_add_significand rank
  have hsteps : rank / fmt.unit ≤ fmt.steps rank + 1 := by
    rw [steps]
    omega
  have hmul := Nat.mul_le_mul_right fmt.unit hsteps
  rw [Nat.add_mul, Nat.one_mul] at hmul
  omega

/-- Above the least exponent all bits of a significand count. -/
theorem unit_le_significand {rank : Nat} (h : fmt.steps rank ≠ 0) :
    fmt.unit ≤ fmt.significand rank := by
  have hsum := fmt.steps_add_significand rank
  have hsteps : fmt.steps rank + 1 = rank / fmt.unit := by
    rw [steps] at h ⊢
    omega
  have hmul := Nat.div_mul_le_self rank fmt.unit
  rw [← hsteps, Nat.add_mul, Nat.one_mul] at hmul
  omega

/-- The rank of a significand that has all its bits. -/
theorem value_add {steps m : Nat} (hlow : fmt.unit ≤ m) (hhigh : m < 2 * fmt.unit) :
    fmt.value (steps * fmt.unit + m) = m * 2 ^ (fmt.least + steps) := by
  have hdiv : (steps * fmt.unit + m) / fmt.unit = steps + 1 := by
    apply Nat.div_eq_of_lt_le
    · rw [Nat.add_mul, Nat.one_mul]
      omega
    · rw [Nat.add_mul, Nat.add_mul, Nat.one_mul]
      omega
  have hsteps : fmt.steps (steps * fmt.unit + m) = steps := by rw [Format.steps, hdiv]; rfl
  rw [value, significand, exponent, hsteps, Nat.add_sub_cancel_left]

/-- The exponent that a quotient is rounded at is the one for which it has all bits of a
significand, or the least one if it has no more than these bits there. -/
theorem max_least_eq {n d steps : Nat} (hd : 0 < d) (hn : 0 < n)
    (hlow : steps = 0 ∨ fmt.unit * 2 ^ (fmt.least + steps) * d ≤ (n : ℚ))
    (hhigh : (n : ℚ) < 2 * fmt.unit * 2 ^ (fmt.least + steps) * d) :
    max fmt.least (floorLog2 n d - (fmt.precision - 1 : Nat)) = fmt.least + steps := by
  have htwo : (2 : ℚ) ≠ 0 := by norm_num
  have hd' : (0 : ℚ) < d := by exact_mod_cast hd
  rw [unit_eq, ← zpow_one_add₀ htwo, ← zpow_add₀ htwo] at hhigh
  rw [unit_eq, ← zpow_add₀ htwo] at hlow
  rcases hlow with rfl | hlow
  · have hfloor := (floorLog2_spec hn hd).1.trans_lt hhigh
    have hlt := (zpow_lt_zpow_iff_right₀ (by norm_num : (1 : ℚ) < 2)).1
      (lt_of_mul_lt_mul_right hfloor hd'.le)
    omega
  · have hnext : (1 : Int) + (fmt.precision - 1 : Nat) + (fmt.least + steps) =
        (fmt.precision - 1 : Nat) + (fmt.least + steps) + 1 := by omega
    rw [hnext] at hhigh
    rw [floorLog2_eq hn hd hlow hhigh]
    omega

/-- A quotient is rounded to a multiple of the power of two of its exponent. -/
theorem round_eq {n d steps m : Nat} {x : ℚ} (hd : 0 < d) (hpos : 0 < x)
    (hx : (n : ℚ) = x * 2 ^ (fmt.least + steps) * d) (hunit : steps = 0 ∨ fmt.unit ≤ x)
    (hlt : x < 2 * fmt.unit) (hlow : m - 1 / 2 ≤ x) (hhigh : x ≤ m + 1 / 2)
    (htie : m % 2 = 0 ∨ (m - 1 / 2 < x ∧ x < m + 1 / 2)) :
    fmt.round n d = min fmt.infinity (steps * fmt.unit + m) := by
  have hd' : (0 : ℚ) < d := by exact_mod_cast hd
  have hpow : (0 : ℚ) < 2 ^ (fmt.least + (steps : Int)) := by positivity
  have hn : 0 < n := by
    have h : (0 : ℚ) < n := by rw [hx]; positivity
    exact_mod_cast h
  have hexponent : max fmt.least (floorLog2 n d - (fmt.precision - 1 : Nat)) =
      fmt.least + steps := by
    refine max_least_eq hd hn (hunit.imp_right fun h => ?_) ?_
    · rw [hx]
      gcongr
    · rw [hx]
      gcongr
  have hscale := dyadic_eq d (fmt.least + steps)
  have hone := dyadic_snd_pos d (fmt.least + steps)
  have hsteps : (fmt.least + (steps : Int) - fmt.least).toNat = steps := by omega
  rw [round, if_neg hn.ne']
  dsimp only
  rw [hexponent, hsteps]
  generalize (dyadic d (fmt.least + steps)).1 = scale at hscale ⊢
  generalize (dyadic d (fmt.least + steps)).2 = one at hscale hone ⊢
  have hone' : (0 : ℚ) < one := by exact_mod_cast hone
  have hscalePos : 0 < scale := by
    have h : (0 : ℚ) < scale := by rw [hscale]; positivity
    exact_mod_cast h
  have hquotient : ((n * one : Nat) : ℚ) = x * scale := by
    rw [Nat.cast_mul, hx, hscale]
    ring
  rw [roundHalfEven_eq hscalePos hquotient hlow hhigh htie]

theorem significand_pos {rank : Nat} (h : 0 < rank) : 0 < fmt.significand rank := by
  by_cases hsteps : fmt.steps rank = 0
  · have hsum := fmt.steps_add_significand rank
    rw [hsteps] at hsum
    omega
  · exact fmt.unit_pos.trans_le (unit_le_significand hsteps)

/-- A number of the format is not rounded. -/
theorem round_value {n d rank : Nat} (hd : 0 < d) (hrank : rank < fmt.infinity)
    (h : (n : ℚ) = fmt.value rank * d) : fmt.round n d = rank := by
  rcases Nat.eq_zero_or_pos rank with rfl | hpos
  · have hzero : fmt.value 0 = 0 := by simp [value, significand]
    have hn : n = 0 := by
      rw [hzero, zero_mul] at h
      exact_mod_cast h
    rw [round, if_pos hn]
  · have hm : (0 : ℚ) < fmt.significand rank := by exact_mod_cast significand_pos hpos
    have hunit : fmt.steps rank = 0 ∨ (fmt.unit : ℚ) ≤ fmt.significand rank :=
      or_iff_not_imp_left.2 fun hsteps => by exact_mod_cast unit_le_significand hsteps
    have hlt : (fmt.significand rank : ℚ) < 2 * fmt.unit := by
      exact_mod_cast fmt.significand_lt rank
    have hround := round_eq (m := fmt.significand rank) hd hm h hunit hlt (by linarith)
      (by linarith) (.inr ⟨by linarith, by linarith⟩)
    rw [hround, fmt.steps_add_significand]
    exact min_eq_right hrank.le

end Format

/-! ### Numbers of two formats -/

/-- Every number of 32 bits is one of 64 bits: its significand is moved up until it has 53 bits. -/
theorem exists_double {rank : Nat} (h : rank < Format.single.infinity) :
    ∃ wide < Format.double.infinity, Format.double.value wide = Format.single.value rank := by
  have hsteps : Format.single.steps rank ≤ 253 := by
    have hdiv : rank / Format.single.unit < 255 := (Nat.div_lt_iff_lt_mul (Format.unit_pos _)).2 h
    rw [Format.steps]
    omega
  have hlt : Format.single.significand rank < 16777216 := Format.significand_lt Format.single rank
  have hvalue : Format.single.value rank =
      Format.single.significand rank * 2 ^ (-149 + (Format.single.steps rank : Int)) := rfl
  rw [hvalue]
  generalize Format.single.steps rank = steps at hsteps
  generalize Format.single.significand rank = m at hlt
  have hunit : Format.double.unit = 2 ^ 52 := rfl
  rcases Nat.eq_zero_or_pos m with rfl | hpos
  · have hzero : Format.double.value 0 = 0 := by simp [Format.value, Format.significand]
    exact ⟨0, by decide, by rw [hzero]; simp⟩
  · have hlog : m.log2 < 24 := (Nat.log2_lt hpos.ne').2 hlt
    let shift := 52 - m.log2
    have hshift : m.log2 + shift = 52 := by omega
    have hlow : Format.double.unit ≤ m * 2 ^ shift := by
      rw [hunit, ← hshift, Nat.pow_add]
      exact Nat.mul_le_mul_right _ (Nat.log2_self_le hpos.ne')
    have hhigh : m * 2 ^ shift < 2 * Format.double.unit := by
      have hm : m < 2 ^ (m.log2 + 1) := Nat.lt_log2_self
      calc m * 2 ^ shift < 2 ^ (m.log2 + 1) * 2 ^ shift :=
            Nat.mul_lt_mul_of_pos_right hm (Nat.two_pow_pos _)
        _ = 2 * Format.double.unit := by
            rw [hunit, ← hshift, ← Nat.pow_add, ← Nat.pow_succ']
            congr 1
            omega
    refine ⟨(925 + steps - shift) * Format.double.unit + m * 2 ^ shift, ?_, ?_⟩
    · have hmul : (925 + steps - shift) * Format.double.unit ≤ 1178 * Format.double.unit :=
        Nat.mul_le_mul_right _ (by omega)
      have hinfinity : Format.double.infinity = 2047 * Format.double.unit := rfl
      omega
    · have hexponent : Format.double.least + ((925 + steps - shift : Nat) : Int) =
          -149 + (steps : Int) - shift := by
        show (-1074 : Int) + _ = _
        omega
      have htwo : (2 : ℚ) ≠ 0 := by norm_num
      rw [Format.value_add hlow hhigh, hexponent, Nat.cast_mul, Nat.cast_pow, Nat.cast_ofNat,
        zpow_sub₀ htwo, zpow_natCast]
      field_simp

namespace Binary

variable {fmt : Format}

theorem ofRank_of_lt {rank : Nat} (h : rank < fmt.infinity) (negative : Bool) :
    (ofRank negative rank : Binary fmt) = .signed negative ⟨rank, Nat.lt_succ_of_lt h⟩ := by
  rw [ofRank]
  congr 2
  exact min_eq_right h.le

/-- A number that the other format has, too, is that one. -/
theorem convert_eq {target : Format} {negative : Bool} {rank : Fin (fmt.infinity + 1)}
    (hrank : rank.val < fmt.infinity) {wide : Nat} (hwide : wide < target.infinity)
    (h : target.value wide = fmt.value rank) :
    (signed negative rank).convert = (ofRank negative wide : Binary target) := by
  have hvalue := dyadic_eq (fmt.significand rank) (fmt.exponent rank)
  rw [← Format.value, ← h] at hvalue
  rw [convert, if_neg hrank.ne]
  exact congrArg (ofRank negative) (Format.round_value (dyadic_snd_pos _ _) hwide hvalue)

/-- Widening keeps the value of a number, so nothing is lost when it is narrowed again. -/
theorem narrow_widen {x : Single} (h : x.isFinite) : x.widen.narrow = x := by
  cases x with
  | nan => cases h
  | signed negative rank =>
      have hrank : rank.val < Format.single.infinity :=
        lt_of_le_of_ne (Nat.le_of_lt_succ rank.isLt) (bne_iff_ne.1 h)
      obtain ⟨wide, hwide, hvalue⟩ := exists_double hrank
      rw [widen, convert_eq hrank hwide hvalue, ofRank_of_lt hwide, narrow,
        convert_eq hwide hrank hvalue.symm, ofRank_of_lt hrank]

theorem isFinite_widen {x : Single} (h : x.isFinite) : x.widen.isFinite := by
  cases x with
  | nan => cases h
  | signed negative rank =>
      have hrank : rank.val < Format.single.infinity :=
        lt_of_le_of_ne (Nat.le_of_lt_succ rank.isLt) (bne_iff_ne.1 h)
      obtain ⟨wide, hwide, hvalue⟩ := exists_double hrank
      rw [widen, convert_eq hrank hwide hvalue, ofRank_of_lt hwide]
      exact bne_iff_ne.2 hwide.ne

end Binary

end KernelGraph.Decimal
