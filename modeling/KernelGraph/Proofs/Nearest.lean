import KernelGraph.Decimal.Shortest
import KernelGraph.Proofs.Rounding

/-!
The numbers that are rounded to a rank. They lie between the middles to the two neighbours, and the
middles are among them where the significand is even (`Format.Rounds`), and all of these are rounded
to it (`Format.Rounds.round_eq`). This is the interval in which shortest digits are looked for
(`Interval.contains_ofRank`).
-/

namespace KernelGraph.Decimal

/-! ### Powers of ten -/

theorem two_zpow_le_ten_zpow {e : Int} (h : 0 ≤ e) : (2 : ℚ) ^ (3 * e) ≤ 10 ^ e := by
  obtain ⟨k, rfl⟩ := Int.eq_ofNat_of_zero_le h
  rw [zpow_mul]
  exact zpow_le_zpow_left₀ h (by norm_num) (by norm_num)

theorem ten_zpow_le_two_zpow {e : Int} (h : e ≤ 0) : (10 : ℚ) ^ e ≤ 2 ^ (3 * e) := by
  have hneg : (2 : ℚ) ^ (3 * -e) ≤ 10 ^ (-e) := two_zpow_le_ten_zpow (by omega)
  rw [mul_neg, zpow_neg, zpow_neg] at hneg
  exact (inv_le_inv₀ (by positivity) (by positivity)).1 hneg

/-- Three powers of ten are less than ten powers of two. -/
theorem ten_zpow_le_two_zpow_of_mul_le {e k : Int} (he : 0 ≤ e) (h : 10 * e ≤ 3 * k) :
    (10 : ℚ) ^ e ≤ 2 ^ k := by
  have hcube : ((10 : ℚ) ^ e) ^ 3 ≤ (2 ^ k) ^ 3 := by
    obtain ⟨j, rfl⟩ := Int.eq_ofNat_of_zero_le he
    calc ((10 : ℚ) ^ (j : Int)) ^ 3 = (10 ^ 3) ^ j := by
          rw [zpow_natCast, ← pow_mul, ← pow_mul, mul_comm]
      _ ≤ (2 ^ 10) ^ j := by gcongr; norm_num
      _ = 2 ^ (10 * (j : Int)) := by
          rw [← pow_mul]
          exact_mod_cast rfl
      _ ≤ 2 ^ (k * 3) := zpow_le_zpow_right₀ (by norm_num) (by omega)
      _ = (2 ^ k) ^ 3 := by
          rw [zpow_mul]
          exact_mod_cast rfl
  exact le_of_pow_le_pow_left₀ (by norm_num) (by positivity) hcube

/-- Ten powers of ten are more than thirty-three powers of two. -/
theorem two_zpow_le_ten_zpow_of_mul_le {e k : Int} (he : 0 ≤ e) (h : 10 * k ≤ 33 * e) :
    (2 : ℚ) ^ k ≤ 10 ^ e := by
  have htenth : ((2 : ℚ) ^ k) ^ 10 ≤ (10 ^ e) ^ 10 := by
    obtain ⟨j, rfl⟩ := Int.eq_ofNat_of_zero_le he
    calc ((2 : ℚ) ^ k) ^ 10 = 2 ^ (k * 10) := by
          rw [zpow_mul]
          exact_mod_cast rfl
      _ ≤ 2 ^ (33 * (j : Int)) := zpow_le_zpow_right₀ (by norm_num) (by omega)
      _ = (2 ^ 33) ^ j := by
          rw [← pow_mul]
          exact_mod_cast rfl
      _ ≤ (10 ^ 10) ^ j := by gcongr; norm_num
      _ = ((10 : ℚ) ^ (j : Int)) ^ 10 := by
          rw [zpow_natCast, ← pow_mul, ← pow_mul, mul_comm]
  exact le_of_pow_le_pow_left₀ (by norm_num) (by positivity) htenth

namespace Format

variable {fmt : Format} {rank : Nat} {x : ℚ}

/-- How far it is from a number to the middle below it, in units of the last bit of its significand.
The number below is nearer where the significand is the least one of its exponent. -/
def below (fmt : Format) (rank : Nat) : ℚ :=
  if fmt.significand rank = fmt.unit ∧ fmt.steps rank ≠ 0 then 1 / 4 else 1 / 2

/-- So many units of the last bit of a rank's significand are rounded to the rank. -/
structure Rounds (fmt : Format) (rank : Nat) (x : ℚ) : Prop where
  low : fmt.significand rank - fmt.below rank ≤ x
  high : x ≤ fmt.significand rank + 1 / 2
  tie : fmt.significand rank % 2 = 0 ∨
    (fmt.significand rank - fmt.below rank < x ∧ x < fmt.significand rank + 1 / 2)

theorem le_below (fmt : Format) (rank : Nat) : 1 / 4 ≤ fmt.below rank := by
  unfold below
  split <;> norm_num

theorem below_le (fmt : Format) (rank : Nat) : fmt.below rank ≤ 1 / 2 := by
  unfold below
  split <;> norm_num

theorem one_le_unit (fmt : Format) : (1 : ℚ) ≤ fmt.unit := by exact_mod_cast fmt.unit_pos

theorem add_one_le_of_significand (fmt : Format) (rank : Nat) :
    (fmt.significand rank : ℚ) + 1 ≤ 2 * fmt.unit := by
  exact_mod_cast fmt.significand_lt rank

/-- A rank below infinity has an exponent below that of infinity. -/
theorem exponent_lt (h : rank < fmt.infinity) : fmt.exponent rank < fmt.least + fmt.exponents := by
  have hdiv : rank / fmt.unit < fmt.exponents := (Nat.div_lt_iff_lt_mul fmt.unit_pos).2 h
  have hsteps : fmt.steps rank < fmt.exponents := (Nat.sub_le _ _).trans_lt hdiv
  rw [exponent]
  omega

namespace Rounds

/-- Nothing is rounded to a positive rank that is less than half the least positive number. -/
theorem half_le (h : fmt.Rounds rank x) (hpos : 0 < rank) : 1 / 2 ≤ x := by
  have hm : (1 : ℚ) ≤ fmt.significand rank := by exact_mod_cast significand_pos hpos
  have hbelow := fmt.below_le rank
  have hlow := h.low
  linarith

theorem lt_two_mul_unit (h : fmt.Rounds rank x) : x < 2 * fmt.unit := by
  have hm := fmt.add_one_le_of_significand rank
  have hhigh := h.high
  linarith

/-- What is less than the unit is rounded up to it, and has the exponent below. -/
theorem significand_eq_unit (h : fmt.Rounds rank x) (hsteps : fmt.steps rank ≠ 0)
    (hlt : x < fmt.unit) : fmt.significand rank = fmt.unit := by
  by_contra hne
  have hm : (fmt.unit : ℚ) + 1 ≤ fmt.significand rank := by
    exact_mod_cast lt_of_le_of_ne (unit_le_significand hsteps) (Ne.symm hne)
  have hbelow := fmt.below_le rank
  have hlow := h.low
  linarith

theorem round_eq {n d : Nat} (h : fmt.Rounds rank x) (hpos : 0 < rank) (hrank : rank < fmt.infinity)
    (hd : 0 < d) (hx : (n : ℚ) = x * 2 ^ fmt.exponent rank * d) : fmt.round n d = rank := by
  have hxpos : 0 < x := by linarith [h.half_le hpos]
  have hsum := fmt.steps_add_significand rank
  by_cases hcarry : fmt.steps rank ≠ 0 ∧ x < fmt.unit
  · -- the number is written at the exponent below, with twice as many units
    obtain ⟨hsteps, hlt⟩ := hcarry
    have hm := h.significand_eq_unit hsteps hlt
    have hbelow : fmt.below rank = 1 / 4 := if_pos ⟨hm, hsteps⟩
    have hunit := fmt.one_le_unit
    have hlow := h.low
    rw [hm, hbelow] at hlow
    obtain ⟨k, hk⟩ := Nat.exists_eq_succ_of_ne_zero hsteps
    have hexponent : fmt.exponent rank = 1 + (fmt.least + (k : Int)) := by
      rw [exponent, hk]
      omega
    have hx' : (n : ℚ) = 2 * x * 2 ^ (fmt.least + (k : Int)) * d := by
      rw [hx, hexponent, zpow_one_add₀ (by norm_num)]
      ring
    have htwice : ((2 * fmt.unit : Nat) : ℚ) = 2 * fmt.unit := by push_cast; rfl
    have hround := Format.round_eq (m := 2 * fmt.unit) hd (by linarith) hx'
      (.inr (by linarith)) (by linarith) (by rw [htwice]; linarith) (by rw [htwice]; linarith)
      (.inl (Nat.mul_mod_right 2 _))
    have htotal : k * fmt.unit + 2 * fmt.unit = rank := by
      rw [hk, hm, Nat.succ_mul] at hsum
      omega
    rw [hround, htotal]
    exact min_eq_right hrank.le
  · have hbelow := fmt.below_le rank
    have hlow := h.low
    have hunit : fmt.steps rank = 0 ∨ (fmt.unit : ℚ) ≤ x :=
      or_iff_not_imp_left.2 fun hsteps => not_lt.1 fun hlt => hcarry ⟨hsteps, hlt⟩
    have htie : fmt.significand rank % 2 = 0 ∨
        (fmt.significand rank - 1 / 2 < x ∧ x < fmt.significand rank + 1 / 2) :=
      h.tie.imp_right fun hstrict => ⟨by linarith [hstrict.1], hstrict.2⟩
    have hround := Format.round_eq hd hxpos hx hunit h.lt_two_mul_unit (by linarith) h.high htie
    rw [hround, hsum]
    exact min_eq_right hrank.le

end Rounds

end Format

/-! ### The interval of a rank -/

namespace Interval

variable {fmt : Format} {rank : Nat}

theorem unit_ofRank_pos (fmt : Format) (rank : Nat) : 0 < (ofRank fmt rank).unit :=
  dyadic_snd_pos 1 _

/-- The power of two that the ends of an interval count in quarters. -/
theorem four_mul_scale (fmt : Format) (rank : Nat) :
    4 * ((dyadic 1 (fmt.exponent rank - 2)).1 : ℚ) =
      2 ^ fmt.exponent rank * (ofRank fmt rank).unit := by
  have hscale := dyadic_eq 1 (fmt.exponent rank - 2)
  rw [hscale, zpow_sub₀ (by norm_num), ofRank]
  ring

theorem value_ofRank (fmt : Format) (rank : Nat) :
    ((ofRank fmt rank).value : ℚ) =
      fmt.significand rank * 2 ^ fmt.exponent rank * (ofRank fmt rank).unit := by
  rw [mul_assoc, ← four_mul_scale]
  show ((4 * fmt.significand rank * (dyadic 1 (fmt.exponent rank - 2)).1 : Nat) : ℚ) = _
  push_cast
  ring

theorem high_ofRank (fmt : Format) (rank : Nat) :
    ((ofRank fmt rank).high : ℚ) =
      (fmt.significand rank + 1 / 2) * 2 ^ fmt.exponent rank * (ofRank fmt rank).unit := by
  rw [mul_assoc, ← four_mul_scale]
  show (((4 * fmt.significand rank + 2) * (dyadic 1 (fmt.exponent rank - 2)).1 : Nat) : ℚ) = _
  push_cast
  ring

theorem low_ofRank (hpos : 0 < rank) :
    ((ofRank fmt rank).low : ℚ) =
      (fmt.significand rank - fmt.below rank) * 2 ^ fmt.exponent rank *
        (ofRank fmt rank).unit := by
  have hm : 0 < fmt.significand rank := Format.significand_pos hpos
  rw [mul_assoc, ← four_mul_scale, Format.below]
  show (((4 * fmt.significand rank -
    if fmt.significand rank = fmt.unit ∧ fmt.steps rank ≠ 0 then 1 else 2) *
      (dyadic 1 (fmt.exponent rank - 2)).1 : Nat) : ℚ) = _
  by_cases hnear : fmt.significand rank = fmt.unit ∧ fmt.steps rank ≠ 0
  · rw [if_pos hnear, if_pos hnear, Nat.cast_mul, Nat.cast_sub (by omega)]
    push_cast
    ring
  · rw [if_neg hnear, if_neg hnear, Nat.cast_mul, Nat.cast_sub (by omega)]
    push_cast
    ring

/-- The interval of a rank holds what is rounded to it. -/
theorem contains_ofRank {n d : Nat} {x : ℚ} (hpos : 0 < rank) (hd : 0 < d)
    (hx : (n : ℚ) = x * 2 ^ fmt.exponent rank * d) :
    (ofRank fmt rank).contains n d ↔ fmt.Rounds rank x := by
  have hfactor : (0 : ℚ) < 2 ^ fmt.exponent rank * (ofRank fmt rank).unit * d := by
    have hunit : (0 : ℚ) < (ofRank fmt rank).unit := by exact_mod_cast unit_ofRank_pos fmt rank
    have hd' : (0 : ℚ) < d := by exact_mod_cast hd
    positivity
  have hmiddle : ((n * (ofRank fmt rank).unit : Nat) : ℚ) =
      x * (2 ^ fmt.exponent rank * (ofRank fmt rank).unit * d) := by
    rw [Nat.cast_mul, hx]
    ring
  have hlow : (((ofRank fmt rank).low * d : Nat) : ℚ) =
      (fmt.significand rank - fmt.below rank) *
        (2 ^ fmt.exponent rank * (ofRank fmt rank).unit * d) := by
    rw [Nat.cast_mul, low_ofRank hpos]
    ring
  have hhigh : (((ofRank fmt rank).high * d : Nat) : ℚ) =
      (fmt.significand rank + 1 / 2) *
        (2 ^ fmt.exponent rank * (ofRank fmt rank).unit * d) := by
    rw [Nat.cast_mul, high_ofRank]
    ring
  have hle : ∀ {a b : Nat} {y z : ℚ},
      (a : ℚ) = y * (2 ^ fmt.exponent rank * (ofRank fmt rank).unit * d) →
      (b : ℚ) = z * (2 ^ fmt.exponent rank * (ofRank fmt rank).unit * d) → (a ≤ b ↔ y ≤ z) := by
    intro a b y z ha hb
    rw [← Nat.cast_le (α := ℚ), ha, hb]
    exact mul_le_mul_iff_left₀ hfactor
  have hlt : ∀ {a b : Nat} {y z : ℚ},
      (a : ℚ) = y * (2 ^ fmt.exponent rank * (ofRank fmt rank).unit * d) →
      (b : ℚ) = z * (2 ^ fmt.exponent rank * (ofRank fmt rank).unit * d) → (a < b ↔ y < z) :=
    fun ha hb => by rw [← not_le, ← not_le, hle hb ha]
  have hclosed : (ofRank fmt rank).closed = decide (fmt.significand rank % 2 = 0) := rfl
  rw [contains, hclosed]
  by_cases heven : fmt.significand rank % 2 = 0
  · simp only [heven, decide_true, if_true, Bool.and_eq_true, decide_eq_true_eq,
      hle hlow hmiddle, hle hmiddle hhigh]
    exact ⟨fun ⟨hlow, hhigh⟩ => ⟨hlow, hhigh, .inl heven⟩, fun h => ⟨h.low, h.high⟩⟩
  · simp only [heven, decide_false, Bool.false_eq_true, if_false, Bool.and_eq_true,
      decide_eq_true_eq, hlt hlow hmiddle, hlt hmiddle hhigh]
    constructor
    · exact fun ⟨hlow, hhigh⟩ => ⟨hlow.le, hhigh.le, .inr ⟨hlow, hhigh⟩⟩
    · exact fun h => h.tie.resolve_left heven

end Interval

end KernelGraph.Decimal
