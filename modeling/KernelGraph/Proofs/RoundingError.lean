import KernelGraph.Decimal.Scaling
import KernelGraph.Proofs.Nearest

/-!
How far a number that is read is from its decimal. One rounding to a number with all its bits errs by
half a unit of the last bit (`Format.near_round`), and so do the word, the power of ten and their
product or quotient of which a number of 64 bits is read (`near_scaled`). Numbers of 32 bits are so
much coarser that the one that was meant is still the nearest (`Format.Rounds.of_near`).
-/

namespace KernelGraph.Decimal

/-! ### One rounding -/

theorem roundHalfEven_spec {n d : Nat} (hd : 0 < d) :
    2 * (roundHalfEven n d * d) ≤ 2 * n + d ∧ 2 * n ≤ 2 * (roundHalfEven n d * d) + d := by
  have hround : roundHalfEven n d = if 2 * (n % d) < d then n / d
      else if d < 2 * (n % d) then n / d + 1 else n / d + n / d % 2 := rfl
  have hmod := Nat.mod_lt n hd
  have hdiv := Nat.div_add_mod' n d
  rw [hround]
  generalize n / d = quotient at hdiv ⊢
  generalize n % d = rest at hmod hdiv ⊢
  have hnext : (quotient + 1) * d = quotient * d + d := Nat.succ_mul quotient d
  split
  · omega
  · split
    · omega
    · rcases Nat.mod_two_eq_zero_or_one quotient with heven | hodd
      · rw [heven, Nat.add_zero]
        omega
      · rw [hodd]
        omega

/-- A quotient that is rounded to so many units of a power of two errs by half a unit. -/
theorem abs_roundHalfEven_sub_le (n : Nat) {d : Nat} (hd : 0 < d) (e : Int) :
    |(roundHalfEven (n * (dyadic d e).2) (dyadic d e).1 * 2 ^ e - n / d : ℚ)| ≤ 1 / 2 * 2 ^ e := by
  have hscale := dyadic_eq d e
  have hone : (0 : ℚ) < (dyadic d e).2 := by exact_mod_cast dyadic_snd_pos d e
  generalize (dyadic d e).1 = scale at hscale ⊢
  generalize (dyadic d e).2 = one at hscale hone ⊢
  have hd' : (0 : ℚ) < d := by exact_mod_cast hd
  have hscalePos : (0 : ℚ) < scale := by
    rw [hscale]
    positivity
  obtain ⟨hlow, hhigh⟩ := roundHalfEven_spec (n := n * one) (by exact_mod_cast hscalePos)
  generalize roundHalfEven (n * one) scale = m at hlow hhigh ⊢
  have hlow' : (2 * (m * scale) : ℚ) ≤ 2 * (n * one) + scale := by exact_mod_cast hlow
  have hhigh' : (2 * (n * one) : ℚ) ≤ 2 * (m * scale) + scale := by exact_mod_cast hhigh
  have hvalue : (n * one : ℚ) = n / d * (d * one) := by field_simp
  rw [hscale, hvalue] at hlow' hhigh'
  have hfactor : (0 : ℚ) < d * one := by positivity
  rw [abs_le]
  constructor
  · refine le_of_mul_le_mul_right ?_ hfactor
    linarith
  · refine le_of_mul_le_mul_right ?_ hfactor
    linarith

section

variable {m units : Nat} {e : Int} {x : ℚ}

/-- Whole units are kept by rounding, from below and from above. -/
theorem le_of_abs_sub_le (h : |m * 2 ^ e - x| ≤ 1 / 2 * 2 ^ e) (hx : units * 2 ^ e ≤ x) :
    units ≤ m := by
  have hpow : (0 : ℚ) < 2 ^ e := by positivity
  have hlt : (units : ℚ) < m + 1 := by
    refine lt_of_mul_lt_mul_right ?_ hpow.le
    linarith [(abs_le.1 h).1]
  exact Nat.le_of_lt_succ (by exact_mod_cast hlt)

theorem ge_of_abs_sub_le (h : |m * 2 ^ e - x| ≤ 1 / 2 * 2 ^ e) (hx : x ≤ units * 2 ^ e) :
    m ≤ units := by
  have hpow : (0 : ℚ) < 2 ^ e := by positivity
  have hlt : (m : ℚ) < units + 1 := by
    refine lt_of_mul_lt_mul_right ?_ hpow.le
    linarith [(abs_le.1 h).2]
  exact Nat.le_of_lt_succ (by exact_mod_cast hlt)

end

namespace Format

variable {fmt : Format}

/-- The value of a significand, which may have run over, at the rank that rounding gives it. -/
theorem value_steps_add {steps m : Nat} (hlow : steps = 0 ∨ fmt.unit ≤ m)
    (hhigh : m ≤ 2 * fmt.unit) :
    fmt.value (steps * fmt.unit + m) = m * 2 ^ (fmt.least + steps) := by
  rcases Nat.lt_or_ge m fmt.unit with hless | hunit
  · obtain rfl : steps = 0 := hlow.resolve_right (Nat.not_le.2 hless)
    have hsteps : fmt.steps m = 0 := by
      rw [Format.steps, Nat.div_eq_of_lt hless]
    rw [Nat.zero_mul, Nat.zero_add, value, significand, exponent, hsteps, Nat.zero_mul, Nat.sub_zero]
  rcases Nat.lt_or_ge m (2 * fmt.unit) with hlt | hge
  · exact value_add hunit hlt
  · obtain rfl : m = 2 * fmt.unit := Nat.le_antisymm hhigh hge
    have hcarry : steps * fmt.unit + 2 * fmt.unit = (steps + 1) * fmt.unit + fmt.unit := by ring
    have hexponent : fmt.least + ((steps + 1 : Nat) : Int) = 1 + (fmt.least + steps) := by omega
    rw [hcarry, value_add le_rfl (by have := fmt.unit_pos; omega), hexponent,
      zpow_one_add₀ (by norm_num)]
    push_cast
    ring

/-- What a quotient is rounded to if it is not too large: so many units of the exponent at which it
has all bits of a significand, or of the least exponent. -/
theorem exists_round_eq (fmt : Format) {n d : Nat} (hn : 0 < n) (hd : 0 < d) : ∃ steps m : Nat,
    fmt.least + steps = max fmt.least (floorLog2 n d - (fmt.precision - 1 : Nat)) ∧
      fmt.round n d = min fmt.infinity (steps * fmt.unit + m) ∧
      (steps = 0 ∨ fmt.unit ≤ m) ∧ m ≤ 2 * fmt.unit ∧
      |(m * 2 ^ (fmt.least + steps) - n / d : ℚ)| ≤ 1 / 2 * 2 ^ (fmt.least + (steps : Int)) := by
  have hd' : (0 : ℚ) < d := by exact_mod_cast hd
  obtain ⟨hfloor, hceil⟩ := floorLog2_spec hn hd
  rw [← le_div_iff₀ hd'] at hfloor
  rw [← div_lt_iff₀ hd'] at hceil
  generalize hk : floorLog2 n d = k at hfloor hceil
  obtain ⟨steps, hsteps⟩ := Int.eq_ofNat_of_zero_le
    (show 0 ≤ max fmt.least (k - (fmt.precision - 1 : Nat)) - fmt.least by omega)
  have hexponent : fmt.least + (steps : Int) = max fmt.least (k - (fmt.precision - 1 : Nat)) := by
    omega
  have hround : fmt.round n d = min fmt.infinity (steps * fmt.unit +
      roundHalfEven (n * (dyadic d (fmt.least + steps)).2) (dyadic d (fmt.least + steps)).1) := by
    rw [round, if_neg hn.ne']
    dsimp only
    rw [hk, ← hexponent]
    congr 3
    omega
  have herror := abs_roundHalfEven_sub_le n hd (fmt.least + steps)
  refine ⟨steps, _, hexponent, hround, or_iff_not_imp_left.2 fun hne => ?_, ?_, herror⟩
  · -- above the least exponent the quotient has all bits
    refine le_of_abs_sub_le herror ?_
    rw [unit_eq, ← zpow_add₀ (by norm_num)]
    refine le_of_eq_of_le ?_ hfloor
    congr 1
    omega
  · refine ge_of_abs_sub_le herror ?_
    push_cast
    rw [unit_eq, ← zpow_one_add₀ (by norm_num), ← zpow_add₀ (by norm_num)]
    exact hceil.le.trans (zpow_le_zpow_right₀ (by norm_num) (by omega))

end Format

/-! ### Relative errors -/

/-- A number is so near to another, relative to that one. -/
def Near (error y x : ℚ) : Prop := |y - x| ≤ error * x

namespace Near

variable {u v a b x y z : ℚ}

theorem mono (h : Near u y x) (hx : 0 ≤ x) (huv : u ≤ v) : Near v y x :=
  h.trans (mul_le_mul_of_nonneg_right huv hx)

theorem le (h : Near u y x) : y ≤ (1 + u) * x := by
  have hhigh := (abs_le.1 h).2
  linarith

theorem ge (h : Near u y x) : (1 - u) * x ≤ y := by
  have hlow := (abs_le.1 h).1
  linarith

theorem pos (h : Near u y x) (hx : 0 < x) (hu : u < 1) : 0 < y :=
  (mul_pos (by linarith) hx).trans_le h.ge

theorem trans (h : Near u y x) (h' : Near v z y) (hv : 0 ≤ v) :
    Near (u + v * (1 + u)) z x := by
  have hmiddle : v * y ≤ v * ((1 + u) * x) := mul_le_mul_of_nonneg_left h.le hv
  calc |z - x| ≤ |z - y| + |y - x| := abs_sub_le z y x
    _ ≤ v * y + u * x := add_le_add h' h
    _ ≤ (u + v * (1 + u)) * x := by linarith

theorem mul (h : Near u a x) (h' : Near v b y) (ha : 0 ≤ a) (hy : 0 ≤ y) :
    Near (u + v * (1 + u)) (a * b) (x * y) := by
  have hleft : |a * (b - y)| ≤ (1 + u) * x * (v * y) := by
    rw [abs_mul, abs_of_nonneg ha]
    exact mul_le_mul h.le h' (abs_nonneg _) (ha.trans h.le)
  have hright : |(a - x) * y| ≤ u * x * y := by
    rw [abs_mul, abs_of_nonneg hy]
    exact mul_le_mul_of_nonneg_right h hy
  calc |a * b - x * y| = |a * (b - y) + (a - x) * y| := by ring_nf
    _ ≤ |a * (b - y)| + |(a - x) * y| := abs_add_le _ _
    _ ≤ (1 + u) * x * (v * y) + u * x * y := add_le_add hleft hright
    _ = (u + v * (1 + u)) * (x * y) := by ring

/-- A divisor that is near to another has an inverse that is near to the other's. -/
theorem inv (h : Near v b y) (hy : 0 < y) (hv : v ≤ 1 / 2) : Near (2 * v) b⁻¹ y⁻¹ := by
  have hb : 0 < b := h.pos hy (by linarith)
  have hhalf : y ≤ 2 * b := by
    have hmul : 1 / 2 * y ≤ (1 - v) * y := mul_le_mul_of_nonneg_right (by linarith) hy.le
    linarith [h.ge]
  have hdiff : b⁻¹ - y⁻¹ = -(b - y) / (b * y) := by field_simp; ring
  rw [Near, hdiff, abs_div, abs_neg, abs_of_pos (mul_pos hb hy), div_le_iff₀ (mul_pos hb hy)]
  have hv' : 0 ≤ v := by
    have hnonneg := (abs_nonneg (b - y)).trans h
    exact nonneg_of_mul_nonneg_left hnonneg hy
  calc |b - y| ≤ v * y := h
    _ ≤ v * (2 * b) := mul_le_mul_of_nonneg_left hhalf hv'
    _ = 2 * v * y⁻¹ * (b * y) := by field_simp

end Near

namespace Format

variable {fmt : Format} {rank : Nat} {x y : ℚ}

/-- Half a unit of the last of all bits, relative to the least significand that has them. -/
def halfUnit (fmt : Format) : ℚ := 1 / (2 * fmt.unit)

/-- The numbers that have all bits in a format, and after which the format goes on. -/
structure Normal (fmt : Format) (x : ℚ) : Prop where
  low : 2 ^ (fmt.least + (fmt.precision - 1 : Nat)) ≤ x
  high : x < 2 ^ (fmt.least + (fmt.precision - 1 : Nat) + (fmt.exponents - 2))

theorem Normal.pos (h : fmt.Normal x) : 0 < x := lt_of_lt_of_le (by positivity) h.low

/-- A number that has all bits is rounded to one that is near. -/
theorem near_round {n d : Nat} (hd : 0 < d) (h : fmt.Normal (n / d)) :
    fmt.round n d < fmt.infinity ∧ Near fmt.halfUnit (fmt.value (fmt.round n d)) (n / d) := by
  have hd' : (0 : ℚ) < d := by exact_mod_cast hd
  have hn : 0 < n := by
    have hpos : (0 : ℚ) < n := by
      have hmul := mul_pos h.pos hd'
      rwa [div_mul_cancel₀ _ hd'.ne'] at hmul
    exact_mod_cast hpos
  obtain ⟨hfloor, hceil⟩ := floorLog2_spec hn hd
  rw [← le_div_iff₀ hd'] at hfloor
  rw [← div_lt_iff₀ hd'] at hceil
  have hlow := (zpow_lt_zpow_iff_right₀ (by norm_num : (1 : ℚ) < 2)).1 (h.low.trans_lt hceil)
  have hhigh := (zpow_lt_zpow_iff_right₀ (by norm_num : (1 : ℚ) < 2)).1 (hfloor.trans_lt h.high)
  obtain ⟨steps, m, hsteps, hround, hunit, hm, herror⟩ := fmt.exists_round_eq hn hd
  have hexponent : fmt.least + (steps : Int) = floorLog2 n d - (fmt.precision - 1 : Nat) := by
    omega
  have hlt : steps * fmt.unit + m < fmt.infinity := by
    have hmul : (steps + 3) * fmt.unit ≤ fmt.exponents * fmt.unit :=
      Nat.mul_le_mul_right _ (by omega)
    have hpos := fmt.unit_pos
    rw [Nat.add_mul] at hmul
    rw [infinity]
    omega
  rw [hround, min_eq_right hlt.le]
  refine ⟨hlt, ?_⟩
  rw [value_steps_add hunit hm]
  have hunitPos : (0 : ℚ) < fmt.unit := by exact_mod_cast fmt.unit_pos
  have hall : (fmt.unit * 2 ^ (fmt.least + (steps : Int)) : ℚ) ≤ n / d := by
    rw [hexponent, unit_eq, ← zpow_add₀ (by norm_num), add_sub_cancel]
    exact hfloor
  calc |(m * 2 ^ (fmt.least + steps) - n / d : ℚ)|
      ≤ 1 / 2 * 2 ^ (fmt.least + (steps : Int)) := herror
    _ = fmt.halfUnit * (fmt.unit * 2 ^ (fmt.least + (steps : Int))) := by
        rw [halfUnit]
        field_simp
    _ ≤ fmt.halfUnit * (n / d) := by
        rw [halfUnit]
        gcongr

/-! ### Products and quotients -/

theorem value_nonneg (fmt : Format) (rank : Nat) : 0 ≤ fmt.value rank := by
  rw [value]
  positivity

theorem value_pos_iff : 0 < fmt.value rank ↔ 0 < rank := by
  constructor
  · refine fun h => Nat.pos_of_ne_zero fun hzero => ?_
    rw [hzero] at h
    simp [value, significand] at h
  · intro h
    have hm : (0 : ℚ) < fmt.significand rank := by exact_mod_cast significand_pos h
    rw [value]
    positivity

theorem near_product {a b : Nat} (h : fmt.Normal (fmt.value a * fmt.value b)) :
    fmt.product a b < fmt.infinity ∧
      Near fmt.halfUnit (fmt.value (fmt.product a b)) (fmt.value a * fmt.value b) := by
  have hvalue := dyadic_eq (fmt.significand a * fmt.significand b) (fmt.exponent a + fmt.exponent b)
  have hd := dyadic_snd_pos (fmt.significand a * fmt.significand b)
    (fmt.exponent a + fmt.exponent b)
  have hround : fmt.product a b =
      fmt.round (dyadic (fmt.significand a * fmt.significand b)
        (fmt.exponent a + fmt.exponent b)).1 (dyadic (fmt.significand a * fmt.significand b)
        (fmt.exponent a + fmt.exponent b)).2 := rfl
  rw [hround]
  generalize dyadic _ _ = ratio at hvalue hd
  have hd' : (0 : ℚ) < ratio.2 := by exact_mod_cast hd
  have hquotient : fmt.value a * fmt.value b = ratio.1 / ratio.2 := by
    rw [eq_div_iff hd'.ne', hvalue, value, value, zpow_add₀ (by norm_num)]
    push_cast
    ring
  rw [hquotient] at h ⊢
  exact near_round hd h

theorem near_quotient {a b : Nat} (hb : 0 < b) (h : fmt.Normal (fmt.value a * (fmt.value b)⁻¹)) :
    fmt.quotient a b < fmt.infinity ∧
      Near fmt.halfUnit (fmt.value (fmt.quotient a b)) (fmt.value a * (fmt.value b)⁻¹) := by
  have hvalue := dyadic_eq (fmt.significand a) (fmt.exponent a - fmt.exponent b)
  have hd := dyadic_snd_pos (fmt.significand a) (fmt.exponent a - fmt.exponent b)
  have hround : fmt.quotient a b =
      fmt.round (dyadic (fmt.significand a) (fmt.exponent a - fmt.exponent b)).1
        ((dyadic (fmt.significand a) (fmt.exponent a - fmt.exponent b)).2 *
          fmt.significand b) := rfl
  rw [hround]
  generalize dyadic _ _ = ratio at hvalue hd
  have hb' : (0 : ℚ) < fmt.significand b := by exact_mod_cast significand_pos hb
  have hd' : (0 : ℚ) < ratio.2 := by exact_mod_cast hd
  have hquotient : fmt.value a * (fmt.value b)⁻¹ =
      ratio.1 / ((ratio.2 * fmt.significand b : Nat) : ℚ) := by
    rw [Nat.cast_mul, hvalue, value, value, zpow_sub₀ (by norm_num)]
    field_simp
  rw [hquotient] at h ⊢
  exact near_round (Nat.mul_pos hd (significand_pos hb)) h

/-! ### Numbers that are meant -/

/-- What is rounded to a rank that has all bits is near to its value. -/
theorem Rounds.near (h : fmt.Rounds rank x) (hunit : fmt.unit ≤ fmt.significand rank) :
    Near fmt.halfUnit (x * 2 ^ fmt.exponent rank) (fmt.value rank) := by
  have hunitPos : (0 : ℚ) < fmt.unit := by exact_mod_cast fmt.unit_pos
  have hunit' : (fmt.unit : ℚ) ≤ fmt.significand rank := by exact_mod_cast hunit
  have hpow : (0 : ℚ) < 2 ^ fmt.exponent rank := by positivity
  have hhalf : |x - fmt.significand rank| ≤ 1 / 2 := by
    have hbelow := fmt.below_le rank
    have hlow := h.low
    have hhigh := h.high
    exact abs_le.2 ⟨by linarith, by linarith⟩
  calc |x * 2 ^ fmt.exponent rank - fmt.value rank|
      = |x - fmt.significand rank| * 2 ^ fmt.exponent rank := by
        rw [value, ← sub_mul, abs_mul, abs_of_pos hpow]
    _ ≤ fmt.halfUnit * fmt.unit * 2 ^ fmt.exponent rank := by
        refine mul_le_mul_of_nonneg_right (hhalf.trans_eq ?_) hpow.le
        rw [halfUnit]
        field_simp
    _ ≤ fmt.halfUnit * fmt.value rank := by
        rw [mul_assoc, value]
        refine mul_le_mul_of_nonneg_left (mul_le_mul_of_nonneg_right hunit' hpow.le) ?_
        rw [halfUnit]
        positivity

/-- What is near enough to a number is rounded to it. -/
theorem Rounds.of_near {error : ℚ} (h : Near error y (fmt.value rank))
    (herror : 8 * fmt.unit * error < 1) : fmt.Rounds rank (y / 2 ^ fmt.exponent rank) := by
  have hpow : (0 : ℚ) < 2 ^ fmt.exponent rank := by positivity
  have hm := fmt.add_one_le_of_significand rank
  have hm' : (0 : ℚ) ≤ fmt.significand rank := Nat.cast_nonneg _
  have hdiff : |y / 2 ^ fmt.exponent rank - fmt.significand rank| ≤
      error * fmt.significand rank := by
    have hvalue : y / 2 ^ fmt.exponent rank - fmt.significand rank =
        (y - fmt.value rank) / 2 ^ fmt.exponent rank := by
      rw [value]
      field_simp
    rw [hvalue, abs_div, abs_of_pos hpow, div_le_iff₀ hpow, mul_assoc]
    exact h
  have hquarter : error * fmt.significand rank < 1 / 4 := by
    rcases le_or_gt error 0 with hneg | hpositive
    · exact (mul_nonpos_of_nonpos_of_nonneg hneg hm').trans_lt (by norm_num)
    · calc error * fmt.significand rank ≤ error * (2 * fmt.unit) := by gcongr; linarith
        _ < 1 / 4 := by linarith
  obtain ⟨hlow, hhigh⟩ := abs_lt.1 (hdiff.trans_lt hquarter)
  have hbelow := fmt.le_below rank
  exact ⟨by linarith, by linarith, .inr ⟨by linarith, by linarith⟩⟩

end Format

/-! ### Decimals that are read -/

namespace Format

theorem halfUnit_double : double.halfUnit = 1 / 2 ^ 53 := by
  have hunit : (double.unit : ℚ) = 2 ^ 52 := by exact_mod_cast rfl
  rw [halfUnit, hunit]
  norm_num

theorem normal_double {x : ℚ} (hlow : 1 / 2 ^ 250 ≤ x) (hhigh : x ≤ 2 ^ 250) : double.Normal x := by
  constructor
  · calc (2 : ℚ) ^ (-1022 : Int) ≤ 2 ^ (-250 : Int) := zpow_le_zpow_right₀ (by norm_num) (by norm_num)
      _ = 1 / 2 ^ 250 := by rw [zpow_neg, one_div]; rfl
      _ ≤ x := hlow
  · calc x ≤ 2 ^ 250 := hhigh
      _ = 2 ^ (250 : Int) := rfl
      _ < 2 ^ (1023 : Int) := zpow_lt_zpow_right₀ (by norm_num) (by norm_num)

/-- A number that is near to a moderate one has all bits, too. -/
theorem normal_double_of_near {error x y : ℚ} (h : Near error y x) (herror : error ≤ 1 / 2)
    (hlow : 1 / 2 ^ 150 ≤ x) (hhigh : x ≤ 2 ^ 150) : double.Normal y := by
  have hx : 0 ≤ x := le_trans (by positivity) hlow
  have hbelow : 1 / 2 * x ≤ (1 - error) * x := mul_le_mul_of_nonneg_right (by linarith) hx
  have habove : (1 + error) * x ≤ 2 * x := mul_le_mul_of_nonneg_right (by linarith) hx
  refine normal_double ?_ ?_
  · calc (1 / 2 ^ 250 : ℚ) ≤ 1 / 2 * (1 / 2 ^ 150) := by norm_num
      _ ≤ 1 / 2 * x := by gcongr
      _ ≤ y := hbelow.trans h.ge
  · calc y ≤ 2 * x := h.le.trans habove
      _ ≤ 2 * 2 ^ 150 := by gcongr
      _ ≤ 2 ^ 250 := by norm_num

end Format

open Format

/-- A natural number that is not too large is near to its own rounding. -/
theorem near_round_natCast {n : Nat} (hpos : 0 < n) (hn : (n : ℚ) ≤ 2 ^ 250) :
    Near double.halfUnit (double.value (double.round n 1)) n := by
  have hone : (1 : ℚ) ≤ n := by exact_mod_cast hpos
  have hnormal : double.Normal (n / (1 : Nat)) := by
    rw [Nat.cast_one, div_one]
    exact normal_double (le_trans (by norm_num) hone) hn
  have hnear := (near_round Nat.one_pos hnormal).2
  rwa [Nat.cast_one, div_one] at hnear

theorem near_tenPower {k : Nat} (hk : k ≤ 75) :
    Near double.halfUnit (double.value (tenPower k)) (10 ^ k) := by
  have hcast : ((10 ^ k : Nat) : ℚ) = 10 ^ k := by push_cast; rfl
  have hle : ((10 ^ k : Nat) : ℚ) ≤ 2 ^ 250 :=
    calc ((10 ^ k : Nat) : ℚ) = 10 ^ k := hcast
      _ ≤ 10 ^ 75 := pow_le_pow_right₀ (by norm_num) hk
      _ ≤ 2 ^ 250 := by norm_num
  rw [← hcast]
  exact near_round_natCast (Nat.pow_pos (by decide)) hle

/-- The power of ten of a moderate decimal is a moderate one. -/
theorem abs_le_of_decimal {word : Nat} {e : Int} (hpos : 0 < word) (hword : word < UInt64.size)
    (hlow : 1 / 2 ^ 150 ≤ (word * 10 ^ e : ℚ)) (hhigh : (word * 10 ^ e : ℚ) ≤ 2 ^ 150) :
    -75 ≤ e ∧ e ≤ 75 := by
  have hone : (1 : ℚ) ≤ word := by exact_mod_cast hpos
  have hsize : (word : ℚ) ≤ 2 ^ 64 := by exact_mod_cast hword.le
  have hten : (0 : ℚ) < 10 ^ e := by positivity
  constructor
  · by_contra hlt
    have hsmall : (word * 10 ^ e : ℚ) ≤ 2 ^ (-164 : Int) :=
      calc (word * 10 ^ e : ℚ) ≤ 2 ^ (64 : Int) * 2 ^ (3 * e) :=
            mul_le_mul hsize (ten_zpow_le_two_zpow (by omega)) hten.le (by positivity)
        _ = 2 ^ (64 + 3 * e) := (zpow_add₀ (by norm_num) _ _).symm
        _ ≤ 2 ^ (-164 : Int) := zpow_le_zpow_right₀ (by norm_num) (by omega)
    exact absurd (hlow.trans hsmall) (by norm_num)
  · by_contra hlt
    have hlarge : (2 : ℚ) ^ (228 : Int) ≤ word * 10 ^ e :=
      calc (2 : ℚ) ^ (228 : Int) ≤ 2 ^ (3 * e) := zpow_le_zpow_right₀ (by norm_num) (by omega)
        _ ≤ 10 ^ e := two_zpow_le_ten_zpow (by omega)
        _ ≤ word * 10 ^ e := le_mul_of_one_le_left hten.le hone
    exact absurd (hlarge.trans hhigh) (by norm_num)

/-- The last rounding leaves a number near to a moderate one. -/
theorem near_of_round {rank : Nat} {x y : ℚ} (h : Near (1 / 2 ^ 50) y x)
    (hlow : 1 / 2 ^ 150 ≤ x) (hhigh : x ≤ 2 ^ 150)
    (hround : double.Normal y → rank < double.infinity ∧
      Near double.halfUnit (double.value rank) y) :
    rank < double.infinity ∧ Near (1 / 2 ^ 48) (double.value rank) x := by
  have hx : 0 ≤ x := le_trans (by positivity) hlow
  obtain ⟨hfinite, hlast⟩ := hround (normal_double_of_near h (by norm_num) hlow hhigh)
  rw [halfUnit_double] at hlast
  exact ⟨hfinite, (h.trans hlast (by norm_num)).mono hx (by norm_num)⟩

/-- A word with a power of ten that make a moderate decimal are read as a number that is near. -/
theorem near_scaled {word : Nat} {e : Int} (hpos : 0 < word) (hword : word < UInt64.size)
    (hlow : 1 / 2 ^ 150 ≤ (word * 10 ^ e : ℚ)) (hhigh : (word * 10 ^ e : ℚ) ≤ 2 ^ 150) :
    scaled word e < double.infinity ∧
      Near (1 / 2 ^ 48) (double.value (scaled word e)) (word * 10 ^ e) := by
  have hsize : (word : ℚ) ≤ 2 ^ 64 := by exact_mod_cast hword.le
  have hx : Near double.halfUnit (double.value (double.round word 1)) word :=
    near_round_natCast hpos (hsize.trans (by norm_num))
  obtain ⟨hleast, hmost⟩ := abs_le_of_decimal hpos hword hlow hhigh
  have hmax : (maxPower : Int) = 308 := rfl
  rw [halfUnit_double] at hx
  rw [scaled]
  dsimp only
  rw [if_neg hpos.ne', if_neg (by omega)]
  generalize double.round word 1 = x at hx ⊢
  by_cases he : 0 ≤ e
  · obtain ⟨k, rfl⟩ := Int.eq_ofNat_of_zero_le he
    rw [zpow_natCast] at hlow hhigh
    rw [if_pos he, Int.toNat_natCast, zpow_natCast]
    have hp := near_tenPower (show k ≤ 75 by omega)
    rw [halfUnit_double] at hp
    have hproduct := hx.mul hp (double.value_nonneg x) (by positivity)
    exact near_of_round (hproduct.mono (by positivity) (by norm_num)) hlow hhigh near_product
  · obtain ⟨k, hk⟩ := Int.eq_ofNat_of_zero_le (show 0 ≤ -e by omega)
    obtain rfl : e = -(k : Int) := by omega
    rw [zpow_neg, zpow_natCast] at hlow hhigh
    rw [if_neg he, if_pos (by omega), neg_neg, Int.toNat_natCast, zpow_neg, zpow_natCast]
    have hten : (0 : ℚ) < 10 ^ k := by positivity
    have hp := near_tenPower (show k ≤ 75 by omega)
    rw [halfUnit_double] at hp
    have hdivisor : 0 < tenPower k := value_pos_iff.1 (hp.pos hten (by norm_num))
    have hquotient := hx.mul (hp.inv hten (by norm_num)) (double.value_nonneg x) (by positivity)
    exact near_of_round (hquotient.mono (by positivity) (by norm_num)) hlow hhigh
      (near_quotient hdivisor)

/-- A number of 64 bits that is near enough to one of 32 bits is narrowed to it. -/
theorem Binary.narrow_of_near {rank wide : Nat} (hpos : 0 < rank) (hrank : rank < single.infinity)
    (hwide : wide < double.infinity) {error : ℚ}
    (h : Near error (double.value wide) (single.value rank)) (herror : 8 * single.unit * error < 1)
    (negative : Bool) : (ofRank negative wide : Double).narrow = ofRank negative rank := by
  have hvalue := dyadic_eq (double.significand wide) (double.exponent wide)
  have hpow : (2 : ℚ) ^ single.exponent rank ≠ 0 := by positivity
  rw [← Format.value] at hvalue
  rw [ofRank_of_lt hwide, narrow, convert, if_neg hwide.ne]
  refine congrArg (ofRank negative)
    ((Rounds.of_near h herror).round_eq hpos hrank (dyadic_snd_pos _ _) ?_)
  rw [div_mul_cancel₀ _ hpow]
  exact hvalue

end KernelGraph.Decimal
