import KernelGraph.Proofs.Nearest

/-!
The shortest digits of a positive number of 64 bits. What is found on a grid of powers of ten is
rounded to the number (`Interval.rounds_of_hit?`), and something is found on the last grid that is
looked at, which is finer than the interval is wide (`Format.finest_le`). So the search never
gives up, and as it stops at the first grid on which something is found, the digits fit into a word
(`shortest_spec`).
-/

namespace KernelGraph.Decimal

/-! ### What is found on a grid -/

/-- A power of ten as a numerator and a denominator. -/
def decadic (g : Int) : Nat × Nat :=
  (if 0 ≤ g then Nat.pow 10 g.toNat else 1, if 0 ≤ g then 1 else Nat.pow 10 (-g).toNat)

theorem decadic_pos (g : Int) : 0 < (decadic g).1 ∧ 0 < (decadic g).2 := by
  unfold decadic
  by_cases h : 0 ≤ g
  · rw [if_pos h, if_pos h]
    exact ⟨Nat.pow_pos (by decide), Nat.one_pos⟩
  · rw [if_neg h, if_neg h]
    exact ⟨Nat.one_pos, Nat.pow_pos (by decide)⟩

theorem decadic_eq (g : Int) : ((decadic g).1 : ℚ) = 10 ^ g * (decadic g).2 := by
  unfold decadic
  by_cases h : 0 ≤ g
  · rw [if_pos h, if_pos h]
    obtain ⟨k, rfl⟩ := Int.eq_ofNat_of_zero_le h
    simp
  · rw [if_neg h, if_neg h]
    obtain ⟨k, hk⟩ := Int.eq_ofNat_of_zero_le (show 0 ≤ -g by omega)
    have hg : g = -(k : Int) := by omega
    have hten : ((10 : ℚ) ^ k) ≠ 0 := by positivity
    rw [hk, hg]
    simp [zpow_neg, hten]

namespace Interval

variable {i : Interval} {tie : Tie} {g : Int} {n : Nat}

/-- The multiple of a power of ten that the value of an interval reaches. -/
def floor (i : Interval) (g : Int) : Nat := i.value * (decadic g).2 / ((decadic g).1 * i.unit)

/-- Which of the two neighbours of the value is found. -/
theorem hit?_eq (tie : Tie) (i : Interval) (g : Int) : i.hit? tie g =
    match i.contains (i.floor g * (decadic g).1) (decadic g).2,
      i.contains ((i.floor g + 1) * (decadic g).1) (decadic g).2 with
    | false, false => none
    | true, false => some (i.floor g)
    | false, true => some (i.floor g + 1)
    | true, true =>
      if 2 * (i.value * (decadic g).2 % ((decadic g).1 * i.unit)) < (decadic g).1 * i.unit then
        some (i.floor g)
      else if (decadic g).1 * i.unit <
          2 * (i.value * (decadic g).2 % ((decadic g).1 * i.unit)) then some (i.floor g + 1)
      else match tie with
        | .even => some (i.floor g + i.floor g % 2)
        | .up => some (i.floor g + 1) := rfl

/-- What is found lies in the interval. -/
theorem contains_of_hit? (h : i.hit? tie g = some n) :
    i.contains (n * (decadic g).1) (decadic g).2 := by
  rw [hit?_eq] at h
  split at h
  · cases h
  · rename_i hbelow _
    cases h
    exact hbelow
  · rename_i _ habove
    cases h
    exact habove
  · rename_i hbelow habove
    have hboth : n = i.floor g ∨ n = i.floor g + 1 := by
      split at h
      · exact .inl (Option.some.inj h).symm
      · split at h
        · exact .inr (Option.some.inj h).symm
        · cases tie with
          | even =>
              have heven : i.floor g + i.floor g % 2 = n := Option.some.inj h
              omega
          | up => exact .inr (Option.some.inj h).symm
    rcases hboth with rfl | rfl
    · exact hbelow
    · exact habove

theorem exists_hit?_of_contains (tie : Tie)
    (h : i.contains (i.floor g * (decadic g).1) (decadic g).2) : ∃ n, i.hit? tie g = some n := by
  rw [hit?_eq]
  split
  · rename_i hbelow _
    exact absurd (h.symm.trans hbelow) nofun
  · exact ⟨_, rfl⟩
  · exact ⟨_, rfl⟩
  · split
    · exact ⟨_, rfl⟩
    · split
      · exact ⟨_, rfl⟩
      · cases tie <;> exact ⟨_, rfl⟩

variable {fmt : Format} {rank : Nat}

/-- A multiple of a power of ten, over the denominator of the power. -/
theorem multiple_eq (fmt : Format) (rank n : Nat) (g : Int) : ((n * (decadic g).1 : Nat) : ℚ) =
    n * 10 ^ g / 2 ^ fmt.exponent rank * 2 ^ fmt.exponent rank * (decadic g).2 := by
  have hpow : (2 : ℚ) ^ fmt.exponent rank ≠ 0 := by positivity
  rw [Nat.cast_mul, decadic_eq, div_mul_cancel₀ _ hpow, mul_assoc]

/-- What is found for a rank is rounded to it. -/
theorem rounds_of_hit? (hpos : 0 < rank) (h : (ofRank fmt rank).hit? tie g = some n) :
    fmt.Rounds rank (n * 10 ^ g / 2 ^ fmt.exponent rank) :=
  (contains_ofRank hpos (decadic_pos g).2 (multiple_eq fmt rank n g)).1 (contains_of_hit? h)

/-- The multiple reaches the value, and the next one passes it. -/
theorem floor_spec (fmt : Format) (rank : Nat) (g : Int) :
    (ofRank fmt rank).floor g * 10 ^ g ≤ (fmt.significand rank * 2 ^ fmt.exponent rank : ℚ) ∧
      (fmt.significand rank * 2 ^ fmt.exponent rank : ℚ) <
        ((ofRank fmt rank).floor g + 1) * 10 ^ g := by
  have hunit : 0 < (ofRank fmt rank).unit := unit_ofRank_pos fmt rank
  have hstep : 0 < (decadic g).1 * (ofRank fmt rank).unit :=
    Nat.mul_pos (decadic_pos g).1 hunit
  have hfactor : (0 : ℚ) < (decadic g).2 * (ofRank fmt rank).unit := by
    exact_mod_cast Nat.mul_pos (decadic_pos g).2 hunit
  have hlow : (ofRank fmt rank).floor g * ((decadic g).1 * (ofRank fmt rank).unit) ≤
      (ofRank fmt rank).value * (decadic g).2 := Nat.div_mul_le_self _ _
  have hhigh : (ofRank fmt rank).value * (decadic g).2 <
      ((ofRank fmt rank).floor g + 1) * ((decadic g).1 * (ofRank fmt rank).unit) := by
    rw [Nat.succ_mul]
    exact Nat.lt_div_mul_add hstep
  constructor
  · have h : (((ofRank fmt rank).floor g * ((decadic g).1 * (ofRank fmt rank).unit) : Nat) : ℚ) ≤
        ((ofRank fmt rank).value * (decadic g).2 : Nat) := by exact_mod_cast hlow
    push_cast at h
    rw [decadic_eq, value_ofRank] at h
    refine le_of_mul_le_mul_right ?_ hfactor
    linarith
  · have h : ((ofRank fmt rank).value * (decadic g).2 : ℚ) <
        ((((ofRank fmt rank).floor g + 1) * ((decadic g).1 * (ofRank fmt rank).unit) : Nat) : ℚ) := by
      exact_mod_cast hhigh
    push_cast at h
    rw [decadic_eq, value_ofRank] at h
    refine lt_of_mul_lt_mul_right ?_ hfactor.le
    linarith

/-- On a grid that is finer than the interval is wide something is found. -/
theorem exists_hit? (tie : Tie) (hpos : 0 < rank)
    (hfine : (10 : ℚ) ^ g ≤ 2 ^ (fmt.exponent rank - 2)) :
    ∃ n, (ofRank fmt rank).hit? tie g = some n := by
  refine exists_hit?_of_contains tie
    ((contains_ofRank hpos (decadic_pos g).2 (multiple_eq fmt rank _ g)).2 ?_)
  have hpow : (0 : ℚ) < 2 ^ fmt.exponent rank := by positivity
  obtain ⟨hlow, hhigh⟩ := floor_spec fmt rank g
  generalize (ofRank fmt rank).floor g = k at hlow hhigh ⊢
  have hquarter : (10 : ℚ) ^ g ≤ 1 / 4 * 2 ^ fmt.exponent rank := by
    rw [zpow_sub₀ (by norm_num)] at hfine
    linarith
  have hbelow : 1 / 4 * 2 ^ fmt.exponent rank ≤ fmt.below rank * 2 ^ fmt.exponent rank :=
    mul_le_mul_of_nonneg_right (fmt.le_below rank) hpow.le
  have habove : k * 10 ^ g / 2 ^ fmt.exponent rank ≤ (fmt.significand rank : ℚ) :=
    (div_le_iff₀ hpow).2 hlow
  have hnear : fmt.significand rank - fmt.below rank < k * 10 ^ g / 2 ^ fmt.exponent rank := by
    rw [lt_div_iff₀ hpow, sub_mul]
    linarith
  exact ⟨hnear.le, by linarith, .inr ⟨hnear, by linarith⟩⟩

theorem value_ofRank_pos (fmt : Format) (hpos : 0 < rank) : 0 < (ofRank fmt rank).value := by
  have hunit : (0 : ℚ) < (ofRank fmt rank).unit := by exact_mod_cast unit_ofRank_pos fmt rank
  have hm : (0 : ℚ) < fmt.significand rank := by exact_mod_cast Format.significand_pos hpos
  have h : (0 : ℚ) < (ofRank fmt rank).value := by
    rw [value_ofRank]
    positivity
  exact_mod_cast h

/-- The value of a rank is less than the power of two after its binary exponent. -/
theorem value_lt_two_zpow (fmt : Format) (hpos : 0 < rank) :
    (fmt.significand rank * 2 ^ fmt.exponent rank : ℚ) <
      2 ^ (floorLog2 (ofRank fmt rank).value (ofRank fmt rank).unit + 1) := by
  have hunit : 0 < (ofRank fmt rank).unit := unit_ofRank_pos fmt rank
  have hunit' : (0 : ℚ) < (ofRank fmt rank).unit := by exact_mod_cast hunit
  have hhigh := (floorLog2_spec (value_ofRank_pos fmt hpos) hunit).2
  rw [value_ofRank] at hhigh
  exact lt_of_mul_lt_mul_right hhigh hunit'.le

/-- The value of a rank has no more bits before the point than its significand and exponent give. -/
theorem floorLog2_lt (hpos : 0 < rank) :
    floorLog2 (ofRank fmt rank).value (ofRank fmt rank).unit <
      1 + ((fmt.precision - 1 : Nat) : Int) + fmt.exponent rank := by
  have hunit : 0 < (ofRank fmt rank).unit := unit_ofRank_pos fmt rank
  have hunit' : (0 : ℚ) < (ofRank fmt rank).unit := by exact_mod_cast hunit
  have hpow : (0 : ℚ) < 2 ^ fmt.exponent rank := by positivity
  have hlow := (floorLog2_spec (value_ofRank_pos fmt hpos) hunit).1
  rw [value_ofRank] at hlow
  have hsignificand : (fmt.significand rank : ℚ) < 2 ^ (1 + ((fmt.precision - 1 : Nat) : Int)) := by
    rw [zpow_one_add₀ (by norm_num), ← Format.unit_eq]
    linarith [fmt.add_one_le_of_significand rank]
  have hlt := (le_of_mul_le_mul_right hlow hunit').trans_lt
    (mul_lt_mul_of_pos_right hsignificand hpow)
  rw [← zpow_add₀ (by norm_num)] at hlt
  exact (zpow_lt_zpow_iff_right₀ (by norm_num)).1 hlt

end Interval

/-! ### The search -/

namespace Format

variable {rank : Nat}

/-- The binary exponent of a number's value. -/
def valueLog2 (fmt : Format) (rank : Nat) : Int :=
  floorLog2 (Interval.ofRank fmt rank).value (Interval.ofRank fmt rank).unit

/-- The first grid that is looked at. -/
def coarsest (fmt : Format) (rank : Nat) : Int := (fmt.valueLog2 rank + 2) * 30103 / 100000 + 1

theorem valueLog2_bounds (hpos : 0 < rank) (hrank : rank < double.infinity) :
    -1074 ≤ double.exponent rank ∧ double.exponent rank ≤ double.valueLog2 rank ∧
      double.valueLog2 rank < 53 + double.exponent rank ∧ double.exponent rank < 973 := by
  have hleast : -1074 ≤ double.exponent rank := by
    show -1074 ≤ -1074 + (double.steps rank : Int)
    omega
  have hm : 0 < double.significand rank := significand_pos hpos
  have hone : (1 : ℚ) ≤ double.significand rank := by exact_mod_cast hm
  have hlt := Interval.value_lt_two_zpow double hpos
  have hle : (2 : ℚ) ^ double.exponent rank < 2 ^ (double.valueLog2 rank + 1) :=
    (le_mul_of_one_le_left (by positivity) hone).trans_lt hlt
  have hexponent := (zpow_lt_zpow_iff_right₀ (by norm_num : (1 : ℚ) < 2)).1 hle
  exact ⟨hleast, by omega, Interval.floorLog2_lt hpos, exponent_lt hrank⟩

/-- The last grid that is looked at is finer than the interval of a number of 64 bits is wide. -/
theorem finest_le (hpos : 0 < rank) (hrank : rank < double.infinity) :
    (10 : ℚ) ^ (double.coarsest rank - 56) ≤ 2 ^ (double.exponent rank - 2) := by
  obtain ⟨hleast, -, hbits, hmost⟩ := valueLog2_bounds hpos hrank
  rw [coarsest]
  generalize hg : (double.valueLog2 rank + 2) * 30103 / 100000 + 1 - 56 = g
  rcases le_or_gt g 0 with hneg | hpositive
  · calc (10 : ℚ) ^ g ≤ 2 ^ (3 * g) := ten_zpow_le_two_zpow hneg
      _ ≤ 2 ^ (double.exponent rank - 2) := zpow_le_zpow_right₀ (by norm_num) (by omega)
  · exact ten_zpow_le_two_zpow_of_mul_le hpositive.le (by omega)

/-- The first grid is about as coarse as the number is large. -/
theorem two_zpow_valueLog2_le (hpos : 0 < rank) (hrank : rank < double.infinity) :
    (2 : ℚ) ^ (double.valueLog2 rank + 2) ≤ 2 ^ 8 * 10 ^ double.coarsest rank := by
  obtain ⟨hleast, hexponent, hbits, hmost⟩ := valueLog2_bounds hpos hrank
  rw [coarsest]
  generalize hk : double.valueLog2 rank + 2 = k
  generalize hg : k * 30103 / 100000 + 1 = g
  have hsplit : (2 : ℚ) ^ k = 2 ^ 8 * 2 ^ (k - 8) := by
    rw [zpow_sub₀ (by norm_num)]
    norm_num
    ring
  rw [hsplit]
  refine mul_le_mul_of_nonneg_left ?_ (by positivity)
  rcases le_or_gt 0 g with hnonneg | hneg
  · exact two_zpow_le_ten_zpow_of_mul_le hnonneg (by omega)
  · have hinv : (10 : ℚ) ^ (-g) ≤ 2 ^ (8 - k) :=
      ten_zpow_le_two_zpow_of_mul_le (by omega) (by omega)
    have hturned := inv_anti₀ (by positivity) hinv
    rwa [← zpow_neg, ← zpow_neg, neg_neg, neg_sub] at hturned

end Format

/-- What is found first among numbers in order is not found before. -/
theorem exists_of_findSome?_range {α : Type} {f : Nat → Option α} {n : Nat} {b : α}
    (h : (List.range n).findSome? f = some b) : ∃ k, f k = some b ∧ ∀ j < k, f j = none := by
  obtain ⟨before, k, after, hrange, hk, hbefore⟩ := List.findSome?_eq_some_iff.1 h
  rw [List.range_eq_range', List.range'_eq_append_iff] at hrange
  obtain ⟨m, -, rfl, hrest⟩ := hrange
  obtain ⟨rfl, -, -⟩ := List.range'_eq_cons_iff.1 hrest.symm
  refine ⟨_, hk, fun j hj => hbefore j ?_⟩
  rw [← List.range_eq_range', List.mem_range]
  omega

section Search

variable {rank : Nat} (hpos : 0 < rank) (hrank : rank < Format.double.infinity)

include hpos hrank

/-- The search ends on a grid after which nothing coarser is left, or on the first one. -/
theorem exists_shortest_eq (tie : Tie) : ∃ n g, shortest tie .double rank = (n, g) ∧
    (Interval.ofRank .double rank).hit? tie g = some n ∧
    (g = Format.double.coarsest rank ∨
      (Interval.ofRank .double rank).hit? tie (g + 1) = none) := by
  obtain ⟨last, hlast⟩ := Interval.exists_hit? tie hpos (Format.finest_le hpos hrank)
  have hsearch : shortest tie .double rank = ((List.range 57).findSome? fun k : Nat =>
      ((Interval.ofRank .double rank).hit? tie (Format.double.coarsest rank - k)).map
        (·, Format.double.coarsest rank - k)).getD (0, 0) :=
    congrArg (·.getD (0, 0)) (List.findSome?_map (p := fun g : Int =>
      ((Interval.ofRank .double rank).hit? tie g).map (·, g)))
  rw [hsearch]
  cases hfound : List.findSome? _ _ with
  | none =>
      have hnone := List.findSome?_eq_none_iff.1 hfound 56 (List.mem_range.2 (by decide))
      rw [Option.map_eq_none_iff, Nat.cast_ofNat] at hnone
      cases hnone.symm.trans hlast
  | some out =>
      obtain ⟨k, hk, hbefore⟩ := exists_of_findSome?_range hfound
      obtain ⟨n, hn, rfl⟩ := Option.map_eq_some_iff.1 hk
      refine ⟨n, _, rfl, hn, ?_⟩
      cases k with
      | zero => exact .inl (by simp)
      | succ k =>
          have hnone := Option.map_eq_none_iff.1 (hbefore k k.lt_succ_self)
          have hcoarser : Format.double.coarsest rank - ((k + 1 : Nat) : Int) + 1 =
              Format.double.coarsest rank - k := by omega
          exact .inr (hcoarser ▸ hnone)

/-- A multiple of the first grid that is rounded to a number has few digits. -/
theorem coarsest_digits_lt {n : Nat} (hrounds : Format.double.Rounds rank
    (n * 10 ^ Format.double.coarsest rank / 2 ^ Format.double.exponent rank)) :
    (n : ℚ) < 2 ^ 8 := by
  have hpow : (0 : ℚ) < 2 ^ Format.double.exponent rank := by positivity
  have hten : (0 : ℚ) < 10 ^ Format.double.coarsest rank := by positivity
  have hone : (1 : ℚ) ≤ Format.double.significand rank := by
    exact_mod_cast Format.significand_pos hpos
  refine lt_of_mul_lt_mul_right (a := 10 ^ Format.double.coarsest rank) ?_ hten.le
  calc (n * 10 ^ Format.double.coarsest rank : ℚ)
      ≤ (Format.double.significand rank + 1 / 2) * 2 ^ Format.double.exponent rank :=
        (div_le_iff₀ hpow).1 hrounds.high
    _ ≤ 2 * (Format.double.significand rank * 2 ^ Format.double.exponent rank) := by
        rw [← mul_assoc]
        exact mul_le_mul_of_nonneg_right (by linarith) hpow.le
    _ < 2 * 2 ^ (Format.double.valueLog2 rank + 1) :=
        mul_lt_mul_of_pos_left (Interval.value_lt_two_zpow .double hpos) (by norm_num)
    _ = 2 ^ (Format.double.valueLog2 rank + 2) := by
        rw [← zpow_one_add₀ (by norm_num)]
        congr 1
        omega
    _ ≤ 2 ^ 8 * 10 ^ Format.double.coarsest rank := Format.two_zpow_valueLog2_le hpos hrank

omit hpos hrank in
/-- A multiple of a grid, ten times as coarse as which there is nothing to be found, is a word if it
is rounded to a number. -/
theorem digits_lt_of_coarse {n : Nat} {g : Int}
    (hrounds : Format.double.Rounds rank (n * 10 ^ g / 2 ^ Format.double.exponent rank))
    (hcoarse : (2 : ℚ) ^ (Format.double.exponent rank - 2) < 10 ^ (g + 1)) :
    (n : ℚ) < 2 ^ 64 := by
  have hpow : (0 : ℚ) < 2 ^ Format.double.exponent rank := by positivity
  have hten : (0 : ℚ) < 10 ^ g := by positivity
  have hm : (Format.double.significand rank : ℚ) + 1 ≤ 2 ^ 53 :=
    (Format.double.add_one_le_of_significand rank).trans_eq (by exact_mod_cast rfl)
  rw [zpow_sub₀ (by norm_num), zpow_add_one₀ (by norm_num)] at hcoarse
  refine lt_of_mul_lt_mul_right (a := 10 ^ g) ?_ hten.le
  calc (n * 10 ^ g : ℚ)
      ≤ (Format.double.significand rank + 1 / 2) * 2 ^ Format.double.exponent rank :=
        (div_le_iff₀ hpow).1 hrounds.high
    _ ≤ 2 ^ 53 * (40 * 10 ^ g) := by
        refine mul_le_mul (by linarith) ?_ hpow.le (by norm_num)
        linarith
    _ < 2 ^ 64 * 10 ^ g := by linarith

/-- The shortest digits of a positive number of 64 bits stand for what is rounded to it, and a word
holds them. -/
theorem shortest_spec (tie : Tie) : ∃ n g, shortest tie .double rank = (n, g) ∧ 0 < n ∧
    n < UInt64.size ∧
    Format.double.Rounds rank (n * 10 ^ g / 2 ^ Format.double.exponent rank) := by
  obtain ⟨n, g, hshortest, hhit, hcoarsest⟩ := exists_shortest_eq hpos hrank tie
  have hrounds := Interval.rounds_of_hit? hpos hhit
  have hword : (n : ℚ) < 2 ^ 64 := by
    rcases hcoarsest with rfl | hnone
    · exact (coarsest_digits_lt hpos hrank hrounds).trans (by norm_num)
    · refine digits_lt_of_coarse hrounds (not_le.1 fun hfine => ?_)
      obtain ⟨m, hm⟩ := Interval.exists_hit? tie hpos hfine
      cases hnone.symm.trans hm
  refine ⟨n, g, hshortest, Nat.pos_of_ne_zero ?_, by exact_mod_cast hword, hrounds⟩
  rintro rfl
  have hhalf := hrounds.half_le hpos
  norm_num at hhalf

end Search

end KernelGraph.Decimal
