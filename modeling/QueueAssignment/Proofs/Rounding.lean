import Mathlib.Algebra.Order.Field.Basic
import Mathlib.Algebra.Order.Field.Power
import Mathlib.Tactic.Linarith
import Mathlib.Tactic.Ring
import QueueAssignment.Hash.Binary64

/-!
Rounding to binary64 is correct. What comes out has 53 bits, no number of 53 bits lies nearer, and
of two equally near ones it is the even one. A bound of 53 bits is therefore never crossed.
-/
namespace QueueAssignment.Binary64

def Ratio.value (x : Ratio) : ℚ := x.num / x.den

/-- The numbers of 53 bits. Exponents have no bounds here: what a walk computes lies far inside those
    of binary64. -/
def Holds (q : ℚ) : Prop :=
  ∃ (significand : ℕ) (scale : ℤ), significand < 2 ^ 53 ∧ q = significand * 2 ^ scale

def EndsEven (q : ℚ) : Prop :=
  ∃ (significand : ℕ) (scale : ℤ), 2 ^ 52 ≤ significand ∧ significand < 2 ^ 53 ∧
    Even significand ∧ q = significand * 2 ^ scale

/-- To round correctly is to take the nearest number of 53 bits, and of two the even one. -/
structure Rounds (x y : ℚ) : Prop where
  holds : Holds y
  nearest : ∀ z, Holds z → |x - y| ≤ |x - z|
  even : ∀ z, Holds z → z ≠ y → |x - z| = |x - y| → EndsEven y

theorem holds_natCast {n : ℕ} (small : n < 2 ^ 53) : Holds n :=
  ⟨n, 0, small, by simp⟩

namespace Rounds

variable {x y z : ℚ}

/-- A lower bound of 53 bits holds after rounding too: it would be nearer than anything below it. -/
theorem le_of_le (rounds : Rounds x y) (holds : Holds z) (below : z ≤ x) : z ≤ y := by
  by_contra crossed
  have nearer := rounds.nearest z holds
  rw [abs_of_nonneg (by linarith), abs_of_nonneg (by linarith)] at nearer
  linarith

theorem ge_of_ge (rounds : Rounds x y) (holds : Holds z) (above : x ≤ z) : y ≤ z := by
  by_contra crossed
  have nearer := rounds.nearest z holds
  rw [abs_of_nonpos (by linarith), abs_of_nonpos (by linarith)] at nearer
  linarith

end Rounds

/-- The number lies between `2 ^ 52` and `2 ^ 53` units of this scale, and these are the units nearest
    to it. -/
structure Settles (x : ℚ) (units : ℕ) (scale : ℤ) : Prop where
  lower : 2 ^ 52 * 2 ^ scale ≤ x
  upper : x < 2 ^ 53 * 2 ^ scale
  near : |x / 2 ^ scale - units| ≤ 1 / 2
  tie : |x / 2 ^ scale - units| = 1 / 2 → Even units

theorem div_eq_whole_add_rest {num den : ℕ} (positive : 0 < den) :
    (num / den : ℚ) = (num / den : ℕ) + (num % den : ℕ) / (den : ℚ) := by
  have unit : (den : ℚ) ≠ 0 := by exact_mod_cast positive.ne'
  have whole : (num : ℚ) = den * (num / den : ℕ) + (num % den : ℕ) := by
    exact_mod_cast (Nat.div_add_mod num den).symm
  rw [← mul_right_inj' unit, mul_add, mul_div_cancel₀ _ unit, mul_div_cancel₀ _ unit, ← whole]

/-- What rounding adds or leaves out is half a unit at most, and just half a unit only where it ends
    on an even number. -/
theorem nearest_near {num den : ℕ} (positive : 0 < den) :
    |(num / den : ℚ) - nearest num den| ≤ 1 / 2 ∧
      (|(num / den : ℚ) - nearest num den| = 1 / 2 → Even (nearest num den)) := by
  have unit : (0 : ℚ) < den := by exact_mod_cast positive
  have rest_nonneg : (0 : ℚ) ≤ (num % den : ℕ) / (den : ℚ) := by positivity
  rw [div_eq_whole_add_rest positive]
  unfold nearest
  dsimp only
  split
  · rename_i below
    have half : ((num % den : ℕ) / den : ℚ) < 1 / 2 := by
      rw [div_lt_div_iff₀ unit two_pos]
      exact_mod_cast (by omega : num % den * 2 < 1 * den)
    rw [add_sub_cancel_left, abs_of_nonneg rest_nonneg]
    exact ⟨half.le, fun same => absurd same half.ne⟩
  · split
    · rename_i _ above
      have half : (1 / 2 : ℚ) < (num % den : ℕ) / den := by
        rw [div_lt_div_iff₀ two_pos unit]
        exact_mod_cast (by omega : 1 * den < num % den * 2)
      have less : ((num % den : ℕ) / den : ℚ) < 1 := by
        rw [div_lt_one unit]
        exact_mod_cast Nat.mod_lt num positive
      push_cast
      rw [add_sub_add_left_eq_sub, abs_of_neg (by linarith)]
      exact ⟨by linarith, fun same => by linarith⟩
    · rename_i not_below not_above
      have half : ((num % den : ℕ) / den : ℚ) = 1 / 2 := by
        rw [div_eq_div_iff unit.ne' two_ne_zero]
        exact_mod_cast (by omega : num % den * 2 = 1 * den)
      have even : Even (num / den + num / den % 2) := by
        rw [Nat.even_iff]
        omega
      refine ⟨?_, fun _ => even⟩
      rw [half]
      push_cast
      rw [add_sub_add_left_eq_sub]
      rcases Nat.mod_two_eq_zero_or_one (num / den) with zero | one
      · rw [zero]
        norm_num
      · rw [one]
        norm_num

theorem units_of_holds {z : ℚ} {scale : ℤ} (holds : Holds z) (large : 2 ^ 52 * 2 ^ scale ≤ z) :
    ∃ units : ℕ, z = units * 2 ^ scale := by
  obtain ⟨significand, other, small, rfl⟩ := holds
  have finer : scale ≤ other := by
    have power : (2 : ℚ) ^ ((52 : ℕ) + scale) < 2 ^ ((53 : ℕ) + other) := by
      rw [zpow_add₀ two_ne_zero, zpow_add₀ two_ne_zero, zpow_natCast, zpow_natCast]
      refine large.trans_lt ?_
      gcongr
      exact_mod_cast small
    have := (zpow_lt_zpow_iff_right₀ (one_lt_two (α := ℚ))).mp power
    push_cast at this
    omega
  obtain ⟨shift, same⟩ := Int.le.dest finer
  refine ⟨significand * 2 ^ shift, ?_⟩
  rw [← same, zpow_add₀ two_ne_zero, zpow_natCast]
  push_cast
  ring

namespace Settles

variable {x : ℚ} {units : ℕ} {scale : ℤ}

theorem dist_units (other : ℕ) :
    |x - other * 2 ^ scale| = |x / 2 ^ scale - other| * 2 ^ scale := by
  have unit : (0 : ℚ) < 2 ^ scale := by positivity
  rw [← abs_of_pos unit, ← abs_mul, sub_mul, abs_of_pos unit, div_mul_cancel₀ _ unit.ne']

theorem near_units (settles : Settles x units scale) {other : ℕ} (apart : other ≠ units) :
    1 / 2 ≤ |x / 2 ^ scale - other| := by
  have near := settles.near
  have one : (1 : ℚ) ≤ |(other : ℚ) - units| := by
    have whole : (1 : ℤ) ≤ |(other : ℤ) - units| := Int.one_le_abs (by omega)
    exact_mod_cast whole
  have triangle := abs_sub_le (other : ℚ) (x / 2 ^ scale) units
  rw [abs_sub_comm (other : ℚ) (x / 2 ^ scale)] at triangle
  linarith

theorem nearest_units (settles : Settles x units scale) (other : ℕ) :
    |x - units * 2 ^ scale| ≤ |x - other * 2 ^ scale| := by
  by_cases here : other = units
  · rw [here]
  · rw [dist_units, dist_units]
    have unit : (0 : ℚ) ≤ 2 ^ scale := by positivity
    exact mul_le_mul_of_nonneg_right (settles.near.trans (settles.near_units here)) unit

theorem bounds (settles : Settles x units scale) : 2 ^ 52 ≤ units ∧ units ≤ 2 ^ 53 := by
  have unit : (0 : ℚ) < 2 ^ scale := by positivity
  have lower : (2 : ℚ) ^ 52 ≤ x / 2 ^ scale := (le_div_iff₀ unit).mpr settles.lower
  have upper : x / 2 ^ scale < 2 ^ 53 := (div_lt_iff₀ unit).mpr settles.upper
  obtain ⟨left, right⟩ := abs_le.mp settles.near
  constructor
  · have : ((2 ^ 52 : ℕ) : ℚ) < (units + 1 : ℕ) := by
      push_cast
      linarith
    exact Nat.lt_succ_iff.mp (by exact_mod_cast this)
  · have : (units : ℚ) < (2 ^ 53 + 1 : ℕ) := by
      push_cast
      linarith
    exact Nat.lt_succ_iff.mp (by exact_mod_cast this)

/-- With all 53 bits a carry out of the last binade is a one and zeros on the next scale. -/
theorem normal (settles : Settles x units scale) :
    ∃ (significand : ℕ) (other : ℤ), 2 ^ 52 ≤ significand ∧ significand < 2 ^ 53 ∧
      (Even units → Even significand) ∧ (units * 2 ^ scale : ℚ) = significand * 2 ^ other := by
  obtain ⟨lower, upper⟩ := settles.bounds
  rcases upper.lt_or_eq with small | carry
  · exact ⟨units, scale, lower, small, id, rfl⟩
  · refine ⟨2 ^ 52, scale + 1, le_rfl, by norm_num, fun _ => by decide, ?_⟩
    rw [carry, zpow_add_one₀ two_ne_zero]
    push_cast
    ring

theorem rounds (settles : Settles x units scale) : Rounds x (units * 2 ^ scale) := by
  have unit : (0 : ℚ) < 2 ^ scale := by positivity
  obtain ⟨significand, other, lower, small, even, same⟩ := settles.normal
  -- Below `2 ^ 52` units nothing is nearer than `2 ^ 52` units are.
  have coarse : ∀ z, z < 2 ^ 52 * 2 ^ scale → |x - units * 2 ^ scale| < |x - z| := by
    intro z below
    refine (settles.nearest_units (2 ^ 52)).trans_lt ?_
    push_cast
    rw [abs_of_nonneg (by linarith [settles.lower]), abs_of_nonneg (by linarith [settles.lower])]
    linarith
  refine ⟨⟨significand, other, small, same⟩, ?_, ?_⟩
  · intro z holds
    by_cases below : z < 2 ^ 52 * 2 ^ scale
    · exact (coarse z below).le
    · obtain ⟨others, rfl⟩ := units_of_holds holds (not_lt.mp below)
      exact settles.nearest_units others
  · intro z holds apart tied
    have above : ¬ z < 2 ^ 52 * 2 ^ scale := fun below => (coarse z below).ne' tied
    obtain ⟨others, rfl⟩ := units_of_holds holds (not_lt.mp above)
    have here : others ≠ units := fun here => apart (by rw [here])
    rw [dist_units, dist_units, mul_left_inj' unit.ne'] at tied
    have half := le_antisymm settles.near (tied ▸ settles.near_units here)
    exact ⟨significand, other, lower, small, even (settles.tie half), same⟩

end Settles

variable {x : Ratio}

theorem binade (positive : 0 < x.den) (large : x.den ≤ x.num) :
    (2 : ℚ) ^ (x.num / x.den).log2 ≤ x.value ∧ x.value < 2 ^ ((x.num / x.den).log2 + 1) := by
  have unit : (0 : ℚ) < x.den := by exact_mod_cast positive
  have whole : x.num / x.den ≠ 0 := (Nat.div_pos large positive).ne'
  rw [Ratio.value, le_div_iff₀ unit, div_lt_iff₀ unit]
  constructor
  · have below := Nat.mul_le_mul_right x.den (Nat.log2_self_le whole)
    exact_mod_cast below.trans (Nat.div_mul_le_self x.num x.den)
  · have above := Nat.mul_le_mul_right x.den (Nat.lt_log2_self (n := x.num / x.den))
    exact_mod_cast (Nat.lt_div_mul_add positive).trans_le ((Nat.succ_mul _ _).symm.le.trans above)

theorem settles_nearest (positive : 0 < x.den) (large : x.den ≤ x.num) {num den : ℕ}
    (some_unit : 0 < den)
    (scaled : x.value / 2 ^ ((x.num / x.den).log2 - 52 : ℤ) = num / den) :
    Settles x.value (nearest num den) ((x.num / x.den).log2 - 52) := by
  obtain ⟨lower, upper⟩ := binade positive large
  obtain ⟨near, tie⟩ := @nearest_near num den some_unit
  rw [← scaled] at near tie
  have shift : ∀ bits : ℕ, (2 : ℚ) ^ bits * 2 ^ ((x.num / x.den).log2 - 52 : ℤ) =
      2 ^ ((bits : ℤ) + ((x.num / x.den).log2 - 52)) := by
    intro bits
    rw [zpow_add₀ two_ne_zero, zpow_natCast]
  refine ⟨?_, ?_, near, tie⟩
  · rw [shift, Nat.cast_ofNat, add_sub_cancel, zpow_natCast]
    exact lower
  · rw [shift]
    have next : ((53 : ℕ) : ℤ) + ((x.num / x.den).log2 - 52) =
        (((x.num / x.den).log2 + 1 : ℕ) : ℤ) := by
      push_cast
      ring
    rw [next, zpow_natCast]
    exact upper

theorem settles_round (positive : 0 < x.den) (large : x.den ≤ x.num) :
    ∃ units scale, Settles x.value units scale ∧ (round x).value = units * 2 ^ scale := by
  have settles := @settles_nearest x positive large
  unfold round
  dsimp only
  generalize (x.num / x.den).log2 = exponent at settles ⊢
  split
  · rename_i fine
    have scale : (exponent - 52 : ℤ) = -((52 - exponent : ℕ) : ℤ) := by omega
    have scaled : x.value / 2 ^ (exponent - 52 : ℤ) =
        (x.num <<< (52 - exponent) : ℕ) / (x.den : ℚ) := by
      rw [scale, zpow_neg, zpow_natCast, div_inv_eq_mul, Nat.shiftLeft_eq, Ratio.value]
      push_cast
      ring
    refine ⟨_, _, settles positive scaled, ?_⟩
    rw [scale, zpow_neg, zpow_natCast, ← div_eq_mul_inv, Ratio.value, Nat.shiftLeft_eq 1, one_mul]
    push_cast
    rfl
  · rename_i coarse
    have scale : (exponent - 52 : ℤ) = ((exponent - 52 : ℕ) : ℤ) := by omega
    have scaled : x.value / 2 ^ (exponent - 52 : ℤ) =
        x.num / ((x.den <<< (exponent - 52) : ℕ) : ℚ) := by
      rw [scale, zpow_natCast, Ratio.value, Nat.shiftLeft_eq, div_div]
      push_cast
      rfl
    have some_unit : 0 < x.den <<< (exponent - 52) := by
      rw [Nat.shiftLeft_eq]
      positivity
    refine ⟨_, _, settles some_unit scaled, ?_⟩
    rw [scale, zpow_natCast, Ratio.value, Nat.shiftLeft_eq (nearest _ _)]
    push_cast
    ring

theorem rounds_round (positive : 0 < x.den) (large : x.den ≤ x.num) :
    Rounds x.value (round x).value := by
  obtain ⟨units, scale, settles, same⟩ := settles_round positive large
  rw [same]
  exact settles.rounds

theorem den_round_pos (x : Ratio) : 0 < (round x).den := by
  unfold round
  dsimp only
  split
  · dsimp only
    rw [Nat.shiftLeft_eq, one_mul]
    exact Nat.two_pow_pos _
  · exact Nat.one_pos

end QueueAssignment.Binary64
