import QueueAssignment.Hash.Jump
import QueueAssignment.Proofs.Rounding

/-!
The walk of a key over the buckets goes up with every turn and never leaves the numbers that can be
told apart, so it ends. It does not look at the number of buckets on its way: with more of them a key
stays where it is or goes on to one of the new ones.
-/
namespace QueueAssignment.Jump
open Binary64

def divisor (key : UInt64) : UInt64 := (key >>> 33) + 1

def stretch (key : UInt64) : Ratio := div (1 <<< 31) ((key >>> 33).toNat + 1)

def reach (key : UInt64) (bucket : Nat) : Ratio := mul ⟨bucket + 1, 1⟩ (stretch key)

/-- Where the walk is before a turn: the key, and the bucket that the turn starts from. -/
def path (key : UInt64) : Nat → UInt64 × Nat
  | 0 => (key, 0)
  | turn + 1 =>
      let here := path key turn
      (scramble here.1, next (scramble here.1) here.2)

/-- The walk of a key over so many buckets takes its last turn with this number. -/
structure Ends (key : UInt64) (buckets last : Nat) : Prop where
  inside : ∀ turn ≤ last, (path key turn).2 < buckets
  beyond : buckets ≤ (path key (last + 1)).2

variable {key : UInt64} {bucket buckets : Nat}

theorem upper_lt (key : UInt64) : (key >>> 33).toNat < 2 ^ 31 := by
  rw [UInt64.toNat_shiftRight, Nat.shiftRight_eq_div_pow]
  exact Nat.div_lt_of_lt_mul key.toNat_lt

theorem toNat_divisor (key : UInt64) : (divisor key).toNat = (key >>> 33).toNat + 1 := by
  have small := upper_lt key
  rw [divisor, UInt64.toNat_add, UInt64.toNat_one, Nat.mod_eq_of_lt (by omega)]

theorem divisor_bounds (key : UInt64) : 0 < (divisor key).toNat ∧ (divisor key).toNat ≤ 2 ^ 31 := by
  have small := upper_lt key
  rw [toNat_divisor]
  omega

theorem holds_dividend : Holds (2 ^ 31) :=
  ⟨1, 31, by norm_num, by norm_num⟩

theorem rounds_stretch (key : UInt64) :
    Rounds (2 ^ 31 / (divisor key).toNat) (stretch key).value := by
  obtain ⟨positive, small⟩ := divisor_bounds key
  rw [toNat_divisor] at positive small ⊢
  have rounds := @rounds_round ⟨1 <<< 31, (key >>> 33).toNat + 1⟩ positive small
  rw [Ratio.value] at rounds
  exact_mod_cast rounds

theorem one_le_stretch (key : UInt64) : 1 ≤ (stretch key).value := by
  obtain ⟨positive, small⟩ := divisor_bounds key
  have one : Holds 1 := by simpa using holds_natCast (n := 1) (by norm_num)
  refine (rounds_stretch key).le_of_le one ?_
  rw [one_le_div (by exact_mod_cast positive)]
  exact_mod_cast small

theorem stretch_le (key : UInt64) : (stretch key).value ≤ 2 ^ 31 := by
  obtain ⟨positive, _⟩ := divisor_bounds key
  refine (rounds_stretch key).ge_of_ge holds_dividend ?_
  apply div_le_self (by positivity)
  exact_mod_cast positive

theorem rounds_reach (key : UInt64) (bucket : Nat) :
    Rounds ((bucket + 1) * (stretch key).value) (reach key bucket).value := by
  have some_part : 0 < (stretch key).den := den_round_pos _
  have large : (stretch key).den ≤ (stretch key).num := by
    have one := one_le_stretch key
    rw [Ratio.value, one_le_div (by exact_mod_cast some_part)] at one
    exact_mod_cast one
  have rounds := @rounds_round ⟨(bucket + 1) * (stretch key).num, 1 * (stretch key).den⟩
    (by simpa using some_part) (Nat.mul_le_mul (by omega) large)
  simpa [Ratio.value, reach, mul, mul_div_assoc] using rounds

theorem succ_le_reach (small : bucket + 1 < 2 ^ 53) :
    (bucket + 1 : ℚ) ≤ (reach key bucket).value := by
  have start : Holds (bucket + 1) := by exact_mod_cast holds_natCast small
  refine (rounds_reach key bucket).le_of_le start ?_
  exact le_mul_of_one_le_right (by positivity) (one_le_stretch key)

/-- The farthest that a bucket of 32 bits reaches has 63 bits and is exact. -/
theorem reach_lt (small : bucket + 1 < 2 ^ 32) : (reach key bucket).value < 2 ^ 63 := by
  have most : Holds ((bucket + 1) * 2 ^ 31) :=
    ⟨bucket + 1, 31, by omega, by push_cast; rfl⟩
  have below : (reach key bucket).value ≤ (bucket + 1) * 2 ^ 31 := by
    refine (rounds_reach key bucket).ge_of_ge most ?_
    gcongr
    exact stretch_le key
  have bound : (bucket + 1 : ℚ) < 2 ^ 32 := by exact_mod_cast small
  linarith

theorem floor_value {x : Ratio} (positive : 0 < x.den) :
    (floor x : ℚ) ≤ x.value ∧ x.value < floor x + 1 := by
  have unit : (0 : ℚ) < x.den := by exact_mod_cast positive
  rw [Ratio.value, le_div_iff₀ unit, div_lt_iff₀ unit, floor]
  constructor
  · exact_mod_cast Nat.div_mul_le_self x.num x.den
  · exact_mod_cast (Nat.lt_div_mul_add positive).trans_le (Nat.succ_mul _ _).symm.le

theorem next_value (key : UInt64) (bucket : Nat) :
    (next key bucket : ℚ) ≤ (reach key bucket).value ∧
      (reach key bucket).value < next key bucket + 1 :=
  floor_value (den_round_pos _)

theorem lt_next (small : bucket + 1 < 2 ^ 53) : bucket < next key bucket := by
  have cut := (succ_le_reach small).trans_lt (next_value key bucket).2
  have whole : bucket + 1 < next key bucket + 1 := by exact_mod_cast cut
  omega

theorem path_le {first last : Nat} (le : first ≤ last)
    (inside : ∀ turn < last, (path key turn).2 < 2 ^ 32) :
    (path key first).2 + (last - first) ≤ (path key last).2 := by
  induction last, le using Nat.le_induction with
  | base => omega
  | succ last le ih =>
    have before := ih fun turn earlier => inside turn (by omega)
    have here := inside last (by omega)
    have up : (path key last).2 < (path key (last + 1)).2 := lt_next (by omega)
    omega

theorem exists_ends (key : UInt64) (some_bucket : 0 < buckets) (small : buckets < 2 ^ 32) :
    ∃ last < buckets, Ends key buckets last := by
  have beyond : ∃ turn, buckets ≤ (path key turn).2 := by
    by_contra never
    push Not at never
    have up := path_le (Nat.zero_le buckets) fun turn _ => (never turn).trans small
    have inside := never buckets
    omega
  obtain ⟨last, first⟩ : ∃ last, Nat.find beyond = last + 1 := by
    refine Nat.exists_eq_add_one.mpr ?_
    rw [Nat.find_pos]
    exact not_le.mpr some_bucket
  have inside : ∀ turn ≤ last, (path key turn).2 < buckets := fun turn le =>
    not_le.mp (Nat.find_min beyond (first ▸ Nat.lt_succ_of_le le))
  refine ⟨last, ?_, inside, first ▸ Nat.find_spec beyond⟩
  have up := path_le (Nat.zero_le last) fun turn earlier => (inside turn earlier.le).trans small
  have here := inside last le_rfl
  omega

theorem Ends.walk_eq {last : Nat} (ends : Ends key buckets last) {turn budget : Nat}
    (le : turn ≤ last) (enough : last < turn + budget) :
    walk buckets budget (path key turn).1 (path key turn).2 = (path key last).2 := by
  induction budget generalizing turn with
  | zero => omega
  | succ budget ih =>
    by_cases onward : (path key (turn + 1)).2 < buckets
    · have further : turn ≠ last := by
        rintro rfl
        exact absurd ends.beyond (not_le.mpr onward)
      have later := @ih (turn + 1) (by omega) (by omega)
      rw [← later]
      exact if_pos onward
    · have final : turn = last := by
        by_contra further
        exact onward (ends.inside (turn + 1) (by omega))
      rw [← final]
      exact if_neg onward

theorem bucket_ends (key : UInt64) (some_bucket : 0 < buckets) (small : buckets < 2 ^ 32) :
    ∃ last, Ends key buckets last ∧ Jump.bucket key buckets = (path key last).2 := by
  obtain ⟨last, below, ends⟩ := exists_ends key some_bucket small
  exact ⟨last, ends, ends.walk_eq (Nat.zero_le last) (by omega)⟩

/-- With more buckets a key stays where it is, or it goes on to a new one. -/
theorem bucket_stays_or_new (key : UInt64) {few many : Nat} (some_bucket : 0 < few)
    (more : few ≤ many) (small : many < 2 ^ 32) :
    Jump.bucket key many = Jump.bucket key few ∨ few ≤ Jump.bucket key many := by
  obtain ⟨last, ends, same⟩ := bucket_ends key some_bucket (by omega)
  obtain ⟨later, farther, there⟩ := bucket_ends key (some_bucket.trans_le more) small
  rw [same, there]
  rcases Nat.lt_trichotomy last later with longer | rfl | shorter
  · right
    have up : (path key (last + 1)).2 + (later - (last + 1)) ≤ (path key later).2 :=
      path_le longer fun turn earlier => (farther.inside turn earlier.le).trans small
    have beyond := ends.beyond
    omega
  · exact Or.inl rfl
  · have inside := ends.inside (later + 1) shorter
    have beyond := farther.beyond
    omega

structure Turn (buckets : Nat) (key : UInt64) (bucket : Nat) : Prop where
  inside : bucket + 1 ≤ buckets
  /-- What goes into the arithmetic is exact. -/
  operands : Holds (bucket + 1 : ℕ) ∧ Holds (2 ^ 31) ∧ Holds (divisor key).toNat
  some_divisor : divisor key ≠ 0
  /-- The divisor does not wrap around. -/
  divisor : (divisor key).toNat = (key >>> 33).toNat + 1
  stretch : Rounds (2 ^ 31 / (Jump.divisor key).toNat) (stretch key).value
  reach : Rounds ((bucket + 1 : ℕ) * (Jump.stretch key).value) (reach key bucket).value
  /-- Binary64 has exponents for both of the results. -/
  normal : 1 ≤ (Jump.stretch key).value ∧ 1 ≤ (Jump.reach key bucket).value
  /-- A signed word of 64 bits holds the product without its fraction. -/
  fits : 0 ≤ (Jump.reach key bucket).value ∧ (Jump.reach key bucket).value < 2 ^ 63
  cut : (next key bucket : ℚ) ≤ (Jump.reach key bucket).value ∧
    (Jump.reach key bucket).value < next key bucket + 1
  up : bucket < next key bucket

theorem turn_of_inside (inside : bucket < buckets) (small : buckets < 2 ^ 32) :
    Turn buckets key bucket := by
  obtain ⟨positive, most⟩ := divisor_bounds key
  have far : (bucket + 1 : ℚ) ≤ (reach key bucket).value := succ_le_reach (by omega)
  have start : (1 : ℚ) ≤ bucket + 1 := by simp
  refine
    { inside := inside
      operands := ⟨holds_natCast (by omega), holds_dividend, holds_natCast (by omega)⟩
      some_divisor := fun zero => ?_
      divisor := toNat_divisor key
      stretch := rounds_stretch key
      reach := ?_
      normal := ⟨one_le_stretch key, start.trans far⟩
      fits := ⟨by linarith, reach_lt (by omega)⟩
      cut := next_value key bucket
      up := lt_next (by omega) }
  · rw [zero] at positive
    exact absurd positive (by decide)
  · rw [Nat.cast_succ]
    exact rounds_reach key bucket

/-- The walk of a key goes up with every turn and stays in the range of its words, it ends by itself
    with no more turns than buckets, and it ends below the number of buckets. -/
theorem walk_goes_up_in_range (key : UInt64) {buckets : UInt32} (some_bucket : buckets ≠ 0) :
    ∃ last < buckets.toNat,
      (∀ turn ≤ last, Turn buckets.toNat (path key (turn + 1)).1 (path key turn).2) ∧
      buckets.toNat ≤ (path key (last + 1)).2 ∧
      (∀ budget, last < budget → walk buckets.toNat budget key 0 = (path key last).2) ∧
      bucket? key buckets.toNat = .ok (path key last).2 ∧
      (path key last).2 < buckets.toNat := by
  have small := buckets.toNat_lt
  have positive : buckets.toNat ≠ 0 := fun zero => some_bucket (UInt32.toNat_inj.mp zero)
  obtain ⟨last, below, ends⟩ := exists_ends key (Nat.pos_of_ne_zero positive) small
  have ended : ∀ budget, last < budget → walk buckets.toNat budget key 0 = (path key last).2 :=
    fun budget enough => ends.walk_eq (Nat.zero_le last) (by omega)
  refine ⟨last, below, ?_, ends.beyond, ended, ?_, ends.inside last le_rfl⟩
  · intro turn le
    exact turn_of_inside (ends.inside turn le) small
  · rw [bucket?, if_neg positive, bucket, ended buckets.toNat below]

theorem walk_goes_up_over_seven :
    ∃ last < 7,
      (∀ turn ≤ last, Turn 7 (path 1 (turn + 1)).1 (path 1 turn).2) ∧
      7 ≤ (path 1 (last + 1)).2 ∧
      (∀ budget, last < budget → walk 7 budget 1 0 = (path 1 last).2) ∧
      bucket? 1 7 = .ok (path 1 last).2 ∧ (path 1 last).2 < 7 :=
  @walk_goes_up_in_range 1 7 (by decide)

end QueueAssignment.Jump
