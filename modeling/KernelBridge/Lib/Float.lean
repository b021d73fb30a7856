import Mathlib.Data.Int.Log
import Mathlib.Data.Rat.Floor
import Mathlib.Tactic.Linarith
import Mathlib.Tactic.NormNum

/-!
# Floats

The binary64 numbers of the language, with their arithmetic.

A finite `float` is the rational number it stands for, so the two zeros are one number here. The
result of an operation is the exact one, rounded to the nearest number of 53 bits (`round`), the
even one of two, with gradual underflow and overflow to an infinity. What the language refuses is
an error: division by zero, and the root of a negative number.

`Nonneg` and `Pos`, which the operations keep, say that a sequence of operations meets no such
error.
-/

namespace Py

/-- A `float`. -/
inductive Float
  | finite (value : ℚ)
  | infinite (negative : Bool)
  | nan
  deriving DecidableEq, Repr

namespace Float

/-! ## Rounding -/

/-- The integer nearest to `q`, the even one of two. -/
def roundEven (q : ℚ) : ℤ :=
  if q - ⌊q⌋ < 1 / 2 ∨ q - ⌊q⌋ = 1 / 2 ∧ ⌊q⌋ % 2 = 0 then ⌊q⌋ else ⌊q⌋ + 1

/-- The exponent of the last of the 53 bits of a number the size of `q`. Below the normal numbers
the last bit stays where it is. -/
def lastBit (q : ℚ) : ℤ := max (Int.log 2 |q| - 52) (-1074)

/-- The multiple of the last bit that is nearest to `q`. -/
def nearest (q : ℚ) : ℚ := roundEven (q / 2 ^ lastBit q) * 2 ^ lastBit q

/-- The float nearest to `q`. -/
def round (q : ℚ) : Float :=
  if |nearest q| < 2 ^ 1024 then .finite (nearest q) else .infinite (decide (nearest q < 0))

/-- Rounding does not go below an integer that is below. -/
theorem le_roundEven {q : ℚ} {n : ℤ} (h : n ≤ q) : n ≤ roundEven q := by
  have hfloor : n ≤ ⌊q⌋ := Int.le_floor.mpr h
  unfold roundEven
  split_ifs <;> omega

/-- Rounding does not go above an integer that is above. -/
theorem roundEven_le {q : ℚ} {n : ℤ} (h : q ≤ n) : roundEven q ≤ n := by
  have hfloor : ⌊q⌋ ≤ n := by exact_mod_cast (Int.floor_le q).trans h
  unfold roundEven
  split_ifs with hhalf
  · exact hfloor
  · -- rounded up, so `q` is no integer and its floor is below `n`
    refine Int.add_one_le_iff.mpr (hfloor.lt_of_ne fun heq => hhalf (.inl ?_))
    rw [heq]
    linarith

/-- One is a multiple of the last bit of every number up to it. -/
theorem exists_steps {e : ℤ} (he : e ≤ 0) : ∃ n : ℤ, (n : ℚ) * 2 ^ e = 1 := by
  obtain ⟨k, rfl⟩ : ∃ k : ℕ, e = -k := ⟨e.natAbs, by omega⟩
  exact ⟨2 ^ k, by simp⟩

/-- The powers of two are positive. -/
theorem two_zpow_pos (e : ℤ) : (0 : ℚ) < 2 ^ e := zpow_pos (by norm_num) e

/-- Rounding does not make a number negative. -/
theorem nearest_nonneg {q : ℚ} (h : 0 ≤ q) : 0 ≤ nearest q := by
  have hround : 0 ≤ roundEven (q / 2 ^ lastBit q) :=
    le_roundEven (n := 0) (by simpa using div_nonneg h (two_zpow_pos _).le)
  exact mul_nonneg (by exact_mod_cast hround) (two_zpow_pos _).le

/-- Rounding does not leave the unit interval. -/
theorem nearest_le_one {q : ℚ} (h0 : 0 ≤ q) (h1 : q ≤ 1) : nearest q ≤ 1 := by
  have hlog : Int.log 2 |q| ≤ 0 := by
    rw [abs_of_nonneg h0]
    rcases h0.eq_or_lt with rfl | hpos
    · simp
    · simpa using Int.log_mono_right (b := 2) hpos h1
  obtain ⟨n, hn⟩ := exists_steps (e := lastBit q) (by unfold lastBit; omega)
  have hpos := two_zpow_pos (lastBit q)
  -- in steps of the last bit, `q` is at most the number of steps of one
  have hsteps : q / 2 ^ lastBit q ≤ n := by
    rw [div_le_iff₀ hpos, hn]
    exact h1
  calc nearest q ≤ n * 2 ^ lastBit q :=
        mul_le_mul_of_nonneg_right (by exact_mod_cast roundEven_le hsteps) hpos.le
    _ = 1 := hn

/-- Rounding does not take a number below one that was not. -/
theorem one_le_nearest {q : ℚ} (h : 1 ≤ q) : 1 ≤ nearest q := by
  have hpos := two_zpow_pos (lastBit q)
  rcases le_total (lastBit q) 0 with he | he
  · obtain ⟨n, hn⟩ := exists_steps he
    have hsteps : (n : ℚ) ≤ q / 2 ^ lastBit q := by
      rw [le_div_iff₀ hpos, hn]
      exact h
    calc (1 : ℚ) = n * 2 ^ lastBit q := hn.symm
      _ ≤ nearest q :=
        mul_le_mul_of_nonneg_right (by exact_mod_cast le_roundEven hsteps) hpos.le
  · -- the last bit is itself at least one, and `q` has at least one step of it
    have hlast : lastBit q ≤ Int.log 2 q := by
      rw [lastBit, abs_of_nonneg (by linarith)] at he ⊢
      omega
    have hsteps : ((1 : ℤ) : ℚ) ≤ q / 2 ^ lastBit q := by
      rw [Int.cast_one, le_div_iff₀ hpos, one_mul]
      calc (2 : ℚ) ^ lastBit q ≤ 2 ^ Int.log 2 q := zpow_le_zpow_right₀ (by norm_num) hlast
        _ ≤ q := Int.zpow_log_le_self (by norm_num) (by linarith)
    have hround : (1 : ℚ) ≤ roundEven (q / 2 ^ lastBit q) := by exact_mod_cast le_roundEven hsteps
    calc (1 : ℚ) ≤ 2 ^ lastBit q := one_le_zpow₀ (by norm_num) he
      _ ≤ nearest q := le_mul_of_one_le_left hpos.le hround

/-- A fraction keeps its place between zero and one. -/
theorem round_fraction {q : ℚ} (h0 : 0 ≤ q) (h1 : q ≤ 1) :
    ∃ r, round q = .finite r ∧ 0 ≤ r ∧ r ≤ 1 := by
  have hle := nearest_le_one h0 h1
  have hlt : |nearest q| < 2 ^ 1024 := by
    rw [abs_of_nonneg (nearest_nonneg h0)]
    exact hle.trans_lt (one_lt_pow₀ (by norm_num) (by norm_num))
  exact ⟨nearest q, if_pos hlt, nearest_nonneg h0, hle⟩

/-- One is a floating-point number. -/
@[simp]
theorem round_one : round 1 = .finite 1 := by
  have h1 : nearest 1 = 1 := (nearest_le_one (by norm_num) le_rfl).antisymm (one_le_nearest le_rfl)
  rw [round, h1, if_pos (by rw [abs_one]; exact one_lt_pow₀ (by norm_num) (by norm_num))]

/-! ## Arithmetic -/

/-- A number of the program text, or an `int` that an operation with a float converts. An `int`
beyond the floats becomes infinite here, where the language raises `OverflowError`. -/
def ofRat (q : ℚ) : Float := round q

/-- `-x`. -/
def neg : Float → Float
  | .finite a => .finite (-a)
  | .infinite s => .infinite (!s)
  | .nan => .nan

/-- `x + y`. -/
def add : Float → Float → Float
  | .finite a, .finite b => round (a + b)
  | .infinite s, .infinite t => if s = t then .infinite s else .nan
  | .infinite s, .finite _ | .finite _, .infinite s => .infinite s
  | .nan, _ | _, .nan => .nan

/-- `x * y`. -/
def mul : Float → Float → Float
  | .finite a, .finite b => round (a * b)
  | .infinite s, .infinite t => .infinite (s ^^ t)
  | .infinite s, .finite a | .finite a, .infinite s =>
    if a = 0 then .nan else .infinite (s ^^ decide (a < 0))
  | .nan, _ | _, .nan => .nan

/-- `0.0`. -/
instance : Zero Float := ⟨.finite 0⟩

/-- `1.0`. -/
instance : One Float := ⟨.finite 1⟩

/-- `-x`. -/
instance : Neg Float := ⟨neg⟩

/-- `x + y`. -/
instance : Add Float := ⟨add⟩

/-- `x - y`, which is `x + -y`. -/
instance : Sub Float := ⟨fun x y => x + -y⟩

/-- `x * y`. -/
instance : Mul Float := ⟨mul⟩

/-- `x / y`. -/
def div : Float → Float → Except String Float
  | x, .finite b =>
    if b = 0 then .error "float division by zero"
    else
      match x with
      | .finite a => .ok (round (a / b))
      | .infinite s => .ok (.infinite (s ^^ decide (b < 0)))
      | .nan => .ok .nan
  | .finite _, .infinite _ => .ok 0
  | _, _ => .ok .nan

/-- `m / n` on `int`, whose result is rounded once. -/
def trueDiv (m n : ℤ) : Except String Float :=
  if n = 0 then .error "division by zero" else .ok (round (m / n))

/-- The root of a nonnegative rational number, rounded to 53 bits. -/
def root (q : ℚ) : ℚ :=
  if q = 0 then 0
  else
    -- `4 ^ e` scales `q` to a number of 105 or 106 bits, whose root has 53
    let e := Int.log 2 q / 2 - 52
    let x := q / 4 ^ e
    let r : ℚ := Nat.sqrt ⌊x⌋₊
    (if x ≤ (r + 1 / 2) ^ 2 then r else r + 1) * 2 ^ e

/-- `math.sqrt(x)`. -/
def sqrt : Float → Except String Float
  | .finite q => if q < 0 then .error "math domain error" else .ok (.finite (root q))
  | .infinite negative =>
    if negative then .error "math domain error" else .ok (.infinite false)
  | .nan => .ok .nan

/-- `math.ceil(x)`. -/
def ceil : Float → Except String ℤ
  | .finite q => .ok ⌈q⌉
  | .infinite _ => .error "cannot convert float infinity to integer"
  | .nan => .error "cannot convert float NaN to integer"

/-- `math.isfinite(x)`. -/
def isFinite : Float → Bool
  | .finite _ => true
  | _ => false

/-- `x < y`. -/
def lt : Float → Float → Bool
  | .finite a, .finite b => decide (a < b)
  | .finite _, .infinite t => !t
  | .infinite s, .finite _ => s
  | .infinite s, .infinite t => s && !t
  | .nan, _ | _, .nan => false

/-- `x <= y`. -/
def le : Float → Float → Bool
  | .finite a, .finite b => decide (a ≤ b)
  | .finite _, .infinite t => !t
  | .infinite s, .finite _ => s
  | .infinite s, .infinite t => s || !t
  | .nan, _ | _, .nan => false

/-- `max(x, y)`. -/
def max (x y : Float) : Float := if lt x y then y else x

/-- `min(x, y)`. -/
def min (x y : Float) : Float := if lt y x then y else x

@[simp] theorem add_def (x y : Float) : x + y = add x y := rfl

@[simp] theorem sub_def (x y : Float) : x - y = add x (neg y) := rfl

@[simp] theorem mul_def (x y : Float) : x * y = mul x y := rfl

@[simp] theorem one_def : (1 : Float) = .finite 1 := rfl

@[simp] theorem zero_def : (0 : Float) = .finite 0 := rfl

/-! ## Signs -/

/-- `x` is not below zero. -/
def Nonneg (x : Float) : Prop := lt x 0 = false

/-- `x` is not zero or below. -/
def Pos (x : Float) : Prop := le x 0 = false

@[simp] theorem nonneg_finite {q : ℚ} : Nonneg (.finite q) ↔ 0 ≤ q := by simp [Nonneg, lt]

@[simp] theorem nonneg_infinite {s : Bool} : Nonneg (.infinite s) ↔ s = false := by
  simp [Nonneg, lt]

@[simp] theorem nonneg_nan : Nonneg .nan := rfl

@[simp] theorem pos_finite {q : ℚ} : Pos (.finite q) ↔ 0 < q := by simp [Pos, le]

@[simp] theorem pos_infinite {s : Bool} : Pos (.infinite s) ↔ s = false := by simp [Pos, le]

@[simp] theorem pos_nan : Pos .nan := rfl

/-- A positive number is not negative. -/
theorem Pos.nonneg {x : Float} (h : Pos x) : Nonneg x := by
  cases x with
  | finite q => exact nonneg_finite.mpr (pos_finite.mp h).le
  | infinite s => exact nonneg_infinite.mpr (pos_infinite.mp h)
  | nan => exact nonneg_nan

/-- A number that is not negative is not rounded to a negative one. -/
theorem nonneg_round {q : ℚ} (h : 0 ≤ q) : Nonneg (round q) := by
  have hnearest := nearest_nonneg h
  rw [round]
  split_ifs
  · exact nonneg_finite.mpr hnearest
  · simpa using hnearest

/-- A number of at least one is rounded to a positive one. -/
theorem pos_round {q : ℚ} (h : 1 ≤ q) : Pos (round q) := by
  have hnearest := one_le_nearest h
  rw [round]
  split_ifs
  · exact pos_finite.mpr (by linarith)
  · simp only [pos_infinite, decide_eq_false_iff_not, not_lt]
    linarith

/-- The sum of numbers that are not negative. -/
theorem Nonneg.add {x y : Float} (hx : Nonneg x) (hy : Nonneg y) : Nonneg (x + y) := by
  cases x <;> cases y <;> simp_all [Float.add]
  exact nonneg_round (add_nonneg hx hy)

/-- The product of numbers that are not negative. -/
theorem Nonneg.mul {x y : Float} (hx : Nonneg x) (hy : Nonneg y) : Nonneg (x * y) := by
  cases x <;> cases y <;> simp_all [Float.mul]
  · exact nonneg_round (mul_nonneg hx hy)
  all_goals split_ifs <;> simp_all

/-- One more than a number that is not negative is positive. -/
theorem Nonneg.one_add {x : Float} (h : Nonneg x) : Pos (1 + x) := by
  cases x with
  | finite q =>
    have := nonneg_finite.mp h
    exact pos_round (by linarith)
  | infinite s => exact pos_infinite.mpr (nonneg_infinite.mp h)
  | nan => exact pos_nan

/-- No division by what is positive is refused. -/
theorem div_ok (x : Float) {y : Float} (hy : Pos y) : ∃ z, div x y = .ok z := by
  cases y with
  | finite b =>
    have hb : b ≠ 0 := (pos_finite.mp hy).ne'
    cases x <;> simp [div, hb]
  | infinite t => cases x <;> simp [div]
  | nan => cases x <;> simp [div]

/-- A number that is not negative can be divided by a positive one. -/
theorem Nonneg.div_ok {x y : Float} (hx : Nonneg x) (hy : Pos y) :
    ∃ z, div x y = .ok z ∧ Nonneg z := by
  cases y with
  | finite b =>
    have hb := pos_finite.mp hy
    cases x with
    | finite a =>
      exact ⟨_, if_neg hb.ne', nonneg_round (div_nonneg (nonneg_finite.mp hx) hb.le)⟩
    | infinite s =>
      exact ⟨_, if_neg hb.ne', by simp [nonneg_infinite.mp hx, hb.le]⟩
    | nan => exact ⟨_, if_neg hb.ne', nonneg_nan⟩
  | infinite t => cases x <;> simp [div]
  | nan => cases x <;> simp [div]

/-- No root of what is not negative is refused. -/
theorem Nonneg.sqrt_ok {x : Float} (h : Nonneg x) : ∃ z, sqrt x = .ok z := by
  cases x with
  | finite q => exact ⟨_, if_neg (nonneg_finite.mp h).not_gt⟩
  | infinite s => exact ⟨_, if_neg (by simpa using h)⟩
  | nan => exact ⟨_, rfl⟩

end Float

end Py
