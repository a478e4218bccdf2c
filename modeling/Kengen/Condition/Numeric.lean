import Kengen.Lib.Strings

/-!
# Numeric parameters of a condition

A condition parameter of type `int` or `uint` arrives as a JSON number, a `float64`, or as a string.
`numericTypeConverterFunc` turns it into a `big.Float`, asks whether that is an integer and reads it
with `Int64`, for both types.

* `parseFloat`, `newFloat` — the `big.Float` of a string (64 bits of mantissa) and of a `float64`.
* `numericTypeConverter` — the converter, for `T = int64` and `T = uint64`.
* **`integers_exact_or_rejected`** — exactly the integers below `2^63`, for `int` not below `-2^63`, are
  converted to itself or, when negative for `uint`, rejected.
* **`integers_saturate`** — any other integer becomes the nearest `int64`: `Int64` saturates, and its
  accuracy is not looked at.

`math/big` is taken as documented.  Of the strings only decimal integers are parsed here; what
`ParseFloat` says of the others is the parameter `parseOther`.
-/

namespace Kengen.Condition

open Strings

/-! ### Numbers of `math/big` -/

/-- A `float64`: `± mantissa · 2 ^ (exponent - 1074)`, an infinity or no number. -/
inductive Float64 where
  | finite (negative : Bool) (mantissa : Fin (2 ^ 53)) (exponent : Fin 2046)
  | infinite (negative : Bool)
  | nan

/-- A `big.Float`: a rational number, or `none` for the infinities. -/
abbrev BigFloat := Option ℚ

/-- `big.NewFloat`, which is exact and panics for NaN. -/
def newFloat : Float64 → Option BigFloat
  | .finite negative mantissa exponent =>
    some (some ((if negative then -1 else 1) * (mantissa.val * 2 ^ exponent.val / 2 ^ 1074)))
  | .infinite _ => some none
  | .nan => none

/-- A number rounded to 64 bits of mantissa, to the nearest and then to even. -/
def roundMantissa (m : ℕ) : ℕ :=
  let unit := 2 ^ (m.size - 64)
  let low := m / unit
  let rest := m % unit
  (if 2 * rest < unit then low else if unit < 2 * rest then low + 1 else low + low % 2) * unit

/-- The value of decimal digits that follow digits of value `read`. -/
def digits (read : ℕ) : Str → Option ℕ
  | [] => some read
  | b :: s => if byte '0' ≤ b ∧ b ≤ byte '9' then digits (10 * read + (b - byte '0').toNat) s else none

/-- The integer that a decimal integer string denotes. -/
def decimal : Str → Option ℤ
  | [] => none
  | b :: s =>
    if b = byte '-' then if s = [] then none else (digits 0 s).map fun m => -(m : ℤ)
    else if b = byte '+' then if s = [] then none else (digits 0 s).map fun m => (m : ℤ)
    else (digits 0 (b :: s)).map fun m => (m : ℤ)

variable (parseOther : Str → Option BigFloat)

/-- `big.ParseFloat(s, 10, 64, ToNearestEven)`. -/
def parseFloat (s : Str) : Option BigFloat :=
  match decimal s with
  | some n => some (some ((n.sign * roundMantissa n.natAbs : ℤ) : ℚ))
  | none => parseOther s

/-- `Float.Int64`: truncates, and saturates outside the 64 bits. -/
def toInt64 (q : ℚ) : ℤ := max (-2 ^ 63) (min (2 ^ 63 - 1) (q.num.tdiv q.den))

/-! ### The converter -/

/-- The type of the parameter. -/
inductive NumericType where
  | int
  | uint
deriving DecidableEq

/-- What `structpb` or a caller hands over. -/
inductive Value where
  | int64 (n : Int64)
  | uint64 (n : UInt64)
  | float64 (x : Float64)
  | string (s : Str)
  | other

/-- The error texts, without the values that are printed in them. -/
inductive NumericError where
  /-- `expected type value '%T', but found '%s'` -/
  | typeValue
  /-- `expected a %T value, but found invalid string value '%v'` -/
  | invalidString
  /-- `expected an int value, but found numeric value '%s'`, or `a uint value` -/
  | notInteger
  /-- `expected a uint value, but found int64 value '%s'` -/
  | negative
deriving DecidableEq

inductive Converted where
  | value (n : ℤ)
  | error (e : NumericError)
  | panics
deriving DecidableEq

/-- The `switch` on the type. -/
def convertBig (T : NumericType) : BigFloat → Converted
  | none => .error .notInteger
  | some q =>
    if q.den ≠ 1 then .error .notInteger
    else
      match T with
      | .int => .value (toInt64 q)
      | .uint => if toInt64 q < 0 then .error .negative else .value (toInt64 q)

/-- `numericTypeConverterFunc`. -/
def numericTypeConverter : NumericType → Value → Converted
  | .int, .int64 n => .value n.toInt
  | .uint, .uint64 n => .value n.toNat
  | T, .float64 x =>
    match newFloat x with
    | some q => convertBig T q
    | none => .panics
  | T, .string s =>
    match parseFloat parseOther s with
    | some q => convertBig T q
    | none => .error .invalidString
  | _, _ => .error .typeValue

/-- The value is a decimal integer string or a `float64` that denotes `n`. -/
def Denotes (n : ℤ) : Value → Prop
  | .float64 x => newFloat x = some (some (n : ℚ))
  | .string s => decimal s = some n
  | _ => False

/-- The integers of the 64-bit type. -/
def NumericType.Fits (n : ℤ) : NumericType → Prop
  | .int => -2 ^ 63 ≤ n ∧ n < 2 ^ 63
  | .uint => 0 ≤ n ∧ n < 2 ^ 64

/-! ### What is converted -/

theorem roundMantissa_eq {m : ℕ} (h : m < 2 ^ 64) : roundMantissa m = m := by
  have hunit : m.size - 64 = 0 := Nat.sub_eq_zero_of_le (Nat.size_le.2 h)
  simp [roundMantissa, hunit, Nat.mod_one]

theorem roundMantissa_le {m : ℕ} (h : 2 ^ 63 ≤ m) : 2 ^ 63 ≤ roundMantissa m := by
  by_cases hm : m < 2 ^ 64
  · rwa [roundMantissa_eq hm]
  · -- the mantissa kept is the top 64 bits, and rounding does not lower it
    have hsize : 64 < m.size := Nat.lt_size.2 (not_lt.1 hm)
    have hunit : 0 < 2 ^ (m.size - 64) := Nat.two_pow_pos _
    have hlow : 2 ^ 63 ≤ m / 2 ^ (m.size - 64) := by
      rw [Nat.le_div_iff_mul_le hunit, ← Nat.pow_add]
      exact Nat.lt_size.1 (by omega)
    refine hlow.trans (Nat.le_trans ?_ (Nat.le_mul_of_pos_right _ hunit))
    split_ifs <;> omega

/-- **The `big.Float` of an integer** is that integer, or lies on the same side of the `int64`s. -/
theorem exists_bigFloat {T : NumericType} {v : Value} {n : ℤ}
    (hv : Denotes n v) :
    ∃ k : ℤ, numericTypeConverter parseOther T v = convertBig T (some (k : ℚ)) ∧
      toInt64 (k : ℚ) = max (-2 ^ 63) (min (2 ^ 63 - 1) n) := by
  cases v with
  | float64 x =>
    exact ⟨n, by cases T <;> simp [numericTypeConverter, show newFloat x = _ from hv], by simp [toInt64]⟩
  | string s =>
    refine ⟨n.sign * roundMantissa n.natAbs, by
      cases T <;> simp [numericTypeConverter, parseFloat, show decimal s = _ from hv], ?_⟩
    rw [toInt64, Rat.num_intCast, Rat.den_intCast, Nat.cast_one, Int.tdiv_one]
    by_cases hn : n.natAbs < 2 ^ 64
    · rw [roundMantissa_eq hn, Int.sign_mul_natAbs]
    · have hround := roundMantissa_le (m := n.natAbs) (by omega)
      rcases Int.lt_or_le n 0 with h | h
      · rw [Int.sign_eq_neg_one_of_neg h]
        omega
      · rw [Int.sign_eq_one_of_pos (by omega)]
        omega
  | _ => exact hv.elim

/-- **An integer is converted exactly or rejected if and only if** it is below `2^63`, and for `int`
not below `-2^63`. -/
theorem integers_exact_or_rejected (parseOther : Str → Option BigFloat) (T : NumericType) (v : Value)
    (n : ℤ) (hv : Denotes n v) :
    ((T.Fits n → numericTypeConverter parseOther T v = .value n) ∧
        (¬ T.Fits n → ∃ e, numericTypeConverter parseOther T v = .error e)) ↔
      (T = .int → -2 ^ 63 ≤ n) ∧ n < 2 ^ 63 := by
  obtain ⟨k, hk, hint⟩ := exists_bigFloat (T := T) parseOther hv
  rw [hk]
  cases T with
  | int =>
    constructor
    · -- an `int` is never rejected
      rintro ⟨-, hrejected⟩
      by_contra hnot
      obtain ⟨e, he⟩ := hrejected fun hfits => hnot ⟨fun _ => hfits.1, hfits.2⟩
      simp [convertBig] at he
    · rintro ⟨hlow, hhigh⟩
      have hfits := hlow rfl
      rw [min_eq_right (by omega), max_eq_right hfits] at hint
      exact ⟨fun _ => by simp [convertBig, hint], fun h => absurd ⟨hfits, hhigh⟩ h⟩
  | uint =>
    constructor
    · rintro ⟨hexact, hrejected⟩
      refine ⟨nofun, ?_⟩
      by_contra hhigh
      rw [min_eq_left (by omega), max_eq_right (by decide)] at hint
      have hvalue : convertBig .uint (some (k : ℚ)) = .value (2 ^ 63 - 1) := by
        simp [convertBig, hint]
      rw [hvalue] at hexact hrejected
      by_cases hfits : NumericType.uint.Fits n
      · have hn : (2 ^ 63 - 1 : ℤ) = n := Converted.value.inj (hexact hfits)
        omega
      · obtain ⟨e, he⟩ := hrejected hfits
        cases he
    · rintro ⟨-, hhigh⟩
      constructor
      · rintro ⟨hn, -⟩
        rw [min_eq_right (by omega), max_eq_right (by omega)] at hint
        simp [convertBig, hint, not_lt.2 hn]
      · intro h
        have hn : ¬ 0 ≤ n := fun hn => h ⟨hn, by omega⟩
        exact ⟨.negative, by simp [convertBig, show toInt64 (k : ℚ) < 0 by omega]⟩

/-- The largest `int64`, a negative number for a `uint`, and a `uint` that is not converted. -/
theorem integers_exact_or_rejected_bounds :
    numericTypeConverter (fun _ => none) .int (.string (str "9223372036854775807")) =
        .value 9223372036854775807 ∧
      (∃ e, numericTypeConverter (fun _ => none) .uint (.string (str "-1")) = .error e) ∧
      ¬ (NumericType.uint.Fits (2 ^ 63) →
        numericTypeConverter (fun _ => none) .uint (.string (str "9223372036854775808")) =
          .value (2 ^ 63)) :=
  ⟨((integers_exact_or_rejected _ .int (.string _) _ (by rfl)).2 ⟨by decide, by decide⟩).1
      ⟨by decide, by decide⟩,
    ((integers_exact_or_rejected _ .uint (.string _) (-1) (by rfl)).2 ⟨nofun, by decide⟩).2
      fun h => absurd h.1 (by decide),
    fun hexact => absurd ((integers_exact_or_rejected _ .uint (.string _) (2 ^ 63) (by rfl)).1
      ⟨hexact, fun h => absurd ⟨by decide, by decide⟩ h⟩).2 (by decide)⟩

/-- **Other integers change silently.**  `2^63`, as a string and as a `float64`, is no `int` and a
`uint`; both types convert it to `2^63 - 1`. -/
theorem integers_saturate :
    (Denotes (2 ^ 63) (.string (str "9223372036854775808")) ∧
        Denotes (2 ^ 63) (.float64 (.finite false 1 1137))) ∧
      (¬ NumericType.int.Fits (2 ^ 63) ∧ NumericType.uint.Fits (2 ^ 63)) ∧
      ∀ T v, v = .string (str "9223372036854775808") ∨ v = .float64 (.finite false 1 1137) →
        numericTypeConverter (fun _ => none) T v = .value (2 ^ 63 - 1) := by
  refine ⟨⟨by rfl, (by decide +kernel : newFloat _ = some (some _))⟩,
    ⟨fun h => absurd h.2 (by decide), by decide, by decide⟩, ?_⟩
  rintro T v (rfl | rfl) <;> cases T <;> decide +kernel

end Kengen.Condition
