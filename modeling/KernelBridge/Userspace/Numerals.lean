import KernelBridge.Lib.CString

/-!
# Numeric arguments

`parse_u64` of `userspace/client.c` and `parse_uint` of `userspace/concurrent_test.c`, with the
callers of the first that narrow its result. Both reject a text that starts with a minus and leave
the rest to `strtoull` and `strtoul`, which skip white space and then accept a sign.

So a minus behind white space reaches the conversion, and the number behind it comes back negated
modulo the width of the type. `parse_truthful_iff` says when this happens: a text is read wrongly if
it is such a number and its negation lies within the bounds, and in no other case.
-/

open CString

namespace Numerals

/-- The errors of the numeric parsers. -/
inductive NumeralErrno
  | EINVAL
  | ERANGE
  deriving DecidableEq, Repr

/-- The common body of the parsers, for a conversion to `w` bits. -/
def parseUnsigned (w : ℕ) (text : Option CStr) (minValue maxValue : ℕ) : Except NumeralErrno ℕ :=
  match text with
  | none => .error .EINVAL
  | some text =>
    if text.char 0 = 0 ∨ text.char 0 = '-'.toUInt8 then .error .EINVAL
    else
      let converted := strtou w text.chars
      if converted.erange ∨ converted.consumed = 0 ∨ text.char converted.consumed ≠ 0 then
        .error .EINVAL
      else if converted.value < minValue ∨ maxValue < converted.value then .error .ERANGE
      else .ok converted.value

/-- A text that is accepted denotes an integer within the bounds, and this integer is stored. -/
def Truthful (text : Option CStr) (minValue maxValue : ℕ) (result : Except NumeralErrno ℕ) : Prop :=
  ∀ value, result = .ok value → ∃ (s : CStr) (v : ℤ), text = some s ∧ Denotes s.chars v ∧
    minValue ≤ v ∧ v ≤ maxValue ∧ v = value

/-- White space, a minus and a number other than zero, which comes within the bounds when it is
negated modulo `2 ^ w`. -/
def Wraps (w : ℕ) (text : Option CStr) (minValue maxValue : ℕ) : Prop :=
  ∃ (s : CStr) (spaces digits : List UInt8), text = some s ∧
    s.chars = spaces ++ '-'.toUInt8 :: digits ∧ spaces ≠ [] ∧ (∀ c ∈ spaces, isSpace c) ∧
    (∀ c ∈ digits, isDigit c) ∧ 0 < digitsValue digits ∧ digitsValue digits < 2 ^ w ∧
    minValue ≤ 2 ^ w - digitsValue digits ∧ 2 ^ w - digitsValue digits ≤ maxValue

/-- What the parsers accept: the text denotes an integer that fits `w` bits without its sign, does
not start with the minus, and is within the bounds modulo `2 ^ w`. -/
theorem parseUnsigned_eq_ok_iff (w : ℕ) (text : Option CStr) (minValue maxValue value : ℕ) :
    parseUnsigned w text minValue maxValue = .ok value ↔
      ∃ (s : CStr) (spaces : List UInt8) (sign : Sign) (digits : List UInt8), text = some s ∧
        s.chars = spaces ++ (sign.chars ++ digits) ∧ s.char 0 ≠ '-'.toUInt8 ∧
        (∀ c ∈ spaces, isSpace c) ∧ digits ≠ [] ∧ (∀ c ∈ digits, isDigit c) ∧
        digitsValue digits < 2 ^ w ∧ value = (sign.apply (digitsValue digits) % 2 ^ w).toNat ∧
        minValue ≤ value ∧ value ≤ maxValue := by
  rcases text with _ | s
  · simp [parseUnsigned]
  have hempty : s.char 0 = 0 ↔ s.chars = [] := by
    rw [s.char_eq_zero_iff, Nat.le_zero, List.length_eq_zero_iff]
  constructor
  · intro h
    simp only [parseUnsigned] at h
    split_ifs at h with hfront hconverted hbounds
    obtain ⟨hne, hminus⟩ := not_or.mp hfront
    obtain ⟨hrange, hsome, hend⟩ : (strtou w s.chars).erange = false ∧
        (strtou w s.chars).consumed ≠ 0 ∧ s.char (strtou w s.chars).consumed = 0 := by
      simpa using hconverted
    -- nothing is left behind the end of the conversion
    have hlen : (strtou w s.chars).consumed = s.chars.length :=
      le_antisymm (consumed_le w s.chars) ((s.char_eq_zero_iff _).mp hend)
    obtain ⟨spaces, sign, digits, hspaces, hdigitsne, hdigits, hchars⟩ :=
      exists_parts_of_consumed (mt hempty.mpr hne) hlen
    have hparts := strtou_of_parts w sign hspaces hdigitsne hdigits
    rw [← hchars] at hparts
    have hlt : digitsValue digits < 2 ^ w := by simpa [hparts] using hrange
    have hvalue : (strtou w s.chars).value = (sign.apply (digitsValue digits) % 2 ^ w).toNat := by
      simp [hparts, not_le.mpr hlt]
    obtain rfl : (strtou w s.chars).value = value := by simpa using h
    refine ⟨s, spaces, sign, digits, rfl, hchars, hminus, hspaces, hdigitsne, hdigits, hlt, hvalue,
      ?_, ?_⟩ <;> omega
  · rintro ⟨_, spaces, sign, digits, ⟨⟩, hchars, hminus, hspaces, hdigitsne, hdigits, hlt, hvalue,
      hmin, hmax⟩
    have hparts := strtou_of_parts w sign hspaces hdigitsne hdigits
    rw [← hchars] at hparts
    have hne : s.chars ≠ [] := by simp [hchars, hdigitsne]
    have hend : s.char s.chars.length = 0 := (s.char_eq_zero_iff _).mpr le_rfl
    simp only [parseUnsigned, hparts, if_neg (not_or.mpr ⟨mt hempty.mp hne, hminus⟩), hend]
    simp [not_le.mpr hlt, hne, ← hvalue, not_lt.mpr hmin, not_lt.mpr hmax]

/-- A number that fits `w` bits is itself modulo `2 ^ w`, and its negation is the complement. -/
theorem apply_mod {w m : ℕ} (hm : m < 2 ^ w) (sign : Sign) :
    (sign.apply m % 2 ^ w).toNat = if sign = .minus ∧ m ≠ 0 then 2 ^ w - m else m := by
  have hpos : ((m : ℕ) : ℤ) < 2 ^ w := by exact_mod_cast hm
  have hself : (((m : ℕ) : ℤ) % 2 ^ w).toNat = m := by
    rw [Int.emod_eq_of_lt (by omega) hpos, Int.toNat_natCast]
  cases sign with
  | none => simpa [Sign.apply] using hself
  | plus => simpa [Sign.apply] using hself
  | minus =>
    rcases Nat.eq_zero_or_pos m with rfl | hm0
    · simp [Sign.apply]
    · have hmod : (-((m : ℕ) : ℤ)) % 2 ^ w = 2 ^ w - m := by
        rw [← Int.add_emod_right, Int.emod_eq_of_lt] <;> omega
      have hcast : ((2 ^ w : ℕ) : ℤ) = 2 ^ w := by push_cast; rfl
      rw [Sign.apply, hmod, if_pos ⟨rfl, by omega⟩]
      omega

/-- A parser reads every text as the integer that it denotes, but for those that wrap. -/
theorem truthful_parseUnsigned_iff (w : ℕ) (text : Option CStr) (minValue maxValue : ℕ) :
    Truthful text minValue maxValue (parseUnsigned w text minValue maxValue) ↔
      ¬ Wraps w text minValue maxValue := by
  constructor
  · rintro htruthful ⟨s, spaces, digits, rfl, hchars, hne, hspaces, hdigits, hpos, hlt, hmin, hmax⟩
    obtain ⟨c, spaces, rfl⟩ := List.exists_cons_of_ne_nil hne
    have hdigitsne : digits ≠ [] := by
      rintro rfl
      exact absurd hpos (by decide)
    have hminus : s.char 0 ≠ '-'.toUInt8 := by
      intro h
      have hc : c = '-'.toUInt8 := by simpa [CStr.char, hchars] using h
      have hspace := hspaces c (by simp)
      rw [hc] at hspace
      exact absurd hspace (by decide)
    -- the number is accepted with its complement
    have haccepted := (parseUnsigned_eq_ok_iff w (some s) minValue maxValue
      (2 ^ w - digitsValue digits)).mpr ⟨s, c :: spaces, .minus, digits, rfl, hchars, hminus, hspaces,
        hdigitsne, hdigits, hlt, by rw [apply_mod hlt, if_pos ⟨rfl, hpos.ne'⟩], hmin, hmax⟩
    obtain ⟨_, v, ⟨⟩, hdenotes, hv, -, -⟩ := htruthful _ haccepted
    have hneg := hdenotes.unique
      ⟨c :: spaces, .minus, digits, hspaces, hdigitsne, hdigits, hchars, rfl⟩
    simp only [Sign.apply] at hneg
    omega
  · intro hwraps value haccepted
    obtain ⟨s, spaces, sign, digits, rfl, hchars, hminus, hspaces, hne, hdigits, hlt, hvalue, hmin,
      hmax⟩ := (parseUnsigned_eq_ok_iff w text minValue maxValue value).mp haccepted
    have hdenotes : Denotes s.chars (sign.apply (digitsValue digits)) :=
      ⟨spaces, sign, digits, hspaces, hne, hdigits, hchars, rfl⟩
    rw [apply_mod hlt] at hvalue
    by_cases hnegative : sign = .minus ∧ digitsValue digits ≠ 0
    · -- a minus at the front is rejected, so white space stands before it
      obtain ⟨rfl, hpos⟩ := hnegative
      rw [if_pos ⟨rfl, hpos⟩] at hvalue
      have hspacesne : spaces ≠ [] := by
        rintro rfl
        exact hminus (by simp [CStr.char, hchars, Sign.chars])
      exact absurd ⟨s, spaces, digits, rfl, hchars, hspacesne, hspaces, hdigits, by omega, hlt,
        by omega, by omega⟩ hwraps
    · have hvalue' : sign.apply (digitsValue digits) = value := by
        rw [if_neg hnegative] at hvalue
        cases sign <;> simp_all [Sign.apply]
      exact ⟨s, _, rfl, hdenotes, by omega, by omega, hvalue'⟩

end Numerals

namespace Client

open Numerals

/-- `parse_u64`. -/
def parseU64 (text : Option CStr) (minValue maxValue : UInt64) : Except NumeralErrno UInt64 :=
  (parseUnsigned 64 text minValue.toNat maxValue.toNat).map .ofNat

/-- `parse_size_arg`, for a `size_t` of 64 bits. -/
def parseSizeArg (text : Option CStr) (minValue maxValue : UInt64) : Except NumeralErrno UInt64 :=
  parseU64 text minValue maxValue

/-- `parse_int_arg`. -/
def parseIntArg (text : Option CStr) (minValue maxValue : Int32) : Except NumeralErrno Int32 :=
  (parseU64 text minValue.toInt64.toUInt64 maxValue.toInt64.toUInt64).map
    fun parsed => parsed.toInt64.toInt32

end Client

namespace ConcurrentTest

open Numerals

/-- `parse_uint`, for an `unsigned long` of `longBits` bits. -/
def parseUint (longBits : ℕ) (text : Option CStr) (minValue maxValue : UInt32) :
    Except NumeralErrno UInt32 :=
  (parseUnsigned longBits text minValue.toNat maxValue.toNat).map .ofNat

end ConcurrentTest

namespace Numerals

/-- A conversion of the value that can be undone. -/
theorem truthful_map_ok {α : Type*} {text : Option CStr} {minValue maxValue : ℕ}
    {result : Except NumeralErrno ℕ} {f : ℕ → α} {g : α → ℕ}
    (h : ∀ value, result = .ok value → g (f value) = value) :
    Truthful text minValue maxValue ((result.map f).map g) ↔
      Truthful text minValue maxValue result := by
  have heq : (result.map f).map g = result := by
    rcases result with e | value
    · rfl
    · exact congrArg Except.ok (h value rfl)
  rw [heq]

/-- What is accepted is within the bounds, so the type of the result holds it. -/
theorem le_of_parseUnsigned {w : ℕ} {text : Option CStr} {minValue maxValue value : ℕ}
    (h : parseUnsigned w text minValue maxValue = .ok value) : value ≤ maxValue := by
  obtain ⟨s, spaces, sign, digits, -, -, -, -, -, -, -, -, -, hmax⟩ :=
    (parseUnsigned_eq_ok_iff w text minValue maxValue value).mp h
  exact hmax

/-- Both parsers read a text as the integer that it denotes unless it wraps into the bounds. -/
theorem parse_truthful_iff (text : Option CStr) (minValue maxValue : UInt64) (longBits : ℕ)
    (minCount maxCount : UInt32) :
    (Truthful text minValue.toNat maxValue.toNat
        ((Client.parseU64 text minValue maxValue).map UInt64.toNat) ↔
      ¬ Wraps 64 text minValue.toNat maxValue.toNat) ∧
    (Truthful text minCount.toNat maxCount.toNat
        ((ConcurrentTest.parseUint longBits text minCount maxCount).map UInt32.toNat) ↔
      ¬ Wraps longBits text minCount.toNat maxCount.toNat) := by
  constructor
  · rw [← truthful_parseUnsigned_iff, Client.parseU64]
    refine truthful_map_ok fun value h => UInt64.toNat_ofNat_of_lt' ?_
    exact (le_of_parseUnsigned h).trans_lt maxValue.toNat_lt
  · rw [← truthful_parseUnsigned_iff, ConcurrentTest.parseUint]
    refine truthful_map_ok fun value h => UInt32.toNat_ofNat_of_lt' ?_
    exact (le_of_parseUnsigned h).trans_lt maxCount.toNat_lt

/-- A nonnegative `int` is kept by its conversion to `uint64_t`. -/
theorem toNat_toUInt64 {x : Int32} (h : 0 ≤ x) :
    (x.toInt64.toUInt64.toNat : ℤ) = x.toInt := by
  have hint : 0 ≤ x.toInt := Int32.le_iff_toInt_le.mp h
  have hnonneg : 0 ≤ x.toInt64 := by
    rw [Int64.le_iff_toInt_le, Int32.toInt_toInt64]
    exact hint
  rw [Int64.toNat_toUInt64_of_le hnonneg, Int64.toNatClampNeg, Int32.toInt_toInt64,
    Int.toNat_of_nonneg hint]

/-- A number that fits an `int` is kept by the conversion to it. -/
theorem toInt_toInt32 {n : ℕ} (h : n < 2 ^ 31) : (UInt64.ofNat n).toInt64.toInt32.toInt = n := by
  simp only [UInt64.toInt64_ofNat', Int64.toInt32_ofNat', Int32.toInt_ofNat']
  rw [Int.bmod_eq_of_le] <;> simp only [Int32.size] <;> omega

/-- `parse_int_arg` between nonnegative bounds, which go through `uint64_t`. -/
theorem parseIntArg_truthful {text : Option CStr} {minValue maxValue value : Int32}
    (hmin : 0 ≤ minValue) (hmax : 0 ≤ maxValue)
    (hwraps : ¬ Wraps 64 text minValue.toInt64.toUInt64.toNat maxValue.toInt64.toUInt64.toNat)
    (h : Client.parseIntArg text minValue maxValue = .ok value) :
    ∃ s, text = some s ∧ Denotes s.chars value.toInt ∧ minValue ≤ value ∧ value ≤ maxValue := by
  rcases hparsed : parseUnsigned 64 text minValue.toInt64.toUInt64.toNat
    maxValue.toInt64.toUInt64.toNat with e | n
  · simp [Client.parseIntArg, Client.parseU64, hparsed, Except.map] at h
  obtain ⟨s, v, hs, hdenotes, hge, hle, rfl⟩ :=
    (truthful_parseUnsigned_iff 64 text _ _).mpr hwraps n hparsed
  obtain rfl : (UInt64.ofNat n).toInt64.toInt32 = value := by
    simpa [Client.parseIntArg, Client.parseU64, hparsed, Except.map] using h
  have hlt := maxValue.toInt_lt
  rw [toNat_toUInt64 hmin] at hge
  rw [toNat_toUInt64 hmax] at hle
  have hvalue := toInt_toInt32 (n := n) (by omega)
  refine ⟨s, hs, hvalue ▸ hdenotes, ?_, ?_⟩ <;> rw [Int32.le_iff_toInt_le, hvalue]
  · exact hge
  · exact hle

/-- `" -18446744073709551615"`. -/
def wrappingText : CStr where
  chars := [0x20, 0x2d, 0x31, 0x38, 0x34, 0x34, 0x36, 0x37, 0x34, 0x34, 0x30, 0x37, 0x33, 0x37, 0x30,
    0x39, 0x35, 0x35, 0x31, 0x36, 0x31, 0x35]
  nul_notMem := by decide

/-- A byte count of `read` and a number of writers, given as a negative number, are taken as `1`. -/
theorem parse_wrapping_text :
    Client.parseU64 (some wrappingText) 0 1048576 = .ok 1 ∧
      ConcurrentTest.parseUint 64 (some wrappingText) 1 64 = .ok 1 ∧
      Denotes wrappingText.chars (-18446744073709551615) ∧
      ¬ Truthful (some wrappingText) 0 1048576
        ((Client.parseU64 (some wrappingText) 0 1048576).map UInt64.toNat) ∧
      ¬ Truthful (some wrappingText) 1 64
        ((ConcurrentTest.parseUint 64 (some wrappingText) 1 64).map UInt32.toNat) := by
  have hclient : Client.parseU64 (some wrappingText) 0 1048576 = .ok 1 := by decide +kernel
  have htest : ConcurrentTest.parseUint 64 (some wrappingText) 1 64 = .ok 1 := by decide +kernel
  have hdenotes : Denotes wrappingText.chars (-18446744073709551615) :=
    ⟨[0x20], .minus, wrappingText.chars.drop 2, by decide +kernel, by decide, by decide +kernel,
      by decide +kernel, by decide +kernel⟩
  refine ⟨hclient, htest, hdenotes, fun h => ?_, fun h => ?_⟩
  · obtain ⟨s, v, hs, hv, hmin, -, -⟩ := h 1 (by rw [hclient]; rfl)
    obtain rfl : wrappingText = s := Option.some.inj hs
    have := hv.unique hdenotes
    omega
  · obtain ⟨s, v, hs, hv, hmin, -, -⟩ := h 1 (by rw [htest]; rfl)
    obtain rfl : wrappingText = s := Option.some.inj hs
    have := hv.unique hdenotes
    omega

end Numerals
