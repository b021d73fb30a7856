import Mathlib.Algebra.Group.Nat.Defs
import Mathlib.Algebra.Order.Group.Int
import Mathlib.Data.List.GetD
import Mathlib.Data.List.TakeWhile
import Mathlib.Tactic.Common

/-!
# Strings of C

A string of C is the list of its characters up to the terminating NUL, which is none of them.
`stringAt` reads one from a buffer.

`strtou` is the conversion of the C standard that `strtoul` and `strtoull` do in base 10: white
space, a sign and decimal digits, the value of which is negated modulo `2 ^ w` behind a minus.
`Denotes` says what integer such a text denotes. `strtou_of_parts` and `exists_parts_of_consumed`
relate the two: a text is converted as a whole if and only if it denotes an integer.
-/

namespace CString

/-- A string of C. -/
structure CStr where
  chars : List UInt8
  nul_notMem : 0 ∉ chars
  deriving DecidableEq

/-- The character at an offset, the terminating NUL included. -/
def CStr.char (s : CStr) (i : ℕ) : UInt8 := s.chars.getD i 0

/-- The terminating NUL is the first NUL, and all that is behind it reads as NUL. -/
theorem CStr.char_eq_zero_iff (s : CStr) (i : ℕ) : s.char i = 0 ↔ s.chars.length ≤ i := by
  rw [CStr.char]
  rcases lt_or_ge i s.chars.length with hi | hi
  · rw [List.getD_eq_getElem _ _ hi]
    refine ⟨fun h => absurd (h ▸ List.getElem_mem hi) s.nul_notMem, fun h => ?_⟩
    exact absurd hi (not_lt.mpr h)
  · exact ⟨fun _ => hi, fun _ => List.getD_eq_default _ _ hi⟩

/-- The string that starts at an offset of a buffer. -/
def stringAt (buffer : List UInt8) (offset : ℕ) : List UInt8 :=
  (buffer.drop offset).takeWhile (· ≠ 0)

/-- The string behind `front` ends at the first NUL. -/
theorem stringAt_append {front chars : List UInt8} {offset : ℕ} (hchars : ∀ c ∈ chars, c ≠ 0)
    (tail : List UInt8) (hoffset : offset = front.length) :
    stringAt (front ++ (chars ++ 0 :: tail)) offset = chars := by
  rw [stringAt, hoffset, List.drop_left, List.takeWhile_append_of_pos (by simpa using hchars),
    List.takeWhile_cons_of_neg (by decide), List.append_nil]

/-! ## Numerals -/

/-- `isspace` in the C locale. -/
def isSpace (c : UInt8) : Bool := c = 0x20 || (0x09 ≤ c && c ≤ 0x0d)

/-- `isdigit`. -/
def isDigit (c : UInt8) : Bool := 0x30 ≤ c && c ≤ 0x39

/-- The number that decimal digits make. -/
def digitsValue (digits : List UInt8) : ℕ :=
  digits.foldl (fun value c => 10 * value + (c.toNat - 0x30)) 0

/-- What may stand in front of the digits. -/
inductive Sign
  | none
  | plus
  | minus
  deriving DecidableEq, Repr

/-- The characters of a sign. -/
def Sign.chars : Sign → List UInt8
  | none => []
  | plus => ['+'.toUInt8]
  | minus => ['-'.toUInt8]

/-- The number with its sign. -/
def Sign.apply : Sign → ℕ → ℤ
  | none, n | plus, n => n
  | minus, n => -n

/-- A sign does not change the absolute value. -/
@[simp]
theorem Sign.natAbs_apply (sign : Sign) (n : ℕ) : (sign.apply n).natAbs = n := by
  cases sign <;> simp [Sign.apply]

/-- The sign at the front of a text. -/
def Sign.ofFront (chars : List UInt8) : Sign :=
  if chars.head? = some '-'.toUInt8 then minus
  else if chars.head? = some '+'.toUInt8 then plus
  else none

/-- The text denotes `v`: white space, an optional sign, and at least one digit. -/
def Denotes (chars : List UInt8) (v : ℤ) : Prop :=
  ∃ (spaces : List UInt8) (sign : Sign) (digits : List UInt8),
    (∀ c ∈ spaces, isSpace c) ∧ digits ≠ [] ∧ (∀ c ∈ digits, isDigit c) ∧
      chars = spaces ++ (sign.chars ++ digits) ∧ v = sign.apply (digitsValue digits)

/-- What a conversion returns, and how many characters lie before the end that it stores. -/
structure Converted where
  value : ℕ
  consumed : ℕ
  erange : Bool
  deriving DecidableEq, Repr

/-- `strtoul` and `strtoull` in base 10, for a type of `w` bits. -/
def strtou (w : ℕ) (chars : List UInt8) : Converted :=
  let spaces := chars.takeWhile isSpace
  let rest := chars.dropWhile isSpace
  let sign := Sign.ofFront rest
  let digits := (rest.drop sign.chars.length).takeWhile isDigit
  let consumed := spaces.length + (sign.chars.length + digits.length)
  if digits = [] then { value := 0, consumed := 0, erange := false }
  else if 2 ^ w ≤ digitsValue digits then { value := 2 ^ w - 1, consumed, erange := true }
  else { value := (sign.apply (digitsValue digits) % 2 ^ w).toNat, consumed, erange := false }

/-- No sign is white space, and no digit is either or a sign. -/
theorem isSpace_eq_false_of_isDigit {c : UInt8} (h : isDigit c) :
    isSpace c = false ∧ c ≠ '-'.toUInt8 ∧ c ≠ '+'.toUInt8 := by
  obtain ⟨hlow, -⟩ : 0x30 ≤ c ∧ c ≤ 0x39 := by simpa [isDigit] using h
  have hlt (d : UInt8) (hd : d < 0x30) : d < c := UInt8.lt_of_lt_of_le hd hlow
  have hne (d : UInt8) (hd : d < 0x30) : c ≠ d := (UInt8.ne_of_lt (hlt d hd)).symm
  refine ⟨?_, hne _ (by decide), hne _ (by decide)⟩
  simp only [isSpace, hne 0x20 (by decide), decide_false, Bool.false_or, Bool.and_eq_false_iff,
    decide_eq_false_iff_not, UInt8.not_le]
  exact .inr (hlt 0x0d (by decide))

/-- The front of a text is found in a text that denotes an integer. -/
theorem ofFront_append {sign : Sign} {digits : List UInt8} (hne : digits ≠ [])
    (hdigits : ∀ c ∈ digits, isDigit c) : Sign.ofFront (sign.chars ++ digits) = sign := by
  cases sign with
  | plus => rfl
  | minus => rfl
  | none =>
    obtain ⟨c, digits, rfl⟩ := List.exists_cons_of_ne_nil hne
    obtain ⟨-, hminus, hplus⟩ := isSpace_eq_false_of_isDigit (hdigits c (by simp))
    simp [Sign.ofFront, Sign.chars, hminus, hplus]

/-- The white space of a text ends where its sign or its first digit stands. -/
theorem takeWhile_isSpace {spaces digits : List UInt8} (sign : Sign)
    (hspaces : ∀ c ∈ spaces, isSpace c) (hne : digits ≠ []) (hdigits : ∀ c ∈ digits, isDigit c) :
    (spaces ++ (sign.chars ++ digits)).takeWhile isSpace = spaces ∧
      (spaces ++ (sign.chars ++ digits)).dropWhile isSpace = sign.chars ++ digits := by
  rw [List.takeWhile_append_of_pos hspaces, List.dropWhile_append_of_pos hspaces]
  cases sign with
  | plus => exact ⟨List.append_nil _, rfl⟩
  | minus => exact ⟨List.append_nil _, rfl⟩
  | none =>
    obtain ⟨c, digits, rfl⟩ := List.exists_cons_of_ne_nil hne
    have hspace := (isSpace_eq_false_of_isDigit (hdigits c (by simp))).1
    simp [Sign.chars, hspace]

/-- The conversion of a text that denotes an integer takes all of it. -/
theorem strtou_of_parts (w : ℕ) {spaces digits : List UInt8} (sign : Sign)
    (hspaces : ∀ c ∈ spaces, isSpace c) (hne : digits ≠ []) (hdigits : ∀ c ∈ digits, isDigit c) :
    strtou w (spaces ++ (sign.chars ++ digits)) =
      { value :=
          if 2 ^ w ≤ digitsValue digits then 2 ^ w - 1
          else (sign.apply (digitsValue digits) % 2 ^ w).toNat
        consumed := (spaces ++ (sign.chars ++ digits)).length
        erange := decide (2 ^ w ≤ digitsValue digits) } := by
  obtain ⟨htake, hdrop⟩ := takeWhile_isSpace sign hspaces hne hdigits
  have hall : digits.takeWhile isDigit = digits := List.takeWhile_eq_self_iff.mpr hdigits
  simp only [strtou, htake, hdrop, ofFront_append hne hdigits, List.drop_left, hall, if_neg hne,
    List.length_append]
  by_cases hrange : 2 ^ w ≤ digitsValue digits <;> simp [hrange]

/-- A text is its sign and what is behind it. -/
theorem chars_ofFront (chars : List UInt8) :
    chars = (Sign.ofFront chars).chars ++ chars.drop (Sign.ofFront chars).chars.length := by
  rcases chars with _ | ⟨c, chars⟩
  · rfl
  · simp only [Sign.ofFront, List.head?_cons, Option.some.injEq]
    split_ifs with hminus hplus <;> simp [Sign.chars, *]

/-- No more is consumed than there is. -/
theorem consumed_le (w : ℕ) (chars : List UInt8) : (strtou w chars).consumed ≤ chars.length := by
  set rest := chars.dropWhile isSpace with hrest
  set sign := Sign.ofFront rest with hsign
  have hspaces : (chars.takeWhile isSpace).length + rest.length = chars.length := by
    rw [← List.length_append, List.takeWhile_append_dropWhile]
  have hfront : sign.chars.length + (rest.drop sign.chars.length).length = rest.length := by
    rw [← List.length_append, ← chars_ofFront]
  have hdigits := (List.takeWhile_prefix isDigit (l := rest.drop sign.chars.length)).length_le
  simp only [strtou, ← hrest, ← hsign]
  split_ifs <;> dsimp only <;> omega

/-- A text that is converted up to its end denotes an integer. -/
theorem exists_parts_of_consumed {w : ℕ} {chars : List UInt8} (hne : chars ≠ [])
    (h : (strtou w chars).consumed = chars.length) :
    ∃ (spaces : List UInt8) (sign : Sign) (digits : List UInt8),
      (∀ c ∈ spaces, isSpace c) ∧ digits ≠ [] ∧ (∀ c ∈ digits, isDigit c) ∧
        chars = spaces ++ (sign.chars ++ digits) := by
  set rest := chars.dropWhile isSpace with hrest
  set sign := Sign.ofFront rest with hsign
  set after := rest.drop sign.chars.length with hafter
  have hspaces : chars = chars.takeWhile isSpace ++ rest :=
    List.takeWhile_append_dropWhile.symm
  have hfront : rest = sign.chars ++ after := chars_ofFront rest
  have hlen : chars.length =
      (chars.takeWhile isSpace).length + (sign.chars.length + after.length) := by
    conv_lhs => rw [hspaces, hfront]
    simp only [List.length_append]
  have hdigits : after.takeWhile isDigit ≠ [] := by
    intro hnil
    have : (strtou w chars).consumed = 0 := by
      simp only [strtou, ← hrest, ← hsign, ← hafter, hnil, if_pos]
    rw [this] at h
    exact hne (List.length_eq_zero_iff.mp h.symm)
  have hconsumed : (strtou w chars).consumed =
      (chars.takeWhile isSpace).length + (sign.chars.length + (after.takeWhile isDigit).length) := by
    simp only [strtou, ← hrest, ← hsign, ← hafter, if_neg hdigits]
    split_ifs <;> rfl
  -- no character is left behind the digits
  have hall : after.takeWhile isDigit = after :=
    (List.takeWhile_prefix isDigit).eq_of_length (by omega)
  refine ⟨chars.takeWhile isSpace, sign, after, fun c hc => List.mem_takeWhile_imp hc,
    hall ▸ hdigits, ?_, ?_⟩
  · exact List.takeWhile_eq_self_iff.mp hall
  · rw [← hfront]
    exact hspaces

/-- A text denotes at most one integer. -/
theorem Denotes.unique {chars : List UInt8} {v v' : ℤ} (h : Denotes chars v)
    (h' : Denotes chars v') : v = v' := by
  obtain ⟨spaces, sign, digits, hspaces, hne, hdigits, rfl, rfl⟩ := h
  obtain ⟨spaces', sign', digits', hspaces', hne', hdigits', heq, rfl⟩ := h'
  obtain ⟨htake, hdrop⟩ := takeWhile_isSpace sign hspaces hne hdigits
  obtain ⟨htake', hdrop'⟩ := takeWhile_isSpace sign' hspaces' hne' hdigits'
  have hrest : sign.chars ++ digits = sign'.chars ++ digits' := by
    rw [← hdrop, ← hdrop', heq]
  have hsign : sign = sign' := by
    calc sign = Sign.ofFront (sign.chars ++ digits) := (ofFront_append hne hdigits).symm
      _ = Sign.ofFront (sign'.chars ++ digits') := by rw [hrest]
      _ = sign' := ofFront_append hne' hdigits'
  subst hsign
  rw [List.append_cancel_left hrest]

end CString
