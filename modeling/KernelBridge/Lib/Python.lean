import KernelBridge.Lib.Float
import Mathlib.Data.List.Forall2
import Mathlib.Tactic.Common

/-!
# Python values

The values that `json.loads` produces, with the operations of the language on them: lookup in a
dict, truth value, `==`, and the conversions between `bytes` and hexadecimal text.

A dict is a list of entries of which the first for a key counts; the order of its entries is
never observed. `==` between `bool`, `int` and `float` is equality of numbers, as in Python.

A list or a dict takes an element for equal to itself before it compares anything, and the NaN that
`json.loads` produces is always the same object. So two NaNs differ, but two lists that hold one in
the same place do not.
-/

universe u v

namespace Py

/-- A value read from JSON text. -/
inductive Json
  | null
  | bool (b : Bool)
  | int (n : ℤ)
  | float (x : Float)
  | str (s : String)
  | list (elems : List Json)
  | dict (entries : List (String × Json))

/-- The entry for `key` in a dict. -/
def lookup (key : String) : List (String × Json) → Option Json
  | [] => none
  | (k, v) :: rest => if k = key then some v else lookup key rest

namespace Json

/-- `d.get(key)`, with `none` also for what is no dict. -/
def get? (j : Json) (key : String) : Option Json :=
  match j with
  | .dict entries => lookup key entries
  | _ => none

/-- `isinstance(j, dict)`. -/
def isDict : Json → Bool
  | .dict _ => true
  | _ => false

/-- `type(j).__name__`. -/
def typeName : Json → String
  | .null => "NoneType"
  | .bool _ => "bool"
  | .int _ => "int"
  | .float _ => "float"
  | .str _ => "str"
  | .list _ => "list"
  | .dict _ => "dict"

/-- The text of the `AttributeError` for an attribute that the value does not have. -/
def noAttribute (j : Json) (name : String) : String :=
  "'" ++ j.typeName ++ "' object has no attribute '" ++ name ++ "'"

/-- The number in a value `v` with `type(v) is int`. -/
def int? : Json → Option ℤ
  | .int n => some n
  | _ => none

/-- `bool(j)`. -/
def truthy : Json → Bool
  | .null => false
  | .bool b => b
  | .int n => decide (n ≠ 0)
  | .float x => decide (x ≠ .finite 0)
  | .str s => decide (s ≠ "")
  | .list elems => !elems.isEmpty
  | .dict entries => !entries.isEmpty

/-- The value is a NaN, the only one that is not equal to itself. -/
def isNan : Json → Bool
  | .float .nan => true
  | _ => false

/-- The finite number that a `bool`, `int` or `float` is equal to. -/
def number : Json → Option ℚ
  | .bool b => some (if b then 1 else 0)
  | .int n => some n
  | .float (.finite q) => some q
  | _ => none

mutual

/-- `x == y`. -/
def eq : Json → Json → Bool
  | .null, .null => true
  | .float (.infinite s), .float (.infinite t) => decide (s = t)
  | .str s, .str t => decide (s = t)
  | .list xs, .list ys => eqList xs ys
  | .dict d, .dict d' => eqEntries [] d d' && d'.all fun e => (lookup e.1 d).isSome
  | x, y =>
    match x.number, y.number with
    | some p, some q => decide (p = q)
    | _, _ => false

/-- `x == y` on lists. -/
def eqList : List Json → List Json → Bool
  | [], [] => true
  | x :: xs, y :: ys => (x.isNan && y.isNan || eq x y) && eqList xs ys
  | _, _ => false

/-- Every entry of the first dict, those for the keys in `seen` apart, has an equal one in the
second. -/
def eqEntries : List String → List (String × Json) → List (String × Json) → Bool
  | _, [], _ => true
  | seen, (k, v) :: rest, d =>
    (decide (k ∈ seen) ||
      match lookup k d with
      | some w => v.isNan && w.isNan || eq v w
      | none => false) && eqEntries (k :: seen) rest d

end

@[simp] theorem isNan_int (n : ℤ) : (Json.int n).isNan = false := rfl

@[simp] theorem isNan_str (s : String) : (Json.str s).isNan = false := rfl

@[simp] theorem eq_int (m n : ℤ) : eq (.int m) (.int n) = decide (m = n) := by
  simp [eq, number]

@[simp] theorem eq_str (s t : String) : eq (.str s) (.str t) = decide (s = t) := by
  simp [eq]

/-- Dicts are equal if they have the same keys, with equal values. -/
theorem eq_dict (d d' : List (String × Json)) :
    eq (.dict d) (.dict d') =
      (eqEntries [] d d' && d'.all fun e => (lookup e.1 d).isSome) := by
  rw [eq]

end Json

/-- `d[key] = value`. -/
def setEntry (key : String) (value : Json) : List (String × Json) → List (String × Json)
  | [] => [(key, value)]
  | (k, v) :: rest =>
    if k = key then (key, value) :: rest else (k, v) :: setEntry key value rest

/-- After an assignment to a key, it has the new value and all others theirs. -/
@[simp]
theorem lookup_setEntry (key k : String) (value : Json) (d : List (String × Json)) :
    lookup k (setEntry key value d) = if k = key then some value else lookup k d := by
  induction d with
  | nil => simp [setEntry, lookup, eq_comm]
  | cons e d ih =>
    obtain ⟨k', v⟩ := e
    by_cases hk' : k' = key
    · subst hk'
      by_cases hk : k = k'
      · simp [setEntry, lookup, hk]
      · simp [setEntry, lookup, hk, Ne.symm hk]
    · rw [setEntry, if_neg hk', lookup, ih, lookup]
      by_cases hk : k = key
      · subst hk
        simp [hk']
      · simp [hk]

/-- The last assignment to a key counts. -/
@[simp]
theorem setEntry_setEntry (key : String) (v v' : Json) (d : List (String × Json)) :
    setEntry key v (setEntry key v' d) = setEntry key v d := by
  induction d with
  | nil => simp [setEntry]
  | cons e d ih =>
    obtain ⟨k, u⟩ := e
    by_cases hk : k = key
    · simp [setEntry, hk]
    · simp [setEntry, hk, ih]

/-- Assignments to two keys commute, if one of them is there already. -/
theorem setEntry_comm {key key' : String} (hne : key ≠ key') (v v' : Json)
    {d : List (String × Json)} (hkey : (lookup key d).isSome = true) :
    setEntry key v (setEntry key' v' d) = setEntry key' v' (setEntry key v d) := by
  induction d with
  | nil => cases hkey
  | cons e d ih =>
    obtain ⟨k, u⟩ := e
    by_cases hk : k = key
    · simp [setEntry, hk, hne]
    · have hrest := ih (by simpa [lookup, hk] using hkey)
      by_cases hk' : k = key'
      · simp [setEntry, hk', Ne.symm hne]
      · simp [setEntry, hk, hk', hrest]

namespace Json

/-- `d[key] = value`, on a dict. -/
def set (key : String) (value : Json) : Json → Json
  | .dict entries => .dict (setEntry key value entries)
  | j => j

/-- Looking a key up after an assignment to one. -/
@[simp]
theorem get?_set (key k : String) (value : Json) (entries : List (String × Json)) :
    (set key value (.dict entries)).get? k =
      if k = key then some value else (Json.dict entries).get? k :=
  lookup_setEntry key k value entries

end Json

/-- The first entry for a key is the one that is found. -/
theorem lookup_append_cons {before : List (String × Json)} {k : String}
    (h : k ∉ before.map Prod.fst) (v : Json) (rest : List (String × Json)) :
    lookup k (before ++ (k, v) :: rest) = some v := by
  induction before with
  | nil => simp [lookup]
  | cons e before ih =>
    simp only [List.map_cons, List.mem_cons, not_or] at h
    rw [List.cons_append, lookup, if_neg (Ne.symm h.1), ih h.2]

/-- A key of the dict is found. -/
theorem lookup_isSome_of_mem {d : List (String × Json)} {e : String × Json} (h : e ∈ d) :
    (lookup e.1 d).isSome = true := by
  induction d with
  | nil => cases h
  | cons e' d ih =>
    rw [lookup]
    split
    · rfl
    next hne =>
      refine ih ((List.mem_cons.mp h).resolve_left ?_)
      rintro rfl
      exact hne rfl

/-- What is found is an entry of the dict. -/
theorem mem_of_lookup {d : List (String × Json)} {k : String} {v : Json}
    (h : lookup k d = some v) : (k, v) ∈ d := by
  induction d with
  | nil => cases h
  | cons e d ih =>
    rw [lookup] at h
    split_ifs at h with hk
    · cases h
      exact hk ▸ List.mem_cons_self
    · exact List.mem_cons_of_mem e (ih h)

/-- A dict is equal to itself if its values are, a NaN apart. -/
theorem Json.eq_dict_self {d : List (String × Json)}
    (h : ∀ k v, lookup k d = some v → v.isNan = false → v.eq v = true) :
    Json.eq (.dict d) (.dict d) = true := by
  -- along the entries, `seen` holds the keys of those already compared
  have hentries : ∀ rest before, d = before ++ rest →
      eqEntries (before.map Prod.fst).reverse rest d = true := by
    intro rest
    induction rest with
    | nil => intro before _; rw [eqEntries]
    | cons e rest ih =>
      intro before hd
      obtain ⟨k, v⟩ := e
      have hrest := ih (before ++ [(k, v)]) (by simp [hd])
      rw [List.map_append, List.reverse_append] at hrest
      rw [eqEntries, Bool.and_eq_true]
      refine ⟨?_, hrest⟩
      by_cases hseen : k ∈ before.map Prod.fst
      · simp [hseen]
      · have hlook : lookup k d = some v := by rw [hd, lookup_append_cons hseen]
        cases hnan : v.isNan with
        | true => simp [hlook, hnan]
        | false => simp [hlook, h k v hlook hnan]
  rw [eq_dict, Bool.and_eq_true]
  exact ⟨hentries d [] rfl, List.all_eq_true.mpr fun e he => lookup_isSome_of_mem he⟩

/-- A list is equal to itself if its elements are, a NaN apart. -/
theorem Json.eqList_self {xs : List Json} (h : ∀ x ∈ xs, x.isNan = false → x.eq x = true) :
    eqList xs xs = true := by
  induction xs with
  | nil => rw [eqList]
  | cons x xs ih =>
    rw [eqList, Bool.and_eq_true]
    refine ⟨?_, ih fun y hy => h y (List.mem_cons_of_mem x hy)⟩
    cases hnan : x.isNan with
    | true => rfl
    | false => exact h x List.mem_cons_self hnan

/-- Every value but a NaN is equal to itself. -/
theorem Json.eq_self (j : Json) (h : j.isNan = false) : j.eq j = true := by
  match j with
  | .null => rw [eq]
  | .bool b => simp [eq, number]
  | .int n => simp
  | .float (.finite q) => simp [eq, number]
  | .float (.infinite s) => simp [eq]
  | .float .nan => cases h
  | .str s => simp
  | .list xs =>
    rw [eq]
    exact eqList_self fun x hx hnan =>
      have : sizeOf x < sizeOf xs := List.sizeOf_lt_of_mem hx
      Json.eq_self x hnan
  | .dict d =>
    refine eq_dict_self fun k v hv hnan => ?_
    -- `lookup` only finds entries, so the value is smaller than the dict
    have hmem : sizeOf (k, v) < sizeOf d := List.sizeOf_lt_of_mem (mem_of_lookup hv)
    have hsize : sizeOf v < sizeOf (k, v) := by simp
    exact Json.eq_self v hnan
termination_by sizeOf j
decreasing_by
  all_goals simp_wf
  all_goals omega

/-! ## Hexadecimal text -/

/-- The digit for a number below sixteen. -/
def hexDigit (n : ℕ) : Char := Char.ofNat (if n < 10 then 48 + n else 87 + n)

/-- `b.hex()`. -/
def hex (bytes : List UInt8) : String :=
  String.ofList (bytes.flatMap fun b => [hexDigit (b.toNat / 16), hexDigit (b.toNat % 16)])

/-- The value of a hexadecimal digit, of either case. -/
def hexValue (c : Char) : Option ℕ :=
  if 48 ≤ c.toNat ∧ c.toNat ≤ 57 then some (c.toNat - 48)
  else if 97 ≤ c.toNat ∧ c.toNat ≤ 102 then some (c.toNat - 87)
  else if 65 ≤ c.toNat ∧ c.toNat ≤ 70 then some (c.toNat - 55)
  else none

/-- ASCII white space, which may separate the bytes of hexadecimal text. -/
def isSpace (c : Char) : Bool := c.toNat == 32 || (9 ≤ c.toNat && c.toNat ≤ 13)

/-- The characters read by `bytes.fromhex`. -/
def fromHexChars : List Char → Option (List UInt8)
  | [] => some []
  | [c] => if isSpace c then some [] else none
  | c :: d :: rest =>
    if isSpace c then fromHexChars (d :: rest)
    else
      match hexValue c, hexValue d with
      | some high, some low =>
        (fromHexChars rest).map fun bytes => UInt8.ofNat (16 * high + low) :: bytes
      | _, _ => none

/-- `bytes.fromhex(s)`; `none` stands for the `ValueError`. -/
def fromHex (s : String) : Option (List UInt8) := fromHexChars s.toList

/-- A digit that was written is read back, and is no white space. -/
theorem hexValue_hexDigit {n : ℕ} (h : n < 16) :
    hexValue (hexDigit n) = some n ∧ isSpace (hexDigit n) = false := by
  have hall : ∀ m < 16, hexValue (hexDigit m) = some m ∧ isSpace (hexDigit m) = false := by decide
  exact hall n h

/-- What `hex` writes, `fromhex` reads back. -/
theorem fromHex_hex (bytes : List UInt8) : fromHex (hex bytes) = some bytes := by
  rw [fromHex, hex, String.toList_ofList]
  induction bytes with
  | nil => rfl
  | cons b bytes ih =>
    have hb := b.toNat_lt
    obtain ⟨hhigh, hspace⟩ := hexValue_hexDigit (show b.toNat / 16 < 16 by omega)
    obtain ⟨hlow, -⟩ := hexValue_hexDigit (show b.toNat % 16 < 16 by omega)
    have hbyte : 16 * (b.toNat / 16) + b.toNat % 16 = b.toNat := by omega
    simp [fromHexChars, hhigh, hlow, hspace, ih, hbyte]

/-- Every byte takes two digits. -/
theorem length_hex (bytes : List UInt8) : (hex bytes).length = 2 * bytes.length := by
  rw [hex, String.length_ofList]
  induction bytes with
  | nil => rfl
  | cons b bytes ih =>
    rw [List.flatMap_cons, List.length_append, ih, List.length_cons]
    simp
    omega

/-! ## Exceptions and comprehensions -/

/-- After a statement that went through, the next is executed. -/
theorem ok_bind {α β : Type u} {ε : Type v} (a : α) (f : α → Except ε β) :
    (Except.ok a >>= f) = f a := rfl

/-- A statement that raised is the last. -/
theorem error_bind {α β : Type u} {ε : Type v} (e : ε) (f : α → Except ε β) :
    (Except.error e >>= f) = .error e := rfl

/-- A sequence of statements goes through if each does. -/
theorem bind_eq_ok_iff {α β : Type u} {ε : Type v} {x : Except ε α} {f : α → Except ε β} {b : β} :
    (x >>= f) = .ok b ↔ ∃ a, x = .ok a ∧ f a = .ok b := by
  cases x <;> simp [bind, Except.bind]

/-- A comprehension whose element expression may raise goes through if it raises for no
element. -/
theorem mapM_eq_ok_iff {α β ε : Type*} {f : α → Except ε β} {xs : List α} {ys : List β} :
    xs.mapM f = .ok ys ↔ List.Forall₂ (fun x y => f x = .ok y) xs ys := by
  induction xs generalizing ys with
  | nil => simp [pure, Except.pure, eq_comm]
  | cons x xs ih =>
    rw [List.mapM_cons, List.forall₂_cons_left_iff]
    cases hx : f x with
    | error e => simp [bind, Except.bind]
    | ok y =>
      cases hxs : xs.mapM f with
      | error e => simp [bind, Except.bind, ← ih, hxs]
      | ok ys' => simp [bind, Except.bind, pure, Except.pure, ← ih, hxs, eq_comm]

/-- A comprehension has a value if its element expression has one for every element. -/
theorem exists_mapM_iff {α β ε : Type*} {f : α → Except ε β} {xs : List α} :
    (∃ ys, xs.mapM f = .ok ys) ↔ ∀ x ∈ xs, ∃ y, f x = .ok y := by
  simp only [mapM_eq_ok_iff]
  induction xs with
  | nil => simp
  | cons x xs ih =>
    rw [List.forall_mem_cons, ← ih]
    simp only [List.forall₂_cons_left_iff]
    constructor
    · rintro ⟨_, y, ys, hy, hys, rfl⟩
      exact ⟨⟨y, hy⟩, ys, hys⟩
    · rintro ⟨⟨y, hy⟩, ys, hys⟩
      exact ⟨y :: ys, y, ys, hy, hys, rfl⟩

/-- A loop goes through if its body raises for no element. -/
theorem forM_eq_ok {α ε : Type*} {f : α → Except ε Unit} {xs : List α}
    (h : ∀ x ∈ xs, f x = .ok ()) : xs.forM f = .ok () := by
  induction xs with
  | nil => rfl
  | cons x xs ih =>
    show (f x >>= fun _ => xs.forM f) = .ok ()
    rw [h x List.mem_cons_self]
    exact ih fun y hy => h y (List.mem_cons_of_mem x hy)

/-- A loop goes through, or an iteration raises. -/
theorem forM_cases {α ε : Type*} {P : ε → Prop} {f : α → Except ε Unit} {xs : List α}
    (h : ∀ x ∈ xs, f x = .ok () ∨ ∃ e, P e ∧ f x = .error e) :
    ((∀ x ∈ xs, f x = .ok ()) ∧ xs.forM f = .ok ()) ∨ ∃ e, P e ∧ xs.forM f = .error e := by
  induction xs with
  | nil => exact .inl ⟨by simp, rfl⟩
  | cons x xs ih =>
    have hcons : (x :: xs).forM f = f x >>= fun _ => xs.forM f := rfl
    rcases h x List.mem_cons_self with hx | ⟨e, he, hx⟩
    · rw [hcons, hx]
      refine (ih fun y hy => h y (List.mem_cons_of_mem x hy)).imp_left fun ⟨hall, hrest⟩ => ?_
      exact ⟨List.forall_mem_cons.mpr ⟨hx, hall⟩, hrest⟩
    · rw [hcons, hx]
      exact .inr ⟨e, he, rfl⟩

end Py
