import Mathlib.Data.List.Rotate

/-!
# Windows of a circular array

A list `data` read as a circular array: `window data start len` is the `len` slots from `start`
on, wrapping past the end, and `overwrite data pos bs` stores the block `bs` at the slots from
`pos` on. The lemmas relate the two as a queue uses them: dropping slots at the front moves the
start, a block stored right after the window extends it, and the part of a window before the end
of the array is a plain segment of the list.
-/

namespace Circular

variable {α : Type*}

/-- The `len` slots of the circular array `data` from `start` on. -/
def window (data : List α) (start len : ℕ) : List α := (data.rotate start).take len

/-- `data` with the block `bs` stored at the slots from `pos` on. -/
def overwrite (data : List α) (pos : ℕ) (bs : List α) : List α :=
  data.take pos ++ bs ++ data.drop (pos + bs.length)

variable {data bs : List α} {start len pos k : ℕ}

/-- A window of no elements is empty. -/
@[simp]
theorem window_zero (data : List α) (start : ℕ) : window data start 0 = [] := by
  simp [window]

/-- A window is as long as was asked for, if there is so much data. -/
theorem length_window (h : len ≤ data.length) : (window data start len).length = len := by
  simp [window, h]

/-- A start behind the end wraps around. -/
@[simp]
theorem window_mod (data : List α) (start len : ℕ) :
    window data (start % data.length) len = window data start len := by
  simp [window, List.rotate_mod]

/-- Slot `i` of a window. -/
theorem getElem_window {i : ℕ} (hi : i < (window data start len).length)
    (hmod : (i + start) % data.length < data.length) :
    (window data start len)[i] = data[(i + start) % data.length] := by
  simp [window, List.getElem_rotate]

/-- A shorter window from the same start. -/
theorem take_window (h : k ≤ len) : (window data start len).take k = window data start k := by
  simp [window, List.take_take, Nat.min_eq_left h]

/-- Dropping slots at the front of a window moves its start. -/
theorem drop_window (hk : k ≤ len) (hlen : len ≤ data.length) :
    (window data start len).drop k = window data (start + k) (len - k) := by
  have hk' : k ≤ (data.rotate start).length := by rw [List.length_rotate]; omega
  rw [window, window, ← List.rotate_rotate, List.rotate_eq_drop_append_take hk',
    List.take_append_of_le_length (by simp; omega), List.drop_take]

/-- The part of a window before the end of the array is a segment of the list. -/
theorem window_eq_segment (h : start + len ≤ data.length) :
    window data start len = (data.drop start).take len := by
  rw [window, List.rotate_eq_drop_append_take (by omega),
    List.take_append_of_le_length (by simp; omega)]

/-- Overwriting nothing changes nothing. -/
@[simp]
theorem overwrite_nil (data : List α) (pos : ℕ) : overwrite data pos [] = data := by
  simp [overwrite]

/-- Overwriting does not change the length. -/
theorem length_overwrite (h : pos + bs.length ≤ data.length) :
    (overwrite data pos bs).length = data.length := by
  simp only [overwrite, List.length_append, List.length_take, List.length_drop]
  omega

/-- A slot outside the stored block keeps its contents. -/
theorem getElem_overwrite_of_outside (h : pos + bs.length ≤ data.length) {i : ℕ}
    (hi : i < pos ∨ pos + bs.length ≤ i) (hi₁ : i < (overwrite data pos bs).length)
    (hi₂ : i < data.length) : (overwrite data pos bs)[i] = data[i] := by
  have hpos : (data.take pos).length = pos := by simp; omega
  rcases hi with hi | hi
  · simp [overwrite, List.getElem_append_left, hi, hpos]
  · simp only [overwrite, List.append_assoc]
    rw [List.getElem_append_right (by omega), List.getElem_append_right (by omega),
      List.getElem_drop]
    congr 1
    omega

/-- A slot of the stored block holds the block's byte. -/
theorem getElem_overwrite_of_inside (h : pos + bs.length ≤ data.length) {i : ℕ}
    (hi : i < bs.length) (hi₁ : pos + i < (overwrite data pos bs).length) :
    (overwrite data pos bs)[pos + i] = bs[i] := by
  have hpos : (data.take pos).length = pos := by simp; omega
  simp only [overwrite, List.append_assoc]
  rw [List.getElem_append_right (by omega), List.getElem_append_left (by omega)]
  congr 1
  omega

/-- A block stored at the slot right after a window, without wrapping and without running into
the window again, extends the window. -/
theorem window_overwrite (hstart : start < data.length)
    (hend : (start + len) % data.length + bs.length ≤ data.length)
    (hfree : len + bs.length ≤ data.length) :
    window (overwrite data ((start + len) % data.length) bs) start (len + bs.length) =
      window data start len ++ bs := by
  set w := (start + len) % data.length with hw
  have hlen : (overwrite data w bs).length = data.length := length_overwrite hend
  have hw_eq : w = start + len ∨ w + data.length = start + len := by
    rcases lt_or_ge (start + len) data.length with h | h
    · exact .inl (Nat.mod_eq_of_lt h)
    · rcases Nat.lt_or_ge (start + len - data.length) data.length with h' | h'
      · exact .inr (by rw [hw, Nat.mod_eq_sub_mod h, Nat.mod_eq_of_lt h']; omega)
      · omega
  apply List.ext_getElem
  · rw [length_window (by omega), List.length_append, length_window (by omega)]
  · intro i hi₁ hi₂
    have hi : i < len + bs.length := by rwa [length_window (by omega)] at hi₁
    -- the physical slot of index `i`, without the modulus
    obtain ⟨p, hp, hp_lt, hp_eq⟩ : ∃ p, (i + start) % data.length = p ∧ p < data.length ∧
        (p = i + start ∨ p + data.length = i + start) := by
      refine ⟨_, rfl, Nat.mod_lt _ (by omega), ?_⟩
      rcases lt_or_ge (i + start) data.length with h | h
      · exact .inl (Nat.mod_eq_of_lt h)
      · exact .inr (by rw [Nat.mod_eq_sub_mod h, Nat.mod_eq_of_lt (by omega)]; omega)
    have hp_new : (i + start) % (overwrite data w bs).length = p := by rw [hlen, hp]
    rw [getElem_window hi₁ (by rw [hp_new, hlen]; exact hp_lt)]
    simp only [hp_new]
    rcases lt_or_ge i len with hil | hil
    · rw [getElem_overwrite_of_outside hend (by omega) (by omega) hp_lt,
        List.getElem_append_left (by rw [length_window (by omega)]; exact hil),
        getElem_window _ (by rw [hp]; exact hp_lt)]
      simp only [hp]
    · rw [List.getElem_append_right (by rw [length_window (by omega)]; exact hil)]
      simp only [length_window (show len ≤ data.length by omega)]
      have hpw : p = w + (i - len) := by omega
      subst hpw
      exact getElem_overwrite_of_inside hend (by omega) (by omega)

end Circular
