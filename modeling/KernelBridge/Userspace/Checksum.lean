import KernelBridge.Userspace.Frame

/-!
# What the frame checksum detects

`frame_checksum` starts from the header words and mixes in one byte of the payload a round. Each
round is a bijection of the checksum, because the multiplier is odd, and a bijection on the byte it
mixes in. So a difference of one header word or of one byte is never lost again, however many
rounds follow it.

* `frameChecksum_detects`: a change of a single byte of the payload, of the writer or of the
  sequence number changes the checksum.
* `IsFrame.not_isFrame_set`: a frame with one byte of its payload changed is the frame of no
  message.
-/

open Function

namespace ConcurrentTest

/-! ## Rounds -/

/-- A run of injective rounds is injective in the value it starts from. -/
theorem foldl_injective {σ α : Type*} {f : σ → α → σ} (hf : ∀ a, Injective (f · a)) :
    ∀ l : List α, Injective fun s => l.foldl f s
  | [] => injective_id
  | a :: l => (foldl_injective hf l).comp (hf a)

/-- The multiplier of `frame_checksum` has an inverse modulo `2 ^ 32`. -/
theorem mul_multiplier_injective : Injective fun x : UInt32 => x * 16777619 := by
  refine LeftInverse.injective (g := fun x => x * 899433627) fun x => ?_
  calc x * 16777619 * 899433627 = x * (16777619 * 899433627) := UInt32.mul_assoc _ _ _
    _ = x := UInt32.mul_one x

/-- An exclusive or can be undone. -/
theorem xor_left_injective (y : UInt32) : Injective fun x : UInt32 => x ^^^ y :=
  fun _ _ => (UInt32.xor_left_inj y).mp

/-- A round of the checksum can be undone. -/
theorem checksumRound_injective (byte : UInt8) : Injective fun c => checksumRound c byte :=
  mul_multiplier_injective.comp (xor_left_injective _)

/-- One round tells the bytes it mixes in apart. -/
theorem checksumRound_byte_injective (checksum : UInt32) : Injective (checksumRound checksum) := by
  intro a b h
  have hxor : checksum ^^^ a.toUInt32 = checksum ^^^ b.toUInt32 := mul_multiplier_injective h
  have hword : a.toUInt32 = b.toUInt32 := (UInt32.xor_right_inj checksum).mp hxor
  simpa using congrArg UInt32.toUInt8 hword

/-! ## Changes of the payload -/

/-- Lists of one length that differ at one place only have the same bytes before and behind it. -/
theorem exists_of_existsUnique_ne {l l' : List UInt8} (hlen : l'.length = l.length)
    (h : ∃! i : ℕ, l[i]? ≠ l'[i]?) :
    ∃ before a b after, a ≠ b ∧ l = before ++ a :: after ∧ l' = before ++ b :: after := by
  obtain ⟨i, hne, hunique⟩ := h
  have heq (j : ℕ) (hj : j ≠ i) : l[j]? = l'[j]? := by
    by_contra hdiffer
    exact hj (hunique j hdiffer)
  have hi : i < l.length := by
    by_contra hout
    rw [List.getElem?_eq_none (by omega), List.getElem?_eq_none (by omega)] at hne
    exact hne rfl
  have hi' : i < l'.length := by omega
  have htake : l'.take i = l.take i := by
    refine List.ext_getElem? fun j => ?_
    rw [List.getElem?_take, List.getElem?_take]
    split_ifs with hj
    · exact (heq j (by omega)).symm
    · rfl
  have hdrop : l'.drop (i + 1) = l.drop (i + 1) := by
    refine List.ext_getElem? fun j => ?_
    rw [List.getElem?_drop, List.getElem?_drop]
    exact (heq _ (by omega)).symm
  refine ⟨l.take i, l[i], l'[i], l.drop (i + 1), ?_, ?_, ?_⟩
  · simpa [hi, hi'] using hne
  · simp
  · rw [← htake, ← hdrop]
    simp

/-- The bytes before the change lead to one value, the changed round separates it, and the rounds
behind it keep it apart. -/
theorem frameChecksum_ne_of_byte (writerId sequence payloadLen : UInt32)
    {payload payload' : List UInt8} (hpayload : payload.length = payloadLen.toNat)
    (hlen : payload'.length = payload.length) (h : ∃! i : ℕ, payload[i]? ≠ payload'[i]?) :
    frameChecksum writerId sequence payload payloadLen ≠
      frameChecksum writerId sequence payload' payloadLen := by
  obtain ⟨before, a, b, after, hab, rfl, rfl⟩ := exists_of_existsUnique_ne hlen h
  simp only [frameChecksum, List.take_of_length_le hpayload.le,
    List.take_of_length_le (hlen.trans hpayload).le, List.foldl_append, List.foldl_cons]
  intro heq
  have hround := foldl_injective checksumRound_injective after heq
  exact hab (checksumRound_byte_injective _ hround)

/-! ## Changes of the header -/

/-- The checksum is injective in the value that the header words make. -/
theorem frameChecksum_ne_of_seed {writerId writerId' sequence sequence' payloadLen : UInt32}
    (payload : List UInt8)
    (h : 2166136261 ^^^ writerId ^^^ sequence ≠ 2166136261 ^^^ writerId' ^^^ sequence') :
    frameChecksum writerId sequence payload payloadLen ≠
      frameChecksum writerId' sequence' payload payloadLen :=
  fun heq => h (xor_left_injective payloadLen (foldl_injective checksumRound_injective _ heq))

/-- A change of one byte of the payload, of the writer only or of the sequence number only changes
the checksum. -/
theorem frameChecksum_detects :
    (∀ (writerId sequence payloadLen : UInt32) (payload payload' : List UInt8),
      payload.length = payloadLen.toNat → payload'.length = payload.length →
      (∃! i : ℕ, payload[i]? ≠ payload'[i]?) →
      frameChecksum writerId sequence payload payloadLen ≠
        frameChecksum writerId sequence payload' payloadLen) ∧
    (∀ (writerId writerId' sequence payloadLen : UInt32) (payload : List UInt8),
      writerId ≠ writerId' →
      frameChecksum writerId sequence payload payloadLen ≠
        frameChecksum writerId' sequence payload payloadLen) ∧
    ∀ (writerId sequence sequence' payloadLen : UInt32) (payload : List UInt8),
      sequence ≠ sequence' →
      frameChecksum writerId sequence payload payloadLen ≠
        frameChecksum writerId sequence' payload payloadLen := by
  refine ⟨fun writerId sequence payloadLen payload payload' hpayload hlen h =>
    frameChecksum_ne_of_byte writerId sequence payloadLen hpayload hlen h, ?_, ?_⟩
  · intro writerId writerId' sequence payloadLen payload hne
    refine frameChecksum_ne_of_seed payload fun heq => hne ?_
    exact (UInt32.xor_right_inj _).mp (xor_left_injective sequence heq)
  · intro writerId sequence sequence' payloadLen payload hne
    exact frameChecksum_ne_of_seed payload fun heq => hne ((UInt32.xor_right_inj _).mp heq)

/-- Changes of a payload of two bytes, and of its header. -/
theorem frameChecksum_detects_two_bytes :
    frameChecksum 1 2 [3, 4] 2 ≠ frameChecksum 1 2 [3, 5] 2 ∧
      frameChecksum 1 2 [3, 4] 2 ≠ frameChecksum 6 2 [3, 4] 2 ∧
      frameChecksum 1 2 [3, 4] 2 ≠ frameChecksum 1 6 [3, 4] 2 := by
  obtain ⟨hbyte, hwriter, hsequence⟩ := frameChecksum_detects
  refine ⟨hbyte 1 2 2 [3, 4] [3, 5] rfl rfl ⟨1, by decide, fun i hi => ?_⟩,
    hwriter 1 6 2 2 [3, 4] (by decide), hsequence 1 2 6 2 [3, 4] (by decide)⟩
  match i, hi with
  | 0, h => exact absurd rfl h
  | 1, _ => rfl
  | n + 2, h => exact absurd rfl h

/-! ## Frames -/

variable {opts : TestOptions}

/-- A frame with a byte of its payload changed is the frame of no message. -/
theorem IsFrame.not_isFrame_set {message message' : Message opts} {bytes : List UInt8}
    (h : IsFrame message bytes) {i : ℕ} (hi : frameHeaderSize ≤ i) (hi' : i < bytes.length)
    {byte : UInt8} (hbyte : byte ≠ bytes[i]) : ¬ IsFrame message' (bytes.set i byte) := by
  intro h'
  have hbounds := opts.messageSize_bounds
  have hsize := h.size
  simp only [frameHeaderSize] at hi hbounds
  -- the header is untouched
  have hword (offset : ℕ) (hoffset : offset + 4 ≤ 20) :
      getBe32 ((bytes.set i byte).drop offset) = getBe32 (bytes.drop offset) := by
    have hget (j : ℕ) (hj : j < 4) :
        ((bytes.set i byte).drop offset).getD j 0 = (bytes.drop offset).getD j 0 := by
      simp only [List.getD_eq_getElem?_getD, List.getElem?_drop]
      rw [List.getElem?_set_ne (by omega)]
    simp only [getBe32, hget 0 (by omega), hget 1 (by omega), hget 2 (by omega), hget 3 (by omega)]
  have hchecksum := h'.checksum
  rw [hword 4 (by omega), hword 8 (by omega), hword 12 (by omega), hword 16 (by omega),
    h.checksum] at hchecksum
  refine frameChecksum_ne_of_byte _ _ _ ?_ ?_ ⟨i - 20, ?_, fun j hj => ?_⟩ hchecksum
  · simp [h.payloadLen, frameHeaderSize, hsize]
  · simp
  · have hplace : 20 + (i - 20) = i := by omega
    simp only [frameHeaderSize, List.getElem?_drop, hplace, List.getElem?_set_self hi',
      List.getElem?_eq_getElem hi']
    simpa using hbyte.symm
  · by_contra hne
    simp only [frameHeaderSize, List.getElem?_drop] at hj
    exact hj (List.getElem?_set_ne (by omega)).symm

end ConcurrentTest
