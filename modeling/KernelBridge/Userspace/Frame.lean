import Mathlib.Data.Fintype.Prod
import Mathlib.Data.List.GetD
import Mathlib.Logic.Equiv.Fin.Basic
import Mathlib.Tactic.Common

/-!
# The frames of the concurrency test

The framing of `userspace/concurrent_test.c`: a frame is the magic `SCF1`, four big-endian words
(writer, sequence number, payload length and checksum) and the payload. Words are `UInt32`, as in
the source, so their arithmetic wraps at `2 ^ 32`.

`IsFrame` says, without reference to any function of the test, when a block of bytes is the frame
of a given message; `isFrame_buildFrame` shows that `build_frame` produces such a block.
-/

namespace ConcurrentTest

/-- `MAX_THREADS`. -/
def maxThreads : ℕ := 64

/-- `MAX_MESSAGES`. -/
def maxMessages : ℕ := 100000

/-- `MAX_MESSAGE_SIZE`. -/
def maxMessageSize : ℕ := 4096

/-- `FRAME_HEADER_SIZE`. -/
def frameHeaderSize : ℕ := 20

/-- `struct test_options` without the device path; the bounds are those of `parse_args`. -/
structure TestOptions where
  writers : ℕ
  readers : ℕ
  messages : ℕ
  messageSize : ℕ
  writers_bounds : 1 ≤ writers ∧ writers ≤ maxThreads
  readers_bounds : 1 ≤ readers ∧ readers ≤ maxThreads
  messages_bounds : 1 ≤ messages ∧ messages ≤ maxMessages
  messageSize_bounds : frameHeaderSize ≤ messageSize ∧ messageSize ≤ maxMessageSize

/-- The messages of a run: a writer and a sequence number each. -/
abbrev Message (opts : TestOptions) : Type := Fin opts.writers × Fin opts.messages

/-- There are so many messages. -/
theorem card_message (opts : TestOptions) :
    Fintype.card (Message opts) = opts.writers * opts.messages := by
  simp [Message]

/-! ## Words -/

/-- `put_be32`: the four bytes stored at `dst`. -/
def putBe32 (value : UInt32) : List UInt8 :=
  [((value >>> 24) &&& 0xff).toUInt8, ((value >>> 16) &&& 0xff).toUInt8,
    ((value >>> 8) &&& 0xff).toUInt8, (value &&& 0xff).toUInt8]

/-- `get_be32`. -/
def getBe32 (src : List UInt8) : UInt32 :=
  ((src.getD 0 0).toUInt32 <<< 24) ||| ((src.getD 1 0).toUInt32 <<< 16) |||
    ((src.getD 2 0).toUInt32 <<< 8) ||| (src.getD 3 0).toUInt32

@[simp]
theorem length_putBe32 (value : UInt32) : (putBe32 value).length = 4 := rfl

/-- Bytes shifted to disjoint positions are added when they are joined. -/
theorem or_shifted_bytes (a : ℕ) {b c d : ℕ} (hb : b < 256) (hc : c < 256) (hd : d < 256) :
    a <<< 24 ||| b <<< 16 ||| c <<< 8 ||| d = a * 2 ^ 24 + b * 2 ^ 16 + c * 2 ^ 8 + d := by
  have hab : a <<< 24 ||| b <<< 16 = (a * 2 ^ 8 + b) <<< 16 := by
    rw [← Nat.shiftLeft_add_eq_or_of_lt (by omega)]
    simp only [Nat.shiftLeft_eq]
    omega
  have habc : (a * 2 ^ 8 + b) <<< 16 ||| c <<< 8 = (a * 2 ^ 16 + b * 2 ^ 8 + c) <<< 8 := by
    rw [← Nat.shiftLeft_add_eq_or_of_lt (by omega)]
    simp only [Nat.shiftLeft_eq]
    omega
  rw [hab, habc, ← Nat.shiftLeft_add_eq_or_of_lt (by omega), Nat.shiftLeft_eq]
  omega

/-- The value of a word, most significant byte first. -/
theorem toNat_getBe32 (src : List UInt8) :
    (getBe32 src).toNat =
      (src.getD 0 0).toNat * 2 ^ 24 + (src.getD 1 0).toNat * 2 ^ 16 +
        (src.getD 2 0).toNat * 2 ^ 8 + (src.getD 3 0).toNat := by
  have hbyte (i : ℕ) : (src.getD i 0).toNat < 256 := UInt8.toNat_lt _
  have h0 := hbyte 0
  have h1 := hbyte 1
  have h2 := hbyte 2
  rw [← or_shifted_bytes _ h1 h2 (hbyte 3)]
  simp only [getBe32, UInt32.toNat_or, UInt32.toNat_shiftLeft, UInt8.toNat_toUInt32,
    Nat.shiftLeft_eq, UInt32.reduceToNat, Nat.reduceMod]
  -- no shifted byte leaves the word
  rw [Nat.mod_eq_of_lt, Nat.mod_eq_of_lt, Nat.mod_eq_of_lt] <;> omega

/-- A word is read back as it was stored. -/
@[simp]
theorem getBe32_putBe32 (value : UInt32) (rest : List UInt8) :
    getBe32 (putBe32 value ++ rest) = value := by
  have hvalue := value.toNat_lt
  -- the mask keeps the byte that the shift has moved to the bottom
  have hmask (n : ℕ) : n &&& 255 = n % 256 := Nat.and_two_pow_sub_one_eq_mod n 8
  apply UInt32.toNat_inj.mp
  rw [toNat_getBe32]
  simp [putBe32, hmask, Nat.shiftRight_eq_div_pow]
  omega

/-- A word is read from the first four bytes only. -/
theorem getBe32_append {src : List UInt8} (rest : List UInt8) (h : 4 ≤ src.length) :
    getBe32 (src ++ rest) = getBe32 src := by
  simp only [getBe32, List.getD_append _ _ _ _ (show 0 < src.length by omega),
    List.getD_append _ _ _ _ (show 1 < src.length by omega),
    List.getD_append _ _ _ _ (show 2 < src.length by omega),
    List.getD_append _ _ _ _ (show 3 < src.length by omega)]

/-! ## Frames -/

/-- `FRAME_MAGIC`: the bytes of `SCF1`. -/
def frameMagic : List UInt8 := [0x53, 0x43, 0x46, 0x31]

@[simp]
theorem length_frameMagic : frameMagic.length = 4 := rfl

/-- One round of the loop of `frame_checksum`. -/
def checksumRound (checksum : UInt32) (byte : UInt8) : UInt32 :=
  (checksum ^^^ byte.toUInt32) * 16777619

/-- `frame_checksum`. -/
def frameChecksum (writerId sequence : UInt32) (payload : List UInt8) (payloadLen : UInt32) :
    UInt32 :=
  (payload.take payloadLen.toNat).foldl checksumRound
    (2166136261 ^^^ writerId ^^^ sequence ^^^ payloadLen)

/-- The payload that `build_frame` writes. -/
def buildPayload (payloadLen writerId sequence : UInt32) : List UInt8 :=
  (List.range payloadLen.toNat).map fun index =>
    ((writerId * 31 + sequence + .ofNat index) &&& 0xff).toUInt8

/-- `build_frame`: the frame left at `frame`. -/
def buildFrame (frameSize : ℕ) (writerId sequence : UInt32) : List UInt8 :=
  let payloadLen : UInt32 := .ofNat (frameSize - frameHeaderSize)
  let payload := buildPayload payloadLen writerId sequence
  let checksum := frameChecksum writerId sequence payload payloadLen
  frameMagic ++ putBe32 writerId ++ putBe32 sequence ++ putBe32 payloadLen ++ putBe32 checksum ++
    payload

variable {opts : TestOptions}

/-- The frame of a message as its writer thread builds it. -/
def Message.frame (message : Message opts) : List UInt8 :=
  buildFrame opts.messageSize (.ofNat message.1) (.ofNat message.2)

/-- `bytes` is a frame of the configured size for `message`: the magic, the fields of the message,
the length of the payload, a checksum that agrees with all of them, and a payload that fills the
frame. -/
structure IsFrame (message : Message opts) (bytes : List UInt8) : Prop where
  size : bytes.length = opts.messageSize
  magic : bytes.take 4 = frameMagic
  writerId : (getBe32 (bytes.drop 4)).toNat = message.1
  sequence : (getBe32 (bytes.drop 8)).toNat = message.2
  payloadLen : (getBe32 (bytes.drop 12)).toNat = opts.messageSize - frameHeaderSize
  checksum : getBe32 (bytes.drop 16) =
    frameChecksum (getBe32 (bytes.drop 4)) (getBe32 (bytes.drop 8)) (bytes.drop frameHeaderSize)
      (getBe32 (bytes.drop 12))

/-- A block of bytes is the frame of one message only. -/
theorem IsFrame.message_unique {message message' : Message opts} {bytes : List UInt8}
    (h : IsFrame message bytes) (h' : IsFrame message' bytes) : message = message' :=
  Prod.ext (Fin.ext (h.writerId.symm.trans h'.writerId))
    (Fin.ext (h.sequence.symm.trans h'.sequence))

/-- The payload of the configured size fits its length field. -/
theorem toNat_payloadLen (opts : TestOptions) :
    (UInt32.ofNat (opts.messageSize - frameHeaderSize)).toNat =
      opts.messageSize - frameHeaderSize := by
  have := opts.messageSize_bounds
  refine UInt32.toNat_ofNat_of_lt' ?_
  simp only [maxMessageSize, UInt32.size] at *
  omega

/-- The fields of a message fit their words. -/
theorem Message.toNat_fields (message : Message opts) :
    (UInt32.ofNat message.1).toNat = message.1 ∧ (UInt32.ofNat message.2).toNat = message.2 := by
  have hwriter := message.1.isLt
  have hsequence := message.2.isLt
  have := opts.writers_bounds
  have := opts.messages_bounds
  constructor <;> refine UInt32.toNat_ofNat_of_lt' ?_ <;>
    simp only [maxThreads, maxMessages, UInt32.size] at * <;> omega

/-- Where the header fields and the payload of a frame lie. -/
theorem frame_layout (writerId sequence payloadLen checksum : UInt32) (payload : List UInt8) :
    let bytes := frameMagic ++ putBe32 writerId ++ putBe32 sequence ++ putBe32 payloadLen ++
      putBe32 checksum ++ payload
    bytes.take 4 = frameMagic ∧ getBe32 (bytes.drop 4) = writerId ∧
      getBe32 (bytes.drop 8) = sequence ∧ getBe32 (bytes.drop 12) = payloadLen ∧
      getBe32 (bytes.drop 16) = checksum ∧ bytes.drop frameHeaderSize = payload :=
  ⟨rfl,
    getBe32_putBe32 writerId (putBe32 sequence ++ putBe32 payloadLen ++ putBe32 checksum ++ payload),
    getBe32_putBe32 sequence (putBe32 payloadLen ++ putBe32 checksum ++ payload),
    getBe32_putBe32 payloadLen (putBe32 checksum ++ payload),
    getBe32_putBe32 checksum payload, rfl⟩

/-- `build_frame` builds a frame of its message. -/
theorem isFrame_buildFrame (message : Message opts) : IsFrame message message.frame := by
  obtain ⟨hwriter, hsequence⟩ := message.toNat_fields
  have hlen := toNat_payloadLen opts
  obtain ⟨magic, writerId, sequence, payloadLen, checksum, payload⟩ :
      message.frame.take 4 = frameMagic ∧ _ := frame_layout _ _ _ _ _
  -- five words of four bytes, and the payload
  have hsize : message.frame.length =
      frameHeaderSize + (opts.messageSize - frameHeaderSize) := by
    simp only [Message.frame, buildFrame, buildPayload, List.length_append, length_frameMagic,
      length_putBe32, List.length_map, List.length_range, hlen]
    rfl
  exact {
    size := by
      rw [hsize]
      exact Nat.add_sub_cancel' opts.messageSize_bounds.1
    magic
    writerId := by rw [Message.frame, buildFrame, writerId, hwriter]
    sequence := by rw [Message.frame, buildFrame, sequence, hsequence]
    payloadLen := by rw [Message.frame, buildFrame, payloadLen, hlen]
    checksum := by
      rw [Message.frame, buildFrame, writerId, sequence, payloadLen, checksum, payload] }

end ConcurrentTest
