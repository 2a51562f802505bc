import Mathlib.Tactic.IntervalCases
import Backchain.Text.Utf8

/-!
Decoding undoes encoding.

The octets of a character take the machine from between characters back there, and it gives that
character. So the octets of a text, whatever comes after them, are decoded to the text, and no part of
them is replaced.
-/
set_option autoImplicit false

namespace Backchain.Utf8

/-! ## The machine octet by octet -/

theorem decodeFrom_cons (state : Option Open) (octet : UInt8) (octets : List UInt8) :
    decodeFrom state (octet :: octets) =
      (next state octet.toNat).1 ++ decodeFrom (next state octet.toNat).2 octets := by
  cases state <;> rfl

theorem first_one {value : Nat} (small : value < 0x80) :
    first value = ([Char.ofNat value], none) := by
  rw [first, if_pos small]

theorem first_two {value : Nat} (low : 2 ≤ value) (high : value ≤ 31) :
    first (value + 0xc0) = ([], some { value, owed := 1 }) := by
  interval_cases value <;> rfl

theorem first_three {value : Nat} (high : value ≤ 15) :
    first (value + 0xe0) = ([], some
      { value, owed := 2,
        low := if value = 0 then 0xa0 else 0x80, high := if value = 0xd then 0x9f else 0xbf }) := by
  interval_cases value <;> rfl

theorem first_four {value : Nat} (high : value ≤ 4) :
    first (value + 0xf0) = ([], some
      { value, owed := 3,
        low := if value = 0 then 0x90 else 0x80, high := if value = 4 then 0x8f else 0xbf }) := by
  interval_cases value <;> rfl

theorem next_last {char : Open} {tail : Nat} (owed : char.owed = 1) (low : char.low ≤ tail + 0x80)
    (high : tail + 0x80 ≤ char.high) :
    next (some char) (tail + 0x80) = ([Char.ofNat (char.value * 0x40 + tail)], none) := by
  simp [next, low, high, owed]

theorem next_more {char : Open} {tail : Nat} (owed : 1 < char.owed) (low : char.low ≤ tail + 0x80)
    (high : tail + 0x80 ≤ char.high) :
    next (some char) (tail + 0x80) =
      ([], some { value := char.value * 0x40 + tail, owed := char.owed - 1 }) := by
  simp [next, low, high, Nat.not_le_of_lt owed]

theorem next_none (octet : Nat) : next none octet = first octet :=
  rfl

/-! ## Characters -/

theorem toNat_octet {value : Nat} (small : value < 256) : (UInt8.ofNat value).toNat = value :=
  UInt8.toNat_ofNat_of_lt' small

/-- The number of a character is no surrogate half, and below the end of the range. -/
theorem number_cases (c : Char) :
    c.val.toNat < 0xd800 ∨ 0xe000 ≤ c.val.toNat ∧ c.val.toNat < 0x110000 := by
  rcases c.valid with low | ⟨above, below⟩
  · exact .inl low
  · exact .inr ⟨above, below⟩

theorem decodeFrom_utf8EncodeChar (c : Char) (rest : List UInt8) :
    decodeFrom none (String.utf8EncodeChar c ++ rest) = c :: decodeFrom none rest := by
  have range := number_cases c
  have back : Char.ofNat c.val.toNat = c := Char.ofNat_toNat c
  simp only [String.utf8EncodeChar]
  generalize c.val.toNat = number at range back
  split
  next one =>
    rw [List.singleton_append, decodeFrom_cons, toNat_octet (by omega), next_none,
      first_one (by omega), back]
    rfl
  split
  next two =>
    -- Five bits, then six.
    have head : (UInt8.ofNat (number / 64 % 32 + 0xc0)).toNat = number / 64 + 0xc0 := by
      rw [toNat_octet (by omega)]
      omega
    have last : (UInt8.ofNat (number % 64 + 0x80)).toNat = number % 64 + 0x80 :=
      toNat_octet (by omega)
    have whole : number / 64 * 0x40 + number % 64 = number := by omega
    simp only [List.cons_append, List.nil_append, decodeFrom_cons, head, last, next_none]
    rw [first_two (by omega) (by omega), next_last rfl (by simp) (by simp; omega), whole, back]
    rfl
  split
  next three =>
    -- Four bits, then twice six.
    have head : (UInt8.ofNat (number / 4096 % 16 + 0xe0)).toNat = number / 4096 + 0xe0 := by
      rw [toNat_octet (by omega)]
      omega
    have middle : (UInt8.ofNat (number / 64 % 64 + 0x80)).toNat = number / 64 % 64 + 0x80 :=
      toNat_octet (by omega)
    have last : (UInt8.ofNat (number % 64 + 0x80)).toNat = number % 64 + 0x80 :=
      toNat_octet (by omega)
    have whole : (number / 4096 * 0x40 + number / 64 % 64) * 0x40 + number % 64 = number := by omega
    have low : (if number / 4096 = 0 then 0xa0 else 0x80) ≤ number / 64 % 64 + 0x80 := by
      split <;> omega
    have high : number / 64 % 64 + 0x80 ≤ if number / 4096 = 0xd then 0x9f else 0xbf := by
      split <;> omega
    simp only [List.cons_append, List.nil_append, decodeFrom_cons, head, middle, last, next_none]
    rw [first_three (by omega), next_more (by simp) low high,
      next_last rfl (by simp) (by simp; omega), whole, back]
    rfl
  next four =>
    -- Three bits, then three times six.
    have head : (UInt8.ofNat (number / 262144 % 8 + 0xf0)).toNat = number / 262144 + 0xf0 := by
      rw [toNat_octet (by omega)]
      omega
    have second : (UInt8.ofNat (number / 4096 % 64 + 0x80)).toNat = number / 4096 % 64 + 0x80 :=
      toNat_octet (by omega)
    have third : (UInt8.ofNat (number / 64 % 64 + 0x80)).toNat = number / 64 % 64 + 0x80 :=
      toNat_octet (by omega)
    have last : (UInt8.ofNat (number % 64 + 0x80)).toNat = number % 64 + 0x80 :=
      toNat_octet (by omega)
    have whole : ((number / 262144 * 0x40 + number / 4096 % 64) * 0x40 + number / 64 % 64) * 0x40 +
        number % 64 = number := by omega
    have low : (if number / 262144 = 0 then 0x90 else 0x80) ≤ number / 4096 % 64 + 0x80 := by
      split <;> omega
    have high : number / 4096 % 64 + 0x80 ≤ if number / 262144 = 4 then 0x8f else 0xbf := by
      split <;> omega
    simp only [List.cons_append, List.nil_append, decodeFrom_cons, head, second, third, last,
      next_none]
    rw [first_four (by omega), next_more (by simp) low high,
      next_more (by simp) (by simp) (by simp; omega), next_last rfl (by simp) (by simp; omega),
      whole, back]
    rfl

theorem decodeFrom_encoded (chars : List Char) (rest : List UInt8) :
    decodeFrom none (chars.flatMap String.utf8EncodeChar ++ rest) =
      chars ++ decodeFrom none rest := by
  induction chars with
  | nil => rfl
  | cons c chars ih =>
    rw [List.flatMap_cons, List.append_assoc, decodeFrom_utf8EncodeChar, ih, List.cons_append]

/-! ## Texts -/

/-- The octets of a text. -/
def encode (text : String) : List UInt8 :=
  text.toUTF8.data.toList

theorem encode_eq (text : String) : encode text = text.toList.flatMap String.utf8EncodeChar := by
  have chars : text.toByteArray = text.toList.utf8Encode := by
    rw [← String.toByteArray_ofList, String.ofList_toList]
  rw [encode, String.toUTF8_eq_toByteArray, chars, List.utf8Encode, List.toList_data_toByteArray]

theorem encode_append (first second : String) :
    encode (first ++ second) = encode first ++ encode second := by
  simp only [encode_eq, String.toList_append, List.flatMap_append]

theorem decode_encode (text : String) : decode (encode text) = text := by
  have chars := decodeFrom_encoded text.toList []
  rw [List.append_nil] at chars
  rw [decode, encode_eq, chars, decodeFrom, List.append_nil, String.ofList_toList]

theorem lineFeed_ne_octet {value : Nat} (low : 0x80 ≤ value) (high : value < 256) :
    (10 : UInt8) ≠ UInt8.ofNat value := by
  intro same
  have numbers : 10 = value := (congrArg UInt8.toNat same).trans (toNat_octet high)
  omega

/-- No octet of another character is a line feed: heads and tails have their first bit set. -/
theorem eq_of_lineFeed_mem {c : Char} (member : 10 ∈ String.utf8EncodeChar c) : c = '\n' := by
  have range := number_cases c
  have back : Char.ofNat c.val.toNat = c := Char.ofNat_toNat c
  simp only [String.utf8EncodeChar] at member
  generalize c.val.toNat = number at range back member
  split at member
  next one =>
    have numbers : 10 = number :=
      (congrArg UInt8.toNat (List.mem_singleton.mp member)).trans (toNat_octet (by omega))
    rw [← back, ← numbers]
  have tail (part : Nat) : (10 : UInt8) ≠ UInt8.ofNat (part % 64 + 0x80) :=
    lineFeed_ne_octet (by omega) (by omega)
  have two : (10 : UInt8) ≠ UInt8.ofNat (number / 64 % 32 + 0xc0) :=
    lineFeed_ne_octet (by omega) (by omega)
  have three : (10 : UInt8) ≠ UInt8.ofNat (number / 4096 % 16 + 0xe0) :=
    lineFeed_ne_octet (by omega) (by omega)
  have four : (10 : UInt8) ≠ UInt8.ofNat (number / 262144 % 8 + 0xf0) :=
    lineFeed_ne_octet (by omega) (by omega)
  split at member
  · simp only [List.mem_cons, List.not_mem_nil, two, tail, or_self] at member
  split at member
  · simp only [List.mem_cons, List.not_mem_nil, three, tail, or_self] at member
  · simp only [List.mem_cons, List.not_mem_nil, four, tail, or_self] at member

theorem lineFeed_not_mem_encode {text : String} (oneLine : '\n' ∉ text.toList) :
    10 ∉ encode text := by
  rw [encode_eq, List.mem_flatMap]
  rintro ⟨c, member, inside⟩
  rw [eq_of_lineFeed_mem inside] at member
  exact oneLine member

end Backchain.Utf8
