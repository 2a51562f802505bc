import Backchain.Json.Reader
import Backchain.Json.Writer
import Backchain.Proofs.Source.Reading

/-!
Reading compact JSON.

The reader takes the compact text of a value from the front of a source and leaves what comes after it,
if that cannot go on with a number: nothing, a comma or a closing bracket. This needs integers and
strings that their texts show as they are, which rules out other number literals and strings without a
text. The length of the text is more than enough fuel.
-/
set_option autoImplicit false

namespace Backchain.Json

/-- Values whose compact text says all there is to them. -/
inductive Exact : Json → Prop where
  | null : Exact .null
  | bool (value : Bool) : Exact (.bool value)
  | integer (value : Int) : Exact (.integer value)
  | string (text : String) : Exact (ofString text)
  | array {elements : List Json} (each : ∀ element ∈ elements, Exact element) :
      Exact (.array elements)
  | object {members : List (String × Json)} (each : ∀ member ∈ members, Exact member.2) :
      Exact (ofMembers members)

namespace Reader

/-! ## Strings -/

theorem joined?_unit {value : Nat} (small : value < 0xd800) (parts : List Piece) :
    joined? (.unit value :: parts) = (joined? parts).map (Char.ofNat value :: ·) := by
  have notHigh : isHigh value = false := by simp [isHigh]; omega
  have notLow : isLow value = false := by simp [isLow]; omega
  cases parts with
  | nil => simp [joined?, notHigh, notLow]
  | cons piece parts =>
    cases piece with
    | char c => simp [joined?, notHigh, notLow]
    | unit low => simp [joined?, notHigh, notLow]

/-- A part that stands for a character, whatever parts come after it. -/
def Piece.StandsFor (piece : Piece) (c : Char) : Prop :=
  ∀ parts, joined? (piece :: parts) = (joined? parts).map (c :: ·)

/-- From this source, the reader takes one part first. -/
def Takes (source : List Char) (piece : Piece) (rest : List Char) : Prop :=
  pieces source = (pieces rest).map fun (parts, rest) => (piece :: parts, rest)

theorem takes_short {letter c : Char} (short : shortEscape? letter = some c) (rest : List Char) :
    Takes ('\\' :: letter :: rest) (.char c) rest := by
  have other : letter ≠ 'u' := by
    rintro rfl
    cases short
  rw [Takes, pieces, short]
  · cases pieces rest <;> rfl
  · exact fun _ _ _ _ _ same _ => other same

theorem hexValue?_hexDigit : ∀ value < 16, hexValue? (hexDigit value) = some value := by
  decide

theorem takes_unit {value : Nat} (small : value < 256) (rest : List Char) :
    Takes ('\\' :: 'u' :: '0' :: '0' :: hexDigit (value / 16) :: hexDigit (value % 16) :: rest)
      (.unit value) rest := by
  have zero : hexValue? '0' = some 0 := by decide
  have read : unit? '0' '0' (hexDigit (value / 16)) (hexDigit (value % 16)) = some value := by
    rw [unit?, zero, hexValue?_hexDigit _ (by omega), hexValue?_hexDigit _ (by omega)]
    simp
    omega
  rw [Takes, pieces, read]
  cases pieces rest <;> rfl

theorem takes_char {c : Char} (quote : c ≠ '"') (backslash : c ≠ '\\') (visible : 32 ≤ c.toNat)
    (rest : List Char) : Takes (c :: rest) (.char c) rest := by
  rw [Takes, pieces, if_neg]
  · rintro (control | same)
    · omega
    · exact backslash same
  · exact quote
  · exact fun _ _ _ _ _ same _ => backslash same
  · exact fun _ _ same _ => backslash same

/-- A character is written as a backslash and one letter, as a unit, or as it is. -/
theorem escaped_cases (c : Char) :
    (∃ letter, escaped c = ['\\', letter] ∧ shortEscape? letter = some c) ∨
      (c.toNat < 32 ∧ escaped c =
        ['\\', 'u', '0', '0', hexDigit (c.toNat / 16), hexDigit (c.toNat % 16)]) ∨
      (c ≠ '"' ∧ c ≠ '\\' ∧ 32 ≤ c.toNat ∧ escaped c = [c]) := by
  unfold escaped
  split
  next same => exact .inl ⟨'"', rfl, by rw [same]; rfl⟩
  split
  next same => exact .inl ⟨'\\', rfl, by rw [same]; rfl⟩
  split
  next same => exact .inl ⟨'b', rfl, by rw [same]; rfl⟩
  split
  next same => exact .inl ⟨'f', rfl, by rw [same]; rfl⟩
  split
  next same => exact .inl ⟨'n', rfl, by rw [same]; rfl⟩
  split
  next same => exact .inl ⟨'r', rfl, by rw [same]; rfl⟩
  split
  next same => exact .inl ⟨'t', rfl, by rw [same]; rfl⟩
  split
  next control => exact .inr (.inl ⟨control, rfl⟩)
  next quote backslash _ _ _ _ _ visible =>
    exact .inr (.inr ⟨quote, backslash, Nat.not_lt.mp visible, rfl⟩)

theorem exists_piece (c : Char) :
    ∃ piece : Piece, piece.StandsFor c ∧ ∀ rest, Takes (escaped c ++ rest) piece rest := by
  rcases escaped_cases c with ⟨letter, same, short⟩ | ⟨control, same⟩ |
    ⟨quote, backslash, visible, same⟩
  · rw [same]
    exact ⟨.char c, fun _ => rfl, takes_short short⟩
  · rw [same]
    refine ⟨.unit c.toNat, ?_, takes_unit (by omega)⟩
    intro parts
    rw [joined?_unit (by omega), Char.ofNat_toNat]
  · rw [same]
    exact ⟨.char c, fun _ => rfl, takes_char quote backslash visible⟩

theorem exists_pieces (chars rest : List Char) :
    ∃ parts, pieces (chars.flatMap escaped ++ '"' :: rest) = some (parts, rest) ∧
      joined? parts = some chars := by
  induction chars with
  | nil => exact ⟨[], by simp [pieces], rfl⟩
  | cons c chars ih =>
    obtain ⟨piece, stands, takes⟩ := exists_piece c
    obtain ⟨parts, read, joined⟩ := ih
    refine ⟨piece :: parts, ?_, ?_⟩
    · rw [List.flatMap_cons, List.append_assoc, takes, read]
      rfl
    · rw [stands, joined]
      rfl

theorem stringAfterQuote_escaped (text : String) (rest : List Char) :
    stringAfterQuote (text.toList.flatMap escaped ++ '"' :: rest) = some (some text, rest) := by
  obtain ⟨parts, read, joined⟩ := exists_pieces text.toList rest
  simp [stringAfterQuote, read, joined]

theorem toList_quoted (text : String) (rest : List Char) :
    (quoted (some text)).toList ++ rest = '"' :: (text.toList.flatMap escaped ++ '"' :: rest) := by
  simp [quoted]

/-! ## Numbers -/

/-- A source in which no number goes on. -/
def Closes (rest : List Char) : Prop :=
  ∀ c ∈ rest.head?, c = ',' ∨ c = ']' ∨ c = '}'

theorem digitChar_ne_zero : ∀ n < 10, 0 < n → n.digitChar ≠ '0' := by
  decide

theorem exists_toDigits {n : Nat} (pos : 0 < n) :
    ∃ digit digits, Nat.toDigits 10 n = digit :: digits ∧ digit ≠ '0' := by
  induction n using Nat.strongRecOn with
  | ind n ih =>
    by_cases small : n < 10
    · exact ⟨n.digitChar, [], Nat.toDigits_of_lt_base small, digitChar_ne_zero n small pos⟩
    · obtain ⟨digit, digits, same, nonzero⟩ := ih (n / 10) (by omega) (by omega)
      rw [Nat.toDigits_of_base_le (by decide) (by omega), same]
      exact ⟨digit, _, rfl, nonzero⟩

theorem isDigit_of_mem_toDigits {n : Nat} : ∀ c ∈ Nat.toDigits 10 n, c.isDigit = true :=
  fun _ member => Nat.isDigit_of_mem_toDigits (by decide) (by decide) member

theorem exists_digit (n : Nat) :
    ∃ digit digits, Nat.toDigits 10 n = digit :: digits ∧ digit.isDigit = true := by
  have each := isDigit_of_mem_toDigits (n := n)
  cases same : Nat.toDigits 10 n with
  | nil => exact absurd same Nat.toDigits_ne_nil
  | cons digit digits => exact ⟨digit, digits, rfl, each digit (same ▸ List.mem_cons_self)⟩

section

variable {rest : List Char}

theorem Closes.not_isDigit (closes : Closes rest) : ∀ c ∈ rest.head?, c.isDigit = false := by
  intro c next
  rcases closes c next with rfl | rfl | rfl <;> decide

theorem Closes.fraction_eq (closes : Closes rest) : fraction rest = some ([], rest) := by
  cases rest with
  | nil => rfl
  | cons c rest => rcases closes c rfl with rfl | rfl | rfl <;> rfl

theorem Closes.exponent_eq (closes : Closes rest) : exponent rest = some ([], rest) := by
  cases rest with
  | nil => rfl
  | cons c rest => rcases closes c rfl with rfl | rfl | rfl <;> rfl

theorem whole_toDigits (n : Nat) (closes : Closes rest) :
    whole (Nat.toDigits 10 n ++ rest) = some (Nat.toDigits 10 n, rest) := by
  rcases Nat.eq_zero_or_pos n with rfl | pos
  · rfl
  · obtain ⟨taken, dropped⟩ :=
      Source.takeWhile_append_eq (isDigit_of_mem_toDigits (n := n)) closes.not_isDigit
    obtain ⟨digit, digits, same, nonzero⟩ := exists_toDigits pos
    rw [same, List.cons_append] at taken dropped ⊢
    rw [whole, taken, dropped]
    · rfl
    · exact fun _ starts => nonzero (List.cons.inj starts).1

theorem unsigned?_toDigits (n : Nat) (closes : Closes rest) :
    unsigned? (Nat.toDigits 10 n ++ rest) = some (Nat.toDigits 10 n, true, rest) := by
  simp [unsigned?, whole_toDigits n closes, closes.fraction_eq, closes.exponent_eq]

theorem value_toDigits (n : Nat) : Decimal.value (Nat.toDigits 10 n) = n :=
  Nat.ofDigitChars_toDigits (by decide) (by decide)

theorem toList_toString_negSucc (n : Nat) :
    (toString (Int.negSucc n)).toList = '-' :: Nat.toDigits 10 (n + 1) := by
  have text : toString (Int.negSucc n) = "-" ++ (n + 1).repr := rfl
  rw [text, String.toList_append, Nat.toList_repr]
  rfl

/-- An integer starts with a digit or a minus sign. -/
theorem exists_toString (number : Int) :
    ∃ c text, (toString number).toList = c :: text ∧ (c = '-' ∨ c.isDigit = true) := by
  cases number with
  | ofNat n =>
    have text : (toString (Int.ofNat n)).toList = Nat.toDigits 10 n := Nat.toList_repr
    obtain ⟨digit, digits, same, isDigit⟩ := exists_digit n
    exact ⟨digit, digits, text.trans same, .inr isDigit⟩
  | negSucc n => exact ⟨'-', _, toList_toString_negSucc n, .inl rfl⟩

theorem number?_toString (number : Int) (closes : Closes rest) :
    number? ((toString number).toList ++ rest) = some (.integer number, rest) := by
  cases number with
  | ofNat n =>
    have text : (toString (Int.ofNat n)).toList = Nat.toDigits 10 n := Nat.toList_repr
    rw [text, number?, unsigned?_toDigits n closes]
    · simp [value_toDigits]
    · -- A minus sign is no digit.
      intro source starts
      obtain ⟨digit, digits, same, isDigit⟩ := exists_digit n
      rw [same, List.cons_append, List.cons.injEq] at starts
      rw [starts.1] at isDigit
      cases isDigit
  | negSucc n =>
    obtain ⟨digit, digits, same, nonzero⟩ := exists_toDigits (Nat.succ_pos n)
    have unequal : Nat.toDigits 10 (n + 1) ≠ ['0'] := by simp [same, nonzero]
    rw [toList_toString_negSucc, List.cons_append, number?, unsigned?_toDigits (n + 1) closes]
    simp [value_toDigits, unequal, Int.negSucc_eq]

end

/-! ## Lists -/

/-- Reads items separated by commas up to a closing mark. -/
def itemsTo {α : Type} (closing : Char) (item : List Char → Option (α × List Char)) :
    Nat → List Char → Option (List α × List Char)
  | 0, _ => none
  | fuel + 1, source =>
    match item source with
    | none => none
    | some (first, rest) =>
      match skip rest with
      | [] => none
      | c :: rest =>
        if c = closing then some ([first], rest)
        else if c = ',' then
          (itemsTo closing item fuel rest).map fun (others, rest) => (first :: others, rest)
        else none

theorem elements_eq_itemsTo (item : List Char → Option (Json × List Char)) :
    elements item = itemsTo ']' item := by
  funext fuel source
  induction fuel generalizing source with
  | zero => rfl
  | succ fuel ih =>
    rw [elements, itemsTo]
    cases item source with
    | none => rfl
    | some read =>
      obtain ⟨first, rest⟩ := read
      simp only
      cases skip rest with
      | nil => rfl
      | cons c rest =>
        simp only
        split <;> simp_all

theorem members_eq_itemsTo (item : List Char → Option (Json × List Char)) :
    members item = itemsTo '}' (member item) := by
  funext fuel source
  induction fuel generalizing source with
  | zero => rfl
  | succ fuel ih =>
    rw [members, itemsTo]
    cases member item source with
    | none => rfl
    | some read =>
      obtain ⟨first, rest⟩ := read
      simp only
      cases skip rest with
      | nil => rfl
      | cons c rest =>
        simp only
        split <;> simp_all

/-- An item is read from its text in front of every source in which no number goes on. -/
def Reads {α : Type} (item : List Char → Option (α × List Char)) (text : String) (x : α) : Prop :=
  ∀ rest, Closes rest → item (text.toList ++ rest) = some (x, rest)

theorem itemsTo_joined {α : Type} {closing : Char} {item : List Char → Option (α × List Char)}
    {text : α → String} {items : List α} (mark : closing = ']' ∨ closing = '}')
    (nonempty : items ≠ []) (each : ∀ x ∈ items, Reads item (text x) x) {fuel : Nat}
    (enough : items.length ≤ fuel) (rest : List Char) :
    itemsTo closing item fuel ((",".intercalate (items.map text)).toList ++ closing :: rest) =
      some (items, rest) := by
  induction items generalizing fuel with
  | nil => exact absurd rfl nonempty
  | cons x items ih =>
    obtain ⟨first, others⟩ := List.forall_mem_cons.mp each
    obtain ⟨fuel, rfl⟩ : ∃ less, fuel = less + 1 := Nat.exists_eq_add_one.mpr (by
      rw [List.length_cons] at enough
      omega)
    cases items with
    | nil =>
      have closes : Closes (closing :: rest) := by
        rintro c next
        cases next
        exact .inr mark
      have kept : skip (closing :: rest) = closing :: rest := by
        rcases mark with rfl | rfl <;> rfl
      rw [List.map_singleton, String.intercalate_singleton, itemsTo, first _ closes]
      simp only [kept, if_true]
    | cons y items =>
      have later := ih (by simp) others (Nat.le_of_succ_le_succ enough)
      have other : ',' ≠ closing := by rcases mark with rfl | rfl <;> decide
      have kept (source : List Char) : skip (',' :: source) = ',' :: source := rfl
      have closes (source : List Char) : Closes (',' :: source) := by
        rintro c next
        cases next
        exact .inl rfl
      have comma : ",".toList = [','] := rfl
      rw [List.map_cons] at later
      rw [List.map_cons, List.map_cons, String.intercalate_cons_cons, String.toList_append,
        String.toList_append, comma, List.append_assoc, List.append_assoc, List.singleton_append,
        itemsTo, first _ (closes _)]
      simp only [kept, if_neg other, if_true, later, Option.map_some]

theorem length_intercalate (texts : List String) :
    texts.length ≤ (",".intercalate texts).toList.length + 1 ∧
      ∀ text ∈ texts, text.toList.length ≤ (",".intercalate texts).toList.length := by
  induction texts with
  | nil => simp
  | cons text texts ih =>
    cases texts with
    | nil => simp
    | cons next texts =>
      obtain ⟨number, each⟩ := ih
      rw [String.intercalate_cons_cons, String.toList_append, String.toList_append,
        List.length_append, List.length_append]
      have comma : ",".toList.length = 1 := rfl
      refine ⟨?_, ?_⟩
      · rw [List.length_cons]
        omega
      · intro other member
        rcases List.mem_cons.mp member with rfl | later
        · omega
        · have := each other later
          omega

/-! ## Values -/

theorem skip_of_not_blank {c : Char} (visible : isBlank c = false) (rest : List Char) :
    skip (c :: rest) = c :: rest := by
  rw [skip, List.dropWhile_cons_of_neg (by simp [visible])]

theorem isBlank_of_isDigit {c : Char} (digit : c.isDigit = true) : isBlank c = false := by
  have other (blank : Char) (no : blank.isDigit = false) : c ≠ blank := by
    rintro rfl
    rw [digit] at no
    cases no
  simp [isBlank, other ' ' (by decide), other '\t' (by decide), other '\n' (by decide),
    other '\r' (by decide)]

theorem value_of_number {c : Char} (starts : c = '-' ∨ c.isDigit = true) (fuel : Nat)
    (rest : List Char) : value (fuel + 1) (c :: rest) = number? (c :: rest) := by
  have visible : isBlank c = false := by
    rcases starts with rfl | digit
    · rfl
    · exact isBlank_of_isDigit digit
  have other (mark : Char) (no : mark ≠ '-' ∧ mark.isDigit = false) : c ≠ mark := by
    rintro rfl
    rcases starts with same | digit
    · exact no.1 same
    · rw [digit] at no
      cases no.2
  rw [value, skip_of_not_blank visible]
  split
  next same => exact absurd (List.cons.inj same).1 (other 'n' (by decide))
  next same => exact absurd (List.cons.inj same).1 (other 't' (by decide))
  next same => exact absurd (List.cons.inj same).1 (other 'f' (by decide))
  next same => exact absurd (List.cons.inj same).1 (other '"' (by decide))
  next same => exact absurd (List.cons.inj same).1 (other '[' (by decide))
  next same => exact absurd (List.cons.inj same).1 (other '\x7b' (by decide))
  next => rfl

theorem value_of_quote (fuel : Nat) (source : List Char) :
    value (fuel + 1) ('"' :: source) =
      (stringAfterQuote source).map fun (text, rest) => (.string text, rest) := by
  rw [value, skip_of_not_blank (by decide)]
  rfl

theorem value_of_elements {c : Char} (visible : isBlank c = false) (more : c ≠ ']') (fuel : Nat)
    (source : List Char) :
    value (fuel + 1) ('[' :: c :: source) =
      (elements (value fuel) fuel (c :: source)).map fun (all, rest) => (.array all, rest) := by
  rw [value, skip_of_not_blank (by decide)]
  simp only
  rw [skip_of_not_blank visible]
  split
  next same => exact absurd (List.cons.inj same).1 more
  next => rfl

theorem value_of_members {c : Char} (visible : isBlank c = false) (more : c ≠ '\x7d') (fuel : Nat)
    (source : List Char) :
    value (fuel + 1) ('\x7b' :: c :: source) =
      (members (value fuel) fuel (c :: source)).map fun (all, rest) => (.object all, rest) := by
  rw [value, skip_of_not_blank (by decide)]
  simp only
  rw [skip_of_not_blank visible]
  split
  next same => exact absurd (List.cons.inj same).1 more
  next => rfl

theorem compactElements_eq (all : List Json) : compactElements all = all.map compact := by
  induction all with
  | nil => rfl
  | cons element all ih => rw [compactElements, ih, List.map_cons]

/-- The compact text of a member of an object. -/
def memberText (member : Option String × Json) : String :=
  quoted member.1 ++ ":" ++ compact member.2

theorem compactMembers_eq (all : List (Option String × Json)) :
    compactMembers all = all.map memberText := by
  induction all with
  | nil => rfl
  | cons member all ih =>
    obtain ⟨name, content⟩ := member
    rw [compactMembers, ih, List.map_cons]
    rfl

theorem toList_array (all : List Json) (rest : List Char) :
    (compact (.array all)).toList ++ rest =
      '[' :: ((",".intercalate (all.map compact)).toList ++ ']' :: rest) := by
  have opening : "[".toList = ['['] := rfl
  have closing : "]".toList = [']'] := rfl
  rw [compact, compactElements_eq, String.toList_append, String.toList_append, opening, closing]
  simp only [List.append_assoc, List.cons_append, List.nil_append]

theorem toList_object (all : List (Option String × Json)) (rest : List Char) :
    (compact (.object all)).toList ++ rest =
      '\x7b' :: ((",".intercalate (all.map memberText)).toList ++ '\x7d' :: rest) := by
  have opening : "\x7b".toList = ['\x7b'] := rfl
  have closing : "\x7d".toList = ['\x7d'] := rfl
  rw [compact, compactMembers_eq, String.toList_append, String.toList_append, opening, closing]
  simp only [List.append_assoc, List.cons_append, List.nil_append]

theorem length_array (all : List Json) :
    (compact (.array all)).toList.length = (",".intercalate (all.map compact)).toList.length + 2 := by
  have same := congrArg List.length (toList_array all [])
  simpa using same

theorem length_object (all : List (Option String × Json)) :
    (compact (.object all)).toList.length =
      (",".intercalate (all.map memberText)).toList.length + 2 := by
  have same := congrArg List.length (toList_object all [])
  simpa using same

/-- A member whose name has a text. -/
def named (member : String × Json) : Option String × Json :=
  (some member.1, member.2)

theorem ofMembers_eq (all : List (String × Json)) : ofMembers all = .object (all.map named) :=
  rfl

theorem exists_quote (pair : String × Json) :
    ∃ text, (memberText (named pair)).toList = '"' :: text := by
  rw [memberText, named, String.toList_append, String.toList_append, List.append_assoc, toList_quoted]
  exact ⟨_, rfl⟩

theorem length_memberText (pair : String × Json) :
    (compact pair.2).toList.length ≤ (memberText (named pair)).toList.length := by
  rw [memberText, named, String.toList_append, List.length_append]
  exact Nat.le_add_left _ _

/-- Compact text starts with the value, so nothing is skipped before it and no array ends there. -/
theorem exists_start {json : Json} (exact : json.Exact) :
    ∃ c text, (compact json).toList = c :: text ∧ isBlank c = false ∧ c ≠ ']' := by
  cases exact with
  | null => exact ⟨'n', _, rfl, by decide, by decide⟩
  | bool value =>
    cases value with
    | false => exact ⟨'f', _, rfl, by decide, by decide⟩
    | true => exact ⟨'t', _, rfl, by decide, by decide⟩
  | integer number =>
    obtain ⟨c, text, same, starts⟩ := exists_toString number
    refine ⟨c, text, same, ?_, ?_⟩
    · rcases starts with rfl | digit
      · rfl
      · exact isBlank_of_isDigit digit
    · rintro rfl
      simp at starts
  | string text =>
    have same := toList_quoted text []
    rw [List.append_nil] at same
    exact ⟨'"', _, same, by decide, by decide⟩
  | @array all =>
    have same := toList_array all []
    rw [List.append_nil] at same
    exact ⟨'[', _, same, by decide, by decide⟩
  | @object all =>
    have same := toList_object (all.map named) []
    rw [← ofMembers_eq, List.append_nil] at same
    exact ⟨'\x7b', _, same, by decide, by decide⟩

theorem reads_member {pair : String × Json} {fuel : Nat}
    (read : Reads (value fuel) (compact pair.2) pair.2) :
    Reads (member (value fuel)) (memberText (named pair)) (named pair) := by
  intro rest closes
  have colon : ":".toList = [':'] := rfl
  rw [memberText, named, String.toList_append, String.toList_append, List.append_assoc,
    List.append_assoc, toList_quoted, member, skip_of_not_blank (by decide)]
  simp only [stringAfterQuote_escaped]
  rw [colon, List.singleton_append, skip_of_not_blank (by decide)]
  simp only [read rest closes, Option.map_some]

theorem exists_intercalate (text : String) (texts : List String) :
    ∃ more, (",".intercalate (text :: texts)).toList = text.toList ++ more := by
  cases texts with
  | nil => exact ⟨[], by simp⟩
  | cons next texts =>
    rw [String.intercalate_cons_cons, String.toList_append, String.toList_append, List.append_assoc]
    exact ⟨_, rfl⟩

theorem reads_array {all : List Json} {fuel : Nat} (exact : ∀ element ∈ all, element.Exact)
    (enough : all.length ≤ fuel)
    (each : ∀ element ∈ all, Reads (value fuel) (compact element) element) :
    Reads (value (fuel + 1)) (compact (.array all)) (.array all) := by
  intro rest _
  rw [toList_array]
  cases all with
  | nil => rfl
  | cons first others =>
    obtain ⟨c, text, start, visible, other⟩ := exists_start (exact first List.mem_cons_self)
    obtain ⟨more, same⟩ := exists_intercalate (compact first) (others.map compact)
    have read := itemsTo_joined (.inl rfl) (List.cons_ne_nil _ _) each enough rest
    rw [List.map_cons, same, start, List.cons_append, List.cons_append] at read ⊢
    rw [value_of_elements visible other, elements_eq_itemsTo, read]
    rfl

theorem reads_object {all : List (String × Json)} {fuel : Nat} (enough : all.length ≤ fuel)
    (each : ∀ pair ∈ all, Reads (value fuel) (compact pair.2) pair.2) :
    Reads (value (fuel + 1)) (compact (ofMembers all)) (ofMembers all) := by
  intro rest _
  rw [ofMembers_eq, toList_object]
  cases all with
  | nil => rfl
  | cons first others =>
    obtain ⟨text, quote⟩ := exists_quote first
    obtain ⟨more, same⟩ :=
      exists_intercalate (memberText (named first)) ((others.map named).map memberText)
    have members : ∀ x ∈ (first :: others).map named, Reads (member (value fuel)) (memberText x) x :=
      List.forall_mem_map.mpr fun pair known => reads_member (each pair known)
    have few : ((first :: others).map named).length ≤ fuel := (List.length_map named).trans_le enough
    have read := itemsTo_joined (.inr rfl) (List.cons_ne_nil _ _) members few rest
    rw [List.map_cons, same, quote, List.cons_append, List.cons_append] at read
    rw [List.map_cons, List.map_cons, same, quote, List.cons_append, List.cons_append,
      value_of_members (by decide) (by decide), members_eq_itemsTo, read]
    rfl

theorem reads_compact {json : Json} (exact : json.Exact) {fuel : Nat}
    (enough : (compact json).toList.length < fuel) : Reads (value fuel) (compact json) json := by
  obtain ⟨fuel, rfl⟩ : ∃ less, fuel = less + 1 := Nat.exists_eq_add_one.mpr (by omega)
  induction exact generalizing fuel with
  | null => exact fun _ _ => rfl
  | bool value => cases value <;> exact fun _ _ => rfl
  | integer number =>
    intro rest closes
    obtain ⟨c, text, same, starts⟩ := exists_toString number
    have read := number?_toString number closes
    rw [compact, ← read, same, List.cons_append, value_of_number starts]
  | string text =>
    intro rest _
    rw [ofString, compact, toList_quoted, value_of_quote, stringAfterQuote_escaped]
    rfl
  | @array all exact ih =>
    obtain ⟨number, texts⟩ := length_intercalate (all.map compact)
    rw [List.length_map] at number
    rw [length_array] at enough
    refine reads_array exact (by omega) fun element known => ?_
    have shorter := texts _ (List.mem_map_of_mem known)
    obtain ⟨fuel, rfl⟩ : ∃ less, fuel = less + 1 := Nat.exists_eq_add_one.mpr (by omega)
    exact ih element known fuel (by omega)
  | @object all exact ih =>
    obtain ⟨number, texts⟩ := length_intercalate ((all.map named).map memberText)
    rw [List.length_map, List.length_map] at number
    rw [ofMembers_eq, length_object] at enough
    refine reads_object (by omega) fun pair known => ?_
    have shorter := texts _ (List.mem_map_of_mem (List.mem_map_of_mem known))
    have content := length_memberText pair
    obtain ⟨fuel, rfl⟩ : ∃ less, fuel = less + 1 := Nat.exists_eq_add_one.mpr (by omega)
    exact ih pair known fuel (by omega)

end Reader

/-- Compact text is read as the value that it is the text of. -/
theorem parse?_compact {json : Json} (exact : json.Exact) : parse? (compact json) = some json := by
  have read := Reader.reads_compact exact (Nat.lt_succ_self _) [] (by simp [Reader.Closes])
  rw [List.append_nil] at read
  rw [parse?, read]
  rfl

end Backchain.Json
