import Wjetcd.Lib.Json

/-! Reading flat JSON objects.

The reader takes a text of the writer's layout apart: an object of members that are
strings, integers or booleans, without spaces. Strings are unquoted character by
character, as `encoding/json` does it: an escape gives its character, and a byte that
belongs to no character gives the replacement character. So what was quoted comes back
coerced to UTF-8 (`unquoteFrom_quote`), and an object comes back as its members
(`readObject_object`). -/
namespace Wjetcd

/-! ### Characters -/

namespace Utf8

/-- A code point as bytes; what is no character gives U+FFFD. -/
def encode (rune : Nat) : List UInt8 :=
  if rune < 0x80 then [rune.toUInt8]
  else if rune < 0x800 then [(0xC0 + rune / 0x40).toUInt8, (0x80 + rune % 0x40).toUInt8]
  else if (0xD800 ≤ rune ∧ rune < 0xE000) ∨ 0x110000 ≤ rune then replacement
  else if rune < 0x10000 then
    [(0xE0 + rune / 0x1000).toUInt8, (0x80 + rune / 0x40 % 0x40).toUInt8, (0x80 + rune % 0x40).toUInt8]
  else
    [(0xF0 + rune / 0x40000).toUInt8, (0x80 + rune / 0x1000 % 0x40).toUInt8,
      (0x80 + rune / 0x40 % 0x40).toUInt8, (0x80 + rune % 0x40).toUInt8]

theorem encode_ascii {b : UInt8} (h : b < 0x80) : encode b.toNat = [b] := by
  have hlt : b.toNat < 0x80 := UInt8.lt_iff_toNat_lt.mp h
  unfold encode
  rw [if_pos hlt]
  simp

theorem runeSize_ascii {b : UInt8} (h : b < 0x80) (rest : List UInt8) : runeSize b rest = some 1 := by
  unfold runeSize
  rw [if_pos h]

theorem tail2_begins {low high : UInt8} {rest rest' : List UInt8} {size : Nat}
    (h : tail2 low high rest = some size) (hsame : rest.take (size - 1) <+: rest') :
    size - 1 ≤ rest.length ∧ tail2 low high rest' = some size := by
  unfold tail2 at h
  split at h
  · rename_i b1 b2 later
    split at h
    · rename_i hb
      cases h
      obtain ⟨more, rfl⟩ := hsame
      refine ⟨by simp, ?_⟩
      show (if _ then _ else _) = _
      rw [if_pos hb]
    · cases h
  · cases h

theorem tail3_begins {low high : UInt8} {rest rest' : List UInt8} {size : Nat}
    (h : tail3 low high rest = some size) (hsame : rest.take (size - 1) <+: rest') :
    size - 1 ≤ rest.length ∧ tail3 low high rest' = some size := by
  unfold tail3 at h
  split at h
  · rename_i b1 b2 b3 later
    split at h
    · rename_i hb
      cases h
      obtain ⟨more, rfl⟩ := hsame
      refine ⟨by simp, ?_⟩
      show (if _ then _ else _) = _
      rw [if_pos hb]
    · cases h
  · cases h

/-- A character is there in full, and what follows it does not matter. -/
theorem runeSize_begins {b : UInt8} {rest rest' : List UInt8} {size : Nat}
    (h : runeSize b rest = some size) (hsame : rest.take (size - 1) <+: rest') :
    size - 1 ≤ rest.length ∧ runeSize b rest' = some size := by
  unfold runeSize at h ⊢
  split at h
  · cases h
    exact ⟨Nat.zero_le _, if_pos ‹_›⟩
  rw [if_neg ‹_›]
  split at h
  · cases h
  rw [if_neg ‹_›]
  split at h
  · rw [if_pos ‹_›]
    split at h
    · split at h
      · rename_i hb
        cases h
        obtain ⟨more, rfl⟩ := hsame
        refine ⟨by simp, ?_⟩
        show (if _ then _ else _) = _
        rw [if_pos hb]
      · cases h
    · cases h
  rw [if_neg ‹_›]
  split at h
  · rw [if_pos ‹_›]
    exact tail2_begins h hsame
  rw [if_neg ‹_›]
  split at h
  · rw [if_pos ‹_›]
    exact tail2_begins h hsame
  rw [if_neg ‹_›]
  split at h
  · rw [if_pos ‹_›]
    exact tail2_begins h hsame
  rw [if_neg ‹_›]
  split at h
  · rw [if_pos ‹_›]
    exact tail3_begins h hsame
  rw [if_neg ‹_›]
  split at h
  · rw [if_pos ‹_›]
    exact tail3_begins h hsame
  rw [if_neg ‹_›]
  split at h
  · rw [if_pos ‹_›]
    exact tail3_begins h hsame
  · cases h

/-- The rest of a character is copied. -/
theorem coerceFrom_skip (skip : Nat) (s : List UInt8) :
    coerceFrom skip s = s.take skip ++ coerceFrom 0 (s.drop skip) := by
  induction s generalizing skip with
  | nil => cases skip <;> rfl
  | cons b rest ih =>
    cases skip with
    | zero => rfl
    | succ skip =>
      rw [coerceFrom, ih skip]
      rfl

end Utf8

namespace Json

/-! ### Strings -/

def hexValue (c : UInt8) : Option Nat :=
  if isDigit c then some (c.toNat - 0x30)
  else if 0x61 ≤ c ∧ c ≤ 0x66 then some (c.toNat - 0x57)
  else if 0x41 ≤ c ∧ c ≤ 0x46 then some (c.toNat - 0x37)
  else none

/-- The four digits after `\u`. -/
def getu4 (digits : List UInt8) : Option Nat :=
  digits.foldlM (fun value c => (hexValue c).map fun d => 16 * value + d) 0

/-- The characters after a backslash, `u` apart. -/
def unescape (e : UInt8) : Option UInt8 :=
  if e = 0x22 ∨ e = 0x5C ∨ e = 0x2F then some e
  else if e = 0x62 then some 0x08
  else if e = 0x66 then some 0x0C
  else if e = 0x6E then some 0x0A
  else if e = 0x72 then some 0x0D
  else if e = 0x74 then some 0x09
  else none

/-- Put bytes before what is read. -/
def put (s : Bytes) (read : Option (Bytes × Bytes)) : Option (Bytes × Bytes) :=
  read.map fun result => (s ++ result.1, result.2)

/-- Where the reader is in a string: `skip` bytes of a character are still to come, or it
is after a backslash, or among the digits of a code point. -/
inductive Place where
  | text (skip : Nat)
  | escape
  | unicode (digits : List UInt8)

/-- The string up to its closing quote, and what follows. The writer escapes no
surrogates, and here each of them gives U+FFFD. -/
def unquoteFrom : Place → Bytes → Option (Bytes × Bytes)
  | _, [] => none
  | .text (skip + 1), b :: rest => put [b] (unquoteFrom (.text skip) rest)
  | .text 0, b :: rest =>
    if b = 0x22 then some ([], rest)
    else if b < 0x20 then none
    else if b = 0x5C then unquoteFrom .escape rest
    else
      match Utf8.runeSize b rest with
      | none => put Utf8.replacement (unquoteFrom (.text 0) rest)
      | some size => put [b] (unquoteFrom (.text (size - 1)) rest)
  | .escape, e :: rest =>
    if e = 0x75 then unquoteFrom (.unicode []) rest
    else
      match unescape e with
      | none => none
      | some c => put [c] (unquoteFrom (.text 0) rest)
  | .unicode digits, d :: rest =>
    if digits.length < 3 then unquoteFrom (.unicode (digits ++ [d])) rest
    else
      match getu4 (digits ++ [d]) with
      | none => none
      | some rune => put (Utf8.encode rune) (unquoteFrom (.text 0) rest)

theorem put_some (s a rest : Bytes) : put s (some (a, rest)) = some (s ++ a, rest) := rfl

theorem put_put (s t : Bytes) (read : Option (Bytes × Bytes)) : put s (put t read) = put (s ++ t) read := by
  cases read with
  | none => rfl
  | some result => simp [put]

/-- The rest of a character is taken as it is. -/
theorem unquoteFrom_skip (s text : Bytes) :
    unquoteFrom (.text s.length) (s ++ text) = put s (unquoteFrom (.text 0) text) := by
  induction s with
  | nil =>
    show unquoteFrom (.text 0) text = put [] (unquoteFrom (.text 0) text)
    cases unquoteFrom (.text 0) text <;> rfl
  | cons b rest ih =>
    rw [List.length_cons, List.cons_append, unquoteFrom, ih, put_put]
    rfl

/-- A character that stands for itself. -/
theorem unquoteFrom_plain {b : UInt8} (h : Plain b) (rest : Bytes) :
    unquoteFrom (.text 0) (b :: rest) =
      match Utf8.runeSize b rest with
      | none => put Utf8.replacement (unquoteFrom (.text 0) rest)
      | some size => put [b] (unquoteFrom (.text (size - 1)) rest) := by
  rw [unquoteFrom, if_neg h.2.1, if_neg (UInt8.not_lt.mpr h.1), if_neg h.2.2]

theorem unquoteFrom_ascii {b : UInt8} (h : Plain b) (hb : b < 0x80) (rest : Bytes) :
    unquoteFrom (.text 0) (b :: rest) = put [b] (unquoteFrom (.text 0) rest) := by
  rw [unquoteFrom_plain h, Utf8.runeSize_ascii hb]

/-- Text of plain ASCII is read as it is. -/
theorem unquoteFrom_name {name : Bytes} (h : ∀ b ∈ name, Plain b ∧ b < 0x80) (rest : Bytes) :
    unquoteFrom (.text 0) (name ++ 0x22 :: rest) = some (name, rest) := by
  induction name with
  | nil => rfl
  | cons b name ih =>
    obtain ⟨hplain, hascii⟩ := h b List.mem_cons_self
    rw [List.cons_append, unquoteFrom_ascii hplain hascii, ih fun c hc => h c (List.mem_cons_of_mem _ hc)]
    rfl

theorem unquoteFrom_unicode {h1 h2 h3 h4 : UInt8} {rune : Nat} (h : getu4 [h1, h2, h3, h4] = some rune)
    (rest : Bytes) :
    unquoteFrom (.text 0) ([0x5C, 0x75, h1, h2, h3, h4] ++ rest) = put (Utf8.encode rune) (unquoteFrom (.text 0) rest) := by
  show (match getu4 [h1, h2, h3, h4] with
    | none => none
    | some rune => put (Utf8.encode rune) (unquoteFrom (.text 0) rest)) = _
  rw [h]

theorem getu4_ascii {b : UInt8} (h : b < 0x80) :
    getu4 [0x30, 0x30, hexDigit (b >>> 4), hexDigit (b &&& 0xF)] = some b.toNat := by
  have hall : ∀ k : Fin 128, getu4 [0x30, 0x30, hexDigit (UInt8.ofNat k >>> 4),
      hexDigit (UInt8.ofNat k &&& 0xF)] = some k.val := by decide
  have hlt : b.toNat < 128 := UInt8.lt_iff_toNat_lt.mp h
  simpa using hall ⟨b.toNat, hlt⟩

/-- Whatever an ASCII character is written as, it is read back. -/
theorem unquoteFrom_escaped {b : UInt8} (h : b < 0x80) (rest : Bytes) :
    unquoteFrom (.text 0) ((if htmlSafe b then [b] else escape b) ++ rest) = put [b] (unquoteFrom (.text 0) rest) := by
  split
  · rename_i hsafe
    simp only [htmlSafe, Bool.and_eq_true, decide_eq_true_eq] at hsafe
    exact unquoteFrom_ascii ⟨hsafe.1.1.1.1.1, hsafe.1.1.1.1.2, hsafe.2⟩ h rest
  · unfold escape
    split
    · rename_i hb
      rcases hb with rfl | rfl <;> rfl
    split
    · rename_i hb
      rw [hb]
      rfl
    split
    · rename_i hb
      rw [hb]
      rfl
    split
    · rename_i hb
      rw [hb]
      rfl
    split
    · rename_i hb
      rw [hb]
      rfl
    split
    · rename_i hb
      rw [hb]
      rfl
    · rw [unquoteFrom_unicode (getu4_ascii h), Utf8.encode_ascii h]

/-- The writer copies the rest of a character, or has written it already. -/
theorem quoteFrom_skip (copy : Bool) (skip : Nat) (s : Bytes) :
    quoteFrom copy skip s = (if copy then s.take skip else []) ++ quoteFrom true 0 (s.drop skip) := by
  induction s generalizing skip with
  | nil => cases skip <;> cases copy <;> rfl
  | cons b rest ih =>
    cases skip with
    | zero => cases copy <;> rfl
    | succ skip =>
      rw [quoteFrom, ih skip]
      cases copy <;> rfl

/-- One of the two separators starts here, and its escape gives it back. -/
theorem separator_some {b digit : UInt8} {rest : Bytes} (h : separator b rest = some digit) :
    Utf8.runeSize b rest = some 3 ∧
      ∃ rune, getu4 [0x32, 0x30, 0x32, digit] = some rune ∧ Utf8.encode rune = b :: rest.take 2 := by
  unfold separator at h
  split at h
  · rename_i hb
    obtain ⟨rfl, hrest⟩ := hb
    cases h
    obtain ⟨more, rfl⟩ : ∃ more, rest = [0x80, 0xA8] ++ more := ⟨rest.drop 2, by rw [← hrest]; simp⟩
    exact ⟨rfl, _, rfl, rfl⟩
  split at h
  · rename_i hb
    obtain ⟨rfl, hrest⟩ := hb
    cases h
    obtain ⟨more, rfl⟩ : ∃ more, rest = [0x80, 0xA9] ++ more := ⟨rest.drop 2, by rw [← hrest]; simp⟩
    exact ⟨rfl, _, rfl, rfl⟩
  · cases h

/-- **A quoted string is read back**, with what is no UTF-8 replaced. -/
theorem unquoteFrom_quote (s after : Bytes) :
    unquoteFrom (.text 0) (quoteFrom true 0 s ++ 0x22 :: after) = some (Utf8.coerce s, after) := by
  -- a character takes up to four bytes, so the induction is on the length
  induction hn : s.length using Nat.strong_induction_on generalizing s with
  | _ n ih =>
    subst hn
    cases s with
    | nil => rfl
    | cons b rest =>
      have hrest : ∀ k, unquoteFrom (.text 0) (quoteFrom true 0 (rest.drop k) ++ 0x22 :: after) =
          some (Utf8.coerceFrom 0 (rest.drop k), after) := by
        intro k
        refine ih _ ?_ _ rfl
        rw [List.length_drop, List.length_cons]
        omega
      unfold Utf8.coerce
      rw [quoteFrom, Utf8.coerceFrom]
      by_cases hascii : b < 0x80
      · rw [if_pos hascii, Utf8.runeSize_ascii hascii, List.append_assoc, unquoteFrom_escaped hascii]
        have hnext := hrest 0
        rw [List.drop_zero] at hnext
        rw [hnext]
        rfl
      rw [if_neg hascii]
      have hplain : Plain b := plain_of_high (UInt8.not_lt.mp hascii)
      cases hsize : Utf8.runeSize b rest with
      | none =>
        dsimp only
        have hnext := hrest 0
        rw [List.drop_zero] at hnext
        rw [List.append_assoc, unquoteFrom_unicode (show getu4 [0x66, 0x66, 0x66, 0x64] = some 0xFFFD by decide),
          hnext]
        rfl
      | some size =>
        dsimp only
        rw [Utf8.coerceFrom_skip (size - 1)]
        cases hsep : separator b rest with
        | some digit =>
          obtain ⟨hthree, rune, hrune, hencode⟩ := separator_some hsep
          rw [hsize] at hthree
          cases hthree
          dsimp only
          rw [List.append_assoc, unquoteFrom_unicode hrune, quoteFrom_skip false, if_neg Bool.false_ne_true,
            List.nil_append, hrest 2, hencode]
          rfl
        | none =>
          dsimp only
          have hbegins : rest.take (size - 1) <+: quoteFrom true (size - 1) rest ++ 0x22 :: after := by
            rw [quoteFrom_skip true, if_pos rfl, List.append_assoc]
            exact List.prefix_append _ _
          obtain ⟨hlength, hsame⟩ := Utf8.runeSize_begins hsize hbegins
          rw [List.cons_append, unquoteFrom_plain hplain, hsame]
          dsimp only
          rw [quoteFrom_skip true, if_pos rfl, List.append_assoc]
          have hskip := unquoteFrom_skip (rest.take (size - 1))
            (quoteFrom true 0 (rest.drop (size - 1)) ++ 0x22 :: after)
          rw [List.length_take, Nat.min_eq_left hlength] at hskip
          rw [hskip, hrest (size - 1), put_put, put_some]
          rfl

/-! ### Numbers -/

def digitsValue (digits : Bytes) : Nat := digits.foldl (fun value d => 10 * value + (d.toNat - 0x30)) 0

/-- An integer, and what follows. -/
def readNumber (text : Bytes) : Int × Bytes :=
  if text.head? = some 0x2D then
    (-(digitsValue (text.tail.takeWhile isDigit) : Int), text.tail.dropWhile isDigit)
  else (digitsValue (text.takeWhile isDigit), text.dropWhile isDigit)

theorem digit_spec {k : Nat} (hk : k < 10) :
    isDigit (digit k) = true ∧ (digit k).toNat - 0x30 = k ∧ digit k ≠ 0x2D := by
  interval_cases k <;> decide

/-- The digits of a number are digits, and have its value. -/
theorem digits_spec (n : Nat) :
    (∀ b ∈ ascii (toString n), isDigit b = true ∧ b ≠ 0x2D) ∧ digitsValue (ascii (toString n)) = n := by
  have htext : ∀ n : Nat, ascii (toString n) = (Nat.toDigits 10 n).map fun c => c.toNat.toUInt8 := by
    intro n
    simp [ascii]
  rw [htext]
  induction n using Nat.strong_induction_on with
  | _ n ih =>
    by_cases hlt : n < 10
    · obtain ⟨hdigit, hvalue, hminus⟩ := digit_spec hlt
      rw [Nat.toDigits_of_lt_base hlt]
      refine ⟨List.forall_mem_singleton.mpr ⟨hdigit, hminus⟩, ?_⟩
      show 10 * 0 + ((digit n).toNat - 0x30) = n
      omega
    · obtain ⟨hdigit, hvalue, hminus⟩ := @digit_spec (n % 10) (by omega)
      obtain ⟨hall, hfront⟩ := ih (n / 10) (by omega)
      rw [Nat.toDigits_of_base_le (by decide) (by omega), List.map_append]
      refine ⟨List.forall_mem_append.mpr ⟨hall, List.forall_mem_singleton.mpr ⟨hdigit, hminus⟩⟩, ?_⟩
      unfold digitsValue at hfront ⊢
      rw [List.foldl_append, hfront]
      show 10 * (n / 10) + ((digit (n % 10)).toNat - 0x30) = n
      omega

theorem digits_ne_nil (n : Nat) : ascii (toString n) ≠ [] := by
  simp [ascii]

/-- The digits end where something else begins. -/
theorem span_digits (n : Nat) {c : UInt8} (hc : isDigit c = false) (rest : Bytes) :
    (ascii (toString n) ++ c :: rest).takeWhile isDigit = ascii (toString n) ∧
      (ascii (toString n) ++ c :: rest).dropWhile isDigit = c :: rest := by
  have hall : ∀ b ∈ ascii (toString n), isDigit b = true := fun b hb => ((digits_spec n).1 b hb).1
  rw [List.takeWhile_append_of_pos hall, List.dropWhile_append_of_pos hall]
  simp [hc]

theorem readNumber_decimal (n : Int) {c : UInt8} (hc : isDigit c = false) (rest : Bytes) :
    readNumber (decimal n ++ c :: rest) = (n, c :: rest) := by
  cases n with
  | ofNat k =>
    obtain ⟨hall, hvalue⟩ := digits_spec k
    obtain ⟨htake, hdrop⟩ := span_digits k hc rest
    have hhead : (ascii (toString k) ++ c :: rest).head? ≠ some 0x2D := by
      cases htext : ascii (toString k) with
      | nil => exact absurd htext (digits_ne_nil k)
      | cons b more =>
        rw [List.cons_append, List.head?_cons, ne_eq, Option.some.injEq]
        exact (hall b (htext ▸ List.mem_cons_self)).2
    show readNumber (ascii (toString k) ++ c :: rest) = _
    unfold readNumber
    rw [if_neg hhead, htake, hdrop, hvalue]
    rfl
  | negSucc k =>
    obtain ⟨_, hvalue⟩ := digits_spec (k + 1)
    obtain ⟨htake, hdrop⟩ := span_digits (k + 1) hc rest
    have htext : decimal (Int.negSucc k) = 0x2D :: ascii (toString (k + 1)) := by
      show ascii ("-" ++ toString (k + 1)) = _
      simp [ascii]
    unfold readNumber
    rw [htext, List.cons_append, List.head?_cons, if_pos rfl, List.tail_cons, htake, hdrop, hvalue]
    rfl

/-! ### Objects -/

inductive Scalar where
  | string (s : Bytes)
  | number (n : Int)
  | bool (b : Bool)
deriving Repr, DecidableEq

namespace Scalar

/-- How the writer writes it. -/
def text : Scalar → Bytes
  | string s => quote s
  | number n => decimal n
  | bool b => Json.bool b

/-- What comes back of it. -/
def coerced : Scalar → Scalar
  | string s => string (Utf8.coerce s)
  | value => value

end Scalar

/-- A value, and what follows. -/
def readValue (text : Bytes) : Option (Scalar × Bytes) :=
  match text.head? with
  | none => none
  | some b =>
    if b = 0x22 then (unquoteFrom (.text 0) text.tail).map fun read => (.string read.1, read.2)
    else if ascii "true" <+: text then some (.bool true, text.drop 4)
    else if ascii "false" <+: text then some (.bool false, text.drop 5)
    else some (.number (readNumber text).1, (readNumber text).2)

/-- The members up to the closing bracket, at most `fuel` of them, and what follows. -/
def readMembers : Nat → Bytes → Option (List (Bytes × Scalar) × Bytes)
  | 0, _ => none
  | fuel + 1, text => do
    if text.head? = some 0x22 then
      let (name, rest) ← unquoteFrom (.text 0) text.tail
      if rest.head? = some 0x3A then
        let (value, rest) ← readValue rest.tail
        if rest.head? = some 0x2C then
          let (more, rest) ← readMembers fuel rest.tail
          return ((name, value) :: more, rest)
        else if rest.head? = some 0x7D then return ([(name, value)], rest.tail)
        else none
      else none
    else none

/-- The members of an object that is not empty. -/
def readObject (text : Bytes) : Option (List (Bytes × Scalar)) :=
  if text.head? = some 0x7B then
    match readMembers text.length text.tail with
    | some (members, []) => some members
    | _ => none
  else none

/-- A value is read up to the delimiter after it. -/
theorem readValue_text (value : Scalar) {c : UInt8} (hc : c = 0x2C ∨ c = 0x7D) (rest : Bytes) :
    readValue (value.text ++ c :: rest) = some (value.coerced, c :: rest) := by
  cases value with
  | string s =>
    have hquote : (Scalar.string s).text ++ c :: rest =
        0x22 :: (quoteFrom true 0 s ++ 0x22 :: (c :: rest)) := by
      simp [Scalar.text, quote]
    rw [hquote]
    show (unquoteFrom (.text 0) (quoteFrom true 0 s ++ 0x22 :: (c :: rest))).map _ = _
    rw [unquoteFrom_quote]
    rfl
  | bool b => cases b <;> rfl
  | number n =>
    have hdelimiter : isDigit c = false := by rcases hc with rfl | rfl <;> rfl
    have hread := readNumber_decimal n hdelimiter rest
    have hfirst : ∃ b more, decimal n ++ c :: rest = b :: more ∧ (b = 0x2D ∨ isDigit b = true) := by
      cases n with
      | ofNat k =>
        cases htext : ascii (toString k) with
        | nil => exact absurd htext (digits_ne_nil k)
        | cons b more =>
          refine ⟨b, more ++ c :: rest, ?_, Or.inr ((digits_spec k).1 b (htext ▸ List.mem_cons_self)).1⟩
          show ascii (toString k) ++ c :: rest = _
          rw [htext]
          rfl
      | negSucc k =>
        refine ⟨0x2D, ascii (toString (k + 1)) ++ c :: rest, ?_, Or.inl rfl⟩
        show ascii ("-" ++ toString (k + 1)) ++ c :: rest = _
        simp [ascii]
    obtain ⟨b, more, htext, hb⟩ := hfirst
    have hother : ∀ x : UInt8, isDigit x = false → x ≠ 0x2D → b ≠ x := by
      rintro x hx hminus rfl
      rcases hb with hb | hb
      · exact hminus hb
      · rw [hx] at hb
        cases hb
    show readValue (decimal n ++ c :: rest) = _
    rw [htext] at hread ⊢
    unfold readValue
    rw [List.head?_cons]
    dsimp only
    have htrue : ¬ascii "true" <+: b :: more := fun hword =>
      hother 0x74 (by decide) (by decide) (List.cons_prefix_cons.mp hword).1.symm
    have hfalse : ¬ascii "false" <+: b :: more := fun hword =>
      hother 0x66 (by decide) (by decide) (List.cons_prefix_cons.mp hword).1.symm
    rw [if_neg (hother 0x22 (by decide) (by decide)), if_neg htrue, if_neg hfalse, hread]
    rfl

/-- The text of the members that are to be written. -/
def written (fields : List (Bytes × Scalar)) : List (Bytes × Bytes) :=
  fields.map fun field => (field.1, field.2.text)

theorem readMember {name : Bytes} (hname : ∀ b ∈ name, Plain b ∧ b < 0x80) (value : Scalar) {c : UInt8}
    (hc : c = 0x2C ∨ c = 0x7D) (fuel : Nat) (rest : Bytes) :
    readMembers (fuel + 1) (0x22 :: (name ++ 0x22 :: 0x3A :: (value.text ++ c :: rest))) =
      if c = 0x2C then
        (readMembers fuel rest).map fun read => ((name, value.coerced) :: read.1, read.2)
      else some ([(name, value.coerced)], rest) := by
  rw [readMembers, List.head?_cons, if_pos rfl, List.tail_cons, unquoteFrom_name hname]
  show (do
    let (value, rest) ← readValue (value.text ++ c :: rest)
    if rest.head? = some 0x2C then
      let (more, rest) ← readMembers fuel rest.tail
      return ((name, value) :: more, rest)
    else if rest.head? = some 0x7D then return ([(name, value)], rest.tail)
    else none) = _
  rw [readValue_text value hc]
  rcases hc with rfl | rfl
  · show (readMembers fuel rest).bind _ = (readMembers fuel rest).map _
    cases readMembers fuel rest <;> rfl
  · rfl

theorem readMembers_written {fields : List (Bytes × Scalar)} (hne : fields ≠ [])
    (hnames : ∀ field ∈ fields, ∀ b ∈ field.1, Plain b ∧ b < 0x80) {fuel : Nat}
    (hfuel : fields.length ≤ fuel) :
    readMembers fuel (members (written fields) ++ [0x7D]) =
      some (fields.map fun field => (field.1, field.2.coerced), []) := by
  induction fields generalizing fuel with
  | nil => exact absurd rfl hne
  | cons field fields ih =>
    obtain ⟨name, value⟩ := field
    have hname := hnames (name, value) List.mem_cons_self
    obtain ⟨fuel, rfl⟩ : ∃ k, fuel = k + 1 := ⟨fuel - 1, by rw [List.length_cons] at hfuel; omega⟩
    cases fields with
    | nil =>
      have htext : members (written [(name, value)]) ++ [0x7D] =
          0x22 :: (name ++ 0x22 :: 0x3A :: (value.text ++ 0x7D :: [])) := by
        simp [written, members]
      rw [htext, readMember hname value (Or.inr rfl), if_neg (by decide)]
      rfl
    | cons next fields =>
      have htext : members (written ((name, value) :: next :: fields)) ++ [0x7D] =
          0x22 :: (name ++ 0x22 :: 0x3A ::
            (value.text ++ 0x2C :: (members (written (next :: fields)) ++ [0x7D]))) := by
        simp [written, members]
      rw [htext, readMember hname value (Or.inl rfl), if_pos rfl,
        ih (List.cons_ne_nil _ _) (fun field hfield => hnames field (List.mem_cons_of_mem _ hfield))
          (Nat.le_of_succ_le_succ hfuel)]
      rfl

theorem length_le_members (fields : List (Bytes × Bytes)) : fields.length ≤ (members fields).length := by
  induction fields with
  | nil => exact Nat.le_refl _
  | cons field fields ih =>
    obtain ⟨name, value⟩ := field
    cases fields with
    | nil => simp [members]
    | cons next fields =>
      rw [List.length_cons] at ih ⊢
      simp only [members, List.length_cons, List.length_append]
      omega

/-- **An object is read back as its members.** -/
theorem readObject_object {fields : List (Bytes × Scalar)} (hne : fields ≠ [])
    (hnames : ∀ field ∈ fields, ∀ b ∈ field.1, Plain b ∧ b < 0x80) :
    readObject (object (written fields)) =
      some (fields.map fun field => (field.1, field.2.coerced)) := by
  have hlength : fields.length ≤ (object (written fields)).length := by
    have hmembers := length_le_members (written fields)
    rw [written, List.length_map] at hmembers
    rw [object, List.length_cons, List.length_append, written]
    omega
  unfold readObject
  rw [object, List.head?_cons, if_pos rfl, List.tail_cons]
  rw [object] at hlength
  rw [readMembers_written hne hnames hlength]

end Json
end Wjetcd
