import Wjetcd.Lib.Maps
import Wjetcd.Lib.Utf8

/-! JSON texts: the validity scanner and the writer of Go's `encoding/json`.

The scanner reads one byte at a time and keeps a stack of the objects and arrays it
is in. The writer quotes strings and builds flat objects; `checkValid_object` says
that the scanner accepts what it writes. `torn_object` is about what a crash can leave
behind: an object written right after the beginning of another one is never valid,
wherever the first one broke off. -/
namespace Wjetcd.Json

/-! ### The scanner -/

inductive Parse where
  | objectKey
  | objectValue
  | arrayValue
deriving Repr, DecidableEq

/-- The step functions of the scanner; `literal` has what is left of `true`, `false` or `null`. -/
inductive State where
  | beginValue
  | beginValueOrEmpty
  | beginString
  | beginStringOrEmpty
  | endValue
  | endTop
  | inString
  | inStringEsc
  | inStringEscU
  | inStringEscU1
  | inStringEscU12
  | inStringEscU123
  | neg
  | state0
  | state1
  | dot
  | dot0
  | e
  | eSign
  | e0
  | literal (rest : Bytes)
deriving Repr, DecidableEq

structure Scanner where
  state : State
  /-- The innermost one comes first. -/
  parseState : List Parse
deriving Repr, DecidableEq

def isSpace (c : UInt8) : Bool := c = 0x20 || c = 0x09 || c = 0x0D || c = 0x0A
def isDigit (c : UInt8) : Bool := 0x30 ≤ c && c ≤ 0x39
def isHex (c : UInt8) : Bool :=
  isDigit c || (0x61 ≤ c && c ≤ 0x66) || (0x41 ≤ c && c ≤ 0x46)

/-- An object or array deeper than this is refused. -/
def maxNestingDepth : Nat := 10000

def pushParseState (state : State) (p : Parse) (stack : List Parse) : Option Scanner :=
  if stack.length < maxNestingDepth then some ⟨state, p :: stack⟩ else none

def popParseState : List Parse → Scanner
  | [] => ⟨.endTop, []⟩
  | p :: stack => ⟨.endValue, p :: stack⟩

/-- Between values: a comma, a colon or a closing bracket. -/
def stateEndValue (stack : List Parse) (c : UInt8) : Option Scanner :=
  match stack with
  | [] => if isSpace c then some ⟨.endTop, []⟩ else none
  | p :: rest =>
    if isSpace c then some ⟨.endValue, p :: rest⟩
    else
      match p with
      | .objectKey => if c = 0x3A then some ⟨.beginValue, .objectValue :: rest⟩ else none
      | .objectValue =>
        if c = 0x2C then some ⟨.beginString, .objectKey :: rest⟩
        else if c = 0x7D then some (popParseState rest) else none
      | .arrayValue =>
        if c = 0x2C then some ⟨.beginValue, .arrayValue :: rest⟩
        else if c = 0x5D then some (popParseState rest) else none

/-- The first byte of a value, a space apart. -/
def stateBeginValue (stack : List Parse) (c : UInt8) : Option Scanner :=
  if c = 0x7B then pushParseState .beginStringOrEmpty .objectKey stack
  else if c = 0x5B then pushParseState .beginValueOrEmpty .arrayValue stack
  else if c = 0x22 then some ⟨.inString, stack⟩
  else if c = 0x2D then some ⟨.neg, stack⟩
  else if c = 0x30 then some ⟨.state0, stack⟩
  else if c = 0x74 then some ⟨.literal (ascii "rue"), stack⟩
  else if c = 0x66 then some ⟨.literal (ascii "alse"), stack⟩
  else if c = 0x6E then some ⟨.literal (ascii "ull"), stack⟩
  else if isDigit c then some ⟨.state1, stack⟩
  else none

def stateBeginString (stack : List Parse) (c : UInt8) : Option Scanner :=
  if c = 0x22 then some ⟨.inString, stack⟩ else none

def state0 (stack : List Parse) (c : UInt8) : Option Scanner :=
  if c = 0x2E then some ⟨.dot, stack⟩
  else if c = 0x65 ∨ c = 0x45 then some ⟨.e, stack⟩
  else stateEndValue stack c

def stateESign (stack : List Parse) (c : UInt8) : Option Scanner :=
  if isDigit c then some ⟨.e0, stack⟩ else none

/-- The characters after a backslash, `u` apart. -/
def isEscape (c : UInt8) : Bool :=
  c = 0x62 || c = 0x66 || c = 0x6E || c = 0x72 || c = 0x74 || c = 0x5C || c = 0x2F || c = 0x22

/-- One byte; no scanner means a syntax error. -/
def step (s : Scanner) (c : UInt8) : Option Scanner :=
  let stack := s.parseState
  match s.state with
  | .beginValue => if isSpace c then some s else stateBeginValue stack c
  | .beginValueOrEmpty =>
    if isSpace c then some s
    else if c = 0x5D then stateEndValue stack c else stateBeginValue stack c
  | .beginString => if isSpace c then some s else stateBeginString stack c
  | .beginStringOrEmpty =>
    if isSpace c then some s
    else if c = 0x7D then stateEndValue (.objectValue :: stack.tail) c
    else stateBeginString stack c
  | .endValue => stateEndValue stack c
  | .endTop => if isSpace c then some s else none
  | .inString =>
    if c = 0x22 then some ⟨.endValue, stack⟩
    else if c = 0x5C then some ⟨.inStringEsc, stack⟩
    else if c < 0x20 then none else some s
  | .inStringEsc =>
    if isEscape c then some ⟨.inString, stack⟩
    else if c = 0x75 then some ⟨.inStringEscU, stack⟩ else none
  | .inStringEscU => if isHex c then some ⟨.inStringEscU1, stack⟩ else none
  | .inStringEscU1 => if isHex c then some ⟨.inStringEscU12, stack⟩ else none
  | .inStringEscU12 => if isHex c then some ⟨.inStringEscU123, stack⟩ else none
  | .inStringEscU123 => if isHex c then some ⟨.inString, stack⟩ else none
  | .neg =>
    if c = 0x30 then some ⟨.state0, stack⟩
    else if isDigit c then some ⟨.state1, stack⟩ else none
  | .state1 => if isDigit c then some s else state0 stack c
  | .state0 => state0 stack c
  | .dot => if isDigit c then some ⟨.dot0, stack⟩ else none
  | .dot0 =>
    if isDigit c then some s
    else if c = 0x65 ∨ c = 0x45 then some ⟨.e, stack⟩ else stateEndValue stack c
  | .e => if c = 0x2B ∨ c = 0x2D then some ⟨.eSign, stack⟩ else stateESign stack c
  | .eSign => stateESign stack c
  | .e0 => if isDigit c then some s else stateEndValue stack c
  | .literal [] => none
  | .literal [b] => if c = b then some ⟨.endValue, stack⟩ else none
  | .literal (b :: rest) => if c = b then some ⟨.literal rest, stack⟩ else none

def scan (s : Scanner) : Bytes → Option Scanner
  | [] => some s
  | c :: rest => (step s c).bind fun t => scan t rest

/-- The end of the text counts as one more space. -/
def eof (s : Scanner) : Bool :=
  s.state = .endTop || (step s 0x20).any fun t => t.state = .endTop

def checkValid (data : Bytes) : Bool := (scan ⟨.beginValue, []⟩ data).any eof

theorem scan_append (s : Scanner) (a b : Bytes) :
    scan s (a ++ b) = (scan s a).bind fun t => scan t b := by
  induction a generalizing s with
  | nil => rfl
  | cons c rest ih =>
    show (step s c).bind _ = ((step s c).bind _).bind _
    cases step s c with
    | none => rfl
    | some t => exact ih t

/-! ### The writer -/

def hexDigit (n : UInt8) : UInt8 := if n < 10 then 0x30 + n else 0x57 + n

/-- ASCII characters that are written as they are. -/
def htmlSafe (b : UInt8) : Bool :=
  0x20 ≤ b && b ≠ 0x22 && b ≠ 0x26 && b ≠ 0x3C && b ≠ 0x3E && b ≠ 0x5C

/-- The other ASCII characters. -/
def escape (b : UInt8) : Bytes :=
  if b = 0x5C ∨ b = 0x22 then [0x5C, b]
  else if b = 0x08 then [0x5C, 0x62]
  else if b = 0x0C then [0x5C, 0x66]
  else if b = 0x0A then [0x5C, 0x6E]
  else if b = 0x0D then [0x5C, 0x72]
  else if b = 0x09 then [0x5C, 0x74]
  else [0x5C, 0x75, 0x30, 0x30, hexDigit (b >>> 4), hexDigit (b &&& 0xF)]

/-- The last hexadecimal digit of U+2028 or U+2029, if one of them starts here. -/
def separator (b : UInt8) (rest : Bytes) : Option UInt8 :=
  if b = 0xE2 ∧ rest.take 2 = [0x80, 0xA8] then some 0x38
  else if b = 0xE2 ∧ rest.take 2 = [0x80, 0xA9] then some 0x39
  else none

/-- The inside of a quoted string. `skip` bytes of the present character are still to
come, which are copied or have been written as an escape. -/
def quoteFrom (copy : Bool) : Nat → Bytes → Bytes
  | _, [] => []
  | skip + 1, b :: rest => (if copy then [b] else []) ++ quoteFrom copy skip rest
  | 0, b :: rest =>
    if b < 0x80 then (if htmlSafe b then [b] else escape b) ++ quoteFrom true 0 rest
    else
      match Utf8.runeSize b rest with
      | none => [0x5C, 0x75, 0x66, 0x66, 0x66, 0x64] ++ quoteFrom true 0 rest
      | some size =>
        match separator b rest with
        | some digit => [0x5C, 0x75, 0x32, 0x30, 0x32, digit] ++ quoteFrom false (size - 1) rest
        | none => b :: quoteFrom true (size - 1) rest

def quote (s : Bytes) : Bytes := 0x22 :: (quoteFrom true 0 s ++ [0x22])

def bool (b : Bool) : Bytes := if b then ascii "true" else ascii "false"

/-- The members of an object, each with the text of its value. -/
def members : List (Bytes × Bytes) → Bytes
  | [] => []
  | [(name, value)] => 0x22 :: (name ++ 0x22 :: 0x3A :: value)
  | (name, value) :: rest => 0x22 :: (name ++ 0x22 :: 0x3A :: (value ++ 0x2C :: members rest))

def object (fields : List (Bytes × Bytes)) : Bytes := 0x7B :: (members fields ++ [0x7D])

/-! ### What is written is scanned -/

section Scan
variable (stack : List Parse)

/-- The text of a value: the delimiter after it is read as at the end of a value. -/
def IsValue (text : Bytes) : Prop :=
  ∀ stack c, c = 0x2C ∨ c = 0x7D → scan ⟨.beginValue, stack⟩ (text ++ [c]) = stateEndValue stack c

theorem scan_cons {s t : Scanner} {c : UInt8} (h : step s c = some t) (rest : Bytes) :
    scan s (c :: rest) = scan t rest := by
  rw [scan, h]
  rfl

/-- A byte that stands for itself inside a string. -/
def Plain (b : UInt8) : Prop := 0x20 ≤ b ∧ b ≠ 0x22 ∧ b ≠ 0x5C

theorem step_plain {b : UInt8} (h : Plain b) : step ⟨.inString, stack⟩ b = some ⟨.inString, stack⟩ := by
  obtain ⟨hge, hq, hb⟩ := h
  simp only [step, hq, hb, if_false, UInt8.not_lt.mpr hge]

theorem scan_plain {name : Bytes} (h : ∀ b ∈ name, Plain b) (rest : Bytes) :
    scan ⟨.inString, stack⟩ (name ++ rest) = scan ⟨.inString, stack⟩ rest := by
  induction name with
  | nil => rfl
  | cons b name ih =>
    rw [List.cons_append, scan_cons (step_plain stack (h b List.mem_cons_self))]
    exact ih fun b hb => h b (List.mem_cons_of_mem _ hb)

theorem plain_of_high {b : UInt8} (h : 0x80 ≤ b) : Plain b := by
  refine ⟨UInt8.le_trans (by decide) h, ?_, ?_⟩
  · rintro rfl
    exact absurd h (by decide)
  · rintro rfl
    exact absurd h (by decide)

theorem isHex_hexDigit {n : UInt8} (h : n < 16) : isHex (hexDigit n) = true := by
  have hall : ∀ k : Fin 16, isHex (hexDigit (UInt8.ofNat k)) = true := by decide
  have hn : n.toNat < 16 := UInt8.lt_iff_toNat_lt.mp h
  simpa using hall ⟨n.toNat, hn⟩

/-- Whatever an ASCII character is written as, the string goes on after it. -/
theorem scan_ascii {b : UInt8} :
    scan ⟨.inString, stack⟩ (if htmlSafe b then [b] else escape b) = some ⟨.inString, stack⟩ := by
  split
  · rename_i hsafe
    simp only [htmlSafe, Bool.and_eq_true, decide_eq_true_eq] at hsafe
    have hplain : Plain b := ⟨hsafe.1.1.1.1.1, hsafe.1.1.1.1.2, hsafe.2⟩
    rw [scan_cons (step_plain stack hplain)]
    rfl
  · unfold escape
    split
    · rename_i hb
      rcases hb with rfl | rfl <;> rfl
    split
    · rfl
    split
    · rfl
    split
    · rfl
    split
    · rfl
    split
    · rfl
    · have hhigh : isHex (hexDigit (b >>> 4)) = true := isHex_hexDigit (by
        rw [UInt8.lt_iff_toNat_lt, UInt8.toNat_shiftRight]
        have := b.toNat_lt
        simp [Nat.shiftRight_eq_div_pow]
        omega)
      have hlow : isHex (hexDigit (b &&& 0xF)) = true := isHex_hexDigit (by
        rw [UInt8.lt_iff_toNat_lt, UInt8.toNat_and]
        exact Nat.lt_of_le_of_lt Nat.and_le_right (by decide))
      have hprefix : scan ⟨.inString, stack⟩ [0x5C, 0x75, 0x30, 0x30] =
        some ⟨.inStringEscU12, stack⟩ := rfl
      show scan ⟨.inString, stack⟩ ([0x5C, 0x75, 0x30, 0x30] ++ _) = _
      rw [scan_append, hprefix]
      simp [scan, step, hhigh, hlow]

theorem scan_quoteFrom (s : Bytes) : ∀ (copy : Bool) (skip : Nat), (∀ b ∈ s.take skip, 0x80 ≤ b) →
    scan ⟨.inString, stack⟩ (quoteFrom copy skip s) = some ⟨.inString, stack⟩ := by
  induction s with
  | nil =>
    intro copy skip _
    cases skip <;> rfl
  | cons b rest ih =>
    intro copy skip hskip
    cases skip with
    | succ skip =>
      rw [List.take_succ_cons] at hskip
      have hrest := ih copy skip fun x hx => hskip x (List.mem_cons_of_mem _ hx)
      rw [quoteFrom]
      cases copy with
      | false => exact hrest
      | true =>
        show scan ⟨.inString, stack⟩ (b :: quoteFrom true skip rest) = _
        rw [scan_cons (step_plain stack (plain_of_high (hskip b List.mem_cons_self)))]
        exact hrest
    | zero =>
      rw [quoteFrom]
      split
      · rw [scan_append, scan_ascii]
        exact ih true 0 (by simp)
      · rename_i hhigh
        split
        · rw [scan_append]
          exact ih true 0 (by simp)
        · rename_i size hsize
          have htail := Utf8.runeSize_tail hsize
          split
          · rename_i digit hdigit
            have hhex : isHex digit = true := by
              unfold separator at hdigit
              split at hdigit
              · cases hdigit
                rfl
              · split at hdigit
                · cases hdigit
                  rfl
                · cases hdigit
            have hescape : scan ⟨.inString, stack⟩ [0x5C, 0x75, 0x32, 0x30, 0x32, digit] =
                some ⟨.inString, stack⟩ := by
              have hprefix : scan ⟨.inString, stack⟩ [0x5C, 0x75, 0x32, 0x30, 0x32] =
                some ⟨.inStringEscU123, stack⟩ := rfl
              show scan ⟨.inString, stack⟩ ([0x5C, 0x75, 0x32, 0x30, 0x32] ++ [digit]) = _
              rw [scan_append, hprefix]
              simp [scan, step, hhex]
            rw [scan_append, hescape]
            exact ih false (size - 1) htail
          · rw [scan_cons (step_plain stack (plain_of_high (UInt8.not_lt.mp hhigh)))]
            exact ih true (size - 1) htail

theorem quote_isValue (s : Bytes) : IsValue (quote s) := by
  intro stack c _
  show scan ⟨.inString, stack⟩ ((quoteFrom true 0 s ++ [0x22]) ++ [c]) = _
  rw [scan_append, scan_append, scan_quoteFrom stack s true 0 (by simp)]
  show (stateEndValue stack c).bind _ = _
  cases stateEndValue stack c <;> rfl

theorem bool_isValue (b : Bool) : IsValue (bool b) := by
  intro stack c _
  have hscan : scan ⟨.beginValue, stack⟩ (bool b) = some ⟨.endValue, stack⟩ := by
    cases b <;> rfl
  rw [scan_append, hscan]
  show (stateEndValue stack c).bind _ = _
  cases stateEndValue stack c <;> rfl

/-- The byte of a decimal digit. -/
def digit (k : Nat) : UInt8 := (Nat.digitChar k).toNat.toUInt8

theorem step_digit {state : State} (hs : state = .beginValue ∨ state = .neg) {k : Nat} (hk : k < 10) :
    step ⟨state, stack⟩ (digit k) = some ⟨if k = 0 then .state0 else .state1, stack⟩ := by
  rcases hs with rfl | rfl
  · interval_cases k <;> rfl
  · interval_cases k <;> rfl

theorem step_state1 {k : Nat} (hk : k < 10) :
    step ⟨.state1, stack⟩ (digit k) = some ⟨.state1, stack⟩ := by
  interval_cases k <;> rfl

/-- Only zero starts with a zero. -/
theorem scan_digits {state : State} (hs : state = .beginValue ∨ state = .neg) (n : Nat) :
    scan ⟨state, stack⟩ (ascii (toString n)) = some ⟨if n = 0 then .state0 else .state1, stack⟩ := by
  have htext : ∀ n : Nat, ascii (toString n) =
      (Nat.toDigits 10 n).map fun c => c.toNat.toUInt8 := by
    intro n
    simp [ascii]
  rw [htext]
  induction n using Nat.strong_induction_on with
  | _ n ih =>
    by_cases hlt : n < 10
    · rw [Nat.toDigits_of_lt_base hlt]
      show (step ⟨state, stack⟩ (digit n)).bind _ = _
      rw [step_digit stack hs hlt]
      rfl
    · have hne : ¬n / 10 = 0 := by omega
      rw [Nat.toDigits_of_base_le (by decide) (by omega), List.map_append, scan_append,
        ih (n / 10) (by omega), if_neg hne, if_neg (by omega)]
      show (step ⟨.state1, stack⟩ (digit (n % 10))).bind _ = _
      rw [step_state1 stack (by omega)]
      rfl

theorem decimal_isValue (n : Int) : IsValue (decimal n) := by
  intro stack c hc
  have hend : ∀ k : Nat, scan ⟨if k = 0 then .state0 else .state1, stack⟩ [c] = stateEndValue stack c := by
    intro k
    have hstep : step ⟨if k = 0 then .state0 else .state1, stack⟩ c = stateEndValue stack c := by
      split <;> rcases hc with rfl | rfl <;> rfl
    rw [scan, hstep]
    cases stateEndValue stack c <;> rfl
  rw [scan_append]
  cases n with
  | ofNat k =>
    show (scan ⟨.beginValue, stack⟩ (ascii (toString k))).bind _ = _
    rw [scan_digits stack (Or.inl rfl) k]
    exact hend k
  | negSucc k =>
    have htext : decimal (Int.negSucc k) = 0x2D :: ascii (toString (k + 1)) := by
      show ascii ("-" ++ toString (k + 1)) = _
      simp [ascii]
    rw [htext, scan_cons (show step ⟨.beginValue, stack⟩ 0x2D = some ⟨.neg, stack⟩ from rfl),
      scan_digits stack (Or.inr rfl) (k + 1)]
    exact hend (k + 1)

/-- Fields that the writer can be given. -/
def Fields (fields : List (Bytes × Bytes)) : Prop :=
  ∀ field ∈ fields, (∀ b ∈ field.1, Plain b) ∧ IsValue field.2

theorem scan_member {name value : Bytes} (hname : ∀ b ∈ name, Plain b) (hvalue : IsValue value)
    {c : UInt8} (hc : c = 0x2C ∨ c = 0x7D) :
    scan ⟨.beginString, .objectKey :: stack⟩ (0x22 :: (name ++ 0x22 :: 0x3A :: (value ++ [c]))) =
      stateEndValue (.objectValue :: stack) c := by
  show scan ⟨.inString, .objectKey :: stack⟩ (name ++ _) = _
  rw [scan_plain _ hname]
  exact hvalue (.objectValue :: stack) c hc

theorem scan_members {fields : List (Bytes × Bytes)} (h : Fields fields) (hne : fields ≠ []) :
    scan ⟨.beginString, .objectKey :: stack⟩ (members fields ++ [0x7D]) = some (popParseState stack) := by
  induction fields with
  | nil => exact absurd rfl hne
  | cons field rest ih =>
    obtain ⟨name, value⟩ := field
    obtain ⟨hname, hvalue⟩ := h (name, value) List.mem_cons_self
    cases rest with
    | nil =>
      have hlast := scan_member stack hname hvalue (Or.inr rfl)
      rw [show stateEndValue (.objectValue :: stack) 0x7D = some (popParseState stack) from rfl] at hlast
      simpa [members] using hlast
    | cons next rest =>
      have hnext := ih (fun field hf => h field (List.mem_cons_of_mem _ hf)) (by simp)
      have hcomma := scan_member stack hname hvalue (Or.inl rfl)
      have hsplit : members ((name, value) :: next :: rest) ++ [0x7D] =
          0x22 :: (name ++ 0x22 :: 0x3A :: (value ++ [0x2C])) ++ (members (next :: rest) ++ [0x7D]) := by
        simp [members]
      rw [hsplit, scan_append, hcomma]
      exact hnext

/-- An object, in whatever it is nested. -/
theorem scan_object {fields : List (Bytes × Bytes)} (h : Fields fields) (hne : fields ≠ []) :
    scan ⟨.beginValue, stack⟩ (object fields) =
      if stack.length < maxNestingDepth then some (popParseState stack) else none := by
  have hfirst : ∀ text, scan ⟨.beginStringOrEmpty, .objectKey :: stack⟩ (0x22 :: text) =
    scan ⟨.beginString, .objectKey :: stack⟩ (0x22 :: text) := fun _ => rfl
  have hquote : ∃ text, members fields ++ [0x7D] = 0x22 :: text := by
    match fields, hne with
    | [(_, _)], _ => exact ⟨_, rfl⟩
    | (_, _) :: _ :: _, _ => exact ⟨_, rfl⟩
  obtain ⟨text, htext⟩ := hquote
  have hmembers := scan_members stack h hne
  show (pushParseState .beginStringOrEmpty .objectKey stack).bind _ = _
  unfold pushParseState
  split
  · rw [Option.bind_some, htext, hfirst, ← htext]
    exact hmembers
  · rfl

end Scan

/-- What the writer writes is valid. -/
theorem checkValid_object {fields : List (Bytes × Bytes)} (h : Fields fields) (hne : fields ≠ []) :
    checkValid (object fields) = true := by
  unfold checkValid
  rw [scan_object [] h hne]
  rfl

/-! ### No control characters -/

/-- The text has no control characters; in particular it is one line. -/
def Printable (text : Bytes) : Prop := ∀ b ∈ text, 0x20 ≤ b

theorem printable_of_all {text : Bytes} (h : (text.all fun b => decide (0x20 ≤ b)) = true) :
    Printable text := by
  intro b hb
  exact of_decide_eq_true (List.all_eq_true.mp h b hb)

theorem Printable.append {a b : Bytes} (ha : Printable a) (hb : Printable b) : Printable (a ++ b) := by
  intro x hx
  exact (List.mem_append.mp hx).elim (ha x) (hb x)

theorem Printable.cons {b : UInt8} {text : Bytes} (hb : 0x20 ≤ b) (h : Printable text) :
    Printable (b :: text) := by
  intro x hx
  rcases List.mem_cons.mp hx with rfl | hx
  · exact hb
  · exact h x hx

theorem escape_printable (b : UInt8) : Printable (escape b) := by
  have hall : ∀ k : Fin 256, ((escape (UInt8.ofNat k)).all fun x => decide (0x20 ≤ x)) = true := by
    decide +kernel
  have hb := hall ⟨b.toNat, b.toNat_lt⟩
  rw [show UInt8.ofNat ((⟨b.toNat, b.toNat_lt⟩ : Fin 256) : Nat) = b from UInt8.ofNat_toNat] at hb
  exact printable_of_all hb

theorem quoteFrom_printable (s : Bytes) : ∀ (copy : Bool) (skip : Nat), (∀ b ∈ s.take skip, 0x80 ≤ b) →
    Printable (quoteFrom copy skip s) := by
  induction s with
  | nil =>
    intro copy skip _
    cases skip <;> exact fun _ hx => nomatch hx
  | cons b rest ih =>
    intro copy skip hskip
    cases skip with
    | succ skip =>
      rw [List.take_succ_cons] at hskip
      have hrest := ih copy skip fun x hx => hskip x (List.mem_cons_of_mem _ hx)
      rw [quoteFrom]
      cases copy with
      | false => exact hrest
      | true => exact hrest.cons (plain_of_high (hskip b List.mem_cons_self)).1
    | zero =>
      rw [quoteFrom]
      split
      · refine Printable.append ?_ (ih true 0 (by simp))
        split
        · rename_i hsafe
          simp only [htmlSafe, Bool.and_eq_true, decide_eq_true_eq] at hsafe
          exact Printable.cons hsafe.1.1.1.1.1 fun _ hx => nomatch hx
        · exact escape_printable b
      · rename_i hhigh
        split
        · exact Printable.append (printable_of_all (by decide)) (ih true 0 (by simp))
        · rename_i size hsize
          have htail := Utf8.runeSize_tail hsize
          split
          · rename_i digit hdigit
            have hge : 0x20 ≤ digit := by
              unfold separator at hdigit
              split at hdigit
              · cases hdigit
                decide
              · split at hdigit
                · cases hdigit
                  decide
                · cases hdigit
            refine Printable.append ?_ (ih false (size - 1) htail)
            exact Printable.append (a := [0x5C, 0x75, 0x32, 0x30, 0x32]) (printable_of_all (by decide))
              (Printable.cons hge fun _ hx => nomatch hx)
          · exact (ih true (size - 1) htail).cons (plain_of_high (UInt8.not_lt.mp hhigh)).1

theorem quote_printable (s : Bytes) : Printable (quote s) :=
  ((quoteFrom_printable s true 0 (by simp)).append (printable_of_all (by decide))).cons (by decide)

theorem bool_printable (b : Bool) : Printable (bool b) := by
  cases b <;> exact printable_of_all (by decide)

theorem decimal_printable (n : Int) : Printable (decimal n) := by
  have hnat : ∀ k : Nat, Printable (ascii (toString k)) := by
    intro k x hx
    obtain ⟨c, hc, rfl⟩ := List.mem_map.mp hx
    have hdigit := @Nat.isDigit_of_mem_toDigits 10 k c (by decide) (by decide) (by simpa using hc)
    simp only [Char.isDigit, Bool.and_eq_true, decide_eq_true_eq] at hdigit
    have hlow : 48 ≤ c.toNat := hdigit.1
    have hhigh : c.toNat ≤ 57 := hdigit.2
    rw [UInt8.le_iff_toNat_le]
    show 32 ≤ c.toNat % 256
    omega
  cases n with
  | ofNat k => exact hnat k
  | negSucc k =>
    have htext : decimal (Int.negSucc k) = 0x2D :: ascii (toString (k + 1)) := by
      show ascii ("-" ++ toString (k + 1)) = _
      simp [ascii]
    rw [htext]
    exact (hnat (k + 1)).cons (by decide)

theorem members_printable {fields : List (Bytes × Bytes)}
    (h : ∀ field ∈ fields, Printable field.1 ∧ Printable field.2) : Printable (members fields) := by
  induction fields with
  | nil => exact fun _ hx => nomatch hx
  | cons field rest ih =>
    obtain ⟨name, value⟩ := field
    obtain ⟨hname, hvalue⟩ := h (name, value) List.mem_cons_self
    have hrest := ih fun field hf => h field (List.mem_cons_of_mem _ hf)
    cases rest with
    | nil => exact (hname.append ((hvalue.cons (by decide)).cons (by decide))).cons (by decide)
    | cons next rest =>
      exact (hname.append (((hvalue.append (hrest.cons (by decide))).cons (by decide)).cons
        (by decide))).cons (by decide)

theorem object_printable {fields : List (Bytes × Bytes)}
    (h : ∀ field ∈ fields, Printable field.1 ∧ Printable field.2) : Printable (object fields) :=
  ((members_printable h).append (printable_of_all (by decide))).cons (by decide)

/-! ### Objects broken off -/

/-- A scanner that has read the start of an object, or all of it. -/
structure Inside (s : Scanner) : Prop where
  nested : s.parseState ≠ [] ∨ s.state = .endTop
  letters : ∀ rest, s.state = .literal rest → 0x7B ∉ rest

section Inside
variable {s t : Scanner} {stack : List Parse} {c : UInt8}

theorem Inside.of_stack {state : State} (h : stack ≠ []) (hl : ∀ rest, state ≠ .literal rest) :
    Inside ⟨state, stack⟩ := ⟨Or.inl h, fun rest hr => absurd hr (hl rest)⟩

theorem Inside.of_literal {letters : List UInt8} (h : stack ≠ []) (hl : 0x7B ∉ letters) :
    Inside ⟨.literal letters, stack⟩ := by
  refine ⟨Or.inl h, ?_⟩
  rintro rest ⟨⟩
  exact hl

theorem popParseState_inside (stack : List Parse) : Inside (popParseState stack) := by
  cases stack with
  | nil => exact ⟨Or.inr rfl, fun _ hr => nomatch hr⟩
  | cons p rest => exact Inside.of_stack (by simp) (by simp)

theorem stateEndValue_inside (h : stack ≠ []) (ht : stateEndValue stack c = some t) : Inside t := by
  cases stack with
  | nil => exact absurd rfl h
  | cons p rest =>
    simp only [stateEndValue] at ht
    by_cases hspace : isSpace c = true
    · rw [if_pos hspace] at ht
      cases ht
      exact Inside.of_stack (by simp) (by simp)
    · rw [if_neg hspace] at ht
      cases p with
      | objectKey =>
        dsimp only at ht
        split at ht <;> cases ht
        exact Inside.of_stack (by simp) (by simp)
      | objectValue =>
        dsimp only at ht
        split at ht
        · cases ht
          exact Inside.of_stack (by simp) (by simp)
        · split at ht <;> cases ht
          exact popParseState_inside rest
      | arrayValue =>
        dsimp only at ht
        split at ht
        · cases ht
          exact Inside.of_stack (by simp) (by simp)
        · split at ht <;> cases ht
          exact popParseState_inside rest

theorem pushParseState_inside {state : State} {p : Parse} (hl : ∀ rest, state ≠ .literal rest)
    (ht : pushParseState state p stack = some t) : Inside t := by
  unfold pushParseState at ht
  split at ht <;> cases ht
  exact Inside.of_stack (by simp) hl

theorem stateBeginValue_inside (h : stack ≠ []) (ht : stateBeginValue stack c = some t) : Inside t := by
  unfold stateBeginValue at ht
  split_ifs at ht
  · exact pushParseState_inside (by simp) ht
  · exact pushParseState_inside (by simp) ht
  · cases ht
    exact Inside.of_stack h (by simp)
  · cases ht
    exact Inside.of_stack h (by simp)
  · cases ht
    exact Inside.of_stack h (by simp)
  · cases ht
    exact Inside.of_literal h (by decide)
  · cases ht
    exact Inside.of_literal h (by decide)
  · cases ht
    exact Inside.of_literal h (by decide)
  · cases ht
    exact Inside.of_stack h (by simp)

theorem state0_inside (h : stack ≠ []) (ht : state0 stack c = some t) : Inside t := by
  unfold state0 at ht
  split_ifs at ht
  · cases ht
    exact Inside.of_stack h (by simp)
  · cases ht
    exact Inside.of_stack h (by simp)
  · exact stateEndValue_inside h ht

theorem step_inside (h : Inside s) (ht : step s c = some t) : Inside t := by
  obtain ⟨state, stack⟩ := s
  by_cases htop : state = .endTop
  · subst htop
    simp only [step] at ht
    split at ht <;> cases ht
    exact h
  have hstack : stack ≠ [] := h.nested.resolve_right htop
  -- a step that only moves on to another state
  have hmove : ∀ next, (∀ rest, next ≠ .literal rest) → some ⟨next, stack⟩ = some t → Inside t := by
    rintro next hl ⟨⟩
    exact Inside.of_stack hstack hl
  have hstay : some ⟨state, stack⟩ = some t → Inside t := by
    rintro ⟨⟩
    exact h
  cases state with
  | endTop => exact absurd rfl htop
  | beginValue =>
    simp only [step] at ht
    split_ifs at ht
    · exact hstay ht
    · exact stateBeginValue_inside hstack ht
  | beginValueOrEmpty =>
    simp only [step] at ht
    split_ifs at ht
    · exact hstay ht
    · exact stateEndValue_inside hstack ht
    · exact stateBeginValue_inside hstack ht
  | beginString =>
    simp only [step, stateBeginString] at ht
    split_ifs at ht
    · exact hstay ht
    · exact hmove _ (by simp) ht
  | beginStringOrEmpty =>
    simp only [step, stateBeginString] at ht
    split_ifs at ht
    · exact hstay ht
    · exact stateEndValue_inside (by simp) ht
    · exact hmove _ (by simp) ht
  | endValue => exact stateEndValue_inside hstack ht
  | inString =>
    simp only [step] at ht
    split_ifs at ht
    · exact hmove _ (by simp) ht
    · exact hmove _ (by simp) ht
    · exact hstay ht
  | inStringEsc =>
    simp only [step] at ht
    split_ifs at ht
    · exact hmove _ (by simp) ht
    · exact hmove _ (by simp) ht
  | inStringEscU | inStringEscU1 | inStringEscU12 | inStringEscU123 | dot =>
    simp only [step] at ht
    split_ifs at ht
    exact hmove _ (by simp) ht
  | neg =>
    simp only [step] at ht
    split_ifs at ht
    · exact hmove _ (by simp) ht
    · exact hmove _ (by simp) ht
  | state1 =>
    simp only [step] at ht
    split_ifs at ht
    · exact hstay ht
    · exact state0_inside hstack ht
  | state0 => exact state0_inside hstack ht
  | dot0 =>
    simp only [step] at ht
    split_ifs at ht
    · exact hstay ht
    · exact hmove _ (by simp) ht
    · exact stateEndValue_inside hstack ht
  | e =>
    simp only [step, stateESign] at ht
    split_ifs at ht
    · exact hmove _ (by simp) ht
    · exact hmove _ (by simp) ht
  | eSign =>
    simp only [step, stateESign] at ht
    split_ifs at ht
    exact hmove _ (by simp) ht
  | e0 =>
    simp only [step] at ht
    split_ifs at ht
    · exact hstay ht
    · exact stateEndValue_inside hstack ht
  | literal rest =>
    have hletters := h.letters rest rfl
    match rest with
    | [] => cases ht
    | [b] =>
      simp only [step] at ht
      split_ifs at ht
      exact hmove _ (by simp) ht
    | b :: b' :: rest =>
      simp only [step] at ht
      split_ifs at ht
      cases ht
      exact Inside.of_literal hstack fun hmem => hletters (List.mem_cons_of_mem _ hmem)

theorem scan_inside (text : Bytes) : ∀ s t : Scanner, Inside s → scan s text = some t → Inside t := by
  induction text with
  | nil =>
    rintro s t h ⟨⟩
    exact h
  | cons c rest ih =>
    intro s t h ht
    obtain ⟨u, hu, hrest⟩ := Option.bind_eq_some_iff.mp ht
    exact ih u t (step_inside h hu) hrest

/-- A byte that cannot follow a value. -/
def Letter (x : UInt8) : Prop :=
  isSpace x = false ∧ x ≠ 0x3A ∧ x ≠ 0x2C ∧ x ≠ 0x7D ∧ x ≠ 0x5D

theorem stateEndValue_letter (h : stack ≠ []) {x : UInt8} (hx : Letter x) :
    stateEndValue stack x = none := by
  obtain ⟨hspace, hcolon, hcomma, hbrace, hbracket⟩ := hx
  cases stack with
  | nil => exact absurd rfl h
  | cons p rest => cases p <;> simp [stateEndValue, hspace, hcolon, hcomma, hbrace, hbracket]

/-- An object after the start of another one: it is refused, or it is nested in it. -/
theorem torn_object (h : Inside s) {x : UInt8} {name value : Bytes} {rest : List (Bytes × Bytes)}
    (hf : Fields ((x :: name, value) :: rest)) (hx : Letter x) :
    (scan s (object ((x :: name, value) :: rest))).any eof = false := by
  obtain ⟨state, stack⟩ := s
  obtain ⟨text, htext⟩ : ∃ text, object ((x :: name, value) :: rest) = 0x7B :: 0x22 :: x :: text := by
    cases rest <;> exact ⟨_, rfl⟩
  have hrefused : step ⟨state, stack⟩ 0x7B = none →
      (scan ⟨state, stack⟩ (object ((x :: name, value) :: rest))).any eof = false := by
    intro hstep
    rw [htext, scan, hstep]
    rfl
  by_cases htop : state = .endTop
  · subst htop
    exact hrefused rfl
  have hstack : stack ≠ [] := h.nested.resolve_right htop
  have hbrace : stateEndValue stack 0x7B = none := by
    cases stack with
    | nil => exact absurd rfl hstack
    | cons p rest => cases p <;> rfl
  -- where a value may begin, the object is read and the outer one is still open
  have hnested : (scan ⟨.beginValue, stack⟩ (object ((x :: name, value) :: rest))).any eof = false := by
    rw [scan_object stack hf (by simp)]
    split
    · cases stack with
      | nil => exact absurd rfl hstack
      | cons p rest => rfl
    · rfl
  cases state with
  | endTop => exact absurd rfl htop
  | beginValue => exact hnested
  | beginValueOrEmpty =>
    rw [htext] at hnested ⊢
    exact hnested
  | inString =>
    -- the quote closes the string, and then comes the letter
    rw [htext]
    show ((stateEndValue stack x).bind _).any eof = false
    rw [stateEndValue_letter hstack hx]
    rfl
  | endValue => exact hrefused hbrace
  | state1 | state0 => exact hrefused (by simpa [step, isDigit, state0] using hbrace)
  | dot0 | e0 => exact hrefused (by simpa [step, isDigit] using hbrace)
  | literal letters =>
    have hletters := h.letters letters rfl
    refine hrefused ?_
    match letters with
    | [] => rfl
    | [b] =>
      simp only [List.mem_singleton] at hletters
      simp [step, hletters]
    | b :: b' :: rest =>
      simp only [List.mem_cons, not_or] at hletters
      simp [step, hletters.1]
  | _ => exact hrefused rfl

end Inside

/-- **Nothing written after a broken-off object makes a valid text with it.** -/
theorem checkValid_torn (torn : Bytes) {x : UInt8} {name value : Bytes} {rest : List (Bytes × Bytes)}
    (hf : Fields ((x :: name, value) :: rest)) (hx : Letter x) :
    checkValid (0x7B :: torn ++ object ((x :: name, value) :: rest)) = false := by
  have hstart : step ⟨.beginValue, []⟩ 0x7B = some ⟨.beginStringOrEmpty, [.objectKey]⟩ := rfl
  have hinside : Inside ⟨.beginStringOrEmpty, [.objectKey]⟩ := Inside.of_stack (by simp) (by simp)
  unfold checkValid
  rw [List.cons_append, scan_cons hstart, scan_append]
  cases htorn : scan ⟨.beginStringOrEmpty, [.objectKey]⟩ torn with
  | none => rfl
  | some t => exact torn_object (scan_inside torn _ t hinside htorn) hf hx

end Wjetcd.Json
