import IncludeTrace.Proofs.Encoding
import IncludeTrace.Proofs.Lines
import IncludeTrace.Proofs.Rendering
import Mathlib.Data.List.TakeWhile

/-!
# JSON lines read back

A reader for JSON as it is standardised, and what it makes of the lines for a trace.

The reader has two machines.  `Lexer` goes through the characters and finds the
*tokens*: punctuation, texts with their escapes undone, and what stands without
quotes, which is a number or one of three words.  A number or a word ends at the
first character that cannot belong to one, and this character is looked at again.
`Reader` goes through the tokens with a stack of the arrays and objects that are not
closed yet.  A name that is given twice in an object is kept twice, so what is read
is all that was written.

Every object that is written is read back, whatever is in its texts
(`read?_render`).  No newline is written inside an object, because the newline is
among the characters that are escaped, and UTF-8 has the newline byte for the
newline alone.  So the lines for a trace can be told apart at the newlines, and each
of them is the object for its event.
-/

namespace IncludeTrace

namespace Json

/-- A JSON value. -/
inductive Data where
  /-- The value of the word `null`. -/
  | null
  /-- The value of the words `true` and `false`. -/
  | bool (b : Bool)
  /-- A number. -/
  | number (n : Rat)
  /-- A text. -/
  | text (t : Text)
  /-- An array. -/
  | array (items : List Data)
  /-- An object, as its members in order. -/
  | object (members : List (Text × Data))

/-! ## Numbers and words -/

/-- The number with some digits. -/
def digits? (t : Text) : Option Nat :=
  if t ≠ [] ∧ t.all Char.isDigit then some (Nat.ofDigitChars 10 t 0) else none

/-- The number with some digits of which the first is not a needless zero. -/
def whole? (t : Text) : Option Nat := if t.head? = some '0' ∧ t ≠ ['0'] then none else digits? t

/-- The value of a point with digits behind it, or of nothing. -/
def fraction? : Text → Option Rat
  | [] => some 0
  | _ :: ds => (digits? ds).map fun (n : Nat) => (n : Rat) / 10 ^ ds.length

/-- The factor of an exponent, or of nothing. -/
def factor? : Text → Option Rat
  | [] => some 1
  | _ :: '-' :: ds => (digits? ds).map fun n => 1 / 10 ^ n
  | _ :: '+' :: ds => (digits? ds).map fun n => 10 ^ n
  | _ :: ds => (digits? ds).map fun n => 10 ^ n

/-- Whether a character stands in front of an exponent. -/
def isExponentMark (c : Char) : Bool := c == 'e' || c == 'E'

/-- The number without a sign that a text stands for. -/
def magnitude? (t : Text) : Option Rat :=
  let mantissa := t.takeWhile (!isExponentMark ·)
  match whole? (mantissa.takeWhile (· != '.')), fraction? (mantissa.dropWhile (· != '.')),
    factor? (t.dropWhile (!isExponentMark ·)) with
  | some whole, some fraction, some factor => some ((whole + fraction) * factor)
  | _, _, _ => none

/-- The number a text stands for. -/
def number? (t : Text) : Option Rat :=
  if t.head? = some '-' then (magnitude? t.tail).map (- ·) else magnitude? t

/-- The value of a word or a number. -/
def plain? (t : Text) : Option Data :=
  if t = "null".toList then some .null
  else if t = "true".toList then some (.bool true)
  else if t = "false".toList then some (.bool false)
  else (number? t).map .number

/-! ## Texts -/

/-- Where the reader stands inside a text.  A first surrogate that was read waits for the second
one in `high`. -/
inductive TextState where
  /-- Between characters. -/
  | plain (high : Option Nat)
  /-- Behind a backslash. -/
  | escape (high : Option Nat)
  /-- Inside a code unit: `owed + 1` digits are still to come, and `value` is read. -/
  | unit (high : Option Nat) (owed value : Nat)
deriving DecidableEq

/-- The character of a short escape. -/
def short? : Char → Option Char
  | '"' => some '"'
  | '\\' => some '\\'
  | '/' => some '/'
  | 'b' => some '\x08'
  | 'f' => some '\x0C'
  | 'n' => some '\n'
  | 'r' => some '\r'
  | 't' => some '\t'
  | _ => none

/-- The value of a hexadecimal digit. -/
def hex? (c : Char) : Option Nat :=
  if '0' ≤ c ∧ c ≤ '9' then some (c.toNat - '0'.toNat)
  else if 'a' ≤ c ∧ c ≤ 'f' then some (c.toNat - 'a'.toNat + 10)
  else if 'A' ≤ c ∧ c ≤ 'F' then some (c.toNat - 'A'.toNat + 10)
  else none

/-- Whether a code unit is the first one of a pair. -/
def isHigh (u : Nat) : Bool := 0xD800 ≤ u && u ≤ 0xDBFF

/-- Whether a code unit is the second one of a pair. -/
def isLow (u : Nat) : Bool := 0xDC00 ≤ u && u ≤ 0xDFFF

/-- A code unit, with the character it completes.  Surrogates come in pairs only. -/
def unit? (high : Option Nat) (u : Nat) : Option (TextState × Option Char) :=
  match high with
  | some h =>
      if isLow u then
        some (.plain none, some (Char.ofNat (0x10000 + (h - 0xD800) * 0x400 + (u - 0xDC00))))
      else none
  | none =>
      if isHigh u then some (.plain (some u), none)
      else if isLow u then none
      else some (.plain none, some (Char.ofNat u))

/-- One character inside a text, with the character it completes.  The quote that ends the text
is not dealt with here. -/
def TextState.next? : TextState → Char → Option (TextState × Option Char)
  | .plain high, c =>
      if c = '\\' then some (.escape high, none)
      else if high.isSome || c.toNat < 0x20 then none
      else some (.plain none, some c)
  | .escape high, c =>
      if c = 'u' then some (.unit high 3 0, none)
      else if high.isSome then none
      else (short? c).map fun d => (.plain none, some d)
  | .unit high owed value, c =>
      match hex? c, owed with
      | none, _ => none
      | some d, 0 => unit? high (value * 16 + d)
      | some d, n + 1 => some (.unit high n (value * 16 + d), none)

/-! ## Tokens -/

/-- What a JSON text consists of. -/
inductive Token where
  /-- The beginning of an object. -/
  | openObject
  /-- The end of an object. -/
  | closeObject
  /-- The beginning of an array. -/
  | openArray
  /-- The end of an array. -/
  | closeArray
  /-- A comma. -/
  | comma
  /-- A colon. -/
  | colon
  /-- A text. -/
  | text (t : Text)
  /-- A number or a word. -/
  | plain (v : Data)

/-- Whether a character says nothing between tokens. -/
def isSpace (c : Char) : Bool := c == ' ' || c == '\t' || c == '\n' || c == '\r'

/-- Whether a character can be part of a number or a word. -/
def isPlain (c : Char) : Bool := c.isAlphanum || c == '+' || c == '-' || c == '.'

/-- The token that a character is. -/
def mark? (c : Char) : Option Token :=
  if c = '\x7b' then some .openObject
  else if c = '\x7d' then some .closeObject
  else if c = '[' then some .openArray
  else if c = ']' then some .closeArray
  else if c = ',' then some .comma
  else if c = ':' then some .colon
  else none

/-- Where the reader of characters stands.  What was read of a token is kept newest first. -/
inductive Lexer where
  /-- Between tokens. -/
  | between
  /-- Inside a number or a word. -/
  | plain (read : Text)
  /-- Inside a text. -/
  | text (s : TextState) (read : Text)

namespace Lexer

/-- One character between tokens, with the token it is. -/
def start? (c : Char) : Option (Lexer × List Token) :=
  if isSpace c then some (.between, [])
  else if c = '"' then some (.text (.plain none) [], [])
  else if isPlain c then some (.plain [c], [])
  else (mark? c).map fun k => (.between, [k])

/-- One character, with the tokens it completes. -/
def next? : Lexer → Char → Option (Lexer × List Token)
  | .between, c => start? c
  | .plain read, c =>
      if isPlain c then some (.plain (c :: read), [])
      else
        match plain? read.reverse, start? c with
        | some v, some (l, ks) => some (l, .plain v :: ks)
        | _, _ => none
  | .text s read, c =>
      if s = .plain none ∧ c = '"' then some (.between, [.text read.reverse])
      else (s.next? c).map fun (s', d) => (.text s' (d.toList ++ read), [])

/-- The tokens that are completed at the end. -/
def finish? : Lexer → Option (List Token)
  | .between => some []
  | .plain read => (plain? read.reverse).map fun v => [.plain v]
  | .text _ _ => none

/-- The tokens of a text, from a place on. -/
def tokens? : Lexer → Text → Option (List Token)
  | l, [] => l.finish?
  | l, c :: cs =>
      match l.next? c with
      | none => none
      | some (l', ks) => (tokens? l' cs).map (ks ++ ·)

end Lexer

/-! ## Values -/

/-- An array or an object that is not closed.  What it holds is kept newest first. -/
inductive Frame where
  /-- An array with its items so far. -/
  | array (items : List Data)
  /-- An object with its members so far, and the name whose value is read. -/
  | object (members : List (Text × Data)) (name : Text)

/-- What has to come next. -/
inductive Place where
  /-- A value. -/
  | value
  /-- The first item of an array, or its end. -/
  | firstItem
  /-- The first name of an object, or its end. -/
  | firstName
  /-- A name of an object that has members. -/
  | name (members : List (Text × Data))
  /-- The colon behind a name. -/
  | colon (members : List (Text × Data)) (name : Text)
  /-- What can follow a value. -/
  | after (v : Data)

/-- Where the reader of tokens stands. -/
structure Reader where
  /-- The arrays and objects around the place, the innermost first. -/
  stack : List Frame
  /-- What has to come next. -/
  place : Place

namespace Reader

/-- The first token of a value. -/
def begin? (stack : List Frame) : Token → Option Reader
  | .openObject => some ⟨stack, .firstName⟩
  | .openArray => some ⟨stack, .firstItem⟩
  | .text t => some ⟨stack, .after (.text t)⟩
  | .plain v => some ⟨stack, .after v⟩
  | .closeObject | .closeArray | .comma | .colon => none

/-- One token. -/
def next? : Reader → Token → Option Reader
  | ⟨stack, .value⟩, k => begin? stack k
  | ⟨stack, .firstItem⟩, .closeArray => some ⟨stack, .after (.array [])⟩
  | ⟨stack, .firstItem⟩, k => begin? (.array [] :: stack) k
  | ⟨stack, .firstName⟩, .closeObject => some ⟨stack, .after (.object [])⟩
  | ⟨stack, .firstName⟩, .text name => some ⟨stack, .colon [] name⟩
  | ⟨stack, .name ms⟩, .text name => some ⟨stack, .colon ms name⟩
  | ⟨stack, .colon ms name⟩, .colon => some ⟨.object ms name :: stack, .value⟩
  | ⟨.array items :: stack, .after v⟩, .comma => some ⟨.array (v :: items) :: stack, .value⟩
  | ⟨.array items :: stack, .after v⟩, .closeArray =>
      some ⟨stack, .after (.array (v :: items).reverse)⟩
  | ⟨.object ms name :: stack, .after v⟩, .comma => some ⟨stack, .name ((name, v) :: ms)⟩
  | ⟨.object ms name :: stack, .after v⟩, .closeObject =>
      some ⟨stack, .after (.object ((name, v) :: ms).reverse)⟩
  | _, _ => none

/-- The value that was read at the end. -/
def finish? : Reader → Option Data
  | ⟨[], .after v⟩ => some v
  | _ => none

/-- The value of some tokens, from a place on. -/
def run? : Reader → List Token → Option Data
  | r, [] => r.finish?
  | r, k :: ks =>
      match r.next? k with
      | none => none
      | some r' => run? r' ks

end Reader

/-- The value that some bytes stand for. -/
def read? (b : Bytes) : Option Data :=
  ((Utf8.decode? b).bind (Lexer.tokens? .between)).bind (Reader.run? ⟨[], .value⟩)

/-! ## Numbers read back -/

theorem isDigit_of_mem_text {n : Nat} {c : Char} (h : c ∈ Decimal.text n) : c.isDigit = true :=
  Nat.isDigit_of_mem_toDigits (by decide) (by decide) h

theorem ne_of_isDigit {c d : Char} (hc : c.isDigit = true) (hd : d.isDigit = false) : c ≠ d := by
  rintro rfl
  rw [hc] at hd
  cases hd

/-- A number does not begin with a needless zero. -/
theorem head?_text_ne {n : Nat} (h : 0 < n) : (Decimal.text n).head? ≠ some '0' := by
  induction n using Nat.strongRecOn with
  | _ n ih =>
      rw [Decimal.text, Nat.toDigits_eq_if (by decide)]
      split
      · have hdigit : ∀ d, d < 10 → 0 < d → Nat.digitChar d ≠ '0' := by decide
        simpa using hdigit n (by assumption) h
      · rw [List.head?_append, Option.or_of_isSome (by simp [Nat.toDigits_ne_nil])]
        exact ih (n / 10) (by omega) (by omega)

theorem whole?_text (n : Nat) : whole? (Decimal.text n) = some n := by
  have hzero : ¬ ((Decimal.text n).head? = some '0' ∧ Decimal.text n ≠ ['0']) := by
    rcases Nat.eq_zero_or_pos n with rfl | hn
    · simp [Decimal.text]
    · exact fun h => head?_text_ne hn h.1
  have hdigits : Decimal.text n ≠ [] ∧ (Decimal.text n).all Char.isDigit = true :=
    ⟨Nat.toDigits_ne_nil, List.all_eq_true.2 fun c hc => isDigit_of_mem_text hc⟩
  rw [whole?, if_neg hzero, digits?, if_pos hdigits, Decimal.text, Nat.ofDigitChars_ten_toDigits]

theorem magnitude?_text (n : Nat) : magnitude? (Decimal.text n) = some (n : Rat) := by
  have hne {d : Char} (hd : d.isDigit = false) : ∀ c ∈ Decimal.text n, c ≠ d :=
    fun c hc => ne_of_isDigit (isDigit_of_mem_text hc) hd
  have hmark : ∀ c ∈ Decimal.text n, (!isExponentMark c) = true := by
    intro c hc
    simp [isExponentMark, hne (d := 'e') rfl c hc, hne (d := 'E') rfl c hc]
  have hpoint : ∀ c ∈ Decimal.text n, (c != '.') = true := by
    intro c hc
    simpa using hne (d := '.') rfl c hc
  simp only [magnitude?, List.takeWhile_eq_self_iff.2 hmark, List.dropWhile_eq_nil_iff.2 hmark,
    List.takeWhile_eq_self_iff.2 hpoint, List.dropWhile_eq_nil_iff.2 hpoint, whole?_text,
    fraction?, factor?]
  rw [Rat.add_zero, Rat.mul_one]

theorem plain?_text (n : Nat) : plain? (Decimal.text n) = some (.number n) := by
  have hhead : ∀ d, (Decimal.text n).head? = some d → d.isDigit = true :=
    fun d hd => isDigit_of_mem_text (List.mem_of_head? hd)
  have hword (t : Text) (d : Char) (ht : t.head? = some d) (hd : d.isDigit = false) :
      Decimal.text n ≠ t := by
    rintro rfl
    exact ne_of_isDigit (hhead d ht) hd rfl
  have hsign : (Decimal.text n).head? ≠ some '-' := fun h => nomatch hhead '-' h
  rw [plain?, if_neg (hword _ 'n' rfl rfl), if_neg (hword _ 't' rfl rfl),
    if_neg (hword _ 'f' rfl rfl), number?, if_neg hsign, magnitude?_text]
  rfl

/-! ## Tokens read back -/

namespace Lexer

theorem hex?_digitChar : ∀ d < 16, hex? (Nat.digitChar d) = some d := by decide

/-- A character is read back from how it stands in a text. -/
theorem tokens?_escape (c : Char) (read rest : Text) :
    tokens? (.text (.plain none) read) (escape c ++ rest) =
      tokens? (.text (.plain none) (c :: read)) rest := by
  unfold escape
  split_ifs with hquote hbackslash _ _ _ _ _ hcontrol
  -- The short escapes.
  iterate 7
    · subst c
      simp [tokens?, next?, TextState.next?, short?]
  · have hfirst := hex?_digitChar (c.toNat / 16) (by omega)
    have hsecond := hex?_digitChar (c.toNat % 16) (by omega)
    have hzero : hex? '0' = some 0 := rfl
    have hvalue : c.toNat / 16 * 16 + c.toNat % 16 = c.toNat := by omega
    have hhigh : isHigh c.toNat = false := by simp [isHigh]; omega
    have hlow : isLow c.toNat = false := by simp [isLow]; omega
    simp [tokens?, next?, TextState.next?, hzero, hfirst, hsecond, hvalue, unit?, hhigh, hlow]
  · simp [tokens?, next?, TextState.next?, hquote, hbackslash, hcontrol]

theorem tokens?_text (t read rest : Text) :
    tokens? (.text (.plain none) read) (t.flatMap escape ++ '"' :: rest) =
      (tokens? .between rest).map (.text (read.reverse ++ t) :: ·) := by
  induction t generalizing read with
  | nil => simp [tokens?, next?]
  | cons c t ih =>
      rw [List.flatMap_cons, List.append_assoc, tokens?_escape, ih]
      simp

theorem tokens?_quote (t rest : Text) :
    tokens? .between (quote t ++ rest) = (tokens? .between rest).map (.text t :: ·) := by
  have htext := tokens?_text t [] rest
  simpa [quote, tokens?, next?, start?, isSpace] using htext

theorem tokens?_plain {t : Text} (ht : ∀ c ∈ t, isPlain c = true) (read rest : Text) :
    tokens? (.plain read) (t ++ rest) = tokens? (.plain (t.reverse ++ read)) rest := by
  induction t generalizing read with
  | nil => rfl
  | cons c t ih =>
      have hc := ht c (.head _)
      simp [tokens?, next?, hc, ih fun d hd => ht d (.tail _ hd)]

/-- A number or a word ends in front of a character that is not part of it. -/
theorem tokens?_plain_end {read : Text} {c : Char} {v : Data} (hv : plain? read.reverse = some v)
    (hc : isPlain c = false) (rest : Text) :
    tokens? (.plain read) (c :: rest) = (tokens? .between (c :: rest)).map (.plain v :: ·) := by
  simp only [tokens?, next?, hc, hv]
  cases start? c with
  | none => rfl
  | some r => simp [Function.comp_def]

theorem isPlain_of_isDigit {c : Char} (h : c.isDigit = true) : isPlain c = true := by
  simp [isPlain, Char.isAlphanum, h]

theorem start?_of_isDigit {c : Char} (h : c.isDigit = true) : start? c = some (.plain [c], []) := by
  have hne {d : Char} (hd : d.isDigit = false) : c ≠ d := ne_of_isDigit h hd
  have hspace : isSpace c = false := by
    simp [isSpace, hne (d := ' ') rfl, hne (d := '\t') rfl, hne (d := '\n') rfl,
      hne (d := '\r') rfl]
  simp [start?, hspace, hne (d := '"') rfl, isPlain_of_isDigit h]

theorem tokens?_number (n : Nat) {c : Char} (hc : isPlain c = false) (rest : Text) :
    tokens? .between (Decimal.text n ++ c :: rest) =
      (tokens? .between (c :: rest)).map (.plain (.number n) :: ·) := by
  obtain ⟨d, ds, hds⟩ := List.exists_cons_of_ne_nil (l := Decimal.text n) Nat.toDigits_ne_nil
  have hall : ∀ e ∈ d :: ds, e.isDigit = true := fun e he => isDigit_of_mem_text (hds ▸ he)
  have hplain : ∀ e ∈ ds, isPlain e = true :=
    fun e he => isPlain_of_isDigit (hall e (.tail _ he))
  have hv := plain?_text n
  rw [hds] at hv ⊢
  rw [List.cons_append, tokens?, next?, start?_of_isDigit (hall d (.head _))]
  simp only [List.nil_append, Option.map_id_fun', id_eq]
  rw [tokens?_plain hplain, tokens?_plain_end (by simpa using hv) hc]

theorem tokens?_mark {c : Char} {k : Token} (h : start? c = some (.between, [k])) (rest : Text) :
    tokens? .between (c :: rest) = (tokens? .between rest).map (k :: ·) := by
  simp [tokens?, next?, h]

end Lexer

/-! ## Objects read back -/

/-- The value of a member as it is read. -/
def Value.data : Value → Data
  | .text t => .text t
  | .number n => .number n

/-- The members of an object as they are read. -/
def Object.data (o : Object) : List (Text × Data) := o.map fun m => (m.1, m.2.data)

/-- The token of a value. -/
def Value.token : Value → Token
  | .text t => .text t
  | .number n => .plain (.number n)

/-- The tokens of a member. -/
def memberTokens (m : Text × Value) : List Token := [.text m.1, .colon, m.2.token]

/-- The tokens of an object. -/
def tokensOf (o : Object) : List Token :=
  .openObject :: [Token.comma].intercalate (o.map memberTokens) ++ [.closeObject]

namespace Lexer

theorem tokens?_member (m : Text × Value) {c : Char} (hc : isPlain c = false) (rest : Text) :
    tokens? .between (renderMember m ++ c :: rest) =
      (tokens? .between (c :: rest)).map (memberTokens m ++ ·) := by
  have hvalue : tokens? .between (m.2.render ++ c :: rest) =
      (tokens? .between (c :: rest)).map (m.2.token :: ·) := by
    cases m.2 with
    | text t => exact tokens?_quote t _
    | number n => exact tokens?_number n hc rest
  rw [renderMember, List.append_assoc, tokens?_quote, List.cons_append,
    tokens?_mark (k := .colon) rfl, hvalue]
  simp [memberTokens, Function.comp_def]

theorem tokens?_members (m : Text × Value) (ms : List (Text × Value)) (rest : Text) :
    tokens? .between ([','].intercalate ((m :: ms).map renderMember) ++ '\x7d' :: rest) =
      (tokens? .between ('\x7d' :: rest)).map
        ([Token.comma].intercalate ((m :: ms).map memberTokens) ++ ·) := by
  induction ms generalizing m with
  | nil => simpa using tokens?_member m rfl rest
  | cons m' ms ih =>
      have hrest := ih m'
      simp only [List.map_cons, List.intercalate_cons_cons, List.append_assoc,
        List.singleton_append] at hrest ⊢
      rw [List.cons_append, tokens?_member m rfl, tokens?_mark (k := .comma) rfl, hrest]
      simp [Function.comp_def]

theorem tokens?_render (o : Object) : tokens? .between (render o) = some (tokensOf o) := by
  have hend : tokens? .between ['\x7d'] = some [.closeObject] := rfl
  rw [render, List.cons_append, tokens?_mark (k := .openObject) rfl]
  cases o with
  | nil => simp [hend, tokensOf]
  | cons m ms =>
      rw [tokens?_members, hend]
      simp [tokensOf]

end Lexer

namespace Reader

variable {r r' : Reader} {stack : List Frame} {place : Place} {done : List (Text × Data)}

theorem run?_of_next? {k : Token} (h : r.next? k = some r') (ks : List Token) :
    r.run? (k :: ks) = r'.run? ks := by
  simp [run?, h]

theorem next?_token (stack : List Frame) (v : Value) :
    next? ⟨stack, .value⟩ v.token = some ⟨stack, .after v.data⟩ := by
  cases v <;> rfl

theorem run?_member
    (hplace : ∀ name, next? ⟨stack, place⟩ (.text name) = some ⟨stack, .colon done name⟩)
    (m : Text × Value) (ks : List Token) :
    run? ⟨stack, place⟩ (memberTokens m ++ ks) =
      run? ⟨.object done m.1 :: stack, .after m.2.data⟩ ks := by
  show run? ⟨stack, place⟩ (.text m.1 :: .colon :: m.2.token :: ks) = _
  rw [run?_of_next? (hplace m.1), run?_of_next? rfl, run?_of_next? (next?_token _ m.2)]

/-- The members of an object, at a place where a name can come. -/
theorem run?_members
    (hplace : ∀ name, next? ⟨stack, place⟩ (.text name) = some ⟨stack, .colon done name⟩)
    (m : Text × Value) (ms : List (Text × Value)) (ks : List Token) :
    run? ⟨stack, place⟩
        ([Token.comma].intercalate ((m :: ms).map memberTokens) ++ .closeObject :: ks) =
      run? ⟨stack, .after (.object (done.reverse ++ Object.data (m :: ms)))⟩ ks := by
  induction ms generalizing place done m with
  | nil =>
      rw [List.map_singleton, List.intercalate_singleton, run?_member hplace, run?_of_next? rfl]
      simp [Object.data]
  | cons m' ms ih =>
      rw [List.map_cons, List.map_cons, List.intercalate_cons_cons, List.append_assoc,
        List.append_assoc, run?_member hplace, List.singleton_append, ← List.map_cons,
        run?_of_next? rfl, ih fun _ => rfl]
      simp [Object.data]

theorem run?_tokensOf (o : Object) : run? ⟨[], .value⟩ (tokensOf o) = some (.object o.data) := by
  rw [tokensOf, List.cons_append, run?_of_next? rfl]
  cases o with
  | nil => rfl
  | cons m ms =>
      rw [run?_members (fun _ => rfl)]
      rfl

end Reader

/-- An object that is written is read back. -/
theorem read?_render (o : Object) : read? (Utf8.encode (render o)) = some (.object o.data) := by
  simp [read?, Lexer.tokens?_render, Reader.run?_tokensOf]

/-- The reader is not only for what is written here. -/
example : read? (Utf8.encode "[ true,\"\\u00E9\\/\"]".toList) =
    some (.array [.bool true, .text "é/".toList]) := by
  rfl

example : read? (Utf8.encode "[true,]".toList) = none := by
  rfl

/-! ## Lines read back -/

theorem newline_notMem_escape (c : Char) : '\n' ∉ escape c := by
  by_cases hc : c = '\n'
  · subst hc
    decide
  · unfold escape
    split_ifs <;> simp [Ne.symm hc]

theorem newline_notMem_quote (t : Text) : '\n' ∉ quote t := by
  simp [quote, newline_notMem_escape]

theorem newline_notMem_value (v : Value) : '\n' ∉ v.render := by
  cases v with
  | text t => exact newline_notMem_quote t
  | number n => exact fun h => nomatch isDigit_of_mem_text h

theorem newline_notMem_member (m : Text × Value) : '\n' ∉ renderMember m := by
  simp [renderMember, newline_notMem_quote, newline_notMem_value]

theorem newline_notMem_render (o : Object) : '\n' ∉ render o := by
  cases o with
  | nil => decide
  | cons m ms => simp [render, intercalate_cons, List.flatMap_map, newline_notMem_member]

open LineStream (newline)

/-- The values of lines that each end in a newline. -/
def readLines? (b : Bytes) : Option (List Data) :=
  let pieces := b.splitOn newline
  if pieces.getLast? = some [] then pieces.dropLast.mapM read? else none

/-- The lines for some objects, without the newlines behind them. -/
def lines (os : List Object) : List Bytes := os.map fun o => Utf8.encode (render o)

theorem newline_notMem_line {os : List Object} {l : Bytes} (h : l ∈ lines os) : newline ∉ l := by
  obtain ⟨o, -, rfl⟩ := List.mem_map.1 h
  exact fun hmem => newline_notMem_render o (Utf8.ofNat_mem_of_mem_encode (by decide) hmem)

theorem read?_lines (os : List Object) :
    (lines os).map read? = os.map fun o => some (.object o.data) := by
  simp [lines, read?_render]

theorem splitOn_lines (os : List Object) :
    ((lines os).flatMap (· ++ [newline])).splitOn newline = lines os ++ [[]] := by
  have hlines : ∀ l ∈ lines os, newline ∉ l := fun _ hl => newline_notMem_line hl
  simpa using splitOn_terminated hlines (List.not_mem_nil : newline ∉ [])

theorem readLines?_lines (os : List Object) :
    readLines? ((lines os).flatMap (· ++ [newline])) =
      some (os.map fun o => .object o.data) := by
  have hread : (lines os).mapM read? = some (os.map fun o => .object o.data) := by
    simp only [lines, List.mapM_map, Function.comp_def, read?_render]
    exact List.mapM_pure
  simp [readLines?, splitOn_lines, hread]

end Json

/-! ## The lines for a trace -/

namespace Event

/-- The members of the object for an event.  A path is shown as a text, with the replacement
character for what is not UTF-8. -/
def members : Event → List (Text × Json.Data)
  | .enter p =>
      [("event".toList, .text "enter".toList), ("path".toList, .text (Utf8.decode p.bytes))]
  | .found p ⟨lineNo, line, target, quote⟩ =>
      [("event".toList, .text "found".toList), ("path".toList, .text (Utf8.decode p.bytes)),
        ("line_no".toList, .number lineNo), ("line".toList, .text line),
        ("target".toList, .text target),
        ("quote".toList, match quote with
          | .quoted => .text "quoted".toList
          | .angle => .text "angle_bracket".toList)]
  | .failed p stage cause =>
      [("event".toList, .text "error".toList), ("path".toList, .text (Utf8.decode p.bytes)),
        ("error_kind".toList, match stage with
          | .opening => .text "open".toList
          | .reading => .text "read".toList),
        ("message".toList, .text cause.text)]
  | .close p =>
      [("event".toList, .text "close".toList), ("path".toList, .text (Utf8.decode p.bytes))]

theorem data_object (e : Event) : Json.Object.data e.object = e.members := by
  rcases e with p | ⟨p, lineNo, line, target, _ | _⟩ | ⟨p, _ | _, cause⟩ | p <;> rfl

end Event

namespace Format

open LineStream (newline)

theorem rendering_json (es : List Event) :
    Format.json.rendering es = (Json.lines (es.map Event.object)).flatMap (· ++ [newline]) := by
  have hnewline : Utf8.encode ['\n'] = [newline] := by decide
  rw [rendering_eq]
  simp [header?, event?, Event.json, Json.lines, List.flatMap_map, Utf8.encode_append, hnewline]

/-- The lines for some events can be told apart at the newlines, and each of them is read as the
object for its event. -/
theorem json_lines_read_back (es : List Event) :
    ∃ lines : List Bytes,
      Format.json.rendering es = lines.flatMap (· ++ [newline]) ∧
      (∀ l ∈ lines, newline ∉ l) ∧
      (Format.json.rendering es).splitOn newline = lines ++ [[]] ∧
      lines.map Json.read? = es.map fun e => some (.object e.members) := by
  refine ⟨Json.lines (es.map Event.object), rendering_json es,
    fun l hl => Json.newline_notMem_line hl, ?_, ?_⟩
  · rw [rendering_json, Json.splitOn_lines]
  · simp [Json.read?_lines, Event.data_object]

end Format

end IncludeTrace
