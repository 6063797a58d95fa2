import IncludeTrace.Command.Settings
import IncludeTrace.Proofs.Encoding
import IncludeTrace.Proofs.Pieces
import Mathlib.Algebra.Ring.Nat

/-!
# Spellings of a command line

There are many ways to ask for the same thing on a command line.  The words that
belong together are a `Phrase`: an argument with its value, some short names behind
one dash, or the file.  A list of phrases asks for something whatever the order of the
phrases (`Request.Asks`), and the file can also follow all phrases behind `--`
(`Request.Spelled`).

The reader keeps a value back until the next argument is met, so what it knows after
the same phrases is not always the same.  It is the same once the value is settled.
`Draft.Leads` speaks of settled drafts only: wherever a draft is settled as `e`, some
words bring it to one that is settled as `e'`.  Each phrase leads to what it asks for,
and so do all of them (`Draft.leads_phrases`).
-/

namespace IncludeTrace

/-! ## Decimal numbers read back -/

namespace Decimal

theorem digit?_of_isDigit {c : Char} (h : c.isDigit = true) :
    digit? c = some (c.toNat - '0'.toNat) := by
  have hrange : '0' ≤ c ∧ c ≤ '9' := by
    simpa [Char.isDigit, Char.le_def] using h
  rw [digit?, if_pos hrange]

/-- Digits are read to the end if what they stand for is below the bound. -/
theorem readDigits_eq {bound n : Nat} {cs : Text} (hcs : ∀ c ∈ cs, c.isDigit = true)
    (h : Nat.ofDigitChars 10 cs n < bound) :
    readDigits bound n cs = .ok (Nat.ofDigitChars 10 cs n) := by
  induction cs generalizing n with
  | nil => rfl
  | cons c cs ih =>
      obtain ⟨hc, hcs⟩ := List.forall_mem_cons.1 hcs
      rw [Nat.ofDigitChars_cons] at h ⊢
      -- The digits that follow do not make the number smaller.
      have hle (m : Nat) : m ≤ Nat.ofDigitChars 10 cs m := by
        rw [Nat.ofDigitChars_eq_ofDigitChars_zero]
        exact Nat.le_add_right_of_le (Nat.le_mul_of_pos_left m (Nat.pow_pos (by decide)))
      rw [readDigits, digit?_of_isDigit hc]
      show (if _ then _ else _) = _
      rw [if_pos (Nat.lt_of_le_of_lt (hle _) h), ih hcs h]

theorem isDigit_of_mem_zeros {zeros n : Nat} {c : Char}
    (h : c ∈ List.replicate zeros '0' ++ text n) : c.isDigit = true := by
  rcases List.mem_append.1 h with h | h
  · rw [List.eq_of_mem_replicate h]
    rfl
  · exact Nat.isDigit_of_mem_toDigits (by decide) (by decide) h

/-- A number is read whatever zeros stand in front of it. -/
theorem read_text {bound n : Nat} (zeros : Nat) (h : n < bound) :
    read bound (List.replicate zeros '0' ++ text n) = .ok n := by
  have hdigits : ∀ c ∈ List.replicate zeros '0' ++ text n, c.isDigit = true :=
    fun c hc => isDigit_of_mem_zeros hc
  have hvalue : Nat.ofDigitChars 10 (List.replicate zeros '0' ++ text n) 0 = n := by
    rw [Nat.ofDigitChars_append, Nat.ofDigitChars_replicate_zero, Nat.mul_zero, text,
      Nat.ofDigitChars_ten_toDigits]
  have hread : readDigits bound 0 (List.replicate zeros '0' ++ text n) = .ok n := by
    rw [readDigits_eq hdigits (by rwa [hvalue]), hvalue]
  have hne : List.replicate zeros '0' ++ text n ≠ [] := by simp [text]
  rw [read.eq_def]
  split
  · exact absurd ‹_› hne
  · rename_i heq
    cases hdigits '+' (by simp [heq])
  · rename_i heq
    cases hdigits '+' (by simp [heq])
  · exact hread

end Decimal

/-! ## Phrases -/

/-- The name of a format. -/
def Format.name : Format → Text
  | .text => "text".toList
  | .json => "json".toList
  | .csv => "csv".toList

/-- How a value stands behind a name. -/
inductive Joint where
  /-- As the next word. -/
  | apart
  /-- In the same word. -/
  | attached
  /-- In the same word, behind an equals sign. -/
  | equals
deriving DecidableEq

/-- A name and a value as words. -/
def Joint.words (name value : Text) : Joint → List Bytes
  | .apart => [Utf8.encode name, Utf8.encode value]
  | .attached => [Utf8.encode (name ++ value)]
  | .equals => [Utf8.encode (name ++ '=' :: value)]

/-- How a value stands behind a long name. -/
def Joint.long (equals : Bool) : Joint := if equals then .equals else .apart

/-- Words of a command line that belong together. -/
inductive Phrase where
  /-- More notes, by `n + 1` short names. -/
  | more (n : Nat)
  /-- More notes, by the long name. -/
  | verbose
  /-- The totals. -/
  | summary
  /-- A format by its short name, behind `notes` short names for more notes. -/
  | shortFormat (notes : Nat) (joint : Joint) (f : Format)
  /-- A format by its long name. -/
  | longFormat (equals : Bool) (f : Format)
  /-- A depth limit, perhaps with zeros in front of it. -/
  | maxDepth (equals : Bool) (zeros n : Nat)
  /-- The file to trace. -/
  | file (p : Path)
deriving DecidableEq

namespace Phrase

/-- The words of a phrase. -/
def words : Phrase → List Bytes
  | .more n => [Utf8.encode ('-' :: List.replicate (n + 1) 'v')]
  | .verbose => [Utf8.encode "--verbose".toList]
  | .summary => [Utf8.encode "--summary".toList]
  | .shortFormat notes joint f => joint.words ('-' :: (List.replicate notes 'v' ++ ['f'])) f.name
  | .longFormat equals f => (Joint.long equals).words "--format".toList f.name
  | .maxDepth equals zeros n =>
      (Joint.long equals).words "--max-depth".toList (List.replicate zeros '0' ++ Decimal.text n)
  | .file p => [p.bytes]

/-- The format a phrase asks for. -/
@[simp] def format? : Phrase → Option Format
  | .shortFormat _ _ f | .longFormat _ f => some f
  | _ => none

/-- The depth limit a phrase asks for. -/
@[simp] def maxDepth? : Phrase → Option Nat
  | .maxDepth _ _ n => some n
  | _ => none

/-- The file a phrase names. -/
@[simp] def file? : Phrase → Option Path
  | .file p => some p
  | _ => none

/-- Whether a phrase asks for the totals. -/
@[simp] def isSummary : Phrase → Bool
  | .summary => true
  | _ => false

/-- How often a phrase asks for more notes. -/
@[simp] def notes : Phrase → Nat
  | .more n => n + 1
  | .verbose => 1
  | .shortFormat notes _ _ => notes
  | _ => 0

end Phrase

/-- The byte that arguments begin with. -/
def dash : UInt8 := 0x2D

/-- A word that is not taken for an argument: a dash alone, or one that begins otherwise. -/
def PlainWord (b : Bytes) : Prop := b = [dash] ∨ b.head? ≠ some dash

/-- What a command line is meant to say. -/
structure Request where
  /-- The file to trace. -/
  file : Path
  /-- The format, if one is given. -/
  format : Option Format
  /-- The depth limit, if there is one. -/
  maxDepth : Option Nat
  /-- Whether the totals are asked for. -/
  summary : Bool
  /-- How often more notes are asked for. -/
  verbose : Nat
deriving DecidableEq

namespace Request

/-- The settings that are asked for. -/
def settings (r : Request) : Settings :=
  ⟨r.file, r.format.getD .text, r.maxDepth, r.summary, min r.verbose 255⟩

/-- Phrases ask for everything but the file, in whatever order they stand. -/
structure Asks (r : Request) (phrases : List Phrase) : Prop where
  format : phrases.filterMap Phrase.format? = r.format.toList
  maxDepth : phrases.filterMap Phrase.maxDepth? = r.maxDepth.toList
  summary : phrases.countP Phrase.isSummary = r.summary.toNat
  verbose : (phrases.map Phrase.notes).sum = r.verbose

/-- The command lines for a request: the file stands among the phrases, or behind `--` at the
end. -/
inductive Spelled (r : Request) : List Bytes → Prop where
  | direct {phrases : List Phrase} : r.Asks phrases → phrases.filterMap Phrase.file? = [r.file] →
      PlainWord r.file.bytes → Spelled r (phrases.flatMap Phrase.words)
  | literal {phrases : List Phrase} : r.Asks phrases → phrases.filterMap Phrase.file? = [] →
      Spelled r (phrases.flatMap Phrase.words ++ [[dash, dash], r.file.bytes])

end Request

/-! ## Settled drafts -/

namespace Draft

variable {d e e₁ e' e'' : Draft} {slot : Slot} {value word : Bytes} {words words' : List Bytes}

/-- To fill a slot it does not matter how far the reading is, and that is not changed. -/
theorem fill_frame (d : Draft) (slot : Slot) (value : Bytes) :
    (∃ u, ∀ pending met literal,
        { d with pending := pending, fileMet := met, literal := literal }.fill slot value = .error u)
      ∨ ∃ e : Draft, ∀ pending met literal,
        { d with pending := pending, fileMet := met, literal := literal }.fill slot value =
          .ok { e with pending := pending, fileMet := met, literal := literal } := by
  cases slot with
  | file =>
      by_cases hvalue : value = []
      · exact .inl ⟨_, fun _ _ _ => if_pos hvalue⟩
      · exact .inr ⟨{ d with file := some ⟨value⟩ }, fun _ _ _ => if_neg hvalue⟩
  | format =>
      by_cases hsome : d.format.isSome = true
      · exact .inl ⟨_, fun _ _ _ => if_pos hsome⟩
      · by_cases hvalue : value = []
        · exact .inl ⟨_, fun _ _ _ => (if_neg hsome).trans (if_pos hvalue)⟩
        · cases hname : (Utf8.decode? value).bind Format.ofName? with
          | none =>
              refine .inl ⟨.unknownFormat (Utf8.decode value), fun _ _ _ => ?_⟩
              rw [fill, if_neg hsome, if_neg hvalue, hname]
          | some f =>
              refine .inr ⟨{ d with format := some f }, fun _ _ _ => ?_⟩
              rw [fill, if_neg hsome, if_neg hvalue, hname]
  | maxDepth =>
      by_cases hsome : d.maxDepth.isSome = true
      · exact .inl ⟨_, fun _ _ _ => if_pos hsome⟩
      · cases htext : Utf8.decode? value with
        | none =>
            refine .inl ⟨.undecodable, fun _ _ _ => ?_⟩
            rw [fill, if_neg hsome, htext]
        | some t =>
            cases hread : Decimal.read Decimal.wordBound t with
            | error f =>
                refine .inl ⟨.badNumber t f, fun _ _ _ => ?_⟩
                rw [fill, if_neg hsome, htext]
                simp only [hread]
            | ok n =>
                refine .inr ⟨{ d with maxDepth := some n }, fun _ _ _ => ?_⟩
                rw [fill, if_neg hsome, htext]
                simp only [hread]

theorem fill_ok (h : d.fill slot value = .ok e) :
    e.pending = d.pending ∧ e.literal = d.literal ∧ e.fileMet = d.fileMet
      ∧ { d with literal := true }.fill slot value = .ok { e with literal := true } := by
  obtain ⟨u, hu⟩ | ⟨e', he'⟩ := fill_frame d slot value
  · cases h.symm.trans (hu d.pending d.fileMet d.literal)
  · cases h.symm.trans (he' d.pending d.fileMet d.literal)
    exact ⟨rfl, rfl, rfl, he' d.pending d.fileMet true⟩

theorem settle_ok (h : d.settle = .ok e) :
    e.pending = none ∧ d.literal = e.literal ∧ d.fileMet = e.fileMet := by
  rw [settle] at h
  split at h
  · cases h
    exact ⟨by assumption, rfl, rfl⟩
  · cases h
  · obtain ⟨hpending, hliteral, hmet, -⟩ := fill_ok h
    exact ⟨hpending, hliteral.symm, hmet.symm⟩

theorem settle_of_pending (h : e.pending = none) : e.settle = .ok e := by rw [settle, h]

theorem settle_literal (h : d.settle = .ok e) :
    { d with literal := true }.settle = .ok { e with literal := true } := by
  obtain ⟨file, format, maxDepth, summary, verbose, pending, fileMet, literal⟩ := d
  match pending, h with
  | none, h =>
      cases h
      rfl
  | some (slot, some value), h => exact (fill_ok h).2.2.2

/-- Wherever a draft is settled as `e`, the words bring it to one that is settled as `e'`. -/
def Leads (e : Draft) (words : List Bytes) (e' : Draft) : Prop :=
  ∀ d : Draft, d.settle = .ok e → ∃ d', d.meetAll words = .ok d' ∧ d'.settle = .ok e'

theorem Leads.nil : e.Leads [] e := fun d hd => ⟨d, rfl, hd⟩

theorem meetAll_append {d' : Draft} (h : d.meetAll words = .ok d') :
    d.meetAll (words ++ words') = d'.meetAll words' := by
  induction words generalizing d with
  | nil =>
      cases h
      rfl
  | cons word words ih =>
      rw [meetAll] at h
      rw [List.cons_append, meetAll]
      cases hmeet : d.meet word with
      | error u =>
          rw [hmeet] at h
          cases h
      | ok d₁ =>
          rw [hmeet] at h
          exact ih h

theorem Leads.append (h : e.Leads words e') (h' : e'.Leads words' e'') :
    e.Leads (words ++ words') e'' := by
  intro d hd
  obtain ⟨d', hmeet, hd'⟩ := h d hd
  obtain ⟨d'', hmeet', hd''⟩ := h' d' hd'
  exact ⟨d'', (meetAll_append hmeet).trans hmeet', hd''⟩

theorem meetAll_singleton (d : Draft) (word : Bytes) : d.meetAll [word] = d.meet word := by
  rw [meetAll]
  cases d.meet word <;> rfl

/-! ## Words -/

/-- A word that is not taken for an argument is a value that is waited for, or the file. -/
theorem meet_plainWord (hl : d.literal = false) (hw : PlainWord word) :
    d.meet word =
      match d.pending with
      | some (slot, none) => .ok { d with pending := some (slot, some word) }
      | _ => d.meetFile word := by
  rw [meet.eq_def, if_neg (by simp [hl])]
  split
  · exact absurd hw (by simp [PlainWord, dash])
  · exact absurd hw (by simp [PlainWord, dash])
  · exact absurd hw (by simp [PlainWord, dash])
  · rfl

theorem exists_meetFile {p : Path} (hd : d.settle = .ok e) (hmet : e.fileMet = false)
    (hne : p.bytes ≠ []) :
    ∃ d', d.meetFile p.bytes = .ok d'
      ∧ d'.settle = .ok { e with file := some p, fileMet := true } := by
  obtain ⟨hpending, -, hfileMet⟩ := settle_ok hd
  refine ⟨{ e with pending := some (.file, some p.bytes), fileMet := true }, ?_, ?_⟩
  · rw [meetFile, if_neg (by simp [hfileMet, hmet]), hd]
  · show fill _ .file p.bytes = _
    rw [fill, if_neg hne, hpending]

theorem leads_file {p : Path} (hl : e.literal = false) (hmet : e.fileMet = false)
    (hw : PlainWord p.bytes) (hne : p.bytes ≠ []) :
    e.Leads [p.bytes] { e with file := some p, fileMet := true } := by
  intro d hd
  rw [meetAll_singleton, meet_plainWord ((settle_ok hd).2.1.trans hl) hw]
  split
  · -- A draft that waits for a value cannot be settled.
    rename_i slot hpending
    rw [settle, hpending] at hd
    cases hd
  · exact exists_meetFile hd hmet hne

theorem leads_literal {p : Path} (hl : e.literal = false) (hmet : e.fileMet = false)
    (hne : p.bytes ≠ []) :
    e.Leads [[dash, dash], p.bytes]
      { e with file := some p, fileMet := true, literal := true } := by
  intro d hd
  have hdashes : d.meet [dash, dash] = .ok { d with literal := true } := by
    rw [meet.eq_def, if_neg (by simp [(settle_ok hd).2.1, hl])]
    rfl
  rw [meetAll, hdashes]
  show ∃ d', meetAll _ [p.bytes] = .ok d' ∧ _
  rw [meetAll_singleton, meet.eq_def, if_pos rfl]
  exact exists_meetFile (settle_literal hd) hmet hne

/-! ## Long names -/

section Long

variable {name value : Text}

theorem ne_equals_of_mem_encode (h : '=' ∉ name) : ∀ b ∈ Utf8.encode name, (b != 0x3D) = true := by
  intro b hb
  refine bne_iff_ne.2 ?_
  rintro rfl
  exact h (Utf8.ofNat_mem_of_mem_encode (by decide) hb)

theorem meet_dashes {rest : Bytes} (hl : d.literal = false) (hrest : rest ≠ []) :
    d.meet (dash :: dash :: rest) = d.meetDashes rest := by
  obtain ⟨b, bs, rfl⟩ := List.exists_cons_of_ne_nil hrest
  rw [meet.eq_def, if_neg (by simp [hl])]
  rfl

theorem meet_long (hl : d.literal = false) (hne : name ≠ []) (hname : '=' ∉ name) :
    d.meet (Utf8.encode ('-' :: '-' :: name)) = d.meetLong (Utf8.encode name) none := by
  have hequals := ne_equals_of_mem_encode hname
  show d.meet (dash :: dash :: Utf8.encode name) = _
  rw [meet_dashes hl (Utf8.encode_ne_nil hne), meetDashes, List.takeWhile_eq_self_iff.2 hequals,
    List.dropWhile_eq_nil_iff.2 hequals]

theorem meet_long_equals (hl : d.literal = false) (hname : '=' ∉ name) :
    d.meet (Utf8.encode ('-' :: '-' :: (name ++ '=' :: value))) =
      d.meetLong (Utf8.encode name) (some (Utf8.encode value)) := by
  have hsplit : Utf8.encode (name ++ '=' :: value) =
      Utf8.encode name ++ 0x3D :: Utf8.encode value := Utf8.encode_append _ _
  obtain ⟨htake, hdrop⟩ :=
    cut_iff.2 ⟨hsplit, ne_equals_of_mem_encode hname, bne_self_eq_false _⟩
  show d.meet (dash :: dash :: Utf8.encode (name ++ '=' :: value)) = _
  rw [meet_dashes hl (Utf8.encode_ne_nil (by simp)), meetDashes, htake, hdrop]

/-- A long name is not empty and has no equals sign. -/
theorem ofLong?_eq_some {a : Argument} (h : Argument.ofLong? name = some a) :
    name ≠ [] ∧ '=' ∉ name := by
  simp only [Argument.ofLong?, ite_eq_iff] at h
  obtain ⟨rfl, -⟩ | ⟨-, ⟨rfl, -⟩ | ⟨-, ⟨rfl, -⟩ | ⟨-, ⟨rfl, -⟩ | ⟨-, ⟨rfl, -⟩ | ⟨-, ⟨rfl, -⟩ |
    ⟨-, ⟨⟩⟩⟩⟩⟩⟩⟩ := h
  all_goals decide

theorem meetLong_slot (ha : Argument.ofLong? name = some (.slot slot)) (attached : Option Bytes) :
    d.meetLong (Utf8.encode name) attached = d.openSlot slot attached := by
  rw [meetLong, Utf8.decode?_encode, Option.bind_some, ha]

theorem leads_longSwitch {s : Switch} (name : Text) (hl : e.literal = false)
    (ha : Argument.ofLong? name = some (.switch s)) (hturn : e.turn s = .ok e')
    (hpending : e'.pending = e.pending) : e.Leads [Utf8.encode ('-' :: '-' :: name)] e' := by
  obtain ⟨hne, hequals⟩ := ofLong?_eq_some ha
  intro d hd
  refine ⟨e', ?_, settle_of_pending (hpending.trans (settle_ok hd).1)⟩
  rw [meetAll_singleton, meet_long ((settle_ok hd).2.1.trans hl) hne hequals, meetLong,
    Utf8.decode?_encode, Option.bind_some, ha]
  show d.settleAndTurn s = _
  rw [settleAndTurn, hd]
  exact hturn

end Long

/-! ## Values -/

/-- Wherever a draft is settled as `e`, the word opens a slot in one that is settled as `e₁`. -/
def Opens (e : Draft) (word : Bytes) (slot : Slot) (attached : Option Bytes) (e₁ : Draft) : Prop :=
  ∀ d : Draft, d.settle = .ok e →
    ∃ d' : Draft, d.meet word = d'.openSlot slot attached ∧ d'.settle = .ok e₁

/-- The value is in the next word. -/
theorem Opens.leads_apart (h : e.Opens word slot none e₁) (hl : e₁.literal = false)
    (hvalue : PlainWord value) (hfill : e₁.fill slot value = .ok e') :
    e.Leads [word, value] e' := by
  intro d hd
  obtain ⟨d', hmeet, hd'⟩ := h d hd
  have hopen : d.meet word = .ok { e₁ with pending := some (slot, none) } := by
    rw [hmeet, openSlot, hd']
  refine ⟨{ e₁ with pending := some (slot, some value) }, ?_, ?_⟩
  · rw [meetAll, hopen]
    show meetAll _ [value] = _
    rw [meetAll_singleton]
    exact meet_plainWord (d := { e₁ with pending := some (slot, none) }) hl hvalue
  · have hpending : { e₁ with pending := none } = e₁ := by rw [← (settle_ok hd').1]
    show fill { e₁ with pending := none } slot value = _
    rw [hpending, hfill]

/-- The value is in the same word. -/
theorem Opens.leads_attached (h : e.Opens word slot (some value) e₁)
    (hfill : e₁.fill slot value = .ok e') : e.Leads [word] e' := by
  intro d hd
  obtain ⟨d', hmeet, hd'⟩ := h d hd
  refine ⟨e', ?_, settle_of_pending ((fill_ok hfill).1.trans (settle_ok hd').1)⟩
  rw [meetAll_singleton, hmeet, openSlot, hd']
  exact hfill

theorem opens_long {name : Text} (hl : e.literal = false)
    (ha : Argument.ofLong? name = some (.slot slot)) :
    e.Opens (Utf8.encode ('-' :: '-' :: name)) slot none e := by
  obtain ⟨hne, hequals⟩ := ofLong?_eq_some ha
  intro d hd
  refine ⟨d, ?_, hd⟩
  rw [meet_long ((settle_ok hd).2.1.trans hl) hne hequals, meetLong_slot ha]

theorem opens_long_equals {name : Text} (hl : e.literal = false)
    (ha : Argument.ofLong? name = some (.slot slot)) (value : Text) :
    e.Opens (Utf8.encode ('-' :: '-' :: (name ++ '=' :: value))) slot
      (some (Utf8.encode value)) e := by
  intro d hd
  refine ⟨d, ?_, hd⟩
  rw [meet_long_equals ((settle_ok hd).2.1.trans hl) (ofLong?_eq_some ha).2, meetLong_slot ha]

/-- A long name and its value. -/
theorem leads_long {value : Text} (name : Text) (equals : Bool) (hl : e.literal = false)
    (ha : Argument.ofLong? name = some (.slot slot)) (hvalue : PlainWord (Utf8.encode value))
    (hfill : e.fill slot (Utf8.encode value) = .ok e') :
    e.Leads ((Joint.long equals).words ('-' :: '-' :: name) value) e' := by
  cases equals with
  | false => exact (opens_long hl ha).leads_apart hl hvalue hfill
  | true => exact (opens_long_equals hl ha value).leads_attached hfill

theorem fill_format (h : e.format = none) (f : Format) :
    e.fill .format (Utf8.encode f.name) = .ok { e with format := some f } := by
  have hne : Utf8.encode f.name ≠ [] := Utf8.encode_ne_nil (by cases f <;> decide)
  have hname : Format.ofName? f.name = some f := by cases f <;> rfl
  rw [fill, if_neg (by simp [h]), if_neg hne, Utf8.decode?_encode, Option.bind_some, hname]

theorem fill_maxDepth {n : Nat} (h : e.maxDepth = none) (hn : n < Decimal.wordBound) (zeros : Nat) :
    e.fill .maxDepth (Utf8.encode (List.replicate zeros '0' ++ Decimal.text n)) =
      .ok { e with maxDepth := some n } := by
  rw [fill, if_neg (by simp [h]), Utf8.decode?_encode]
  simp only [Decimal.read_text zeros hn]

theorem plainWord_name (f : Format) : PlainWord (Utf8.encode f.name) :=
  .inr (by cases f <;> decide)

theorem plainWord_digits (zeros n : Nat) :
    PlainWord (Utf8.encode (List.replicate zeros '0' ++ Decimal.text n)) := by
  refine .inr fun hhead => ?_
  have hmem := Utf8.ofNat_mem_of_mem_encode (by decide) (List.mem_of_head? hhead)
  cases Decimal.isDigit_of_mem_zeros hmem

/-! ## Short names -/

/-- The draft after more notes were asked for some times. -/
def louder (e : Draft) (notes : Nat) : Draft := { e with verbose := min 255 (e.verbose + notes) }

theorem louder_zero (h : e.verbose ≤ 255) : e.louder 0 = e := by
  rw [louder, Nat.add_zero, Nat.min_eq_right h]

theorem louder_louder (e : Draft) (m n : Nat) : (e.louder m).louder n = e.louder (m + n) := by
  have hsum : min 255 (min 255 (e.verbose + m) + n) = min 255 (e.verbose + (m + n)) := by omega
  simp only [louder, hsum]

/-- Short names for more notes are taken one by one, and other names can follow. -/
theorem exists_meetShort (hd : d.settle = .ok e) (hv : e.verbose ≤ 255) (notes : Nat) (cs : Text) :
    ∃ d' : Draft, d.meetShort [] (List.replicate notes 'v' ++ cs) = d'.meetShort [] cs
      ∧ d'.settle = .ok (e.louder notes) := by
  induction notes generalizing d e with
  | zero =>
      rw [louder_zero hv]
      exact ⟨d, rfl, hd⟩
  | succ notes ih =>
      have hturn : d.settleAndTurn .verbose = .ok (e.louder 1) := by
        rw [settleAndTurn, hd]
        rfl
      have hsettle : (e.louder 1).settle = .ok (e.louder 1) := settle_of_pending (settle_ok hd).1
      have hname : Argument.ofShort? 'v' = some (.switch .verbose) := rfl
      obtain ⟨d', hmeet, hd'⟩ := ih hsettle (Nat.min_le_left 255 _)
      refine ⟨d', ?_, ?_⟩
      · rw [← hmeet, List.replicate_succ, List.cons_append, meetShort, hname]
        simp only [hturn]
      · rw [hd', louder_louder, Nat.add_comm]

theorem meet_dash {b : UInt8} {bs : Bytes} (hl : d.literal = false) (hb : b ≠ dash) :
    d.meet (dash :: b :: bs) = d.meetShort (Utf8.span (b :: bs)).2 (Utf8.span (b :: bs)).1 := by
  rw [meet.eq_def, if_neg (by simp [hl])]
  split
  · rename_i heq
    cases heq
    exact absurd rfl hb
  · rename_i heq
    cases heq
    exact absurd rfl hb
  · rename_i heq
    cases heq
    rfl
  · rename_i hother
    exact absurd rfl (hother b bs)

theorem meet_short {c : Char} (hl : d.literal = false) (hc : c = 'v' ∨ c = 'f') (cs : Text) :
    d.meet (Utf8.encode ('-' :: c :: cs)) = d.meetShort [] (c :: cs) := by
  have hspan : Utf8.span (Utf8.encode (c :: cs)) = (c :: cs, []) := Utf8.runStrict_encode _ [] _
  have hfirst : ∃ b, b ≠ dash ∧ Utf8.encode (c :: cs) = b :: Utf8.encode cs := by
    rcases hc with rfl | rfl
    · exact ⟨0x76, by decide, rfl⟩
    · exact ⟨0x66, by decide, rfl⟩
  obtain ⟨b, hb, hbytes⟩ := hfirst
  rw [hbytes] at hspan
  show d.meet (dash :: Utf8.encode (c :: cs)) = _
  rw [hbytes, meet_dash hl hb, hspan]

theorem leads_more (hl : e.literal = false) (hv : e.verbose ≤ 255) (n : Nat) :
    e.Leads [Utf8.encode ('-' :: List.replicate (n + 1) 'v')] (e.louder (n + 1)) := by
  intro d hd
  obtain ⟨d', hmeet, hd'⟩ := exists_meetShort hd hv (n + 1) []
  refine ⟨d', ?_, hd'⟩
  rw [List.append_nil, List.replicate_succ] at hmeet
  rw [meetAll_singleton, List.replicate_succ, meet_short ((settle_ok hd).2.1.trans hl) (.inl rfl),
    hmeet]
  rfl

theorem opens_short (hl : e.literal = false) (hv : e.verbose ≤ 255) (notes : Nat) (cs : Text) :
    e.Opens (Utf8.encode ('-' :: (List.replicate notes 'v' ++ 'f' :: cs))) .format
      (attachedTo (Utf8.encode cs)) (e.louder notes) := by
  intro d hd
  obtain ⟨d', hmeet, hd'⟩ := exists_meetShort hd hv notes ('f' :: cs)
  refine ⟨d', ?_, hd'⟩
  have hshort : d.meet (Utf8.encode ('-' :: (List.replicate notes 'v' ++ 'f' :: cs))) =
      d.meetShort [] (List.replicate notes 'v' ++ 'f' :: cs) := by
    have hl' := (settle_ok hd).2.1.trans hl
    cases notes with
    | zero => exact meet_short hl' (.inr rfl) cs
    | succ notes => exact meet_short hl' (.inl rfl) _
  rw [hshort, hmeet, meetShort]
  show openSlot _ _ (attachedTo (Utf8.encode cs ++ [])) = _
  rw [List.append_nil]

theorem leads_short (hl : e.literal = false) (hv : e.verbose ≤ 255) (h : e.format = none)
    (notes : Nat) (joint : Joint) (f : Format) :
    e.Leads (joint.words ('-' :: (List.replicate notes 'v' ++ ['f'])) f.name)
      { e.louder notes with format := some f } := by
  have hfill : (e.louder notes).fill .format (Utf8.encode f.name) =
      .ok { e.louder notes with format := some f } :=
    fill_format (e := e.louder notes) h f
  have hopens := opens_short hl hv notes
  cases joint with
  | apart => exact (hopens []).leads_apart hl (plainWord_name f) hfill
  | attached =>
      have hattached : attachedTo (Utf8.encode f.name) = some (Utf8.encode f.name) := by
        cases f <;> decide
      have hopens' := hopens f.name
      rw [hattached] at hopens'
      simpa [Joint.words] using hopens'.leads_attached hfill
  | equals =>
      have hattached : attachedTo (Utf8.encode ('=' :: f.name)) = some (Utf8.encode f.name) := rfl
      have hopens' := hopens ('=' :: f.name)
      rw [hattached] at hopens'
      simpa [Joint.words] using hopens'.leads_attached hfill

/-! ## Phrases in a row -/

/-- The draft after a phrase. -/
def take (e : Draft) (p : Phrase) : Draft :=
  { e.louder p.notes with
    file := e.file.or p.file?
    fileMet := e.fileMet || p.file?.isSome
    format := e.format.or p.format?
    maxDepth := e.maxDepth.or p.maxDepth?
    summary := e.summary || p.isSummary }

/-- What is in a draft and what the phrases to come ask for make up a request. -/
structure Awaits (r : Request) (named : Option Path) (e : Draft) (phrases : List Phrase) :
    Prop where
  literal : e.literal = false
  fileMet : e.fileMet = e.file.isSome
  file : e.file.toList ++ phrases.filterMap Phrase.file? = named.toList
  format : e.format.toList ++ phrases.filterMap Phrase.format? = r.format.toList
  maxDepth : e.maxDepth.toList ++ phrases.filterMap Phrase.maxDepth? = r.maxDepth.toList
  summary : e.summary.toNat + phrases.countP Phrase.isSummary = r.summary.toNat
  verbose : min 255 (e.verbose + (phrases.map Phrase.notes).sum) = min 255 r.verbose
  verbose_le : e.verbose ≤ 255

theorem filterMap_cons_toList {α β : Type} (f : α → Option β) (a : α) (l : List α) :
    (a :: l).filterMap f = (f a).toList ++ l.filterMap f := by
  cases h : f a <;> simp [h]

theorem toList_injective {α : Type} {o w : Option α} (h : o.toList = w.toList) : o = w := by
  cases o <;> cases w <;> simp_all

/-- Of two places and a list that make up one value, only one has it. -/
theorem or_toList {α : Type} {o x w : Option α} {l : List α}
    (h : o.toList ++ (x.toList ++ l) = w.toList) :
    (o.or x).toList ++ l = w.toList ∧ ∀ a, x = some a → o = none ∧ w = some a := by
  cases o <;> cases x <;> cases w <;> simp_all

/-- The same for a switch, which may be turned once. -/
theorem or_toNat {o x w : Bool} {n : Nat}
    (h : o.toNat + (n + if x = true then 1 else 0) = w.toNat) :
    (o || x).toNat + n = w.toNat ∧ (x = true → o = false) := by
  have hone := w.toNat_le
  cases o <;> cases x <;> simp at h ⊢ <;> omega

section Phrases

variable {r : Request} {named : Option Path} {p : Phrase} {phrases : List Phrase}

theorem Awaits.take (h : Awaits r named e (p :: phrases)) : Awaits r named (e.take p) phrases := by
  obtain ⟨hliteral, hfileMet, hfile, hformat, hmaxDepth, hsummary, hverbose, hle⟩ := h
  rw [filterMap_cons_toList] at hfile hformat hmaxDepth
  rw [List.countP_cons] at hsummary
  rw [List.map_cons, List.sum_cons] at hverbose
  refine ⟨hliteral, ?_, (or_toList hfile).1, (or_toList hformat).1, (or_toList hmaxDepth).1,
    (or_toNat hsummary).1, ?_, Nat.min_le_left 255 _⟩
  · show (e.fileMet || p.file?.isSome) = (e.file.or p.file?).isSome
    rw [hfileMet, Option.isSome_or]
  · show min 255 (min 255 (e.verbose + p.notes) + _) = _
    omega

/-- A phrase leads to what it asks for. -/
theorem leads_phrase (hdepth : ∀ n, r.maxDepth = some n → n < Decimal.wordBound)
    (hnamed : ∀ q, named = some q → PlainWord q.bytes ∧ q.bytes ≠ [])
    (h : Awaits r named e (p :: phrases)) : e.Leads p.words (e.take p) := by
  obtain ⟨hl, hfileMet, hfile, hformat, hmaxDepth, hsummary, -, hv⟩ := h
  rw [filterMap_cons_toList] at hfile hformat hmaxDepth
  rw [List.countP_cons] at hsummary
  have hsame : min 255 e.verbose = e.verbose := Nat.min_eq_right hv
  cases p with
  | more n =>
      have htake : e.take (.more n) = e.louder (n + 1) := by simp [take, louder]
      rw [htake]
      exact leads_more hl hv n
  | verbose =>
      have htake : e.take .verbose = e.louder 1 := by simp [take, louder]
      rw [htake]
      exact leads_longSwitch "verbose".toList hl rfl rfl rfl
  | summary =>
      have hfalse : e.summary = false := (or_toNat hsummary).2 rfl
      have hturn : e.turn .summary = .ok { e with summary := true } := by
        rw [turn, if_neg (by simp [hfalse])]
      have htake : e.take .summary = { e with summary := true } := by simp [take, louder, hsame]
      rw [htake]
      exact leads_longSwitch "summary".toList hl rfl hturn rfl
  | shortFormat notes joint f =>
      have hnone := ((or_toList hformat).2 f rfl).1
      have htake : e.take (.shortFormat notes joint f) =
          { e.louder notes with format := some f } := by
        simp [take, louder, hnone]
      rw [htake]
      exact leads_short hl hv hnone notes joint f
  | longFormat equals f =>
      have hnone := ((or_toList hformat).2 f rfl).1
      have htake : e.take (.longFormat equals f) = { e with format := some f } := by
        simp [take, louder, hsame, hnone]
      rw [htake]
      exact leads_long "format".toList equals hl rfl (plainWord_name f)
        (fill_format hnone f)
  | maxDepth equals zeros n =>
      obtain ⟨hnone, hsome⟩ := (or_toList hmaxDepth).2 n rfl
      have htake : e.take (.maxDepth equals zeros n) = { e with maxDepth := some n } := by
        simp [take, louder, hsame, hnone]
      rw [htake]
      exact leads_long "max-depth".toList equals hl rfl (plainWord_digits zeros n)
        (fill_maxDepth hnone (hdepth n hsome) zeros)
  | file q =>
      obtain ⟨hnone, hsome⟩ := (or_toList hfile).2 q rfl
      obtain ⟨hplain, hne⟩ := hnamed q hsome
      have htake : e.take (.file q) = { e with file := some q, fileMet := true } := by
        simp [take, louder, hsame, hnone]
      rw [htake]
      exact leads_file hl (by rw [hfileMet, hnone]; rfl) hplain hne

/-- So do phrases in a row. -/
theorem leads_phrases (hdepth : ∀ n, r.maxDepth = some n → n < Decimal.wordBound)
    (hnamed : ∀ q, named = some q → PlainWord q.bytes ∧ q.bytes ≠ [])
    (h : Awaits r named e phrases) :
    ∃ e', e.Leads (phrases.flatMap Phrase.words) e' ∧ Awaits r named e' [] := by
  induction phrases generalizing e with
  | nil => exact ⟨e, .nil, h⟩
  | cons p phrases ih =>
      obtain ⟨e', hleads, hawaits⟩ := ih h.take
      rw [List.flatMap_cons]
      exact ⟨e', (leads_phrase hdepth hnamed h).append hleads, hawaits⟩

/-- At the beginning everything is to come. -/
theorem awaits_empty (named : Option Path) (h : r.Asks phrases)
    (hfile : phrases.filterMap Phrase.file? = named.toList) : Awaits r named {} phrases where
  literal := rfl
  fileMet := rfl
  file := hfile
  format := h.format
  maxDepth := h.maxDepth
  summary := (Nat.zero_add _).trans h.summary
  verbose := by rw [h.verbose, Nat.zero_add]
  verbose_le := Nat.zero_le 255

/-- At the end nothing is to come. -/
theorem Awaits.eq (h : Awaits r named e []) :
    e.file = named ∧ e.format = r.format ∧ e.maxDepth = r.maxDepth ∧ e.summary = r.summary
      ∧ e.verbose = min r.verbose 255 := by
  obtain ⟨-, -, hfile, hformat, hmaxDepth, hsummary, hverbose, hle⟩ := h
  rw [List.filterMap_nil, List.append_nil] at hfile hformat hmaxDepth
  refine ⟨toList_injective hfile, toList_injective hformat, toList_injective hmaxDepth, ?_, ?_⟩
  · cases hs : e.summary <;> cases hr : r.summary <;> simp_all
  · rw [List.map_nil, List.sum_nil] at hverbose
    omega

end Phrases

/-- Words that lead from the empty draft to one with a file are a command line. -/
theorem Leads.ofArguments {file : Path} (h : ({} : Draft).Leads words e)
    (hfile : e.file = some file) :
    Settings.ofArguments words =
      .ok ⟨file, e.format.getD .text, e.maxDepth, e.summary, e.verbose⟩ := by
  obtain ⟨d, hmeet, hd⟩ := h {} rfl
  rw [Settings.ofArguments, hmeet]
  show d.finish = _
  rw [finish, hd]
  simp only [hfile]

end Draft

namespace Settings

/-- Every command line for a request is read as what is asked for, however the arguments are
spelled and in whatever order they stand.  Notes are counted up to 255. -/
theorem ofArguments_of_spelled {r : Request} {args : List Bytes} (hfile : r.file.bytes ≠ [])
    (hdepth : ∀ n, r.maxDepth = some n → n < 2 ^ 64) (h : r.Spelled args) :
    ofArguments args = .ok r.settings := by
  cases h with
  | @direct phrases hasks hnamed hplain =>
      obtain ⟨e, hleads, hawaits⟩ := Draft.leads_phrases hdepth
        (fun q hq => Option.some.inj hq ▸ ⟨hplain, hfile⟩)
        (Draft.awaits_empty (some r.file) hasks hnamed)
      obtain ⟨hf, hformat, hmaxDepth, hsummary, hverbose⟩ := hawaits.eq
      rw [hleads.ofArguments hf, hformat, hmaxDepth, hsummary, hverbose]
      rfl
  | @literal phrases hasks hnamed =>
      obtain ⟨e, hleads, hawaits⟩ := Draft.leads_phrases hdepth (fun q hq => by cases hq)
        (Draft.awaits_empty none hasks hnamed)
      obtain ⟨hf, hformat, hmaxDepth, hsummary, hverbose⟩ := hawaits.eq
      have hmet : e.fileMet = false := by rw [hawaits.fileMet, hf]; rfl
      have hleads' := hleads.append (Draft.leads_literal hawaits.literal hmet hfile)
      rw [hleads'.ofArguments rfl, hformat, hmaxDepth, hsummary, hverbose]
      rfl

/-- A request with the largest depth limit, for a file whose name begins with a dash. -/
def largeRequest : Request := ⟨.ofText "-x".toList, some .json, some (2 ^ 64 - 1), true, 300⟩

/-- The notes are asked for in three places, and one is in front of the format. -/
theorem ofArguments_of_spelled_large :
    ofArguments [Utf8.encode "--max-depth".toList, Utf8.encode "0018446744073709551615".toList,
        Utf8.encode ('-' :: List.replicate 298 'v'), Utf8.encode "--summary".toList,
        Utf8.encode "-vfjson".toList, Utf8.encode "--verbose".toList, Utf8.encode "--".toList,
        Utf8.encode "-x".toList] =
      .ok ⟨.ofText "-x".toList, .json, some 18446744073709551615, true, 255⟩ := by
  have hasks : largeRequest.Asks [.maxDepth false 2 (2 ^ 64 - 1), .more 297, .summary,
      .shortFormat 1 .attached .json, .verbose] := ⟨rfl, rfl, rfl, rfl⟩
  have hspelled := Request.Spelled.literal hasks rfl
  exact ofArguments_of_spelled (by decide) (by simp [largeRequest]) hspelled

end Settings

end IncludeTrace
