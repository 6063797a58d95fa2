import IncludeTrace.Proofs.Encoding
import Mathlib.Algebra.Ring.Nat
import Mathlib.Data.Nat.Find

/-!
# Reading with replacements

Bytes need not be UTF-8.  `Decodes` says which text they are read as, without the
machine.  If the form of a character stands in front, this is the next character.
Otherwise the longest part in front that begins the form of some character becomes
one U+FFFD, or a single byte if there is no such part (`Broken`).  All bytes can be read
in this way, and the result is that of the machine (`decodes_iff`).

For this the machine has to complete a character on nothing but its form
(`Completes.eq_encodeChar`, the converse of `completes_encodeChar`), and it has to take
exactly the bytes that some form begins with (`Takes.begins`, `Completes.exists_takes`).

A byte below `0x80` is never inside of a longer form.  So it is read as itself, and what
stands in front of it and behind it is read apart (`decode_append_cons`), whatever is
broken there.
-/

namespace IncludeTrace

namespace Utf8

variable {c : Char} {owed value v : Nat} {low high b : UInt8} {bs p : Bytes} {s s' s'' : State}
  {o : Option Char}

/-! ## Characters and broken parts -/

/-- Some bytes begin the form of a character. -/
def Begins (p : Bytes) : Prop := ∃ c, p <+: String.utf8EncodeChar c

/-- What one U+FFFD stands for in front of some bytes: the longest part that begins the form of a
character, or else a single byte. -/
structure Broken (part rest : Bytes) : Prop where
  /-- There is something to replace. -/
  ne_nil : part ≠ []
  /-- No character stands in front. -/
  not_char : ∀ c, ¬ String.utf8EncodeChar c <+: part ++ rest
  /-- It begins the form of a character, unless it is a single byte. -/
  begins : part.length = 1 ∨ Begins part
  /-- Nothing longer begins the form of a character. -/
  longest : ∀ p, p <+: part ++ rest → Begins p → p.length ≤ part.length

/-- The text that some bytes are read as: characters where their forms stand, and replacements for
what is broken in between. -/
inductive Decodes : Bytes → Text → Prop where
  | nil : Decodes [] []
  | char {bs : Bytes} {t : Text} (c : Char) : Decodes bs t →
      Decodes (String.utf8EncodeChar c ++ bs) (c :: t)
  | broken {part rest : Bytes} {t : Text} : Broken part rest → Decodes rest t →
      Decodes (part ++ rest) (replacement :: t)

theorem encodeChar_ne_nil (c : Char) : String.utf8EncodeChar c ≠ [] := by
  intro hnil
  have hc := completes_encodeChar c
  rw [hnil] at hc
  cases hc

/-- Bytes have a character in front or a part that is replaced. -/
theorem exists_broken (hne : bs ≠ []) (hchar : ∀ c, ¬ String.utf8EncodeChar c <+: bs) :
    ∃ part rest, bs = part ++ rest ∧ Broken part rest := by
  classical
  have hzero : Begins (bs.take 0) := ⟨'a', by simp⟩
  let n := Nat.findGreatest (fun n => Begins (bs.take n)) bs.length
  have hbegins : Begins (bs.take n) :=
    Nat.findGreatest_spec (P := fun n => Begins (bs.take n)) (Nat.zero_le bs.length) hzero
  have hlongest {p : Bytes} (hp : p <+: bs) (hb : Begins p) : p.length ≤ n := by
    rw [List.prefix_iff_eq_take.1 hp] at hb
    exact Nat.le_findGreatest hp.length_le hb
  have hn : n ≤ bs.length := Nat.findGreatest_le _
  have hpos : 0 < bs.length := List.length_pos_iff.2 hne
  refine ⟨bs.take (max n 1), bs.drop (max n 1), (List.take_append_drop _ _).symm, ?_, ?_, ?_, ?_⟩
  · intro hnil
    have := congrArg List.length hnil
    simp only [List.length_take, List.length_nil] at this
    omega
  · rwa [List.take_append_drop]
  · rw [List.length_take]
    rcases Nat.le_total n 1 with h1 | h1
    · left
      omega
    · right
      rwa [Nat.max_eq_left h1]
  · intro p hp hb
    rw [List.take_append_drop] at hp
    have := hlongest hp hb
    rw [List.length_take]
    omega

theorem exists_decodes (bs : Bytes) : ∃ t, Decodes bs t := by
  induction hn : bs.length using Nat.strongRecOn generalizing bs with
  | _ n ih =>
      subst hn
      by_cases hne : bs = []
      · subst hne
        exact ⟨[], .nil⟩
      · by_cases hchar : ∀ c, ¬ String.utf8EncodeChar c <+: bs
        · obtain ⟨part, rest, rfl, hpart⟩ := exists_broken hne hchar
          have hpos := List.length_pos_iff.2 hpart.ne_nil
          obtain ⟨t, ht⟩ := ih rest.length (by rw [List.length_append]; omega) rest rfl
          exact ⟨_, .broken hpart ht⟩
        · obtain ⟨c, rest, rfl⟩ := by simpa using hchar
          have hpos := List.length_pos_iff.2 (encodeChar_ne_nil c)
          obtain ⟨t, ht⟩ := ih rest.length (by rw [List.length_append]; omega) rest rfl
          exact ⟨_, .char c ht⟩

/-! ## Forms of characters -/

/-- The last `n` bytes of the form of a value. -/
def later : Nat → Nat → Bytes
  | 0, _ => []
  | n + 1, v => UInt8.ofNat (v / 64 ^ n % 64 + 128) :: later n v

/-- A byte that is taken inside of a character. -/
theorem next?_owing_eq_some (h : next? (.owing owed low high value) b = some (s', o)) :
    low.toNat ≤ b.toNat ∧ b.toNat ≤ high.toNat ∧
      (owed = 0 ∧ s' = .start ∧ o = some (Char.ofNat (value * 64 + (b.toNat - 128))) ∨
        ∃ n, owed = n + 1 ∧ o = none ∧
          s' = .owing n 0x80 0xBF (value * 64 + (b.toNat - 128))) := by
  rw [next?] at h
  split at h
  · rename_i hin
    refine ⟨UInt8.le_iff_toNat_le.1 hin.1, UInt8.le_iff_toNat_le.1 hin.2, ?_⟩
    cases owed with
    | zero =>
        cases h
        exact .inl ⟨rfl, rfl, rfl⟩
    | succ n =>
        cases h
        exact .inr ⟨n, rfl, rfl, rfl⟩
  · cases h

theorem ofNat_sub_add (h : 128 ≤ b.toNat) : UInt8.ofNat (b.toNat - 128 + 128) = b := by
  rw [Nat.sub_add_cancel h, UInt8.ofNat_toNat]

theorem Completes.owing_inv (h : Completes c (.owing owed low high value) bs)
    (hlow : 128 ≤ low.toNat) (hhigh : high.toNat ≤ 191) :
    ∃ v, c = Char.ofNat v ∧ v / 64 ^ (owed + 1) = value ∧ bs = later (owed + 1) v ∧
      low.toNat ≤ v / 64 ^ owed % 64 + 128 ∧ v / 64 ^ owed % 64 + 128 ≤ high.toNat := by
  induction owed generalizing low high value bs with
  | zero =>
      cases h with
      | @last _ b hb =>
          obtain ⟨hb₁, hb₂, ⟨-, -, hc⟩ | ⟨n, hn, -⟩⟩ := next?_owing_eq_some hb
          · have hv : (value * 64 + (b.toNat - 128)) % 64 = b.toNat - 128 := by omega
            refine ⟨value * 64 + (b.toNat - 128), Option.some.inj hc, by omega, ?_, ?_, ?_⟩
            · simp only [later, Nat.pow_zero, Nat.div_one, hv]
              rw [ofNat_sub_add (by omega)]
            · simp only [Nat.pow_zero, Nat.div_one]
              omega
            · simp only [Nat.pow_zero, Nat.div_one]
              omega
          · cases hn
      | more hb _ =>
          obtain ⟨-, -, ⟨-, -, ho⟩ | ⟨n, hn, -⟩⟩ := next?_owing_eq_some hb
          · cases ho
          · cases hn
  | succ owed ih =>
      cases h with
      | last hb =>
          obtain ⟨-, -, ⟨hn, -⟩ | ⟨n, -, ho, -⟩⟩ := next?_owing_eq_some hb
          · cases hn
          · cases ho
      | @more _ _ b bs hb hbs =>
          obtain ⟨hb₁, hb₂, ⟨hn, -⟩ | ⟨n, hn, -, rfl⟩⟩ := next?_owing_eq_some hb
          · cases hn
          · cases hn
            obtain ⟨v, hc, hv, rfl, -⟩ := ih hbs (by decide) (by decide)
            have hmod : v / 64 ^ (owed + 1) % 64 = b.toNat - 128 := by omega
            refine ⟨v, hc, ?_, ?_, by omega, by omega⟩
            · rw [Nat.pow_succ, ← Nat.div_div_eq_div_mul]
              omega
            · show _ = UInt8.ofNat (v / 64 ^ (owed + 1) % 64 + 128) :: later (owed + 1) v
              rw [hmod, ofNat_sub_add (by omega)]

/-- What is known after a first byte `n` that is not the only one: the value read so far, and the
range of the next byte. -/
def FirstOf (n owed low high value : Nat) : Prop :=
  owed = 0 ∧ n = value + 192 ∧ 2 ≤ value ∧ value < 32
    ∨ owed = 1 ∧ n = value + 224 ∧ value < 16 ∧ (value ≠ 0 ∨ low = 160) ∧ (value ≠ 13 ∨ high = 159)
    ∨ owed = 2 ∧ n = value + 240 ∧ value < 5 ∧ (value ≠ 0 ∨ low = 144) ∧ (value ≠ 4 ∨ high = 143)

/-- A first byte is the only one, or it leads into a character. -/
theorem first?_eq_some (h : first? b = some (s, o)) :
    b.toNat ≤ 127 ∧ s = .start ∧ o = some (Char.ofNat b.toNat) ∨
      o = none ∧ ∃ owed low high value, s = .owing owed low high value
        ∧ 128 ≤ low.toNat ∧ low.toNat ≤ high.toNat ∧ high.toNat ≤ 191
        ∧ FirstOf b.toNat owed low.toNat high.toNat value := by
  rw [← UInt8.ofNat_toNat (x := b), first?_ofNat b.toNat_lt] at h
  generalize b.toNat = n at h ⊢
  simp only [ite_eq_iff] at h
  obtain ⟨h₁, h⟩ | ⟨h₁, h⟩ := h
  · cases h
    exact .inl ⟨h₁, rfl, rfl⟩
  -- All other first bytes are refused or lead into a character.
  right
  obtain ⟨-, h⟩ | ⟨h₂, ⟨h₃, h⟩ | ⟨h₃, ⟨h₄, h⟩ | ⟨h₄, ⟨h₅, h⟩ | ⟨h₅, ⟨h₆, h⟩ | ⟨h₆, ⟨h₇, h⟩ |
    ⟨h₇, ⟨h₈, h⟩ | ⟨h₈, ⟨h₉, h⟩ | ⟨-, h⟩⟩⟩⟩⟩⟩⟩⟩ := h
  all_goals cases h
  all_goals
    refine ⟨rfl, _, _, _, _, rfl, by decide, by decide, by decide, ?_⟩
    simp only [FirstOf, UInt8.reduceToNat, true_and, and_true, or_true]
    omega

/-- The form of a character, by its value. -/
theorem encodeChar_ofNat (h : v.isValidChar) :
    String.utf8EncodeChar (Char.ofNat v) =
      if v ≤ 127 then [UInt8.ofNat v]
      else if v ≤ 2047 then UInt8.ofNat (v / 64 % 32 + 192) :: later 1 v
      else if v ≤ 65535 then UInt8.ofNat (v / 4096 % 16 + 224) :: later 2 v
      else UInt8.ofNat (v / 262144 % 8 + 240) :: later 3 v := by
  have hval : (Char.ofNat v).val.toNat = v := by
    rw [Char.ofNat, dif_pos h]
    rfl
  simp only [String.utf8EncodeChar, hval, later, Nat.reducePow, Nat.div_one]

/-- A byte that completes a character ends its form. -/
theorem completes_of_next? (h : next? s b = some (s', some c)) : Completes c s [b] := by
  refine .last ?_
  cases s with
  | start =>
      obtain ⟨-, rfl, -⟩ | ⟨ho, -⟩ := first?_eq_some h
      · exact h
      · cases ho
  | owing owed low high value =>
      obtain ⟨-, -, ⟨-, rfl, -⟩ | ⟨n, -, ho, -⟩⟩ := next?_owing_eq_some h
      · exact h
      · cases ho

theorem Completes.eq_encodeChar (h : Completes c .start bs) : bs = String.utf8EncodeChar c := by
  cases h with
  | @last _ b hb =>
      obtain ⟨hle, -, hc⟩ | ⟨ho, -⟩ := first?_eq_some hb
      · cases hc
        rw [encodeChar_ofNat (.inl (by omega)), if_pos hle, UInt8.ofNat_toNat]
      · cases ho
  | @more _ s b bs hb hbs =>
      obtain ⟨-, -, ho⟩ | ⟨-, owed, low, high, value, rfl, hlow, -, hhigh, hfirst⟩ :=
        first?_eq_some hb
      · cases ho
      obtain ⟨v, rfl, rfl, rfl, hv₁, hv₂⟩ := hbs.owing_inv hlow hhigh
      clear hb hbs
      rw [← UInt8.ofNat_toNat (x := b)]
      rcases hfirst with ⟨rfl, hb, h2, h32⟩ | ⟨rfl, hb, h16, h0, h13⟩ | ⟨rfl, hb, h5, h0, h4⟩
      all_goals simp only [Nat.reducePow, Nat.reduceAdd] at *
      · rw [encodeChar_ofNat (.inl (by omega)), if_neg (by omega), if_pos (by omega), hb,
          Nat.mod_eq_of_lt h32]
      · rw [encodeChar_ofNat (by unfold Nat.isValidChar; omega), if_neg (by omega),
          if_neg (by omega), if_pos (by omega), hb, Nat.mod_eq_of_lt h16]
      · rw [encodeChar_ofNat (.inr (by omega)), if_neg (by omega), if_neg (by omega),
          if_neg (by omega), hb, Nat.mod_eq_of_lt (by omega)]

/-- Every place inside of a character can be completed. -/
theorem exists_completes (hle : low.toNat ≤ high.toNat) :
    ∃ c bs, Completes c (.owing owed low high value) bs := by
  induction owed generalizing low high value with
  | zero =>
      have hin : low ≤ low ∧ low ≤ high := ⟨UInt8.le_refl _, UInt8.le_iff_toNat_le.2 hle⟩
      exact ⟨_, [low], .last (by rw [next?, if_pos hin])⟩
  | succ n ih =>
      have hin : low ≤ low ∧ low ≤ high := ⟨UInt8.le_refl _, UInt8.le_iff_toNat_le.2 hle⟩
      obtain ⟨c, bs, hbs⟩ := @ih (value * 64 + (low.toNat - 0x80)) 0x80 0xBF (by decide)
      exact ⟨c, low :: bs, .more (by rw [next?, if_pos hin]) hbs⟩

/-! ## Inside of a character -/

/-- The machine takes some bytes and completes no character. -/
inductive Takes : State → Bytes → State → Prop where
  | nil {s : State} : Takes s [] s
  | cons {s s' s'' : State} {b : UInt8} {bs : Bytes} : next? s b = some (s', none) →
      Takes s' bs s'' → Takes s (b :: bs) s''

theorem Takes.concat (hp : Takes s p s') (hb : next? s' b = some (s'', none)) :
    Takes s (p ++ [b]) s'' := by
  induction hp with
  | nil => exact .cons hb .nil
  | cons h _ ih => exact .cons h (ih hb)

theorem Takes.completes (hp : Takes s p s') (h : Completes c s' bs) : Completes c s (p ++ bs) := by
  induction hp with
  | nil => exact h
  | cons hb _ ih => exact .more hb (ih h)

/-- The machine is inside of a character until the last byte of its form. -/
theorem Completes.exists_takes (h : Completes c s (p ++ bs)) (hne : bs ≠ []) :
    ∃ s', Takes s p s' := by
  induction p generalizing s with
  | nil => exact ⟨s, .nil⟩
  | cons b p ih =>
      rw [List.cons_append] at h
      generalize hl : p ++ bs = l at h
      cases h with
      | last => exact absurd (List.append_eq_nil_iff.1 hl).2 hne
      | more hb h =>
          subst hl
          obtain ⟨s', hs'⟩ := ih h
          exact ⟨s', .cons hb hs'⟩

/-- A byte that completes no character leads into one, and the character can be completed. -/
theorem inside_of_next? (h : next? s b = some (s', none)) :
    s' ≠ .start ∧ ∃ c bs, Completes c s' bs := by
  cases s with
  | start =>
      obtain ⟨-, -, ho⟩ | ⟨-, _, _, _, _, rfl, -, hle, -⟩ := first?_eq_some h
      · cases ho
      · exact ⟨nofun, exists_completes hle⟩
  | owing owed low high value =>
      obtain ⟨-, -, ⟨-, -, ho⟩ | ⟨n, -, -, rfl⟩⟩ := next?_owing_eq_some h
      · cases ho
      · exact ⟨nofun, exists_completes (by decide)⟩

theorem Takes.inside (h : Takes s p s') (hne : p ≠ []) :
    s' ≠ .start ∧ ∃ c bs, Completes c s' bs := by
  induction h with
  | nil => exact absurd rfl hne
  | @cons s s' s'' b bs hb hbs ih =>
      cases bs with
      | nil =>
          cases hbs
          exact inside_of_next? hb
      | cons => exact ih (List.cons_ne_nil _ _)

/-- What the machine takes from the start begins the form of a character. -/
theorem Takes.begins (h : Takes .start p s) (hne : p ≠ []) : Begins p := by
  obtain ⟨-, c, bs, hbs⟩ := h.inside hne
  exact ⟨c, bs, (h.completes hbs).eq_encodeChar⟩

/-! ## The reader -/

theorem run_cons (s : State) (b : UInt8) (bs : Bytes) :
    run s [] (b :: bs) = (step s b).2 ++ run (step s b).1 [] bs := by
  simp only [run]
  rw [run_settled]
  simp

theorem step_of_next? (h : next? s b = some (s', o)) : step s b = (s', o.toList) := by
  simp only [step, h]

theorem run_of_next? (h : next? s b = some (s', o)) (bs : Bytes) :
    run s [] (b :: bs) = o.toList ++ run s' [] bs := by
  rw [run_cons, step_of_next? h]

theorem Takes.run_eq (h : Takes s p s') (bs : Bytes) : run s [] (p ++ bs) = run s' [] bs := by
  induction h with
  | nil => rfl
  | cons hb _ ih =>
      rw [List.cons_append, run_of_next? hb, ih]
      rfl

theorem Completes.run_eq (h : Completes c s bs) (rest : Bytes) :
    run s [] (bs ++ rest) = c :: decode rest := by
  induction h with
  | last hb => exact run_of_next? hb rest
  | more hb _ ih =>
      rw [List.cons_append, run_of_next? hb, ih]
      rfl

/-- A byte that begins no character is replaced. -/
theorem decode_of_refused (h : first? b = none) (bs : Bytes) :
    decode (b :: bs) = replacement :: decode bs := by
  have hstep : step .start b = (.start, [replacement]) := by simp only [step, next?, h]
  rw [decode, run_cons, hstep]
  rfl

/-- A character that is broken off is replaced, and the byte behind it is read again. -/
theorem run_of_refused (hs : s ≠ .start) (h : next? s b = none) (bs : Bytes) :
    run s [] (b :: bs) = replacement :: decode (b :: bs) := by
  cases s with
  | start => exact absurd rfl hs
  | owing owed low high value =>
      cases hb : first? b with
      | none =>
          rw [decode_of_refused hb, run_cons]
          simp only [step, h, hb]
          rfl
      | some r =>
          have hnext : next? .start b = some (r.1, r.2) := hb
          rw [decode, run_of_next? hnext, run_cons]
          simp only [step, h, hb, List.cons_append]

/-- A part that is broken off is replaced. -/
theorem Broken.decode_eq {part rest : Bytes} (h : Broken part rest) :
    decode (part ++ rest) = replacement :: decode rest := by
  by_cases htakes : ∃ s, Takes .start part s
  · obtain ⟨s, hs⟩ := htakes
    have hne := (hs.inside h.ne_nil).1
    rw [decode, hs.run_eq]
    cases rest with
    | nil =>
        cases s with
        | start => exact absurd rfl hne
        | owing => rfl
    | cons b rest =>
        -- A byte that the machine takes makes the part longer or completes a character.
        refine run_of_refused hne ?_ rest
        rcases hb : next? s b with _ | ⟨s', _ | c⟩
        · rfl
        · have hlonger := h.longest (part ++ [b]) (by simp) ((hs.concat hb).begins (by simp))
          rw [List.length_append] at hlonger
          exact absurd hlonger (Nat.not_succ_le_self _)
        · have hform := (hs.completes (completes_of_next? hb)).eq_encodeChar
          exact absurd ⟨rest, by rw [← hform]; simp⟩ (h.not_char c)
  · rcases h.begins with hone | ⟨c, bs, hc⟩
    · obtain ⟨b, rfl⟩ := List.length_eq_one_iff.1 hone
      refine decode_of_refused ?_ rest
      rcases hb : first? b with _ | ⟨s', _ | c⟩
      · rfl
      · exact absurd ⟨s', .cons hb .nil⟩ htakes
      · have hform := (completes_of_next? (s := .start) hb).eq_encodeChar
        exact absurd ⟨rest, by rw [← hform]⟩ (h.not_char c)
    · have hbs : bs ≠ [] := by
        rintro rfl
        exact h.not_char c ⟨rest, by rw [← hc, List.append_nil]⟩
      have hform := completes_encodeChar c
      rw [← hc] at hform
      exact absurd (hform.exists_takes hbs) htakes

theorem Decodes.decode_eq {t : Text} (h : Decodes bs t) : decode bs = t := by
  induction h with
  | nil => rfl
  | char c _ ih => rw [decode, (completes_encodeChar c).run_eq, ih]
  | broken hpart _ ih => rw [hpart.decode_eq, ih]

/-- What was encoded is decoded as it was. -/
theorem decode_encode (t : Text) : decode (encode t) = t := by
  have h : Decodes (encode t) t := by
    induction t with
    | nil => exact .nil
    | cons c t ih => exact .char c ih
  exact h.decode_eq

theorem decodes_iff {t : Text} : Decodes bs t ↔ t = decode bs := by
  constructor
  · intro h
    exact h.decode_eq.symm
  · rintro rfl
    obtain ⟨t, ht⟩ := exists_decodes bs
    rwa [ht.decode_eq]

/-! ## Bytes that stand for themselves -/

variable {l r : Bytes} {t u : Text}

theorem encodeChar_of_lt (hb : b.toNat < 128) :
    String.utf8EncodeChar (Char.ofNat b.toNat) = [b] := by
  rw [encodeChar_ofNat (.inl (by omega)), if_pos (by omega), UInt8.ofNat_toNat]

/-- What begins a form does not go on over a byte below `0x80`. -/
theorem Begins.prefix_of_lt (hp : Begins p) (hb : b.toNat < 128) (hl : l ≠ [])
    (h : p <+: l ++ b :: r) : p <+: l := by
  obtain ⟨c, hc⟩ := hp
  rcases List.prefix_or_prefix_of_prefix h (List.prefix_append l (b :: r)) with hpl | ⟨q, rfl⟩
  · exact hpl
  · cases q with
    | nil => exact ⟨[], by rw [List.append_nil, List.append_nil]⟩
    | cons x q =>
        obtain ⟨rfl, -⟩ : x = b ∧ q <+: r := by simpa [List.prefix_append_right_inj] using h
        have hmem : x ∈ String.utf8EncodeChar c := hc.subset (by simp)
        rw [← ofNat_eq_of_mem_encodeChar hb hmem, encodeChar_of_lt hb] at hc
        have hlen := hc.length_le
        have hpos := List.length_pos_iff.2 hl
        simp only [List.length_append, List.length_cons, List.length_nil] at hlen
        omega

theorem Broken.append_cons {part rest : Bytes} (h : Broken part rest) (hb : b.toNat < 128)
    (r : Bytes) : Broken part (rest ++ b :: r) := by
  have hne : part ++ rest ≠ [] := fun hnil => h.ne_nil (List.append_eq_nil_iff.1 hnil).1
  have hfront {p : Bytes} (hp : Begins p) (hpre : p <+: part ++ (rest ++ b :: r)) :
      p <+: part ++ rest := by
    rw [← List.append_assoc] at hpre
    exact hp.prefix_of_lt hb hne hpre
  exact {
    ne_nil := h.ne_nil
    not_char := fun c hc => h.not_char c (hfront ⟨c, List.prefix_rfl⟩ hc)
    begins := h.begins
    longest := fun p hpre hp => h.longest p (hfront hp hpre) hp }

theorem Decodes.append_cons (h : Decodes l t) (hb : b.toNat < 128) (h' : Decodes r u) :
    Decodes (l ++ b :: r) (t ++ Char.ofNat b.toNat :: u) := by
  induction h with
  | nil =>
      have hchar := Decodes.char (Char.ofNat b.toNat) h'
      rwa [encodeChar_of_lt hb] at hchar
  | char c _ ih =>
      rw [List.append_assoc]
      exact .char c ih
  | broken hpart _ ih =>
      rw [List.append_assoc]
      exact .broken (hpart.append_cons hb r) ih

/-- A byte below `0x80` divides what is read. -/
theorem decode_append_cons (hb : b.toNat < 128) (l r : Bytes) :
    decode (l ++ b :: r) = decode l ++ Char.ofNat b.toNat :: decode r :=
  ((decodes_iff.2 rfl).append_cons hb (decodes_iff.2 rfl)).decode_eq

theorem decode_concat (hb : b.toNat < 128) (l : Bytes) :
    decode (l ++ [b]) = decode l ++ [Char.ofNat b.toNat] :=
  decode_append_cons hb l []

/-! ## Characters and their bytes -/

theorem Decodes.eq_nil (h : Decodes l []) : l = [] := by
  cases h
  rfl

theorem decode_eq_nil_iff : decode l = [] ↔ l = [] := by
  constructor
  · intro h
    exact (decodes_iff.2 h.symm).eq_nil
  · rintro rfl
    rfl

/-- A character that is read has its bytes there, unless it is a replacement. -/
theorem Decodes.infix_of_mem (h : Decodes l t) (hc : c ∈ t) (hne : c ≠ replacement) :
    String.utf8EncodeChar c <:+: l := by
  induction h with
  | nil => cases hc
  | @char bs t c₀ _ ih =>
      rcases List.mem_cons.1 hc with rfl | hc
      · exact ⟨[], bs, rfl⟩
      · exact (ih hc).trans (List.suffix_append _ _).isInfix
  | broken _ _ ih =>
      rcases List.mem_cons.1 hc with rfl | hc
      · exact absurd rfl hne
      · exact (ih hc).trans (List.suffix_append _ _).isInfix

/-- The last character that is read has its bytes at the end, unless it is a replacement. -/
theorem Decodes.suffix_of_getLast? (h : Decodes l t) (hc : t.getLast? = some c)
    (hne : c ≠ replacement) : String.utf8EncodeChar c <:+ l := by
  induction h with
  | nil => cases hc
  | @char bs t c₀ hbs ih =>
      cases t with
      | nil =>
          obtain rfl : c₀ = c := by simpa using hc
          exact ⟨[], by rw [hbs.eq_nil, List.append_nil, List.nil_append]⟩
      | cons => exact (ih (by simpa using hc)).trans (List.suffix_append _ _)
  | @broken part rest t _ hrest ih =>
      cases t with
      | nil => exact absurd (by simpa using hc.symm) hne
      | cons => exact (ih (by simpa using hc)).trans (List.suffix_append _ _)

theorem mem_of_mem_decode (hb : b.toNat < 128) (h : Char.ofNat b.toNat ∈ decode l) : b ∈ l := by
  have hne : Char.ofNat b.toNat ≠ replacement := by
    intro heq
    have hthree : (String.utf8EncodeChar replacement).length = 3 := rfl
    rw [← heq, encodeChar_of_lt hb] at hthree
    cases hthree
  have hinfix := (decodes_iff.2 rfl).infix_of_mem h hne
  rw [encodeChar_of_lt hb] at hinfix
  exact hinfix.subset (List.mem_singleton_self b)

end Utf8

end IncludeTrace
