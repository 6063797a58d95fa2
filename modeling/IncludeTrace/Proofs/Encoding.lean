import IncludeTrace.Text.Utf8

/-!
# UTF-8 read back

The machine of `Utf8` completes a character with the last byte of its UTF-8 form,
and not before (`completes_encodeChar`).  The bounds on the second byte are met,
because a character is not a surrogate, is at most `10FFFF`, and is written with no
more bytes than it needs.  So the strict reader gives every text back
(`decode?_encode`).

A byte below `0x80` in the form of a text stands for itself
(`ofNat_mem_of_mem_encode`).  So whether a text holds a newline can be seen from its
bytes.
-/

namespace IncludeTrace

namespace Utf8

/-! ## One byte -/

/-- The first byte of a character, as a number. -/
theorem first?_ofNat {n : Nat} (h : n < 256) :
    first? (UInt8.ofNat n) =
      if n ≤ 0x7F then some (.start, some (Char.ofNat n))
      else if n < 0xC2 then none
      else if n ≤ 0xDF then some (.owing 0 0x80 0xBF (n - 0xC0), none)
      else if n = 0xE0 then some (.owing 1 0xA0 0xBF 0, none)
      else if n = 0xED then some (.owing 1 0x80 0x9F 0xD, none)
      else if n ≤ 0xEF then some (.owing 1 0x80 0xBF (n - 0xE0), none)
      else if n = 0xF0 then some (.owing 2 0x90 0xBF 0, none)
      else if n ≤ 0xF3 then some (.owing 2 0x80 0xBF (n - 0xF0), none)
      else if n = 0xF4 then some (.owing 2 0x80 0x8F 4, none)
      else none := by
  have hn : (UInt8.ofNat n).toNat = n := UInt8.toNat_ofNat_of_lt' h
  simp only [first?, UInt8.le_iff_toNat_le, UInt8.lt_iff_toNat_lt, ← UInt8.toNat_inj, hn]
  rfl

/-- A later byte of a character, as a number in the range it must lie in. -/
theorem next?_owing {owed n : Nat} {low high : UInt8} (value : Nat) (hlow : low.toNat ≤ n)
    (hhigh : n ≤ high.toNat) :
    next? (.owing owed low high value) (UInt8.ofNat n) =
      match owed with
      | 0 => some (.start, some (Char.ofNat (value * 64 + (n - 0x80))))
      | m + 1 => some (.owing m 0x80 0xBF (value * 64 + (n - 0x80)), none) := by
  have hn : (UInt8.ofNat n).toNat = n :=
    UInt8.toNat_ofNat_of_lt' (Nat.lt_of_le_of_lt hhigh high.toNat_lt)
  have hin : low ≤ UInt8.ofNat n ∧ UInt8.ofNat n ≤ high := by
    simp only [UInt8.le_iff_toNat_le, hn]
    exact ⟨hlow, hhigh⟩
  simp only [next?, hin, hn]
  rfl

/-! ## One character -/

/-- The machine takes some bytes and completes the character `c` with the last of them. -/
inductive Completes (c : Char) : State → Bytes → Prop where
  | last {s : State} {b : UInt8} : next? s b = some (.start, some c) → Completes c s [b]
  | more {s s' : State} {b : UInt8} {bs : Bytes} : next? s b = some (s', none) →
      Completes c s' bs → Completes c s (b :: bs)

section Completes

variable {c : Char} {owed value n v : Nat} {low high : UInt8} {bs : Bytes}

theorem Completes.owing_last (hlow : low.toNat ≤ n + 128) (hhigh : n + 128 ≤ high.toNat)
    (hc : c.toNat = value * 64 + n) :
    Completes c (.owing 0 low high value) [UInt8.ofNat (n + 128)] := by
  refine .last ?_
  rw [next?_owing value hlow hhigh, Nat.add_sub_cancel, ← hc, Char.ofNat_toNat]

theorem Completes.owing_more (hlow : low.toNat ≤ n + 128) (hhigh : n + 128 ≤ high.toNat)
    (h : Completes c (.owing owed 0x80 0xBF (value * 64 + n)) bs) :
    Completes c (.owing (owed + 1) low high value) (UInt8.ofNat (n + 128) :: bs) := by
  refine .more ?_ h
  rw [next?_owing value hlow hhigh, Nat.add_sub_cancel]

/-- The first byte of two. -/
theorem next?_two (h : 127 < v) (h' : v ≤ 2047) :
    next? .start (UInt8.ofNat (v / 64 % 32 + 192)) = some (.owing 0 0x80 0xBF (v / 64), none) := by
  have hvalue : v / 64 % 32 + 192 - 192 = v / 64 := by omega
  rw [next?, first?_ofNat (by omega), if_neg (by omega), if_neg (by omega), if_pos (by omega),
    hvalue]

/-- The first byte of three.  The second one is in the range that is left: after `E0` because two
bytes would not do, after `ED` because the value is not a surrogate. -/
theorem next?_three (h : 2047 < v) (h' : v ≤ 65535) (hv : v.isValidChar) :
    ∃ low high : UInt8,
      next? .start (UInt8.ofNat (v / 4096 % 16 + 224)) = some (.owing 1 low high (v / 4096), none)
        ∧ low.toNat ≤ v / 64 % 64 + 128 ∧ v / 64 % 64 + 128 ≤ high.toNat := by
  rw [next?, first?_ofNat (by omega), if_neg (by omega), if_neg (by omega), if_neg (by omega)]
  by_cases hE0 : v / 4096 = 0
  · rw [if_pos (by omega), hE0]
    exact ⟨_, _, rfl, by simp; omega, by simp; omega⟩
  · rw [if_neg (by omega)]
    by_cases hED : v / 4096 = 13
    · rw [if_pos (by omega), hED]
      exact ⟨_, _, rfl, by simp, by simp; omega⟩
    · have hvalue : v / 4096 % 16 + 224 - 224 = v / 4096 := by omega
      rw [if_neg (by omega), if_pos (by omega), hvalue]
      exact ⟨_, _, rfl, by simp, by simp; omega⟩

/-- The first byte of four.  The second one is in the range that is left: after `F0` because three
bytes would not do, after `F4` because there are no larger values. -/
theorem next?_four (h : 65535 < v) (hv : v.isValidChar) :
    ∃ low high : UInt8,
      next? .start (UInt8.ofNat (v / 262144 % 8 + 240))
          = some (.owing 2 low high (v / 262144), none)
        ∧ low.toNat ≤ v / 4096 % 64 + 128 ∧ v / 4096 % 64 + 128 ≤ high.toNat := by
  rw [next?, first?_ofNat (by omega), if_neg (by omega), if_neg (by omega), if_neg (by omega),
    if_neg (by omega), if_neg (by omega), if_neg (by omega)]
  by_cases hF0 : v / 262144 = 0
  · rw [if_pos (by omega), hF0]
    exact ⟨_, _, rfl, by simp; omega, by simp; omega⟩
  · rw [if_neg (by omega)]
    by_cases hF4 : v / 262144 = 4
    · rw [if_neg (by omega), if_pos (by omega), hF4]
      exact ⟨_, _, rfl, by simp, by simp; omega⟩
    · have hvalue : v / 262144 % 8 + 240 - 240 = v / 262144 := by omega
      rw [if_pos (by omega), hvalue]
      exact ⟨_, _, rfl, by simp, by simp; omega⟩

theorem completes_encodeChar (c : Char) : Completes c .start (String.utf8EncodeChar c) := by
  have hvalid : c.toNat.isValidChar := c.valid
  have hval : c.val.toNat = c.toNat := rfl
  unfold String.utf8EncodeChar
  simp only [hval]
  split
  · refine .last ?_
    rw [next?, first?_ofNat (by omega), if_pos (by omega), Char.ofNat_toNat]
  · split
    · exact .more (next?_two (by omega) (by omega))
        (.owing_last (by simp) (by simp; omega) (by omega))
    · split
      · obtain ⟨low, high, hfirst, hlow, hhigh⟩ :=
          next?_three (v := c.toNat) (by omega) (by omega) hvalid
        exact .more hfirst
          (.owing_more hlow hhigh (.owing_last (by simp) (by simp; omega) (by omega)))
      · obtain ⟨low, high, hfirst, hlow, hhigh⟩ := next?_four (v := c.toNat) (by omega) hvalid
        exact .more hfirst (.owing_more hlow hhigh
          (.owing_more (by simp) (by simp; omega)
            (.owing_last (by simp) (by simp; omega) (by omega))))

end Completes

/-! ## Texts -/

theorem encode_cons (c : Char) (t : Text) :
    encode (c :: t) = String.utf8EncodeChar c ++ encode t := rfl

theorem Completes.runStrict_eq {c : Char} {s : State} {bs : Bytes} (h : Completes c s bs)
    (settled : Text) (held rest : Bytes) :
    runStrict s settled held (bs ++ rest) = runStrict .start (c :: settled) rest rest := by
  induction h with
  | last hb => simp [runStrict, hb]
  | more hb _ ih => simp [runStrict, hb, ih]

theorem runStrict_encode (t settled : Text) (held : Bytes) :
    runStrict .start settled held (encode t) = (settled.reverse ++ t, []) := by
  induction t generalizing settled held with
  | nil => simp [runStrict]
  | cons c t ih =>
      rw [encode_cons, (completes_encodeChar c).runStrict_eq, ih]
      simp

/-- The strict reader gives a text back. -/
@[simp] theorem decode?_encode (t : Text) : decode? (encode t) = some t := by
  simp [decode?, span, runStrict_encode]

theorem encode_ne_nil {t : Text} (h : t ≠ []) : encode t ≠ [] := by
  intro hnil
  have hdecode := decode?_encode t
  rw [hnil] at hdecode
  exact h (Option.some.inj hdecode).symm

/-- A byte below `0x80` is a character of its own. -/
theorem ofNat_eq_of_mem_encodeChar {b : UInt8} {c : Char} (hb : b.toNat < 128)
    (h : b ∈ String.utf8EncodeChar c) : Char.ofNat b.toNat = c := by
  have hlater (n : Nat) (hn : n < 256) (h128 : 128 ≤ n) : b ≠ UInt8.ofNat n := by
    rintro rfl
    rw [UInt8.toNat_ofNat_of_lt' hn] at hb
    omega
  have hval : c.val.toNat = c.toNat := rfl
  unfold String.utf8EncodeChar at h
  simp only [hval] at h
  split at h
  · rw [List.mem_singleton] at h
    rw [h, UInt8.toNat_ofNat_of_lt' (Nat.lt_of_le_of_lt (by assumption) (by decide)),
      Char.ofNat_toNat]
  · -- Every byte of a longer form is at least `0x80`.
    exfalso
    split at h
    · simp only [List.mem_cons, List.not_mem_nil, or_false] at h
      rcases h with h | h <;> exact hlater _ (by omega) (by omega) h
    · split at h
      · simp only [List.mem_cons, List.not_mem_nil, or_false] at h
        rcases h with h | h | h <;> exact hlater _ (by omega) (by omega) h
      · simp only [List.mem_cons, List.not_mem_nil, or_false] at h
        rcases h with h | h | h | h <;> exact hlater _ (by omega) (by omega) h

theorem ofNat_mem_of_mem_encode {b : UInt8} {t : Text} (hb : b.toNat < 128) (h : b ∈ encode t) :
    Char.ofNat b.toNat ∈ t := by
  obtain ⟨c, hc, hbc⟩ := List.mem_flatMap.1 h
  rwa [ofNat_eq_of_mem_encodeChar hb hbc]

end Utf8

end IncludeTrace
