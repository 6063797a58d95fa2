import IncludeTrace.Directive
import IncludeTrace.Proofs.Pieces

/-!
# The grammar of directives

A directive is the keyword, blanks, a target between delimiters, and a rest.  `Reading`
says this of a line and its parts, without saying how they are found.  The recogniser
finds a reading if there is one (`ofLine?_eq_some_iff`), and there is at most one.  The
blanks end at the first character that is not blank, and this is the opening
delimiter.  It tells which delimiter has to follow, and the target ends at the first one.

The blank characters are those with the property `White_Space` (`isBlank_iff`).
-/

namespace IncludeTrace

/-- The Unicode property `White_Space`, by the ranges of its code points. -/
def WhiteSpace (c : Char) : Prop :=
  0x9 ≤ c.toNat ∧ c.toNat ≤ 0xD ∨ c.toNat = 0x20 ∨ c.toNat = 0x85 ∨ c.toNat = 0xA0 ∨
    c.toNat = 0x1680 ∨ 0x2000 ≤ c.toNat ∧ c.toNat ≤ 0x200A ∨ c.toNat = 0x2028 ∨ c.toNat = 0x2029 ∨
    c.toNat = 0x202F ∨ c.toNat = 0x205F ∨ c.toNat = 0x3000

theorem isBlank_iff {c : Char} : isBlank c = true ↔ WhiteSpace c := by
  simp only [isBlank, blankCodes, List.contains_eq_mem, List.mem_cons, List.not_mem_nil, or_false,
    decide_eq_true_eq, WhiteSpace]
  omega

namespace Directive

/-- A line is the keyword, blanks, a target between two delimiters, and a rest. -/
structure Reading (opening closing : Char) (line blanks target rest : Text) : Prop where
  /-- The parts make up the line. -/
  line_eq : line = "#include".toList ++ blanks ++ [opening] ++ target ++ [closing] ++ rest
  /-- There is at least one blank. -/
  blanks_ne_nil : blanks ≠ []
  /-- The blanks are blank. -/
  whiteSpace : ∀ c ∈ blanks, WhiteSpace c
  /-- There is a target. -/
  target_ne_nil : target ≠ []
  /-- The target goes on to the first closing delimiter. -/
  closing_notMem : closing ∉ target

/-! ## Parts that end at the first character of a kind -/

variable {q q' : Quote} {c : Char} {l t u w rest t' w' rest' : Text} {d : Directive}

theorem ofOpening?_eq_some_iff : Quote.ofOpening? c = some q ↔ c = q.opening := by
  rw [Quote.ofOpening?]
  cases q with
  | quoted => split_ifs with h <;> simp [Quote.opening, h]
  | angle =>
      split_ifs with h h'
      · simp [Quote.opening, h]
      · simp [Quote.opening, h']
      · simp [Quote.opening, h']

theorem opening_injective (h : q.opening = q'.opening) : q = q' :=
  Option.some.inj ((ofOpening?_eq_some_iff.2 rfl).symm.trans (ofOpening?_eq_some_iff.2 h))

theorem isBlank_opening (q : Quote) : isBlank q.opening = false := by
  cases q <;> decide

/-- A target ends at the first closing delimiter. -/
theorem cut_target :
    u.takeWhile (· != q.closing) = t ∧ u.dropWhile (· != q.closing) = c :: rest ↔
      u = t ++ c :: rest ∧ q.closing ∉ t ∧ c = q.closing := by
  rw [cut_iff]
  simp [List.forall_mem_ne']

theorem target?_eq_some_iff : target? u = some (t, q) ↔
    ∃ rest, u = q.opening :: (t ++ q.closing :: rest) ∧ t ≠ [] ∧ q.closing ∉ t := by
  constructor
  · intro h
    cases u with
    | nil => cases h
    | cons c u =>
        simp only [target?] at h
        split at h
        · cases h
        · rename_i hq
          split at h
          · cases h
          · rename_i hparts
            obtain ⟨rfl, rfl⟩ := Prod.mk.inj (Option.some.inj h)
            simp only [Bool.or_eq_true, List.isEmpty_iff, not_or] at hparts
            obtain ⟨x, rest, hrest⟩ := List.exists_cons_of_ne_nil hparts.2
            obtain ⟨hu, hnot, rfl⟩ := cut_target.1 ⟨rfl, hrest⟩
            exact ⟨rest, by rw [ofOpening?_eq_some_iff.1 hq, ← hu], hparts.1, hnot⟩
  · rintro ⟨rest, rfl, hne, hnot⟩
    have hu : t ++ q.closing :: rest = t ++ q.closing :: rest := rfl
    obtain ⟨htake, hdrop⟩ := cut_target.2 ⟨hu, hnot, rfl⟩
    simp only [target?]
    rw [ofOpening?_eq_some_iff.2 rfl]
    simp only [htake, hdrop]
    rw [if_neg (by simp [hne])]

/-! ## Lines -/

/-- The parts of a reading, from the keyword on. -/
theorem parts_eq (w t rest : Text) (q : Quote) :
    "#include".toList ++ w ++ [q.opening] ++ t ++ [q.closing] ++ rest =
      keyword ++ (w ++ q.opening :: (t ++ q.closing :: rest)) := by
  show keyword ++ w ++ [q.opening] ++ t ++ [q.closing] ++ rest = _
  simp only [List.append_assoc, List.cons_append, List.nil_append]

/-- The blanks of a reading end at its opening delimiter. -/
theorem Reading.cut (h : Reading q.opening q.closing l w t rest) :
    (l.drop keyword.length).takeWhile isBlank = w
      ∧ (l.drop keyword.length).dropWhile isBlank = q.opening :: (t ++ q.closing :: rest) := by
  refine cut_iff.2 ⟨?_, fun c hc => isBlank_iff.2 (h.whiteSpace c hc), isBlank_opening q⟩
  rw [h.line_eq, parts_eq, List.drop_left]

/-- The recogniser finds a reading, if there is one. -/
theorem ofLine?_eq_some_iff : ofLine? l = some d ↔
    ∃ w rest, Reading d.quote.opening d.quote.closing l w d.target rest ∧ d.line = l := by
  obtain ⟨line, t, q⟩ := d
  constructor
  · intro h
    rw [ofLine?] at h
    split at h
    · cases h
    · rename_i u hu
      split at h
      · rename_i hblank
        obtain ⟨⟨t', q'⟩, htarget, hd⟩ := Option.map_eq_some_iff.1 h
        cases hd
        obtain ⟨rest, hdrop, hne, hnot⟩ := target?_eq_some_iff.1 htarget
        obtain ⟨hu', hw, -⟩ := cut_iff.1 ⟨rfl, hdrop⟩
        have hl := List.isPrefixOf?_eq_some_iff_append_eq.1 hu
        refine ⟨u.takeWhile isBlank, rest,
          ⟨?_, ?_, fun c hc => isBlank_iff.1 (hw c hc), hne, hnot⟩, rfl⟩
        · rw [parts_eq, ← hu', hl]
        · intro hnil
          rw [hnil] at hu'
          rw [hu'] at hblank
          simp [isBlank_opening] at hblank
      · cases h
  · rintro ⟨w, rest, h, rfl⟩
    have hkeyword := List.isPrefixOf?_eq_some_iff_append_eq.2
      (h.line_eq.trans (parts_eq w t rest q)).symm
    have hdrop := h.cut.2
    rw [h.line_eq, parts_eq, List.drop_left] at hdrop
    obtain ⟨c, w, rfl⟩ := List.exists_cons_of_ne_nil h.blanks_ne_nil
    have hblank := isBlank_iff.2 (h.whiteSpace c List.mem_cons_self)
    rw [ofLine?]
    rw [hkeyword]
    simp only [hdrop, target?_eq_some_iff.2 ⟨rest, rfl, h.target_ne_nil, h.closing_notMem⟩]
    rw [if_pos (by simpa using hblank)]
    rfl

/-- A line has at most one reading. -/
theorem Reading.unique (h : Reading q.opening q.closing l w t rest)
    (h' : Reading q'.opening q'.closing l w' t' rest') :
    q = q' ∧ w = w' ∧ t = t' ∧ rest = rest' := by
  obtain ⟨hw, hparts⟩ := h.cut
  obtain ⟨hw', hparts'⟩ := h'.cut
  obtain ⟨hq, htail⟩ := List.cons.inj (hparts.symm.trans hparts')
  cases opening_injective hq
  obtain ⟨ht, hrest⟩ := cut_target.2 ⟨htail, h'.closing_notMem, rfl⟩
  obtain ⟨ht', hrest'⟩ := cut_target.2 ⟨rfl, h.closing_notMem, rfl⟩
  exact ⟨rfl, hw.symm.trans hw', ht'.symm.trans ht, (List.cons.inj (hrest'.symm.trans hrest)).2⟩

/-- A directive with some delimiters is recognised on a line if and only if the line has a reading
with these delimiters, and it has the line and the target of the reading.  A line has at most one
reading, also across the two kinds of delimiters.  If it has none, nothing is recognised. -/
theorem recognised_iff_reading (l : Text) :
    (∀ d, ofLine? l = some d ∧ d.quote = .quoted ↔
        ∃ w t rest, Reading '"' '"' l w t rest ∧ d = ⟨l, t, .quoted⟩)
      ∧ (∀ d, ofLine? l = some d ∧ d.quote = .angle ↔
        ∃ w t rest, Reading '<' '>' l w t rest ∧ d = ⟨l, t, .angle⟩)
      ∧ (∀ q q' w w' t t' rest rest', Reading (Quote.opening q) q.closing l w t rest →
        Reading (Quote.opening q') q'.closing l w' t' rest' →
        q = q' ∧ w = w' ∧ t = t' ∧ rest = rest')
      ∧ (ofLine? l = none ↔
        ∀ w t rest, ¬ Reading '"' '"' l w t rest ∧ ¬ Reading '<' '>' l w t rest) := by
  have hsome (q : Quote) (d : Directive) : ofLine? l = some d ∧ d.quote = q ↔
      ∃ w t rest, Reading q.opening q.closing l w t rest ∧ d = ⟨l, t, q⟩ := by
    rw [ofLine?_eq_some_iff]
    constructor
    · rintro ⟨⟨w, rest, h, rfl⟩, rfl⟩
      exact ⟨w, d.target, rest, h, rfl⟩
    · rintro ⟨w, t, rest, h, rfl⟩
      exact ⟨⟨w, rest, h, rfl⟩, rfl⟩
  refine ⟨hsome .quoted, hsome .angle, fun _ _ _ _ _ _ _ _ h h' => h.unique h', ?_⟩
  rw [Option.eq_none_iff_forall_ne_some]
  constructor
  · intro hnone w t rest
    have hreading (q : Quote) : ¬ Reading q.opening q.closing l w t rest := fun h =>
      hnone _ ((hsome q _).2 ⟨w, t, rest, h, rfl⟩).1
    exact ⟨hreading .quoted, hreading .angle⟩
  · rintro hreading ⟨line, target, q⟩ hd
    obtain ⟨w, t, rest, h, -⟩ := (hsome q _).1 ⟨hd, rfl⟩
    cases q with
    | quoted => exact (hreading w t rest).1 h
    | angle => exact (hreading w t rest).2 h

/-- The target holds the other delimiter and a newline, and what follows looks like a target too. -/
theorem recognised_iff_reading_mixed :
    ofLine? "#include\u3000\t<a\"b\n> \"c\"".toList =
        some ⟨"#include\u3000\t<a\"b\n> \"c\"".toList, "a\"b\n".toList, .angle⟩
      ∧ ∀ w t rest, ¬ Reading '"' '"' "#include\u3000\t<a\"b\n> \"c\"".toList w t rest := by
  obtain ⟨-, hangle, hunique, -⟩ :=
    recognised_iff_reading "#include\u3000\t<a\"b\n> \"c\"".toList
  have hreading : Reading '<' '>' "#include\u3000\t<a\"b\n> \"c\"".toList "\u3000\t".toList
      "a\"b\n".toList " \"c\"".toList :=
    ⟨rfl, by decide, by simp [WhiteSpace], by decide, by decide⟩
  refine ⟨((hangle _).2 ⟨_, _, _, hreading, rfl⟩).1, fun w t rest h => ?_⟩
  exact absurd (hunique .angle .quoted _ _ _ _ _ _ hreading h).1 nofun

end Directive

end IncludeTrace
