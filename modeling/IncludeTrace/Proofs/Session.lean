import IncludeTrace.Proofs.Account

/-!
# Sessions

A session is a row of traces of one file system.  They share their visited paths,
which begin empty, and nothing else: each has a root, a limit and a sink of its
own, and the sink may refuse an event at any point.

What one trace leaves untold about a file, because its sink refused an event, no
later trace takes up, since the file stays visited.  So what holds of one trace
holds of a session: about each file at most one script is told, from the beginning
up to some point, and it is the script of the path by which the file was entered
first.
-/

namespace IncludeTrace

namespace Walk

/-- A trace to be made in a session. -/
structure Call where
  /-- What the sink remembers. -/
  {σ : Type}
  /-- The sink. -/
  sink : Sink σ
  /-- What the sink remembers at first. -/
  state : σ
  /-- The root. -/
  root : Path
  /-- The limit of the depth. -/
  maxDepth : Option Nat

/-- The accepted events of the calls in a row, and the paths that are visited after them.  There
are none if a call does not finish.  One bound serves all calls, since a larger one changes no
outcome (`outcome_mono`). -/
def session (files : FileSystem) (fuel : Nat) :
    List Call → Visited → Option (List Event × Visited)
  | [], v => some ([], v)
  | call :: calls, v => do
      let o ← outcome ⟨files, call.sink, call.maxDepth⟩ fuel call.root v call.state
      let (es, v') ← session files fuel calls o.visited
      return (o.events ++ es, v')

variable {files : FileSystem} {fuel : Nat} {v v' : Visited} {k : Path} {es es' : List Event}

theorem session_cons_eq_some {call : Call} {calls : List Call}
    (h : session files fuel (call :: calls) v = some (es, v')) :
    ∃ o es', outcome ⟨files, call.sink, call.maxDepth⟩ fuel call.root v call.state = some o
      ∧ session files fuel calls o.visited = some (es', v') ∧ es = o.events ++ es' := by
  obtain ⟨o, ho, h⟩ := Option.bind_eq_some_iff.1 h
  obtain ⟨⟨es', v''⟩, hs, h⟩ := Option.bind_eq_some_iff.1 h
  cases h
  exact ⟨o, es', ho, hs, rfl⟩

/-- The accepted events of a trace tell everything in order, and they account for the visited
paths. -/
theorem told_of_outcome {σ : Type} {c : Context σ} {s : σ} {root : Path} {o : Outcome}
    (h : outcome c fuel root v s = some o) :
    ToldThroughout c.files v [] o.events ∧ o.visited = v.entered o.events := by
  obtain ⟨n, l, b, ht, -, rfl⟩ := outcome_eq_some_iff.1 h
  refine ⟨?_, rfl⟩
  intro pre hpre
  exact ht.toldThroughout pre (hpre.trans (Sink.accepted_prefix c.sink s l))

/-- What is told from visited paths on continues what was told until then. -/
theorem ToldInOrder.append (h : ToldInOrder files v es)
    (h' : ToldInOrder files (v.entered es) es') : ToldInOrder files v (es ++ es') := by
  intro k
  have hk := h k
  have hk' := h' k
  rw [told_append, openedAs?_append]
  cases hvis : (v.entered es).contains k with
  | true =>
      -- Nothing more is told about the file.
      rw [openedAs?, if_pos hvis] at hk'
      rw [List.prefix_nil.1 hk', List.append_nil]
      cases ho : openedAs? v k es with
      | some q => rwa [ho] at hk
      | none =>
          rw [ho] at hk
          rw [List.prefix_nil.1 hk]
          exact List.nil_prefix
  | false =>
      -- Nothing was told about the file.
      obtain ⟨hv, hnone⟩ := openedAs?_of_not_contains hvis
      have hsame : openedAs? (v.entered es) k es' = openedAs? v k es' := by
        simp [openedAs?, hvis, hv]
      rw [hnone] at hk ⊢
      rw [List.prefix_nil.1 hk, ← hsame]
      exact hk'

theorem session_told {calls : List Call} (h : session files fuel calls v = some (es, v')) :
    ToldThroughout files v [] es := by
  induction calls generalizing v es with
  | nil =>
      cases h
      exact .nil (Accounted.init files _).toldInOrder
  | cons call calls ih =>
      obtain ⟨o, es', ho, hs, rfl⟩ := session_cons_eq_some h
      obtain ⟨hfirst, hvis⟩ := told_of_outcome ho
      rw [hvis] at hs
      refine hfirst.append ?_
      intro pre hpre
      exact (hfirst _ (List.prefix_refl _)).append (ih hs pre hpre)

/-- In a session each file is closed at most once, and it fails at most once at each stage.  It is
not both closed and impossible to open.  The first event about it enters it by the path to which
all others belong, and what is found in it are the first directives of the file as it is under this
path, and all of them if it is closed. -/
theorem session_tells_once {calls : List Call}
    (h : session files fuel calls .empty = some (es, v)) (k : Path) :
    es.countP (Event.closes k) ≤ 1
      ∧ es.countP (Event.fails k .opening) ≤ 1
      ∧ es.countP (Event.fails k .reading) ≤ 1
      ∧ (es.countP (Event.closes k) = 0 ∨ es.countP (Event.fails k .opening) = 0)
      ∧ ((∀ e ∈ es, e.path.normalize ≠ k) ∨
        ∃ p es₁ es₂, es = es₁ ++ .enter p :: es₂ ∧ p.normalize = k
          ∧ (∀ e ∈ es₁, e.path.normalize ≠ k)
          ∧ (∀ e ∈ es, e.tells k = true → e.path = p)
          ∧ es.filterMap (Event.finds? k) <+: files.directivesAt p
          ∧ (0 < es.countP (Event.closes k) →
              es.filterMap (Event.finds? k) = files.directivesAt p)) := by
  have hall := session_told h
  have htold := hall es (List.prefix_refl es)
  rw [List.nil_append] at htold
  have hk := htold k
  cases ho : openedAs? .empty k es with
  | none =>
      rw [ho] at hk
      have hzero : ∀ f : Event → Bool, (∀ e, f e = true → e.tells k = true) → es.countP f = 0 := by
        intro f hf
        rw [← countP_told hf, List.prefix_nil.1 hk, List.countP_nil]
      have hcloses := hzero _ (Event.tells_of_closes k)
      have hopening := hzero _ (Event.tells_of_fails k .opening)
      have hreading := hzero _ (Event.tells_of_fails k .reading)
      refine ⟨by omega, by omega, by omega, .inl hcloses, .inl ?_⟩
      exact htold.of_openedAs?_eq_none (Visited.contains_empty k) ho
  | some p =>
      rw [ho] at hk
      obtain ⟨-, -, rfl⟩ := openedAs?_eq_some ho
      obtain ⟨es₁, es₂, hes, hfirst⟩ := hall.exists_first ho
      have hcloses := countP_le_script hk (Event.tells_of_closes p.normalize)
      have hopening := countP_le_script hk (Event.tells_of_fails p.normalize .opening)
      have hreading := countP_le_script hk (Event.tells_of_fails p.normalize .reading)
      have hends := script_ends files p
      have hread := script_reading_le files p
      refine ⟨by omega, by omega, by omega, by omega, .inr ?_⟩
      refine ⟨p, es₁, es₂, hes, rfl, hfirst, ?_, ?_, ?_⟩
      · intro e he ht
        exact path_of_mem_script files p e (hk.subset (List.mem_filter.2 ⟨he, ht⟩))
      · rw [← finds_told, ← finds_script]
        exact hk.filterMap _
      · intro hclosed
        rw [← countP_told (Event.tells_of_closes _)] at hclosed
        rw [← finds_told, ← finds_script, eq_script_of_closes hk hclosed]

/-- The first sink refuses to enter the second file, which the second call enters by another
path. -/
theorem session_tells_once_mutual :
    ∃ es v, session mutualFiles 20
        [⟨Journal.sink, .empty (some 2), .ofText "./m".toList, none⟩,
          ⟨Journal.sink, .empty none, .ofText "m/../h".toList, some 1⟩] .empty = some (es, v)
      ∧ es.countP (Event.closes (.ofText "h".toList)) = 1
      ∧ ∃ p es₁ es₂, es = es₁ ++ .enter p :: es₂ ∧ p.normalize = .ofText "h".toList
        ∧ es.filterMap (Event.finds? (.ofText "h".toList)) = mutualFiles.directivesAt p := by
  have hmap : (session mutualFiles 20
      [⟨Journal.sink, .empty (some 2), .ofText "./m".toList, none⟩,
        ⟨Journal.sink, .empty none, .ofText "m/../h".toList, some 1⟩] .empty).map
      (·.1.countP (Event.closes (.ofText "h".toList))) = some 1 := by decide +kernel
  obtain ⟨⟨es, v⟩, hes, hone⟩ := Option.map_eq_some_iff.1 hmap
  refine ⟨es, v, hes, hone, ?_⟩
  have hpos : 0 < es.countP (Event.closes (.ofText "h".toList)) :=
    Nat.lt_of_lt_of_eq Nat.zero_lt_one (Eq.symm hone)
  obtain ⟨-, -, -, -, hno | ⟨p, es₁, es₂, hfirst, hp, -, -, -, hall⟩⟩ :=
    session_tells_once hes (.ofText "h".toList)
  · obtain ⟨e, he, hcloses⟩ := List.countP_pos_iff.1 hpos
    exact absurd (Event.normalize_path_of_tells (Event.tells_of_closes _ e hcloses)) (hno e he)
  · exact ⟨p, es₁, es₂, hfirst, hp, hall hpos⟩

end Walk

end IncludeTrace
