import MapExtract.Proofs.ExpansionRun

set_option autoImplicit false
namespace MapExtract.Store

variable {s : Store} {root : Relation} {maxDepth : Option Int}

theorem expand_of_small {depth : Int} (h : depth < 1) (id : Int) :
    s.expand id (some depth) = .error (.depthTooSmall depth) := by
  unfold expand
  simp only [h, if_true]
  rfl

theorem expand_of_deep (h : ∀ most, maxDepth = some most → 1 ≤ most) (id : Int) :
    s.expand id maxDepth = (s.getVisible (.relation, id)).bind fun
      | .relation root => .ok ((Expansion.start root
          (Draft.empty.note (.expanding id maxDepth))).run s maxDepth).draft
      | _ => .error (.notFound .relation id) := by
  unfold expand
  cases maxDepth with
  | none => rfl
  | some depth =>
    have deep : ¬depth < 1 := by
      have := h depth rfl
      omega
    simp only [deep, if_false]
    rfl

theorem expand_of_shows (shown : s.Shows (.relation root))
    (deep : ∀ most, maxDepth = some most → 1 ≤ most) :
    s.expand root.id maxDepth = .ok ((Expansion.start root
      (Draft.empty.note (.expanding root.id maxDepth))).run s maxDepth).draft := by
  have found : s.getVisible (.relation, root.id) = .ok (.relation root) := shown.getVisible
  rw [expand_of_deep deep, found]
  rfl

theorem run_holds (hs : s.WellFormed) (shown : s.Shows (.relation root))
    (follow : Followed maxDepth 0) {d : Draft} (hd : s.Holds d.selection fun _ => False) :
    s.Holds ((Expansion.start root d).run s maxDepth).draft.selection
      (s.WithinDepth root maxDepth) := by
  have begun : Expansion.Taken s maxDepth (Expansion.start root d) [] (Expansion.start root d) := .start
  obtain ⟨ended, done, taken⟩ := Expansion.run_taken begun
  have expanded := taken.expanded hs shown follow hd
  have mem_done := expanded.mem_done_iff ended
  exact expanded.holds.congr fun e held => gathered_iff follow mem_done held

theorem bounded_some {d : Int} (hd : 1 ≤ d) : ∀ most, some d = some most → 1 ≤ most := by
  intro most same
  cases same
  exact hd

theorem bounded_none : ∀ most, (none : Option Int) = some most → 1 ≤ most := by
  intro most same
  cases same

theorem followed_zero (deep : ∀ most, maxDepth = some most → 1 ≤ most) : Followed maxDepth 0 := by
  intro most hd
  have := deep most hd
  omega

theorem expand_holds (hs : s.WellFormed) (shown : s.Shows (.relation root))
    (deep : ∀ most, maxDepth = some most → 1 ≤ most) :
    ∃ d, s.expand root.id maxDepth = .ok d ∧ s.Holds d.selection (s.WithinDepth root maxDepth) :=
  ⟨_, expand_of_shows shown deep, run_holds hs shown (followed_zero deep) (Holds.empty s)⟩

theorem expand_cases (hs : s.WellFormed) (deep : ∀ most, maxDepth = some most → 1 ≤ most) (id : Int) :
    (s.current? (.relation, id) = none ∧
        s.expand id maxDepth = .error (.notFound .relation id)) ∨
      (∃ e, s.current? (.relation, id) = some e ∧ e.visible = false ∧
        s.expand id maxDepth = .error (.gone .relation id)) ∨
      ∃ root d, s.current? (.relation, id) = some (.relation root) ∧ root.info.visible = true ∧
        s.expand id maxDepth = .ok d ∧ s.Holds d.selection (s.WithinDepth root maxDepth) := by
  cases hc : s.current? (.relation, id) with
  | none =>
    refine Or.inl ⟨rfl, ?_⟩
    rw [expand_of_deep deep, getVisible, hc]
    rfl
  | some e =>
    cases visible : e.visible with
    | false =>
      refine Or.inr (Or.inl ⟨e, rfl, visible, ?_⟩)
      rw [expand_of_deep deep]
      simp only [getVisible, hc, visible]
      rfl
    | true =>
      have own := key_of_current hs hc
      cases e with
      | node n => cases own
      | way w => cases own
      | relation root =>
        have shown : s.Shows (.relation root) := ⟨by rw [own]; exact hc, visible⟩
        obtain rfl : root.id = id := congrArg Prod.snd own
        obtain ⟨d, expanded, holds⟩ := expand_holds hs shown deep
        exact Or.inr (Or.inr ⟨root, d, rfl, visible, expanded, holds⟩)

/-- An expansion is refused exactly for a depth below one, and fails otherwise exactly for a
relation that is not shown. It holds the shown relations up to the depth, the shown ways and nodes
that are members of those above it, and the shown nodes of these ways. -/
theorem expansion_exact (hs : Reachable s) (id : Int) (maxDepth : Option Int) :
    (∀ depth, s.expand id maxDepth = .error (.depthTooSmall depth) ↔
        maxDepth = some depth ∧ depth < 1) ∧
      ((∀ most, maxDepth = some most → 1 ≤ most) →
        (s.expand id maxDepth = .error (.notFound .relation id) ↔ s.history (.relation, id) = []) ∧
        (s.expand id maxDepth = .error (.gone .relation id) ↔
          ∃ e, s.current? (.relation, id) = some e ∧ e.visible = false) ∧
        ∀ e, s.current? (.relation, id) = some e → e.visible = true →
          ∃ root d, e = .relation root ∧ s.expand id maxDepth = .ok d ∧
            ∀ x, x ∈ d.selection.toList ↔ s.Shows x ∧ s.WithinDepth root maxDepth x) := by
  refine ⟨fun depth => ⟨?_, ?_⟩, fun deep => ?_⟩
  · intro refused
    by_cases small : maxDepth = some depth ∧ depth < 1
    · exact small
    · exfalso
      by_cases deep : ∀ most, maxDepth = some most → 1 ≤ most
      · rcases expand_cases hs.wellFormed deep id with ⟨_, eq⟩ | ⟨_, _, _, eq⟩ | ⟨_, _, _, _, eq, _⟩
        all_goals
          rw [eq] at refused
          cases refused
      · push Not at deep
        obtain ⟨most, rfl, notOne⟩ := deep
        have low : most < 1 := by omega
        rw [expand_of_small low] at refused
        cases refused
        exact small ⟨rfl, low⟩
  · rintro ⟨rfl, low⟩
    exact expand_of_small low id
  · have missing : s.history (.relation, id) = [] ↔ s.current? (.relation, id) = none :=
      List.getLast?_eq_none_iff.symm
    rw [missing]
    rcases expand_cases hs.wellFormed deep id with ⟨hc, eq⟩ | ⟨e, hc, deleted, eq⟩ |
      ⟨root, d, hc, visible, eq, holds⟩
    · simp [hc, eq]
    · simp [hc, eq, deleted]
    · have shown : (Element.relation root).visible = true := visible
      refine ⟨by simp [hc, eq], by simp [hc, eq, shown], ?_⟩
      intro e he _
      rw [hc] at he
      cases he
      exact ⟨root, d, rfl, eq, holds.mem_toList⟩

private def path : Way := ⟨1, .bare 1 true, none, []⟩

private def outer : Relation := ⟨1, .bare 1 true, none, [⟨.relation, 2, ""⟩]⟩

private def inner : Relation := ⟨2, .bare 1 true, none, [⟨.relation, 1, ""⟩, ⟨.way, 1, ""⟩]⟩

private def circle : Store :=
  offered [.way path, .relation outer, .relation inner]

theorem expansion_exact_circle : Reachable circle ∧ ∃ d,
    circle.expand 1 (some 2) = .ok d ∧ .way path ∈ d.selection.toList := by
  have reachable : Reachable circle := offered_reachable _
  have deep : ∀ most, some 2 = some most → (1 : Int) ≤ most := by
    rintro most ⟨⟩
    decide
  obtain ⟨root, d, same, expanded, listed⟩ := ((expansion_exact reachable 1 (some 2)).2 deep).2.2
    (.relation outer) (by decide) rfl
  obtain rfl : root = outer := (Element.relation.inj same).symm
  have chain : circle.Chain outer 1 inner := .member .root (by decide) ⟨by decide, rfl⟩
  have distance : circle.Distance outer 1 inner := by
    refine ⟨chain, ?_⟩
    intro m hm
    cases hm with
    | member _ _ _ => omega
  have followed : Followed (some 2) 1 := by
    rintro most ⟨⟩
    decide
  refine ⟨reachable, d, expanded, (listed _).mpr ⟨⟨by decide, rfl⟩, ?_⟩⟩
  exact ⟨inner, 1, distance, followed, by decide⟩

end MapExtract.Store
