import MapExtract.Proofs.ExpansionDistance

set_option autoImplicit false
namespace MapExtract.Store
open Element (Kind Key)

variable {s : Store} {root : Relation}

theorem followed_one_iff (n : Nat) : Followed (some 1) n ↔ n = 0 := by
  constructor
  · intro followed
    have := followed 1 rfl
    omega
  · intro zero most same
    cases same
    omega

theorem distance_zero_iff (r : Relation) : s.Distance root 0 r ↔ r = root := by
  constructor
  · intro distance
    cases distance.1
    rfl
  · intro same
    subst same
    exact ⟨.root, fun m _ => Nat.zero_le m⟩

theorem withinDepth_one_iff {e : Element} (shown : s.Shows e) :
    s.WithinDepth root (some 1) e ↔ e = .relation root ∨ ∃ m ∈ root.members, s.Brings m e := by
  have follow : Followed (some 1) 0 := (followed_one_iff 0).mpr rfl
  rw [withinDepth_iff follow shown]
  simp only [followed_one_iff, and_left_comm (b := _ = 0), exists_eq_left, distance_zero_iff]

def OneDown (s : Store) (root : Relation) (k : Key) : Prop :=
  k = (.relation, root.id) ∨ root.hasMember k = true ∨
    ∃ w, s.Shows (.way w) ∧ root.hasMember (.way, w.id) = true ∧ ∃ id ∈ w.nodes, k = (.node, id)

theorem contains_expansion (hs : s.WellFormed) (shown : s.Shows (.relation root)) :
    ∃ d, s.expand root.id (some 1) = .ok d ∧
      ∀ k, d.selection.contains k = true ↔ s.visibility k = .exists ∧ s.OneDown root k := by
  obtain ⟨d, expanded, holds⟩ := expand_holds hs shown (bounded_some (Int.le_refl 1))
  refine ⟨d, expanded, fun k => holds.contains_iff_visible hs ?_⟩
  intro e own held
  rw [withinDepth_one_iff held, exists_brings_iff held, ← own]
  have same : e = .relation root ↔ e.key = (.relation, root.id) :=
    ⟨fun same => by rw [same]; rfl, fun same => held.unique shown same⟩
  rw [OneDown, same]

theorem contains_wayWithNodes (hs : s.WellFormed) {w : Way} (shown : s.Shows (.way w)) :
    ∃ d, s.wayWithNodes w.id = .ok d ∧
      ∀ id, d.selection.contains (.node, id) = true ↔ s.visibility (.node, id) = .exists ∧ id ∈ w.nodes := by
  have found : s.getVisible (.way, w.id) = .ok (.way w) := shown.getVisible
  have completed : s.wayWithNodes w.id = .ok ((Draft.empty.add (.way w)).addNodesOf s w) := by
    unfold wayWithNodes
    rw [found]
    rfl
  have holds := Holds.addNodesOf hs (d := Draft.empty.add (.way w)) ((Holds.empty s).add shown) w
  refine ⟨_, completed, fun id => holds.contains_iff_visible hs ?_⟩
  intro e own _
  rw [own]
  constructor
  · rintro ((none | same) | ⟨other, listed, same⟩)
    · exact none.elim
    · rw [same] at own
      cases own
    · cases same
      exact listed
  · intro listed
    exact Or.inr ⟨id, listed, rfl⟩

/-- A shown relation selects a way or another relation exactly if that is visible and has it among
its parents. It selects a node exactly if the node is visible and has it, or a way that has it,
among its parents. -/
theorem parents_invert_expansion (hs : Reachable s) :
    (∀ r, s.Shows (.relation r) → ∃ d, s.expand r.id (some 1) = .ok d ∧
      (∀ id, d.selection.contains (.way, id) = true ↔
        s.visibility (.way, id) = .exists ∧ r ∈ s.relationsOver (.way, id)) ∧
      (∀ id, id ≠ r.id → (d.selection.contains (.relation, id) = true ↔
        s.visibility (.relation, id) = .exists ∧ r ∈ s.relationsOver (.relation, id))) ∧
      ∀ id, d.selection.contains (.node, id) = true ↔ s.visibility (.node, id) = .exists ∧
        (r ∈ s.relationsOver (.node, id) ∨ ∃ w ∈ s.waysOver id, r ∈ s.relationsOver (.way, w.id))) ∧
    ∀ w, s.Shows (.way w) → ∃ d, s.wayWithNodes w.id = .ok d ∧
      ∀ id, d.selection.contains (.node, id) = true ↔
        s.visibility (.node, id) = .exists ∧ w ∈ s.waysOver id := by
  have wf := hs.wellFormed
  constructor
  · intro r shown
    obtain ⟨d, expanded, contains⟩ := contains_expansion wf shown
    have parent (k : Key) : r ∈ s.relationsOver k ↔ r.hasMember k = true := by
      rw [mem_relationsOver_iff wf, and_iff_right shown]
    refine ⟨d, expanded, ?way, ?relation, ?node⟩
    case way =>
      intro id
      rw [contains, parent]
      simp [OneDown]
    case relation =>
      intro id other
      rw [contains, parent]
      simp [OneDown, other]
    case node =>
      intro id
      rw [contains]
      simp only [parent, mem_waysOver_iff wf]
      refine and_congr_right fun _ => ?_
      simp [OneDown, and_assoc, and_comm, and_left_comm]
  · intro w shown
    obtain ⟨d, completed, contains⟩ := contains_wayWithNodes wf shown
    refine ⟨d, completed, fun id => ?_⟩
    rw [contains, mem_waysOver_iff wf, and_iff_right shown]

private def pier : Node := .bare 1 1 (.zero false) (some 0)

private def landing (version : Int) (visible : Bool) : Node :=
  ⟨2, .bare version visible, none, .zero false, .zero false, some 0⟩

private def crossingLine : Way := ⟨1, .bare 1 true, none, [1, 2, 1]⟩

private def ferryLine : Relation :=
  ⟨1, .bare 1 true, none, [⟨.way, 1, ""⟩, ⟨.way, 1, "back"⟩, ⟨.node, 3, ""⟩]⟩

private def harbour : Store :=
  offered [.relation ferryLine, .way crossingLine, .node pier, .node (landing 1 true),
    .node (landing 2 false)]

theorem parents_invert_expansion_ferry : Reachable harbour ∧ ∃ d,
    harbour.expand 1 (some 1) = .ok d ∧ d.selection.contains (.node, 1) = true ∧
      d.selection.contains (.node, 2) = false := by
  have reachable : Reachable harbour := offered_reachable _
  have wf := reachable.wellFormed
  have shown : harbour.Shows (.relation ferryLine) := ⟨by decide, rfl⟩
  have line : harbour.Shows (.way crossingLine) := ⟨by decide, rfl⟩
  obtain ⟨d, expanded, _, _, nodes⟩ := (parents_invert_expansion reachable).1 ferryLine shown
  have onLine : crossingLine ∈ harbour.waysOver 1 := (mem_waysOver_iff wf 1 _).mpr ⟨line, by decide⟩
  have above : ferryLine ∈ harbour.relationsOver (.way, 1) :=
    (mem_relationsOver_iff wf (.way, 1) _).mpr ⟨shown, by decide⟩
  refine ⟨reachable, d, expanded, (nodes 1).mpr ⟨by decide, Or.inr ⟨_, onLine, above⟩⟩, ?_⟩
  have deleted : harbour.visibility (.node, 2) ≠ .exists := by decide
  exact Bool.eq_false_iff.mpr fun held => deleted ((nodes 2).mp held).1

end MapExtract.Store
