import MapExtract.Proofs.BoxNodes
import MapExtract.Proofs.SelectionContents

set_option autoImplicit false
namespace MapExtract.Store
open Element (Kind Key)

def WayOver (s : Store) (nodes : List Node) (w : Way) : Prop :=
  s.Shows (.way w) ∧ ∃ n ∈ nodes, n.id ∈ w.nodes

def NodeNear (s : Store) (nodes : List Node) (n : Node) : Prop :=
  n ∈ nodes ∨ s.Shows (.node n) ∧ ∃ w, s.WayOver nodes w ∧ n.id ∈ w.nodes

def RelationOver (s : Store) (nodes : List Node) (r : Relation) : Prop :=
  s.Shows (.relation r) ∧ ((∃ n, s.NodeNear nodes n ∧ r.hasMember (.node, n.id) = true) ∨
    ∃ w, s.WayOver nodes w ∧ r.hasMember (.way, w.id) = true)

def RelationAbove (s : Store) (nodes : List Node) (r : Relation) : Prop :=
  s.Shows (.relation r) ∧ ∃ p, s.RelationOver nodes p ∧ r.hasMember (.relation, p.id) = true

/-- The nodes and ways of a map, with some relations. -/
def OnMap (s : Store) (nodes : List Node) (relations : Relation → Prop) : Element → Prop
  | .node n => s.NodeNear nodes n
  | .way w => s.WayOver nodes w
  | .relation r => relations r

variable {s : Store} {nodes : List Node} {sel : Selection}

theorem NodeNear.shows (shown : ∀ n ∈ nodes, s.Shows (.node n)) {n : Node}
    (h : s.NodeNear nodes n) : s.Shows (.node n) := by
  rcases h with h | ⟨h, _⟩
  · exact shown n h
  · exact h

theorem mem_waysOver (hs : s.WellFormed) (shown : ∀ n ∈ nodes, s.Shows (.node n))
    (h : s.Holds sel (· ∈ nodes.map Element.node)) (w : Way) :
    w ∈ s.visibleWays.filter (fun w => w.nodes.any fun id => sel.nodes.contains id) ↔
      s.WayOver nodes w := by
  rw [List.mem_filter, mem_visibleWays hs, List.any_eq_true]
  refine and_congr_right fun _ => ?_
  constructor
  · rintro ⟨id, hid, held⟩
    rw [Table.contains_iff_mem_keys, h.mem_keys .node Element.node (fun _ => rfl) (fun _ => rfl)] at held
    obtain ⟨n, _, hn, rfl⟩ := held
    obtain ⟨m, hm, same⟩ := List.mem_map.mp hn
    cases same
    exact ⟨n, hm, hid⟩
  · rintro ⟨n, hn, hid⟩
    refine ⟨n.id, hid, ?_⟩
    rw [Table.contains_iff_mem_keys, h.mem_keys .node Element.node (fun _ => rfl) (fun _ => rfl)]
    exact ⟨n, shown n hn, List.mem_map_of_mem hn, rfl⟩

theorem holds_ways (hs : s.WellFormed) {d : Draft}
    (h : s.Holds d.selection (· ∈ nodes.map Element.node)) {ways : List Way}
    (mem_ways : ∀ w, w ∈ ways ↔ s.WayOver nodes w) :
    s.Holds (ways.foldl (Draft.addNodesOf s) (d.addAll (ways.map .way))).selection
      (s.OnMap nodes fun _ => False) := by
  have shown : ∀ e ∈ ways.map Element.way, s.Shows e :=
    List.forall_mem_map.mpr fun w hw => ((mem_ways w).mp hw).1
  have added : s.Holds (d.addAll (ways.map .way)).selection
      fun x => x ∈ nodes.map Element.node ∨ x ∈ ways.map Element.way := h.addAll shown
  refine (added.addNodesOfAll hs ways).congr fun x hx => ?_
  cases x with
  | node n =>
    simp only [OnMap, NodeNear, List.mem_map, Element.node.injEq, exists_eq_right, reduceCtorEq,
      and_false, exists_false, or_false]
    refine or_congr_right ⟨?_, ?_⟩
    · rintro ⟨w, hw, id, hid, same⟩
      cases same
      exact ⟨hx, w, (mem_ways w).mp hw, hid⟩
    · rintro ⟨_, w, hw, hid⟩
      exact ⟨w, (mem_ways w).mpr hw, n.id, hid, rfl⟩
  | way w =>
    simp only [OnMap, List.mem_map, Element.way.injEq, exists_eq_right, reduceCtorEq, and_false,
      exists_false, false_or, ← mem_ways w, or_iff_left_iff_imp]
    rintro ⟨_, _, _, _, same⟩
    cases same
  | relation r =>
    simp only [OnMap, List.mem_map, reduceCtorEq, and_false, exists_false, false_or, iff_false]
    rintro ⟨_, _, _, _, same⟩
    cases same

theorem mem_relationsOver (hs : s.WellFormed) (shown : ∀ n ∈ nodes, s.Shows (.node n))
    {R : Relation → Prop} (h : s.Holds sel (s.OnMap nodes R)) (r : Relation) :
    r ∈ s.relationsWith (sel.nodes.keys.map (Kind.node, ·) ++ sel.ways.keys.map (Kind.way, ·)) ↔
      s.RelationOver nodes r := by
  rw [mem_relationsWith hs]
  refine and_congr_right fun _ => ?_
  simp only [List.mem_append, or_and_right, exists_or]
  rw [h.exists_key .node Element.node (fun _ => rfl) (fun _ => rfl),
    h.exists_key .way Element.way (fun _ => rfl) (fun _ => rfl)]
  refine or_congr ⟨?_, ?_⟩ ⟨?_, ?_⟩
  · rintro ⟨n, _, near, has⟩
    exact ⟨n, near, has⟩
  · rintro ⟨n, near, has⟩
    exact ⟨n, near.shows shown, near, has⟩
  · rintro ⟨w, _, near, has⟩
    exact ⟨w, near, has⟩
  · rintro ⟨w, near, has⟩
    exact ⟨w, near.1, near, has⟩

theorem mem_relationsAbove (hs : s.WellFormed) (h : s.Holds sel (s.OnMap nodes (s.RelationOver nodes)))
    (r : Relation) :
    r ∈ s.relationsWith (sel.relations.keys.map (Kind.relation, ·)) ↔ s.RelationAbove nodes r := by
  rw [mem_relationsWith hs,
    h.exists_key .relation Element.relation (fun _ => rfl) (fun _ => rfl)]
  refine and_congr_right fun _ => ⟨?_, ?_⟩
  · rintro ⟨p, _, below, has⟩
    exact ⟨p, below, has⟩
  · rintro ⟨p, below, has⟩
    exact ⟨p, below.1, below, has⟩

theorem holds_relations {R R' : Relation → Prop} (h : s.Holds sel (s.OnMap nodes R))
    {relations : List Relation} (mem : ∀ r, r ∈ relations ↔ R' r)
    (shown : ∀ r, R' r → s.Shows (.relation r)) :
    s.Holds (sel.addAll (relations.map .relation)) (s.OnMap nodes fun r => R r ∨ R' r) := by
  have all : ∀ e ∈ relations.map Element.relation, s.Shows e :=
    List.forall_mem_map.mpr fun r hr => shown r ((mem r).mp hr)
  refine (h.addAll all).congr fun x _ => ?_
  cases x with
  | node n => simp [OnMap]
  | way w => simp [OnMap]
  | relation r => simp [OnMap, mem]

theorem complete_holds (hs : s.WellFormed) (shown : ∀ n ∈ nodes, s.Shows (.node n)) {d : Draft}
    (h : s.Holds d.selection (· ∈ nodes.map Element.node)) :
    s.Holds (s.complete d).selection
      (s.OnMap nodes fun r => s.RelationOver nodes r ∨ s.RelationAbove nodes r) := by
  have ways := holds_ways hs h (mem_waysOver hs shown h)
  have withOver := holds_relations ways (mem_relationsOver hs shown ways) fun _ hr => hr.1
  simp only [false_or] at withOver
  exact holds_relations withOver (mem_relationsAbove hs withOver) fun _ hr => hr.1

theorem nodesIn_shows (hs : s.WellFormed) {box : BoundingBox} (hn : s.nodesIn box = .ok nodes) :
    ∀ n ∈ nodes, s.Shows (.node n) := by
  obtain ⟨low, high, _, rfl⟩ := nodesIn_eq_ok hn
  intro n hm
  obtain ⟨found, inside⟩ := List.mem_filter.mp hm
  exact ⟨((mem_range hs low high n).mp found).1, (Bool.and_eq_true_iff.mp inside).1⟩

theorem holds_boxNodes (hs : s.WellFormed) {box : BoundingBox} (hn : s.nodesIn box = .ok nodes) :
    s.Holds ((Draft.empty.addAll (nodes.map .node)).note (.found box nodes.length)).selection
      (· ∈ nodes.map Element.node) := by
  have shown : ∀ e ∈ nodes.map Element.node, s.Shows e :=
    List.forall_mem_map.mpr (nodesIn_shows hs hn)
  exact ((Holds.empty s).addAll shown).congr fun e _ => by rw [false_or]

theorem mapOf_eq_ok {box : BoundingBox} {maxArea : Binary64} {maxNodes : Int} {d : Draft}
    (hd : s.mapOf box maxArea maxNodes = .ok d) :
    box.validate (some maxArea) = .ok () ∧ ∃ nodes, s.nodesIn box = .ok nodes := by
  unfold mapOf at hd
  cases hv : box.validate (some maxArea) with
  | error _ =>
    rw [hv] at hd
    cases hd
  | ok _ =>
    cases hn : s.nodesIn box with
    | error _ =>
      rw [hv, hn] at hd
      cases hd
    | ok nodes => exact ⟨rfl, nodes, rfl⟩

theorem not_onMap_nil (e : Element) :
    ¬s.OnMap [] (fun r => s.RelationOver [] r ∨ s.RelationAbove [] r) e := by
  have ways : ∀ w, ¬s.WayOver [] w := by
    intro w ⟨_, n, hn, _⟩
    cases hn
  have near : ∀ n, ¬s.NodeNear [] n := by
    intro n
    rintro (hn | ⟨_, w, met, _⟩)
    · cases hn
    · exact ways w met
  have relations : ∀ r, ¬s.RelationOver [] r := by
    rintro r ⟨_, ⟨n, hn, _⟩ | ⟨w, hw, _⟩⟩
    · exact near n hn
    · exact ways w hw
  cases e with
  | node n => exact near n
  | way w => exact ways w
  | relation r =>
    rintro (met | ⟨_, p, met, _⟩)
    · exact relations r met
    · exact relations p met

theorem mapOf_holds (hs : s.WellFormed) {box : BoundingBox} {maxArea : Binary64} {maxNodes : Int}
    {d : Draft} (hd : s.mapOf box maxArea maxNodes = .ok d) :
    ∃ nodes, s.Holds d.selection
      (s.OnMap nodes fun r => s.RelationOver nodes r ∨ s.RelationAbove nodes r) := by
  obtain ⟨valid, nodes, hn⟩ := mapOf_eq_ok hd
  refine ⟨nodes, ?_⟩
  rw [mapOf_eq valid hn (nodesIn_distinct hs hn)] at hd
  split at hd
  · cases hd
  cases hd
  have start := holds_boxNodes hs hn
  cases nodes with
  | nil => exact start.congr fun e _ => iff_of_false (List.not_mem_nil) (not_onMap_nil e)
  | cons n rest => exact complete_holds hs (nodesIn_shows hs hn) start

/-- The map of a box without nodes is empty. Any other map holds the nodes of the box and the ways
over them, all shown nodes of these ways, the shown relations over any of these, and the shown
relations over those, and nothing else. -/
theorem map_closure_exact (hs : Reachable s) {box : BoundingBox} {maxArea : Binary64}
    {maxNodes : Int} {d : Draft} (hd : s.mapOf box maxArea maxNodes = .ok d) :
    ∃ nodes, s.nodesIn box = .ok nodes ∧ (nodes = [] → d.selection = .empty) ∧
      (nodes ≠ [] → ∀ e, e ∈ d.selection.toList ↔
        s.OnMap nodes (fun r => s.RelationOver nodes r ∨ s.RelationAbove nodes r) e) ∧
      ∀ e ∈ d.selection.toList, s.Shows e := by
  obtain ⟨valid, nodes, hn⟩ := mapOf_eq_ok hd
  have shown := nodesIn_shows hs.wellFormed hn
  rw [mapOf_eq valid hn (nodesIn_distinct hs.wellFormed hn)] at hd
  split at hd
  · cases hd
  have start := holds_boxNodes hs.wellFormed hn
  refine ⟨nodes, hn, ?_⟩
  by_cases none : nodes = []
  · subst none
    cases hd
    refine ⟨fun _ => rfl, fun some => absurd rfl some, ?_⟩
    intro e he
    exact (((Holds.empty s).mem_toList e).mp he).1
  · have many : nodes.length ≠ 0 := fun zero => none (List.length_eq_zero_iff.mp zero)
    simp only [if_neg many] at hd
    cases hd
    have complete := complete_holds hs.wellFormed shown start
    refine ⟨fun empty => absurd empty none, fun _ e => ?_, fun e he => ((complete.mem_toList e).mp he).1⟩
    rw [complete.mem_toList]
    refine and_iff_right_of_imp ?_
    intro on
    cases e with
    | node n => exact NodeNear.shows shown on
    | way w => exact on.1
    | relation r => exact on.elim (·.1) (·.1)

private def crossing : Node := .bare 1 1 (.zero false) none

private def farEnd : Node := .bare 2 1 (.ofInt 50) none

private def road : Way := ⟨1, .bare 1 true, none, [1, 2]⟩

private def route : Relation := ⟨1, .bare 1 true, none, [⟨.node, 2, "stop"⟩]⟩

private def network : Relation := ⟨2, .bare 1 true, none, [⟨.relation, 1, ""⟩, ⟨.relation, 2, ""⟩]⟩

private def roadMap : Store :=
  offered [.node crossing, .node farEnd, .way road, .relation route, .relation network]

theorem map_closure_exact_network : Reachable roadMap ∧ ∃ d,
    roadMap.mapOf aroundOrigin (.ofInt 4) 1 = .ok d ∧ .relation network ∈ d.selection.toList := by
  have reachable : Reachable roadMap := offered_reachable _
  refine ⟨reachable, ?_⟩
  cases hd : roadMap.mapOf aroundOrigin (.ofInt 4) 1 with
  | error _ =>
    have drawn : (roadMap.mapOf aroundOrigin (.ofInt 4) 1).isOk = true := by decide +kernel
    rw [hd] at drawn
    cases drawn
  | ok d =>
    obtain ⟨nodes, hn, _, listed, _⟩ := map_closure_exact reachable hd
    have only : roadMap.nodesIn aroundOrigin = .ok [crossing] := by decide +kernel
    cases hn.symm.trans only
    have near : roadMap.NodeNear [crossing] farEnd :=
      Or.inr ⟨⟨by decide +kernel, rfl⟩, road, ⟨⟨by decide +kernel, rfl⟩, crossing, by decide⟩, by decide⟩
    have lies : roadMap.RelationOver [crossing] route :=
      ⟨⟨by decide +kernel, rfl⟩, Or.inl ⟨farEnd, near, by decide⟩⟩
    have above : roadMap.RelationAbove [crossing] network :=
      ⟨⟨by decide +kernel, rfl⟩, route, lies, by decide⟩
    exact ⟨d, rfl, (listed (by simp) _).mpr (Or.inr above)⟩

end MapExtract.Store
