import MapExtract.Proofs.ExpansionDistance
import MapExtract.Selection.MapQuery

set_option autoImplicit false
namespace MapExtract
open Element (Kind Key)

def Node.untiled (n : Node) : Node := { n with tile := none }

namespace Element

def untiled : Element → Element
  | .node n => .node n.untiled
  | e => e

@[simp] theorem version_untiled (e : Element) : e.untiled.version = e.version := by
  cases e <;> rfl

@[simp] theorem visible_untiled (e : Element) : e.untiled.visible = e.visible := by
  cases e <;> rfl

@[simp] theorem node?_untiled (e : Element) : e.untiled.node? = e.node?.map Node.untiled := by
  cases e <;> rfl

@[simp] theorem way?_untiled (e : Element) : e.untiled.way? = e.way? := by cases e <;> rfl

@[simp] theorem relation?_untiled (e : Element) : e.untiled.relation? = e.relation? := by
  cases e <;> rfl

end Element

namespace Table

variable {κ ν ν' : Type} [Ord κ]

def mapValues (f : ν → ν') (t : Table κ ν) : Table κ ν' :=
  ⟨t.entries.map fun e => (e.1, f e.2), List.pairwise_map.mpr t.ascending⟩

theorem get?_mapValues (f : ν → ν') (t : Table κ ν) (k : κ) :
    (t.mapValues f).get? k = (t.get? k).map f := by
  obtain ⟨entries, h⟩ := t
  change lookup k (entries.map fun e => (e.1, f e.2)) = (lookup k entries).map f
  clear h
  induction entries with
  | nil => rfl
  | cons e rest ih =>
    simp only [List.map_cons, lookup, ih]
    split <;> rfl

@[simp] theorem contains_mapValues (f : ν → ν') (t : Table κ ν) (k : κ) :
    (t.mapValues f).contains k = t.contains k := by
  rw [contains, get?_mapValues, Option.isSome_map, contains]

@[simp] theorem size_mapValues (f : ν → ν') (t : Table κ ν) : (t.mapValues f).size = t.size :=
  List.length_map ..

@[simp] theorem keys_mapValues (f : ν → ν') (t : Table κ ν) : (t.mapValues f).keys = t.keys :=
  List.map_map ..

theorem mapValues_insertNew [Std.TransOrd κ] [Std.LawfulEqOrd κ] [DecidableEq κ] (f : ν → ν')
    (t : Table κ ν) (k : κ) (v : ν) :
    (t.insertNew k v).mapValues f = (t.mapValues f).insertNew k (f v) := by
  apply ext_get?
  intro k'
  rw [get?_mapValues, get?_insertNew, get?_insertNew, get?_mapValues, get?_mapValues]
  split
  · cases t.get? k <;> rfl
  · rfl

end Table

namespace Selection

def untiled (s : Selection) : Selection := { s with nodes := s.nodes.mapValues Node.untiled }

theorem add_untiled (s : Selection) (e : Element) :
    s.untiled.add e.untiled = (s.add e).untiled := by
  cases e with
  | node n =>
    have nodes := s.nodes.mapValues_insertNew Node.untiled n.id n
    simp only [untiled, add, Element.untiled, nodes]
    rfl
  | way w => rfl
  | relation r => rfl

theorem addAll_untiled (s : Selection) (es : List Element) :
    s.untiled.addAll (es.map Element.untiled) = (s.addAll es).untiled := by
  unfold addAll
  rw [List.foldl_map]
  exact List.foldl_hom untiled fun s e => s.add_untiled e

end Selection

namespace Store

def untiled (s : Store) : Store :=
  { s with histories := s.histories.map fun p => (p.1, p.2.map Element.untiled) }

theorem historyIn_map (f : Element → Element) (k : Key) (hs : List (Key × History)) :
    historyIn k (hs.map fun p => (p.1, p.2.map f)) = (historyIn k hs).map f := by
  induction hs with
  | nil => rfl
  | cons head rest ih =>
    simp only [List.map_cons, historyIn, ih]
    split <;> rfl

variable (s : Store)

theorem history_untiled (k : Key) : s.untiled.history k = (s.history k).map Element.untiled :=
  historyIn_map Element.untiled k s.histories

theorem current?_untiled (k : Key) : s.untiled.current? k = (s.current? k).map Element.untiled := by
  unfold current?
  rw [history_untiled, List.getLast?_map]

theorem get_untiled (k : Key) : s.untiled.get k = (s.get k).map Element.untiled := by
  unfold get
  rw [current?_untiled]
  cases s.current? k <;> rfl

theorem getHistory_untiled (k : Key) :
    s.untiled.getHistory k = (s.getHistory k).map (List.map Element.untiled) := by
  unfold getHistory
  rw [history_untiled]
  cases s.history k <;> rfl

theorem getVersion_untiled (k : Key) (v : Int) :
    s.untiled.getVersion k v = (s.getVersion k v).map Element.untiled := by
  unfold getVersion
  simp only [history_untiled, List.find?_map, Function.comp_def, Element.version_untiled]
  cases (s.history k).find? fun e => e.version = v <;> rfl

theorem getVisible_untiled (k : Key) :
    s.untiled.getVisible k = (s.getVisible k).map Element.untiled := by
  unfold getVisible
  rw [current?_untiled]
  cases s.current? k with
  | none => rfl
  | some e =>
    simp only [Option.map_some, Element.visible_untiled]
    split <;> rfl

theorem find_untiled (k : Key) : s.untiled.find k = (s.find k).map Element.untiled := by
  unfold find
  rw [current?_untiled]
  cases s.current? k with
  | none => rfl
  | some e =>
    simp only [Option.map_some, Element.visible_untiled]
    split <;> rfl

theorem current_untiled (kind : Kind) :
    s.untiled.current kind = (s.current kind).map Element.untiled := by
  unfold current untiled
  simp only [List.filter_map, List.filterMap_map, List.map_filterMap, Function.comp_def,
    List.getLast?_map]

theorem range_untiled (low high : Int) :
    s.untiled.range low high = (s.range low high).map Node.untiled := by
  unfold range
  rw [List.map_filterMap]
  apply List.filterMap_congr
  intro id _
  rw [current?_untiled]
  cases s.current? (.node, id) <;> simp

theorem visibleWays_untiled : s.untiled.visibleWays = s.visibleWays := by
  unfold visibleWays
  simp only [current_untiled, List.filterMap_map, Function.comp_def, Element.way?_untiled]

theorem visibleRelations_untiled : s.untiled.visibleRelations = s.visibleRelations := by
  unfold visibleRelations
  simp only [current_untiled, List.filterMap_map, Function.comp_def, Element.relation?_untiled]

theorem relationsWith_untiled (members : List Key) :
    s.untiled.relationsWith members = s.relationsWith members := by
  unfold relationsWith
  rw [visibleRelations_untiled]

theorem waysOver_untiled (node : Int) : s.untiled.waysOver node = s.waysOver node := by
  unfold waysOver
  rw [visibleWays_untiled]

theorem relationsOver_untiled (member : Key) :
    s.untiled.relationsOver member = s.relationsOver member := by
  unfold relationsOver
  rw [relationsWith_untiled]

end Store

namespace Draft

def untiled (d : Draft) : Draft := { d with selection := d.selection.untiled }

theorem add_untiled (d : Draft) (e : Element) : d.untiled.add e.untiled = (d.add e).untiled := by
  simp only [untiled, add, Selection.add_untiled]

theorem addAll_untiled (d : Draft) (es : List Element) :
    d.untiled.addAll (es.map Element.untiled) = (d.addAll es).untiled := by
  simp only [untiled, addAll, Selection.addAll_untiled]

theorem addAll_of_untiled (d : Draft) {es : List Element} (h : ∀ e ∈ es, e.untiled = e) :
    d.untiled.addAll es = (d.addAll es).untiled := by
  rw [← addAll_untiled, List.map_congr_left h, List.map_id']

theorem addNode_untiled (d : Draft) (s : Store) (id : Int) :
    d.untiled.addNode s.untiled id = (d.addNode s id).untiled := by
  unfold addNode
  rw [Store.find_untiled]
  have contains : d.untiled.selection.nodes.contains id = d.selection.nodes.contains id :=
    Table.contains_mapValues ..
  rw [contains]
  split
  · rfl
  · cases s.find (.node, id) with
    | ok e => exact d.add_untiled e
    | error n => rfl

theorem addNodesOf_untiled (s : Store) (d : Draft) (w : Way) :
    d.untiled.addNodesOf s.untiled w = (d.addNodesOf s w).untiled :=
  List.foldl_hom untiled fun d id => d.addNode_untiled s id

end Draft

namespace Expansion

variable (s : Store) (maxDepth : Option Int)

def untiled (x : Expansion) : Expansion := { x with draft := x.draft.untiled }

theorem meet_untiled (depth : Nat) (x : Expansion) (r : Relation) :
    x.untiled.meet maxDepth depth r = (x.meet maxDepth depth r).untiled := by
  unfold meet
  by_cases seen : r.id ∈ x.seen
  · rw [if_pos (show r.id ∈ x.untiled.seen from seen), if_pos seen]
  · rw [if_neg (show r.id ∉ x.untiled.seen from seen), if_neg seen]
    split <;> rfl

theorem addMember_untiled (depth : Nat) (x : Expansion) (m : Member) :
    addMember s.untiled maxDepth depth x.untiled m = (addMember s maxDepth depth x m).untiled := by
  unfold addMember
  rw [Store.find_untiled]
  cases s.find (m.kind, m.id) with
  | error n => rfl
  | ok e =>
    have added := x.draft.add_untiled e
    cases e with
    | node n => exact congrArg (fun d : Draft => { x with draft := d }) added
    | way w =>
      have noded := (x.draft.add (.way w)).addNodesOf_untiled s w
      rw [← added] at noded
      exact congrArg (fun d : Draft => { x with draft := d }) noded
    | relation r =>
      have taken : { x.untiled with draft := x.untiled.draft.add (.relation r) } =
          untiled { x with draft := x.draft.add (.relation r) } :=
        congrArg (fun d : Draft => { x with draft := d }) added
      have met := meet_untiled maxDepth depth { x with draft := x.draft.add (.relation r) } r
      rw [← taken] at met
      exact met

theorem addMembers_untiled (depth : Nat) (x : Expansion) (ms : List Member) :
    ms.foldl (addMember s.untiled maxDepth depth) x.untiled =
      (ms.foldl (addMember s maxDepth depth) x).untiled :=
  List.foldl_hom untiled fun x m => addMember_untiled s maxDepth depth x m

theorem step?_untiled (x : Expansion) :
    step? s.untiled maxDepth x.untiled = (step? s maxDepth x).map untiled := by
  have waits : x.untiled.waiting = x.waiting := rfl
  unfold step?
  rw [waits]
  cases x.waiting with
  | nil => rfl
  | cons head rest =>
    obtain ⟨r, depth⟩ := head
    have taken : { x.untiled with draft := x.untiled.draft.add (.relation r), waiting := rest } =
        untiled { x with draft := x.draft.add (.relation r), waiting := rest } :=
      congrArg (fun d : Draft => { x with draft := d, waiting := rest })
        (x.draft.add_untiled (.relation r))
    simp only [Option.map_some, ← addMembers_untiled, ← taken]

theorem run_untiled (x : Expansion) :
    run s.untiled maxDepth x.untiled = (run s maxDepth x).untiled := by
  induction x using run.induct s maxDepth with
  | case1 x last =>
    have last' : step? s.untiled maxDepth x.untiled = none := by rw [step?_untiled, last]; rfl
    rw [run_of_step?_eq_none last, run_of_step?_eq_none last']
  | case2 x y next ih =>
    have next' : step? s.untiled maxDepth x.untiled = some y.untiled := by
      rw [step?_untiled, next]
      rfl
    rw [run_of_step?_eq_some next, run_of_step?_eq_some next', ih]

end Expansion

namespace Store

variable (s : Store)

theorem wayWithNodes_untiled (id : Int) :
    s.untiled.wayWithNodes id = (s.wayWithNodes id).map Draft.untiled := by
  unfold wayWithNodes
  rw [getVisible_untiled]
  cases s.getVisible (.way, id) with
  | error cause => rfl
  | ok e =>
    cases e with
    | node n => rfl
    | way w => exact congrArg Except.ok ((Draft.empty.add (.way w)).addNodesOf_untiled s w)
    | relation r => rfl

theorem expand_untiled (id : Int) (maxDepth : Option Int) :
    s.untiled.expand id maxDepth = (s.expand id maxDepth).map Draft.untiled := by
  by_cases deep : ∀ most, maxDepth = some most → 1 ≤ most
  · rw [expand_of_deep deep, expand_of_deep deep, getVisible_untiled]
    cases s.getVisible (.relation, id) with
    | error cause => rfl
    | ok e =>
      cases e with
      | node n => rfl
      | way w => rfl
      | relation root =>
        have run := Expansion.run_untiled s maxDepth
          (Expansion.start root (Draft.empty.note (.expanding id maxDepth)))
        exact congrArg (fun x : Expansion => Except.ok x.draft) run
  · push Not at deep
    obtain ⟨most, rfl, shallow⟩ := deep
    have small : most < 1 := by omega
    rw [expand_of_small small, expand_of_small small]
    rfl

theorem nodesIn_untiled (box : BoundingBox) :
    s.untiled.nodesIn box = (s.nodesIn box).map (List.map Node.untiled) := by
  unfold nodesIn
  cases Tile.range box with
  | error cause => rfl
  | ok ends =>
    obtain ⟨low, high⟩ := ends
    change Except.ok _ = Except.ok _
    rw [range_untiled, List.filter_map]
    rfl

theorem addNodesOfWays_untiled (d : Draft) (ways : List Way) :
    ways.foldl (Draft.addNodesOf s.untiled) d.untiled =
      (ways.foldl (Draft.addNodesOf s) d).untiled :=
  List.foldl_hom Draft.untiled fun d w => d.addNodesOf_untiled s w

theorem complete_untiled (d : Draft) :
    s.untiled.complete d.untiled = (s.complete d).untiled := by
  have ways (d : Draft) (ws : List Way) :
      d.untiled.addAll (ws.map .way) = (d.addAll (ws.map .way)).untiled := by
    refine d.addAll_of_untiled fun e he => ?_
    obtain ⟨w, _, rfl⟩ := List.mem_map.mp he
    rfl
  have relations (d : Draft) (rs : List Relation) :
      d.untiled.addAll (rs.map .relation) = (d.addAll (rs.map .relation)).untiled := by
    refine d.addAll_of_untiled fun e he => ?_
    obtain ⟨r, _, rfl⟩ := List.mem_map.mp he
    rfl
  have contains (d : Draft) (id : Int) :
      d.untiled.selection.nodes.contains id = d.selection.nodes.contains id :=
    Table.contains_mapValues ..
  have nodeKeys (d : Draft) : d.untiled.selection.nodes.keys = d.selection.nodes.keys :=
    Table.keys_mapValues ..
  have wayKeys (d : Draft) : d.untiled.selection.ways.keys = d.selection.ways.keys := rfl
  have relationKeys (d : Draft) :
      d.untiled.selection.relations.keys = d.selection.relations.keys := rfl
  unfold complete
  simp only [visibleWays_untiled, relationsWith_untiled, contains, ways, addNodesOfWays_untiled,
    nodeKeys, wayKeys, relations, relationKeys]

theorem mapOf_untiled (box : BoundingBox) (maxArea : Binary64) (maxNodes : Int) :
    s.untiled.mapOf box maxArea maxNodes = (s.mapOf box maxArea maxNodes).map Draft.untiled := by
  unfold mapOf
  rw [nodesIn_untiled]
  cases box.validate (some maxArea) with
  | error cause => rfl
  | ok _ =>
    cases s.nodesIn box with
    | error cause => rfl
    | ok nodes =>
      have begun : Draft.empty.addAll ((nodes.map Node.untiled).map .node) =
          (Draft.empty.addAll (nodes.map .node)).untiled := by
        have := Draft.empty.addAll_untiled (nodes.map .node)
        rw [List.map_map] at this
        rw [List.map_map]
        exact this
      have count : (Draft.empty.addAll ((nodes.map Node.untiled).map .node)).selection.nodes.size =
          (Draft.empty.addAll (nodes.map .node)).selection.nodes.size := by
        rw [begun]
        exact Table.size_mapValues ..
      simp only [Except.map, bind, Except.bind, count]
      split
      · rfl
      · change Except.ok _ = Except.ok _
        rw [begun]
        split
        · rfl
        · exact congrArg Except.ok (s.complete_untiled ((Draft.empty.addAll (nodes.map .node)).note _))

end Store
end MapExtract
