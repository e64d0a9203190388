import Mathlib.Data.List.Perm.Basic
import Mathlib.Data.List.Nodup
import MapExtract.Proofs.StoreStates
import MapExtract.Proofs.TileOrder
import MapExtract.Selection.MapQuery

set_option autoImplicit false
namespace MapExtract
open Element (Kind Key)

namespace Element

/-- A node that carries a tile carries the one of its coordinates, if these are numbers. -/
def Tiled : Element → Prop
  | .node n => ∀ tile, n.tile = some tile → n.latitude ≠ .nan → n.longitude ≠ .nan →
      ∃ t : Nat, n.place = .ok t ∧ tile = t
  | _ => True

theorem tiled_of_located {e placed : Element} (h : e.located = .ok placed) : placed.Tiled := by
  cases e with
  | node n =>
    simp only [located, Node.located] at h
    cases hp : n.place with
    | error _ =>
      rw [hp] at h
      cases h
    | ok t =>
      rw [hp] at h
      cases h
      intro tile ht _ _
      cases ht
      exact ⟨t, hp, rfl⟩
  | way _ =>
    cases h
    trivial
  | relation _ =>
    cases h
    trivial

end Element

theorem Node.indexTile_of_tiled {n : Node} (h : (Element.node n).Tiled) (hlat : n.latitude ≠ .nan)
    (hlon : n.longitude ≠ .nan) : ∃ t : Nat, n.place = .ok t ∧ n.indexTile = .ok (t : Int) := by
  cases hn : n.tile with
  | none =>
    obtain ⟨t, ht⟩ := Tile.ofPoint_isOk hlat hlon
    have hp : n.place = .ok t := ht
    refine ⟨t, hp, ?_⟩
    simp only [indexTile, hn, hp]
    rfl
  | some tile =>
    obtain ⟨t, hp, rfl⟩ := h tile hn hlat hlon
    refine ⟨t, hp, ?_⟩
    simp only [indexTile, hn]

namespace Store

/-- Every current node with a place is indexed under the tile of its coordinates. -/
def Placed (s : Store) : Prop :=
  ∀ n : Node, s.current? (.node, n.id) = some (.node n) → n.latitude ≠ .nan → n.longitude ≠ .nan →
    ∃ t : Nat, n.place = .ok t ∧ s.index.tiles.get? n.id = some (t : Int)

theorem append_placed {s : Store} (h : s.Placed) {e : Element} (he : e.Tiled) :
    (s.append e).1.Placed := by
  intro n hc hlat hlon
  rw [current_append] at hc
  rw [append_index, tiles_indexAfter]
  split at hc
  · rename_i own
    cases hc
    obtain ⟨t, hp, ht⟩ := Node.indexTile_of_tiled he hlat hlon
    rw [if_pos own, (Element.tile?_node_eq_some n t).mpr ht]
    exact ⟨t, hp, rfl⟩
  · rename_i other
    rw [if_neg other]
    exact h n hc hlat hlon

theorem Reached.placed {s : Store} (hs : Reached Element.Tiled s) : s.Placed := by
  refine hs.preserves (fun n hc => by cases hc) ?_
  intro s e h admitted
  have tiled : e.Tiled := by
    rcases admitted with tiled | ⟨original, located⟩
    · exact tiled
    · exact Element.tiled_of_located located
  exact add_preserves h fun _ => append_placed h tiled

def shownIn (box : BoundingBox) (n : Node) : Bool :=
  n.info.visible && box.contains n.latitude n.longitude

def scan (s : Store) (box : BoundingBox) : List Node :=
  ((s.current .node).filterMap Element.node?).filter (shownIn box)

theorem mem_scan {s : Store} (h : s.WellFormed) (box : BoundingBox) (n : Node) :
    n ∈ s.scan box ↔ s.current? (.node, n.id) = some (.node n) ∧ shownIn box n = true := by
  unfold scan
  rw [List.mem_filter, mem_filterMap_current h Element.node?_eq_some (fun _ => rfl)]
  rfl

theorem scan_distinct {s : Store} (h : s.WellFormed) (box : BoundingBox) :
    ((s.scan box).map (·.id)).Nodup :=
  (filterMap_current_distinct h Element.node?_eq_some Node.id fun _ => rfl).sublist
    (List.filter_sublist.map _)

theorem nodesIn_eq_ok {s : Store} {box : BoundingBox} {nodes : List Node}
    (hn : s.nodesIn box = .ok nodes) :
    ∃ low high : Nat, Tile.range box = .ok (low, high) ∧
      nodes = (s.range low high).filter (shownIn box) := by
  unfold nodesIn at hn
  cases hr : Tile.range box with
  | error _ =>
    rw [hr] at hn
    cases hn
  | ok corners =>
    rw [hr] at hn
    cases hn
    exact ⟨corners.1, corners.2, rfl, rfl⟩

theorem nodesIn_distinct {s : Store} (h : s.WellFormed) {box : BoundingBox} {nodes : List Node}
    (hn : s.nodesIn box = .ok nodes) : (nodes.map (·.id)).Nodup := by
  obtain ⟨low, high, _, rfl⟩ := nodesIn_eq_ok hn
  apply List.Nodup.sublist (List.filter_sublist.map _)
  rw [range_ids h]
  exact TileIndex.nodup_range h.index low high

/-- In a sound box the range of tiles loses none of the nodes that a scan finds, and adds none. -/
theorem nodesIn_perm_scan {s : Store} (h : s.WellFormed) (placed : s.Placed) {box : BoundingBox}
    (hb : box.flaw? = none) : ∃ nodes, s.nodesIn box = .ok nodes ∧ nodes.Perm (s.scan box) := by
  obtain ⟨low, high, hr, inside⟩ := BoundingBox.exists_range hb
  have found : s.nodesIn box = .ok ((s.range low high).filter (shownIn box)) := by
    unfold nodesIn
    rw [hr]
    rfl
  refine ⟨_, found, ?_⟩
  rw [List.perm_ext_iff_of_nodup (nodesIn_distinct h found).of_map (scan_distinct h box).of_map]
  intro n
  rw [List.mem_filter, mem_range h, mem_scan h]
  constructor
  · rintro ⟨⟨hc, _⟩, shown⟩
    exact ⟨hc, shown⟩
  · rintro ⟨hc, shown⟩
    have contained := (Bool.and_eq_true_iff.mp shown).2
    obtain ⟨t, ht, hl, hh⟩ := inside _ _ contained
    obtain ⟨south, _, west, _⟩ := BoundingBox.contains_iff.mp contained
    obtain ⟨t', hp, indexed⟩ := placed n hc (Binary64.ne_nan_of_le south).2 (Binary64.ne_nan_of_le west).2
    obtain rfl : t = t' := Except.ok.inj (ht.symm.trans hp)
    exact ⟨⟨hc, t, indexed, Int.ofNat_le.mpr hl, Int.ofNat_le.mpr hh⟩, shown⟩

theorem size_addAll_nodes (nodes : List Node) (sel : Selection)
    (distinct : (nodes.map (·.id)).Nodup) (fresh : ∀ n ∈ nodes, sel.nodes.get? n.id = none) :
    (sel.addAll (nodes.map .node)).nodes.size = sel.nodes.size + nodes.length := by
  induction nodes generalizing sel with
  | nil => rfl
  | cons n rest ih =>
    obtain ⟨new, distinct⟩ := List.nodup_cons.mp distinct
    have later : ∀ m ∈ rest, (sel.add (.node n)).nodes.get? m.id = none := by
      intro m hm
      have apart : m.id ≠ n.id := by
        intro same
        exact new (List.mem_map.mpr ⟨m, hm, same⟩)
      change (sel.nodes.insertNew n.id n).get? m.id = none
      rw [Table.get?_insertNew, if_neg apart]
      exact fresh m (List.mem_cons_of_mem _ hm)
    have one : (sel.add (.node n)).nodes.size = sel.nodes.size + 1 :=
      Table.size_insertNew _ (fresh n List.mem_cons_self) n
    change ((sel.add (.node n)).addAll (rest.map .node)).nodes.size = _
    rw [ih _ distinct later, one, List.length_cons]
    omega

theorem mapOf_eq {s : Store} {box : BoundingBox} {maxArea : Binary64} {nodes : List Node}
    (hv : box.validate (some maxArea) = .ok ()) (hn : s.nodesIn box = .ok nodes)
    (distinct : (nodes.map (·.id)).Nodup) (maxNodes : Int) :
    s.mapOf box maxArea maxNodes =
      if 0 < nodes.length ∧ maxNodes < nodes.length then .error (.tooManyNodes maxNodes)
      else
        let d := (Draft.empty.addAll (nodes.map .node)).note (.found box nodes.length)
        .ok (if nodes.length = 0 then d else s.complete d) := by
  have count : (Draft.empty.addAll (nodes.map .node)).selection.nodes.size = nodes.length := by
    have := size_addAll_nodes nodes .empty distinct (fun n _ => Table.get?_empty n.id)
    rw [show Selection.empty.nodes.size = 0 from rfl, Nat.zero_add] at this
    exact this
  unfold mapOf
  rw [hv, hn]
  simp only [bind, Except.bind, count]
  split <;> rfl

theorem mapOf_tooMany_iff {s : Store} {box : BoundingBox} {maxArea : Binary64} {nodes : List Node}
    (hv : box.validate (some maxArea) = .ok ()) (hn : s.nodesIn box = .ok nodes)
    (distinct : (nodes.map (·.id)).Nodup) {maxNodes : Int} (hm : 0 ≤ maxNodes) :
    s.mapOf box maxArea maxNodes = .error (.tooManyNodes maxNodes) ↔ maxNodes < nodes.length := by
  rw [mapOf_eq hv hn distinct]
  constructor
  · intro h
    split at h
    · rename_i many
      exact many.2
    · cases h
  · intro many
    rw [if_pos ⟨by omega, many⟩]

/-- In every store whose nodes were added with their own tiles or without one, the visible nodes
found in a sound box are those that a scan of all current nodes finds, each once. A map is refused
for its nodes exactly if the scan finds too many. -/
theorem box_nodes_exact {s : Store} (hs : Reached Element.Tiled s) {box : BoundingBox}
    {limit : Option Binary64} (hb : box.validate limit = .ok ()) :
    (∃ nodes, s.nodesIn box = .ok nodes ∧ nodes.Perm (s.scan box) ∧ (nodes.map (·.id)).Nodup) ∧
      ∀ (maxArea : Binary64) (maxNodes : Int), box.validate (some maxArea) = .ok () → 0 ≤ maxNodes →
        (s.mapOf box maxArea maxNodes = .error (.tooManyNodes maxNodes) ↔
          maxNodes < (s.scan box).length) := by
  have sound := BoundingBox.flaw_eq_none_of_validate hb
  obtain ⟨nodes, hn, perm⟩ := nodesIn_perm_scan hs.wellFormed hs.placed sound
  have distinct := nodesIn_distinct hs.wellFormed hn
  refine ⟨⟨nodes, hn, perm, distinct⟩, ?_⟩
  intro maxArea maxNodes hv hm
  rw [mapOf_tooMany_iff hv hn distinct hm, perm.length_eq]

private def onMeridian (id : Int) (latitude : Binary64) (tile : Option Int) : Element :=
  .node (.bare id 1 latitude tile)

private def nearOrigin : Store :=
  let tiled := empty.add (onMeridian 1 (.zero false) (some 3221225472))
  let lost := tiled.1.add (onMeridian 2 .nan none)
  (lost.1.load [onMeridian 3 (.zero true) none]).1

def aroundOrigin : BoundingBox := ⟨.ofInt (-1), .ofInt (-1), .ofInt 1, .ofInt 1⟩

theorem box_nodes_exact_near_origin : Reached Element.Tiled nearOrigin ∧
    aroundOrigin.validate (some (.ofInt 4)) = .ok () ∧
    nearOrigin.mapOf aroundOrigin (.ofInt 4) 1 = .error (.tooManyNodes 1) := by
  have tiled : (onMeridian 1 (.zero false) (some 3221225472)).Tiled := by
    intro tile h _ _
    cases h
    exact ⟨3221225472, by decide +kernel, rfl⟩
  have lost : (onMeridian 2 .nan none).Tiled := by
    intro tile h
    cases h
  have reached : Reached Element.Tiled nearOrigin := .load (.add (.add .empty tiled) lost)
  have valid : aroundOrigin.validate (some (.ofInt 4)) = .ok () := by decide +kernel
  have two : (1 : Int) < (nearOrigin.scan aroundOrigin).length := by decide +kernel
  exact ⟨reached, valid, ((box_nodes_exact reached valid).2 _ _ valid (by decide)).mpr two⟩

end Store
end MapExtract
