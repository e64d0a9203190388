import Mathlib.Data.List.Perm.Basic
import MapExtract.Proofs.AcceptedElements
import MapExtract.Proofs.ExpansionDistance
import MapExtract.Proofs.MapClosure

/-!
Two stores with the same histories and the same index give the same answers: what they list is
sorted, put into a selection, or only counted. So it does not matter how the histories of different
elements were interleaved.
-/

set_option autoImplicit false
namespace MapExtract
open Element (Kind Key)

theorem mergeSort_eq_of_perm {α : Type} (number : α → Int) {xs ys : List α} (h : xs.Perm ys)
    (distinct : (xs.map number).Nodup) :
    xs.mergeSort (fun a b => number a ≤ number b) = ys.mergeSort fun a b => number a ≤ number b := by
  have sorted (l : List α) : (l.mergeSort fun a b => number a ≤ number b).Pairwise
      fun a b => number a ≤ number b := by
    refine (List.pairwise_mergeSort ?_ ?_ l).imp fun le => of_decide_eq_true le
    · intro a b c hab hbc
      simp only [decide_eq_true_eq] at *
      omega
    · intro a b
      simp only [Bool.or_eq_true, decide_eq_true_eq]
      omega
  have perm : (xs.mergeSort fun a b => number a ≤ number b).Perm
      (ys.mergeSort fun a b => number a ≤ number b) :=
    ((List.mergeSort_perm xs _).trans h).trans (List.mergeSort_perm ys _).symm
  refine List.Perm.eq_of_pairwise ?_ (sorted xs) (sorted ys) perm
  intro a b ha hb hab hba
  have hb := h.symm.subset (List.mem_mergeSort.mp hb)
  exact List.inj_on_of_nodup_map distinct (List.mem_mergeSort.mp ha) hb (Int.le_antisymm hab hba)

theorem TileIndex.ext_tiles {x y : TileIndex} (hx : x.WellFormed) (hy : y.WellFormed)
    (same : ∀ id, x.tiles.get? id = y.tiles.get? id) : x = y := by
  have nodup {z : TileIndex} (hz : z.WellFormed) : z.slots.Nodup :=
    hz.ascending.imp fun before => ne_of_before before
  have perm : x.slots.Perm y.slots := by
    rw [List.perm_ext_iff_of_nodup (nodup hx) (nodup hy)]
    intro s
    rw [hx.indexed s.id s.tile, hy.indexed s.id s.tile, same]
  have slots : x.slots = y.slots := by
    refine List.Perm.eq_of_pairwise ?_ hx.ascending hy.ascending perm
    intro a b _ _ hab hba
    have loop := before_trans hab hba
    rw [before_irrefl] at loop
    cases loop
  have tiles : x.tiles = y.tiles := Table.ext_get? same
  cases x
  cases y
  cases slots
  cases tiles
  rfl

namespace Expansion

variable {s t : Store}

theorem addNodesOf_eq (found : s.find = t.find) : Draft.addNodesOf s = Draft.addNodesOf t := by
  have nodes : Draft.addNode s = Draft.addNode t := by
    funext d id
    unfold Draft.addNode
    rw [found]
  funext d w
  unfold Draft.addNodesOf
  rw [nodes]

theorem step?_eq (found : s.find = t.find) (maxDepth : Option Int) :
    step? s maxDepth = step? t maxDepth := by
  have members : addMember s maxDepth = addMember t maxDepth := by
    funext depth x m
    unfold addMember
    rw [found, addNodesOf_eq found]
  funext x
  unfold step?
  rw [members]

theorem run_eq (found : s.find = t.find) (maxDepth : Option Int) (x : Expansion) :
    run s maxDepth x = run t maxDepth x := by
  have steps := step?_eq found maxDepth
  induction x using run.induct s maxDepth with
  | case1 x last => rw [run_of_step?_eq_none last, run_of_step?_eq_none (steps ▸ last)]
  | case2 x y next ih =>
    calc run s maxDepth x
        = run s maxDepth y := run_of_step?_eq_some next
      _ = run t maxDepth y := ih
      _ = run t maxDepth x := (run_of_step?_eq_some (steps ▸ next)).symm

end Expansion

namespace Store

/-- Stores with the same histories and the same index, in whatever order the histories began. -/
structure Alike (s t : Store) : Prop where
  history : ∀ k, s.history k = t.history k
  index : s.index = t.index

variable {s t : Store}

namespace Alike

theorem current? (h : Alike s t) : s.current? = t.current? := by
  funext k
  exact congrArg List.getLast? (h.history k)

theorem find (h : Alike s t) : s.find = t.find := by
  funext k
  unfold Store.find
  rw [h.current?]

theorem shows (h : Alike s t) : s.Shows = t.Shows := by
  funext e
  unfold Shows
  rw [h.current?]

theorem getVisible (h : Alike s t) (k : Key) : s.getVisible k = t.getVisible k := by
  unfold Store.getVisible
  rw [h.current?]

theorem range (h : Alike s t) (low high : Int) : s.range low high = t.range low high := by
  unfold Store.range
  rw [h.current?, h.index]

theorem size (h : Alike s t) (hs : s.WellFormed) (ht : t.WellFormed) : s.size = t.size := by
  have keys : (s.histories.map (·.1)).Perm (t.histories.map (·.1)) := by
    rw [List.perm_ext_iff_of_nodup hs.distinct ht.distinct]
    intro k
    rw [mem_keys_iff hs, mem_keys_iff ht, h.history]
  unfold Store.size
  simpa only [List.length_map] using keys.length_eq

theorem current_perm (h : Alike s t) (hs : s.WellFormed) (ht : t.WellFormed) (kind : Kind) :
    (s.current kind).Perm (t.current kind) := by
  have nodup {u : Store} (hu : u.WellFormed) : (u.current kind).Nodup :=
    (current_distinct hu kind).imp fun apart same => apart (congrArg Element.key same)
  rw [List.perm_ext_iff_of_nodup (nodup hs) (nodup ht)]
  intro e
  rw [mem_current hs, mem_current ht, h.current?]

theorem expand (h : Alike s t) (id : Int) (maxDepth : Option Int) :
    s.expand id maxDepth = t.expand id maxDepth := by
  unfold Store.expand
  simp only [h.getVisible, Expansion.run_eq h.find]

theorem wayWithNodes (h : Alike s t) (id : Int) : s.wayWithNodes id = t.wayWithNodes id := by
  unfold Store.wayWithNodes
  rw [h.getVisible, Expansion.addNodesOf_eq h.find]

end Alike

theorem visibleWays_distinct (hs : s.WellFormed) : (s.visibleWays.map (·.id)).Nodup :=
  (filterMap_current_distinct hs Element.way?_eq_some Way.id fun _ => rfl).sublist
    (List.filter_sublist.map _)

theorem visibleRelations_distinct (hs : s.WellFormed) : (s.visibleRelations.map (·.id)).Nodup :=
  (filterMap_current_distinct hs Element.relation?_eq_some Relation.id fun _ => rfl).sublist
    (List.filter_sublist.map _)

namespace Alike

theorem waysOver (h : Alike s t) (hs : s.WellFormed) (ht : t.WellFormed) (node : Int) :
    s.waysOver node = t.waysOver node := by
  have ways := (((h.current_perm hs ht .way).filterMap Element.way?).filter (·.info.visible)).filter
    (·.nodes.contains node)
  exact mergeSort_eq_of_perm Way.id ways ((List.filter_sublist.map _).nodup (visibleWays_distinct hs))

theorem relationsOver (h : Alike s t) (hs : s.WellFormed) (ht : t.WellFormed) (member : Key) :
    s.relationsOver member = t.relationsOver member := by
  have relations := (((h.current_perm hs ht .relation).filterMap Element.relation?).filter
    (·.info.visible)).filter fun r => [member].any r.hasMember
  exact mergeSort_eq_of_perm Relation.id relations
    ((List.filter_sublist.map _).nodup (visibleRelations_distinct hs))

theorem onMap (h : Alike s t) (nodes : List Node) :
    s.OnMap nodes (fun r => s.RelationOver nodes r ∨ s.RelationAbove nodes r) =
      t.OnMap nodes fun r => t.RelationOver nodes r ∨ t.RelationAbove nodes r := by
  have shows := h.shows
  have ways : s.WayOver nodes = t.WayOver nodes := by
    funext w
    simp only [WayOver, shows]
  have near : s.NodeNear nodes = t.NodeNear nodes := by
    funext n
    simp only [NodeNear, shows, ways]
  have direct : s.RelationOver nodes = t.RelationOver nodes := by
    funext r
    simp only [RelationOver, shows, near, ways]
  have above : s.RelationAbove nodes = t.RelationAbove nodes := by
    funext r
    simp only [RelationAbove, shows, direct]
  funext e
  cases e <;> simp only [OnMap, near, ways, direct, above]

theorem holds_unique (h : Alike s t) {a b : Selection} {P : Element → Prop} (ha : s.Holds a P)
    (hb : t.Holds b P) : a = b := by
  apply ha.unique
  intro k e
  rw [hb k e, h.shows]

theorem nodesIn (h : Alike s t) (box : BoundingBox) : s.nodesIn box = t.nodesIn box := by
  unfold Store.nodesIn
  simp only [h.range]

theorem mapOf (h : Alike s t) (hs : s.WellFormed) (ht : t.WellFormed) (box : BoundingBox)
    (maxArea : Binary64) (maxNodes : Int) :
    (s.mapOf box maxArea maxNodes).map Draft.selection =
      (t.mapOf box maxArea maxNodes).map Draft.selection := by
  cases hv : box.validate (some maxArea) with
  | error cause =>
    unfold Store.mapOf
    rw [hv]
    simp only [bind, Except.bind]
  | ok _ =>
    cases hn : s.nodesIn box with
    | error cause =>
      have hn' : t.nodesIn box = .error cause := by rw [← h.nodesIn, hn]
      unfold Store.mapOf
      rw [hv, hn, hn']
      simp only [bind, Except.bind]
    | ok nodes =>
      have hn' : t.nodesIn box = .ok nodes := by rw [← h.nodesIn, hn]
      rw [mapOf_eq hv hn (nodesIn_distinct hs hn), mapOf_eq hv hn' (nodesIn_distinct ht hn')]
      split
      · rfl
      · split
        · rfl
        · have held := complete_holds hs (nodesIn_shows hs hn) (holds_boxNodes hs hn)
          have held' := complete_holds ht (nodesIn_shows ht hn') (holds_boxNodes ht hn')
          rw [← h.onMap] at held'
          exact congrArg Except.ok (h.holds_unique held held')

end Alike

/-- Two stores answer the same, up to the order in which current elements are listed. -/
structure SameAnswers (s t : Store) : Prop where
  get : ∀ k, s.get k = t.get k
  history : ∀ k, s.getHistory k = t.getHistory k
  version : ∀ k v, s.getVersion k v = t.getVersion k v
  visibility : ∀ k, s.visibility k = t.visibility k
  size : s.size = t.size
  range : ∀ low high, s.range low high = t.range low high
  current : ∀ kind, (s.current kind).Perm (t.current kind)
  expand : ∀ id maxDepth, s.expand id maxDepth = t.expand id maxDepth
  wayWithNodes : ∀ id, s.wayWithNodes id = t.wayWithNodes id
  mapOf : ∀ box maxArea maxNodes, (s.mapOf box maxArea maxNodes).map Draft.selection =
    (t.mapOf box maxArea maxNodes).map Draft.selection
  waysOver : ∀ node, s.waysOver node = t.waysOver node
  relationsOver : ∀ member, s.relationsOver member = t.relationsOver member

theorem Alike.sameAnswers (h : Alike s t) (hs : s.WellFormed) (ht : t.WellFormed) :
    SameAnswers s t where
  get k := by rw [Store.get, Store.get, h.current?]
  history k := by rw [Store.getHistory, Store.getHistory, h.history]
  version k v := by rw [Store.getVersion, Store.getVersion, h.history]
  visibility k := by rw [Store.visibility, Store.visibility, h.current?]
  size := h.size hs ht
  range := h.range
  current := h.current_perm hs ht
  expand := h.expand
  wayWithNodes := h.wayWithNodes
  mapOf := h.mapOf hs ht
  waysOver := h.waysOver hs ht
  relationsOver := h.relationsOver hs ht

/-- Under which tile a node is found follows from its history. -/
theorem Indexed.ext (hs : s.Indexed) (ht : t.Indexed) (same : s.current? = t.current?) (id : Int) :
    s.index.tiles.get? id = t.index.tiles.get? id := by
  apply Option.ext
  intro tile
  rw [hs id tile, ht id tile, same]

/-- Two lists of elements that are added without a refusal, and in which the elements of every key
come in the same order, lead to stores with the same answers. -/
theorem interleaving_immaterial {xs ys : List Element} (hx : ofList xs = .ok s)
    (hy : ofList ys = .ok t) (same : ∀ k, withKey k xs = withKey k ys) : SameAnswers s t := by
  have xsAccepted := accepts_of_foldlM hx
  have ysAccepted := accepts_of_foldlM hy
  have sReachable : Reachable s := xsAccepted.reached .empty fun _ _ => trivial
  have tReachable : Reachable t := ysAccepted.reached .empty fun _ _ => trivial
  have hs := sReachable.wellFormed
  have ht := tReachable.wellFormed
  have history : ∀ k, s.history k = t.history k := by
    intro k
    rw [xsAccepted.history, ysAccepted.history, same]
  have current : s.current? = t.current? := funext fun k => congrArg List.getLast? (history k)
  have tiles := (xsAccepted.indexed empty_indexed).ext (ysAccepted.indexed empty_indexed) current
  have alike : Alike s t := ⟨history, TileIndex.ext_tiles hs.index ht.index tiles⟩
  exact alike.sameAnswers hs ht

private def post (n : Int) (tile : Option Int) : Element :=
  .node (.bare 1 n (.zero false) tile)

private def fence (id : Int) : Element := .way ⟨id, .bare 1 true, none, [1]⟩

private def postFirst : List Element := [post 1 (some 7), fence 2, post 2 none, fence 1]

private def fencesFirst : List Element := [fence 1, fence 2, post 1 (some 7), post 2 none]

theorem interleaving_immaterial_fences : ofList postFirst = .ok (offered postFirst) ∧
    ofList fencesFirst = .ok (offered fencesFirst) ∧
    (offered postFirst).current .way ≠ (offered fencesFirst).current .way ∧
    (offered postFirst).waysOver 1 = (offered fencesFirst).waysOver 1 := by
  have ofPost : ofList postFirst = .ok (offered postFirst) := by decide +kernel
  have ofFences : ofList fencesFirst = .ok (offered fencesFirst) := by decide +kernel
  have same : ∀ k, withKey k postFirst = withKey k fencesFirst := by
    rintro ⟨kind, id⟩
    cases kind with
    | node => rfl
    | way =>
      by_cases one : 1 = id
      · subst one
        rfl
      · by_cases two : 2 = id
        · subst two
          rfl
        · simp [withKey, postFirst, fencesFirst, fence, post, Element.key, Element.kind, Element.id,
            one, two]
    | relation => rfl
  exact ⟨ofPost, ofFences, by decide +kernel,
    (interleaving_immaterial ofPost ofFences same).waysOver 1⟩

end Store
end MapExtract
