import MapExtract.Proofs.ExpansionDistance
import MapExtract.Proofs.MapClosure

set_option autoImplicit false
namespace MapExtract
open Element (Kind Key)

def Element.Kind.rank : Kind → Nat
  | .node => 0
  | .way => 1
  | .relation => 2

/-- Nodes come before ways and ways before relations, and those of one kind are ordered by number. -/
def Element.Before (a b : Element) : Prop :=
  a.kind.rank < b.kind.rank ∨ a.kind = b.kind ∧ a.id < b.id

theorem Element.Before.key_ne {a b : Element} (h : a.Before b) : a.key ≠ b.key := by
  intro same
  have kinds : a.kind = b.kind := congrArg Prod.fst same
  have ids : a.id = b.id := congrArg Prod.snd same
  rcases h with less | ⟨_, less⟩
  · rw [kinds] at less
    exact Nat.lt_irrefl _ less
  · omega

namespace Selection

variable {sel : Selection}

def Keyed (sel : Selection) : Prop := ∀ k e, sel.get? k = some e → e.key = k

theorem Keyed.group_ascending (keyed : sel.Keyed) {ν : Type} (t : Table Int ν) (kind : Kind)
    (wrap : ν → Element) (part : ∀ id, sel.get? (kind, id) = (t.get? id).map wrap) :
    (t.values.map wrap).Pairwise Element.Before := by
  have filed : ∀ entry ∈ t.entries, (wrap entry.2).key = (kind, entry.1) := by
    intro entry he
    apply keyed
    rw [part, (t.mem_entries_iff entry.1 entry.2).mp he]
    rfl
  rw [Table.values, List.map_map, List.pairwise_map]
  apply t.ascending.imp_of_mem
  intro a b ha hb less
  have first := filed a ha
  have second := filed b hb
  have kinds : (wrap a.2).kind = (wrap b.2).kind :=
    (congrArg Prod.fst first).trans (congrArg Prod.fst second).symm
  have ids : (wrap a.2).id < (wrap b.2).id := by
    calc
      (wrap a.2).id = a.1 := congrArg Prod.snd first
      _ < b.1 := Int.compare_eq_lt.mp less
      _ = (wrap b.2).id := (congrArg Prod.snd second).symm
  exact Or.inr ⟨kinds, ids⟩

theorem Keyed.ascending (keyed : sel.Keyed) : sel.toList.Pairwise Element.Before := by
  have nodes := keyed.group_ascending sel.nodes .node .node fun _ => rfl
  have ways := keyed.group_ascending sel.ways .way .way fun _ => rfl
  have relations := keyed.group_ascending sel.relations .relation .relation fun _ => rfl
  rw [toList, List.pairwise_append, List.pairwise_append]
  refine ⟨⟨nodes, ways, ?_⟩, relations, ?_⟩
  · simp only [List.forall_mem_map]
    intro n _ w _
    exact Or.inl (show 0 < 1 by decide)
  · rw [List.forall_mem_append]
    simp only [List.forall_mem_map]
    constructor
    · intro n _ r _
      exact Or.inl (show 0 < 2 by decide)
    · intro w _ r _
      exact Or.inl (show 1 < 2 by decide)

theorem Keyed.distinct (keyed : sel.Keyed) : (sel.toList.map Element.key).Nodup := by
  rw [List.Nodup, List.pairwise_map]
  exact keyed.ascending.imp Element.Before.key_ne

theorem Keyed.contains_iff (keyed : sel.Keyed) (k : Key) :
    sel.contains k = true ↔ k ∈ sel.toList.map Element.key := by
  rw [Selection.contains_iff, List.mem_map]
  simp only [mem_toList]
  constructor
  · intro ⟨e, found⟩
    exact ⟨e, ⟨k, found⟩, keyed k e found⟩
  · intro ⟨e, ⟨k', found⟩, own⟩
    rw [keyed k' e found] at own
    rw [← own]
    exact ⟨e, found⟩

end Selection

namespace Store

variable {s : Store} {sel : Selection} {P : Element → Prop}

/-- A property that comes to the shown nodes of every shown way that has it. -/
def ComesToNodes (s : Store) (P : Element → Prop) : Prop :=
  ∀ w, s.Shows (.way w) → P (.way w) → ∀ n, s.Shows (.node n) → n.id ∈ w.nodes → P (.node n)

/-- A selection in the order of its listing, without a key that is listed twice, of elements that
are shown, with all shown nodes of its ways. -/
structure Orderly (s : Store) (sel : Selection) : Prop where
  ascending : sel.toList.Pairwise Element.Before
  distinct : (sel.toList.map Element.key).Nodup
  size : sel.size = sel.toList.length
  contains : ∀ k, sel.contains k = true ↔ k ∈ sel.toList.map Element.key
  shown : ∀ e ∈ sel.toList, s.current? e.key = some e ∧ e.visible = true
  closed : ∀ w, .way w ∈ sel.toList → ∀ id ∈ w.nodes, ∀ e, s.current? (.node, id) = some e →
    e.visible = true → e ∈ sel.toList

theorem Holds.keyed (h : s.Holds sel P) : sel.Keyed := by
  intro k e found
  exact ((h k e).mp found).1

theorem Holds.orderly (hs : s.WellFormed) (h : s.Holds sel P) (comes : s.ComesToNodes P) :
    s.Orderly sel where
  ascending := h.keyed.ascending
  distinct := h.keyed.distinct
  size := sel.length_toList.symm
  contains := h.keyed.contains_iff
  shown := fun e he => ((h.mem_toList e).mp he).1
  closed := by
    intro w hw id listed e current visible
    obtain ⟨wayShown, hP⟩ := (h.mem_toList (.way w)).mp hw
    have own := key_of_current hs current
    cases e with
    | node n =>
      obtain rfl : n.id = id := congrArg Prod.snd own
      have shown : s.Shows (.node n) := ⟨current, visible⟩
      exact (h.mem_toList (.node n)).mpr ⟨shown, comes w wayShown hP n shown listed⟩
    | way _ => cases own
    | relation _ => cases own

theorem withinDepth_comesToNodes (root : Relation) (maxDepth : Option Int) :
    s.ComesToNodes (s.WithinDepth root maxDepth) := by
  intro w shown within n _ listed
  obtain ⟨p, k, distance, followed, has⟩ := within
  exact ⟨p, k, distance, followed, Or.inr ⟨w, shown, has, listed⟩⟩

theorem expand_orderly (hs : s.WellFormed) {id : Int} {maxDepth : Option Int} {d : Draft}
    (hd : s.expand id maxDepth = .ok d) : s.Orderly d.selection := by
  have deep : ∀ most, maxDepth = some most → 1 ≤ most := by
    intro most same
    subst same
    by_contra small
    rw [expand_of_small (by omega)] at hd
    cases hd
  rcases expand_cases hs deep id with ⟨_, failed⟩ | ⟨_, _, _, failed⟩ | ⟨root, d', _, _, done, holds⟩
  · cases failed.symm.trans hd
  · cases failed.symm.trans hd
  · cases done.symm.trans hd
    exact holds.orderly hs (withinDepth_comesToNodes root maxDepth)

theorem wayWithNodes_orderly (hs : s.WellFormed) {id : Int} {d : Draft}
    (hd : s.wayWithNodes id = .ok d) : s.Orderly d.selection := by
  unfold wayWithNodes at hd
  cases found : s.getVisible (.way, id) with
  | error _ =>
    rw [found] at hd
    cases hd
  | ok e =>
    obtain ⟨own, shown⟩ := getVisible_eq_ok hs found
    rw [found] at hd
    cases e with
    | node _ => cases own
    | relation _ => cases own
    | way w =>
      cases hd
      have holds := Holds.addNodesOf hs (d := Draft.empty.add (.way w)) ((Holds.empty s).add shown) w
      apply holds.orderly hs
      intro w' _ within n _ listed
      rcases within with (none | same) | ⟨_, _, key⟩
      · exact none.elim
      · cases same
        exact Or.inr ⟨n.id, listed, rfl⟩
      · cases key

theorem onMap_comesToNodes (nodes : List Node) (relations : Relation → Prop) :
    s.ComesToNodes (s.OnMap nodes relations) := by
  intro w _ crosses n shown listed
  exact Or.inr ⟨shown, w, crosses, listed⟩

theorem mapOf_orderly (hs : s.WellFormed) {box : BoundingBox} {maxArea : Binary64} {maxNodes : Int}
    {d : Draft} (hd : s.mapOf box maxArea maxNodes = .ok d) : s.Orderly d.selection := by
  obtain ⟨nodes, holds⟩ := mapOf_holds hs hd
  exact holds.orderly hs (onMap_comesToNodes nodes _)

/-- Every expansion, way and map of a reachable store that is not refused is in order. -/
theorem selections_orderly (hs : Reachable s) :
    (∀ id maxDepth d, s.expand id maxDepth = .ok d → s.Orderly d.selection) ∧
    (∀ id d, s.wayWithNodes id = .ok d → s.Orderly d.selection) ∧
    ∀ box maxArea maxNodes d, s.mapOf box maxArea maxNodes = .ok d → s.Orderly d.selection :=
  ⟨fun _ _ _ => expand_orderly hs.wellFormed, fun _ _ => wayWithNodes_orderly hs.wellFormed,
    fun _ _ _ _ => mapOf_orderly hs.wellFormed⟩

private def pontoon (version east : Int) : Node :=
  ⟨1, .bare version true, none, .zero false, .ofInt east, none⟩

private def lightship (version : Int) (visible : Bool) : Node :=
  ⟨2, .bare version visible, none, .zero false, .zero false, none⟩

private def fairway : Way := ⟨5, .bare 1 true, none, [2, 1, 9, 1]⟩

private def port : Relation := ⟨3, .bare 1 true, none, [⟨.way, 5, ""⟩, ⟨.node, 2, ""⟩, ⟨.way, 5, ""⟩]⟩

private def inlet : Store :=
  offered [.node (pontoon 1 0), .node (lightship 1 true), .way fairway, .relation port,
    .node (lightship 2 false), .node (pontoon 2 1)]

private theorem exists_draft {x : Except Error Draft} {es : List Element}
    (h : x.toOption.map (·.selection.toList) = some es) : ∃ d, x = .ok d ∧ d.selection.toList = es := by
  cases x with
  | error _ => cases h
  | ok d => exact ⟨d, rfl, Option.some.inj h⟩

theorem selections_orderly_inlet : Reachable inlet ∧
    (∃ d, inlet.expand port.id none = .ok d ∧ inlet.Orderly d.selection) ∧
    (∃ d, inlet.wayWithNodes fairway.id = .ok d ∧ inlet.Orderly d.selection ∧
      d.selection.toList = [.node (pontoon 2 1), .way fairway]) ∧
    ∃ d, inlet.mapOf aroundOrigin (.ofInt 4) 1 = .ok d ∧ inlet.Orderly d.selection ∧
      d.selection.toList = [.node (pontoon 2 1), .way fairway, .relation port] := by
  have reachable : Reachable inlet := offered_reachable _
  obtain ⟨expansions, ways, maps⟩ := selections_orderly reachable
  have shown : inlet.Shows (.relation port) := ⟨by decide +kernel, rfl⟩
  obtain ⟨wide, expanded, _⟩ := expand_holds reachable.wellFormed shown bounded_none
  have wayListed : (inlet.wayWithNodes fairway.id).toOption.map (·.selection.toList) =
      some [.node (pontoon 2 1), .way fairway] := by decide +kernel
  have mapListed : (inlet.mapOf aroundOrigin (.ofInt 4) 1).toOption.map (·.selection.toList) =
      some [.node (pontoon 2 1), .way fairway, .relation port] := by decide +kernel
  obtain ⟨way, completed, wayIs⟩ := exists_draft wayListed
  obtain ⟨map, drawn, mapIs⟩ := exists_draft mapListed
  exact ⟨reachable, ⟨wide, expanded, expansions port.id none wide expanded⟩,
    ⟨way, completed, ways fairway.id way completed, wayIs⟩,
    ⟨map, drawn, maps aroundOrigin (.ofInt 4) 1 map drawn, mapIs⟩⟩

end Store
end MapExtract
