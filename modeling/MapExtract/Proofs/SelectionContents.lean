import MapExtract.Proofs.StoreStates
import MapExtract.Selection.Expansion
import MapExtract.Selection.MapQuery

set_option autoImplicit false
namespace MapExtract
open Element (Kind Key)

namespace Table

variable {κ ν : Type} [Ord κ]

theorem mem_keys [Std.LawfulEqOrd κ] (t : Table κ ν) (k : κ) : k ∈ t.keys ↔ ∃ v, t.get? k = some v := by
  unfold keys
  rw [List.mem_map]
  constructor
  · rintro ⟨⟨a, v⟩, he, rfl⟩
    exact ⟨v, (t.mem_entries_iff a v).mp he⟩
  · rintro ⟨v, hv⟩
    exact ⟨(k, v), (t.mem_entries_iff k v).mpr hv, rfl⟩

theorem mem_values [Std.LawfulEqOrd κ] (t : Table κ ν) (v : ν) :
    v ∈ t.values ↔ ∃ k, t.get? k = some v := by
  unfold values
  rw [List.mem_map]
  constructor
  · rintro ⟨⟨k, a⟩, he, rfl⟩
    exact ⟨k, (t.mem_entries_iff k a).mp he⟩
  · rintro ⟨k, hk⟩
    exact ⟨(k, v), (t.mem_entries_iff k v).mpr hk, rfl⟩

theorem contains_iff_mem_keys [Std.LawfulEqOrd κ] (t : Table κ ν) (k : κ) :
    t.contains k = true ↔ k ∈ t.keys := by
  rw [mem_keys, contains, Option.isSome_iff_exists]

theorem map_get?_insertNew [Std.TransOrd κ] [Std.LawfulEqOrd κ] [DecidableEq κ] {α : Type}
    (f : ν → α) (t : Table κ ν) (a k : κ) (v : ν) :
    ((t.insertNew a v).get? k).map f =
      if k = a then some (((t.get? k).map f).getD (f v)) else (t.get? k).map f := by
  rw [get?_insertNew]
  by_cases same : k = a
  · rw [if_pos same, if_pos same, same]
    cases t.get? a <;> rfl
  · rw [if_neg same, if_neg same]

end Table

namespace Selection

def get? (sel : Selection) : Key → Option Element
  | (.node, id) => (sel.nodes.get? id).map .node
  | (.way, id) => (sel.ways.get? id).map .way
  | (.relation, id) => (sel.relations.get? id).map .relation

theorem get?_empty (k : Key) : empty.get? k = none := by
  obtain ⟨kind, id⟩ := k
  cases kind <;> rfl

theorem get?_add (sel : Selection) (e : Element) (k : Key) :
    (sel.add e).get? k = if k = e.key then some ((sel.get? k).getD e) else sel.get? k := by
  obtain ⟨kind, id⟩ := k
  cases e with
  | node n =>
    cases kind with
    | node => simp [add, get?, Table.map_get?_insertNew, Element.key, Element.kind, Element.id]
    | way => rfl
    | relation => rfl
  | way w =>
    cases kind with
    | node => rfl
    | way => simp [add, get?, Table.map_get?_insertNew, Element.key, Element.kind, Element.id]
    | relation => rfl
  | relation r =>
    cases kind with
    | node => rfl
    | way => rfl
    | relation => simp [add, get?, Table.map_get?_insertNew, Element.key, Element.kind, Element.id]

theorem mem_toList (sel : Selection) (e : Element) : e ∈ sel.toList ↔ ∃ k, sel.get? k = some e := by
  have split : (∃ k, sel.get? k = some e) ↔ (∃ id, sel.get? (.node, id) = some e) ∨
      (∃ id, sel.get? (.way, id) = some e) ∨ ∃ id, sel.get? (.relation, id) = some e := by
    constructor
    · rintro ⟨⟨kind, id⟩, h⟩
      cases kind with
      | node => exact Or.inl ⟨id, h⟩
      | way => exact Or.inr (Or.inl ⟨id, h⟩)
      | relation => exact Or.inr (Or.inr ⟨id, h⟩)
    · rintro (⟨id, h⟩ | ⟨id, h⟩ | ⟨id, h⟩) <;> exact ⟨_, h⟩
  have listed {ν : Type} (t : Table Int ν) (f : ν → Element) :
      e ∈ t.values.map f ↔ ∃ id, (t.get? id).map f = some e := by
    simp only [List.mem_map, Table.mem_values, Option.map_eq_some_iff]
    constructor
    · rintro ⟨v, ⟨id, h⟩, rfl⟩
      exact ⟨id, v, h, rfl⟩
    · rintro ⟨id, v, h, rfl⟩
      exact ⟨v, ⟨id, h⟩, rfl⟩
  rw [split, toList, List.mem_append, List.mem_append, listed, listed, listed, or_assoc]
  rfl

theorem ext_get? {a b : Selection} (h : ∀ k, a.get? k = b.get? k) : a = b := by
  have nodes : a.nodes = b.nodes := Table.ext_get? fun id =>
    Option.map_injective (fun _ _ => Element.node.inj) (h (.node, id))
  have ways : a.ways = b.ways := Table.ext_get? fun id =>
    Option.map_injective (fun _ _ => Element.way.inj) (h (.way, id))
  have relations : a.relations = b.relations := Table.ext_get? fun id =>
    Option.map_injective (fun _ _ => Element.relation.inj) (h (.relation, id))
  cases a
  cases b
  cases nodes
  cases ways
  cases relations
  rfl

theorem contains_iff (sel : Selection) (k : Key) :
    sel.contains k = true ↔ ∃ e, sel.get? k = some e := by
  obtain ⟨kind, id⟩ := k
  cases kind <;> simp [contains, get?, Table.contains, Option.isSome_iff_exists]

end Selection

namespace Store

/-- An element is shown if it is visible and the current version of its key. -/
def Shows (s : Store) (e : Element) : Prop := s.current? e.key = some e ∧ e.visible = true

theorem Shows.unique {s : Store} {a b : Element} (ha : s.Shows a) (hb : s.Shows b)
    (same : a.key = b.key) : a = b := by
  have first := ha.1
  rw [same, hb.1] at first
  exact (Option.some.inj first).symm

theorem Shows.getVisible {s : Store} {e : Element} (h : s.Shows e) : s.getVisible e.key = .ok e := by
  rw [Store.getVisible, h.1]
  exact if_pos h.2

theorem find_eq_ok {s : Store} (h : s.WellFormed) {k : Key} {e : Element} :
    s.find k = .ok e ↔ e.key = k ∧ s.Shows e := by
  unfold find
  constructor
  · intro found
    split at found
    · cases found
    · rename_i last hl
      split at found
      · rename_i visible
        cases found
        have own := key_of_current h hl
        exact ⟨own, by rw [own]; exact hl, visible⟩
      · cases found
  · rintro ⟨rfl, hc, visible⟩
    simp only [hc, visible, if_true]

theorem getVisible_eq_ok {s : Store} (hs : s.WellFormed) {k : Key} {e : Element}
    (h : s.getVisible k = .ok e) : e.key = k ∧ s.Shows e := by
  unfold getVisible at h
  split at h
  · cases h
  · rename_i last current
    split at h
    · rename_i visible
      cases h
      have own := key_of_current hs current
      exact ⟨own, by rw [own]; exact current, visible⟩
    · cases h

theorem visibility_eq_exists_iff {s : Store} (h : s.WellFormed) (k : Key) :
    s.visibility k = .exists ↔ ∃ e, e.key = k ∧ s.Shows e := by
  unfold visibility
  constructor
  · intro visible
    split at visible
    · cases visible
    · rename_i e hc
      have own := key_of_current h hc
      refine ⟨e, own, by rw [own]; exact hc, ?_⟩
      by_contra hidden
      rw [if_neg hidden] at visible
      cases visible
  · rintro ⟨e, rfl, hc, visible⟩
    simp only [hc, visible, if_true]

theorem mem_visibleWays {s : Store} (h : s.WellFormed) (w : Way) :
    w ∈ s.visibleWays ↔ s.Shows (.way w) := by
  unfold visibleWays
  rw [List.mem_filter, mem_filterMap_current h Element.way?_eq_some (fun _ => rfl)]
  rfl

theorem mem_visibleRelations {s : Store} (h : s.WellFormed) (r : Relation) :
    r ∈ s.visibleRelations ↔ s.Shows (.relation r) := by
  unfold visibleRelations
  rw [List.mem_filter, mem_filterMap_current h Element.relation?_eq_some (fun _ => rfl)]
  rfl

theorem mem_relationsWith {s : Store} (h : s.WellFormed) (members : List Key) (r : Relation) :
    r ∈ s.relationsWith members ↔
      s.Shows (.relation r) ∧ ∃ k ∈ members, r.hasMember k = true := by
  unfold relationsWith
  rw [List.mem_filter, mem_visibleRelations h, List.any_eq_true]

theorem mem_relationsOver_iff {s : Store} (h : s.WellFormed) (member : Key) (r : Relation) :
    r ∈ s.relationsOver member ↔ s.Shows (.relation r) ∧ r.hasMember member = true := by
  unfold relationsOver
  rw [List.mem_mergeSort, mem_relationsWith h]
  simp only [List.mem_singleton, exists_eq_left]

theorem mem_waysOver_iff {s : Store} (h : s.WellFormed) (node : Int) (w : Way) :
    w ∈ s.waysOver node ↔ s.Shows (.way w) ∧ node ∈ w.nodes := by
  unfold waysOver
  rw [List.mem_mergeSort, List.mem_filter, mem_visibleWays h, List.contains_iff_mem]

/-- A selection holds the shown elements with a property, and nothing else. -/
def Holds (s : Store) (sel : Selection) (P : Element → Prop) : Prop :=
  ∀ k e, sel.get? k = some e ↔ e.key = k ∧ s.Shows e ∧ P e

namespace Holds

variable {s : Store} {sel : Selection} {P Q : Element → Prop}

theorem empty (s : Store) : s.Holds .empty fun _ => False := by
  intro k e
  rw [Selection.get?_empty]
  simp

theorem congr (h : s.Holds sel P) (same : ∀ e, s.Shows e → (P e ↔ Q e)) : s.Holds sel Q := by
  intro k e
  rw [h k e]
  refine and_congr_right fun _ => ?_
  exact and_congr_right fun shown => same e shown

theorem unique (ha : s.Holds sel P) {other : Selection} (hb : s.Holds other P) : sel = other := by
  apply Selection.ext_get?
  intro k
  apply Option.ext
  intro e
  rw [ha k e, hb k e]

theorem contains_iff (h : s.Holds sel P) (k : Key) :
    sel.contains k = true ↔ ∃ e, e.key = k ∧ s.Shows e ∧ P e := by
  rw [Selection.contains_iff]
  exact exists_congr (h k)

theorem contains_iff_visible (h : s.Holds sel P) (hs : s.WellFormed) {k : Key} {told : Prop}
    (same : ∀ e, e.key = k → s.Shows e → (P e ↔ told)) :
    sel.contains k = true ↔ s.visibility k = .exists ∧ told := by
  rw [h.contains_iff, visibility_eq_exists_iff hs, ← exists_and_right]
  refine exists_congr fun e => ?_
  rw [and_assoc]
  exact and_congr_right fun own => and_congr_right fun shown => same e own shown

theorem mem_toList (h : s.Holds sel P) (e : Element) : e ∈ sel.toList ↔ s.Shows e ∧ P e := by
  rw [Selection.mem_toList]
  constructor
  · rintro ⟨k, found⟩
    exact ((h k e).mp found).2
  · intro held
    exact ⟨e.key, (h e.key e).mpr ⟨rfl, held⟩⟩

theorem add (h : s.Holds sel P) {e : Element} (shown : s.Shows e) :
    s.Holds (sel.add e) fun x => P x ∨ x = e := by
  intro k x
  rw [Selection.get?_add]
  by_cases own : k = e.key
  · subst own
    rw [if_pos rfl]
    have first : (sel.get? e.key).getD e = e := by
      cases hg : sel.get? e.key with
      | none => rfl
      | some old =>
        obtain ⟨same, held, _⟩ := (h _ old).mp hg
        exact held.unique shown same
    rw [first]
    constructor
    · intro found
      cases found
      exact ⟨rfl, shown, Or.inr rfl⟩
    · rintro ⟨same, held, _⟩
      rw [held.unique shown same]
  · rw [if_neg own, h k x]
    constructor
    · rintro ⟨same, held, hP⟩
      exact ⟨same, held, Or.inl hP⟩
    · rintro ⟨same, held, hP | rfl⟩
      · exact ⟨same, held, hP⟩
      · exact absurd same.symm own

theorem addAll (h : s.Holds sel P) {es : List Element} (shown : ∀ e ∈ es, s.Shows e) :
    s.Holds (sel.addAll es) fun x => P x ∨ x ∈ es := by
  induction es generalizing sel P with
  | nil => exact h.congr fun e _ => by simp
  | cons e es ih =>
    have one := h.add (shown e List.mem_cons_self)
    have rest := ih one fun x hx => shown x (List.mem_cons_of_mem _ hx)
    exact rest.congr fun x _ => by rw [List.mem_cons, or_assoc]

theorem addNode (hs : s.WellFormed) {d : Draft} (h : s.Holds d.selection P) (id : Int) :
    s.Holds (d.addNode s id).selection fun x => P x ∨ x.key = (.node, id) := by
  unfold Draft.addNode
  split
  · rename_i held
    obtain ⟨n, hn⟩ := Option.isSome_iff_exists.mp held
    have found : d.selection.get? (.node, id) = some (.node n) := congrArg (Option.map _) hn
    obtain ⟨own, shown, hP⟩ := (h _ _).mp found
    refine h.congr fun x hx => ⟨Or.inl, ?_⟩
    rintro (hPx | same)
    · exact hPx
    · rw [hx.unique shown (same.trans own.symm)]
      exact hP
  · cases hf : s.find (.node, id) with
    | ok e =>
      obtain ⟨own, shown⟩ := (find_eq_ok hs).mp hf
      refine (h.add shown).congr fun x hx => or_congr_right ?_
      constructor
      · rintro rfl
        exact own
      · intro same
        exact hx.unique shown (same.trans own.symm)
    | error n =>
      refine h.congr fun x hx => ⟨Or.inl, ?_⟩
      rintro (hPx | same)
      · exact hPx
      · rw [(find_eq_ok hs).mpr ⟨same, hx⟩] at hf
        cases hf

theorem addNodesOf (hs : s.WellFormed) {d : Draft} (h : s.Holds d.selection P) (w : Way) :
    s.Holds (d.addNodesOf s w).selection fun x => P x ∨ ∃ id ∈ w.nodes, x.key = (.node, id) := by
  unfold Draft.addNodesOf
  induction w.nodes generalizing d P with
  | nil => exact h.congr fun e _ => by simp
  | cons id ids ih =>
    refine (ih (h.addNode hs id)).congr fun x _ => ?_
    rw [or_assoc]
    simp only [List.exists_mem_cons_iff]

theorem addNodesOfAll (hs : s.WellFormed) {d : Draft} (h : s.Holds d.selection P) (ways : List Way) :
    s.Holds (ways.foldl (Draft.addNodesOf s) d).selection fun x =>
      P x ∨ ∃ w ∈ ways, ∃ id ∈ w.nodes, x.key = (.node, id) := by
  induction ways generalizing d P with
  | nil => exact h.congr fun e _ => by simp
  | cons w ways ih =>
    refine (ih (h.addNodesOf hs w)).congr fun x _ => ?_
    rw [or_assoc]
    simp only [List.exists_mem_cons_iff]

variable {ν : Type} {t : Table Int ν}

theorem mem_keys (h : s.Holds sel P) (kind : Kind) (wrap : ν → Element)
    (part : ∀ id, sel.get? (kind, id) = (t.get? id).map wrap)
    (own : ∀ v, (wrap v).kind = kind) (id : Int) :
    id ∈ t.keys ↔ ∃ v, s.Shows (wrap v) ∧ P (wrap v) ∧ (wrap v).id = id := by
  rw [Table.mem_keys]
  constructor
  · rintro ⟨v, hv⟩
    have found : sel.get? (kind, id) = some (wrap v) := by
      rw [part, hv]
      rfl
    obtain ⟨same, shown, hP⟩ := (h _ _).mp found
    exact ⟨v, shown, hP, congrArg Prod.snd same⟩
  · rintro ⟨v, shown, hP, rfl⟩
    have found := (h (wrap v).key (wrap v)).mpr ⟨rfl, shown, hP⟩
    rw [Element.key, own v, part] at found
    obtain ⟨u, hu, _⟩ := Option.map_eq_some_iff.mp found
    exact ⟨u, hu⟩

theorem exists_key (h : s.Holds sel P) (kind : Kind) (wrap : ν → Element)
    (part : ∀ id, sel.get? (kind, id) = (t.get? id).map wrap)
    (own : ∀ v, (wrap v).kind = kind) (p : Key → Prop) :
    (∃ k ∈ t.keys.map (kind, ·), p k) ↔ ∃ v, s.Shows (wrap v) ∧ P (wrap v) ∧ p (wrap v).key := by
  constructor
  · rintro ⟨k, hk, hp⟩
    obtain ⟨id, hid, rfl⟩ := List.mem_map.mp hk
    obtain ⟨v, shown, hP, rfl⟩ := (h.mem_keys kind wrap part own id).mp hid
    refine ⟨v, shown, hP, ?_⟩
    rw [Element.key, own v]
    exact hp
  · rintro ⟨v, shown, hP, hp⟩
    rw [Element.key, own v] at hp
    exact ⟨_, List.mem_map.mpr ⟨_, (h.mem_keys kind wrap part own _).mpr ⟨v, shown, hP, rfl⟩, rfl⟩, hp⟩

end Holds
end Store
end MapExtract
