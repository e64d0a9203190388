import Mathlib.Data.List.Nodup
import Mathlib.Data.List.Basic
import Mathlib.Data.List.Induction
import MapExtract.Proofs.IndexOrder
import MapExtract.Store.Load

set_option autoImplicit false
namespace MapExtract
open Element (Kind Key)

namespace Element

theorem node?_eq_some (e : Element) (n : Node) : e.node? = some n ↔ e = .node n := by
  cases e <;> simp [node?]

theorem way?_eq_some (e : Element) (w : Way) : e.way? = some w ↔ e = .way w := by
  cases e <;> simp [way?]

theorem relation?_eq_some (e : Element) (r : Relation) : e.relation? = some r ↔ e = .relation r := by
  cases e <;> simp [relation?]

def tile? : Element → Option Int
  | .node n => n.indexTile.toOption
  | _ => none

theorem tile?_node_eq_some (n : Node) (tile : Int) :
    (Element.node n).tile? = some tile ↔ n.indexTile = .ok tile := by
  change n.indexTile.toOption = some tile ↔ _
  cases n.indexTile <;> simp [Except.toOption]

end Element

namespace Store

/-- The stores that come about by adding admitted elements and by loading any elements. -/
inductive Reached (admits : Element → Prop) : Store → Prop
  | empty : Reached admits .empty
  | add {s : Store} {e : Element} (h : Reached admits s) (he : admits e) : Reached admits (s.add e).1
  | load {s : Store} {es : List Element} (h : Reached admits s) : Reached admits (s.load es).1

abbrev Reachable : Store → Prop := Reached fun _ => True

structure WellFormed (s : Store) : Prop where
  distinct : (s.histories.map (·.1)).Nodup
  nonempty : ∀ k h, (k, h) ∈ s.histories → h ≠ []
  filed : ∀ k, ∀ e ∈ s.history k, e.key = k
  ascending : ∀ k, (s.history k).Pairwise fun a b => a.version < b.version
  index : s.index.WellFormed
  known : ∀ id tile, s.index.tiles.get? id = some tile → s.history (.node, id) ≠ []

theorem empty_wellFormed : empty.WellFormed where
  distinct := List.nodup_nil
  nonempty _ _ h := by cases h
  filed _ _ h := by cases h
  ascending _ := List.Pairwise.nil
  index := TileIndex.empty_wellFormed
  known id tile h := by
    rw [show empty.index.tiles.get? id = none from Table.get?_empty id] at h
    cases h

theorem key_mem_appendIn (k k' : Key) (e : Element) (hs : List (Key × History)) :
    k' ∈ (appendIn k e hs).map (·.1) ↔ k' = k ∨ k' ∈ hs.map (·.1) := by
  induction hs with
  | nil => simp [appendIn]
  | cons head rest ih =>
    obtain ⟨a, h⟩ := head
    simp only [appendIn]
    split
    · rename_i same
      subst same
      simp
    · simp only [List.map_cons, List.mem_cons, ih, or_left_comm]

theorem distinct_appendIn (k : Key) (e : Element) {hs : List (Key × History)}
    (h : (hs.map (·.1)).Nodup) : ((appendIn k e hs).map (·.1)).Nodup := by
  induction hs with
  | nil => simp [appendIn]
  | cons head rest ih =>
    obtain ⟨a, versions⟩ := head
    simp only [appendIn]
    split
    · exact h
    · rename_i other
      obtain ⟨fresh, tail⟩ := List.nodup_cons.mp h
      refine List.nodup_cons.mpr ⟨?_, ih tail⟩
      rw [key_mem_appendIn]
      exact not_or.mpr ⟨other, fresh⟩

theorem nonempty_appendIn (k : Key) (e : Element) {hs : List (Key × History)}
    (h : ∀ k h, (k, h) ∈ hs → h ≠ []) : ∀ k' h', (k', h') ∈ appendIn k e hs → h' ≠ [] := by
  induction hs with
  | nil =>
    intro k' h' hm
    simp only [appendIn, List.mem_singleton, Prod.mk.injEq] at hm
    simp [hm.2]
  | cons head rest ih =>
    obtain ⟨a, versions⟩ := head
    have ih := ih fun k h' hm => h k h' (List.mem_cons_of_mem _ hm)
    intro k' h' hm
    simp only [appendIn] at hm
    split at hm <;> rcases List.mem_cons.mp hm with eq | hm
    · cases eq
      simp
    · exact h k' h' (List.mem_cons_of_mem _ hm)
    · cases eq
      exact h _ _ List.mem_cons_self
    · exact ih k' h' hm

def indexAfter (s : Store) : Element → TileIndex
  | .node n =>
    match n.indexTile with
    | .ok tile => s.index.place n.id tile
    | .error _ => s.index
  | _ => s.index

theorem append_index (s : Store) (e : Element) : (s.append e).1.index = s.indexAfter e := by
  cases e with
  | node n =>
    unfold append indexAfter
    dsimp only
    cases n.indexTile <;> rfl
  | way _ => rfl
  | relation _ => rfl

/-- An element follows a store if its version is greater than the last one there. -/
def Follows (s : Store) (e : Element) : Prop :=
  ∀ last, s.current? e.key = some last → last.version < e.version

theorem not_follows {s : Store} {e last : Element} (hl : s.current? e.key = some last)
    (low : e.version ≤ last.version) : ¬s.Follows e := by
  intro follows
  have := follows last hl
  omega

/-- An element is refused and changes nothing, or it follows and is kept. -/
theorem add_cases (s : Store) (e : Element) :
    (∃ last, s.current? e.key = some last ∧ e.version ≤ last.version ∧
      s.add e = (s, .error (.versionConflict e.kind e.id e.version last.version))) ∨
      (s.Follows e ∧ s.add e = s.append e) := by
  unfold add Follows
  cases s.current? e.key with
  | none =>
    refine Or.inr ⟨?_, rfl⟩
    intro last h
    cases h
  | some last =>
    dsimp only
    by_cases low : e.version ≤ last.version
    · rw [if_pos low]
      exact Or.inl ⟨last, rfl, low, rfl⟩
    · rw [if_neg low]
      refine Or.inr ⟨?_, rfl⟩
      intro other h
      cases h
      omega

theorem add_preserves {I : Store → Prop} {s : Store} {e : Element} (h : I s)
    (kept : s.Follows e → I (s.append e).1) : I (s.add e).1 := by
  rcases s.add_cases e with ⟨_, _, _, eq⟩ | ⟨follows, eq⟩
  · rw [eq]
    exact h
  · rw [eq]
    exact kept follows

theorem current_append (s : Store) (e : Element) (k : Key) :
    (s.append e).1.current? k = if k = e.key then some e else s.current? k := by
  unfold current?
  rw [history_append]
  split
  · rw [List.getLast?_concat]
  · rfl

theorem version_le_last {h : History} {last : Element} (hl : h.getLast? = some last)
    (ascending : h.Pairwise fun a b => a.version < b.version) :
    ∀ e ∈ h, e.version ≤ last.version := by
  obtain ⟨front, rfl⟩ := List.getLast?_eq_some_iff.mp hl
  intro e he
  rcases List.mem_append.mp he with he | he
  · exact Int.le_of_lt ((List.pairwise_append.mp ascending).2.2 e he last List.mem_cons_self)
  · obtain rfl := List.mem_singleton.mp he
    exact Int.le_refl _

theorem ascending_append {h : History} {e : Element}
    (ascending : h.Pairwise fun a b => a.version < b.version)
    (follows : ∀ last, h.getLast? = some last → last.version < e.version) :
    (h ++ [e]).Pairwise fun a b => a.version < b.version := by
  refine List.pairwise_append.mpr ⟨ascending, List.pairwise_singleton _ _, ?_⟩
  intro a ha b hb
  obtain rfl := List.mem_singleton.mp hb
  cases hl : h.getLast? with
  | none =>
    rw [List.getLast?_eq_none_iff.mp hl] at ha
    cases ha
  | some last => exact Int.lt_of_le_of_lt (version_le_last hl ascending a ha) (follows last hl)

theorem indexAfter_wellFormed {s : Store} (h : s.index.WellFormed) (e : Element) :
    (s.indexAfter e).WellFormed := by
  unfold indexAfter
  split
  · split
    · exact TileIndex.place_wellFormed h _ _
    · exact h
  · exact h

theorem tiles_indexAfter (s : Store) (e : Element) (id : Int) : (s.indexAfter e).tiles.get? id =
    if (Kind.node, id) = e.key then e.tile?.or (s.index.tiles.get? id)
    else s.index.tiles.get? id := by
  cases e with
  | node n =>
    have own : (Kind.node, id) = (Element.node n).key ↔ id = n.id := by
      simp [Element.key, Element.kind, Element.id]
    simp only [indexAfter, Element.tile?, own]
    cases n.indexTile with
    | ok tile => exact TileIndex.tiles_place s.index n.id tile id
    | error cause => exact (ite_self _).symm
  | way w => exact (ite_self _).symm
  | relation r => exact (ite_self _).symm

theorem append_wellFormed {s : Store} (h : s.WellFormed) {e : Element}
    (follows : ∀ last, s.current? e.key = some last → last.version < e.version) :
    (s.append e).1.WellFormed where
  distinct := by
    rw [append_histories]
    exact distinct_appendIn _ _ h.distinct
  nonempty := by
    rw [append_histories]
    exact nonempty_appendIn _ _ h.nonempty
  filed := by
    intro k x hx
    rw [history_append] at hx
    split at hx
    · rename_i same
      rcases List.mem_append.mp hx with hx | hx
      · exact h.filed k x hx
      · rw [List.mem_singleton.mp hx, same]
    · exact h.filed k x hx
  ascending := by
    intro k
    rw [history_append]
    split
    · rename_i same
      subst same
      exact ascending_append (h.ascending _) follows
    · exact h.ascending k
  index := by
    rw [append_index]
    exact indexAfter_wellFormed h.index e
  known := by
    intro id tile ht
    rw [append_index, tiles_indexAfter] at ht
    rw [history_append]
    split
    · simp
    · rename_i other
      rw [if_neg other] at ht
      exact h.known id tile ht

theorem add_wellFormed {s : Store} (h : s.WellFormed) (e : Element) : (s.add e).1.WellFormed :=
  add_preserves h fun follows => append_wellFormed h follows

theorem offer_snd (summary : Summary) (e : Element) : (summary.offer e).2 = e.located := by
  unfold Summary.offer
  cases e.located <;> rfl

/-- Loading adds elements with their places, one by one, until one cannot be loaded. -/
theorem loadAfter_preserves {I : Store → Prop}
    (step : ∀ s e placed, I s → Element.located e = .ok placed → I (s.add placed).1)
    (es : List Element) {s : Store} (summary : Summary) (h : I s) : I (s.loadAfter summary es).1 := by
  induction es generalizing s summary with
  | nil => exact h
  | cons e es ih =>
    unfold loadAfter
    split
    · exact h
    · rename_i counted placed hp
      have located : e.located = .ok placed := by rw [← offer_snd summary, hp]
      have kept := step s e placed h located
      split
      · rename_i s' cause ha
        rw [ha] at kept
        exact kept
      · rename_i s' ha
        rw [ha] at kept
        exact ih counted kept

/-- What holds of the empty store and outlasts every addition holds of all stores. -/
theorem Reached.preserves {admits : Element → Prop} {I : Store → Prop} {s : Store}
    (hs : Reached admits s) (start : I Store.empty)
    (step : ∀ s e, I s → (admits e ∨ ∃ original, Element.located original = .ok e) → I (s.add e).1) :
    I s := by
  induction hs with
  | empty => exact start
  | add _ he ih => exact step _ _ ih (Or.inl he)
  | load _ ih =>
    exact loadAfter_preserves (fun s e placed h located => step s placed h (Or.inr ⟨e, located⟩)) _ _ ih

theorem Reached.wellFormed {admits : Element → Prop} {s : Store} (hs : Reached admits s) :
    s.WellFormed :=
  hs.preserves empty_wellFormed fun _ e h _ => add_wellFormed h e

/-- The store after some elements were offered to it; whatever is refused is passed over. -/
def offered (es : List Element) : Store := es.foldl (fun s e => (s.add e).1) empty

theorem offered_concat (es : List Element) (e : Element) :
    offered (es ++ [e]) = ((offered es).add e).1 := List.foldl_concat ..

theorem offered_reachable (es : List Element) : Reachable (offered es) := by
  induction es using List.reverseRecOn with
  | nil => exact .empty
  | append_singleton es e ih =>
    rw [offered_concat]
    exact ih.add trivial

theorem historyIn_of_mem {k : Key} {h : History} {hs : List (Key × History)}
    (distinct : (hs.map (·.1)).Nodup) (hm : (k, h) ∈ hs) : historyIn k hs = h := by
  induction hs with
  | nil => cases hm
  | cons head rest ih =>
    obtain ⟨a, versions⟩ := head
    obtain ⟨fresh, tail⟩ := List.nodup_cons.mp distinct
    rcases List.mem_cons.mp hm with eq | hm
    · cases eq
      rw [historyIn, if_pos rfl]
    · have other : a ≠ k := by
        rintro rfl
        exact fresh (List.mem_map.mpr ⟨_, hm, rfl⟩)
      rw [historyIn, if_neg other]
      exact ih tail hm

theorem mem_of_historyIn_ne_nil {k : Key} {hs : List (Key × History)} (h : historyIn k hs ≠ []) :
    (k, historyIn k hs) ∈ hs := by
  induction hs with
  | nil => exact absurd rfl h
  | cons head rest ih =>
    obtain ⟨a, versions⟩ := head
    by_cases same : a = k
    · rw [historyIn, if_pos same, same]
      exact List.mem_cons_self
    · rw [historyIn, if_neg same] at h ⊢
      exact List.mem_cons_of_mem _ (ih h)

theorem key_of_current {s : Store} (h : s.WellFormed) {k : Key} {e : Element}
    (he : s.current? k = some e) : e.key = k :=
  h.filed k e (List.mem_of_getLast? he)

theorem mem_current {s : Store} (h : s.WellFormed) (kind : Kind) (e : Element) :
    e ∈ s.current kind ↔ e.kind = kind ∧ s.current? e.key = some e := by
  unfold current
  rw [List.mem_filterMap]
  constructor
  · rintro ⟨⟨k, versions⟩, hm, hl⟩
    obtain ⟨hm, hk⟩ := List.mem_filter.mp hm
    have found : s.current? k = some e := by
      unfold current? history
      rw [historyIn_of_mem h.distinct hm]
      exact hl
    have own := key_of_current h found
    refine ⟨?_, by rw [own]; exact found⟩
    have kinds : k.1 = kind := of_decide_eq_true hk
    rw [← kinds, ← own]
    rfl
  · rintro ⟨hk, hc⟩
    have some : s.history e.key ≠ [] := by
      intro none
      rw [current?, none] at hc
      cases hc
    refine ⟨(e.key, s.history e.key), List.mem_filter.mpr ⟨mem_of_historyIn_ne_nil some, ?_⟩, hc⟩
    exact decide_eq_true hk

theorem mem_filterMap_current {α : Type} {s : Store} (h : s.WellFormed) {kind : Kind}
    {unwrap : Element → Option α} {wrap : α → Element}
    (inverse : ∀ e a, unwrap e = some a ↔ e = wrap a) (own : ∀ a, (wrap a).kind = kind) (a : α) :
    a ∈ (s.current kind).filterMap unwrap ↔ s.current? (wrap a).key = some (wrap a) := by
  rw [List.mem_filterMap]
  constructor
  · rintro ⟨e, he, ha⟩
    rw [(inverse e a).mp ha] at he
    exact ((mem_current h kind _).mp he).2
  · intro hc
    exact ⟨wrap a, (mem_current h kind _).mpr ⟨own a, hc⟩, (inverse _ a).mpr rfl⟩

theorem current_distinct {s : Store} (h : s.WellFormed) (kind : Kind) :
    (s.current kind).Pairwise fun a b => a.key ≠ b.key := by
  have keys : s.histories.Pairwise fun a b => a.1 ≠ b.1 := List.pairwise_map.mp h.distinct
  have owned : s.histories.Pairwise fun a b =>
      ∀ x ∈ a.2.getLast?, ∀ y ∈ b.2.getLast?, x.key ≠ y.key := by
    refine keys.imp_of_mem fun {a b} ha hb ne x hx y hy => ?_
    have last {c : Key × History} (hc : c ∈ s.histories) {z : Element} (hz : z ∈ c.2.getLast?) :
        z.key = c.1 := by
      apply key_of_current h
      unfold current? history
      rw [historyIn_of_mem h.distinct hc]
      exact hz
    rw [last ha hx, last hb hy]
    exact ne
  exact List.Pairwise.filterMap _ (fun a b hab x hx y hy => hab x hx y hy)
    (owned.sublist List.filter_sublist)

theorem filterMap_current_distinct {α : Type} {s : Store} (h : s.WellFormed) {kind : Kind}
    {unwrap : Element → Option α} {wrap : α → Element}
    (inverse : ∀ e a, unwrap e = some a ↔ e = wrap a) (number : α → Int)
    (own : ∀ a, (wrap a).key = (kind, number a)) :
    (((s.current kind).filterMap unwrap).map number).Nodup := by
  refine List.pairwise_map.mpr (List.Pairwise.filterMap _ ?_ (current_distinct h kind))
  intro x y apart a ha b hb same
  rw [(inverse x a).mp ha, (inverse y b).mp hb, own, own, same] at apart
  exact apart rfl

theorem current_of_tile {s : Store} (h : s.WellFormed) {id tile : Int}
    (ht : s.index.tiles.get? id = some tile) : ∃ n, s.current? (.node, id) = some (.node n) := by
  obtain ⟨last, hl⟩ := Option.ne_none_iff_exists'.mp
    (show s.current? (.node, id) ≠ none from fun none =>
      h.known id tile ht (List.getLast?_eq_none_iff.mp none))
  have own := key_of_current h hl
  cases last with
  | node n => exact ⟨n, hl⟩
  | way _ => cases own
  | relation _ => cases own

theorem range_ids {s : Store} (h : s.WellFormed) (low high : Int) :
    (s.range low high).map (·.id) = s.index.range low high := by
  unfold range
  rw [List.map_filterMap]
  conv_rhs => rw [← List.filterMap_some (l := s.index.range low high)]
  apply List.filterMap_congr
  intro id hid
  obtain ⟨tile, ht, _⟩ := (TileIndex.mem_range h.index low high id).mp hid
  obtain ⟨n, hn⟩ := current_of_tile h ht
  rw [hn]
  exact congrArg (some ·.2) (key_of_current h hn)

theorem mem_range {s : Store} (h : s.WellFormed) (low high : Int) (n : Node) :
    n ∈ s.range low high ↔ s.current? (.node, n.id) = some (.node n) ∧
      ∃ tile, s.index.tiles.get? n.id = some tile ∧ low ≤ tile ∧ tile ≤ high := by
  rw [← TileIndex.mem_range h.index]
  unfold range
  rw [List.mem_filterMap]
  have node {id : Int} (hn : (s.current? (.node, id)).bind Element.node? = some n) :
      s.current? (.node, id) = some (.node n) ∧ n.id = id := by
    obtain ⟨e, hc, he⟩ := Option.bind_eq_some_iff.mp hn
    cases e with
    | node m =>
      cases he
      exact ⟨hc, congrArg Prod.snd (key_of_current h hc)⟩
    | way _ => cases he
    | relation _ => cases he
  constructor
  · rintro ⟨id, hid, hn⟩
    obtain ⟨hc, rfl⟩ := node hn
    exact ⟨hc, hid⟩
  · rintro ⟨hc, hid⟩
    exact ⟨n.id, hid, by rw [hc]; rfl⟩

end Store
end MapExtract
