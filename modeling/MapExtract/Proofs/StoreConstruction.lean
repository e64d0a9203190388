import MapExtract.Proofs.FailedAdditions
import MapExtract.Proofs.WithoutTiles

set_option autoImplicit false
namespace MapExtract
open Element (Kind Key)

inductive Error.TurnsAway : Error → Prop
  | place : Error.TurnsAway (.notFinite (.nan false false 0))
  | version (kind : Kind) (id version last : Int) :
    Error.TurnsAway (.versionConflict kind id version last)

theorem Element.untiled_of_located {e placed : Element} (h : e.located = .ok placed) :
    placed.untiled = e.untiled := by
  rcases located_cases h with ⟨n, tile, rfl, rfl⟩ | ⟨rfl, _⟩ <;> rfl

namespace Store

theorem appendIn_map (f : Element → Element) (k : Key) (e : Element) (hs : List (Key × History)) :
    appendIn k (f e) (hs.map fun p => (p.1, p.2.map f)) =
      (appendIn k e hs).map fun p => (p.1, p.2.map f) := by
  induction hs with
  | nil => rfl
  | cons head rest ih =>
    simp only [List.map_cons, appendIn, ih]
    split <;> simp

theorem indexAfter_untiled {s : Store} {e placed : Element} (bare : e.untiled = e)
    (h : e.located = .ok placed) : s.untiled.indexAfter e = s.indexAfter placed := by
  cases e with
  | node n =>
    have none : n.tile = none := congrArg Node.tile (Element.node.inj bare).symm
    rw [Element.located_node] at h
    cases hp : n.place with
    | error cause =>
      rw [hp] at h
      cases h
    | ok tile =>
      rw [hp] at h
      cases h
      have found : n.indexTile = .ok (tile : Int) := by
        simp only [Node.indexTile, none, hp]
        rfl
      simp only [indexAfter, found]
      rfl
  | way w =>
    cases h
    rfl
  | relation r =>
    cases h
    rfl

/-- It is the same to append a bare element, and to append it with its place and forget the tile. -/
theorem append_untiled {s : Store} {e placed : Element} (bare : e.untiled = e)
    (h : e.located = .ok placed) : (s.untiled.append e).1 = (s.append placed).1.untiled := by
  have ext {u v : Store} (histories : u.histories = v.histories) (index : u.index = v.index) :
      u = v := by
    cases u
    cases v
    cases histories
    cases index
    rfl
  apply ext
  · change _ = (s.append placed).1.histories.map _
    rw [append_histories, append_histories, ← appendIn_map, Element.untiled_of_located h, bare,
      Element.key_of_located h]
    rfl
  · rw [append_index, indexAfter_untiled bare h]
    exact (append_index s placed).symm

theorem follows_untiled {s : Store} {e placed : Element} (h : e.located = .ok placed)
    (follows : s.Follows placed) : s.untiled.Follows e := by
  intro last hl
  rw [current?_untiled, ← Element.key_of_located h] at hl
  obtain ⟨original, ho, rfl⟩ := Option.map_eq_some_iff.mp hl
  rw [Element.version_untiled, ← Element.version_of_located h]
  exact follows original ho

theorem indexTile_isOk_iff {n : Node} (bare : n.tile = none) :
    (∃ tile, n.indexTile = .ok tile) ↔ (Element.node n).HasPlace := by
  rw [show (Element.node n).HasPlace = (n.latitude ≠ .nan ∧ n.longitude ≠ .nan) from rfl,
    ← Node.place_isOk_iff, Node.indexTile, bare]
  cases n.place <;> simp [Except.map]

theorem accepts_untiled {s t : Store} {es placed : List Element}
    (bare : ∀ e ∈ es, e.untiled = e) (located : es.mapM Element.located = .ok placed)
    (h : Accepts s placed t) : Accepts s.untiled es t.untiled := by
  rw [mapM_eq_ok_iff] at located
  induction h generalizing es with
  | nil s =>
    cases located
    exact .nil _
  | @cons s u t p placed hp rest ih =>
    obtain ⟨e, es, he, others, rfl⟩ := List.forall₂_cons_right_iff.mp located
    obtain ⟨follows, _, rfl⟩ := (add_eq_ok_iff s u p).mp hp
    have own := bare e List.mem_cons_self
    have place := (Element.located_isOk_iff e).mp ⟨p, he⟩
    have indexed : ∀ n, e = .node n → ∃ tile, n.indexTile = .ok tile := by
      rintro n rfl
      exact (indexTile_isOk_iff (congrArg Node.tile (Element.node.inj own).symm)).mpr place
    -- Both stores make the same step: one with the place, the other with the tile it comes to.
    have added : s.untiled.add e = ((s.append p).1.untiled, .ok ()) := by
      rw [add_eq_ok_iff]
      exact ⟨follows_untiled he follows, indexed, (append_untiled own he).symm⟩
    exact .cons added (ih (fun x hx => bare x (List.mem_cons_of_mem _ hx)) others)

theorem turnsAway_of_add {s t : Store} {e : Element} {cause : Error}
    (h : s.add e = (t, .error cause)) : cause.TurnsAway := by
  rcases add_eq_error_cases h with ⟨_, _, last, rfl⟩ | ⟨_, _, _, rfl⟩
  · exact .version _ _ _ _
  · exact .place

theorem turnsAway_of_ofList {es : List Element} {cause : Error} (h : ofList es = .error cause) :
    cause.TurnsAway := by
  unfold ofList at h
  generalize empty = s at h
  induction es generalizing s with
  | nil => cases h
  | cons e es ih =>
    rw [List.foldlM_cons] at h
    cases ha : s.add e with
    | mk t outcome =>
      rw [ha] at h
      cases outcome with
      | error own =>
        cases h
        exact turnsAway_of_add ha
      | ok _ => exact ih t h

theorem turnsAway_of_loadAfter {s : Store} {summary : Summary} {es : List Element} {cause : Error}
    (h : (s.loadAfter summary es).2 = .error cause) : cause.TurnsAway := by
  induction es generalizing s summary with
  | nil => cases h
  | cons e es ih =>
    have outcome := offer_snd summary e
    rw [loadAfter] at h
    split at h
    · rename_i own counted offered
      cases h
      rw [offered] at outcome
      rw [Element.located_eq_error outcome.symm]
      exact .place
    · split at h
      · rename_i added
        cases h
        exact turnsAway_of_add added
      · exact ih h

/-- Every question is answered in the same way and in the same order, but for the tiles of nodes. -/
structure SameButTiles (s t : Store) : Prop where
  get : ∀ k, s.get k = (t.get k).map Element.untiled
  history : ∀ k, s.getHistory k = (t.getHistory k).map (List.map Element.untiled)
  version : ∀ k v, s.getVersion k v = (t.getVersion k v).map Element.untiled
  current : ∀ kind, s.current kind = (t.current kind).map Element.untiled
  range : ∀ low high, s.range low high = (t.range low high).map Node.untiled
  expand : ∀ id maxDepth, s.expand id maxDepth = (t.expand id maxDepth).map Draft.untiled
  wayWithNodes : ∀ id, s.wayWithNodes id = (t.wayWithNodes id).map Draft.untiled
  mapOf : ∀ box maxArea maxNodes, s.mapOf box maxArea maxNodes =
    (t.mapOf box maxArea maxNodes).map Draft.untiled
  waysOver : ∀ node, s.waysOver node = t.waysOver node
  relationsOver : ∀ member, s.relationsOver member = t.relationsOver member

theorem untiled_sameButTiles (s : Store) : SameButTiles s.untiled s where
  get := s.get_untiled
  history := s.getHistory_untiled
  version := s.getVersion_untiled
  current := s.current_untiled
  range := s.range_untiled
  expand := s.expand_untiled
  wayWithNodes := s.wayWithNodes_untiled
  mapOf := s.mapOf_untiled
  waysOver := s.waysOver_untiled
  relationsOver := s.relationsOver_untiled

/-- For a list whose nodes carry no tiles, both ways succeed and the stores differ only in tiles, or
both ways fail, each because an element has no place or its version does not follow. -/
theorem constructions_agree {es : List Element} (bare : ∀ n, .node n ∈ es → n.tile = none) :
    (∃ s t summary, ofList es = .ok s ∧ empty.load es = (t, .ok summary) ∧ SameButTiles s t) ∨
      ∃ cause cause', ofList es = .error cause ∧ (empty.load es).2 = .error cause' ∧
        cause.TurnsAway ∧ cause'.TurnsAway := by
  by_cases loads : ∃ summary, (empty.load es).2 = .ok summary
  · left
    obtain ⟨summary, h⟩ := loads
    have ok : empty.load es = ((empty.load es).1, .ok summary) := Prod.ext rfl h
    obtain ⟨placed, located, accepted⟩ :=
      (loadAfter_eq_ok_iff empty _ .empty es).mp ⟨summary, ok⟩
    have untiled : ∀ e ∈ es, e.untiled = e := by
      intro e he
      cases e with
      | node n => rw [Element.untiled, Node.untiled, ← bare n he]
      | way w => rfl
      | relation r => rfl
    exact ⟨_, _, summary, ofList_of_accepts (accepts_untiled untiled located accepted), ok,
      untiled_sameButTiles _⟩
  · right
    obtain ⟨cause', failed'⟩ : ∃ cause', (empty.load es).2 = .error cause' := by
      cases h : (empty.load es).2 with
      | error cause' => exact ⟨cause', rfl⟩
      | ok summary => exact absurd ⟨summary, h⟩ loads
    obtain ⟨cause, failed⟩ : ∃ cause, ofList es = .error cause := by
      cases h : ofList es with
      | error cause => exact ⟨cause, rfl⟩
      | ok s =>
        obtain ⟨possible, ascend⟩ := (accepts_iff empty es).mp ⟨s, accepts_of_foldlM h⟩
        refine absurd ((load_isOk_iff es).mpr ⟨fun e he => ?_, ascend⟩) loads
        cases e with
        | node n => exact (indexTile_isOk_iff (bare n he)).mp ((possible _ he).2 n rfl)
        | way w => exact trivial
        | relation r => exact trivial
    exact ⟨cause, cause', failed, failed', turnsAway_of_ofList failed,
      turnsAway_of_loadAfter failed'⟩

private def milestone (id version : Int) : Element :=
  .node ⟨id, .bare version true, none, .zero false, .zero true, none⟩

private def survey : List Element :=
  [milestone 1 1, milestone 2 1, .way ⟨1, .bare 1 true, none, [1, 2]⟩,
    milestone 1 2]

theorem constructions_agree_survey :
    (∀ n, .node n ∈ survey → n.tile = none) ∧ ofList survey = .ok (offered survey) ∧
      ∃ t summary, empty.load survey = (t, .ok summary) ∧ SameButTiles (offered survey) t := by
  have bare : ∀ n, .node n ∈ survey → n.tile = none := by
    intro n hn
    simp only [survey, milestone, List.mem_cons, Element.node.injEq, reduceCtorEq, List.not_mem_nil,
      or_false, false_or] at hn
    rcases hn with rfl | rfl | rfl <;> rfl
  have built : ofList survey = .ok (offered survey) := by decide +kernel
  refine ⟨bare, built, ?_⟩
  rcases constructions_agree bare with ⟨s, t, summary, hs, ht, same⟩ | ⟨cause, _, failed, _⟩
  · cases built.symm.trans hs
    exact ⟨t, summary, ht, same⟩
  · cases built.symm.trans failed

end Store
end MapExtract
