import MapExtract.Proofs.RangeScan

/-!
The first element that cannot be loaded is the first node without a place, or the first version that
does not exceed the versions of its key before it. Nothing of it is kept, because a node is placed
before it is added.
-/

set_option autoImplicit false
namespace MapExtract
open Element (Kind Key)

theorem Element.not_unplaced_of_located {e placed : Element} (h : e.located = .ok placed) :
    ¬placed.Unplaced := by
  intro unplaced
  cases placed with
  | node n =>
    obtain ⟨tile, ht⟩ := indexTile_of_located h n rfl
    rw [(Node.indexTile_eq_error_iff n _).mpr ⟨unplaced, rfl⟩] at ht
    cases ht
  | way _ => exact unplaced
  | relation _ => exact unplaced

namespace Store

/-- After some elements, one has no place, or no greater version than one of its key before it. -/
def Blocked (s : Store) (before : List Element) (e : Element) : Prop :=
  ¬e.HasPlace ∨ ∃ a ∈ s.history e.key ++ withKey e.key before, e.version ≤ a.version

instance (s : Store) (before : List Element) (e : Element) : Decidable (s.Blocked before e) :=
  inferInstanceAs (Decidable (_ ∨ ∃ a ∈ _, _))

structure StopsAt (s : Store) (es before : List Element) (e : Element) : Prop where
  split : ∃ after, es = before ++ e :: after
  blocked : s.Blocked before e
  first : ∀ front x rest, before = front ++ x :: rest → ¬s.Blocked front x

theorem exists_stop (s : Store) (es : List Element) : (∃ before e, s.StopsAt es before e) ∨
    ∀ front x rest, es = front ++ x :: rest → ¬s.Blocked front x := by
  induction es using List.reverseRecOn with
  | nil => exact .inr fun front x rest split => absurd split (by simp)
  | append_singleton es e ih =>
    rcases ih with ⟨before, x, ⟨after, rfl⟩, blocked, first⟩ | free
    · exact .inl ⟨before, x, ⟨after ++ [e], by simp⟩, blocked, first⟩
    by_cases blocked : s.Blocked es e
    · exact .inl ⟨es, e, ⟨[], rfl⟩, blocked, free⟩
    · refine .inr fun front x rest split => ?_
      rcases List.eq_nil_or_concat rest with rfl | ⟨rest, last, rfl⟩
      · obtain ⟨rfl, same⟩ := List.append_inj' split rfl
        cases same
        exact blocked
      · rw [List.concat_eq_append, ← List.cons_append, ← List.append_assoc] at split
        exact free front x rest (List.append_inj' split rfl).1

theorem follows_iff {s : Store} (hs : s.WellFormed) (e : Element) :
    s.Follows e ↔ ∀ a ∈ s.history e.key, a.version < e.version := by
  constructor
  · intro follows a ha
    cases hl : (s.history e.key).getLast? with
    | none =>
      rw [List.getLast?_eq_none_iff.mp hl] at ha
      cases ha
    | some last =>
      have := version_le_last hl (hs.ascending e.key) a ha
      have := follows last hl
      omega
  · exact fun above last hl => above last (List.mem_of_getLast? hl)

theorem loadAfter_cons_cases (s : Store) (summary : Summary) (e : Element) (es : List Element) :
    (e.HasPlace ∧ s.Follows e ∧ ∃ (t : Store) (counted : Summary),
        s.loadAfter summary (e :: es) = t.loadAfter counted es) ∨
      (¬(e.HasPlace ∧ s.Follows e) ∧
        ∃ cause, s.loadAfter summary (e :: es) = (s, .error cause)) := by
  have outcome := offer_snd summary e
  rw [loadAfter]
  cases ho : summary.offer e with
  | mk counted located =>
    rw [ho] at outcome
    dsimp only at outcome
    subst outcome
    cases hl : e.located with
    | error cause =>
      refine .inr ⟨fun possible => ?_, cause, rfl⟩
      obtain ⟨placed, hp⟩ := (Element.located_isOk_iff e).mpr possible.1
      rw [hl] at hp
      cases hp
    | ok placed =>
      have place := (Element.located_isOk_iff e).mp ⟨placed, hl⟩
      have same : s.Follows placed ↔ s.Follows e := by
        unfold Follows
        rw [Element.key_of_located hl, Element.version_of_located hl]
      cases ha : s.add placed with
      | mk t added =>
        cases added with
        | ok _ =>
          have follows := same.mp ((add_eq_ok_iff s t placed).mp ha).1
          exact .inl ⟨place, follows, t, counted, by simp only [ha]⟩
        | error cause =>
          -- A placed node has a tile, so only its version can be refused, and then nothing is kept.
          rcases add_eq_error_cases ha with ⟨refused, rfl, _⟩ | ⟨follows, unplaced, _, _⟩
          · exact .inr ⟨fun possible => refused (same.mpr possible.2), cause, by simp only [ha]⟩
          · exact absurd unplaced (Element.not_unplaced_of_located hl)

theorem loadAfter_append (s : Store) (summary : Summary) (front rest : List Element) :
    s.loadAfter summary (front ++ rest) = match s.loadAfter summary front with
      | (t, .error cause) => (t, .error cause)
      | (t, .ok counted) => t.loadAfter counted rest := by
  induction front generalizing s summary with
  | nil => rfl
  | cons e es ih =>
    rw [List.cons_append, loadAfter, loadAfter]
    split
    · rfl
    · split
      · rfl
      · exact ih _ _

theorem not_blocked_iff {s t : Store} (hs : Reachable s) {es : List Element} {summary : Summary}
    (h : s.load es = (t, .ok summary)) (e : Element) :
    ¬s.Blocked es e ↔ e.HasPlace ∧ t.Follows e := by
  have ht : Reachable (s.load es).1 := hs.load
  rw [h] at ht
  obtain ⟨placed, located, accepted⟩ := (loadAfter_eq_ok_iff s t .empty es).mp ⟨summary, h⟩
  have loaded : (∀ a ∈ withKey e.key placed, a.version < e.version) ↔
      ∀ a ∈ withKey e.key es, a.version < e.version := by
    simp only [mem_withKey, mem_of_mapM_eq_ok located]
    constructor
    · intro above a ⟨ha, own⟩
      obtain ⟨p, hp⟩ := (mapM_isOk_iff _ es).mp ⟨placed, located⟩ a ha
      have := above p ⟨⟨a, ha, hp⟩, (Element.key_of_located hp).trans own⟩
      rwa [Element.version_of_located hp] at this
    · rintro above p ⟨⟨a, ha, hp⟩, own⟩
      rw [Element.version_of_located hp]
      exact above a ⟨ha, (Element.key_of_located hp).symm.trans own⟩
  rw [follows_iff ht.wellFormed, accepted.history]
  unfold Blocked
  push Not
  simp only [List.forall_mem_append, loaded]

theorem load_of_free {s : Store} (hs : Reachable s) {es : List Element}
    (free : ∀ front x rest, es = front ++ x :: rest → ¬s.Blocked front x) :
    ∃ t summary, s.load es = (t, .ok summary) := by
  induction es using List.reverseRecOn with
  | nil => exact ⟨s, .empty, rfl⟩
  | append_singleton es e ih =>
    obtain ⟨t, summary, h⟩ := ih fun front x rest split =>
      free front x (rest ++ [e]) (by rw [split, List.append_assoc, List.cons_append])
    have possible := (not_blocked_iff hs h e).mp (free es e [] rfl)
    rw [load, loadAfter_append]
    unfold load at h
    rw [h]
    rcases t.loadAfter_cons_cases summary e [] with ⟨_, _, u, counted, step⟩ | ⟨blocked, _⟩
    · exact ⟨u, counted, step⟩
    · exact absurd possible blocked

theorem load_of_stop {s : Store} (hs : Reachable s) {es before : List Element} {e : Element}
    (stop : s.StopsAt es before e) :
    ∃ t summary cause, s.load before = (t, .ok summary) ∧ s.load es = (t, .error cause) := by
  obtain ⟨⟨after, rfl⟩, blocked, first⟩ := stop
  obtain ⟨t, summary, h⟩ := load_of_free hs first
  have impossible := fun possible => (not_blocked_iff hs h e).mpr possible blocked
  rcases t.loadAfter_cons_cases summary e after with ⟨place, follows, _⟩ | ⟨_, cause, ends⟩
  · exact absurd ⟨place, follows⟩ impossible
  · refine ⟨t, summary, cause, h, ?_⟩
    unfold load at h ⊢
    rw [loadAfter_append, h]
    exact ends

theorem ofList_of_load {s t : Store} {es : List Element} {start summary : Summary}
    (h : s.loadAfter start es = (t, .ok summary)) :
    es.foldlM (fun s e => (s.offer e).2.map fun _ => (s.offer e).1) start = .ok summary := by
  induction es generalizing s start with
  | nil =>
    cases h
    rfl
  | cons e es ih =>
    rw [List.foldlM_cons]
    unfold loadAfter at h
    cases ho : start.offer e with
    | mk counted located =>
      rw [ho] at h
      cases located with
      | error cause => cases h
      | ok placed =>
        dsimp only at h
        split at h
        · cases h
        · exact ih h

/-- What loading a whole list leaves: its summary, its elements with their places, and nodes under
the tiles of their coordinates. -/
structure LoadsAll (s t : Store) (es : List Element) (summary : Summary) : Prop where
  summary : Summary.ofList es = .ok summary
  added : ∃ placed, es.mapM Element.located = .ok placed ∧ Accepts s placed t
  indexed : ∀ n, (withKey (.node, n.id) es).getLast? = some (.node n) →
    ∃ tile : Nat, n.place = .ok tile ∧
      t.get (.node, n.id) = .ok (.node { n with tile := some (tile : Int) }) ∧
      ∀ low high, n.id ∈ (t.range low high).map (·.id) ↔ low ≤ (tile : Int) ∧ (tile : Int) ≤ high

theorem withKey_located {es placed : List Element} (h : es.mapM Element.located = .ok placed)
    (k : Key) : (withKey k es).mapM Element.located = .ok (withKey k placed) := by
  rw [mapM_eq_ok_iff] at h ⊢
  induction h with
  | nil => exact .nil
  | @cons e p es placed head rest ih =>
    rw [withKey_cons, withKey_cons, Element.key_of_located head]
    split
    · exact .cons head ih
    · exact ih

theorem getLast_located {es placed : List Element} (h : es.mapM Element.located = .ok placed)
    {e : Element} (he : es.getLast? = some e) :
    ∃ p, e.located = .ok p ∧ placed.getLast? = some p := by
  rw [mapM_eq_ok_iff, ← List.forall₂_reverse_iff] at h
  rw [List.getLast?_eq_head?_reverse] at he ⊢
  obtain ⟨rest, back⟩ := List.head?_eq_some_iff.mp he
  rw [back, List.forall₂_cons_left_iff] at h
  obtain ⟨p, others, hp, _, same⟩ := h
  exact ⟨p, hp, by rw [same]; rfl⟩

theorem loadsAll_of_load {s : Store} (hs : Reachable s) {es : List Element} {summary : Summary}
    (h : (s.load es).2 = .ok summary) : s.LoadsAll (s.load es).1 es summary := by
  have ok : s.load es = ((s.load es).1, .ok summary) := Prod.ext rfl h
  obtain ⟨placed, located, accepted⟩ := (loadAfter_eq_ok_iff s _ .empty es).mp ⟨summary, ok⟩
  refine ⟨ofList_of_load ok, ⟨placed, located, accepted⟩, ?_⟩
  have ht : Reachable (s.load es).1 := hs.load
  generalize (s.load es).1 = t at accepted ht
  intro n last
  obtain ⟨p, hp, latest⟩ := getLast_located (withKey_located located _) last
  rw [Element.located_node] at hp
  cases hn : n.place with
  | error cause =>
    rw [hn] at hp
    cases hp
  | ok tile =>
    rw [hn] at hp
    cases hp
    have current : (t.history (.node, n.id)).getLast? =
        some (.node { n with tile := some (tile : Int) }) := by
      rw [accepted.history, List.getLast?_append, latest]
      rfl
    have under : t.index.tiles.get? n.id = some (tile : Int) := by
      rw [ht.foundByTile]
      exact latestTile_of_last current rfl
    refine ⟨tile, rfl, (get_eq_ok_iff_current? t _ _).mpr current, ?_⟩
    intro low high
    rw [range_ids ht.wellFormed, TileIndex.mem_range ht.wellFormed.index, under]
    simp

/-- Loading fails exactly if an element of the list is blocked, and the store is then as after
loading the elements before the first such element. Otherwise the store is as if the elements had
been added one by one, with their places. -/
theorem load_exact {s : Store} (hs : Reachable s) (es : List Element) :
    ((∃ cause, (s.load es).2 = .error cause) ↔ ∃ before e, s.StopsAt es before e) ∧
      (∀ before e, s.StopsAt es before e →
        ∃ summary, s.load before = ((s.load es).1, .ok summary)) ∧
      ∀ summary, (s.load es).2 = .ok summary → s.LoadsAll (s.load es).1 es summary := by
  refine ⟨⟨?_, ?_⟩, ?_, fun summary => loadsAll_of_load hs⟩
  · rintro ⟨cause, failed⟩
    refine (s.exists_stop es).resolve_right fun free => ?_
    obtain ⟨t, summary, h⟩ := load_of_free hs free
    rw [h] at failed
    cases failed
  · rintro ⟨before, e, stop⟩
    obtain ⟨t, summary, cause, _, failed⟩ := load_of_stop hs stop
    exact ⟨cause, by rw [failed]⟩
  · intro before e stop
    obtain ⟨t, summary, cause, front, failed⟩ := load_of_stop hs stop
    exact ⟨summary, by rw [front, failed]⟩

private def ferry (id version : Int) (tile : Option Int) : Element :=
  .node (.bare id version (.zero false) tile)

private def fleet : List Element :=
  [ferry 2 1 (some 7), ferry 2 2 (some (-7)), ferry 1 3 none, ferry 3 1 none]

private def berth : Store := offered [ferry 1 3 none]

theorem load_exact_fleet : Reachable berth ∧
    berth.StopsAt fleet [ferry 2 1 (some 7), ferry 2 2 (some (-7))] (ferry 1 3 none) ∧
    ∃ summary, berth.load [ferry 2 1 (some 7), ferry 2 2 (some (-7))] =
      ((berth.load fleet).1, .ok summary) := by
  have stop : berth.StopsAt fleet [ferry 2 1 (some 7), ferry 2 2 (some (-7))] (ferry 1 3 none) := by
    refine ⟨⟨[ferry 3 1 none], rfl⟩, by decide +kernel, ?_⟩
    intro front x rest split
    match front, split with
    | [], split =>
      cases split
      decide +kernel
    | [_], split =>
      cases split
      decide +kernel
    | _ :: _ :: _, split => simp at split
  exact ⟨offered_reachable _, stop, (load_exact (offered_reachable _) fleet).2.1 _ _ stop⟩

end Store
end MapExtract
