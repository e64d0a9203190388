import MapExtract.Proofs.FailedAdditions

set_option autoImplicit false
namespace MapExtract
open Element (Kind Key)

theorem Element.indexTile_of_not_unplaced {n : Node} (h : ¬(Element.node n).Unplaced) :
    ∃ tile, n.indexTile = .ok tile := by
  cases ht : n.indexTile with
  | ok tile => exact ⟨tile, rfl⟩
  | error cause => exact absurd ((Node.indexTile_eq_error_iff n cause).mp ht).1 h

namespace Store

def latestTile (h : History) : Option Int := (h.filterMap Element.tile?).getLast?

theorem latestTile_concat (h : History) (e : Element) :
    latestTile (h ++ [e]) = e.tile?.or (latestTile h) := by
  unfold latestTile
  rw [List.filterMap_append, List.getLast?_append]
  cases ht : e.tile? <;> simp [ht]

theorem latestTile_of_last {h : History} {e : Element} {tile : Int} (hl : h.getLast? = some e)
    (ht : e.tile? = some tile) : latestTile h = some tile := by
  obtain ⟨front, rfl⟩ := List.getLast?_eq_some_iff.mp hl
  rw [latestTile_concat, ht]
  rfl

def FoundByTile (s : Store) : Prop :=
  ∀ id, s.index.tiles.get? id = latestTile (s.history (.node, id))

theorem append_foundByTile {s : Store} (h : s.FoundByTile) (e : Element) :
    (s.append e).1.FoundByTile := by
  intro id
  rw [append_index, tiles_indexAfter, history_append, h id]
  split
  · rw [latestTile_concat]
  · rfl

theorem Reached.foundByTile {admits : Element → Prop} {s : Store} (hs : Reached admits s) :
    s.FoundByTile := by
  apply hs.preserves
  · intro id
    exact Table.get?_empty id
  · intro s e h _
    apply add_preserves h
    intro _
    exact append_foundByTile h e

/-- The tile of the last accepted version of a node that has a tile. -/
def indexedTile (es : List Element) (id : Int) : Option Int :=
  latestTile (records (withKey (.node, id) es))

theorem tiles_offered (es : List Element) (id : Int) :
    (offered es).index.tiles.get? id = indexedTile es id := by
  rw [(offered_reachable es).foundByTile, history_offered, indexedTile]

theorem get_eq_ok_iff_current? (s : Store) (k : Key) (e : Element) :
    s.get k = .ok e ↔ s.current? k = some e := by
  unfold get
  cases s.current? k <;> simp

def FailsOnPlace (s : Store) (e : Element) : Prop :=
  ∃ value, (s.add e).2 = .error (.notFinite value)

theorem failsOnPlace_iff (s : Store) (e : Element) :
    s.FailsOnPlace e ↔ s.Follows e ∧ e.Unplaced := by
  constructor
  · rintro ⟨value, failed⟩
    rcases add_eq_error_cases (Prod.ext rfl failed) with ⟨_, _, last, conflict⟩ | ⟨follows, unplaced, _⟩
    · cases conflict
    · exact ⟨follows, unplaced⟩
  · rintro ⟨follows, unplaced⟩
    rcases s.add_cases e with ⟨last, hl, low, _⟩ | ⟨_, eq⟩
    · exact absurd follows (not_follows hl low)
    · exact ⟨_, by rw [eq, (append_snd_eq_error_iff s e _).mpr ⟨unplaced, rfl⟩]⟩

def NeverFailsOnPlace (es : List Element) : Prop :=
  ∀ front e rest, es = front ++ e :: rest → ¬(offered front).FailsOnPlace e

theorem history_placed {es : List Element} (h : NeverFailsOnPlace es) (k : Key) :
    ∀ e ∈ (offered es).history k, ¬e.Unplaced := by
  induction es using List.reverseRecOn generalizing k with
  | nil => exact fun e he => nomatch he
  | append_singleton es x ih =>
    have before : NeverFailsOnPlace es := by
      intro front e rest split
      apply h front e (rest ++ [x])
      rw [split, List.append_assoc]
      rfl
    have last : ¬(offered es).FailsOnPlace x := h es x [] rfl
    rw [failsOnPlace_iff] at last
    intro e
    rw [offered_concat]
    apply add_preserves (I := fun s => e ∈ s.history k → ¬e.Unplaced) (ih before k e)
    -- What is kept follows the store, so without a tile it would have failed.
    intro follows he
    rw [history_append] at he
    split at he
    · rcases List.mem_append.mp he with he | he
      · exact ih before k e he
      · rw [List.mem_singleton.mp he]
        exact fun unplaced => last ⟨follows, unplaced⟩
    · exact ih before k e he

theorem indexedTile_eq_some_iff {es : List Element} (h : NeverFailsOnPlace es) (id tile : Int) :
    indexedTile es id = some tile ↔
      ∃ n, (offered es).get (.node, id) = .ok (.node n) ∧ n.indexTile = .ok tile := by
  have latest : indexedTile es id = latestTile ((offered es).history (.node, id)) := by
    rw [history_offered, indexedTile]
  rw [latest]
  simp only [get_eq_ok_iff_current?]
  constructor
  · intro ht
    cases hl : (offered es).current? (.node, id) with
    | none =>
      rw [List.getLast?_eq_none_iff.mp hl] at ht
      cases ht
    | some e =>
      have own := key_of_current (offered_reachable es).wellFormed hl
      cases e with
      | node n =>
        obtain ⟨found, hf⟩ :=
          Element.indexTile_of_not_unplaced (history_placed h _ _ (List.mem_of_getLast? hl))
        have same := latestTile_of_last hl ((Element.tile?_node_eq_some n found).mpr hf)
        rw [ht] at same
        cases same
        exact ⟨n, rfl, hf⟩
      | way w => cases own
      | relation r => cases own
  · intro ⟨n, hl, hn⟩
    apply latestTile_of_last hl
    exact (Element.tile?_node_eq_some n tile).mpr hn

/-- The current versions of the nodes that are indexed in a range, in order of tile and number. -/
structure Scans (es : List Element) (low high : Int) (found : List Node) : Prop where
  current : ∀ n ∈ found, (offered es).get (.node, n.id) = .ok (.node n)
  ids : ∀ id, id ∈ found.map (·.id) ↔ ∃ tile, indexedTile es id = some tile ∧ low ≤ tile ∧ tile ≤ high
  sorted : found.Pairwise fun a b => ∃ t u, indexedTile es a.id = some t ∧
    indexedTile es b.id = some u ∧ (t < u ∨ t = u ∧ a.id < b.id)
  distinct : (found.map (·.id)).Nodup

theorem scans_range (es : List Element) (low high : Int) :
    Scans es low high ((offered es).range low high) := by
  have hs := (offered_reachable es).wellFormed
  have ascending := TileIndex.range_ascending hs.index low high
  have distinct := TileIndex.nodup_range hs.index low high
  rw [← range_ids hs] at ascending distinct
  refine ⟨fun n hn => ?_, fun id => ?_, ?_, distinct⟩
  · exact (get_eq_ok_iff_current? _ _ _).mpr ((mem_range hs low high n).mp hn).1
  · rw [range_ids hs, TileIndex.mem_range hs.index, tiles_offered]
  · simpa only [List.pairwise_map, tiles_offered] using ascending

/-- Whatever was offered to an empty store, a range of tiles lists each node that is indexed in it,
in order of tile and number, and always the current version. -/
theorem range_scans_nodes (es : List Element) (low high : Int) :
    Scans es low high ((offered es).range low high) ∧
      (NeverFailsOnPlace es → ∀ id, id ∈ ((offered es).range low high).map (·.id) ↔
        ∃ n tile, (offered es).get (.node, id) = .ok (.node n) ∧ n.indexTile = .ok tile ∧
          low ≤ tile ∧ tile ≤ high) := by
  refine ⟨scans_range es low high, fun never id => ?_⟩
  rw [(scans_range es low high).ids]
  constructor
  · intro ⟨tile, ht, bounds⟩
    obtain ⟨n, hn, own⟩ := (indexedTile_eq_some_iff never id tile).mp ht
    exact ⟨n, tile, hn, own, bounds⟩
  · intro ⟨n, tile, hn, own, bounds⟩
    exact ⟨tile, (indexedTile_eq_some_iff never id tile).mpr ⟨n, hn, own⟩, bounds⟩

theorem neverFailsOnPlace_of_placed {es : List Element} (h : ∀ e ∈ es, ¬e.Unplaced) :
    NeverFailsOnPlace es := by
  intro front e rest split failed
  apply h e
  · rw [split]
    exact List.mem_append_right _ List.mem_cons_self
  · exact ((failsOnPlace_iff _ e).mp failed).2

private def beacons : List Element :=
  [.node (.bare 1 1 (.zero false) none), .node (.bare 3 1 .nan (some 0)),
    .node (.bare 2 1 (.zero true) (some (-3))), .node (.bare 1 2 (.zero false) (some 0))]

theorem range_scans_beacons : NeverFailsOnPlace beacons ∧
    ((offered beacons).range (-3) 0).map (fun n => (n.id, n.info.version)) = [(2, 1), (1, 2), (3, 1)] ∧
    ∃ n tile, (offered beacons).get (.node, 1) = .ok (.node n) ∧ n.indexTile = .ok tile ∧
      -3 ≤ tile ∧ tile ≤ 0 := by
  have never : NeverFailsOnPlace beacons := neverFailsOnPlace_of_placed (by decide +kernel)
  have listed : ((offered beacons).range (-3) 0).map (fun n => (n.id, n.info.version)) =
      [(2, 1), (1, 2), (3, 1)] := by decide +kernel
  refine ⟨never, listed, ((range_scans_nodes beacons (-3) 0).2 never 1).mp ?_⟩
  decide +kernel

example : ((offered [.node (.bare 1 1 (.zero false) (some 7)), .node (.bare 1 2 .nan none)]).range 7 7).map
    (·.info.version) = [2] := by decide +kernel

end Store
end MapExtract
