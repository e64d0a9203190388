import MapExtract.Proofs.AcceptedElements
import MapExtract.Proofs.TileOrder
import MapExtract.Proofs.Traversal

set_option autoImplicit false
namespace MapExtract
open Element (Key)

theorem Tile.ofPoint_isOk_iff (lat lon : Binary64) :
    (∃ t, ofPoint (.binary lat) (.binary lon) = .ok t) ↔ lat ≠ .nan ∧ lon ≠ .nan := by
  refine ⟨fun ⟨t, ht⟩ => ?_, fun ⟨hlat, hlon⟩ => ofPoint_isOk hlat hlon⟩
  unfold ofPoint at ht
  constructor
  · rintro rfl
    cases hx : Axis.longitude.cellOf (.binary lon) <;> rw [hx] at ht <;> cases ht
  · rintro rfl
    cases ht

theorem Node.place_isOk_iff (n : Node) :
    (∃ tile, n.place = .ok tile) ↔ n.latitude ≠ .nan ∧ n.longitude ≠ .nan :=
  Tile.ofPoint_isOk_iff n.latitude n.longitude

namespace Element

theorem located_node (n : Node) : (Element.node n).located =
    n.place.map fun tile => .node { n with tile := some (tile : Int) } := by
  simp only [located, Node.located]
  cases n.place <;> rfl

/-- The coordinates of a node are numbers, or there are none. -/
def HasPlace : Element → Prop
  | .node n => n.latitude ≠ .nan ∧ n.longitude ≠ .nan
  | _ => True

instance : (e : Element) → Decidable e.HasPlace
  | .node n => inferInstanceAs (Decidable (n.latitude ≠ .nan ∧ n.longitude ≠ .nan))
  | .way _ | .relation _ => isTrue trivial

theorem located_isOk_iff (e : Element) : (∃ placed, e.located = .ok placed) ↔ e.HasPlace := by
  cases e with
  | node n =>
    rw [show (Element.node n).HasPlace = (n.latitude ≠ .nan ∧ n.longitude ≠ .nan) from rfl,
      ← Node.place_isOk_iff, located_node]
    cases n.place with
    | error cause => exact iff_of_false (fun ⟨_, h⟩ => nomatch h) (fun ⟨_, h⟩ => nomatch h)
    | ok tile => exact iff_of_true ⟨_, rfl⟩ ⟨tile, rfl⟩
  | way w => exact iff_of_true ⟨_, rfl⟩ trivial
  | relation r => exact iff_of_true ⟨_, rfl⟩ trivial

theorem located_cases {e placed : Element} (h : e.located = .ok placed) :
    (∃ n tile, e = .node n ∧ placed = .node { n with tile := some tile }) ∨
      placed = e ∧ ∀ n, e ≠ .node n := by
  cases e with
  | node n =>
    rw [located_node] at h
    cases hp : n.place with
    | error cause =>
      rw [hp] at h
      cases h
    | ok tile =>
      rw [hp] at h
      cases h
      exact .inl ⟨n, tile, rfl, rfl⟩
  | way w =>
    cases h
    exact .inr ⟨rfl, fun n hn => by cases hn⟩
  | relation r =>
    cases h
    exact .inr ⟨rfl, fun n hn => by cases hn⟩

theorem key_of_located {e placed : Element} (h : e.located = .ok placed) : placed.key = e.key := by
  rcases located_cases h with ⟨n, tile, rfl, rfl⟩ | ⟨rfl, _⟩ <;> rfl

theorem version_of_located {e placed : Element} (h : e.located = .ok placed) :
    placed.version = e.version := by
  rcases located_cases h with ⟨n, tile, rfl, rfl⟩ | ⟨rfl, _⟩ <;> rfl

theorem indexTile_of_located {e placed : Element} (h : e.located = .ok placed) (n : Node)
    (hn : placed = .node n) : ∃ tile, n.indexTile = .ok tile := by
  rcases located_cases h with ⟨m, tile, rfl, rfl⟩ | ⟨rfl, noNode⟩
  · cases hn
    exact ⟨tile, rfl⟩
  · exact absurd hn (noNode n)

end Element

def VersionsAscend (es : List Element) : Prop :=
  es.Pairwise fun a b => a.key = b.key → a.version < b.version

theorem versionsAscend_cons (e : Element) (es : List Element) : VersionsAscend (e :: es) ↔
    (∀ x ∈ es, e.key = x.key → e.version < x.version) ∧ VersionsAscend es :=
  List.pairwise_cons

namespace Store

theorem follows_append {s : Store} {e : Element} (h : s.Follows e) (x : Element) :
    (s.append e).1.Follows x ↔ s.Follows x ∧ (e.key = x.key → e.version < x.version) := by
  unfold Follows at *
  rw [current_append]
  by_cases same : x.key = e.key
  · simp only [same, if_true, Option.some.injEq, forall_eq', forall_const]
    refine ⟨fun above => ⟨fun last hl => ?_, above⟩, And.right⟩
    have := h last hl
    omega
  · simp only [if_neg same, Ne.symm same, false_implies, and_true]

theorem accepts_iff (s : Store) (es : List Element) : (∃ t, Accepts s es t) ↔
    (∀ e ∈ es, s.Follows e ∧ ∀ n, e = .node n → ∃ tile, n.indexTile = .ok tile) ∧
      VersionsAscend es := by
  induction es generalizing s with
  | nil => exact iff_of_true ⟨s, .nil s⟩ ⟨fun e he => (nomatch he), .nil⟩
  | cons e es ih =>
    -- The first element is accepted, and the others by the store that has it.
    have first : (∃ t, Accepts s (e :: es) t) ↔ s.Follows e ∧
        (∀ n, e = .node n → ∃ tile, n.indexTile = .ok tile) ∧
          ∃ t, Accepts (s.append e).1 es t := by
      constructor
      · rintro ⟨t, ha | ⟨ha, rest⟩⟩
        obtain ⟨follows, indexed, rfl⟩ := (add_eq_ok_iff s _ e).mp ha
        exact ⟨follows, indexed, t, rest⟩
      · rintro ⟨follows, indexed, t, rest⟩
        exact ⟨t, .cons ((add_eq_ok_iff s _ e).mpr ⟨follows, indexed, rfl⟩) rest⟩
    rw [first, ih, List.forall_mem_cons, versionsAscend_cons]
    constructor
    · rintro ⟨follows, indexed, others, ascend⟩
      have split := fun x hx => (follows_append follows x).mp (others x hx).1
      exact ⟨⟨⟨follows, indexed⟩, fun x hx => ⟨(split x hx).1, (others x hx).2⟩⟩,
        fun x hx => (split x hx).2, ascend⟩
    · rintro ⟨⟨⟨follows, indexed⟩, others⟩, below, ascend⟩
      exact ⟨follows, indexed, fun x hx =>
        ⟨(follows_append follows x).mpr ⟨(others x hx).1, below x hx⟩, (others x hx).2⟩, ascend⟩

theorem loadAfter_eq_ok_iff (s t : Store) (summary : Summary) (es : List Element) :
    (∃ counted, s.loadAfter summary es = (t, .ok counted)) ↔
      ∃ placed, es.mapM Element.located = .ok placed ∧ Accepts s placed t := by
  simp only [mapM_eq_ok_iff]
  induction es generalizing s summary with
  | nil =>
    simp only [List.forall₂_nil_left_iff, exists_eq_left, loadAfter, Prod.mk.injEq]
    constructor
    · rintro ⟨_, rfl, _⟩
      exact .nil _
    · intro h
      cases h
      exact ⟨summary, rfl, rfl⟩
  | cons e es ih =>
    -- Both sides fail at the first element that has no place or is refused.
    have outcome := offer_snd summary e
    simp only [List.forall₂_cons_left_iff]
    unfold loadAfter
    cases ho : summary.offer e with
    | mk counted located =>
      rw [ho] at outcome
      dsimp only at outcome
      subst outcome
      cases hl : e.located with
      | error cause => simp
      | ok placed =>
        cases ha : s.add placed with
        | mk kept added =>
          cases added with
          | error cause =>
            refine iff_of_false (by simp [ha]) ?_
            rintro ⟨_, ⟨_, _, hp, _, rfl⟩, ha' | ⟨ha', _⟩⟩
            cases hp
            rw [ha] at ha'
            cases ha'
          | ok _ =>
            simp only [ha, ih kept counted]
            constructor
            · rintro ⟨rest, located, accepted⟩
              exact ⟨_, ⟨placed, rest, rfl, located, rfl⟩, .cons ha accepted⟩
            · rintro ⟨_, ⟨_, rest, hp, located, rfl⟩, ha' | ⟨ha', accepted⟩⟩
              cases hp
              rw [ha] at ha'
              cases ha'
              exact ⟨rest, located, accepted⟩

theorem versionsAscend_of_located {es placed : List Element}
    (h : es.mapM Element.located = .ok placed) : VersionsAscend placed ↔ VersionsAscend es := by
  rw [mapM_eq_ok_iff] at h
  have same : placed.map (fun e => (e.key, e.version)) = es.map fun e => (e.key, e.version) := by
    induction h with
    | nil => rfl
    | cons head _ ih =>
      rw [List.map_cons, List.map_cons, ih, Element.key_of_located head,
        Element.version_of_located head]
  have byPairs : ∀ xs : List Element, VersionsAscend xs ↔
      (xs.map fun e => (e.key, e.version)).Pairwise fun a b => a.1 = b.1 → a.2 < b.2 := by
    intro xs
    rw [List.pairwise_map]
    rfl
  rw [byPairs, byPairs, same]

theorem load_isOk_iff (es : List Element) : (∃ summary, (empty.load es).2 = .ok summary) ↔
    (∀ e ∈ es, e.HasPlace) ∧ VersionsAscend es := by
  have asRun : (∃ summary, (empty.load es).2 = .ok summary) ↔
      ∃ t, ∃ summary, empty.load es = (t, .ok summary) := by
    constructor
    · rintro ⟨summary, h⟩
      exact ⟨(empty.load es).1, summary, Prod.ext rfl h⟩
    · rintro ⟨t, summary, h⟩
      exact ⟨summary, by rw [h]⟩
  simp only [← Element.located_isOk_iff, ← mapM_isOk_iff, asRun]
  simp only [load, loadAfter_eq_ok_iff]
  constructor
  · rintro ⟨t, placed, located, accepted⟩
    have ascend := ((accepts_iff empty placed).mp ⟨t, accepted⟩).2
    exact ⟨⟨placed, located⟩, (versionsAscend_of_located located).mp ascend⟩
  · rintro ⟨⟨placed, located⟩, ascend⟩
    have indexed : ∀ p ∈ placed, ∀ n, p = .node n → ∃ tile, n.indexTile = .ok tile := by
      intro p hp
      obtain ⟨e, _, he⟩ := (mem_of_mapM_eq_ok located p).mp hp
      exact Element.indexTile_of_located he
    obtain ⟨t, accepted⟩ := (accepts_iff empty placed).mpr
      ⟨fun p hp => ⟨fun last hl => (nomatch hl), indexed p hp⟩,
        (versionsAscend_of_located located).mpr ascend⟩
    exact ⟨t, placed, located, accepted⟩

/-- After loading, each history holds the elements of its key with their places, and ascends. -/
theorem history_load {es : List Element} {summary : Summary} (h : (empty.load es).2 = .ok summary)
    (k : Key) : ((empty.load es).1.history k).Pairwise (fun a b => a.version < b.version) ∧
      ∀ placed, placed ∈ (empty.load es).1.history k ↔
        ∃ e ∈ es, e.key = k ∧ e.located = .ok placed := by
  obtain ⟨placed, located, accepted⟩ :=
    (loadAfter_eq_ok_iff empty _ .empty es).mp ⟨summary, Prod.ext rfl h⟩
  have history : (empty.load es).1.history k = withKey k placed := accepted.history k
  rw [history]
  constructor
  · have ascend := ((accepts_iff empty placed).mp ⟨_, accepted⟩).2
    refine (ascend.filter _).imp_of_mem fun {a b} ha hb above => above ?_
    exact (mem_withKey.mp ha).2.trans (mem_withKey.mp hb).2.symm
  · intro p
    rw [mem_withKey, mem_of_mapM_eq_ok located]
    constructor
    · rintro ⟨⟨e, he, hp⟩, own⟩
      exact ⟨e, he, (Element.key_of_located hp).symm.trans own, hp⟩
    · rintro ⟨e, he, own, hp⟩
      exact ⟨⟨e, he, hp⟩, (Element.key_of_located hp).trans own⟩

end Store
end MapExtract
