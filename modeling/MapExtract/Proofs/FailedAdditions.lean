import MapExtract.Proofs.Loading

/-!
A node for which there is no tile fails only after it was kept: its history has grown and the tile
index has not.
-/

set_option autoImplicit false
namespace MapExtract
open Element (Kind Key)

/-- A node that carries no tile, and has no coordinates to take one from. -/
def Element.Unplaced : Element → Prop
  | .node n => n.tile = none ∧ (n.latitude = .nan ∨ n.longitude = .nan)
  | _ => False

instance : (e : Element) → Decidable e.Unplaced
  | .node n => inferInstanceAs (Decidable (n.tile = none ∧ (n.latitude = .nan ∨ n.longitude = .nan)))
  | .way _ | .relation _ => isFalse id

theorem Node.place_eq_error_iff (n : Node) (cause : Error) : n.place = .error cause ↔
    (n.latitude = .nan ∨ n.longitude = .nan) ∧ cause = .notFinite (.nan false false 0) := by
  have lost : (n.latitude = .nan ∨ n.longitude = .nan) ↔ ¬∃ tile, n.place = .ok tile := by
    simp only [n.place_isOk_iff, ne_eq, not_and_or, not_not]
  rw [lost]
  cases hp : n.place with
  | ok tile => simp
  | error own =>
    have reason : own = .notFinite (.nan false false 0) := Tile.ofPoint_eq_error hp
    simp [reason, eq_comm]

theorem Node.indexTile_eq_error_iff (n : Node) (cause : Error) : n.indexTile = .error cause ↔
    (Element.node n).Unplaced ∧ cause = .notFinite (.nan false false 0) := by
  change _ ↔ (n.tile = none ∧ (n.latitude = .nan ∨ n.longitude = .nan)) ∧ _
  rw [and_assoc, ← place_eq_error_iff]
  unfold indexTile
  cases n.tile with
  | some tile => simp
  | none => cases n.place <;> simp [Except.map]

namespace Store

theorem append_snd_eq_error_iff (s : Store) (e : Element) (cause : Error) :
    (s.append e).2 = .error cause ↔ e.Unplaced ∧ cause = .notFinite (.nan false false 0) := by
  cases e with
  | node n =>
    rw [← Node.indexTile_eq_error_iff]
    unfold append
    dsimp only
    cases n.indexTile <;> simp
  | way w => exact iff_of_false (fun h => nomatch h) (fun h => h.1)
  | relation r => exact iff_of_false (fun h => nomatch h) (fun h => h.1)

theorem add_eq_error_cases {s t : Store} {e : Element} {cause : Error}
    (h : s.add e = (t, .error cause)) :
    (¬s.Follows e ∧ t = s ∧ ∃ last, cause = .versionConflict e.kind e.id e.version last) ∨
      (s.Follows e ∧ e.Unplaced ∧ t = (s.append e).1 ∧ cause = .notFinite (.nan false false 0)) := by
  rcases s.add_cases e with ⟨last, hl, low, eq⟩ | ⟨follows, eq⟩
  · left
    rw [h] at eq
    cases eq
    exact ⟨not_follows hl low, rfl, last.version, rfl⟩
  · right
    rw [h] at eq
    have failed : (s.append e).2 = .error cause := by rw [← eq]
    obtain ⟨unplaced, reason⟩ := (append_snd_eq_error_iff s e cause).mp failed
    exact ⟨follows, unplaced, congrArg Prod.fst eq, reason⟩

theorem indexAfter_of_unplaced {e : Element} (h : e.Unplaced) (s : Store) :
    s.indexAfter e = s.index := by
  cases e with
  | node n =>
    have none := (Node.indexTile_eq_error_iff n _).mpr ⟨h, rfl⟩
    simp only [indexAfter, none]
  | way w => rfl
  | relation r => rfl

structure Unchanged (s t : Store) : Prop where
  get : ∀ k, t.get k = s.get k
  history : ∀ k, t.getHistory k = s.getHistory k
  version : ∀ k v, t.getVersion k v = s.getVersion k v
  visibility : ∀ k, t.visibility k = s.visibility k
  current : ∀ kind, t.current kind = s.current kind
  range : ∀ low high, t.range low high = s.range low high
  size : t.size = s.size

theorem Unchanged.refl (s : Store) : s.Unchanged s :=
  ⟨fun _ => rfl, fun _ => rfl, fun _ _ => rfl, fun _ => rfl, fun _ => rfl, fun _ _ => rfl, rfl⟩

/-- A node was kept as the current version, and the tile index does not know of it. -/
structure KeptUnplaced (s t : Store) (e : Element) : Prop where
  unplaced : e.Unplaced
  history : t.getHistory e.key = .ok (s.history e.key ++ [e])
  get : t.get e.key = .ok e
  others : ∀ k, k ≠ e.key → t.getHistory k = s.getHistory k ∧ t.get k = s.get k
  ids : ∀ low high, (t.range low high).map (·.id) = (s.range low high).map (·.id)

theorem getHistory_append (s : Store) (e : Element) :
    (s.append e).1.getHistory e.key = .ok (s.history e.key ++ [e]) := by
  rw [getHistory_eq, history_append, if_pos rfl, if_neg (by simp)]

theorem append_changed (s : Store) (e : Element) : ¬s.Unchanged (s.append e).1 := by
  intro unchanged
  have same := unchanged.history e.key
  rw [getHistory_append, getHistory_eq] at same
  split at same
  · cases same
  · simp at same

theorem append_keptUnplaced {s : Store} (hs : s.WellFormed) {e : Element} (follows : s.Follows e)
    (h : e.Unplaced) : s.KeptUnplaced (s.append e).1 e where
  unplaced := h
  history := getHistory_append s e
  get := by rw [get, current_append, if_pos rfl]
  others k other := by
    rw [getHistory_eq, getHistory_eq, history_append, if_neg other, get, get, current_append,
      if_neg other]
    exact ⟨rfl, rfl⟩
  ids low high := by
    rw [range_ids (append_wellFormed hs follows), range_ids hs, append_index, indexAfter_of_unplaced h]

/-- An addition that fails leaves all answers as they were exactly if the version does not follow
the last one. Otherwise it failed for a node without a tile, and this node has been kept. -/
theorem failed_add {s t : Store} (hs : Reachable s) {e : Element} {cause : Error}
    (h : s.add e = (t, .error cause)) :
    (s.Unchanged t ↔ ¬s.Follows e) ∧ (s.Follows e → s.KeptUnplaced t e) := by
  rcases add_eq_error_cases h with ⟨refused, rfl, _⟩ | ⟨follows, unplaced, rfl, _⟩
  · exact ⟨iff_of_true (Unchanged.refl _) refused, fun follows => absurd follows refused⟩
  · refine ⟨iff_of_false (append_changed s e) (not_not_intro follows), fun _ => ?_⟩
    exact append_keptUnplaced hs.wellFormed follows unplaced

private def buoy (version : Int) (latitude : Binary64) : Element :=
  .node (.bare 1 version latitude none)

private def moored : Store := offered [buoy 1 (.zero false)]

private def adrift : Store := (moored.add (buoy 2 .nan)).1

private theorem moored_add :
    moored.add (buoy 2 .nan) = (adrift, .error (.notFinite (.nan false false 0))) := by
  decide +kernel

theorem failed_add_adrift :
    moored.add (buoy 2 .nan) = (adrift, .error (.notFinite (.nan false false 0))) ∧
      moored.KeptUnplaced adrift (buoy 2 .nan) := by
  have follows : moored.Follows (buoy 2 .nan) := by
    intro last h
    have first : moored.current? (buoy 2 .nan).key = some (buoy 1 (.zero false)) := by decide +kernel
    rw [first] at h
    cases h
    decide
  exact ⟨moored_add, (failed_add (offered_reachable _) moored_add).2 follows⟩

theorem failed_add_changes_current : Reachable moored ∧
    moored.add (buoy 2 .nan) = (adrift, .error (.notFinite (.nan false false 0))) ∧
    ¬moored.Unchanged adrift := by
  refine ⟨offered_reachable _, moored_add, fun unchanged => ?_⟩
  have before : moored.get (.node, 1) = .ok (buoy 1 (.zero false)) := by decide +kernel
  have after : adrift.get (.node, 1) = .ok (buoy 2 .nan) := by decide +kernel
  have same := unchanged.get (.node, 1)
  rw [before, after] at same
  cases same

end Store
end MapExtract
