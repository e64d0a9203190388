import MapExtract.Proofs.VersionLog

set_option autoImplicit false
namespace MapExtract.Store
open Element (Kind Key)

inductive Accepts : Store → List Element → Store → Prop
  | nil (s : Store) : Accepts s [] s
  | cons {s t u : Store} {e : Element} {es : List Element} (h : s.add e = (t, .ok ()))
      (rest : Accepts t es u) : Accepts s (e :: es) u

theorem append_eq_ok_iff (s : Store) (e : Element) : (s.append e).2 = .ok () ↔
    ∀ n, e = .node n → ∃ tile, n.indexTile = .ok tile := by
  cases e with
  | node n =>
    simp only [Element.node.injEq, forall_eq']
    unfold append
    dsimp only
    cases n.indexTile <;> simp
  | way w => exact iff_of_true rfl fun n hn => by cases hn
  | relation r => exact iff_of_true rfl fun n hn => by cases hn

theorem add_eq_ok_iff (s t : Store) (e : Element) : s.add e = (t, .ok ()) ↔
    s.Follows e ∧ (∀ n, e = .node n → ∃ tile, n.indexTile = .ok tile) ∧ t = (s.append e).1 := by
  rw [← append_eq_ok_iff s e]
  rcases s.add_cases e with ⟨last, hl, low, eq⟩ | ⟨follows, eq⟩
  · refine iff_of_false ?_ fun h => not_follows hl low h.1
    rw [eq]
    intro h
    cases h
  · rw [eq, Prod.ext_iff]
    constructor
    · rintro ⟨rfl, placed⟩
      exact ⟨follows, placed, rfl⟩
    · rintro ⟨_, placed, rfl⟩
      exact ⟨rfl, placed⟩

theorem accepts_of_foldlM {s t : Store} {es : List Element}
    (h : es.foldlM (fun s e => (s.add e).2.map fun _ => (s.add e).1) s = .ok t) : Accepts s es t := by
  induction es generalizing s with
  | nil =>
    cases h
    exact .nil _
  | cons e es ih =>
    rw [List.foldlM_cons] at h
    cases ha : s.add e with
    | mk kept outcome =>
      rw [ha] at h
      cases outcome with
      | error cause => cases h
      | ok _ => exact .cons ha (ih h)

theorem ofList_of_accepts {t : Store} {es : List Element} (h : Accepts empty es t) :
    ofList es = .ok t := by
  unfold ofList
  generalize empty = s at h
  induction h with
  | nil s => rfl
  | @cons s u t e es ha rest ih =>
    rw [List.foldlM_cons, ha]
    exact ih

theorem Accepts.reached {admits : Element → Prop} {s t : Store} {es : List Element}
    (h : Accepts s es t) (hs : Reached admits s) (admitted : ∀ e ∈ es, admits e) :
    Reached admits t := by
  induction h with
  | nil s => exact hs
  | @cons s t u e es ha rest ih =>
    have kept := hs.add (admitted e List.mem_cons_self)
    rw [ha] at kept
    exact ih kept fun x hx => admitted x (List.mem_cons_of_mem _ hx)

theorem withKey_cons (k : Key) (e : Element) (es : List Element) :
    withKey k (e :: es) = (if k = e.key then [e] else []) ++ withKey k es := by
  unfold withKey
  rw [List.filter_cons]
  by_cases own : e.key = k
  · simp [own]
  · simp [own, Ne.symm own]

theorem Accepts.history {s t : Store} {es : List Element} (h : Accepts s es t) (k : Key) :
    t.history k = s.history k ++ withKey k es := by
  induction h with
  | nil s => exact (List.append_nil _).symm
  | @cons s t u e es ha rest ih =>
    obtain ⟨_, _, rfl⟩ := (add_eq_ok_iff s t e).mp ha
    rw [ih, history_append, withKey_cons]
    split
    · exact List.append_assoc ..
    · rfl

/-- Exactly the current nodes are indexed, each under its tile. -/
def Indexed (s : Store) : Prop :=
  ∀ id tile, s.index.tiles.get? id = some tile ↔
    ∃ n, s.current? (.node, id) = some (.node n) ∧ n.indexTile = .ok tile

theorem empty_indexed : empty.Indexed := by
  intro id tile
  rw [show empty.index.tiles.get? id = none from Table.get?_empty id]
  refine iff_of_false (fun h => by cases h) ?_
  rintro ⟨n, h, _⟩
  cases h

theorem append_indexed {s : Store} (h : s.Indexed) {e : Element}
    (placed : ∀ n, e = .node n → ∃ tile, n.indexTile = .ok tile) : (s.append e).1.Indexed := by
  intro id tile
  rw [append_index, tiles_indexAfter, current_append]
  split
  · rename_i own
    cases e with
    | node n =>
      obtain ⟨found, ht⟩ := placed n rfl
      rw [(Element.tile?_node_eq_some n found).mpr ht]
      simp [ht]
    | way w => cases own
    | relation r => cases own
  · exact h id tile

theorem Accepts.indexed {s t : Store} {es : List Element} (h : Accepts s es t) (hs : s.Indexed) :
    t.Indexed := by
  induction h with
  | nil s => exact hs
  | @cons s t u e es ha rest ih =>
    obtain ⟨_, placed, rfl⟩ := (add_eq_ok_iff s t e).mp ha
    exact ih (append_indexed hs placed)

end MapExtract.Store
