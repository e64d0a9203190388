import MapExtract.Proofs.StoreStates

/-!
Histories, the tiles of nodes and the slots in order are three accounts of the same elements, and
they agree. So the slots can be searched by halving: the slot of a node that moves stands where it
is looked for.
-/

set_option autoImplicit false
namespace MapExtract
open Element (Kind Key)

namespace TileIndex

/-- Looks at the slot in the middle, and goes on behind it if it has the property, else before it. -/
def search (p : Slot → Bool) (slots : List Slot) (low high : Nat) : Nat :=
  if low < high then
    let middle := (low + high) / 2
    if (slots[middle]?).any p then search p slots (middle + 1) high
    else search p slots low middle
  else low
termination_by high - low

def position (p : Slot → Bool) (slots : List Slot) : Nat := search p slots 0 slots.length

def HoldsAtFront (p : Slot → Bool) (slots : List Slot) : Prop :=
  slots.Pairwise fun a b => p b = true → p a = true

variable {p : Slot → Bool} {slots : List Slot}

theorem countFront_le_length : countFront p slots ≤ slots.length :=
  (List.takeWhile_sublist p).length_le

theorem HoldsAtFront.getElem_iff (h : HoldsAtFront p slots) {i : Nat} (hi : i < slots.length) :
    p slots[i] = true ↔ i < countFront p slots := by
  induction slots generalizing i with
  | nil => cases hi
  | cons a rest ih =>
    obtain ⟨below, tail⟩ := List.pairwise_cons.mp h
    by_cases ha : p a = true
    · rw [countFront_of_pos ha]
      cases i with
      | zero => simp [ha]
      | succ i =>
        rw [List.getElem_cons_succ, ih tail, Nat.add_lt_add_iff_right]
    · rw [countFront_of_neg ha]
      cases i with
      | zero => simp [ha]
      | succ i =>
        have within : i < rest.length := Nat.lt_of_succ_lt_succ hi
        have lost : ¬p rest[i] = true := fun later => ha (below _ (List.getElem_mem within) later)
        simp [lost]

/-- The end of the front stays between the two positions, until they meet there. -/
theorem HoldsAtFront.search_eq (h : HoldsAtFront p slots) {low high : Nat}
    (above : low ≤ countFront p slots) (below : countFront p slots ≤ high)
    (inside : high ≤ slots.length) : search p slots low high = countFront p slots := by
  fun_induction search p slots low high with
  | case1 low high more middle holds ih =>
    have within : middle < slots.length := by omega
    rw [List.getElem?_eq_getElem within, Option.any_some, h.getElem_iff] at holds
    exact ih holds below inside
  | case2 low high more middle fails ih =>
    have within : middle < slots.length := by omega
    rw [List.getElem?_eq_getElem within, Option.any_some, h.getElem_iff] at fails
    exact ih above (by omega) (by omega)
  | case3 low high met => omega

theorem HoldsAtFront.position_eq (h : HoldsAtFront p slots) : position p slots = countFront p slots :=
  h.search_eq (Nat.zero_le _) countFront_le_length (Nat.le_refl _)

section Ascending
variable (ascending : slots.Pairwise fun a b => a.before b = true)
include ascending

theorem holdsAtFront_before (s : Slot) : HoldsAtFront (·.before s) slots :=
  ascending.imp fun ab bs => before_trans ab bs

theorem holdsAtFront_not_after (s : Slot) : HoldsAtFront (fun a => !s.before a) slots := by
  refine ascending.imp fun {a b} ab notAfter => ?_
  dsimp only at notAfter ⊢
  cases after : s.before a with
  | false => rfl
  | true =>
    rw [before_trans after ab] at notAfter
    cases notAfter

theorem holdsAtFront_tile_lt (low : Int) : HoldsAtFront (·.tile < low) slots := by
  refine ascending.imp fun ab inside => ?_
  rw [decide_eq_true_eq] at inside ⊢
  exact Int.lt_of_le_of_lt (tile_le_of_before ab) inside

theorem holdsAtFront_tile_le (high : Int) : HoldsAtFront (·.tile ≤ high) slots := by
  refine ascending.imp fun ab inside => ?_
  rw [decide_eq_true_eq] at inside ⊢
  exact Int.le_trans (tile_le_of_before ab) inside

theorem removeSlot_eq_eraseIdx (s : Slot) :
    removeSlot s slots = slots.eraseIdx (position (·.before s) slots) := by
  rw [(holdsAtFront_before ascending s).position_eq]
  rfl

theorem insertSlot_eq_insertIdx (s : Slot) :
    insertSlot s slots = slots.insertIdx (position (fun a => !s.before a) slots) s := by
  rw [(holdsAtFront_not_after ascending s).position_eq]
  clear ascending
  induction slots with
  | nil => rfl
  | cons a rest ih =>
    unfold insertSlot
    split
    · rename_i after
      rw [countFront_of_neg (by simp [after])]
      rfl
    · rename_i notAfter
      rw [countFront_of_pos (by simp [notAfter]), List.insertIdx_succ_cons, ← ih]

theorem getElem?_position {s : Slot} (hs : s ∈ slots) :
    slots[position (·.before s) slots]? = some s := by
  obtain ⟨i, hi, rfl⟩ := List.getElem_of_mem hs
  have front := holdsAtFront_before ascending slots[i]
  rw [front.position_eq]
  have notLater : ¬i < countFront (·.before slots[i]) slots := by
    rw [← front.getElem_iff hi, before_irrefl]
    decide
  have notEarlier : ¬countFront (·.before slots[i]) slots < i := by
    intro earlier
    have within := Nat.lt_trans earlier hi
    have before := List.pairwise_iff_getElem.mp ascending _ i within hi earlier
    exact Nat.lt_irrefl _ ((front.getElem_iff within).mp before)
  rw [Nat.le_antisymm (Nat.le_of_not_lt notLater) (Nat.le_of_not_lt notEarlier)]
  exact List.getElem?_eq_getElem hi

end Ascending

theorem WellFormed.range_eq_slice {x : TileIndex} (h : x.WellFormed) (low high : Int) :
    x.range low high = ((x.slots.take (position (·.tile ≤ high) x.slots)).drop
      (position (·.tile < low) x.slots)).map (·.id) := by
  rw [(holdsAtFront_tile_lt h.ascending low).position_eq,
    (holdsAtFront_tile_le h.ascending high).position_eq, range]

theorem WellFormed.slots_of {x : TileIndex} (h : x.WellFormed) (id : Int) :
    x.slots.filter (fun s => s.id = id) = (x.tiles.get? id).toList.map fun tile => ⟨tile, id⟩ := by
  have distinct : (x.slots.filter fun s => s.id = id).Nodup :=
    (h.ascending.imp ne_of_before).sublist List.filter_sublist
  have member (s : Slot) : s ∈ x.slots.filter (fun s => s.id = id) ↔
      s.id = id ∧ x.tiles.get? id = some s.tile := by
    rw [List.mem_filter, decide_eq_true_eq, And.comm]
    refine and_congr_right fun own => ?_
    rw [← own]
    exact h.indexed s.id s.tile
  cases ht : x.tiles.get? id with
  | none =>
    apply List.eq_nil_iff_forall_not_mem.mpr
    intro s hs
    have indexed := ((member s).mp hs).2
    rw [ht] at indexed
    cases indexed
  | some tile =>
    apply List.perm_singleton.mp
    rw [List.perm_ext_iff_of_nodup distinct (List.nodup_singleton _)]
    intro s
    rw [member, ht, List.mem_singleton, Slot.mk.injEq, Option.some_inj]
    exact ⟨fun h => ⟨h.2.symm, h.1⟩, fun h => ⟨h.2, h.1.symm⟩⟩

end TileIndex

namespace Store

structure Consistent (s : Store) : Prop where
  keys : (s.histories.map (·.1)).Nodup
  nonempty : ∀ k h, (k, h) ∈ s.histories → h ≠ []
  own : ∀ k h, (k, h) ∈ s.histories → ∀ e ∈ h, e.key = k
  versions : ∀ k h, (k, h) ∈ s.histories → h.Pairwise fun a b => a.version < b.version
  ascending : s.index.slots.Pairwise fun a b => a.tile < b.tile ∨ a.tile = b.tile ∧ a.id < b.id
  indexed : ∀ tile id, ⟨tile, id⟩ ∈ s.index.slots ↔ s.index.tiles.get? id = some tile
  single : ∀ id, s.index.slots.filter (fun slot => slot.id = id) =
    (s.index.tiles.get? id).toList.map fun tile => ⟨tile, id⟩
  known : ∀ id tile, s.index.tiles.get? id = some tile → ∃ h, ((Kind.node, id), h) ∈ s.histories
  found : ∀ id former, s.index.tiles.get? id = some former →
    s.index.slots[TileIndex.position (·.before ⟨former, id⟩) s.index.slots]? = some ⟨former, id⟩
  removed : ∀ id former, s.index.tiles.get? id = some former →
    s.index.others id =
        s.index.slots.eraseIdx (TileIndex.position (·.before ⟨former, id⟩) s.index.slots) ∧
      s.index.others id = s.index.slots.filter fun slot => slot.id ≠ id
  placed : ∀ id tile, (s.index.place id tile).slots = (s.index.others id).insertIdx
    (TileIndex.position (fun a => !TileIndex.Slot.before ⟨tile, id⟩ a) (s.index.others id)) ⟨tile, id⟩
  ranged : ∀ low high, s.index.range low high =
    ((s.index.slots.take (TileIndex.position (·.tile ≤ high) s.index.slots)).drop
      (TileIndex.position (·.tile < low) s.index.slots)).map (·.id)
  shown : ∀ low high, ∀ id ∈ s.index.range low high, ∃ n, s.current? (.node, id) = some (.node n)

theorem history_of_mem {s : Store} (h : s.WellFormed) {k : Key} {versions : History}
    (hm : (k, versions) ∈ s.histories) : s.history k = versions :=
  historyIn_of_mem h.distinct hm

theorem WellFormed.consistent {s : Store} (h : s.WellFormed) : s.Consistent where
  keys := h.distinct
  nonempty := h.nonempty
  own k versions hm := by
    rw [← history_of_mem h hm]
    exact h.filed k
  versions k versions hm := by
    rw [← history_of_mem h hm]
    exact h.ascending k
  ascending := by
    refine h.index.ascending.imp fun before => ?_
    simpa only [TileIndex.Slot.before, Bool.or_eq_true, Bool.and_eq_true, decide_eq_true_eq] using before
  indexed tile id := h.index.indexed id tile
  single := h.index.slots_of
  known id tile ht := ⟨_, mem_of_historyIn_ne_nil (h.known id tile ht)⟩
  found id former hf :=
    TileIndex.getElem?_position h.index.ascending ((h.index.indexed id former).mpr hf)
  removed id former hf := by
    refine ⟨?_, TileIndex.others_eq_filter h.index id⟩
    rw [TileIndex.others, hf]
    exact TileIndex.removeSlot_eq_eraseIdx h.index.ascending _
  placed id tile :=
    TileIndex.insertSlot_eq_insertIdx (TileIndex.others_ascending h.index id) _
  ranged := h.index.range_eq_slice
  shown low high id hid := by
    obtain ⟨tile, ht, _⟩ := (TileIndex.mem_range h.index low high id).mp hid
    exact current_of_tile h ht

/-- Whatever is added and loaded, and wherever it fails: histories hold the versions of their own
element in ascending order, and slots are in strictly ascending order, one for each node that has a
tile. -/
theorem reachable_consistent {s : Store} (hs : Reachable s) : s.Consistent := hs.wellFormed.consistent

private def market : Store :=
  ((offered [.node (.bare 1 1 (.zero false) (some 7)), .node (.bare 2 1 (.zero false) (some 5)),
    .node (.bare 1 2 (.zero false) (some 3)), .node (.bare 1 3 .nan none),
    .node (.bare 2 1 (.zero false) (some 9))]).load
      [.node (.bare 3 1 (.zero false) none), .node (.bare 4 1 .nan none)]).1

theorem reachable_consistent_market : Reachable market ∧ market.Consistent ∧
    market.index.slots = [⟨3, 1⟩, ⟨5, 2⟩, ⟨3221225472, 3⟩] ∧
    (market.history (.node, 1)).map Element.version = [1, 2, 3] := by
  have reached : Reachable market := (offered_reachable _).load
  exact ⟨reached, reachable_consistent reached, by decide +kernel, by decide +kernel⟩

end Store
end MapExtract
