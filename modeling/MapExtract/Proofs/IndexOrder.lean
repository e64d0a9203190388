import Mathlib.Data.List.Basic
import MapExtract.Store.TileIndex

set_option autoImplicit false
namespace MapExtract.TileIndex

structure WellFormed (x : TileIndex) : Prop where
  ascending : x.slots.Pairwise fun a b => a.before b = true
  indexed : ∀ id tile, ⟨tile, id⟩ ∈ x.slots ↔ x.tiles.get? id = some tile

theorem empty_wellFormed : empty.WellFormed := by
  refine ⟨List.Pairwise.nil, ?_⟩
  intro id tile
  rw [show (empty.tiles.get? id) = none from Table.get?_empty id]
  simp [empty]

theorem countFront_of_pos {p : Slot → Bool} {a : Slot} (h : p a = true) (rest : List Slot) :
    countFront p (a :: rest) = countFront p rest + 1 := by
  unfold countFront
  rw [List.takeWhile_cons_of_pos h, List.length_cons]

theorem countFront_of_neg {p : Slot → Bool} {a : Slot} (h : ¬p a = true) (rest : List Slot) :
    countFront p (a :: rest) = 0 := by
  unfold countFront
  rw [List.takeWhile_cons_of_neg h, List.length_nil]

theorem ne_of_before {a b : Slot} (h : a.before b = true) : a ≠ b := by
  rintro rfl
  rw [before_irrefl] at h
  cases h

theorem tile_le_of_before {a b : Slot} (h : a.before b = true) : a.tile ≤ b.tile := by
  simp only [Slot.before, Bool.or_eq_true, Bool.and_eq_true, decide_eq_true_eq] at h
  omega

theorem removeSlot_eq_filter {s : Slot} {slots : List Slot}
    (h : slots.Pairwise fun a b => a.before b = true) (hs : s ∈ slots) :
    removeSlot s slots = slots.filter (· ≠ s) := by
  unfold removeSlot
  induction slots with
  | nil => cases hs
  | cons a rest ih =>
    obtain ⟨below, tail⟩ := List.pairwise_cons.mp h
    by_cases ha : a.before s = true
    · have other : a ≠ s := ne_of_before ha
      have hr : s ∈ rest := (List.mem_cons.mp hs).resolve_left (Ne.symm other)
      have count : countFront (·.before s) (a :: rest) = countFront (·.before s) rest + 1 :=
        countFront_of_pos (p := (·.before s)) ha rest
      rw [count, List.eraseIdx_cons_succ, ih tail hr, List.filter_cons_of_pos (by simpa)]
    · have here : s = a := by
        rcases List.mem_cons.mp hs with e | hr
        · exact e
        · exact absurd (below s hr) ha
      subst here
      have count : countFront (·.before s) (s :: rest) = 0 :=
        countFront_of_neg (p := (·.before s)) ha rest
      rw [count, List.eraseIdx_cons_zero, List.filter_cons_of_neg (by simp)]
      symm
      rw [List.filter_eq_self]
      intro b hb
      simpa using (ne_of_before (below b hb)).symm

theorem insertSlot_ascending {s : Slot} {slots : List Slot}
    (h : slots.Pairwise fun a b => a.before b = true) (fresh : s ∉ slots) :
    (insertSlot s slots).Pairwise fun a b => a.before b = true := by
  induction slots with
  | nil => simp [insertSlot]
  | cons a rest ih =>
    obtain ⟨below, tail⟩ := List.pairwise_cons.mp h
    simp only [insertSlot]
    split
    · rename_i first
      refine List.pairwise_cons.mpr ⟨?_, h⟩
      intro b hb
      rcases List.mem_cons.mp hb with rfl | hb
      · exact first
      · exact before_trans first (below b hb)
    · rename_i later
      refine List.pairwise_cons.mpr ⟨?_, ih tail (fun hr => fresh (by simp [hr]))⟩
      intro b hb
      rcases mem_insertSlot.mp hb with rfl | hb
      · by_contra notBefore
        apply fresh
        rw [eq_of_not_before (Bool.eq_false_iff.mpr later) (Bool.eq_false_iff.mpr notBefore)]
        exact List.mem_cons_self
      · exact below b hb

/-- The slots that stay when a node is put under a tile: those of the other nodes. -/
def others (x : TileIndex) (id : Int) : List Slot :=
  match x.tiles.get? id with
  | some former => removeSlot ⟨former, id⟩ x.slots
  | none => x.slots

theorem place_slots (x : TileIndex) (id tile : Int) :
    (x.place id tile).slots = insertSlot ⟨tile, id⟩ (x.others id) := rfl

theorem others_eq_filter {x : TileIndex} (h : x.WellFormed) (id : Int) :
    x.others id = x.slots.filter fun s => s.id ≠ id := by
  unfold others
  cases hf : x.tiles.get? id with
  | none =>
    symm
    rw [List.filter_eq_self]
    intro s hs
    refine decide_eq_true ?_
    rintro rfl
    rw [(h.indexed s.id s.tile).mp hs] at hf
    cases hf
  | some former =>
    dsimp only
    rw [removeSlot_eq_filter h.ascending ((h.indexed id former).mpr hf)]
    refine List.filter_congr fun s hs => decide_eq_decide.mpr (not_congr ⟨fun e => by rw [e], ?_⟩)
    rintro rfl
    have same := (h.indexed s.id s.tile).mp hs
    rw [hf] at same
    rw [Option.some.inj same]

theorem mem_others {x : TileIndex} (h : x.WellFormed) (id : Int) (s : Slot) :
    s ∈ x.others id ↔ s ∈ x.slots ∧ s.id ≠ id := by
  rw [others_eq_filter h, List.mem_filter, decide_eq_true_eq]

theorem others_ascending {x : TileIndex} (h : x.WellFormed) (id : Int) :
    (x.others id).Pairwise fun a b => a.before b = true := by
  unfold others
  split
  · exact h.ascending.sublist (List.eraseIdx_sublist _ _)
  · exact h.ascending

theorem tiles_place (x : TileIndex) (id tile id' : Int) :
    (x.place id tile).tiles.get? id' = if id' = id then some tile else x.tiles.get? id' :=
  Table.get?_insert x.tiles id id' tile

theorem place_wellFormed {x : TileIndex} (h : x.WellFormed) (id tile : Int) :
    (x.place id tile).WellFormed := by
  constructor
  · rw [place_slots]
    apply insertSlot_ascending (others_ascending h id)
    intro hs
    exact ((mem_others h id _).mp hs).2 rfl
  · intro id' tile'
    rw [place_slots, mem_insertSlot, mem_others h, tiles_place, h.indexed, Slot.mk.injEq]
    by_cases e : id' = id
    · simp [e, eq_comm]
    · simp [e]

/-- In a list ordered by tile, the slice between two counts holds what lies between two bounds. -/
theorem slice_eq_filter {slots : List Slot} (h : slots.Pairwise fun a b => a.before b = true)
    (low high : Int) :
    (slots.take (countFront (·.tile ≤ high) slots)).drop (countFront (·.tile < low) slots) =
      slots.filter fun s => low ≤ s.tile ∧ s.tile ≤ high := by
  induction slots with
  | nil => rfl
  | cons a rest ih =>
    obtain ⟨below, tail⟩ := List.pairwise_cons.mp h
    have ordered : ∀ b ∈ rest, a.tile ≤ b.tile := fun b hb => tile_le_of_before (below b hb)
    by_cases hh : a.tile ≤ high
    · have stop : countFront (·.tile ≤ high) (a :: rest) = countFront (·.tile ≤ high) rest + 1 :=
        countFront_of_pos (decide_eq_true hh) rest
      rw [stop, List.take_succ_cons]
      by_cases hl : a.tile < low
      · have start : countFront (·.tile < low) (a :: rest) = countFront (·.tile < low) rest + 1 :=
          countFront_of_pos (decide_eq_true hl) rest
        rw [start, List.drop_succ_cons, ih tail, List.filter_cons_of_neg (by simp; omega)]
      · have start : countFront (·.tile < low) (a :: rest) = 0 :=
          countFront_of_neg (by simpa using hl) rest
        -- Nothing behind this slot lies below the bound either.
        have start' : countFront (·.tile < low) rest = 0 := by
          cases rest with
          | nil => rfl
          | cons b more =>
            have := ordered b List.mem_cons_self
            exact countFront_of_neg (by simp; omega) more
        have slice := ih tail
        rw [start', List.drop_zero] at slice
        rw [start, List.drop_zero, slice, List.filter_cons_of_pos (by simp; omega)]
    · have stop : countFront (·.tile ≤ high) (a :: rest) = 0 :=
        countFront_of_neg (by simpa using hh) rest
      rw [stop, List.take_zero, List.drop_nil]
      symm
      rw [List.filter_eq_nil_iff]
      intro b hb
      have bound : a.tile ≤ b.tile := by
        rcases List.mem_cons.mp hb with rfl | hb
        · exact Int.le_refl _
        · exact ordered b hb
      simp
      omega

theorem mem_range {x : TileIndex} (h : x.WellFormed) (low high id : Int) :
    id ∈ x.range low high ↔ ∃ tile, x.tiles.get? id = some tile ∧ low ≤ tile ∧ tile ≤ high := by
  unfold range
  dsimp only
  rw [slice_eq_filter h.ascending, List.mem_map]
  constructor
  · rintro ⟨s, hs, rfl⟩
    obtain ⟨hm, bounds⟩ := List.mem_filter.mp hs
    exact ⟨s.tile, (h.indexed s.id s.tile).mp hm, by simpa using bounds⟩
  · rintro ⟨tile, ht, bounds⟩
    refine ⟨⟨tile, id⟩, List.mem_filter.mpr ⟨(h.indexed id tile).mpr ht, by simpa using bounds⟩, rfl⟩

theorem range_ascending {x : TileIndex} (h : x.WellFormed) (low high : Int) :
    (x.range low high).Pairwise fun i j => ∃ t u, x.tiles.get? i = some t ∧
      x.tiles.get? j = some u ∧ (t < u ∨ t = u ∧ i < j) := by
  unfold range
  dsimp only
  rw [slice_eq_filter h.ascending, List.pairwise_map]
  refine List.Pairwise.imp_of_mem (fun {a b} ha hb before => ?_) (h.ascending.sublist List.filter_sublist)
  have hta := (h.indexed a.id a.tile).mp (List.mem_of_mem_filter ha)
  have htb := (h.indexed b.id b.tile).mp (List.mem_of_mem_filter hb)
  refine ⟨a.tile, b.tile, hta, htb, ?_⟩
  simpa only [Slot.before, Bool.or_eq_true, Bool.and_eq_true, decide_eq_true_eq] using before

theorem nodup_range {x : TileIndex} (h : x.WellFormed) (low high : Int) :
    (x.range low high).Nodup := by
  refine (range_ascending h low high).imp fun {i j} before same => ?_
  obtain ⟨t, u, ht, hu, before⟩ := before
  rw [same, hu] at ht
  cases ht
  omega

end MapExtract.TileIndex
