import MapExtract.BoundingBox.Validation
import MapExtract.Proofs.NumberReading

set_option autoImplicit false
namespace MapExtract

theorem length_splitOn {α : Type} [BEq α] [LawfulBEq α] (mark : α) (xs : List α) :
    (xs.splitOn mark).length = xs.count mark + 1 := by
  induction xs with
  | nil => rfl
  | cons x xs ih =>
    rw [List.splitOn_eq_splitOnP] at ih ⊢
    rw [List.splitOnP_cons_eq_if_modifyHead, List.count_cons]
    split
    · rw [List.length_cons, ih]
    · rw [List.length_modifyHead, ih]

namespace BoundingBox

/-- Exactly three commas, and a number in each of the four parts between them. -/
def FourNumbers (text : String) : Prop :=
  text.toList.count ',' = 3 ∧
    ∀ part ∈ text.toList.splitOn ',', ∃ x, Binary64.read? (String.ofList part) = some x

theorem read_eq_ok_iff_parts {text : String} {box : BoundingBox} : read text = .ok box ↔
    ∃ a b c d, text.toList.splitOn ',' = [a, b, c, d] ∧
      Binary64.read? (String.ofList a) = some box.minLon ∧
      Binary64.read? (String.ofList b) = some box.minLat ∧
      Binary64.read? (String.ofList c) = some box.maxLon ∧
      Binary64.read? (String.ofList d) = some box.maxLat := by
  unfold read
  constructor
  · intro h
    split at h
    · rename_i minLon minLat maxLon maxLat parts
      cases h
      obtain ⟨a, _, split, ha, parts⟩ := List.map_eq_cons_iff.mp parts
      obtain ⟨b, _, rfl, hb, parts⟩ := List.map_eq_cons_iff.mp parts
      obtain ⟨c, _, rfl, hc, parts⟩ := List.map_eq_cons_iff.mp parts
      obtain ⟨d, _, rfl, hd, parts⟩ := List.map_eq_cons_iff.mp parts
      obtain rfl := List.map_eq_nil_iff.mp parts
      exact ⟨a, b, c, d, split, ha, hb, hc, hd⟩
    · cases h
  · rintro ⟨a, b, c, d, split, ha, hb, hc, hd⟩
    simp only [split, List.map_cons, List.map_nil, ha, hb, hc, hd]

theorem read_eq_ok_iff {text : String} {box : BoundingBox} : read text = .ok box ↔
    ∃ a b c d, text = ",".intercalate [a, b, c, d] ∧
      Binary64.read? a = some box.minLon ∧ Binary64.read? b = some box.minLat ∧
      Binary64.read? c = some box.maxLon ∧ Binary64.read? d = some box.maxLat := by
  rw [read_eq_ok_iff_parts]
  constructor
  · rintro ⟨a, b, c, d, split, numbers⟩
    refine ⟨_, _, _, _, String.toList_inj.mp ?_, numbers⟩
    have joined : [','].intercalate (text.toList.splitOn ',') = text.toList :=
      List.intercalate_splitOn ','
    rw [split] at joined
    simp only [String.toList_intercalate, List.map_cons, List.map_nil, String.toList_ofList]
    exact joined.symm
  · rintro ⟨a, b, c, d, rfl, ha, hb, hc, hd⟩
    refine ⟨a.toList, b.toList, c.toList, d.toList, ?_, ?_⟩
    · rw [String.toList_intercalate]
      apply List.splitOn_intercalate ',' _ (by simp)
      simp only [List.map_cons, List.map_nil, List.forall_mem_cons]
      exact ⟨Binary64.comma_not_mem_of_read ha, Binary64.comma_not_mem_of_read hb,
        Binary64.comma_not_mem_of_read hc, Binary64.comma_not_mem_of_read hd, by simp⟩
    · simp only [String.ofList_toList]
      exact ⟨ha, hb, hc, hd⟩

theorem exists_read_iff (text : String) : (∃ box, read text = .ok box) ↔ FourNumbers text := by
  simp only [read_eq_ok_iff_parts]
  constructor
  · rintro ⟨box, a, b, c, d, split, ha, hb, hc, hd⟩
    constructor
    · have parts := length_splitOn ',' text.toList
      rw [split] at parts
      exact (Nat.succ.inj parts).symm
    · rw [split]
      simp only [List.forall_mem_cons]
      exact ⟨⟨_, ha⟩, ⟨_, hb⟩, ⟨_, hc⟩, ⟨_, hd⟩, by simp⟩
  · rintro ⟨commas, numbers⟩
    have parts := length_splitOn ',' text.toList
    rw [commas] at parts
    obtain ⟨a, b, c, d, split⟩ := List.length_eq_four.mp parts
    rw [split] at numbers
    simp only [List.forall_mem_cons] at numbers
    obtain ⟨⟨minLon, ha⟩, ⟨minLat, hb⟩, ⟨maxLon, hc⟩, ⟨maxLat, hd⟩, _⟩ := numbers
    exact ⟨⟨minLon, minLat, maxLon, maxLat⟩, a, b, c, d, split, ha, hb, hc, hd⟩

theorem read_eq_error_iff (text : String) : read text = .error .boxFormat ↔ ¬FourNumbers text := by
  rw [← exists_read_iff]
  unfold read
  split <;> simp

/-- What is written for a box is read as that box. A text is read as a box if and only if it has
exactly three commas and a number in each of its four parts. -/
theorem read_inverts_text : (∀ box : BoundingBox, read box.text = .ok box) ∧
    (∀ text, (∃ box, read text = .ok box) ↔ FourNumbers text) ∧
    (∀ text box, read text = .ok box ↔ ∃ a b c d, text = ",".intercalate [a, b, c, d] ∧
      Binary64.read? a = some box.minLon ∧ Binary64.read? b = some box.minLat ∧
      Binary64.read? c = some box.maxLon ∧ Binary64.read? d = some box.maxLat) ∧
    ∀ text, read text = .error .boxFormat ↔ ¬FourNumbers text := by
  refine ⟨fun box => ?_, exists_read_iff, fun _ _ => read_eq_ok_iff, read_eq_error_iff⟩
  exact read_eq_ok_iff.mpr ⟨_, _, _, _, rfl, box.minLon.read_written, box.minLat.read_written,
    box.maxLon.read_written, box.maxLat.read_written⟩

example : read " 1_0,-0.0,1e400,nan" = .ok ⟨.ofInt 10, .zero true, .infinite false, .nan⟩ := by
  decide +kernel

end BoundingBox
end MapExtract
