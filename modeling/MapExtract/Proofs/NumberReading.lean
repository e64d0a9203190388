import MapExtract.Proofs.NearestRank
import MapExtract.Proofs.NumberText

set_option autoImplicit false
namespace MapExtract

namespace Text

theorem mem_dropWhile {p : Char → Bool} {c : Char} (stays : p c = false) {cs : List Char}
    (h : c ∈ cs) : c ∈ cs.dropWhile p := by
  rw [← List.takeWhile_append_dropWhile (p := p) (l := cs)] at h
  refine (List.mem_append.mp h).resolve_left fun dropped => ?_
  rw [List.mem_takeWhile_imp dropped] at stays
  cases stays

theorem mem_trim {strip : Char → Bool} {c : Char} (stays : strip c = false) {cs : List Char}
    (h : c ∈ cs) : c ∈ trim strip cs := by
  unfold trim
  rw [List.mem_reverse]
  exact mem_dropWhile stays (List.mem_reverse.mpr (mem_dropWhile stays h))

theorem comma_mem_splitSign {cs : List Char} (h : ',' ∈ cs) : ',' ∈ (splitSign cs).2 := by
  unfold splitSign
  split
  · exact List.mem_of_ne_of_mem (by decide) h
  · exact List.mem_of_ne_of_mem (by decide) h
  · exact h

theorem readExponent_eq_none {cs : List Char} (h : ',' ∈ cs) : readExponent? cs = none := by
  cases cs with
  | nil => cases h
  | cons c cs =>
    unfold readExponent?
    dsimp only
    refine if_neg ?_
    rintro ⟨letter, _, digits⟩
    rcases List.mem_cons.mp h with rfl | h
    · simp at letter
    · have := List.all_eq_true.mp digits ',' (comma_mem_splitSign h)
      cases this

theorem comma_mem_splitFraction {cs : List Char} (h : ',' ∈ cs) : ',' ∈ (splitFraction cs).2 := by
  unfold splitFraction
  split
  · exact mem_dropWhile rfl (List.mem_of_ne_of_mem (by decide) h)
  · exact h

theorem Numeral.read_eq_none {cs : List Char} (h : ',' ∈ cs) : Numeral.read? cs = none := by
  have tail := comma_mem_splitFraction (mem_dropWhile (p := Char.isDigit) rfl (comma_mem_splitSign h))
  unfold Numeral.read?
  dsimp only
  rw [readExponent_eq_none tail]
  exact ite_self none

end Text

namespace Binary64
open Decimal (magnitude)
open Text

theorem readName_eq_none {cs : List Char} {c : Char} (hc : c ∈ (splitSign cs).2)
    (strange : ∀ word ∈ ["inf", "infinity", "nan"], c.toLower ∉ word.toList) :
    readName? cs = none := by
  have lowered : c.toLower ∈ (splitSign cs).2.map Char.toLower := List.mem_map_of_mem hc
  have other : ∀ word ∈ ["inf", "infinity", "nan"], (splitSign cs).2.map Char.toLower ≠ word.toList :=
    fun word listed same => strange word listed (same ▸ lowered)
  unfold readName?
  dsimp only
  rw [if_neg (not_or.mpr ⟨other _ (by simp), other _ (by simp)⟩), if_neg (other _ (by simp))]

theorem digit_strange : ∀ d < 10, ∀ word ∈ ["inf", "infinity", "nan"],
    d.digitChar.toLower ∉ word.toList := by
  decide

theorem comma_not_mem_of_read {text : String} {x : Binary64} (h : read? text = some x) :
    ',' ∉ text.toList := by
  intro comma
  have kept : ',' ∈ (trim isBlank text.toList).map plainDigit :=
    List.mem_map.mpr ⟨',', mem_trim (by decide) comma, by decide⟩
  unfold read? at h
  dsimp only at h
  rw [readName_eq_none (comma_mem_splitSign kept) (by decide), Option.none_or] at h
  obtain ⟨ds, ungrouped, found⟩ := Option.bind_eq_some_iff.mp h
  unfold ungroup? at ungrouped
  split at ungrouped
  · cases ungrouped
    rw [Numeral.read_eq_none (List.mem_filter.mpr ⟨kept, by decide⟩)] at found
    cases found
  · cases ungrouped

theorem read_of_spells {cs : List Char} {c : Nat} {e : Int} (h : Spells cs c e) (negative : Bool) :
    read? (String.ofList (sign negative ++ cs)) = some (ofDecimal negative c e) := by
  have kept := h.kept_signed negative
  have plain : (trim isBlank (sign negative ++ cs)).map plainDigit = sign negative ++ cs := by
    rw [trim_eq_self _ _ fun c hc => (kept c hc).1, List.map_congr_left fun c hc => (kept c hc).2.2.2,
      List.map_id']
  have nameless : readName? (sign negative ++ cs) = none := by
    obtain ⟨first, rest, rfl, digit⟩ := h.exists_first
    obtain ⟨d, hd, rfl⟩ := exists_digitChar digit
    refine readName_eq_none (c := d.digitChar) ?_ (digit_strange d hd)
    rw [splitSign_sign digit]
    exact List.mem_cons_self
  unfold read?
  rw [String.toList_ofList, plain]
  dsimp only
  rw [nameless, Option.none_or, ungroup_eq_self _ fun c hc => (kept c hc).2.2.1, Option.bind_some,
    h.read_eq]
  rfl

/-- What is written for a number is read as that number; the zeros keep their signs. -/
theorem read_written (x : Binary64) : read? x.text = some x := by
  cases x with
  | nan => decide
  | infinite negative => cases negative <;> decide
  | finite negative r =>
    by_cases none : r.val = 0
    · have spelled := read_of_spells zero_spelled negative
      obtain rfl : r = ⟨0, by decide⟩ := Fin.ext none
      exact spelled
    · have above := Nat.pos_of_ne_zero none
      obtain ⟨c, e, spelled, value, _⟩ := exists_spelling above
      rw [rankValue, if_neg none] at value
      have rounds : decimalRoundsTo r c e = true := by
        rw [decimalRoundsTo_iff, value, ← decimalRoundsTo_iff]
        exact shortest_roundsTo above
      have found := read_of_spells spelled negative
      rw [ofDecimal_eq_finite above rounds] at found
      exact found

end Binary64
end MapExtract
