import Mathlib.Data.List.TakeWhile
import MapExtract.Decimal
import MapExtract.Binary64.Text
import MapExtract.Proofs.ShortestDecimal

set_option autoImplicit false
namespace MapExtract

namespace Text

/-- A reader neither trims nor drops nor replaces such a character. -/
def Kept (c : Char) : Prop :=
  isBlank c = false ∧ isSeparator c = false ∧ c ≠ '_' ∧ plainDigit c = c

instance (c : Char) : Decidable (Kept c) := by
  unfold Kept
  infer_instance

def Digits (ds : List Char) : Prop := ∀ c ∈ ds, c.isDigit = true

theorem exists_digitChar {c : Char} (h : c.isDigit = true) : ∃ d < 10, c = d.digitChar := by
  have inBounds : 48 ≤ c.toNat ∧ c.toNat ≤ 57 := by
    simpa [Char.isDigit, UInt32.le_iff_toNat_le] using h
  refine ⟨c.toNat - 48, by omega, Char.toNat_inj.mp ?_⟩
  rw [Nat.toNat_digitChar_of_lt_ten (by omega)]
  omega

theorem kept_digitChar : ∀ d < 10, Kept d.digitChar := by
  decide

theorem kept_marks : Kept '+' ∧ Kept '-' ∧ Kept '.' ∧ Kept 'e' := by
  decide +kernel

theorem Digits.kept {ds : List Char} (h : Digits ds) : ∀ c ∈ ds, Kept c := by
  intro c hc
  obtain ⟨d, hd, rfl⟩ := exists_digitChar (h c hc)
  exact kept_digitChar d hd

theorem kept_nil : ∀ c ∈ ([] : List Char), Kept c := fun _ hc => absurd hc List.not_mem_nil

theorem Digits.append {ds es : List Char} (hd : Digits ds) (he : Digits es) : Digits (ds ++ es) :=
  fun c hc => (List.mem_append.mp hc).elim (hd c) (he c)

theorem digits_zeros (n : Nat) : Digits (List.replicate n '0') := by
  intro c hc
  rw [(List.mem_replicate.mp hc).2]
  rfl

theorem digits_toDigits (n : Nat) : Digits (Nat.toDigits 10 n) := fun _ hc =>
  Nat.isDigit_of_mem_toDigits (by decide) (by decide) hc

theorem digitsValue_append_zeros (ds : List Char) (n : Nat) :
    digitsValue (ds ++ List.replicate n '0') = digitsValue ds * pow10 n := by
  unfold digitsValue
  rw [Nat.ofDigitChars_append, Nat.ofDigitChars_replicate_zero, Nat.mul_comm]
  rfl

theorem digitsValue_zeros_append (n : Nat) (ds : List Char) :
    digitsValue (List.replicate n '0' ++ ds) = digitsValue ds := by
  unfold digitsValue
  rw [Nat.ofDigitChars_append, Nat.ofDigitChars_replicate_zero, Nat.mul_zero]

def sign (negative : Bool) : List Char := if negative then ['-'] else []

def pointed (fraction : List Char) : List Char :=
  if fraction = [] then [] else '.' :: fraction

theorem splitSign_sign {d : Char} (hd : d.isDigit = true) (negative : Bool) (body : List Char) :
    splitSign (sign negative ++ d :: body) = (negative, d :: body) := by
  cases negative with
  | true => rfl
  | false =>
    change splitSign (d :: body) = _
    unfold splitSign
    split
    · rename_i same
      cases same
      cases hd
    · rename_i same
      cases same
      cases hd
    · rfl

theorem span_digits {ds rest : List Char} (hd : Digits ds)
    (hr : ∀ c ∈ rest.head?, c.isDigit = false) :
    (ds ++ rest).takeWhile Char.isDigit = ds ∧ (ds ++ rest).dropWhile Char.isDigit = rest := by
  rw [List.takeWhile_append_of_pos hd, List.dropWhile_append_of_pos hd]
  cases rest with
  | nil => exact ⟨List.append_nil ds, rfl⟩
  | cons c rest =>
    have stop : ¬c.isDigit = true := by simp [hr c rfl]
    rw [List.takeWhile_cons_of_neg stop, List.dropWhile_cons_of_neg stop]
    exact ⟨List.append_nil ds, rfl⟩

theorem head_of_readExponent {tail : List Char} {e : Int} (h : readExponent? tail = some e) :
    ∀ c ∈ tail.head?, c = 'e' ∨ c = 'E' := by
  intro c hc
  cases tail with
  | nil => cases hc
  | cons d tail =>
    obtain rfl := Option.some.inj hc
    simp only [readExponent?] at h
    split at h
    · rename_i shape
      exact shape.1
    · cases h

theorem splitFraction_pointed {fraction tail : List Char} {e : Int} (hf : Digits fraction)
    (ht : readExponent? tail = some e) :
    splitFraction (pointed fraction ++ tail) = (fraction, tail) := by
  have letter := head_of_readExponent ht
  unfold pointed
  split
  · rename_i none
    subst none
    rw [List.nil_append]
    unfold splitFraction
    split
    · have := letter '.' rfl
      simp at this
    · rfl
  · have stop : ∀ c ∈ tail.head?, c.isDigit = false := by
      intro c hc
      rcases letter c hc with rfl | rfl <;> rfl
    obtain ⟨front, back⟩ := span_digits hf stop
    rw [List.cons_append, splitFraction, front, back]

/-- A text, and the coefficient and the exponent of the unsigned numeral that it spells. -/
inductive Spells : List Char → Nat → Int → Prop
  | mk {whole fraction tail : List Char} {e : Int} (hw : Digits whole) (filled : whole ≠ [])
      (hf : Digits fraction) (kept : ∀ c ∈ tail, Kept c) (ht : readExponent? tail = some e) :
      Spells (whole ++ (pointed fraction ++ tail)) (digitsValue (whole ++ fraction))
        (e - fraction.length)

theorem Spells.exists_first {cs : List Char} {c : Nat} {e : Int} (h : Spells cs c e) :
    ∃ d rest, cs = d :: rest ∧ d.isDigit = true := by
  cases h with
  | mk hw filled _ _ _ =>
    obtain ⟨d, rest, rfl⟩ := List.exists_cons_of_ne_nil filled
    exact ⟨d, _, rfl, hw d List.mem_cons_self⟩

theorem Spells.kept {cs : List Char} {c : Nat} {e : Int} (h : Spells cs c e) :
    ∀ x ∈ cs, Kept x := by
  cases h with
  | mk hw _ hf kept _ =>
    intro x hx
    rcases List.mem_append.mp hx with hx | hx
    · exact hw.kept x hx
    rcases List.mem_append.mp hx with hx | hx
    · unfold pointed at hx
      split at hx
      · cases hx
      rcases List.mem_cons.mp hx with rfl | hx
      · exact kept_marks.2.2.1
      · exact hf.kept x hx
    · exact kept x hx

theorem Spells.kept_signed {cs : List Char} {c : Nat} {e : Int} (h : Spells cs c e)
    (negative : Bool) : ∀ x ∈ sign negative ++ cs, Kept x := by
  intro x hx
  rcases List.mem_append.mp hx with hx | hx
  · cases negative with
    | true =>
      obtain rfl := List.mem_singleton.mp hx
      exact kept_marks.2.1
    | false => cases hx
  · exact h.kept x hx

theorem Spells.read_eq {cs : List Char} {c : Nat} {e : Int} (h : Spells cs c e) (negative : Bool) :
    Numeral.read? (sign negative ++ cs) = some ⟨negative, c, e⟩ := by
  cases h with
  | @mk whole fraction tail e hw filled hf _ ht =>
    have stop : ∀ c ∈ (pointed fraction ++ tail).head?, c.isDigit = false := by
      intro c hc
      unfold pointed at hc
      split at hc
      · rcases head_of_readExponent ht c hc with rfl | rfl <;> rfl
      · cases hc
        rfl
    obtain ⟨front, back⟩ := span_digits hw stop
    obtain ⟨d, rest, rfl⟩ := List.exists_cons_of_ne_nil filled
    unfold Numeral.read?
    rw [List.cons_append, splitSign_sign (hw d List.mem_cons_self)]
    rw [List.cons_append] at front back
    simp only [front, back, splitFraction_pointed hf ht, ht, filled, false_and, if_false,
      Option.map_some]

end Text

namespace Decimal
open Text (Kept Spells sign)

theorem significant_ofList {cs : List Char} (h : ∀ c ∈ cs, Kept c) :
    significant (String.ofList cs) = cs := by
  unfold significant
  rw [String.toList_ofList, Text.trim_eq_self, List.filter_eq_self.mpr, List.map_congr_left,
    List.map_id]
  · exact fun c hc => (h c hc).2.2.2
  · exact fun c hc => by simpa using (h c hc).2.2.1
  · exact fun c hc => by simp [(h c hc).1, (h c hc).2.1]

theorem readSpecial_eq_none {d : Char} (hd : d.isDigit = true) (negative : Bool)
    (body : List Char) : readSpecial? (sign negative ++ d :: body) = none := by
  unfold readSpecial?
  rw [Text.splitSign_sign hd]
  simp [hd]

theorem read_of_spells {cs : List Char} {c : Nat} {e : Int} (h : Spells cs c e)
    (high : leadingExponent c e ≤ greatestExponent) (low : leastExponent ≤ e) (negative : Bool) :
    read (String.ofList (sign negative ++ cs)) = .ok (.finite negative c e) := by
  have kept := h.kept_signed negative
  obtain ⟨d, rest, rfl, hd⟩ := h.exists_first
  simp only [read, significant_ofList kept, readSpecial_eq_none hd, h.read_eq]
  rw [if_pos ⟨high, low⟩]

end Decimal

namespace Binary64
open Decimal (digitCount leadingExponent magnitude)
open Text

theorem exists_trailing_zeros (n : Nat) :
    ∃ k, Nat.toDigits 10 n = dropTrailingZeros (Nat.toDigits 10 n) ++ List.replicate k '0' := by
  let ds := Nat.toDigits 10 n
  refine ⟨(ds.reverse.takeWhile (· == '0')).length, ?_⟩
  have zeros : ds.reverse.takeWhile (· == '0') =
      List.replicate (ds.reverse.takeWhile (· == '0')).length '0' :=
    List.eq_replicate_iff.mpr ⟨rfl, fun c hc => by simpa using List.mem_takeWhile_imp hc⟩
  have whole : ds.reverse = List.replicate (ds.reverse.takeWhile (· == '0')).length '0' ++
      ds.reverse.dropWhile (· == '0') := by
    rw [← zeros, List.takeWhile_append_dropWhile]
  have back := congrArg List.reverse whole
  rw [List.reverse_reverse, List.reverse_append, List.reverse_replicate] at back
  exact back

theorem dropTrailingZeros_spec {c : Nat} (hc : 0 < c) :
    Digits (dropTrailingZeros (Nat.toDigits 10 c)) ∧ dropTrailingZeros (Nat.toDigits 10 c) ≠ [] ∧
      ∃ k, c = digitsValue (dropTrailingZeros (Nat.toDigits 10 c)) * pow10 k ∧
        digitCount c = (dropTrailingZeros (Nat.toDigits 10 c)).length + k := by
  obtain ⟨k, hk⟩ := exists_trailing_zeros c
  have value : c = digitsValue (dropTrailingZeros (Nat.toDigits 10 c)) * pow10 k := by
    rw [← digitsValue_append_zeros, ← hk, digitsValue_toDigits]
  refine ⟨fun x hx => ?_, fun empty => ?_, k, value, ?_⟩
  · apply digits_toDigits c x
    rw [hk]
    exact List.mem_append_left _ hx
  · have none : digitsValue [] = 0 := rfl
    rw [empty, none, Nat.zero_mul] at value
    omega
  · have := congrArg List.length hk
    rwa [List.length_append, List.length_replicate] at this

theorem readExponent_written (width : Nat) (e : Int) :
    readExponent? ('e' :: (if e < 0 then '-' else '+') :: padLeft width (Nat.toDigits 10 e.natAbs)) =
      some e := by
  have digits : Digits (padLeft width (Nat.toDigits 10 e.natAbs)) :=
    (digits_zeros _).append (digits_toDigits _)
  have value : digitsValue (padLeft width (Nat.toDigits 10 e.natAbs)) = e.natAbs := by
    unfold padLeft
    rw [digitsValue_zeros_append, digitsValue_toDigits]
  have filled : padLeft width (Nat.toDigits 10 e.natAbs) ≠ [] := by
    simp [padLeft, Nat.toDigits_ne_nil]
  have all : (padLeft width (Nat.toDigits 10 e.natAbs)).all Char.isDigit = true :=
    List.all_eq_true.mpr digits
  have split : splitSign ((if e < 0 then '-' else '+') :: padLeft width (Nat.toDigits 10 e.natAbs)) =
      (decide (e < 0), padLeft width (Nat.toDigits 10 e.natAbs)) := by
    by_cases negative : e < 0
    · rw [if_pos negative, decide_eq_true negative]
      rfl
    · rw [if_neg negative, decide_eq_false negative]
      rfl
  simp only [readExponent?, split]
  rw [if_pos ⟨by simp, filled, all⟩, value, signed_natAbs]

/-- A text spells some digits with the point after the first `places` of them; zeros fill the places
between the digits and the point. -/
def SpellsAt (cs ds : List Char) (places : Int) : Prop :=
  ∃ c e, Spells cs c e ∧ magnitude c e = magnitude (digitsValue ds) (places - ds.length) ∧
    (places - ds.length ≤ e ∨ -1 ≤ e)

theorem spellsAt_of_fraction {whole fraction tail ds : List Char} {e places : Int}
    (hw : Digits whole) (filled : whole ≠ []) (hf : Digits fraction) (kept : ∀ c ∈ tail, Kept c)
    (ht : readExponent? tail = some e) (value : digitsValue (whole ++ fraction) = digitsValue ds)
    (grid : e - fraction.length = places - ds.length) :
    SpellsAt (whole ++ (pointed fraction ++ tail)) ds places := by
  have spelled := Spells.mk hw filled hf kept ht
  rw [value, grid] at spelled
  exact ⟨_, _, spelled, rfl, .inl le_rfl⟩

variable {ds : List Char}

theorem spellsAt_plain (hd : Digits ds) (filled : ds ≠ []) (places : Int) :
    SpellsAt (plain ds places) ds places := by
  have zero : Digits ['0'] := digits_zeros 1
  -- The point stands among the zeros in front, behind all digits, or between two of them.
  unfold plain
  split
  · rename_i left
    have fraction := (digits_zeros (-places).toNat).append hd
    have spelled : SpellsAt (['0'] ++ (pointed (List.replicate (-places).toNat '0' ++ ds) ++ []))
        ds places := by
      refine spellsAt_of_fraction zero (by simp) fraction kept_nil rfl ?_ ?_
      · exact (digitsValue_zeros_append 1 _).trans (digitsValue_zeros_append _ ds)
      · rw [List.length_append, List.length_replicate]
        omega
    rw [pointed, if_neg (by simp [filled]), List.append_nil] at spelled
    exact spelled
  split
  · rename_i right short
    let zeros := places.toNat - ds.length
    have whole := hd.append (digits_zeros zeros)
    have spelled := Spells.mk whole (by simp [filled]) zero kept_nil rfl
    rw [pointed, if_neg (by simp), List.append_nil] at spelled
    refine ⟨_, _, spelled, ?_, .inr le_rfl⟩
    have value : digitsValue (ds ++ List.replicate zeros '0' ++ ['0']) =
        digitsValue ds * pow10 (zeros + 1) := by
      rw [← digitsValue_append_zeros, List.replicate_succ', List.append_assoc]
    have moved : (0 : Int) - ['0'].length = places - ds.length - (zeros + 1 : Nat) := by
      change (0 : Int) - 1 = _
      omega
    rw [value, moved, Decimal.magnitude_scale]
  · rename_i right long
    have split : pointed (ds.drop places.toNat) = '.' :: ds.drop places.toNat := by
      rw [pointed, if_neg]
      rw [List.drop_eq_nil_iff]
      exact long
    have spelled : SpellsAt (ds.take places.toNat ++ (pointed (ds.drop places.toNat) ++ [])) ds places := by
      refine spellsAt_of_fraction (fun c hc => hd c (List.mem_of_mem_take hc)) ?_
        (fun c hc => hd c (List.mem_of_mem_drop hc)) kept_nil rfl ?_ ?_
      · rw [Ne, List.take_eq_nil_iff]
        rintro (none | empty)
        · omega
        · exact filled empty
      · rw [List.take_append_drop]
      · rw [List.length_drop]
        omega
    rwa [split, List.append_nil] at spelled

theorem spellsAt_scientific (hd : Digits ds) (filled : ds ≠ []) (exponent : Int) :
    SpellsAt (scientific ds exponent) ds (exponent + 1) := by
  unfold scientific
  have length := List.length_pos_iff.mpr filled
  have kept : ∀ c ∈ 'e' :: (if exponent < 0 then '-' else '+') ::
      padLeft layout.exponentDigits (Nat.toDigits 10 exponent.natAbs), Kept c := by
    intro c hc
    rcases List.mem_cons.mp hc with rfl | hc
    · exact kept_marks.2.2.2
    rcases List.mem_cons.mp hc with rfl | hc
    · split
      · exact kept_marks.2.1
      · exact kept_marks.1
    · exact ((digits_zeros _).append (digits_toDigits _)).kept c hc
  rw [List.append_assoc]
  refine spellsAt_of_fraction (fun c hc => hd c (List.mem_of_mem_take hc)) ?_
    (fun c hc => hd c (List.mem_of_mem_drop hc)) kept (readExponent_written _ exponent) ?_ ?_
  · rw [Ne, List.take_eq_nil_iff]
    simp [filled]
  · rw [List.take_append_drop]
  · rw [List.length_drop]
    omega

theorem exists_spelling {r : Nat} (hr : 0 < r) :
    ∃ c e, Spells (magnitudeText r) c e ∧ magnitude c e = rankValue r ∧ -340 ≤ e := by
  have low := shortest_exponent_ge hr
  have pos := shortest_pos hr
  have exact : rankValue r = magnitude (shortest r).1 (shortest r).2 := if_neg (by omega)
  rw [magnitudeText, if_neg (by omega), exact]
  generalize shortest r = decimal at low pos
  obtain ⟨c, e⟩ := decimal
  dsimp only at low pos ⊢
  obtain ⟨digits, filled, k, value, count⟩ := dropTrailingZeros_spec pos
  generalize dropTrailingZeros (Nat.toDigits 10 c) = ds at digits filled value count
  have spelled : SpellsAt
      (if layout.leastPlain ≤ leadingExponent c e ∧ leadingExponent c e ≤ layout.mostPlain then
        plain ds (leadingExponent c e + 1) else scientific ds (leadingExponent c e))
      ds (leadingExponent c e + 1) := by
    split
    · exact spellsAt_plain digits filled _
    · exact spellsAt_scientific digits filled _
  obtain ⟨c', e', hs, same, fine⟩ := spelled
  have grid : leadingExponent c e + 1 - ds.length = e + k := by
    unfold leadingExponent
    omega
  refine ⟨c', e', hs, ?_, by omega⟩
  have scaled := Decimal.magnitude_scale (digitsValue ds) (e + k) k
  rw [← value, Int.add_sub_cancel] at scaled
  rw [same, grid, scaled]

theorem zero_spelled : Spells "0.0".toList 0 (-1) :=
  Spells.mk (digits_zeros 1) (by simp) (digits_zeros 1) kept_nil rfl

/-- The text of a finite number, read as a decimal, has the value of its shortest decimal. -/
theorem read_text (negative : Bool) (r : Fin magnitudes) :
    ∃ c e, Decimal.read (Binary64.finite negative r).text = .ok (.finite negative c e) ∧
      magnitude c e = rankValue r := by
  by_cases zero : r.val = 0
  · refine ⟨0, -1, ?_, ?_⟩
    · have := Decimal.read_of_spells zero_spelled (by decide) (by decide) negative
      rwa [text, magnitudeText, if_pos zero]
    · rw [rankValue, if_pos zero]
      exact zero_mul _
  · have above := Nat.pos_of_ne_zero zero
    obtain ⟨c, e, spelled, value, low⟩ := exists_spelling above
    refine ⟨c, e, Decimal.read_of_spells spelled ?_ ?_ negative, value⟩
    · have pos : 0 < c := Decimal.pos_of_magnitude_pos (value ▸ rankValue_pos above)
      have small := (rankValue_lt r).le
      rw [← value] at small
      have leading := Decimal.leadingExponent_le_of_magnitude pos Nat.one_pos small
      exact leading.trans (by decide +kernel)
    · have : Decimal.leastExponent ≤ -340 := by decide
      omega

end Binary64
end MapExtract
