import Mathlib.Algebra.Order.Field.Power
import Mathlib.Data.Rat.Cast.Order
import Mathlib.Tactic.Linarith
import Mathlib.Tactic.Positivity
import Mathlib.Tactic.Ring
import MapExtract.Tile

set_option autoImplicit false
namespace MapExtract

theorem divHalfEven_mono (d : Nat) (hd : 0 < d) {m n : Nat} (h : m ≤ n) :
    divHalfEven m d ≤ divHalfEven n d := by
  by_contra hlt
  have hm := divHalfEven_le m d
  have hn := le_divHalfEven n d hd
  have step := Nat.mul_le_mul_left (2 * d) (show divHalfEven n d + 1 ≤ divHalfEven m d by omega)
  rw [Nat.mul_add] at step
  obtain rfl : m = n := by omega
  exact hlt le_rfl

theorem divHalfEven_scale (n d k : Nat) (hk : 0 < k) :
    divHalfEven (n * k) (d * k) = divHalfEven n d := by
  unfold divHalfEven
  rw [Nat.mul_div_mul_right _ _ hk, Nat.mul_mod_mul_right, ← Nat.mul_assoc]
  have less : 2 * (n % d) * k < d * k ↔ 2 * (n % d) < d := Nat.mul_lt_mul_right hk
  have same : 2 * (n % d) * k = d * k ↔ 2 * (n % d) = d := Nat.mul_left_inj (by omega)
  simp only [less, same]

theorem divHalfUp_scale (n d k : Nat) (hk : 0 < k) :
    divHalfUp (n * k) (d * k) = divHalfUp n d := by
  unfold divHalfUp
  have top : 2 * (n * k) + d * k = (2 * n + d) * k := by ring
  have bottom : 2 * (d * k) = 2 * d * k := by ring
  rw [top, bottom, Nat.mul_div_mul_right _ _ hk]

theorem divHalfUp_mul (q d : Nat) (hd : 0 < d) : divHalfUp (q * d) d = q := by
  unfold divHalfUp
  have top : 2 * (q * d) + d = d + q * (2 * d) := by ring
  rw [top, Nat.add_mul_div_right _ _ (by omega), Nat.div_eq_of_lt (by omega), Nat.zero_add]

namespace Decimal

theorem lt_digitCount_iff {n k : Nat} (hn : 0 < n) : k < digitCount n ↔ pow10 k ≤ n := by
  cases k with
  | zero =>
    have := digitCount_pos n
    rw [pow10_zero]
    omega
  | succ k =>
    have : digitCount n ≤ k + 1 ↔ n < pow10 (k + 1) := digitCount_le_iff (Nat.succ_pos k)
    omega

theorem digitCount_mono {m n : Nat} (h : m ≤ n) : digitCount m ≤ digitCount n := by
  have hn : n < pow10 (digitCount n) := (digitCount_le_iff (digitCount_pos n)).mp le_rfl
  exact (digitCount_le_iff (digitCount_pos n)).mpr (by omega)

theorem digitCount_scale {n : Nat} (hn : 0 < n) (k : Nat) :
    digitCount (n * pow10 k) = digitCount n + k := by
  have hs : 0 < n * pow10 k := Nat.mul_pos hn (pow10_pos k)
  have hd := digitCount_pos n
  apply Nat.le_antisymm
  · rw [digitCount_le_iff (by omega), pow10_add]
    exact Nat.mul_lt_mul_of_pos_right ((digitCount_le_iff hd).mp le_rfl) (pow10_pos k)
  · have top : pow10 (digitCount n - 1) ≤ n := (lt_digitCount_iff hn).mp (by omega)
    have scaled := Nat.mul_le_mul_right (pow10 k) top
    rw [← pow10_add] at scaled
    have := (lt_digitCount_iff hs).mpr scaled
    omega

theorem leadingExponent_scale {c : Nat} (hc : 0 < c) (e : Int) (k : Nat) :
    leadingExponent (c * pow10 k) (e - k) = leadingExponent c e := by
  unfold leadingExponent
  rw [digitCount_scale hc]
  omega

theorem leadingExponent_mono {c c' : Nat} (h : c ≤ c') (e : Int) :
    leadingExponent c e ≤ leadingExponent c' e := by
  have := digitCount_mono h
  unfold leadingExponent
  omega

theorem toWhole_mono {c c' : Nat} (h : c ≤ c') (e : Int) : toWhole c e ≤ toWhole c' e := by
  unfold toWhole
  split
  · exact Nat.mul_le_mul_right _ h
  · exact divHalfUp_mono _ h

theorem toWhole_scale (c : Nat) (e : Int) (k : Nat) :
    toWhole (c * pow10 k) (e - k) = toWhole c e := by
  unfold toWhole
  by_cases he : 0 ≤ e
  · rw [if_pos he]
    by_cases hk : 0 ≤ e - k
    · rw [if_pos hk, Nat.mul_assoc, ← pow10_add]
      congr 2
      omega
    · obtain ⟨j, hj⟩ : ∃ j : Nat, k = e.toNat + j := ⟨k - e.toNat, by omega⟩
      have ej : (-(e - k)).toNat = j := by omega
      rw [if_neg hk, ej, hj, pow10_add, ← Nat.mul_assoc]
      exact divHalfUp_mul _ _ (pow10_pos j)
  · have ek : (-(e - k)).toNat = (-e).toNat + k := by omega
    rw [if_neg he, if_neg (by omega), ek, pow10_add]
    exact divHalfUp_scale _ _ _ (pow10_pos k)

def cutWhole (coefficient : Nat) (exponent : Int) : Nat :=
  toWhole (cut coefficient exponent).1 (cut coefficient exponent).2

theorem cutWhole_eq (c : Nat) (e : Int) :
    cutWhole c e = toWhole (divHalfEven c (pow10 (digitCount c - workingDigits)))
      (e + (digitCount c - workingDigits : Nat)) := by
  simp only [cutWhole, cut]

theorem cutWhole_scale {c : Nat} (hc : 0 < c) (e : Int) (k : Nat) :
    cutWhole (c * pow10 k) (e - k) = cutWhole c e := by
  rw [cutWhole_eq, cutWhole_eq, digitCount_scale hc]
  by_cases long : workingDigits ≤ digitCount c
  · have surplus : digitCount c + k - workingDigits = (digitCount c - workingDigits) + k := by omega
    rw [surplus, pow10_add, divHalfEven_scale _ _ _ (pow10_pos k)]
    congr 1
    omega
  · have kept : digitCount c - workingDigits = 0 := by omega
    obtain ⟨j, hj⟩ : ∃ j, k = j + (digitCount c + k - workingDigits) :=
      ⟨k - (digitCount c + k - workingDigits), by omega⟩
    generalize digitCount c + k - workingDigits = surplus at hj ⊢
    subst hj
    have whole : c * pow10 (j + surplus) = pow10 surplus * (c * pow10 j) := by
      rw [pow10_add]
      ring
    have uncut : divHalfEven c (pow10 0) = c := by
      have := divHalfEven_mul 1 c (by decide)
      rwa [Nat.one_mul] at this
    have ej : e - ((j + surplus : Nat) : Int) + (surplus : Int) = e - (j : Int) := by omega
    rw [whole, divHalfEven_mul _ _ (pow10_pos surplus), kept, uncut, ej, toWhole_scale]
    congr 1
    omega

/-- A coefficient that is cut has the working number of digits, or is the next power of ten. -/
theorem cut_le (c : Nat) (e : Int) : (cut c e).1 ≤ pow10 workingDigits := by
  let surplus := digitCount c - workingDigits
  change divHalfEven c (pow10 surplus) ≤ pow10 workingDigits
  have small : c ≤ pow10 surplus * pow10 workingDigits := by
    have hc : c < pow10 (digitCount c) := (digitCount_le_iff (digitCount_pos c)).mp le_rfl
    rw [← pow10_add]
    exact hc.le.trans (Nat.pow_le_pow_right (by decide) (by omega))
  have h := divHalfEven_mono (pow10 surplus) (pow10_pos _) small
  rwa [divHalfEven_mul _ _ (pow10_pos surplus)] at h

theorem le_cut {c : Nat} (hc : 0 < c) (long : workingDigits < digitCount c) (e : Int) :
    pow10 (workingDigits - 1) ≤ (cut c e).1 := by
  let surplus := digitCount c - workingDigits
  change _ ≤ divHalfEven c (pow10 surplus)
  have large : pow10 surplus * pow10 (workingDigits - 1) ≤ c := by
    rw [← pow10_add]
    apply (lt_digitCount_iff hc).mp
    have : 0 < workingDigits := by decide
    omega
  have h := divHalfEven_mono (pow10 surplus) (pow10_pos _) large
  rwa [divHalfEven_mul _ _ (pow10_pos surplus)] at h

/-- Decimals on one grid keep their order: of different lengths, a power of ten stands between. -/
theorem cutWhole_mono {c c' : Nat} (hc : 0 < c) (h : c ≤ c') (e : Int) :
    cutWhole c e ≤ cutWhole c' e := by
  have digits := digitCount_mono h
  by_cases same : digitCount c' - workingDigits = digitCount c - workingDigits
  · rw [cutWhole_eq, cutWhole_eq, same]
    exact toWhole_mono (divHalfEven_mono _ (pow10_pos _) h) _
  · let s := digitCount c - workingDigits
    let s' := digitCount c' - workingDigits
    obtain ⟨j, hj⟩ : ∃ j, s' = s + 1 + j := ⟨s' - (s + 1), by omega⟩
    have high := le_cut (show 0 < c' by omega) (by omega) e
    calc
      toWhole (cut c e).1 (e + s) ≤ toWhole (pow10 workingDigits) (e + s) :=
        toWhole_mono (cut_le c e) _
      _ = toWhole (pow10 (workingDigits - 1)) (e + s + 1) := by
        have t := toWhole_scale (pow10 (workingDigits - 1)) (e + s + 1) 1
        have shorter : e + s + 1 - (1 : Nat) = e + s := by omega
        rw [shorter, ← pow10_add] at t
        exact t
      _ ≤ toWhole (pow10 (workingDigits - 1) * pow10 j) (e + s + 1) :=
        toWhole_mono (Nat.le_mul_of_pos_right _ (pow10_pos j)) _
      _ = toWhole (pow10 (workingDigits - 1)) (e + s') := by
        have t := toWhole_scale (pow10 (workingDigits - 1)) (e + s') j
        have shorter : e + s' - (j : Int) = e + s + 1 := by omega
        rw [shorter] at t
        exact t
      _ ≤ toWhole (cut c' e).1 (e + s') := toWhole_mono high _

theorem cast_pow10 (k : Nat) : ((pow10 k : Nat) : ℚ) = (10 : ℚ) ^ (k : Int) := by
  rw [zpow_natCast]
  exact_mod_cast rfl

def magnitude (coefficient : Nat) (exponent : Int) : ℚ := coefficient * (10 : ℚ) ^ exponent

theorem magnitude_nonneg (c : Nat) (e : Int) : 0 ≤ magnitude c e := by
  unfold magnitude
  positivity

theorem magnitude_pos {c : Nat} (hc : 0 < c) (e : Int) : 0 < magnitude c e := by
  unfold magnitude
  positivity

theorem pos_of_magnitude_pos {c : Nat} {e : Int} (h : 0 < magnitude c e) : 0 < c := by
  by_contra zero
  obtain rfl : c = 0 := by omega
  rw [magnitude, Nat.cast_zero, zero_mul] at h
  exact lt_irrefl 0 h

theorem magnitude_scale (c : Nat) (e : Int) (k : Nat) :
    magnitude (c * pow10 k) (e - k) = magnitude c e := by
  unfold magnitude
  rw [Nat.cast_mul, cast_pow10, mul_assoc, ← zpow_add₀ (by norm_num)]
  congr 2
  omega

theorem magnitude_le_iff (c c' : Nat) (e : Int) : magnitude c e ≤ magnitude c' e ↔ c ≤ c' := by
  unfold magnitude
  rw [mul_le_mul_iff_left₀ (by positivity), Nat.cast_le]

/-- Two unsigned decimals in order can be written on one grid, and their coefficients are in order. -/
theorem exists_common_grid {c c' : Nat} {e e' : Int} (h : magnitude c e ≤ magnitude c' e') :
    ∃ k k' : Nat, e - k = e' - k' ∧ c * pow10 k ≤ c' * pow10 k' := by
  refine ⟨(e - min e e').toNat, (e' - min e e').toNat, by omega, ?_⟩
  have grid : e' - ((e' - min e e').toNat : Int) = e - ((e - min e e').toNat : Int) := by omega
  rw [← magnitude_scale c e (e - min e e').toNat, ← magnitude_scale c' e' (e' - min e e').toNat,
    grid, magnitude_le_iff] at h
  exact h

theorem leadingExponent_le_of_magnitude {c c' : Nat} (hc : 0 < c) (hc' : 0 < c') {e e' : Int}
    (h : magnitude c e ≤ magnitude c' e') : leadingExponent c e ≤ leadingExponent c' e' := by
  obtain ⟨k, k', grid, le⟩ := exists_common_grid h
  rw [← leadingExponent_scale hc e k, ← leadingExponent_scale hc' e' k', grid]
  exact leadingExponent_mono le _

theorem cutWhole_le_of_magnitude {c c' : Nat} (hc : 0 < c) (hc' : 0 < c') {e e' : Int}
    (h : magnitude c e ≤ magnitude c' e') : cutWhole c e ≤ cutWhole c' e' := by
  obtain ⟨k, k', grid, le⟩ := exists_common_grid h
  rw [← cutWhole_scale hc e k, ← cutWhole_scale hc' e' k', grid]
  exact cutWhole_mono (Nat.mul_pos hc (pow10_pos k)) le _

theorem magnitude_add (c : Nat) (e p : Int) : magnitude c (e + p) = magnitude c e * (10 : ℚ) ^ p := by
  unfold magnitude
  rw [zpow_add₀ (by norm_num), mul_assoc]

theorem toWhole_of_shift {c : Nat} {e p : Int} {r : Nat × Int} (h : shift? c e p = some r) :
    toWhole r.1 r.2 =
      if c = 0 ∨ leadingExponent c (e + p) < -workingExponent then 0 else cutWhole c (e + p) := by
  unfold shift? at h
  by_cases hc : c = 0
  · simp only [hc, if_true, Option.some.injEq] at h
    subst h
    simp [hc, toWhole]
  · simp only [hc, if_false, false_or] at h ⊢
    split at h
    · cases h
    split at h
    · rename_i low
      rw [if_pos low]
      cases h
      simp [toWhole]
    · rename_i low
      rw [if_neg low]
      split at h
      · cases h
      · cases h
        rfl

theorem toWhole_shift_mono {c c' : Nat} {e e' p : Int} {r r' : Nat × Int}
    (h : magnitude c e ≤ magnitude c' e') (hr : shift? c e p = some r)
    (hr' : shift? c' e' p = some r') : toWhole r.1 r.2 ≤ toWhole r'.1 r'.2 := by
  rw [toWhole_of_shift hr, toWhole_of_shift hr']
  split
  · exact Nat.zero_le _
  · rename_i kept
    obtain ⟨hc, high⟩ := not_or.mp kept
    have pos : 0 < c := Nat.pos_of_ne_zero hc
    have pos' : 0 < c' := pos_of_magnitude_pos ((magnitude_pos pos e).trans_le h)
    have shifted : magnitude c (e + p) ≤ magnitude c' (e' + p) := by
      rw [magnitude_add, magnitude_add]
      exact mul_le_mul_of_nonneg_right h (by positivity)
    have leading := leadingExponent_le_of_magnitude pos pos' shifted
    rw [if_neg (by omega)]
    exact cutWhole_le_of_magnitude pos pos' shifted

theorem leadingExponent_cut_le (c : Nat) (e : Int) :
    leadingExponent (cut c e).1 (cut c e).2 ≤ leadingExponent c e + 1 := by
  by_cases long : workingDigits < digitCount c
  · have le := digitCount_mono (cut_le c e)
    have most : digitCount (pow10 workingDigits) = workingDigits + 1 := by decide +kernel
    change e + ((digitCount c - workingDigits : Nat) : Int) + _ - 1 ≤ e + _ - 1 + 1
    omega
  · rw [cut_eq_self c e (by omega)]
    exact Int.le_add_one le_rfl

theorem shift_isSome {c : Nat} {e p : Int} (h : leadingExponent c (e + p) < workingExponent) :
    ∃ r, shift? c e p = some r := by
  have le := leadingExponent_cut_le c (e + p)
  unfold shift?
  dsimp only
  split
  · exact ⟨_, rfl⟩
  rw [if_neg (by omega)]
  split
  · exact ⟨_, rfl⟩
  · rw [if_neg (by omega)]
    exact ⟨_, rfl⟩

def value? : Decimal → Option ℚ
  | .finite negative c e => some (if negative then -magnitude c e else magnitude c e)
  | .special _ => none

end Decimal

theorem signed_mono {negative negative' : Bool} {m n : Nat} {v w : ℚ} (hv : 0 ≤ v) (hw : 0 ≤ w)
    (up : v ≤ w → m ≤ n) (down : w ≤ v → n ≤ m) (zero : v = 0 → m = 0) (zero' : w = 0 → n = 0)
    (h : (if negative then -v else v) ≤ if negative' then -w else w) :
    signed negative m ≤ signed negative' n := by
  cases negative <;> cases negative' <;>
    simp only [signed, if_true, if_false, Bool.false_eq_true] at h ⊢
  · exact_mod_cast up h
  · have hm := zero (by linarith)
    have hn := zero' (by linarith)
    omega
  · omega
  · have := down (by linarith)
    omega

namespace Degrees
open Decimal

theorem toWhole_shift_zero {c : Nat} {e p : Int} {r : Nat × Int} (hr : shift? c e p = some r)
    (h : magnitude c e = 0) : toWhole r.1 r.2 = 0 := by
  have zero : c = 0 := by
    by_contra hc
    have := magnitude_pos (Nat.pos_of_ne_zero hc) e
    linarith
  rw [toWhole_of_shift hr, if_pos (Or.inl zero)]

theorem fixedOfDecimal_mono {d d' : Decimal} {v w : ℚ} {a b : Int} (hv : d.value? = some v)
    (hw : d'.value? = some w) (h : v ≤ w) (ha : fixedOfDecimal d = .ok a)
    (hb : fixedOfDecimal d' = .ok b) : a ≤ b := by
  cases d with
  | special _ => cases hv
  | finite negative c e =>
    cases d' with
    | special _ => cases hw
    | finite negative' c' e' =>
      cases hv
      cases hw
      simp only [fixedOfDecimal] at ha hb
      split at ha
      · cases ha
      split at hb
      · cases hb
      rename_i _ _ hr _ _ _ hr'
      cases ha
      cases hb
      exact signed_mono (magnitude_nonneg c e) (magnitude_nonneg c' e')
        (fun le => toWhole_shift_mono le hr hr') (fun le => toWhole_shift_mono le hr' hr)
        (toWhole_shift_zero hr) (toWhole_shift_zero hr') h

end Degrees
end MapExtract
