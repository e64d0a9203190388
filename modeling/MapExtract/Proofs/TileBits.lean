import Mathlib.Data.Int.ConditionallyCompleteOrder
import Mathlib.Data.Nat.Bitwise
import Mathlib.Data.Set.Function
import Mathlib.Order.ConditionallyCompleteLattice.Basic
import Mathlib.Order.Monotone.Defs
import Mathlib.Tactic.Ring
import MapExtract.Proofs.TileOrder

set_option autoImplicit false
namespace MapExtract.Tile

theorem testBit_interleave (n x y : Nat) {i : Nat} (hi : i < n) :
    (interleave n x y).testBit (2 * i) = y.testBit i ∧
      (interleave n x y).testBit (2 * i + 1) = x.testBit i := by
  induction n generalizing x y i with
  | zero => omega
  | succ n ih =>
    let code := interleave (n + 1) x y
    have unfolded : code = 4 * interleave n (x / 2) (y / 2) + (2 * (x % 2) + y % 2) := rfl
    have halved : code / 2 / 2 = interleave n (x / 2) (y / 2) := by omega
    cases i with
    | zero =>
      change code.testBit 0 = y.testBit 0 ∧ code.testBit 1 = x.testBit 0
      rw [Nat.testBit_succ, Nat.testBit_zero, Nat.testBit_zero, Nat.testBit_zero, Nat.testBit_zero,
        decide_eq_decide, decide_eq_decide]
      omega
    | succ i =>
      have rest := ih (x / 2) (y / 2) (i := i) (by omega)
      change code.testBit (2 * i + 1 + 1) = _ ∧ code.testBit (2 * i + 1 + 1 + 1) = _
      simp only [Nat.testBit_succ, halved] at rest ⊢
      exact rest

theorem lowBits_lt (z : Int) : lowBits z < 2 ^ bits := by
  have pos : (0 : Int) < pow2 bits := by decide
  have small := Int.emod_lt_of_pos z pos
  have nonneg := Int.emod_nonneg z pos.ne'
  have wide : (pow2 bits : Int) = (2 ^ bits : Nat) := rfl
  unfold lowBits
  omega

theorem lowBits_emod (z : Int) : lowBits (z % 65536) = lowBits z := by
  have wide : (pow2 bits : Int) = 65536 := rfl
  unfold lowBits
  rw [wide, Int.emod_emod_of_dvd z (dvd_refl 65536)]

theorem testBit_lowBits (z : Int) {i : Nat} (hi : i < bits) :
    (lowBits z).testBit i = decide (z / 2 ^ i % 2 = 1) := by
  obtain ⟨rest, split⟩ : ∃ rest, bits = i + 1 + rest := ⟨bits - (i + 1), by omega⟩
  have wide : (pow2 bits : Int) = 2 ^ i * (2 * 2 ^ rest) := by
    have power : (pow2 bits : Int) = 2 ^ bits := rfl
    rw [power, split]
    ring
  have low : (lowBits z : Int) = z % (2 ^ i * (2 * 2 ^ rest)) := by
    have nonneg := Int.emod_nonneg z (show (pow2 bits : Int) ≠ 0 by decide)
    rw [← wide]
    exact Int.toNat_of_nonneg nonneg
  have shifted : (lowBits z : Int) / 2 ^ i % 2 = z / 2 ^ i % 2 := by
    have pos : (0 : Int) < 2 ^ i := by positivity
    have parts := Int.emod_add_mul_ediv z (2 ^ i * (2 * 2 ^ rest))
    conv_rhs => rw [← parts, mul_assoc, Int.add_mul_ediv_left _ _ pos.ne', ← low, mul_assoc]
    rw [Int.add_mul_emod_self_left]
  rw [Nat.testBit_eq_decide_div_mod_eq, decide_eq_decide, ← shifted]
  norm_cast

theorem testBit_ofCells (x y : Int) {i : Nat} (hi : i < bits) :
    (ofCells x y).testBit (2 * i) = decide (y / 2 ^ i % 2 = 1) ∧
      (ofCells x y).testBit (2 * i + 1) = decide (x / 2 ^ i % 2 = 1) := by
  rw [← testBit_lowBits x hi, ← testBit_lowBits y hi]
  exact testBit_interleave bits (lowBits x) (lowBits y) hi

theorem ofCells_lt (x y : Int) : ofCells x y < 2 ^ 32 := interleave_lt bits _ _

/-- Every other bit of a code, from a first one on, collected into one number. -/
def everyOther (first code : Nat) : Nat := Nat.ofBits fun i : Fin bits => code.testBit (2 * i + first)

theorem testBit_everyOther (first code : Nat) {i : Nat} (hi : i < bits) :
    (everyOther first code).testBit i = code.testBit (2 * i + first) :=
  Nat.testBit_ofBits_lt _ i hi

theorem everyOther_lt (first code : Nat) : everyOther first code < 2 ^ bits := Nat.ofBits_lt_two_pow _

theorem eq_of_low_bits {m n k : Nat} (hm : m < 2 ^ k) (hn : n < 2 ^ k)
    (h : ∀ i < k, m.testBit i = n.testBit i) : m = n := by
  apply Nat.eq_of_testBit_eq
  intro i
  by_cases low : i < k
  · exact h i low
  · have wide : 2 ^ k ≤ 2 ^ i := Nat.pow_le_pow_right (by decide) (by omega)
    rw [Nat.testBit_lt_two_pow (hm.trans_le wide), Nat.testBit_lt_two_pow (hn.trans_le wide)]

theorem everyOther_ofCells (x y : Int) :
    everyOther 1 (ofCells x y) = lowBits x ∧ everyOther 0 (ofCells x y) = lowBits y := by
  constructor
  · apply eq_of_low_bits (everyOther_lt _ _) (lowBits_lt x)
    intro i hi
    rw [testBit_everyOther 1 _ hi, (testBit_ofCells x y hi).2, testBit_lowBits x hi]
  · apply eq_of_low_bits (everyOther_lt _ _) (lowBits_lt y)
    intro i hi
    rw [testBit_everyOther 0 _ hi, Nat.add_zero, (testBit_ofCells x y hi).1, testBit_lowBits y hi]

theorem ofCells_everyOther {code : Nat} (h : code < 2 ^ 32) :
    ofCells (everyOther 1 code) (everyOther 0 code) = code := by
  apply eq_of_low_bits (ofCells_lt _ _) h
  intro j hj
  have low (first : Nat) : lowBits (everyOther first code) = everyOther first code :=
    lowBits_natCast (Nat.le_of_lt_succ (everyOther_lt first code))
  have half : j / 2 < bits := by
    have : bits = 16 := rfl
    omega
  have pair := testBit_interleave bits (everyOther 1 code) (everyOther 0 code) half
  rw [ofCells, low, low]
  rcases Nat.mod_two_eq_zero_or_one j with even | odd
  · have place : j = 2 * (j / 2) := by omega
    rw [place, pair.1, testBit_everyOther 0 _ half, Nat.add_zero]
  · have place : j = 2 * (j / 2) + 1 := by omega
    rw [place, pair.2, testBit_everyOther 1 _ half]

def worldCells : Set (Int × Int) := Set.Icc (0, 0) (65535, 65535)

theorem mem_worldCells {p : Int × Int} :
    p ∈ worldCells ↔ ∃ x y : Nat, x ≤ Axis.lastCell ∧ y ≤ Axis.lastCell ∧ p = (↑x, ↑y) := by
  have last : Axis.lastCell = 65535 := rfl
  obtain ⟨a, b⟩ := p
  simp only [worldCells, Set.mem_Icc, Prod.mk_le_mk, Prod.mk.injEq]
  constructor
  · intro inside
    exact ⟨a.toNat, b.toNat, by omega, by omega, by omega, by omega⟩
  · rintro ⟨x, y, hx, hy, rfl, rfl⟩
    omega

theorem invOn_everyOther :
    Set.InvOn (fun code => ((everyOther 1 code : Int), (everyOther 0 code : Int)))
      (fun p : Int × Int => ofCells p.1 p.2) worldCells (Set.Iio (2 ^ 32)) := by
  constructor
  · intro p hp
    obtain ⟨x, y, hx, hy, rfl⟩ := mem_worldCells.mp hp
    obtain ⟨odd, even⟩ := everyOther_ofCells x y
    simp only [odd, even, lowBits_natCast hx, lowBits_natCast hy]
  · intro code hc
    exact ofCells_everyOther hc

theorem bijOn_ofCells :
    Set.BijOn (fun p : Int × Int => ofCells p.1 p.2) worldCells (Set.Iio (2 ^ 32)) := by
  apply invOn_everyOther.bijOn
  · intro p _
    exact ofCells_lt p.1 p.2
  · intro code _
    exact mem_worldCells.mpr ⟨_, _, Nat.le_of_lt_succ (everyOther_lt 1 code),
      Nat.le_of_lt_succ (everyOther_lt 0 code), rfl⟩

theorem strictMonoOn_ofCells :
    StrictMonoOn (fun p : Int × Int => ofCells p.1 p.2) worldCells := by
  intro p hp q hq less
  apply lt_of_le_of_ne
  · obtain ⟨x, y, hx, hy, rfl⟩ := mem_worldCells.mp hp
    obtain ⟨x', y', hx', hy', rfl⟩ := mem_worldCells.mp hq
    obtain ⟨lex, ley⟩ := Prod.mk_le_mk.mp less.le
    exact ofCells_mono (Int.ofNat_le.mp lex) (Int.ofNat_le.mp ley) hx' hy'
  · intro same
    exact less.ne (bijOn_ofCells.injOn hp hq same)

/-- The tile of two numbers depends on them modulo 65536 only. On the cells of the world it is a
bijection onto the codes of 32 bits, undone by collecting the bits at odd and at even positions, and
it grows with the cells. -/
theorem ofCells_order_bijection :
    (∀ x y : Int, ofCells x y = ofCells (x % 65536) (y % 65536) ∧ ofCells x y < 2 ^ 32 ∧
      ∀ i < 16, (ofCells x y).testBit (2 * i + 1) = decide (x / 2 ^ i % 2 = 1) ∧
        (ofCells x y).testBit (2 * i) = decide (y / 2 ^ i % 2 = 1)) ∧
    Set.BijOn (fun p : Int × Int => ofCells p.1 p.2) worldCells (Set.Iio (2 ^ 32)) ∧
    Set.InvOn (fun code => ((everyOther 1 code : Int), (everyOther 0 code : Int)))
      (fun p : Int × Int => ofCells p.1 p.2) worldCells (Set.Iio (2 ^ 32)) ∧
    StrictMonoOn (fun p : Int × Int => ofCells p.1 p.2) worldCells := by
  refine ⟨fun x y => ⟨?_, ofCells_lt x y, fun i hi => ?_⟩, bijOn_ofCells, invOn_everyOther,
    strictMonoOn_ofCells⟩
  · rw [ofCells, ofCells, lowBits_emod, lowBits_emod]
  · exact (testBit_ofCells x y hi).symm

example : ofCells (-1) 65536 = 2863311530 := by
  decide +kernel

end MapExtract.Tile
