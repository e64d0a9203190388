set_option autoImplicit false
namespace MapExtract

def pow2 (n : Nat) : Nat := Nat.pow 2 n

def pow10 (n : Nat) : Nat := Nat.pow 10 n

theorem pow2_zero : pow2 0 = 1 := rfl

theorem pow2_succ (n : Nat) : pow2 (n + 1) = pow2 n * 2 := rfl

theorem pow10_zero : pow10 0 = 1 := rfl

theorem pow2_pos (n : Nat) : 0 < pow2 n := Nat.pow_pos (by decide)

theorem pow10_pos (n : Nat) : 0 < pow10 n := Nat.pow_pos (by decide)

theorem pow2_add (m n : Nat) : pow2 (m + n) = pow2 m * pow2 n := Nat.pow_add 2 m n

theorem pow10_add (m n : Nat) : pow10 (m + n) = pow10 m * pow10 n := Nat.pow_add 10 m n

def signed (negative : Bool) (n : Nat) : Int := if negative then -n else n

theorem signed_natAbs (z : Int) : signed (z < 0) z.natAbs = z := by
  unfold signed
  split
  · rename_i h
    have h : z < 0 := of_decide_eq_true h
    omega
  · rename_i h
    have h : ¬z < 0 := fun hz => h (decide_eq_true hz)
    omega

def divHalfUp (n d : Nat) : Nat := (2 * n + d) / (2 * d)

def divHalfEven (n d : Nat) : Nat :=
  if 2 * (n % d) < d ∨ 2 * (n % d) = d ∧ n / d % 2 = 0 then n / d else n / d + 1

theorem divHalfUp_mono (d : Nat) {m n : Nat} (h : m ≤ n) : divHalfUp m d ≤ divHalfUp n d := by
  unfold divHalfUp
  exact Nat.div_le_div_right (by omega)

theorem divHalfEven_le (n d : Nat) : 2 * d * divHalfEven n d ≤ 2 * n + d := by
  unfold divHalfEven
  have h := Nat.div_add_mod n d
  generalize n / d = q at h
  generalize n % d = r at h
  have e : 2 * d * q = 2 * (d * q) := by rw [Nat.mul_assoc]
  split
  · omega
  · rw [Nat.mul_add]
    omega

theorem le_divHalfEven (n d : Nat) (hd : 0 < d) : 2 * n ≤ 2 * d * divHalfEven n d + d := by
  unfold divHalfEven
  have h := Nat.div_add_mod n d
  have hr := Nat.mod_lt n hd
  generalize n / d = q at h
  generalize n % d = r at h hr
  have e : 2 * d * q = 2 * (d * q) := by rw [Nat.mul_assoc]
  split
  · omega
  · rw [Nat.mul_add]
    omega

theorem divHalfEven_mul (d q : Nat) (hd : 0 < d) : divHalfEven (d * q) d = q := by
  simp [divHalfEven, Nat.mul_div_cancel_left _ hd, hd]

end MapExtract
