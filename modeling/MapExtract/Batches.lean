import MapExtract.Error

set_option autoImplicit false
namespace MapExtract

variable {α : Type}

def batches (size : Nat) (xs : List α) : List (List α) :=
  if size = 0 ∨ xs = [] then [] else xs.take size :: batches size (xs.drop size)
termination_by xs.length
decreasing_by
  have : 0 < xs.length := List.length_pos_iff.mpr (by simp_all)
  simp only [List.length_drop]
  omega

def maxBatchSize : Int := 0x7FFFFFFFFFFFFFFF

/-- Refuses batches of no elements or of too many, even where there is nothing to cut. -/
def batchesOf (size : Int) (xs : List α) : Except Error (List (List α)) :=
  if size < 1 then .error .batchSizeTooSmall
  else if maxBatchSize < size then .error .batchSizeTooLarge
  else .ok (batches size.toNat xs)

theorem batchesOf_eq_ok {size : Int} (hs : 1 ≤ size) (hm : size ≤ maxBatchSize) (xs : List α) :
    batchesOf size xs = .ok (batches size.toNat xs) := by
  rw [batchesOf, if_neg (by omega), if_neg (by omega)]

theorem flatten_batches (size : Nat) (hs : 0 < size) (xs : List α) :
    (batches size xs).flatten = xs := by
  fun_induction batches size xs with
  | case1 xs h =>
    rcases h with h | h
    · omega
    · simp [h]
  | case2 xs h ih => simp [ih, List.take_append_drop]

theorem length_le_of_mem_batches (size : Nat) (xs b : List α) (h : b ∈ batches size xs) :
    b.length ≤ size := by
  fun_induction batches size xs with
  | case1 xs hx => simp at h
  | case2 xs hx ih =>
    rcases List.mem_cons.mp h with rfl | h
    · rw [List.length_take]
      exact Nat.min_le_left _ _
    · exact ih h

theorem getElem?_batches (size : Nat) (hs : 0 < size) (xs : List α) (i : Nat) :
    (batches size xs)[i]? =
      if i * size < xs.length then some ((xs.drop (i * size)).take size) else none := by
  fun_induction batches size xs generalizing i with
  | case1 xs h =>
    rcases h with h | h
    · omega
    · simp [h]
  | case2 xs h ih =>
    cases i with
    | zero =>
      have filled : 0 < xs.length := List.length_pos_iff.mpr fun none => h (.inr none)
      simp [filled]
    | succ i =>
      have shifted : i * size < xs.length - size ↔ i * size + size < xs.length := by omega
      rw [List.getElem?_cons_succ, ih, List.drop_drop, List.length_drop, Nat.succ_mul,
        Nat.add_comm size]
      simp only [shifted]

end MapExtract
