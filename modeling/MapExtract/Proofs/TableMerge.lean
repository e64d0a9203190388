import MapExtract.Table

set_option autoImplicit false
namespace MapExtract.Table

variable {κ ν : Type} [Ord κ] [Std.TransOrd κ] [Std.LawfulEqOrd κ]

theorem merge_empty (join : ν → ν → ν) (t : Table κ ν) : t.merge join empty = t := rfl

variable [DecidableEq κ]

theorem get?_merge (join : ν → ν → ν) (s t : Table κ ν) (k : κ) :
    (s.merge join t).get? k = Option.merge join (s.get? k) (t.get? k) := by
  obtain ⟨l, ascending⟩ := t
  change (l.foldl _ s).get? k = Option.merge join (s.get? k) (lookup k l)
  induction l generalizing s with
  | nil => exact Option.merge_none_right.symm
  | cons head rest ih =>
    obtain ⟨a, v⟩ := head
    obtain ⟨below, tail⟩ := List.pairwise_cons.mp ascending
    rw [List.foldl_cons, ih _ tail, get?_alter, lookup_cons]
    by_cases same : k = a
    · subst same
      rw [if_pos rfl, if_pos rfl, lookup_eq_none_of_lt k rest below]
      cases s.get? k <;> rfl
    · rw [if_neg same, if_neg same]

theorem empty_merge (join : ν → ν → ν) (t : Table κ ν) : empty.merge join t = t := by
  apply ext_get?
  intro k
  rw [get?_merge, get?_empty, Option.merge_none_left]

theorem merge_assoc {join : ν → ν → ν} {t : Table κ ν}
    (assoc : ∀ k b, t.get? k = some b → ∀ a c, join (join a b) c = join a (join b c))
    (s u : Table κ ν) : (s.merge join t).merge join u = s.merge join (t.merge join u) := by
  apply ext_get?
  intro k
  simp only [get?_merge]
  cases hs : s.get? k <;> cases ht : t.get? k <;> cases hu : u.get? k <;>
    simp only [Option.merge, Option.some.injEq]
  exact assoc k _ ht _ _

/-- Replacing what stands under a key is a merge if something there is joined. -/
theorem alter_eq_merge {join : ν → ν → ν} {f : Option ν → ν}
    (joins : ∀ v, f (some v) = join v (f none)) (t : Table κ ν) (k : κ) :
    t.alter k f = t.merge join (empty.alter k f) := by
  apply ext_get?
  intro a
  rw [get?_merge, get?_alter, get?_alter, get?_empty, get?_empty]
  by_cases same : a = k
  · rw [if_pos same, if_pos same, same]
    cases t.get? k with
    | none => rfl
    | some v => exact congrArg some (joins v)
  · rw [if_neg same, if_neg same, Option.merge_none_right]

theorem ofList_entries (t : Table κ ν) : ofList t.entries = t := by
  calc ofList t.entries
      = empty.merge (fun _ v => v) t := by
        refine congrArg (t.entries.foldl · empty) (funext fun u => funext fun e => ?_)
        refine congrArg (u.alter e.1) (funext fun old => ?_)
        cases old <;> rfl
    _ = t := empty_merge _ t

end MapExtract.Table
