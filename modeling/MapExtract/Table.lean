set_option autoImplicit false
namespace MapExtract

variable {κ ν : Type} [Ord κ]

structure Table (κ ν : Type) [Ord κ] where
  entries : List (κ × ν)
  ascending : entries.Pairwise fun a b => compare a.1 b.1 = .lt

namespace Table

def lookup (k : κ) : List (κ × ν) → Option ν
  | [] => none
  | (a, v) :: rest => if compare k a = .eq then some v else lookup k rest

def place (k : κ) (f : Option ν → ν) : List (κ × ν) → List (κ × ν)
  | [] => [(k, f none)]
  | (a, v) :: rest =>
    match compare k a with
    | .lt => (k, f none) :: (a, v) :: rest
    | .eq => (a, f (some v)) :: rest
    | .gt => (a, v) :: place k f rest

theorem key_of_mem_place {k : κ} {f : Option ν → ν} {l : List (κ × ν)} {e : κ × ν}
    (h : e ∈ place k f l) : e.1 = k ∨ ∃ e' ∈ l, e.1 = e'.1 := by
  induction l with
  | nil => simp [place] at h; simp [h]
  | cons head rest ih =>
    obtain ⟨a, v⟩ := head
    simp only [place] at h
    split at h
    · rcases List.mem_cons.mp h with h | h
      · simp [h]
      · exact Or.inr ⟨e, h, rfl⟩
    · rcases List.mem_cons.mp h with h | h
      · exact Or.inr ⟨(a, v), by simp, by simp [h]⟩
      · exact Or.inr ⟨e, by simp [h], rfl⟩
    · rcases List.mem_cons.mp h with h | h
      · exact Or.inr ⟨(a, v), by simp, by simp [h]⟩
      · rcases ih h with h | ⟨e', he', h⟩
        · exact Or.inl h
        · exact Or.inr ⟨e', by simp [he'], h⟩

theorem place_ascending [Std.TransOrd κ] [Std.LawfulEqOrd κ] (k : κ) (f : Option ν → ν)
    {l : List (κ × ν)} (h : l.Pairwise fun a b => compare a.1 b.1 = .lt) :
    (place k f l).Pairwise fun a b => compare a.1 b.1 = .lt := by
  induction l with
  | nil => simp [place]
  | cons head rest ih =>
    obtain ⟨a, v⟩ := head
    obtain ⟨below, tail⟩ := List.pairwise_cons.mp h
    simp only [place]
    split
    · rename_i lt
      refine List.pairwise_cons.mpr ⟨?_, h⟩
      intro e he
      rcases List.mem_cons.mp he with rfl | he
      · exact lt
      · exact Std.TransCmp.lt_trans lt (below e he)
    · exact List.pairwise_cons.mpr ⟨below, tail⟩
    · rename_i gt
      refine List.pairwise_cons.mpr ⟨?_, ih tail⟩
      intro e he
      rcases key_of_mem_place he with he | ⟨e', he', he⟩
      · rw [he]
        exact Std.OrientedCmp.lt_of_gt gt
      · rw [he]
        exact below e' he'

def empty : Table κ ν := ⟨[], List.Pairwise.nil⟩

instance : Inhabited (Table κ ν) := ⟨empty⟩

instance : EmptyCollection (Table κ ν) := ⟨empty⟩

def get? (t : Table κ ν) (k : κ) : Option ν := lookup k t.entries

def contains (t : Table κ ν) (k : κ) : Bool := (t.get? k).isSome

def size (t : Table κ ν) : Nat := t.entries.length

def keys (t : Table κ ν) : List κ := t.entries.map (·.1)

def values (t : Table κ ν) : List ν := t.entries.map (·.2)

def alter [Std.TransOrd κ] [Std.LawfulEqOrd κ] (t : Table κ ν) (k : κ) (f : Option ν → ν) :
    Table κ ν :=
  ⟨place k f t.entries, place_ascending k f t.ascending⟩

def insert [Std.TransOrd κ] [Std.LawfulEqOrd κ] (t : Table κ ν) (k : κ) (v : ν) : Table κ ν :=
  t.alter k fun _ => v

def insertNew [Std.TransOrd κ] [Std.LawfulEqOrd κ] (t : Table κ ν) (k : κ) (v : ν) : Table κ ν :=
  t.alter k fun u => u.getD v

def ofList [Std.TransOrd κ] [Std.LawfulEqOrd κ] (l : List (κ × ν)) : Table κ ν :=
  l.foldl (fun t e => t.insert e.1 e.2) empty

def merge [Std.TransOrd κ] [Std.LawfulEqOrd κ] (join : ν → ν → ν) (s t : Table κ ν) :
    Table κ ν :=
  t.entries.foldl (fun u e => u.alter e.1 fun
    | none => e.2
    | some v => join v e.2) s

instance [DecidableEq κ] [DecidableEq ν] : DecidableEq (Table κ ν) := fun s t =>
  decidable_of_iff (s.entries = t.entries) <| by
    cases s
    cases t
    simp

theorem lookup_cons [Std.LawfulEqOrd κ] [DecidableEq κ] (k a : κ) (v : ν)
    (rest : List (κ × ν)) :
    lookup k ((a, v) :: rest) = if k = a then some v else lookup k rest := by
  simp [lookup]

theorem lookup_eq_none_of_lt (k : κ) (l : List (κ × ν)) (h : ∀ e ∈ l, compare k e.1 = .lt) :
    lookup k l = none := by
  induction l with
  | nil => rfl
  | cons e l ih =>
    have he := h e (by simp)
    simp [lookup, he, ih (fun e' h' => h e' (by simp [h']))]

theorem lookup_place [Std.TransOrd κ] [Std.LawfulEqOrd κ] [DecidableEq κ] (k k' : κ)
    (f : Option ν → ν) (l : List (κ × ν))
    (h : l.Pairwise fun a b => compare a.1 b.1 = .lt) :
    lookup k' (place k f l) = if k' = k then some (f (lookup k l)) else lookup k' l := by
  induction l with
  | nil => simp only [place, lookup_cons, lookup]
  | cons head rest ih =>
    obtain ⟨a, v⟩ := head
    obtain ⟨below, tail⟩ := List.pairwise_cons.mp h
    simp only [place]
    split
    · rename_i lt
      have absent : lookup k ((a, v) :: rest) = none := by
        refine lookup_eq_none_of_lt k _ fun e he => ?_
        rcases List.mem_cons.mp he with rfl | he
        · exact lt
        · exact Std.TransCmp.lt_trans lt (below e he)
      rw [lookup_cons, absent]
    · rename_i eq
      obtain rfl : k = a := Std.LawfulEqOrd.compare_eq_iff_eq.mp eq
      by_cases e : k' = k <;> simp [lookup_cons, e]
    · rename_i gt
      have ka : k ≠ a := by
        rintro rfl
        simp [Std.ReflOrd.compare_self] at gt
      rw [lookup_cons, lookup_cons, lookup_cons, ih tail, if_neg ka]
      by_cases e : k' = k
      · rw [e, if_neg ka, if_pos rfl, if_pos rfl]
      · simp only [e, if_false]

theorem get?_empty (k : κ) : (empty : Table κ ν).get? k = none := rfl

theorem get?_alter [Std.TransOrd κ] [Std.LawfulEqOrd κ] [DecidableEq κ]
    (t : Table κ ν) (k k' : κ) (f : Option ν → ν) :
    (t.alter k f).get? k' = if k' = k then some (f (t.get? k)) else t.get? k' :=
  lookup_place k k' f t.entries t.ascending

theorem get?_insert [Std.TransOrd κ] [Std.LawfulEqOrd κ] [DecidableEq κ]
    (t : Table κ ν) (k k' : κ) (v : ν) :
    (t.insert k v).get? k' = if k' = k then some v else t.get? k' :=
  get?_alter t k k' _

theorem get?_insertNew [Std.TransOrd κ] [Std.LawfulEqOrd κ] [DecidableEq κ]
    (t : Table κ ν) (k k' : κ) (v : ν) :
    (t.insertNew k v).get? k' = if k' = k then some ((t.get? k).getD v) else t.get? k' :=
  get?_alter t k k' _

theorem length_place_of_lookup_eq_none {k : κ} {l : List (κ × ν)} (h : lookup k l = none)
    (f : Option ν → ν) : (place k f l).length = l.length + 1 := by
  induction l with
  | nil => rfl
  | cons head rest ih =>
    obtain ⟨a, v⟩ := head
    simp only [lookup] at h
    split at h
    · cases h
    · rename_i ne
      simp only [place]
      split
      · rfl
      · rename_i eq
        exact absurd eq ne
      · rw [List.length_cons, ih h, List.length_cons]

theorem size_insertNew [Std.TransOrd κ] [Std.LawfulEqOrd κ] (t : Table κ ν) {k : κ}
    (h : t.get? k = none) (v : ν) : (t.insertNew k v).size = t.size + 1 :=
  length_place_of_lookup_eq_none h _

theorem mem_entries_iff [Std.LawfulEqOrd κ] (t : Table κ ν) (k : κ) (v : ν) :
    (k, v) ∈ t.entries ↔ t.get? k = some v := by
  obtain ⟨l, h⟩ := t
  show (k, v) ∈ l ↔ lookup k l = some v
  induction l with
  | nil => simp [lookup]
  | cons head rest ih =>
    obtain ⟨a, u⟩ := head
    obtain ⟨below, tail⟩ := List.pairwise_cons.mp h
    by_cases e : k = a
    · subst e
      have absent : (k, v) ∉ rest := fun hm => by
        simpa [Std.ReflOrd.compare_self] using below _ hm
      simp [lookup, Std.ReflOrd.compare_self, absent, eq_comm]
    · have ne : compare k a ≠ .eq := fun h => e (Std.LawfulEqOrd.compare_eq_iff_eq.mp h)
      simp [lookup, ne, e, ih tail]

private theorem eq_of_mem_iff [Std.TransOrd κ] {s t : List (κ × ν)}
    (hs : s.Pairwise fun a b => compare a.1 b.1 = .lt)
    (ht : t.Pairwise fun a b => compare a.1 b.1 = .lt)
    (h : ∀ e, e ∈ s ↔ e ∈ t) : s = t := by
  induction s generalizing t with
  | nil =>
    cases t with
    | nil => rfl
    | cons e t => simpa using h e
  | cons a s ih =>
    cases t with
    | nil => simpa using h a
    | cons b t =>
      obtain ⟨belowA, tailA⟩ := List.pairwise_cons.mp hs
      obtain ⟨belowB, tailB⟩ := List.pairwise_cons.mp ht
      -- Both first entries are the least of the same entries.
      have ab : a = b := by
        rcases List.mem_cons.mp ((h a).mp (by simp)) with e | ha
        · exact e
        rcases List.mem_cons.mp ((h b).mpr (by simp)) with e | hb
        · exact e.symm
        · exact absurd (belowB a ha) (Std.OrientedCmp.not_lt_of_lt (belowA b hb))
      subst ab
      refine congrArg _ (ih tailA tailB fun e => ?_)
      constructor
      · intro he
        rcases List.mem_cons.mp ((h e).mp (by simp [he])) with rfl | he'
        · simpa [Std.ReflOrd.compare_self] using belowA e he
        · exact he'
      · intro he
        rcases List.mem_cons.mp ((h e).mpr (by simp [he])) with rfl | he'
        · simpa [Std.ReflOrd.compare_self] using belowB e he
        · exact he'

theorem ext_get? [Std.TransOrd κ] [Std.LawfulEqOrd κ] {s t : Table κ ν}
    (h : ∀ k, s.get? k = t.get? k) : s = t := by
  have e : s.entries = t.entries := eq_of_mem_iff s.ascending t.ascending fun ⟨k, v⟩ => by
    rw [mem_entries_iff, mem_entries_iff, h]
  cases s
  cases t
  cases e
  rfl

end Table
end MapExtract
