import MapExtract.Selection.Basic

/-!
Expanding a relation: the relation, its members, and the nodes of member ways. Every relation that
is put in line is crossed off the relations of the store that have not been seen, so self references
and cycles end.
-/

set_option autoImplicit false
namespace MapExtract
open Element (Kind Key)

/-- An expansion in the making, with the relations seen so far and those that wait with their depth. -/
structure Expansion where
  draft : Draft
  seen : List Int
  waiting : List (Relation × Nat)

namespace Expansion

def deeper (maxDepth : Option Int) (depth : Nat) : Bool :=
  match maxDepth with
  | none => true
  | some most => (depth : Int) + 1 < most

/-- Puts a relation in line unless it has been seen or lies too deep. -/
def meet (maxDepth : Option Int) (depth : Nat) (x : Expansion) (r : Relation) : Expansion :=
  if r.id ∈ x.seen then x
  else if deeper maxDepth depth then
    { x with seen := r.id :: x.seen, waiting := x.waiting ++ [(r, depth + 1)] }
  else { x with seen := r.id :: x.seen }

def addMember (s : Store) (maxDepth : Option Int) (depth : Nat) (x : Expansion) (m : Member) :
    Expansion :=
  match s.find (m.kind, m.id) with
  | .error n => { x with draft := x.draft.note n }
  | .ok (.node n) => { x with draft := x.draft.add (.node n) }
  | .ok (.way w) => { x with draft := (x.draft.add (.way w)).addNodesOf s w }
  | .ok (.relation r) => { x with draft := x.draft.add (.relation r) }.meet maxDepth depth r

def step? (s : Store) (maxDepth : Option Int) (x : Expansion) : Option Expansion :=
  match x.waiting with
  | [] => none
  | (r, depth) :: rest =>
    let taken : Expansion := { x with draft := x.draft.add (.relation r), waiting := rest }
    some (r.members.foldl (addMember s maxDepth depth) taken)

def relationIds (s : Store) : List Int :=
  s.histories.filterMap fun (_, h) => h.getLast?.bind Element.relation? |>.map (·.id)

/-- How many steps an expansion has left at most: those in line, and those that may join it. -/
def stepsLeft (s : Store) (x : Expansion) : Nat :=
  ((relationIds s).filter (· ∉ x.seen)).length + x.waiting.length

theorem length_filter_cons_lt {ids seen : List Int} {id : Int} (hid : id ∈ ids) (hs : id ∉ seen) :
    (ids.filter (· ∉ id :: seen)).length < (ids.filter (· ∉ seen)).length := by
  induction ids with
  | nil => simp at hid
  | cons a rest ih =>
    have le : (rest.filter (· ∉ id :: seen)).length ≤ (rest.filter (· ∉ seen)).length := by
      rw [← List.countP_eq_length_filter, ← List.countP_eq_length_filter]
      exact List.countP_mono_left fun b _ h => by simp_all
    by_cases ha : a = id
    · subst ha
      simp only [List.mem_cons, List.filter_cons] at *
      simp [hs]
      simp at le
      omega
    · have hrest : id ∈ rest := by
        rcases List.mem_cons.mp hid with h | h
        · exact absurd h.symm ha
        · exact h
      have := ih hrest
      by_cases hseen : a ∈ seen <;> simp [ha, hseen] at this ⊢ <;> omega

theorem mem_relationIds {s : Store} {k : Key} {r : Relation}
    (h : s.current? k = some (.relation r)) : r.id ∈ relationIds s := by
  have found : ∀ hs : List (Key × History),
      (Store.historyIn k hs).getLast? = some (.relation r) →
      r.id ∈ hs.filterMap fun (_, h) => h.getLast?.bind Element.relation? |>.map (·.id) := by
    intro hs
    induction hs with
    | nil => intro h; simp [Store.historyIn] at h
    | cons head rest ih =>
      obtain ⟨a, h⟩ := head
      intro hl
      by_cases ha : a = k
      · simp only [Store.historyIn, if_pos ha] at hl
        simp [hl, Element.relation?]
      · simp only [Store.historyIn, if_neg ha] at hl
        have := ih hl
        simp only [List.mem_filterMap] at this ⊢
        obtain ⟨e, he, hr⟩ := this
        exact ⟨e, by simp [he], hr⟩
  exact found s.histories h

theorem stepsLeft_meet_le (s : Store) (maxDepth : Option Int) (depth : Nat) (x : Expansion)
    (r : Relation) (hr : r.id ∈ relationIds s) :
    stepsLeft s (x.meet maxDepth depth r) ≤ stepsLeft s x := by
  unfold meet
  split
  · exact Nat.le_refl _
  · rename_i unseen
    have lt := length_filter_cons_lt hr unseen
    split <;> simp only [stepsLeft, List.length_append, List.length_singleton] <;> omega

/-- What outlasts a change of the draft and the meeting of any relation found outlasts a walk through
all members. -/
theorem foldl_addMember_preserves {s : Store} {maxDepth : Option Int} {depth : Nat}
    {ms : List Member} {P : Expansion → Prop} {x : Expansion} (h : P x)
    (quiet : ∀ y d, P y → P { y with draft := d })
    (met : ∀ m ∈ ms, ∀ r, s.find (m.kind, m.id) = .ok (.relation r) →
      ∀ y, P y → P (y.meet maxDepth depth r)) :
    P (ms.foldl (addMember s maxDepth depth) x) := by
  refine List.foldlRecOn ms _ h fun y hy m hm => ?_
  unfold addMember
  split
  · exact quiet y _ hy
  · exact quiet y _ hy
  · exact quiet y _ hy
  · rename_i r found
    exact met m hm r found _ (quiet y _ hy)

theorem stepsLeft_foldl_le (s : Store) (maxDepth : Option Int) (depth : Nat) (ms : List Member)
    (x : Expansion) :
    stepsLeft s (ms.foldl (addMember s maxDepth depth) x) ≤ stepsLeft s x := by
  refine foldl_addMember_preserves (P := fun y => stepsLeft s y ≤ stepsLeft s x) (Nat.le_refl _)
    (fun _ _ h => h) ?_
  intro m _ r found y hy
  have known : s.current? (m.kind, m.id) = some (.relation r) := by
    unfold Store.find at found
    split at found
    · cases found
    · rename_i e he
      split at found
      · rw [he, Except.ok.inj found]
      · cases found
  exact Nat.le_trans (stepsLeft_meet_le s maxDepth depth y r (mem_relationIds known)) hy

theorem stepsLeft_lt_of_step {s : Store} {maxDepth : Option Int} {x y : Expansion}
    (h : step? s maxDepth x = some y) : stepsLeft s y < stepsLeft s x := by
  unfold step? at h
  split at h
  · cases h
  · rename_i r depth rest hw
    cases h
    refine Nat.lt_of_le_of_lt (stepsLeft_foldl_le s maxDepth depth r.members _) ?_
    simp only [stepsLeft, hw, List.length_cons]
    omega

def run (s : Store) (maxDepth : Option Int) (x : Expansion) : Expansion :=
  match _h : step? s maxDepth x with
  | none => x
  | some y => run s maxDepth y
termination_by stepsLeft s x
decreasing_by exact stepsLeft_lt_of_step _h

def start (root : Relation) (d : Draft) : Expansion := ⟨d, [root.id], [(root, 0)]⟩

end Expansion

/-- The relation with its members down to a depth, and with the nodes of its ways. Without a depth
all members of members are followed. -/
def Store.expand (s : Store) (id : Int) (maxDepth : Option Int) : Except Error Draft := do
  if let some depth := maxDepth then
    if depth < 1 then throw (.depthTooSmall depth)
  match ← s.getVisible (.relation, id) with
  | .relation root =>
    return ((Expansion.start root (Draft.empty.note (.expanding id maxDepth))).run s maxDepth).draft
  | _ => throw (.notFound .relation id)

def defaultDepth : Int := 1

end MapExtract
