import Mathlib.Data.Set.Card
import MapExtract.Proofs.ExpansionDistance

set_option autoImplicit false
namespace MapExtract
open Element (Kind Key)

namespace Store

variable {s : Store} {root : Relation}

def Reaches (s : Store) (root r : Relation) : Prop := ∃ n, s.Chain root n r

theorem reaches_finite (hs : s.WellFormed) (shown : s.Shows (.relation root)) :
    {r | s.Reaches root r}.Finite := by
  apply (List.finite_toSet s.visibleRelations).subset
  intro r reached
  obtain ⟨n, chain⟩ := reached
  exact (mem_visibleRelations hs r).mpr (chain.shows shown)

theorem length_le_reached (hs : s.WellFormed) (shown : s.Shows (.relation root)) {rs : List Relation}
    (distinct : rs.Nodup) (reached : ∀ r ∈ rs, s.Reaches root r) :
    rs.length ≤ {r | s.Reaches root r}.ncard := by
  classical
  have counted : (rs.toFinset : Set Relation).ncard = rs.length := by
    rw [Set.ncard_coe_finset, List.toFinset_card_of_nodup distinct]
  rw [← counted]
  apply Set.ncard_le_ncard _ (reaches_finite hs shown)
  intro r hr
  exact reached r (List.mem_toFinset.mp hr)

end Store

namespace Expansion
open Store

variable {s : Store} {root : Relation} {maxDepth : Option Int}

/-- No relation was put in line twice, for whatever was put there counts as seen. -/
structure PutOnce (done : List (Relation × Nat)) (x : Expansion) : Prop where
  distinct : ((done ++ x.waiting).map fun p => p.1.id).Nodup
  seen : ∀ p ∈ done ++ x.waiting, p.1.id ∈ x.seen

theorem meet_putOnce {done : List (Relation × Nat)} {x : Expansion} (h : PutOnce done x)
    (depth : Nat) (r : Relation) : PutOnce done (x.meet maxDepth depth r) := by
  unfold meet
  split
  · exact h
  · rename_i unseen
    split
    · have line : done ++ (x.waiting ++ [(r, depth + 1)]) = done ++ x.waiting ++ [(r, depth + 1)] :=
        (List.append_assoc _ _ _).symm
      have fresh : ∀ p ∈ done ++ x.waiting, p.1.id ≠ r.id := by
        intro p hp same
        exact unseen (same ▸ h.seen p hp)
      refine ⟨?_, ?_⟩
      · rw [line, List.map_append]
        refine List.nodup_append.mpr ⟨h.distinct, List.nodup_singleton _, ?_⟩
        intro id hid other hother
        obtain ⟨p, hp, rfl⟩ := List.mem_map.mp hid
        rw [List.map_singleton, List.mem_singleton] at hother
        rw [hother]
        exact fresh p hp
      · intro p hp
        rw [line] at hp
        rcases List.mem_append.mp hp with before | last
        · exact List.mem_cons_of_mem _ (h.seen p before)
        · rw [List.mem_singleton.mp last]
          exact List.mem_cons_self
    · exact ⟨h.distinct, fun p hp => List.mem_cons_of_mem _ (h.seen p hp)⟩

theorem foldl_addMember_putOnce {done : List (Relation × Nat)} (depth : Nat) (ms : List Member)
    {x : Expansion} (h : PutOnce done x) :
    PutOnce done (ms.foldl (addMember s maxDepth depth) x) :=
  foldl_addMember_preserves h (fun _ _ hy => ⟨hy.distinct, hy.seen⟩)
    fun _ _ r _ _ hy => meet_putOnce hy depth r

theorem step_putOnce {done : List (Relation × Nat)} {x y : Expansion} (h : PutOnce done x)
    {p : Relation × Nat} {rest : List (Relation × Nat)} (hw : x.waiting = p :: rest)
    (hy : step? s maxDepth x = some y) : PutOnce (done ++ [p]) y := by
  rw [step?_of_waiting hw] at hy
  cases hy
  have line := line_taken hw done
  apply foldl_addMember_putOnce
  exact ⟨line ▸ h.distinct, line ▸ h.seen⟩

theorem Taken.putOnce {d : Draft} {done : List (Relation × Nat)} {x : Expansion}
    (h : Taken s maxDepth (Expansion.start root d) done x) : PutOnce done x := by
  induction h with
  | start =>
    refine ⟨List.nodup_singleton _, ?_⟩
    intro p hp
    rw [List.mem_singleton.mp hp]
    exact List.mem_cons_self
  | step _ hw hz ih => exact step_putOnce ih hw hz

theorem meet_waiting (depth : Nat) (x : Expansion) (r : Relation) :
    x.waiting <+: (x.meet maxDepth depth r).waiting := by
  unfold meet
  split
  · exact List.prefix_rfl
  · split
    · exact List.prefix_append _ _
    · exact List.prefix_rfl

theorem foldl_addMember_waiting (s : Store) (maxDepth : Option Int) (depth : Nat) (ms : List Member)
    (x : Expansion) : x.waiting <+: (ms.foldl (addMember s maxDepth depth) x).waiting :=
  foldl_addMember_preserves (P := fun y => x.waiting <+: y.waiting) List.prefix_rfl (fun _ _ h => h)
    fun _ _ r _ y h => h.trans (meet_waiting depth y r)

theorem step_waiting {x y : Expansion} (hy : step? s maxDepth x = some y) :
    ∃ p rest new, x.waiting = p :: rest ∧ y.waiting = rest ++ new := by
  cases hw : x.waiting with
  | nil =>
    unfold step? at hy
    rw [hw] at hy
    cases hy
  | cons p rest =>
    rw [step?_of_waiting hw] at hy
    cases hy
    obtain ⟨new, longer⟩ := foldl_addMember_waiting s maxDepth p.2 p.1.members
      { x with draft := x.draft.add (.relation p.1), waiting := rest }
    exact ⟨p, rest, new, rfl, longer.symm⟩

theorem Taken.ordered (hs : s.WellFormed) (shown : s.Shows (.relation root))
    (follow : Followed maxDepth 0) {d : Draft} (hd : s.Holds d.selection fun _ => False)
    {done : List (Relation × Nat)} {x : Expansion}
    (h : Taken s maxDepth (Expansion.start root d) done x) :
    (done ++ x.waiting).Pairwise fun a b => a.2 ≤ b.2 := by
  induction h with
  | start => exact List.pairwise_singleton _ _
  | @step done y z p rest before hw hz ih =>
    obtain ⟨depth, explored⟩ := (before.expanded hs shown follow hd).explored
    obtain ⟨after, _⟩ := step_explored hs explored hw hz
    rw [← line_taken hw done] at ih
    have front := (List.pairwise_append.mp ih).1
    have least : ∀ a ∈ done ++ [p], a.2 ≤ p.2 := by
      intro a ha
      rcases List.mem_append.mp ha with earlier | last
      · exact (List.pairwise_append.mp front).2.2 a earlier p List.mem_cons_self
      · rw [List.mem_singleton.mp last]
    refine List.pairwise_append.mpr ⟨front, after.ordered, ?_⟩
    intro a ha b hb
    exact Nat.le_trans (least a ha) (after.near b hb).1

/-- An expansion that took some relations from the line, in this order, one with each step. -/
structure Paced (s : Store) (root : Relation) (maxDepth : Option Int) (done : List (Relation × Nat))
    (x : Expansion) : Prop where
  queue : ∀ y, step? s maxDepth x = some y →
    ∃ p rest new, x.waiting = p :: rest ∧ y.waiting = rest ++ new
  once : ((done ++ x.waiting).map fun p => p.1.id).Nodup
  reached : ∀ p ∈ done ++ x.waiting, s.Reaches root p.1
  few : done.length ≤ {r | s.Reaches root r}.ncard
  ordered : (done.map fun p => p.2).Pairwise fun a b => a ≤ b
  followed : ∀ p ∈ done, ∀ most, maxDepth = some most → (p.2 : Int) < most

theorem Taken.paced (hs : s.WellFormed) (shown : s.Shows (.relation root))
    (follow : Followed maxDepth 0) {d : Draft} (hd : s.Holds d.selection fun _ => False)
    {done : List (Relation × Nat)} {x : Expansion}
    (h : Taken s maxDepth (Expansion.start root d) done x) : Paced s root maxDepth done x := by
  obtain ⟨depth, explored⟩ := (h.expanded hs shown follow hd).explored
  have once := h.putOnce.distinct
  have reached : ∀ p ∈ done ++ x.waiting, s.Reaches root p.1 :=
    fun p hp => ⟨p.2, (explored.reached p hp).1⟩
  refine ⟨fun y hy => step_waiting hy, once, reached, ?few, ?ordered, ?followed⟩
  case few =>
    have distinct : (done.map fun p => p.1).Nodup := by
      rw [List.map_append] at once
      have ids : ((done.map fun p => p.1).map Relation.id).Nodup := by
        rw [List.map_map]
        exact (List.nodup_append.mp once).1
      exact List.Nodup.of_map _ ids
    have bounded := length_le_reached hs shown distinct (List.forall_mem_map.mpr fun p hp =>
      reached p (List.mem_append_left _ hp))
    rwa [List.length_map] at bounded
  case ordered =>
    have line := h.ordered hs shown follow hd
    exact List.pairwise_map.mpr (List.pairwise_append.mp line).1
  case followed =>
    intro p hp
    exact (explored.reached p (List.mem_append_left _ hp)).2

def begun (root : Relation) (maxDepth : Option Int) : Expansion :=
  start root (Draft.empty.note (.expanding root.id maxDepth))

/-- An expansion of a shown relation is refused for its depth, or it ends. No relation is put in
line twice, and there are no more steps than relations to be reached; these are taken in the order
of their depths. -/
theorem expansion_ends (hs : Reachable s) (shown : s.Shows (.relation root)) (maxDepth : Option Int) :
    (∃ depth, maxDepth = some depth ∧ depth < 1 ∧
      s.expand root.id maxDepth = .error (.depthTooSmall depth)) ∨
    ((∀ done x, Taken s maxDepth (begun root maxDepth) done x → Paced s root maxDepth done x) ∧
      ∃ done x, Taken s maxDepth (begun root maxDepth) done x ∧ step? s maxDepth x = none ∧
        s.expand root.id maxDepth = .ok x.draft) := by
  by_cases small : ∃ depth, maxDepth = some depth ∧ depth < 1
  · obtain ⟨depth, rfl, low⟩ := small
    exact Or.inl ⟨depth, rfl, low, expand_of_small low root.id⟩
  · have deep : ∀ most, maxDepth = some most → 1 ≤ most := by
      intro most same
      by_contra low
      exact small ⟨most, same, by omega⟩
    have wf := hs.wellFormed
    have follow := followed_zero deep
    refine Or.inr ⟨fun done x taken => taken.paced wf shown follow (Holds.empty s), ?_⟩
    have unstarted : Taken s maxDepth (begun root maxDepth) [] (begun root maxDepth) := .start
    obtain ⟨ended, done, taken⟩ := run_taken unstarted
    have last : step? s maxDepth (run s maxDepth (begun root maxDepth)) = none := by
      unfold step?
      rw [ended]
    exact ⟨done, _, taken, last, expand_of_shows shown deep⟩

private def leftLoop : Relation :=
  ⟨1, .bare 1 true, none, [⟨.relation, 2, ""⟩, ⟨.relation, 1, ""⟩, ⟨.relation, 2, ""⟩]⟩

private def rightLoop : Relation := ⟨2, .bare 1 true, none, [⟨.relation, 1, ""⟩, ⟨.relation, 3, ""⟩]⟩

private def knot : Store :=
  offered [.relation leftLoop, .relation rightLoop]

theorem expansion_ends_knot : Reachable knot ∧ knot.Shows (.relation leftLoop) ∧ ∃ done x,
    Taken knot none (begun leftLoop none) done x ∧ Paced knot leftLoop none done x ∧
      step? knot none x = none ∧ knot.expand 1 none = .ok x.draft := by
  have reachable : Reachable knot := offered_reachable _
  have shown : knot.Shows (.relation leftLoop) := ⟨by decide, rfl⟩
  rcases expansion_ends reachable shown none with ⟨_, none, _⟩ | ⟨paced, done, x, taken, last, ended⟩
  · cases none
  · exact ⟨reachable, shown, done, x, taken, paced done x taken, last, ended⟩

end Expansion
end MapExtract
