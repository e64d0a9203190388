import MapExtract.Proofs.ChainDistance

/-!
The relations in line stand in the order of their depths, which differ by one at most, so a relation
is first met at its distance from the root. One that lies too deep there is too deep by any other
way, and may be crossed off.
-/

set_option autoImplicit false
namespace MapExtract
open Element (Kind Key)

namespace Expansion
open Store

variable {s : Store} {root : Relation} {maxDepth : Option Int} {P : Element → Prop}

theorem deeper_iff (depth : Nat) : deeper maxDepth depth = true ↔ Followed maxDepth (depth + 1) := by
  cases maxDepth with
  | none => exact iff_of_true rfl fun most none => by cases none
  | some most =>
    simp only [deeper, decide_eq_true_eq, Followed, Option.some.injEq]
    constructor
    · rintro h _ rfl
      omega
    · intro h
      have := h most rfl
      omega

theorem meet_draft (depth : Nat) (x : Expansion) (r : Relation) :
    (x.meet maxDepth depth r).draft = x.draft := by
  unfold meet
  split
  · rfl
  · split <;> rfl

theorem addMember_holds (hs : s.WellFormed) {x : Expansion} (h : s.Holds x.draft.selection P)
    (depth : Nat) (m : Member) :
    s.Holds (addMember s maxDepth depth x m).draft.selection fun e => P e ∨ s.Brings m e := by
  unfold addMember
  cases hf : s.find (m.kind, m.id) with
  | error n => exact h.congr fun e _ => by rw [iff_false_intro (not_brings_of_find hs hf e), or_false]
  | ok f =>
    have shown := ((find_eq_ok hs).mp hf).2
    have added := h.add shown
    simp only [brings_of_find hs hf]
    cases f with
    | node n => exact added.congr fun e _ => by simp
    | way w =>
      refine (added.addNodesOf hs w).congr fun e _ => ?_
      simp only [or_assoc, Element.way.injEq, exists_eq_left']
    | relation r =>
      simp only [meet_draft]
      exact added.congr fun e _ => by simp

theorem foldl_addMember_holds (hs : s.WellFormed) (depth : Nat) (ms : List Member) {x : Expansion}
    (h : s.Holds x.draft.selection P) :
    s.Holds (ms.foldl (addMember s maxDepth depth) x).draft.selection
      fun e => P e ∨ ∃ m ∈ ms, s.Brings m e := by
  induction ms generalizing x P with
  | nil => exact h.congr fun e _ => by simp
  | cons m ms ih =>
    refine (ih (addMember_holds hs h depth m)).congr fun e _ => ?_
    rw [or_assoc]
    simp only [List.exists_mem_cons_iff]

/-- A relation has been met at a depth or before, and was put in line unless that was too deep. -/
def Met (maxDepth : Option Int) (line : List (Relation × Nat)) (depth : Nat) (r : Relation) : Prop :=
  ∃ k, k ≤ depth ∧ (Followed maxDepth k → (r, k) ∈ line)

theorem Met.mono {line line' : List (Relation × Nat)} {depth depth' : Nat} {r : Relation}
    (h : Met maxDepth line depth r) (longer : line ⊆ line') (hd : depth ≤ depth') :
    Met maxDepth line' depth' r := by
  obtain ⟨k, hk, waits⟩ := h
  exact ⟨k, Nat.le_trans hk hd, fun followed => longer (waits followed)⟩

structure Explored (s : Store) (root : Relation) (maxDepth : Option Int) (depth : Nat)
    (done : List (Relation × Nat)) (x : Expansion) : Prop where
  rooted : (root, 0) ∈ done ++ x.waiting
  reached : ∀ p ∈ done ++ x.waiting, s.Chain root p.2 p.1 ∧ Followed maxDepth p.2
  ordered : x.waiting.Pairwise fun a b => a.2 ≤ b.2
  near : ∀ p ∈ x.waiting, depth ≤ p.2 ∧ p.2 ≤ depth + 1
  seen : ∀ r, s.Shows (.relation r) → r.id ∈ x.seen →
    Met maxDepth (done ++ x.waiting) (depth + 1) r

def Grows (x y : Expansion) : Prop := x.waiting ⊆ y.waiting ∧ x.seen ⊆ y.seen

theorem Grows.refl (x : Expansion) : Grows x x := ⟨List.Subset.refl _, List.Subset.refl _⟩

theorem Grows.trans {x y z : Expansion} (h : Grows x y) (h' : Grows y z) : Grows x z :=
  ⟨List.Subset.trans h.1 h'.1, List.Subset.trans h.2 h'.2⟩

theorem meet_grows (depth : Nat) (x : Expansion) (r : Relation) :
    Grows x (x.meet maxDepth depth r) := by
  unfold meet
  split
  · exact Grows.refl x
  · split
    · exact ⟨List.subset_append_left _ _, List.subset_cons_self _ _⟩
    · exact ⟨List.Subset.refl _, List.subset_cons_self _ _⟩

theorem mem_seen_meet (depth : Nat) (x : Expansion) (r : Relation) :
    r.id ∈ (x.meet maxDepth depth r).seen := by
  unfold meet
  split
  · assumption
  · split <;> exact List.mem_cons_self

theorem meet_explored {depth : Nat} {done : List (Relation × Nat)} {x : Expansion}
    (h : Explored s root maxDepth depth done x) {r : Relation} (shown : s.Shows (.relation r))
    (chain : s.Chain root (depth + 1) r) :
    Explored s root maxDepth depth done (x.meet maxDepth depth r) := by
  have same {q : Relation} (held : s.Shows (.relation q)) (hid : q.id = r.id) : q = r :=
    Element.relation.inj (held.unique shown (Prod.ext rfl hid))
  unfold meet
  split
  · exact h
  · split
    · rename_i follow
      -- The new pair goes to the end and is one deeper, so the depths stay in order.
      have line : done ++ (x.waiting ++ [(r, depth + 1)]) = done ++ x.waiting ++ [(r, depth + 1)] :=
        (List.append_assoc _ _ _).symm
      refine ⟨?_, ?_, ?_, ?_, ?_⟩
      · exact line ▸ List.mem_append_left _ h.rooted
      · intro p hp
        rw [line] at hp
        rcases List.mem_append.mp hp with hp | hp
        · exact h.reached p hp
        · obtain rfl := List.mem_singleton.mp hp
          exact ⟨chain, (deeper_iff depth).mp follow⟩
      · refine List.pairwise_append.mpr ⟨h.ordered, List.pairwise_singleton _ _, ?_⟩
        intro a ha b hb
        obtain rfl := List.mem_singleton.mp hb
        exact (h.near a ha).2
      · intro p hp
        rcases List.mem_append.mp hp with hp | hp
        · exact h.near p hp
        · obtain rfl := List.mem_singleton.mp hp
          exact ⟨Nat.le_succ depth, Nat.le_refl _⟩
      · intro q held hq
        rw [line]
        rcases List.mem_cons.mp hq with hid | hq
        · rw [same held hid]
          exact ⟨depth + 1, Nat.le_refl _, fun _ => List.mem_append_right _ List.mem_cons_self⟩
        · exact (h.seen q held hq).mono (List.subset_append_left _ _) (Nat.le_refl _)
    · rename_i deep
      refine ⟨h.rooted, h.reached, h.ordered, h.near, ?_⟩
      intro q held hq
      rcases List.mem_cons.mp hq with hid | hq
      · refine ⟨depth + 1, Nat.le_refl _, fun followed => ?_⟩
        exact absurd ((deeper_iff depth).mpr followed) deep
      · exact h.seen q held hq

theorem foldl_addMember_grows (s : Store) (maxDepth : Option Int) (depth : Nat) (ms : List Member)
    (x : Expansion) : Grows x (ms.foldl (addMember s maxDepth depth) x) :=
  foldl_addMember_preserves (P := Grows x) (Grows.refl x) (fun _ _ h => h)
    fun _ _ r _ y h => h.trans (meet_grows depth y r)

theorem mem_seen_addMember (hs : s.WellFormed) (depth : Nat) (x : Expansion) {m : Member}
    {r : Relation} (shown : s.Shows (.relation r)) (own : (m.kind, m.id) = (Kind.relation, r.id)) :
    r.id ∈ (addMember s maxDepth depth x m).seen := by
  have found : s.find (m.kind, m.id) = .ok (.relation r) := (find_eq_ok hs).mpr ⟨own.symm, shown⟩
  simp only [addMember, found]
  exact mem_seen_meet depth _ r

theorem mem_seen_foldl_addMember (hs : s.WellFormed) (depth : Nat) {ms : List Member} (x : Expansion)
    {m : Member} (hm : m ∈ ms) {r : Relation} (shown : s.Shows (.relation r))
    (own : (m.kind, m.id) = (Kind.relation, r.id)) :
    r.id ∈ (ms.foldl (addMember s maxDepth depth) x).seen := by
  obtain ⟨front, back, rfl⟩ := List.append_of_mem hm
  rw [List.foldl_append, List.foldl_cons]
  exact (foldl_addMember_grows s maxDepth depth back _).2 (mem_seen_addMember hs depth _ shown own)

theorem foldl_addMember_explored (hs : s.WellFormed) {depth : Nat} {done : List (Relation × Nat)}
    {ms : List Member} {x : Expansion} (h : Explored s root maxDepth depth done x)
    (chain : ∀ m ∈ ms, ∀ r, s.Shows (.relation r) → (m.kind, m.id) = (Kind.relation, r.id) →
      s.Chain root (depth + 1) r) :
    Explored s root maxDepth depth done (ms.foldl (addMember s maxDepth depth) x) := by
  refine foldl_addMember_preserves h (fun y d hy => ?_) ?_
  · exact ⟨hy.rooted, hy.reached, hy.ordered, hy.near, hy.seen⟩
  · intro m hm r found y hy
    obtain ⟨own, shown⟩ := (find_eq_ok hs).mp found
    exact meet_explored hy shown (chain m hm r shown own.symm)

def Closed (s : Store) (maxDepth : Option Int) (done line : List (Relation × Nat)) : Prop :=
  ∀ p ∈ done, ∀ r, s.Shows (.relation r) → p.1.hasMember (.relation, r.id) = true →
    Met maxDepth line (p.2 + 1) r

inductive Taken (s : Store) (maxDepth : Option Int) (x : Expansion) :
    List (Relation × Nat) → Expansion → Prop
  | start : Taken s maxDepth x [] x
  | step {done : List (Relation × Nat)} {y z : Expansion} {p : Relation × Nat}
      {rest : List (Relation × Nat)} (h : Taken s maxDepth x done y) (hw : y.waiting = p :: rest)
      (hz : step? s maxDepth y = some z) : Taken s maxDepth x (done ++ [p]) z

theorem step?_of_waiting {x : Expansion} {p : Relation × Nat} {rest : List (Relation × Nat)}
    (hw : x.waiting = p :: rest) : step? s maxDepth x = some
      (p.1.members.foldl (addMember s maxDepth p.2)
        { x with draft := x.draft.add (.relation p.1), waiting := rest }) := by
  unfold step?
  rw [hw]

theorem waiting_of_step?_eq_none {x : Expansion} (h : step? s maxDepth x = none) :
    x.waiting = [] := by
  cases hw : x.waiting with
  | nil => rfl
  | cons p rest =>
    rw [step?_of_waiting hw] at h
    cases h

theorem run_of_step?_eq_none {x : Expansion} (h : step? s maxDepth x = none) :
    run s maxDepth x = x := by
  rw [run]
  split
  · rfl
  · simp_all

theorem run_of_step?_eq_some {x y : Expansion} (h : step? s maxDepth x = some y) :
    run s maxDepth x = run s maxDepth y := by
  rw [run]
  split
  · simp_all
  · simp_all

theorem run_taken {x y : Expansion} {done : List (Relation × Nat)} (h : Taken s maxDepth x done y) :
    (run s maxDepth y).waiting = [] ∧ ∃ all, Taken s maxDepth x all (run s maxDepth y) := by
  -- The recursion of `run` ends by itself, since every step leaves fewer steps.
  induction y using run.induct s maxDepth generalizing done with
  | case1 y last =>
    rw [run_of_step?_eq_none last]
    exact ⟨waiting_of_step?_eq_none last, done, h⟩
  | case2 y z next ih =>
    rw [run_of_step?_eq_some next]
    cases hw : y.waiting with
    | nil =>
      simp only [step?, hw] at next
      cases next
    | cons p rest => exact ih (h.step hw next)

structure Expanded (s : Store) (root : Relation) (maxDepth : Option Int)
    (done : List (Relation × Nat)) (x : Expansion) : Prop where
  explored : ∃ depth, Explored s root maxDepth depth done x
  closed : Closed s maxDepth done (done ++ x.waiting)
  holds : s.Holds x.draft.selection (s.Gathered done)

theorem start_expanded (shown : s.Shows (.relation root)) (follow : Followed maxDepth 0) {d : Draft}
    (hd : s.Holds d.selection fun _ => False) : Expanded s root maxDepth [] (start root d) := by
  refine ⟨⟨0, List.mem_cons_self, ?_, List.pairwise_singleton _ _, ?_, ?_⟩, ?_, ?_⟩
  · intro p hp
    obtain rfl := List.mem_singleton.mp hp
    exact ⟨.root, follow⟩
  · intro p hp
    obtain rfl := List.mem_singleton.mp hp
    exact ⟨Nat.le_refl _, Nat.zero_le _⟩
  · intro r held hr
    have same : Element.relation r = .relation root :=
      held.unique shown (Prod.ext rfl (List.mem_singleton.mp hr))
    cases same
    exact ⟨0, Nat.zero_le _, fun _ => List.mem_cons_self⟩
  · intro p hp
    cases hp
  · exact hd.congr fun e _ => ⟨False.elim, fun ⟨p, hp, _⟩ => by cases hp⟩

theorem line_taken {x : Expansion} {p : Relation × Nat} {rest : List (Relation × Nat)}
    (hw : x.waiting = p :: rest) (done : List (Relation × Nat)) :
    done ++ [p] ++ rest = done ++ x.waiting := by
  rw [hw, List.append_assoc]
  rfl

theorem Explored.take {depth : Nat} {done : List (Relation × Nat)} {x : Expansion}
    (h : Explored s root maxDepth depth done x) {p : Relation × Nat} {rest : List (Relation × Nat)}
    (hw : x.waiting = p :: rest) (d : Draft) :
    Explored s root maxDepth p.2 (done ++ [p]) { x with draft := d, waiting := rest } := by
  -- What was taken and what waits stay one list, so only the depths have to be looked at.
  have line := line_taken hw done
  have ordered := h.ordered
  rw [hw] at ordered
  obtain ⟨least, tail⟩ := List.pairwise_cons.mp ordered
  obtain ⟨after, _⟩ := h.near p (hw ▸ List.mem_cons_self)
  refine ⟨?_, ?_, tail, ?_, ?_⟩
  · exact line ▸ h.rooted
  · exact line ▸ h.reached
  · intro q hq
    obtain ⟨_, close⟩ := h.near q (hw ▸ List.mem_cons_of_mem _ hq)
    exact ⟨least q hq, by omega⟩
  · intro r shown hr
    exact (h.seen r shown hr).mono (line ▸ List.Subset.refl _) (by omega)

theorem mem_line_of_waiting {x : Expansion} {p : Relation × Nat} {rest : List (Relation × Nat)}
    (hw : x.waiting = p :: rest) (done : List (Relation × Nat)) : p ∈ done ++ x.waiting := by
  rw [hw]
  exact List.mem_append_right _ List.mem_cons_self

theorem step_explored (hs : s.WellFormed) {depth : Nat} {done : List (Relation × Nat)}
    {x y : Expansion} (h : Explored s root maxDepth depth done x) {p : Relation × Nat}
    {rest : List (Relation × Nat)} (hw : x.waiting = p :: rest) (hy : step? s maxDepth x = some y) :
    Explored s root maxDepth p.2 (done ++ [p]) y ∧ rest ⊆ y.waiting ∧
      ∀ m ∈ p.1.members, ∀ r, s.Shows (.relation r) → (m.kind, m.id) = (Kind.relation, r.id) →
        r.id ∈ y.seen := by
  rw [step?_of_waiting hw] at hy
  cases hy
  have chain := (h.reached p (mem_line_of_waiting hw done)).1
  have further : ∀ m ∈ p.1.members, ∀ r, s.Shows (.relation r) →
      (m.kind, m.id) = (Kind.relation, r.id) → s.Chain root (p.2 + 1) r := by
    intro m hm r held own
    exact chain.member ((p.1.hasMember_iff _).mpr ⟨m, hm, own⟩) held
  have taken := h.take hw (x.draft.add (.relation p.1))
  refine ⟨foldl_addMember_explored hs taken further, ?_, ?_⟩
  · exact (foldl_addMember_grows s maxDepth p.2 p.1.members
      { x with draft := x.draft.add (.relation p.1), waiting := rest }).1
  · intro m hm r held own
    exact mem_seen_foldl_addMember hs p.2 _ hm held own

theorem step_expanded (hs : s.WellFormed) {done : List (Relation × Nat)} {x y : Expansion}
    (h : Expanded s root maxDepth done x) (shown : s.Shows (.relation root)) {p : Relation × Nat}
    {rest : List (Relation × Nat)} (hw : x.waiting = p :: rest) (hy : step? s maxDepth x = some y) :
    Expanded s root maxDepth (done ++ [p]) y := by
  obtain ⟨depth, explored⟩ := h.explored
  obtain ⟨after, longer, met⟩ := step_explored hs explored hw hy
  refine ⟨⟨p.2, after⟩, ?_, ?_⟩
  · intro q hq r held has
    rcases List.mem_append.mp hq with hq | hq
    · refine (h.closed q hq r held has).mono ?_ (Nat.le_refl _)
      rw [← line_taken hw done]
      intro a ha
      rcases List.mem_append.mp ha with before | waits
      · exact List.mem_append_left _ before
      · exact List.mem_append_right _ (longer waits)
    · obtain rfl := List.mem_singleton.mp hq
      obtain ⟨m, hm, own⟩ := (q.1.hasMember_iff _).mp has
      exact after.seen r held (met m hm r held own)
  · rw [step?_of_waiting hw] at hy
    cases hy
    have held := (explored.reached p (mem_line_of_waiting hw done)).1.shows shown
    have added : s.Holds (x.draft.add (.relation p.1)).selection _ := h.holds.add held
    refine (foldl_addMember_holds hs p.2 p.1.members (x := ⟨_, x.seen, rest⟩) added).congr fun e _ => ?_
    simp only [Gathered, List.mem_append, List.mem_singleton, or_and_right, exists_or,
      exists_eq_left, or_assoc]

theorem Taken.expanded (hs : s.WellFormed) (shown : s.Shows (.relation root))
    (follow : Followed maxDepth 0) {d : Draft} (hd : s.Holds d.selection fun _ => False)
    {done : List (Relation × Nat)} {x : Expansion}
    (h : Taken s maxDepth (Expansion.start root d) done x) : Expanded s root maxDepth done x := by
  induction h with
  | start => exact start_expanded shown follow hd
  | step _ hw hz ih => exact step_expanded hs ih shown hw hz

/-- What has been taken when no relation waits lies at its distance from the root. -/
theorem Expanded.mem_done_iff {done : List (Relation × Nat)} {x : Expansion}
    (h : Expanded s root maxDepth done x) (ended : x.waiting = []) (r : Relation) :
    (∃ k, (r, k) ∈ done) ↔ ∃ n, s.Distance root n r ∧ Followed maxDepth n := by
  obtain ⟨depth, explored⟩ := h.explored
  have line : done ++ x.waiting = done := by rw [ended, List.append_nil]
  have rooted := explored.rooted
  have closed := h.closed
  rw [line] at rooted closed
  -- Along a chain every relation was taken no deeper than it stands there.
  have complete {n : Nat} {r : Relation} (chain : s.Chain root n r) (followed : Followed maxDepth n) :
      ∃ k, k ≤ n ∧ (r, k) ∈ done := by
    induction chain with
    | root => exact ⟨0, Nat.le_refl _, rooted⟩
    | @member n p r _ has shown ih =>
      obtain ⟨k, hk, hp⟩ := ih (followed.of_le (Nat.le_succ n))
      obtain ⟨k', hk', waits⟩ := closed (p, k) hp r shown has
      have near : k' ≤ n + 1 := Nat.le_trans hk' (Nat.succ_le_succ hk)
      exact ⟨k', near, waits (followed.of_le near)⟩
  constructor
  · rintro ⟨k, hk⟩
    obtain ⟨chain, followed⟩ := explored.reached (r, k) (List.mem_append_left _ hk)
    obtain ⟨n, hn, distance⟩ := chain.exists_distance
    exact ⟨n, distance, followed.of_le hn⟩
  · rintro ⟨n, distance, followed⟩
    obtain ⟨k, _, hk⟩ := complete distance.1 followed
    exact ⟨k, hk⟩

end Expansion
end MapExtract
