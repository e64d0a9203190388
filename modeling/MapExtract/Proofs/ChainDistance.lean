import MapExtract.Proofs.SelectionContents

set_option autoImplicit false
namespace MapExtract
open Element (Kind Key)

theorem Relation.hasMember_iff (r : Relation) (k : Key) :
    r.hasMember k = true ↔ ∃ m ∈ r.members, (m.kind, m.id) = k := by
  unfold hasMember
  rw [List.any_eq_true]
  simp only [beq_iff_eq]

namespace Store

/-- A chain of memberships from a root through shown relations, with its length. -/
inductive Chain (s : Store) (root : Relation) : Nat → Relation → Prop
  | root : Chain s root 0 root
  | member {n : Nat} {p r : Relation} (h : Chain s root n p)
      (has : p.hasMember (.relation, r.id) = true) (shown : s.Shows (.relation r)) :
      Chain s root (n + 1) r

def Distance (s : Store) (root : Relation) (n : Nat) (r : Relation) : Prop :=
  s.Chain root n r ∧ ∀ m, s.Chain root m r → n ≤ m

variable {s : Store} {root : Relation}

theorem Chain.shows {n : Nat} {r : Relation} (h : s.Chain root n r)
    (shown : s.Shows (.relation root)) : s.Shows (.relation r) := by
  cases h with
  | root => exact shown
  | member _ _ shown => exact shown

theorem Chain.exists_distance {n : Nat} {r : Relation} (h : s.Chain root n r) :
    ∃ m, m ≤ n ∧ s.Distance root m r := by
  induction n using Nat.strongRecOn with
  | ind n ih =>
    by_cases shorter : ∃ m, m < n ∧ s.Chain root m r
    · obtain ⟨m, hm, hc⟩ := shorter
      obtain ⟨k, hk, hd⟩ := ih m hm hc
      exact ⟨k, by omega, hd⟩
    · refine ⟨n, Nat.le_refl n, h, ?_⟩
      intro m hc
      by_contra less
      exact shorter ⟨m, by omega, hc⟩

def Followed (maxDepth : Option Int) (n : Nat) : Prop :=
  ∀ most, maxDepth = some most → (n : Int) < most

theorem Followed.of_le {maxDepth : Option Int} {m n : Nat} (h : Followed maxDepth n) (hm : m ≤ n) :
    Followed maxDepth m := by
  intro most hd
  have := h most hd
  omega

/-- What a member brings into a selection: its element if that is shown, and the nodes of a way. -/
def Brings (s : Store) (m : Member) (e : Element) : Prop :=
  ∃ f, s.Shows f ∧ f.key = (m.kind, m.id) ∧
    (e = f ∨ ∃ w, f = .way w ∧ ∃ id ∈ w.nodes, e.key = (.node, id))

def Gathered (s : Store) (done : List (Relation × Nat)) (e : Element) : Prop :=
  ∃ p ∈ done, e = .relation p.1 ∨ ∃ m ∈ p.1.members, s.Brings m e

theorem brings_of_find {m : Member} {f : Element} (hs : s.WellFormed)
    (hf : s.find (m.kind, m.id) = .ok f) (e : Element) :
    s.Brings m e ↔ e = f ∨ ∃ w, f = .way w ∧ ∃ id ∈ w.nodes, e.key = (.node, id) := by
  obtain ⟨own, shown⟩ := (find_eq_ok hs).mp hf
  constructor
  · rintro ⟨g, held, same, brought⟩
    rw [held.unique shown (same.trans own.symm)] at brought
    exact brought
  · intro brought
    exact ⟨f, shown, own, brought⟩

theorem not_brings_of_find {m : Member} {n : Note} (hs : s.WellFormed)
    (hf : s.find (m.kind, m.id) = .error n) (e : Element) : ¬s.Brings m e := by
  rintro ⟨g, held, same, _⟩
  rw [(find_eq_ok hs).mpr ⟨same, held⟩] at hf
  cases hf

variable {maxDepth : Option Int}

/-- What lies within a depth of a root: relations at the depth too, and members of those above it. -/
def WithinDepth (s : Store) (root : Relation) (maxDepth : Option Int) : Element → Prop
  | .relation r => ∃ n, s.Distance root n r ∧ ∀ most, maxDepth = some most → (n : Int) ≤ most
  | .way w => ∃ p n, s.Distance root n p ∧ Followed maxDepth n ∧ p.hasMember (.way, w.id) = true
  | .node n => ∃ p k, s.Distance root k p ∧ Followed maxDepth k ∧
      (p.hasMember (.node, n.id) = true ∨
        ∃ w, s.Shows (.way w) ∧ p.hasMember (.way, w.id) = true ∧ n.id ∈ w.nodes)

theorem exists_brings_iff {e : Element} (shown : s.Shows e) (r : Relation) :
    (∃ m ∈ r.members, s.Brings m e) ↔ r.hasMember e.key = true ∨
      ∃ w, s.Shows (.way w) ∧ r.hasMember (.way, w.id) = true ∧ ∃ id ∈ w.nodes, e.key = (.node, id) := by
  simp only [Relation.hasMember_iff]
  constructor
  · rintro ⟨m, hm, f, held, own, rfl | ⟨w, rfl, part⟩⟩
    · exact Or.inl ⟨m, hm, own.symm⟩
    · exact Or.inr ⟨w, held, ⟨m, hm, own.symm⟩, part⟩
  · rintro (⟨m, hm, own⟩ | ⟨w, held, ⟨m, hm, own⟩, part⟩)
    · exact ⟨m, hm, e, shown, own.symm, Or.inl rfl⟩
    · exact ⟨m, hm, .way w, held, own.symm, Or.inr ⟨w, rfl, part⟩⟩

theorem distance_le_iff (follow : Followed maxDepth 0) {r : Relation} (shown : s.Shows (.relation r)) :
    (∃ n, s.Distance root n r ∧ ∀ most, maxDepth = some most → (n : Int) ≤ most) ↔
      ∃ p n, s.Distance root n p ∧ Followed maxDepth n ∧
        (r = p ∨ p.hasMember (.relation, r.id) = true) := by
  constructor
  · rintro ⟨n, ⟨chain, least⟩, le⟩
    cases chain with
    | root => exact ⟨root, 0, ⟨.root, fun _ _ => Nat.zero_le _⟩, follow, Or.inl rfl⟩
    | @member n p _ chain has _ =>
      have followed : Followed maxDepth n := by
        intro most hd
        have := le most hd
        omega
      obtain ⟨m, hm, distance⟩ := chain.exists_distance
      exact ⟨p, m, distance, followed.of_le hm, Or.inr has⟩
  · rintro ⟨p, n, distance, followed, rfl | has⟩
    · exact ⟨n, distance, fun most hd => Int.le_of_lt (followed most hd)⟩
    · obtain ⟨m, hm, nearest⟩ := (distance.1.member has shown).exists_distance
      refine ⟨m, nearest, ?_⟩
      intro most hd
      have := followed most hd
      omega

theorem withinDepth_iff (follow : Followed maxDepth 0) {e : Element} (shown : s.Shows e) :
    s.WithinDepth root maxDepth e ↔ ∃ p n, s.Distance root n p ∧ Followed maxDepth n ∧
      (e = .relation p ∨ ∃ m ∈ p.members, s.Brings m e) := by
  simp only [exists_brings_iff shown]
  cases e with
  | node n => simp [WithinDepth, Element.key, Element.kind, Element.id]
  | way w => simp [WithinDepth, Element.key, Element.kind, Element.id]
  | relation r =>
    rw [WithinDepth, distance_le_iff follow shown]
    simp [Element.key, Element.kind, Element.id]

theorem gathered_iff (follow : Followed maxDepth 0) {done : List (Relation × Nat)}
    (mem_done : ∀ r, (∃ k, (r, k) ∈ done) ↔ ∃ n, s.Distance root n r ∧ Followed maxDepth n)
    {e : Element} (shown : s.Shows e) : s.Gathered done e ↔ s.WithinDepth root maxDepth e := by
  rw [withinDepth_iff follow shown]
  constructor
  · rintro ⟨⟨p, k⟩, hp, brought⟩
    obtain ⟨n, distance, followed⟩ := (mem_done p).mp ⟨k, hp⟩
    exact ⟨p, n, distance, followed, brought⟩
  · rintro ⟨p, n, distance, followed, brought⟩
    obtain ⟨k, hk⟩ := (mem_done p).mpr ⟨n, distance, followed⟩
    exact ⟨(p, k), hk, brought⟩

end Store
end MapExtract
