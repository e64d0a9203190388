import Mathlib.Data.List.Perm.Subperm
import MapExtract.Proofs.ExpansionDistance

set_option autoImplicit false
namespace MapExtract.Store
open Element (Kind Key)

variable {s : Store} {root : Relation}

theorem Distance.eq {m n : Nat} {r : Relation} (hm : s.Distance root m r) (hn : s.Distance root n r) :
    m = n :=
  Nat.le_antisymm (hm.2 n hn.1) (hn.2 m hm.1)

theorem Distance.exists_nearer {n : Nat} {r : Relation} (h : s.Distance root (n + 1) r) :
    ∃ p, s.Distance root n p := by
  cases h.1 with
  | @member _ p _ chain has shown =>
    refine ⟨p, chain, ?_⟩
    intro m shorter
    have further := h.2 (m + 1) (shorter.member has shown)
    omega

/-- One relation at each distance up to that of a relation. -/
theorem Distance.exists_way {n : Nat} {r : Relation} (h : s.Distance root n r) :
    ∃ rs : List Relation, rs.length = n + 1 ∧ rs.Nodup ∧ ∀ q ∈ rs, ∃ m, m ≤ n ∧ s.Distance root m q := by
  induction n generalizing r with
  | zero =>
    refine ⟨[r], rfl, List.nodup_singleton r, ?_⟩
    intro q hq
    rw [List.mem_singleton.mp hq]
    exact ⟨0, Nat.le_refl 0, h⟩
  | succ n ih =>
    obtain ⟨p, nearer⟩ := h.exists_nearer
    obtain ⟨rs, length, distinct, distances⟩ := ih nearer
    have new : r ∉ rs := by
      intro old
      obtain ⟨m, hm, distance⟩ := distances r old
      have := distance.eq h
      omega
    refine ⟨r :: rs, ?_, List.nodup_cons.mpr ⟨new, distinct⟩, ?_⟩
    · rw [List.length_cons, length]
    · intro q hq
      rcases List.mem_cons.mp hq with same | old
      · rw [same]
        exact ⟨n + 1, Nat.le_refl _, h⟩
      · obtain ⟨m, hm, distance⟩ := distances q old
        exact ⟨m, Nat.le_succ_of_le hm, distance⟩

theorem Distance.lt_length (hs : s.WellFormed) (shown : s.Shows (.relation root)) {n : Nat}
    {r : Relation} (h : s.Distance root n r) : n < s.visibleRelations.length := by
  obtain ⟨rs, length, distinct, distances⟩ := h.exists_way
  -- The relations on the way differ, and there are one more of them than the distance.
  have all : rs ⊆ s.visibleRelations := by
    intro q hq
    obtain ⟨m, _, distance⟩ := distances q hq
    exact (mem_visibleRelations hs q).mpr (distance.1.shows shown)
  have := (List.subperm_of_subset distinct all).length_le
  omega

theorem WithinDepth.of_followed {a b : Option Int} (follow : Followed a 0)
    (more : ∀ n r, s.Distance root n r → Followed a n → Followed b n) {e : Element}
    (shown : s.Shows e) (h : s.WithinDepth root a e) : s.WithinDepth root b e := by
  have follow' : Followed b 0 := more 0 root ⟨.root, fun m _ => Nat.zero_le m⟩ follow
  obtain ⟨p, n, distance, followed, brought⟩ := (withinDepth_iff follow shown).mp h
  exact (withinDepth_iff follow' shown).mpr ⟨p, n, distance, more n p distance followed, brought⟩

theorem expand_mono (hs : s.WellFormed) (shown : s.Shows (.relation root)) {d e : Int} (hd : 1 ≤ d)
    (he : d ≤ e) : ∃ near far, s.expand root.id (some d) = .ok near ∧
      s.expand root.id (some e) = .ok far ∧ ∀ x ∈ near.selection.toList, x ∈ far.selection.toList := by
  obtain ⟨near, nearDone, nearHolds⟩ := expand_holds hs shown (bounded_some hd)
  obtain ⟨far, farDone, farHolds⟩ := expand_holds hs shown (bounded_some (Int.le_trans hd he))
  refine ⟨near, far, nearDone, farDone, ?_⟩
  intro x hx
  obtain ⟨held, within⟩ := (nearHolds.mem_toList x).mp hx
  refine (farHolds.mem_toList x).mpr ⟨held, ?_⟩
  apply within.of_followed (followed_zero (bounded_some hd)) _ held
  intro n r _ followed most same
  cases same
  have := followed d rfl
  omega

theorem expand_saturated (hs : s.WellFormed) (shown : s.Shows (.relation root)) {k : Int}
    (hk : (s.visibleRelations.length : Int) ≤ k) : ∃ far all, s.expand root.id (some k) = .ok far ∧
      s.expand root.id none = .ok all ∧ far.selection = all.selection := by
  have present : 0 < s.visibleRelations.length :=
    List.length_pos_of_mem ((mem_visibleRelations hs root).mpr shown)
  have deep := bounded_some (show 1 ≤ k by omega)
  obtain ⟨far, farDone, farHolds⟩ := expand_holds hs shown deep
  obtain ⟨all, allDone, allHolds⟩ := expand_holds hs shown bounded_none
  refine ⟨far, all, farDone, allDone, farHolds.unique (allHolds.congr fun e held => ⟨?_, ?_⟩)⟩
  · intro within
    apply within.of_followed (followed_zero bounded_none) _ held
    intro n r distance _ most same
    cases same
    have := distance.lt_length hs shown
    omega
  · intro within
    apply within.of_followed (followed_zero deep) _ held
    intro n r _ _ most same
    cases same

/-- What an expansion selects to a depth it selects to every greater one; from the number of shown
relations on, the depth makes no difference. -/
theorem deeper_selects_more (hs : Reachable s) (shown : s.Shows (.relation root)) :
    (∀ d e : Int, 1 ≤ d → d ≤ e → ∃ near far, s.expand root.id (some d) = .ok near ∧
      s.expand root.id (some e) = .ok far ∧
        ∀ x ∈ near.selection.toList, x ∈ far.selection.toList) ∧
    ∀ k : Int, (s.visibleRelations.length : Int) ≤ k → ∃ far all,
      s.expand root.id (some k) = .ok far ∧ s.expand root.id none = .ok all ∧
        far.selection = all.selection :=
  ⟨fun _ _ hd he => expand_mono hs.wellFormed shown hd he,
    fun _ hk => expand_saturated hs.wellFormed shown hk⟩

private def upperRoute : Relation := ⟨1, .bare 1 true, none, [⟨.relation, 2, ""⟩, ⟨.relation, 3, ""⟩]⟩

private def lowerRoute : Relation := ⟨2, .bare 1 true, none, [⟨.relation, 1, ""⟩, ⟨.way, 1, ""⟩]⟩

private def routes : Store :=
  offered [.relation upperRoute, .relation lowerRoute, .relation ⟨3, .bare 1 false, none, []⟩,
    .way ⟨1, .bare 1 true, none, []⟩]

theorem deeper_selects_more_routes : Reachable routes ∧ routes.Shows (.relation upperRoute) ∧
    (∃ near far, routes.expand 1 (some 1) = .ok near ∧ routes.expand 1 (some 2) = .ok far ∧
      ∀ x ∈ near.selection.toList, x ∈ far.selection.toList) ∧
    ∃ far all, routes.expand 1 (some 2) = .ok far ∧ routes.expand 1 none = .ok all ∧
      far.selection = all.selection := by
  have reachable : Reachable routes := offered_reachable _
  have shown : routes.Shows (.relation upperRoute) := ⟨by decide, rfl⟩
  have more := deeper_selects_more reachable shown
  exact ⟨reachable, shown, more.1 1 2 (by decide) (by decide), more.2 2 (by decide)⟩

end MapExtract.Store
