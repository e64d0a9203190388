import MapExtract.Proofs.FixtureContents
import MapExtract.Proofs.Loading

set_option autoImplicit false
namespace MapExtract.Fixture
open Element (Kind)

structure Run where
  limits : Limits
  sizes : Kind → Sizes
  elements : List Element

def writeRuns (runs : List Run) : Except Error Directories :=
  runs.foldlM (fun d r => (writeRun r.limits r.sizes r.elements).map d.add) .missing

def elementsOf (runs : List Run) : List Element := runs.flatMap Run.elements

/-- What reading the directories can give: all nodes, all ways and all relations, where the rows of
each directory stand in any order that is ascending. -/
def Directories.Lists (d : Directories) (listed : List Element) : Prop :=
  ∃ parts : ByKind (List Element), listed = parts.nodes ++ parts.ways ++ parts.relations ∧
    ∀ k, Ascending (parts.get k) ∧
      ∃ rows : List Row, rows.Perm (d.rows k) ∧ rows.mapM (Row.readElement k) = .ok (parts.get k)

def SameVersion (a b : Element) : Prop := a.key = b.key ∧ a.version = b.version

instance (a b : Element) : Decidable (SameVersion a b) := inferInstanceAs (Decidable (_ ∧ _))

/-- No version stands twice among the elements, and every node has a place. -/
structure Loadable (es : List Element) : Prop where
  distinct : es.Pairwise fun a b => ¬SameVersion a b
  placed : ∀ e ∈ es, e.HasPlace

structure LoadsAs (es listed : List Element) : Prop where
  succeeds : (∃ summary, (Store.empty.load listed).2 = .ok summary) ↔ Loadable es
  histories : Loadable es → ∀ k,
    ((Store.empty.load listed).1.history k).Pairwise (fun a b => a.version < b.version) ∧
      ∀ placed, placed ∈ (Store.empty.load listed).1.history k ↔
        ∃ e ∈ es, e.key = k ∧ e.located = .ok placed
  determined : Loadable es → ∀ runs d listed', Loadable (elementsOf runs) →
    (∀ e, e ∈ elementsOf runs ↔ e ∈ es) → writeRuns runs = .ok d → d.Lists listed' →
      Store.empty.load listed' = Store.empty.load listed

def Loads (runs : List Run) (es : List Element) : Prop :=
  ∃ d, writeRuns runs = .ok d ∧ (∃ listed, d.read = .ok listed ∧ d.Lists listed) ∧
    ∀ listed, d.Lists listed → LoadsAs es listed

theorem rows_writeRuns {runs : List Run} {d : Directories} (h : writeRuns runs = .ok d) (k : Kind) :
    d.rows k = rowsOf k (elementsOf runs) := by
  have step : ∀ (d d' : Directories) (r : Run),
      (writeRun r.limits r.sizes r.elements).map d.add = .ok d' →
        d'.rows k = d.rows k ++ rowsOf k r.elements := by
    intro d d' r h
    cases hw : writeRun r.limits r.sizes r.elements with
    | error cause =>
      rw [hw] at h
      cases h
    | ok files =>
      rw [hw] at h
      cases h
      rw [Directories.rows_add, contents_writeRun hw]
  rw [foldlM_collects step h, Directories.rows_missing, List.nil_append, elementsOf, rowsOf_flatMap]

theorem writeRuns_isOk {runs : List Run} (sound : ∀ r ∈ runs, r.limits.Sound)
    (fits : ∀ e ∈ elementsOf runs, e.Fits) : ∃ d, writeRuns runs = .ok d := by
  refine foldlM_isOk (fun r hr d => ?_) _
  obtain ⟨files, hw⟩ := writeRun_isOk (sound r hr) r.sizes fun e he =>
    fits e (List.mem_flatMap.mpr ⟨r, hr, he⟩)
  exact ⟨d.add files, by rw [hw]; rfl⟩

theorem Directories.exists_listed {d : Directories} {parts : Kind → List Element}
    (h : ∀ k, (d.rows k).mapM (Row.readElement k) = .ok (parts k)) :
    ∃ listed, d.read = .ok listed ∧ d.Lists listed := by
  let sorted := fun k => (parts k).mergeSort readsBefore
  refine ⟨_, read_eq_ok h, ⟨sorted .node, sorted .way, sorted .relation⟩, rfl, fun k => ?_⟩
  have part : ByKind.get ⟨sorted .node, sorted .way, sorted .relation⟩ k = sorted k := by
    cases k <;> rfl
  rw [part]
  exact ⟨(mergeSort_stablySorted (parts k)).ascending,
    exists_perm_mapM_eq_ok (h k) (mergeSort_stablySorted (parts k)).perm⟩

theorem SameVersion.symm {a b : Element} (h : SameVersion a b) : SameVersion b a :=
  ⟨h.1.symm, h.2.symm⟩

def Listing (es listed : List Element) : Prop :=
  ∃ parts : ByKind (List Element), listed = parts.nodes ++ parts.ways ++ parts.relations ∧
    ∀ k, Ascending (parts.get k) ∧ (parts.get k).Perm (es.filter fun e => e.kind = k)

theorem Directories.Lists.listing {d : Directories} {es listed : List Element} (h : d.Lists listed)
    (rows : ∀ k, d.rows k = rowsOf k es) : Listing es listed := by
  obtain ⟨parts, rfl, each⟩ := h
  refine ⟨parts, rfl, fun k => ?_⟩
  obtain ⟨ascending, read, perm, he⟩ := each k
  rw [rows k] at perm
  exact ⟨ascending, perm_of_mapM_eq_ok he (mapM_rowsOf k es) perm⟩

theorem perm_byKind (es : List Element) : ((es.filter fun e => e.kind = .node) ++
    (es.filter fun e => e.kind = .way) ++ es.filter fun e => e.kind = .relation).Perm es := by
  induction es with
  | nil => exact .nil
  | cons e es ih =>
    cases hk : e.kind with
    | node => simpa [List.filter_cons, hk] using ih
    | way =>
      simp only [List.filter_cons, hk, reduceCtorEq, decide_false, decide_true, if_true,
        Bool.false_eq_true, if_false]
      rw [List.append_assoc] at ih ⊢
      exact List.perm_middle.trans (ih.cons e)
    | relation =>
      simp only [List.filter_cons, hk, reduceCtorEq, decide_false, decide_true, if_true,
        Bool.false_eq_true, if_false]
      exact List.perm_middle.trans (ih.cons e)

namespace Listing

variable {es listed : List Element}

theorem perm (h : Listing es listed) : listed.Perm es := by
  obtain ⟨parts, rfl, each⟩ := h
  exact (((each .node).2.append (each .way).2).append (each .relation).2).trans (perm_byKind es)

theorem of_perm {es' : List Element} (h : Listing es listed) (perm : es.Perm es') :
    Listing es' listed := by
  obtain ⟨parts, rfl, each⟩ := h
  exact ⟨parts, rfl, fun k => ⟨(each k).1, (each k).2.trans (perm.filter _)⟩⟩

theorem ordered (h : Listing es listed) :
    listed.Pairwise fun a b => a.key = b.key → a.version ≤ b.version := by
  obtain ⟨parts, rfl, each⟩ := h
  have within : ∀ k, (parts.get k).Pairwise fun a b => a.key = b.key → a.version ≤ b.version := by
    intro k
    refine (each k).1.imp fun {a b} before same => ?_
    have ids : a.id = b.id := congrArg Prod.snd same
    omega
  have kind : ∀ {k e}, e ∈ parts.get k → e.kind = k := by
    intro k e he
    simpa using List.of_mem_filter ((each k).2.mem_iff.mp he)
  have across : ∀ {j k}, j ≠ k → ∀ a ∈ parts.get j, ∀ b ∈ parts.get k,
      a.key = b.key → a.version ≤ b.version := by
    intro j k apart a ha b hb same
    have kinds : a.kind = b.kind := congrArg Prod.fst same
    rw [kind ha, kind hb] at kinds
    exact absurd kinds apart
  refine List.pairwise_append.mpr ⟨List.pairwise_append.mpr ⟨within .node, within .way, ?_⟩,
    within .relation, fun a ha b hb => ?_⟩
  · exact across (j := .node) (k := .way) (by decide)
  · rcases List.mem_append.mp ha with ha | ha
    · exact across (j := .node) (k := .relation) (by decide) a ha b hb
    · exact across (j := .way) (k := .relation) (by decide) a ha b hb

theorem loads_iff (h : Listing es listed) :
    (∃ summary, (Store.empty.load listed).2 = .ok summary) ↔ Loadable es := by
  rw [Store.load_isOk_iff]
  have distinct_iff : (listed.Pairwise fun a b => ¬SameVersion a b) ↔
      es.Pairwise fun a b => ¬SameVersion a b := h.perm.pairwise_iff (mt SameVersion.symm)
  constructor
  · rintro ⟨placed, ascend⟩
    refine ⟨distinct_iff.mp (ascend.imp ?_), fun e he => placed e (h.perm.mem_iff.mpr he)⟩
    rintro a b above ⟨keys, versions⟩
    have := above keys
    omega
  · rintro ⟨distinct, placed⟩
    refine ⟨fun e he => placed e (h.perm.mem_iff.mp he), ?_⟩
    refine ((distinct_iff.mpr distinct).and h.ordered).imp ?_
    rintro a b ⟨differ, upTo⟩ keys
    have := upTo keys
    have : a.version ≠ b.version := fun versions => differ ⟨keys, versions⟩
    omega

theorem unique {listed' : List Element} (h : Listing es listed) (h' : Listing es listed')
    (distinct : es.Pairwise fun a b => ¬SameVersion a b) : listed' = listed := by
  obtain ⟨parts, rfl, each⟩ := h
  obtain ⟨parts', rfl, each'⟩ := h'
  have same : ∀ k, parts'.get k = parts.get k := by
    intro k
    refine List.Perm.eq_of_pairwise ?_ (each' k).1 (each k).1 ((each' k).2.trans (each k).2.symm)
    -- Two elements of which each may stand before the other are the same version.
    intro a b ha hb ab ba
    have ha := List.mem_filter.mp ((each' k).2.mem_iff.mp ha)
    have hb := List.mem_filter.mp ((each k).2.mem_iff.mp hb)
    have ids : a.id = b.id := by omega
    have versions : a.version = b.version := by omega
    by_contra differ
    have symmetric : Std.Symm fun a b : Element => ¬SameVersion a b :=
      ⟨fun _ _ => mt SameVersion.symm⟩
    refine distinct.forall ha.1 hb.1 differ ⟨Prod.ext ?_ ids, versions⟩
    exact (of_decide_eq_true ha.2).trans (of_decide_eq_true hb.2).symm
  exact congrArg₂ (· ++ ·) (congrArg₂ (· ++ ·) (same .node) (same .way)) (same .relation)

end Listing

theorem Loadable.nodup {es : List Element} (h : Loadable es) : es.Nodup :=
  h.distinct.imp fun differ same => differ ⟨congrArg Element.key same, congrArg Element.version same⟩

theorem Listing.loadsAs {es listed : List Element} (h : Listing es listed) : LoadsAs es listed where
  succeeds := h.loads_iff
  histories loadable k := by
    obtain ⟨summary, ok⟩ := h.loads_iff.mpr loadable
    obtain ⟨ascend, members⟩ := Store.history_load ok k
    refine ⟨ascend, fun placed => (members placed).trans ?_⟩
    simp only [h.perm.mem_iff]
  determined loadable runs d listed' loadable' same hw lists := by
    have perm : (elementsOf runs).Perm es :=
      (List.perm_ext_iff_of_nodup loadable'.nodup loadable.nodup).mpr same
    rw [h.unique ((lists.listing (rows_writeRuns hw)).of_perm perm) loadable.distinct]

/-- Elements that fit into their columns can be written by any number of runs with sound limits, in
any order. What is read then loads exactly if no version was written twice and every node has a
place. -/
theorem written_fixture_loads {runs : List Run} {es : List Element}
    (sound : ∀ r ∈ runs, r.limits.Sound) (fits : ∀ e ∈ es, e.Fits) (split : (elementsOf runs).Perm es) :
    Loads runs es := by
  obtain ⟨d, hw⟩ := writeRuns_isOk sound fun e he => fits e (split.mem_iff.mp he)
  have read : ∀ k, (d.rows k).mapM (Row.readElement k) =
      .ok ((elementsOf runs).filter fun e => e.kind = k) := by
    intro k
    rw [rows_writeRuns hw]
    exact mapM_rowsOf k (elementsOf runs)
  exact ⟨d, hw, Directories.exists_listed read, fun listed lists =>
    ((lists.listing (rows_writeRuns hw)).of_perm split).loadsAs⟩

private def stop (version : Int) : Element :=
  .node ⟨1, .bare version true, none, .zero true, .infinite false, none⟩

private def street : Element := .way ⟨1, .bare 1 true, some ∅, [1, 1]⟩

private def scattered : List Run :=
  [⟨{ maxRows := some 1, batchSize := 2 }, fun _ _ _ => 0, [stop 3, street, stop 2]⟩,
   ⟨{ maxSize := some 10, checkInterval := 1 }, fun _ _ _ => 9, [stop 1]⟩]

theorem written_fixture_loads_scattered : (∀ r ∈ scattered, r.limits.Sound) ∧
    (∀ e ∈ [stop 1, stop 2, stop 3, street], e.Fits) ∧
      (elementsOf scattered).Perm [stop 1, stop 2, stop 3, street] ∧
        Loads scattered [stop 1, stop 2, stop 3, street] ∧
          Loadable [stop 1, stop 2, stop 3, street] := by
  have sound : ∀ r ∈ scattered, r.limits.Sound := by decide
  have fits : ∀ e ∈ [stop 1, stop 2, stop 3, street], e.Fits := by decide
  have split : (elementsOf scattered).Perm [stop 1, stop 2, stop 3, street] := by decide
  exact ⟨sound, fits, split, written_fixture_loads sound fits split, by decide, by decide⟩

theorem written_fixture_needs_bounded_batches : ¬ ∀ (runs : List Run) (es : List Element),
    (∀ r ∈ runs, 1 ≤ r.limits.batchSize ∧ (r.limits.maxSize ≠ none → r.limits.checkInterval ≠ 0)) →
      (∀ e ∈ es, e.Fits) → (elementsOf runs).Perm es → Loads runs es := by
  intro always
  obtain ⟨d, hw, _⟩ := always [⟨{ batchSize := 0x8000000000000000 }, fun _ _ _ => 0, [street]⟩] [street]
    (by decide) (by decide) (List.Perm.refl _)
  cases hw

end MapExtract.Fixture
