import MapExtract.Proofs.FixtureContents

set_option autoImplicit false
namespace MapExtract.Fixture
open Element (Kind)

def RoundTrips (l : Limits) (sizes : Kind → Sizes) (es : List Element) : Prop :=
  ∃ files nodes ways relations, writeRun l sizes es = .ok files ∧
    (Directories.missing.add files).read = .ok (nodes ++ ways ++ relations) ∧
    StablySorted (es.filter fun e => e.kind = .node) nodes ∧
    StablySorted (es.filter fun e => e.kind = .way) ways ∧
    StablySorted (es.filter fun e => e.kind = .relation) relations

/-- Elements that fit into their columns make the round trip under all sound limits, wherever the
files end. -/
theorem round_trip {l : Limits} (sound : l.Sound) (sizes : Kind → Sizes) {es : List Element}
    (fits : ∀ e ∈ es, e.Fits) : RoundTrips l sizes es := by
  obtain ⟨files, written⟩ := writeRun_isOk sound sizes fits
  have rows : ∀ k, ((Directories.missing.add files).rows k).mapM (Row.readElement k) =
      .ok (es.filter fun e => e.kind = k) := by
    intro k
    rw [Directories.rows_add, Directories.rows_missing, List.nil_append, contents_writeRun written]
    exact mapM_rowsOf k es
  exact ⟨files, _, _, _, written, Directories.read_eq_ok rows, mergeSort_stablySorted _,
    mergeSort_stablySorted _, mergeSort_stablySorted _⟩

private def tight : Limits :=
  { maxRows := some 1, maxSize := some 0, batchSize := 2, checkInterval := -1 }

/-- Versions out of order, every null, values at the ends of their columns, repeated references. -/
private def odd : List Element :=
  [.node ⟨7, .bare 2 true, some ∅, .nan, .zero true, none⟩,
   .way ⟨7, .bare (-0x80000000) true, none, [7, 7, -0x8000000000000000]⟩,
   .node ⟨7, .bare 1 true, none, .infinite true, .zero false, some 0xFFFFFFFF⟩,
   .relation ⟨0x7FFFFFFFFFFFFFFF, ⟨1, some 5, some 9, some (-1), some "", false⟩, some ∅,
     [⟨.relation, 7, ""⟩, ⟨.node, 7, "stop"⟩, ⟨.node, 7, "stop"⟩]⟩,
   .node ⟨7, .bare 1 true, none, .zero false, .zero false, some 0⟩]

theorem round_trip_odd : tight.Sound ∧ (∀ e ∈ odd, e.Fits) ∧ RoundTrips tight (fun _ _ _ => 0) odd := by
  have sound : tight.Sound := ⟨by decide, by decide, by decide⟩
  have fits : ∀ e ∈ odd, e.Fits := by decide
  exact ⟨sound, fits, round_trip sound _ fits⟩

theorem round_trip_needs_bounded_batches : ¬ ∀ (l : Limits) (sizes : Kind → Sizes) (es : List Element),
    1 ≤ l.batchSize → (l.maxSize ≠ none → l.checkInterval ≠ 0) → (∀ e ∈ es, e.Fits) →
      RoundTrips l sizes es := by
  intro always
  obtain ⟨files, nodes, ways, relations, written, _⟩ :=
    always { batchSize := 0x8000000000000000 } (fun _ _ _ => 0)
      [.node ⟨1, .bare 1 true, none, .zero false, .zero false, none⟩] (by decide) (by decide) (by decide)
  cases written

end MapExtract.Fixture
