import MapExtract.Fixture.Series
import MapExtract.Proofs.FixtureContents

set_option autoImplicit false
namespace MapExtract.Fixture
open Element (Kind)

variable {α : Type} {l : Limits} {size : Nat → Int} {sizes : Sizes} {parts : List (List α)}
  {files : List (File α)} {f : File α} {w v : Rolling α} {batch : List α}

/-- Does a file reach a limit with the batches in it? The limit on the size counts only where the size
is checked. -/
def Limits.Reached (l : Limits) (size : Nat → Int) (f : File α) : Prop :=
  (∃ limit, l.maxRows = some limit ∧ limit ≠ 0 ∧ limit ≤ f.rowCount) ∨
    ∃ limit, l.maxSize = some limit ∧ l.checkInterval ∣ f.length ∧ limit ≤ size f.length

theorem Limits.enoughRows_iff (l : Limits) (rows : Nat) :
    l.enoughRows rows = true ↔ ∃ limit, l.maxRows = some limit ∧ limit ≠ 0 ∧ limit ≤ rows := by
  unfold enoughRows
  cases l.maxRows <;> simp

theorem Limits.reached_iff_of_isFull {full : Bool} (h : l.isFull size f = .ok full) :
    full = true ↔ l.Reached size f := by
  unfold isFull at h
  rw [Reached, ← enoughRows_iff]
  split at h
  · rename_i enough
    cases h
    exact iff_of_true rfl (.inl enough)
  rename_i few
  split at h
  · rename_i unlimited
    cases h
    simp [few, unlimited]
  rename_i limit limited
  split at h
  · cases h
  cases h
  simp [few, limited]

structure Limits.Stops (l : Limits) (size : Nat → Int) (f : File α) : Prop where
  filled : f ≠ []
  first : ∀ g, g <+: f → g ≠ [] → l.Reached size g → g = f

/-- How the batches of a series are cut into its files. The number of a file is one more than its
position. -/
structure Cut (l : Limits) (sizes : Sizes) (parts : List (List α)) (files : List (File α)) : Prop where
  whole : files.flatten = parts
  stops : ∀ i f, files[i]? = some f → l.Stops (sizes (i + 1)) f
  reaches : ∀ i f, files[i]? = some f → i + 1 < files.length → l.Reached (sizes (i + 1)) f

/-- The same while the files are written. Every closed file has reached a limit, the open one none. -/
structure Rolling.Keeps (l : Limits) (sizes : Sizes) (parts : List (List α)) (w : Rolling α) : Prop where
  whole : w.closed.flatten ++ w.current = parts
  stops : ∀ i f, w.closed[i]? = some f → l.Stops (sizes (i + 1)) f
  reaches : ∀ i f, w.closed[i]? = some f → l.Reached (sizes (i + 1)) f
  goesOn : ∀ g, g <+: w.current → g ≠ [] → ¬ l.Reached (sizes w.number) g

private theorem forall_getElem?_concat {β : Type} {P : Nat → β → Prop} {xs : List β} {x : β}
    (h : ∀ i y, xs[i]? = some y → P i y) (hx : P xs.length x) :
    ∀ i y, (xs ++ [x])[i]? = some y → P i y := by
  intro i y hy
  rcases Nat.lt_trichotomy i xs.length with before | rfl | after
  · rw [List.getElem?_append_left before] at hy
    exact h i y hy
  · rw [List.getElem?_concat_length] at hy
    exact Option.some.inj hy ▸ hx
  · have := (List.getElem?_eq_some_iff.mp hy).1
    rw [List.length_append, List.length_singleton] at this
    omega

namespace Rolling

theorem keeps_empty (l : Limits) (sizes : Sizes) : Keeps l sizes [] (empty : Rolling α) where
  whole := rfl
  stops _ _ hf := by cases hf
  reaches _ _ hf := by cases hf
  goesOn g hg filled := absurd (List.prefix_nil.mp hg) filled

theorem write_cases (h : w.write l sizes batch = (v, .ok ())) :
    batch = [] ∧ v = w ∨ batch ≠ [] ∧
      (l.Reached (sizes w.number) (w.current ++ [batch]) ∧
          v = ⟨w.closed ++ [w.current ++ [batch]], []⟩ ∨
        ¬ l.Reached (sizes w.number) (w.current ++ [batch]) ∧
          v = ⟨w.closed, w.current ++ [batch]⟩) := by
  unfold write at h
  split at h
  · rename_i nothing
    cases h
    exact .inl ⟨List.isEmpty_iff.mp nothing, rfl⟩
  rename_i something
  refine .inr ⟨fun nothing => something (List.isEmpty_iff.mpr nothing), ?_⟩
  dsimp only at h
  split at h
  · rename_i full
    cases h
    refine .inl ⟨(Limits.reached_iff_of_isFull full).mp rfl, ?_⟩
    rw [close]
    split
    · rename_i none
      exact absurd none (by simp)
    · rfl
  · rename_i room
    cases h
    exact .inr ⟨fun reached => Bool.noConfusion ((Limits.reached_iff_of_isFull room).mpr reached), rfl⟩
  · cases h

theorem Keeps.write (h : Keeps l sizes parts w) (written : w.write l sizes batch = (v, .ok ())) :
    Keeps l sizes (parts ++ [batch].filter (· ≠ [])) v := by
  obtain ⟨rfl, rfl⟩ | ⟨filled, own⟩ := write_cases written
  · simpa using h
  -- Before the batch no limit was reached, so at most the file with the batch in it reaches one.
  have stops : l.Stops (sizes w.number) (w.current ++ [batch]) := by
    refine ⟨List.concat_ne_nil _ _, fun g hg filled reached => ?_⟩
    rcases List.prefix_concat_iff.mp hg with same | before
    · exact same
    · exact absurd reached (h.goesOn g before filled)
  have whole : w.closed.flatten ++ (w.current ++ [batch]) = parts ++ [batch].filter (· ≠ []) := by
    rw [← List.append_assoc, h.whole]
    simp [filled]
  obtain ⟨reached, rfl⟩ | ⟨unreached, rfl⟩ := own
  · refine ⟨?_, forall_getElem?_concat h.stops stops, forall_getElem?_concat h.reaches reached, ?_⟩
    · rw [← whole, List.flatten_concat, List.append_nil]
    · intro g hg filled
      exact absurd (List.prefix_nil.mp hg) filled
  · refine ⟨whole, h.stops, h.reaches, fun g hg filled reached => ?_⟩
    exact unreached (stops.first g hg filled reached ▸ reached)

theorem Keeps.cut (h : Keeps l sizes parts w) : Cut l sizes parts w.files := by
  rw [files, closed_close]
  split
  · rename_i none
    rw [List.append_nil]
    refine ⟨?_, h.stops, fun i f hf _ => h.reaches i f hf⟩
    rw [← h.whole, none, List.append_nil]
  · rename_i some
    refine ⟨?_, forall_getElem?_concat h.stops ⟨some, ?_⟩, forall_getElem?_concat ?_ ?_⟩
    · rw [← h.whole, List.flatten_concat]
    · intro g hg filled reached
      exact absurd reached (h.goesOn g hg filled)
    · intro i f hf _
      exact h.reaches i f hf
    · intro later
      rw [List.length_append, List.length_singleton] at later
      omega

end Rolling

theorem File.rowCount_concat (f : File α) (batch : List α) :
    File.rowCount (f ++ [batch]) = f.rowCount + batch.length := by
  rw [rowCount, contents, List.flatten_concat, List.length_append]
  rfl

namespace Cut

theorem rowCount_lt (h : Cut l sizes parts files) {most limit : Int}
    (small : ∀ batch ∈ parts, (batch.length : Int) ≤ most) (limited : l.maxRows = some limit)
    (positive : 0 < limit) : ∀ f ∈ files, (f.rowCount : Int) < limit + most := by
  intro f hf
  obtain ⟨i, position⟩ := List.mem_iff_getElem?.mp hf
  obtain ⟨filled, first⟩ := h.stops i f position
  -- Without its last batch the file had not reached the limit, so only that batch goes beyond it.
  obtain ⟨before, last, rfl⟩ := (List.eq_nil_or_concat' f).resolve_left filled
  have final : (last.length : Int) ≤ most := by
    apply small last
    rw [← h.whole]
    exact List.mem_flatten_of_mem hf List.mem_concat_self
  have unreached : (File.rowCount before : Int) < limit := by
    by_cases none : before = []
    · rw [none]
      exact positive
    · by_contra enough
      have reached : l.Reached (sizes (i + 1)) before := .inl ⟨limit, limited, by omega, by omega⟩
      have ended := first before (List.prefix_append _ _) none reached
      exact absurd ended (by simp)
  rw [File.rowCount_concat]
  omega

theorem limit_le_rowCount (h : Cut l sizes parts files) {limit : Int} (limited : l.maxRows = some limit)
    (unlimited : l.maxSize = none) (i : Nat) (f : File α) (hf : files[i]? = some f)
    (later : i + 1 < files.length) : limit ≤ f.rowCount := by
  rcases h.reaches i f hf later with ⟨own, same, _, enough⟩ | ⟨_, sized, _⟩
  · rw [limited] at same
    cases same
    exact enough
  · rw [unlimited] at sized
    cases sized

end Cut

def partsOf (k : Kind) (bs : List (List Element)) : List (List Row) :=
  (bs.map (rowsOf k)).filter (· ≠ [])

theorem cut_of_writeRun {sizes : Kind → Sizes} {es : List Element} {files : ByKind (List (File Row))}
    (h : writeRun l sizes es = .ok files) (k : Kind) :
    Cut l (sizes k) (partsOf k (batches l.batchSize.toNat es)) (files.get k) := by
  obtain ⟨_, w, written, rfl⟩ := exists_writer_of_writeRun h
  rw [ByKind.get_map]
  apply Rolling.Keeps.cut
  refine foldlM_invariant (I := fun done (w : Writer) => (w.get k).Keeps l (sizes k) (partsOf k done))
    ?_ ?_ written
  · intro done u v batch hu hv
    have wrote := hu.write (Writer.get_writeBatch hv k)
    rwa [partsOf, List.map_append, List.filter_append]
  · cases k <;> exact Rolling.keeps_empty l _

theorem length_le_of_mem_partsOf (positive : 1 ≤ l.batchSize) (k : Kind) (es : List Element) :
    ∀ rows ∈ partsOf k (batches l.batchSize.toNat es), (rows.length : Int) ≤ l.batchSize := by
  intro rows h
  obtain ⟨batch, hb, rfl⟩ := List.mem_map.mp (List.mem_of_mem_filter h)
  have cut := length_le_of_mem_batches _ es batch hb
  have own : (rowsOf k batch).length ≤ batch.length := by
    rw [rowsOf, List.length_map]
    exact List.length_filter_le _ _
  omega

structure Rolls (l : Limits) (sizes : Sizes) (parts : List (List α)) (files : List (File α)) : Prop
    extends Cut l sizes parts files where
  numbered : ∀ (s : Series) i, (s.rowCounts files)[i]? =
    files[i]?.map fun f => (s.fileName (i + 1), f.rowCount)
  below : ∀ limit, l.maxRows = some limit → 0 < limit →
    ∀ f ∈ files, (f.rowCount : Int) < limit + l.batchSize
  atLeast : ∀ limit, l.maxRows = some limit → 0 < limit → l.maxSize = none →
    ∀ i f, files[i]? = some f → i + 1 < files.length → limit ≤ f.rowCount

def Windows (length : Nat) (es : List Element) (bs : List (List Element)) : Prop :=
  ∀ i, bs[i]? = if i * length < es.length then some ((es.drop (i * length)).take length) else none

/-- One run writes the elements, and what each window has of a kind is cut into the files of the kind. -/
def RollsFiles (l : Limits) (sizes : Kind → Sizes) (es : List Element) : Prop :=
  ∃ bs files, Windows l.batchSize.toNat es bs ∧ writeRun l sizes es = .ok files ∧
    ∀ k, Rolls l (sizes k) (partsOf k bs) (files.get k)

/-- Whatever sizes are found, the files of elements that fit into their columns end at the limits and
nowhere else. -/
theorem files_end_at_limits (sound : l.Sound) (sizes : Kind → Sizes) {es : List Element}
    (fits : ∀ e ∈ es, e.Fits) : RollsFiles l sizes es := by
  obtain ⟨files, written⟩ := writeRun_isOk sound sizes fits
  have positive := sound.positive
  refine ⟨_, files, getElem?_batches l.batchSize.toNat (by omega) es, written, fun k => ?_⟩
  have cut := cut_of_writeRun written k
  have small := length_le_of_mem_partsOf positive k es
  exact { cut with
    numbered := fun s i => s.getElem?_rowCounts (files.get k) i
    below := fun _ limited positive => cut.rowCount_lt small limited positive
    atLeast := fun _ limited _ unlimited => cut.limit_le_rowCount limited unlimited }

private def narrow : Limits := { maxRows := some 3, maxSize := some 100, batchSize := 2, checkInterval := 2 }

private def mixed : List Element :=
  [.way ⟨1, .bare 1 true, none, []⟩, .node (.bare 1 1 (.zero false) none),
   .node (.bare 2 1 (.zero false) none), .node (.bare 3 1 (.zero false) none),
   .relation ⟨1, .bare 1 true, none, []⟩, .way ⟨2, .bare 1 true, none, []⟩, .way ⟨3, .bare 1 true, none, []⟩]

theorem files_end_at_limits_mixed : narrow.Sound ∧ (∀ e ∈ mixed, e.Fits) ∧
    RollsFiles narrow (fun _ _ batches => 60 * batches) mixed := by
  have sound : narrow.Sound := ⟨by decide, by decide, by decide⟩
  have fits : ∀ e ∈ mixed, e.Fits := by decide
  exact ⟨sound, fits, files_end_at_limits sound _ fits⟩

private def wide : Element := .way ⟨0x8000000000000000, .bare 1 true, none, []⟩

theorem rolling_needs_bounded_batches_and_widths :
    (¬ ∀ (l : Limits) (sizes : Kind → Sizes) (es : List Element), 1 ≤ l.batchSize →
      (l.maxSize ≠ none → l.checkInterval ≠ 0) → (∀ e ∈ es, e.Fits) → RollsFiles l sizes es) ∧
    ¬ ∀ (l : Limits) (sizes : Kind → Sizes) (es : List Element), l.Sound → RollsFiles l sizes es := by
  constructor
  · intro always
    obtain ⟨bs, files, _, written, _⟩ := always { batchSize := 0x8000000000000000 } (fun _ _ _ => 0) mixed
      (by decide) (by decide) (by decide)
    cases written
  · intro always
    obtain ⟨bs, files, _, written, _⟩ := always {} (fun _ _ _ => 0) [wide] (by decide)
    obtain ⟨_, w, run, _⟩ := exists_writer_of_writeRun written
    have one : batches 10000 [wide] = [[wide]] := by simp [batches]
    change (batches 10000 [wide]).foldlM _ _ = _ at run
    rw [one] at run
    cases run

end MapExtract.Fixture
