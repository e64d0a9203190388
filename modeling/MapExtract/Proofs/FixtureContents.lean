import MapExtract.Fixture.Directory
import MapExtract.Proofs.RowRoundTrip

set_option autoImplicit false
namespace MapExtract.Fixture
open Element (Kind)

structure Limits.Sound (l : Limits) : Prop where
  positive : 1 ≤ l.batchSize
  bounded : l.batchSize ≤ maxBatchSize
  interval : l.maxSize ≠ none → l.checkInterval ≠ 0

instance (l : Limits) : Decidable l.Sound :=
  decidable_of_iff (1 ≤ l.batchSize ∧ l.batchSize ≤ maxBatchSize ∧
      (l.maxSize ≠ none → l.checkInterval ≠ 0))
    ⟨fun ⟨positive, bounded, interval⟩ => ⟨positive, bounded, interval⟩,
      fun h => ⟨h.positive, h.bounded, h.interval⟩⟩

theorem Limits.isFull_isOk {α : Type} {l : Limits} (h : l.Sound) (size : Nat → Int) (f : File α) :
    ∃ full, l.isFull size f = .ok full := by
  unfold isFull
  split
  · exact ⟨true, rfl⟩
  · split
    · exact ⟨false, rfl⟩
    · rename_i limit hl
      rw [if_neg (h.interval (by simp [hl]))]
      exact ⟨_, rfl⟩

namespace Rolling

variable {α : Type}

def contents (w : Rolling α) : List α := w.files.flatMap File.contents

theorem contents_write (l : Limits) (sizes : Sizes) (w : Rolling α) (batch : List α) :
    (w.write l sizes batch).1.contents = w.contents ++ batch := by
  have flat : ∀ v : Rolling α, v.contents = v.files.flatten.flatten := fun v => by
    rw [contents, List.flatten_flatten]
    rfl
  rw [flat, flat, flatten_files_write, List.flatten_append]
  cases batch <;> simp

theorem write_eq_ok {l : Limits} (h : l.Sound) (sizes : Sizes) (w : Rolling α) (batch : List α) :
    (w.write l sizes batch).2 = .ok () := by
  unfold write
  split
  · rfl
  · obtain ⟨full, hf⟩ := l.isFull_isOk h (sizes w.number) (w.current ++ [batch])
    dsimp only
    rw [hf]
    cases full <;> rfl

theorem writeRows_eq_ok {l : Limits} (h : l.Sound) (sizes : Sizes) (k : Kind) (w : Rolling Row)
    {rows : List Row} (fits : Row.checkWidths k rows = .ok ()) :
    (w.writeRows l sizes k rows).2 = .ok () := by
  unfold writeRows
  rw [fits]
  exact write_eq_ok h sizes w rows

end Rolling

theorem mem_rowsOf_fits {es : List Element} (fits : ∀ e ∈ es, e.Fits) (k : Kind) :
    ∀ r ∈ rowsOf k es, r.Fits := by
  intro r hr
  obtain ⟨e, he, rfl⟩ := List.mem_map.mp hr
  exact Row.ofElement_fits (fits e (List.mem_of_mem_filter he))

theorem rowsOf_flatMap {α : Type} (k : Kind) (part : α → List Element) (xs : List α) :
    rowsOf k (xs.flatMap part) = xs.flatMap fun x => rowsOf k (part x) := by
  simp only [rowsOf, List.filter_flatMap, List.map_flatMap]

theorem mapM_rowsOf (k : Kind) (es : List Element) :
    (rowsOf k es).mapM (Row.readElement k) = .ok (es.filter fun e => e.kind = k) := by
  rw [rowsOf, List.mapM_map]
  conv_rhs => rw [← List.map_id (es.filter _)]
  refine mapM_eq_ok_map fun e he => ?_
  have kind : e.kind = k := by simpa using List.of_mem_filter he
  rw [← kind]
  exact Row.readElement_ofElement e

namespace Writer

variable {l : Limits} {sizes : Kind → Sizes}

theorem get_writeKind {batch : List Element} {w v : Writer} {k : Kind}
    (h : w.writeKind l sizes batch k = .ok v) :
    (w.get k).write l (sizes k) (rowsOf k batch) = (v.get k, .ok ()) ∧
      ∀ j, j ≠ k → v.get j = w.get j := by
  unfold writeKind at h
  split at h
  · rename_i files written
    cases h
    unfold Rolling.writeRows at written
    split at written
    · refine ⟨?_, fun j other => ?_⟩
      · rw [ByKind.get_set, if_pos rfl]
        exact written
      · rw [ByKind.get_set, if_neg other]
    · cases written
  · cases h

theorem get_writeBatch {batch : List Element} {w v : Writer} (h : w.writeBatch l sizes batch = .ok v)
    (k : Kind) : (w.get k).write l (sizes k) (rowsOf k batch) = (v.get k, .ok ()) := by
  obtain ⟨first, nodes, h⟩ := exists_next_of_foldlM h
  obtain ⟨second, ways, h⟩ := exists_next_of_foldlM h
  obtain ⟨third, relations, h⟩ := exists_next_of_foldlM h
  cases h
  obtain ⟨nodes, keptByNodes⟩ := get_writeKind nodes
  obtain ⟨ways, keptByWays⟩ := get_writeKind ways
  obtain ⟨relations, keptByRelations⟩ := get_writeKind relations
  cases k with
  | node =>
    rw [keptByRelations _ (by decide), keptByWays _ (by decide)]
    exact nodes
  | way =>
    rw [keptByRelations _ (by decide), ← keptByNodes _ (by decide)]
    exact ways
  | relation =>
    rw [← keptByNodes _ (by decide), ← keptByWays _ (by decide)]
    exact relations

theorem contents_writeBatch (k : Kind) (w v : Writer) (batch : List Element)
    (h : w.writeBatch l sizes batch = .ok v) :
    (v.get k).contents = (w.get k).contents ++ rowsOf k batch := by
  have written := (w.get k).contents_write l (sizes k) (rowsOf k batch)
  rwa [get_writeBatch h k] at written

theorem writeBatch_isOk (h : l.Sound) (sizes : Kind → Sizes) {batch : List Element}
    (fits : ∀ e ∈ batch, e.Fits) (w : Writer) : ∃ v, w.writeBatch l sizes batch = .ok v := by
  refine foldlM_isOk (fun k _ w => ?_) w
  have rows := Row.checkWidths_of_fits k (mem_rowsOf_fits fits k)
  have written := (w.get k).writeRows_eq_ok h (sizes k) k rows
  unfold writeKind
  split
  · exact ⟨_, rfl⟩
  · rename_i failed
    rw [failed] at written
    cases written

end Writer

theorem exists_writer_of_writeRun {l : Limits} {sizes : Kind → Sizes} {es : List Element}
    {files : ByKind (List (File Row))} (h : writeRun l sizes es = .ok files) :
    1 ≤ l.batchSize ∧ ∃ w, (batches l.batchSize.toNat es).foldlM (Writer.writeBatch l sizes)
      (.all .empty) = .ok w ∧ files = w.map Rolling.files := by
  unfold writeRun batchesOf at h
  split at h
  · cases h
  split at h
  · cases h
  rename_i positive _
  change ((batches l.batchSize.toNat es).foldlM (Writer.writeBatch l sizes) (.all .empty)).bind _ = _
    at h
  cases written : (batches l.batchSize.toNat es).foldlM (Writer.writeBatch l sizes) (.all .empty) with
  | error cause =>
    rw [written] at h
    cases h
  | ok w =>
    rw [written] at h
    cases h
    exact ⟨by omega, w, rfl, rfl⟩

theorem contents_writeRun {l : Limits} {sizes : Kind → Sizes} {es : List Element}
    {files : ByKind (List (File Row))} (h : writeRun l sizes es = .ok files) (k : Kind) :
    (files.get k).flatMap File.contents = rowsOf k es := by
  obtain ⟨positive, w, written, rfl⟩ := exists_writer_of_writeRun h
  have inBatches : rowsOf k es = (batches l.batchSize.toNat es).flatMap (rowsOf k) := by
    conv_lhs => rw [← flatten_batches l.batchSize.toNat (by omega) es, ← List.flatMap_id]
    exact rowsOf_flatMap k id _
  rw [ByKind.get_map, inBatches]
  refine (foldlM_collects (Writer.contents_writeBatch k) written).trans ?_
  cases k <;> rfl

theorem writeRun_isOk {l : Limits} (h : l.Sound) (sizes : Kind → Sizes) {es : List Element}
    (fits : ∀ e ∈ es, e.Fits) : ∃ files, writeRun l sizes es = .ok files := by
  have inBatch : ∀ batch ∈ batches l.batchSize.toNat es, ∀ w : Writer,
      ∃ v, w.writeBatch l sizes batch = .ok v := by
    intro batch hb w
    refine Writer.writeBatch_isOk h sizes (fun e he => fits e ?_) w
    rw [← flatten_batches l.batchSize.toNat (by have := h.positive; omega) es]
    exact List.mem_flatten_of_mem hb he
  obtain ⟨w, written⟩ := foldlM_isOk inBatch (.all .empty)
  refine ⟨w.map Rolling.files, ?_⟩
  rw [writeRun, batchesOf_eq_ok h.positive h.bounded]
  change ((batches l.batchSize.toNat es).foldlM (Writer.writeBatch l sizes) (.all .empty)).bind _ = _
  rw [written]
  rfl

namespace Directories

def rows (d : Directories) (k : Kind) : List Row := ((d.get k).getD []).flatMap File.contents

theorem rows_missing (k : Kind) : missing.rows k = [] := by cases k <;> rfl

theorem rows_add (d : Directories) (files : ByKind (List (File Row))) (k : Kind) :
    (d.add files).rows k = d.rows k ++ (files.get k).flatMap File.contents := by
  rw [rows, rows, ← List.flatMap_append]
  cases k <;> rfl

end Directories

/-- By identifier and, where these agree, by version. -/
def Ascending (es : List Element) : Prop :=
  es.Pairwise fun a b => a.id < b.id ∨ a.id = b.id ∧ a.version ≤ b.version

/-- The same elements in ascending order; those that agree in identifier and version keep theirs. -/
structure StablySorted (es sorted : List Element) : Prop where
  perm : sorted.Perm es
  ascending : Ascending sorted
  stable : ∀ id version, (sorted.filter fun e => e.id = id ∧ e.version = version) =
    es.filter fun e => e.id = id ∧ e.version = version

theorem readsBefore_iff (a b : Element) : readsBefore a b = true ↔
    a.id < b.id ∨ a.id = b.id ∧ a.version ≤ b.version := by
  simp [readsBefore]

theorem readsBefore_trans (a b c : Element) (hab : readsBefore a b = true)
    (hbc : readsBefore b c = true) : readsBefore a c = true := by
  rw [readsBefore_iff] at *
  omega

theorem readsBefore_total (a b : Element) : (readsBefore a b || readsBefore b a) = true := by
  rw [Bool.or_eq_true, readsBefore_iff, readsBefore_iff]
  omega

theorem mergeSort_stablySorted (es : List Element) : StablySorted es (es.mergeSort readsBefore) where
  perm := List.mergeSort_perm es readsBefore
  ascending := (List.pairwise_mergeSort readsBefore_trans readsBefore_total es).imp
    fun {a b} h => (readsBefore_iff a b).mp h
  stable id version := by
    -- Elements that agree are in order as they stand, so sorting keeps them as a subsequence.
    let own : Element → Bool := fun e => e.id = id ∧ e.version = version
    have inOrder : (es.filter own).Pairwise fun a b => readsBefore a b = true := by
      refine List.pairwise_of_forall_mem_list fun a ha b hb => ?_
      have hka := List.of_mem_filter ha
      have hkb := List.of_mem_filter hb
      simp only [own, decide_eq_true_eq] at hka hkb
      rw [readsBefore_iff]
      omega
    have kept : (es.filter own).Sublist ((es.mergeSort readsBefore).filter own) := by
      have := (List.sublist_mergeSort readsBefore_trans readsBefore_total inOrder
        List.filter_sublist).filter own
      simpa only [List.filter_filter, Bool.and_self] using this
    exact (kept.eq_of_length ((List.mergeSort_perm es readsBefore).filter own).length_eq.symm).symm

theorem Directories.read_eq_ok {d : Directories} {parts : Kind → List Element}
    (h : ∀ k, (d.rows k).mapM (Row.readElement k) = .ok (parts k)) :
    d.read = .ok ((parts .node).mergeSort readsBefore ++ (parts .way).mergeSort readsBefore ++
      (parts .relation).mergeSort readsBefore) := by
  have each : ∀ k, readFiles k ((d.get k).getD []) = .ok ((parts k).mergeSort readsBefore) := by
    intro k
    change ((d.rows k).mapM (Row.readElement k)).bind _ = _
    rw [h k]
    rfl
  unfold read
  rw [mapM_eq_ok_map fun k _ => each k]
  simp [kinds, bind, Except.bind, pure, Except.pure]

end MapExtract.Fixture
