import MapExtract.Proofs.BoxNodes
import MapExtract.Proofs.ExpansionDistance
import MapExtract.Proofs.FailedAdditions

set_option autoImplicit false
namespace MapExtract

def Error.StopsLoading (cause : Error) : Prop :=
  (∃ kind id version last, cause = .versionConflict kind id version last) ∨
    cause = .notFinite (.nan false false 0)

def Error.IsBlank (cause : Error) : Prop := cause = .blankBox ∨ cause = .blankValue

theorem Error.StopsLoading.not_request {cause : Error} (h : cause.StopsLoading) :
    cause.isRequestError = false := by
  rcases h with ⟨kind, id, version, last, rfl⟩ | rfl <;> rfl

theorem Error.IsBlank.not_request {cause : Error} (h : cause.IsBlank) :
    cause.isRequestError = false := by
  rcases h with rfl | rfl <;> rfl

namespace BoundingBox

theorem read_eq_error {text : String} {cause : Error} (h : read text = .error cause) :
    cause = .boxFormat := by
  unfold read at h
  split at h <;> cases h
  rfl

theorem validate_of_flaw {box : BoundingBox} {flaw : Flaw} (h : box.flaw? = some flaw)
    (limit : Option Binary64) : box.validate limit = .error (.invalidBox flaw) := by
  unfold validate
  rw [h]

theorem validate_none {box : BoundingBox} (h : box.flaw? = none) : box.validate none = .ok () := by
  unfold validate
  rw [h]

theorem validate_eq_error {box : BoundingBox} {limit : Option Binary64} {cause : Error}
    (h : box.validate limit = .error cause) : cause.isRequestError = true := by
  unfold validate at h
  split at h
  · cases h
    rfl
  split at h
  · cases h
  split at h <;> cases h
  rfl

end BoundingBox

namespace Store

theorem loadAfter_eq_error {s t : Store} {summary : Summary} {es : List Element} {cause : Error}
    (h : s.loadAfter summary es = (t, .error cause)) : cause.StopsLoading := by
  induction es generalizing s summary with
  | nil => cases h
  | cons e es ih =>
    have outcome := offer_snd summary e
    rw [loadAfter] at h
    cases ho : summary.offer e with
    | mk counted located =>
      rw [ho] at h outcome
      cases located with
      | error own =>
        cases h
        exact .inr (Element.located_eq_error outcome.symm)
      | ok placed =>
        dsimp only at h
        cases ha : s.add placed with
        | mk kept added =>
          rw [ha] at h
          cases added with
          | ok _ => exact ih h
          | error own =>
            cases h
            rcases add_eq_error_cases ha with ⟨_, _, last, conflict⟩ | ⟨_, _, _, nan⟩
            · exact .inl ⟨_, _, _, last, conflict⟩
            · exact .inr nan

theorem mapOf_of_invalid (s : Store) {box : BoundingBox} {maxArea : Binary64} {cause : Error}
    (h : box.validate (some maxArea) = .error cause) (maxNodes : Int) :
    s.mapOf box maxArea maxNodes = .error cause := by
  unfold mapOf
  rw [h]
  rfl

theorem mapOf_eq_error {s : Store} (hs : s.WellFormed) {box : BoundingBox} {maxArea : Binary64}
    {maxNodes : Int} {cause : Error} (h : s.mapOf box maxArea maxNodes = .error cause) :
    cause.isRequestError = true := by
  cases hv : box.validate (some maxArea) with
  | error own =>
    cases h.symm.trans (s.mapOf_of_invalid hv maxNodes)
    exact BoundingBox.validate_eq_error hv
  | ok _ =>
    obtain ⟨low, high, hr, _⟩ :=
      BoundingBox.exists_range (BoundingBox.flaw_eq_none_of_validate hv)
    obtain ⟨nodes, hn⟩ : ∃ nodes, s.nodesIn box = .ok nodes := by
      rw [nodesIn, hr]
      exact ⟨_, rfl⟩
    rw [mapOf_eq hv hn (nodesIn_distinct hs hn)] at h
    split at h <;> cases h
    rfl

theorem expand_eq_error {s : Store} (hs : s.WellFormed) {maxDepth : Option Int}
    (deep : ∀ most, maxDepth = some most → 1 ≤ most) {id : Int} {cause : Error}
    (h : s.expand id maxDepth = .error cause) : cause.isRequestError = true := by
  rcases expand_cases hs deep id with ⟨_, missing⟩ | ⟨_, _, _, gone⟩ | ⟨_, _, _, _, ok, _⟩
  · cases h.symm.trans missing
    rfl
  · cases h.symm.trans gone
    rfl
  · cases h.symm.trans ok

end Store

end MapExtract
