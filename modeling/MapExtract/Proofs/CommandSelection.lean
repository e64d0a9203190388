import MapExtract.CommandLine.Run
import MapExtract.Proofs.RequestErrors

set_option autoImplicit false
namespace MapExtract.CommandLine

def Command.Complete : Command → Prop
  | .load => True
  | .full relation maxDepth => relation ≠ .blank ∧ maxDepth ≠ .blank
  | .map box maxArea maxNodes => box ≠ .blank ∧ maxArea ≠ .blank ∧ maxNodes ≠ .blank

def Command.DepthNonneg (command : Command) : Prop :=
  ∀ relation depth, command = .full relation (.value depth) → 0 ≤ depth

/-- What a command asks of a store, and the answer to it. -/
inductive Asks (store : Store) : Command → Except Error Draft → Prop
  | load : Asks store .load (.ok .empty)
  | unbounded (id : Int) : Asks store (.full (.value id) (.value 0)) (store.expand id none)
  | full (id : Int) {depth : Int} (positive : 1 ≤ depth) :
      Asks store (.full (.value id) (.value depth)) (store.expand id (some depth))
  | noBox {text : String} (maxArea : Binary64) (maxNodes : Int)
      (malformed : BoundingBox.read text = .error .boxFormat) :
      Asks store (.map (.value text) (.value maxArea) (.value maxNodes)) (.error .boxFormat)
  | map {text : String} {box : BoundingBox} (maxArea : Binary64) (maxNodes : Int)
      (read : BoundingBox.read text = .ok box) :
      Asks store (.map (.value text) (.value maxArea) (.value maxNodes))
        (store.mapOf box maxArea maxNodes)

theorem FullSettings.depth_nonneg {s : FullSettings} {relation : Given Int} {depth : Int}
    (h : s.command = .ok (.full relation (.value depth))) : 0 ≤ depth := by
  obtain ⟨given, maxDepth⟩ := s
  cases given with
  | none => cases h
  | some id =>
    simp only [command] at h
    split at h
    · cases h
    · rename_i allowed
      cases h
      simpa [hasNegativeDepth] using allowed

theorem MapSettings.command_ne_full {s : MapSettings} {relation maxDepth : Given Int} :
    s.command ≠ .ok (.full relation maxDepth) := by
  intro h
  unfold command at h
  split at h <;> cases h

theorem Command.depth_nonneg {words : List String} {relation : Given Int} {depth : Int}
    (h : Command.read words = .ok (.full relation (.value depth))) : 0 ≤ depth := by
  unfold Command.read at h
  split at h
  · cases h
  split at h
  · cases hr : readSettings (σ := Unit) [] () _ <;> rw [hr] at h <;> cases h
  split at h
  · obtain ⟨settings, _, full⟩ := exists_of_bind_eq_ok h
    exact FullSettings.depth_nonneg full
  split at h
  · obtain ⟨settings, _, map⟩ := exists_of_bind_eq_ok h
    exact absurd map MapSettings.command_ne_full
  · cases h

theorem Request.depthNonneg {words : List String} {r : Request} (h : Request.read words = .ok r) :
    r.command.DepthNonneg := by
  intro relation depth full
  obtain ⟨scanned, _, h⟩ := exists_of_bind_eq_ok h
  obtain ⟨general, _, h⟩ := exists_of_bind_eq_ok h
  obtain ⟨command, hc, h⟩ := exists_of_bind_eq_ok h
  have same : r.command = command := by
    split at h <;> cases h
    rfl
  rw [← same, full] at hc
  exact Command.depth_nonneg hc

/-- The box is validated twice, the second time with its area. -/
theorem selectMap_eq (store : Store) {text : String} {box : BoundingBox}
    (read : BoundingBox.read text = .ok box) (maxArea : Binary64) (maxNodes : Int) :
    selectMap store (.value text) (.value maxArea) (.value maxNodes) =
      store.mapOf box maxArea maxNodes := by
  have unfolded : selectMap store (.value text) (.value maxArea) (.value maxNodes) =
      (box.validate none).bind fun _ => store.mapOf box maxArea maxNodes := by
    simp only [selectMap, Given.get, bind, Except.bind, read]
  rw [unfolded]
  rcases Option.eq_none_or_eq_some box.flaw? with sound | ⟨flaw, hf⟩
  · simp only [BoundingBox.validate_none sound, Except.bind]
  · have refused := BoundingBox.validate_of_flaw hf
    rw [refused, store.mapOf_of_invalid (refused _)]
    rfl

theorem Asks.isRequestError {store : Store} (hs : store.WellFormed) {command : Command}
    {answer : Except Error Draft} (asks : Asks store command answer) {cause : Error}
    (h : answer = .error cause) : cause.isRequestError = true := by
  cases asks with
  | load => cases h
  | unbounded id => exact Store.expand_eq_error hs Store.bounded_none h
  | full id positive => exact Store.expand_eq_error hs (Store.bounded_some positive) h
  | noBox maxArea maxNodes malformed =>
    cases h
    rfl
  | map maxArea maxNodes read => exact Store.mapOf_eq_error hs h

theorem Given.exists_value {α : Type} {g : Given α} (h : g ≠ .blank) : ∃ a, g = .value a := by
  cases g with
  | blank => exact absurd rfl h
  | value a => exact ⟨a, rfl⟩

theorem asks_select (store : Store) {command : Command} (complete : command.Complete)
    (nonneg : command.DepthNonneg) : Asks store command (command.select store) := by
  cases command with
  | load => exact .load
  | full relation maxDepth =>
    obtain ⟨id, rfl⟩ := Given.exists_value complete.1
    obtain ⟨depth, rfl⟩ := Given.exists_value complete.2
    have := nonneg _ depth rfl
    change Asks store _ (store.expand id (if depth = 0 then none else some depth))
    by_cases zero : depth = 0
    · subst zero
      exact .unbounded id
    · rw [if_neg zero]
      exact .full id (by omega)
  | map box maxArea maxNodes =>
    obtain ⟨text, rfl⟩ := Given.exists_value complete.1
    obtain ⟨maxArea, rfl⟩ := Given.exists_value complete.2.1
    obtain ⟨maxNodes, rfl⟩ := Given.exists_value complete.2.2
    rw [Command.select]
    cases hr : BoundingBox.read text with
    | error cause =>
      obtain rfl := BoundingBox.read_eq_error hr
      have unread : selectMap store (.value text) (.value maxArea) (.value maxNodes) =
          .error .boxFormat := by
        simp only [selectMap, Given.get, bind, Except.bind, hr]
      rw [unread]
      exact .noBox maxArea maxNodes hr
    | ok box =>
      rw [selectMap_eq store hr]
      exact .map maxArea maxNodes hr

theorem Given.eq_of_get_eq_error {ε α : Type} {g : Given α} {own cause : ε}
    (h : g.get own = .error cause) : cause = own := by
  cases g <;> cases h
  rfl

theorem selectMap_eq_error {store : Store} (hs : store.WellFormed) {box : Given String}
    {maxArea : Given Binary64} {maxNodes : Given Int} {cause : Error}
    (h : selectMap store box maxArea maxNodes = .error cause) :
    cause.isRequestError = true ∨ cause.IsBlank := by
  unfold selectMap at h
  rcases cases_of_bind_eq_error h with blank | ⟨text, _, h⟩
  · exact .inr (.inl (Given.eq_of_get_eq_error blank))
  rcases cases_of_bind_eq_error h with unread | ⟨box, _, h⟩
  · obtain rfl := BoundingBox.read_eq_error unread
    exact .inl rfl
  rcases cases_of_bind_eq_error h with invalid | ⟨_, _, h⟩
  · exact .inl (BoundingBox.validate_eq_error invalid)
  rcases cases_of_bind_eq_error h with blank | ⟨area, _, h⟩
  · exact .inr (.inr (Given.eq_of_get_eq_error blank))
  cases maxNodes with
  | value most => exact .inl (Store.mapOf_eq_error hs h)
  | blank =>
    dsimp only at h
    split at h
    · cases h
      exact .inr (.inr rfl)
    · exact .inl (Store.mapOf_eq_error hs h)

theorem select_eq_error {store : Store} (hs : store.WellFormed) {command : Command}
    (nonneg : command.DepthNonneg) {cause : Error} (h : command.select store = .error cause) :
    cause.isRequestError = true ∨ cause.IsBlank := by
  cases command with
  | load => cases h
  | full relation maxDepth =>
    unfold Command.select at h
    rcases cases_of_bind_eq_error h with blank | ⟨id, _, h⟩
    · exact .inr (.inr (Given.eq_of_get_eq_error blank))
    rcases cases_of_bind_eq_error h with blank | ⟨depth, given, h⟩
    · exact .inr (.inr (Given.eq_of_get_eq_error blank))
    have deep : ∀ most, (if depth = 0 then none else some depth) = some most → 1 ≤ most := by
      intro most same
      cases maxDepth <;> cases given
      have := nonneg _ depth rfl
      split at same <;> cases same
      omega
    exact .inl (Store.expand_eq_error hs deep h)
  | map box maxArea maxNodes => exact selectMap_eq_error hs h

end MapExtract.CommandLine
