import Mathlib.Data.List.Perm.Basic
import MapExtract.Error

set_option autoImplicit false
namespace MapExtract

variable {α β σ : Type}

theorem exists_of_bind_eq_ok {ε : Type} {x : Except ε α} {f : α → Except ε β} {b : β}
    (h : (x >>= f) = .ok b) : ∃ a, x = .ok a ∧ f a = .ok b := by
  cases x with
  | error cause => cases h
  | ok a => exact ⟨a, rfl, h⟩

theorem cases_of_bind_eq_error {ε : Type} {x : Except ε α} {f : α → Except ε β} {cause : ε}
    (h : (x >>= f) = .error cause) : x = .error cause ∨ ∃ a, x = .ok a ∧ f a = .error cause := by
  cases x with
  | error own =>
    cases h
    exact .inl rfl
  | ok a => exact .inr ⟨a, rfl, h⟩

theorem forM_eq_ok_iff (f : α → Except Error Unit) (xs : List α) :
    xs.forM f = .ok () ↔ ∀ x ∈ xs, f x = .ok () := by
  induction xs with
  | nil => exact iff_of_true rfl fun x hx => by cases hx
  | cons x xs ih =>
    rw [List.forall_mem_cons, ← ih]
    change ((f x).bind fun _ => xs.forM f) = _ ↔ _
    cases f x <;> simp [Except.bind]

theorem mapM_eq_ok_iff (f : α → Except Error β) (xs : List α) (ys : List β) :
    xs.mapM f = .ok ys ↔ List.Forall₂ (fun x y => f x = .ok y) xs ys := by
  induction xs generalizing ys with
  | nil => cases ys <;> simp [pure, Except.pure]
  | cons x xs ih =>
    rw [List.mapM_cons, List.forall₂_cons_left_iff]
    simp only [← ih]
    cases f x with
    | error cause => simp [bind, Except.bind]
    | ok y => cases xs.mapM f <;> simp [bind, Except.bind, pure, Except.pure, eq_comm]

theorem mapM_eq_ok_map {f : α → Except Error β} {g : α → β} {xs : List α}
    (h : ∀ x ∈ xs, f x = .ok (g x)) : xs.mapM f = .ok (xs.map g) := by
  rw [mapM_eq_ok_iff, List.forall₂_map_right_iff, List.forall₂_same]
  exact h

theorem mapM_isOk_iff (f : α → Except Error β) (xs : List α) :
    (∃ ys, xs.mapM f = .ok ys) ↔ ∀ x ∈ xs, ∃ y, f x = .ok y := by
  simp only [mapM_eq_ok_iff]
  induction xs with
  | nil => exact iff_of_true ⟨[], .nil⟩ fun x hx => by cases hx
  | cons x xs ih =>
    simp only [List.forall₂_cons_left_iff, List.forall_mem_cons, ← ih]
    constructor
    · rintro ⟨_, y, ys, hy, hys, rfl⟩
      exact ⟨⟨y, hy⟩, ys, hys⟩
    · rintro ⟨⟨y, hy⟩, ys, hys⟩
      exact ⟨y :: ys, y, ys, hy, hys, rfl⟩

theorem mem_of_mapM_eq_ok {f : α → Except Error β} {xs : List α} {ys : List β}
    (h : xs.mapM f = .ok ys) (y : β) : y ∈ ys ↔ ∃ x ∈ xs, f x = .ok y := by
  rw [mapM_eq_ok_iff] at h
  induction h with
  | nil => simp
  | cons head _ ih => simp [ih, head, eq_comm]

theorem perm_of_mapM_eq_ok {f : α → Except Error β} {xs us : List α} {ys vs : List β}
    (hx : xs.mapM f = .ok ys) (hu : us.mapM f = .ok vs) (h : xs.Perm us) : ys.Perm vs := by
  obtain ⟨zs, hz, perm⟩ := List.perm_comp_forall₂ h ((mapM_eq_ok_iff f us vs).mp hu)
  rw [← mapM_eq_ok_iff, hx] at hz
  cases hz
  exact perm

theorem exists_perm_mapM_eq_ok {f : α → Except Error β} {xs : List α} {ys vs : List β}
    (h : xs.mapM f = .ok ys) (perm : vs.Perm ys) : ∃ us : List α, us.Perm xs ∧ us.mapM f = .ok vs := by
  obtain ⟨us, hu, perm⟩ := List.perm_comp_forall₂ perm ((mapM_eq_ok_iff f xs ys).mp h).flip
  exact ⟨us, perm, (mapM_eq_ok_iff f us vs).mpr hu.flip⟩

theorem foldlM_isOk {f : σ → α → Except Error σ} {xs : List α}
    (h : ∀ x ∈ xs, ∀ s, ∃ t, f s x = .ok t) (s : σ) : ∃ t, xs.foldlM f s = .ok t := by
  induction xs generalizing s with
  | nil => exact ⟨s, rfl⟩
  | cons x xs ih =>
    obtain ⟨next, hn⟩ := h x List.mem_cons_self s
    obtain ⟨last, hl⟩ := ih (fun y hy => h y (List.mem_cons_of_mem _ hy)) next
    exact ⟨last, by rw [List.foldlM_cons, hn]; exact hl⟩

theorem exists_next_of_foldlM {f : σ → α → Except Error σ} {x : α} {xs : List α} {s t : σ}
    (h : (x :: xs).foldlM f s = .ok t) : ∃ next, f s x = .ok next ∧ xs.foldlM f next = .ok t := by
  rw [List.foldlM_cons] at h
  cases hn : f s x with
  | error cause =>
    rw [hn] at h
    cases h
  | ok next =>
    rw [hn] at h
    exact ⟨next, rfl, h⟩

/-- What every step that succeeds preserves, of the elements so far and the state, a traversal does. -/
theorem foldlM_invariant {f : σ → α → Except Error σ} {I : List α → σ → Prop}
    (step : ∀ done s t x, I done s → f s x = .ok t → I (done ++ [x]) t) {xs : List α} {s t : σ}
    (hs : I [] s) (h : xs.foldlM f s = .ok t) : I xs t := by
  have onward : ∀ rest done s, I done s → rest.foldlM f s = .ok t → I (done ++ rest) t := by
    intro rest
    induction rest with
    | nil =>
      intro done s hs h
      cases h
      rwa [List.append_nil]
    | cons x rest ih =>
      intro done s hs h
      obtain ⟨next, hn, h⟩ := exists_next_of_foldlM h
      rw [List.append_cons]
      exact ih (done ++ [x]) next (step done s next x hs hn) h
  exact onward xs [] s hs h

/-- If every step that succeeds appends a part to what is held, all parts are held at the end. -/
theorem foldlM_collects {f : σ → α → Except Error σ} {held : σ → List β} {part : α → List β}
    (step : ∀ s t x, f s x = .ok t → held t = held s ++ part x) {xs : List α} {s t : σ}
    (h : xs.foldlM f s = .ok t) : held t = held s ++ xs.flatMap part := by
  refine foldlM_invariant (I := fun done u => held u = held s ++ done.flatMap part) ?_
    (List.append_nil _).symm h
  intro done u v x hu hv
  rw [step u v x hv, hu, List.append_assoc, List.flatMap_append, List.flatMap_singleton]

end MapExtract
