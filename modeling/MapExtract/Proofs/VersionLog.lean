import Mathlib.Data.List.Induction
import MapExtract.Proofs.StoreStates

/-!
Of the elements that are offered to it, a store keeps those whose version is greater than every
version of the same key before, nodes that get no tile included. Every look-up answers from this
log.
-/

set_option autoImplicit false
namespace MapExtract.Store
open Element (Kind Key)

def withKey (k : Key) (es : List Element) : List Element := es.filter fun e => e.key = k

/-- The elements whose version is greater than the versions of all elements before them. -/
def records (es : List Element) : List Element :=
  (es.zipIdx.filter fun (e, i) => (es.take i).all fun a => a.version < e.version).map Prod.fst

def firstKeys (es : List Element) : List Key := (es.map Element.key).eraseDups

theorem mem_withKey {k : Key} {es : List Element} {e : Element} :
    e ∈ withKey k es ↔ e ∈ es ∧ e.key = k := by
  rw [withKey, List.mem_filter, decide_eq_true_eq]

theorem withKey_concat (k : Key) (es : List Element) (e : Element) :
    withKey k (es ++ [e]) = withKey k es ++ if e.key = k then [e] else [] := by
  unfold withKey
  rw [List.filter_append]
  by_cases h : e.key = k <;> simp [h]

theorem records_concat (es : List Element) (e : Element) : records (es ++ [e]) =
    records es ++ if es.all (fun a => a.version < e.version) then [e] else [] := by
  have before : ∀ p ∈ es.zipIdx, ((es ++ [e]).take p.2).all (fun a => a.version < p.1.version) =
      (es.take p.2).all (fun a => a.version < p.1.version) := by
    intro p hp
    obtain ⟨_, short, _⟩ := List.mem_zipIdx (x := p.1) (i := p.2) hp
    rw [List.take_append_of_le_length (by omega)]
  unfold records
  rw [List.zipIdx_append, List.filter_append, List.map_append, List.filter_congr before]
  congr 1
  simp only [List.zipIdx_singleton, Nat.zero_add, List.filter_singleton, List.take_left]
  cases es.all fun a => a.version < e.version <;> rfl

theorem records_sublist (es : List Element) : (records es).Sublist es := by
  have all : (es.zipIdx.map Prod.fst) = es := List.zipIdx_map_fst ..
  conv_rhs => rw [← all]
  exact List.filter_sublist.map _

theorem exists_record {es : List Element} {a : Element} (ha : a ∈ es) :
    ∃ r ∈ records es, a.version ≤ r.version := by
  induction es using List.reverseRecOn generalizing a with
  | nil => cases ha
  | append_singleton es e ih =>
    rw [records_concat]
    rcases List.mem_append.mp ha with ha | ha
    · obtain ⟨r, hr, le⟩ := ih ha
      exact ⟨r, List.mem_append_left _ hr, le⟩
    · obtain rfl := List.mem_singleton.mp ha
      by_cases high : es.all (fun b => b.version < a.version) = true
      · exact ⟨a, by simp [high], Int.le_refl _⟩
      · simp only [List.all_eq_true, decide_eq_true_eq] at high
        push Not at high
        obtain ⟨b, hb, above⟩ := high
        obtain ⟨r, hr, le⟩ := ih hb
        exact ⟨r, List.mem_append_left _ hr, by omega⟩

theorem records_eq_nil_iff (es : List Element) : records es = [] ↔ es = [] := by
  constructor
  · intro none
    rw [List.eq_nil_iff_forall_not_mem]
    intro a ha
    obtain ⟨r, hr, _⟩ := exists_record ha
    rw [none] at hr
    cases hr
  · rintro rfl
    rfl

theorem all_lt_of_follows {es : List Element} {e : Element} {h : History} (hh : h = records es)
    (ascending : h.Pairwise fun a b => a.version < b.version)
    (follows : ∀ last, h.getLast? = some last → last.version < e.version) :
    es.all (fun a => a.version < e.version) = true := by
  rw [List.all_eq_true]
  intro a ha
  obtain ⟨r, hr, le⟩ := exists_record ha
  rw [← hh] at hr
  obtain ⟨last, hl⟩ := Option.ne_none_iff_exists'.mp fun none =>
    List.ne_nil_of_mem hr (List.getLast?_eq_none_iff.mp none)
  have top := version_le_last hl ascending r hr
  exact decide_eq_true (by have := follows last hl; omega)

theorem history_offered (es : List Element) (k : Key) :
    (offered es).history k = records (withKey k es) := by
  -- The store refuses an element exactly if it is no record among those before it.
  induction es using List.reverseRecOn generalizing k with
  | nil => rfl
  | append_singleton es e ih =>
    have ascending := (offered_reachable es).wellFormed.ascending e.key
    rw [offered_concat, withKey_concat]
    rcases (offered es).add_cases e with ⟨last, hl, low, eq⟩ | ⟨follows, eq⟩
    · rw [eq, ih k]
      by_cases own : e.key = k
      · subst own
        have refused : ¬(withKey e.key es).all (fun a => a.version < e.version) = true := by
          intro high
          have kept : last ∈ withKey e.key es := by
            refine (records_sublist _).subset ?_
            rw [← ih]
            exact List.mem_of_getLast? hl
          have := of_decide_eq_true (List.all_eq_true.mp high last kept)
          omega
        rw [if_pos rfl, records_concat, if_neg refused, List.append_nil]
      · rw [if_neg own, List.append_nil]
    · rw [eq, history_append, ih k]
      by_cases own : e.key = k
      · subst own
        have high := all_lt_of_follows (ih e.key) ascending follows
        rw [if_pos rfl, if_pos rfl, records_concat, if_pos high]
      · rw [if_neg own, if_neg (Ne.symm own), List.append_nil]

theorem keys_appendIn (k : Key) (e : Element) (hs : List (Key × History)) :
    (appendIn k e hs).map (·.1) =
      if k ∈ hs.map (·.1) then hs.map (·.1) else hs.map (·.1) ++ [k] := by
  induction hs with
  | nil => rfl
  | cons head rest ih =>
    obtain ⟨a, h⟩ := head
    unfold appendIn
    by_cases same : a = k
    · simp [same]
    · rw [if_neg same, List.map_cons, List.map_cons, ih]
      by_cases known : k ∈ rest.map (·.1)
      · rw [if_pos known, if_pos (List.mem_cons_of_mem _ known)]
      · have new : k ∉ a :: rest.map (·.1) := List.not_mem_cons_of_ne_of_not_mem (Ne.symm same) known
        rw [if_neg known, if_neg new, List.cons_append]

theorem mem_keys_iff {s : Store} (hs : s.WellFormed) (k : Key) :
    k ∈ s.histories.map (·.1) ↔ s.history k ≠ [] := by
  constructor
  · intro hk
    obtain ⟨⟨a, h⟩, hm, rfl⟩ := List.mem_map.mp hk
    unfold history
    rw [historyIn_of_mem hs.distinct hm]
    exact hs.nonempty a h hm
  · intro some
    exact List.mem_map.mpr ⟨_, mem_of_historyIn_ne_nil some, rfl⟩

theorem firstKeys_concat (es : List Element) (e : Element) : firstKeys (es ++ [e]) =
    if e.key ∈ firstKeys es then firstKeys es else firstKeys es ++ [e.key] := by
  unfold firstKeys
  rw [List.map_append, List.eraseDups_append, List.map_singleton, List.removeAll]
  by_cases known : e.key ∈ es.map Element.key
  · rw [List.filter_cons_of_neg (by simpa using known), if_pos (List.mem_eraseDups.mpr known)]
    exact List.append_nil _
  · rw [List.filter_cons_of_pos (by simpa using known), if_neg fun h => known (List.mem_eraseDups.mp h)]
    rfl

theorem keys_offered (es : List Element) : (offered es).histories.map (·.1) = firstKeys es := by
  induction es using List.reverseRecOn with
  | nil => rfl
  | append_singleton es e ih =>
    rw [offered_concat, firstKeys_concat, ← ih]
    rcases (offered es).add_cases e with ⟨last, hl, _, eq⟩ | ⟨_, eq⟩
    · have known : e.key ∈ (offered es).histories.map (·.1) := by
        rw [mem_keys_iff (offered_reachable es).wellFormed]
        intro none
        rw [current?, none] at hl
        cases hl
      rw [eq, if_pos known]
    · rw [eq, append_histories, keys_appendIn]

theorem current_eq_get {s : Store} (hs : s.WellFormed) (kind : Kind) :
    (s.current kind).map Except.ok =
      ((s.histories.map (·.1)).filter fun k => k.1 = kind).map s.get := by
  have leads : ∀ p ∈ s.histories, p.2.getLast?.map Except.ok = some (s.get p.1) := by
    intro p hp
    obtain ⟨last, hl⟩ := Option.ne_none_iff_exists'.mp fun none =>
      hs.nonempty p.1 p.2 hp (List.getLast?_eq_none_iff.mp none)
    have found : s.current? p.1 = some last := by
      unfold current? history
      rw [historyIn_of_mem hs.distinct hp]
      exact hl
    rw [hl, get, found]
    rfl
  unfold current
  rw [List.map_filterMap, List.filter_map, List.map_map]
  rw [List.filterMap_congr fun p hp => leads p (List.mem_of_mem_filter hp)]
  exact congrFun List.filterMap_eq_map _

theorem eq_of_version_eq {h : History} (ascending : h.Pairwise fun a b => a.version < b.version)
    {a b : Element} (ha : a ∈ h) (hb : b ∈ h) (same : a.version = b.version) : a = b := by
  have distinct : (h.map Element.version).Nodup :=
    List.pairwise_map.mpr (ascending.imp fun lt => Int.ne_of_lt lt)
  exact List.inj_on_of_nodup_map distinct ha hb same

theorem get_eq_ok_iff {s : Store} (hs : s.WellFormed) (k : Key) (e : Element) :
    s.get k = .ok e ↔ e ∈ s.history k ∧ ∀ a ∈ s.history k, a.version ≤ e.version := by
  unfold get current?
  cases hl : (s.history k).getLast? with
  | none =>
    rw [List.getLast?_eq_none_iff.mp hl]
    simp
  | some last =>
    have member := List.mem_of_getLast? hl
    have top := version_le_last hl (hs.ascending k)
    simp only [Except.ok.injEq]
    constructor
    · rintro rfl
      exact ⟨member, top⟩
    · rintro ⟨he, greatest⟩
      exact eq_of_version_eq (hs.ascending k) member he (Int.le_antisymm (greatest last member) (top e he))

theorem get_eq_error_iff (s : Store) (k : Key) (cause : Error) :
    s.get k = .error cause ↔ s.history k = [] ∧ cause = .notFound k.1 k.2 := by
  unfold get current?
  cases hl : (s.history k).getLast? with
  | none => simp [List.getLast?_eq_none_iff.mp hl, eq_comm]
  | some last => simp [List.ne_nil_of_mem (List.mem_of_getLast? hl)]

theorem getHistory_eq (s : Store) (k : Key) : s.getHistory k =
    if s.history k = [] then .error (.notFound k.1 k.2) else .ok (s.history k) := by
  unfold getHistory
  cases s.history k <;> rfl

theorem getVersion_eq_ok_iff {s : Store} (hs : s.WellFormed) (k : Key) (v : Int) (e : Element) :
    s.getVersion k v = .ok e ↔ e ∈ s.history k ∧ e.version = v := by
  unfold getVersion
  cases hf : (s.history k).find? (·.version = v) with
  | none =>
    have absent := List.find?_eq_none.mp hf
    simp only [reduceCtorEq, false_iff]
    rintro ⟨he, own⟩
    exact absent e he (decide_eq_true own)
  | some found =>
    have member := List.mem_of_find?_eq_some hf
    have own := List.find?_some hf
    simp only [decide_eq_true_eq] at own
    simp only [Except.ok.injEq]
    constructor
    · rintro rfl
      exact ⟨member, own⟩
    · rintro ⟨he, same⟩
      exact eq_of_version_eq (hs.ascending k) member he (own.trans same.symm)

theorem getVersion_eq_error_iff (s : Store) (k : Key) (v : Int) (cause : Error) :
    s.getVersion k v = .error cause ↔
      (∀ e ∈ s.history k, e.version ≠ v) ∧ cause = .notFound k.1 k.2 := by
  have absent := @List.find?_eq_none _ (fun e : Element => decide (e.version = v)) (s.history k)
  simp only [decide_eq_true_eq] at absent
  rw [← absent]
  unfold getVersion
  cases (s.history k).find? (·.version = v) <;> simp [eq_comm]

theorem visibility_eq (s : Store) (k : Key) : s.visibility k = match s.get k with
    | .error _ => .nonExistent
    | .ok e => if e.visible then .exists else .deleted := by
  unfold visibility get
  cases s.current? k <;> rfl

theorem visibility_eq_nonExistent_iff (s : Store) (k : Key) :
    s.visibility k = .nonExistent ↔ s.history k = [] := by
  rw [visibility_eq]
  cases hg : s.get k with
  | error cause => exact iff_of_true rfl ((get_eq_error_iff s k cause).mp hg).1
  | ok e =>
    have some : s.history k ≠ [] := fun none => by
      rw [(get_eq_error_iff s k _).mpr ⟨none, rfl⟩] at hg
      cases hg
    refine iff_of_false ?_ some
    dsimp only
    split <;> simp

structure Logs (s : Store) (es : List Element) : Prop where
  history : ∀ k, s.getHistory k =
    if withKey k es = [] then .error (.notFound k.1 k.2) else .ok (records (withKey k es))
  get : ∀ k e, s.get k = .ok e ↔
    e ∈ records (withKey k es) ∧ ∀ a ∈ withKey k es, a.version ≤ e.version
  missing : ∀ k cause, s.get k = .error cause ↔ withKey k es = [] ∧ cause = .notFound k.1 k.2
  version : ∀ k v e, s.getVersion k v = .ok e ↔ e ∈ records (withKey k es) ∧ e.version = v
  noVersion : ∀ k v cause, s.getVersion k v = .error cause ↔
    (∀ e ∈ records (withKey k es), e.version ≠ v) ∧ cause = .notFound k.1 k.2
  unknown : ∀ k, s.visibility k = .nonExistent ↔ withKey k es = []
  known : ∀ k e, s.get k = .ok e → s.visibility k = if e.visible then .exists else .deleted
  current : ∀ kind, (s.current kind).map Except.ok =
    ((firstKeys es).filter fun k => k.1 = kind).map s.get
  size : s.size = (firstKeys es).length

theorem records_greatest_iff (es : List Element) (e : Element) :
    (∀ a ∈ records es, a.version ≤ e.version) ↔ ∀ a ∈ es, a.version ≤ e.version := by
  constructor
  · intro greatest a ha
    obtain ⟨r, hr, le⟩ := exists_record ha
    exact Int.le_trans le (greatest r hr)
  · intro greatest a ha
    exact greatest a ((records_sublist es).subset ha)

/-- Whatever is offered to an empty store, refused or not, its history of a key holds the elements
of that key whose version was greater than all before, and the other look-ups agree with these
histories. -/
theorem offered_logs (es : List Element) : (offered es).Logs es where
  history k := by
    rw [getHistory_eq, history_offered]
    simp only [records_eq_nil_iff]
  get k e := by
    rw [get_eq_ok_iff (offered_reachable es).wellFormed, history_offered, records_greatest_iff]
  missing k cause := by rw [get_eq_error_iff, history_offered, records_eq_nil_iff]
  version k v e := by rw [getVersion_eq_ok_iff (offered_reachable es).wellFormed, history_offered]
  noVersion k v cause := by rw [getVersion_eq_error_iff, history_offered]
  unknown k := by rw [visibility_eq_nonExistent_iff, history_offered, records_eq_nil_iff]
  known k e he := by rw [visibility_eq, he]
  current kind := by rw [current_eq_get (offered_reachable es).wellFormed, keys_offered]
  size := by rw [size, ← keys_offered, List.length_map]

end MapExtract.Store
