import Mathlib.Data.List.Forall2
import Mathlib.Data.List.Induction
import MapExtract.Proofs.Loading
import MapExtract.Proofs.SummaryMerge

set_option autoImplicit false
namespace MapExtract

/-- Edits without a positive user number are anonymous, and all others belong to their user. -/
def Info.AuthoredBy (i : Info) : UserKey → Prop
  | .anonymous => ∀ id ∈ i.uid, id ≤ 0
  | .user id => i.uid = some id ∧ 0 < id

instance (i : Info) : (k : UserKey) → Decidable (i.AuthoredBy k)
  | .anonymous => inferInstanceAs (Decidable (∀ id ∈ i.uid, id ≤ 0))
  | .user id => inferInstanceAs (Decidable (i.uid = some id ∧ 0 < id))

theorem Info.authoredBy_iff (i : Info) (k : UserKey) : i.AuthoredBy k ↔ k = i.userKey := by
  unfold userKey UserKey.ofUid
  cases k with
  | anonymous =>
    change (∀ id ∈ i.uid, id ≤ 0) ↔ _
    cases i.uid with
    | none => simp
    | some own =>
      dsimp only
      split <;> simp <;> omega
  | user id =>
    change i.uid = some id ∧ 0 < id ↔ _
    cases i.uid with
    | none => simp
    | some own =>
      dsimp only
      split <;> simp <;> omega

def leastKnown (edits : List Info) : Option Int := (edits.filterMap (·.timestamp)).min?

def greatestKnown (edits : List Info) : Option Int := (edits.filterMap (·.timestamp)).max?

theorem min?_concat (times : List Int) (t : Int) :
    (times ++ [t]).min? = leastTime times.min? (some t) := by
  cases times with
  | nil => rfl
  | cons a rest =>
    rw [List.cons_append, List.min?_cons', List.min?_cons', List.foldl_append]
    rfl

theorem max?_concat (times : List Int) (t : Int) :
    (times ++ [t]).max? = greatestTime times.max? (some t) := by
  cases times with
  | nil => rfl
  | cons a rest =>
    rw [List.cons_append, List.max?_cons', List.max?_cons', List.foldl_append]
    rfl

theorem knownTimes_concat {extreme : List Int → Option Int}
    {join : Option Int → Option Int → Option Int}
    (known : ∀ times t, extreme (times ++ [t]) = join (extreme times) (some t))
    (unknown : ∀ t, join t none = t) (edits : List Info) (i : Info) :
    extreme ((edits ++ [i]).filterMap (·.timestamp)) =
      join (extreme (edits.filterMap (·.timestamp))) i.timestamp := by
  rw [List.filterMap_append]
  cases ht : i.timestamp with
  | none => simp [ht, unknown]
  | some t => simp [ht, known]

theorem leastKnown_concat (edits : List Info) (i : Info) :
    leastKnown (edits ++ [i]) = leastTime (leastKnown edits) i.timestamp :=
  knownTimes_concat min?_concat leastTime_none edits i

theorem greatestKnown_concat (edits : List Info) (i : Info) :
    greatestKnown (edits ++ [i]) = greatestTime (greatestKnown edits) i.timestamp :=
  knownTimes_concat max?_concat greatestTime_none edits i

theorem leastTime_of_earlier {t m : Option Int} (h : earlier t m = true) : leastTime m t = t := by
  cases t with
  | none => cases h
  | some a =>
    cases m with
    | none => rfl
    | some b =>
      have lt : a < b := of_decide_eq_true h
      exact congrArg some (Int.min_eq_right (Int.le_of_lt lt))

theorem leastTime_of_not_earlier {t m : Option Int} (h : ¬earlier t m = true) :
    leastTime m t = m := by
  cases t with
  | none => exact leastTime_none m
  | some a =>
    cases m with
    | none => exact absurd rfl h
    | some b =>
      have le : ¬a < b := fun lt => h (decide_eq_true lt)
      exact congrArg some (Int.min_eq_left (Int.not_lt.mp le))

theorem not_earlier_leastKnown {edits : List Info} {i : Info} (hi : i ∈ edits) :
    ¬earlier i.timestamp (leastKnown edits) = true := by
  cases ht : i.timestamp with
  | none => simp [earlier]
  | some t =>
    have known : t ∈ edits.filterMap (·.timestamp) := List.mem_filterMap.mpr ⟨i, hi, ht⟩
    cases hm : leastKnown edits with
    | none =>
      rw [List.min?_eq_none_iff.mp hm] at known
      cases known
    | some m =>
      have least := (List.min?_eq_some_iff.mp hm).2 t known
      simp only [earlier, decide_eq_true_eq]
      omega

theorem exists_leastKnown {edits : List Info} (h : edits ≠ []) :
    ∃ i, edits.find? (fun i => i.timestamp = leastKnown edits) = some i := by
  rw [← Option.isSome_iff_exists, List.find?_isSome]
  simp only [decide_eq_true_eq]
  cases hm : leastKnown edits with
  | none =>
    obtain ⟨i, hi⟩ := List.exists_mem_of_ne_nil edits h
    refine ⟨i, hi, ?_⟩
    have unknown := not_earlier_leastKnown hi
    rw [hm] at unknown
    cases ht : i.timestamp with
    | none => rfl
    | some t => simp [ht, earlier] at unknown
  | some m => exact List.mem_filterMap.mp (List.min?_eq_some_iff.mp hm).1

def User.ofEdits (k : UserKey) (edits : List Info) : Option User :=
  (edits.find? fun i => i.timestamp = leastKnown edits).map fun i =>
    { key := k
      displayName := if k = .anonymous then none else i.user
      firstSeen := leastKnown edits }

theorem User.ofEdits_concat (edits : List Info) (i : Info) :
    ofEdits i.userKey (edits ++ [i]) = some (seen i (ofEdits i.userKey edits)) := by
  by_cases none : edits = []
  · subst none
    have own : leastKnown ([] ++ [i]) = i.timestamp := leastKnown_concat [] i
    rw [ofEdits, own]
    simp [ofEdits, seen, ofInfo]
  · obtain ⟨first, hf⟩ := exists_leastKnown none
    rw [ofEdits, ofEdits, leastKnown_concat, List.find?_append, hf]
    simp only [Option.map_some, seen]
    -- An edit that is earlier than the least known time is the first of its own time.
    by_cases early : earlier i.timestamp (leastKnown edits) = true
    · have later : edits.find? (fun x => x.timestamp = i.timestamp) = Option.none := by
        rw [List.find?_eq_none]
        intro x hx same
        rw [← of_decide_eq_true same] at early
        exact not_earlier_leastKnown hx early
      rw [if_pos early, leastTime_of_earlier early, later]
      simp [ofInfo]
    · rw [if_neg early, leastTime_of_not_earlier early, hf]
      rfl

def Changeset.ofEdits (id : Int) (edits : List Info) : Option Changeset :=
  edits.head?.map fun first =>
    { id := id
      owner := first.userKey
      earliest := leastKnown edits
      latest := greatestKnown edits
      changes := edits.length }

theorem Changeset.ofEdits_concat (id : Int) (edits : List Info) (i : Info) :
    ofEdits id (edits ++ [i]) = some (edited id i (ofEdits id edits)) := by
  rw [ofEdits, ofEdits, leastKnown_concat, greatestKnown_concat]
  cases edits with
  | nil => rfl
  | cons first rest => simp [edited, widen]

def Node.PlacedAs (n m : Node) : Prop := ∃ tile, n.place = .ok tile ∧ m = { n with tile := some (tile : Int) }

namespace Summary

def offered (es : List Element) : Summary := es.foldl (fun s e => (s.offer e).1) empty

def editsBy (k : UserKey) (es : List Element) : List Info :=
  (es.map Element.info).filter fun i => i.AuthoredBy k

def editsIn (changeset : Int) (es : List Element) : List Info :=
  (es.map Element.info).filter fun i => i.changeset = some changeset

def placeable (es : List Element) : List Node :=
  (es.filterMap Element.node?).filter fun n => n.latitude ≠ .nan ∧ n.longitude ≠ .nan

theorem offered_concat (es : List Element) (e : Element) :
    offered (es ++ [e]) = ((offered es).offer e).1 := List.foldl_concat ..

theorem editsBy_concat (k : UserKey) (es : List Element) (e : Element) : editsBy k (es ++ [e]) =
    if k = e.info.userKey then editsBy k es ++ [e.info] else editsBy k es := by
  unfold editsBy
  rw [List.map_append, List.filter_append]
  by_cases own : k = e.info.userKey <;> simp [Info.authoredBy_iff, own]

theorem editsIn_concat (id : Int) (es : List Element) (e : Element) : editsIn id (es ++ [e]) =
    if e.info.changeset = some id then editsIn id es ++ [e.info] else editsIn id es := by
  unfold editsIn
  rw [List.map_append, List.filter_append]
  by_cases own : e.info.changeset = some id <;> simp [own]

theorem offer_fst (s : Summary) (e : Element) :
    (s.offer e).1 = { s.count e with tagged := (s.offer e).1.tagged } := by
  unfold offer
  cases e.located <;> rfl

theorem users_offered (es : List Element) (k : UserKey) :
    (offered es).users.get? k = User.ofEdits k (editsBy k es) := by
  induction es using List.reverseRecOn with
  | nil => exact Table.get?_empty k
  | append_singleton es e ih =>
    have step : ((offered es).offer e).1.users =
        (offered es).users.alter e.info.userKey (User.seen e.info) := by
      rw [offer_fst]
      rfl
    rw [offered_concat, step, Table.get?_alter, editsBy_concat]
    by_cases own : k = e.info.userKey
    · rw [if_pos own, if_pos own, ← own, ih, own, User.ofEdits_concat]
    · rw [if_neg own, if_neg own, ih]

theorem changesets_offered (es : List Element) (id : Int) :
    (offered es).changesets.get? id = Changeset.ofEdits id (editsIn id es) := by
  induction es using List.reverseRecOn with
  | nil => exact Table.get?_empty id
  | append_singleton es e ih =>
    have step : ((offered es).offer e).1.changesets = ((offered es).count e).changesets := by
      rw [offer_fst]
    rw [offered_concat, step, editsIn_concat]
    unfold count
    cases hc : e.info.changeset with
    | none => exact ih
    | some own =>
      simp only [Table.get?_alter, Option.some.injEq]
      by_cases same : own = id
      · subst same
        rw [if_pos rfl, if_pos rfl, ih, Changeset.ofEdits_concat]
      · rw [if_neg same, if_neg (Ne.symm same), ih]

theorem counts_offered (es : List Element) : (offered es).counts =
    ⟨es.countP (·.kind = .node), es.countP (·.kind = .way), es.countP (·.kind = .relation)⟩ := by
  induction es using List.reverseRecOn with
  | nil => rfl
  | append_singleton es e ih =>
    have step : ((offered es).offer e).1.counts = (offered es).counts.add (.one e.kind) := by
      rw [offer_fst]
      rfl
    rw [offered_concat, step, ih]
    simp only [List.countP_append, List.countP_singleton]
    cases e.kind <;> simp [Counts.add, Counts.one]

theorem placeable_node (n : Node) : placeable [.node n] =
    if n.latitude ≠ .nan ∧ n.longitude ≠ .nan then [n] else [] := by
  change [n].filter _ = _
  by_cases numbers : n.latitude ≠ .nan ∧ n.longitude ≠ .nan <;> simp [numbers]

theorem tagged_offer (s : Summary) (e : Element) : ∃ tags,
    (s.offer e).1.tagged = s.tagged ++ tags ∧ List.Forall₂ Node.PlacedAs (placeable [e]) tags := by
  cases e with
  | node n =>
    unfold offer
    rw [Element.located_node, placeable_node]
    cases hp : n.place with
    | ok tile =>
      refine ⟨[{ n with tile := some (tile : Int) }], rfl, ?_⟩
      rw [if_pos (n.place_isOk_iff.mp ⟨tile, hp⟩)]
      exact .cons ⟨tile, hp, rfl⟩ .nil
    | error cause =>
      have lost : ¬∃ tile, n.place = .ok tile := by simp [hp]
      refine ⟨[], (List.append_nil _).symm, ?_⟩
      rw [if_neg (lost ∘ n.place_isOk_iff.mpr)]
      exact .nil
  | way w => exact ⟨[], rfl, .nil⟩
  | relation r => exact ⟨[], rfl, .nil⟩

theorem tagged_offered (es : List Element) :
    List.Forall₂ Node.PlacedAs (placeable es) (offered es).tagged := by
  induction es using List.reverseRecOn with
  | nil => exact .nil
  | append_singleton es e ih =>
    obtain ⟨tags, more, placed⟩ := tagged_offer (offered es) e
    have split : placeable (es ++ [e]) = placeable es ++ placeable [e] := by
      simp only [placeable, List.filterMap_append, List.filter_append]
    rw [offered_concat, more, split]
    exact List.rel_append ih placed

structure Describes (s : Summary) (es : List Element) : Prop where
  authors : ∀ k, s.users.contains k = true ↔ ∃ e ∈ es, e.info.AuthoredBy k
  users : ∀ k u, s.users.get? k = some u → u.key = k ∧ u.firstSeen = leastKnown (editsBy k es) ∧
    ∃ i, (editsBy k es).find? (fun i => i.timestamp = u.firstSeen) = some i ∧
      u.displayName = if k = .anonymous then none else i.user
  referenced : ∀ id, s.changesets.contains id = true ↔ ∃ e ∈ es, e.info.changeset = some id
  changesets : ∀ id c, s.changesets.get? id = some c → c.id = id ∧
    (∃ i, (editsIn id es).head? = some i ∧ i.AuthoredBy c.owner) ∧
    c.earliest = leastKnown (editsIn id es) ∧ c.latest = greatestKnown (editsIn id es) ∧
    c.changes = (editsIn id es).length
  counts : s.counts =
    ⟨es.countP (·.kind = .node), es.countP (·.kind = .way), es.countP (·.kind = .relation)⟩
  tagged : List.Forall₂ Node.PlacedAs (placeable es) s.tagged

theorem ofEdits_isSome_iff (k : UserKey) (edits : List Info) :
    (User.ofEdits k edits).isSome = true ↔ edits ≠ [] := by
  unfold User.ofEdits
  rw [Option.isSome_map]
  constructor
  · rintro h rfl
    cases h
  · intro h
    exact Option.isSome_iff_exists.mpr (exists_leastKnown h)

theorem editsBy_ne_nil_iff (k : UserKey) (es : List Element) :
    editsBy k es ≠ [] ↔ ∃ e ∈ es, e.info.AuthoredBy k := by
  simp [editsBy]

theorem editsIn_ne_nil_iff (id : Int) (es : List Element) :
    editsIn id es ≠ [] ↔ ∃ e ∈ es, e.info.changeset = some id := by
  simp [editsIn]

theorem describes_offered (es : List Element) : (offered es).Describes es where
  authors k := by
    rw [Table.contains, users_offered, ofEdits_isSome_iff, editsBy_ne_nil_iff]
  users k u h := by
    rw [users_offered] at h
    obtain ⟨i, hi, rfl⟩ := Option.map_eq_some_iff.mp h
    exact ⟨rfl, rfl, i, hi, rfl⟩
  referenced id := by
    rw [Table.contains, changesets_offered, ← editsIn_ne_nil_iff, Changeset.ofEdits, Option.isSome_map]
    exact List.isSome_head?
  changesets id c h := by
    rw [changesets_offered] at h
    obtain ⟨i, hi, rfl⟩ := Option.map_eq_some_iff.mp h
    exact ⟨rfl, ⟨i, hi, (i.authoredBy_iff _).mpr rfl⟩, rfl, rfl, rfl⟩
  counts := counts_offered es
  tagged := tagged_offered es

theorem after_eq_foldl (s : Summary) (es : List Element) : s.after es =
    if ∀ e ∈ es, e.HasPlace then .ok (es.foldl (fun s e => (s.offer e).1) s)
    else .error (.notFinite (.nan false false 0)) := by
  induction es generalizing s with
  | nil => rfl
  | cons e es ih =>
    have step : s.after (e :: es) = (e.located.map fun _ => (s.offer e).1).bind fun t => t.after es := by
      rw [← Store.offer_snd s e]
      rfl
    have place := e.located_isOk_iff
    rw [step]
    cases hl : e.located with
    | error cause =>
      have lost : ¬e.HasPlace := by
        rw [← place, hl]
        simp
      rw [if_neg fun all => lost (all e List.mem_cons_self), Element.located_eq_error hl]
      rfl
    | ok placed =>
      have found : e.HasPlace := place.mp ⟨placed, hl⟩
      simp only [List.forall_mem_cons, found, true_and, List.foldl_cons]
      exact ih _

theorem ofList_eq_ite (es : List Element) : ofList es =
    if ∀ e ∈ es, e.HasPlace then .ok (offered es) else .error (.notFinite (.nan false false 0)) :=
  after_eq_foldl empty es

/-- The records that come about one element at a time are what the definitions say of all elements
together, with those that fail for their coordinates. -/
theorem offered_contents (es : List Element) : (offered es).Describes es ∧
    ofList es = if ∀ e ∈ es, e.HasPlace then .ok (offered es)
      else .error (.notFinite (.nan false false 0)) :=
  ⟨describes_offered es, after_eq_foldl empty es⟩

end Summary
end MapExtract
