import MapExtract.Proofs.TableMerge
import MapExtract.Proofs.TileOrder
import MapExtract.Summary.Batched

set_option autoImplicit false
namespace MapExtract

theorem earlier_trans {a b c : Option Int} (h : earlier a b = true) (h' : earlier b c = true) :
    earlier a c = true := by
  cases a <;> cases b <;> cases c <;> simp only [earlier, decide_eq_true_eq] at *
  all_goals first | omega | contradiction

theorem not_earlier_trans {a b c : Option Int} (h : ¬earlier a b = true) (h' : ¬earlier b c = true) :
    ¬earlier a c = true := by
  cases a <;> cases b <;> cases c <;> simp only [earlier, decide_eq_true_eq] at *
  all_goals first | omega | contradiction

namespace User

theorem seen_some (i : Info) (u : User) : seen i (some u) = u.join (seen i none) := rfl

theorem join_assoc (a b c : User) : (a.join b).join c = a.join (b.join c) := by
  by_cases second : earlier b.firstSeen a.firstSeen = true
  · by_cases third : earlier c.firstSeen b.firstSeen = true
    · have last := earlier_trans third second
      simp [join, second, third, last]
    · simp [join, second, third]
  · by_cases third : earlier c.firstSeen b.firstSeen = true
    · simp [join, second, third]
    · have last := not_earlier_trans third second
      simp [join, second, third, last]

end User

namespace Changeset

/-- The span has both ends or none, and they are in order. -/
def Sound (c : Changeset) : Prop :=
  match c.earliest, c.latest with
  | none, none => True
  | some a, some b => a ≤ b
  | _, _ => False

theorem join_eq (a b : Changeset) : a.join b = {
    id := a.id
    owner := a.owner
    earliest := leastTime a.earliest (leastTime b.earliest b.latest)
    latest := greatestTime a.latest (greatestTime b.earliest b.latest)
    changes := a.changes + b.changes } := by
  simp only [join, widen, leastTime_assoc, greatestTime_assoc]

theorem Sound.least {c : Changeset} (h : c.Sound) : leastTime c.earliest c.latest = c.earliest := by
  unfold Sound at h
  cases he : c.earliest <;> cases hl : c.latest <;> simp only [he, hl] at h
  · rfl
  · simp only [leastTime, Int.min_eq_left h]

theorem Sound.greatest {c : Changeset} (h : c.Sound) : greatestTime c.earliest c.latest = c.latest := by
  unfold Sound at h
  cases he : c.earliest <;> cases hl : c.latest <;> simp only [he, hl] at h
  · rfl
  · simp only [greatestTime, Int.max_eq_right h]

/-- Joining another record keeps a span sound, even if that of the other is not. -/
theorem Sound.join {a : Changeset} (h : a.Sound) (b : Changeset) : (a.join b).Sound := by
  unfold Sound at h
  rw [join_eq, Sound]
  cases ha : a.earliest <;> cases ha' : a.latest <;> simp only [ha, ha'] at h
  all_goals cases b.earliest <;> cases b.latest <;> simp only [leastTime, greatestTime] <;> omega

theorem join_assoc {b : Changeset} (hb : b.Sound) (a c : Changeset) :
    (a.join b).join c = a.join (b.join c) := by
  rw [join_eq a (b.join c), (hb.join c).least, (hb.join c).greatest, join_eq (a.join b) c, join_eq a b,
    join_eq b c, hb.least, hb.greatest]
  simp only [leastTime_assoc, greatestTime_assoc, Int.add_assoc]

/-- Of a span whose ends are not in order one end is lost when the later record is joined first. -/
example : let span (a b : Int) : Changeset := ⟨1, .anonymous, some a, some b, 1⟩
    ((span 9 9).join (span 5 3)).join (span 4 4) ≠ (span 9 9).join ((span 5 3).join (span 4 4)) := by
  decide

theorem edited_sound (id : Int) (i : Info) : (edited id i none).Sound := by
  cases h : i.timestamp <;> simp [edited, opened, widen, Sound, leastTime, greatestTime, h]

theorem edited_some (id : Int) (i : Info) (c : Changeset) :
    edited id i (some c) = c.join (edited id i none) := by
  rw [join_eq, (edited_sound id i).least, (edited_sound id i).greatest]
  cases h : i.timestamp <;> simp [edited, opened, widen, leastTime, greatestTime, h]

end Changeset

namespace Summary

def Sound (s : Summary) : Prop := ∀ id c, s.changesets.get? id = some c → c.Sound

theorem empty_sound : empty.Sound := by
  intro id c h
  rw [show empty.changesets.get? id = none from Table.get?_empty id] at h
  cases h

theorem Sound.merge {a b : Summary} (ha : a.Sound) (hb : b.Sound) : (a.merge b).Sound := by
  intro id c h
  change (a.changesets.merge Changeset.join b.changesets).get? id = some c at h
  rw [Table.get?_merge] at h
  cases h1 : a.changesets.get? id with
  | none =>
    rw [h1, Option.merge_none_left] at h
    exact hb id c h
  | some first =>
    rw [h1] at h
    cases h2 : b.changesets.get? id with
    | none =>
      rw [h2] at h
      cases h
      exact ha id c h1
    | some second =>
      rw [h2] at h
      cases h
      exact (ha id first h1).join second

theorem merge_empty (a : Summary) : a.merge empty = a := by
  obtain ⟨users, changesets, tagged, counts⟩ := a
  simp only [merge, empty, Table.merge_empty, List.append_nil, Counts.add_zero]

theorem empty_merge (a : Summary) : empty.merge a = a := by
  obtain ⟨users, changesets, tagged, counts⟩ := a
  simp only [merge, empty, Table.empty_merge, List.nil_append, Counts.zero_add]

theorem merge_assoc {b : Summary} (hb : b.Sound) (a c : Summary) :
    (a.merge b).merge c = a.merge (b.merge c) := by
  have users := Table.merge_assoc (t := b.users) (fun _ u _ x y => User.join_assoc x u y)
    a.users c.users
  have changesets := Table.merge_assoc (t := b.changesets)
    (fun id d hd => Changeset.join_assoc (hb id d hd)) a.changesets c.changesets
  simp only [merge, users, changesets, List.append_assoc, Counts.add_assoc]

def single (e placed : Element) : Summary := (empty.count e).tag placed

theorem single_sound (e placed : Element) : (single e placed).Sound := by
  intro id c h
  change (empty.count e).changesets.get? id = some c at h
  unfold count at h
  cases hc : e.info.changeset with
  | none =>
    simp only [hc] at h
    exact empty_sound id c h
  | some own =>
    simp only [hc, Table.get?_alter] at h
    split at h
    · cases h
      exact Changeset.edited_sound own e.info
    · exact empty_sound id c h

theorem count_tag_eq_merge (s : Summary) (e placed : Element) :
    (s.count e).tag placed = s.merge (single e placed) := by
  have users := Table.alter_eq_merge (User.seen_some e.info) s.users e.info.userKey
  have tagged : ([] : List Node) ++ placed.node?.toList = placed.node?.toList := List.nil_append _
  cases hc : e.info.changeset with
  | none =>
    simp only [single, tag, count, merge, hc, users, empty, Table.merge_empty, Counts.zero_add, tagged]
  | some id =>
    have changesets := Table.alter_eq_merge (Changeset.edited_some id e.info) s.changesets id
    simp only [single, tag, count, merge, hc, users, changesets, empty, Counts.zero_add, tagged]

def after (s : Summary) (es : List Element) : Except Error Summary :=
  es.foldlM (fun s e => (s.offer e).2.map fun _ => (s.offer e).1) s

theorem after_cons (s : Summary) (e : Element) (es : List Element) :
    s.after (e :: es) = e.located.bind fun placed => (s.merge (single e placed)).after es := by
  unfold after
  rw [List.foldlM_cons]
  unfold offer
  cases e.located with
  | error cause => rfl
  | ok placed => exact congrArg (List.foldlM _ · es) (count_tag_eq_merge s e placed)

theorem after_append (s : Summary) (xs ys : List Element) :
    s.after (xs ++ ys) = (s.after xs).bind fun t => t.after ys := by
  unfold after
  rw [List.foldlM_append]
  rfl

/-- What was summarised before may be merged before or after more elements. -/
theorem merge_after (a : Summary) {b : Summary} (hb : b.Sound) (es : List Element) :
    (a.merge b).after es = (b.after es).map a.merge := by
  induction es generalizing b with
  | nil => rfl
  | cons e es ih =>
    rw [after_cons, after_cons]
    cases e.located with
    | error cause => rfl
    | ok placed =>
      change ((a.merge b).merge (single e placed)).after es = _
      rw [merge_assoc hb]
      exact ih (hb.merge (single_sound e placed))

theorem after_eq (a : Summary) (es : List Element) : a.after es = (ofList es).map a.merge := by
  have start := merge_after a empty_sound es
  rw [merge_empty] at start
  exact start

theorem ofList_append (xs ys : List Element) :
    ofList (xs ++ ys) = (ofList xs).bind fun a => (ofList ys).map a.merge := by
  change empty.after (xs ++ ys) = _
  rw [after_append]
  exact congrArg (Except.bind _) (funext fun a => after_eq a ys)

theorem after_flatten (a : Summary) (parts : List (List Element)) :
    a.after parts.flatten = (parts.mapM ofList).map fun summaries => summaries.foldl merge a := by
  induction parts generalizing a with
  | nil => rfl
  | cons part parts ih =>
    rw [List.flatten_cons, after_append, after_eq, List.mapM_cons]
    cases ofList part with
    | error cause => rfl
    | ok b =>
      change (a.merge b).after parts.flatten = _
      rw [ih]
      cases parts.mapM ofList <;> rfl

theorem after_eq_error {s : Summary} {es : List Element} {cause : Error}
    (h : s.after es = .error cause) : cause = .notFinite (.nan false false 0) := by
  induction es generalizing s with
  | nil => cases h
  | cons e es ih =>
    rw [after_cons] at h
    cases hl : e.located with
    | error own =>
      rw [hl] at h
      cases h
      exact Element.located_eq_error hl
    | ok placed =>
      rw [hl] at h
      exact ih h

theorem exists_of_mapM_eq_error {α β : Type} (f : α → Except Error β) {xs : List α} {cause : Error}
    (h : xs.mapM f = .error cause) : ∃ x ∈ xs, f x = .error cause := by
  induction xs with
  | nil => cases h
  | cons x xs ih =>
    rw [List.mapM_cons] at h
    cases hx : f x with
    | error own =>
      rw [hx] at h
      cases h
      exact ⟨x, List.mem_cons_self, hx⟩
    | ok y =>
      rw [hx] at h
      cases hr : xs.mapM f with
      | error own =>
        rw [hr] at h
        cases h
        obtain ⟨z, hz, failed⟩ := ih hr
        exact ⟨z, List.mem_cons_of_mem _ hz, failed⟩
      | ok ys =>
        rw [hr] at h
        cases h

/-- The answers of a pool stand in the order of the batches. If there is a batch without an answer,
the pool fails with what is said of such a batch. -/
structure Pool.Orderly (pool : Pool) : Prop where
  answers : ∀ f batches parts, batches.mapM f = .ok parts → pool f batches = .ok parts
  fails : ∀ f batches cause, batches.mapM f = .error cause →
    ∃ batch ∈ batches, ∃ own, f batch = .error own ∧ pool f batches = .error own

theorem inTurn_orderly : Pool.Orderly inTurn where
  answers _ _ _ h := h
  fails f batches cause h := by
    obtain ⟨batch, hm, failed⟩ := exists_of_mapM_eq_error f h
    exact ⟨batch, hm, cause, failed, h⟩

theorem Pool.Orderly.eq_inTurn {pool : Pool} (orderly : pool.Orderly) (batches : List (List Element)) :
    pool ofList batches = inTurn ofList batches := by
  cases h : inTurn ofList batches with
  | ok parts => exact orderly.answers ofList batches parts h
  | error cause =>
    obtain ⟨batch, _, own, failed, eq⟩ := orderly.fails ofList batches cause h
    have whole : empty.after batches.flatten = .error cause := by
      rw [after_flatten, show batches.mapM ofList = .error cause from h]
      rfl
    have part : empty.after batch = .error own := failed
    rw [eq, after_eq_error part, after_eq_error whole]

theorem ofBatches_eq {pool : Pool} (orderly : pool.Orderly) (processes : Int) {size : Int}
    {es : List Element} (split : batchesOf size es = .ok (batches size.toNat es)) :
    ofBatches pool processes size es =
      ((batches size.toNat es).mapM ofList).map fun parts => parts.foldl merge empty := by
  have answers := orderly.eq_inTurn (batches size.toNat es)
  unfold inTurn at answers
  unfold ofBatches inTurn
  rw [split]
  simp only [bind, Except.bind, answers, ite_self]
  cases (batches size.toNat es).mapM ofList <;> rfl

/-- The summary in batches of any size, by any number of processes, is the summary of all elements,
or fails as that does. The summaries of two lists merge to the summary of one list after the other.
-/
theorem batched_eq_sequential {pool : Pool} (orderly : pool.Orderly) (processes : Int) {size : Int}
    {es : List Element} (hs : 1 ≤ size) (split : batchesOf size es = .ok (batches size.toNat es)) :
    ofBatches pool processes size es = ofList es ∧
      ∀ xs ys a b, ofList xs = .ok a → ofList ys = .ok b → ofList (xs ++ ys) = .ok (a.merge b) := by
  constructor
  · have positive : 0 < size.toNat := by omega
    calc ofBatches pool processes size es
        = ((batches size.toNat es).mapM ofList).map fun parts => parts.foldl merge empty :=
          ofBatches_eq orderly processes split
      _ = empty.after (batches size.toNat es).flatten := (after_flatten empty _).symm
      _ = ofList es := by
          rw [flatten_batches size.toNat positive]
          rfl
  · intro xs ys a b ha hb
    rw [ofList_append, ha, hb]
    rfl

/-- Merging is associative, and a summary of nothing changes nothing. Whatever else the summaries
hold, the spans of their changesets have to be in order, and they still are after a merge. -/
theorem merge_monoid {a b : Summary} (ha : a.Sound) (hb : b.Sound) (c : Summary) :
    (a.merge b).merge c = a.merge (b.merge c) ∧ empty.merge a = a ∧ a.merge empty = a ∧
      (a.merge b).Sound :=
  ⟨merge_assoc hb a c, empty_merge a, merge_empty a, ha.merge hb⟩

private def stray (name : String) (earliest latest : Option Int) : Summary where
  users := Table.empty.insert .anonymous ⟨.user 3, some name, latest⟩
  changesets := Table.empty.insert 1 ⟨2, .user 9, earliest, latest, -4⟩
  tagged := []
  counts := ⟨-1, 0, 5⟩

private theorem stray_sound {name : String} {earliest latest : Option Int}
    (h : Changeset.Sound ⟨2, .user 9, earliest, latest, -4⟩) : (stray name earliest latest).Sound := by
  intro id c hc
  rw [stray, Table.get?_insert] at hc
  split at hc
  · cases hc
    exact h
  · cases hc

theorem merge_monoid_stray :
    let a := stray "late" (some 3) (some 5)
    let b := stray "unknown" none none
    let c := stray "early" (some 2) (some 2)
    a.Sound ∧ b.Sound ∧ (a.merge b).merge c = a.merge (b.merge c) ∧
      ((a.merge b).merge c).changesets.get? 1 = some ⟨2, .user 9, some 2, some 5, -12⟩ := by
  intro a b c
  have ha : a.Sound := stray_sound (show (3 : Int) ≤ 5 by decide)
  have hb : b.Sound := stray_sound trivial
  exact ⟨ha, hb, (merge_monoid ha hb c).1, by decide +kernel⟩

private def edit (id time : Int) (name : String) : Element :=
  .way ⟨id, ⟨1, some time, some 1, some 7, some name, true⟩, none, []⟩

private def edits : List Element := [edit 1 5 "late", edit 2 3 "early", edit 3 3 "as early"]

theorem batched_eq_sequential_renamed : Pool.Orderly inTurn ∧
    (ofBatches inTurn 4 1 edits).map (fun s => s.users.get? (.user 7)) =
      .ok (some ⟨.user 7, some "early", some 3⟩) := by
  refine ⟨inTurn_orderly, ?_⟩
  rw [(batched_eq_sequential inTurn_orderly 4 (by decide) (batchesOf_eq_ok (by decide) (by decide) _)).1]
  decide +kernel

end Summary
end MapExtract
