import MapExtract.Proofs.SummaryContents

set_option autoImplicit false
namespace MapExtract

theorem eq_nil_iff_of_perm {edits edits' : List Info} (h : edits.Perm edits') :
    edits = [] ↔ edits' = [] := by
  rw [← List.isEmpty_iff, ← List.isEmpty_iff, h.isEmpty_eq]

theorem leastKnown_perm {edits edits' : List Info} (h : edits.Perm edits') :
    leastKnown edits = leastKnown edits' := by
  have times := h.filterMap Info.timestamp
  apply Option.ext
  intro t
  simp only [leastKnown, List.min?_eq_some_iff, times.mem_iff]

theorem greatestKnown_perm {edits edits' : List Info} (h : edits.Perm edits') :
    greatestKnown edits = greatestKnown edits' := by
  have times := h.filterMap Info.timestamp
  apply Option.ext
  intro t
  simp only [greatestKnown, List.max?_eq_some_iff, times.mem_iff]

/-- All edits at the earliest time carry one name; these are all edits if no time is known. -/
def OneFirstName (edits : List Info) : Prop :=
  ∀ i ∈ edits, ∀ j ∈ edits,
    i.timestamp = leastKnown edits → j.timestamp = leastKnown edits → i.user = j.user

instance (edits : List Info) : Decidable (OneFirstName edits) :=
  inferInstanceAs (Decidable (∀ i ∈ edits, ∀ j ∈ edits, _ → _ → _))

def OneAuthor (edits : List Info) : Prop := ∀ i ∈ edits, ∀ j ∈ edits, i.userKey = j.userKey

instance (edits : List Info) : Decidable (OneAuthor edits) :=
  inferInstanceAs (Decidable (∀ i ∈ edits, ∀ j ∈ edits, _))

theorem earlier_asymm {a b : Option Int} (h : earlier a b = true) : ¬earlier b a = true := by
  cases a with
  | none => cases h
  | some s =>
    cases b with
    | none => exact Bool.false_ne_true
    | some t =>
      simp only [earlier, decide_eq_true_eq] at *
      omega

theorem eq_of_not_earlier {a b : Option Int} (h : ¬earlier a b = true) (h' : ¬earlier b a = true) :
    a = b := by
  cases a <;> cases b <;> simp only [earlier, decide_eq_true_eq, Option.some.injEq] at *
  all_goals first | omega | contradiction

namespace User

theorem ofEdits_firstSeen (k : UserKey) (edits : List Info) :
    (ofEdits k edits).map firstSeen = if edits = [] then none else some (leastKnown edits) := by
  by_cases none : edits = []
  · subst none
    rfl
  · obtain ⟨i, hi⟩ := exists_leastKnown none
    rw [if_neg none, ofEdits, hi]
    rfl

theorem ofEdits_perm (k : UserKey) {edits edits' : List Info} (h : edits.Perm edits')
    (one : OneFirstName edits) : ofEdits k edits = ofEdits k edits' := by
  by_cases none : edits = []
  · subst none
    rw [h.nil_eq]
  · have none' : edits' ≠ [] := (eq_nil_iff_of_perm h).not.mp none
    obtain ⟨i, hi⟩ := exists_leastKnown none
    obtain ⟨j, hj⟩ := exists_leastKnown none'
    have least := leastKnown_perm h
    have mine : i.timestamp = leastKnown edits := by simpa using List.find?_some hi
    have other : j.timestamp = leastKnown edits := by simpa [least] using List.find?_some hj
    have name := one i (List.mem_of_find?_eq_some hi) j
      (h.mem_iff.mpr (List.mem_of_find?_eq_some hj)) mine other
    rw [ofEdits, ofEdits, hi, hj]
    simp only [Option.map_some, name, least]

/-- Which of two records is joined first matters only for their names, and only if none is earlier. -/
theorem join_comm {u v : User} (keys : u.key = v.key)
    (names : u.firstSeen = v.firstSeen → u.displayName = v.displayName) : u.join v = v.join u := by
  obtain ⟨k, name, seen⟩ := u
  obtain ⟨k', name', seen'⟩ := v
  obtain rfl : k = k' := keys
  by_cases after : earlier seen' seen = true
  · simp [join, after, earlier_asymm after]
  · by_cases before : earlier seen seen' = true
    · simp [join, after, before]
    · obtain rfl : seen = seen' := eq_of_not_earlier before after
      obtain rfl : name = name' := names rfl
      rfl

end User

namespace Changeset

def extent (c : Changeset) : Option Int × Option Int × Int := (c.earliest, c.latest, c.changes)

theorem eq_of_extent {c d : Changeset} (ids : c.id = d.id) (owners : c.owner = d.owner)
    (extents : c.extent = d.extent) : c = d := by
  obtain ⟨id, owner, earliest, latest, changes⟩ := c
  obtain ⟨id', owner', earliest', latest', changes'⟩ := d
  obtain rfl : id = id' := ids
  obtain rfl : owner = owner' := owners
  cases extents
  rfl

theorem ofEdits_extent (id : Int) (edits : List Info) : (ofEdits id edits).map extent =
    if edits = [] then none
    else some (leastKnown edits, greatestKnown edits, (edits.length : Int)) := by
  cases edits <;> rfl

theorem ofEdits_extent_perm (id : Int) {edits edits' : List Info} (h : edits.Perm edits') :
    (ofEdits id edits).map extent = (ofEdits id edits').map extent := by
  simp only [ofEdits_extent, eq_nil_iff_of_perm h, leastKnown_perm h, greatestKnown_perm h,
    h.length_eq]

theorem ofEdits_perm (id : Int) {edits edits' : List Info} (h : edits.Perm edits')
    (one : OneAuthor edits) : ofEdits id edits = ofEdits id edits' := by
  have extents := ofEdits_extent_perm id h
  cases edits with
  | nil => rw [h.nil_eq]
  | cons i rest =>
    cases edits' with
    | nil => cases h.eq_nil
    | cons j rest' =>
      have author := one i List.mem_cons_self j (h.mem_iff.mpr List.mem_cons_self)
      exact congrArg some (eq_of_extent rfl author (Option.some.inj extents))

end Changeset

theorem Node.placedAs_unique : Relator.RightUnique Node.PlacedAs := by
  rintro n m m' ⟨tile, hp, rfl⟩ ⟨tile', hp', rfl⟩
  rw [hp] at hp'
  cases hp'
  rfl

namespace Summary

/-- Two summaries that differ in nothing but the breaking of ties: the records of users and
changesets are equal where the given conditions hold, which exclude a tie. -/
structure SameUpToTies (a b : Summary) (named : UserKey → Prop) (owned : Int → Prop) : Prop where
  firstSeen : ∀ k, (a.users.get? k).map User.firstSeen = (b.users.get? k).map User.firstSeen
  extent : ∀ id,
    (a.changesets.get? id).map Changeset.extent = (b.changesets.get? id).map Changeset.extent
  counts : a.counts = b.counts
  tagged : a.tagged.Perm b.tagged
  users : ∀ k, named k → a.users.get? k = b.users.get? k
  changesets : ∀ id, owned id → a.changesets.get? id = b.changesets.get? id

theorem ofList_eq_ok_iff (es : List Element) (s : Summary) :
    ofList es = .ok s ↔ (∀ e ∈ es, e.HasPlace) ∧ offered es = s := by
  rw [ofList_eq_ite]
  split <;> simp_all

theorem editsBy_perm (k : UserKey) {xs ys : List Element} (h : xs.Perm ys) :
    (editsBy k xs).Perm (editsBy k ys) := (h.map _).filter _

theorem editsIn_perm (id : Int) {xs ys : List Element} (h : xs.Perm ys) :
    (editsIn id xs).Perm (editsIn id ys) := (h.map _).filter _

theorem tagged_offered_perm {xs ys : List Element} (h : xs.Perm ys) :
    (offered xs).tagged.Perm (offered ys).tagged :=
  List.rel_perm_imp Node.placedAs_unique (tagged_offered xs) (tagged_offered ys)
    ((h.filterMap _).filter _)

theorem offered_perm {xs ys : List Element} (h : xs.Perm ys) :
    SameUpToTies (offered xs) (offered ys) (fun k => OneFirstName (editsBy k xs))
      fun id => OneAuthor (editsIn id xs) where
  firstSeen k := by
    have edits := editsBy_perm k h
    simp only [users_offered, User.ofEdits_firstSeen, eq_nil_iff_of_perm edits, leastKnown_perm edits]
  extent id := by
    simp only [changesets_offered]
    exact Changeset.ofEdits_extent_perm id (editsIn_perm id h)
  counts := by simp only [counts_offered, h.countP_eq]
  tagged := tagged_offered_perm h
  users k one := by
    rw [users_offered, users_offered]
    exact User.ofEdits_perm k (editsBy_perm k h) one
  changesets id one := by
    rw [changesets_offered, changesets_offered]
    exact Changeset.ofEdits_perm id (editsIn_perm id h) one

def AgreeOnName (a b : Summary) (k : UserKey) : Prop :=
  ∀ u v, a.users.get? k = some u → b.users.get? k = some v →
    u.firstSeen = v.firstSeen → u.displayName = v.displayName

def AgreeOnOwner (a b : Summary) (id : Int) : Prop :=
  ∀ c d, a.changesets.get? id = some c → b.changesets.get? id = some d → c.owner = d.owner

theorem user_key_of_ofList {es : List Element} {a : Summary} (h : ofList es = .ok a) {k : UserKey}
    {u : User} (hu : a.users.get? k = some u) : u.key = k := by
  obtain ⟨_, rfl⟩ := (ofList_eq_ok_iff es a).mp h
  exact ((describes_offered es).users k u hu).1

theorem changeset_id_of_ofList {es : List Element} {a : Summary} (h : ofList es = .ok a) {id : Int}
    {c : Changeset} (hc : a.changesets.get? id = some c) : c.id = id := by
  obtain ⟨_, rfl⟩ := (ofList_eq_ok_iff es a).mp h
  exact ((describes_offered es).changesets id c hc).1

theorem offered_append {xs ys : List Element} {a b : Summary} (ha : ofList xs = .ok a)
    (hb : ofList ys = .ok b) : offered (xs ++ ys) = a.merge b := by
  have both := ofList_append xs ys
  rw [ha, hb] at both
  exact ((ofList_eq_ok_iff _ _).mp both).2

theorem merge_comm_upToTies {xs ys : List Element} {a b : Summary} (ha : ofList xs = .ok a)
    (hb : ofList ys = .ok b) :
    SameUpToTies (a.merge b) (b.merge a) (a.AgreeOnName b) (a.AgreeOnOwner b) := by
  have perm : (xs ++ ys).Perm (ys ++ xs) := List.perm_append_comm
  have ties := offered_perm perm
  rw [offered_append ha hb, offered_append hb ha] at ties
  refine ⟨ties.firstSeen, ties.extent, ties.counts, ties.tagged, ?_, ?_⟩
  · intro k named
    change (a.users.merge User.join b.users).get? k = (b.users.merge User.join a.users).get? k
    rw [Table.get?_merge, Table.get?_merge]
    cases hu : a.users.get? k with
    | none => rw [Option.merge_none_left, Option.merge_none_right]
    | some u =>
      cases hv : b.users.get? k with
      | none => rfl
      | some v =>
        have keys := (user_key_of_ofList ha hu).trans (user_key_of_ofList hb hv).symm
        exact congrArg some (User.join_comm keys (named u v hu hv))
  · intro id owned
    have extents := ties.extent id
    change ((a.changesets.merge Changeset.join b.changesets).get? id).map _ =
      ((b.changesets.merge Changeset.join a.changesets).get? id).map _ at extents
    change (a.changesets.merge Changeset.join b.changesets).get? id =
      (b.changesets.merge Changeset.join a.changesets).get? id
    rw [Table.get?_merge, Table.get?_merge] at extents ⊢
    cases hc : a.changesets.get? id with
    | none => rw [Option.merge_none_left, Option.merge_none_right]
    | some c =>
      cases hd : b.changesets.get? id with
      | none => rfl
      | some d =>
        rw [hc, hd] at extents
        have ids := (changeset_id_of_ofList ha hc).trans (changeset_id_of_ofList hb hd).symm
        refine congrArg some (Changeset.eq_of_extent ?_ ?_ (Option.some.inj extents))
        · exact ids
        · exact owned c d hc hd

/-- Elements that have a summary have one in every other order. The records of a user are equal
unless the earliest edits carry several names, and those of a changeset unless it has several
authors. -/
theorem arrival_breaks_ties_only : (∀ xs ys a, ofList xs = .ok a → ys.Perm xs →
      ∃ b, ofList ys = .ok b ∧ SameUpToTies a b (fun k => OneFirstName (editsBy k xs))
        fun id => OneAuthor (editsIn id xs)) ∧
    ∀ xs ys a b, ofList xs = .ok a → ofList ys = .ok b →
      SameUpToTies (a.merge b) (b.merge a) (a.AgreeOnName b) (a.AgreeOnOwner b) := by
  refine ⟨fun xs ys a ha perm => ?_, fun xs ys a b ha hb => merge_comm_upToTies ha hb⟩
  obtain ⟨placed, rfl⟩ := (ofList_eq_ok_iff xs a).mp ha
  refine ⟨offered ys, (ofList_eq_ok_iff ys _).mpr ⟨?_, rfl⟩, offered_perm perm.symm⟩
  exact fun e he => placed e (perm.mem_iff.mp he)

private def signed (id : Int) (time : Option Int) (author : Int) (name : String) : Element :=
  .way ⟨id, ⟨1, time, some 1, some author, some name, true⟩, none, []⟩

private def renamed : List Element :=
  [signed 1 (some 3) 7 "one", signed 2 (some 3) 7 "two", signed 3 none 8 "other",
    signed 4 (some 5) 7 "three", signed 5 none 8 "other"]

theorem arrival_breaks_ties_only_renamed : ∃ a b, ofList renamed = .ok a ∧
    ofList renamed.reverse = .ok b ∧
    SameUpToTies a b (fun k => OneFirstName (editsBy k renamed))
      (fun id => OneAuthor (editsIn id renamed)) ∧
    SameUpToTies (a.merge b) (b.merge a) (a.AgreeOnName b) (a.AgreeOnOwner b) ∧
    OneFirstName (editsBy (.user 8) renamed) ∧ a.users.get? (.user 7) ≠ b.users.get? (.user 7) ∧
    a.changesets.get? 1 ≠ b.changesets.get? 1 := by
  have ofForth : ofList renamed = .ok (offered renamed) := by decide +kernel
  have ofBack : ofList renamed.reverse = .ok (offered renamed.reverse) := by decide +kernel
  obtain ⟨b, hb, ties⟩ := arrival_breaks_ties_only.1 _ _ _ ofForth (List.reverse_perm renamed)
  obtain rfl : offered renamed.reverse = b := Except.ok.inj (ofBack.symm.trans hb)
  exact ⟨_, _, ofForth, ofBack, ties, arrival_breaks_ties_only.2 _ _ _ _ ofForth ofBack,
    by decide +kernel, by decide +kernel, by decide +kernel⟩

end Summary
end MapExtract
