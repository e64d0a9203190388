import MapExtract.Proofs.SummaryContents

set_option autoImplicit false
namespace MapExtract

namespace Element

def signedBy (e : Element) (uid : Option Int) (user : Option String) : Element :=
  match e with
  | .node n => .node { n with info := { n.info with uid := uid, user := user } }
  | .way w => .way { w with info := { w.info with uid := uid, user := user } }
  | .relation r => .relation { r with info := { r.info with uid := uid, user := user } }

def SameButAnonymous (a b : Element) : Prop :=
  a = b ∨ a.info.AuthoredBy .anonymous ∧ b.info.AuthoredBy .anonymous ∧
    b = a.signedBy b.info.uid b.info.user

instance (a b : Element) : Decidable (SameButAnonymous a b) :=
  inferInstanceAs (Decidable (_ ∨ _ ∧ _ ∧ _))

theorem kind_signedBy (e : Element) (uid : Option Int) (user : Option String) :
    (e.signedBy uid user).kind = e.kind := by cases e <;> rfl

theorem info_signedBy (e : Element) (uid : Option Int) (user : Option String) :
    (e.signedBy uid user).info = { e.info with uid := uid, user := user } := by cases e <;> rfl

theorem hasPlace_signedBy (e : Element) (uid : Option Int) (user : Option String) :
    (e.signedBy uid user).HasPlace ↔ e.HasPlace := by cases e <;> rfl

namespace SameButAnonymous

variable {a b : Element}

theorem kind (h : a.SameButAnonymous b) : a.kind = b.kind := by
  rcases h with rfl | ⟨_, _, eq⟩
  · rfl
  · rw [eq, kind_signedBy]

theorem hasPlace (h : a.SameButAnonymous b) : a.HasPlace ↔ b.HasPlace := by
  rcases h with rfl | ⟨_, _, eq⟩
  · rfl
  · rw [eq, hasPlace_signedBy]

theorem changeset (h : a.SameButAnonymous b) : a.info.changeset = b.info.changeset := by
  rcases h with rfl | ⟨_, _, eq⟩
  · rfl
  · rw [eq, info_signedBy]

theorem ofInfo (h : a.SameButAnonymous b) : User.ofInfo a.info = User.ofInfo b.info := by
  rcases h with rfl | ⟨first, second, eq⟩
  · rfl
  · have time : a.info.timestamp = b.info.timestamp := by rw [eq, info_signedBy]
    have key := ((a.info.authoredBy_iff _).mp first).symm
    have key' := ((b.info.authoredBy_iff _).mp second).symm
    simp only [User.ofInfo, key, key', time, if_true]

end SameButAnonymous
end Element

theorem User.seen_eq {i j : Info} (h : ofInfo i = ofInfo j) : seen i = seen j := by
  funext u
  cases u with
  | none => exact h
  | some u => exact congrArg u.join h

theorem Changeset.edited_eq {i j : Info} (h : User.ofInfo i = User.ofInfo j) (id : Int) :
    edited id i = edited id j := by
  have key : i.userKey = j.userKey := congrArg User.key h
  have time : i.timestamp = j.timestamp := congrArg User.firstSeen h
  funext c
  simp only [edited, opened, key, time]

/-- A key that can be handed out: no number that is zero or negative. -/
def UserKey.IsProper : UserKey → Prop
  | .anonymous => True
  | .user id => 0 < id

theorem Info.AuthoredBy.isProper {i : Info} {k : UserKey} (h : i.AuthoredBy k) : k.IsProper := by
  cases k with
  | anonymous => trivial
  | user id => exact h.2

namespace Summary

def records (s : Summary) : Table UserKey User × Table Int Changeset × Counts :=
  (s.users, s.changesets, s.counts)

/-- What no summary tells: a name of an anonymous author, or a number that stands for one. -/
structure Discreet (s : Summary) : Prop where
  nameless : ∀ u, s.users.get? .anonymous = some u → u.displayName = none
  users : ∀ k u, s.users.get? k = some u → u.key = k ∧ k.IsProper
  owners : ∀ id c, s.changesets.get? id = some c → c.owner.IsProper

theorem Describes.discreet {s : Summary} {es : List Element} (h : s.Describes es) : s.Discreet where
  nameless u hu := by
    obtain ⟨_, _, i, _, name⟩ := h.users .anonymous u hu
    exact name
  users k u hu := by
    have known : s.users.contains k = true := by rw [Table.contains, hu]; rfl
    obtain ⟨e, _, author⟩ := (h.authors k).mp known
    exact ⟨(h.users k u hu).1, author.isProper⟩
  owners id c hc := by
    obtain ⟨_, ⟨i, _, author⟩, _⟩ := h.changesets id c hc
    exact author.isProper

theorem records_offer_eq (s : Summary) (e : Element) :
    (s.offer e).1.records = (s.count e).records := by
  unfold offer
  cases e.located <;> rfl

theorem records_offer {s t : Summary} {a b : Element} (same : s.records = t.records)
    (h : a.SameButAnonymous b) : (s.offer a).1.records = (t.offer b).1.records := by
  obtain ⟨users, changesets, counts⟩ : s.users = t.users ∧ s.changesets = t.changesets ∧
      s.counts = t.counts := by simpa only [records, Prod.mk.injEq] using same
  have key : a.info.userKey = b.info.userKey := congrArg User.key h.ofInfo
  rw [records_offer_eq, records_offer_eq]
  simp only [records, count, users, changesets, counts, key, h.kind, h.changeset,
    User.seen_eq h.ofInfo, Changeset.edited_eq h.ofInfo]

theorem records_foldl_offer {xs ys : List Element} (h : List.Forall₂ Element.SameButAnonymous xs ys)
    {s t : Summary} (same : s.records = t.records) :
    (xs.foldl (fun s e => (s.offer e).1) s).records =
      (ys.foldl (fun s e => (s.offer e).1) t).records := by
  induction h generalizing s t with
  | nil => exact same
  | cons head _ ih => exact ih (records_offer same head)

theorem hasPlace_all {xs ys : List Element} (h : List.Forall₂ Element.SameButAnonymous xs ys) :
    (∀ e ∈ xs, e.HasPlace) ↔ ∀ e ∈ ys, e.HasPlace := by
  induction h with
  | nil => rfl
  | cons head _ ih => rw [List.forall_mem_cons, List.forall_mem_cons, head.hasPlace, ih]

/-- One summary tells nothing of anonymous authors, and the other one says the same. -/
structure TellAlike (first second : Except Error Summary) : Prop where
  records : first.map Summary.records = second.map Summary.records
  discreet : ∀ s, first = .ok s → s.Discreet

theorem ofList_tellAlike {xs ys : List Element} (h : List.Forall₂ Element.SameButAnonymous xs ys) :
    TellAlike (ofList xs) (ofList ys) where
  records := by
    rw [ofList_eq_ite, ofList_eq_ite]
    by_cases placed : ∀ e ∈ xs, e.HasPlace
    · rw [if_pos placed, if_pos ((hasPlace_all h).mp placed)]
      exact congrArg Except.ok (records_foldl_offer h rfl)
    · rw [if_neg placed, if_neg (placed ∘ (hasPlace_all h).mpr)]
  discreet s hs := by
    rw [ofList_eq_ite] at hs
    split at hs
    · cases hs
      exact (describes_offered xs).discreet
    · cases hs

inductive MergeTree
  | batch (es : List Element)
  | merge (first second : MergeTree)

namespace MergeTree

def elements : MergeTree → List Element
  | .batch es => es
  | .merge first second => first.elements ++ second.elements

def summary : MergeTree → Except Error Summary
  | .batch es => ofList es
  | .merge first second => do return (← first.summary).merge (← second.summary)

inductive SameButAnonymous : MergeTree → MergeTree → Prop
  | batch {xs ys : List Element} (h : List.Forall₂ Element.SameButAnonymous xs ys) :
      SameButAnonymous (.batch xs) (.batch ys)
  | merge {first second first' second' : MergeTree} (h : SameButAnonymous first first')
      (h' : SameButAnonymous second second') :
      SameButAnonymous (.merge first second) (.merge first' second')

theorem summary_eq (t : MergeTree) : t.summary = ofList t.elements := by
  induction t with
  | batch es => rfl
  | merge first second ih ih' =>
    rw [elements, ofList_append, ← ih, ← ih', summary]
    cases first.summary with
    | error cause => rfl
    | ok a => cases second.summary <;> rfl

theorem SameButAnonymous.elements {t u : MergeTree} (h : t.SameButAnonymous u) :
    List.Forall₂ Element.SameButAnonymous t.elements u.elements := by
  induction h with
  | batch h => exact h
  | merge _ _ ih ih' => exact List.rel_append ih ih'

end MergeTree

def mergedInOrder (parts : List (List Element)) : Except Error Summary :=
  (parts.mapM ofList).map fun summaries => summaries.foldl merge empty

theorem mergedInOrder_eq (parts : List (List Element)) :
    mergedInOrder parts = ofList parts.flatten := (after_flatten empty parts).symm

/-- Two runs over the same batches, which differ only in the numbers and the names of anonymous
authors, end with the same users, changesets and counts, or fail for the same reason, in every
grouping of the batches. -/
theorem anonymous_untold : (∀ t u : MergeTree, t.SameButAnonymous u → TellAlike t.summary u.summary) ∧
    ∀ parts parts' : List (List Element),
      List.Forall₂ (List.Forall₂ Element.SameButAnonymous) parts parts' →
        TellAlike (mergedInOrder parts) (mergedInOrder parts') := by
  constructor
  · intro t u h
    rw [t.summary_eq, u.summary_eq]
    exact ofList_tellAlike h.elements
  · intro parts parts' h
    rw [mergedInOrder_eq, mergedInOrder_eq]
    exact ofList_tellAlike (List.rel_flatten h)

private def note (time : Option Int) (uid : Option Int) (user : Option String) : Element :=
  .way ⟨1, ⟨1, time, some 1, uid, user, true⟩, none, []⟩

private def candid : List (List Element) :=
  [[note (some 9) none (some "secret"), note (some 8) (some 0) (some "hidden")],
    [note (some 5) (some 7) (some "known"), note (some 3) (some (-7)) (some "veiled")]]

private def reserved : List (List Element) :=
  [[note (some 9) (some (-1)) none, note (some 8) none (some "other")],
    [note (some 5) (some 7) (some "known"), note (some 3) (some 0) none]]

theorem anonymous_untold_notes :
    List.Forall₂ (List.Forall₂ Element.SameButAnonymous) candid reserved ∧
      TellAlike (mergedInOrder candid) (mergedInOrder reserved) ∧
      (mergedInOrder candid).map (fun s => s.users.get? .anonymous) =
        .ok (some ⟨.anonymous, none, some 3⟩) := by
  have alike : List.Forall₂ (List.Forall₂ Element.SameButAnonymous) candid reserved := by decide
  exact ⟨alike, anonymous_untold.2 _ _ alike, by decide +kernel⟩

end Summary
end MapExtract
