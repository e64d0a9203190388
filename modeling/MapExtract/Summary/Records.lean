import MapExtract.Element

set_option autoImplicit false
namespace MapExtract

/-- The author of an edit. Edits without a positive user number are anonymous. -/
inductive UserKey
  | anonymous
  | user (id : Int)
deriving DecidableEq, Repr

namespace UserKey

def ofUid : Option Int → UserKey
  | none => .anonymous
  | some id => if id ≤ 0 then .anonymous else .user id

def place : UserKey → Option Int
  | .anonymous => none
  | .user id => some id

theorem place_injective {a b : UserKey} (h : a.place = b.place) : a = b := by
  cases a <;> cases b <;> simp_all [place]

instance : Ord UserKey := ⟨compareOn place⟩

instance : Std.TransOrd UserKey := inferInstanceAs (Std.TransCmp (compareOn place))

instance : Std.LawfulEqOrd UserKey where
  compare_self := Std.ReflOrd.compare_self (α := Option Int)
  eq_of_compare h := place_injective (Std.LawfulEqOrd.eq_of_compare (α := Option Int) h)

end UserKey

def Info.userKey (i : Info) : UserKey := .ofUid i.uid

/-- Is a time known to be before another? A missing time is after all others. -/
def earlier : Option Int → Option Int → Bool
  | none, _ => false
  | some _, none => true
  | some a, some b => a < b

/-- The lesser of two times; a missing time says nothing. -/
def leastTime : Option Int → Option Int → Option Int
  | none, t | t, none => t
  | some a, some b => some (min a b)

def greatestTime : Option Int → Option Int → Option Int
  | none, t | t, none => t
  | some a, some b => some (max a b)

structure User where
  key : UserKey
  displayName : Option String
  firstSeen : Option Int
deriving DecidableEq

/-- The name and time of the earlier record; of equally early ones those of the first. -/
def User.join (first second : User) : User :=
  if earlier second.firstSeen first.firstSeen then
    { first with displayName := second.displayName, firstSeen := second.firstSeen }
  else first

def User.ofInfo (i : Info) : User where
  key := i.userKey
  displayName := if i.userKey = .anonymous then none else i.user
  firstSeen := i.timestamp

def User.seen (i : Info) : Option User → User
  | none => .ofInfo i
  | some u =>
    if earlier i.timestamp u.firstSeen then
      { u with displayName := (ofInfo i).displayName, firstSeen := i.timestamp }
    else u

structure Changeset where
  id : Int
  owner : UserKey
  earliest : Option Int
  latest : Option Int
  changes : Int
deriving DecidableEq

def Changeset.widen (c : Changeset) (time : Option Int) : Changeset :=
  { c with earliest := leastTime c.earliest time, latest := greatestTime c.latest time }

/-- The owner is that of the first record; spans are joined and counts added. -/
def Changeset.join (first second : Changeset) : Changeset :=
  let spanned := (first.widen second.earliest).widen second.latest
  { spanned with changes := first.changes + second.changes }

def Changeset.opened (id : Int) (i : Info) : Changeset where
  id := id
  owner := i.userKey
  earliest := none
  latest := none
  changes := 0

def Changeset.edited (id : Int) (i : Info) (c : Option Changeset) : Changeset :=
  let spanned := (c.getD (opened id i)).widen i.timestamp
  { spanned with changes := spanned.changes + 1 }

structure Counts where
  nodes : Int
  ways : Int
  relations : Int
deriving DecidableEq

def Counts.zero : Counts := ⟨0, 0, 0⟩

def Counts.add (a b : Counts) : Counts :=
  ⟨a.nodes + b.nodes, a.ways + b.ways, a.relations + b.relations⟩

def Counts.one : Element.Kind → Counts
  | .node => ⟨1, 0, 0⟩
  | .way => ⟨0, 1, 0⟩
  | .relation => ⟨0, 0, 1⟩

@[simp]
theorem leastTime_none (t : Option Int) : leastTime t none = t := by cases t <;> rfl

@[simp]
theorem greatestTime_none (t : Option Int) : greatestTime t none = t := by cases t <;> rfl

theorem leastTime_assoc (a b c : Option Int) :
    leastTime (leastTime a b) c = leastTime a (leastTime b c) := by
  cases a <;> cases b <;> cases c <;> simp only [leastTime]
  rw [Int.min_assoc]

theorem greatestTime_assoc (a b c : Option Int) :
    greatestTime (greatestTime a b) c = greatestTime a (greatestTime b c) := by
  cases a <;> cases b <;> cases c <;> simp only [greatestTime]
  rw [Int.max_assoc]

theorem Counts.add_assoc (a b c : Counts) : (a.add b).add c = a.add (b.add c) := by
  simp [add, Int.add_assoc]

theorem Counts.zero_add (a : Counts) : zero.add a = a := by simp [zero, add]

theorem Counts.add_zero (a : Counts) : a.add zero = a := by simp [zero, add]

end MapExtract
