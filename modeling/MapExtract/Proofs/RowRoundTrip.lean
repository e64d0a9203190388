import MapExtract.Proofs.TableMerge
import MapExtract.Proofs.Traversal
import MapExtract.Row.Reader
import MapExtract.Row.Width

set_option autoImplicit false
namespace MapExtract
open Element (Kind)

def Width.Holds (w : Width) (n : Int) : Prop := w.range.1 ≤ n ∧ n < w.range.2

instance (w : Width) (n : Int) : Decidable (w.Holds n) := inferInstanceAs (Decidable (_ ∧ _))

structure Info.Fits (i : Info) : Prop where
  version : Width.half.Holds i.version
  timestamp : ∀ n ∈ i.timestamp, Width.word.Holds n
  changeset : ∀ n ∈ i.changeset, Width.word.Holds n
  uid : ∀ n ∈ i.uid, Width.word.Holds n

instance (i : Info) : Decidable i.Fits :=
  decidable_of_iff (Width.half.Holds i.version ∧ (∀ n ∈ i.timestamp, Width.word.Holds n) ∧
      (∀ n ∈ i.changeset, Width.word.Holds n) ∧ ∀ n ∈ i.uid, Width.word.Holds n)
    ⟨fun ⟨version, timestamp, changeset, uid⟩ => ⟨version, timestamp, changeset, uid⟩,
      fun h => ⟨h.version, h.timestamp, h.changeset, h.uid⟩⟩

def Element.OwnFits : Element → Prop
  | .node n => ∀ tile ∈ n.tile, Width.unsignedHalf.Holds tile
  | .way w => ∀ id ∈ w.nodes, Width.word.Holds id
  | .relation r => ∀ m ∈ r.members, Width.word.Holds m.id

instance : (e : Element) → Decidable e.OwnFits
  | .node n => inferInstanceAs (Decidable (∀ tile ∈ n.tile, Width.unsignedHalf.Holds tile))
  | .way w => inferInstanceAs (Decidable (∀ id ∈ w.nodes, Width.word.Holds id))
  | .relation r => inferInstanceAs (Decidable (∀ m ∈ r.members, Width.word.Holds m.id))

structure Element.Fits (e : Element) : Prop where
  id : Width.word.Holds e.id
  info : e.info.Fits
  own : e.OwnFits

instance (e : Element) : Decidable e.Fits :=
  decidable_of_iff (Width.word.Holds e.id ∧ e.info.Fits ∧ e.OwnFits)
    ⟨fun ⟨id, info, own⟩ => ⟨id, info, own⟩, fun h => ⟨h.id, h.info, h.own⟩⟩

namespace Row

theorem checkWidths_eq_ok_iff (k : Kind) (rows : List Row) : checkWidths k rows = .ok () ↔
    ∀ column ∈ columnsOf k, ∀ n ∈ columnNumbers rows column, (Width.ofColumn column).Holds n := by
  simp only [checkWidths, forM_eq_ok_iff, Width.check_eq_ok_iff, Width.Holds]

def CellFits (column : String) (cell : Cell) : Prop :=
  ∀ n ∈ cell.numbers, (Width.ofColumn column).Holds n

def Fits (r : Row) : Prop := ∀ c ∈ r, CellFits c.1 c.2

theorem Fits.of_lookup {r : Row} (h : r.Fits) {column : String} {cell : Cell}
    (found : List.lookup column r = some cell) : CellFits column cell := by
  induction r with
  | nil => cases found
  | cons c r ih =>
    rw [List.lookup_cons] at found
    split at found
    · rename_i same
      cases found
      rw [eq_of_beq same]
      exact h c List.mem_cons_self
    · exact ih (fun d hd => h d (List.mem_cons_of_mem _ hd)) found

theorem checkWidths_of_fits (k : Kind) {rows : List Row} (h : ∀ r ∈ rows, r.Fits) :
    checkWidths k rows = .ok () := by
  rw [checkWidths_eq_ok_iff]
  intro column _ n hn
  obtain ⟨r, hr, inRow⟩ := List.mem_flatMap.mp hn
  cases found : List.lookup column r with
  | none => simp [found] at inRow
  | some cell => exact (h r hr).of_lookup found n (by simpa [found] using inRow)

@[simp] theorem numbers_whole (n : Int) : (whole n).numbers = [n] := rfl

@[simp] theorem numbers_optionalWhole (n : Option Int) : (optionalWhole n).numbers = n.toList := by
  cases n <;> rfl

@[simp] theorem numbers_text (s : Option String) : (Cell.datum (.ofOption .text s)).numbers = [] := by
  cases s <;> rfl

@[simp] theorem numbers_ids (ids : List Int) :
    (Cell.ids (ids.map Datum.whole)).numbers = ids := by
  simp only [Cell.numbers, Option.getD_some, List.filterMap_map]
  exact List.filterMap_some

@[simp] theorem numbers_members (members : List Member) :
    (Cell.members (members.map fun m => some (ofMember m))).numbers = members.map Member.id := by
  simp only [Cell.numbers, Option.getD_some, List.filterMap_map]
  exact congrFun List.filterMap_eq_map members

/-- Only the tile and the version stand in columns that are narrower than a word. -/
theorem ofColumn_eq_word {column : String} (hv : column ≠ "version") (ht : column ≠ "tile") :
    Width.ofColumn column = .word := by
  rw [Width.ofColumn, if_neg hv, if_neg ht]

theorem ofInfo_fits {i : Info} (h : i.Fits) : Fits (ofInfo i) := by
  have word : ∀ {column}, column ≠ "version" → column ≠ "tile" → ∀ n : Option Int,
      (∀ m ∈ n, Width.word.Holds m) → CellFits column (optionalWhole n) := by
    intro column hv ht n hn
    simpa [CellFits, ofColumn_eq_word hv ht] using hn
  simp only [Fits, ofInfo, List.forall_mem_cons]
  refine ⟨?version, ?visible, word (by decide) (by decide) _ h.timestamp,
    word (by decide) (by decide) _ h.changeset, word (by decide) (by decide) _ h.uid, ?user, ?none⟩
  case version => simpa [CellFits, Width.ofColumn] using h.version
  case visible => exact fun n hn => by cases hn
  case user => simp [CellFits]
  case none => exact fun c hc => by cases hc

theorem ofElement_fits {e : Element} (h : e.Fits) : Fits (ofElement e) := by
  have id : CellFits "id" (whole e.id) := by simpa [CellFits, Width.ofColumn] using h.id
  have noNumber : ∀ {column cell}, cell.numbers = [] → CellFits column cell :=
    fun none n hn => by simp [none] at hn
  have info := ofInfo_fits h.info
  have own := h.own
  cases e with
  | node n =>
    refine List.forall_mem_cons.mpr ⟨id, ?_⟩
    refine List.forall_mem_cons.mpr ⟨noNumber rfl, ?_⟩
    refine List.forall_mem_cons.mpr ⟨noNumber rfl, ?_⟩
    refine List.forall_mem_cons.mpr ⟨noNumber rfl, ?_⟩
    refine List.forall_mem_cons.mpr ⟨?_, info⟩
    simpa [CellFits, Width.ofColumn, Element.OwnFits] using own
  | way w =>
    refine List.forall_mem_cons.mpr ⟨id, ?_⟩
    refine List.forall_mem_cons.mpr ⟨noNumber rfl, ?_⟩
    refine List.forall_mem_cons.mpr ⟨?_, info⟩
    simpa [CellFits, Width.ofColumn, Element.OwnFits] using own
  | relation r =>
    refine List.forall_mem_cons.mpr ⟨id, ?_⟩
    refine List.forall_mem_cons.mpr ⟨noNumber rfl, ?_⟩
    refine List.forall_mem_cons.mpr ⟨?_, info⟩
    simpa [CellFits, Width.ofColumn, Element.OwnFits] using own

theorem read_ofMember (m : Member) : MemberCell.read (some (ofMember m)) = .ok (.ofMember m) := by
  have kind : Kind.read (.text m.kind.name) = .ok m.kind := by
    simp only [Kind.read, Datum.text?, Option.bind_some, Element.Kind.ofName_name]
  change (Kind.read (.text m.kind.name)).bind _ = _
  rw [kind]
  rfl

theorem readTags_of_lookup {r : Row} {tags : Option Tags}
    (h : List.lookup "tags" r = some (ofTags tags)) : r.readTags = .ok tags := by
  have same : tags.map (fun t => Table.ofList t.entries) = tags := by
    simp [Table.ofList_entries]
  unfold readTags get
  rw [h]
  simp only [ofTags, Option.bind_some, Cell.pairs?, present, bind, Except.bind, pure, Except.pure,
    Option.map_map]
  exact congrArg _ same

theorem readBody_ofElement (e : Element) : (ofElement e).readBody e.kind = .ok (.ofElement e) := by
  cases e with
  | node n => rfl
  | way w => rfl
  | relation r =>
    have members : (r.members.map fun m => some (ofMember m)).mapM MemberCell.read
        = .ok (r.members.map MemberEntry.ofMember) := by
      rw [List.mapM_map]
      exact mapM_eq_ok_map fun m _ => read_ofMember m
    change (r.members.map fun m => some (ofMember m)).mapM MemberCell.read >>= _ = _
    rw [members]
    rfl

theorem readEntry_ofElement (e : Element) : (ofElement e).readEntry e.kind = .ok (.ofElement e) := by
  have tags : (ofElement e).readTags = .ok e.tags := by
    cases e <;> exact readTags_of_lookup rfl
  have body := readBody_ofElement e
  unfold readEntry
  rw [tags, body]
  cases e <;> rfl

theorem readElement_ofElement (e : Element) : (ofElement e).readElement e.kind = .ok e := by
  unfold readElement
  rw [readEntry_ofElement]
  exact Entry.toElement_ofElement e

end Row
end MapExtract
