import LittlefsPure.Disk.Meta

/-!
# Directory entries of a pair

`dir.rs`.  The tags of a pair are replayed through a slot array: a `Create` opens
a slot at its id and shifts the later ones up, a `Delete` closes one, a NAME tag
covers its id.  Four walkers of the source share the one splice step, each with
its own slot type; `walkTags` is that shared loop, and the walkers instantiate it.

The slot array has `MAX_LIVE_ENTRIES` slots, `Roster.slots` is that array, and
`Roster.count` the number of live slots.

## Why the slot functions are parameters

The walkers differ in what they keep and in nothing else.  With the splice step as one function
and the two slot functions as parameters, whatever holds of the splicing is proved once, and a
walker that keeps less is the image of one that keeps more: `Replay.Walkers` is that argument.
-/

namespace LittlefsPure

/-- `MAX_LIVE_ENTRIES`. -/
def maxLiveEntries : ℕ := 256

/-- The slot array of a walker with the number of live slots. -/
structure Roster (α : Type) where
  slots : List α
  count : ℕ

namespace Roster

/-- The empty roster. -/
def new {α : Type} (empty : α) : Roster α := ⟨List.replicate maxLiveEntries empty, 0⟩

/-- Rewrite one slot. -/
def update {α : Type} (r : Roster α) (id : ℕ) (f : α → Except Error α) :
    Except Error (Roster α) :=
  match r.slots[id]? with
  | some s => (f s).map fun s' => { r with slots := r.slots.set id s' }
  | none => .error .corrupt

/-- The live slots, in id order. -/
def live {α : Type} (r : Roster α) : List α := r.slots.take r.count

end Roster

/-- `SpliceStep`: what a tag did to the slot array. -/
inductive SpliceStep where
  | consumed
  | name (id : ℕ)
  | other
  deriving DecidableEq, Repr

/-- `splice_step`. -/
def spliceStep {α : Type} (empty : α) (r : Roster α) (t : TagEntry) :
    Except Error (SpliceStep × Roster α) :=
  match t.tagType with
  | .create =>
      if maxLiveEntries ≤ r.count then .error .outOfRange
      else if r.count < t.id then .error .corrupt
      else .ok (.consumed, ⟨(r.slots.eraseIdx r.count).insertIdx t.id empty, r.count + 1⟩)
  | .delete =>
      if r.count ≤ t.id then .error .corrupt
      else .ok (.consumed, ⟨(r.slots.eraseIdx t.id).insertIdx (r.count - 1) empty, r.count - 1⟩)
  | .regularFile | .directory | .superblock =>
      if maxLiveEntries ≤ t.id then .error .outOfRange
      else .ok (.name t.id, { r with count := max r.count (t.id + 1) })
  | _ => .ok (.other, r)

/-- One tag of the loop the four walkers share.  `off` is the offset of the tag; the
slot functions see the offset of its body. -/
def walkTag {α : Type} (empty : α) (onName onStruct : ℕ → TagEntry → α → Except Error α)
    (off : ℕ) (t : TagEntry) (r : Roster α) : Except Error (Roster α) := do
  let (step, r) ← spliceStep empty r t
  match step with
  | .consumed => pure r
  | .name id => r.update id (onName (off + 4) t)
  | .other =>
      if t.tagType.isStruct && decide (t.id < maxLiveEntries) then
        r.update t.id (onStruct (off + 4) t)
      else pure r

/-- The loop the four walkers share, from a first tag at offset `off` on. -/
def walkTags {α : Type} (empty : α) (onName onStruct : ℕ → TagEntry → α → Except Error α) :
    List TagEntry → ℕ → Roster α → Except Error (Roster α)
  | [], _, r => .ok r
  | t :: ts, off, r =>
      (walkTag empty onName onStruct off t r).bind
        (walkTags empty onName onStruct ts (off + t.dsize))

/-! ## The walkers -/

/-- The kinds of entries a directory can hold. -/
inductive EntryKind where
  | regularFile
  | directory
  deriving DecidableEq, Repr

/-- The kind a NAME tag gives its entry; the superblock entry has none. -/
def TagType.entryKind : TagType → Option EntryKind
  | .regularFile => some .regularFile
  | .directory => some .directory
  | _ => none

/-- A live entry's NAME and STRUCT tags: the `SlotOffsets` of `fs.rs`, with the
bodies the offsets point to. -/
structure Slot where
  name : Option (TagType × Body)
  struct : Option (TagType × Body)
  deriving DecidableEq, Repr

/-- `SlotOffsets::EMPTY`. -/
def Slot.empty : Slot := ⟨none, none⟩

/-- `u16::try_from`, the width of a slot offset. -/
def fitsU16 (off : ℕ) : Bool := decide (off ≤ 0xFFFF)

/-- What `gather_live_slots` does with a NAME tag whose body starts at `off`; offset
and length are stored in sixteen bits. -/
def Slot.setName (off : ℕ) (t : TagEntry) (s : Slot) : Except Error Slot :=
  if fitsU16 off && fitsU16 t.body.length then .ok { s with name := some (t.tagType, t.body) }
  else .error .outOfRange

/-- What `gather_live_slots` does with a STRUCT tag. -/
def Slot.setStruct (off : ℕ) (t : TagEntry) (s : Slot) : Except Error Slot :=
  if fitsU16 off && fitsU16 t.body.length then .ok { s with struct := some (t.tagType, t.body) }
  else .error .outOfRange

/-- The loop of `gather_live_slots`. -/
def gatherSlotsFrom : List TagEntry → ℕ → Roster Slot → Except Error (Roster Slot) :=
  walkTags Slot.empty Slot.setName Slot.setStruct

/-- `gather_live_slots`. -/
def gatherLiveSlots (l : MetadataLog) : Except Error (Roster Slot) :=
  gatherSlotsFrom l.tags 4 (Roster.new Slot.empty)

/-- `LiveStruct` of `alloc.rs`: the blocks a live entry holds. -/
inductive LiveStruct where
  | none
  | ctz (head size : ℕ)
  | dir (pair : BlockPair)
  deriving DecidableEq, Repr

/-- `gather_live_structs`.  An inline struct leaves what an earlier tag recorded. -/
def gatherLiveStructs (l : MetadataLog) : Except Error (Roster LiveStruct) :=
  walkTags LiveStruct.none (fun _ _ s => .ok s)
    (fun _ t s =>
      if t.body.length = 8 then
        match t.tagType with
        | .ctzStruct => .ok (.ctz (t.body.word 0) (t.body.word 1))
        | .dirStruct => .ok (.dir t.body.pair)
        | _ => .ok s
      else .ok s)
    l.tags 4 (Roster.new LiveStruct.none)

/-- `DirEntry`. -/
structure DirEntry where
  id : ℕ
  name : Body
  kind : EntryKind
  deriving DecidableEq, Repr

/-- `live_entries`: the live count and the entries the callback sees. -/
def liveEntries (l : MetadataLog) : Except Error (ℕ × List DirEntry) :=
  (walkTags (none : Option (Body × EntryKind))
    (fun _ t _ => .ok (t.tagType.entryKind.map fun k => (t.body, k)))
    (fun _ _ s => .ok s)
    l.tags 4 (Roster.new none)).map fun r =>
  (r.count, (r.live.zipIdx).filterMap fun (s, i) => s.map fun (n, k) => ⟨i, n, k⟩)

/-- `Resolved`. -/
structure Resolved where
  entry : DirEntry
  structType : TagType
  structBody : Body
  deriving DecidableEq, Repr

/-- `LookupSlot`. -/
structure LookupSlot where
  name : Option Body
  kind : Option EntryKind
  structData : Option (TagType × Body)

/-- `lookup_checked`. -/
def lookupChecked (l : MetadataLog) (name : Body) : Except Error (Option Resolved) :=
  (walkTags (⟨none, none, none⟩ : LookupSlot)
    (fun _ t s => .ok { s with name := some t.body, kind := t.tagType.entryKind })
    (fun _ t s => .ok { s with structData := some (t.tagType, t.body) })
    l.tags 4 (Roster.new ⟨none, none, none⟩)).map fun r =>
  (r.live.zipIdx).findSome? fun (s, i) =>
    match s.name, s.kind, s.structData with
    | some n, some k, some (st, sb) =>
        if n.content = name.content then some ⟨⟨i, n, k⟩, st, sb⟩ else none
    | _, _, _ => none

/-! ## Attributes -/

/-- `attr_get`, on the tags newest first, with the splice difference so far. -/
def attrGetFrom (liveId : ℤ) (attrId : ℕ) : ℤ → List TagEntry → Option Body
  | _, [] => none
  | gdiff, t :: ts =>
      let adj := liveId - gdiff
      match t.tagType with
      | .create =>
          if (t.id : ℤ) = adj then none
          else attrGetFrom liveId attrId (if (t.id : ℤ) < adj then gdiff + 1 else gdiff) ts
      | .delete => attrGetFrom liveId attrId (if (t.id : ℤ) ≤ adj then gdiff - 1 else gdiff) ts
      | .userAttr a =>
          if a = attrId ∧ (t.id : ℤ) = adj then
            match t.body with
            | .removed => none
            | body => some body
          else attrGetFrom liveId attrId gdiff ts
      | _ => attrGetFrom liveId attrId gdiff ts

/-- `attr_get`. -/
def attrGet (l : MetadataLog) (liveId attrId : ℕ) : Option Body :=
  attrGetFrom liveId attrId 0 l.tags.reverse

/-- `for_each_live_attr`, on the tags newest first: the attributes in the order the
callback sees them. -/
def liveAttrsFrom (liveId : ℤ) : ℤ → List ℕ → List TagEntry → List (ℕ × Body)
  | _, _, [] => []
  | gdiff, seen, t :: ts =>
      let adj := liveId - gdiff
      match t.tagType with
      | .create =>
          if (t.id : ℤ) = adj then []
          else liveAttrsFrom liveId (if (t.id : ℤ) < adj then gdiff + 1 else gdiff) seen ts
      | .delete => liveAttrsFrom liveId (if (t.id : ℤ) ≤ adj then gdiff - 1 else gdiff) seen ts
      | .userAttr a =>
          if (t.id : ℤ) = adj ∧ a ∉ seen then
            match t.body with
            | .removed => liveAttrsFrom liveId gdiff (a :: seen) ts
            | body => (a, body) :: liveAttrsFrom liveId gdiff (a :: seen) ts
          else liveAttrsFrom liveId gdiff seen ts
      | _ => liveAttrsFrom liveId gdiff seen ts

/-- `for_each_live_attr`. -/
def forEachLiveAttr (l : MetadataLog) (liveId : ℕ) : List (ℕ × Body) :=
  liveAttrsFrom liveId 0 [] l.tags.reverse

end LittlefsPure
