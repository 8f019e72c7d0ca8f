import LittlefsPure.Replay.History
import LittlefsPure.Replay.Walkers
import LittlefsPure.Split.Pair

/-!
# Directories as chains of pairs

A directory is the chain of pairs that its hard tails link.  `Device.Directory` is what
a reader finds of it: the address and the log of each pair, up to the one that does not
go on.  What the log of a pair lists is `MetadataLog.Lists`: the entries in id order as
`lookup_checked` sees them, with the attributes as `attr_get` finds them.

## Why the attributes are in the listing

An entry is more than its name and its struct.  A split moves entries from one log to another, and
attributes are separate tags that have to be found and written again; leaving one out would change
no listing that the source makes.  So what is compared before and after includes, for every entry,
what a query for each attribute would return.
-/

namespace LittlefsPure

open Logic

/-! ## Devices that agree -/

/-- Two devices agree on some blocks. -/
structure SameOn (kept : List ℕ) (d d' : Device) : Prop where
  get : ∀ x ∈ kept, d'.get x = d.get x
  length : d'.blocks.length = d.blocks.length

namespace SameOn

variable {kept kept' : List ℕ} {d d' d'' : Device}

theorem refl : SameOn kept d d := ⟨fun _ _ => rfl, rfl⟩

theorem trans (h : SameOn kept d d') (h' : SameOn kept d' d'') : SameOn kept d d'' :=
  ⟨fun x hx => (h'.get x hx).trans (h.get x hx), h'.length.trans h.length⟩

theorem mono (h : SameOn kept d d') (hsub : ∀ x ∈ kept', x ∈ kept) : SameOn kept' d d' :=
  ⟨fun x hx => h.get x (hsub x hx), h.length⟩

/-- A write elsewhere. -/
theorem write {addr : ℕ} {s s' : Fs} (h : SameOn kept d s.device) (hw : WritesOnly addr s s')
    (haddr : addr ∉ kept) : SameOn kept d s'.device :=
  ⟨fun x hx => (hw.other x fun heq => haddr (heq ▸ hx)).trans (h.get x hx),
    hw.length.trans h.length⟩

end SameOn

theorem Device.read_congr {d d' : Device} {x : ℕ} (hlen : d'.blocks.length = d.blocks.length)
    (hx : d'.get x = d.get x) : d'.read x = d.read x := by
  by_cases hlt : x < d.blocks.length
  · rw [Device.read_eq_ok.2 ⟨hlt, rfl⟩, Device.read_eq_ok.2 ⟨hlen ▸ hlt, hx⟩]
  · have hnone : d.blocks[x]? = none := List.getElem?_eq_none_iff.2 (Nat.le_of_not_lt hlt)
    have hnone' : d'.blocks[x]? = none :=
      List.getElem?_eq_none_iff.2 (hlen ▸ Nat.le_of_not_lt hlt)
    rw [Device.read, Device.read, hnone, hnone']

/-- The fetch of a pair depends on its two blocks. -/
theorem SameOn.fetch {kept : List ℕ} {d d' : Device} (h : SameOn kept d d') {p : BlockPair}
    (ha : p.a ∈ kept) (hb : p.b ∈ kept) (g : Geometry) : d'.fetch g p = d.fetch g p := by
  unfold Device.fetch Device.readers
  rw [Device.read_congr h.length (h.get _ ha), Device.read_congr h.length (h.get _ hb)]

/-! ## Chains -/

/-- The pairs that follow a tail link through hard tails, each with its log. -/
def Device.Follows (g : Geometry) (d : Device) :
    Option TailLink → List (BlockPair × MetadataLog) → Prop
  | tail, [] => ∀ p, tail ≠ some (p, true)
  | tail, (p, l) :: rest =>
      tail = some (p, true) ∧ (∃ active alternate, d.fetch g p = .ok ⟨active, alternate, l⟩) ∧
        d.Follows g l.tailLink rest

/-- A directory: the pairs of its chain, from its first pair on. -/
def Device.Directory (g : Geometry) (d : Device) (p : BlockPair)
    (chain : List (BlockPair × MetadataLog)) : Prop := d.Follows g (some (p, true)) chain

/-- The blocks of a chain are among those kept. -/
def Within (kept : List ℕ) (chain : List (BlockPair × MetadataLog)) : Prop :=
  ∀ c ∈ chain, c.1.a ∈ kept ∧ c.1.b ∈ kept

theorem SameOn.follows {g : Geometry} {kept : List ℕ} {d d' : Device} (h : SameOn kept d d')
    {chain : List (BlockPair × MetadataLog)} (hchain : Within kept chain) {tail : Option TailLink}
    (hd : d.Follows g tail chain) : d'.Follows g tail chain := by
  induction chain generalizing tail with
  | nil => exact hd
  | cons c rest ih =>
      obtain ⟨p, l⟩ := c
      obtain ⟨htail, ⟨active, alternate, hfetch⟩, hrest⟩ := hd
      obtain ⟨ha, hb⟩ := hchain (p, l) (List.mem_cons_self ..)
      refine ⟨htail, ⟨active, alternate, ?_⟩, ?_⟩
      · rw [h.fetch ha hb, hfetch]
      · exact ih (fun c hc => hchain c (List.mem_cons_of_mem _ hc)) hrest

/-- A chain of links from one tail to another. -/
def Linked : Option TailLink → Option TailLink → List (BlockPair × MetadataLog) → Prop
  | tail, last, [] => tail = last
  | tail, last, (p, l) :: rest => tail = some (p, true) ∧ Linked l.tailLink last rest

/-- A linked chain whose pairs read as it says, and what follows its last link. -/
theorem Linked.follows {g : Geometry} {d : Device} {tail last : Option TailLink}
    {chain rest : List (BlockPair × MetadataLog)} (h : Linked tail last chain)
    (hreads : ∀ c ∈ chain, ∃ active alternate, d.fetch g c.1 = .ok ⟨active, alternate, c.2⟩)
    (hrest : d.Follows g last rest) : d.Follows g tail (chain ++ rest) := by
  induction chain generalizing tail with
  | nil =>
      obtain rfl : tail = last := h
      exact hrest
  | cons c chain ih =>
      obtain ⟨htail, hlinked⟩ := h
      exact ⟨htail, hreads c (List.mem_cons_self ..),
        ih hlinked fun c hc => hreads c (List.mem_cons_of_mem _ hc)⟩

/-- The last pair of a linked chain carries the last link. -/
theorem Linked.getLast {tail last : Option TailLink} {chain : List (BlockPair × MetadataLog)}
    (h : Linked tail last chain) (hne : chain ≠ []) :
    (chain.getLast hne).2.tailLink = last := by
  induction chain generalizing tail with
  | nil => exact absurd rfl hne
  | cons c chain ih =>
      obtain ⟨-, hlinked⟩ := h
      cases chain with
      | nil => exact hlinked
      | cons c' chain =>
          rw [List.getLast_cons (List.cons_ne_nil c' chain)]
          exact ih hlinked _

/-! ## What a log lists -/

/-- What readers find in a log: the entries in id order with their name, kind, struct
type and struct body, and the attributes of each. -/
structure MetadataLog.Lists (l : MetadataLog) (entries : Entries) : Prop where
  slots : lookupSlots l = .ok (entries.map Entry.lookupSlot)
  attrs : ∀ i e, entries[i]? = some e → ∀ a, attrGet l i a = e.attrs a

theorem MetadataLog.Carries.lists {l : MetadataLog} {entries : Entries} {move : MoveBody}
    {relocate : RelocateBody} {tail : Option TailLink} (h : l.Carries entries move relocate tail)
    (hle : entries.length ≤ maxLiveEntries) : l.Lists entries := by
  have hplay : Entries.play l.tags [] = .ok entries := by
    rw [h.entries, Entries.checked_of_le hle]
  constructor
  · rw [lookupSlots_eq_play (h.placed.mono fun _ _ h => h.struct), hplay]
    rfl
  · intro i e he a
    rw [attrGet_play (h.placed.mono fun _ _ h => h.attr) hplay, he]
    rfl

/-- What the readers find in any log is what was gathered from it. -/
theorem Roster.entries_lists {l : MetadataLog} {slots : Roster Slot}
    (h : gatherLiveSlots l = .ok slots) : l.Lists (slots.entries l) := by
  have hempty : (Roster.new Slot.empty).map Slot.lookup = Roster.new ⟨none, none, none⟩ := by
    simp only [Roster.map, Roster.new, List.map_replicate]
    rfl
  have hwalk : walkTags (⟨none, none, none⟩ : LookupSlot)
      (fun _ t s => .ok { s with name := some t.body, kind := t.tagType.entryKind })
      (fun _ t s => .ok { s with structData := some (t.tagType, t.body) })
      l.tags 4 (Roster.new ⟨none, none, none⟩) = .ok (slots.map Slot.lookup) := by
    rw [← hempty]
    refine walkTags_map Slot.lookup rfl ?_ ?_ h
    · intro off t s s' hs
      unfold Slot.setName at hs
      split_ifs at hs
      cases hs
      rfl
    · intro off t s s' hs
      unfold Slot.setStruct at hs
      split_ifs at hs
      cases hs
      rfl
  constructor
  · rw [lookupSlots, hwalk]
    show Except.ok ((slots.slots.map Slot.lookup).take slots.count) = _
    have hlive := slots.entries_slot l
    rw [← List.map_take]
    show Except.ok (slots.live.map Slot.lookup) = _
    rw [hlive, List.map_map]
    rfl
  · intro i e he a
    rw [← slots.entries_sourced l i e he a]
    exact (lookup_liveAttrsFrom List.not_mem_nil).symm

end LittlefsPure
