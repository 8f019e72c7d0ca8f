import LittlefsPure.Codec.Typed
import LittlefsPure.Replay.Attrs

/-!
# The queries of a log

`attr_get` and `for_each_live_attr` read a log from its end, and of the splices they see
only what moves the id they follow.  On a log that `splice_step` accepts they find what
the replay of the log from its beginning leaves at the entry.

## Why it is stated for a live id

At an id that no entry has, the walk from the end may meet the tags of an entry that had it once.
The code asks only for ids that it has just looked up, and so does the statement.
-/

namespace LittlefsPure

open Entries

/-- `splice_step` on the tags of a log, one after the other. -/
def spliceAll : List TagEntry → Roster Unit → Except Error (Roster Unit)
  | [], r => .ok r
  | t :: ts, r => (spliceStep () r t).bind fun x => spliceAll ts x.2

theorem spliceAll_cons (t : TagEntry) (ts : List TagEntry) (r : Roster Unit) :
    spliceAll (t :: ts) r = (spliceStep () r t).bind fun x => spliceAll ts x.2 := rfl

/-- A tag that `splice_step` accepts is one that the entries take. -/
theorem applyTag_of_spliceStep {r : Roster Unit} {t : TagEntry} {x : SpliceStep × Roster Unit}
    (h : spliceStep () r t = .ok x) {entries : Entries} (hcount : entries.length = r.count) :
    ∃ entries', entries.applyTag t = .ok entries' ∧ entries'.length = x.2.count := by
  obtain ⟨type, id, body⟩ := t
  cases type with
  | create =>
      simp only [spliceStep] at h
      split_ifs at h with hroom hid
      cases h
      have hle : id ≤ entries.length := by omega
      refine ⟨entries.insertIdx id Entry.empty, ?_, ?_⟩
      · rw [← hcount] at hroom hid
        simp only [applyTag, if_neg hroom, if_neg hid]
      · rw [List.length_insertIdx, if_pos hle, hcount]
  | delete =>
      simp only [spliceStep] at h
      split_ifs at h with hid
      cases h
      refine ⟨entries.eraseIdx id, ?_, ?_⟩
      · rw [← hcount] at hid
        simp only [applyTag, if_neg hid]
      · rw [List.length_eraseIdx, hcount, if_pos (Nat.lt_of_not_le hid)]
  | regularFile | directory | superblock =>
      simp only [spliceStep] at h
      split_ifs at h with hid
      cases h
      refine ⟨_, if_neg hid, ?_⟩
      show ((entries.pad id).modify id _).length = max r.count (id + 1)
      rw [List.length_modify, pad, List.length_append, List.length_replicate]
      omega
  | dirStruct | inlineStruct | ctzStruct | userAttr =>
      cases h
      refine ⟨_, rfl, ?_⟩
      rw [List.length_modify]
      exact hcount
  | _ =>
      cases h
      exact ⟨entries, rfl, hcount⟩

/-- A log that `splice_step` accepts is one that can be replayed. -/
theorem play_of_spliceAll {ts : List TagEntry} {r r' : Roster Unit} (h : spliceAll ts r = .ok r')
    {entries : Entries} (hcount : entries.length = r.count) :
    ∃ entries', play ts entries = .ok entries' ∧ entries'.length = r'.count := by
  induction ts generalizing r entries with
  | nil =>
      cases h
      exact ⟨entries, rfl, hcount⟩
  | cons t ts ih =>
      rw [spliceAll_cons] at h
      cases hstep : spliceStep () r t with
      | error e =>
          rw [hstep] at h
          cases h
      | ok x =>
          rw [hstep] at h
          obtain ⟨entries₁, happly, hcount₁⟩ := applyTag_of_spliceStep hstep hcount
          rw [play_cons, happly]
          exact ih h hcount₁

/-- A callback list without double keys lists what it finds. -/
theorem mem_iff_lookup {α : Type} {kvs : List (ℕ × α)} (h : (kvs.map Prod.fst).Nodup) {k : ℕ}
    {v : α} : (k, v) ∈ kvs ↔ kvs.lookup k = some v := by
  induction kvs with
  | nil => simp
  | cons kv kvs ih =>
      obtain ⟨k', v'⟩ := kv
      rw [List.map_cons, List.nodup_cons] at h
      rw [List.mem_cons, List.lookup_cons]
      by_cases hk : k = k'
      · subst hk
        have hfree : (k, v) ∉ kvs := fun hmem => h.1 (List.mem_map.2 ⟨_, hmem, rfl⟩)
        simp [hfree, eq_comm]
      · have hne : (k == k') = false := beq_false_of_ne hk
        rw [hne, ← ih h.2]
        simp [hk]

/-- The backward queries find what the replay leaves at an entry. -/
theorem queries_replay {l : MetadataLog} {r : Roster Unit}
    (h : spliceAll l.tags (Roster.new ()) = .ok r) (hattrs : Along AttrPlaced l.tags 0) :
    (∃ entries, play l.tags [] = .ok entries ∧ entries.length = r.count ∧
      ∀ liveId e, entries[liveId]? = some e →
        (∀ a, attrGet l liveId a = e.attrs a) ∧
          ((forEachLiveAttr l liveId).map Prod.fst).Nodup ∧
            (∀ a body, (a, body) ∈ forEachLiveAttr l liveId ↔ e.attrs a = some body) ∧
              ∀ a, (a, Body.removed) ∉ forEachLiveAttr l liveId) ∧
      ∀ block reader, Codec.MetadataReader.new block = .ok reader →
        MetadataLog.ofBytes block.length block = l →
          reader.iterTagsRev.map Codec.RawEntry.typed = l.tags.reverse := by
  constructor
  · have hplayed : ∃ entries, play l.tags [] = .ok entries ∧ entries.length = _ :=
      play_of_spliceAll h rfl
    obtain ⟨entries, hplay, hlen⟩ := hplayed
    refine ⟨entries, hplay, hlen, fun liveId e he => ?_⟩
    have hlookup : ∀ a, (forEachLiveAttr l liveId).lookup a = e.attrs a := by
      intro a
      rw [lookup_forEachLiveAttr hattrs hplay, he]
      rfl
    have hnodup : ((forEachLiveAttr l liveId).map Prod.fst).Nodup := nodup_liveAttrsFrom
    refine ⟨fun a => ?_, hnodup, fun a body => ?_, fun a hmem => ?_⟩
    · rw [attrGet_play hattrs hplay, he]
      rfl
    · rw [mem_iff_lookup hnodup, hlookup]
    · exact (mem_liveAttrsFrom _ hmem).2 rfl
  · intro block reader hnew hlog
    obtain ⟨es, hdecodes⟩ := Codec.new_decodes hnew
    rw [← hlog, Codec.ofBytes_eq hnew, hdecodes.iterTagsRev, hdecodes.iterTags, List.map_reverse]

/-- A second entry is opened in front of the first, and each of the two gets and loses
attributes. -/
def splicedLog : MetadataLog where
  revision := 1
  tags := [
    ⟨.create, 0, .bytes []⟩, ⟨.regularFile, 0, .bytes [0x62]⟩, ⟨.userAttr 1, 0, .bytes [0x0B]⟩,
    ⟨.create, 0, .bytes []⟩, ⟨.regularFile, 0, .bytes [0x61]⟩, ⟨.userAttr 1, 0, .bytes [0x0A]⟩,
    ⟨.userAttr 2, 1, .bytes [0x2B]⟩, ⟨.userAttr 1, 0, .removed⟩, ⟨.create, 1, .bytes []⟩,
    ⟨.delete, 0, .bytes []⟩]
  erased := true

/-- The entry that the log opened first is the second at its end, and has kept its attributes. -/
theorem queries_replay_spliced :
    ∃ entries e, play splicedLog.tags [] = .ok entries ∧ entries[1]? = some e ∧
      attrGet splicedLog 1 1 = e.attrs 1 ∧ e.attrs 1 = some (.bytes [0x0B]) ∧
      forEachLiveAttr splicedLog 1 = [(2, .bytes [0x2B]), (1, .bytes [0x0B])] := by
  have hsplice : spliceAll splicedLog.tags (Roster.new ()) =
      .ok ⟨List.replicate maxLiveEntries (), 2⟩ := rfl
  have hattrs : Along AttrPlaced splicedLog.tags 0 := by
    simp [splicedLog, Along, AttrPlaced, countStep]
  obtain ⟨⟨entries, hplay, hlen, hqueries⟩, -⟩ := queries_replay hsplice hattrs
  have hlt : 1 < entries.length := by
    rw [hlen]
    decide
  have he : entries[1]? = some entries[1] := List.getElem?_eq_getElem hlt
  have hget := (hqueries 1 _ he).1 1
  exact ⟨entries, _, hplay, he, hget, hget.symm.trans (by decide), by decide⟩

end LittlefsPure
