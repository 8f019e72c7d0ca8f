import LittlefsPure.Limits.Runs
import LittlefsPure.Store.Calls

/-!
# Format and mount

A format leaves an empty directory at rest.  A mount of a directory at rest reads the
superblock, finds nothing pending and nothing orphaned, and writes nothing; so whatever a
power cut leaves of such a directory, the next mount succeeds on it and finds the directory.

## Why the mount of a directory at rest is silent

A mount repairs what a crash may have left: a pending move, a pending relocation, pairs on the
thread that no directory names.  A directory at rest has none of them, and what a cut leaves of it
has none either, since no call of the surface spoken of here starts a move or takes a pair off.  So
the mount is a sequence of reads, and it leaves the device alone.
-/

namespace LittlefsPure

open FsM Logic

/-! ## The superblock -/

/-- A superblock that is found has its magic among the tags. -/
theorem scanTags_magic {ts : List TagEntry} {decoded : Option Superblock} {sb : Superblock}
    (h : Superblock.scanTags ts (false, decoded) = (true, some sb)) :
    ∃ t ∈ ts, t.tagType = .superblock ∧ t.body = magic := by
  induction ts generalizing decoded with
  | nil => cases h
  | cons t ts ih =>
      rw [Superblock.scanTags] at h
      split_ifs at h with hmagic hstruct
      · exact ⟨t, List.mem_cons_self .., hmagic⟩
      all_goals
        obtain ⟨u, hu, hmagic⟩ := ih h
        exact ⟨u, List.mem_cons_of_mem _ hu, hmagic⟩

/-- The bytes of a plain body are among those of its log. -/
theorem mem_tagBytes {ts : List TagEntry} {t : TagEntry} {bs : List Byte} {b : Byte} (ht : t ∈ ts)
    (hbody : t.body = .bytes bs) (hb : b ∈ bs) (ptag : ℕ)
    (crc : BitVec 32) : b ∈ tagBytes ptag crc ts := by
  induction ts generalizing ptag crc with
  | nil => cases ht
  | cons u ts ih =>
      rw [tagBytes]
      rcases List.mem_cons.1 ht with rfl | ht
      · have hmem : ∀ crc, b ∈ t.body.toBytes crc := by
          rw [hbody]
          exact fun _ => hb
        split <;> exact List.mem_append_left _ (List.mem_append_right _ (hmem _))
      · split <;> exact List.mem_append_right _ (ih ht _ _)

/-- A block with a superblock is not taken for an erased one. -/
theorem MetadataLog.Labelled.not_erased {g : Geometry} {l : MetadataLog} (h : l.Labelled g) :
    (Block.log l).isAllErased = false := by
  obtain ⟨t, ht, -, hbody⟩ := scanTags_magic h
  rw [Block.isAllErased, List.all_eq_false]
  refine ⟨0x6c, ?_, by decide⟩
  exact List.mem_append_right _ (mem_tagBytes ht hbody (by decide) _ _)

/-- The superblock of a labelled log passes the checks of `from_pair`. -/
theorem MetadataLog.Labelled.fromPair {g : Geometry} {l : MetadataLog} (h : l.Labelled g)
    (a b : ℕ) :
    Superblock.fromPair ⟨a, b, l⟩ = .ok (formatSuperblock g) := by
  unfold Superblock.fromPair
  rw [show Superblock.scanTags l.tags (false, none) = _ from h]
  exact if_neg (by simp [formatSuperblock])

section Mount

variable {g : Geometry} {d : Device} {root : BlockPair} {chain : List Node} {files : Entries}
  {D : FlatDir}

/-- The superblock of a directory at rest. -/
theorem AtRest.readSuperblock (h : AtRest g d rootBlockPair chain) (hold : Depicts g chain files)
    (hvalid : g.validate = .ok ()) : LittlefsPure.readSuperblock g d =
      .ok (formatSuperblock g) := by
  obtain ⟨first, rest, rfl, hfirst⟩ := h.head
  have hstand := h.stands first (List.mem_cons_self ..)
  have hlabelled := (hold.heads first rfl).labelled
  have hfetch := h.fetch (List.mem_cons_self ..)
  have hbounds := hstand.bounds
  rw [hfirst] at hbounds hfetch
  rw [Device.fetch, if_pos hbounds] at hfetch
  obtain ⟨⟨a, b⟩, hreaders, hparse⟩ := bind_eq_ok.1 hfetch
  -- one of the two root blocks holds the log
  have herased : ((d.get 0).isAllErased && (d.get 1).isAllErased) = false := by
    have hactive : (d.get first.active).isAllErased = false := by
      rw [hstand.stored]
      exact hlabelled.not_erased
    have hhalves := hstand.halves
    rw [hfirst] at hhalves
    rcases hhalves with ⟨hx, -⟩ | ⟨-, hx⟩
    · rw [← hx] at hactive
      exact Bool.and_eq_false_imp.2 fun h => absurd (h.symm.trans hactive) nofun
    · rw [← hx] at hactive
      exact (congrArg (_ && ·) hactive).trans (Bool.and_false _)
  rw [LittlefsPure.readSuperblock, hvalid]
  simp only [bind, Except.bind, hreaders, herased, Bool.false_eq_true, if_false]
  rw [show MetadataPair.parse rootBlockPair a b = _ from hparse]
  simp only [hlabelled.fromPair]
  exact if_neg (by simp [formatSuperblock])

/-! ## Mounting -/

/-- The sweep goes along the chain and finds every pair in the tree. -/
theorem AtRest.deorphanFrom {s : Fs} {depth fuel : ℕ} (pre : List Node) {post : List Node}
    {n : Node}
    (h : AtRest g s.device root (pre ++ n :: post)) :
    LittlefsPure.deorphanFrom g depth ((pre ++ n :: post).map Node.pair) fuel n.pair
      ((pre ++ [n]).map Node.pair) s = ⟨.ok (), s, []⟩ := by
  induction fuel generalizing pre post n with
  | zero => rfl
  | succ fuel ih =>
      rw [LittlefsPure.deorphanFrom, fetchPair,
        Program.bind_silent (query_run (h.fetch (AtRest.mem_mid pre n post)))]
      cases post with
      | nil =>
          simp only [h.tail, List.head?_nil, Option.map_none]
          rfl
      | cons m post =>
          have htree : containsPair ((pre ++ n :: m :: post).map Node.pair) m.pair = true := by
            rw [containsPair, List.any_eq_true]
            exact ⟨m.pair, List.mem_map_of_mem (by simp), BlockPair.isSamePair_self _⟩
          have hroom : ((pre ++ [n]).map Node.pair).length < maxQueuedPairs := by
            have hshort := h.short
            simp only [List.length_append, List.length_cons, List.length_map, List.length_nil]
              at hshort ⊢
            omega
          simp only [h.tail, List.head?_cons, Option.map_some, htree, if_true]
          rw [List.append_cons] at h
          have hvisited : (pre ++ [n] ++ [m]).map Node.pair =
              (pre ++ [n]).map Node.pair ++ [m.pair] := List.map_append
          have hrest := ih _ h
          rw [hvisited, ← List.append_cons] at hrest
          rwa [h.not_seen, if_neg Bool.false_ne_true, if_pos hroom]

/-- Nothing is orphaned in a directory at rest. -/
theorem AtRest.deorphanSweep {s : Fs} {depth : ℕ} (h : AtRest g s.device root chain)
    (hroot : s.root = root) : LittlefsPure.deorphanSweep g depth s = ⟨.ok (), s, []⟩ := by
  subst hroot
  rw [LittlefsPure.deorphanSweep, get_bind_calm, Program.bind_silent (query_run h.collect)]
  obtain ⟨first, rest, rfl, hfirst⟩ := h.head
  rw [← hfirst]
  exact AtRest.deorphanFrom [] h

/-- The handle that a mount hands out. -/
def Fs.mounted (g : Geometry) (s : Fs) : Fs :=
  { s with superblock := formatSuperblock g, root := rootBlockPair, usedCache := none,
           pendingMove := none }

/-- A mount of a directory at rest succeeds and writes nothing. -/
theorem AtRest.mount {s : Fs} (h : AtRest g s.device rootBlockPair chain)
    (hold : Depicts g chain files) (hvalid : g.validate = .ok ()) (depth : ℕ) :
    LittlefsPure.mount g depth s = ⟨.ok (), s.mounted g, []⟩ := by
  rw [LittlefsPure.mount, Program.bind_silent (query_run (h.readSuperblock hold hvalid))]
  change ((modify (Fs.mounted g) : FsM Unit) >>= _) s = _
  rw [Program.bind_run (modify_run (Fs.mounted g) s),
    Program.bind_silent (query_run (s := s.mounted g) h.accumulate),
    Program.bind_silent (s := s.mounted g) rfl, Program.bind_silent (s := s.mounted g) rfl,
    AtRest.deorphanSweep (s := s.mounted g) h rfl]
  rfl

theorem Stores.mount {s : Fs} (h : Stores g rootBlockPair D s.device)
    (hvalid : g.validate = .ok ()) (depth : ℕ) :
    LittlefsPure.mount g depth s = ⟨.ok (), s.mounted g, []⟩ := by
  obtain ⟨chain, files, hrest, hold, -⟩ := h
  exact hrest.mount hold hvalid depth

/-- What a mount hands out shows the directory. -/
theorem Stores.shows {s : Fs} (h : Stores g rootBlockPair D s.device) (hcalm : s.script = []) :
    Shows g rootBlockPair D (s.mounted g) := by
  obtain ⟨chain, files, hrest, hold, hdir⟩ := h
  exact ⟨chain, files, ⟨hcalm, rfl, hrest, nofun⟩, hold, hdir⟩

end Mount

/-! ## Formatting -/

section Format

variable {g : Geometry} {s : Fs} {l : MetadataLog}

/-- The node that a format makes. -/
def formatNode (g : Geometry) (l : MetadataLog) : Node := ⟨rootBlockPair, 0, 1, l, [superEntry g]⟩

theorem formatLog_tags (h : formatLog g = .ok l) : ∃ closing, Closing closing ∧
    l.tags = [⟨.superblock, 0, magic⟩, ⟨.inlineStruct, 0, (formatSuperblock g).toBody⟩] ++
      closing := by
  obtain ⟨c, fcrc, off, hc, rfl⟩ := formatLog_eq_ok h
  obtain ⟨n, hn⟩ := Commit.finishPadded_eq_ok hc
  exact ⟨_, ⟨g, fcrc, n, rfl⟩, hn⟩

/-- The log of a format carries the superblock's entry. -/
theorem formatLog_carries_super (h : formatLog g = .ok l) :
    l.Carries [superEntry g] zeroMove zeroRelocate none := by
  obtain ⟨entries, hcarries⟩ := formatLog_carries h
  obtain ⟨closing, hclosing, htags⟩ := formatLog_tags h
  have hplay : Entries.play l.tags [] = .ok [superEntry g] := by
    rw [htags, Entries.play_append]
    exact play_inert hclosing.inert _
  have hentries := hcarries.entries
  rw [hplay] at hentries
  unfold Entries.checked at hentries
  split_ifs at hentries
  rwa [← Except.ok.inj hentries] at hcarries

theorem formatLog_labelled (h : formatLog g = .ok l) : l.Labelled g := by
  obtain ⟨closing, hclosing, htags⟩ := formatLog_tags h
  rw [MetadataLog.Labelled, htags, scanTags_append]
  exact scanTags_keeps (fun t ht htype => absurd htype (hclosing.not_inline t ht)) _

theorem formatLog_flat (h : formatLog g = .ok l) (pairs : List BlockPair) :
    ∀ t ∈ l.tags, t.Flat pairs := by
  obtain ⟨closing, hclosing, htags⟩ := formatLog_tags h
  rw [htags]
  refine List.forall_mem_append.2 ⟨?_, hclosing.flat pairs⟩
  exact List.forall_mem_cons.2 ⟨TagEntry.flat_of_type ⟨nofun, nofun, rfl⟩,
    List.forall_mem_singleton.2 (TagEntry.flat_of_type ⟨nofun, nofun, rfl⟩)⟩

theorem blockCount_pos (h : g.validate = .ok ()) : 2 ≤ g.blockCount := by
  unfold Geometry.validate at h
  split_ifs at h with hfault
  exact (Geometry.admitted_iff.1 (Option.isNone_iff_eq_none.1 hfault)).blockCount_root

/-- The node of a format stands where the format has put it. -/
theorem formatNode_stands (hvalid : g.validate = .ok ()) (hl : formatLog g = .ok l) {d : Device}
    (hlog : d.get 0 = .log l) (herased : d.get 1 = .erased) (pairs : List BlockPair) :
    (formatNode g l).Stands g d pairs where
  halves := .inl ⟨rfl, rfl⟩
  bounds := by
    have hcount := blockCount_pos hvalid
    exact Geometry.pairInBounds_iff.2 ⟨Nat.lt_of_lt_of_le Nat.zero_lt_two hcount, hcount⟩
  tracked := by
    show ∀ b ∈ [0, 1], b < maxTrackedBlocks
    decide
  stored := hlog
  yields := by
    rw [show d.get (formatNode g l).alternate = _ from herased]
    exact Block.erased_yields
  commits := by
    obtain ⟨closing, -, htags⟩ := formatLog_tags hl
    show (!l.tags.isEmpty) = true
    rw [htags]
    rfl
  carries := by
    have hcarries := formatLog_carries_super hl
    have htail : l.tailLink = none := hcarries.tail
    show l.Carries _ _ _ l.tailLink
    rwa [htail]
  room := by
    show 1 ≤ maxLiveEntries
    decide
  gathered := (formatLog_carries_super hl).gathered (formatLog_withinLimits hl)
    (by rw [List.length_singleton]; decide)
  inline := by
    intro e he st hst
    rw [List.mem_singleton.1 he] at hst
    cases hst
    rfl
  flat := formatLog_flat hl pairs
  stale := by
    rw [show d.get (formatNode g l).alternate = _ from herased, Block.erased_tags]
    exact nofun

theorem format_run (hvalid : g.validate = .ok ()) (hl : formatLog g = .ok l)
    (hcalm : s.script = []) (hsize : s.device.blocks.length = g.blockCount) :
    (format g s).result = .ok () ∧ (format g s).state = (s.put 0 (.log l)).put 1 .erased := by
  have hcount := blockCount_pos hvalid
  have hput : (s.put 0 .erased).put 0 (.log l) = s.put 0 (.log l) := by
    simp only [Fs.put, Device.write_write]
  rw [format, hvalid, Program.bind_silent (s := s) (a := ()) rfl, hl,
    Program.bind_silent (s := s) (a := l) rfl,
    Program.bind_run (eraseBlock_run hcalm (by omega)), if_neg (by decide), programLog,
    Program.bind_run (programBlock_run (s := s.put 0 .erased) hcalm (by simpa using by omega) _ _),
    hput, if_neg (by decide),
    Program.bind_run (eraseBlock_run (s := s.put 0 (.log l)) hcalm (by simpa using by omega)),
    if_neg (by decide)]
  exact ⟨rfl, rfl⟩

/-- A format that succeeds leaves a directory of one node at rest. -/
theorem format_rests (hcalm : s.script = []) (hsize : s.device.blocks.length = g.blockCount)
    (hok : (format g s).result = .ok ()) :
    g.validate = .ok () ∧ ∃ l, formatLog g = .ok l ∧
      (format g s).state = (s.put 0 (.log l)).put 1 .erased ∧
      AtRest g (format g s).state.device rootBlockPair [formatNode g l] := by
  have hvalid : g.validate = .ok () := by
    cases hvalid : g.validate with
    | ok u => rfl
    | error e =>
        rw [format, hvalid, Program.bind_of_error (e := e) rfl] at hok
        cases hok
  obtain ⟨l, hl⟩ : ∃ l, formatLog g = .ok l := by
    cases hl : formatLog g with
    | ok l => exact ⟨l, rfl⟩
    | error e =>
        rw [format, hvalid, Program.bind_silent (s := s) (a := ()) rfl, hl,
          Program.bind_of_error (e := e) rfl] at hok
        cases hok
  have hcount := blockCount_pos hvalid
  obtain ⟨-, hstate⟩ := format_run hvalid hl hcalm hsize
  refine ⟨hvalid, l, hl, hstate, ?_⟩
  rw [hstate]
  have hlog : ((s.put 0 (.log l)).put 1 .erased).device.get 0 = .log l := by
    rw [Fs.put_device, Device.get_write_ne _ (by decide), Fs.put_device,
      Device.get_write_self (by omega)]
  have herased : ((s.put 0 (.log l)).put 1 .erased).device.get 1 = .erased := by
    rw [Fs.put_device, Device.get_write_self]
    simpa using by omega
  have hstands := formatNode_stands hvalid hl hlog herased
  exact ⟨by simpa using hsize, ⟨rfl, (formatLog_carries_super hl).tail⟩,
    List.forall_mem_singleton.2 (hstands _), (by decide : [0, 1].Nodup),
    (by decide : 1 ≤ maxQueuedPairs)⟩

/-- A format that succeeds leaves an empty directory. -/
theorem format_stores (hcalm : s.script = []) (hsize : s.device.blocks.length = g.blockCount)
    (hok : (format g s).result = .ok ()) :
    g.validate = .ok () ∧ Stores g rootBlockPair (fun _ => none) (format g s).state.device := by
  obtain ⟨hvalid, l, hl, -, hrest⟩ := format_rests hcalm hsize hok
  refine ⟨hvalid, [formatNode g l], [], hrest, ?_, rfl⟩
  exact ⟨fun n hn => by cases hn; exact ⟨rfl, formatLog_labelled hl⟩, rfl, by simp, List.nodup_nil⟩

end Format

end LittlefsPure
