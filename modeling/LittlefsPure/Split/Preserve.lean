import LittlefsPure.Split.Lower

/-!
# A split keeps the directory

The cut loop and the lower half together: whatever the device does to the erases and
programs of a split, the directory reads as before or as after at each of them, and a
split that succeeds has distributed the entries without losing one.

## Why the number of cuts is not bounded here

A split makes as many continuations as its budget allows, and a loop that runs out of its budget
fails with the directory as it was.  The induction of the cut loop takes the number of cuts as it
comes, so the statement covers directories of any length.
-/

namespace LittlefsPure

open FsM Logic

section Split

variable {g : Geometry} {v : PairView} {kept : List ℕ} {d₀ : Device} {r₀ : Rebuild}
  {rest₀ rest₁ : List (BlockPair × MetadataLog)}

/-- The triple of `split_directory_pair`. -/
theorem triple_splitDirectoryPair (hv : v.Found g kept d₀) (hr₀ : r₀.Of v)
    (hrest₀ : d₀.Follows g v.log.tailLink rest₀) (hwithin₀ : Within kept rest₀)
    (hrest₁ : d₀.Follows g (liveLink r₀.tail) rest₁) (hwithin₁ : Within kept rest₁)
    {split : ℕ} (hsplit : 0 < split) (htotal : split < r₀.total) (maxCuts : ℕ)
    (inflight : Inflight) :
    Triple (Event.Avoids (v.alternateAddr :: kept)) (Event.Finds (BeforeOrAfter g v r₀ rest₀ rest₁))
      (fun s => s.device = d₀) (splitDirectoryPair g v r₀ split maxCuts inflight)
      (fun moved s => SplitDone g v r₀ rest₀ rest₁ moved s.device)
      (fun _ s => BeforeOrAfter g v r₀ rest₀ rest₁ s.device) := by
  have hgood : ∀ s, Kept (v.alternateAddr :: kept) d₀ s →
      BeforeOrAfter g v r₀ rest₀ rest₁ s.device := by
    intro s hs
    refine .inl (hv.before hrest₀ hwithin₀ (hs.mono fun _ => List.mem_cons_of_mem _) ?_)
    rw [hs.get _ (List.mem_cons_self ..)]
    exact hv.reads.2.2
  have hslots : gatherLiveSlots v.log = .ok r₀.slots := by
    rw [hr₀.slots]
    exact hv.slots
  have hend : (r₀.slots.entries r₀.source).length + 1 ≥ r₀.total := by
    have hwf : r₀.slots.Wf := walkTags_wf (Roster.new_wf _) hslots
    rw [← Roster.entries_length hwf, Rebuild.total]
    split_ifs <;> omega
  -- nothing is cut yet
  have hempty : r₀.op.part (r₀.slots.entries r₀.source) r₀.total r₀.total = [] := by
    have hlen := r₀.op.part_length_le (r₀.slots.entries r₀.source) (Nat.le_refl r₀.total)
    rw [Nat.sub_self] at hlen
    exact List.length_eq_zero_iff.1 (Nat.le_zero.1 hlen)
  refine Triple.seq (R := fun s => s.device = d₀) (triple_fitExcluded _ _ fun _ s hs =>
    hgood s (by show SameOn _ _ s.device; rw [hs]; exact .refl)) ?_
  refine Triple.bind ((triple_cutLoop hslots hr₀.writesName hgood maxCuts ⟨rfl, rfl, rfl⟩ hsplit
    htotal (Nat.le_refl _)).strengthen ?_) fun out => ?_
  · intro s hs
    refine ⟨[], [], ⟨?_, rfl, fun c hc => absurd hc List.not_mem_nil,
      fun x hx => absurd hx List.not_mem_nil, .nil, hempty.symm⟩⟩
    show SameOn _ _ s.device
    rw [hs]
    exact .refl
  · obtain ⟨cont, stop, excluded⟩ := out
    refine Triple.strengthen (P := fun s => (∃ conts es, conts ≠ [] ∧
      Cutting g (v.alternateAddr :: kept) d₀ r₀ excluded (some (cont, true)) stop conts es s) ∧
        0 < stop ∧ stop < r₀.total) (Triple.pre fun hstop => ?_) fun s hs => ⟨hs.2, hs.1⟩
    exact triple_finishSplitLowerHalf hv hr₀ hrest₀ hwithin₀ hrest₁ hwithin₁ hstop.2 _

end Split

theorem rebuildOf_of {v : PairView} {req : CommitRequest} (hname : req.op.WritesName)
    (hsized : req.Sized) : (rebuildOf v v.log req).Of v :=
  ⟨rfl, rfl, rfl, hname, rebuildOf_sized hsized⟩

/-- A split keeps the directory.  Every erase and every program of it finds the directory
reading as before or as after, and so does the end of a split that fails.  A split that
succeeds leaves the entries, with the operation carried out, distributed over the lower
pair and its continuations in their order; the totals are on the lower pair alone, with
the announcement of its new address folded in if it moved, and the last continuation
carries the tail.  The loops end: the range of a cut shrinks with every cut, and the search
for a cut has stopped by itself when its bound is reached. -/
theorem splitDirectoryPair_preserves (g : Geometry) (v : PairView) (req : CommitRequest)
    (kept : List ℕ) (rest₀ rest₁ : List (BlockPair × MetadataLog)) (split maxCuts : ℕ)
    (inflight : Inflight) (s : Fs) (hv : v.Found g kept s.device) (hname : req.op.WritesName)
    (hsized : req.Sized) (hrest₀ : s.device.Follows g v.log.tailLink rest₀)
    (hwithin₀ : Within kept rest₀)
    (hrest₁ : s.device.Follows g (liveLink (req.newTail.or v.log.tailLink)) rest₁)
    (hwithin₁ : Within kept rest₁)
    (hsplit : computeSplitIndex g v.log v.slots req.op 0 (rebuildOf v v.log req).total = .ok split)
    (hpos : 0 < split)
    (hev : AllEvents (Event.Avoids (v.alternateAddr :: kept))
      (splitDirectoryPair g v (rebuildOf v v.log req) split maxCuts inflight s).events) :
    v.log.Lists (v.slots.entries v.log) ∧
    AllEvents (Event.Finds (BeforeOrAfter g v (rebuildOf v v.log req) rest₀ rest₁))
      (splitDirectoryPair g v (rebuildOf v v.log req) split maxCuts inflight s).events ∧
    (splitDirectoryPair g v (rebuildOf v v.log req) split maxCuts inflight s).Post
      (fun moved s' => SplitDone g v (rebuildOf v v.log req) rest₀ rest₁ moved s'.device)
      (fun _ s' => BeforeOrAfter g v (rebuildOf v v.log req) rest₀ rest₁ s'.device) ∧
    (∀ stop next, computeSplitIndex g v.log v.slots req.op 0 stop = .ok next → next ≠ 0 →
      next < stop) ∧
    ∀ stop more, computeSplitIndexFrom g v.log v.slots req.op stop (stop + more) 0 =
      computeSplitIndex g v.log v.slots req.op 0 stop := by
  have hne : split ≠ 0 := Nat.ne_of_gt hpos
  have htriple := triple_splitDirectoryPair hv (rebuildOf_of hname hsized) hrest₀ hwithin₀ hrest₁
    hwithin₁ hpos (computeSplitIndex_lt hsplit hne) maxCuts inflight
  obtain ⟨hfinds, hpost⟩ := htriple.post s rfl hev
  refine ⟨Roster.entries_lists hv.slots, hfinds, hpost, fun stop next => computeSplitIndex_lt,
    fun stop more => ?_⟩
  have hfuel : stop - 0 ≤ stop := Nat.sub_le ..
  exact computeSplitIndexFrom_enough hfuel more

/-- A root with one file. -/
def rootWithFile : MetadataLog where
  revision := 1
  tags := [⟨.superblock, 0, magic⟩,
    ⟨.inlineStruct, 0, (formatSuperblock ⟨16, 16, 128, 12, -1⟩).toBody⟩,
    ⟨.create, 1, .bytes []⟩, ⟨.regularFile, 1, .bytes [97]⟩,
    ⟨.inlineStruct, 1, .bytes (List.replicate 20 1)⟩, ⟨.commitCrc 0, idNone, .checksum 4⟩]
  erased := false

/-- The root pair with one file, as a commit finds it. -/
def rootWithFileView : PairView where
  pairAddr := ⟨0, 1⟩
  activeAddr := 0
  alternateAddr := 1
  log := rootWithFile
  slots := (gatherLiveSlots rootWithFile).toOption.getD (Roster.new Slot.empty)

/-- A second file. -/
def secondFile : CommitRequest where
  pair := ⟨0, 1⟩
  op := .create 2 (.bytes [98]) (.bytes (List.replicate 20 2)) [(7, .bytes [5])]

/-- The root is split before the second file on a device whose other blocks are blank. -/
def splitSecondFile : Run Fs Error Event (Option BlockPair) :=
  splitDirectoryPair ⟨16, 16, 128, 12, -1⟩ rootWithFileView
    (rebuildOf rootWithFileView rootWithFile secondFile) 2 2 {}
    (Fs.init ⟨16, 16, 128, 12, -1⟩ ⟨.log rootWithFile :: List.replicate 11 .erased⟩ [])

theorem splitDirectoryPair_preserves_secondFile :
    SplitInto ⟨16, 16, 128, 12, -1⟩ splitSecondFile.state.device ⟨0, 1⟩
      (secondFile.op.apply (rootWithFileView.slots.entries rootWithFile)) zeroMove zeroRelocate
      none [] := by
  have hfound : rootWithFileView.Found ⟨16, 16, 128, 12, -1⟩ [0]
      ⟨.log rootWithFile :: List.replicate 11 .erased⟩ :=
    ⟨.inl ⟨rfl, rfl⟩, by decide, rfl, rfl, Block.erased_erasesQuietly _, by decide, by decide⟩
  have hsized : secondFile.Sized := ⟨nofun, nofun⟩
  have hdone := (splitDirectoryPair_preserves ⟨16, 16, 128, 12, -1⟩ rootWithFileView secondFile
    [0] [] [] 2 2 {}
    (Fs.init ⟨16, 16, 128, 12, -1⟩ ⟨.log rootWithFile :: List.replicate 11 .erased⟩ [])
    hfound True.intro hsized nofun nofun nofun nofun (by decide +kernel) (by decide)
    (by decide +kernel)).2.2.1
  have hresult : splitSecondFile.result = .ok none := by decide +kernel
  change splitSecondFile.Post _ _ at hdone
  rw [Run.Post, hresult] at hdone
  exact hdone

end LittlefsPure
