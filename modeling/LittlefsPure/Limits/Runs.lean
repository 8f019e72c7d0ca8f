import LittlefsPure.Limits.Writer

/-!
# Logs within the readers' limits, over runs

Whatever is called in whatever order, on whatever device, the logs a run leaves are
within the limits of their readers as long as every append and every rebuild of the
run passes the test that the writer does not make.  Without the test they are not:
sixty-three attribute writes on a device with large erase blocks leave no room for
the offset of the next file's content, and the write that comes next makes the
root unreadable.

## What the test looks at

The readers have two limits that the bytes of a block do not show: a log opens at most
`MAX_LIVE_ENTRIES` slots, and the bodies of NAME and STRUCT tags begin at offsets of
sixteen bits.  An append can break either, on the slots and the bytes that are there.  A
rebuild starts from an erased block, so what counts is the entries that it keeps: how many
there are, and how many bytes their tags take.  All of this is known before anything is
programmed, from the slots, the range and the operation.

On an erase block of at most 64 KiB the offsets take care of themselves, since what fits the
block has sixteen bit offsets.  The slots do not: an entry takes thirteen bytes at least, so
from about 3.3 KiB on a block has room for more entries than there are slots.
-/

namespace LittlefsPure

open Logic

/-- A block holds plain bytes, or a log within the limits. -/
def Block.WithinLimits : Block → Prop
  | .log l => l.WithinLimits
  | .raw _ => True

theorem emptyDirLog_withinLimits {g : Geometry} {tail : Option TailLink} {l : MetadataLog}
    (h : emptyDirLog g tail = .ok l) : l.WithinLimits := by
  obtain ⟨c, fcrc, hc, rfl⟩ := emptyDirLog_eq_ok h
  obtain ⟨n, hn⟩ := Commit.finishPadded_eq_ok hc
  refine MetadataLog.withinLimits_of_walkFits ?_
  rw [hn]
  refine walkFits_neutral (fun t ht => ?_) (Nat.zero_le _)
  rcases List.mem_append.1 ht with ht | ht
  · obtain ⟨link, -, rfl⟩ := List.mem_map.1 ht
    exact tailTag_neutral link
  · exact closing_neutral g fcrc n t ht

theorem formatLog_withinLimits {g : Geometry} {l : MetadataLog} (h : formatLog g = .ok l) :
    l.WithinLimits := by
  obtain ⟨c, fcrc, off, hc, rfl⟩ := formatLog_eq_ok h
  obtain ⟨n, hn⟩ := Commit.finishPadded_eq_ok hc
  refine MetadataLog.withinLimits_of_walkFits ?_
  simp only [hn, List.nil_append, List.cons_append]
  -- the superblock entry opens slot 0 with its NAME tag
  refine ⟨⟨by decide, rfl⟩, fun count hcount => ?_⟩
  cases hcount
  refine ⟨fun _ => rfl, fun count hcount => ?_⟩
  cases hcount
  exact walkFits_neutral (closing_neutral g fcrc n) (by decide)

/-- The logs a run writes are within the limits when its events are. -/
theorem withinLimits_discipline (g : Geometry) :
    LogDiscipline g Block.WithinLimits Event.WithinLimits where
  raw _ := True.intro
  torn _ := MetadataLog.withinLimits_of_walkFits True.intro
  dirty _ _ h := MetadataLog.withinLimits_of_walkFits
    (walkFits_of_gather (Roster.new_wf Slot.empty) h)
  format _ h := formatLog_withinLimits h
  emptyDir _ _ h := emptyDirLog_withinLimits h
  append _ _ _ _ hslots hop hK h := buildAppend_withinLimits hslots hop hK h
  rebuild _ _ _ _ _ hslots hop hK h := build_withinLimits (gatherLiveSlots_typed hslots) hop hK h

/-- Every run whose appends and rebuilds pass the missing test leaves only logs that
their readers accept. -/
theorem performAll_withinLimits (g : Geometry) (depth : ℕ) (calls : List Call) (d : Device)
    (script : List Outcome) (hd : ∀ addr l, d.get addr ≠ .log l)
    (hev : AllEvents Event.WithinLimits (performAll g depth calls (Fs.init g d script)).events)
    (addr : ℕ) (l : MetadataLog)
    (hl : (performAll g depth calls (Fs.init g d script)).state.device.get addr = .log l) :
    l.WithinLimits := by
  have hinit : Fs.AllBlocks Block.WithinLimits (Fs.init g d script) := by
    intro x
    change Block.WithinLimits (d.get x)
    cases hx : d.get x with
    | log l => exact absurd hx (hd x l)
    | raw bytes => exact True.intro
  have hrun := (withinLimits_discipline g).keeps_performAll depth calls
  have hfinal := hrun.state hinit hev addr
  rw [hl] at hfinal
  exact hfinal

/-- A file and a directory, and the file twice more: the second time the log is full and the
pair is rebuilt in its other half. -/
def smallRewrites : List Call :=
  [.format, .mount, .writeToRoot [0x66] [1, 2, 3], .mkdir ⟨[[0x64]], by decide⟩] ++
    List.replicate 2 (.writeToRoot [0x66] (List.replicate 40 7))

def smallRun : Run Fs Error Event Unit :=
  performAll ⟨16, 16, 256, 32, 500⟩ 2 smallRewrites
    (Fs.init ⟨16, 16, 256, 32, 500⟩ (Device.blank 32) [])

def Event.isRebuild : Event → Bool
  | .rebuild .. => true
  | _ => false

theorem performAll_withinLimits_small :
    (∃ e ∈ smallRun.events, e.isRebuild = true) ∧
      ∀ addr ∈ [0, 1], ∃ l, smallRun.state.device.get addr = .log l ∧ l.WithinLimits := by
  have hlogs : ∀ addr ∈ [0, 1], (smallRun.state.device.get addr).isLog = true := by
    decide +kernel
  have hrebuilt : smallRun.events.any Event.isRebuild = true := by decide +kernel
  refine ⟨List.any_eq_true.1 hrebuilt, fun addr haddr => ?_⟩
  obtain ⟨l, hl⟩ := Block.isLog_iff.1 (hlogs addr haddr)
  refine ⟨l, hl, performAll_withinLimits _ 2 smallRewrites (Device.blank 32) [] (fun addr l => ?_)
    (by decide +kernel) addr l hl⟩
  rw [Device.get_blank]
  exact nofun

/-! ## Without the test -/

/-- A device with erase blocks of 128 KiB and programs of a kilobyte. -/
def wideGeometry : Geometry := ⟨1024, 1024, 131072, 4, 500⟩

/-- One small file, sixty-three writes of an attribute of its, and the file again. -/
def attributeWrites : List Call :=
  [.format, .mount, .writeToRoot [0x66] []] ++
    List.replicate 63 (.setAttr ⟨[[0x66]], by decide⟩ 1 []) ++ [.writeToRoot [0x66] []]

/-- The run succeeds and leaves a log that `gather_live_slots` rejects as out of range. -/
def leavesRejectedLog (run : Run Fs Error Event Unit) (addr : ℕ) : Bool :=
  match run.result, run.state.device.get addr with
  | .ok _, .log l =>
      match gatherLiveSlots l with
      | .error .outOfRange => true
      | _ => false
  | _, _ => false

theorem leavesRejectedLog_eq_true {run : Run Fs Error Event Unit} {addr : ℕ}
    (h : leavesRejectedLog run addr = true) :
    run.result = .ok () ∧ ∃ l, run.state.device.get addr = .log l ∧ ¬ l.WithinLimits := by
  unfold leavesRejectedLog at h
  split at h
  · next l hresult hlog =>
    split at h
    · next hgather => exact ⟨hresult, l, hlog, fun hl => hl.gather hgather⟩
    · cases h
  · cases h

/-- Every call succeeds on a device without faults, and the log left on block 0 is one
its readers reject. -/
theorem attributeWrites_not_withinLimits :
    wideGeometry.Admitted ∧
      (performAll wideGeometry 1 attributeWrites
        (Fs.init wideGeometry (Device.blank 4) [])).result = .ok () ∧
      ∃ l, (performAll wideGeometry 1 attributeWrites
        (Fs.init wideGeometry (Device.blank 4) [])).state.device.get 0 = .log l ∧
        ¬ l.WithinLimits :=
  ⟨⟨by decide, by decide, by decide, by decide, by decide, by decide, by decide⟩,
    leavesRejectedLog_eq_true (by decide +kernel)⟩

end LittlefsPure
