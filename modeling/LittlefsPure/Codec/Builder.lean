import LittlefsPure.Codec.Reader

/-!
# The builder

`Commit` of `meta.rs`: it writes a revision word, tags and commit CRCs into a buffer.
`Commit.writeLog` is a whole run of it: a fresh buffer, a first commit, and further ones,
each built on by the same builder or by one started over with `new_appending` from what
the reader says of the buffer.

## Why a run and not a function

The builder is an object with methods, and the source uses it in two ways: it writes a commit into
a fresh buffer, or it is started over on a buffer that holds a log.  A log of many commits comes
about by any mixture of the two.  `Recipe` and `Commit.writeLog` are that mixture, so that a
statement about logs covers each way a buffer can come to hold one.
-/

namespace LittlefsPure.Codec

/-- `copy_from_slice` on the bytes of a buffer from an offset on. -/
def put (buf : List Byte) (off : ℕ) (bytes : List Byte) : List Byte :=
  buf.take off ++ bytes ++ buf.drop (off + bytes.length)

/-- `Commit`. -/
structure Commit where
  buf : List Byte
  offset : ℕ
  ptag : Tag
  crc : BitVec 32
  deriving DecidableEq

namespace Commit

/-- `Commit::new`. -/
def new (buf : List Byte) (revision : BitVec 32) : Except Error Commit :=
  if buf.length < 8 then .error .outOfRange
  else
    let buf := put buf 0 (toLe revision)
    .ok ⟨buf, 4, .erased, Crc.update Crc.init (buf.take 4)⟩

/-- `Commit::new_appending`. -/
def newAppending (buf : List Byte) (offset : ℕ) (ptag : Tag) : Except Error Commit :=
  if buf.length < offset + 8 then .error .outOfRange else .ok ⟨buf, offset, ptag, Crc.init⟩

/-- `Commit::tag`. -/
def tag (c : Commit) (e : RawEntry) : Except Error Commit :=
  if e.tag.isCcrc then .error .invalidTag
  else if e.body.length ≠ e.tag.bodyLen then .error .invalidTag
  else if c.buf.length < c.offset + e.tag.dsize then .error .outOfRange
  else
    let raw := toBe (e.tag.bits ^^^ c.ptag.bits)
    .ok ⟨put (put c.buf c.offset raw) (c.offset + 4) e.body, c.offset + e.tag.dsize, e.tag,
      Crc.update (Crc.update c.crc raw) e.body⟩

/-- `Commit::tag`, over a run of tags. -/
def addTags (c : Commit) : List RawEntry → Except Error Commit
  | [] => .ok c
  | e :: es => (c.tag e).bind fun c => addTags c es

/-- The commit CRC tag of `finish` and `finish_padded`. -/
def ccrcTag (chunk bodyLen : ℕ) : Tag := .new (.commitCrc chunk) idNone bodyLen

/-- The end `finish` and `finish_padded` share: write the commit CRC, restart the checksum
and go on at `offset`. -/
def putCcrc (c : Commit) (chunk bodyLen offset : ℕ) : Commit :=
  let raw := toBe ((ccrcTag chunk bodyLen).bits ^^^ c.ptag.bits)
  let crc := Crc.update c.crc raw
  ⟨put (put c.buf c.offset raw) (c.offset + 4) (toLe crc), offset,
    ⟨(ccrcTag chunk bodyLen).bits ^^^ BitVec.ofNat 32 (chunk % 2 * 0x80000000)⟩, Crc.init⟩

/-- `Commit::finish`. -/
def finish (c : Commit) (chunk : ℕ) : Except Error Commit :=
  if c.buf.length < c.offset + 8 then .error .outOfRange
  else .ok (c.putCcrc chunk 4 (c.offset + 8))

/-- The checksum of `prog_size` erased bytes. -/
def erasedCrc (progSize : ℕ) : BitVec 32 := Crc.update Crc.init (List.replicate progSize 0xFF)

/-- The forward CRC of `finish_padded`. -/
def fcrcEntry (progSize : ℕ) : RawEntry :=
  ⟨.new .forwardCrc idNone 8, le32 progSize ++ toLe (erasedCrc progSize)⟩

/-- The forward CRC tag, if a commit carries one. -/
def fcrcEntries (off stop progSize blockSize : ℕ) : List RawEntry :=
  if off + 20 ≤ stop ∧ stop + progSize ≤ blockSize then [fcrcEntry progSize] else []

/-- The end of a padded commit. -/
def paddedEnd (off progSize blockSize : ℕ) : ℕ :=
  LittlefsPure.Commit.alignUp (min (off + 20) blockSize) progSize

/-- `Commit::finish_padded`. -/
def finishPadded (c : Commit) (chunk progSize blockSize : ℕ) : Except Error Commit :=
  if progSize = 0 then c.finish chunk
  else
    let off := c.offset
    let stop := paddedEnd off progSize blockSize
    if blockSize < stop then .error .outOfRange
    else if stop < off + 8 then .error .outOfRange
    else do
      let c ← c.addTags (fcrcEntries off stop progSize blockSize)
      let bodyLen := stop - c.offset - 4
      if 0x3FE < bodyLen then .error .outOfRange
      else if c.buf.length < c.offset + 4 + bodyLen then .error .outOfRange
      else .ok (c.putCcrc chunk bodyLen stop)

/-- `bytes_written`. -/
def bytesWritten (c : Commit) : ℕ := c.offset

end Commit

/-! ## Whole logs -/

/-- How a commit is closed. -/
inductive Closing where
  | finish (chunk : ℕ)
  | finishPadded (chunk progSize blockSize : ℕ)
  deriving DecidableEq

namespace Closing

/-- The chunk of the commit CRC. -/
def chunk : Closing → ℕ
  | .finish chunk => chunk
  | .finishPadded chunk _ _ => chunk

end Closing

/-- What a commit is built from: its tags, then a close. -/
structure Recipe where
  tags : List RawEntry
  closing : Closing
  deriving DecidableEq

namespace Commit

/-- Close a commit. -/
def close (c : Commit) : Closing → Except Error Commit
  | .finish chunk => c.finish chunk
  | .finishPadded chunk progSize blockSize => c.finishPadded chunk progSize blockSize

/-- Write one commit. -/
def write (c : Commit) (r : Recipe) : Except Error Commit := do
  let c ← c.addTags r.tags
  c.close r.closing

/-- A builder started over on the buffer of another, from where the reader finds the end. -/
def reopen (c : Commit) : Except Error Commit := do
  let r ← MetadataReader.new c.buf
  newAppending c.buf r.committedEnd r.nextPtag

/-- Further commits; those marked are written by a builder started over. -/
def writeMore (c : Commit) : List (Bool × Recipe) → Except Error Commit
  | [] => .ok c
  | (restarted, r) :: rest => do
      let c ← (if restarted then c.reopen else .ok c)
      let c ← c.write r
      c.writeMore rest

/-- A log of at least one commit in an erased buffer of `size` bytes. -/
def writeLog (size : ℕ) (revision : BitVec 32) (first : Recipe) (more : List (Bool × Recipe)) :
    Except Error Commit := do
  let c ← new (List.replicate size 0xFF) revision
  let c ← c.write first
  c.writeMore more

end Commit
end LittlefsPure.Codec
