import LittlefsPure.Fs.File

/-!
# Runs

A run is a sequence of calls on the public surface.  An open file borrows its
filesystem, so a handle's calls come as one block inside the run, between opening
the path and dropping the handle.

## Why a handle's calls are one block

The borrow checker of the source keeps a second call on the filesystem from happening while a
handle lives.  Here a run is a list of calls, and a handle with all its calls is one of them.  So
the interleavings that the type system excludes are excluded by the type, and the results about
runs need no hypothesis for it.
-/

namespace LittlefsPure

open FsM

/-- A call on an open file. -/
inductive FileCall where
  | seek (target : SeekFrom)
  | read (len : ℕ)
  | write (data : List Byte)
  | setLen (size : ℕ)
  | sync

/-- A call on the filesystem. -/
inductive Call where
  | format
  | mount
  | writeToRoot (name content : List Byte)
  | writeInlineToRoot (name content : List Byte)
  | writeCtzToRoot (name content : List Byte)
  | writeToPath (path : Path) (content : List Byte)
  | truncatePath (path : Path) (newSize scratch : ℕ)
  | appendToPath (path : Path) (additional : List Byte) (scratch : ℕ)
  | mkdir (path : Path)
  | rmdir (path : Path)
  | removeFromRoot (name : List Byte)
  | removeAtPath (path : Path)
  | setAttr (path : Path) (attrId : ℕ) (value : List Byte)
  | removeAttr (path : Path) (attrId : ℕ)
  | renameInDir (oldPath newPath : Path)
  | rename (oldPath newPath : Path)
  | withFile (path : Path) (options : OpenOptions) (calls : List FileCall)

variable (g : Geometry) (depth : ℕ)

/-- Perform a call on an open file.  The handle survives a call that fails. -/
def FileCall.perform : FileCall → File → FsM (File × Except Error Unit)
  | .seek target, f =>
      match f.seek target with
      | .ok f => pure (f, .ok ())
      | .error e => pure (f, .error e)
  | .read len, f => do
      match ← attempt (f.read g len) with
      | .ok (f, _) => pure (f, .ok ())
      | .error e => pure (f, .error e)
  | .write data, f => f.write g data
  | .setLen size, f => f.setLen g size
  | .sync, f => do
      match ← File.keepUnpublished (f.sync g depth) with
      | .ok f => pure (f, .ok ())
      | .error e => pure (f, .error e)

/-- Perform the calls on an open file in turn; the result is the first failure. -/
def performFileCalls : List FileCall → File → FsM Unit
  | [], _ => pure ()
  | c :: rest, f => do
      let (f, result) ← c.perform g depth f
      performFileCalls rest f
      lift result

/-- Perform a call. -/
def Call.perform : Call → FsM Unit
  | .format => LittlefsPure.format g
  | .mount => LittlefsPure.mount g depth
  | .writeToRoot name content => LittlefsPure.writeToRoot g depth name content
  | .writeInlineToRoot name content => do
      let s ← get
      writeInlineToPair g depth s.root name content
  | .writeCtzToRoot name content => do
      let s ← get
      writeCtzToPair g depth s.root name content
  | .writeToPath path content => LittlefsPure.writeToPath g depth path content
  | .truncatePath path newSize scratch => LittlefsPure.truncatePath g depth path newSize scratch
  | .appendToPath path additional scratch =>
      LittlefsPure.appendToPath g depth path additional scratch
  | .mkdir path => LittlefsPure.mkdir g depth path
  | .rmdir path => LittlefsPure.rmdir g depth path
  | .removeFromRoot name => LittlefsPure.removeFromRoot g depth name
  | .removeAtPath path => LittlefsPure.removeAtPath g depth path
  | .setAttr path attrId value => LittlefsPure.setAttr g depth path attrId value
  | .removeAttr path attrId => LittlefsPure.removeAttr g depth path attrId
  | .renameInDir oldPath newPath => LittlefsPure.renameInDir g depth oldPath newPath
  | .rename oldPath newPath => LittlefsPure.rename g depth oldPath newPath
  | .withFile path options calls => do
      let f ← openFile g depth path options
      performFileCalls g depth calls f

/-- Perform a call, with nothing unpublished left of the calls before. -/
def Call.start (c : Call) : FsM Unit := do
  settle
  c.perform g depth

/-- Perform calls in turn, up to the first that fails. -/
def performAll : List Call → FsM Unit
  | [] => pure ()
  | c :: rest => do
      c.start g depth
      performAll rest

/-- Perform calls in turn, those after a failed one as well. -/
def attemptAll : List Call → FsM Unit
  | [] => pure ()
  | c :: rest => do
      let _ ← attempt (c.start g depth)
      attemptAll rest

end LittlefsPure
