import LittlefsPure.Limits.Runs
import LittlefsPure.Inflight.Runs
import LittlefsPure.Chain.Exact
import LittlefsPure.Chain.Traverse
import LittlefsPure.Chain.Bounds
import LittlefsPure.Split.Preserve
import LittlefsPure.Codec.RoundTrip
import LittlefsPure.Codec.Mirror
import LittlefsPure.Chain.Attempts
import LittlefsPure.Replay.Fallback
import LittlefsPure.Replay.Queries
import LittlefsPure.Handle.Session
import LittlefsPure.Nor.Window
import LittlefsPure.Nor.Faults
import LittlefsPure.Scan.Raw
import LittlefsPure.Room.Forced
import LittlefsPure.Fs.TailWalk
import LittlefsPure.Codec.Atomic
import LittlefsPure.Store.Sessions
import LittlefsPure.Fs.Forest
import LittlefsPure.Fs.Listing
