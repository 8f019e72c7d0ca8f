import LittlefsPure.Chain.Read
import LittlefsPure.Scan.Marks
import LittlefsPure.Logic.Program

/-!
# The three traversals of a chain

The collecting walk takes steps of one or two blocks by the parity of the index, the
descent takes powers of two, and the marking walk sets a bit for each block.  Here each of
them is a program over a device whose events are the blocks it dereferences, so that the
blocks and the number of hops can be spoken of.

The descent first climbs: each hop takes it to an index with more trailing zeros, until it
has as many as the gap has bits.  From there each hop takes the highest bit off the gap.

## Why events

That a traversal returns the right block says nothing of the blocks it has looked at on the way,
and on a damaged device it is these that matter: a word read from a block that is none is an
address, and it is followed.  With the dereferenced blocks as events, the bounds on the hops and
the bounds on the addresses are statements about one list.
-/

namespace LittlefsPure
namespace Ctz

open Logic

/-! ## The walks and the blocks they dereference -/

/-- A walk over a device; its events are the blocks it reads. -/
abbrev Visits (α : Type) : Type := Program Device Error ℕ α

/-- Read a block. -/
def deref (block : ℕ) : Visits Block := fun d => ⟨d.read block, d, [block]⟩

section Walks

variable (g : Geometry)

/-- The loop of `collect_chain_blocks_buffered`. -/
def collectVisits : ℕ → ℕ → ℕ → Visits (List ℕ)
  | 0, _, _ => throw .corrupt
  | fuel + 1, head, index => do
      let head ← Program.lift (requireInBounds g head)
      if index = 0 then pure [head]
      else
        let b ← deref head
        if index % 2 = 0 then
          let ptr0 ← Program.lift (requireInBounds g (b.word 0))
          let rest ← collectVisits fuel (b.word 1) (index - 2)
          pure (rest ++ [ptr0, head])
        else
          let rest ← collectVisits fuel (b.word 0) (index - 1)
          pure (rest ++ [head])

/-- The loop of `seek_block_buffered`. -/
def seekVisits (target : ℕ) : ℕ → ℕ → ℕ → Visits ℕ
  | 0, cur, _ => pure cur
  | fuel + 1, cur, idx =>
      if target < idx then do
        let k := min (Nat.log2 (idx - target)) (trailingZeros 32 idx)
        let b ← deref cur
        let cur ← Program.lift (requireInBounds g (b.word k))
        seekVisits target fuel cur (idx - 2 ^ k)
      else pure cur

/-- The loop of `walk_ctz_chain`. -/
def markVisits : ℕ → ℕ → ℕ → Bitmap → Visits Bitmap
  | 0, _, _, _ => throw .corrupt
  | fuel + 1, head, index, used => do
      let head ← Program.lift (requireInBounds g head)
      let used ← Program.lift (used.set head)
      if index = 0 then pure used
      else
        let b ← deref head
        if index % 2 = 0 then
          let ptr0 ← Program.lift (requireInBounds g (b.word 0))
          let used ← Program.lift (used.set ptr0)
          markVisits fuel (b.word 1) (index - 2) used
        else markVisits fuel (b.word 0) (index - 1) used

/-- `collect_chain_blocks_buffered` with an output of `capacity` blocks. -/
def collectChainVisits (head totalBlocks capacity : ℕ) : Visits (List ℕ) :=
  if totalBlocks = 0 then pure []
  else if capacity < totalBlocks then throw .outOfRange
  else collectVisits g totalBlocks head (totalBlocks - 1)

/-- `seek_block_buffered`. -/
def seekBlockVisits (head fromIndex targetIndex : ℕ) : Visits ℕ :=
  if fromIndex < targetIndex then throw .outOfRange
  else do
    let cur ← Program.lift (requireInBounds g head)
    seekVisits g targetIndex fromIndex cur fromIndex

/-- `walk_ctz_chain`. -/
def walkCtzVisits (head size : ℕ) (used : Bitmap) : Visits Bitmap :=
  if size = 0 then pure used
  else
    let total := blockCount size g.blockSize
    if g.blockCount < total then throw .corrupt
    else markVisits g total head (total - 1) used

end Walks

section Results

variable {g : Geometry} {d : Device} {α β : Type}

/-- The run returns what the plain computation does, and leaves the device alone. -/
structure Returns (d : Device) (m : Visits α) (r : Except Error α) : Prop where
  result : (m d).result = r
  state : (m d).state = d

theorem Returns.bind {m : Visits α} {r : Except Error α} {f : α → Visits β}
    {k : α → Except Error β} (hm : Returns d m r) (hf : ∀ a, Returns d (f a) (k a)) :
    Returns d (m >>= f) (r >>= k) := by
  obtain ⟨hresult, hstate⟩ := hm
  cases r with
  | error e =>
      constructor <;> rw [Program.bind_of_error hresult]
      · rfl
      · exact hstate
  | ok a =>
      constructor <;> rw [Program.bind_of_ok hresult, hstate]
      · exact (hf a).result
      · exact (hf a).state

theorem Returns.ite {c : Prop} [Decidable c] {m m' : Visits α} {r r' : Except Error α}
    (h : Returns d m r) (h' : Returns d m' r') :
    Returns d (if c then m else m') (if c then r else r') := by
  split
  · exact h
  · exact h'

theorem returns_deref (block : ℕ) : Returns d (deref block) (d.read block) := ⟨rfl, rfl⟩

theorem returns_lift (r : Except Error α) : Returns d (Program.lift r) r := ⟨rfl, rfl⟩

theorem returns_collect (fuel head index : ℕ) :
    Returns d (collectVisits g fuel head index) (collectFrom g d fuel head index) := by
  induction fuel generalizing head index with
  | zero => exact ⟨rfl, rfl⟩
  | succ fuel ih =>
      refine (returns_lift _).bind fun head => .ite ⟨rfl, rfl⟩ ?_
      refine (returns_deref head).bind fun b => .ite ?_ ?_
      · exact (returns_lift _).bind fun ptr => (ih _ _).bind fun rest => ⟨rfl, rfl⟩
      · exact (ih _ _).bind fun rest => ⟨rfl, rfl⟩

theorem returns_seek (target fuel cur idx : ℕ) :
    Returns d (seekVisits g target fuel cur idx) (seekFrom g d target fuel cur idx) := by
  induction fuel generalizing cur idx with
  | zero => exact ⟨rfl, rfl⟩
  | succ fuel ih =>
      refine .ite ?_ ⟨rfl, rfl⟩
      exact (returns_deref cur).bind fun b => (returns_lift _).bind fun next => ih _ _

theorem returns_mark (fuel head index : ℕ) (used : Bitmap) :
    Returns d (markVisits g fuel head index used)
      (Alloc.markChainFrom g d fuel head index used) := by
  induction fuel generalizing head index used with
  | zero => exact ⟨rfl, rfl⟩
  | succ fuel ih =>
      refine (returns_lift _).bind fun head => (returns_lift _).bind fun used => .ite ⟨rfl, rfl⟩ ?_
      refine (returns_deref head).bind fun b => .ite ?_ (ih _ _ _)
      exact (returns_lift _).bind fun ptr => (returns_lift _).bind fun used => ih _ _ _

theorem returns_collectChain (head totalBlocks capacity : ℕ) :
    Returns d (collectChainVisits g head totalBlocks capacity)
      (collectChainBlocks g d head totalBlocks capacity) :=
  .ite ⟨rfl, rfl⟩ (.ite ⟨rfl, rfl⟩ (returns_collect _ _ _))

theorem returns_seekBlock (head fromIndex target : ℕ) :
    Returns d (seekBlockVisits g head fromIndex target) (seekBlock g d head fromIndex target) :=
  .ite ⟨rfl, rfl⟩ ((returns_lift _).bind fun _ => returns_seek _ _ _ _)

theorem returns_walkCtz (head size : ℕ) (used : Bitmap) :
    Returns d (walkCtzVisits g head size used) (Alloc.walkCtzChain g d head size used) :=
  .ite ⟨rfl, rfl⟩ (.ite ⟨rfl, rfl⟩ (returns_mark _ _ _ _))

end Results

/-! ## Which blocks, and how many -/

section Bounds

variable {g : Geometry} {α β : Type} {n k : ℕ}

/-- Every run dereferences at most `n` blocks, and only blocks of the device. -/
structure Within (g : Geometry) (n : ℕ) (m : Visits α) : Prop where
  count : ∀ d, (m d).events.length ≤ n
  inBounds : ∀ d, ∀ b ∈ (m d).events, b < g.blockCount

theorem Within.bind {m : Visits α} {f : α → Visits β} (hm : Within g n m)
    (hf : ∀ d a, (m d).result = .ok a → Within g k (f a)) : Within g (n + k) (m >>= f) := by
  constructor
  · intro d
    cases hr : (m d).result with
    | error e =>
        rw [Program.bind_of_error hr]
        exact Nat.le_trans (hm.count d) (Nat.le_add_right _ _)
    | ok a =>
        rw [Program.bind_of_ok hr, List.length_append]
        exact Nat.add_le_add (hm.count d) ((hf d a hr).count _)
  · intro d b hb
    cases hr : (m d).result with
    | error e =>
        rw [Program.bind_of_error hr] at hb
        exact hm.inBounds d b hb
    | ok a =>
        rw [Program.bind_of_ok hr, List.mem_append] at hb
        rcases hb with hb | hb
        · exact hm.inBounds d b hb
        · exact (hf d a hr).inBounds _ b hb

theorem Within.mono {m : Visits α} (h : Within g n m) (hle : n ≤ k) : Within g k m :=
  ⟨fun d => Nat.le_trans (h.count d) hle, h.inBounds⟩

theorem Within.ite {c : Prop} [Decidable c] {m m' : Visits α} (h : c → Within g n m)
    (h' : ¬ c → Within g n m') : Within g n (if c then m else m') := by
  split
  · next hc => exact h hc
  · next hc => exact h' hc

theorem within_lift (r : Except Error α) : Within g n (Program.lift r) :=
  ⟨fun _ => Nat.zero_le _, fun _ _ hb => (by cases hb)⟩

theorem within_pure (a : α) : Within g n (pure a : Visits α) :=
  ⟨fun _ => Nat.zero_le _, fun _ _ hb => (by cases hb)⟩

theorem within_deref {block : ℕ} (h : block < g.blockCount) : Within g 1 (deref block) :=
  ⟨fun _ => Nat.le_refl _, fun _ _ hb => List.mem_singleton.1 hb ▸ h⟩

/-- A block that passes the check. -/
theorem Within.checked {b : ℕ} {f : ℕ → Visits β} (h : b < g.blockCount → Within g k (f b)) :
    Within g k (Program.lift (requireInBounds g b) >>= f) := by
  have hbind : Within g (0 + k) (Program.lift (requireInBounds g b) >>= f) := by
    refine (within_lift _).bind fun d c hc => ?_
    obtain ⟨hb, rfl⟩ := requireInBounds_eq_ok.1 hc
    exact h hb
  rwa [Nat.zero_add] at hbind

theorem within_collect (fuel head index : ℕ) : Within g fuel (collectVisits g fuel head index) := by
  induction fuel generalizing head index with
  | zero => exact within_lift (.error .corrupt)
  | succ fuel ih =>
      refine Within.checked fun hhead => .ite (fun _ => within_pure _) fun _ => ?_
      rw [Nat.add_comm]
      refine (within_deref hhead).bind fun _ b _ => .ite (fun _ => ?_) fun _ => ?_
      · exact Within.checked fun _ => (ih _ _).bind (k := 0) fun _ rest _ => within_pure _
      · exact (ih _ _).bind (k := 0) fun _ rest _ => within_pure _

theorem within_mark (fuel head index : ℕ) (used : Bitmap) :
    Within g fuel (markVisits g fuel head index used) := by
  induction fuel generalizing head index used with
  | zero => exact within_lift (.error .corrupt)
  | succ fuel ih =>
      have hset : ∀ (r : Except Error Bitmap) (f : Bitmap → Visits Bitmap) {n : ℕ},
          (∀ used, Within g n (f used)) → Within g n (Program.lift r >>= f) := fun r f n hf =>
        ((within_lift (n := 0) r).bind fun _ used _ => hf used).mono (Nat.le_of_eq (Nat.zero_add n))
      refine Within.checked fun hhead => hset _ _ fun used => .ite (fun _ => within_pure _) fun _ =>
        ?_
      rw [Nat.add_comm]
      refine (within_deref hhead).bind fun _ b _ => .ite (fun _ => ?_) fun _ => ih _ _ _
      exact Within.checked fun _ => hset _ _ fun used => ih _ _ _

/-! ### Hops of the descent -/

theorem trailingZeros_spec {fuel n : ℕ} (hpos : 0 < n) (hlt : n < 2 ^ fuel) :
    ∃ m, n = 2 ^ trailingZeros fuel n * (2 * m + 1) := by
  induction fuel generalizing n with
  | zero => omega
  | succ fuel ih =>
      rw [trailingZeros]
      by_cases hodd : n % 2 = 1
      · rw [if_pos hodd]
        exact ⟨n / 2, by omega⟩
      · rw [if_neg hodd]
        obtain ⟨m, hm⟩ := ih (n := n / 2) (by omega) (by omega)
        refine ⟨m, ?_⟩
        rw [Nat.pow_succ, Nat.mul_right_comm, ← hm]
        omega

theorem le_trailingZeros {fuel n z : ℕ} (hpos : 0 < n) (hlt : n < 2 ^ fuel) (h : 2 ^ z ∣ n) :
    z ≤ trailingZeros fuel n := by
  by_contra hgt
  obtain ⟨m, hm⟩ := trailingZeros_spec hpos hlt
  have hdvd : 2 ^ (trailingZeros fuel n + 1) ∣ n :=
    Nat.dvd_trans (Nat.pow_dvd_pow 2 (Nat.lt_of_not_le hgt)) h
  conv_rhs at hdvd => rw [hm]
  rw [Nat.pow_succ, Nat.mul_dvd_mul_iff_left (Nat.two_pow_pos _)] at hdvd
  omega

/-- A hop that takes off the lowest bit of the index lands on one with more trailing zeros. -/
theorem dvd_sub_lowest {n : ℕ} (hpos : 0 < n) (hlt : n < 2 ^ 32) :
    2 ^ (trailingZeros 32 n + 1) ∣ n - 2 ^ trailingZeros 32 n := by
  obtain ⟨m, hm⟩ := trailingZeros_spec hpos hlt
  generalize trailingZeros 32 n = z at hm ⊢
  refine ⟨m, ?_⟩
  rw [hm, Nat.mul_add, Nat.mul_one, Nat.add_sub_cancel, Nat.pow_succ, Nat.mul_assoc]

theorem trailingZeros_dvd {n : ℕ} (hpos : 0 < n) (hlt : n < 2 ^ 32) :
    2 ^ trailingZeros 32 n ∣ n := by
  obtain ⟨m, hm⟩ := trailingZeros_spec hpos hlt
  exact ⟨2 * m + 1, hm⟩

/-- From an index with `z` trailing zeros the descent over a gap of `b` bits takes at most
`2 * b - z` hops: up to `b - z` while the zeros are fewer than the bits, then one for each
bit. -/
theorem within_seek {target fuel cur idx b z : ℕ} (hcur : cur < g.blockCount)
    (hgap : idx - target < 2 ^ b) (hz : z ≤ b) (hdvd : 2 ^ z ∣ idx) (hidx : idx < 2 ^ 32) :
    Within g (2 * b - z) (seekVisits g target fuel cur idx) := by
  induction fuel generalizing cur idx b z with
  | zero => exact within_pure _
  | succ fuel ih =>
      refine .ite (fun hlt => ?_) fun _ => within_pure _
      have hpos : 0 < idx := by omega
      have hgap' : 2 ^ Nat.log2 (idx - target) ≤ idx - target := Nat.log2_self_le (by omega)
      have hlog : Nat.log2 (idx - target) < b :=
        (Nat.log2_lt (by omega)).2 hgap
      have hzeros := le_trailingZeros hpos hidx hdvd
      have hhop : ∀ rest k, 1 + rest ≤ 2 * b - z →
          (∀ next, next < g.blockCount →
            Within g rest (seekVisits g target fuel next (idx - 2 ^ k))) →
          Within g (2 * b - z) (do
            let blk ← deref cur
            let next ← Program.lift (requireInBounds g (blk.word k))
            seekVisits g target fuel next (idx - 2 ^ k)) := by
        intro rest k hle hrest
        refine ((within_deref hcur).bind (k := rest) fun _ blk _ => ?_).mono hle
        exact Within.checked fun hnext => hrest _ hnext
      by_cases hclimb : trailingZeros 32 idx < Nat.log2 (idx - target)
      · -- climbing: one more trailing zero, and the gap has no more bits
        rw [Nat.min_eq_right (Nat.le_of_lt hclimb)]
        refine hhop (2 * b - (trailingZeros 32 idx + 1)) _ (by omega) fun next hnext => ?_
        refine ih hnext ?_ (by omega) (dvd_sub_lowest hpos hidx)
          (Nat.lt_of_le_of_lt (Nat.sub_le _ _) hidx)
        rw [Nat.sub_right_comm]
        exact Nat.lt_of_le_of_lt (Nat.sub_le _ _) hgap
      · -- descending: the highest bit of the gap is gone, and the index is aligned to it
        have hle : Nat.log2 (idx - target) ≤ trailingZeros 32 idx := Nat.le_of_not_lt hclimb
        rw [Nat.min_eq_left hle]
        refine hhop (2 * Nat.log2 (idx - target) - Nat.log2 (idx - target)) _ (by omega)
          fun next hnext => ?_
        have hlow : idx - target < 2 ^ (Nat.log2 (idx - target) + 1) := Nat.lt_log2_self
        have haligned : 2 ^ Nat.log2 (idx - target) ∣ idx :=
          Nat.dvd_trans (Nat.pow_dvd_pow 2 hle) (trailingZeros_dvd hpos hidx)
        rw [Nat.pow_succ] at hlow
        refine ih hnext ?_ (Nat.le_refl _) (Nat.dvd_sub haligned (Nat.dvd_refl _))
          (Nat.lt_of_le_of_lt (Nat.sub_le _ _) hidx)
        rw [Nat.sub_right_comm]
        omega

end Bounds

/-! ## The walks end by themselves -/

section Ends

variable {g : Geometry} {fuel : ℕ}

/-- The bound on the collecting loop is never reached. -/
theorem collectVisits_more {head index : ℕ} (h : index < fuel) (more : ℕ) :
    collectVisits g (fuel + more) head index = collectVisits g fuel head index := by
  induction fuel generalizing head index with
  | zero => omega
  | succ fuel ih =>
      rw [Nat.succ_add, collectVisits, collectVisits]
      refine bind_congr fun head => ?_
      split_ifs with hzero heven
      · rfl
      · refine bind_congr fun b => bind_congr fun ptr => ?_
        rw [ih (by omega)]
      · refine bind_congr fun b => ?_
        rw [ih (by omega)]

theorem seekVisits_more {target cur idx : ℕ} (h : idx ≤ target + fuel) (more : ℕ) :
    seekVisits g target (fuel + more) cur idx = seekVisits g target fuel cur idx := by
  induction fuel generalizing cur idx with
  | zero =>
      cases more with
      | zero => rfl
      | succ more =>
          rw [Nat.zero_add, seekVisits, seekVisits, if_neg (by omega)]
  | succ fuel ih =>
      rw [Nat.succ_add, seekVisits, seekVisits]
      split_ifs with hlt
      · refine bind_congr fun b => bind_congr fun next => ih ?_
        have hpos := Nat.two_pow_pos (min (Nat.log2 (idx - target)) (trailingZeros 32 idx))
        omega
      · rfl

theorem markVisits_more {head index : ℕ} {used : Bitmap} (h : index < fuel) (more : ℕ) :
    markVisits g (fuel + more) head index used = markVisits g fuel head index used := by
  induction fuel generalizing head index used with
  | zero => omega
  | succ fuel ih =>
      rw [Nat.succ_add, markVisits, markVisits]
      refine bind_congr fun head => bind_congr fun used => ?_
      split_ifs with hzero heven
      · rfl
      · exact bind_congr fun b => bind_congr fun ptr => bind_congr fun used => ih (by omega)
      · exact bind_congr fun b => ih (by omega)

end Ends

/-! ## The faults of a pointer -/

section Faults

variable {g : Geometry} {d : Device} {fuel head index : ℕ} {e : Error}

/-- A check of an address followed by a read of it. -/
theorem checked_error {α : Type} {b : ℕ} {f : ℕ → Except Error α}
    (h : (requireInBounds g b >>= f) = .error e) :
    e = .corrupt ∨ b < g.blockCount ∧ f b = .error e := by
  unfold requireInBounds at h
  split_ifs at h with hb
  · exact .inr ⟨hb, h⟩
  · cases h
    exact .inl rfl

theorem read_error {α : Type} {b : ℕ} {f : Block → Except Error α}
    (hdev : d.blocks.length = g.blockCount) (hb : b < g.blockCount)
    (h : (d.read b >>= f) = .error e) : f (d.get b) = .error e := by
  rw [Device.read_eq_ok.2 ⟨hdev ▸ hb, rfl⟩] at h
  exact h

theorem bind_pure_error {α β : Type} {x : Except Error α} {f : α → β}
    (h : (x >>= fun a => pure (f a)) = .error e) : x = .error e := by
  cases x with
  | error e' => exact congrArg Except.error (Except.error.inj h)
  | ok a => cases h

theorem collectFrom_error (hdev : d.blocks.length = g.blockCount)
    (h : collectFrom g d fuel head index = .error e) : e = .corrupt := by
  induction fuel generalizing head index with
  | zero =>
      cases h
      rfl
  | succ fuel ih =>
      rcases checked_error h with he | ⟨hhead, h⟩
      · exact he
      split_ifs at h with hzero heven
      · cases h
      · rcases checked_error (read_error hdev hhead h) with he | ⟨-, h⟩
        · exact he
        · exact ih (bind_pure_error h)
      · exact ih (bind_pure_error (read_error hdev hhead h))

theorem seekFrom_error (hdev : d.blocks.length = g.blockCount) {target cur idx : ℕ}
    (hcur : cur < g.blockCount) (h : seekFrom g d target fuel cur idx = .error e) :
    e = .corrupt := by
  induction fuel generalizing cur idx with
  | zero => cases h
  | succ fuel ih =>
      rw [seekFrom] at h
      split_ifs at h
      rcases checked_error (read_error hdev hcur h) with he | ⟨hnext, h⟩
      · exact he
      · exact ih hnext h

/-- The tracked blocks include the device. -/
theorem set_inBounds (hcap : g.blockCount ≤ maxTrackedBlocks) {b : ℕ} (hb : b < g.blockCount)
    (used : Bitmap) : ∃ used', used.set b = .ok used' :=
  Bitmap.exists_set used (Nat.lt_of_lt_of_le hb hcap)

theorem markChainFrom_error (hdev : d.blocks.length = g.blockCount)
    (hcap : g.blockCount ≤ maxTrackedBlocks) {used : Bitmap}
    (h : Alloc.markChainFrom g d fuel head index used = .error e) : e = .corrupt := by
  induction fuel generalizing head index used with
  | zero =>
      cases h
      rfl
  | succ fuel ih =>
      rcases checked_error h with he | ⟨hhead, h⟩
      · exact he
      obtain ⟨used₁, hset⟩ := set_inBounds hcap hhead used
      rw [hset] at h
      simp only [bind, Except.bind] at h
      split_ifs at h with hzero heven
      · cases h
      · rcases checked_error (read_error hdev hhead h) with he | ⟨hptr, h⟩
        · exact he
        obtain ⟨used₂, hset₂⟩ := set_inBounds hcap hptr used₁
        rw [hset₂] at h
        exact ih h
      · exact ih (read_error hdev hhead h)

theorem collectFrom_head {blocks : List ℕ} (h : collectFrom g d fuel head index = .ok blocks) :
    blocks[index]? = some head := by
  have hlen := collectFrom_length h
  have hlast : blocks.getLast? = some head := by
    cases fuel with
    | zero => cases h
    | succ fuel =>
        obtain ⟨-, hstep⟩ := collectFrom_eq_ok h
        rcases hstep with ⟨-, rfl⟩ | ⟨-, -, -, rest, -, rfl⟩ | ⟨-, rest, -, rfl⟩ <;> simp
  rw [List.getLast?_eq_getElem?, hlen] at hlast
  exact hlast

end Faults

/-! ## The walks agree -/

section Agreement

variable {g : Geometry} {d : Device} {head n capacity : ℕ} {blocks : List ℕ}

/-- What the descent and the marking walk make of a chain of `n` blocks. -/
structure Agrees (g : Geometry) (d : Device) (head n : ℕ) (blocks : List ℕ) : Prop where
  found : ∀ target < n, ∃ block, blocks[target]? = some block ∧
    ((seekBlockVisits g head (n - 1) target) d).result = .ok block ∧
    ((seekBlockVisits g head (n - 1) target) d).events.length ≤ 2 * (Nat.log2 n + 1)
  marked : ∀ size used, blockCount size g.blockSize = n →
    ∃ used', ((walkCtzVisits g head size used) d).result = .ok used' ∧
      ∀ b, b ∈ used'.marked ↔ b ∈ used.marked ∨ b ∈ blocks

/-- What the three walks do on any device: they end by themselves, dereference blocks of the
device only, and call a faulty pointer corrupt. -/
structure Guarded (g : Geometry) (d : Device) (head n capacity : ℕ) : Prop where
  collect_reads : Within g n (collectChainVisits g head n capacity)
  collect_ends : ∀ more, collectVisits g (n + more) head (n - 1) = collectVisits g n head (n - 1)
  seek_reads : ∀ target, Within g (2 * (Nat.log2 n + 1)) (seekBlockVisits g head (n - 1) target)
  seek_ends : ∀ target cur more, seekVisits g target (n - 1 + more) cur (n - 1) =
    seekVisits g target (n - 1) cur (n - 1)
  seek_fault : ∀ target < n, (∃ block, ((seekBlockVisits g head (n - 1) target) d).result =
    .ok block) ∨
    ((seekBlockVisits g head (n - 1) target) d).result = .error .corrupt
  walk_reads : ∀ size used, blockCount size g.blockSize = n →
    Within g n (walkCtzVisits g head size used)
  walk_ends : ∀ used more, markVisits g (n + more) head (n - 1) used =
    markVisits g n head (n - 1) used
  faults : ∀ size used, blockCount size g.blockSize = n → n ≤ capacity →
    ((∃ blocks, ((collectChainVisits g head n capacity) d).result = .ok blocks) ∧
      ∃ used', ((walkCtzVisits g head size used) d).result = .ok used') ∨
    ((collectChainVisits g head n capacity) d).result = .error .corrupt ∧
      ((walkCtzVisits g head size used) d).result = .error .corrupt

theorem within_seekBlock (hn : 1 ≤ n) (hsmall : n ≤ 2 ^ 32) (target : ℕ) :
    Within g (2 * (Nat.log2 n + 1)) (seekBlockVisits g head (n - 1) target) := by
  have hgap : n < 2 ^ (Nat.log2 n + 1) := Nat.lt_log2_self
  refine .ite (fun _ => within_lift (.error .outOfRange)) fun _ => Within.checked fun hhead => ?_
  exact within_seek (b := Nat.log2 n + 1) (z := 0) hhead (by omega) (Nat.zero_le _)
    (Nat.one_dvd _) (by omega)

theorem collectChain_eq (hn : 1 ≤ n) (hroom : n ≤ capacity) :
    collectChainBlocks g d head n capacity = collectFrom g d n head (n - 1) := by
  rw [collectChainBlocks, if_neg (by omega), if_neg (by omega)]

theorem walkCtzChain_eq (hn : 1 ≤ n) (hle : n ≤ g.blockCount) {size : ℕ}
    (hsize : blockCount size g.blockSize = n) (used : Bitmap) :
    Alloc.walkCtzChain g d head size used = Alloc.markChainFrom g d n head (n - 1) used := by
  have hpos : size ≠ 0 := fun hzero => by
    rw [blockCount_eq_zero.2 hzero] at hsize
    omega
  simp only [Alloc.walkCtzChain]
  rw [if_neg hpos, hsize, if_neg (by omega)]

/-- The collecting walk and the marking walk end alike. -/
theorem collect_mark (hdev : d.blocks.length = g.blockCount)
    (hcap : g.blockCount ≤ maxTrackedBlocks) (index fuel : ℕ) (used : Bitmap) :
    (∃ blocks used', collectFrom g d fuel head index = .ok blocks ∧
      Alloc.markChainFrom g d fuel head index used = .ok used' ∧
        ∀ b, b ∈ used'.marked ↔ b ∈ used.marked ∨ b ∈ blocks) ∨
    collectFrom g d fuel head index = .error .corrupt ∧
      Alloc.markChainFrom g d fuel head index used = .error .corrupt := by
  cases hmark : Alloc.markChainFrom g d fuel head index used with
  | ok used' =>
      obtain ⟨blocks, hblocks, -, hmarks⟩ := markChainFrom_collects hmark
      exact .inl ⟨blocks, used', hblocks, rfl, hmarks⟩
  | error e =>
      obtain rfl := markChainFrom_error hdev hcap hmark
      cases hcollect : collectFrom g d fuel head index with
      | ok blocks =>
          obtain ⟨used', hused⟩ := exists_markChainFrom used hcollect fun b hb =>
            Nat.lt_of_lt_of_le (collectFrom_inBounds hcollect b hb) hcap
          rw [hmark] at hused
          cases hused
      | error e =>
          obtain rfl := collectFrom_error hdev hcollect
          exact .inr ⟨rfl, rfl⟩

theorem agrees_of_collect (hdev : d.blocks.length = g.blockCount)
    (hcap : g.blockCount ≤ maxTrackedBlocks) (hn : 1 ≤ n) (hle : n ≤ g.blockCount)
    (hcollect : collectChainBlocks g d head n capacity = .ok blocks)
    (hpointers : CarriesPointers d blocks) : Agrees g d head n blocks := by
  have hroom : n ≤ capacity := by
    by_contra hlt
    rw [collectChainBlocks, if_neg (by omega), if_pos (Nat.lt_of_not_le hlt)] at hcollect
    cases hcollect
  rw [collectChain_eq hn hroom] at hcollect
  have hlen := collectFrom_length hcollect
  have hsmall : n ≤ 2 ^ 32 := hle.trans (hcap.trans (by decide))
  constructor
  · intro target htarget
    obtain ⟨block, hget⟩ : ∃ block, blocks[target]? = some block :=
      ⟨_, List.getElem?_eq_getElem (by omega)⟩
    refine ⟨block, hget, ?_, (within_seekBlock hn hsmall target).count d⟩
    rw [(returns_seekBlock head (n - 1) target).result]
    exact hpointers.seekBlock (collectFrom_inBounds hcollect) hdev (collectFrom_head hcollect) hget
      (by omega)
  · intro size used hsize
    rw [(returns_walkCtz head size used).result, walkCtzChain_eq hn hle hsize]
    rcases collect_mark hdev hcap (n - 1) n used with ⟨blocks', used', hblocks, hmark, hmarks⟩ |
      ⟨herr, -⟩
    · rw [hcollect] at hblocks
      cases hblocks
      exact ⟨used', hmark, hmarks⟩
    · rw [hcollect] at herr
      cases herr

theorem guarded_walks (hdev : d.blocks.length = g.blockCount)
    (hcap : g.blockCount ≤ maxTrackedBlocks) (hn : 1 ≤ n) (hle : n ≤ g.blockCount) :
    Guarded g d head n capacity := by
  have hsmall : n ≤ 2 ^ 32 := hle.trans (hcap.trans (by decide))
  constructor
  · exact .ite (fun _ => within_pure _) fun _ =>
      .ite (fun _ => within_lift (.error .outOfRange)) fun _ => within_collect _ _ _
  · exact collectVisits_more (by omega)
  · exact within_seekBlock hn hsmall
  · exact fun target cur => seekVisits_more (by omega)
  · intro target htarget
    rw [(returns_seekBlock head (n - 1) target).result]
    cases hseek : seekBlock g d head (n - 1) target with
    | ok block => exact .inl ⟨block, rfl⟩
    | error e =>
        rw [seekBlock, if_neg (by omega)] at hseek
        rcases checked_error hseek with rfl | ⟨hhead, hseek⟩
        · exact .inr rfl
        · rw [seekFrom_error hdev hhead hseek]
          exact .inr rfl
  · intro size used hsize
    refine .ite (fun _ => within_pure _) fun _ => .ite (fun _ => within_lift (.error .corrupt))
      fun _ => ?_
    rw [hsize]
    exact within_mark _ _ _ _
  · exact fun used => markVisits_more (by omega)
  · intro size used hsize hroom
    rw [(returns_collectChain head n capacity).result, (returns_walkCtz head size used).result,
      collectChain_eq hn hroom, walkCtzChain_eq hn hle hsize]
    rcases collect_mark hdev hcap (n - 1) n used with ⟨blocks, used', hblocks, hmark, -⟩ | hboth
    · exact .inl ⟨⟨blocks, hblocks⟩, used', hmark⟩
    · exact .inr hboth

/-- The traversals agree on a chain whose blocks carry the pointers of a written chain, and on
any device they stay inside it and end alike. -/
theorem traversals_agree (hdev : d.blocks.length = g.blockCount)
    (hcap : g.blockCount ≤ maxTrackedBlocks) (hn : 1 ≤ n) (hle : n ≤ g.blockCount) :
    (∀ blocks, ((collectChainVisits g head n capacity) d).result = .ok blocks →
      CarriesPointers d blocks → Agrees g d head n blocks) ∧
    Guarded g d head n capacity := by
  refine ⟨fun blocks hcollect hpointers => ?_, guarded_walks hdev hcap hn hle⟩
  rw [(returns_collectChain head n capacity).result] at hcollect
  exact agrees_of_collect hdev hcap hn hle hcollect hpointers

/-- A chain of three blocks on a device of three. -/
def threeBlocks : Device := ⟨[.raw [], .raw (le32 0), .raw (le32 1 ++ le32 0)]⟩

theorem threeBlocks_pointers : CarriesPointers threeBlocks [0, 1, 2] := by
  have hbounded : ∀ i < 3, ∀ block, [0, 1, 2][i]? = some block → ∀ k < skipPointersInBlock i,
      [0, 1, 2][i - 2 ^ k]? = some ((threeBlocks.get block).word k) := by decide
  intro i block hblock k hk
  have hi : i < 3 := (List.getElem?_eq_some_iff.1 hblock).1
  exact ⟨_, hbounded i hi block hblock k hk, rfl⟩

theorem traversals_agree_three : Agrees ⟨1, 1, 128, 3, 0⟩ threeBlocks 2 3 [0, 1, 2] :=
  (@traversals_agree _ _ _ _ 3 (by decide) (by decide) (by decide) (by decide)).1 _
    (by rfl) threeBlocks_pointers

end Agreement

end Ctz
end LittlefsPure
