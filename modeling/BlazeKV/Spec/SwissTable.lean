import BlazeKV.Lib.BitMask

/-! `swiss_table.hpp`: an open-addressing table probed in unaligned, wrapping
groups of sixteen control bytes. A probe loop is given as many rounds as there
are groups; `none` means that it would go round again, and so for ever. -/

namespace BlazeKV

/-- Control bytes: `0x80` empty, `0xFE` deleted, below `0x80` full. -/
def kEmpty : UInt8 := 0x80
def kDeleted : UInt8 := 0xFE
def kGroup : ℕ := 16

/-- `ctrl_[i] >= 0` on the signed byte. -/
def isFull (c : UInt8) : Bool := c.toNat < 128

/-- The group primitives, one value for each build of the header. The masks
have `width` bits and a lane is the index of a bit shifted right by `shift`;
the laws are what every build has to meet. -/
structure GroupOps where
  width : ℕ
  shift : ℕ
  matchBits : (ℕ → UInt8) → UInt8 → ℕ
  matchEmpty : (ℕ → UInt8) → Bool
  matchEmptyOrDeleted : (ℕ → UInt8) → ℕ
  mem_lanes : ∀ g needle l,
    l ∈ (Lib.setBits width width (matchBits g needle)).map (· >>> shift) ↔ l < kGroup ∧ g l = needle
  matchEmpty_iff : ∀ g, matchEmpty g = true ↔ ∃ l < kGroup, g l = kEmpty
  free_eq_zero_iff : ∀ g, matchEmptyOrDeleted g = 0 ↔ ∀ l < kGroup, isFull (g l) = true
  first_free : ∀ g, matchEmptyOrDeleted g ≠ 0 →
    Lib.lowBit width (matchEmptyOrDeleted g) >>> shift < kGroup ∧
    isFull (g (Lib.lowBit width (matchEmptyOrDeleted g) >>> shift)) = false ∧
    ∀ l < Lib.lowBit width (matchEmptyOrDeleted g) >>> shift, isFull (g l) = true

namespace GroupOps

def ctz (G : GroupOps) (m : ℕ) : ℕ := Lib.lowBit G.width m >>> G.shift

/-- The lanes visited by `while (match) { ... ctz(match) ...; match &= match - 1; }`. -/
def lanes (G : GroupOps) (m : ℕ) : List ℕ := (Lib.setBits G.width G.width m).map (· >>> G.shift)

/-- The build without SIMD: plain loops over the sixteen bytes. -/
def scalar : GroupOps where
  width := 16
  shift := 0
  matchBits g needle := Lib.maskOf (fun i => g i = needle) kGroup
  matchEmpty g := (List.range kGroup).any fun i => g i = kEmpty
  matchEmptyOrDeleted g := Lib.maskOf (fun i => !isFull (g i)) kGroup
  mem_lanes g needle l := by
    simpa [kGroup] using Lib.mem_setBits_maskOf (fun i => decide (g i = needle)) (n := 16) l
  matchEmpty_iff g := by simp
  free_eq_zero_iff g := by simp [Lib.maskOf_eq_zero_iff]
  first_free g h := by
    obtain ⟨hbit, hlt, hlow⟩ := Lib.lowBit_spec h (Lib.maskOf_lt _ kGroup)
    rw [Lib.testBit_maskOf] at hbit
    simp only [Bool.and_eq_true, decide_eq_true_eq, Bool.not_eq_true'] at hbit
    refine ⟨hlt, hbit.2, fun l hl => ?_⟩
    have := hlow l hl
    rw [Lib.testBit_maskOf] at this
    simpa [show l < kGroup from lt_trans hl hlt] using this

end GroupOps

structure Slot (κ α : Type) where
  key : κ
  value : α
  deriving Inhabited

structure SwissTable (κ α : Type) where
  ctrl : List UInt8
  slots : List (Slot κ α)
  capacity : ℕ
  size : ℕ
  tombstones : ℕ

/-- Where the probe of `insert_or_assign` ends. -/
inductive Probe where
  | found (i : ℕ)
  | free (i : ℕ)

namespace SwissTable

variable {κ α : Type} [DecidableEq κ] [Inhabited κ] [Inhabited α]

def h1 (h : ℕ) : ℕ := h >>> 7
def h2 (h : ℕ) : UInt8 := UInt8.ofNat (h &&& 0x7F)

/-- `mask_` and `grow_at_` are set together with `capacity_` by `rehash`. -/
def mask (t : SwissTable κ α) : ℕ := t.capacity - 1
def growAt (t : SwissTable κ α) : ℕ := t.capacity * 7 / 8

def ctrlAt (t : SwissTable κ α) (i : ℕ) : UInt8 := t.ctrl.getD i kEmpty
def slotAt (t : SwissTable κ α) (i : ℕ) : Slot κ α := t.slots.getD i default

/-- The sixteen control bytes read at `pos`, not wrapped: the tail of `ctrl_`
mirrors its head. -/
def group (t : SwissTable κ α) (pos : ℕ) : ℕ → UInt8 := fun l => t.ctrlAt (pos + l)

def setCtrl (t : SwissTable κ α) (i : ℕ) (v : UInt8) : SwissTable κ α :=
  let c := t.ctrl.set i v
  { t with ctrl := if i < kGroup then c.set (t.capacity + i) v else c }

def setSlot (t : SwissTable κ α) (i : ℕ) (s : Slot κ α) : SwissTable κ α :=
  { t with slots := t.slots.set i s }

variable (G : GroupOps) (hash : κ → ℕ)

/-- The first lane of the group at `pos` whose tag and key both match. -/
def matchAt (t : SwissTable κ α) (pos : ℕ) (needle : UInt8) (k : κ) : Option ℕ :=
  ((G.lanes (G.matchBits (t.group pos) needle)).find? fun l =>
    (t.slotAt ((pos + l) &&& t.mask)).key = k).map fun l => (pos + l) &&& t.mask

/-- The loop shared by `find` and `erase`: the slot of `k`, or `none` at an empty byte. -/
def findLoop (t : SwissTable κ α) (needle : UInt8) (k : κ) : ℕ → ℕ → Option (Option ℕ)
  | 0, _ => none
  | fuel + 1, pos =>
    match t.matchAt G pos needle k with
    | some i => some (some i)
    | none =>
      if G.matchEmpty (t.group pos) then some none
      else findLoop t needle k fuel ((pos + kGroup) &&& t.mask)

def findSlot (t : SwissTable κ α) (k : κ) : Option (Option ℕ) :=
  t.findLoop G (h2 (hash k)) k (t.capacity / kGroup) (h1 (hash k) &&& t.mask)

def find (t : SwissTable κ α) (k : κ) : Option (Option α) :=
  (t.findSlot G hash k).map fun r => r.map fun i => (t.slotAt i).value

def insertLoop (t : SwissTable κ α) (needle : UInt8) (k : κ) : ℕ → ℕ → Option ℕ → Option Probe
  | 0, _, _ => none
  | fuel + 1, pos, insertAt =>
    match t.matchAt G pos needle k with
    | some i => some (.found i)
    | none =>
      let empties := G.matchEmptyOrDeleted (t.group pos)
      if empties ≠ 0 then
        let at' := insertAt.getD ((pos + G.ctz empties) &&& t.mask)
        if G.matchEmpty (t.group pos) then some (.free at')
        else insertLoop t needle k fuel ((pos + kGroup) &&& t.mask) (some at')
      else insertLoop t needle k fuel ((pos + kGroup) &&& t.mask) insertAt

def insertMovedLoop (t : SwissTable κ α) : ℕ → ℕ → Option ℕ
  | 0, _ => none
  | fuel + 1, pos =>
    let empties := G.matchEmptyOrDeleted (t.group pos)
    if empties ≠ 0 then some ((pos + G.ctz empties) &&& t.mask)
    else insertMovedLoop t fuel ((pos + kGroup) &&& t.mask)

def insertMoved (t : SwissTable κ α) (k : κ) (v : α) : Option (SwissTable κ α) :=
  (t.insertMovedLoop G (t.capacity / kGroup) (h1 (hash k) &&& t.mask)).map fun i =>
    { (t.setCtrl i (h2 (hash k))).setSlot i ⟨k, v⟩ with size := t.size + 1 }

/-- What `for_each` visits, in slot order. -/
def forEach (t : SwissTable κ α) : List (κ × α) :=
  ((List.range t.capacity).filter fun i => isFull (t.ctrlAt i)).map fun i =>
    ((t.slotAt i).key, (t.slotAt i).value)

/-- The arrays as `rehash` allocates them, before the old entries move in. -/
def fresh (newCap : ℕ) : SwissTable κ α where
  ctrl := List.replicate (newCap + kGroup) kEmpty
  slots := List.replicate newCap default
  capacity := newCap
  size := 0
  tombstones := 0

def rehash (t : SwissTable κ α) (newCap : ℕ) : Option (SwissTable κ α) :=
  t.forEach.foldlM (fun t' e => t'.insertMoved G hash e.1 e.2) (fresh newCap)

/-- The constructor, `rehash(kGroup)` with no old arrays. -/
def new : SwissTable κ α := fresh kGroup

/-- Growth or same-size cleaning, decided before the key is looked for. -/
def makeRoom (t : SwissTable κ α) : Option (SwissTable κ α) :=
  if t.size + 1 > t.growAt then t.rehash G hash (t.capacity * 2)
  else if t.size + t.tombstones + 1 > t.growAt then t.rehash G hash t.capacity
  else some t

def put (t : SwissTable κ α) (i : ℕ) (k : κ) (v : α) : SwissTable κ α :=
  { (t.setCtrl i (h2 (hash k))).setSlot i ⟨k, v⟩ with
    size := t.size + 1
    tombstones := if t.ctrlAt i = kDeleted then t.tombstones - 1 else t.tombstones }

def insertOrAssign (t : SwissTable κ α) (k : κ) (v : α) : Option (SwissTable κ α × Bool) := do
  let t ← t.makeRoom G hash
  match ← t.insertLoop G (h2 (hash k)) k (t.capacity / kGroup) (h1 (hash k) &&& t.mask) none with
  | .found i => some (t.setSlot i { t.slotAt i with value := v }, false)
  | .free i => some (t.put hash i k v, true)

def eraseAt (t : SwissTable κ α) (i : ℕ) : SwissTable κ α :=
  { (t.setCtrl i kDeleted).setSlot i default with
    size := t.size - 1
    tombstones := t.tombstones + 1 }

def erase (t : SwissTable κ α) (k : κ) : Option (SwissTable κ α × Bool) :=
  (t.findSlot G hash k).map fun
    | some i => (t.eraseAt i, true)
    | none => (t, false)

/-- `while (need * 7 / 8 < n) need *= 2`, which needs at most `n` doublings. -/
def reserveLoop (n : ℕ) : ℕ → ℕ → ℕ
  | 0, need => need
  | fuel + 1, need => if need * 7 / 8 < n then reserveLoop n fuel (need * 2) else need

def reserve (t : SwissTable κ α) (n : ℕ) : Option (SwissTable κ α) :=
  let need := reserveLoop n n 8
  if need > t.capacity then t.rehash G hash need else some t

def clear (t : SwissTable κ α) : SwissTable κ α where
  ctrl := List.replicate (t.capacity + kGroup) kEmpty
  slots := List.replicate t.capacity default
  capacity := t.capacity
  size := 0
  tombstones := 0

end SwissTable

end BlazeKV
