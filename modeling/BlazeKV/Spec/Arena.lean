import BlazeKV.Lib.ByteMemory
import BlazeKV.Spec.Bytes

/-! `arena.hpp`: the slab allocator, whose free lists are threaded through the free blocks, and the
bump arena. Pointers are addresses; `fresh` is what `malloc` or `operator new` returns if called. -/

namespace BlazeKV

open Lib

/-- What `malloc` and `operator new` may return: a region that is aligned for every type, apart from
those in use. -/
structure NewRegion (used : List Span) (s : Span) : Prop where
  pos : s.start ≠ 0
  aligned : 16 ∣ s.start
  stop : s.stop ≤ 2 ^ 64
  apart : ∀ r ∈ used, s.Apart r

structure SlabAllocator where
  freeLists : List ℕ
  slabs : List ℕ
  liveBytes : ℕ
  largeBytes : ℕ

namespace SlabAllocator

def kAlign : ℕ := 16
def kMaxSmall : ℕ := 512
def kSlabSize : ℕ := 2 ^ 20
def kNumClasses : ℕ := kMaxSmall / kAlign

def empty : SlabAllocator := ⟨List.replicate kNumClasses 0, [], 0, 0⟩

def sizeClass (bytes : ℕ) : ℕ := (bytes + kAlign - 1) / kAlign - 1

/-- A round of the loop in `refill`: a node that points to the previous one. -/
def link (slab obj : ℕ) (acc : Ram × ℕ) (i : ℕ) : Ram × ℕ :=
  (store64 acc.1 (slab + i * obj) acc.2, slab + i * obj)

def refill (a : SlabAllocator) (m : Ram) (cls fresh : ℕ) : SlabAllocator × Ram × ℕ :=
  let obj := (cls + 1) * kAlign
  let count := kSlabSize / obj
  let r := (List.range count).foldl (link fresh obj) (m, 0)
  ({ a with slabs := a.slabs ++ [fresh], freeLists := a.freeLists.set cls r.2 }, r.1, r.2)

/-- What `allocate` does once it has a node of the class. -/
def pop (a : SlabAllocator) (m : Ram) (cls head : ℕ) : SlabAllocator :=
  { a with
    freeLists := a.freeLists.set cls (load64 m head)
    liveBytes := u64 (a.liveBytes + (cls + 1) * kAlign) }

def allocate (a : SlabAllocator) (m : Ram) (bytes fresh : ℕ) : SlabAllocator × Ram × ℕ :=
  let bytes := if bytes = 0 then 1 else bytes
  if bytes > kMaxSmall then ({ a with largeBytes := u64 (a.largeBytes + bytes) }, m, fresh)
  else
    let cls := sizeClass bytes
    let head := a.freeLists.getD cls 0
    let (a, m, head) := if head = 0 then a.refill m cls fresh else (a, m, head)
    (a.pop m cls head, m, head)

/-- What `deallocate` does with a small block; its link is written beside. -/
def push (a : SlabAllocator) (cls p : ℕ) : SlabAllocator :=
  { a with
    freeLists := a.freeLists.set cls p
    liveBytes := sub64 a.liveBytes ((cls + 1) * kAlign) }

def deallocate (a : SlabAllocator) (m : Ram) (p bytes : ℕ) : SlabAllocator × Ram :=
  if p = 0 then (a, m)
  else
    let bytes := if bytes = 0 then 1 else bytes
    if bytes > kMaxSmall then ({ a with largeBytes := sub64 a.largeBytes bytes }, m)
    else
      let cls := sizeClass bytes
      (a.push cls p, store64 m p (a.freeLists.getD cls 0))

end SlabAllocator

/-- `cur` is the position of the block that `cur_` points to. -/
structure BumpArena where
  blockSize : ℕ
  blocks : List Span
  cur : Option ℕ
  offset : ℕ

namespace BumpArena

def empty (blockSize : ℕ) : BumpArena := ⟨blockSize, [], none, 0⟩

/-- `(offset + align - 1) & ~(align - 1)`. -/
def roundUp (offset align : ℕ) : ℕ := u64 (offset + align - 1) &&& (2 ^ 64 - 1 - (align - 1))

def current (a : BumpArena) : Span := (a.cur.bind (a.blocks[·]?)).getD ⟨0, 0⟩

def grow (a : BumpArena) (need fresh : ℕ) : BumpArena :=
  let sz := if a.blockSize > need then a.blockSize else need
  { a with blocks := a.blocks ++ [⟨fresh, sz⟩], cur := some a.blocks.length, offset := 0 }

def allocate (a : BumpArena) (bytes align fresh : ℕ) : BumpArena × ℕ :=
  let off := roundUp a.offset align
  let (a, off) :=
    if a.cur = none ∨ u64 (off + bytes) > a.current.size then
      let a := a.grow (u64 (bytes + align)) fresh
      (a, roundUp a.offset align)
    else (a, off)
  ({ a with offset := u64 (off + bytes) }, a.current.start + off)

def reset (a : BumpArena) : BumpArena :=
  if a.blocks ≠ [] then { a with cur := some 0, offset := 0 } else a

end BumpArena

end BlazeKV
