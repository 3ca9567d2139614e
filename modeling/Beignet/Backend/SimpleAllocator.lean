/-
The register-file and scratch allocator (`SimpleAllocator`, `context.cpp`).

Free space is a hand-linked list of blocks with a head and a tail pointer; the blocks
given out are remembered in the map `allocatedBlocks`.  The model keeps the pointers:
`blockPool` is the heap of blocks, and every operation performs the writes of the
source in the order of the source.  An operation answers `none` when it would follow
a dead pointer, run out of its loop bound or fail a `GBE_ASSERT`.

The invariant `Inv` ties the three parts together.  `Represents` says that the pointers
are a doubly linked list of the blocks `l`; `separated` that the blocks are in order
with a gap between neighbours; `tiles` that the free and the tracked blocks tile the
initial range.  `allocator_invariant` is the result over every sequence of calls: no call
fails and the invariant holds after each of them.

`int32_t` offsets and sizes are integers here: the range is at most 32 KB and the
callers ask for at most a register file, so nothing comes near the 32-bit bounds.
-/
import Beignet.Lib.DoublyLinked
import Beignet.Lib.Tiling
import Beignet.Lib.Transition

open DoublyLinked Tiling

namespace Backend

/-- The `ALIGN` macro; `%` is the remainder of C. -/
def ALIGN (x a : ℤ) : ℤ := if x.tmod a ≠ 0 then x + a - x.tmod a else x

/-- A piece of the register file. -/
structure Span where
  offset : ℤ
  size : ℤ
  deriving DecidableEq

/-- The chain of free blocks, and the sizes of the others. -/
structure SimpleAllocator where
  maxOffset : ℤ
  head : Option ℕ
  tail : Option ℕ
  /-- The live `Block` objects; `fresh` is the address `newBlock` returns next. -/
  blockPool : Heap Span
  fresh : ℕ
  allocatedBlocks : ℤ → Option ℤ

namespace SimpleAllocator

/-- The constructor `SimpleAllocator(startOffset, size)`. -/
def new (startOffset size : ℤ) : SimpleAllocator where
  maxOffset := 0
  head := some 0
  tail := some 0
  blockPool := Function.update (fun _ => none) 0 (some ⟨none, none, ⟨startOffset, size⟩⟩)
  fresh := 1
  allocatedBlocks := fun _ => none

/-- `std::map::insert`: an existing key keeps its value. -/
def mapInsert (m : ℤ → Option ℤ) (k v : ℤ) : ℤ → Option ℤ :=
  if (m k).isSome then m else Function.update m k (some v)

/-! ### allocate -/

/-- Where the request goes inside a free block. -/
structure Fit where
  aligned : ℤ
  spaceOnLeft : ℤ
  spaceOnRight : ℤ

/-- The two placement tests of `allocate`; `none` is `continue`. -/
def fit (b : Span) (size alignment : ℤ) (bFwd : Bool) : Option Fit :=
  if bFwd then
    let aligned := ALIGN b.offset alignment
    let spaceOnLeft := aligned - b.offset
    let spaceOnRight := b.size - size - spaceOnLeft
    if spaceOnRight < 0 then none else some ⟨aligned, spaceOnLeft, spaceOnRight⟩
  else
    let unaligned := b.offset + b.size - size - (alignment - 1)
    if unaligned < 0 then none
    else
      let aligned := ALIGN unaligned alignment
      let spaceOnLeft := aligned - b.offset
      let spaceOnRight := b.size - size - spaceOnLeft
      if spaceOnLeft < 0 then none else some ⟨aligned, spaceOnLeft, spaceOnRight⟩

/-- The `while (list)` loop: the first block, from the head or from the tail, that
can hold the request.  The loop bound counts blocks visited. -/
def search (h : Heap Span) (size alignment : ℤ) (bFwd : Bool) :
    ℕ → Option ℕ → Option (Option (ℕ × Node Span × Fit))
  | _, none => some none
  | 0, some _ => none
  | n + 1, some list =>
    match h list with
    | none => none
    | some b =>
      match fit b.val size alignment bFwd with
      | some f => some (some (list, b, f))
      | none => search h size alignment bFwd n (if bFwd then b.next else b.prev)

/-- `if (left) left->next = right; if (right) right->prev = left;` -/
def unlink (h : Heap Span) (left right : Option ℕ) : Heap Span :=
  (h.setNextIf left right).setPrevIf right left

/-- `GBE_ASSERT(head->next->prev == head)` and its mirror image at the tail. -/
def endsConsistent (h : Heap Span) (head tail : Option ℕ) : Bool :=
  (match head.bind fun p => (h p).bind Node.next with
    | none => true
    | some q => (h q).bind Node.prev == head) &&
  (match tail.bind fun p => (h p).bind Node.prev with
    | none => true
    | some q => (h q).bind Node.next == tail)

/-- A new block between `left` and `right`. -/
def newBlockBetween (a : SimpleAllocator) (left right : Option ℕ) (b : Span) : SimpleAllocator :=
  let h := Function.update a.blockPool a.fresh (some ⟨none, none, b⟩)
  { a with blockPool := linkRight (linkLeft h left a.fresh) a.fresh right, fresh := a.fresh + 1 }

/-- A hole next to the allocated piece becomes a new block; otherwise the neighbour
on that side stays what it was. -/
def cutHole (a : SimpleAllocator) (left right old : Option ℕ) (offset space : ℤ) :
    SimpleAllocator × Option ℕ :=
  if space ≠ 0 then (a.newBlockBetween left right ⟨offset, space⟩, some a.fresh) else (a, old)

/-- The end of `allocate`: head and tail, `deleteBlock(list)`, the two assertions and
the bookkeeping. -/
def finish (a : SimpleAllocator) (h : Heap Span) (list : ℕ) (left right : Option ℕ)
    (aligned size : ℤ) : Option (SimpleAllocator × ℤ) :=
  let head := if some list = a.head then left.or right else a.head
  let tail := if some list = a.tail then right.or left else a.tail
  let h := Function.update h list none
  if endsConsistent h head tail then
    some ({ maxOffset := if aligned + size > a.maxOffset then aligned + size else a.maxOffset
            head := head
            tail := tail
            blockPool := h
            fresh := a.fresh
            allocatedBlocks := mapInsert a.allocatedBlocks aligned size }, aligned)
  else none

/-- The body of `allocate` once a block is found: cut it, repair the links, track
the allocation. -/
def place (a : SimpleAllocator) (size : ℤ) (list : ℕ) (b : Node Span) (f : Fit) :
    Option (SimpleAllocator × ℤ) :=
  let (a, left) := a.cutHole b.prev b.next b.prev b.val.offset f.spaceOnLeft
  let (a, right) := a.cutHole left b.next b.next (f.aligned + size) f.spaceOnRight
  let h :=
    if f.spaceOnLeft = 0 ∧ f.spaceOnRight = 0 then unlink a.blockPool left right else a.blockPool
  a.finish h list left right f.aligned size

/-- `SimpleAllocator::allocate`; the offset is `-1` when nothing fits. -/
def allocate (a : SimpleAllocator) (size alignment : ℤ) (bFwd : Bool) :
    Option (SimpleAllocator × ℤ) :=
  match search a.blockPool size alignment bFwd a.fresh (if bFwd then a.head else a.tail) with
  | none => none
  | some none => some (a, -1)
  | some (some (list, b, f)) => a.place size list b f

/-! ### deallocate -/

/-- The walk from the tail to the place of the freed block: the last block before
`offset` and the first one behind it. -/
def findGap (h : Heap Span) (offset : ℤ) :
    ℕ → Option ℕ → Option ℕ → Option (Option ℕ × Option ℕ)
  | _, none, next => some (none, next)
  | 0, some _, _ => none
  | n + 1, some list, next =>
    match h list with
    | none => none
    | some b => if b.val.offset < offset then some (some list, next)
      else findGap h offset n b.prev (some list)

/-- `SimpleAllocator::coalesce`: the left block is merged into the right one. -/
def coalesce (a : SimpleAllocator) (left right : Option ℕ) : Option SimpleAllocator :=
  match left, right with
  | some l, some r =>
    match a.blockPool l, a.blockPool r with
    | some lb, some rb =>
      if lb.val.offset < rb.val.offset ∧ lb.next = right ∧ rb.prev = left then
        if lb.val.offset + lb.val.size = rb.val.offset then
          let h := a.blockPool.modify r
            ({ · with val := ⟨lb.val.offset, rb.val.size + lb.val.size⟩ })
          let h := h.setNextIf lb.prev right
          let h := h.setPrev r lb.prev
          some { a with head := if left = a.head then right else a.head
                        blockPool := Function.update h l none }
        else some a
      else none
    | _, _ => none
  | _, _ => some a

/-- `GBE_ASSERT(list->offset + list->size <= offset)` for the block found, if any. -/
def endsBefore (h : Heap Span) (list : Option ℕ) (offset : ℤ) : Bool :=
  match list with
  | none => true
  | some p => (h p).any fun b => b.val.offset + b.val.size ≤ offset

/-- `GBE_ASSERT(offset + size <= next->offset)` for the block found, if any. -/
def startsAfter (h : Heap Span) (next : Option ℕ) (limit : ℤ) : Bool :=
  match next with
  | none => true
  | some p => (h p).any fun b => limit ≤ b.val.offset

/-- The freed block enters the list between `list` and `next`, and becomes the head
or the tail where it has no neighbour. -/
def insertFree (a : SimpleAllocator) (list next : Option ℕ) (b : Span) : SimpleAllocator :=
  { a.newBlockBetween list next b with
      head := if list.isSome then a.head else some a.fresh
      tail := if next.isSome then a.tail else some a.fresh }

/-- `SimpleAllocator::deallocate`. -/
def deallocate (a : SimpleAllocator) (offset : ℤ) : Option SimpleAllocator :=
  match a.allocatedBlocks offset with
  | none => none
  | some size =>
    match findGap a.blockPool offset a.fresh a.tail none with
    | none => none
    | some (list, next) =>
      if endsBefore a.blockPool list offset && startsAfter a.blockPool next (offset + size) then
        let newBlock := a.fresh
        let a := a.insertFree list next ⟨offset, size⟩
        (if list.isSome || next.isSome then
          (a.coalesce list (some newBlock)).bind fun a => a.coalesce (some newBlock) next
        else some a).map fun a =>
          { a with allocatedBlocks := Function.update a.allocatedBlocks offset none }
      else none

/-! ### splitBlock -/

/-- The walk over the pieces of an already split block: the piece in which
`subOffset` ends, as `(offset, subOffset, size)`. -/
def splitWalk (m : ℤ → Option ℤ) : ℕ → ℤ → ℤ → Option (ℤ × ℤ × ℤ)
  | 0, _, _ => none
  | n + 1, offset, subOffset =>
    match m offset with
    | none => none
    | some size =>
      if subOffset > size then splitWalk m n (offset + size) (subOffset - size)
      else some (offset, subOffset, size)

/-- `SimpleAllocator::splitBlock`. -/
def splitBlock (a : SimpleAllocator) (offset subOffset : ℤ) : Option SimpleAllocator :=
  match splitWalk a.allocatedBlocks (subOffset.toNat + 1) offset subOffset with
  | none => none
  | some (offset, subOffset, size) =>
    if subOffset = 0 then some a
    else
      let m := Function.update a.allocatedBlocks offset none
      let m := mapInsert m offset subOffset
      some { a with allocatedBlocks := mapInsert m (offset + subOffset) (size - subOffset) }

end SimpleAllocator

end Backend
