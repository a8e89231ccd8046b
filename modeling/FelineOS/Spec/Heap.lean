import FelineOS.Kernel.Heap
import FelineOS.Library.Chain
import FelineOS.Library.Tiling

/-!
# What the heap is

The heap is a list of reserved pages, each a list of blocks: a block is a header together with
the bytes behind it. `Listed` reads such a list off the memory, header by header. `PageLayout`
is what a page looks like between calls: its blocks tile it, no two free neighbours are left
and some block is handed out. `HeapInv` adds how the pages and the blocks answer to the memory
manager and to the callers.
-/

namespace FelineOS.Malloc

open Library

namespace Heap

variable (h : Heap)

/-- The forward link of a header. -/
def next (addr : Nat) : Option Nat := (h.mem addr).next

/-- The back link of a header. -/
def prev (addr : Nat) : Option Nat := (h.mem addr).prev

/-- The header in front of a block says what the block is. -/
structure Describes (b : Block) : Prop where
  /-- The recorded length is that of the bytes behind the header. -/
  len : (h.mem b.start).len + headerSize = b.size
  /-- The flag of the block. -/
  inUse : (h.mem b.start).inUse = b.used
  /-- The mark of the first block of a page. -/
  startOfAllocation : (h.mem b.start).startOfAllocation = decide (defaultMemreserveSize ∣ b.start)

/-- The number of bytes behind the header that a caller's pointer belongs to. -/
def payloadLen (ptr : Nat) : Nat := (h.mem (ptr - headerSize)).len

/-- The headers of the blocks are doubly linked in this order and describe them. -/
structure Listed (bs : List Block) : Prop where
  /-- The links. -/
  links : Chain h.next h.prev none (bs.map Block.start) none
  /-- The headers. -/
  describes : ∀ b ∈ bs, h.Describes b

end Heap

/-- A reserved page: its address and its blocks. -/
abbrev Page := Nat × List Block

/-- The blocks of all pages, in list order. -/
def blocksOf (pages : List Page) : List Block := pages.flatMap Prod.snd

/-- The bytes a caller may use in a block. -/
def payload (b : Block) : Nat := b.start + headerSize

/-- What `malloc` makes of the free block it settles on: the request, rounded up to whole
headers, and a free rest when there is room for its header. -/
def carve (size : Nat) (b : Block) : List Block :=
  if size + headerSize + headerSize < b.size then
    [b.front (roundToMultipleOf size headerSize + headerSize),
      b.back (roundToMultipleOf size headerSize + headerSize)]
  else [{ b with used := true }]

/-- A page as `get_mem` hands it out: one free block. -/
def freshBlock (addr : Nat) : Block := ⟨addr, defaultMemreserveSize, false⟩

/-- The geometry of a page: its blocks tile it and have whole headers. -/
structure PageGrid (page : Page) : Prop where
  /-- The page is aligned. -/
  aligned : defaultMemreserveSize ∣ page.1
  /-- The page is not at the null address. -/
  nonnull : 0 < page.1
  /-- The end of the page is an address. -/
  bounded : page.1 + defaultMemreserveSize < wordLimit
  /-- The blocks tile the page. -/
  tiles : Tiles page.1 page.2 (page.1 + defaultMemreserveSize)
  /-- Every block has a header and a whole number of units behind it. -/
  grain : ∀ b ∈ page.2, headerSize ∣ b.size ∧ headerSize ≤ b.size

/-- A page between two calls. -/
structure PageLayout (page : Page) : Prop extends PageGrid page where
  /-- Free neighbours have been merged. -/
  settled : Coalesced page.2
  /-- Some block is handed out. -/
  occupied : ∃ b ∈ page.2, b.used = true

/-- A call of `malloc` returns after at most one request to the memory manager, with a block of
its own that holds the request. -/
def MakesProgress (calls : MemCalls) (h : Heap) (size : Nat) : Prop :=
  ∃ fuel ptr h', h.malloc calls fuel size = .ok (ptr, h') ∧
    h'.obtained.length ≤ h.obtained.length + 1 ∧
    size ≤ h'.payloadLen ptr ∧ (h'.mem (ptr - headerSize)).inUse = true

/-- The invariant of the heap and its callers. -/
structure HeapInv (w : World) (pages : List Page) : Prop where
  /-- `first_header` is the first block of the first page. -/
  first : w.heap.firstHeader = ((blocksOf pages).map Block.start).head?
  /-- The memory holds the blocks of the pages. -/
  listed : w.heap.Listed (blocksOf pages)
  /-- Every page has its layout. -/
  layout : ∀ page ∈ pages, PageLayout page
  /-- No page is listed twice. -/
  distinct : (pages.map Prod.fst).Nodup
  /-- The pages are what `get_mem` handed out and `free_mem` has not taken back. -/
  ledger : w.heap.obtained.Perm ((pages.map fun page => (page.1, defaultMemreserveSize)) ++
    w.heap.returned)
  /-- Only whole pages were returned. -/
  whole : ∀ block ∈ w.heap.returned, block.2 = defaultMemreserveSize
  /-- The blocks handed out are those the callers hold. -/
  held : (w.live.map Prod.fst).Perm
    (((blocksOf pages).filter Block.used).map payload)
  /-- The callers got what they asked for. -/
  enough : ∀ block ∈ w.live, ∃ b ∈ blocksOf pages, b.used = true ∧ block.1 = payload b ∧
    block.2 + headerSize ≤ b.size

end FelineOS.Malloc
