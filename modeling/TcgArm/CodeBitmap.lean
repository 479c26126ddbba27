import TcgArm.BitScan
import TcgArm.Literals

/-! The lists of the translation blocks on each physical page under the software MMU
(`translate-all.c`), with the bitmap of the code bytes of a page that is built after a number of
stores to it and tested by later ones. A function that would follow a null pointer has no result.
Jump lists, jump caches and the dirty flags of the TLB, which nothing here reads, are left out. -/

namespace TcgArm.SoftMmu

open BitScan

variable {w : Nat}

/-- `BITMAP_LAST_WORD_MASK`. -/
def lastWordMask (w nbits : Nat) : BitVec w :=
  if nbits % w ≠ 0 then 1#w <<< (nbits % w) - 1#w else BitVec.allOnes w

def orWord (words : List (BitVec w)) (p : Nat) (mask : BitVec w) : List (BitVec w) :=
  words.set p (wordAt words p ||| mask)

/-- The loop of `bitmap_set`, with `bits` bits to set in word `p`. Every round leaves fewer bits. -/
def bitmapSetLoop (size : Nat) :
    Nat → List (BitVec w) → Nat → Nat → BitVec w → Nat → List (BitVec w)
  | 0, words, _, _, _, _ => words
  | fuel + 1, words, p, bits, mask, nr =>
    if bits ≤ nr then
      bitmapSetLoop size fuel (orWord words p mask) (p + 1) w (BitVec.allOnes w) (nr - bits)
    else if nr ≠ 0 then orWord words p (mask &&& lastWordMask w size)
    else words

def bitmapSet (words : List (BitVec w)) (start nr : Nat) : List (BitVec w) :=
  bitmapSetLoop (start + nr) (nr + 1) words (start / w) (w - start % w) (BitVec.allOnes w <<< (start % w)) nr

def targetPageBits : Nat := 10

def targetPageSize : Nat := 2 ^ targetPageBits

def vL2Size : Nat := 2 ^ 10

def smcBitmapUseThreshold : Nat := 10

/-- A translation block. The two page addresses are page numbers, the second is missing where the
block lies on one page. -/
structure Block where
  pc : BitVec 32
  size : Nat
  pageAddr : Fin 2 → Option Nat

/-- `tb->pc & ~TARGET_PAGE_MASK`. -/
def Block.offset (b : Block) : Nat := b.pc.toNat % targetPageSize

/-- `(tb->pc + tb->size) & ~TARGET_PAGE_MASK`. -/
def Block.endOffset (b : Block) : Nat := (b.pc + BitVec.ofNat 32 b.size).toNat % targetPageSize

/-- An element of a page list: a block and which of its two pages this is. -/
abbrev Entry := Nat × Fin 2

structure PageDesc (w : Nat) where
  firstTb : List Entry
  codeBitmap : Option (List (BitVec w))
  codeWriteCount : Nat

/-- The blocks, the pages and the hash table. `leaves` tells which tables of page descriptors have
been allocated; descriptors are allocated empty. -/
structure State (w : Nat) where
  tbs : Nat → Block
  nbTbs : Nat
  leaves : Nat → Bool
  pages : Nat → PageDesc w
  live : Finset Nat

def PageDesc.empty : PageDesc w := ⟨[], none, 0⟩

def State.initial : State w :=
  { tbs := fun _ => ⟨0, 0, fun _ => none⟩
    nbTbs := 0
    leaves := fun _ => false
    pages := fun _ => PageDesc.empty
    live := ∅ }

def State.pageFind (s : State w) (page : Nat) : Option (PageDesc w) :=
  if s.leaves (page / vL2Size) then some (s.pages page) else none

def State.setPage (s : State w) (page : Nat) (p : PageDesc w) : State w :=
  { s with pages := Function.update s.pages page p }

def PageDesc.invalidatePageBitmap (p : PageDesc w) : PageDesc w :=
  { p with codeBitmap := none, codeWriteCount := 0 }

def State.setPageAddr (s : State w) (tb : Nat) (n : Fin 2) (page : Option Nat) : State w :=
  let b := s.tbs tb
  { s with
    tbs := Function.update s.tbs tb { b with pageAddr := Function.update b.pageAddr n page } }

/-- `tb_alloc_page`, without the protection of the page. -/
def State.tbAllocPage (s : State w) (tb : Nat) (n : Fin 2) (page : Nat) : State w :=
  let s := s.setPageAddr tb n (some page)
  let s := { s with leaves := Function.update s.leaves (page / vL2Size) true }
  let p := s.pages page
  s.setPage page { p with firstTb := (tb, n) :: p.firstTb }.invalidatePageBitmap

def State.tbLinkPage (s : State w) (tb page : Nat) (page2 : Option Nat) : State w :=
  let s := { s with live := insert tb s.live }
  let s := s.tbAllocPage tb 0 page
  match page2 with
  | some page2 => s.tbAllocPage tb 1 page2
  | none => s.setPageAddr tb 1 none

/-- Does the last byte of the block lie on another page than its first one? -/
def crossesPage (pc : BitVec 32) (size : Nat) : Bool :=
  pc.toNat / targetPageSize ≠ (pc + BitVec.ofNat 32 size - 1).toNat / targetPageSize

/-- `tb_gen_code`: the new block at `pc`, on the physical page `page` and, where it crosses the
page, on `page2`. -/
def State.tbGenCode (s : State w) (pc : BitVec 32) (size page page2 : Nat) : State w :=
  let tb := s.nbTbs
  let s := { s with
    tbs := Function.update s.tbs tb ⟨pc, size, fun _ => none⟩
    nbTbs := s.nbTbs + 1 }
  s.tbLinkPage tb page (if crossesPage pc size then some page2 else none)

/-- `tb_page_remove` and `invalidate_page_bitmap` on one page: the first element for the block goes.
The search runs into the null pointer at the end of the list if there is none. -/
def State.tbPageRemove (s : State w) (tb page : Nat) : Option (State w) :=
  match s.pageFind page with
  | none => none
  | some p =>
    if p.firstTb.any (·.1 == tb) then
      some (s.setPage page { p with firstTb := p.firstTb.eraseP (·.1 == tb) }.invalidatePageBitmap)
    else none

/-- The block goes from the list of its page `n`, if it has that page. -/
def State.tbUnlink (s : State w) (tb : Nat) (n : Fin 2) : Option (State w) :=
  match (s.tbs tb).pageAddr n with
  | none => some s
  | some page => s.tbPageRemove tb page

/-- `tb_phys_invalidate(tb, -1)`. -/
def State.tbPhysInvalidate (s : State w) (tb : Nat) : Option (State w) :=
  (State.tbUnlink { s with live := s.live.erase tb } tb 0).bind fun s => s.tbUnlink tb 1

/-- `tb_flush`. -/
def State.tbFlush (s : State w) : State w :=
  { s with nbTbs := 0, live := ∅, pages := fun _ => PageDesc.empty }

/-- The physical bytes that the part of a block on its page `n` takes, as the slow path computes
them. -/
def Block.physStart (b : Block) (n : Fin 2) : Nat :=
  if n = 0 then ((b.pageAddr 0).getD 0) * targetPageSize + b.offset
  else ((b.pageAddr 1).getD 0) * targetPageSize

def Block.physEnd (b : Block) (n : Fin 2) : Nat :=
  if n = 0 then b.physStart n + b.size else b.physStart n + b.endOffset

def Block.hit (b : Block) (n : Fin 2) (start last : Nat) : Bool :=
  !(b.physEnd n ≤ start || b.physStart n ≥ last)

/-- What the list behind an element already read looks like once the block `tb` has been removed
from the page: the element itself is kept, its successors are read later. -/
def unlinked (tb : Nat) : List Entry → List Entry
  | [] => []
  | e :: rest => e :: rest.filter (·.1 ≠ tb)

/-- The loop of `tb_invalidate_phys_page_range` over the elements still to be visited. -/
def State.invalidateLoop (start last : Nat) : Nat → List Entry → State w → Option (State w)
  | 0, _, s => some s
  | _ + 1, [], s => some s
  | fuel + 1, (tb, n) :: rest, s =>
    if (s.tbs tb).hit n start last then
      (s.tbPhysInvalidate tb).bind (State.invalidateLoop start last fuel (unlinked tb rest))
    else State.invalidateLoop start last fuel rest s

def State.tbInvalidatePhysPageRange (s : State w) (start last : Nat) : Option (State w) :=
  let page := start / targetPageSize
  match s.pageFind page with
  | none => some s
  | some p =>
    (State.invalidateLoop start last p.firstTb.length p.firstTb s).map fun s =>
      if (s.pages page).firstTb = [] then
        s.setPage page (s.pages page).invalidatePageBitmap
      else s

/-- The offsets in the page of the part of a block on its page `n`, for the bitmap. -/
def Block.bitmapRange (b : Block) (n : Fin 2) : Nat × Nat :=
  if n = 0 then (b.offset, min (b.offset + b.size) targetPageSize) else (0, b.endOffset)

def buildPageBitmap (tbs : Nat → Block) (firstTb : List Entry) : List (BitVec w) :=
  firstTb.foldl (fun words e =>
      let range := (tbs e.1).bitmapRange e.2
      bitmapSet words range.1 (range.2 - range.1))
    (List.replicate ((targetPageSize + w - 1) / w) 0)

/-- Does the bitmap have a bit for the `len` bytes at the offset `nr`? Only the word of the first
byte is read. -/
def bitmapHit (words : List (BitVec w)) (nr len : Nat) : Bool :=
  ((wordAt words (nr / w) >>> (nr % w)) &&& (1#w <<< len - 1#w)) ≠ 0

/-- The count of a store, and the bitmap once there have been enough of them. -/
def PageDesc.countWrite (tbs : Nat → Block) (p : PageDesc w) : PageDesc w :=
  match p.codeBitmap with
  | some _ => p
  | none =>
    let count := p.codeWriteCount + 1
    { p with
      codeWriteCount := count
      codeBitmap :=
        if count ≥ smcBitmapUseThreshold then some (buildPageBitmap tbs p.firstTb) else none }

def State.tbInvalidatePhysPageFast (s : State w) (start len : Nat) : Option (State w) :=
  let page := start / targetPageSize
  match s.pageFind page with
  | none => some s
  | some p =>
    let p := p.countWrite s.tbs
    let s := s.setPage page p
    match p.codeBitmap with
    | some words =>
      if bitmapHit words (start % targetPageSize) len then
        s.tbInvalidatePhysPageRange start (start + len)
      else some s
    | none => s.tbInvalidatePhysPageRange start (start + len)

inductive Event
  | gen (pc : BitVec 32) (size page page2 : Nat)
  | invalidate (tb : Nat)
  | flush
  | range (start last : Nat)
  | store (start len : Nat)
  deriving DecidableEq

/-- One event. A block is no longer than a page: its instructions start on one page and only the
first of them may cross to the next one. -/
def State.step (s : State w) : Event → Option (State w)
  | .gen pc size page page2 =>
    if size ≤ targetPageSize then some (s.tbGenCode pc size page page2) else none
  | .invalidate tb => if tb < s.nbTbs then s.tbPhysInvalidate tb else none
  | .flush => some s.tbFlush
  | .range start last => s.tbInvalidatePhysPageRange start last
  | .store start len => s.tbInvalidatePhysPageFast start len

def State.run (s : State w) : List Event → Option (State w)
  | [] => some s
  | e :: events => (s.step e).bind fun s => s.run events

end TcgArm.SoftMmu
