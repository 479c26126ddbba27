import TcgArm.BitScan

/-! Hierarchical bitmaps: arrays of words over each other, in which a bit says whether a word of the
next array has bits. Shifts by the bits of a level are divisions here. A failed assertion, and an access
behind the end of an array, has no result. -/

namespace TcgArm.HBitmaps

open TcgArm.BitScan Function

/-- The hosts, by the size of a long. -/
inductive Long where
  | bits32
  | bits64
  deriving DecidableEq, Repr

namespace Long

def bitsPerLevel : Long → Nat
  | bits32 => 5
  | bits64 => 6

/-- `HBITMAP_LOG_MAX_SIZE`. -/
def logMaxSize : Long → Nat
  | bits32 => 34
  | bits64 => 41

/-- `HBITMAP_LEVELS`. -/
def numLevels (h : Long) : Nat := h.logMaxSize / h.bitsPerLevel + 1

def bitsPerLong (h : Long) : Nat := 2 ^ h.bitsPerLevel

def last (h : Long) : Nat := h.numLevels - 1

end Long

abbrev Word (h : Long) := BitVec h.bitsPerLong

/-- `struct HBitmap`. The sizes of the levels are the lengths of their arrays. -/
structure HBitmap (h : Long) where
  size : Nat
  count : Nat
  granularity : Nat
  levels : Nat → List (Word h)

section Model

variable {h : Long}

def numWords (h : Long) (size : Nat) : Nat := max ((size + h.bitsPerLong - 1) / h.bitsPerLong) 1

/-- The size in groups, as the 64-bit sum gives it. -/
def groupsFor (size granularity : Nat) : Nat := ((size + 2 ^ granularity - 1) % 2 ^ 64) >>> granularity

def sentinel (h : Long) : Word h := 1#_ <<< (h.bitsPerLong - 1)

/-- The levels below `i`, for a size of the level above them. -/
def allocLevels (h : Long) : Nat → Nat → (Nat → List (Word h)) → Nat × (Nat → List (Word h))
  | 0, size, levels => (size, levels)
  | i + 1, size, levels =>
    let size := numWords h size
    allocLevels h i size (update levels i (List.replicate size 0))

def hbitmapAlloc (h : Long) (size granularity : Nat) : Option (HBitmap h) :=
  if granularity < 64 ∧ groupsFor size granularity ≤ 2 ^ h.logMaxSize then
    let (top, levels) := allocLevels h h.numLevels (groupsFor size granularity) fun _ => []
    if top = 1 then
      some ⟨groupsFor size granularity, 0, granularity,
        update levels 0 ((levels 0).modify 0 (· ||| sentinel h))⟩
    else none
  else none

structure Iter (h : Long) where
  pos : Nat
  cur : Nat → Word h

/-- The path of an iterator, in the levels below `i`. -/
def iterPath (hb : HBitmap h) : Nat → Nat → (Nat → Word h) → Option (Nat → Word h)
  | 0, _, cur => some cur
  | i + 1, pos, cur => do
    let bit := pos % h.bitsPerLong
    let word ← (hb.levels i)[pos / h.bitsPerLong]?
    let rest := word &&& ~~~ ((1#_ <<< bit) - 1#_)
    let rest := if i ≠ h.last then rest &&& ~~~ (1#_ <<< bit) else rest
    iterPath hb i (pos / h.bitsPerLong) (update cur i rest)

def hbitmapIterInit (hb : HBitmap h) (first : Nat) : Option (Iter h) :=
  let pos := first >>> hb.granularity
  if pos < hb.size then do
    let cur ← iterPath hb h.numLevels pos fun _ => 0
    some ⟨pos / h.bitsPerLong, cur⟩
  else none

def climb (cur : Nat → Word h) : Nat → Nat → Option (Nat × Nat × Word h)
  | 0, _ => none
  | i + 1, pos =>
    if cur i = 0 then climb cur i (pos / h.bitsPerLong)
    else some (i, pos / h.bitsPerLong, cur i)

/-- Down again to the first word, `n` levels below level `i`. -/
def descend (hb : HBitmap h) : Nat → Nat → Nat → Word h → (Nat → Word h) →
    Option (Nat × Word h × (Nat → Word h))
  | 0, _, pos, word, cur => some (pos, word, cur)
  | n + 1, i, pos, word, cur =>
    if word = 0 then none
    else do
      let pos := pos * h.bitsPerLong + word.ctz.toNat
      let next ← (hb.levels (i + 1))[pos]?
      descend hb n (i + 1) pos next (update cur i (word &&& (word - 1#_)))

def hbitmapIterSkipWords (hb : HBitmap h) (it : Iter h) : Option (Word h × Iter h) := do
  let (i, pos, word) ← climb it.cur h.last it.pos
  if i = 0 ∧ word = sentinel h then some (0, it)
  else
    let (pos, word, cur) ← descend hb (h.last - i) i pos word it.cur
    if word = 0 then none else some (word, ⟨pos, cur⟩)

def iterWord (hb : HBitmap h) (it : Iter h) : Option (Word h × Iter h) :=
  if it.cur h.last = 0 then hbitmapIterSkipWords hb it else some (it.cur h.last, it)

/-- `hbitmap_iter_next`: a signed number of 64 bits. -/
def hbitmapIterNext (hb : HBitmap h) (it : Iter h) : Option (Int × Iter h) := do
  let (word, it) ← iterWord hb it
  if word = 0 then some (-1, it)
  else
    let item := it.pos * h.bitsPerLong + word.ctz.toNat
    some (Int.bmod (item <<< hb.granularity : Nat) (2 ^ 64),
      ⟨it.pos, update it.cur h.last (word &&& (word - 1#_))⟩)

/-- `hbitmap_iter_next_word`: the position is `none` at the end. -/
def hbitmapIterNextWord (hb : HBitmap h) (it : Iter h) : Option (Option Nat × Word h × Iter h) := do
  let (word, it) ← iterWord hb it
  if word = 0 then some (none, 0, it)
  else some (some it.pos, word, ⟨it.pos, update it.cur h.last 0⟩)

/-- The loop of `hb_count_between`, which has `fuel` turns at most. -/
def countLoop (hb : HBitmap h) (stop : Nat) : Nat → Iter h → Nat → Option Nat
  | 0, _, _ => none
  | fuel + 1, it, count => do
    let (pos, word, it) ← hbitmapIterNextWord hb it
    match pos with
    | none => some count
    | some pos =>
      if pos < stop / h.bitsPerLong then countLoop hb stop fuel it (count + word.cpop.toNat)
      else if pos = stop / h.bitsPerLong then
        some (count + (word &&& ((1#_ <<< (stop % h.bitsPerLong)) - 1#_)).cpop.toNat)
      else some count

def hbCountBetween (hb : HBitmap h) (start last : Nat) : Option Nat := do
  let it ← hbitmapIterInit hb (start <<< hb.granularity)
  countLoop hb (last + 1) ((last + 1) / h.bitsPerLong + 2) it 0

def rangeMask (h : Long) (start last : Nat) : Word h :=
  (2#_ <<< (last % h.bitsPerLong)) - (1#_ <<< (start % h.bitsPerLong))

def hbSetElem (elem : Word h) (start last : Nat) : Option (Word h × Bool) :=
  if last / h.bitsPerLong = start / h.bitsPerLong ∧ start ≤ last then
    some (elem ||| rangeMask h start last, elem == 0)
  else none

/-- Overwrite `n` words from `i` on, and note those that `test` is true of. -/
def fill (value : Word h) (test : Word h → Bool) : Nat → Nat → List (Word h) → Bool →
    Option (List (Word h) × Bool)
  | 0, _, words, changed => some (words, changed)
  | n + 1, i, words, changed => do
    let elem ← words[i]?
    fill value test n (i + 1) (words.set i value) (changed || test elem)

/-- The first bit behind the word of `start`. -/
def nextWord (h : Long) (start : Nat) : Nat := (start ||| (h.bitsPerLong - 1)) + 1

/-- What `hb_set_between` does to one level. -/
def setLevel (words : List (Word h)) (start last : Nat) : Option (List (Word h) × Bool) := do
  let pos := start / h.bitsPerLong
  let lastpos := last / h.bitsPerLong
  let elem ← words[pos]?
  if pos < lastpos then
    let next := nextWord h start
    let (elem, changed) ← hbSetElem elem start (next - 1)
    let n := lastpos - pos - 1
    let (words, changed) ← fill (BitVec.allOnes _) (· == 0) n (pos + 1) (words.set pos elem) changed
    let elem ← words[lastpos]?
    let (elem, changed') ← hbSetElem elem (next + n * h.bitsPerLong) last
    some (words.set lastpos elem, changed || changed')
  else
    let (elem, changed) ← hbSetElem elem start last
    some (words.set pos elem, changed)

def hbSetBetween (hb : HBitmap h) : Nat → Nat → Nat → Option (HBitmap h)
  | 0, start, last => do
    let (words, _) ← setLevel (hb.levels 0) start last
    some { hb with levels := update hb.levels 0 words }
  | level + 1, start, last => do
    let (words, changed) ← setLevel (hb.levels (level + 1)) start last
    let hb := { hb with levels := update hb.levels (level + 1) words }
    if changed then hbSetBetween hb level (start / h.bitsPerLong) (last / h.bitsPerLong) else some hb

def hbitmapSet (hb : HBitmap h) (start count : Nat) : Option (HBitmap h) := do
  let last := ((start + count + (2 ^ 64 - 1)) % 2 ^ 64) >>> hb.granularity
  let start := start >>> hb.granularity
  if last < hb.size then
    let between ← hbCountBetween hb start last
    let added := last + (2 ^ 64 - start) + 1 + (2 ^ 64 - between)
    hbSetBetween { hb with count := (hb.count + added) % 2 ^ 64 } h.last start last
  else none

def hbResetElem (elem : Word h) (start last : Nat) : Option (Word h × Bool) :=
  if last / h.bitsPerLong = start / h.bitsPerLong ∧ start ≤ last then
    some (elem &&& ~~~ rangeMask h start last, elem != 0 && (elem &&& ~~~ rangeMask h start last) == 0)
  else none

/-- What `hb_reset_between` does to one level. The range of words that the level above may have to
reset comes out smaller if bits remain at its ends. -/
def resetLevel (words : List (Word h)) (start last : Nat) : Option (List (Word h) × Bool × Nat × Nat) := do
  let pos := start / h.bitsPerLong
  let lastpos := last / h.bitsPerLong
  let elem ← words[pos]?
  if pos < lastpos then
    let next := nextWord h start
    let (elem, blanked) ← hbResetElem elem start (next - 1)
    let n := lastpos - pos - 1
    let (words, changed) ← fill 0 (· != 0) n (pos + 1) (words.set pos elem) blanked
    let elem ← words[lastpos]?
    let (elem, blanked') ← hbResetElem elem (next + n * h.bitsPerLong) last
    some (words.set lastpos elem, changed || blanked', if blanked then pos else pos + 1,
      if blanked' then lastpos else lastpos - 1)
  else
    let (elem, blanked) ← hbResetElem elem start last
    some (words.set pos elem, blanked, pos, if blanked then lastpos else lastpos - 1)

def hbResetBetween (hb : HBitmap h) : Nat → Nat → Nat → Option (HBitmap h)
  | 0, start, last => do
    let (words, _) ← resetLevel (hb.levels 0) start last
    some { hb with levels := update hb.levels 0 words }
  | level + 1, start, last => do
    let (words, changed, pos, lastpos) ← resetLevel (hb.levels (level + 1)) start last
    let hb := { hb with levels := update hb.levels (level + 1) words }
    if changed then hbResetBetween hb level pos lastpos else some hb

def hbitmapReset (hb : HBitmap h) (start count : Nat) : Option (HBitmap h) := do
  let last := ((start + count + (2 ^ 64 - 1)) % 2 ^ 64) >>> hb.granularity
  let start := start >>> hb.granularity
  if last < hb.size then
    let between ← hbCountBetween hb start last
    hbResetBetween { hb with count := (hb.count + (2 ^ 64 - between)) % 2 ^ 64 } h.last start last
  else none

def hbitmapResetAll (hb : HBitmap h) : HBitmap h :=
  { hb with
    count := 0
    levels := fun i =>
      if i = 0 then (hb.levels 0).set 0 (sentinel h) else (hb.levels i).map fun _ => 0 }

def hbitmapGet (hb : HBitmap h) (item : Nat) : Option Bool := do
  let pos := item >>> hb.granularity
  if pos < hb.size then
    let word ← (hb.levels h.last)[pos / h.bitsPerLong]?
    some (word &&& (1#_ <<< (pos % h.bitsPerLong)) != 0)
  else none

def hbitmapCount (hb : HBitmap h) : Nat := (hb.count <<< hb.granularity) % 2 ^ 64

/-- New sizes for the levels below `i`, up to one that keeps its size. -/
def resizeLevels (shrink : Bool) : Nat → Nat → (Nat → List (Word h)) → Nat → List (Word h)
  | 0, _, levels => levels
  | i + 1, size, levels =>
    let size := numWords h size
    if (levels i).length = size then levels
    else
      let words := if shrink then (levels i).take size
        else levels i ++ List.replicate (size - (levels i).length) 0
      resizeLevels shrink i size (update levels i words)

/-- The end of the bitmap is reset before it shrinks. `1 << granularity` is an `int`. -/
def resetEnd (hb : HBitmap h) (size : Nat) : Option (HBitmap h) :=
  if hb.granularity < 31 then
    let start := (size + 2 ^ hb.granularity - 1) % 2 ^ 64 / 2 ^ hb.granularity * 2 ^ hb.granularity
    let fixCount := ((hb.size <<< hb.granularity) % 2 ^ 64 + (2 ^ 64 - start)) % 2 ^ 64
    if fixCount = 0 then none else hbitmapReset hb start fixCount
  else none

def hbitmapTruncate (hb : HBitmap h) (size : Nat) : Option (HBitmap h) := do
  let groups := groupsFor size hb.granularity
  if groups ≤ 2 ^ h.logMaxSize then
    if groups = hb.size then some hb
    else
      let shrink := decide (groups < hb.size)
      let hb ← if shrink then resetEnd hb size else some hb
      some { hb with size := groups, levels := resizeLevels shrink h.numLevels groups hb.levels }
  else none

/-- `hbitmap_merge`: the first bitmap with the bits of the second, if it was attempted. -/
def hbitmapMerge (a b : HBitmap h) : Option (HBitmap h × Bool) :=
  if a.size ≠ b.size ∨ a.granularity ≠ b.granularity then some (a, false)
  else if hbitmapCount b = 0 then some (a, true)
  else if ∀ i < h.numLevels, (a.levels i).length ≤ (b.levels i).length then
    some ({ a with levels := fun i =>
      (a.levels i).mapIdx fun j word => word ||| wordAt (b.levels i) j }, true)
  else none

end Model

end TcgArm.HBitmaps
