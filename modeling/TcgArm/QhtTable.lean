import TcgArm.Host

/-! The resizable hash table of `util/qht.c`, as its operations compute when no other thread holds a
lock: the seqlocks, the bucket locks and RCU then have no effect on the result. A table maps
pointers to hash values; a head bucket and the buckets chained behind it form one list. -/

namespace TcgArm.Qht

/-- One entry of a bucket, `hashes[i]` with `pointers[i]`. A NULL pointer is `none`. -/
structure Slot (P : Type) where
  hash : UInt32
  pointer : Option P
  deriving DecidableEq

def Slot.empty {P : Type} : Slot P := ⟨0, none⟩

/-- `QHT_BUCKET_ENTRIES`, chosen so that a bucket fits one 64-byte cache line. -/
def bucketEntries : Host → Nat
  | .bits32 => 6
  | .bits64 => 4

/-- A bucket has exactly `QHT_BUCKET_ENTRIES` entries. -/
structure Bucket (P : Type) (size : Nat) where
  slots : List (Slot P)
  length_slots : slots.length = size

/-- A head bucket followed by the buckets reached through `next`. -/
abbrev Chain (P : Type) (size : Nat) := List (Bucket P size)

section Nodes

variable {P : Type} {size : Nat}

/-- A zeroed bucket, as `qht_head_init` and the `memset` of a fresh bucket leave it. -/
def Bucket.empty : Bucket P size := ⟨List.replicate size Slot.empty, by simp⟩

def Bucket.set (b : Bucket P size) (i : Nat) (s : Slot P) : Bucket P size :=
  ⟨b.slots.set i s, by rw [List.length_set, b.length_slots]⟩

/-- `b->pointers[i]`. -/
def Bucket.pointer (b : Bucket P size) (i : Nat) : Option P := b.slots[i]?.bind Slot.pointer

/-- `qht_do_lookup`: the first entry with this hash whose pointer satisfies the comparison. -/
def doLookup (func : P → Bool) (hash : UInt32) (chain : Chain P size) : Option P :=
  chain.findSome? fun b => b.slots.findSome? fun s =>
    if s.hash = hash then s.pointer.filter func else none

/-- The inner loop of `qht_bucket_iter`; `rest` is what the chained buckets visit. -/
def iterSlots : List (Slot P) → List (P × UInt32) → List (P × UInt32)
  | [], rest => rest
  | s :: slots, rest =>
    match s.pointer with
    | none => []
    | some p => (p, s.hash) :: iterSlots slots rest

/-- `qht_bucket_iter`: the calls made to the iterator, in order. It returns at the first NULL. -/
def bucketIter : Chain P size → List (P × UInt32)
  | [] => []
  | b :: next => iterSlots b.slots (bucketIter next)

def resetSlots : List (Slot P) → List (Slot P)
  | [] => []
  | s :: slots => if s.pointer.isNone then s :: slots else Slot.empty :: resetSlots slots

theorem length_resetSlots (slots : List (Slot P)) : (resetSlots slots).length = slots.length := by
  induction slots with
  | nil => rfl
  | cons s slots ih =>
    rw [resetSlots]
    split <;> simp [ih]

/-- `qht_bucket_reset__locked`: clears entries up to the first NULL. -/
def bucketReset : Chain P size → Chain P size
  | [] => []
  | b :: next =>
    let cleared : Bucket P size := ⟨resetSlots b.slots, by rw [length_resetSlots, b.length_slots]⟩
    if b.slots.any (fun s => s.pointer.isNone) then cleared :: next
    else cleared :: bucketReset next

variable [DecidableEq P]

/-- How the search for a free entry ends inside one bucket. -/
inductive Probe where
  | present
  | free (i : Nat)
  | full
  deriving DecidableEq

def probeSlots (p : P) : List (Slot P) → Nat → Probe
  | [], _ => .full
  | s :: slots, i =>
    match s.pointer with
    | some q => if q = p then .present else probeSlots p slots (i + 1)
    | none => .free i

/-- `qht_insert__locked` on a chain: whether it inserted, the new chain, and whether a bucket was
added. Only pointers are compared; the hash of an entry found on the way is not looked at. -/
def insertNodes (p : P) (hash : UInt32) : Chain P size → Bool × Chain P size × Bool
  | [] => (true, [Bucket.empty.set 0 ⟨hash, some p⟩], true)
  | b :: next =>
    match probeSlots p b.slots 0 with
    | .present => (false, b :: next, false)
    | .free i => (true, b.set i ⟨hash, some p⟩ :: next, false)
    | .full =>
      let (ret, next', added) := insertNodes p hash next
      (ret, b :: next', added)

/-- `qht_entry_is_last`; `next` is what follows the bucket in its chain. -/
def entryIsLast (b : Bucket P size) (next : Chain P size) (pos : Nat) : Bool :=
  if pos = size - 1 then
    match next with
    | [] => true
    | b' :: _ => (b'.pointer 0).isNone
  else (b.pointer (pos + 1)).isNone

/-- The entry at position `i` of the `k`-th bucket. -/
def getSlot (chain : Chain P size) (k i : Nat) : Slot P :=
  ((chain[k]?).bind fun b => b.slots[i]?).getD Slot.empty

def setSlot (chain : Chain P size) (k i : Nat) (s : Slot P) : Chain P size :=
  chain.modify k fun b => b.set i s

/-- `qht_entry_move`. -/
def entryMove (chain : Chain P size) (dst i src j : Nat) : Chain P size :=
  setSlot (setSlot chain dst i (getSlot chain src j)) src j Slot.empty

/-- Where the loop of `qht_bucket_remove_entry` finds the last valid entry: just before the first
NULL, or at the end of the last bucket. The bucket looked at is the `k`-th of the chain. -/
def lastEntry : Chain P size → Nat → Nat × Nat
  | [], k => (k - 1, size - 1)
  | b :: next, k =>
    match b.slots.findIdx? (fun s => s.pointer.isNone) with
    | some 0 => (k - 1, size - 1)
    | some (i + 1) => (k, i)
    | none => lastEntry next (k + 1)

/-- `qht_bucket_remove_entry` on the chain that starts at the bucket of the removed entry. -/
def bucketRemoveEntry (chain : Chain P size) (pos : Nat) : Chain P size :=
  match chain with
  | [] => []
  | orig :: next =>
    if entryIsLast orig next pos then orig.set pos Slot.empty :: next
    else entryMove chain 0 pos (lastEntry chain 0).1 (lastEntry chain 0).2

/-- How the search for a pointer ends inside one bucket. -/
inductive Search where
  | null
  | found (i : Nat)
  | absent
  deriving DecidableEq

def searchSlots (p : P) : List (Slot P) → Nat → Search
  | [], _ => .absent
  | s :: slots, i =>
    match s.pointer with
    | none => .null
    | some q => if q = p then .found i else searchSlots p slots (i + 1)

/-- `qht_remove__locked`. -/
def removeNodes (p : P) : Chain P size → Bool × Chain P size
  | [] => (false, [])
  | b :: next =>
    match searchSlots p b.slots 0 with
    | .null => (false, b :: next)
    | .found i => (true, bucketRemoveEntry (b :: next) i)
    | .absent =>
      let (ret, next') := removeNodes p next
      (ret, b :: next')

end Nodes

/-- `struct qht_map`. -/
structure BucketMap (P : Type) (size : Nat) where
  buckets : List (Chain P size)
  nAddedBuckets : Nat
  nAddedBucketsThreshold : Nat

/-- `struct qht`; `autoResize` is the bit `QHT_MODE_AUTO_RESIZE` of `mode`. -/
structure Table (P : Type) (host : Host) where
  map : BucketMap P (bucketEntries host)
  autoResize : Bool

def isPowerOf2 (value : Nat) : Bool := value != 0 && value &&& (value - 1) == 0

def clz64 (value : Nat) : Nat := 64 - value.size

def pow2ceil (value : Nat) : Nat :=
  if isPowerOf2 value then value
  else if clz64 value = 0 then 0
  else 1 <<< (64 - clz64 value)

section Map

variable {P : Type} {size : Nat}

def BucketMap.nBuckets (map : BucketMap P size) : Nat := map.buckets.length

/-- Trigger a resize when `n_added_buckets > n_buckets / div`. -/
def thresholdDiv : Nat := 8

/-- `qht_map_create`: a tiny table may still add one bucket. -/
def mapCreate (nBuckets : Nat) : BucketMap P size where
  buckets := List.replicate nBuckets [Bucket.empty]
  nAddedBuckets := 0
  nAddedBucketsThreshold :=
    if nBuckets / thresholdDiv = 0 then 1 else nBuckets / thresholdDiv

/-- The index computed by `qht_map_to_bucket`. -/
def BucketMap.toBucket (map : BucketMap P size) (hash : UInt32) : Nat :=
  hash.toNat &&& (map.nBuckets - 1)

def BucketMap.chainAt (map : BucketMap P size) (i : Nat) : Chain P size := map.buckets.getD i []

def BucketMap.needsResize (map : BucketMap P size) : Bool :=
  decide (map.nAddedBucketsThreshold < map.nAddedBuckets)

/-- `qht_map_iter__all_locked`. -/
def BucketMap.iter (map : BucketMap P size) : List (P × UInt32) := map.buckets.flatMap bucketIter

/-- `qht_map_reset__all_locked`. The count of added buckets is kept. -/
def BucketMap.reset (map : BucketMap P size) : BucketMap P size :=
  { map with buckets := map.buckets.map bucketReset }

variable [DecidableEq P]

/-- `qht_insert__locked` on a map: the result, the map, and the value left in `*needs_resize`. -/
def BucketMap.insertLocked (map : BucketMap P size) (p : P) (hash : UInt32) :
    Bool × BucketMap P size × Bool :=
  let (ret, chain, added) := insertNodes p hash (map.chainAt (map.toBucket hash))
  let map' : BucketMap P size :=
    { map with
      buckets := map.buckets.set (map.toBucket hash) chain
      nAddedBuckets := if added then map.nAddedBuckets + 1 else map.nAddedBuckets }
  (ret, map', added && map'.needsResize)

/-- `qht_map_copy`. -/
def mapCopy (new : BucketMap P size) (entry : P × UInt32) : BucketMap P size :=
  (new.insertLocked entry.1 entry.2).2.1

end Map

section Tables

variable {P : Type} {host : Host}

/-- `qht_elems_to_buckets`; the number of elements is a `size_t`. -/
def elemsToBuckets (nElems : BitVec host.bits) : Nat :=
  pow2ceil (nElems.toNat / bucketEntries host)

def Table.init (nElems : BitVec host.bits) (autoResize : Bool) : Table P host :=
  ⟨mapCreate (elemsToBuckets nElems), autoResize⟩

def Table.lookup (ht : Table P host) (func : P → Bool) (hash : UInt32) : Option P :=
  doLookup func hash (ht.map.chainAt (ht.map.toBucket hash))

def Table.iter (ht : Table P host) : List (P × UInt32) := ht.map.iter

def Table.reset (ht : Table P host) : Table P host := { ht with map := ht.map.reset }

variable [DecidableEq P]

/-- `qht_do_resize`: every entry of the old map is inserted into the new one. -/
def Table.doResize (ht : Table P host) (new : BucketMap P (bucketEntries host)) : Table P host :=
  { ht with map := ht.map.iter.foldl mapCopy new }

/-- `qht_grow_maybe`. -/
def Table.growMaybe (ht : Table P host) : Table P host :=
  if ht.map.needsResize then ht.doResize (mapCreate (ht.map.nBuckets * 2)) else ht

def Table.insert (ht : Table P host) (p : P) (hash : UInt32) : Bool × Table P host :=
  let (ret, map, needsResize) := ht.map.insertLocked p hash
  let ht' := { ht with map }
  (ret, if needsResize && ht.autoResize then ht'.growMaybe else ht')

def Table.remove (ht : Table P host) (p : P) (hash : UInt32) : Bool × Table P host :=
  let i := ht.map.toBucket hash
  let (ret, chain) := removeNodes p (ht.map.chainAt i)
  (ret, { ht with map := { ht.map with buckets := ht.map.buckets.set i chain } })

def Table.resetSize (ht : Table P host) (nElems : BitVec host.bits) : Bool × Table P host :=
  let nBuckets := elemsToBuckets nElems
  if nBuckets = ht.map.nBuckets then (false, ht.reset)
  else (true, ht.reset.doResize (mapCreate nBuckets))

def Table.resize (ht : Table P host) (nElems : BitVec host.bits) : Bool × Table P host :=
  let nBuckets := elemsToBuckets nElems
  if nBuckets = ht.map.nBuckets then (false, ht)
  else (true, ht.doResize (mapCreate nBuckets))

end Tables

end TcgArm.Qht
