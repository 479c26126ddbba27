import Mathlib.Data.Nat.Size
import TcgArm.Transition
import TcgArm.QhtChain

/-! The hash table as a finite set of pointer-hash pairs. The header asks that a pointer is always
passed with the same hash; under that contract every call answers as the set does, across growth,
resizing and clearing. Without it the set reading fails. -/

namespace TcgArm.Qht

open BucketMap List Nat Table Transition

/-- A call of the public interface. -/
inductive Call (P : Type) (host : Host) where
  | insert (p : P) (hash : UInt32)
  | remove (p : P) (hash : UInt32)
  | lookup (func : P → Bool) (hash : UInt32)
  | iter
  | reset
  | resetSize (nElems : BitVec host.bits)
  | resize (nElems : BitVec host.bits)

/-- A call together with what it returned or visited. -/
inductive Event (P : Type) (host : Host) where
  | insert (p : P) (hash : UInt32) (ret : Bool)
  | remove (p : P) (hash : UInt32) (ret : Bool)
  | lookup (func : P → Bool) (hash : UInt32) (ret : Option P)
  | iter (visited : List (P × UInt32))
  | reset
  | resetSize (nElems : BitVec host.bits) (ret : Bool)
  | resize (nElems : BitVec host.bits) (ret : Bool)

/-- The contract of `qht_insert` and `qht_remove`: one hash for each pointer. -/
def Call.Consistent {P : Type} {host : Host} (hashOf : P → UInt32) : Call P host → Prop
  | .insert p hash => hash = hashOf p
  | .remove p hash => hash = hashOf p
  | _ => True

section Calls

variable {P : Type} {host : Host} [DecidableEq P]

def Event.call : Event P host → Call P host
  | .insert p hash _ => .insert p hash
  | .remove p hash _ => .remove p hash
  | .lookup func hash _ => .lookup func hash
  | .iter _ => .iter
  | .reset => .reset
  | .resetSize nElems _ => .resetSize nElems
  | .resize nElems _ => .resize nElems

/-- What a finite set of pairs answers: `insert` and `remove` report whether the pair was there,
`lookup` returns some stored pointer with the hash that satisfies the comparison when there is one,
and an iteration lists the set without repetition. -/
def SetStep (S : Finset (P × UInt32)) (event : Event P host) (S' : Finset (P × UInt32)) : Prop :=
  match event with
  | .insert p hash ret => (ret = false ↔ (p, hash) ∈ S) ∧ S' = insert (p, hash) S
  | .remove p hash ret => (ret = true ↔ (p, hash) ∈ S) ∧ S' = S.erase (p, hash)
  | .lookup func hash ret =>
    (∀ p, ret = some p → (p, hash) ∈ S ∧ func p = true) ∧
      (ret = none → ∀ p, (p, hash) ∈ S → func p = false) ∧ S' = S
  | .iter visited => visited.Nodup ∧ visited.toFinset = S ∧ S' = S
  | .reset => S' = ∅
  | .resetSize _ _ => S' = ∅
  | .resize _ _ => S' = S

def Table.exec (ht : Table P host) : Call P host → Event P host × Table P host
  | .insert p hash => (.insert p hash (ht.insert p hash).1, (ht.insert p hash).2)
  | .remove p hash => (.remove p hash (ht.remove p hash).1, (ht.remove p hash).2)
  | .lookup func hash => (.lookup func hash (ht.lookup func hash), ht)
  | .iter => (.iter ht.iter, ht)
  | .reset => (.reset, ht.reset)
  | .resetSize nElems => (.resetSize nElems (ht.resetSize nElems).1, (ht.resetSize nElems).2)
  | .resize nElems => (.resize nElems (ht.resize nElems).1, (ht.resize nElems).2)

def Table.run (ht : Table P host) : List (Call P host) → List (Event P host) × Table P host
  | [] => ([], ht)
  | call :: calls =>
    let (event, ht₁) := ht.exec call
    let (events, ht₂) := ht₁.run calls
    (event :: events, ht₂)

/-- The step relation of the table: the event records the answer of the call. -/
def TableStep (ht : Table P host) (event : Event P host) (ht' : Table P host) : Prop :=
  ht.exec event.call = (event, ht')

theorem call_exec (ht : Table P host) (call : Call P host) : (ht.exec call).1.call = call := by
  cases call <;> rfl

theorem run_tableStep (ht : Table P host) (calls : List (Call P host)) :
    Run TableStep ht (ht.run calls).1 (ht.run calls).2 ∧ (ht.run calls).1.map Event.call = calls := by
  induction calls generalizing ht with
  | nil => exact ⟨Run.nil ht, rfl⟩
  | cons call calls ih =>
    obtain ⟨htail, hcalls⟩ := ih (ht.exec call).2
    refine ⟨Run.cons ?_ htail, ?_⟩
    · change ht.exec (ht.exec call).1.call = ht.exec call
      rw [call_exec]
    · change (ht.exec call).1.call :: ((ht.exec call).2.run calls).1.map Event.call = _
      rw [call_exec, hcalls]

end Calls

section Map

variable {P : Type} {size : Nat}

/-- Every entry sits in the bucket its hash selects, under the hash of its pointer, and a chain
holds no pointer twice. -/
structure Inv (hashOf : P → UInt32) (map : BucketMap P size) : Prop where
  pow : ∃ k, map.nBuckets = 2 ^ k
  chains : ∀ i, i < map.nBuckets → ∃ es, Represents (map.chainAt i) es ∧
    (es.map Prod.fst).Nodup ∧ ∀ e ∈ es, map.toBucket e.2 = i ∧ e.2 = hashOf e.1

variable {hashOf : P → UInt32} {map : BucketMap P size}

theorem Inv.toBucket_lt (h : Inv hashOf map) (hash : UInt32) : map.toBucket hash < map.nBuckets := by
  obtain ⟨k, hk⟩ := h.pow
  rw [toBucket, hk, and_two_pow_sub_one_eq_mod]
  exact mod_lt _ (Nat.two_pow_pos k)

theorem chainAt_mem {i : Nat} (hi : i < map.nBuckets) : map.chainAt i ∈ map.buckets := by
  have hlt : i < map.buckets.length := hi
  simp [chainAt, hlt]

variable {chain : Chain P size}

theorem exists_chainAt (h : chain ∈ map.buckets) : ∃ i, i < map.nBuckets ∧ map.chainAt i = chain := by
  obtain ⟨i, hi, rfl⟩ := mem_iff_getElem.mp h
  exact ⟨i, hi, by simp [chainAt, hi]⟩

section

variable (h : Inv hashOf map)
include h

theorem Inv.mem_iter (e : P × UInt32) :
    e ∈ map.iter ↔ e ∈ bucketIter (map.chainAt (map.toBucket e.2)) := by
  rw [BucketMap.iter, mem_flatMap]
  constructor
  · rintro ⟨chain, hchain, he⟩
    obtain ⟨i, hi, rfl⟩ := exists_chainAt hchain
    obtain ⟨es, hrep, -, hes⟩ := h.chains i hi
    have he' : e ∈ es := by rwa [bucketIter_of_represents hrep] at he
    rwa [(hes e he').1]
  · intro he
    exact ⟨_, chainAt_mem (h.toBucket_lt e.2), he⟩

theorem Inv.hash_eq {e : P × UInt32} (he : e ∈ map.iter) : e.2 = hashOf e.1 := by
  rw [h.mem_iter] at he
  obtain ⟨es, hrep, -, hes⟩ := h.chains _ (h.toBucket_lt e.2)
  rw [bucketIter_of_represents hrep] at he
  exact (hes e he).2

theorem Inv.nodup_iter : map.iter.Nodup := by
  rw [BucketMap.iter, nodup_flatMap]
  constructor
  · intro chain hchain
    obtain ⟨i, hi, rfl⟩ := exists_chainAt hchain
    obtain ⟨es, hrep, hnodup, -⟩ := h.chains i hi
    rw [bucketIter_of_represents hrep]
    exact hnodup.of_map _
  · rw [pairwise_iff_getElem]
    intro i j hi hj hij
    -- an entry in two chains would be selected by two bucket numbers
    rw [Function.onFun, disjoint_left]
    intro e hei hej
    have hbucket : ∀ k (hk : k < map.buckets.length), e ∈ bucketIter map.buckets[k] →
        map.toBucket e.2 = k := by
      intro k hk he
      have hchain : map.chainAt k = map.buckets[k] := by simp [chainAt, hk]
      obtain ⟨es, hrep, -, hes⟩ := h.chains k hk
      rw [← hchain, bucketIter_of_represents hrep] at he
      exact (hes e he).1
    have := hbucket i hi hei
    have := hbucket j hj hej
    omega

/-- Replacing one chain keeps the invariant when the new chain is fit for its place. -/
theorem Inv.set_chain {i : Nat} {es : List (P × UInt32)} (hrep : Represents chain es)
    (hnodup : (es.map Prod.fst).Nodup) (hes : ∀ e ∈ es, map.toBucket e.2 = i ∧ e.2 = hashOf e.1)
    (hi : i < map.nBuckets) (added : Nat) :
    Inv hashOf { map with buckets := map.buckets.set i chain, nAddedBuckets := added } := by
  have hlen : (map.buckets.set i chain).length = map.buckets.length := length_set
  refine ⟨?_, fun j hj => ?_⟩
  · simpa [nBuckets, hlen] using h.pow
  · rw [nBuckets, hlen] at hj
    by_cases hij : i = j
    · subst hij
      refine ⟨es, ?_, hnodup, fun e he => ?_⟩
      · have hlt : i < map.buckets.length := hi
        simpa [chainAt, hlt] using hrep
      · simpa [toBucket, nBuckets, hlen] using hes e he
    · obtain ⟨es', hrep', hnodup', hes'⟩ := h.chains j hj
      refine ⟨es', ?_, hnodup', fun e he => ?_⟩
      · simpa [chainAt, getElem?_set_ne hij] using hrep'
      · simpa [toBucket, nBuckets, hlen] using hes' e he

theorem mem_iter_set_chain {i : Nat} {added : Nat} (hi : i < map.nBuckets)
    (h' : Inv hashOf { map with buckets := map.buckets.set i chain, nAddedBuckets := added })
    (e : P × UInt32) :
    e ∈ iter { map with buckets := map.buckets.set i chain, nAddedBuckets := added } ↔
      if map.toBucket e.2 = i then e ∈ bucketIter chain else e ∈ map.iter := by
  have hlt : i < map.buckets.length := hi
  rw [h'.mem_iter, h.mem_iter]
  have hbucket : toBucket
      { map with buckets := map.buckets.set i chain, nAddedBuckets := added } e.2 =
      map.toBucket e.2 := by
    simp [toBucket, nBuckets]
  rw [hbucket]
  split
  · rename_i heq
    simp [chainAt, heq, hlt]
  · rename_i hne
    simp [chainAt, getElem?_set_ne (Ne.symm hne)]

end

end Map

theorem bucketEntries_pos (host : Host) : 0 < bucketEntries host := by
  cases host <;> decide

theorem elemsToBuckets_pow {host : Host} (nElems : BitVec host.bits) :
    ∃ k, elemsToBuckets nElems = 2 ^ k := by
  unfold elemsToBuckets pow2ceil
  split
  · rename_i hpow
    rw [isPowerOf2, Bool.and_eq_true, bne_iff_ne, beq_iff_eq] at hpow
    exact Nat.ne_zero_and_sub_one_eq_zero_iff_isPowerOfTwo.mp hpow
  · -- a quotient by four or more leaves a leading zero bit
    have hle : (nElems.toNat / bucketEntries host).size ≤ 63 := by
      rw [size_le]
      cases host <;> simp only [Host.bits, bucketEntries] at * <;> omega
    have hclz : clz64 (nElems.toNat / bucketEntries host) ≠ 0 := by
      unfold clz64
      omega
    rw [if_neg hclz]
    exact ⟨_, one_shiftLeft _⟩

section Fill

variable {P : Type} {size : Nat} {hashOf : P → UInt32} {map : BucketMap P size}

theorem inv_mapCreate (hashOf : P → UInt32) (k : Nat) :
    Inv hashOf (mapCreate (2 ^ k) : BucketMap P size) := by
  refine ⟨⟨k, by simp [nBuckets, mapCreate]⟩, fun i hi => ?_⟩
  refine ⟨[], ?_, by simp, by simp⟩
  have hlt : i < 2 ^ k := by simpa [nBuckets, mapCreate] using hi
  simpa [chainAt, mapCreate, getElem?_replicate, hlt] using represents_empty

theorem iter_mapCreate (n : Nat) : (mapCreate n : BucketMap P size).iter = [] := by
  rw [BucketMap.iter, flatMap_eq_nil_iff]
  intro chain hchain
  rw [eq_of_mem_replicate hchain, bucketIter_of_represents represents_empty]

theorem Inv.reset (h : Inv hashOf map) : Inv hashOf map.reset := by
  have hlen : map.reset.buckets.length = map.buckets.length := length_map _
  refine ⟨by simpa [nBuckets, hlen] using h.pow, fun i hi => ?_⟩
  have hi' : i < map.nBuckets := by rwa [nBuckets, hlen] at hi
  obtain ⟨es, hrep, -, -⟩ := h.chains i hi'
  refine ⟨[], ?_, by simp, by simp⟩
  have hlt : i < map.buckets.length := hi'
  have hchain : map.reset.chainAt i = bucketReset (map.chainAt i) := by
    simp [BucketMap.chainAt, BucketMap.reset, hlt]
  rw [hchain]
  exact represents_bucketReset hrep

theorem Inv.iter_reset (h : Inv hashOf map) : map.reset.iter = [] := by
  rw [BucketMap.iter, flatMap_eq_nil_iff]
  intro chain hchain
  obtain ⟨chain', hchain', rfl⟩ := mem_map.mp hchain
  obtain ⟨i, hi, rfl⟩ := exists_chainAt hchain'
  obtain ⟨es, hrep, -, -⟩ := h.chains i hi
  exact bucketIter_of_represents (represents_bucketReset hrep)

theorem mem_iter_of_pointer (h : Inv hashOf map) {p : P} {es : List (P × UInt32)}
    (hrep : Represents (map.chainAt (map.toBucket (hashOf p))) es) :
    (p, hashOf p) ∈ map.iter ↔ p ∈ es.map Prod.fst := by
  rw [h.mem_iter, bucketIter_of_represents hrep, mem_map]
  constructor
  · intro hmem
    exact ⟨_, hmem, rfl⟩
  · rintro ⟨e, he, rfl⟩
    obtain ⟨es', hrep', -, hes⟩ := h.chains _ (h.toBucket_lt (hashOf e.1))
    have heq : es' = es := by
      rw [← bucketIter_of_represents hrep', bucketIter_of_represents hrep]
    rw [← (hes e (heq ▸ he)).2]
    exact he

variable [DecidableEq P]

/-- Inserting into a map adds the pair, and reports whether it was new. -/
theorem Inv.insertLocked (h : Inv hashOf map) (hsize : 0 < size) (p : P) :
    Inv hashOf (map.insertLocked p (hashOf p)).2.1 ∧
      ((map.insertLocked p (hashOf p)).1 = false ↔ (p, hashOf p) ∈ map.iter) ∧
      ∀ e, e ∈ (map.insertLocked p (hashOf p)).2.1.iter ↔ e = (p, hashOf p) ∨ e ∈ map.iter := by
  have hlt := h.toBucket_lt (hashOf p)
  obtain ⟨es, hrep, hnodup, hes⟩ := h.chains _ hlt
  have hmem := mem_iter_of_pointer h hrep
  by_cases hp : p ∈ es.map Prod.fst
  · have hins := insertNodes_of_mem p (hashOf p) hrep hp
    have hset : map.buckets.set (map.toBucket (hashOf p))
        (map.chainAt (map.toBucket (hashOf p))) = map.buckets := by
      have hget : map.toBucket (hashOf p) < map.buckets.length := hlt
      simp [chainAt, hget]
    have hsame : (map.insertLocked p (hashOf p)).2.1 = map := by
      simp only [BucketMap.insertLocked, hins, hset]
      rfl
    refine ⟨by rw [hsame]; exact h, ?_, fun e => ?_⟩
    · simp [BucketMap.insertLocked, hins, hmem.mpr hp]
    · rw [hsame]
      constructor
      · exact Or.inr
      · rintro (rfl | he)
        · exact hmem.mpr hp
        · exact he
  · obtain ⟨hret, hrep'⟩ := insertNodes_of_not_mem hsize p (hashOf p) hrep hp
    have hnodup' : ((es ++ [(p, hashOf p)]).map Prod.fst).Nodup := by
      rw [map_append, nodup_append_comm]
      exact nodup_cons.mpr ⟨hp, hnodup⟩
    have hes' : ∀ e ∈ es ++ [(p, hashOf p)], map.toBucket e.2 = map.toBucket (hashOf p) ∧
        e.2 = hashOf e.1 := by
      intro e he
      rcases mem_append.mp he with he | he
      · exact hes e he
      · rw [mem_singleton.mp he]
        exact ⟨rfl, rfl⟩
    have hinv := h.set_chain hrep' hnodup' hes' hlt
      (if (insertNodes p (hashOf p) (map.chainAt (map.toBucket (hashOf p)))).2.2 then
        map.nAddedBuckets + 1 else map.nAddedBuckets)
    refine ⟨hinv, ?_, fun e => ?_⟩
    · simp [BucketMap.insertLocked, hret, mt hmem.mp hp]
    · refine (mem_iter_set_chain h hlt hinv e).trans ?_
      rw [bucketIter_of_represents hrep']
      split
      · rename_i hbucket
        rw [mem_append, mem_singleton, h.mem_iter, hbucket, bucketIter_of_represents hrep]
        exact Or.comm
      · rename_i hbucket
        constructor
        · exact Or.inr
        · rintro (rfl | he)
          · exact absurd rfl hbucket
          · exact he

theorem Inv.foldl_mapCopy (hsize : 0 < size) {new : BucketMap P size} (h : Inv hashOf new)
    {es : List (P × UInt32)} (hes : ∀ e ∈ es, e.2 = hashOf e.1) :
    Inv hashOf (es.foldl mapCopy new) ∧ ∀ e, e ∈ (es.foldl mapCopy new).iter ↔ e ∈ es ∨ e ∈ new.iter := by
  induction es generalizing new with
  | nil => exact ⟨h, fun e => by simp⟩
  | cons e0 es ih =>
    have hhash : e0.2 = hashOf e0.1 := hes e0 mem_cons_self
    obtain ⟨hinv, -, hmem⟩ := h.insertLocked hsize e0.1
    rw [← hhash] at hinv hmem
    obtain ⟨hinv', hmem'⟩ := ih hinv fun e he => hes e (mem_cons_of_mem _ he)
    refine ⟨hinv', fun e => (hmem' e).trans ?_⟩
    rw [hmem, mem_cons]
    tauto

end Fill

section Refinement

variable {P : Type} {host : Host} {hashOf : P → UInt32}

def Abstracts (hashOf : P → UInt32) (ht : Table P host) (S : Finset (P × UInt32)) : Prop :=
  Inv hashOf ht.map ∧ ∀ e, e ∈ ht.map.iter ↔ e ∈ S

theorem abstracts_init (hashOf : P → UInt32) (nElems : BitVec host.bits) (autoResize : Bool) :
    Abstracts hashOf (Table.init nElems autoResize : Table P host) ∅ := by
  obtain ⟨k, hk⟩ := elemsToBuckets_pow nElems
  unfold Abstracts init
  rw [hk]
  exact ⟨inv_mapCreate hashOf k, fun e => by simp [iter_mapCreate]⟩

variable {S : Finset (P × UInt32)} {ht : Table P host}

theorem Abstracts.reset (h : Abstracts hashOf ht S) : Abstracts hashOf ht.reset ∅ :=
  ⟨h.1.reset, fun e => by simp [Table.reset, h.1.iter_reset]⟩

theorem Abstracts.congr {hashOf' : P → UInt32} (h : Abstracts hashOf ht S)
    (hhash : ∀ e ∈ S, hashOf' e.1 = hashOf e.1) :
    Abstracts hashOf' ht S := by
  refine ⟨⟨h.1.pow, fun i hi => ?_⟩, h.2⟩
  obtain ⟨es, hrep, hnodup, hes⟩ := h.1.chains i hi
  refine ⟨es, hrep, hnodup, fun e he => ⟨(hes e he).1, (hes e he).2.trans (hhash e ?_).symm⟩⟩
  rw [← h.2, h.1.mem_iter, (hes e he).1, bucketIter_of_represents hrep]
  exact he

theorem Abstracts.lookup (h : Abstracts hashOf ht S) (func : P → Bool) (hash : UInt32) :
    (∀ p, ht.lookup func hash = some p → (p, hash) ∈ S ∧ func p = true) ∧
      (ht.lookup func hash = none → ∀ p, (p, hash) ∈ S → func p = false) := by
  obtain ⟨hinv, hS⟩ := h
  obtain ⟨es, hrep, -, -⟩ := hinv.chains _ (hinv.toBucket_lt hash)
  have hmem : ∀ p, (p, hash) ∈ S ↔ (p, hash) ∈ es := by
    intro p
    rw [← hS, hinv.mem_iter, bucketIter_of_represents hrep]
  have hlookup := doLookup_of_represents func hash hrep
  rw [Table.lookup, hlookup]
  constructor
  · intro p hp
    obtain ⟨e, he, hfound⟩ := exists_of_findSome?_eq_some hp
    split at hfound
    · rename_i hhash
      rw [Option.filter_eq_some_iff] at hfound
      obtain ⟨hsome, hfunc⟩ := hfound
      obtain rfl : e.1 = p := Option.some.inj hsome
      rw [hmem, ← hhash]
      exact ⟨he, hfunc⟩
    · simp at hfound
  · intro hnone p hp
    rw [findSome?_eq_none_iff] at hnone
    have := hnone (p, hash) ((hmem p).mp hp)
    simpa [Option.filter] using this

variable [DecidableEq P]

section

variable (h : Abstracts hashOf ht S)
include h

theorem Abstracts.doResize (k : Nat) : Abstracts hashOf (ht.doResize (mapCreate (2 ^ k))) S := by
  obtain ⟨hinv, hmem⟩ := h
  obtain ⟨hinv', hmem'⟩ := (inv_mapCreate hashOf k).foldl_mapCopy (bucketEntries_pos host)
    (fun e he => hinv.hash_eq (e := e) he)
  refine ⟨hinv', fun e => (hmem' e).trans ?_⟩
  rw [iter_mapCreate, hmem]
  simp

theorem Abstracts.growMaybe : Abstracts hashOf ht.growMaybe S := by
  unfold Table.growMaybe
  split
  · obtain ⟨k, hk⟩ := h.1.pow
    rw [hk, ← Nat.pow_succ]
    exact h.doResize (k + 1)
  · exact h

theorem Abstracts.insert (p : P) :
    ((ht.insert p (hashOf p)).1 = false ↔ (p, hashOf p) ∈ S) ∧
      Abstracts hashOf (ht.insert p (hashOf p)).2 (Insert.insert (p, hashOf p) S) := by
  obtain ⟨hinv, hret, hmem⟩ := h.1.insertLocked (bucketEntries_pos host) p
  have habs : Abstracts hashOf { ht with map := (ht.map.insertLocked p (hashOf p)).2.1 }
      (Insert.insert (p, hashOf p) S) :=
    ⟨hinv, fun e => by rw [hmem, h.2, Finset.mem_insert]⟩
  refine ⟨hret.trans (h.2 _), ?_⟩
  have hinsert : (ht.insert p (hashOf p)).2 = if (ht.map.insertLocked p (hashOf p)).2.2 && ht.autoResize then
        Table.growMaybe { ht with map := (ht.map.insertLocked p (hashOf p)).2.1 }
      else { ht with map := (ht.map.insertLocked p (hashOf p)).2.1 } := rfl
  rw [hinsert]
  split
  · exact habs.growMaybe
  · exact habs

theorem Abstracts.remove (p : P) :
    ((ht.remove p (hashOf p)).1 = true ↔ (p, hashOf p) ∈ S) ∧
      Abstracts hashOf (ht.remove p (hashOf p)).2 (S.erase (p, hashOf p)) := by
  obtain ⟨hinv, hS⟩ := h
  have hlt := hinv.toBucket_lt (hashOf p)
  obtain ⟨es, hrep, hnodup, hes⟩ := hinv.chains _ hlt
  have hmem := mem_iter_of_pointer hinv hrep
  -- a chain without the pointer is put back as it is
  obtain ⟨es', hret, hrep', hnodup', hkeep⟩ : ∃ es',
      ((ht.remove p (hashOf p)).1 = true ↔ p ∈ es.map Prod.fst) ∧
      Represents (removeNodes p (ht.map.chainAt (ht.map.toBucket (hashOf p)))).2 es' ∧
      (es'.map Prod.fst).Nodup ∧ ∀ e, e ∈ es' ↔ e ∈ es ∧ e ≠ (p, hashOf p) := by
    by_cases hp : p ∈ es.map Prod.fst
    · obtain ⟨hret, hash, es', hrep', hperm⟩ := removeNodes_of_mem (bucketEntries_pos host) p hrep hp
      have hhash : hash = hashOf p := (hes _ (hperm.mem_iff.mpr mem_cons_self)).2
      subst hhash
      obtain ⟨hfresh, hnodup'⟩ := nodup_cons.mp ((hperm.map Prod.fst).nodup_iff.mp hnodup)
      refine ⟨es', ⟨fun _ => hp, fun _ => hret⟩, hrep', hnodup', fun e => ?_⟩
      rw [hperm.mem_iff, mem_cons]
      constructor
      · intro he
        refine ⟨Or.inr he, ?_⟩
        rintro rfl
        exact hfresh (mem_map_of_mem he)
      · rintro ⟨he, hne⟩
        exact he.resolve_left hne
    · have hrem := removeNodes_of_not_mem p hrep hp
      refine ⟨es, ?_, by rw [hrem]; exact hrep, hnodup, fun e => ?_⟩
      · simp [Table.remove, hrem, hp]
      · refine ⟨fun he => ⟨he, ?_⟩, fun he => he.1⟩
        rintro rfl
        exact hp (mem_map_of_mem he)
  have hinv' := hinv.set_chain hrep' hnodup' (fun e he => hes e ((hkeep e).mp he).1) hlt ht.map.nAddedBuckets
  refine ⟨hret.trans (hmem.symm.trans (hS _)), hinv', fun e => ?_⟩
  refine (mem_iter_set_chain hinv hlt hinv' e).trans ?_
  rw [bucketIter_of_represents hrep', hkeep, Finset.mem_erase, ← hS]
  split
  · rename_i hbucket
    rw [hinv.mem_iter, hbucket, bucketIter_of_represents hrep]
    exact And.comm
  · rename_i hbucket
    constructor
    · intro he
      refine ⟨?_, he⟩
      rintro rfl
      exact hbucket rfl
    · exact And.right

theorem Abstracts.resetSize (nElems : BitVec host.bits) : Abstracts hashOf (ht.resetSize nElems).2 ∅ := by
  rw [Table.resetSize]
  split
  · exact h.reset
  · obtain ⟨k, hk⟩ := elemsToBuckets_pow nElems
    rw [hk]
    exact h.reset.doResize k

end

/-- One call under the contract is a step of the set. -/
theorem tableStep_refines {ht ht' : Table P host} {event : Event P host}
    (hevent : event.call.Consistent hashOf) (h : Abstracts hashOf ht S) (hstep : TableStep ht event ht') :
    ∃ S', SetStep S event S' ∧ Abstracts hashOf ht' S' := by
  cases event with
  | insert p hash ret =>
    obtain rfl : hash = hashOf p := hevent
    obtain ⟨hret, habs⟩ := h.insert p
    cases hstep
    exact ⟨_, ⟨hret, rfl⟩, habs⟩
  | remove p hash ret =>
    obtain rfl : hash = hashOf p := hevent
    obtain ⟨hret, habs⟩ := h.remove p
    cases hstep
    exact ⟨_, ⟨hret, rfl⟩, habs⟩
  | lookup func hash ret =>
    obtain ⟨hsome, hnone⟩ := h.lookup func hash
    cases hstep
    exact ⟨S, ⟨hsome, hnone, rfl⟩, h⟩
  | iter visited =>
    cases hstep
    refine ⟨S, ⟨h.1.nodup_iter, ?_, rfl⟩, h⟩
    ext e
    rw [mem_toFinset]
    exact h.2 e
  | reset =>
    cases hstep
    exact ⟨∅, rfl, h.reset⟩
  | resetSize nElems ret =>
    refine ⟨∅, rfl, ?_⟩
    have hht : ht' = (ht.resetSize nElems).2 := (congrArg Prod.snd hstep).symm
    exact hht ▸ h.resetSize nElems
  | resize nElems ret =>
    refine ⟨S, rfl, ?_⟩
    have hht : ht' = (ht.resize nElems).2 := (congrArg Prod.snd hstep).symm
    rw [hht, resize]
    split
    · exact h
    · obtain ⟨k, hk⟩ := elemsToBuckets_pow nElems
      rw [hk]
      exact h.doResize k

end Refinement

/-- Calls that give every pointer the same hash, so that all entries share one chain. -/
def equalHashCalls : List (Call Nat .bits64) :=
  [.insert 1 7, .insert 2 7, .insert 3 7, .insert 4 7, .insert 5 7, .insert 2 7, .remove 1 7,
    .lookup (fun p => p == 5) 7, .resize 64, .iter, .resetSize 8, .lookup (fun _ => true) 7]

end TcgArm.Qht
