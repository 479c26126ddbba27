import TcgArm.ValueRuns

/-! The walk over the guest's memory regions (`walk_memory_regions`) and the table of guest pages it
goes through (`page_find_alloc`): an array of pointers to tables of tables, down to arrays of page
descriptors, any of which may be missing. The depth and the sizes are those of a target. -/

namespace TcgArm.MemoryRegions

open ValueRuns List
open BitVec (ofNat toNat_ofNat)
open Nat (mod_lt two_pow_pos zero_mul)

/-- The sizes of a target's page table, in bits: `V_L1_BITS` for the first level and `V_L2_BITS` for
the tables below it, of which there are `levels + 1`. The pages fill the address space of
`L1_MAP_ADDR_SPACE_BITS`, which may be smaller than the words of the target. -/
structure Geometry where
  ulongBits : Nat
  pageBits : Nat
  l1Bits : Nat
  l2Bits : Nat
  levels : Nat
  pageBits_pos : 0 < pageBits
  fits : l1Bits + l2Bits * (levels + 1) + pageBits ≤ ulongBits

variable (geo : Geometry)

/-- `target_ulong`. -/
abbrev Geometry.Ulong := BitVec geo.ulongBits

/-- `L1_MAP_ADDR_SPACE_BITS`. -/
def Geometry.addressBits : Nat := geo.l1Bits + geo.l2Bits * (geo.levels + 1) + geo.pageBits

/-- `V_L1_SHIFT`. -/
def Geometry.l1Shift : Nat := geo.l2Bits * (geo.levels + 1)

def Geometry.pages : Nat := 2 ^ (geo.l1Bits + geo.l1Shift)

abbrev Prot := BitVec 32

/-- A pointer to a table at a level; the tables of level zero hold the flags of pages. -/
def Table : Nat → Type
  | 0 => Option { flags : List Prot // flags.length = 2 ^ geo.l2Bits }
  | level + 1 => Option { tables : List (Table level) // tables.length = 2 ^ geo.l2Bits }

/-- `l1_map`. -/
abbrev L1Map := { tables : List (Table geo geo.levels) // tables.length = 2 ^ geo.l1Bits }

variable {geo}

/-- The flags of the page that `page_find` gives for an index, zero if there is no descriptor. -/
def Table.flagsOf : (level : Nat) → Table geo level → Nat → Prot
  | 0, none, _ => 0
  | 0, some pd, index => pd.1.getD (index % 2 ^ geo.l2Bits) 0
  | _ + 1, none, _ => 0
  | level + 1, some p, index =>
    match p.1[(index >>> ((level + 1) * geo.l2Bits)) % 2 ^ geo.l2Bits]? with
    | none => 0
    | some table => flagsOf level table index

/-- `page_get_flags`, by the index of the page. -/
def L1Map.flagsOf (map : L1Map geo) (index : Nat) : Prot :=
  match map.1[(index >>> geo.l1Shift) % 2 ^ geo.l1Bits]? with
  | none => 0
  | some table => table.flagsOf geo.levels index

/-- A callback with its private data: the new data and the value returned. -/
abbrev Callback (geo : Geometry) (σ : Type) := σ → geo.Ulong → geo.Ulong → Prot → σ × Int

/-- `struct walk_memory_regions_data`. -/
structure Data (geo : Geometry) (σ : Type) where
  priv : σ
  start : geo.Ulong
  prot : Prot

abbrev Walk (σ α : Type) := Except (σ × Int) α

/-- `-1u`, as a word of the target. -/
def noStart : geo.Ulong := BitVec.ofNat _ 0xFFFFFFFF

variable {σ : Type} (fn : Callback geo σ) {α β : Type} {f : α → List β} {m : Nat}

def closeRegion (data : Data geo σ) (last : geo.Ulong) : Walk σ σ :=
  if data.start ≠ noStart then
    let (priv, rc) := fn data.priv data.start last data.prot
    if rc ≠ 0 then .error (priv, rc) else .ok priv
  else .ok data.priv

def walkMemoryRegionsEnd (data : Data geo σ) (last : geo.Ulong) (newProt : Prot) :
    Walk σ (Data geo σ) :=
  (closeRegion fn data last).map fun priv => ⟨priv, if newProt ≠ 0 then last else noStart, newProt⟩

def forEach {α δ ε : Type} (body : Nat → α → δ → Except ε δ) : Nat → List α → δ → Except ε δ
  | _, [], data => pure data
  | i, a :: rest, data => body i a data >>= forEach body (i + 1) rest

def walkMemoryRegions1 : (level : Nat) → geo.Ulong → Table geo level → Data geo σ →
    Walk σ (Data geo σ)
  | 0, base, none, data => walkMemoryRegionsEnd fn data base 0
  | 0, base, some pd, data =>
    forEach (fun i prot data =>
      let pa := base ||| (BitVec.ofNat _ i <<< geo.pageBits)
      if prot ≠ data.prot then walkMemoryRegionsEnd fn data pa prot else pure data) 0 pd.1 data
  | _ + 1, base, none, data => walkMemoryRegionsEnd fn data base 0
  | level + 1, base, some pp, data =>
    forEach (fun i table data =>
      let pa := base ||| (BitVec.ofNat _ i <<< (geo.pageBits + geo.l2Bits * (level + 1)))
      walkMemoryRegions1 level pa table data) 0 pp.1 data

def finish : Walk σ (Data geo σ) → σ × Int
  | .error stopped => stopped
  | .ok data => (data.priv, 0)

def walkMemoryRegions (priv : σ) (map : L1Map geo) : σ × Int :=
  finish do
    let data ← forEach (fun i table data =>
      walkMemoryRegions1 fn geo.levels (BitVec.ofNat _ i <<< (geo.l1Shift + geo.pageBits)) table
        data) 0 map.1 ⟨priv, noStart, 0⟩
    walkMemoryRegionsEnd fn data 0 0

def L1Map.allFlags (map : L1Map geo) : List Prot := (List.range geo.pages).map map.flagsOf

/-- The callback on one region after the other, until it returns a value other than zero. -/
def callRegions (priv : σ) : List (geo.Ulong × geo.Ulong × Prot) → σ × Int
  | [] => (priv, 0)
  | (start, last, prot) :: rest =>
    let (priv, rc) := fn priv start last prot
    if rc ≠ 0 then (priv, rc) else callRegions priv rest

/-- The address of a page; that of the page behind the last one is the end of the address space. -/
def pageAddr (k : Nat) : geo.Ulong := BitVec.ofNat _ (k * 2 ^ geo.pageBits)

def region (r : Segment Prot) : geo.Ulong × geo.Ulong × Prot :=
  (pageAddr r.first, pageAddr r.last, r.value)

def Table.pagesOf : (level : Nat) → Table geo level → List Prot
  | 0, none => List.replicate (2 ^ geo.l2Bits) 0
  | 0, some pd => pd.1
  | level + 1, none => List.replicate (2 ^ (geo.l2Bits * (level + 2))) 0
  | level + 1, some p => p.1.flatMap (pagesOf level)

theorem length_flatMap_const
    (hlen : ∀ a, (f a).length = m) (l : List α) : (l.flatMap f).length = l.length * m := by
  induction l with
  | nil => rw [flatMap_nil, length_nil, length_nil, zero_mul]
  | cons a l ih =>
    rw [flatMap_cons, length_append, hlen, ih, length_cons, Nat.add_mul, Nat.one_mul, Nat.add_comm]

theorem getElem?_flatMap_const (hm : 0 < m) (hlen : ∀ a, (f a).length = m) (l : List α) (q : Nat) :
    (l.flatMap f)[q]? = l[q / m]?.bind fun a => (f a)[q % m]? := by
  induction l generalizing q with
  | nil => rfl
  | cons a l ih =>
    rw [flatMap_cons]
    rcases Nat.lt_or_ge q m with hlt | hge
    · rw [getElem?_append_left (by rw [hlen]; exact hlt), Nat.div_eq_of_lt hlt, Nat.mod_eq_of_lt hlt]
      rfl
    · rw [getElem?_append_right (by rw [hlen]; exact hge), hlen, ih,
        show q / m = (q - m) / m + 1 by rw [← Nat.add_div_right _ hm, Nat.sub_add_cancel hge],
        getElem?_cons_succ, Nat.mod_eq_sub_mod hge]

open Table

theorem length_pagesOf (level : Nat) (table : Table geo level) :
    (table.pagesOf level).length = 2 ^ (geo.l2Bits * (level + 1)) := by
  induction level with
  | zero =>
    rw [Nat.zero_add, Nat.mul_one]
    cases table with
    | none => exact length_replicate
    | some pd => exact pd.2
  | succ level ih =>
    cases table with
    | none => exact length_replicate
    | some p =>
      rw [pagesOf, length_flatMap_const ih, p.2, ← Nat.pow_add]
      congr 1
      ring

/-- The flags `page_find` gives for an index are those at its place in the table. -/
theorem getElem?_pagesOf (level : Nat) (table : Table geo level) (index : Nat) :
    (table.pagesOf level)[index % 2 ^ (geo.l2Bits * (level + 1))]? = some (table.flagsOf level index) := by
  have hpos : 0 < 2 ^ geo.l2Bits := two_pow_pos _
  induction level with
  | zero =>
    rw [Nat.zero_add, Nat.mul_one]
    have hlt : index % 2 ^ geo.l2Bits < 2 ^ geo.l2Bits := mod_lt _ hpos
    cases table with
    | none => rw [pagesOf, getElem?_replicate, if_pos hlt, flagsOf]
    | some pd =>
      rw [pagesOf, flagsOf, getD_eq_getElem?_getD,
        getElem?_eq_getElem (by rw [pd.2]; exact hlt), Option.getD_some]
  | succ level ih =>
    cases table with
    | none =>
      rw [pagesOf, getElem?_replicate, if_pos (mod_lt _ (two_pow_pos _)), flagsOf]
    | some p =>
      have hsplit : 2 ^ (geo.l2Bits * (level + 1 + 1)) = 2 ^ (geo.l2Bits * (level + 1)) * 2 ^ geo.l2Bits := by
        rw [← Nat.pow_add]
        congr 1
      have hentry : (index >>> ((level + 1) * geo.l2Bits)) % 2 ^ geo.l2Bits < p.1.length := by
        rw [p.2]
        exact mod_lt _ hpos
      rw [pagesOf, getElem?_flatMap_const (two_pow_pos _) (length_pagesOf level),
        hsplit, Nat.mod_mul_right_div_self, Nat.mod_mul_right_mod, flagsOf,
        Nat.shiftRight_eq_div_pow, Nat.mul_comm (level + 1) geo.l2Bits]
      rw [Nat.shiftRight_eq_div_pow, Nat.mul_comm (level + 1) geo.l2Bits] at hentry
      rw [getElem?_eq_getElem hentry]
      exact ih _

/-- The flags of all pages, table by table. -/
theorem allFlags_eq (map : L1Map geo) : map.allFlags = map.1.flatMap (Table.pagesOf geo.levels) := by
  have hlen : (map.1.flatMap (pagesOf geo.levels)).length = geo.pages := by
    rw [length_flatMap_const (length_pagesOf geo.levels), map.2, ← Nat.pow_add]
    rfl
  apply ext_getElem?
  intro q
  rw [L1Map.allFlags, getElem?_map]
  rcases Nat.lt_or_ge q geo.pages with hlt | hge
  · have hdiv : q / 2 ^ geo.l1Shift < 2 ^ geo.l1Bits := by
      apply Nat.div_lt_of_lt_mul
      rwa [← Nat.pow_add, Nat.add_comm]
    rw [getElem?_range hlt, Option.map_some, L1Map.flagsOf, Nat.shiftRight_eq_div_pow,
      Nat.mod_eq_of_lt hdiv, getElem?_flatMap_const (two_pow_pos _)
      (length_pagesOf geo.levels)]
    rw [Geometry.l1Shift] at hdiv ⊢
    rw [getElem?_eq_getElem (by rw [map.2]; exact hdiv), Option.bind_some, getElem?_pagesOf]
  · rw [getElem?_eq_none (by rw [length_range]; exact hge),
      getElem?_eq_none (by rw [hlen]; exact hge), Option.map_none]

/-- The step of the walk at a page, for the pages of a list that starts with page `k`. -/
def scan : List Prot → Nat → Data geo σ → Walk σ (Data geo σ)
  | [], _, data => pure data
  | prot :: rest, k, data =>
    (if prot ≠ data.prot then walkMemoryRegionsEnd fn data (pageAddr k) prot else pure data) >>=
      scan rest (k + 1)

theorem scan_append (first second : List Prot) (k : Nat) (data : Data geo σ) :
    scan fn (first ++ second) k data = scan fn first k data >>= scan fn second (k + first.length) := by
  induction first generalizing k data with
  | nil => simp only [nil_append, scan, pure_bind, length_nil, Nat.add_zero]
  | cons prot first ih =>
    simp only [cons_append, scan, bind_assoc, length_cons]
    congr 1
    funext data
    rw [ih, Nat.add_right_comm, Nat.add_assoc]

def Data.Sound (data : Data geo σ) : Prop := data.start = noStart ↔ data.prot = 0

theorem pageAddr_ne_noStart (k : Nat) : (pageAddr k : geo.Ulong) ≠ noStart := by
  intro h
  have hbits := geo.fits
  have hpos := geo.pageBits_pos
  have hbit := congrArg (BitVec.getLsbD · 0) h
  have hlow : (k * 2 ^ geo.pageBits).testBit 0 = false := by
    rw [Nat.testBit_mul_two_pow, decide_eq_false (by omega), Bool.false_and]
  simp only [pageAddr, noStart, BitVec.getLsbD_ofNat, hlow, Bool.and_false] at hbit
  rw [decide_eq_true (show 0 < geo.ulongBits by omega)] at hbit
  cases hbit

variable {k : Nat} {data : Data geo σ} {run : Option (Nat × Prot)} {pages : List Prot}

theorem walkEnd_sound {data data' : Data geo σ} {prot : Prot}
    (h : walkMemoryRegionsEnd fn data (pageAddr k) prot = .ok data') :
    data'.Sound ∧ data'.prot = prot := by
  rw [walkMemoryRegionsEnd] at h
  cases hclose : closeRegion fn data (pageAddr k) with
  | error e =>
    rw [hclose] at h
    cases h
  | ok priv =>
    rw [hclose] at h
    cases h
    refine ⟨?_, rfl⟩
    simp only [Data.Sound]
    split_ifs with hprot
    · exact ⟨fun h => absurd h (pageAddr_ne_noStart k), fun h => absurd h hprot⟩
    · exact ⟨fun _ => not_not.mp hprot, fun _ => rfl⟩

theorem scan_sound {data data' : Data geo σ} (hsound : data.Sound)
    (h : scan fn pages k data = .ok data') : data'.Sound := by
  induction pages generalizing k data with
  | nil =>
    cases h
    exact hsound
  | cons prot pages ih =>
    rw [scan] at h
    split_ifs at h
    · cases hstep : walkMemoryRegionsEnd fn data (pageAddr k) prot with
      | error e =>
        rw [hstep] at h
        cases h
      | ok data1 =>
        rw [hstep] at h
        exact ih (walkEnd_sound fn hstep).1 h
    · exact ih hsound h

theorem scan_zeros (m k : Nat) (hprot : data.prot = 0) : scan fn (replicate m 0) k data = .ok data := by
  induction m generalizing k with
  | zero => rfl
  | succ m ih =>
    rw [replicate_succ, scan, if_neg (fun h => h hprot.symm), pure_bind]
    exact ih (k + 1)

theorem scan_missing {m : Nat} (hm : 0 < m) (k : Nat) (hsound : data.Sound) :
    scan fn (replicate m 0) k data = walkMemoryRegionsEnd fn data (pageAddr k) 0 := by
  obtain ⟨m, rfl⟩ : ∃ n, m = n + 1 := ⟨m - 1, by omega⟩
  rw [replicate_succ, scan]
  split_ifs with hprot
  · cases hstep : walkMemoryRegionsEnd fn data (pageAddr k) 0 with
    | error e => rfl
    | ok data' => exact scan_zeros fn m (k + 1) (walkEnd_sound fn hstep).2
  · have hzero : data.prot = 0 := (not_not.mp hprot).symm
    have hstart : data.start = noStart := hsound.mpr hzero
    rw [pure_bind, scan_zeros fn m (k + 1) hzero, walkMemoryRegionsEnd, closeRegion,
      if_neg (not_not.mpr hstart), if_neg (fun h => h rfl), Except.map, ← hstart, ← hzero]

/-- A loop over an array whose elements stand for `m` pages each is a scan of all these pages. -/
theorem forEach_eq_scan {α : Type} {body : Nat → α → Data geo σ → Walk σ (Data geo σ)}
    {f : α → List Prot} {m k bound : Nat} (hlen : ∀ a, (f a).length = m)
    (hbody : ∀ i a data, i < bound → data.Sound → body i a data = scan fn (f a) (k + i * m) data)
    (l : List α) (i : Nat) (hi : i + l.length ≤ bound) {data : Data geo σ} (hsound : data.Sound) :
    forEach body i l data = scan fn (l.flatMap f) (k + i * m) data := by
  induction l generalizing i data with
  | nil => rfl
  | cons a l ih =>
    rw [length_cons] at hi
    rw [forEach, flatMap_cons, scan_append, hbody i a data (by omega) hsound, hlen,
      Nat.add_assoc, ← Nat.succ_mul]
    cases hstep : scan fn (f a) (k + i * m) data with
    | error e => rfl
    | ok data' => exact ih (i + 1) (by omega) (scan_sound fn hsound hstep)

/-- The address of an entry of a table of `2 ^ m` entries. -/
theorem pageAddr_or {k m c i : Nat} (hk : k % 2 ^ (c + m) = 0) (hi : i < 2 ^ m) :
    (pageAddr k : geo.Ulong) ||| (ofNat _ i <<< (geo.pageBits + c)) = pageAddr (k + i * 2 ^ c) := by
  obtain ⟨q, rfl⟩ := Nat.dvd_of_mod_eq_zero hk
  have hlt : i * 2 ^ (geo.pageBits + c) < 2 ^ (geo.pageBits + (c + m)) := by
    rw [← Nat.add_assoc, Nat.pow_add 2 (geo.pageBits + c) m, Nat.mul_comm]
    exact Nat.mul_lt_mul_of_pos_left hi (two_pow_pos _)
  have hshift : (ofNat geo.ulongBits i) <<< (geo.pageBits + c) =
      ofNat _ (i * 2 ^ (geo.pageBits + c)) := by
    apply BitVec.eq_of_toNat_eq
    rw [BitVec.toNat_shiftLeft, toNat_ofNat, toNat_ofNat, Nat.shiftLeft_eq, Nat.mod_mul_mod]
  rw [hshift, pageAddr, pageAddr, ← BitVec.ofNat_or]
  congr 1
  rw [show 2 ^ (c + m) * q * 2 ^ geo.pageBits = 2 ^ (geo.pageBits + (c + m)) * q by
    rw [Nat.pow_add 2 geo.pageBits]; ring, ← Nat.two_pow_add_eq_or_of_lt hlt,
    Nat.pow_add 2 geo.pageBits, Nat.pow_add 2 geo.pageBits]
  ring

/-- The walk through a table is a scan of its pages. -/
theorem walk1_eq_scan (level : Nat) (table : Table geo level)
    (hk : k % 2 ^ (geo.l2Bits * (level + 1)) = 0) (hsound : data.Sound) :
    walkMemoryRegions1 fn level (pageAddr k) table data = scan fn (table.pagesOf level) k data := by
  induction level generalizing k data with
  | zero =>
    cases table with
    | none => exact (scan_missing fn (two_pow_pos _) k hsound).symm
    | some pd =>
      have hbody : ∀ i (prot : Prot) (data : Data geo σ), i < 2 ^ geo.l2Bits → data.Sound →
          (let pa := pageAddr k ||| (ofNat _ i <<< geo.pageBits)
          if prot ≠ data.prot then walkMemoryRegionsEnd fn data pa prot else pure data) =
          scan fn [prot] (k + i * 1) data := by
        intro i prot data hi _
        have haddr := @pageAddr_or geo k geo.l2Bits 0 i
          (by rw [Nat.zero_add]; rwa [Nat.zero_add, Nat.mul_one] at hk) hi
        rw [Nat.add_zero, Nat.pow_zero] at haddr
        simp only [scan, haddr, bind_pure]
      have hloop := @forEach_eq_scan geo σ fn Prot _ (fun prot => [prot]) 1 k _ (fun _ => rfl)
        hbody pd.1 0 (by rw [Nat.zero_add, pd.2]) data hsound
      rw [zero_mul, Nat.add_zero, flatMap_singleton'] at hloop
      exact hloop
  | succ level ih =>
    cases table with
    | none => exact (scan_missing fn (two_pow_pos _) k hsound).symm
    | some pp =>
      have hsplit : geo.l2Bits * (level + 1 + 1) = geo.l2Bits * (level + 1) + geo.l2Bits := by ring
      rw [hsplit] at hk
      have hbody : ∀ i (table : Table geo level) (data : Data geo σ), i < 2 ^ geo.l2Bits →
          data.Sound →
          (let pa := pageAddr k ||| (ofNat _ i <<< (geo.pageBits + geo.l2Bits * (level + 1)))
          walkMemoryRegions1 fn level pa table data) =
          scan fn (table.pagesOf level) (k + i * 2 ^ (geo.l2Bits * (level + 1))) data := by
        intro i table data hi hdata
        simp only [pageAddr_or hk hi]
        refine ih table ?_ hdata
        rw [Nat.add_mul_mod_self_right]
        exact Nat.mod_eq_zero_of_dvd
          ((pow_dvd_pow 2 (Nat.le_add_right _ _)).trans (Nat.dvd_of_mod_eq_zero hk))
      have hloop := forEach_eq_scan fn (length_pagesOf level) hbody pp.1 0 (by rw [Nat.zero_add, pp.2]) hsound
      rw [zero_mul, Nat.add_zero] at hloop
      exact hloop

/-- The walk is a scan of all pages, which ends with the address zero. -/
theorem walkMemoryRegions_eq (priv : σ) (map : L1Map geo) :
    walkMemoryRegions fn priv map = finish (scan fn map.allFlags 0 ⟨priv, noStart, 0⟩ >>=
      (walkMemoryRegionsEnd fn · 0 0)) := by
  have hbody : ∀ i (table : Table geo geo.levels) (data : Data geo σ), i < 2 ^ geo.l1Bits →
      data.Sound → walkMemoryRegions1 fn geo.levels
        (ofNat _ i <<< (geo.l1Shift + geo.pageBits)) table data =
      scan fn (table.pagesOf geo.levels) (0 + i * 2 ^ geo.l1Shift) data := by
    intro i table data hi hdata
    have haddr := @pageAddr_or geo 0 geo.l1Bits geo.l1Shift i (Nat.zero_mod _) hi
    rw [show (pageAddr 0 : geo.Ulong) = 0#_ by rw [pageAddr, zero_mul], BitVec.zero_or,
      Nat.add_comm geo.pageBits] at haddr
    rw [haddr, walk1_eq_scan fn geo.levels table _ hdata]
    rw [Nat.zero_add]
    exact Nat.mul_mod_left _ _
  have hsound : (⟨priv, noStart, 0⟩ : Data geo σ).Sound := ⟨fun _ => rfl, fun _ => rfl⟩
  have hloop := forEach_eq_scan fn (length_pagesOf geo.levels) hbody map.1 0
    (by rw [Nat.zero_add, map.2]) hsound
  rw [zero_mul, Nat.add_zero] at hloop
  rw [walkMemoryRegions, hloop, allFlags_eq]

def reported (r : Segment Prot) : geo.Ulong × geo.Ulong × Prot :=
  (pageAddr r.first, if r.last = geo.pages then 0 else pageAddr r.last, r.value)

def Data.Holds (data : Data geo σ) : Option (Nat × Prot) → Prop
  | none => data.start = noStart ∧ data.prot = 0
  | some (first, value) => data.start = pageAddr first ∧ data.prot = value

theorem Data.Holds.current (h : data.Holds run) : data.prot = ValueRuns.current 0 run := by
  cases run with
  | none => exact h.2
  | some r => exact h.2

/-- The end of a region calls the callback for the run the scan was in. -/
theorem finish_walkEnd (h : data.Holds run) {last : geo.Ulong}
    (hlast : last = if k = geo.pages then 0 else pageAddr k) (prot : Prot)
    {next : Data geo σ → Walk σ (Data geo σ)} {rest : List (geo.Ulong × geo.Ulong × Prot)}
    (hnext : ∀ priv, finish (next ⟨priv, if prot ≠ 0 then last else noStart, prot⟩) =
      callRegions fn priv rest) :
    finish (walkMemoryRegionsEnd fn data last prot >>= next) =
      callRegions fn data.priv ((close k run).map reported ++ rest) := by
  cases run with
  | none =>
    rw [walkMemoryRegionsEnd, closeRegion, if_neg (not_not.mpr h.1)]
    exact hnext data.priv
  | some r =>
    obtain ⟨first, value⟩ := r
    have hstart : data.start ≠ noStart := by
      rw [h.1]
      exact pageAddr_ne_noStart first
    rw [walkMemoryRegionsEnd, closeRegion, if_pos hstart, h.1, h.2, close, map_singleton,
      singleton_append, reported, callRegions, ← hlast]
    by_cases hstop : (fn data.priv (pageAddr first) last value).2 = 0
    · simp only [hstop, ne_eq, not_true_eq_false, if_false]
      exact hnext _
    · simp only [hstop, ne_eq, not_false_eq_true, if_true]
      rfl

/-- A scan of the pages from `k` on calls the callback for the runs that had not ended, in turn. -/
theorem finish_scan (h : data.Holds run) (hlen : k + pages.length = geo.pages) :
    finish (scan fn pages k data >>= (walkMemoryRegionsEnd fn · 0 0)) =
      callRegions fn data.priv ((segmentsFrom 0 pages k run).map reported) := by
  induction pages generalizing k data run with
  | nil =>
    rw [length_nil, Nat.add_zero] at hlen
    have hend : finish (walkMemoryRegionsEnd fn data 0 0 >>= pure) =
        callRegions fn data.priv ((close k run).map reported ++ []) :=
      finish_walkEnd fn h (if_pos hlen).symm 0 fun _ => rfl
    rw [bind_pure, append_nil] at hend
    exact hend
  | cons prot pages ih =>
    rw [length_cons] at hlen
    rw [scan, segmentsFrom, h.current]
    by_cases hsame : prot = current 0 run
    · rw [if_neg (not_not.mpr hsame), if_pos hsame, pure_bind]
      exact ih h (by omega)
    · rw [if_pos hsame, if_neg hsame, map_append, bind_assoc]
      refine finish_walkEnd fn h (if_neg (by omega)).symm prot fun priv => ?_
      have hholds : (⟨priv, if prot ≠ 0 then pageAddr k else noStart, prot⟩ : Data geo σ).Holds
          (startRun 0 k prot) := by
        by_cases hzero : prot = 0
        · rw [startRun, if_pos hzero, if_neg (not_not.mpr hzero)]
          exact ⟨rfl, hzero⟩
        · rw [startRun, if_neg hzero, if_pos hzero]
          exact ⟨rfl, rfl⟩
      exact ih hholds (by omega)

theorem walkMemoryRegions_reported (priv : σ) (map : L1Map geo) :
    walkMemoryRegions fn priv map = callRegions fn priv ((segments 0 map.allFlags).map reported) := by
  rw [walkMemoryRegions_eq]
  have hholds : (⟨priv, noStart, 0⟩ : Data geo σ).Holds none := ⟨rfl, rfl⟩
  refine finish_scan fn hholds ?_
  rw [Nat.zero_add, L1Map.allFlags, length_map, length_range]

theorem length_allFlags (map : L1Map geo) : map.allFlags.length = geo.pages := by
  rw [L1Map.allFlags, length_map, length_range]

theorem getElem?_allFlags (map : L1Map geo) (hk : k < geo.pages) :
    map.allFlags[k]? = some (map.flagsOf k) := by
  rw [L1Map.allFlags, getElem?_map, getElem?_range hk, Option.map_some]

theorem IsMaximal.last_le {map : L1Map geo} {r : Segment Prot} (h : IsMaximal 0 map.allFlags r) :
    r.last ≤ geo.pages := by
  by_contra hgt
  have hlt := h.lt
  have hin := h.inside (r.last - 1) (by omega) (by omega)
  rw [getElem?_eq_none (by rw [length_allFlags]; omega)] at hin
  cases hin

theorem pageAddr_pages (h : geo.addressBits = geo.ulongBits) : (pageAddr geo.pages : geo.Ulong) = 0 := by
  have hpow : geo.pages * 2 ^ geo.pageBits = 2 ^ geo.ulongBits := by
    rw [Geometry.pages, ← Nat.pow_add, ← h]
    rfl
  apply BitVec.eq_of_toNat_eq
  rw [pageAddr, hpow, toNat_ofNat, Nat.mod_self]
  rfl

theorem pageAddr_ne_zero (h : geo.addressBits ≠ geo.ulongBits) (hpos : 0 < k) (hk : k ≤ geo.pages) :
    (pageAddr k : geo.Ulong) ≠ 0 := by
  have hlt : geo.addressBits < geo.ulongBits := lt_of_le_of_ne geo.fits h
  have hpow : geo.pages * 2 ^ geo.pageBits = 2 ^ geo.addressBits := by
    rw [Geometry.pages, ← Nat.pow_add]
    rfl
  have hle : k * 2 ^ geo.pageBits ≤ 2 ^ geo.addressBits := hpow ▸ Nat.mul_le_mul_right _ hk
  intro hzero
  have hnat := congrArg BitVec.toNat hzero
  rw [pageAddr, toNat_ofNat, Nat.mod_eq_of_lt (hle.trans_lt (Nat.pow_lt_pow_right (by decide) hlt))] at hnat
  exact absurd hnat (Nat.mul_pos hpos (two_pow_pos _)).ne'

def note : Callback geo (List (geo.Ulong × geo.Ulong × Prot)) :=
  fun calls start last prot => (calls ++ [(start, last, prot)], 0)

theorem callRegions_note (regions calls : List (geo.Ulong × geo.Ulong × Prot)) :
    callRegions note calls regions = (calls ++ regions, 0) := by
  induction regions generalizing calls with
  | nil => rw [callRegions, append_nil]
  | cons r regions ih =>
    obtain ⟨start, last, prot⟩ := r
    rw [callRegions, note]
    simp only [ne_eq, not_true_eq_false, if_false]
    rw [ih, append_assoc, singleton_append]

/-- `walk_memory_regions` calls every callback once for each maximal run of pages with equal flags
other than zero, in order, with the exact addresses of its start and end, until the callback returns
a value other than zero: exactly when the address space fills the words of the target or its last
page has no flags. -/
theorem walk_memory_regions_iff (map : L1Map geo) :
    (∃ runs : List (Segment Prot), runs.Pairwise (fun a b => a.last ≤ b.first) ∧
      (∀ r, r ∈ runs ↔ IsMaximal 0 map.allFlags r) ∧
      ∀ (σ : Type) (fn : Callback geo σ) (priv : σ),
        walkMemoryRegions fn priv map = callRegions fn priv (runs.map region)) ↔
    geo.addressBits = geo.ulongBits ∨ map.flagsOf (geo.pages - 1) = 0 := by
  have hpos : 0 < geo.pages := Nat.two_pow_pos _
  have hlastFlags := getElem?_allFlags map (Nat.sub_lt hpos Nat.one_pos)
  constructor
  · rintro ⟨runs, -, hmem, hwalk⟩
    by_contra hnot
    rw [not_or] at hnot
    obtain ⟨hbits, hflags⟩ := hnot
    -- the run with the last page is reported with the end zero
    obtain ⟨r, hmax, hfirst, hbehind⟩ := exists_isMaximal hlastFlags hflags
    have hlast : r.last = geo.pages := by
      have := IsMaximal.last_le hmax
      omega
    have hcalls := hwalk _ note []
    rw [walkMemoryRegions_reported, callRegions_note, callRegions_note, nil_append, nil_append] at hcalls
    have hmem' : (reported r : geo.Ulong × geo.Ulong × Prot) ∈ runs.map region := by
      rw [← (Prod.mk.inj hcalls).1]
      exact mem_map_of_mem ((mem_segments r).mpr hmax)
    obtain ⟨q, hq, heq⟩ := mem_map.mp hmem'
    rw [region, reported, if_pos hlast, Prod.mk.injEq, Prod.mk.injEq] at heq
    have hq' := (hmem q).mp hq
    have hqlt := hq'.lt
    exact pageAddr_ne_zero hbits (by omega) (IsMaximal.last_le hq') heq.2.1
  · intro hcond
    refine ⟨segments 0 map.allFlags, segments_pairwise _ _, fun r => mem_segments r, fun σ fn priv => ?_⟩
    rw [walkMemoryRegions_reported]
    congr 1
    refine map_congr_left fun r hr => ?_
    have hmax := (mem_segments r).mp hr
    rw [reported, region]
    split_ifs with hlast
    · rw [hlast]
      rcases hcond with hbits | hflags
      · rw [pageAddr_pages hbits]
      · have hin := hmax.inside (r.last - 1) (by have := hmax.lt; omega) (by omega)
        rw [hlast, hlastFlags, hflags] at hin
        exact absurd (Option.some.inj hin).symm hmax.value_ne
    · rfl

/-- The page table of 32-bit ARM. -/
def armGeometry : Geometry := ⟨32, 12, 10, 10, 0, by decide, by decide⟩

example : armGeometry.addressBits = armGeometry.ulongBits := rfl

/-- The page table of a 64-bit target with an address space of 47 bits. -/
def x86Geometry : Geometry := ⟨64, 12, 5, 10, 2, by decide, by decide⟩

def lastOnly {α : Type} (bits : Nat) (absent : α) (entry : α) :
    { l : List α // l.length = 2 ^ bits } :=
  ⟨List.replicate (2 ^ bits - 1) absent ++ [entry], by
    rw [length_append, length_replicate, length_singleton]
    exact Nat.sub_add_cancel (Nat.two_pow_pos bits)⟩

def lastPageMap : L1Map x86Geometry :=
  let level0 : Table x86Geometry 0 := some (lastOnly 10 0 9)
  let level1 : Table x86Geometry 1 := some (lastOnly 10 none level0)
  let level2 : Table x86Geometry 2 := some (lastOnly 10 none level1)
  lastOnly 5 none level2

/-- The region of the last page ends at `0x800000000000`, but its end is reported as zero. -/
theorem walk_memory_regions_last_page :
    walkMemoryRegions note [] lastPageMap = ([(0x7ffffffff000, 0, 9)], 0) ∧
      IsMaximal 0 lastPageMap.allFlags ⟨0x7ffffffff, 0x800000000, 9⟩ ∧
      region ⟨0x7ffffffff, 0x800000000, 9⟩ =
        ((0x7ffffffff000, 0x800000000000, 9) : x86Geometry.Ulong × x86Geometry.Ulong × Prot) := by
  have hpages : x86Geometry.pages = 0x800000000 := rfl
  refine ⟨by decide +kernel, ⟨by decide, by decide, fun k hlow hhigh => ?_, fun k hk => ?_, ?_⟩, by decide⟩
  · obtain rfl : k = 0x7ffffffff := Nat.le_antisymm (Nat.lt_succ_iff.mp hhigh) hlow
    rw [getElem?_allFlags _ (by rw [hpages]; decide)]
    decide +kernel
  · obtain rfl : k = 0x7fffffffe := Nat.succ.inj hk
    rw [getElem?_allFlags _ (by rw [hpages]; decide)]
    decide +kernel
  · rw [List.getElem?_eq_none (by rw [length_allFlags, hpages])]
    decide

end TcgArm.MemoryRegions
