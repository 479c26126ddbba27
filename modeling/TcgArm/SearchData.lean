import TcgArm.Host
import TcgArm.Sleb128

/-! The table from host addresses inside a block's code back to guest instructions: `encode_search`
writes the lines of the instructions as deltas in signed LEB128, and `cpu_restore_state_from_tb` reads
them until an instruction's code ends after the address. A read past the bytes written, and a failed
assertion, have no result. -/

namespace TcgArm.Search

open List Option

/-- `TARGET_INSN_START_WORDS`. -/
abbrev targetInsnStartWords : Nat := 3

/-- The words of an `insn_start`: the guest pc, the condexec bits and a part of the syndrome. -/
abbrev InsnData := Fin targetInsnStartWords → BitVec 32

/-- One line: `gen_insn_data[i]` and `gen_insn_end_off[i]`. -/
structure Row where
  insnData : InsnData
  insnEndOff : BitVec 16

/-- `encode_sleb128` on a `target_long`. -/
def encodeSleb128 (val : BitVec 32) : List (BitVec 8) :=
  (Sleb128.encode val).get (Sleb128.encode_isSome (by decide) val)

/-- `decode_sleb128` on a `target_long`. -/
def decodeSleb128 (p : List (BitVec 8)) : Option (BitVec 32 × List (BitVec 8)) := Sleb128.decode p

theorem decodeSleb128_encodeSleb128 (val : BitVec 32) (rest : List (BitVec 8)) :
    decodeSleb128 (encodeSleb128 val ++ rest) = some (val, rest) :=
  Sleb128.decode_encode (by decide) rest (some_get _).symm

def seedRow (pc : BitVec 32) : Row := ⟨fun j => if j = 0 then pc else 0, 0⟩

/-- One iteration of the outer loop of `encode_search`. -/
def encodeRow (prev row : Row) : List (BitVec 8) :=
  ((List.finRange targetInsnStartWords).flatMap fun j =>
      encodeSleb128 (row.insnData j - prev.insnData j)) ++
    encodeSleb128 (row.insnEndOff.setWidth 32 - prev.insnEndOff.setWidth 32)

/-- The outer loop, from the address `p`. It gives up past the high water mark. -/
def encodeRows (highwater : Nat) : Nat → Row → List Row → Option (List (BitVec 8))
  | _, _, [] => some []
  | p, prev, row :: rows =>
    let bytes := encodeRow prev row
    if p + bytes.length > highwater then none
    else (bytes ++ ·) <$> encodeRows highwater (p + bytes.length) row rows

def encodeSearch (pc : BitVec 32) (block highwater : Nat) (rows : List Row) :
    Option (List (BitVec 8)) :=
  encodeRows highwater block (seedRow pc) rows

/-- The fields of `CPUState` and `CPUARMState` that are written. -/
structure Cpu where
  regs15 : BitVec 32
  condexecBits : BitVec 32
  syndrome : BitVec 32
  icountDecrLow : BitVec 16
  canDoIo : BitVec 32
  deriving DecidableEq

/-- `restore_state_to_opc` of a 32-bit CPU. -/
def restoreStateToOpc (cpu : Cpu) (data : InsnData) : Cpu :=
  { cpu with regs15 := data 0, condexecBits := data 1, syndrome := data 2 <<< 14 }

def cfUseIcount : BitVec 32 := 0x20000#32

def decodeWords : List (Fin targetInsnStartWords) → InsnData → List (BitVec 8) →
    Option (InsnData × List (BitVec 8))
  | [], data, p => some (data, p)
  | j :: js, data, p => do
    let (delta, p) ← decodeSleb128 p
    decodeWords js (Function.update data j (data j + delta)) p

/-- The outer loop of the reader, over `n` more instructions: the number of the instruction that
was found and its words. -/
def searchRows {w : Nat} (searchedPc : BitVec w) :
    Nat → Nat → InsnData → BitVec w → List (BitVec 8) → Option (Option (Nat × InsnData))
  | 0, _, _, _, _ => some none
  | n + 1, i, data, hostPc, p => do
    let (data, p) ← decodeWords (List.finRange targetInsnStartWords) data p
    let (delta, p) ← decodeSleb128 p
    let hostPc := hostPc + delta.signExtend w
    if hostPc > searchedPc then some (some (i, data))
    else searchRows searchedPc n (i + 1) data hostPc p

/-- A block whose search data is to be written: its lines, in the order of the code, and the place
of its code, which does not reach the end of the address space. -/
structure SearchTb (host : Host) where
  pc : BitVec 32
  cflags : BitVec 32
  tcPtr : BitVec host.bits
  rows : List Row
  sorted : rows.Pairwise fun row row' => row.insnEndOff ≤ row'.insnEndOff
  inside : ∀ row ∈ rows, tcPtr.toNat + row.insnEndOff.toNat < 2 ^ host.bits

variable {host : Host}

/-- `cpu_restore_state_from_tb`, with `true` for its result 0 and `false` for -1. The bytes are
those at `tc_search`. -/
def cpuRestoreStateFromTb (useIcount : Bool) (cpu : Cpu) (tb : SearchTb host)
    (tcSearch : List (BitVec 8)) (searchedPc : BitVec host.bits) : Option (Bool × Cpu) := do
  let numInsns := tb.rows.length
  if searchedPc < tb.tcPtr then return (false, cpu)
  match ← searchRows searchedPc numInsns 0 (seedRow tb.pc).insnData tb.tcPtr tcSearch with
  | none => return (false, cpu)
  | some (i, data) =>
    let cpu ←
      if tb.cflags &&& cfUseIcount ≠ 0 then
        if useIcount then
          some { cpu with
            icountDecrLow := cpu.icountDecrLow + BitVec.ofNat 16 numInsns, canDoIo := 0 }
        else none
      else some cpu
    let cpu := { cpu with icountDecrLow := cpu.icountDecrLow - BitVec.ofNat 16 i }
    return (true, restoreStateToOpc cpu data)

/-- `GETPC ()` for a return address. -/
def getpc (retaddr : BitVec host.bits) : BitVec host.bits := retaddr - BitVec.ofNat _ 2

variable {data : InsnData}

theorem decodeWords_encode {js : List (Fin targetInsnStartWords)} (hjs : js.Nodup)
    (prev row : Row) (hdata : ∀ j ∈ js, data j = prev.insnData j) (rest : List (BitVec 8)) :
    decodeWords js data ((js.flatMap fun j => encodeSleb128 (row.insnData j - prev.insnData j)) ++
        rest) = some (fun j => if j ∈ js then row.insnData j else data j, rest) := by
  induction js generalizing data with
  | nil => simp [decodeWords]
  | cons j js ih =>
    obtain ⟨hj, hjs⟩ := nodup_cons.mp hjs
    have hnext : data j + (row.insnData j - prev.insnData j) = row.insnData j := by
      grind
    rw [flatMap_cons, append_assoc, decodeWords, decodeSleb128_encodeSleb128]
    simp only [bind_eq_bind, bind_some, hnext]
    rw [ih hjs]
    · congr 2
      funext j'
      by_cases hj' : j' = j
      · subst hj'
        simp [hj]
      · simp [hj']
    · intro j' hj'
      have hne : j' ≠ j := fun heq => hj (heq ▸ hj')
      rw [Function.update_of_ne hne, hdata j' (mem_cons_of_mem _ hj')]

theorem add_signExtend_delta {w : Nat} (tcPtr : BitVec w) (a b : BitVec 16) :
    tcPtr + BitVec.ofNat w b.toNat + (a.setWidth 32 - b.setWidth 32).signExtend w =
      tcPtr + BitVec.ofNat w a.toNat := by
  have hint : (a.setWidth 32 - b.setWidth 32).toInt = (a.toNat : Int) - b.toNat := by
    simp only [BitVec.toInt_eq_toNat_cond, BitVec.toNat_sub, BitVec.toNat_setWidth]
    omega
  rw [BitVec.signExtend, hint, BitVec.add_assoc, ← BitVec.ofInt_natCast, ← BitVec.ofInt_add,
    add_sub_cancel, BitVec.ofInt_natCast]

variable {w : Nat}

def endsAfter (tcPtr searchedPc : BitVec w) (row : Row) : Bool :=
  searchedPc.toNat < tcPtr.toNat + row.insnEndOff.toNat

variable {tcPtr : BitVec w}

theorem gt_iff_endsAfter {searchedPc : BitVec w} {row : Row}
    (h : tcPtr.toNat + row.insnEndOff.toNat < 2 ^ w) :
    tcPtr + BitVec.ofNat w row.insnEndOff.toNat > searchedPc ↔ endsAfter tcPtr searchedPc row = true := by
  have hoff : row.insnEndOff.toNat < 2 ^ w := by omega
  rw [gt_iff_lt, BitVec.lt_def, BitVec.toNat_add, BitVec.toNat_ofNat, Nat.mod_eq_of_lt hoff,
    Nat.mod_eq_of_lt h, endsAfter, decide_eq_true_eq]

variable {bytes : List (BitVec 8)}

/-- The reader finds the first line that ends after the address and reads no byte past those that
were written. -/
theorem searchRows_encodeRows (searchedPc : BitVec w) (i : Nat) {highwater p : Nat} {prev : Row}
    {rows : List Row} (henc : encodeRows highwater p prev rows = some bytes)
    (hinside : ∀ row ∈ rows, tcPtr.toNat + row.insnEndOff.toNat < 2 ^ w) :
    searchRows searchedPc rows.length i prev.insnData
        (tcPtr + BitVec.ofNat w prev.insnEndOff.toNat) bytes =
      some ((rows.findIdx? (endsAfter tcPtr searchedPc)).bind fun k =>
        rows[k]?.map fun row => (i + k, row.insnData)) := by
  induction rows generalizing p i prev bytes with
  | nil => rfl
  | cons row rows ih =>
    rw [encodeRows] at henc
    split_ifs at henc
    obtain ⟨tail, htail, rfl⟩ := map_eq_some_iff.mp henc
    have hwords := decodeWords_encode (nodup_finRange _) prev row (fun _ _ => rfl)
      (encodeSleb128 (row.insnEndOff.setWidth 32 - prev.insnEndOff.setWidth 32) ++ tail)
    rw [length_cons, searchRows, encodeRow, append_assoc, hwords]
    simp only [bind_eq_bind, bind_some, decodeSleb128_encodeSleb128,
      mem_finRange, if_true, add_signExtend_delta,
      gt_iff_endsAfter (hinside row mem_cons_self), List.findIdx?_cons]
    split_ifs with hpast
    · simp
    · rw [ih (i + 1) htail fun row' hrow' => hinside row' (mem_cons_of_mem _ hrow')]
      simp [bind_map, Nat.add_assoc, Nat.add_comm 1]

def SearchTb.codeEnd (tb : SearchTb host) : Nat :=
  tb.rows.getLast?.elim 0 fun row => row.insnEndOff.toNat

theorem SearchTb.le_codeEnd (tb : SearchTb host) {row : Row} (h : row ∈ tb.rows) :
    row.insnEndOff.toNat ≤ tb.codeEnd := by
  obtain ⟨rows, last, hrows⟩ := eq_nil_or_concat tb.rows |>.resolve_left (ne_nil_of_mem h)
  have hsorted := tb.sorted
  rw [SearchTb.codeEnd, hrows, concat_eq_append, List.getLast?_concat]
  rw [hrows, concat_eq_append] at h hsorted
  rcases mem_append.mp h with hmem | hmem
  · exact (pairwise_append.mp hsorted).2.2 row hmem last (by simp)
  · rw [mem_singleton.mp hmem]
    exact le_rfl

theorem SearchTb.lt_codeEnd (tb : SearchTb host) {off : Nat} (h : off < tb.codeEnd) :
    ∃ row ∈ tb.rows, off < row.insnEndOff.toNat := by
  unfold SearchTb.codeEnd at h
  cases hlast : tb.rows.getLast? with
  | none => simp [hlast] at h
  | some row => exact ⟨row, mem_of_getLast? hlast, by simpa [hlast] using h⟩

variable {tb : SearchTb host}

theorem searchRows_encodeSearch {block highwater : Nat} (searchedPc : BitVec host.bits)
    (henc : encodeSearch tb.pc block highwater tb.rows = some bytes) :
    searchRows searchedPc tb.rows.length 0 (seedRow tb.pc).insnData tb.tcPtr bytes =
      some ((tb.rows.findIdx? (endsAfter tb.tcPtr searchedPc)).bind fun k =>
        tb.rows[k]?.map fun row => (k, row.insnData)) := by
  simpa [seedRow] using searchRows_encodeRows searchedPc 0 henc tb.inside

theorem restore_found {useIcount : Bool} {searchedPc : BitVec host.bits} {i : Nat} (cpu : Cpu)
    (hicount : tb.cflags &&& cfUseIcount ≠ 0 → useIcount = true) (hstart : tb.tcPtr ≤ searchedPc)
    (hfound : searchRows searchedPc tb.rows.length 0 (seedRow tb.pc).insnData tb.tcPtr bytes =
      some (some (i, data))) :
    ∃ cpu', cpuRestoreStateFromTb useIcount cpu tb bytes searchedPc =
      some (true, restoreStateToOpc cpu' data) := by
  have hlt : ¬ searchedPc < tb.tcPtr := BitVec.not_lt.mpr hstart
  simp only [cpuRestoreStateFromTb, if_neg hlt, hfound]
  by_cases hflag : tb.cflags &&& cfUseIcount ≠ 0
  · exact ⟨_, by simp only [if_pos hflag, hicount hflag]; rfl⟩
  · exact ⟨_, by simp only [if_neg hflag]; rfl⟩

/-- Reading the bytes that `encode_search` wrote, a return address inside the block's code restores
the words of the first instruction whose code ends after it, any other address fails, and neither
reads another byte. -/
theorem restores_start_words (useIcount : Bool) (cpu : Cpu) (tb : SearchTb host)
    (block highwater : Nat) (bytes : List (BitVec 8)) (retaddr : BitVec host.bits)
    (hicount : tb.cflags &&& cfUseIcount ≠ 0 → useIcount = true)
    (henc : encodeSearch tb.pc block highwater tb.rows = some bytes) :
    (tb.tcPtr ≤ getpc retaddr → (getpc retaddr).toNat < tb.tcPtr.toNat + tb.codeEnd →
      ∃ i row cpu', tb.rows.findIdx? (endsAfter tb.tcPtr (getpc retaddr)) = some i ∧
        tb.rows[i]? = some row ∧
        cpuRestoreStateFromTb useIcount cpu tb bytes (getpc retaddr) = some (true, cpu') ∧
        cpu'.regs15 = row.insnData 0 ∧ cpu'.condexecBits = row.insnData 1 ∧
        cpu'.syndrome = row.insnData 2 <<< 14) ∧
      (getpc retaddr < tb.tcPtr ∨ tb.tcPtr.toNat + tb.codeEnd ≤ (getpc retaddr).toNat →
        cpuRestoreStateFromTb useIcount cpu tb bytes (getpc retaddr) = some (false, cpu)) := by
  have hsearch := searchRows_encodeSearch (getpc retaddr) henc
  constructor
  · intro hstart hend
    obtain ⟨row₀, hmem, hlt⟩ := tb.lt_codeEnd (Nat.sub_lt_left_of_lt_add hstart hend)
    have hex : ∃ row ∈ tb.rows, endsAfter tb.tcPtr (getpc retaddr) row = true :=
      ⟨row₀, hmem, decide_eq_true (by omega)⟩
    obtain ⟨i, hi⟩ := isSome_iff_exists.mp (List.findIdx?_isSome.trans (any_eq_true.mpr hex))
    obtain ⟨hilt, -, -⟩ := List.findIdx?_eq_some_iff_getElem.mp hi
    rw [hi, bind_some, List.getElem?_eq_getElem hilt, map_some] at hsearch
    obtain ⟨cpu', hcpu'⟩ := restore_found cpu hicount hstart hsearch
    exact ⟨i, _, _, hi, List.getElem?_eq_getElem hilt, hcpu', rfl, rfl, rfl⟩
  · intro hout
    by_cases hstart : getpc retaddr < tb.tcPtr
    · simp only [cpuRestoreStateFromTb, if_pos hstart]
      rfl
    · have hnone : tb.rows.findIdx? (endsAfter tb.tcPtr (getpc retaddr)) = none := by
        refine List.findIdx?_eq_none_iff.mpr fun row hrow => decide_eq_false ?_
        have hle := tb.le_codeEnd hrow
        have hend := hout.resolve_left hstart
        omega
      rw [hnone, bind_none] at hsearch
      simp only [cpuRestoreStateFromTb, if_neg hstart, hsearch]
      rfl

def backwardTb : SearchTb .bits32 where
  pc := 0x8000
  cflags := 0
  tcPtr := 0x1000#32
  rows := [⟨![0x8000, 0, 0], 10⟩, ⟨![0x7ff0, 5, 0], 300⟩]
  sorted := by decide
  inside := by decide

theorem restores_start_words_backward :
    ∃ cpu', cpuRestoreStateFromTb false ⟨0, 0, 0, 0, 1⟩ backwardTb
      [0, 0, 0, 0x0a, 0x70, 5, 0, 0xa2, 2] (getpc 0x100c#32) = some (true, cpu') ∧ cpu'.regs15 = 0x7ff0 := by
  obtain ⟨i, row, cpu', hi, hrow, hrun, hpc, -⟩ := (restores_start_words false ⟨0, 0, 0, 0, 1⟩
    backwardTb 0 100 [0, 0, 0, 0x0a, 0x70, 5, 0, 0xa2, 2] 0x100c#32 (by decide)
    (by decide +kernel)).1 (by decide) (by decide)
  have hi' : backwardTb.rows.findIdx? (endsAfter backwardTb.tcPtr (getpc 0x100c#32)) = some 1 := by
    decide +kernel
  cases hi.symm.trans hi'
  cases hrow
  exact ⟨cpu', hrun, hpc⟩

end TcgArm.Search
