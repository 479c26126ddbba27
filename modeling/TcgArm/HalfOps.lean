import TcgArm.HalfRight

/-! The 64-bit operations of the front end as a whole: what each is to do, the ops that a 32-bit
host gets for it, and when these do it. -/

namespace TcgArm.Half

open Tcg SeqCode List BitVec Mach

inductive Store where
  | b8
  | b16
  | b32
  | full
  deriving DecidableEq, Repr

def Store.bytes : Store → Nat
  | .b8 => 1
  | .b16 => 2
  | .b32 => 4
  | .full => 8

def Store.gen (tgt : Target) : Store → Nat → Temp → BitVec 32 → List Instr
  | .b8 => tcgGenSt8I64
  | .b16 => tcgGenSt16I64
  | .b32 => tcgGenSt32I64
  | .full => tcgGenStI64 tgt

inductive Shift where
  | shl
  | shr
  | sar
  | rotl
  | rotr
  deriving DecidableEq, Repr

def Shift.eval : Shift → BitVec 64 → Nat → BitVec 64
  | .shl, v, c => v <<< c
  | .shr, v, c => v >>> c
  | .sar, v, c => v.sshiftRight c
  | .rotl, v, c => v.rotateLeft c
  | .rotr, v, c => v.rotateRight c

def Shift.gen (free : Nat) : Shift → Nat → Nat → Nat → List Instr
  | .shl => tcgGenShliI64 free
  | .shr => tcgGenShriI64 free
  | .sar => tcgGenSariI64 free
  | .rotl => tcgGenRotliI64 free
  | .rotr => tcgGenRotriI64 free

/-- The operations with a constant operand. -/
inductive Const where
  | andi
  | ori
  | xori
  | addi
  | subi
  | subfi
  | muli
  deriving DecidableEq, Repr

def Const.eval : Const → BitVec 64 → BitVec 64 → BitVec 64
  | .andi, v, c => v &&& c
  | .ori, v, c => v ||| c
  | .xori, v, c => v ^^^ c
  | .addi, v, c => v + c
  | .subi, v, c => v - c
  | .subfi, v, c => c - v
  | .muli, v, c => v * c

def Const.gen (tgt : Target) (free : Nat) : Const → Nat → Nat → BitVec 64 → List Instr
  | .andi => tcgGenAndiI64 tgt free
  | .ori => tcgGenOriI64 free
  | .xori => tcgGenXoriI64 tgt free
  | .addi => tcgGenAddiI64 free
  | .subi => tcgGenSubiI64 free
  | .subfi => fun ret arg c => tcgGenSubfiI64 free ret c arg
  | .muli => tcgGenMuliI64 tgt free

/-- The position and the length of a bit field. -/
structure Field where
  ofs : Nat
  len : Nat
  inside : ofs < 64 ∧ ofs + len ≤ 64

/-- A 64-bit operation with its operands: variables of 64 bits by name, and temporaries of 32 bits,
which may be halves of such variables. -/
inductive Op64 where
  | mov (ret arg : Nat)
  | movi (ret : Nat) (val : BitVec 64)
  | ld (f : Load) (ret : Nat) (base : Temp) (offset : BitVec 32)
  | st (f : Store) (arg : Nat) (base : Temp) (offset : BitVec 32)
  | logic (f : Logic) (ret arg1 arg2 : Nat)
  | const (f : Const) (ret arg1 : Nat) (arg2 : BitVec 64)
  | shift (f : Shift) (ret arg1 : Nat) (c : Fin 64)
  | not (ret arg : Nat)
  | neg (ret arg : Nat)
  | add (ret arg1 arg2 : Nat)
  | sub (ret arg1 arg2 : Nat)
  | mul (ret arg1 arg2 : Nat)
  | brcond (cond : TcgCond) (arg1 arg2 l : Nat)
  | brcondi (cond : TcgCond) (arg1 : Nat) (arg2 : BitVec 64) (l : Nat)
  | setcond (cond : TcgCond) (ret arg1 arg2 : Nat)
  | setcondi (cond : TcgCond) (ret arg1 : Nat) (arg2 : BitVec 64)
  | movcond (cond : TcgCond) (ret c1 c2 v1 v2 : Nat)
  | deposit (field : Field) (ret arg1 arg2 : Nat)
  | ext (f : Ext) (ret arg : Nat)
  | extuI32 (ret : Nat) (arg : Temp)
  | extI32 (ret : Nat) (arg : Temp)
  | extrl (ret : Temp) (arg : Nat)
  | extrh (ret : Temp) (arg : Nat)
  | extr (lo hi : Temp) (arg : Nat)
  | extr32 (lo hi arg : Nat)
  | concatI32 (dest : Nat) (low high : Temp)
  | concat32 (ret lo hi : Nat)
  | qemuLd (memop : GuestOp) (val : Nat) (addr : Temp)
  | qemuSt (memop : GuestOp) (val : Nat) (addr : Temp)

namespace Op64

/-- The ops that a 32-bit host gets. -/
def gen (tgt : Target) (free : Nat) : Op64 → List Instr
  | mov ret arg => tcgGenMovI64 ret arg
  | movi ret v => tcgGenMoviI64 ret v
  | ld f ret base offset => f.gen tgt free ret base offset
  | st f arg base offset => f.gen tgt arg base offset
  | logic f ret a b => f.genI64 tgt free ret a b
  | const f ret a c => f.gen tgt free ret a c
  | shift f ret a c => f.gen free ret a c
  | not ret arg => tcgGenNotI64 tgt free ret arg
  | neg ret arg => tcgGenNegI64 free ret arg
  | add ret a b => tcgGenAddI64 ret a b
  | sub ret a b => tcgGenSubI64 ret a b
  | mul ret a b => tcgGenMulI64 tgt free ret a b
  | brcond cond a b l => tcgGenBrcondI64 cond a b l
  | brcondi cond a c l => tcgGenBrcondiI64 free cond a c l
  | setcond cond ret a b => tcgGenSetcondI64 cond ret a b
  | setcondi cond ret a c => tcgGenSetcondiI64 free cond ret a c
  | movcond cond ret c1 c2 v1 v2 => tcgGenMovcondI64 tgt free cond ret c1 c2 v1 v2
  | deposit field ret a b => tcgGenDepositI64 tgt free ret a b field.ofs field.len
  | ext f ret arg => f.gen tgt free ret arg
  | extuI32 ret arg => tcgGenExtuI32I64 ret arg
  | extI32 ret arg => tcgGenExtI32I64 free ret arg
  | extrl ret arg => tcgGenExtrlI64I32 ret arg
  | extrh ret arg => tcgGenExtrhI64I32 ret arg
  | extr lo hi arg => tcgGenExtrI64I32 lo hi arg
  | extr32 lo hi arg => tcgGenExtr32I64 free lo hi arg
  | concatI32 dest low high => tcgGenConcatI32I64 dest low high
  | concat32 ret lo hi => tcgGenConcat32I64 tgt free ret lo hi
  | qemuLd memop val addr => tcgGenQemuLdI64 free val addr memop
  | qemuSt memop val addr => tcgGenQemuStI64 val addr memop

def names : Op64 → List Nat
  | mov ret arg | not ret arg | neg ret arg | ext _ ret arg => [ret, arg]
  | movi ret _ => [ret]
  | ld _ ret base _ => [ret, base.name]
  | st _ arg base _ => [arg, base.name]
  | logic _ ret a b | add ret a b | sub ret a b | mul ret a b | setcond _ ret a b
  | deposit _ ret a b => [ret, a, b]
  | const _ ret a _ | shift _ ret a _ | setcondi _ ret a _ => [ret, a]
  | brcond _ a b _ => [a, b]
  | brcondi _ a _ _ => [a]
  | movcond _ ret c1 c2 v1 v2 => [ret, c1, c2, v1, v2]
  | extuI32 ret arg | extI32 ret arg => [ret, arg.name]
  | extrl ret arg | extrh ret arg => [ret.name, arg]
  | extr lo hi arg => [lo.name, hi.name, arg]
  | extr32 lo hi arg | concat32 lo hi arg => [lo, hi, arg]
  | concatI32 dest low high => [dest, low.name, high.name]
  | qemuLd _ val addr | qemuSt _ val addr => [val, addr.name]

end Op64

/-- The values that go to temporaries, memory afterwards, and the branch taken. -/
structure Outcome where
  writes : List (Temp × BitVec 32)
  mem : BitVec 32 → BitVec 8
  guest : BitVec 32 → BitVec 8
  target : Option Nat

/-- A 64-bit value and where its halves go. -/
def halvesTo (x : Nat) (v : BitVec 64) : List (Temp × BitVec 32) :=
  [(.low x, lowHalf v), (.high x, highHalf v)]

def Mach.with (s : Mach) (writes : List (Temp × BitVec 32)) : Outcome :=
  ⟨writes, s.mem, s.guest, s.target⟩

def Mach.branch (s : Mach) (taken : Bool) (l : Nat) : Outcome :=
  ⟨[], s.mem, s.guest, if taken then some l else s.target⟩

def Op64.outcome (tgt : Target) (s : Mach) : Op64 → Outcome
  | mov ret arg => s.with (halvesTo ret (s.get64 arg))
  | movi ret v => s.with (halvesTo ret v)
  | ld f ret base offset => s.with (halvesTo ret (f.eval tgt s.mem (s.val base + offset)))
  | st f arg base offset =>
    ⟨[], storeBytes s.mem (s.val base + offset) (toBytes tgt.bigEndian f.bytes (s.get64 arg)),
      s.guest, s.target⟩
  | logic f ret a b => s.with (halvesTo ret (f.eval (s.get64 a) (s.get64 b)))
  | const f ret a c => s.with (halvesTo ret (f.eval (s.get64 a) c))
  | shift f ret a c => s.with (halvesTo ret (f.eval (s.get64 a) c))
  | not ret arg => s.with (halvesTo ret (~~~ s.get64 arg))
  | neg ret arg => s.with (halvesTo ret (-s.get64 arg))
  | add ret a b => s.with (halvesTo ret (s.get64 a + s.get64 b))
  | sub ret a b => s.with (halvesTo ret (s.get64 a - s.get64 b))
  | mul ret a b => s.with (halvesTo ret (s.get64 a * s.get64 b))
  | brcond cond a b l => s.branch (cond.eval (s.get64 a) (s.get64 b)) l
  | brcondi cond a c l => s.branch (cond.eval (s.get64 a) c) l
  | setcond cond ret a b =>
    s.with (halvesTo ret (if cond.eval (s.get64 a) (s.get64 b) then 1 else 0))
  | setcondi cond ret a c => s.with (halvesTo ret (if cond.eval (s.get64 a) c then 1 else 0))
  | movcond cond ret c1 c2 v1 v2 =>
    s.with (halvesTo ret (if cond.eval (s.get64 c1) (s.get64 c2) then s.get64 v1 else s.get64 v2))
  | deposit field ret a b =>
    s.with (halvesTo ret (evalDeposit field.ofs field.len (s.get64 a) (s.get64 b)))
  | ext f ret arg => s.with (halvesTo ret (f.eval (s.get64 arg)))
  | extuI32 ret arg => s.with (halvesTo ret ((s.val arg).setWidth 64))
  | extI32 ret arg => s.with (halvesTo ret ((s.val arg).signExtend 64))
  | extrl ret arg => s.with [(ret, lowHalf (s.get64 arg))]
  | extrh ret arg => s.with [(ret, highHalf (s.get64 arg))]
  | extr lo hi arg => s.with [(lo, lowHalf (s.get64 arg)), (hi, highHalf (s.get64 arg))]
  | extr32 lo hi arg =>
    s.with (halvesTo lo ((lowHalf (s.get64 arg)).setWidth 64) ++
      halvesTo hi ((highHalf (s.get64 arg)).setWidth 64))
  | concatI32 dest low high => s.with (halvesTo dest (s.val high ++ s.val low))
  | concat32 ret lo hi =>
    s.with (halvesTo ret (lowHalf (s.get64 hi) ++ lowHalf (s.get64 lo)))
  | qemuLd memop val addr => s.with (halvesTo val (guestLoad tgt 64 memop s.guest (s.val addr)))
  | qemuSt memop val addr =>
    ⟨[], s.mem, guestStore tgt memop s.guest (s.val addr) (s.get64 val), s.target⟩

/-- The state `s'` is the outcome: every value is where it goes, and every other temporary in use is
as it was in `s`. -/
structure Outcome.Reached (o : Outcome) (free : Nat) (s s' : Mach) : Prop where
  writes : ∀ p ∈ o.writes, s'.val p.1 = p.2
  kept : ∀ t : Temp, t.name < free → (∀ p ∈ o.writes, p.1 ≠ t) → s'.val t = s.val t
  mem : s'.mem = o.mem
  guest : s'.guest = o.guest
  target : s'.target = o.target

/-- The emitted ops do what the operation is to do, from the state `s`. -/
def Right (tgt : Target) (free : Nat) (op : Op64) (s : Mach) : Prop :=
  Ends (exec tgt) (op.gen tgt free) ((op.outcome tgt s).Reached free s) s

/-- The operations and operands for which they always do. The sign of `ld8s` comes from the wrong
half; four others write a temporary that they still have to read, if it is an operand twice. -/
def Op64.Fits (tgt : Target) : Op64 → Prop
  | ld .s8 _ _ _ => False
  | ld .full ret base _ => base ≠ firstHalf tgt ret
  | concatI32 dest low high => high = .low dest → low = high
  | extr lo hi arg => lo ≠ .high arg ∧ lo ≠ hi
  | extr32 lo hi arg => lo ≠ arg ∧ lo ≠ hi
  | _ => True

variable {tgt : Target} {free : Nat} {s : Mach} {x y z : Nat} {v : BitVec 64} {code : List Instr}
  {lo hi : Temp}

theorem Sets64.reached (h : Sets64 tgt free code s x v) (hx : x < free) :
    Ends (exec tgt) code ((s.with (halvesTo x v)).Reached free s) s := by
  refine h.mono fun s' e => ⟨?_, fun t ht hne => ?_, e.mem, e.guest, e.target⟩
  · intro p hp
    simp only [Mach.with, halvesTo, mem_cons, not_mem_nil, or_false] at hp
    obtain rfl | rfl := hp
    · rw [e.val _ (name_low hx), Mach.set64_val, if_neg (by simp), if_pos rfl]
    · rw [e.val _ (name_high hx), set64_val, if_pos rfl]
  · have hlow : t ≠ .low x := (hne (.low x, lowHalf v) (by simp [Mach.with, halvesTo])).symm
    have hhigh : t ≠ .high x := (hne (.high x, highHalf v) (by simp [Mach.with, halvesTo])).symm
    rw [e.val t ht, Mach.set64_val, if_neg hhigh, if_neg hlow]

theorem Sets.reached {r : Temp} {a : BitVec 32} (h : Sets tgt free code s r a)
    (hr : r.name < free) : Ends (exec tgt) code ((s.with [(r, a)]).Reached free s) s := by
  refine h.mono fun s' e => ⟨?_, fun t ht hne => ?_, e.mem, e.guest, e.target⟩
  · intro p hp
    simp only [Mach.with, mem_cons, not_mem_nil, or_false] at hp
    rw [hp, e.val_set hr, if_pos rfl]
  · have hne' : t ≠ r := (hne (r, a) (by simp [Mach.with])).symm
    rw [e.val_set ht, if_neg hne']

theorem sets64_shift (f : Shift) {c : Nat} (hx : x < free) (hy : y < free) (hc : c < 64) :
    Sets64 tgt free (f.gen free x y c) s x (f.eval (s.get64 y) c) := by
  cases f with
  | shl => exact sets64_shli hx hy hc
  | shr => exact sets64_shri hx hy hc
  | sar => exact sets64_sari hx hy hc
  | rotl => exact sets64_rotli hx hy hc
  | rotr => exact sets64_rotri hx hy hc

theorem sets64_const (f : Const) (hy : y < free) :
    Sets64 tgt free (f.gen tgt free x y v) s x (f.eval (s.get64 y) v) := by
  cases f with
  | andi => exact sets64_andi hy
  | ori => exact sets64_ori hy
  | xori => exact sets64_xori hy
  | addi => exact sets64_addi hy
  | subi => exact sets64_subi hy
  | subfi => exact sets64_subfi hy
  | muli => exact sets64_muli hy

theorem sets64_concatI32 {low high : Temp} (hhigh : high.name < free) (hfits : high = .low x → low = high) :
    Sets64 tgt free (tcgGenConcatI32I64 x low high) s x (s.val high ++ s.val low) := by
  refine sets_mov.lowHigh fun s1 e1 => sets_mov.of_eq ?_
  rw [e1.val_set hhigh]
  split_ifs with h
  · rw [hfits h]
  · rfl

theorem sets64_concat32 (hx : x < free) (hy : y < free) (hz : z < free) :
    Sets64 tgt free (tcgGenConcat32I64 tgt free x y z) s x (lowHalf (s.get64 z) ++ lowHalf (s.get64 y)) := by
  refine (sets64_deposit hx hy hz (by omega) (by omega)).of_eq ?_
  refine (evalDeposit_join_high _ _ _ _ le_rfl le_rfl).trans ?_
  rw [evalDeposit_full, lowHalf_get64, lowHalf_get64]

theorem Outcome.Reached.append {writes writes' : List (Temp × BitVec 32)} {s1 s2 : Mach}
    (h : (s.with writes).Reached free s s1) (h' : (s1.with writes').Reached free s1 s2)
    (hused : ∀ p ∈ writes, p.1.name < free) (hapart : ∀ p ∈ writes, ∀ q ∈ writes', q.1 ≠ p.1) :
    (s.with (writes ++ writes')).Reached free s s2 := by
  refine ⟨fun p hp => ?_, fun t ht hkept => ?_, h'.mem.trans h.mem, h'.guest.trans h.guest,
    h'.target.trans h.target⟩
  · rcases mem_append.mp hp with hp | hp
    · rw [h'.kept p.1 (hused p hp) (hapart p hp), h.writes p hp]
    · exact h'.writes p hp
  · rw [h'.kept t ht fun p hp => hkept p (mem_append_right _ hp),
      h.kept t ht fun p hp => hkept p (mem_append_left _ hp)]

theorem right_extr (hlo : lo.name < free) (hhi : hi.name < free) (hx : x < free)
    (hfirst : lo ≠ .high x) (hne : lo ≠ hi) : Right tgt free (.extr lo hi x) s := by
  have h1 : Sets tgt free (tcgGenMovI32 lo (.low x)) s lo (lowHalf (s.get64 x)) :=
    sets_mov.of_eq Mach.lowHalf_get64.symm
  refine (h1.reached hlo).append fun s1 r1 => ?_
  have hhigh : s1.val (.high x) = highHalf (s.get64 x) := by
    rw [r1.kept _ (name_high hx) (by simpa [Mach.with] using hfirst), Mach.highHalf_get64]
  have h2 : Sets tgt free (tcgGenMovI32 hi (.high x)) s1 hi (highHalf (s.get64 x)) := sets_mov.of_eq hhigh
  exact (h2.reached hhi).mono fun s2 r2 => r1.append r2 (by simpa using hlo) (by simpa using hne.symm)

theorem right_extr32 (hx : x < free) (hy : y < free) (hz : z < free) (hsrc : x ≠ z) (hne : x ≠ y) :
    Right tgt free (.extr32 x y z) s := by
  have h1 : Sets64 tgt free (tcgGenExt32uI64 x z) s x ((lowHalf (s.get64 z)).setWidth 64) := by
    refine (sets64_ext .u32 hx hz).of_eq ?_
    rw [Ext.eval, lowHalf_get64]
    exact congrArg _ ((setWidth_join _ _ le_rfl).trans (setWidth_eq _))
  refine (h1.reached hx).append fun s1 r1 => ?_
  have hsame : s1.get64 z = s.get64 z := by
    rw [Mach.get64, Mach.get64, r1.kept _ (name_low hz) (by simpa [Mach.with, halvesTo] using hsrc),
      r1.kept _ (name_high hz) (by simpa [Mach.with, halvesTo] using hsrc)]
  have h2 : Sets64 tgt free (tcgGenShriI64 free y z 32) s1 y ((highHalf (s.get64 z)).setWidth 64) := by
    refine (sets64_shri hy hz (by omega)).of_eq ?_
    rw [hsame, highHalf_get64, ← join_zero]
    exact (ushiftRight_join_of_ge _ _ le_rfl).trans (by simp)
  refine (h2.reached hy).mono fun s2 r2 => r1.append r2 ?_ ?_
  · simp [halvesTo, Temp.name, hx]
  · simp [halvesTo, hne.symm]

theorem toBytes_low {n : Nat} (hn : n ≤ 4) (big : Bool) (h l : BitVec 32) :
    toBytes big n (h ++ l : BitVec 64) = toBytes big n l := by
  have hbytes : (List.range n).map (fun i => extractLsb' (8 * i) 8 (h ++ l : BitVec 64)) =
      (List.range n).map (fun i => l.extractLsb' (8 * i) 8) := by
    refine map_congr_left fun i hi => ?_
    have hin := mem_range.mp hi
    apply eq_of_getLsbD_eq
    intro j hj
    rw [getLsbD_extractLsb', getLsbD_extractLsb', getLsbD_join, if_pos (by omega)]
  simp only [toBytes, hbytes]

theorem reached_of_eq {o : Outcome} {s' : Mach} (hwrites : o.writes = []) (hval : s'.val = s.val)
    (hmem : s'.mem = o.mem) (hguest : s'.guest = o.guest) (htarget : s'.target = o.target) :
    o.Reached free s s' :=
  ⟨by simp [hwrites], fun t _ _ => by rw [hval], hmem, hguest, htarget⟩

variable {base : Temp} {offset : BitVec 32} {w : Nat}

open Op64

theorem right_st_low (f : Store) (kind : StoreKind)
    (hgen : f.gen tgt x base offset = [.st kind (.low x) base offset])
    (hbytes : f.bytes = kind.bytes .w32) (hle : f.bytes ≤ 4) :
    Right tgt free (.st f x base offset) s := by
  have hbs : toBytes tgt.bigEndian f.bytes (s.get64 x) =
      toBytes tgt.bigEndian (kind.bytes .w32) (s.val (.low x)) := by
    rw [← hbytes]
    exact toBytes_low hle _ _ _
  unfold Right
  rw [gen, hgen]
  refine ⟨_, rfl, reached_of_eq rfl rfl ?_ rfl rfl⟩
  simp only [outcome, hbs]

theorem length_toBytes (big : Bool) (n : Nat) (a : BitVec 32) : (toBytes big n a).length = n := by
  cases big <;> simp [toBytes]

theorem right_st_full : Right tgt free (.st .full x base offset) s := by
  have hassoc : s.val base + (offset + 4) = s.val base + offset + BitVec.ofNat 32 4 :=
    (BitVec.add_assoc _ _ _).symm
  have hbs := toBytes_join tgt.bigEndian (s.val (.high x)) (s.val (.low x))
  unfold Right
  simp only [gen, Store.gen, tcgGenStI64]
  split_ifs at hbs ⊢
  all_goals
    refine ⟨_, rfl, reached_of_eq rfl rfl ?_ rfl rfl⟩
    simp only [outcome, Store.bytes, get64, hbs, storeBytes_append, length_toBytes, hassoc]
    rfl

theorem right_st (f : Store) : Right tgt free (.st f x base offset) s := by
  cases f with
  | b8 => exact right_st_low .b8 .b8 rfl rfl (by decide)
  | b16 => exact right_st_low .b16 .b16 rfl rfl (by decide)
  | b32 => exact right_st_low .b32 .full rfl rfl (by decide)
  | full => exact right_st_full

theorem right_brcond (cond : TcgCond) {l : Nat} : Right tgt free (.brcond cond x y l) s := by
  cases cond with
  | always => exact ends_single rfl (reached_of_eq rfl rfl rfl rfl rfl)
  | never => exact ends_nil (reached_of_eq rfl rfl rfl rfl rfl)
  | test c =>
    refine ends_single rfl ?_
    simp only [outcome, TcgCond.eval, get64]
    split_ifs with h <;> exact reached_of_eq rfl rfl rfl rfl (by simp [branch, h])

theorem right_brcondi (cond : TcgCond) {l : Nat} (hx : x < free) :
    Right tgt free (.brcondi cond x v l) s := by
  cases cond with
  | always => exact ends_single rfl (reached_of_eq rfl rfl rfl rfl rfl)
  | never => exact ends_nil (reached_of_eq rfl rfl rfl rfl rfl)
  | test c =>
    have hconst : Sets64 tgt (free + 1) (tcgConstI64 free v) s free v := sets64_movi
    refine hconst.append fun s1 e1 => ?_
    have hbr : Right tgt (free + 1) (.brcond (.test c) x free l) s1 := right_brcond _
    refine hbr.mono fun s2 r2 => ⟨?_, fun t ht _ => ?_, ?_, ?_, ?_⟩
    · simp [outcome, branch]
    · rw [r2.kept t (by omega) (by simp [outcome, branch]), e1.of_set64_free.val t ht]
    · exact r2.mem.trans e1.mem
    · exact r2.guest.trans e1.guest
    · rw [r2.target, outcome, outcome, branch, branch, e1.get64_used hx,
        e1.get64_free, e1.target, set64_target]

theorem toBytes_one (big big' : Bool) (a : BitVec w) : toBytes big 1 a = toBytes big' 1 a := by
  cases big <;> cases big' <;> rfl

theorem guestStore_canonical (memop : GuestOp) (is64 : Bool) (g : BitVec 32 → BitVec 8)
    (a : BitVec 32) (val : BitVec w) :
    guestStore tgt (tcgCanonicalizeMemop memop is64 true) g a val = guestStore tgt memop g a val := by
  obtain ⟨size, sign, bswap, rest⟩ := memop
  match size with
  | 0 =>
    refine congrArg (storeBytes g a) ?_
    cases is64 <;> exact toBytes_one _ _ val
  | 1 | 2 | 3 => cases is64 <;> rfl

theorem right_qemuSt (memop : GuestOp) {addr : Temp} : Right tgt free (.qemuSt memop x addr) s := by
  unfold Right
  simp only [gen, tcgGenQemuStI64]
  split_ifs with hsize
  · have hbytes : memop.bytes ≤ 4 := (by decide : ∀ k : Fin 4, k < 3 → 2 ^ k.val ≤ 4) memop.size hsize
    refine ⟨_, rfl, reached_of_eq rfl rfl rfl ?_ rfl⟩
    refine (guestStore_canonical memop false _ _ _).trans (congrArg (storeBytes _ _) ?_)
    exact (toBytes_low hbytes _ _ _).symm
  · exact ⟨_, rfl, reached_of_eq rfl rfl rfl (guestStore_canonical memop true _ _ _) rfl⟩

/-- Where the operands fit, the emitted ops do what the operation is to do. -/
theorem right_of_fits (op : Op64) (hop : ∀ n ∈ op.names, n < free) (hfits : op.Fits tgt) :
    Right tgt free op s := by
  cases op <;>
    simp only [names, forall_mem_cons, not_mem_nil, false_imp_iff, implies_true, and_true] at hop
  case mov ret arg => exact (sets64_mov hop.2).reached hop.1
  case movi ret v => exact sets64_movi.reached hop
  case ld f ret base offset =>
      refine (sets64_ld f ?_ ?_ hop.1 hop.2).reached hop.1
      · rintro rfl
        exact hfits
      · rintro rfl
        exact hfits
  case st f arg base offset => exact right_st f
  case logic f ret a b => exact (sets64_logic f hop.1 hop.2.1 hop.2.2).reached hop.1
  case const f ret a c => exact (sets64_const f hop.2).reached hop.1
  case shift f ret a c => exact (sets64_shift f hop.1 hop.2 c.isLt).reached hop.1
  case not ret arg => exact (sets64_not hop.2).reached hop.1
  case neg ret arg => exact (sets64_neg hop.2).reached hop.1
  case add ret a b => exact sets64_add.reached hop.1
  case sub ret a b => exact sets64_sub.reached hop.1
  case mul ret a b => exact (sets64_mul hop.2.1 hop.2.2).reached hop.1
  case brcond cond a b l => exact right_brcond cond
  case brcondi cond a c l => exact right_brcondi cond hop
  case setcond cond ret a b => exact (sets64_setcond cond).reached hop.1
  case setcondi cond ret a c => exact (sets64_setcondi cond hop.2).reached hop.1
  case movcond cond ret c1 c2 v1 v2 =>
      exact (sets64_movcond cond hop.1 hop.2.2.2.1 hop.2.2.2.2).reached hop.1
  case deposit field ret a b =>
      exact (sets64_deposit hop.1 hop.2.1 hop.2.2 field.inside.1 field.inside.2).reached hop.1
  case ext f ret arg => exact (sets64_ext f hop.1 hop.2).reached hop.1
  case extuI32 ret arg => exact (sets64_extZero sets_mov).reached hop.1
  case extI32 ret arg => exact (sets64_extSign hop.1 sets_mov).reached hop.1
  case extrl ret arg => exact (sets_mov.of_eq Mach.lowHalf_get64.symm).reached hop.1
  case extrh ret arg => exact (sets_mov.of_eq Mach.highHalf_get64.symm).reached hop.1
  case extr lo hi arg => exact right_extr hop.1 hop.2.1 hop.2.2 hfits.1 hfits.2
  case extr32 lo hi arg => exact right_extr32 hop.1 hop.2.1 hop.2.2 hfits.1 hfits.2
  case concatI32 dest low high => exact (sets64_concatI32 hop.2.2 hfits).reached hop.1
  case concat32 ret lo hi => exact (sets64_concat32 hop.1 hop.2.1 hop.2.2).reached hop.1
  case qemuLd memop val addr => exact (sets64_qemuLd memop hop.1).reached hop.1
  case qemuSt memop val addr => exact right_qemuSt memop

/-- A state in which `val` gives the temporaries and `mem` the memory. -/
def plainState (val : Temp → BitVec 32) (mem : BitVec 32 → BitVec 8) : Mach :=
  ⟨val, mem, fun _ => 0, none⟩

theorem Right.halves {op : Op64} {w : BitVec 64} (h : Right tgt free op s)
    (hcode : Sets64 tgt free (op.gen tgt free) s x w) (hx : x < free)
    (hout : ∀ p ∈ halvesTo x v, p ∈ (op.outcome tgt s).writes) : w = v := by
  obtain ⟨s', r, e⟩ := Ends.both h hcode
  have hlow : s'.val (.low x) = lowHalf v := r.writes _ (hout _ mem_cons_self)
  have hhigh : s'.val (.high x) = highHalf v := r.writes _ (hout _ (mem_cons_of_mem _ mem_cons_self))
  refine eq_of_halves _ _ ?_ ?_
  · rw [← hlow, e.val _ (name_low hx), set64_val, if_neg (by simp), if_pos rfl]
  · rw [← hhigh, e.val _ (name_high hx), set64_val, if_pos rfl]

/-- A byte that is not negative is loaded over a negative high half. -/
theorem not_right_ld8s (hx : x < free) : ¬ ∀ s, Right tgt free (.ld .s8 x base offset) s := by
  intro h
  let s := plainState (fun _ => allOnes 32) fun _ => 0
  have hcode : Sets64 tgt free (tcgGenLd8sI64 free x base offset) s x
      ((s.val (.high x)).sshiftRight 31 ++
        extendTo 32 8 true (ofBytes tgt.bigEndian (loadBytes s.mem (s.val base + offset) 1))) :=
    (sets_of_exec rfl).lowHigh fun s1 e1 =>
      (sets_sari (name_high hx) (by omega)).of_eq (by rw [e1.high_of_low hx])
  have heq := congrArg highHalf ((h s).halves hcode hx fun p hp => hp)
  rw [highHalf_append] at heq
  have hload : Load.s8.eval tgt s.mem (s.val base + offset) = 0 := by
    have hbytes : ofBytes tgt.bigEndian [0#8] = 0 := by cases tgt.bigEndian <;> rfl
    exact (congrArg (extendTo 64 8 true) hbytes).trans (by decide)
  rw [hload] at heq
  change (allOnes 32).sshiftRight 31 = highHalf 0 at heq
  exact absurd heq (by decide)

theorem loadBytes_shift (m : BitVec 32 → BitVec 8) (o a : BitVec 32) (n : Nat) :
    loadBytes (fun b => m (b - o)) (a + o) n = loadBytes m a n := by
  induction n generalizing a with
  | zero => rfl
  | succ n ih =>
    rw [loadBytes, loadBytes, add_sub_cancel, show a + o + 1 = a + 1 + o by
      rw [BitVec.add_assoc, BitVec.add_comm o, BitVec.add_assoc], ih]

def wordAt (big : Bool) (m : BitVec 32 → BitVec 8) (a : BitVec 32) : BitVec 32 :=
  BitVec.ofNat 32 (ofBytes big (loadBytes m a 4))

/-- Memory that holds the words 16 at address 0, 0 at address 4 and 1 at address 20. -/
def markedBytes (big : Bool) (a : BitVec 32) : BitVec 8 :=
  if a = (if big then 3 else 0) then 16 else if a = (if big then 23 else 20) then 1 else 0

theorem wordAt_marked (big : Bool) :
    wordAt big (markedBytes big) 0 = 16 ∧ wordAt big (markedBytes big) 4 = 0 ∧
      wordAt big (markedBytes big) 20 = 1 := by
  cases big <;> decide

/-- The address is overwritten by the half that is loaded first. -/
theorem not_right_ld_full (hx : x < free) :
    ¬ ∀ s, Right tgt free (.ld .full x (firstHalf tgt x) offset) s := by
  intro h
  let s := plainState (fun _ => 0) fun b => markedBytes tgt.bigEndian (b - offset)
  have hword : ∀ a, wordAt tgt.bigEndian s.mem (a + offset) =
      wordAt tgt.bigEndian (markedBytes tgt.bigEndian) a := fun a =>
    congrArg (fun bs => BitVec.ofNat 32 (ofBytes tgt.bigEndian bs))
      (loadBytes_shift (markedBytes tgt.bigEndian) offset a 4)
  have hmove : ∀ a b : BitVec 32, a + (offset + b) = a + b + offset := fun a b => by
    rw [BitVec.add_assoc, BitVec.add_comm offset]
  obtain ⟨h0, h4, h20⟩ := wordAt_marked tgt.bigEndian
  have hfirst : wordAt tgt.bigEndian s.mem (0 + offset) = 16 := (hword 0).trans h0
  have hright : wordAt tgt.bigEndian s.mem (0 + offset + 4) = 0 := by
    rw [BitVec.add_assoc, hmove, hword]
    exact h4
  have hwrong : wordAt tgt.bigEndian s.mem (16 + (offset + 4)) = 1 := by
    rw [hmove, hword]
    exact h20
  by_cases hbig : tgt.bigEndian = true
  · have hcode : Sets64 tgt free (tcgGenLdI64 tgt x (.high x) offset) s x (16#32 ++ 1#32) := by
      rw [tcgGenLdI64, if_pos hbig]
      refine (sets_ld_full.of_eq hfirst).highLow fun s1 e1 => sets_ld_full.of_eq ?_
      rw [e1.val_set (name_high hx), if_pos rfl, e1.mem]
      exact hwrong
    rw [show firstHalf tgt x = .high x from if_pos hbig] at h
    have heq := congrArg lowHalf ((h s).halves hcode hx fun p hp => hp)
    rw [eval_full, if_pos hbig, lowHalf_append, lowHalf_append] at heq
    rw [hbig] at hright
    exact absurd (heq.trans hright) (by decide)
  · have hcode : Sets64 tgt free (tcgGenLdI64 tgt x (.low x) offset) s x (1#32 ++ 16#32) := by
      rw [tcgGenLdI64, if_neg hbig]
      refine (sets_ld_full.of_eq hfirst).lowHigh fun s1 e1 => sets_ld_full.of_eq ?_
      rw [e1.val_set (name_low hx), if_pos rfl, e1.mem]
      exact hwrong
    rw [show firstHalf tgt x = .low x from if_neg hbig] at h
    have heq := congrArg highHalf ((h s).halves hcode hx fun p hp => hp)
    rw [eval_full, if_neg hbig, highHalf_append, highHalf_append] at heq
    rw [Bool.not_eq_true] at hbig
    rw [hbig] at hright
    exact absurd (heq.trans hright) (by decide)

theorem not_right_concatI32 {low : Temp} (hx : x < free) (hlow : low ≠ .low x) :
    ¬ ∀ s, Right tgt free (.concatI32 x low (.low x)) s := by
  intro h
  let s := plainState (fun t => if t = low then 1 else 0) fun _ => 0
  have hcode : Sets64 tgt free (tcgGenConcatI32I64 x low (.low x)) s x (s.val low ++ s.val low) :=
    sets_mov.lowHigh fun s1 e1 => sets_mov.of_eq (by rw [e1.val_set (name_low hx), if_pos rfl])
  have heq := congrArg highHalf ((h s).halves hcode hx fun p hp => hp)
  rw [highHalf_append, highHalf_append] at heq
  simp [s, plainState, hlow.symm] at heq

theorem not_right_extr (hhi : hi.name < free) (hx : x < free)
    (hbad : lo = .high x ∨ lo = hi) : ¬ ∀ s, Right tgt free (.extr lo hi x) s := by
  intro h
  let s := plainState (fun t => if t = .high x then 1 else 0) fun _ => 0
  have hlow : lowHalf (s.get64 x) = 0 := by simp [s, plainState]
  have hhigh : highHalf (s.get64 x) = 1 := by simp [s, plainState]
  -- with the first destination over the high half, the low half goes to both
  have hcode : lo = .high x → Ends (exec tgt) (tcgGenExtrI64I32 lo hi x) (fun s' => s'.val hi = 0) s := by
    rintro rfl
    have h1 : Sets tgt free (tcgGenMovI32 (.high x) (.low x)) s (.high x) 0 :=
      sets_mov.of_eq (by simpa using hlow)
    refine h1.append fun s1 e1 => ?_
    have h2 : Sets tgt free (tcgGenMovI32 hi (.high x)) s1 hi 0 :=
      sets_mov.of_eq (by rw [e1.val_set (name_high hx), if_pos rfl])
    exact h2.mono fun s2 e2 => by rw [e2.val_set hhi, if_pos rfl]
  rcases hbad with hbad | rfl
  · obtain ⟨s', r, hs'⟩ := Ends.both (h s) (hcode hbad)
    have hone : s'.val hi = 1 := (r.writes _ (mem_cons_of_mem _ mem_cons_self)).trans hhigh
    rw [hs'] at hone
    exact absurd hone (by decide)
  · obtain ⟨s', -, r⟩ := h s
    have hzero : s'.val lo = 0 := (r.writes _ mem_cons_self).trans hlow
    have hone : s'.val lo = 1 := (r.writes _ (mem_cons_of_mem _ mem_cons_self)).trans hhigh
    rw [hzero] at hone
    exact absurd hone (by decide)

theorem not_right_extr32 (hx : x < free) (hy : y < free) (hbad : x = z ∨ x = y) :
    ¬ ∀ s, Right tgt free (.extr32 x y z) s := by
  intro h
  let s := plainState (fun t => if t = .high z then 1 else 0) fun _ => 0
  have hlow : lowHalf (s.get64 z) = 0 := by simp [s, plainState]
  have hhigh : highHalf (s.get64 z) = 1 := by simp [s, plainState]
  have hone : ∀ s', ((extr32 x y z).outcome tgt s).Reached free s s' → s'.val (.low y) = 1 := by
    intro s' r
    have hw : s'.val (.low y) = lowHalf ((highHalf (s.get64 z)).setWidth 64) :=
      r.writes (.low y, _) (mem_append_right _ mem_cons_self)
    rw [hw, hhigh]
    decide
  rcases hbad with rfl | rfl
  · have hcode : Ends (exec tgt) (tcgGenExtr32I64 free x y x) (fun s' => s'.val (.low y) = 0) s := by
      have hext : Sets64 tgt free (tcgGenExt32uI64 x x) s x 0 := by
        refine (sets64_ext .u32 hx hx).of_eq ?_
        rw [← highHalf_append_lowHalf (s.get64 x), hlow, hhigh]
        decide
      refine hext.append fun s1 e1 => ?_
      have hshr : Sets64 tgt free (tcgGenShriI64 free y x 32) s1 y 0 := by
        refine (sets64_shri hy hx (by omega)).of_eq ?_
        rw [e1.get64_set64 hx, if_pos rfl]
        decide
      refine hshr.mono fun s2 e2 => ?_
      rw [e2.val _ (name_low hy), set64_val, if_neg (by simp), if_pos rfl]
      decide
    obtain ⟨s', r, hs'⟩ := Ends.both (h s) hcode
    exact absurd (hs'.symm.trans (hone s' r)) (by decide)
  · obtain ⟨s', -, r⟩ := h s
    have hzero : s'.val (.low x) = lowHalf ((lowHalf (s.get64 z)).setWidth 64) :=
      r.writes (.low x, _) mem_cons_self
    rw [hlow] at hzero
    exact absurd (hzero.symm.trans (hone s' r)) (by decide)

theorem fits_of_right (op : Op64) (hop : ∀ n ∈ op.names, n < free)
    (h : ∀ s, Right tgt free op s) : op.Fits tgt := by
  cases op <;>
    simp only [names, forall_mem_cons, not_mem_nil, false_imp_iff, implies_true, and_true] at hop
  case ld f ret base offset =>
    cases f
    case s8 => exact not_right_ld8s hop.1 h
    case full =>
      rintro rfl
      exact not_right_ld_full hop.1 h
    all_goals trivial
  case concatI32 dest low high =>
    rintro rfl
    by_contra hlow
    exact not_right_concatI32 hop.1 hlow h
  case extr lo hi arg =>
    refine ⟨fun hbad => ?_, fun hbad => ?_⟩
    · exact not_right_extr hop.2.1 hop.2.2 (.inl hbad) h
    · exact not_right_extr hop.2.1 hop.2.2 (.inr hbad) h
  case extr32 lo hi arg =>
    refine ⟨fun hbad => ?_, fun hbad => ?_⟩
    · exact not_right_extr32 hop.1 hop.2.1 (.inl hbad) h
    · exact not_right_extr32 hop.1 hop.2.1 (.inr hbad) h
  all_goals trivial

/-- **The ops emitted for a 64-bit operation compute its halves for all values exactly when the
operands fit.** -/
theorem halves_right_iff (tgt : Target) (free : Nat) (op : Op64) (hop : ∀ n ∈ op.names, n < free) :
    (∀ s, Right tgt free op s) ↔ op.Fits tgt :=
  ⟨fits_of_right op hop, fun hfits _ => right_of_fits op hop hfits⟩

/-- The table of the ARM backend on an ARMv7 host. -/
def armTarget : Target where
  hasUnary f := f != .ext8u
  hasBinary f := f == .andc
  hasMovcond := true
  hasDeposit _ _ := true
  hasMulu2 := true
  bigEndian := false

/-- The byte 5 at address 0 and a negative high half of the variable 0. -/
def negativeHigh : Mach :=
  plainState (fun t => if t = .high 0 then -1 else 0) fun a => if a = 0 then 5 else 0

theorem halves_right_iff_mul : Right armTarget 2 (.mul 0 0 1) negativeHigh :=
  (halves_right_iff armTarget 2 (.mul 0 0 1) (by decide)).mpr trivial negativeHigh

/-- Loading the signed byte 5 makes a negative number; taking apart a variable into itself and
another, or joining a temporary with the low half of the destination, loses a half. -/
theorem halves_wrong :
    (∃ s', run (exec armTarget) ((Op64.ld .s8 0 (.single 1) 0).gen armTarget 2) negativeHigh =
        some s' ∧ s'.get64 0 = 0xffffffff00000005 ∧ Load.s8.eval armTarget negativeHigh.mem 0 = 5) ∧
    (∃ s', run (exec armTarget) ((Op64.extr32 0 1 0).gen armTarget 2) negativeHigh = some s' ∧
        s'.get64 1 = 0 ∧ highHalf (negativeHigh.get64 0) = -1) ∧
    (∃ s', run (exec armTarget) ((Op64.concatI32 0 (.high 0) (.low 0)).gen armTarget 1)
        negativeHigh = some s' ∧ s'.get64 0 = 0xffffffffffffffff ∧
        negativeHigh.val (.low 0) ++ negativeHigh.val (.high 0) = 0x00000000ffffffff#64) := by
  refine ⟨⟨_, rfl, ?_, ?_⟩, ⟨_, rfl, ?_, ?_⟩, ⟨_, rfl, ?_, ?_⟩⟩ <;> decide

end TcgArm.Half
