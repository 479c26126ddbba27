import TcgArm.Unicode

/-! The values of `qobject/`: null, booleans, 64-bit integers, strings, floating point numbers,
lists and dictionaries. A `QDict` is a table of 512 buckets, each a list with the newest entry in
front; here it is the list of its entries in the order of `qdict_iter`, so that a new entry goes in
front of the first one of its own or a later bucket. -/

namespace TcgArm.Json

open TcgArm.Unicode

/-- A value over the type `δ` of the host's doubles. -/
inductive QObject (δ : Type) where
  | null
  | bool (value : Bool)
  | int (value : Int)
  | str (string : List Byte)
  | float (value : δ)
  | list (items : List (QObject δ))
  | dict (entries : List (List Byte × QObject δ))

variable {δ : Type}

/-- The entries of a dictionary in the order of `qdict_iter`. -/
abbrev QDict (δ : Type) := List (List Byte × QObject δ)

theorem QObject.induct {P : QObject δ → Prop} (hnull : P .null) (hbool : ∀ b, P (.bool b))
    (hint : ∀ n, P (.int n)) (hstr : ∀ s, P (.str s)) (hfloat : ∀ d, P (.float d))
    (hlist : ∀ items, (∀ x ∈ items, P x) → P (.list items))
    (hdict : ∀ entries, (∀ e ∈ entries, P e.2) → P (.dict entries)) (o : QObject δ) : P o := by
  refine @QObject.rec δ P (fun items => ∀ x ∈ items, P x) (fun entries => ∀ e ∈ entries, P e.2)
    (fun e => P e.2) hnull hbool hint hstr hfloat hlist hdict ?_ ?_ ?_ ?_ ?_ o
  · exact fun x hx => absurd hx List.not_mem_nil
  · exact fun x items hx hitems => List.forall_mem_cons.mpr ⟨hx, hitems⟩
  · exact fun e he => absurd he List.not_mem_nil
  · exact fun e entries he hentries => List.forall_mem_cons.mpr ⟨he, hentries⟩
  · exact fun _ _ hvalue => hvalue

def QDICT_BUCKET_MAX : Nat := 512

/-- The hash loop over the bytes of the name from index `i` on. -/
def tdbHashFrom (value : BitVec 32) : Nat → List Byte → BitVec 32
  | _, [] => value
  | i, c :: name => tdbHashFrom (value + c.setWidth 32 <<< (i * 5 % 24)) (i + 1) name

def tdbHash (name : List Byte) : BitVec 32 :=
  1103515243 * tdbHashFrom (0x238F13AF * BitVec.ofNat 32 name.length) 0 name + 12345

def bucketOf (key : List Byte) : Nat := (tdbHash key).toNat % QDICT_BUCKET_MAX

/-- `qdict_find`, then the value of the entry. -/
def qdictGet (key : List Byte) : QDict δ → Option (QObject δ)
  | [] => none
  | (k, v) :: entries => if k = key then some v else qdictGet key entries

def replaceValue (key : List Byte) (value : QObject δ) : QDict δ → QDict δ
  | [] => []
  | (k, v) :: entries =>
    if k = key then (k, value) :: entries else (k, v) :: replaceValue key value entries

/-- `QLIST_INSERT_HEAD` into the key's bucket. -/
def insertHead (key : List Byte) (value : QObject δ) : QDict δ → QDict δ
  | [] => [(key, value)]
  | (k, v) :: entries =>
    if bucketOf key ≤ bucketOf k then (key, value) :: (k, v) :: entries
    else (k, v) :: insertHead key value entries

/-- `qdict_put_obj`. -/
def qdictPutObj (entries : QDict δ) (key : List Byte) (value : QObject δ) : QDict δ :=
  match qdictGet key entries with
  | some _ => replaceValue key value entries
  | none => insertHead key value entries

mutual
/-- Equality of values. Two dictionaries are equal when they have as many entries and every key of
the one has an equal value under it in the other, in whatever order the tables hold them. -/
def QObject.Same : QObject δ → QObject δ → Prop
  | .null, .null => True
  | .bool b, .bool c => b = c
  | .int m, .int n => m = n
  | .str s, .str t => s = t
  | .float d, .float e => d = e
  | .list xs, .list ys => SameItems xs ys
  | .dict es, .dict fs => es.length = fs.length ∧ SameEntries es fs
  | _, _ => False

def SameItems : List (QObject δ) → List (QObject δ) → Prop
  | [], [] => True
  | x :: xs, y :: ys => x.Same y ∧ SameItems xs ys
  | _, _ => False

def SameEntries : QDict δ → QDict δ → Prop
  | [], _ => True
  | (k, v) :: es, fs => (∃ w, qdictGet k fs = some w ∧ v.Same w) ∧ SameEntries es fs
end

mutual
def QObject.nesting : QObject δ → Nat
  | .list items => nestingItems items + 1
  | .dict entries => nestingEntries entries + 1
  | _ => 0

def nestingItems : List (QObject δ) → Nat
  | [] => 0
  | x :: items => max x.nesting (nestingItems items)

def nestingEntries : QDict δ → Nat
  | [] => 0
  | (_, v) :: entries => max v.nesting (nestingEntries entries)
end

mutual
/-- `P` holds of every string in the value, keys of dictionaries included. -/
def QObject.EveryString (P : List Byte → Prop) : QObject δ → Prop
  | .str s => P s
  | .list items => EveryStringItems P items
  | .dict entries => EveryStringEntries P entries
  | _ => True

def EveryStringItems (P : List Byte → Prop) : List (QObject δ) → Prop
  | [] => True
  | x :: items => x.EveryString P ∧ EveryStringItems P items

def EveryStringEntries (P : List Byte → Prop) : QDict δ → Prop
  | [] => True
  | (k, v) :: entries => P k ∧ v.EveryString P ∧ EveryStringEntries P entries
end

mutual
/-- What every value of the program is, floating point numbers apart: its integers have 64 bits
and no two entries of a dictionary have one key. -/
def QObject.WellFormed : QObject δ → Prop
  | .int n => -2 ^ 63 ≤ n ∧ n < 2 ^ 63
  | .float _ => False
  | .list items => WellFormedItems items
  | .dict entries => (entries.map Prod.fst).Nodup ∧ WellFormedEntries entries
  | _ => True

def WellFormedItems : List (QObject δ) → Prop
  | [] => True
  | x :: items => x.WellFormed ∧ WellFormedItems items

def WellFormedEntries : QDict δ → Prop
  | [] => True
  | (_, v) :: entries => v.WellFormed ∧ WellFormedEntries entries
end

end TcgArm.Json
