import TcgArm.JsonLex
import Mathlib.Algebra.Order.BigOperators.Group.List
import Mathlib.Algebra.Order.Group.Nat

/-! The streamer and the parser on the tokens of a value. Inside a list or dictionary the streamer
only gathers, as long as the limits hold, and hands the tokens over when the last bracket closes.
The parser rebuilds the value with every string read back from its escapes, and puts the entries of
a dictionary one by one into a new one. -/

namespace TcgArm.Json

open TcgArm.Unicode List
open JSONMessageParser (init)

variable {δ : Type}

def tokensSize (tokens : List Token) : Nat := (tokens.map fun token => token.str.length).sum

theorem tokensSize_append (a b : List Token) : tokensSize (a ++ b) = tokensSize a + tokensSize b := by
  rw [tokensSize, map_append, sum_append, tokensSize, tokensSize]

variable {token : Token} {tokens : List Token} {parser : JSONMessageParser δ}
    {opening closing : Token}

theorem length_le_tokensSize (h : token ∈ tokens) : token.str.length ≤ tokensSize tokens :=
  single_le_sum (by simp) _ (mem_map_of_mem h)

def grow (parser : JSONMessageParser δ) (braces brackets : Int) (tokens : List Token) :
    JSONMessageParser δ :=
  { parser with
    braceCount := parser.braceCount + braces
    bracketCount := parser.bracketCount + brackets
    tokens := parser.tokens ++ tokens
    tokenSize := parser.tokenSize + tokensSize tokens }

theorem grow_grow (parser : JSONMessageParser δ) (a b c d : Int) (x y : List Token) :
    grow (grow parser a b x) c d y = grow parser (a + c) (b + d) (x ++ y) := by
  simp only [grow, tokensSize_append, append_assoc, Int.add_assoc, Nat.add_assoc]

theorem pushToken_eq (parser : JSONMessageParser δ) (token : Token) :
    pushToken parser token = grow parser (braceStep token.type) (bracketStep token.type) [token] := by
  simp only [pushToken, grow, tokensSize, map_cons, map_nil, sum_singleton]

/-- The streamer is inside brackets, and the tokens with brackets `depth` deep keep its limits. -/
structure Room (parser : JSONMessageParser δ) (tokens : List Token) (depth : Nat) : Prop where
  braces : 0 ≤ parser.braceCount
  brackets : 0 ≤ parser.bracketCount
  inside : 0 < parser.braceCount + parser.bracketCount
  size : parser.tokenSize + tokensSize tokens ≤ MAX_TOKEN_SIZE
  count : parser.tokens.length + tokens.length ≤ MAX_TOKEN_COUNT
  nesting : parser.bracketCount + parser.braceCount + depth ≤ MAX_NESTING

theorem Room.left {parser : JSONMessageParser δ} {a b : List Token} {depth less : Nat}
    (h : Room parser (a ++ b) depth) (hless : less ≤ depth) : Room parser a less := by
  obtain ⟨hbraces, hbrackets, hinside, hsize, hcount, hnesting⟩ := h
  rw [tokensSize_append] at hsize
  rw [length_append] at hcount
  exact ⟨hbraces, hbrackets, hinside, by omega, by omega, by omega⟩

theorem Room.right {parser : JSONMessageParser δ} {a b : List Token} {depth less : Nat}
    (h : Room parser (a ++ b) depth) (hless : less ≤ depth) : Room (grow parser 0 0 a) b less := by
  obtain ⟨hbraces, hbrackets, hinside, hsize, hcount, hnesting⟩ := h
  rw [tokensSize_append] at hsize
  rw [length_append] at hcount
  refine ⟨?_, ?_, ?_, ?_, ?_, ?_⟩ <;> simp only [grow, length_append] <;> omega

variable (libc : Libc δ)

theorem process_gather (herror : token.type ≠ .error) (hroom : Room (pushToken parser token) [] 0) :
    jsonMessageProcessToken libc parser token = pushToken parser token := by
  obtain ⟨hbraces, hbrackets, hinside, hsize, hcount, hnesting⟩ := hroom
  simp only [tokensSize, map_nil, sum_nil, length_nil] at hsize hcount
  rw [jsonMessageProcessToken, if_neg herror, if_neg (by omega), if_neg (by omega)]

/-- A token that is no bracket. -/
theorem process_neutral (htype : token.type ∈ [TokenType.colon, .comma, .integer, .keyword, .string])
    (hroom : Room parser [token] 0) :
    jsonMessageProcessToken libc parser token = grow parser 0 0 [token] := by
  have hpush : pushToken parser token = grow parser 0 0 [token] := by
    rw [pushToken_eq]
    simp only [mem_cons, not_mem_nil, or_false] at htype
    rcases htype with h | h | h | h | h <;> rw [h] <;> rfl
  have herror : token.type ≠ .error := by
    intro h
    rw [h] at htype
    exact absurd htype (by decide)
  rw [process_gather libc herror, hpush]
  rw [hpush]
  exact @Room.right δ parser [token] [] 0 0 (by rwa [append_nil]) (Nat.le_refl 0)

def Gathered (tokens : List Token) (depth : Nat) : Prop :=
  ∀ parser : JSONMessageParser δ, Room parser tokens depth →
    processAll libc parser tokens = grow parser 0 0 tokens

theorem gathered_nil (depth : Nat) : Gathered libc [] depth := by
  intro parser _
  simp [processAll, grow, tokensSize]

variable {depth count : Nat}

theorem gathered_append {a b : List Token} {m n : Nat} (ha : Gathered libc a m)
    (hb : Gathered libc b n) (hm : m ≤ depth) (hn : n ≤ depth) :
    Gathered libc (a ++ b) depth := by
  intro parser hroom
  rw [processAll_append, ha parser (hroom.left hm), hb _ (hroom.right hn), grow_grow]
  rfl

theorem gathered_neutral
    (htype : token.type ∈ [TokenType.colon, .comma, .integer, .keyword, .string]) (depth : Nat) :
    Gathered libc [token] depth := by
  intro parser hroom
  have hnone : Room parser [token] 0 :=
    @Room.left δ parser [token] [] depth 0 (by rwa [append_nil]) (Nat.zero_le depth)
  exact process_neutral libc htype hnone

theorem gathered_separator (count depth : Nat) : Gathered libc (separatorTokens count) depth := by
  rw [separatorTokens]
  split_ifs
  · exact gathered_neutral libc (by simp) depth
  · exact gathered_nil libc depth

theorem processAll_brackets (herror : opening.type ≠ .error) (hinner : Gathered libc tokens depth)
    (hroom : Room (pushToken parser opening) tokens depth) :
    processAll libc parser (opening :: (tokens ++ [closing])) = jsonMessageProcessToken libc
        (grow parser (braceStep opening.type) (bracketStep opening.type) (opening :: tokens))
        closing := by
  have hopen : Room (pushToken parser opening) [] 0 :=
    @Room.left δ _ [] tokens depth 0 hroom (Nat.zero_le depth)
  rw [processAll_cons, process_gather libc herror hopen, processAll_append, hinner _ hroom,
    pushToken_eq, grow_grow, Int.add_zero, Int.add_zero, singleton_append]
  rfl

/-- A pair of brackets of one kind. -/
structure Brackets (opening closing : TokenType) : Prop where
  openingOk : opening ≠ .error
  closingOk : closing ≠ .error
  brace : braceStep closing = - braceStep opening
  bracket : bracketStep closing = - bracketStep opening
  bracePos : 0 ≤ braceStep opening
  bracketPos : 0 ≤ bracketStep opening
  one : braceStep opening + bracketStep opening = 1

theorem square_brackets : Brackets .lsquare .rsquare := by
  constructor <;> decide

theorem curly_brackets : Brackets .lcurly .rcurly := by
  constructor <;> decide

section

variable (hkind : Brackets opening.type closing.type)
include hkind

theorem pushToken_close
    (parser : JSONMessageParser δ) (tokens : List Token) :
    pushToken (grow parser (braceStep opening.type) (bracketStep opening.type) (opening :: tokens)) closing =
      grow parser 0 0 (opening :: (tokens ++ [closing])) := by
  rw [pushToken_eq, grow_grow, hkind.brace, hkind.bracket, Int.add_right_neg, Int.add_right_neg, cons_append]

/-- Behind an opening bracket there is room for the tokens up to the closing one. -/
theorem Brackets.room
    (hbraces : 0 ≤ parser.braceCount) (hbrackets : 0 ≤ parser.bracketCount)
    (hsize : parser.tokenSize + tokensSize (opening :: (tokens ++ [closing])) ≤ MAX_TOKEN_SIZE)
    (hcount : parser.tokens.length + (opening :: (tokens ++ [closing])).length ≤ MAX_TOKEN_COUNT)
    (hnesting : parser.bracketCount + parser.braceCount + (depth + 1 : Nat) ≤ MAX_NESTING) :
    Room (pushToken parser opening) tokens depth := by
  have hone := hkind.one
  have hbrace := hkind.bracePos
  have hbracket := hkind.bracketPos
  rw [show opening :: (tokens ++ [closing]) = [opening] ++ (tokens ++ [closing]) from rfl,
    tokensSize_append, tokensSize_append] at hsize
  simp only [length_cons, length_append, length_nil] at hcount
  rw [pushToken_eq]
  refine ⟨?_, ?_, ?_, ?_, ?_, ?_⟩ <;> simp only [grow, length_append, length_singleton] <;> omega

theorem gathered_brackets
    (hinner : Gathered libc tokens depth) :
    Gathered libc (opening :: (tokens ++ [closing])) (depth + 1) := by
  intro parser hroom
  have hclosed : Room (grow parser 0 0 (opening :: (tokens ++ [closing]))) [] 0 :=
    @Room.right δ parser _ [] (depth + 1) 0 (by rwa [append_nil]) (Nat.zero_le _)
  have hopened : Room (pushToken parser opening) tokens depth :=
    hkind.room hroom.braces hroom.brackets hroom.size hroom.count hroom.nesting
  rw [processAll_brackets libc hkind.openingOk hinner hopened, process_gather libc hkind.closingOk,
    pushToken_close hkind]
  rw [pushToken_close hkind]
  exact hclosed

end

theorem gathered_items {items : List (QObject δ)}
    (hitems : ∀ x ∈ items, Gathered libc (tokensOf x) x.nesting) :
    Gathered libc (tokensOfItems count items) (nestingItems items) := by
  induction items generalizing count with
  | nil =>
    rw [tokensOfItems]
    exact gathered_nil libc _
  | cons x items ih =>
    obtain ⟨hx, hitems⟩ := forall_mem_cons.mp hitems
    rw [tokensOfItems, nestingItems]
    refine gathered_append libc (gathered_separator libc count 0) ?_ (Nat.zero_le _) (Nat.le_refl _)
    exact gathered_append libc hx (ih hitems) (Nat.le_max_left _ _) (Nat.le_max_right _ _)

theorem gathered_entries {entries : QDict δ}
    (hentries : ∀ e ∈ entries, Gathered libc (tokensOf e.2) e.2.nesting) :
    Gathered libc (tokensOfEntries count entries) (nestingEntries entries) := by
  induction entries generalizing count with
  | nil =>
    rw [tokensOfEntries]
    exact gathered_nil libc _
  | cons e entries ih =>
    obtain ⟨hv, hentries⟩ := forall_mem_cons.mp hentries
    have hkey : Gathered libc [⟨.string, stringToJson e.1⟩, ⟨.colon, [colon]⟩] 0 :=
      gathered_append libc (gathered_neutral libc (by simp) 0) (gathered_neutral libc (by simp) 0)
        (Nat.le_refl 0) (Nat.le_refl 0)
    rw [tokensOfEntries, nestingEntries]
    refine gathered_append libc (gathered_separator libc count 0) ?_ (Nat.zero_le _) (Nat.le_refl _)
    refine gathered_append libc hkey ?_ (Nat.zero_le _) (Nat.le_refl _)
    exact gathered_append libc hv (ih hentries) (Nat.le_max_left _ _) (Nat.le_max_right _ _)

/-- Inside brackets the tokens of a value are gathered. -/
theorem gathered_value (t : QObject δ) (hwf : t.WellFormed) : Gathered libc (tokensOf t) t.nesting := by
  induction t using QObject.induct with
  | hnull | hbool | hint | hstr => rw [tokensOf]; exact gathered_neutral libc (by simp) _
  | hfloat d => exact absurd hwf (by rw [QObject.WellFormed]; exact id)
  | hlist items ih =>
    rw [QObject.WellFormed, wellFormedItems_iff] at hwf
    rw [tokensOf, QObject.nesting]
    exact gathered_brackets libc square_brackets (gathered_items libc fun x hx => ih x hx (hwf x hx))
  | hdict entries ih =>
    rw [QObject.WellFormed, wellFormedEntries_iff] at hwf
    rw [tokensOf, QObject.nesting]
    exact gathered_brackets libc curly_brackets (gathered_entries libc fun e he => ih e he (hwf.2 e he))

/-- The value is within the limits of nesting and size of the reader. -/
structure Within (t : QObject δ) : Prop where
  nesting : t.nesting ≤ MAX_NESTING
  count : (tokensOf t).length ≤ MAX_TOKEN_COUNT
  size : tokensSize (tokensOf t) ≤ MAX_TOKEN_SIZE

theorem process_emit (herror : token.type ≠ .error) (hbraces : (pushToken parser token).braceCount = 0)
    (hbrackets : (pushToken parser token).bracketCount = 0) :
    jsonMessageProcessToken libc parser token = emitTokens libc (some (pushToken parser token).tokens) := by
  rw [jsonMessageProcessToken, if_neg herror, if_pos (.inr (.inr ⟨hbraces, hbrackets⟩))]

theorem processAll_single (htype : token.type ∈ [TokenType.colon, .comma, .integer, .keyword, .string]) :
    processAll libc .init [token] = emitTokens libc (some [token]) := by
  have hsteps : token.type ≠ .error ∧ braceStep token.type = 0 ∧ bracketStep token.type = 0 := by
    generalize token.type = t at htype
    simp only [mem_cons, not_mem_nil, or_false] at htype
    rcases htype with rfl | rfl | rfl | rfl | rfl <;> decide
  have hpush : pushToken (.init : JSONMessageParser δ) token = grow .init 0 0 [token] := by
    rw [pushToken_eq, hsteps.2.1, hsteps.2.2]
  rw [processAll_cons, process_emit libc hsteps.1 (by rw [hpush]; rfl) (by rw [hpush]; rfl), hpush]
  rfl

theorem processAll_outer (hkind : Brackets opening.type closing.type)
    (hinner : Gathered libc tokens depth) (hnesting : depth + 1 ≤ MAX_NESTING)
    (hcount : (opening :: (tokens ++ [closing])).length ≤ MAX_TOKEN_COUNT)
    (hsize : tokensSize (opening :: (tokens ++ [closing])) ≤ MAX_TOKEN_SIZE) :
    processAll libc .init (opening :: (tokens ++ [closing])) =
      emitTokens libc (some (opening :: (tokens ++ [closing]))) := by
  have hopened : Room (pushToken (.init : JSONMessageParser δ) opening) tokens depth :=
    hkind.room (le_refl _) (le_refl _) (by simpa [init] using hsize) (by simpa [init] using hcount)
      (by simp only [init]; omega)
  rw [processAll_brackets libc hkind.openingOk hinner hopened,
    process_emit libc hkind.closingOk (by rw [pushToken_close hkind]; rfl)
      (by rw [pushToken_close hkind]; rfl), pushToken_close hkind]
  rfl

/-- The tokens of a whole value within the limits reach the parser together. -/
theorem processAll_value {t : QObject δ} (hwf : t.WellFormed) (hwithin : Within t) :
    processAll libc .init (tokensOf t) = emitTokens libc (some (tokensOf t)) := by
  obtain ⟨hnesting, hcount, hsize⟩ := hwithin
  cases t with
  | null | bool | int | str => rw [tokensOf]; exact processAll_single libc (by simp)
  | float d => exact absurd hwf (by rw [QObject.WellFormed]; exact id)
  | list items =>
    rw [QObject.WellFormed, wellFormedItems_iff] at hwf
    rw [QObject.nesting] at hnesting
    rw [tokensOf] at hcount hsize ⊢
    exact processAll_outer libc square_brackets
      (gathered_items libc fun x hx => gathered_value libc x (hwf x hx)) hnesting hcount hsize
  | dict entries =>
    rw [QObject.WellFormed, wellFormedEntries_iff] at hwf
    rw [QObject.nesting] at hnesting
    rw [tokensOf] at hcount hsize ⊢
    exact processAll_outer libc curly_brackets
      (gathered_entries libc fun e he => gathered_value libc e.2 (hwf.2 e he)) hnesting hcount
      hsize

end TcgArm.Json
