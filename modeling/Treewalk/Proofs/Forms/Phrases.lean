import Mathlib.Data.List.Forall2
import Treewalk.Grammar.Expression
import Treewalk.Proofs.Forms.Trees
import Treewalk.Proofs.Spacing
import Treewalk.Proofs.Tokens

/-!
# Reading forms back

A form can be read back as the phrase it was written for: a word is a token, and a list is told
by its first word and by how many forms follow. Reading goes from the inside out
(`Form.read?`): a list is put together from the phrases of its forms (`Phrase.ofHead?`), as an
assignment is from a target that was read as a property. What is lost are the lines of tokens,
and those tokens that are spelled in one way only.
-/

namespace Treewalk

open Lexeme

/-- The token, wherever it stands. -/
def Token.unlined (t : Token) : Token :=
  { t with line := 0 }

/-- The kind of a token that is one word in the text of a tree. -/
def Kind.isWord : Kind → Bool
  | .string _ | .symbol .leftParen | .symbol .rightParen => false
  | _ => true

/-- What a form is read as. -/
inductive Phrase where
  | word (t : Token)
  | expr (e : Expr)
  | stmt (s : Stmt)
  /-- The name and the parameters of a function or method. -/
  | header (name : Token) (params : List Token)
  | method (r : Routine Stmt)

namespace Phrase

def word? : Phrase → Option Token
  | .word t => some t
  | _ => none

/-- An expression, which may be a single word. -/
def expr? : Phrase → Option Expr
  | .word t => Parser.atom? t
  | .expr e => some e
  | _ => none

def stmt? : Phrase → Option Stmt
  | .stmt s => some s
  | _ => none

def method? : Phrase → Option (Routine Stmt)
  | .method r => some r
  | _ => none

/-- A list that begins with the symbol `s`, the token `t`. -/
def ofSymbol? (t : Token) (s : Symbol) (items : List Phrase) : Option Phrase :=
  match s, items with
  | .superWord, [.word m] => some (.expr (.inherited ⟨t, none⟩ m))
  | .dot, [o, .word n] => o.expr?.map fun o => .expr (.get o n)
  -- the target was read first, as a variable or a property
  | .equal, [.word r, v] => v.expr?.map fun v => .expr (.assign ⟨r, none⟩ v)
  | .equal, [.expr (.get o n), v] => v.expr?.map fun v => .expr (.set o n v)
  | .semicolon, [e] => e.expr?.map fun e => .stmt (.expression e)
  | .printWord, [e] => e.expr?.map fun e => .stmt (.print e)
  | .varWord, [.word n] => some (.stmt (.declare n none))
  | .varWord, [.word n, e] => e.expr?.map fun e => .stmt (.declare n (some e))
  | .ifWord, [c, .stmt s] => c.expr?.map fun c => .stmt (.branch c s none)
  | .ifWord, [c, .stmt s, .stmt a] => c.expr?.map fun c => .stmt (.branch c s (some a))
  | .whileWord, [c, .stmt s] => c.expr?.map fun c => .stmt (.loop c s)
  | .returnWord, [] => some (.stmt (.leave t none))
  | .returnWord, [e] => e.expr?.map fun e => .stmt (.leave t (some e))
  | .funWord, .header n ps :: body => (body.mapM stmt?).map fun b => .stmt (.function ⟨n, ps, b⟩)
  | .classWord, .word n :: .word _ :: .word r :: ms =>
    (ms.mapM method?).map fun ms => .stmt (.classDecl n (some ⟨r, none⟩) ms)
  | .classWord, .word n :: ms => (ms.mapM method?).map fun ms => .stmt (.classDecl n none ms)
  -- the number of operands tells a sign from an operator
  | _, [e] => e.expr?.map fun e => .expr (.unary t e)
  | .andWord, [a, b] | .orWord, [a, b] =>
    a.expr?.bind fun a => b.expr?.map fun b => .expr (.logical t a b)
  | _, [a, b] => a.expr?.bind fun a => b.expr?.map fun b => .expr (.binary t a b)
  | _, _ => none

/-- A list that begins with a word which is not reserved. -/
def ofName? (name : String) (items : List Phrase) : Option Phrase :=
  match name, items with
  | "group", [e] => e.expr?.map fun e => .expr (.group e)
  | "call", f :: args => f.expr?.bind fun f => (args.mapM expr?).map fun args =>
    .expr (.call f ⟨.symbol .rightParen, ")", 0⟩ args)
  | "block", body => (body.mapM stmt?).map fun b => .stmt (.block b)
  | "method", .header n ps :: body => (body.mapM stmt?).map fun b => .method ⟨n, ps, b⟩
  | _, _ => none

/-- A list that begins with a token. -/
def ofHead? (t : Token) (items : List Phrase) : Option Phrase :=
  match t.kind with
  | .symbol s => ofSymbol? t s items
  | .identifier => ofName? t.lexeme items
  | _ => none

end Phrase

namespace Form

/-- The token that a word is. -/
def token? (w : List Char) : Option Token :=
  match Piece.split w with
  | [p] => p.content?.map fun (kind, lexeme) => ⟨kind, lexeme, 0⟩
  | _ => none

/-- A list of forms that were read, with a name in front of it. -/
def close? : List Char → List Phrase → Option Phrase
  | [], .word t :: items => Phrase.ofHead? t items
  | [], _ => none
  | name, items => (token? name).bind fun t => (items.mapM Phrase.word?).map fun ps => .header t ps

mutual

def read? : Form → Option Phrase
  | .word w => (token? w).map .word
  | .node name items => (Form.reads? items).bind (close? name)

def reads? : List Form → Option (List Phrase)
  | [] => some []
  | f :: rest => f.read?.bind fun p => (Form.reads? rest).map (p :: ·)

end

/-- The form stands for the phrase: its words are plain, and it is read as the phrase. -/
structure Yields (f : Form) (p : Phrase) : Prop where
  plain : f.Plain
  read : f.read? = some p

/-! ## Words -/

section

variable {w : List Char} {kind : Kind}

theorem token?_of_denotes (h : Denotes w kind) : token? w = some ⟨kind, String.ofList w, 0⟩ := by
  have hcut : Piece.Cut [⟨.token kind, w⟩] := ⟨ends_of_denotes h Piece.stops_nil, trivial⟩
  have hsplit : Piece.split w = [⟨.token kind, w⟩] := by
    have htexts := Piece.split_texts hcut
    rwa [Piece.texts_cons, Piece.texts_nil, List.append_nil] at htexts
  rw [token?, hsplit]
  rfl

theorem plainChar_of {q : Char → Bool} {c : Char} (hq : [' ', '\n', '(', ')'].any q = false)
    (hc : q c = true) : plainChar c = true := by
  by_contra hplain
  have hmem : c ∈ [' ', '\n', '(', ')'] := by
    simp only [plainChar, Bool.not_eq_true', Bool.not_eq_false, Bool.or_eq_true,
      beq_iff_eq] at hplain
    simpa [or_assoc] using hplain
  exact List.any_eq_false.mp hq c hmem hc

theorem plain_of_identifier (h : w ∈ identifier) : (Form.word w).Plain := by
  obtain ⟨c, v, hc, hv, rfl⟩ := mem_identifier.mp h
  have hword : ∀ d ∈ c :: v, Piece.inWord d = true :=
    List.forall_mem_cons.mpr ⟨inWord_iff.mpr (.inl hc), hv⟩
  exact .word (List.cons_ne_nil c v) fun d hd => plainChar_of (by decide) (hword d hd)

theorem plain_of_number (h : w ∈ number) : (Form.word w).Plain := by
  have hdigits : ∀ {v : List Char}, Digits v → ∀ c ∈ v, plainChar c = true :=
    fun hv c hc => plainChar_of (by decide) (hv.2 c hc)
  obtain ⟨whole, hwhole, rfl | ⟨fraction, hfraction, rfl⟩⟩ := mem_number.mp h
  · exact .word hwhole.1 (hdigits hwhole)
  · refine .word (by simp) (List.forall_mem_append.mpr ⟨hdigits hwhole, ?_⟩)
    exact List.forall_mem_cons.mpr ⟨by decide, hdigits hfraction⟩

theorem plain_of_operator {s : Symbol} (h : (String.ofList w, s) ∈ operators)
    (hs : s ∉ [.leftParen, .rightParen]) : (Form.word w).Plain := by
  have htable : ∀ s ∈ Symbol.punctuators, s ∉ [.leftParen, .rightParen] →
      s.spelling.toList ≠ [] ∧ s.spelling.toList.all plainChar = true := by decide
  obtain ⟨hmem, hspelling⟩ := mem_operators.mp h
  have hword := htable s hmem hs
  rw [hspelling, String.toList_ofList] at hword
  exact .word hword.1 (List.all_eq_true.mp hword.2)

/-- A token other than a string or a parenthesis is a word by itself. -/
theorem yields_of_denotes (h : Denotes w kind) (hword : kind.isWord = true) :
    (Form.word w).Yields (.word ⟨kind, String.ofList w, 0⟩) where
  plain := by
    cases h with
    | @operator _ s hs =>
      refine plain_of_operator hs ?_
      intro hparen
      obtain rfl | rfl : s = .leftParen ∨ s = .rightParen := by simpa using hparen
      all_goals cases hword
    | reserved hs => exact plain_of_identifier (identifier_of_reserved hs)
    | identifier h _ => exact plain_of_identifier h
    | string _ => cases hword
    | number h _ => exact plain_of_number h
  read := by rw [read?, token?_of_denotes h, Option.map_some]

end

/-! ## Lists -/

section

variable {items : List Form} {ps : List Phrase} {p : Phrase}

theorem reads?_of_yields (h : List.Forall₂ Yields items ps) : reads? items = some ps := by
  induction h with
  | nil => rfl
  | cons hf _ ih =>
    rw [reads?, hf.read, ih]
    rfl

theorem plain_of_yields (h : List.Forall₂ Yields items ps) : ∀ f ∈ items, f.Plain := by
  induction h with
  | nil => exact List.forall_mem_nil _
  | cons hf _ ih => exact List.forall_mem_cons.mpr ⟨hf.plain, ih⟩

theorem yields_headed {head : String} {t : Token}
    (hhead : (Form.word head.toList).Yields (.word t)) (hitems : List.Forall₂ Yields items ps)
    (hp : Phrase.ofHead? t ps = some p) : (headed head items).Yields p where
  plain := .node (List.forall_mem_nil _)
    (List.forall_mem_cons.mpr ⟨hhead.plain, plain_of_yields hitems⟩)
  read := by
    rw [headed, read?, reads?, hhead.read, reads?_of_yields hitems]
    exact hp

end

end Form

end Treewalk
