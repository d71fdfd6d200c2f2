import Treewalk.Proofs.Forms.Phrases
import Treewalk.Proofs.Grammar.Reads
import Treewalk.Proofs.Positional

/-!
# Trees that can be read back

A tree is legible if its form is read as the tree again, without the lines of its tokens. For
each kind of tree there is one lemma that says when it is legible: its parts are, and its own
tokens are spelled as what they are (`Token.Genuine`).
-/

namespace Treewalk

open Form Lexeme

/-- The token is of the kind that its spelling denotes. -/
def Token.Genuine (t : Token) : Prop :=
  Denotes t.lexeme.toList t.kind

section

variable {t : Token} {s : Symbol}

theorem Lexeme.Denotes.spelling_eq {w : List Char} (h : Denotes w (.symbol s)) :
    s.spelling = String.ofList w := by
  cases h with
  | operator h => exact (mem_operators.mp h).2
  | reserved h => exact (mem_reserved.mp h).2

theorem Token.Genuine.unlined_of_is (h : t.Genuine) (hs : t.Is s) :
    t.unlined = ⟨.symbol s, s.spelling, 0⟩ := by
  have hkind : t.kind = .symbol s := hs
  rw [Token.Genuine, hkind] at h
  rw [Token.unlined, hkind, h.spelling_eq, String.ofList_toList]

theorem Token.Genuine.yields (h : t.Genuine) (hword : t.kind.isWord = true) :
    (ofToken t).Yields (.word t.unlined) := by
  have hyields := yields_of_denotes h hword
  rwa [String.ofList_toList] at hyields

theorem Token.Genuine.yields_name (h : t.Genuine) (hname : t.IsName) :
    (ofToken t).Yields (.word t.unlined) :=
  h.yields (by rw [hname]; rfl)

theorem Token.Genuine.yields_symbol (h : t.Genuine) (hs : t.Is s)
    (hword : (Kind.symbol s).isWord = true) : (ofToken t).Yields (.word t.unlined) :=
  h.yields (by rwa [show t.kind = .symbol s from hs])

theorem yields_symbol (s : Symbol) (hword : (Kind.symbol s).isWord = true) :
    (Form.word s.spelling.toList).Yields (.word ⟨.symbol s, s.spelling, 0⟩) := by
  have hgenuine : Token.Genuine ⟨.symbol s, s.spelling, 0⟩ := by
    have hall : s ∈ Symbol.punctuators ∨ s ∈ Symbol.words := by cases s <;> decide
    rcases hall with h | h
    · exact .operator (mem_operators.mpr ⟨h, String.ofList_toList.symm⟩)
    · exact .reserved (mem_reserved.mpr ⟨h, String.ofList_toList.symm⟩)
  exact hgenuine.yields hword

/-- The name of a form that is not a reserved word. -/
theorem yields_identifier (name : String)
    (h : Piece.split name.toList = [⟨.token .identifier, name.toList⟩]) :
    (Form.word name.toList).Yields (.word ⟨.identifier, name, 0⟩) := by
  have hgenuine : Token.Genuine ⟨.identifier, name, 0⟩ := by
    have hmem : ⟨.token .identifier, name.toList⟩ ∈
        Piece.tokenPieces (Piece.split name.toList) := by
      rw [h]
      exact List.mem_cons_self ..
    obtain ⟨kind, hkind, hdenotes⟩ := Piece.isToken_of_mem_tokenPieces _ hmem
    cases hkind
    exact hdenotes
  exact hgenuine.yields rfl

end

/-! ## Expressions -/

def Literal.kind : Literal → Kind
  | .nil => .symbol .nilWord
  | .bool b => .symbol (if b then .trueWord else .falseWord)
  | .number x => .number x
  | .string s => .string s

/-- What the form of an expression is read as. A single word is only known to be an expression
where one is expected. -/
def Expr.phrase : Expr → Phrase
  | .literal v => .word ⟨v.kind, v.text, 0⟩
  | .var r | .receiver r => .word r.name.unlined
  | e => .expr (e.map Token.unlined)

structure Expr.Legible (e : Expr) : Prop where
  yields : e.form.Yields e.phrase
  expr : e.phrase.expr? = some (e.map Token.unlined)

theorem Expr.legible_of_yields {e : Expr} (h : e.form.Yields (.expr (e.map Token.unlined)))
    (hphrase : e.phrase = .expr (e.map Token.unlined)) : e.Legible where
  yields := hphrase ▸ h
  expr := by rw [hphrase, Phrase.expr?]

namespace Expr.Legible

variable {e o a b v : Expr} {es : List Expr} {t n op : Token} {s : Symbol}

theorem literal {value : Literal} (h : Denotes value.text.toList value.kind)
    (hword : value.kind.isWord = true) : (Expr.literal value).Legible where
  yields := Token.Genuine.yields (t := ⟨value.kind, value.text, 0⟩) h hword
  expr := by
    cases value with
    | bool b => cases b <;> rfl
    | nil | number _ | string _ => rfl

theorem var (h : t.Genuine) (hname : t.IsName) : (Expr.var ⟨t, none⟩).Legible where
  yields := h.yields_name hname
  expr := by
    have hatom : Parser.atom? t.unlined = some (.var ⟨t.unlined, none⟩) := by
      rw [Parser.atom?, show t.unlined.kind = .identifier from hname]
    exact hatom

theorem receiver (h : t.Genuine) (ht : t.Is .thisWord) : (Expr.receiver ⟨t, none⟩).Legible where
  yields := by
    rw [phrase, h.unlined_of_is ht]
    exact yields_symbol .thisWord rfl
  expr := by
    have hatom : Parser.atom? t.unlined = some (.receiver ⟨t.unlined, none⟩) := by
      rw [Parser.atom?, show t.unlined.kind = .symbol .thisWord from ht]
    exact hatom

theorem group (h : e.Legible) : (Expr.group e).Legible := by
  refine legible_of_yields (yields_headed (yields_identifier "group" (by decide))
    (.cons h.yields .nil) ?_) rfl
  exact congrArg (Option.map fun e => Phrase.expr (.group e)) h.expr

theorem inherited (ht : t.Genuine) (hs : t.Is .superWord) (hn : n.Genuine) (hname : n.IsName) :
    (Expr.inherited ⟨t, none⟩ n).Legible := by
  refine legible_of_yields (yields_headed (yields_symbol .superWord rfl)
    (.cons (hn.yields_name hname) .nil) ?_) rfl
  rw [Expr.map, Reference.map, ht.unlined_of_is hs]
  rfl

theorem unary (h : e.Legible) (hop : op.Genuine) (his : op.Is s) (hs : s ∈ [.bang, .minus]) :
    (Expr.unary op e).Legible := by
  obtain rfl | rfl : s = .bang ∨ s = .minus := by simpa using hs
  all_goals
    have hyields := hop.yields_symbol his rfl
    rw [hop.unlined_of_is his] at hyields
    refine legible_of_yields (yields_headed hyields (.cons h.yields .nil) ?_) rfl
    rw [Expr.map, hop.unlined_of_is his]
    exact congrArg (Option.map fun e => Phrase.expr (.unary _ e)) h.expr

/-- What two operands and the symbol of an operator are read as. -/
theorem ofSymbol?_operation : ∀ i, ∀ s ∈ Parser.operators i, (Kind.symbol s).isWord = true ∧
    ∀ (t : Token) (p q : Phrase), Phrase.ofSymbol? t s [p, q] =
      p.expr?.bind fun a => q.expr?.map fun b => .expr (Parser.operation i t a b)
  | 0 | _ + 7 => List.forall_mem_nil _
  | 5 | 6 => List.forall_mem_singleton.mpr ⟨rfl, fun _ _ _ => rfl⟩
  | 1 | 2 | 4 => List.forall_mem_cons.mpr ⟨⟨rfl, fun _ _ _ => rfl⟩,
    List.forall_mem_singleton.mpr ⟨rfl, fun _ _ _ => rfl⟩⟩
  | 3 => List.forall_mem_cons.mpr ⟨⟨rfl, fun _ _ _ => rfl⟩, List.forall_mem_cons.mpr
    ⟨⟨rfl, fun _ _ _ => rfl⟩, List.forall_mem_cons.mpr ⟨⟨rfl, fun _ _ _ => rfl⟩,
    List.forall_mem_singleton.mpr ⟨rfl, fun _ _ _ => rfl⟩⟩⟩⟩

theorem operation {i : Nat} (ha : a.Legible) (hb : b.Legible) (hop : op.Genuine) (his : op.Is s)
    (hs : s ∈ Parser.operators i) : (Parser.operation i op a b).Legible := by
  obtain ⟨hword, hsymbol⟩ := ofSymbol?_operation i s hs
  have hform : (Parser.operation i op a b).form = headed op.lexeme [a.form, b.form] := by
    unfold Parser.operation
    split <;> rfl
  have hphrase : (Parser.operation i op a b).phrase =
      .expr ((Parser.operation i op a b).map Token.unlined) := by
    unfold Parser.operation
    split <;> rfl
  have hmap : (Parser.operation i op a b).map Token.unlined =
      Parser.operation i op.unlined (a.map Token.unlined) (b.map Token.unlined) := by
    unfold Parser.operation
    split <;> rfl
  refine legible_of_yields ?_ hphrase
  rw [hform, hmap]
  refine yields_headed (hop.yields_symbol his hword) (.cons ha.yields (.cons hb.yields .nil)) ?_
  rw [Phrase.ofHead?, show op.unlined.kind = .symbol s from his]
  show Phrase.ofSymbol? op.unlined s [a.phrase, b.phrase] = _
  rw [hsymbol, ha.expr, hb.expr]
  rfl

/-- Only a name is read as a variable. -/
theorem depth_eq_none {r : Reference} (h : (Expr.var r).Legible) : r.depth = none := by
  obtain ⟨name, depth⟩ := r
  have hatom : Parser.atom? name.unlined = some (.var ⟨name.unlined, depth⟩) := h.expr
  unfold Parser.atom? at hatom
  split at hatom <;> cases hatom
  rfl

theorem assign {r : Reference} (h : (Expr.var r).Legible) (hv : v.Legible) :
    (Expr.assign r v).Legible := by
  refine legible_of_yields (yields_headed (yields_symbol .equal rfl)
    (.cons h.yields (.cons hv.yields .nil)) ?_) rfl
  rw [Expr.map, Reference.map, h.depth_eq_none]
  exact congrArg (Option.map fun e => Phrase.expr (.assign ⟨r.name.unlined, none⟩ e)) hv.expr

theorem get (h : o.Legible) (hn : n.Genuine) (hname : n.IsName) : (Expr.get o n).Legible := by
  refine legible_of_yields (yields_headed (yields_symbol .dot rfl)
    (.cons h.yields (.cons (hn.yields_name hname) .nil)) ?_) rfl
  exact congrArg (Option.map fun e => Phrase.expr (.get e n.unlined)) h.expr

theorem set (h : (Expr.get o n).Legible) (hv : v.Legible) : (Expr.set o n v).Legible := by
  refine legible_of_yields (yields_headed (yields_symbol .equal rfl)
    (.cons h.yields (.cons hv.yields .nil)) ?_) rfl
  exact congrArg (Option.map fun e => Phrase.expr (.set (o.map Token.unlined) n.unlined e)) hv.expr

theorem forall₂_forms (h : ∀ e ∈ es, e.Legible) :
    List.Forall₂ Yields (Expr.forms es) (es.map phrase) := by
  induction es with
  | nil => exact .nil
  | cons e es ih =>
    obtain ⟨he, hes⟩ := List.forall_mem_cons.mp h
    exact .cons he.yields (ih hes)

theorem mapM_expr? (h : ∀ e ∈ es, e.Legible) :
    (es.map phrase).mapM Phrase.expr? = some (es.map (Expr.map Token.unlined)) := by
  induction es with
  | nil => rfl
  | cons e es ih =>
    obtain ⟨he, hes⟩ := List.forall_mem_cons.mp h
    rw [List.map_cons, List.mapM_cons, he.expr, ih hes]
    rfl

theorem call (h : e.Legible) (ht : t.Genuine) (hs : t.Is .rightParen) (hes : ∀ e ∈ es, e.Legible) :
    (Expr.call e t es).Legible := by
  refine legible_of_yields (yields_headed (yields_identifier "call" (by decide))
    (.cons h.yields (forall₂_forms hes)) ?_) rfl
  show (e.phrase.expr?.bind fun f => ((es.map phrase).mapM Phrase.expr?).map fun args =>
    Phrase.expr (.call f ⟨.symbol .rightParen, ")", 0⟩ args)) = _
  rw [h.expr, mapM_expr? hes, Expr.map, ht.unlined_of_is hs, Expr.mapAll_eq]
  rfl

end Expr.Legible

/-! ## Statements -/

def Stmt.Legible (s : Stmt) : Prop :=
  s.form.Yields (.stmt (s.map Token.unlined))

/-- The name and the parameters are read as such, and each statement of the body as itself. -/
structure Routine.Legible (r : Routine Stmt) : Prop where
  header : (Routine.header r.name r.params).Yields
    (.header r.name.unlined (r.params.map Token.unlined))
  body : ∀ s ∈ r.body, s.Legible

theorem Phrase.mapM_map {α : Type} (f : α → Phrase) (g : Phrase → Option α)
    (h : ∀ a, g (f a) = some a) (l : List α) : (l.map f).mapM g = some l := by
  induction l with
  | nil => rfl
  | cons a l ih =>
    rw [List.map_cons, List.mapM_cons, h, ih]
    rfl

theorem Phrase.mapM_word? (ts : List Token) : (ts.map word).mapM word? = some ts :=
  mapM_map word word? (fun _ => rfl) ts

theorem Phrase.mapM_stmt? (l : List Stmt) : (l.map stmt).mapM stmt? = some l :=
  mapM_map stmt stmt? (fun _ => rfl) l

theorem Phrase.mapM_method? (ms : List (Routine Stmt)) : (ms.map method).mapM method? = some ms :=
  mapM_map method method? (fun _ => rfl) ms

theorem Routine.yields_header {n : Token} {ps : List Token} (hn : n.Genuine) (hname : n.IsName)
    (hps : ∀ p ∈ ps, p.Genuine ∧ p.IsName) :
    (Routine.header n ps).Yields (.header n.unlined (ps.map Token.unlined)) := by
  have hyields : List.Forall₂ Yields (ps.map ofToken) ((ps.map Token.unlined).map .word) := by
    induction ps with
    | nil => exact .nil
    | cons p ps ih =>
      obtain ⟨hp, hps⟩ := List.forall_mem_cons.mp hps
      exact .cons (hp.1.yields_name hp.2) (ih hps)
  obtain ⟨hplain, hread⟩ := hn.yields_name hname
  have htoken : token? n.lexeme.toList = some n.unlined := by
    have h := token?_of_denotes hn
    rwa [String.ofList_toList] at h
  rw [ofToken] at hplain
  constructor
  · cases hplain with
    | word _ hchars => exact .node hchars (plain_of_yields hyields)
  · cases hplain with
    | word hne _ =>
      rw [Routine.header, read?, reads?_of_yields hyields]
      obtain ⟨c, w, hw⟩ := List.exists_cons_of_ne_nil hne
      rw [hw] at htoken ⊢
      show ((token? (c :: w)).bind fun t =>
        (((ps.map Token.unlined).map Phrase.word).mapM Phrase.word?).map (Phrase.header t)) = _
      rw [htoken, Phrase.mapM_word?]
      rfl

namespace Stmt.Legible

variable {e c : Expr} {s a : Stmt} {l : List Stmt} {r : Routine Stmt} {ms : List (Routine Stmt)}
  {t n : Token}

theorem expression (h : e.Legible) : (Stmt.expression e).Legible :=
  yields_headed (yields_symbol .semicolon rfl) (.cons h.yields .nil)
    (congrArg (Option.map fun e => Phrase.stmt (.expression e)) h.expr)

theorem print (h : e.Legible) : (Stmt.print e).Legible :=
  yields_headed (yields_symbol .printWord rfl) (.cons h.yields .nil)
    (congrArg (Option.map fun e => Phrase.stmt (.print e)) h.expr)

theorem declare {init : Option Expr} (hn : n.Genuine) (hname : n.IsName)
    (h : ∀ e ∈ init, e.Legible) : (Stmt.declare n init).Legible := by
  cases init with
  | none => exact yields_headed (yields_symbol .varWord rfl) (.cons (hn.yields_name hname) .nil) rfl
  | some e =>
    exact yields_headed (yields_symbol .varWord rfl)
      (.cons (hn.yields_name hname) (.cons (h e rfl).yields .nil))
      (congrArg (Option.map fun e => Phrase.stmt (.declare n.unlined (some e))) (h e rfl).expr)

theorem leave {value : Option Expr} (ht : t.Genuine) (hs : t.Is .returnWord)
    (h : ∀ e ∈ value, e.Legible) : (Stmt.leave t value).Legible := by
  rw [Stmt.Legible, Stmt.map, ht.unlined_of_is hs]
  cases value with
  | none => exact yields_headed (yields_symbol .returnWord rfl) .nil rfl
  | some e =>
    exact yields_headed (yields_symbol .returnWord rfl) (.cons (h e rfl).yields .nil)
      (congrArg (Option.map fun e => Phrase.stmt (.leave _ (some e))) (h e rfl).expr)

theorem branch (hc : c.Legible) (hs : s.Legible) : (Stmt.branch c s none).Legible :=
  yields_headed (yields_symbol .ifWord rfl) (.cons hc.yields (.cons hs .nil))
    (congrArg (Option.map fun c => Phrase.stmt (.branch c (s.map Token.unlined) none)) hc.expr)

theorem choice (hc : c.Legible) (hs : s.Legible) (ha : a.Legible) :
    (Stmt.branch c s (some a)).Legible :=
  yields_headed (yields_symbol .ifWord rfl) (.cons hc.yields (.cons hs (.cons ha .nil)))
    (congrArg (Option.map fun c =>
      Phrase.stmt (.branch c (s.map Token.unlined) (some (a.map Token.unlined)))) hc.expr)

theorem loop (hc : c.Legible) (hs : s.Legible) : (Stmt.loop c s).Legible :=
  yields_headed (yields_symbol .whileWord rfl) (.cons hc.yields (.cons hs .nil))
    (congrArg (Option.map fun c => Phrase.stmt (.loop c (s.map Token.unlined))) hc.expr)

theorem forall₂_forms (h : ∀ s ∈ l, s.Legible) :
    List.Forall₂ Yields (Stmt.forms l) ((Stmt.mapAll Token.unlined l).map .stmt) := by
  induction l with
  | nil => exact .nil
  | cons s l ih =>
    obtain ⟨hs, hl⟩ := List.forall_mem_cons.mp h
    exact .cons hs (ih hl)

theorem block (h : ∀ s ∈ l, s.Legible) : (Stmt.block l).Legible :=
  yields_headed (yields_identifier "block" (by decide)) (forall₂_forms h)
    (congrArg (Option.map fun l => Phrase.stmt (.block l)) (Phrase.mapM_stmt? _))

theorem function (h : r.Legible) : (Stmt.function r).Legible := by
  obtain ⟨n, ps, l⟩ := r
  exact yields_headed (yields_symbol .funWord rfl) (.cons h.header (forall₂_forms h.body))
    (congrArg (Option.map fun l => Phrase.stmt (.function ⟨n.unlined, ps.map Token.unlined, l⟩))
      (Phrase.mapM_stmt? _))

theorem yields_method (h : r.Legible) :
    (Stmt.routineForm "method" r).Yields (.method (Stmt.mapRoutine Token.unlined r)) := by
  obtain ⟨n, ps, l⟩ := r
  exact yields_headed (yields_identifier "method" (by decide))
    (.cons h.header (forall₂_forms h.body))
    (congrArg (Option.map fun l => Phrase.method ⟨n.unlined, ps.map Token.unlined, l⟩)
      (Phrase.mapM_stmt? _))

theorem forall₂_methods (h : ∀ r ∈ ms, r.Legible) :
    List.Forall₂ Yields (Stmt.methodForms ms) ((Stmt.mapMethods Token.unlined ms).map .method) := by
  induction ms with
  | nil => exact .nil
  | cons r ms ih =>
    obtain ⟨hr, hms⟩ := List.forall_mem_cons.mp h
    exact .cons (yields_method hr) (ih hms)

theorem base (hn : n.Genuine) (hname : n.IsName) (hms : ∀ r ∈ ms, r.Legible) :
    (Stmt.classDecl n none ms).Legible := by
  refine yields_headed (yields_symbol .classWord rfl)
    (.cons (hn.yields_name hname) (forall₂_methods hms)) ?_
  have hmethods := congrArg (Option.map fun ms => Phrase.stmt (.classDecl n.unlined none ms))
    (Phrase.mapM_method? (Stmt.mapMethods Token.unlined ms))
  -- the second phrase tells whether there is a superclass
  cases ms with
  | nil | cons r ms => exact hmethods

theorem derived {p : Token} (hn : n.Genuine) (hname : n.IsName) (hp : p.Genuine)
    (hparent : p.IsName) (hms : ∀ r ∈ ms, r.Legible) :
    (Stmt.classDecl n (some ⟨p, none⟩) ms).Legible :=
  yields_headed (yields_symbol .classWord rfl) (.cons (hn.yields_name hname)
    (.cons (yields_symbol .less rfl) (.cons (hp.yields_name hparent) (forall₂_methods hms))))
    (congrArg (Option.map fun ms => Phrase.stmt (.classDecl n.unlined (some ⟨p.unlined, none⟩) ms))
      (Phrase.mapM_method? _))

theorem forLoop {init : Option Stmt} {c e : Option Expr} (hinit : ∀ x ∈ init, x.Legible)
    (hc : ∀ x ∈ c, x.Legible) (he : ∀ x ∈ e, x.Legible) (hs : s.Legible) :
    (Stmt.forLoop init c e s).Legible := by
  have hcond : (c.getD (.literal (.bool true))).Legible := by
    cases c with
    | none => exact .literal (.reserved (by decide)) rfl
    | some x => exact hc x rfl
  have hloop : (Stmt.forLoop none c e s).Legible := by
    cases e with
    | none => exact loop hcond hs
    | some x => exact loop hcond (block (by simpa using ⟨hs, expression (he x rfl)⟩))
  cases init with
  | none => exact hloop
  | some x => exact block (by simpa using ⟨hinit x rfl, hloop⟩)

end Stmt.Legible

end Treewalk
