import Treewalk.Proofs.Grammar.Reads

/-!
# The grammar as it is documented

The grammar in extended Backus–Naur form, and what it derives. An `Ebnf` is the
right-hand side of a rule; `grammar` has one rule for each `Nonterminal`.
`Derives fits φ ts` says that the tokens `ts` can be derived from `φ`, by a
derivation all of whose parameter lists and argument lists have a number of
entries that `fits`; with a predicate that always holds this is what the grammar
itself derives.

What can be read can be derived (`Parser.Reads.derives`): every rule of `Reads` is
a use of one or more rules of the grammar.
-/

namespace Treewalk

inductive Terminal where
  | symbol (s : Symbol)
  | name
  | number
  | string
  | endOfFile

def Terminal.Matches : Terminal → Kind → Prop
  | symbol s, k => k = .symbol s
  | name, k => k = .identifier
  | number, k => ∃ x, k = .number x
  | string, k => ∃ s, k = .string s
  | endOfFile, k => k = .endOfFile

inductive Nonterminal where
  | program | declaration | classDecl | funDecl | function | parameters | varDecl
  | statement | exprStmt | forStmt | ifStmt | printStmt | returnStmt | whileStmt | block
  | expression | assignment | logicOr | logicAnd | equality | comparison | term | factor
  | unary | call | arguments | primary

/-- The right-hand side of a rule. -/
inductive Ebnf where
  | terminal (x : Terminal)
  | rule (n : Nonterminal)
  | seq (φs : List Ebnf)
  | alt (φs : List Ebnf)
  /-- `φ?` -/
  | opt (φ : Ebnf)
  /-- `φ*` -/
  | star (φ : Ebnf)
  /-- `φ ( "," φ )*` -/
  | list (φ : Ebnf)
  /-- `φ ( "," φ )*` with this number of entries. -/
  | entries (k : Nat) (φ : Ebnf)

namespace Ebnf

def symbol (s : Symbol) : Ebnf :=
  terminal (.symbol s)

def name : Ebnf :=
  terminal .name

/-- `operand ( ( operator | … ) operand )*` -/
def operated (operand : Nonterminal) (operators : List Symbol) : Ebnf :=
  seq [rule operand, star (seq [alt (operators.map symbol), rule operand])]

/-- The rules. -/
def grammar : Nonterminal → Ebnf
  | .program => seq [star (rule .declaration), terminal .endOfFile]
  | .declaration => alt [rule .classDecl, rule .funDecl, rule .varDecl, rule .statement]
  | .classDecl => seq [symbol .classWord, name, opt (seq [symbol .less, name]), symbol .leftBrace,
      star (rule .function), symbol .rightBrace]
  | .funDecl => seq [symbol .funWord, rule .function]
  | .function => seq [name, symbol .leftParen, opt (rule .parameters), symbol .rightParen,
      rule .block]
  | .parameters => list name
  | .varDecl => seq [symbol .varWord, name, opt (seq [symbol .equal, rule .expression]),
      symbol .semicolon]
  | .statement => alt [rule .exprStmt, rule .forStmt, rule .ifStmt, rule .printStmt,
      rule .returnStmt, rule .whileStmt, rule .block]
  | .exprStmt => seq [rule .expression, symbol .semicolon]
  | .forStmt => seq [symbol .forWord, symbol .leftParen,
      alt [rule .varDecl, rule .exprStmt, symbol .semicolon], opt (rule .expression),
      symbol .semicolon, opt (rule .expression), symbol .rightParen, rule .statement]
  | .ifStmt => seq [symbol .ifWord, symbol .leftParen, rule .expression, symbol .rightParen,
      rule .statement, opt (seq [symbol .elseWord, rule .statement])]
  | .printStmt => seq [symbol .printWord, rule .expression, symbol .semicolon]
  | .returnStmt => seq [symbol .returnWord, opt (rule .expression), symbol .semicolon]
  | .whileStmt => seq [symbol .whileWord, symbol .leftParen, rule .expression, symbol .rightParen,
      rule .statement]
  | .block => seq [symbol .leftBrace, star (rule .declaration), symbol .rightBrace]
  | .expression => rule .assignment
  | .assignment => alt [seq [opt (seq [rule .call, symbol .dot]), name, symbol .equal,
      rule .assignment], rule .logicOr]
  | .logicOr => operated .logicAnd [.orWord]
  | .logicAnd => operated .equality [.andWord]
  | .equality => operated .comparison [.bangEqual, .equalEqual]
  | .comparison => operated .term [.greater, .greaterEqual, .less, .lessEqual]
  | .term => operated .factor [.minus, .plus]
  | .factor => operated .unary [.slash, .star]
  | .unary => alt [seq [alt [symbol .bang, symbol .minus], rule .unary], rule .call]
  | .call => seq [rule .primary, star (alt [seq [symbol .leftParen, opt (rule .arguments),
      symbol .rightParen], seq [symbol .dot, name]])]
  | .arguments => list (rule .expression)
  | .primary => alt [terminal .number, terminal .string, symbol .trueWord, symbol .falseWord,
      symbol .nilWord, symbol .thisWord, name, seq [symbol .leftParen, rule .expression,
      symbol .rightParen], seq [symbol .superWord, symbol .dot, name]]

/-- The tokens are derived, with a number of entries in each list that `fits`. -/
inductive Derives (fits : Nat → Prop) : Ebnf → List Token → Prop
  | token {x : Terminal} {t : Token} : x.Matches t.kind → Derives fits (terminal x) [t]
  | rule {n : Nonterminal} {ts : List Token} : Derives fits (grammar n) ts → Derives fits (rule n) ts
  | empty : Derives fits (seq []) []
  | seq {φ : Ebnf} {φs : List Ebnf} {ts us : List Token} :
    Derives fits φ ts → Derives fits (seq φs) us → Derives fits (seq (φ :: φs)) (ts ++ us)
  | alt {φ : Ebnf} {φs : List Ebnf} {ts : List Token} :
    φ ∈ φs → Derives fits φ ts → Derives fits (alt φs) ts
  | absent {φ : Ebnf} : Derives fits (opt φ) []
  | present {φ : Ebnf} {ts : List Token} : Derives fits φ ts → Derives fits (opt φ) ts
  | done {φ : Ebnf} : Derives fits (star φ) []
  | again {φ : Ebnf} {ts us : List Token} :
    Derives fits φ ts → Derives fits (star φ) us → Derives fits (star φ) (ts ++ us)
  | list {φ : Ebnf} {k : Nat} {ts : List Token} :
    Derives fits (entries k φ) ts → fits k → Derives fits (list φ) ts
  | last {φ : Ebnf} {ts : List Token} : Derives fits φ ts → Derives fits (entries 1 φ) ts
  | next {φ : Ebnf} {k : Nat} {comma : Token} {ts us : List Token} :
    Derives fits φ ts → comma.Is .comma → Derives fits (entries k φ) us →
    Derives fits (entries (k + 1) φ) (ts ++ comma :: us)

namespace Derives

variable {fits : Nat → Prop} {φ : Ebnf} {φs : List Ebnf} {t : Token} {s : Symbol}
  {ts us : List Token}

theorem symbol (h : t.Is s) : Derives fits (symbol s) [t] :=
  token (x := .symbol s) h

theorem name (h : t.IsName) : Derives fits name [t] :=
  token (x := .name) h

/-- A sequence that begins with a symbol. -/
theorem symbolThen (h : t.Is s) (hs : Derives fits (.seq φs) us) :
    Derives fits (.seq (Ebnf.symbol s :: φs)) (t :: us) :=
  seq (symbol h) hs

theorem nameThen (h : t.IsName) (hs : Derives fits (.seq φs) us) :
    Derives fits (.seq (Ebnf.name :: φs)) (t :: us) :=
  seq (name h) hs

theorem single (h : Derives fits φ ts) : Derives fits (.seq [φ]) ts := by
  rw [← List.append_nil ts]
  exact seq h empty

/-- A repetition goes on at its end. -/
theorem star_append (h : Derives fits (.star φ) ts) (hus : Derives fits φ us) :
    Derives fits (.star φ) (ts ++ us) := by
  generalize hψ : Ebnf.star φ = ψ at h
  induction h with
  | done =>
    obtain rfl := Ebnf.star.inj hψ
    rw [List.nil_append, ← List.append_nil us]
    exact again hus done
  | again hts _ _ ih =>
    obtain rfl := Ebnf.star.inj hψ
    rw [List.append_assoc]
    exact again hts (ih rfl)
  | token | rule | empty | seq | alt | absent | present | list | last | next => cases hψ

/-- What is derived depends on the kinds of the tokens alone. -/
theorem of_kinds (h : Derives fits φ ts) (hk : us.map Token.kind = ts.map Token.kind) :
    Derives fits φ us := by
  induction h generalizing us with
  | token hx =>
    obtain ⟨t, rfl, ht⟩ := List.map_eq_singleton_iff.mp hk
    exact .token (ht ▸ hx)
  | rule _ ih => exact .rule (ih hk)
  | empty =>
    rw [List.map_eq_nil_iff.mp hk]
    exact .empty
  | seq _ _ ih ih' =>
    rw [List.map_append] at hk
    obtain ⟨vs, ws, rfl, hvs, hws⟩ := List.map_eq_append_iff.mp hk
    exact .seq (ih hvs) (ih' hws)
  | alt hφ _ ih => exact .alt hφ (ih hk)
  | absent =>
    rw [List.map_eq_nil_iff.mp hk]
    exact .absent
  | present _ ih => exact .present (ih hk)
  | done =>
    rw [List.map_eq_nil_iff.mp hk]
    exact .done
  | again _ _ ih ih' =>
    rw [List.map_append] at hk
    obtain ⟨vs, ws, rfl, hvs, hws⟩ := List.map_eq_append_iff.mp hk
    exact .again (ih hvs) (ih' hws)
  | list _ hfits ih => exact .list (ih hk) hfits
  | last _ ih => exact .last (ih hk)
  | next _ hcomma _ ih ih' =>
    rw [List.map_append, List.map_cons] at hk
    obtain ⟨vs, ws, rfl, hvs, hws⟩ := List.map_eq_append_iff.mp hk
    obtain ⟨comma, xs, rfl, hkind, hxs⟩ := List.map_eq_cons_iff.mp hws
    exact .next (ih hvs) (hkind.trans hcomma) (ih' hxs)

end Derives

end Ebnf

namespace Parser

open Ebnf

/-- The nonterminal for operands above a level. -/
def level : Nat → Nonterminal
  | 0 => .unary
  | 1 => .factor
  | 2 => .term
  | 3 => .comparison
  | 4 => .equality
  | 5 => .logicAnd
  | _ => .logicOr

/-- `( ( operator | … ) operand )*`, the operators being those of the level above. -/
def links (i : Nat) : Ebnf :=
  star (seq [alt ((operators (i + 1)).map symbol), rule (level i)])

theorem grammar_level {i : Nat} (h : i < 6) :
    grammar (level (i + 1)) = seq [rule (level i), links i] :=
  match i, h with
  | 0, _ | 1, _ | 2, _ | 3, _ | 4, _ | 5, _ => rfl

/-- A call or a property access, after the expression it applies to. -/
def suffix : Ebnf :=
  alt [seq [symbol .leftParen, opt (rule .arguments), symbol .rightParen], seq [symbol .dot, name]]

/-- Where the tree is one that can be assigned to, the tokens are a name, or a
call with a property behind it. -/
def Target (fits : Nat → Prop) : Expr → List Token → Prop
  | .var _, ts => ∃ t, ts = [t] ∧ t.IsName
  | .get _ n, ts => ∃ us dot, ts = us ++ [dot, n] ∧ dot.Is .dot ∧ n.IsName ∧
    Derives fits (rule .call) us
  | _, _ => True

/-- What the tokens of a phrase are derived from. -/
def Goal.Derived (fits : Nat → Prop) : Goal → List Token → Prop
  | .expression _, ts => Derives fits (rule .expression) ts
  | .operand i e, ts => i ≤ 6 → Derives fits (rule (level i)) ts ∧ Target fits e ts
  | .chain i left e, ts => i ≤ 6 → Derives fits (links (i - 1)) ts ∧
    (ts = [] ∧ e = left ∨ ∀ us, Target fits e us)
  | .unary e, ts => Derives fits (rule .unary) ts ∧ Target fits e ts
  | .primary e, ts => Derives fits (rule .primary) ts ∧ Target fits e ts
  | .suffixes left e, ts => Derives fits (star suffix) ts ∧
    (ts = [] ∧ e = left ∨ ∀ us, Derives fits (rule .call) us → Target fits e (us ++ ts))
  | .arguments _, ts => Derives fits (opt (rule .arguments)) ts
  | .items es, ts => Derives fits (entries es.length (rule .expression)) ts
  | .clause _, ts => Derives fits (opt (rule .expression)) ts
  | .parameters _, ts => Derives fits (opt (rule .parameters)) ts
  | .names ps, ts => Derives fits (entries ps.length name) ts
  | .binding _, ts => Derives fits (seq [name, opt (seq [symbol .equal, rule .expression]),
      symbol .semicolon]) ts
  | .initializer _, ts => Derives fits (alt [rule .varDecl, rule .exprStmt, symbol .semicolon]) ts
  | .statement _ _, ts => Derives fits (rule .statement) ts
  | .declaration _ _, ts => Derives fits (rule .declaration) ts
  | .declarations _, ts => Derives fits (star (rule .declaration)) ts
  | .routine _, ts => Derives fits (rule .function) ts
  | .methods _, ts => Derives fits (star (rule .function)) ts

section

variable {fits : Nat → Prop} {ts us : List Token} {a b e : Expr}

/-- A statement of one of the kinds of statements. -/
theorem derives_statement {n : Nonterminal} (hn : n ∈ [.exprStmt, .forStmt, .ifStmt, .printStmt,
    .returnStmt, .whileStmt, .block]) (h : Derives fits (grammar n) ts) :
    Derives fits (rule .statement) ts :=
  .rule (.alt (List.mem_map_of_mem (f := rule) hn) (.rule h))

theorem derives_expression {φ : Ebnf} (hφ : φ ∈ [seq [opt (seq [rule .call, symbol .dot]), name,
    symbol .equal, rule .assignment], rule .logicOr]) (h : Derives fits φ ts) :
    Derives fits (rule .expression) ts :=
  .rule (.rule (.alt hφ h))

/-- An expression is an assignment. -/
theorem derives_assignment (h : Derives fits (rule .expression) ts) :
    Derives fits (rule .assignment) ts := by
  cases h with
  | rule h => exact h

theorem derives_call (h : Derives fits (rule .primary) ts) (hs : Derives fits (star suffix) us) :
    Derives fits (rule .call) (ts ++ us) :=
  .rule (.seq h hs.single)

theorem derives_call_suffix (h : Derives fits (rule .call) ts) (hs : Derives fits suffix us) :
    Derives fits (rule .call) (ts ++ us) := by
  cases h with
  | rule h =>
    cases h with
    | seq hp h =>
      cases h with
      | seq hss h =>
        cases h
        rw [List.append_nil, List.append_assoc]
        exact derives_call hp (hss.star_append hs)

theorem derives_atom {t : Token} (h : atom? t = some e) :
    Derives fits (rule .primary) [t] ∧ Target fits e [t] := by
  have hprimary : ∀ x, x ∈ [Terminal.number, .string, .symbol .trueWord, .symbol .falseWord,
      .symbol .nilWord, .symbol .thisWord, .name] → x.Matches t.kind →
      Derives fits (rule .primary) [t] := fun x hx ht =>
    .rule (.alt (List.mem_append_left _ (List.mem_map_of_mem (f := terminal) hx)) (.token ht))
  unfold atom? at h
  split at h <;> rename_i hk <;> cases h
  · exact ⟨hprimary (.symbol .falseWord) (by simp) hk, trivial⟩
  · exact ⟨hprimary (.symbol .trueWord) (by simp) hk, trivial⟩
  · exact ⟨hprimary (.symbol .nilWord) (by simp) hk, trivial⟩
  · exact ⟨hprimary .number (by simp) ⟨_, hk⟩, trivial⟩
  · exact ⟨hprimary .string (by simp) ⟨_, hk⟩, trivial⟩
  · exact ⟨hprimary (.symbol .thisWord) (by simp) hk, trivial⟩
  · exact ⟨hprimary .name (by simp) hk, t, rfl, hk⟩

theorem target_operation (fits : Nat → Prop) (i : Nat) (op : Token) (a b : Expr)
    (us : List Token) : Target fits (operation i op a b) us := by
  unfold operation
  split <;> trivial

theorem derives_level {i : Nat} (ha : (Goal.operand i a).Derived fits ts)
    (he : (Goal.chain (i + 1) a e).Derived fits us) :
    (Goal.operand (i + 1) e).Derived fits (ts ++ us) := by
  intro hi
  obtain ⟨hts, htarget⟩ := ha (by omega)
  obtain ⟨hus, hend⟩ := he hi
  refine ⟨.rule ?_, ?_⟩
  · rw [grammar_level hi]
    exact .seq hts hus.single
  · rcases hend with ⟨rfl, rfl⟩ | h
    · rwa [List.append_nil]
    · exact h _

theorem derives_link {i : Nat} {op : Token} {s : Symbol} (hop : op.Is s)
    (hs : s ∈ operators (i + 1)) (hb : (Goal.operand i b).Derived fits ts)
    (he : (Goal.chain (i + 1) (operation (i + 1) op a b) e).Derived fits us) :
    (Goal.chain (i + 1) a e).Derived fits (op :: (ts ++ us)) := by
  intro hi
  obtain ⟨hts, -⟩ := hb (by omega)
  obtain ⟨hus, hend⟩ := he hi
  have hlink : Derives fits (seq [alt ((operators (i + 1)).map symbol), rule (level i)]) (op :: ts) :=
    .seq (.alt (List.mem_map_of_mem hs) (.symbol hop)) hts.single
  refine ⟨.again hlink hus, .inr ?_⟩
  rcases hend with ⟨-, rfl⟩ | h
  · exact target_operation fits _ op a b
  · exact h

theorem derives_unary (ha : (Goal.primary a).Derived fits ts)
    (he : (Goal.suffixes a e).Derived fits us) : (Goal.unary e).Derived fits (ts ++ us) := by
  obtain ⟨hus, hend⟩ := he
  refine ⟨.rule (.alt (φ := rule .call) (by simp) (derives_call ha.1 hus)), ?_⟩
  rcases hend with ⟨rfl, rfl⟩ | h
  · rw [List.append_nil]
    exact ha.2
  · have hcall : Derives fits (rule .call) (ts ++ []) := derives_call ha.1 .done
    rw [List.append_nil] at hcall
    exact h ts hcall

/-- What a suffix is applied to is a call up to there, whatever suffixes follow. -/
theorem derives_suffix {left : Expr} {vs : List Token} (hs : Derives fits suffix vs)
    (he : (Goal.suffixes left e).Derived fits us)
    (htarget : ∀ ws, Derives fits (rule .call) ws → Target fits left (ws ++ vs)) :
    (Goal.suffixes a e).Derived fits (vs ++ us) := by
  obtain ⟨hus, hend⟩ := he
  refine ⟨.again hs hus, .inr fun ws hws => ?_⟩
  rcases hend with ⟨rfl, rfl⟩ | h
  · rw [List.append_nil]
    exact htarget ws hws
  · rw [← List.append_assoc]
    exact h _ (derives_call_suffix hws hs)

theorem derives_apply {lp rp : Token} {es : List Expr} (hlp : lp.Is .leftParen)
    (hargs : (Goal.arguments es).Derived fits ts) (hrp : rp.Is .rightParen)
    (he : (Goal.suffixes (.call a rp es) e).Derived fits us) :
    (Goal.suffixes a e).Derived fits (lp :: (ts ++ rp :: us)) := by
  have hs : Derives fits suffix (lp :: (ts ++ [rp])) :=
    .alt (by simp) (.symbolThen hlp (.seq hargs (Derives.symbol hrp).single))
  rw [List.append_cons ts]
  exact derives_suffix hs he fun _ _ => trivial

theorem derives_property {dot n : Token} (hdot : dot.Is .dot) (hn : n.IsName)
    (he : (Goal.suffixes (.get a n) e).Derived fits us) :
    (Goal.suffixes a e).Derived fits (dot :: n :: us) := by
  have hs : Derives fits suffix [dot, n] :=
    .alt (φ := seq [symbol .dot, name]) (by simp) (.symbolThen hdot (Derives.name hn).single)
  exact derives_suffix hs he fun ws hws => ⟨ws, dot, rfl, hdot, hn, hws⟩

/-- An assignment to a name or to a property. -/
theorem derives_target {target v : Expr} {eq : Token}
    (htarget : (∃ r, target = .var r) ∨ ∃ o n, target = .get o n)
    (h : (Goal.operand 6 target).Derived fits ts) (heq : eq.Is .equal)
    (hv : (Goal.expression v).Derived fits us) : Derives fits (rule .expression) (ts ++ eq :: us) := by
  have hrest : Derives fits (seq [symbol .equal, rule .assignment]) (eq :: us) :=
    .symbolThen heq (derives_assignment hv).single
  obtain ⟨-, ht⟩ := h (Nat.le_refl 6)
  refine derives_expression (List.mem_cons_self ..) ?_
  rcases htarget with ⟨r, rfl⟩ | ⟨o, n, rfl⟩
  · obtain ⟨t, rfl, hname⟩ := ht
    exact Derives.absent.seq (.nameThen hname hrest)
  · obtain ⟨vs, dot, rfl, hdot, hn, hcall⟩ := ht
    rw [List.append_assoc]
    have hobject : Derives fits (opt (seq [rule .call, symbol .dot])) (vs ++ [dot]) :=
      .present (.seq hcall (Derives.symbol hdot).single)
    have hall := Derives.seq hobject (.nameThen hn hrest)
    rwa [List.append_assoc] at hall

end

/-- What can be read can be derived, if lists may have `maxArity` entries. -/
theorem Reads.derives {fits : Nat → Prop} (hfits : ∀ k ≤ maxArity, fits k) {goal : Goal}
    {ts : List Token} (h : Reads goal ts) : goal.Derived fits ts := by
  induction h with
  | plain _ ih => exact derives_expression (φ := rule .logicOr) (by simp) (ih (Nat.le_refl 6)).1
  | assign _ heq _ ih ihv => exact derives_target (.inl ⟨_, rfl⟩) ih heq ihv
  | set _ heq _ ih ihv => exact derives_target (.inr ⟨_, _, rfl⟩) ih heq ihv
  | bottom _ ih => exact fun _ => ih
  | level _ _ iha ihe => exact derives_level iha ihe
  | endOfChain => exact fun _ => ⟨.done, .inl ⟨rfl, rfl⟩⟩
  | link hop hs _ _ ihb ihe => exact derives_link hop hs ihb ihe
  | sign hop hs _ ih =>
    refine ⟨.rule (.alt (List.mem_cons_self ..) ?_), trivial⟩
    exact .seq (.alt (List.mem_map_of_mem (f := symbol) hs) (.symbol hop)) ih.1.single
  | call _ _ iha ihe => exact derives_unary iha ihe
  | endOfSuffixes => exact ⟨.done, .inl ⟨rfl, rfl⟩⟩
  | apply hlp _ hrp _ ihargs ihe => exact derives_apply hlp ihargs hrp ihe
  | property hdot hn _ ih => exact derives_property hdot hn ih
  | noArguments => exact .absent
  | arguments _ hlen ih => exact .present (.rule (.list ih (hfits _ hlen)))
  | item _ ih => exact .last ih
  | items _ hcomma _ ih ihes => exact .next ih hcomma ihes
  | atom h => exact derives_atom h
  | inherited hk hdot hn =>
    refine ⟨.rule (.alt (φ := seq [symbol .superWord, symbol .dot, Ebnf.name]) (by simp) ?_), trivial⟩
    exact .symbolThen hk (.symbolThen hdot (Derives.name hn).single)
  | group hlp _ hrp ih =>
    refine ⟨.rule (.alt (φ := seq [symbol .leftParen, rule .expression, symbol .rightParen])
      (by simp) ?_), trivial⟩
    exact .symbolThen hlp (.seq ih (Derives.symbol hrp).single)
  | noClause => exact .absent
  | clause _ ih => exact .present ih
  | expressionStatement _ hsemi ih =>
    exact derives_statement (n := .exprStmt) (by simp) (.seq ih (Derives.symbol hsemi).single)
  | print hk _ hsemi ih =>
    exact derives_statement (n := .printStmt) (by simp)
      (.symbolThen hk (.seq ih (Derives.symbol hsemi).single))
  | leave hk _ hsemi ih =>
    exact derives_statement (n := .returnStmt) (by simp)
      (.symbolThen hk (.seq ih (Derives.symbol hsemi).single))
  | block hlb _ hrb ih =>
    exact derives_statement (n := .block) (by simp)
      (.symbolThen hlb (.seq ih (Derives.symbol hrb).single))
  | loop hk hlp _ hrp _ ihc ihs =>
    exact derives_statement (n := .whileStmt) (by simp)
      (.symbolThen hk (.symbolThen hlp (.seq ihc (.symbolThen hrp ihs.single))))
  | @branch _ _ _ _ _ _ _ us hk hlp _ hrp _ ihc ihs =>
    refine derives_statement (n := .ifStmt) (by simp)
      (.symbolThen hk (.symbolThen hlp (.seq ihc (.symbolThen hrp ?_))))
    rw [← List.append_nil us]
    exact .seq ihs (Derives.single .absent)
  | choice hk hlp _ hrp _ hother _ ihc ihs iha =>
    refine derives_statement (n := .ifStmt) (by simp)
      (.symbolThen hk (.symbolThen hlp (.seq ihc (.symbolThen hrp ?_))))
    exact .seq ihs (Derives.single (.present (.symbolThen hother iha.single)))
  | forLoop hk hlp _ _ hsemi _ hrp _ ihi ihc ihe ihs =>
    refine derives_statement (n := .forStmt) (by simp) (.symbolThen hk (.symbolThen hlp ?_))
    exact .seq ihi (.seq ihc (.symbolThen hsemi (.seq ihe (.symbolThen hrp ihs.single))))
  | noInitializer hsemi => exact .alt (φ := symbol .semicolon) (by simp) (.symbol hsemi)
  | declareFirst hk _ ih => exact .alt (φ := rule .varDecl) (by simp) (.rule (.symbolThen hk ih))
  | expressionFirst _ hsemi ih =>
    exact .alt (φ := rule .exprStmt) (by simp) (.rule (.seq ih (Derives.symbol hsemi).single))
  | noParameters => exact .absent
  | parameters _ hlen ih => exact .present (.rule (.list ih (hfits _ hlen)))
  | name hp => exact .last (.name hp)
  | names hp hcomma _ ih => exact .next (.name hp) hcomma ih
  | uninitialized hn hsemi =>
    exact .nameThen hn (Derives.absent.seq (Derives.symbol hsemi).single)
  | initialized hn heq _ hsemi ih =>
    have hvalue := Derives.symbolThen heq ih.single
    exact .nameThen hn (.seq (.present hvalue) (Derives.symbol hsemi).single)
  | statement _ ih => exact .rule (.alt (φ := rule .statement) (by simp) ih)
  | binding hk _ ih => exact .rule (.alt (φ := rule .varDecl) (by simp) (.rule (.symbolThen hk ih)))
  | function hk _ ih =>
    exact .rule (.alt (φ := rule .funDecl) (by simp) (.rule (.symbolThen hk ih.single)))
  | base hk hn hlb _ hrb ih =>
    refine .rule (.alt (φ := rule .classDecl) (by simp) (.rule (.symbolThen hk (.nameThen hn ?_))))
    exact Derives.absent.seq (.symbolThen hlb (.seq ih (Derives.symbol hrb).single))
  | derived hk hn hlt hp hlb _ hrb ih =>
    refine .rule (.alt (φ := rule .classDecl) (by simp) (.rule (.symbolThen hk (.nameThen hn ?_))))
    exact .seq (.present (.symbolThen hlt (Derives.name hp).single))
      (.symbolThen hlb (.seq ih (Derives.symbol hrb).single))
  | noDeclarations => exact .done
  | declarations _ _ ihs ihl => exact .again ihs ihl
  | routine hn hlp _ hrp hlb _ hrb ihps ihl =>
    refine .rule (.nameThen hn (.symbolThen hlp (.seq ihps (.symbolThen hrp (Derives.single ?_)))))
    exact .rule (.symbolThen hlb (.seq ihl (Derives.symbol hrb).single))
  | noMethods => exact .done
  | methods _ _ ihr ihms => exact .again ihr ihms

end Parser

end Treewalk
