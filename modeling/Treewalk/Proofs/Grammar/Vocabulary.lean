import Treewalk.Proofs.Grammar.Sound
import Treewalk.Proofs.Vocabulary

/-!
# What is read over a vocabulary

If all tokens of a list belong to a vocabulary, so do the trees that are read from it and the
places of the faults that are reported, however many there are (`Program.ofTokens_over`). A
production makes no token of its own.
-/

namespace Treewalk

/-- A token that may be read: one of the vocabulary, and the name of a variable if it is a
name. -/
structure Vocabulary.Admits (V : Vocabulary) (t : Token) : Prop where
  token : V.token t
  name : t.IsName → V.name t.lexeme

/-- The diagnostic is one of the parser, at a token of the vocabulary. -/
def Diagnostic.SyntacticOver (V : Vocabulary) (d : Diagnostic) : Prop :=
  ∃ t f, V.token t ∧ d = .syntactic t f

/-- A cursor in a list of tokens that may be read. -/
structure Cursor.Over (V : Vocabulary) (c : Cursor) : Prop where
  rest : ∀ t ∈ c.rest, V.Admits t
  last : V.token c.last
  reports : ∀ d ∈ c.reports, d.SyntacticOver V

theorem Cursor.Over.peek {V : Vocabulary} {c : Cursor} (h : c.Over V) : V.token c.peek := by
  unfold Cursor.peek
  cases hrest : c.rest with
  | nil => exact h.last
  | cons t rest => exact (h.rest t (hrest ▸ List.mem_cons_self)).token

theorem Cursor.Over.record {V : Vocabulary} {c : Cursor} (h : c.Over V) {d : Diagnostic}
    (hd : d.SyntacticOver V) : (c.record d).Over V :=
  ⟨h.rest, h.last, List.forall_mem_cons.mpr ⟨hd, h.reports⟩⟩

theorem Cursor.Over.synchronize {V : Vocabulary} {c : Cursor} (h : c.Over V) :
    c.synchronize.Over V := by
  unfold Cursor.synchronize
  split
  · exact h
  · next t rest hrest =>
    refine ⟨fun u hu => h.rest u ?_, h.last, h.reports⟩
    rw [hrest]
    exact List.mem_cons_of_mem t ((Parser.boundary_suffix t rest).subset hu)

namespace Parser

variable {α β : Type} {V : Vocabulary}

/-- How a production ends over the vocabulary: with a result that `P` holds of or with a
fault at one of its tokens. -/
inductive Kept (V : Vocabulary) (P : α → Prop) : EStateM.Result Halt Cursor α → Prop
  | ok {a : α} {c : Cursor} : c.Over V → P a → Kept V P (.ok a c)
  | fault {d : Diagnostic} {c : Cursor} : c.Over V → d.SyntacticOver V →
    Kept V P (.error (.fault d) c)
  | exhausted {c : Cursor} : c.Over V → Kept V P (.error .exhausted c)

def Keeps (V : Vocabulary) (p : Parser α) (P : α → Prop) : Prop :=
  ∀ c : Cursor, c.Over V → Kept V P (p c)

variable {P : α → Prop} {Q : β → Prop}

theorem keeps_pure {a : α} (h : P a) : Keeps V (pure a) P :=
  fun _ hc => .ok hc h

theorem Keeps.bind {x : Parser α} {f : α → Parser β} (hx : Keeps V x P)
    (hf : ∀ a, P a → Keeps V (f a) Q) : Keeps V (x >>= f) Q := by
  intro c hc
  show Kept V Q (EStateM.bind x f c)
  unfold EStateM.bind
  have h := hx c hc
  generalize x c = r at h ⊢
  cases h with
  | ok hc' ha => exact hf _ ha _ hc'
  | fault hc' hd => exact .fault hc' hd
  | exhausted hc' => exact .exhausted hc'

theorem Keeps.imp {P' : α → Prop} {p : Parser α} (hp : Keeps V p P) (h : ∀ a, P a → P' a) :
    Keeps V p P' := by
  intro c hc
  have hk := hp c hc
  generalize p c = r at hk ⊢
  cases hk with
  | ok hc' ha => exact .ok hc' (h _ ha)
  | fault hc' hd => exact .fault hc' hd
  | exhausted hc' => exact .exhausted hc'

theorem keeps_exhausted : Keeps V (exhausted : Parser α) P :=
  fun _ hc => .exhausted hc

theorem keeps_fail (f : SyntaxFault) : Keeps V (fail f : Parser α) P :=
  fun _ hc => .fault hc ⟨_, f, hc.peek, rfl⟩

theorem keeps_report {t : Token} (ht : V.token t) (f : SyntaxFault) :
    Keeps V (report t f) fun _ => True :=
  fun _ hc => .ok (hc.record ⟨t, f, ht, rfl⟩) trivial

theorem keeps_peek : Keeps V peek V.token :=
  fun _ hc => .ok hc hc.peek

theorem keeps_atEnd : Keeps V atEnd fun _ => True :=
  fun _ hc => .ok hc trivial

theorem keeps_atAny (symbols : List Symbol) : Keeps V (atAny symbols) fun _ => True :=
  fun _ hc => .ok hc trivial

theorem keeps_acceptIf (p : Kind → Bool) :
    Keeps V (acceptIf p) fun o => ∀ t ∈ o, V.Admits t ∧ p t.kind = true := by
  rintro ⟨rest, last, reports⟩ hc
  unfold acceptIf
  cases rest with
  | nil => exact .ok hc fun _ h => nomatch h
  | cons t rest =>
    obtain ⟨ht, hrest⟩ := List.forall_mem_cons.mp hc.rest
    dsimp only
    split
    · next hp =>
      refine .ok ⟨hrest, hc.last, hc.reports⟩ fun u hu => ?_
      cases hu
      exact ⟨ht, hp⟩
    · exact .ok hc fun _ h => nomatch h

theorem keeps_acceptAny (symbols : List Symbol) :
    Keeps V (acceptAny symbols) fun o => ∀ t ∈ o, V.token t :=
  (keeps_acceptIf _).imp fun _ ho t ht => (ho t ht).1.token

theorem keeps_accept (s : Symbol) : Keeps V (accept s) fun o => ∀ t ∈ o, V.token t :=
  keeps_acceptAny [s]

theorem keeps_expectIf (p : Kind → Bool) (what : String) :
    Keeps V (expectIf p what) fun t => V.Admits t ∧ p t.kind = true := by
  refine (keeps_acceptIf p).bind fun o ho => ?_
  cases o with
  | some t => exact keeps_pure (ho t rfl)
  | none => exact keeps_fail _

theorem keeps_expect (s : Symbol) (what : String) : Keeps V (expect s what) V.token :=
  (keeps_expectIf _ what).imp fun _ h => h.1.token

theorem keeps_expectName (what : String) : Keeps V (expectName what) V.Binds :=
  (keeps_expectIf _ what).imp fun _ h => ⟨h.1.token, h.1.name (of_decide_eq_true h.2)⟩

/-! ## Expressions -/

section

variable {argument operand value unary inner : Parser Expr}

theorem keeps_chain {node : Token → Expr → Expr → Expr}
    (hnode : ∀ t a b, V.token t → a.Over V → b.Over V → (node t a b).Over V)
    (symbols : List Symbol) (hop : Keeps V operand (Expr.Over V)) (n : Nat) {left : Expr}
    (hleft : left.Over V) : Keeps V (chain node symbols operand n left) (Expr.Over V) := by
  induction n generalizing left with
  | zero => exact keeps_exhausted
  | succ n ih =>
    refine (keeps_acceptAny symbols).bind fun o ho => ?_
    cases o with
    | none => exact keeps_pure hleft
    | some t => exact hop.bind fun b hb => ih (hnode t left b (ho t rfl) hleft hb)

theorem keeps_ladder (hu : Keeps V unary (Expr.Over V)) (n i : Nat) :
    Keeps V (ladder unary n i) (Expr.Over V) := by
  have hnode : ∀ i t a b, V.token t → a.Over V → b.Over V → (operation i t a b).Over V := by
    intro i t a b ht ha hb
    unfold operation
    split
    · exact .binary ht ha hb
    · exact .logical ht ha hb
  induction i with
  | zero => exact hu
  | succ i ih => exact ih.bind fun _ ha => keeps_chain (hnode _) _ ih n ha

theorem keeps_assignment (hop : Keeps V operand (Expr.Over V)) (hv : Keeps V value (Expr.Over V)) :
    Keeps V (assignment operand value) (Expr.Over V) := by
  refine hop.bind fun target htarget => (keeps_accept _).bind fun o ho => ?_
  cases o with
  | none => exact keeps_pure htarget
  | some equals =>
    refine hv.bind fun v hv => ?_
    have hother : Keeps V (do report equals .invalidTarget; pure target) (Expr.Over V) :=
      (keeps_report (ho equals rfl) _).bind fun _ _ => keeps_pure htarget
    cases target with
    | var r =>
      cases htarget with
      | var hr => exact keeps_pure (.assign hr hv)
    | get o n =>
      cases htarget with
      | get hobject hn => exact keeps_pure (.set hobject hn hv)
    | literal | unary | binary | logical | group | assign | call | set | receiver | inherited =>
      exact hother

/-- A list with an item too many is reported at the token in front. -/
theorem keeps_full {γ : Type} (found : List γ) (f : SyntaxFault) {p : Parser β} (hp : Keeps V p Q) :
    Keeps V (if isFull found then peek >>= fun t => report t f >>= fun _ => p else p) Q := by
  split
  · exact keeps_peek.bind fun _ ht => (keeps_report ht f).bind fun _ _ => hp
  · exact hp

theorem forall_mem_reverse_cons {γ : Type} {R : γ → Prop} {a : γ} {l : List γ} (ha : R a)
    (hl : ∀ x ∈ l, R x) : ∀ x ∈ (a :: l).reverse, R x :=
  fun x hx => List.forall_mem_cons.mpr ⟨ha, hl⟩ x (List.mem_reverse.mp hx)

theorem keeps_arguments (ha : Keeps V argument (Expr.Over V)) (n : Nat) {found : List Expr}
    (hfound : ∀ e ∈ found, e.Over V) :
    Keeps V (arguments argument n found) fun es => ∀ e ∈ es, e.Over V := by
  induction n generalizing found with
  | zero => exact keeps_exhausted
  | succ n ih =>
    refine keeps_full found _ (ha.bind fun e he => (keeps_accept _).bind fun o _ => ?_)
    cases o with
    | some _ => exact ih (List.forall_mem_cons.mpr ⟨he, hfound⟩)
    | none => exact keeps_pure (forall_mem_reverse_cons he hfound)

/-- A list that may be empty, and what follows it. -/
theorem keeps_unlessEmpty {γ : Type} {R : γ → Prop} {items : Parser (List γ)} {f : List γ → Parser β}
    (hitems : Keeps V items fun l => ∀ x ∈ l, R x)
    (hf : ∀ l, (∀ x ∈ l, R x) → Keeps V (f l) Q) (b : Bool) :
    Keeps V (if b then pure [] >>= f else items >>= f) Q := by
  cases b with
  | true => exact (keeps_pure (List.forall_mem_nil R)).bind hf
  | false => exact hitems.bind hf

theorem keeps_call (ha : Keeps V argument (Expr.Over V)) (n : Nat) {callee : Expr}
    (hcallee : callee.Over V) : Keeps V (call argument n callee) (Expr.Over V) := by
  refine (keeps_atAny _).bind fun b _ => keeps_unlessEmpty (keeps_arguments ha n (List.forall_mem_nil _)) ?_ b
  exact fun _ hargs => (keeps_expect _ _).bind fun _ hp => keeps_pure (.call hcallee hp hargs)

theorem keeps_suffixes (ha : Keeps V argument (Expr.Over V)) (n : Nat) {e : Expr} (he : e.Over V) :
    Keeps V (suffixes argument n e) (Expr.Over V) := by
  induction n generalizing e with
  | zero => exact keeps_exhausted
  | succ n ih =>
    refine (keeps_accept _).bind fun o _ => ?_
    cases o with
    | some _ => exact (keeps_call ha n he).bind fun _ he' => ih he'
    | none =>
      refine (keeps_accept _).bind fun o _ => ?_
      cases o with
      | some _ => exact (keeps_expectName _).bind fun _ hn => ih (.get he hn.token)
      | none => exact keeps_pure he

theorem over_atom? {t : Token} (ht : V.Admits t) {e : Expr} (h : atom? t = some e) : e.Over V := by
  unfold atom? at h
  split at h <;> cases h
  case h_6 => exact .receiver ht.token
  case h_7 hk => exact .var ⟨ht.token, ht.name hk⟩
  all_goals exact .literal _

theorem keeps_acceptAtom : Keeps V acceptAtom fun o => ∀ e ∈ o, e.Over V := by
  rintro ⟨rest, last, reports⟩ hc
  unfold acceptAtom
  cases rest with
  | nil => exact .ok hc fun _ h => nomatch h
  | cons t rest =>
    obtain ⟨ht, hrest⟩ := List.forall_mem_cons.mp hc.rest
    dsimp only
    split
    · next e he =>
      refine .ok ⟨hrest, hc.last, hc.reports⟩ fun x hx => ?_
      cases hx
      exact over_atom? ht he
    · exact .ok hc fun _ h => nomatch h

theorem keeps_primary (hin : Keeps V inner (Expr.Over V)) : Keeps V (primary inner) (Expr.Over V) := by
  refine keeps_acceptAtom.bind fun o ho => ?_
  cases o with
  | some e => exact keeps_pure (ho e rfl)
  | none =>
    refine (keeps_accept _).bind fun o ho => ?_
    cases o with
    | some k =>
      exact (keeps_expect _ _).bind fun _ _ => (keeps_expectName _).bind fun _ hn =>
        keeps_pure (.inherited (ho k rfl) hn.token)
    | none =>
      refine (keeps_accept _).bind fun o _ => ?_
      cases o with
      | some _ => exact hin.bind fun _ he => (keeps_expect _ _).bind fun _ _ => keeps_pure (.group he)
      | none => exact keeps_fail _

theorem keeps_signed (hu : Keeps V unary (Expr.Over V)) (hin : Keeps V inner (Expr.Over V)) (n : Nat) :
    Keeps V (signed unary inner n) (Expr.Over V) := by
  refine (keeps_acceptAny _).bind fun o ho => ?_
  cases o with
  | some op => exact hu.bind fun _ he => keeps_pure (.unary (ho op rfl) he)
  | none => exact (keeps_primary hin).bind fun _ he => keeps_suffixes hin n he

end

theorem keeps_expressions (n : Nat) :
    Keeps V (expression n) (Expr.Over V) ∧ Keeps V (unary n) (Expr.Over V) := by
  induction n with
  | zero =>
    rw [expression, unary]
    exact ⟨keeps_exhausted, keeps_exhausted⟩
  | succ n ih =>
    rw [expression_succ, unary_succ, disjunction_eq]
    exact ⟨keeps_assignment (keeps_ladder ih.2 n 6) ih.1, keeps_signed ih.2 ih.1 n⟩

/-! ## Statements -/

section

variable {expr : Parser Expr} {stmt : Parser Stmt} {decl : Parser (Option Stmt)}
  (hexpr : Keeps V expr (Expr.Over V)) (hstmt : Keeps V stmt (Stmt.Over V))
  (hdecl : Keeps V decl fun o => ∀ s ∈ o, s.Over V)

include hdecl in
theorem keeps_declarations {stop : Parser Bool} (hstop : Keeps V stop fun _ => True) (n : Nat)
    {found : List Stmt} (hfound : ∀ s ∈ found, s.Over V) :
    Keeps V (declarations stop decl n found) fun l => ∀ s ∈ l, s.Over V := by
  induction n generalizing found with
  | zero => exact keeps_exhausted
  | succ n ih =>
    refine hstop.bind fun b _ => ?_
    split
    · exact keeps_pure fun s hs => hfound s (List.mem_reverse.mp hs)
    · refine hdecl.bind fun o ho => ?_
      cases o with
      | some s => exact ih (List.forall_mem_cons.mpr ⟨ho s rfl, hfound⟩)
      | none => exact ih hfound

theorem keeps_atBlockEnd : Keeps V atBlockEnd fun _ => True := by
  refine keeps_atEnd.bind fun b _ => ?_
  split
  · exact keeps_pure trivial
  · exact keeps_atAny _

include hdecl in
theorem keeps_block (n : Nat) : Keeps V (block decl n) fun l => ∀ s ∈ l, s.Over V :=
  (keeps_declarations hdecl keeps_atBlockEnd n (List.forall_mem_nil _)).bind fun _ hb =>
    (keeps_expect _ _).bind fun _ _ => keeps_pure hb

theorem keeps_parameters (n : Nat) {found : List Token} (hfound : ∀ p ∈ found, V.Binds p) :
    Keeps V (parameters n found) fun l => ∀ p ∈ l, V.Binds p := by
  induction n generalizing found with
  | zero => exact keeps_exhausted
  | succ n ih =>
    refine keeps_full found _ ((keeps_expectName _).bind fun p hp => (keeps_accept _).bind fun o _ => ?_)
    cases o with
    | some _ => exact ih (List.forall_mem_cons.mpr ⟨hp, hfound⟩)
    | none => exact keeps_pure (forall_mem_reverse_cons hp hfound)

include hdecl in
/-- The name of a routine may be that of a variable, and the rest is over the vocabulary. -/
theorem keeps_routine (sort : String) (n : Nat) :
    Keeps V (routine decl sort n) fun r => V.Binds r.name ∧ r.Over V := by
  refine (keeps_expectName _).bind fun _ hn => (keeps_expect _ _).bind fun _ _ => ?_
  refine (keeps_atAny _).bind fun b _ => keeps_unlessEmpty (keeps_parameters n (List.forall_mem_nil _)) ?_ b
  intro _ hps
  refine (keeps_expect _ _).bind fun _ _ => (keeps_expect _ _).bind fun _ _ => ?_
  exact (keeps_block hdecl n).bind fun _ hb => keeps_pure ⟨hn, hn.token, hps, hb⟩

include hdecl in
theorem keeps_methods (n : Nat) {found : List (Routine Stmt)} (hfound : ∀ r ∈ found, r.Over V) :
    Keeps V (methods decl n found) fun l => ∀ r ∈ l, r.Over V := by
  induction n generalizing found with
  | zero => exact keeps_exhausted
  | succ n ih =>
    refine keeps_atBlockEnd.bind fun b _ => ?_
    split
    · exact keeps_pure fun r hr => hfound r (List.mem_reverse.mp hr)
    · exact (keeps_routine hdecl _ n).bind fun _ hr => ih (List.forall_mem_cons.mpr ⟨hr.2, hfound⟩)

include hdecl in
theorem keeps_classDecl (n : Nat) : Keeps V (classDecl decl n) (Stmt.Over V) := by
  refine (keeps_expectName _).bind fun name hn => ?_
  have hbody : ∀ r : Option Reference, (∀ x ∈ r, V.token x.name) → Keeps V (do
      let _ ← expect .leftBrace "'\x7b' before class body"
      let found ← methods decl n []
      let _ ← expect .rightBrace "'\x7d' after class body"
      pure (.classDecl name r found)) (Stmt.Over V) := fun r hr =>
    (keeps_expect _ _).bind fun _ _ => (keeps_methods hdecl n (List.forall_mem_nil _)).bind fun _ hms =>
      (keeps_expect _ _).bind fun _ _ => keeps_pure (Stmt.over_classDecl hn hr hms)
  refine (keeps_accept _).bind fun o _ => ?_
  cases o with
  | some _ =>
    refine (keeps_expectName _).bind fun r hr => hbody (some ⟨r, none⟩) fun x hx => ?_
    cases hx
    exact hr.token
  | none => exact hbody none fun _ h => nomatch h

include hexpr in
theorem keeps_variableDecl : Keeps V (variableDecl expr) (Stmt.Over V) := by
  refine (keeps_expectName _).bind fun name hn => (keeps_accept _).bind fun o _ => ?_
  cases o with
  | some _ =>
    refine hexpr.bind fun e he => (keeps_expect _ _).bind fun _ _ => keeps_pure (.declare hn ?_)
    rintro x ⟨⟩
    exact he
  | none => exact (keeps_expect _ _).bind fun _ _ => keeps_pure (.declare hn fun _ h => nomatch h)

include hexpr in
theorem keeps_expressionStatement : Keeps V (expressionStatement expr) (Stmt.Over V) :=
  hexpr.bind fun _ he => (keeps_expect _ _).bind fun _ _ => keeps_pure (.expression he)

include hexpr in
theorem keeps_unlessAt (close : Symbol) :
    Keeps V (unlessAt close expr) fun o => ∀ e ∈ o, e.Over V := by
  refine (keeps_atAny _).bind fun b _ => ?_
  split
  · exact keeps_pure fun _ h => nomatch h
  · refine hexpr.bind fun e he => keeps_pure ?_
    rintro x ⟨⟩
    exact he

include hexpr in
theorem keeps_initializer : Keeps V (initializer expr) fun o => ∀ s ∈ o, s.Over V := by
  have hsome : ∀ {p : Parser Stmt}, Keeps V p (Stmt.Over V) →
      Keeps V (do pure (some (← p))) fun o => ∀ s ∈ o, s.Over V := by
    intro p hp
    refine hp.bind fun s hs => keeps_pure ?_
    rintro x ⟨⟩
    exact hs
  refine (keeps_accept _).bind fun o _ => ?_
  cases o with
  | some _ =>
    refine keeps_pure ?_
    rintro _ ⟨⟩
  | none =>
    refine (keeps_accept _).bind fun o _ => ?_
    cases o with
    | some _ => exact hsome (keeps_variableDecl hexpr)
    | none => exact hsome (keeps_expressionStatement hexpr)

theorem over_forLoop {init : Option Stmt} {c e : Option Expr} {s : Stmt}
    (hinit : ∀ x ∈ init, x.Over V) (hc : ∀ x ∈ c, x.Over V) (he : ∀ x ∈ e, x.Over V)
    (hs : s.Over V) : (Stmt.forLoop init c e s).Over V := by
  have hcondition : (c.getD (.literal (.bool true))).Over V := by
    cases c with
    | none => exact .literal _
    | some c => exact hc c rfl
  have hbody : ∀ e : Expr, e.Over V → Stmt.Over V (.block [s, .expression e]) := fun e he =>
    .block (by simpa using ⟨hs, .expression he⟩)
  have hloop : Stmt.Over V (.forLoop none c e s) := by
    cases e with
    | none => exact .loop hcondition hs
    | some e => exact .loop hcondition (hbody e (he e rfl))
  cases init with
  | none => exact hloop
  | some i => exact .block (by simpa using ⟨hinit i rfl, hloop⟩)

include hexpr hstmt in
theorem keeps_forStatement : Keeps V (forStatement expr stmt) (Stmt.Over V) := by
  refine (keeps_expect _ _).bind fun _ _ => (keeps_initializer hexpr).bind fun _ hinit => ?_
  refine (keeps_unlessAt hexpr _).bind fun _ hc => (keeps_expect _ _).bind fun _ _ => ?_
  refine (keeps_unlessAt hexpr _).bind fun _ he => (keeps_expect _ _).bind fun _ _ => ?_
  exact hstmt.bind fun _ hs => keeps_pure (over_forLoop hinit hc he hs)

include hexpr hstmt in
theorem keeps_ifStatement : Keeps V (ifStatement expr stmt) (Stmt.Over V) := by
  refine (keeps_expect _ _).bind fun _ _ => hexpr.bind fun _ hc => (keeps_expect _ _).bind fun _ _ => ?_
  refine hstmt.bind fun _ hs => (keeps_accept _).bind fun o _ => ?_
  cases o with
  | some _ =>
    refine hstmt.bind fun a ha => keeps_pure (.branch hc hs ?_)
    rintro x ⟨⟩
    exact ha
  | none =>
    refine keeps_pure (.branch hc hs ?_)
    rintro _ ⟨⟩

include hexpr hstmt in
theorem keeps_whileStatement : Keeps V (whileStatement expr stmt) (Stmt.Over V) := by
  refine (keeps_expect _ _).bind fun _ _ => hexpr.bind fun _ hc => (keeps_expect _ _).bind fun _ _ => ?_
  exact hstmt.bind fun _ hs => keeps_pure (.loop hc hs)

include hexpr in
theorem keeps_returnStatement {t : Token} (ht : V.token t) :
    Keeps V (returnStatement expr t) (Stmt.Over V) :=
  (keeps_unlessAt hexpr _).bind fun _ he => (keeps_expect _ _).bind fun _ _ =>
    keeps_pure (.leave ht he)

include hexpr in
theorem keeps_printStatement : Keeps V (printStatement expr) (Stmt.Over V) :=
  hexpr.bind fun _ he => (keeps_expect _ _).bind fun _ _ => keeps_pure (.print he)

include hexpr hstmt hdecl in
theorem keeps_statementOver (n : Nat) : Keeps V (statementOver expr stmt decl n) (Stmt.Over V) := by
  refine (keeps_acceptAny _).bind fun o ho => ?_
  cases o with
  | none => exact keeps_expressionStatement hexpr
  | some t =>
    dsimp only
    split
    · exact keeps_forStatement hexpr hstmt
    · exact keeps_ifStatement hexpr hstmt
    · exact keeps_whileStatement hexpr hstmt
    · exact keeps_returnStatement hexpr (ho t rfl)
    · exact (keeps_block hdecl n).bind fun _ hb => keeps_pure (.block hb)
    · exact keeps_printStatement hexpr

include hexpr hstmt hdecl in
theorem keeps_declarationOver (n : Nat) :
    Keeps V (declarationOver expr stmt decl n) (Stmt.Over V) := by
  refine (keeps_acceptAny _).bind fun o _ => ?_
  cases o with
  | none => exact hstmt
  | some t =>
    dsimp only
    split
    · exact keeps_classDecl hdecl n
    · exact (keeps_routine hdecl _ n).bind fun r hr =>
        keeps_pure (.function hr.1 hr.2.params hr.2.body)
    · exact keeps_variableDecl hexpr

end

theorem keeps_recover {p : Parser Stmt} (hp : Keeps V p (Stmt.Over V)) :
    Keeps V (recover p) fun o => ∀ s ∈ o, s.Over V := by
  intro c hc
  have h := hp c hc
  unfold recover
  generalize p c = r at h ⊢
  cases h with
  | ok hc' hs =>
    refine .ok hc' ?_
    rintro x ⟨⟩
    exact hs
  | fault hc' hd =>
    refine .ok (hc'.record hd).synchronize ?_
    rintro _ ⟨⟩
  | exhausted hc' => exact .exhausted hc'

theorem keeps_statements (n : Nat) :
    Keeps V (statement n) (Stmt.Over V) ∧ Keeps V (declaration n) fun o => ∀ s ∈ o, s.Over V := by
  induction n with
  | zero =>
    rw [statement, declaration]
    exact ⟨keeps_exhausted, keeps_exhausted⟩
  | succ n ih =>
    rw [statement_succ, declaration_succ]
    have hexpr : Keeps V (expression n) (Expr.Over V) := (keeps_expressions n).1
    exact ⟨keeps_statementOver hexpr ih.1 ih.2 n,
      keeps_recover (keeps_declarationOver hexpr ih.1 ih.2 n)⟩

end Parser

/-- What is read from a list of tokens, and what is reported about it. If the list has no end
of file, one is supplied. -/
theorem Program.ofTokens_over {V : Vocabulary} {tokens : List Token}
    (h : ∀ t ∈ tokens, V.Admits t) (hlast : V.token (Cursor.start tokens).last) :
    (Program.ofTokens tokens).1.Over V ∧
      ∀ d ∈ (Program.ofTokens tokens).2, d.SyntacticOver V := by
  have hstart : (Cursor.start tokens).Over V :=
    ⟨fun t ht => h t ((List.takeWhile_prefix _).subset ht), hlast, List.forall_mem_nil _⟩
  have hread := Parser.keeps_declarations (Parser.keeps_statements (Parser.fuelFor tokens)).2
    Parser.keeps_atEnd (Parser.fuelFor tokens) (List.forall_mem_nil _) _ hstart
  unfold Program.ofTokens Parser.program
  generalize Parser.declarations Parser.atEnd _ _ [] (Cursor.start tokens) = r at hread ⊢
  cases hread with
  | ok hc hp => exact ⟨hp, fun d hd => hc.reports d (List.mem_reverse.mp hd)⟩
  | fault hc _ => exact ⟨List.forall_mem_nil _, fun d hd => hc.reports d (List.mem_reverse.mp hd)⟩
  | exhausted hc => exact ⟨List.forall_mem_nil _, fun d hd => hc.reports d (List.mem_reverse.mp hd)⟩

end Treewalk
