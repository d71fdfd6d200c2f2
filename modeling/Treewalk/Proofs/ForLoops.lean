import Treewalk.Proofs.ForLoops.Turns
import Treewalk.Proofs.LexicalDistance
import Treewalk.Proofs.Surroundings
import Treewalk.Proofs.Termination
import Treewalk.Proofs.Units

/-!
# Lowering `for` keeps its meaning

What the parser returns for a `for` statement is a tree without a node of its own for it. In an
accepted unit this tree is the one of the clauses that are written there (`Written`), with the
distances that belong to their places, and it runs as the statement does
(`ForLoop.runs_as_written`). The blocks that the tree has more than the text shift the recorded
distances, and add a scope to every turn. Neither is noticed: the additional scope is counted
wherever it exists, and it is always empty.
-/

namespace Treewalk

open Eval

namespace ForLoop

/-! ## What is written and what is resolved -/

/-- The tokens after the word `for`, with what the four clauses are read as. -/
inductive Written (dangling : Bool) (init : Option Stmt) (c e : Option Expr) (body : Stmt) :
    List Token → Prop
  | clauses {lp semi rp : Token} {ts us vs ws : List Token} : lp.Is .leftParen →
    Parser.Reads (.initializer init) ts → Parser.Reads (.clause c) us → semi.Is .semicolon →
    Parser.Reads (.clause e) vs → rp.Is .rightParen → Parser.Reads (.statement dangling body) ws →
    Written dangling init c e body (lp :: (ts ++ (us ++ semi :: (vs ++ rp :: ws))))

theorem symbol_eq {k k' : Token} {ts rest : List Token} {w : Symbol} (hk : k.Is .forWord)
    (h : k :: ts = k' :: rest) (hk' : k'.Is w) : w = .forWord := by
  obtain ⟨rfl, -⟩ := List.cons.inj h
  exact Kind.symbol.inj (hk'.symm.trans hk)

/-- A statement that begins with `for` is read as the tree of its clauses. -/
theorem exists_written {d : Bool} {s : Stmt} {k : Token} {ts : List Token}
    (h : Parser.Reads (.statement d s) (k :: ts)) (hk : k.Is .forWord) :
    ∃ init c e body, s = .forLoop init c e body ∧ Written d init c e body ts := by
  generalize hall : k :: ts = all at h
  cases h with
  | @expressionStatement e semi us he hsemi =>
    -- no token of an expression begins a loop
    cases us with
    | nil => cases symbol_eq hk hall hsemi
    | cons u us =>
      obtain ⟨rfl, -⟩ := List.cons.inj hall
      have hfree := he.loopFree_eq
      simp [Parser.Goal.loopFree, Token.beginsLoop, hk] at hfree
  | print hk' | leave hk' | block hk' | loop hk' | branch hk' | choice hk' =>
    cases symbol_eq hk hall hk'
  | @forLoop init c e _ body _ lp semi rp us vs ws xs _ hlp hinit hc hsemi he hrp hbody =>
    obtain ⟨-, rfl⟩ := List.cons.inj hall
    exact ⟨init, c, e, body, rfl, .clauses hlp hinit hc hsemi he hrp hbody⟩

/-- A program of one statement that begins with `for`. -/
theorem exists_statement {s : Stmt} {k : Token} {ts : List Token}
    (h : Parser.Reads (.declarations [s]) (k :: ts)) (hk : k.Is .forWord) :
    ∃ d, Parser.Reads (.statement d s) (k :: ts) := by
  generalize hall : k :: ts = all at h ⊢
  cases h with | @declarations d _ _ us _ hs hnone =>
  cases hnone
  rw [List.append_nil] at hall ⊢
  refine ⟨d, ?_⟩
  cases hs with
  | statement h => exact h
  | binding hk' | function hk' | base hk' | derived hk' => cases symbol_eq hk hall hk'

end ForLoop

/-- Recording distances declares nothing. -/
theorem Stmt.Bare.inert_record {s : Stmt} (h : s.Bare) (hq : s.Quiet) (cls : ClassBody)
    (scopes : List (List String)) : (s.record cls scopes).Inert := by
  induction h generalizing scopes with
  | expression | print | block | leave => trivial
  | declare | function | classDecl => exact hq.elim
  | @branch c s a _ _ hs _ ha ih iha =>
    cases a with
    | none => exact ih hs scopes
    | some a => exact ⟨ih hs scopes, iha a rfl (ha a rfl) scopes⟩
  | loop _ _ hs ih => exact ih hs scopes

theorem Stmt.erase_record? (cls : ClassBody) (scopes : List (List String)) {s : Option Stmt}
    (h : ∀ t ∈ s, t.Bare) : (s.map (Stmt.record cls scopes)).map Stmt.erase = s := by
  cases s with
  | none => rfl
  | some s => rw [Option.map_some, Option.map_some, Stmt.erase_record cls scopes (h s rfl)]

namespace ForLoop

variable {init : Option Stmt} {c e : Option Expr} {body : Stmt}

/-- The clauses get their distances one by one. -/
theorem Written.exists_record {d : Bool} {ts : List Token} (h : Written d init c e body ts)
    (cls : ClassBody) (scopes : List (List String)) :
    ∃ init' c' e' body', (Stmt.forLoop init c e body).record cls scopes =
        .forLoop init' c' e' body' ∧ init'.map Stmt.erase = init ∧ c'.map Expr.erase = c ∧
      e'.map Expr.erase = e ∧ body'.erase = body ∧ body'.Inert ∧ body'.declared = [] := by
  obtain ⟨hinit, hc, he, hb, hq⟩ : (∀ s ∈ init, s.Bare) ∧ (∀ x ∈ c, x.Bare) ∧
      (∀ x ∈ e, x.Bare) ∧ body.Bare ∧ body.Quiet := by
    cases h with
    | clauses _ hi hc _ he _ hb => exact ⟨hi.bare, hc.bare, he.bare, hb.bare⟩
  -- the scopes in front of the loop and those in front of a turn
  let inside := init.elim scopes fun s => declareIn ([] :: scopes) (Stmt.label s.declared)
  let before := e.elim inside fun _ => [] :: inside
  refine ⟨init.map (Stmt.record cls ([] :: scopes)), c.map (Expr.record cls inside),
    e.map (Expr.record cls (declareIn before (Stmt.label body.declared))), body.record cls before,
    ?_, Stmt.erase_record? cls _ hinit, Expr.erase_record? cls _ hc, Expr.erase_record? cls _ he,
    Stmt.erase_record cls _ hb, hb.inert_record hq cls _, ?_⟩
  · cases init <;> cases c <;> cases e <;> rfl
  · rw [Stmt.declared_record, hq.declared_eq]

end ForLoop

/-- Every occurrence in a program has its lexical distance, if tokens are spelled as their kinds
say. -/
theorem Program.Mentions.depth_eq {tokens : List Token} {p : Program}
    (h : Program.ofTokens tokens = (p, [])) (hspelled : ∀ t ∈ tokens, t.Spelled)
    {around : List Body} {r : Reference} (hr : p.resolve.1.Mentions around r) :
    r.depth = lexicalDistance around r.name.lexeme := by
  have hb := Program.bare_of_ofTokens h
  have heq := Program.resolve_eq_record hb
  rcases hr with ⟨n, ms, hs⟩ | ⟨e, he, href⟩
  · exact Program.Holds.superclass_depth hb (heq ▸ hs)
  · obtain ⟨a, ha, rfl⟩ := Program.HoldsExpr.recorded hb (heq ▸ he)
    rcases Expr.depth_of_record ha href with hdepth | ⟨hclass, hreceiver, hdepth, hthis⟩
    · exact hdepth
    · have hover := Program.over_spelled hspelled h
      rw [hdepth, Program.HoldsExpr.this_distance hover (hreceiver ▸ he) hclass hthis]

theorem Program.HoldsNode.mentions {p : Program} {around : List Body} {node : Node} {r : Reference}
    (h : p.HoldsNode around node) (hr : node.reference? = some r) : p.Mentions around r := by
  cases node with
  | expr e => exact .inr ⟨e, h, hr⟩
  | stmt s =>
    cases s with
    | classDecl n superclass ms =>
      obtain rfl : superclass = some r := hr
      exact .inl ⟨n, ms, h⟩
    | expression | print | declare | block | branch | loop | function | leave => cases hr

/-- A name that is declared around some bodies and not inside of them is as far away as they
have scopes. -/
theorem lexicalDistance_of_inner {inner around : List Body} {b : Body} {name : String}
    (hb : name ∈ b.names) (hinner : ∀ names ∈ scopesAround inner, name ∉ names) :
    lexicalDistance (inner ++ b :: around) name = some (scopesAround inner).length := by
  have hnone : ((scopesAround inner).findIdx? fun names => decide (name ∈ names)) = none :=
    List.findIdx?_eq_none_iff.mpr fun names hmem => decide_eq_false (hinner names hmem)
  have hscopes : scopesAround (inner ++ b :: around) =
      scopesAround inner ++ (b.names :: (b.owner.keywords ++ scopesAround around)) := by
    simp [scopesAround, Body.scopes]
  rw [lexicalDistance, hscopes, List.findIdx?_append, hnone]
  simp [List.findIdx?_cons, hb]

theorem mem_names_declare (x : Token) (v : Option Expr) (l : List Stmt) :
    x.lexeme ∈ Body.names ⟨.block, [], .declare x v :: l⟩ := by
  simp [Body.names, Stmt.declaredIn, Stmt.declaredAll, Stmt.declared, Stmt.label]

/-- A name that is declared in front of a loop and not inside it is as far away as there are
scopes inside the loop. -/
theorem lexicalDistance_of_turn {inner around : List Body} {l l' : List Stmt} {x : Token}
    {v : Option Expr} (hl : Stmt.declaredAll l = [])
    (hinner : ∀ names ∈ scopesAround inner, x.lexeme ∉ names) :
    lexicalDistance (inner ++ ⟨.block, [], l⟩ :: ⟨.block, [], .declare x v :: l'⟩ :: around)
      x.lexeme = some ((scopesAround inner).length + 1) := by
  have hscopes : scopesAround (inner ++ [⟨.block, [], l⟩]) = scopesAround inner ++ [[]] := by
    simp [scopesAround, Body.scopes, Owner.keywords, Body.names, Stmt.declaredIn, hl, Stmt.label]
  have hfree : ∀ names ∈ scopesAround (inner ++ [⟨.block, [], l⟩]), x.lexeme ∉ names := by
    rw [hscopes, List.forall_mem_append]
    exact ⟨hinner, by simp⟩
  rw [List.append_cons, lexicalDistance_of_inner (mem_names_declare x v l') hfree, hscopes,
    List.length_append]
  rfl

namespace ForLoop

variable {init : Option Stmt} {c e : Option Expr} {body : Stmt}

/-- Where the clauses of a turn stand: in a block of their own, inside the one of the loop. -/
def aroundTurn (x : Stmt) (c e : Option Expr) (body : Stmt) (l : List Stmt) (around : List Body) :
    List Body :=
  ⟨.block, [], l⟩ :: ⟨.block, [], [x, loop c e body]⟩ :: around

/-- A turn stands in the block of the loop. -/
theorem holds_turn {p : Program} {around : List Body} {x : Stmt}
    (h : p.Holds around (.forLoop (some x) c e body)) :
    p.Holds (⟨.block, [], [x, loop c e body]⟩ :: around) (turn body e) := by
  rw [forLoop_eq] at h
  have hloop : p.HoldsAll _ [x, loop c e body] := h.body (List.mem_singleton_self _)
  exact hloop.tail.head.under (List.mem_singleton_self _)

theorem holds_clauses {p : Program} {around : List Body} {x : Stmt} {inc : Expr}
    (h : p.Holds around (.forLoop (some x) c (some inc) body)) :
    p.Holds (aroundTurn x c (some inc) body [body] around) body ∧
    p.Holds (aroundTurn x c (some inc) body [body, .expression inc] around) (.expression inc) := by
  have hturn : p.HoldsAll _ [body, .expression inc] :=
    (holds_turn h).body (List.mem_singleton_self _)
  exact ⟨hturn.head, hturn.tail.head⟩

/-- A `for` statement of an accepted unit behaves as it is written. Its tree ends as the direct
loop over its clauses does, and if that has no end, it comes to every turn. All turns are in one
scope, which is new if there is an initializer. The scope that a turn has for its increment
never gets a name, neither while the turn runs nor at any later time, so through it names are
read and assigned as they are from the scope of all turns. Afterwards the current scope is the
one before, and has no name more. And the occurrences of a declared loop variable inside a turn
are recorded with one scope more than there are between them and the turn.

Whenever a node of a turn runs, in this turn or later from a function that was made in it, the
scope of all turns is as far away from the current one as there are scopes between the two in the
text. So far away is a loop variable recorded that is declared there, unless the name is declared
again in between. -/
theorem runs_as_written {source : String} {read resolved : Program}
    (ha : Accepts source read resolved) {around : List Body} {s : Stmt}
    (hs : resolved.Holds around s) {d : Bool} {k : Token} {ts : List Token}
    (hread : Parser.Reads (.statement d s.erase) (k :: ts)) (hk : k.Is .forWord) :
    ∃ init c e body, s = .forLoop init c e body ∧
      Written d (init.map Stmt.erase) (c.map Expr.erase) (e.map Expr.erase) body.erase ts ∧
      (∀ m r, s.Executes m r ↔ Runs c e body init m r) ∧
      (∀ m m₁ n m₂, Starts init m m₁ → Rounds (Condition c) (Turn body e) m₁ n m₂ →
        (∃ fuel, Visits fuel [s] m (.expr (c.getD (.literal (.bool true)))) m₂) ∧
        m₂.scope = scope init m ∧
        ∀ inc, e = some inc → ∀ v m₃, Condition c m₂ (.ok v m₃) → ∀ w fuel m',
          (after (runAll (execWatched w fuel) [body, .expression inc] m₃.enter)).Later
            m₃.store.scopes.next m' →
          (∀ name, m'.store.scopes.binds m₃.store.scopes.next name = false) ∧
          m'.store.scopes.Sees m₃.store.scopes.next (scope init m)) ∧
      (∀ m fuel, m.scope < m.store.scopes.next → (after (exec fuel s m)).scope = m.scope ∧
        ∀ name, (after (exec fuel s m)).store.scopes.binds m.scope name =
          m.store.scopes.binds m.scope name) ∧
      (∀ m m₁ n m₂, Starts init m m₁ → Rounds (Condition c) (Turn body e) m₁ n m₂ →
        ∀ v m₃, Condition c m₂ (.ok v m₃) → ∀ q n' p m', Traced (turn body e) m₃ q n' p m' →
        ∀ fuel, Follows fuel q n' p m' ∧
          ∀ i node now, VisitsAt fuel q n' (i + 1) node now → ∃ inner,
            ((turn body e).spots [])[i]? = some (node, inner) ∧
            now.store.scopes.ancestor? now.scope (scopesAround inner).length =
              some (scope init m) ∧
            ∀ x w, init = some (.declare x w) →
              resolved.HoldsNode (inner ++ ⟨.block, [], [.declare x w, loop c e body]⟩ :: around)
                node ∧
              ∀ r, node.reference? = some r → r.name.lexeme = x.lexeme →
                (∀ names ∈ scopesAround inner, x.lexeme ∉ names) →
                r.depth = some (scopesAround inner).length) ∧
      ∀ x v inc, init = some (.declare x v) → e = some inc →
        resolved.Holds (aroundTurn (.declare x v) c e body [body] around) body ∧
        resolved.Holds (aroundTurn (.declare x v) c e body [body, .expression inc] around)
          (.expression inc) ∧
        ∀ l, l = [body] ∨ l = [body, .expression inc] → ∀ inner r,
          resolved.Mentions (inner ++ aroundTurn (.declare x v) c e body l around) r →
          r.name.lexeme = x.lexeme → (∀ names ∈ scopesAround inner, x.lexeme ∉ names) →
          r.depth = some ((scopesAround inner).length + 1) := by
  have hbare := Program.bare_of_ofTokens ha.syntactic
  have hresolved : resolved = read.resolve.1 := by rw [ha.scoping]
  have hrecorded : s.Recorded around := by
    rw [hresolved, Program.resolve_eq_record hbare] at hs
    exact hs.recorded hbare
  obtain ⟨s₀, scopes, hs₀, rfl, -⟩ := hrecorded
  rw [Stmt.erase_record _ _ hs₀] at hread
  obtain ⟨init₀, c₀, e₀, body₀, rfl, hwritten⟩ := exists_written hread hk
  obtain ⟨init, c, e, body, heq, hinit, hc, he, hbody, hinert, hdeclared⟩ :=
    hwritten.exists_record (classAround around) scopes
  rw [heq] at hs ⊢
  refine ⟨init, c, e, body, rfl, ?_, fun m r => runs_iff, ?_, ?_, ?_, ?_⟩
  · rw [hinit, hc, he, hbody]
    exact hwritten
  · intro m m₁ n m₂ hstart hrounds
    have hscope : m₂.scope = scope init m := (scope_of_rounds hrounds).trans hstart.scope_eq
    refine ⟨exists_visits_condition hstart hrounds, hscope, ?_⟩
    rintro inc rfl v m₃ hcond w fuel m' hlater
    have hhollow := hollow_turn hinert hlater
    have hm₃ : m₃.scope = scope init m := hcond.scope_eq.trans hscope
    exact ⟨hhollow.binds, Scopes.sees_of_parent? (hm₃ ▸ hhollow.parent)⟩
  · intro m fuel hm
    have hsp := (spares_run silent fuel m.scope True).2 (.forLoop init c e body)
      (fun _ => inert_forLoop hinert) m hm fun _ => trivial
    rw [(watched_eq fuel).2] at hsp
    exact ⟨hsp.scope, hsp.scopes.binds⟩
  · intro m m₁ n m₂ hstart hrounds v m₃ hcond q n' p m' htraced fuel
    refine ⟨htraced.follows fuel, fun i node now hv => ?_⟩
    obtain ⟨inner, hspot, hfar⟩ := htraced.ancestor? hv
    have hm₃ : m₃.scope = scope init m :=
      hcond.scope_eq.trans ((scope_of_rounds hrounds).trans hstart.scope_eq)
    refine ⟨inner, hspot, hm₃ ▸ hfar, ?_⟩
    rintro x w rfl
    have hnode := Program.Holds.spots _ (show resolved.Holds ([] ++ _) _ from holds_turn hs) _
      (List.mem_of_getElem? hspot)
    refine ⟨hnode, fun r hr hname hinner => ?_⟩
    have hmentions := hnode.mentions hr
    rw [hresolved] at hmentions
    rw [hmentions.depth_eq ha.syntactic (scan_spelled source), hname]
    exact lexicalDistance_of_inner (mem_names_declare x w _) hinner
  · rintro x v inc rfl rfl
    obtain ⟨hholds, hholds'⟩ := holds_clauses hs
    refine ⟨hholds, hholds', fun l hl inner r hr hname hinner => ?_⟩
    have hnone : Stmt.declaredAll l = [] := by
      have hboth : Stmt.declaredAll [body, .expression inc] = [] := by
        rw [Stmt.declaredAll, List.flatMap_cons, hdeclared]
        rfl
      rcases hl with rfl | rfl
      · exact (List.append_nil _).trans hdeclared
      · exact hboth
    rw [hresolved] at hr
    rw [hr.depth_eq ha.syntactic (scan_spelled source), hname]
    exact lexicalDistance_of_turn hnone hinner

/-- The text that a run has written if it ends, and whether the name is bound then. -/
def written? (name : String) : Ending Flow → Option (Array UInt8 × Bool)
  | .ok .normal m => some (m.out.written.data, m.store.scopes.binds m.scope name)
  | _ => none

/-- Two turns, in each of which a function is made that reads the loop variable. -/
theorem runs_as_written_closures :
    let source := "for (var i = 0; i < 2; i = i + 1) " ++
      "\x7b fun g() \x7b return i; \x7d print g() == 1; \x7d"
    let read := (Program.ofTokens (scan source).1).1
    let m := Machine.start .unlimited fun _ => 0
    ∃ s k d ts, Accepts source read read.resolve.1 ∧ Program.Holds read.resolve.1 [] s ∧
      Parser.Reads (.statement d s.erase) (k :: ts) ∧ k.Is .forWord ∧
      ∃ init c e body m', s = .forLoop init c e body ∧ Runs c e body init m (.ok .normal m') ∧
        written? "i" (.ok .normal m') = some ("false\ntrue\n".toUTF8.data, false) := by
  intro source read m
  have hfacts : ((scan source).2 = [] ∧ (Program.ofTokens (scan source).1).2 = [] ∧
      (Program.ofTokens (scan source).1).1.resolve.2 = []) ∧ read.resolve.1.length = 1 ∧
      (tokensIn source).head?.map Token.kind = some (.symbol .forWord) ∧
      written? "i" (runAll (exec 20) read.resolve.1 m) =
        some ("false\ntrue\n".toUTF8.data, false) := by
    decide +kernel
  obtain ⟨hfaults, hone, hfor, hrun⟩ := hfacts
  have ha : Accepts source read read.resolve.1 := accepts_of_faults hfaults
  have hbare := Program.bare_of_ofTokens ha.syntactic
  have hreads := (accepts_iff.mp ha).2.1
  have herase := Stmt.eraseAll_recordAll .none [] hbare
  rw [← Program.resolve_eq_record hbare] at herase
  clear_value source read
  generalize hresolved : read.resolve.1 = resolved at *
  obtain ⟨s, rfl⟩ := List.length_eq_one_iff.mp hone
  cases htokens : tokensIn source with
  | nil => simp [htokens] at hfor
  | cons k ts =>
    have hk : k.Is .forWord := by simpa [htokens, Token.Is] using hfor
    obtain ⟨d, hstatement⟩ : ∃ d, Parser.Reads (.statement d s.erase) (k :: ts) := by
      rw [← herase, htokens] at hreads
      exact exists_statement hreads hk
    have hholds : Program.Holds [s] [] s := .top (List.mem_singleton_self s)
    obtain ⟨init, c, e, body, hs, -, hexec, -⟩ := runs_as_written ha hholds hstatement hk
    rw [runAll_singleton] at hrun
    cases hr : exec 20 s m with
    | error => simp [hr, written?] at hrun
    | ok flow m' =>
      cases flow with
      | returned => simp [hr, written?] at hrun
      | normal =>
        exact ⟨s, k, d, ts, ha, hholds, hstatement, hk, init, c, e, body, m', hs,
          (hexec m _).mp ⟨finished_ok _ _, 20, hr⟩, hr ▸ hrun⟩

end ForLoop

end Treewalk
