import Treewalk.Proofs.Grammar.Complete
import Treewalk.Proofs.Grammar.Ebnf

/-!
# The parser accepts its grammar

What the grammar derives can be read. `Nonterminal.Read` is what the tokens of a
nonterminal are read as; it is closed under the rules (`read_of_means`), so it
holds of everything that is derived. Two rules do not match the way in which
tokens are read. The target of an assignment is read as an operand first, and an
`else` belongs to the nearest `if`, whatever the derivation says
(`Parser.Reads.attach_else`).

With the two directions between `Reads` and the parser, a token list is parsed
without a diagnostic exactly if the grammar derives it with no list of parameters
or arguments above `maxArity` (`Program.ofTokens_accepts_iff`).
-/

namespace Treewalk

/-! ## Languages over languages of the nonterminals -/

/-- Any number of parts. -/
inductive Repeats (P : List Token → Prop) : List Token → Prop
  | nil : Repeats P []
  | cons {ts us : List Token} : P ts → Repeats P us → Repeats P (ts ++ us)

/-- This number of parts, at least one, with commas between them. -/
inductive Entries (P : List Token → Prop) : Nat → List Token → Prop
  | last {ts : List Token} : P ts → Entries P 1 ts
  | next {k : Nat} {comma : Token} {ts us : List Token} :
    P ts → comma.Is .comma → Entries P k us → Entries P (k + 1) (ts ++ comma :: us)

namespace Ebnf

variable (fits : Nat → Prop) (R : Nonterminal → List Token → Prop)

mutual

/-- The tokens are of the form `φ`, where `R` says what the nonterminals stand for. -/
def Means : Ebnf → List Token → Prop
  | terminal x => fun ts => ∃ t, ts = [t] ∧ x.Matches t.kind
  | rule n => R n
  | seq φs => MeansAll φs
  | alt φs => MeansAny φs
  | opt φ => fun ts => ts = [] ∨ Means φ ts
  | star φ => Repeats (Means φ)
  | list φ => fun ts => ∃ k, fits k ∧ Entries (Means φ) k ts
  | entries k φ => Entries (Means φ) k

/-- The tokens are of these forms one after the other. -/
def MeansAll : List Ebnf → List Token → Prop
  | [] => fun ts => ts = []
  | φ :: φs => fun ts => ∃ us vs, ts = us ++ vs ∧ Means φ us ∧ MeansAll φs vs

/-- The tokens are of one of these forms. -/
def MeansAny : List Ebnf → List Token → Prop
  | [] => fun _ => False
  | φ :: φs => fun ts => Means φ ts ∨ MeansAny φs ts

end

variable {fits R}

theorem Means.any {φ : Ebnf} {φs : List Ebnf} {ts : List Token} (hφ : φ ∈ φs)
    (h : Means fits R φ ts) : MeansAny fits R φs ts := by
  induction hφ with
  | head => exact .inl h
  | tail _ _ ih => exact .inr ih

theorem MeansAny.exists_mem {φs : List Ebnf} {ts : List Token} (h : MeansAny fits R φs ts) :
    ∃ φ ∈ φs, Means fits R φ ts := by
  induction φs with
  | nil => exact h.elim
  | cons φ φs ih =>
    rcases h with h | h
    · exact ⟨φ, List.mem_cons_self .., h⟩
    · obtain ⟨ψ, hψ, h⟩ := ih h
      exact ⟨ψ, List.mem_cons_of_mem _ hψ, h⟩

/-- Languages that are closed under the rules have everything that is derived. -/
theorem Derives.means (hR : ∀ n ts, Means fits R (grammar n) ts → R n ts) {φ : Ebnf}
    {ts : List Token} (h : Derives fits φ ts) : Means fits R φ ts := by
  induction h with
  | token ht => exact ⟨_, rfl, ht⟩
  | rule _ ih => exact hR _ _ ih
  | empty => rfl
  | seq _ _ ih ihs => exact ⟨_, _, rfl, ih, ihs⟩
  | alt hφ _ ih => exact ih.any hφ
  | absent => exact .inl rfl
  | present _ ih => exact .inr ih
  | done => exact .nil
  | again _ _ ih ihs => exact .cons ih ihs
  | list _ hk ih => exact ⟨_, hk, ih⟩
  | last _ ih => exact .last ih
  | next _ hcomma _ ih ihs => exact .next ih hcomma ihs

end Ebnf

namespace Parser

variable {ts us vs : List Token} {a e : Expr} {i : Nat}

/-! ## Expressions -/

/-- An operand is an operand of every level above. -/
theorem Reads.lift (h : Reads (.operand i e) ts) (k : Nat) : Reads (.operand (i + k) e) ts := by
  induction k with
  | zero => exact h
  | succ k ih =>
    rw [← List.append_nil ts]
    exact .level ih .endOfChain

theorem Reads.of_call (ha : Reads (.primary a) ts) (he : Reads (.suffixes a e) us) :
    Reads (.operand 6 e) (ts ++ us) :=
  (Reads.bottom (.call ha he)).lift 6

theorem Reads.append_property {dot n : Token} (h : Reads (.suffixes a e) ts) (hdot : dot.Is .dot)
    (hn : n.IsName) : Reads (.suffixes a (.get e n)) (ts ++ [dot, n]) := by
  generalize hgoal : Goal.suffixes a e = goal at h
  induction h generalizing a with
  | endOfSuffixes =>
    obtain ⟨rfl, rfl⟩ := Goal.suffixes.inj hgoal
    exact .property hdot hn .endOfSuffixes
  | apply hlp hargs hrp _ _ ih =>
    obtain ⟨rfl, rfl⟩ := Goal.suffixes.inj hgoal
    rw [List.cons_append, List.append_assoc]
    exact .apply hlp hargs hrp (ih rfl)
  | property hdot' hn' _ ih =>
    obtain ⟨rfl, rfl⟩ := Goal.suffixes.inj hgoal
    exact .property hdot' hn' (ih rfl)
  | _ => cases hgoal

/-- A statement that an `else` can follow goes on with it. -/
theorem Reads.attach_else {s alternative : Stmt} {d : Bool} {other : Token}
    (h : Reads (.statement true s) ts) (hother : other.Is .elseWord)
    (ha : Reads (.statement d alternative) us) :
    ∃ d s, Reads (.statement d s) (ts ++ other :: us) := by
  generalize hgoal : Goal.statement true s = goal at h
  induction h generalizing s with
  | loop hk hlp hc hrp hs _ ih =>
    obtain ⟨rfl, rfl⟩ := Goal.statement.inj hgoal
    obtain ⟨d, s, hs⟩ := ih rfl
    simp only [List.cons_append, List.append_assoc]
    exact ⟨d, _, .loop hk hlp hc hrp hs⟩
  | @branch _ d' _ _ _ _ _ _ hk hlp hc hrp hs _ ih =>
    simp only [List.cons_append, List.append_assoc]
    cases d' with
    | false => exact ⟨_, _, .choice hk hlp hc hrp hs hother ha⟩
    | true =>
      obtain ⟨d, s, hs⟩ := ih rfl
      exact ⟨_, _, .branch hk hlp hc hrp hs⟩
  | choice hk hlp hc hrp hs hother' hlast _ _ ih =>
    obtain ⟨rfl, rfl⟩ := Goal.statement.inj hgoal
    obtain ⟨d, s, hlast⟩ := ih rfl
    simp only [List.cons_append, List.append_assoc]
    exact ⟨d, _, .choice hk hlp hc hrp hs hother' hlast⟩
  | forLoop hk hlp hi hc hsemi he hrp hs _ _ _ ih =>
    obtain ⟨rfl, rfl⟩ := Goal.statement.inj hgoal
    obtain ⟨d, s, hs⟩ := ih rfl
    simp only [List.cons_append, List.append_assoc]
    exact ⟨d, _, .forLoop hk hlp hi hc hsemi he hrp hs⟩
  | _ => cases hgoal

end Parser

/-! ## What the nonterminals are read as -/

open Treewalk.Parser Ebnf

def Nonterminal.Read : Nonterminal → List Token → Prop
  | .program, ts => ∃ p us eof, ts = us ++ [eof] ∧ eof.kind = .endOfFile ∧
    Reads (.declarations p) us
  | .classDecl, ts | .funDecl, ts | .declaration, ts => ∃ d s, Reads (.declaration d s) ts
  | .function, ts => ∃ r, Reads (.routine r) ts
  | .parameters, ts => ∃ ps, Reads (.names ps) ts ∧ ps.length ≤ maxArity
  | .varDecl, ts => ∃ k us s, ts = k :: us ∧ k.Is .varWord ∧ Reads (.binding s) us
  | .exprStmt, ts => ∃ e us semi, ts = us ++ [semi] ∧ Reads (.expression e) us ∧
    semi.Is .semicolon
  | .block, ts => ∃ l lb us rb, ts = lb :: (us ++ [rb]) ∧ lb.Is .leftBrace ∧
    Reads (.declarations l) us ∧ rb.Is .rightBrace
  | .statement, ts | .forStmt, ts | .ifStmt, ts | .printStmt, ts | .returnStmt, ts
  | .whileStmt, ts => ∃ d s, Reads (.statement d s) ts
  | .expression, ts | .assignment, ts => ∃ e, Reads (.expression e) ts
  | .logicOr, ts => ∃ e, Reads (.operand 6 e) ts
  | .logicAnd, ts => ∃ e, Reads (.operand 5 e) ts
  | .equality, ts => ∃ e, Reads (.operand 4 e) ts
  | .comparison, ts => ∃ e, Reads (.operand 3 e) ts
  | .term, ts => ∃ e, Reads (.operand 2 e) ts
  | .factor, ts => ∃ e, Reads (.operand 1 e) ts
  | .unary, ts => ∃ e, Reads (.operand 0 e) ts
  | .call, ts => ∃ a e us vs, ts = us ++ vs ∧ Reads (.primary a) us ∧ Reads (.suffixes a e) vs
  | .arguments, ts => ∃ es, Reads (.items es) ts ∧ es.length ≤ maxArity
  | .primary, ts => ∃ e, Reads (.primary e) ts

section

variable {ts us : List Token}

/-- What the nonterminals stand for in this section. -/
abbrev Ebnf.Read (φ : Ebnf) (ts : List Token) : Prop :=
  Means (· ≤ maxArity) Nonterminal.Read φ ts

theorem read_level_iff {i : Nat} (hi : i ≤ 6) :
    (level i).Read ts ↔ ∃ e, Reads (.operand i e) ts :=
  match i, hi with
  | 0, _ | 1, _ | 2, _ | 3, _ | 4, _ | 5, _ | 6, _ => Iff.rfl

theorem read_links {i : Nat} (hi : i < 6) (h : (links i).Read ts) (a : Expr) :
    ∃ e, Reads (.chain (i + 1) a e) ts := by
  change Repeats (seq [alt ((operators (i + 1)).map symbol), rule (level i)]).Read ts at h
  induction h generalizing a with
  | nil => exact ⟨a, .endOfChain⟩
  | cons hlink _ ih =>
    obtain ⟨_, _, rfl, hany, _, _, rfl, hb, rfl⟩ := hlink
    obtain ⟨_, hmem, hword⟩ := hany.exists_mem
    obtain ⟨s, hs, rfl⟩ := List.mem_map.mp hmem
    obtain ⟨op, rfl, hop⟩ := hword
    obtain ⟨b, hb⟩ := (read_level_iff (Nat.le_of_lt hi)).mp hb
    obtain ⟨e, he⟩ := ih (operation (i + 1) op a b)
    refine ⟨e, ?_⟩
    rw [List.append_nil]
    exact .link hop hs hb he

theorem read_level {i : Nat} (hi : i < 6) (h : (grammar (level (i + 1))).Read ts) :
    (level (i + 1)).Read ts := by
  rw [grammar_level hi] at h
  obtain ⟨us, _, rfl, ha, vs, _, rfl, hlinks, rfl⟩ := h
  obtain ⟨a, ha⟩ := (read_level_iff (Nat.le_of_lt hi)).mp ha
  obtain ⟨e, he⟩ := read_links hi hlinks a
  rw [List.append_nil]
  exact (read_level_iff hi).mpr ⟨e, .level ha he⟩

theorem read_suffixes (h : (star suffix).Read ts) (a : Expr) : ∃ e, Reads (.suffixes a e) ts := by
  change Repeats suffix.Read ts at h
  induction h generalizing a with
  | nil => exact ⟨a, .endOfSuffixes⟩
  | @cons _ us hs _ ih =>
    rcases hs with hs | hs | hs
    · obtain ⟨_, _, rfl, ⟨lp, rfl, hlp⟩, vs, _, rfl, hargs, _, _, rfl, ⟨rp, rfl, hrp⟩, rfl⟩ := hs
      have hargs : ∃ es, Reads (.arguments es) vs := by
        rcases hargs with rfl | ⟨es, hes, hlen⟩
        · exact ⟨[], .noArguments⟩
        · exact ⟨es, .arguments hes hlen⟩
      obtain ⟨es, hargs⟩ := hargs
      obtain ⟨e, he⟩ := ih (.call a rp es)
      refine ⟨e, ?_⟩
      simp only [List.append_nil, List.cons_append, List.nil_append, List.append_assoc]
      exact .apply hlp hargs hrp he
    · obtain ⟨_, _, rfl, ⟨dot, rfl, hdot⟩, _, _, rfl, ⟨n, rfl, hn⟩, rfl⟩ := hs
      obtain ⟨e, he⟩ := ih (.get a n)
      exact ⟨e, .property hdot hn he⟩
    · exact hs.elim

theorem read_assignment (h : (grammar .assignment).Read ts) : Nonterminal.assignment.Read ts := by
  rcases h with h | h | h
  · obtain ⟨_, _, rfl, hobject, _, _, rfl, ⟨n, rfl, hn⟩, _, _, rfl, ⟨eq, rfl, heq⟩, us, _, rfl,
      ⟨v, hv⟩, rfl⟩ := h
    rw [List.append_nil]
    rcases hobject with rfl | ⟨_, _, rfl, ⟨a, o, vs, ws, rfl, ha, ho⟩, _, _, rfl, ⟨dot, rfl, hdot⟩, rfl⟩
    · have hatom : atom? n = some (.var ⟨n, none⟩) := by
        unfold atom?
        rw [show n.kind = _ from hn]
      have htarget : Reads (.operand 6 (.var ⟨n, none⟩)) [n] :=
        Reads.of_call (.atom hatom) .endOfSuffixes
      have hassign := Reads.assign htarget heq hv
      exact ⟨_, hassign⟩
    · have htarget := Reads.of_call ha (ho.append_property hdot hn)
      have hset := Reads.set htarget heq hv
      refine ⟨.set o n v, ?_⟩
      simpa only [List.append_assoc, List.cons_append, List.nil_append] using hset
  · obtain ⟨e, he⟩ := h
    exact ⟨e, .plain he⟩
  · exact h.elim

theorem read_unary (h : (grammar .unary).Read ts) : Nonterminal.unary.Read ts := by
  rcases h with h | h | h
  · obtain ⟨_, _, rfl, hany, us, _, rfl, ⟨e, he⟩, rfl⟩ := h
    obtain ⟨_, hmem, hword⟩ := hany.exists_mem
    obtain ⟨s, hs, rfl⟩ := List.mem_map.mp (show _ ∈ [Symbol.bang, .minus].map symbol from hmem)
    obtain ⟨op, rfl, hop⟩ := hword
    cases he with
    | bottom he =>
      rw [List.append_nil]
      exact ⟨_, .bottom (.sign hop hs he)⟩
  · obtain ⟨a, e, us, vs, rfl, ha, he⟩ := h
    exact ⟨e, .bottom (.call ha he)⟩
  · exact h.elim

theorem read_primary (h : (grammar .primary).Read ts) : Nonterminal.primary.Read ts := by
  have hatom : ∀ t, (atom? t).isSome → Nonterminal.primary.Read [t] := fun t h =>
    ⟨_, .atom (Option.some_get h).symm⟩
  rcases h with ⟨t, rfl, x, ht⟩ | ⟨t, rfl, x, ht⟩ | ⟨t, rfl, ht⟩ | ⟨t, rfl, ht⟩ | ⟨t, rfl, ht⟩ |
    ⟨t, rfl, ht⟩ | ⟨t, rfl, ht⟩ | h | h | h
  iterate 7
    · refine hatom t ?_
      unfold atom?
      rw [show t.kind = _ from ht]
      rfl
  · obtain ⟨_, _, rfl, ⟨lp, rfl, hlp⟩, us, _, rfl, ⟨e, he⟩, _, _, rfl, ⟨rp, rfl, hrp⟩, rfl⟩ := h
    exact ⟨_, .group hlp he hrp⟩
  · obtain ⟨_, _, rfl, ⟨k, rfl, hk⟩, _, _, rfl, ⟨dot, rfl, hdot⟩, _, _, rfl, ⟨n, rfl, hn⟩, rfl⟩ := h
    exact ⟨_, .inherited hk hdot hn⟩
  · exact h.elim

theorem read_clause (h : (opt (rule .expression)).Read ts) : ∃ e, Reads (.clause e) ts := by
  rcases h with rfl | ⟨e, he⟩
  · exact ⟨none, .noClause⟩
  · exact ⟨some e, .clause he⟩

theorem read_items {k : Nat} (h : Entries (rule .expression).Read k ts) :
    ∃ es, Reads (.items es) ts ∧ es.length = k := by
  induction h with
  | last h =>
    obtain ⟨e, he⟩ := h
    exact ⟨[e], .item he, rfl⟩
  | next h hcomma _ ih =>
    obtain ⟨e, he⟩ := h
    obtain ⟨es, hes, rfl⟩ := ih
    exact ⟨e :: es, .items he hcomma hes, rfl⟩

theorem read_names {k : Nat} (h : Entries name.Read k ts) :
    ∃ ps, Reads (.names ps) ts ∧ ps.length = k := by
  induction h with
  | last h =>
    obtain ⟨p, rfl, hp⟩ := h
    exact ⟨[p], .name hp, rfl⟩
  | next h hcomma _ ih =>
    obtain ⟨p, rfl, hp⟩ := h
    obtain ⟨ps, hps, rfl⟩ := ih
    exact ⟨p :: ps, .names hp hcomma hps, rfl⟩

theorem read_ifStmt (h : (grammar .ifStmt).Read ts) : Nonterminal.ifStmt.Read ts := by
  obtain ⟨_, _, rfl, ⟨k, rfl, hk⟩, _, _, rfl, ⟨lp, rfl, hlp⟩, us, _, rfl, ⟨c, hc⟩, _, _, rfl,
    ⟨rp, rfl, hrp⟩, vs, _, rfl, ⟨d, s, hs⟩, ws, _, rfl, helse, rfl⟩ := h
  rw [List.append_nil]
  rcases helse with rfl | ⟨_, _, rfl, ⟨other, rfl, hother⟩, xs, _, rfl, ⟨d', a, ha⟩, rfl⟩
  · rw [List.append_nil]
    exact ⟨true, _, .branch hk hlp hc hrp hs⟩
  rw [List.append_nil]
  cases d with
  | false => exact ⟨d', _, .choice hk hlp hc hrp hs hother ha⟩
  | true =>
    -- the `else` belongs to an `if` further in
    obtain ⟨_, _, hs⟩ := hs.attach_else hother ha
    exact ⟨true, _, .branch hk hlp hc hrp hs⟩

theorem read_forStmt (h : (grammar .forStmt).Read ts) : Nonterminal.forStmt.Read ts := by
  obtain ⟨_, _, rfl, ⟨k, rfl, hk⟩, _, _, rfl, ⟨lp, rfl, hlp⟩, us, _, rfl, hfirst, vs, _, rfl,
    hcond, _, _, rfl, ⟨semi, rfl, hsemi⟩, ws, _, rfl, hstep, _, _, rfl, ⟨rp, rfl, hrp⟩, xs, _, rfl,
    ⟨d, s, hs⟩, rfl⟩ := h
  have hinit : ∃ init, Reads (.initializer init) us := by
    rcases hfirst with ⟨k, us, s, rfl, hk, hs⟩ | ⟨e, us, semi, rfl, he, hsemi⟩ | ⟨semi, rfl, hsemi⟩ | h
    · exact ⟨_, .declareFirst hk hs⟩
    · exact ⟨_, .expressionFirst he hsemi⟩
    · exact ⟨_, .noInitializer hsemi⟩
    · exact h.elim
  obtain ⟨init, hinit⟩ := hinit
  obtain ⟨c, hc⟩ := read_clause hcond
  obtain ⟨e, he⟩ := read_clause hstep
  rw [List.append_nil]
  exact ⟨d, _, .forLoop hk hlp hinit hc hsemi he hrp hs⟩

theorem read_classDecl (h : (grammar .classDecl).Read ts) : Nonterminal.classDecl.Read ts := by
  obtain ⟨_, _, rfl, ⟨k, rfl, hk⟩, _, _, rfl, ⟨n, rfl, hn⟩, _, _, rfl, hbase, _, _, rfl,
    ⟨lb, rfl, hlb⟩, us, _, rfl, hms, _, _, rfl, ⟨rb, rfl, hrb⟩, rfl⟩ := h
  have hms : ∃ ms, Reads (.methods ms) us := by
    change Repeats (rule .function).Read us at hms
    induction hms with
    | nil => exact ⟨[], .noMethods⟩
    | cons h _ ih =>
      obtain ⟨r, hr⟩ := h
      obtain ⟨ms, hms⟩ := ih
      exact ⟨r :: ms, .methods hr hms⟩
  obtain ⟨ms, hms⟩ := hms
  rcases hbase with rfl | ⟨_, _, rfl, ⟨lt, rfl, hlt⟩, _, _, rfl, ⟨p, rfl, hp⟩, rfl⟩
  · exact ⟨false, _, .base hk hn hlb hms hrb⟩
  · exact ⟨false, _, .derived hk hn hlt hp hlb hms hrb⟩

theorem read_declarations (h : (star (rule .declaration)).Read ts) :
    ∃ l, Reads (.declarations l) ts := by
  change Repeats (rule .declaration).Read ts at h
  induction h with
  | nil => exact ⟨[], .noDeclarations⟩
  | cons h _ ih =>
    obtain ⟨d, s, hs⟩ := h
    obtain ⟨l, hl⟩ := ih
    exact ⟨s :: l, .declarations hs hl⟩

/-- The rules of the grammar hold of what is read. -/
theorem read_of_means (n : Nonterminal) (ts : List Token) (h : (grammar n).Read ts) : n.Read ts := by
  cases n with
  | program =>
    obtain ⟨us, _, rfl, hl, _, _, rfl, ⟨eof, rfl, heof⟩, rfl⟩ := h
    obtain ⟨p, hp⟩ := read_declarations hl
    exact ⟨p, us, eof, rfl, heof, hp⟩
  | declaration =>
    rcases h with h | h | ⟨k, us, s, rfl, hk, hs⟩ | ⟨d, s, hs⟩ | h
    · exact h
    · exact h
    · exact ⟨false, s, .binding hk hs⟩
    · exact ⟨d, s, .statement hs⟩
    · exact h.elim
  | classDecl => exact read_classDecl h
  | funDecl =>
    obtain ⟨_, _, rfl, ⟨k, rfl, hk⟩, us, _, rfl, ⟨r, hr⟩, rfl⟩ := h
    rw [List.append_nil]
    exact ⟨false, _, .function hk hr⟩
  | function =>
    obtain ⟨_, _, rfl, ⟨n, rfl, hn⟩, _, _, rfl, ⟨lp, rfl, hlp⟩, us, _, rfl, hps, _, _, rfl,
      ⟨rp, rfl, hrp⟩, _, _, rfl, ⟨l, lb, vs, rb, rfl, hlb, hl, hrb⟩, rfl⟩ := h
    have hps : ∃ ps, Reads (.parameters ps) us := by
      rcases hps with rfl | ⟨ps, hps, hlen⟩
      · exact ⟨[], .noParameters⟩
      · exact ⟨ps, .parameters hps hlen⟩
    obtain ⟨ps, hps⟩ := hps
    rw [List.append_nil]
    exact ⟨_, .routine hn hlp hps hrp hlb hl hrb⟩
  | parameters =>
    obtain ⟨k, hk, h⟩ := h
    obtain ⟨ps, hps, rfl⟩ := read_names h
    exact ⟨ps, hps, hk⟩
  | varDecl =>
    obtain ⟨_, _, rfl, ⟨k, rfl, hk⟩, _, _, rfl, ⟨n, rfl, hn⟩, _, _, rfl, hinit, _, _, rfl,
      ⟨semi, rfl, hsemi⟩, rfl⟩ := h
    rcases hinit with rfl | ⟨_, _, rfl, ⟨eq, rfl, heq⟩, us, _, rfl, ⟨e, he⟩, rfl⟩
    · exact ⟨k, _, _, rfl, hk, .uninitialized hn hsemi⟩
    · rw [List.append_nil us]
      exact ⟨k, _, _, rfl, hk, .initialized hn heq he hsemi⟩
  | statement =>
    rcases h with ⟨e, us, semi, rfl, he, hsemi⟩ | h | h | h | h | h |
      ⟨l, lb, us, rb, rfl, hlb, hl, hrb⟩ | h
    · exact ⟨false, _, .expressionStatement he hsemi⟩
    iterate 5
      · exact h
    · exact ⟨false, _, .block hlb hl hrb⟩
    · exact h.elim
  | exprStmt =>
    obtain ⟨us, _, rfl, ⟨e, he⟩, _, _, rfl, ⟨semi, rfl, hsemi⟩, rfl⟩ := h
    exact ⟨e, us, semi, rfl, he, hsemi⟩
  | forStmt => exact read_forStmt h
  | ifStmt => exact read_ifStmt h
  | printStmt =>
    obtain ⟨_, _, rfl, ⟨k, rfl, hk⟩, us, _, rfl, ⟨e, he⟩, _, _, rfl, ⟨semi, rfl, hsemi⟩, rfl⟩ := h
    exact ⟨false, _, .print hk he hsemi⟩
  | returnStmt =>
    obtain ⟨_, _, rfl, ⟨k, rfl, hk⟩, us, _, rfl, hvalue, _, _, rfl, ⟨semi, rfl, hsemi⟩, rfl⟩ := h
    obtain ⟨e, he⟩ := read_clause hvalue
    exact ⟨false, _, .leave hk he hsemi⟩
  | whileStmt =>
    obtain ⟨_, _, rfl, ⟨k, rfl, hk⟩, _, _, rfl, ⟨lp, rfl, hlp⟩, us, _, rfl, ⟨c, hc⟩, _, _, rfl,
      ⟨rp, rfl, hrp⟩, vs, _, rfl, ⟨d, s, hs⟩, rfl⟩ := h
    rw [List.append_nil]
    exact ⟨d, _, .loop hk hlp hc hrp hs⟩
  | block =>
    obtain ⟨_, _, rfl, ⟨lb, rfl, hlb⟩, us, _, rfl, hl, _, _, rfl, ⟨rb, rfl, hrb⟩, rfl⟩ := h
    obtain ⟨l, hl⟩ := read_declarations hl
    exact ⟨l, lb, us, rb, rfl, hlb, hl, hrb⟩
  | expression => exact h
  | assignment => exact read_assignment h
  | logicOr => exact read_level (i := 5) (by decide) h
  | logicAnd => exact read_level (i := 4) (by decide) h
  | equality => exact read_level (i := 3) (by decide) h
  | comparison => exact read_level (i := 2) (by decide) h
  | term => exact read_level (i := 1) (by decide) h
  | factor => exact read_level (i := 0) (by decide) h
  | unary => exact read_unary h
  | call =>
    obtain ⟨us, _, rfl, ⟨a, ha⟩, vs, _, rfl, hs, rfl⟩ := h
    obtain ⟨e, he⟩ := read_suffixes hs a
    rw [List.append_nil]
    exact ⟨a, e, us, vs, rfl, ha, he⟩
  | arguments =>
    obtain ⟨k, hk, h⟩ := h
    obtain ⟨es, hes, rfl⟩ := read_items h
    exact ⟨es, hes, hk⟩
  | primary => exact read_primary h

end

/-- A list of tokens with one end of file, its last token, is parsed without a
diagnostic exactly if the grammar derives it as a program, with at most `maxArity`
entries in every list of parameters and every list of arguments. -/
theorem Program.ofTokens_accepts_iff {ts : List Token} {eof : Token}
    (hts : ∀ t ∈ ts, t.kind ≠ .endOfFile) (heof : eof.kind = .endOfFile) :
    (Program.ofTokens (ts ++ [eof])).2 = [] ↔
      Derives (· ≤ maxArity) (rule .program) (ts ++ [eof]) := by
  constructor
  · intro h
    have hreads := (Program.ofTokens_append_iff hts heof).mp (Prod.ext rfl h)
    have hfits : ∀ k ≤ maxArity, k ≤ maxArity := fun _ hk => hk
    exact .rule (.seq (hreads.derives hfits) (Derives.single (.token (x := .endOfFile) heof)))
  · intro h
    obtain ⟨p, us, eof', heq, -, hp⟩ := h.means read_of_means
    obtain ⟨rfl, -⟩ := List.append_inj' heq rfl
    rw [(Program.ofTokens_append_iff hts heof).mpr hp]

/-- `if (a) if (b) c; else d;`, where the grammar leaves open which `if` has the `else`. -/
theorem Program.ofTokens_accepts_iff_nested_if :
    let ts := [Kind.symbol .ifWord, .symbol .leftParen, .identifier, .symbol .rightParen,
      .symbol .ifWord, .symbol .leftParen, .identifier, .symbol .rightParen, .identifier,
      .symbol .semicolon, .symbol .elseWord, .identifier, .symbol .semicolon].map (Token.mk · "a" 1)
    (∀ t ∈ ts, t.kind ≠ .endOfFile) ∧ ((Program.ofTokens (ts ++ [.endOfFile 1])).2 = [] ↔
      Derives (· ≤ maxArity) (rule .program) (ts ++ [.endOfFile 1])) :=
  ⟨by decide, Program.ofTokens_accepts_iff (by decide) rfl⟩

end Treewalk
