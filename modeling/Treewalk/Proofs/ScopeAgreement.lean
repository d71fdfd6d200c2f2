import Treewalk.Proofs.Scoping.Runs

/-!
# Resolver and evaluation agree on scopes

The resolver walks over a unit once and keeps a stack of open scopes; evaluation
makes scopes as it goes, leaves them and comes back to them through closures. The
two agree whenever a node runs (`scopes_agree`): the running scopes up to the
globals are as many as the resolver's open scopes at that node, and each binds what
was marked in the resolver's.

Which node that is, of several equal ones, is told by its number: the nodes of all units are
numbered in the order in which the resolver comes to them, and the run of the numbered code
follows the run itself (`Eval.Follows`).
-/

namespace Treewalk

open Resolver

variable {U : Nat → Visit → Prop} {k : Nat} {κ κ' : List (Bindings Bool)}

/-! ## What is found at a distance -/

theorem eq_true_of_contains {names : Bindings Bool} {name : String}
    (hc : names.contains name = true) (hne : names.get? name ≠ some false) :
    names.get? name = some true := by
  obtain ⟨b, hb⟩ := Option.isSome_iff_exists.mp hc
  cases b with
  | true => exact hb
  | false => exact absurd hb hne

/-- The scope at the recorded distance has the name marked, unless the name is still
being initialized there. -/
theorem Covers.marks_located {scopes : List (Bindings Bool)} (hc : Covers κ scopes) {t : Token}
    (hread : Readable scopes t) {d : Nat} (hd : (located scopes ⟨t, none⟩).depth = some d) :
    ∃ names, scopes[d]? = some names ∧ names.get? t.lexeme = some true := by
  obtain ⟨names, hn, hcont⟩ := located_depth rfl hd
  refine ⟨names, hn, eq_true_of_contains hcont ?_⟩
  cases d with
  | zero => exact hread names (by simpa [List.head?_eq_getElem?] using hn)
  | succ d =>
    refine hc.settled names ?_ t.lexeme
    exact List.mem_of_getElem? (show scopes.tail[d]? = some names by simpa using hn)

/-- Declaring one name does not change where another is found. -/
theorem distance?_bound (κ : List (Bindings Bool)) {name : Token} {key : String}
    (hne : key ≠ name.lexeme) : distance? (bound κ name) key = distance? κ key := by
  cases κ with
  | nil => rfl
  | cons scope rest =>
    have hc : ((scope.insert name.lexeme false).insert name.lexeme true).contains key =
        scope.contains key := by
      simp [Bindings.contains, Bindings.get?_insert, Ne.symm hne]
    simp [bound, distance?, List.findIdx?_cons, hc]

/-! ## Every moment of a run -/

/-- The variable that a node looks up in the scope it runs in: an occurrence of a
variable, or the superclass of a class. -/
def Node.looksUp : Node → Option Reference
  | .expr (.var r) => some r
  | .stmt (.classDecl _ r _) => r
  | _ => none

/-- The scopes around a node that runs agree with the open scopes of a visit, and
a variable with a recorded distance is found there. -/
structure Agrees (m : Machine) (node : Node) (v : Visit) : Prop where
  node_eq : v.node = node
  chain : ∃ chain, m.store.scopes.Chain m.scope chain ∧ chain.length = v.scopes.length ∧
    m.store.scopes.Binds chain v.scopes
  found : ∀ r ∈ node.looksUp, ∀ d, r.depth = some d →
    ∃ value, m.store.scopes.getAt m.scope d r.name = .ok value

theorem Expr.Scoped.agrees {m : Machine} (hκ : m.store.scopes.Stands κ m.scope) {body : ClassBody}
    {scopes : List (Bindings Bool)} {e₀ e : Expr} (hc : Covers κ scopes) (hbare : e₀.Bare)
    (hs : Expr.Scoped body scopes e₀ e) : Agrees m (.expr e) ⟨.expr e, scopes⟩ := by
  have hstands := hκ.imp hc.marks
  refine ⟨rfl, ?_, ?_⟩
  · obtain ⟨chain, hchain, hb⟩ := hstands.chain
    exact ⟨chain, hchain, hb.length_eq, hb⟩
  · intro r hr d hd
    cases hs with
    | @var r₀ hread =>
      obtain rfl : located scopes r₀ = r := by simpa [Node.looksUp] using hr
      cases hbare with | var _ =>
      obtain ⟨names, hn, hmark⟩ := hc.marks_located hread hd
      rw [located_name]
      exact hstands.getAt hn hmark
    | literal | group | unary | binary | logical | assign | call | get | set | receiver | inherited =>
      simp [Node.looksUp] at hr

theorem ResolvedExpr.agrees {m : Machine} {e : Expr} (h : ResolvedExpr U k κ e)
    (hκ : m.store.scopes.Stands κ m.scope) : ∃ v, U k v ∧ Agrees m (.expr e) v := by
  obtain ⟨body, scopes, e₀, hc, _, hbare, _, hs, hU⟩ := h.origin
  exact ⟨⟨.expr e, scopes⟩, hs.of_held hU, hs.agrees hκ hc hbare⟩

theorem ResolvedStmt.agrees {m : Machine} {s : Stmt} (h : ResolvedStmt U k κ s κ')
    (hκ : m.store.scopes.Stands κ m.scope) : ∃ v, U k v ∧ Agrees m (.stmt s) v := by
  obtain ⟨hset, place, s₀, _, hbare, _, hs, hU⟩ := h
  refine ⟨⟨.stmt s, κ⟩, hs.of_held hU, rfl, ?_, ?_⟩
  · obtain ⟨chain, hchain, hb⟩ := hκ.chain
    exact ⟨chain, hchain, hb.length_eq, hb⟩
  · intro r hr d hd
    cases hs with
    | @derived _ _ name r₀ _ _ _ hne _ =>
      obtain rfl : located (bound κ name) r₀ = r := by simpa [Node.looksUp] using hr
      cases hbare with | classDecl _ hr₀ _ _ =>
      -- the class itself is declared already, but it is not its own superclass
      have hloc : located (bound κ name) r₀ = located κ r₀ := by
        rw [located, located, distance?_bound κ hne]
      rw [hloc] at hd ⊢
      obtain ⟨names, hn, hcont⟩ := located_depth (hr₀ r₀ rfl).1 hd
      rw [located_name]
      exact hκ.getAt hn (eq_true_of_contains hcont (hset names (List.mem_of_getElem? hn) _))
    | expression | print | declare | block | branch | choice | loop | function | leave | base =>
      simp [Node.looksUp] at hr

theorem NumberedReached.agrees {out : Sink} {clock : Nat → Float} {units : List Program}
    {m : Machine} (hm : NumberedReached out clock units m) {source : String}
    {read resolved : Program} (hs : Accepts source read resolved) {fuel k : Nat} {node : Node}
    {now : Machine} (hv : Eval.VisitsAt fuel (resolved.numbered units) m k node now) :
    ∃ v, (visitsOf (read :: units))[k]? = some v ∧ Agrees now node v := by
  refine hm.of_visitsAt hs (P := fun k node now =>
    ∃ v, numberIn (read :: units) k v ∧ Agrees now node v) ?_ ?_ hv
  · exact fun hm hκ he => he.agrees (.of_machines hm hκ)
  · exact fun hm hκ ht => ht.agrees (.of_machines hm hκ)

/-- Resolver and evaluation agree on scopes. The nodes of the units are numbered in the order in
which the resolver comes to them, and a run of the numbered code follows the run of the units:
whenever this comes to a node, it comes to the node by its number. The resolver came to the node
of that number with open scopes that match the running ones one by one, up to the globals: each
of these binds what was marked then. So a variable or superclass with a recorded distance is
always found at it. -/
theorem scopes_agree {out : Sink} {clock : Nat → Float} {units : List Program} {m : Machine}
    (hm : Reached out clock units m) {source : String} {read resolved : Program}
    (hs : Accepts source read resolved) :
    (∃ m', NumberedReached out clock units m' ∧ m'.strip = m) ∧
    ∀ m', NumberedReached out clock units m' → m'.strip = m → ∀ fuel,
      Eval.Follows fuel (resolved.numbered units) m' resolved m ∧
      ∀ k node now, Eval.VisitsAt fuel (resolved.numbered units) m' k node now →
        ∃ v, (visitsOf (read :: units))[k]? = some v ∧ Agrees now node v := by
  refine ⟨hm.exists_numbered, ?_⟩
  rintro m' hm' rfl fuel
  exact ⟨hm'.follows hs fuel, fun _ _ _ hv => hm'.agrees hs hv⟩

/-- In `{ print nil; } print nil;` one and the same statement runs as number 1 and as number 3,
first inside a scope and then among the globals. -/
theorem scopes_agree_apart :
    let same : Stmt := .print (.literal .nil)
    let unit : Program := [.block [same], same]
    let start : Machine := .start .unlimited fun _ => 0
    let runs (k depth : Nat) : Prop := ∃ now chain,
      Eval.VisitsAt 4 (unit.numbered []) start k (.stmt same) now ∧
        now.store.scopes.Chain now.scope chain ∧ chain.length = depth
    Accepts "\x7b print nil; \x7d print nil;" unit unit ∧ runs 1 1 ∧ runs 3 0 := by
  intro same unit start runs
  have hscan : scan "\x7b print nil; \x7d print nil;" = ([⟨.symbol .leftBrace, "\x7b", 1⟩,
      ⟨.symbol .printWord, "print", 1⟩, ⟨.symbol .nilWord, "nil", 1⟩, ⟨.symbol .semicolon, ";", 1⟩,
      ⟨.symbol .rightBrace, "\x7d", 1⟩, ⟨.symbol .printWord, "print", 1⟩,
      ⟨.symbol .nilWord, "nil", 1⟩, ⟨.symbol .semicolon, ";", 1⟩, .endOfFile 1], []) := by
    decide +kernel
  have hs : Accepts "\x7b print nil; \x7d print nil;" unit unit := .of_tokens hscan rfl rfl
  have hruns : ∀ k v, (visitsOf [unit])[k]? = some v → v.node = .stmt same →
      Eval.runAll (Eval.execRead .numbers (stopAt k) 4) (unit.numbered []) start ≠
        Eval.runAll (Eval.execRead .numbers Eval.silent 4) (unit.numbered []) start →
      runs k v.scopes.length := by
    intro k v hk hnode hstop
    obtain ⟨node, now, hv⟩ := Eval.exists_visitsAt hstop
    obtain ⟨v', hk', hagrees⟩ :=
      ((scopes_agree .start hs).2 start .start (Machine.strip_start _ _) 4).2 k node now hv
    cases hk.symm.trans hk'
    obtain ⟨chain, hchain, hlen, _⟩ := hagrees.chain
    rw [← hagrees.node_eq, hnode] at hv
    exact ⟨now, chain, hv, hchain, hlen⟩
  exact ⟨hs, hruns 1 ⟨.stmt same, [.empty]⟩ rfl rfl nofun, hruns 3 ⟨.stmt same, []⟩ rfl rfl nofun⟩

end Treewalk
