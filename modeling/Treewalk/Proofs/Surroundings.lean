import Treewalk.Proofs.Enclosures
import Treewalk.Proofs.Scoping.Chains

/-!
# The scopes between a statement and its parts

`Stmt.spots` lists the nodes of a statement in the order of their numbers, each with the bodies
between the statement and the node. When such a node runs, there are as many scopes as these
bodies have between the current scope and the scope that the statement was run in
(`Eval.Traced.ancestor?`). This holds for the run of the statement itself and for everything
that is run afterwards, since a function that is made in the statement keeps the scope that it
was made in.

Which node runs is told by its number: the nodes of the statement are numbered from 1 on, and
the nodes of all other code have the number 0 (`Eval.Traced`).
-/

namespace Treewalk

/-! ## Where nodes stand -/

mutual

/-- The nodes of an expression in the order of their numbers. -/
def Expr.nodes (e : Expr) : List Expr :=
  e :: match e with
    | .literal _ | .var _ | .receiver _ | .inherited _ _ => []
    | .group a | .unary _ a | .assign _ a | .get a _ => a.nodes
    | .binary _ a b | .logical _ a b => a.nodes ++ b.nodes
    | .set o _ v => v.nodes ++ o.nodes
    | .call c _ args => c.nodes ++ Expr.nodesAll args

def Expr.nodesAll : List Expr → List Expr
  | [] => []
  | e :: es => e.nodes ++ Expr.nodesAll es

end

/-- The nodes of an expression with the bodies around it. -/
def Expr.spots (inner : List Body) (e : Expr) : List (Node × List Body) :=
  e.nodes.map fun a => (.expr a, inner)

def Expr.spots? (inner : List Body) : Option Expr → List (Node × List Body)
  | none => []
  | some e => e.spots inner

mutual

/-- The nodes of a statement in the order of their numbers, each with the bodies around it. The
statement has the bodies `inner` around it. -/
def Stmt.spots (inner : List Body) (s : Stmt) : List (Node × List Body) :=
  (.stmt s, inner) :: match s with
    | .expression e | .print e => e.spots inner
    | .declare _ e | .leave _ e => Expr.spots? inner e
    | .block b => Stmt.spotsAll (⟨.block, [], []⟩ :: inner) b
    | .branch c s none => c.spots inner ++ s.spots inner
    | .branch c s (some a) => c.spots inner ++ (s.spots inner ++ a.spots inner)
    | .loop c s => c.spots inner ++ s.spots inner
    | .function ⟨n, ps, b⟩ => Stmt.spotsAll (⟨.function n, ps, []⟩ :: inner) b
    | .classDecl n r ms => Stmt.spotsMethods (.method n r ms) inner ms

def Stmt.spotsAll (inner : List Body) : List Stmt → List (Node × List Body)
  | [] => []
  | s :: rest => s.spots (extend inner [s]) ++ Stmt.spotsAll (extend inner [s]) rest

def Stmt.spotsMethods (owner : Owner) (inner : List Body) :
    List (Routine Stmt) → List (Node × List Body)
  | [] => []
  | ⟨_, ps, b⟩ :: rest =>
    Stmt.spotsAll (⟨owner, ps, []⟩ :: inner) b ++ Stmt.spotsMethods owner inner rest

end

mutual

theorem Expr.length_nodes : ∀ e : Expr, e.nodes.length = e.size
  | .literal _ | .var _ | .receiver _ | .inherited _ _ => by
    simp only [nodes, size, List.length_cons, List.length_nil]
  | .group a | .unary _ a | .assign _ a | .get a _ => by
    simp only [nodes, size, List.length_cons, length_nodes a]
  | .binary _ a b | .logical _ a b => by
    simp only [nodes, size, List.length_cons, List.length_append, length_nodes a, length_nodes b]
  | .set o _ v => by
    simp only [nodes, size, List.length_cons, List.length_append, length_nodes o, length_nodes v]
  | .call c _ args => by
    simp only [nodes, size, List.length_cons, List.length_append, length_nodes c,
      length_nodesAll args]

theorem Expr.length_nodesAll : ∀ es : List Expr, (Expr.nodesAll es).length = Expr.sizeAll es
  | [] => by rw [nodesAll, sizeAll, List.length_nil]
  | e :: es => by rw [nodesAll, sizeAll, List.length_append, length_nodes e, length_nodesAll es]

end

theorem Expr.length_spots (inner : List Body) (e : Expr) : (e.spots inner).length = e.size := by
  rw [spots, List.length_map, length_nodes]

theorem Expr.length_spots? (inner : List Body) (e : Option Expr) :
    (Expr.spots? inner e).length = Expr.size? e := by
  cases e with
  | none => rfl
  | some e => exact e.length_spots inner

mutual

theorem Stmt.length_spots : ∀ (s : Stmt) (inner : List Body), (s.spots inner).length = s.size
  | .expression e, _ | .print e, _ => by
    simp only [spots, size, List.length_cons, Expr.length_spots]
  | .declare _ e, _ | .leave _ e, _ => by
    simp only [spots, size, List.length_cons, Expr.length_spots?]
  | .block b, _ | .function ⟨_, _, b⟩, _ => by
    simp only [spots, size, List.length_cons, length_spotsAll b]
  | .branch c s none, _ | .loop c s, _ => by
    simp only [spots, size, List.length_cons, List.length_append, Expr.length_spots, length_spots s]
  | .branch c s (some a), _ => by
    simp only [spots, size, List.length_cons, List.length_append, Expr.length_spots,
      length_spots s, length_spots a, Nat.add_assoc]
  | .classDecl _ _ ms, _ => by
    simp only [spots, size, List.length_cons, length_spotsMethods ms]

theorem Stmt.length_spotsAll : ∀ (l : List Stmt) (inner : List Body),
    (Stmt.spotsAll inner l).length = Stmt.sizeAll l
  | [], _ => by rw [spotsAll, sizeAll, List.length_nil]
  | s :: l, _ => by rw [spotsAll, sizeAll, List.length_append, length_spots s, length_spotsAll l]

theorem Stmt.length_spotsMethods : ∀ (ms : List (Routine Stmt)) (owner : Owner)
    (inner : List Body), (Stmt.spotsMethods owner inner ms).length = Stmt.sizeMethods ms
  | [], _, _ => by rw [spotsMethods, sizeMethods, List.length_nil]
  | ⟨_, _, b⟩ :: ms, _, _ => by
    rw [spotsMethods, sizeMethods, List.length_append, length_spotsAll b, length_spotsMethods ms]

end

/-! ## Spots are places of the program -/

/-- A node of the program, and the bodies around it. -/
def Program.HoldsNode (p : Program) (around : List Body) : Node → Prop
  | .expr e => p.HoldsExpr around e
  | .stmt s => p.Holds around s

/-- The variable that a node itself names. -/
def Node.reference? : Node → Option Reference
  | .expr e => e.reference?
  | .stmt (.classDecl _ superclass _) => superclass
  | .stmt _ => none

mutual

theorem Expr.has_of_nodes : ∀ (e : Expr) {a : Expr}, a ∈ e.nodes → e.Has a
  | .literal _, _, h | .var _, _, h | .receiver _, _, h | .inherited _ _, _, h => by
    rw [nodes, List.mem_singleton] at h
    exact h ▸ .self _
  | .group e, _, h | .unary _ e, _, h | .assign _ e, _, h | .get e _, _, h => by
    rw [nodes, List.mem_cons] at h
    rcases h with rfl | h
    · exact .self _
    · exact .part List.mem_cons_self (has_of_nodes e h)
  | .binary _ a b, _, h | .logical _ a b, _, h => by
    rw [nodes, List.mem_cons, List.mem_append] at h
    rcases h with rfl | h | h
    · exact .self _
    · exact .part List.mem_cons_self (has_of_nodes a h)
    · exact .part (List.mem_cons_of_mem _ List.mem_cons_self) (has_of_nodes b h)
  | .set o _ v, _, h => by
    rw [nodes, List.mem_cons, List.mem_append] at h
    rcases h with rfl | h | h
    · exact .self _
    · exact .part (List.mem_cons_of_mem _ List.mem_cons_self) (has_of_nodes v h)
    · exact .part List.mem_cons_self (has_of_nodes o h)
  | .call c _ args, _, h => by
    rw [nodes, List.mem_cons, List.mem_append] at h
    rcases h with rfl | h | h
    · exact .self _
    · exact .part List.mem_cons_self (has_of_nodes c h)
    · obtain ⟨arg, harg, hhas⟩ := has_of_nodesAll args h
      exact .part (List.mem_cons_of_mem _ harg) hhas

theorem Expr.has_of_nodesAll : ∀ (es : List Expr) {a : Expr}, a ∈ Expr.nodesAll es →
    ∃ e ∈ es, e.Has a
  | [], _, h => by simp [nodesAll] at h
  | e :: es, _, h => by
    rw [nodesAll, List.mem_append] at h
    rcases h with h | h
    · exact ⟨e, List.mem_cons_self, has_of_nodes e h⟩
    · obtain ⟨e', he', hhas⟩ := has_of_nodesAll es h
      exact ⟨e', List.mem_cons_of_mem _ he', hhas⟩

end

namespace Program

variable {p : Program} {inner around : List Body}

theorem Holds.expr_spots {s : Stmt} {e : Expr} (h : p.Holds (inner ++ around) s)
    (he : e ∈ s.exprs) : ∀ x ∈ e.spots inner, p.HoldsNode (x.2 ++ around) x.1 := by
  intro x hx
  obtain ⟨a, ha, rfl⟩ := List.mem_map.mp hx
  exact ⟨s, h, e, he, e.has_of_nodes ha⟩

theorem Holds.expr_spots? {s : Stmt} {e : Option Expr} (h : p.Holds (inner ++ around) s)
    (he : s.exprs = e.toList) : ∀ x ∈ Expr.spots? inner e, p.HoldsNode (x.2 ++ around) x.1 := by
  cases e with
  | none => exact fun _ hx => absurd hx List.not_mem_nil
  | some e => exact h.expr_spots (he ▸ List.mem_singleton_self e)

end Program

mutual

/-- Around a node stand the bodies between the statement and it, and then those around the
statement. -/
theorem Program.Holds.spots {p : Program} {around : List Body} : ∀ (s : Stmt) {inner : List Body},
    p.Holds (inner ++ around) s → ∀ x ∈ s.spots inner, p.HoldsNode (x.2 ++ around) x.1
  | .expression e, inner, h | .print e, inner, h => by
    rw [Stmt.spots, List.forall_mem_cons]
    exact ⟨h, h.expr_spots List.mem_cons_self⟩
  | .declare _ e, inner, h | .leave _ e, inner, h => by
    rw [Stmt.spots, List.forall_mem_cons]
    exact ⟨h, h.expr_spots? rfl⟩
  | .block b, inner, h => by
    rw [Stmt.spots, List.forall_mem_cons]
    exact ⟨h, HoldsAll.spots b (h.body List.mem_cons_self)⟩
  | .branch c s none, inner, h => by
    rw [Stmt.spots, List.forall_mem_cons, List.forall_mem_append]
    exact ⟨h, h.expr_spots List.mem_cons_self, Holds.spots s (h.under List.mem_cons_self)⟩
  | .branch c s (some a), inner, h => by
    rw [Stmt.spots, List.forall_mem_cons, List.forall_mem_append, List.forall_mem_append]
    exact ⟨h, h.expr_spots List.mem_cons_self, Holds.spots s (h.under List.mem_cons_self),
      Holds.spots a (h.under (List.mem_cons_of_mem _ List.mem_cons_self))⟩
  | .loop c s, inner, h => by
    rw [Stmt.spots, List.forall_mem_cons, List.forall_mem_append]
    exact ⟨h, h.expr_spots List.mem_cons_self, Holds.spots s (h.under List.mem_cons_self)⟩
  | .function ⟨n, ps, b⟩, inner, h => by
    rw [Stmt.spots, List.forall_mem_cons]
    exact ⟨h, HoldsAll.spots b (h.body List.mem_cons_self)⟩
  | .classDecl n r ms, inner, h => by
    rw [Stmt.spots, List.forall_mem_cons]
    refine ⟨h, HoldsAll.methods_spots ms fun m hm => ?_⟩
    exact h.body (List.mem_map_of_mem hm)

theorem Program.HoldsAll.spots {p : Program} {around : List Body} : ∀ (l : List Stmt) {b : Body}
    {inner : List Body}, p.HoldsAll (b :: inner ++ around) l →
    ∀ x ∈ Stmt.spotsAll (b :: inner) l, p.HoldsNode (x.2 ++ around) x.1
  | [], _, _, _ => by simp [Stmt.spotsAll]
  | s :: l, b, inner, h => by
    rw [Stmt.spotsAll, List.forall_mem_append]
    exact ⟨Holds.spots s h.head, HoldsAll.spots l h.tail⟩

theorem Program.HoldsAll.methods_spots {p : Program} {around : List Body} :
    ∀ (ms : List (Routine Stmt)) {owner : Owner} {inner : List Body},
    (∀ m ∈ ms, p.HoldsAll (⟨owner, m.params, []⟩ :: inner ++ around) m.body) →
    ∀ x ∈ Stmt.spotsMethods owner inner ms, p.HoldsNode (x.2 ++ around) x.1
  | [], _, _, _ => by simp [Stmt.spotsMethods]
  | ⟨_, _, b⟩ :: ms, _, _, h => by
    rw [Stmt.spotsMethods, List.forall_mem_append]
    obtain ⟨hb, hms⟩ := List.forall_mem_cons.mp h
    exact ⟨HoldsAll.spots b hb, HoldsAll.methods_spots ms hms⟩

end

/-! ## How deep a spot is -/

theorem length_scopesAround_cons (b : Body) (inner : List Body) :
    (scopesAround (b :: inner)).length =
      (scopesAround inner).length + (b.owner.keywords.length + 1) := by
  rw [scopesAround, List.flatMap_cons, List.length_append, Body.scopes, List.length_cons,
    Nat.add_comm]
  rfl

theorem length_scopesAround_extend (inner : List Body) (l : List Stmt) :
    (scopesAround (extend inner l)).length = (scopesAround inner).length := by
  cases inner with
  | nil => rfl
  | cons b inner => rw [extend, length_scopesAround_cons, length_scopesAround_cons]

/-- The numbers of code that stands some scopes inside of a statement, and of other code. -/
def marker : Option Nat → Nat → Nat
  | none, _ => 0
  | some _, i => i + 1

theorem marker_map (κ : Option Nat) (d : Nat) : marker (κ.map (· + d)) = marker κ := by
  cases κ <;> rfl

/-- Code that stands `j` scopes inside of a statement: from the number `i` on, `U` holds of its
nodes and the bodies around them. -/
def Spotted (U : Nat → Node × List Body → Prop) (κ : Option Nat) (i : Nat)
    (spots : List Body → List (Node × List Body)) : Prop :=
  ∀ j ∈ κ, ∃ inner, (scopesAround inner).length = j ∧ Held U i (spots inner)

section

variable {U : Nat → Node × List Body → Prop} {κ : Option Nat} {i : Nat}
  {f : List Body → List (Node × List Body)}

theorem spotted_none : Spotted U none i f := nofun

theorem Spotted.part (h : Spotted U κ i f) {i' : Nat} {g : List Body → List (Node × List Body)}
    (hpart : ∀ inner, Held U i (f inner) → Held U i' (g inner)) : Spotted U κ i' g := by
  intro j hj
  obtain ⟨inner, hlen, hU⟩ := h j hj
  exact ⟨inner, hlen, hpart inner hU⟩

theorem Spotted.extend (h : Spotted U κ i f) {i' : Nat} {g : List Body → List (Node × List Body)}
    (l : List Stmt) (hpart : ∀ inner, Held U i (f inner) → Held U i' (g (extend inner l))) :
    Spotted U κ i' g := by
  intro j hj
  obtain ⟨inner, hlen, hU⟩ := h j hj
  exact ⟨_, (length_scopesAround_extend inner l).trans hlen, hpart inner hU⟩

/-- Inside of a body there are more scopes. -/
theorem Spotted.inside (h : Spotted U κ i f) {i' : Nat} {g : List Body → List (Node × List Body)}
    (b : Body) (hpart : ∀ inner, Held U i (f inner) → Held U i' (g (b :: inner))) :
    Spotted U (κ.map (· + (b.owner.keywords.length + 1))) i' g := by
  intro j hj
  obtain ⟨j, hκ, rfl⟩ := Option.map_eq_some_iff.mp hj
  obtain ⟨inner, rfl, hU⟩ := h j hκ
  exact ⟨_, length_scopesAround_cons b inner, hpart inner hU⟩

end

/-- A run of numbered code beside the run of the code. The context of code is how many scopes it
stands inside of the statement in question, if it is a part of it. -/
def spotLikeness (U : Nat → Node × List Body → Prop) : Likeness where
  Ctx := Option Nat
  reading := .numbers
  token _ := Eq
  names _ _ := Eq
  expr κ x e := ∃ i, x = e.number (marker κ) i ∧ Spotted U κ i (e.spots ·)
  stmt κ x s κ' := κ' = κ ∧ ∃ i, x = s.number (marker κ) i ∧ Spotted U κ i (s.spots ·)
  declares κ n n' κ' := n = n' ∧ κ' = κ
  opens κ κ₀ := κ₀ = κ.map (· + 1)
  enters κ ps ps' κ₀ := ps = ps' ∧ κ₀ = κ.map (· + 1)
  receives κ := κ.map (· + 1)
  inherits κ := κ.map (· + 1)

section

variable {U : Nat → Node × List Body → Prop} {κ : Option Nat} {i : Nat}

/-! ## Parts of code that is spotted -/

theorem Expr.held_spots {e : Expr} {inner : List Body} :
    Held U i (e.spots inner) ↔ U i (.expr e, inner) ∧ match e with
      | .literal _ | .var _ | .receiver _ | .inherited _ _ => True
      | .group a | .unary _ a | .assign _ a | .get a _ => Held U (i + 1) (a.spots inner)
      | .binary _ a b | .logical _ a b =>
        Held U (i + 1) (a.spots inner) ∧ Held U (i + 1 + a.size) (b.spots inner)
      | .set o _ v => Held U (i + 1) (v.spots inner) ∧ Held U (i + 1 + v.size) (o.spots inner)
      | .call c _ args => Held U (i + 1) (c.spots inner) ∧
        Held U (i + 1 + c.size) ((Expr.nodesAll args).map fun a => (.expr a, inner)) := by
  have hnil : Held U (i + 1) ([] : List (Node × List Body)) := nofun
  cases e with
  | literal | var | receiver | inherited =>
    simp only [spots, nodes, List.map_cons, List.map_nil, held_cons, hnil]
  | group | unary | assign | get => simp only [spots, nodes, List.map_cons, held_cons]
  | binary | logical | set | call =>
    simp only [spots, nodes, List.map_cons, List.map_append, held_cons, held_append,
      List.length_map, length_nodes]

theorem Stmt.held_spots {s : Stmt} {inner : List Body} :
    Held U i (s.spots inner) ↔ U i (.stmt s, inner) ∧ match s with
      | .expression e | .print e => Held U (i + 1) (e.spots inner)
      | .declare _ e | .leave _ e => Held U (i + 1) (Expr.spots? inner e)
      | .block b => Held U (i + 1) (Stmt.spotsAll (⟨.block, [], []⟩ :: inner) b)
      | .branch c s none | .loop c s =>
        Held U (i + 1) (c.spots inner) ∧ Held U (i + 1 + c.size) (s.spots inner)
      | .branch c s (some a) =>
        Held U (i + 1) (c.spots inner) ∧ Held U (i + 1 + c.size) (s.spots inner) ∧
          Held U (i + 1 + (c.size + s.size)) (a.spots inner)
      | .function ⟨n, ps, b⟩ => Held U (i + 1) (Stmt.spotsAll (⟨.function n, ps, []⟩ :: inner) b)
      | .classDecl n r ms => Held U (i + 1) (Stmt.spotsMethods (.method n r ms) inner ms) := by
  cases s with
  | expression | print | declare | leave | block | function | classDecl =>
    rw [spots, held_cons]
  | loop c s => rw [spots, held_cons, held_append, Expr.length_spots]
  | branch c s a =>
    cases a with
    | none => rw [spots, held_cons, held_append, Expr.length_spots]
    | some a =>
      rw [spots, held_cons, held_append, held_append, Expr.length_spots, length_spots,
        Nat.add_assoc (i + 1)]

theorem exprs_spotted {es : List Expr}
    (h : Spotted U κ i fun inner => (Expr.nodesAll es).map fun a => (.expr a, inner)) :
    List.Forall₂ ((spotLikeness U).expr κ) (Expr.numberAll (marker κ) i es) es := by
  induction es generalizing i with
  | nil =>
    rw [Expr.numberAll]
    exact .nil
  | cons e es ih =>
    have hsplit : ∀ inner, Held U i ((Expr.nodesAll (e :: es)).map fun a => (.expr a, inner)) →
        Held U i (e.spots inner) ∧
          Held U (i + e.size) ((Expr.nodesAll es).map fun a => (.expr a, inner)) := by
      intro inner hU
      rwa [Expr.nodesAll, List.map_append, held_append, List.length_map, Expr.length_nodes] at hU
    rw [Expr.numberAll]
    exact .cons ⟨i, rfl, h.part fun inner hU => (hsplit inner hU).1⟩
      (ih (h.part fun inner hU => (hsplit inner hU).2))

theorem exprParts_spotted {e : Expr} (h : Spotted U κ i (e.spots ·)) :
    (spotLikeness U).ExprParts κ (CodeReading.numbers.expr (e.number (marker κ) i)) e := by
  have part : ∀ {a : Expr} {i' : Nat},
      (∀ inner, Held U i (e.spots inner) → Held U i' (a.spots inner)) →
      (spotLikeness U).expr κ (a.number (marker κ) i') a := fun ha => ⟨_, rfl, h.part ha⟩
  cases e with
  | literal v =>
    rw [Expr.number]
    exact .literal v
  | var r =>
    rw [Expr.number]
    exact .var ⟨rfl, rfl⟩
  | receiver r =>
    rw [Expr.number]
    exact .receiver ⟨rfl, rfl⟩
  | inherited r m =>
    rw [Expr.number]
    exact .inherited ⟨rfl, rfl⟩ rfl (fun _ _ => rfl) rfl
  | group a =>
    rw [Expr.number]
    exact .group (part fun _ hU => (Expr.held_spots.mp hU).2)
  | unary op a =>
    rw [Expr.number]
    exact .unary rfl (part fun _ hU => (Expr.held_spots.mp hU).2)
  | assign r a =>
    rw [Expr.number]
    exact .assign ⟨rfl, rfl⟩ (part fun _ hU => (Expr.held_spots.mp hU).2)
  | get a n =>
    rw [Expr.number]
    exact .get (part fun _ hU => (Expr.held_spots.mp hU).2) rfl
  | binary op a b =>
    rw [Expr.number]
    exact .binary rfl (part fun _ hU => (Expr.held_spots.mp hU).2.1)
      (part fun _ hU => (Expr.held_spots.mp hU).2.2)
  | logical op a b =>
    rw [Expr.number]
    exact .logical rfl (part fun _ hU => (Expr.held_spots.mp hU).2.1)
      (part fun _ hU => (Expr.held_spots.mp hU).2.2)
  | set o n v =>
    rw [Expr.number]
    exact .set (part fun _ hU => (Expr.held_spots.mp hU).2.2) rfl
      (part fun _ hU => (Expr.held_spots.mp hU).2.1)
  | call c p args =>
    rw [Expr.number]
    exact .call (part fun _ hU => (Expr.held_spots.mp hU).2.1) rfl
      (exprs_spotted (h.part fun _ hU => (Expr.held_spots.mp hU).2.2))

theorem expr?_spotted {e : Option Expr} (h : Spotted U κ i fun inner => Expr.spots? inner e) :
    Option.Rel ((spotLikeness U).expr κ) (e.map (·.number (marker κ) i)) e := by
  cases e with
  | none => exact .none
  | some e => exact .some ⟨i, rfl, h⟩

theorem stmts_spotted {l : List Stmt} (h : Spotted U κ i fun inner => Stmt.spotsAll inner l) :
    (spotLikeness U).Stmts κ (Stmt.numberAll (marker κ) i l) l := by
  induction l generalizing i with
  | nil =>
    rw [Stmt.numberAll]
    exact .nil
  | cons s l ih =>
    have hsplit : ∀ inner, Held U i (Stmt.spotsAll inner (s :: l)) →
        Held U i (s.spots (extend inner [s])) ∧
          Held U (i + s.size) (Stmt.spotsAll (extend inner [s]) l) := by
      intro inner hU
      rwa [Stmt.spotsAll, held_append, Stmt.length_spots] at hU
    rw [Stmt.numberAll]
    exact .cons ⟨rfl, i, rfl, h.extend [s] fun inner hU => (hsplit inner hU).1⟩
      (ih (h.extend [s] fun inner hU => (hsplit inner hU).2))

theorem body_spotted {l : List Stmt} {f : List Body → List (Node × List Body)} {b : Body}
    (h : Spotted U κ i f) {i' : Nat}
    (hl : ∀ inner, Held U i (f inner) → Held U i' (Stmt.spotsAll (b :: inner) l)) :
    (spotLikeness U).Stmts (κ.map (· + (b.owner.keywords.length + 1)))
      (Stmt.numberAll (marker κ) i' l) l := by
  rw [← marker_map κ (b.owner.keywords.length + 1)]
  exact stmts_spotted (h.inside b hl)

/-- Methods are made inside of the scopes that bind the keywords. -/
theorem methods_spotted {owner : Owner} {ms : List (Routine Stmt)}
    (h : Spotted U κ i fun inner => Stmt.spotsMethods owner inner ms) :
    List.Forall₂ ((spotLikeness U).Routines (κ.map (· + owner.keywords.length)))
      (Stmt.numberMethods (marker κ) i ms) ms := by
  induction ms generalizing i with
  | nil =>
    rw [Stmt.numberMethods]
    exact .nil
  | cons m ms ih =>
    obtain ⟨n, ps, b⟩ := m
    have hsplit : ∀ inner, Held U i (Stmt.spotsMethods owner inner (⟨n, ps, b⟩ :: ms)) →
        Held U i (Stmt.spotsAll (⟨owner, ps, []⟩ :: inner) b) ∧
          Held U (i + Stmt.sizeAll b) (Stmt.spotsMethods owner inner ms) := by
      intro inner hU
      rwa [Stmt.spotsMethods, held_append, Stmt.length_spotsAll] at hU
    rw [Stmt.numberMethods]
    refine .cons ⟨rfl, _, ⟨rfl, ?_⟩, body_spotted h fun inner hU => (hsplit inner hU).1⟩
      (ih (h.part fun inner hU => (hsplit inner hU).2))
    cases κ <;> rfl

theorem stmtParts_spotted {s : Stmt} (h : Spotted U κ i (s.spots ·)) :
    (spotLikeness U).StmtParts κ (CodeReading.numbers.stmt (s.number (marker κ) i)) s κ := by
  have expr : ∀ {a : Expr} {i' : Nat},
      (∀ inner, Held U i (s.spots inner) → Held U i' (a.spots inner)) →
      (spotLikeness U).expr κ (a.number (marker κ) i') a := fun ha => ⟨_, rfl, h.part ha⟩
  have stmt : ∀ {a : Stmt} {i' : Nat},
      (∀ inner, Held U i (s.spots inner) → Held U i' (a.spots inner)) →
      (spotLikeness U).stmt κ (a.number (marker κ) i') a κ := fun ha => ⟨rfl, _, rfl, h.part ha⟩
  cases s with
  | expression e =>
    rw [Stmt.number]
    exact .expression (expr fun _ hU => (Stmt.held_spots.mp hU).2)
  | print e =>
    rw [Stmt.number]
    exact .print (expr fun _ hU => (Stmt.held_spots.mp hU).2)
  | declare n e =>
    rw [Stmt.number]
    exact .declare (expr?_spotted (h.part fun _ hU => (Stmt.held_spots.mp hU).2)) ⟨rfl, rfl⟩
  | leave t e =>
    rw [Stmt.number]
    exact .leave (expr?_spotted (h.part fun _ hU => (Stmt.held_spots.mp hU).2))
  | block b =>
    rw [Stmt.number]
    exact .block rfl (body_spotted (b := ⟨.block, [], []⟩) h
      fun _ hU => (Stmt.held_spots.mp hU).2)
  | branch c s a =>
    cases a with
    | none =>
      rw [Stmt.number]
      exact .branch (expr fun _ hU => (Stmt.held_spots.mp hU).2.1)
        (stmt fun _ hU => (Stmt.held_spots.mp hU).2.2) .none
    | some a =>
      rw [Stmt.number]
      exact .branch (expr fun _ hU => (Stmt.held_spots.mp hU).2.1)
        (stmt fun _ hU => (Stmt.held_spots.mp hU).2.2.1)
        (.some (stmt fun _ hU => (Stmt.held_spots.mp hU).2.2.2))
  | loop c s =>
    rw [Stmt.number]
    exact .loop (expr fun _ hU => (Stmt.held_spots.mp hU).2.1)
      (stmt fun _ hU => (Stmt.held_spots.mp hU).2.2)
  | function r =>
    obtain ⟨n, ps, b⟩ := r
    rw [Stmt.number]
    exact .function ⟨rfl, rfl⟩ ⟨rfl, _, ⟨rfl, rfl⟩,
      body_spotted (b := ⟨.function n, ps, []⟩) h fun _ hU => (Stmt.held_spots.mp hU).2⟩
  | classDecl n r ms =>
    have hms : Spotted U κ (i + 1) fun inner => Stmt.spotsMethods (.method n r ms) inner ms :=
      h.part fun _ hU => (Stmt.held_spots.mp hU).2
    have hmethods := methods_spotted hms
    rw [Stmt.number]
    cases r with
    | none => exact .base rfl ⟨rfl, rfl⟩ hmethods
    | some r =>
      have hmap : κ.map (· + (Owner.method n (some r) ms).keywords.length) =
          (κ.map (· + 1)).map (· + 1) := by
        cases κ <;> rfl
      rw [hmap] at hmethods
      exact .derived rfl ⟨rfl, rfl⟩ ⟨rfl, rfl⟩ hmethods

end

/-! ## Links between scopes -/

namespace Scopes

variable {σ σ' : Scopes} {id top : ScopeId}

/-- Every scope that is inside another stays there. -/
def Links (σ σ' : Scopes) : Prop :=
  ∀ id p, σ.parent? id = some p → σ'.parent? id = some p

theorem links_define (σ : Scopes) (id : ScopeId) (name : String) (v : Value) :
    σ.Links (σ.define id name v) := by
  intro other p h
  rwa [parent?_define]

theorem links_push (σ : Scopes) (parent : Option ScopeId) : σ.Links (σ.push parent) := by
  intro id p h
  rwa [parent?_push, if_neg (Nat.ne_of_lt (lt_next_of_parent? h))]

theorem links_bindAll (σ : Scopes) (id : ScopeId) (l : List (Token × Value)) :
    σ.Links (σ.bindAll id l) := by
  induction l generalizing σ with
  | nil => exact fun _ _ h => h
  | cons b l ih => exact fun other p h => ih _ other p (links_define σ id _ _ other p h)

theorem Links.ancestor? (h : σ.Links σ') {d : Nat} {a : ScopeId}
    (ha : σ.ancestor? id d = some a) : σ'.ancestor? id d = some a := by
  induction d generalizing id with
  | zero => exact ha
  | succ d ih =>
    obtain ⟨p, hp, ha⟩ := Option.bind_eq_some_iff.mp ha
    rw [Scopes.ancestor?, h id p hp]
    exact ih ha

/-- Code of a statement that was run in `top` runs in a scope that is inside of `top` by as many
scopes as the code is inside of the statement. -/
def Reaches (σ : Scopes) (top : ScopeId) (κ : Option Nat) (id : ScopeId) : Prop :=
  ∀ j ∈ κ, σ.ancestor? id j = some top

theorem Reaches.mono {κ : Option Nat} (h : σ.Reaches top κ id) (hle : σ.Links σ') :
    σ'.Reaches top κ id :=
  fun j hj => hle.ancestor? (h j hj)

theorem Reaches.inside {κ : Option Nat} (h : σ.Reaches top κ id) {inner : ScopeId}
    (hparent : σ.parent? inner = some id) : σ.Reaches top (κ.map (· + 1)) inner := by
  intro j hj
  obtain ⟨j, hκ, rfl⟩ := Option.map_eq_some_iff.mp hj
  rw [ancestor?, hparent]
  exact h j hκ

/-- The scope that a block opens. -/
theorem Reaches.push {κ : Option Nat} (h : σ.Reaches top κ id) :
    (σ.push (some id)).Reaches top (κ.map (· + 1)) σ.next := by
  refine (h.mono (σ.links_push _)).inside ?_
  rw [parent?_push, if_pos rfl]

end Scopes

/-! ## The run of a statement and what follows -/

/-- Runs of numbered code beside runs of the code. What is a part of the statement runs that far
inside of the scope `top`, which the statement was run in. -/
def spotRuns (U : Nat → Node × List Body → Prop) (top : ScopeId) : Correspondence where
  toLikeness := spotLikeness U
  World := Scopes
  le := Scopes.Links
  le_refl _ _ _ h := h
  le_trans h h' id p hp := h' id p (h id p hp)
  fault := Eq
  stands σ κ s := σ.Reaches top κ s
  scopes w σ σ' := w = σ ∧ σ = σ'
  kind_eq := congrArg Token.kind
  lexeme_eq := congrArg Token.lexeme
  fault_token _ h := by
    cases h
    rfl
  fault_channel f := (id_eq (Diagnostic.channel f)).symm
  fault_superclass h := by
    cases h
    rfl
  fault_unary := by
    rintro κ _ op op' e e' v f ⟨k, rfl, _⟩ hread _
    obtain ⟨rfl, -⟩ := Expr.unary.inj hread
    rfl
  fault_binary := by
    rintro κ _ op op' a a' b b' u v f ⟨k, rfl, _⟩ hread _
    obtain ⟨rfl, -⟩ := Expr.binary.inj hread
    rfl
  names_this := by
    rintro t _ κ rfl
    rfl
  expr_parts := by
    rintro κ _ e ⟨k, rfl, h⟩
    exact exprParts_spotted h
  stmt_parts := by
    rintro κ _ _ s ⟨rfl, k, rfl, h⟩
    exact stmtParts_spotted h
  length_eq := by
    rintro κ κ₀ ps _ ⟨rfl, _⟩
    rfl
  stands_mono hle h := h.mono hle
  next_eq h := congrArg Scopes.next h.2
  find := by
    rintro w σ _ κ s d t _ ⟨rfl, rfl⟩ _ rfl
    exact .of_ok fun _ _ => rfl
  inherited := by
    rintro w σ _ κ s _ r r' m m' _ _ ⟨k, rfl, _⟩ hread
    obtain ⟨rfl, -⟩ := Expr.inherited.inj hread
    exact .inl rfl
  assign := by
    rintro w σ _ κ s _ r r' e e' v ⟨rfl, rfl⟩ _ ⟨k, rfl, _⟩ hread
    obtain ⟨rfl, -⟩ := Expr.assign.inj hread
    cases htarget : w.target? s r'.depth r'.name.lexeme with
    | none => exact .inr ⟨rfl, rfl, rfl⟩
    | some id => exact .inl ⟨id, id, _, rfl, rfl, w.links_define id _ v, rfl, rfl⟩
  define := by
    rintro w σ _ κ _ s n _ v ⟨rfl, rfl⟩ hs ⟨rfl, rfl⟩
    have hle := w.links_define s n.lexeme v
    exact ⟨_, hle, ⟨rfl, rfl⟩, hs.mono hle⟩
  block := by
    rintro w σ _ κ _ s ⟨rfl, rfl⟩ hs rfl
    exact ⟨_, w.links_push _, ⟨rfl, rfl⟩, hs.push⟩
  call := by
    rintro w σ _ κ _ s ps _ args ⟨rfl, rfl⟩ hs ⟨rfl, rfl⟩ _
    have hle := (w.push (some s)).links_bindAll w.next (ps.zip args)
    exact ⟨_, fun id p h => hle id p (w.links_push _ id p h), ⟨rfl, rfl⟩, hs.push.mono hle⟩
  attach := by
    rintro w σ _ κ s o ⟨rfl, rfl⟩ hs
    have hle := (w.push (some s)).links_define w.next "this" (.object o)
    exact ⟨_, fun id p h => hle id p (w.links_push _ id p h), ⟨rfl, rfl⟩, hs.push.mono hle⟩
  derive := by
    rintro w σ _ κ _ s n _ c v ⟨rfl, rfl⟩ hs ⟨rfl, rfl⟩
    have hle : (w.push (some s)).Links
        (((w.push (some s)).define w.next "super" (.cls c)).define s n.lexeme v) :=
      fun id p h => Scopes.links_define _ s _ v id p (Scopes.links_define _ w.next _ _ id p h)
    have hall := fun id p h => hle id p (w.links_push (some s) id p h)
    exact ⟨_, hall, ⟨rfl, rfl⟩, hs.mono hall, hs.push.mono hle⟩

theorem spotRuns_numbers {U : Nat → Node × List Body → Prop} {top : ScopeId} :
    (spotRuns U top).Numbers where
  reading_eq := rfl
  token_eq h := h
  enters_eq h := h.1
  expr_eq := fun ⟨i, hx, _⟩ => ⟨_, i, hx⟩
  stmt_eq := fun ⟨_, i, hx, _⟩ => ⟨_, i, hx⟩
  fault_eq h := h
  scopes_eq h := h.2

/-- Code that is no part of the statement: its nodes have the number 0. -/
def Program.unmarked (p : Program) : Program :=
  Stmt.numberAll (fun _ => 0) 0 p

def Routine.unmarked (r : Routine Stmt) : Routine Stmt :=
  { r with body := Program.unmarked r.body }

/-- The machine with the number 0 in front of all its code. -/
def Machine.unmarked (m : Machine) : Machine :=
  m.mapRoutines Routine.unmarked

/-- The statement with its nodes numbered from 1 on. -/
def Stmt.marked (s : Stmt) : Stmt :=
  s.number (· + 1) 0

/-- The run of `s` from `m` and all runs that may follow, of any code and in any scope. Each of
them is that of a program `p` from a machine `m'`, and beside it stands the same with numbers:
the nodes of `s` have their numbers, wherever they got to, and all others have the number 0. -/
inductive Eval.Traced (s : Stmt) (m : Machine) : Program → Machine → Program → Machine → Prop
  | here : Traced s m [s.marked] m.unmarked [s] m
  | later {q p : Program} {n m' : Machine} (fuel : Nat) (next : Program) (x : Machine) :
    Traced s m q n p m' → Traced s m next.unmarked
      { x with store := (after (runAll (execRead .numbers silent fuel) q n)).store }
      next { x with store := (after (runAll (exec fuel) p m')).store }

/-- What is known of a node by its number. -/
def spotIn (s : Stmt) (i : Nat) (x : Node × List Body) : Prop :=
  (s.spots [])[i]? = some x

section

variable {U : Nat → Node × List Body → Prop} {top : ScopeId}

theorem stmts_unmarked (p : Program) : (spotRuns U top).Stmts none p.unmarked p :=
  stmts_spotted spotted_none

theorem routines_unmarked (r : Routine Stmt) : (spotRuns U top).Routines none r.unmarked r :=
  ⟨rfl, none, ⟨rfl, rfl⟩, stmts_unmarked r.body⟩

theorem reaches_none (σ : Scopes) (id : ScopeId) : σ.Reaches top none id := nofun

/-- A machine beside itself with the number 0 everywhere. -/
theorem machines_unmarked (m : Machine) :
    (spotRuns U top).Machines m.store.scopes m.scope m.unmarked m := by
  refine ⟨⟨⟨rfl, rfl⟩, Array.size_map, fun id => ?_, rfl, Array.size_map, fun id => ?_, rfl⟩, rfl,
    rfl, rfl, rfl, rfl, rfl⟩
  · show Option.Rel _ (m.store.functions.map (Closure.mapRoutine Routine.unmarked))[id]? _
    rw [Array.getElem?_map]
    cases m.store.functions[id]? with
    | none => exact .none
    | some f =>
      exact .some ⟨rfl, rfl, none, reaches_none _ _, routines_unmarked f.routine, fun _ => rfl⟩
  · show Option.Rel _ (m.store.classes.map (ClassInfo.mapRoutines Routine.unmarked))[id]? _
    rw [Array.getElem?_map]
    cases m.store.classes[id]? with
    | none => exact .none
    | some c =>
      refine .some ⟨rfl, rfl, List.forall₂_map_left_iff.mpr (List.forall₂_same.mpr ?_)⟩
      exact fun x _ => ⟨rfl, rfl, rfl, none, reaches_none _ _, routines_unmarked x.2.routine⟩

theorem stmts_marked (s : Stmt) : (spotRuns (spotIn s) top).Stmts (some 0) [s.marked] [s] := by
  refine .cons ⟨rfl, 0, rfl, ?_⟩ .nil
  rintro _ ⟨⟩
  refine ⟨[], rfl, fun i x hx => ?_⟩
  rwa [Nat.zero_add]

end

namespace Eval.Traced

variable {s : Stmt} {m m' n : Machine} {p q : Program}

/-- Every one of the runs is in step with its numbered run. -/
theorem machines (h : Traced s m q n p m') :
    ∃ w κ, (spotRuns (spotIn s) m.scope).Machines w m'.scope n m' ∧
      (spotRuns (spotIn s) m.scope).stands w κ m'.scope ∧
      (spotRuns (spotIn s) m.scope).Stmts κ q p := by
  induction h with
  | here =>
    refine ⟨_, some 0, machines_unmarked m, ?_, stmts_marked s⟩
    rintro _ ⟨⟩
    rfl
  | later fuel next x _ ih =>
    obtain ⟨w, κ, hm, hκ, hp⟩ := ih
    obtain ⟨w', _, hm'⟩ := (Correspondence.runAll_read_sim hκ hp fuel _ _ hm).after
    exact ⟨w', none, ⟨hm'.store, rfl, rfl, rfl, rfl, rfl, rfl⟩, reaches_none _ _,
      stmts_unmarked next⟩

theorem follows (h : Traced s m q n p m') (fuel : Nat) : Follows fuel q n p m' := by
  obtain ⟨w, κ, hm, hκ, hp⟩ := h.machines
  exact spotRuns_numbers.follows hm hκ hp fuel

/-- A node that has a number of the statement runs as far inside as it stands. -/
theorem of_spot {top : ScopeId} {w : Scopes} {κ : Option Nat} {scope : ScopeId} {k : Nat} {a : Node}
    {m₁ m₂ : Machine} (hm : (spotRuns (spotIn s) top).Machines w scope m₁ m₂)
    (hκ : w.Reaches top κ scope) (hU : Spotted (spotIn s) κ k fun inner => [(a, inner)]) (i : Nat)
    (hi : marker κ k = i + 1) : ∃ inner, (s.spots [])[i]? = some (a, inner) ∧
      m₂.store.scopes.ancestor? m₂.scope (scopesAround inner).length = some top := by
  cases κ with
  | none => cases hi
  | some j =>
    obtain rfl : k = i := Nat.succ.inj hi
    obtain ⟨inner, rfl, hheld⟩ := hU j rfl
    refine ⟨inner, (held_cons.mp hheld).1, ?_⟩
    rw [hm.scope', ← hm.store.scopes.2, ← hm.store.scopes.1]
    exact hκ _ rfl

/-- When a node of the statement runs, it runs as many scopes inside of the scope that the
statement was run in as there are between the two in the text. -/
theorem ancestor? (h : Traced s m q n p m') {fuel i : Nat} {node : Node} {now : Machine}
    (hv : VisitsAt fuel q n (i + 1) node now) :
    ∃ inner, (s.spots [])[i]? = some (node, inner) ∧
      now.store.scopes.ancestor? now.scope (scopesAround inner).length = some m.scope := by
  obtain ⟨w, κ, hm, hκ, hp⟩ := h.machines
  refine spotRuns_numbers.of_visitsAt (P := fun k node now => ∀ i, k = i + 1 →
    ∃ inner, (s.spots [])[i]? = some (node, inner) ∧
      now.store.scopes.ancestor? now.scope (scopesAround inner).length = some m.scope)
    ?_ ?_ hm hκ hp hv i rfl
  · rintro w κ scope _ e m₁ m₂ hm hκ ⟨k, rfl, hU⟩
    refine ⟨_, e.tag?_number _ k, of_spot hm hκ (hU.part fun inner hheld => ?_)⟩
    exact held_cons.mpr ⟨(Expr.held_spots.mp hheld).1, nofun⟩
  · rintro w κ _ scope _ t m₁ m₂ hm hκ ⟨rfl, k, rfl, hU⟩
    refine ⟨_, t.tag?_number _ k, of_spot hm hκ (hU.part fun inner hheld => ?_)⟩
    exact held_cons.mpr ⟨(Stmt.held_spots.mp hheld).1, nofun⟩

end Eval.Traced

end Treewalk
