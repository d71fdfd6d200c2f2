import Treewalk.Proofs.Lockstep.Images

/-!
# Numbered code

Equal code may stand at several places, so what a run comes to does not say which place it is
at. Numbers do: `Stmt.numberAll` counts the nodes of a program from a given number on, in the
order in which the resolver comes to them, and gives each a number that may depend on the count.
The number is put in front of its node as a test that lets everything pass, `nil or e` and
`if (nil or true) s` with the number as the line of `or`. It is read off before the node runs
(`CodeReading.numbers`) and goes wherever its code goes, into closures and out of them.

Without the numbers (`Stmt.strip`, `Machine.strip`) code and machines are what they were, and
a run of numbered code beside the run of the code ends as that does and comes to the same nodes
(`Correspondence.Numbers.follows`).
-/

namespace Treewalk

/-! ## How many nodes there are -/

mutual

def Expr.size : Expr → Nat
  | .literal _ | .var _ | .receiver _ | .inherited _ _ => 1
  | .group e | .unary _ e | .assign _ e | .get e _ => e.size + 1
  | .binary _ a b | .logical _ a b => a.size + b.size + 1
  | .set o _ v => v.size + o.size + 1
  | .call f _ args => f.size + Expr.sizeAll args + 1

def Expr.sizeAll : List Expr → Nat
  | [] => 0
  | e :: es => e.size + Expr.sizeAll es

end

def Expr.size? : Option Expr → Nat
  | none => 0
  | some e => e.size

mutual

def Stmt.size : Stmt → Nat
  | .expression e | .print e => e.size + 1
  | .declare _ e | .leave _ e => Expr.size? e + 1
  | .block b => Stmt.sizeAll b + 1
  | .branch c s none => c.size + s.size + 1
  | .branch c s (some a) => c.size + s.size + a.size + 1
  | .loop c s => c.size + s.size + 1
  | .function ⟨_, _, b⟩ => Stmt.sizeAll b + 1
  | .classDecl _ _ ms => Stmt.sizeMethods ms + 1

def Stmt.sizeAll : List Stmt → Nat
  | [] => 0
  | s :: rest => s.size + Stmt.sizeAll rest

def Stmt.sizeMethods : List (Routine Stmt) → Nat
  | [] => 0
  | ⟨_, _, b⟩ :: rest => Stmt.sizeAll b + Stmt.sizeMethods rest

end

/-! ## Numbers in front of nodes -/

/-- `nil or e`, with the number as a line. -/
def Expr.tagged (k : Nat) (e : Expr) : Expr :=
  .logical ⟨.symbol .orWord, "or", k⟩ (.literal .nil) e

/-- `if (nil or true) s`. -/
def Stmt.tagged (k : Nat) (s : Stmt) : Stmt :=
  .branch (.tagged k (.literal (.bool true))) s none

def Expr.tag? : Expr → Option Nat
  | .logical t (.literal .nil) _ => some t.line
  | _ => none

def Stmt.tag? : Stmt → Option Nat
  | .branch c _ none => c.tag?
  | _ => none

/-- The number in front of a node. -/
def Node.tag? : Node → Option Nat
  | .expr e => e.tag?
  | .stmt s => s.tag?

mutual

/-- The nodes of an expression, counted from `k` on, with numbers that `f` gives. -/
def Expr.number (f : Nat → Nat) (k : Nat) (e : Expr) : Expr :=
  .tagged (f k) <| match e with
    | .literal v => .literal v
    | .var r => .var r
    | .receiver t => .receiver t
    | .inherited t m => .inherited t m
    | .group e => .group (e.number f (k + 1))
    | .unary op e => .unary op (e.number f (k + 1))
    | .assign r e => .assign r (e.number f (k + 1))
    | .get e n => .get (e.number f (k + 1)) n
    | .binary op a b => .binary op (a.number f (k + 1)) (b.number f (k + 1 + a.size))
    | .logical op a b => .logical op (a.number f (k + 1)) (b.number f (k + 1 + a.size))
    | .set o n v => .set (o.number f (k + 1 + v.size)) n (v.number f (k + 1))
    | .call c p args => .call (c.number f (k + 1)) p (Expr.numberAll f (k + 1 + c.size) args)

def Expr.numberAll (f : Nat → Nat) (k : Nat) : List Expr → List Expr
  | [] => []
  | e :: es => e.number f k :: Expr.numberAll f (k + e.size) es

end

mutual

/-- The nodes of a statement, counted from `k` on. -/
def Stmt.number (f : Nat → Nat) (k : Nat) (s : Stmt) : Stmt :=
  .tagged (f k) <| match s with
    | .expression e => .expression (e.number f (k + 1))
    | .print e => .print (e.number f (k + 1))
    | .declare n e => .declare n (e.map (·.number f (k + 1)))
    | .block b => .block (Stmt.numberAll f (k + 1) b)
    | .branch c s none => .branch (c.number f (k + 1)) (s.number f (k + 1 + c.size)) none
    | .branch c s (some a) => .branch (c.number f (k + 1)) (s.number f (k + 1 + c.size))
      (some (a.number f (k + 1 + (c.size + s.size))))
    | .loop c s => .loop (c.number f (k + 1)) (s.number f (k + 1 + c.size))
    | .function ⟨n, ps, b⟩ => .function ⟨n, ps, Stmt.numberAll f (k + 1) b⟩
    | .leave t e => .leave t (e.map (·.number f (k + 1)))
    | .classDecl n r ms => .classDecl n r (Stmt.numberMethods f (k + 1) ms)

def Stmt.numberAll (f : Nat → Nat) (k : Nat) : List Stmt → List Stmt
  | [] => []
  | s :: rest => s.number f k :: Stmt.numberAll f (k + s.size) rest

def Stmt.numberMethods (f : Nat → Nat) (k : Nat) : List (Routine Stmt) → List (Routine Stmt)
  | [] => []
  | ⟨n, ps, b⟩ :: rest =>
    ⟨n, ps, Stmt.numberAll f k b⟩ :: Stmt.numberMethods f (k + Stmt.sizeAll b) rest

end

/-- Code behind its number. -/
def CodeReading.numbers : CodeReading where
  expr
    | .logical _ (.literal .nil) e => e
    | e => e
  stmt
    | .branch _ s none => s
    | s => s

/-! ## Code without its numbers -/

mutual

def Expr.strip : Expr → Expr
  | .logical _ (.literal .nil) e => e.stripParts
  | e => e

def Expr.stripParts : Expr → Expr
  | .group e => .group e.strip
  | .unary op e => .unary op e.strip
  | .assign r e => .assign r e.strip
  | .get e n => .get e.strip n
  | .binary op a b => .binary op a.strip b.strip
  | .logical op a b => .logical op a.strip b.strip
  | .set o n v => .set o.strip n v.strip
  | .call f p args => .call f.strip p (Expr.stripAll args)
  | e => e

def Expr.stripAll : List Expr → List Expr
  | [] => []
  | e :: es => e.strip :: Expr.stripAll es

end

mutual

def Stmt.strip : Stmt → Stmt
  | .branch _ s none => s.stripParts
  | s => s

def Stmt.stripParts : Stmt → Stmt
  | .expression e => .expression e.strip
  | .print e => .print e.strip
  | .declare n e => .declare n (e.map Expr.strip)
  | .block b => .block (Stmt.stripAll b)
  | .branch c s none => .branch c.strip s.strip none
  | .branch c s (some a) => .branch c.strip s.strip (some a.strip)
  | .loop c s => .loop c.strip s.strip
  | .function ⟨n, ps, b⟩ => .function ⟨n, ps, Stmt.stripAll b⟩
  | .leave t e => .leave t (e.map Expr.strip)
  | .classDecl n r ms => .classDecl n r (Stmt.stripMethods ms)

def Stmt.stripAll : List Stmt → List Stmt
  | [] => []
  | s :: rest => s.strip :: Stmt.stripAll rest

def Stmt.stripMethods : List (Routine Stmt) → List (Routine Stmt)
  | [] => []
  | ⟨n, ps, b⟩ :: rest => ⟨n, ps, Stmt.stripAll b⟩ :: Stmt.stripMethods rest

end

def Node.strip : Node → Node
  | .expr e => .expr e.strip
  | .stmt s => .stmt s.strip

def Routine.strip (r : Routine Stmt) : Routine Stmt :=
  { r with body := Stmt.stripAll r.body }

/-- The machine without the numbers of its code. -/
def Machine.strip (m : Machine) : Machine :=
  m.mapRoutines Routine.strip

theorem Expr.tag?_number (f : Nat → Nat) (k : Nat) (e : Expr) :
    (e.number f k).tag? = some (f k) := by
  rw [Expr.number.eq_def, tagged, tag?]

theorem Stmt.tag?_number (f : Nat → Nat) (k : Nat) (s : Stmt) :
    (s.number f k).tag? = some (f k) := by
  rw [Stmt.number.eq_def, tagged, tag?, Expr.tagged, Expr.tag?]

mutual

theorem Expr.strip_number (f : Nat → Nat) : ∀ (e : Expr) (k : Nat), (e.number f k).strip = e
  | .literal _, _ | .var _, _ | .receiver _, _ | .inherited _ _, _ => by
    simp only [Expr.number, tagged, strip, stripParts]
  | .group e, k | .unary _ e, k | .assign _ e, k | .get e _, k => by
    simp only [Expr.number, tagged, strip, stripParts, strip_number f e]
  | .binary _ a b, k | .logical _ a b, k => by
    simp only [Expr.number, tagged, strip, stripParts, strip_number f a, strip_number f b]
  | .set o _ v, k => by
    simp only [Expr.number, tagged, strip, stripParts, strip_number f o, strip_number f v]
  | .call c _ args, k => by
    simp only [Expr.number, tagged, strip, stripParts, strip_number f c, stripAll_numberAll f args]

theorem Expr.stripAll_numberAll (f : Nat → Nat) : ∀ (es : List Expr) (k : Nat),
    Expr.stripAll (Expr.numberAll f k es) = es
  | [], _ => by rw [numberAll, stripAll]
  | e :: es, k => by rw [numberAll, stripAll, strip_number f e, stripAll_numberAll f es]

end

theorem Expr.strip?_number (f : Nat → Nat) (e : Option Expr) (k : Nat) :
    (e.map (·.number f k)).map Expr.strip = e := by
  cases e with
  | none => rfl
  | some e => exact congrArg some (e.strip_number f k)

mutual

theorem Stmt.strip_number (f : Nat → Nat) : ∀ (s : Stmt) (k : Nat), (s.number f k).strip = s
  | .expression e, k | .print e, k => by
    simp only [Stmt.number, tagged, strip, stripParts, Expr.strip_number f e]
  | .declare _ e, k | .leave _ e, k => by
    simp only [Stmt.number, tagged, strip, stripParts, Expr.strip?_number f e]
  | .block b, k | .function ⟨_, _, b⟩, k => by
    simp only [Stmt.number, tagged, strip, stripParts, stripAll_numberAll f b]
  | .branch c s none, k | .loop c s, k => by
    simp only [Stmt.number, tagged, strip, stripParts, Expr.strip_number f c, strip_number f s]
  | .branch c s (some a), k => by
    simp only [Stmt.number, tagged, strip, stripParts, Expr.strip_number f c, strip_number f s,
      strip_number f a]
  | .classDecl _ _ ms, k => by
    simp only [Stmt.number, tagged, strip, stripParts, stripMethods_numberMethods f ms]

theorem Stmt.stripAll_numberAll (f : Nat → Nat) : ∀ (b : List Stmt) (k : Nat),
    Stmt.stripAll (Stmt.numberAll f k b) = b
  | [], _ => by rw [numberAll, stripAll]
  | s :: b, k => by rw [numberAll, stripAll, strip_number f s, stripAll_numberAll f b]

theorem Stmt.stripMethods_numberMethods (f : Nat → Nat) : ∀ (ms : List (Routine Stmt)) (k : Nat),
    Stmt.stripMethods (Stmt.numberMethods f k ms) = ms
  | [], _ => by rw [numberMethods, stripMethods]
  | ⟨_, _, b⟩ :: ms, k => by
    rw [numberMethods, stripMethods, stripAll_numberAll f b, stripMethods_numberMethods f ms]

end

/-! ## Lists by number -/

/-- What holds of all members of a list, the first of which has the number `k`. -/
def Held {α : Type} (U : Nat → α → Prop) (k : Nat) (l : List α) : Prop :=
  ∀ i a, l[i]? = some a → U (k + i) a

section

variable {α : Type} {U : Nat → α → Prop} {k : Nat} {l l' : List α}

theorem held_true (k : Nat) (l : List α) : Held (fun _ _ => True) k l :=
  fun _ _ _ => trivial

theorem held_cons {a : α} : Held U k (a :: l) ↔ U k a ∧ Held U (k + 1) l := by
  constructor
  · refine fun h => ⟨h 0 a rfl, fun i b hb => ?_⟩
    have hi := h (i + 1) b hb
    rwa [Nat.add_comm i, ← Nat.add_assoc] at hi
  · rintro ⟨ha, hl⟩ (_ | i) b hb
    · cases hb
      exact ha
    · have hi := hl i b hb
      rwa [Nat.add_assoc, Nat.add_comm 1] at hi

theorem held_append : Held U k (l ++ l') ↔ Held U k l ∧ Held U (k + l.length) l' := by
  induction l generalizing k with
  | nil => exact ⟨fun h => ⟨nofun, h⟩, fun h => h.2⟩
  | cons a l ih =>
    rw [List.cons_append, held_cons, held_cons, ih, List.length_cons, and_assoc, Nat.add_assoc,
      Nat.add_comm 1]

end

/-! ## Runs of numbered code -/

/-- The run of numbered code comes to the node with number `k`. Without the numbers, the node is
`node` and the machine is `now`. -/
def Eval.VisitsAt (fuel : Nat) (numbered : Program) (start : Machine) (k : Nat) (node : Node)
    (now : Machine) : Prop :=
  ∃ x now', Eval.VisitsRead .numbers fuel numbered start x now' ∧ x.tag? = some k ∧ x.strip = node ∧
    now'.strip = now

/-- Stops the run at the node with number `k`. -/
def stopAt (k : Nat) : Watch := fun x _ =>
  if x.tag? = some k then some .exhausted else none

/-- If stopping at a number changes the run, the run comes to that number. -/
theorem Eval.exists_visitsAt {fuel k : Nat} {numbered : Program} {m : Machine}
    (h : Eval.runAll (Eval.execRead .numbers (stopAt k) fuel) numbered m ≠
      Eval.runAll (Eval.execRead .numbers Eval.silent fuel) numbered m) :
    ∃ node now, Eval.VisitsAt fuel numbered m k node now := by
  obtain ⟨x, now, hstop, hcomes⟩ := Eval.exists_visitsRead h
  have htag : x.tag? = some k := Classical.byContradiction fun hne => hstop (if_neg hne)
  exact ⟨_, _, x, now, hcomes, htag, rfl, rfl⟩

/-- The run of numbered code follows the run of the code: without the numbers it ends as the
run does, and it comes to what the run comes to. -/
structure Eval.Follows (fuel : Nat) (numbered : Program) (start : Machine) (p : Program)
    (m : Machine) : Prop where
  ends : Eval.mapMachine Machine.strip
    (Eval.runAll (Eval.execRead .numbers Eval.silent fuel) numbered start) =
      Eval.runAll (Eval.exec fuel) p m
  visits : ∀ node now, Eval.Visits fuel p m node now ↔
    ∃ k, Eval.VisitsAt fuel numbered start k node now

namespace Correspondence

/-- The code of the first run is the code of the second with numbers. -/
structure Numbers (C : Correspondence) : Prop where
  reading_eq : C.reading = .numbers
  token_eq {κ : C.Ctx} {t t' : Token} : C.token κ t t' → t = t'
  enters_eq {κ κ₀ : C.Ctx} {ps ps' : List Token} : C.enters κ ps ps' κ₀ → ps = ps'
  expr_eq {κ : C.Ctx} {x e : Expr} : C.expr κ x e → ∃ f k, x = e.number f k
  stmt_eq {κ κ' : C.Ctx} {x s : Stmt} : C.stmt κ x s κ' → ∃ f k, x = s.number f k
  fault_eq {d d' : Diagnostic} : C.fault d d' → d = d'
  scopes_eq {w : C.World} {σ σ' : Scopes} : C.scopes w σ σ' → σ = σ'

namespace Numbers

variable {C : Correspondence} (hC : C.Numbers)
include hC

theorem stripAll_eq {κ : C.Ctx} {b b' : List Stmt} (h : C.Stmts κ b b') :
    Stmt.stripAll b = b' := by
  induction h with
  | nil => rw [Stmt.stripAll]
  | cons hs _ ih =>
    obtain ⟨f, k, rfl⟩ := hC.stmt_eq hs
    rw [Stmt.stripAll, Stmt.strip_number, ih]

theorem image : C.Image Routine.strip id where
  routine_eq := by
    rintro κ ⟨name, params, body⟩ ⟨name', params', body'⟩ ⟨hname, κ₀, hps, hb⟩
    rw [Routine.strip, show name = name' from hC.token_eq hname,
      show params = params' from hC.enters_eq hps, hC.stripAll_eq hb]
  fault_eq h := hC.fault_eq h
  scopes_eq h := hC.scopes_eq h

variable {w : C.World} {κ : C.Ctx} {s : ScopeId} {m m' : Machine} {p p' : Program} {fuel : Nat}

/-- What is known of the number, the code and the machine where the first run comes to. -/
theorem of_visitsAt {P : Nat → Node → Machine → Prop}
    (hexpr : ∀ {w κ s x e m m'}, C.Machines w s m m' → C.stands w κ s → C.expr κ x e →
      ∃ k, x.tag? = some k ∧ P k (.expr e) m')
    (hstmt : ∀ {w κ κ' s x t m m'}, C.Machines w s m m' → C.stands w κ s → C.stmt κ x t κ' →
      ∃ k, x.tag? = some k ∧ P k (.stmt t) m')
    (hm : C.Machines w s m m') (hκ : C.stands w κ s) (hp : C.Stmts κ p p') {k : Nat} {node : Node}
    {now : Machine} (hv : Eval.VisitsAt fuel p m k node now) : P k node now := by
  obtain ⟨x, now', hcomes, htag, rfl, rfl⟩ := hv
  rw [← hC.reading_eq] at hcomes
  have hx : ∃ k, x.tag? = some k ∧ P k x.strip now'.strip := by
    refine of_visitsRead (P := fun x now => ∃ k, x.tag? = some k ∧ P k x.strip now.strip) ?_ ?_ hm
      hκ hp hcomes
    · intro w κ s x e m m' hm hκ he
      obtain rfl : m.strip = m' := hC.image.machine_eq hm
      obtain ⟨k, hk, hP⟩ := hexpr hm hκ he
      obtain ⟨f, i, rfl⟩ := hC.expr_eq he
      exact ⟨k, hk, by rwa [Node.strip, e.strip_number]⟩
    · intro w κ κ' s x t m m' hm hκ ht
      obtain rfl : m.strip = m' := hC.image.machine_eq hm
      obtain ⟨k, hk, hP⟩ := hstmt hm hκ ht
      obtain ⟨f, i, rfl⟩ := hC.stmt_eq ht
      exact ⟨k, hk, by rwa [Node.strip, t.strip_number]⟩
  obtain ⟨k', hk', hP⟩ := hx
  cases hk'.symm.trans htag
  exact hP

theorem exists_tag (hm : C.Machines w s m m') (hκ : C.stands w κ s) (hp : C.Stmts κ p p')
    {x : Node} {now : Machine} (hv : Eval.VisitsRead C.reading fuel p m x now) :
    ∃ k, x.tag? = some k := by
  refine of_visitsRead (P := fun x _ => ∃ k, x.tag? = some k) ?_ ?_ hm hκ hp hv
  · intro w κ s x e m m' _ _ he
    obtain ⟨f, k, rfl⟩ := hC.expr_eq he
    exact ⟨f k, e.tag?_number f k⟩
  · intro w κ κ' s x t m m' _ _ ht
    obtain ⟨f, k, rfl⟩ := hC.stmt_eq ht
    exact ⟨f k, t.tag?_number f k⟩

theorem follows (hm : C.Machines w s m m') (hκ : C.stands w κ s) (hp : C.Stmts κ p p')
    (fuel : Nat) : Eval.Follows fuel p m p' m' := by
  refine ⟨?_, fun node now => ?_⟩
  · have hends := hC.image.ends_eq (runAll_read_sim hκ hp fuel _ _ hm)
    rwa [Eval.image_eq_mapMachine, hC.reading_eq] at hends
  · rw [hC.image.visits_iff (f := Routine.strip) ?_ ?_ hm hκ hp]
    · constructor
      · rintro ⟨x, now', hcomes, hstrip⟩
        obtain ⟨k, hk⟩ := hC.exists_tag hm hκ hp hcomes
        exact ⟨k, x, now', hC.reading_eq ▸ hcomes, hk, hstrip⟩
      · rintro ⟨k, x, now', hcomes, _, hstrip⟩
        exact ⟨x, now', hC.reading_eq ▸ hcomes, hstrip⟩
    · intro κ x e he
      obtain ⟨f, k, rfl⟩ := hC.expr_eq he
      rw [Node.strip, Expr.strip_number]
    · intro κ κ' x s hs
      obtain ⟨f, k, rfl⟩ := hC.stmt_eq hs
      rw [Node.strip, Stmt.strip_number]

end Numbers

end Correspondence

end Treewalk
