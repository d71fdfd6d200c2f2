import Treewalk.Proofs.Grammar.Sound

/-!
# The parser reads what can be read

What `Reads` relates to a phrase, the production for the phrase reads, without a
report and up to the same place, if the tokens that follow do not go on with the
phrase (`Parses`). A phrase and what follows it are told apart by one token:
`starts` has the kinds that an expression can begin with, `continues` those that
go on with an operand.

`Program.ofTokens_of_reads` is the result for whole programs.
-/

namespace Treewalk

namespace Parser

/-! ## First tokens -/

/-- The kinds of token that an expression begins with. -/
def starts : Kind → Bool
  | .identifier | .string _ | .number _ => true
  | .symbol s => s ∈ [.falseWord, .trueWord, .nilWord, .thisWord, .superWord, .leftParen, .bang,
      .minus]
  | .endOfFile => false

/-- The kinds of token that a statement begins with. -/
def startsStatement (k : Kind) : Bool :=
  starts k || statementSymbols.any fun s => k = .symbol s

/-- The kinds of token that a declaration begins with. -/
def startsDeclaration (k : Kind) : Bool :=
  startsStatement k || [Symbol.classWord, .funWord, .varWord].any fun s => k = .symbol s

/-- The tokens begin with one of a kind that `p` holds of. -/
def Begins (p : Kind → Bool) (ts : List Token) : Prop :=
  ∃ t us, ts = t :: us ∧ p t.kind = true

theorem Begins.append {p : Kind → Bool} {ts : List Token} (h : Begins p ts) (us : List Token) :
    Begins p (ts ++ us) := by
  obtain ⟨t, vs, rfl, ht⟩ := h
  exact ⟨t, vs ++ us, rfl, ht⟩

theorem Begins.imp {p q : Kind → Bool} {ts : List Token} (h : Begins p ts)
    (hpq : ∀ k, p k = true → q k = true) : Begins q ts := by
  obtain ⟨t, us, rfl, ht⟩ := h
  exact ⟨t, us, rfl, hpq _ ht⟩

theorem Begins.lacks {p q : Kind → Bool} {ts : List Token} (h : Begins p ts)
    (hpq : ∀ k, p k = true → q k = false) : Lacks q ts := by
  obtain ⟨t, us, rfl, ht⟩ := h
  intro t' ht'
  obtain rfl : t = t' := by simpa using ht'
  exact hpq _ ht

theorem Begins.length_pos {p : Kind → Bool} {ts : List Token} (h : Begins p ts) :
    0 < ts.length := by
  obtain ⟨t, us, rfl, _⟩ := h
  exact Nat.succ_pos _

theorem begins_cons {p : Kind → Bool} {t : Token} {s : Symbol} (h : t.Is s)
    (hp : p (.symbol s) = true) (us : List Token) : Begins p (t :: us) :=
  ⟨t, us, rfl, by rwa [show t.kind = _ from h]⟩

/-- No kind that `p` holds of is among symbols that it does not hold of. -/
theorem any_eq_false_of {p : Kind → Bool} {symbols : List Symbol}
    (h : ∀ s ∈ symbols, p (.symbol s) = false) {k : Kind} (hk : p k = true) :
    (symbols.any fun s => decide (k = .symbol s)) = false := by
  refine List.any_eq_false.mpr fun s hs he => ?_
  rw [of_decide_eq_true he, h s hs] at hk
  cases hk

theorem starts_of_atom? {t : Token} {e : Expr} (h : atom? t = some e) : starts t.kind = true := by
  unfold atom? at h
  split at h
  all_goals first
    | (rename_i hk; rw [hk]; rfl)
    | cases h

/-- How the tokens of a phrase begin, if it cannot be empty. -/
def Goal.Begins : Goal → List Token → Prop
  | .expression _, ts | .operand _ _, ts | .unary _, ts | .primary _, ts | .items _, ts =>
    Parser.Begins starts ts
  | .statement _ _, ts => Parser.Begins startsStatement ts
  | .declaration _ _, ts => Parser.Begins startsDeclaration ts
  | .routine _, ts | .names _, ts => Parser.Begins (fun k => k = .identifier) ts
  | _, _ => True

theorem Reads.begins {goal : Goal} {ts : List Token} (h : Reads goal ts) : goal.Begins ts := by
  have hstmt : ∀ k, starts k = true → startsStatement k = true := fun k h => by
    simp [startsStatement, h]
  have hdecl : ∀ k, startsStatement k = true → startsDeclaration k = true := fun k h => by
    simp [startsDeclaration, h]
  induction h with
  | plain _ ih | bottom _ ih | item _ ih => exact ih
  | assign _ _ _ ih | set _ _ _ ih | level _ _ ih | call _ _ ih | items _ _ _ ih => exact ih.append _
  | @sign e op s ts hop hs _ _ =>
    have hsign : ∀ s ∈ [Symbol.bang, .minus], starts (.symbol s) = true := by decide
    exact begins_cons hop (hsign s hs) _
  | atom h => exact ⟨_, _, rfl, starts_of_atom? h⟩
  | inherited hk _ _ => exact begins_cons hk rfl _
  | group hlp _ _ _ => exact begins_cons hlp rfl _
  | expressionStatement _ _ ih => exact (ih.append _).imp hstmt
  | print hk _ _ _ | leave hk _ _ _ | block hk _ _ _ | loop hk _ _ _ _ | branch hk _ _ _ _
  | choice hk _ _ _ _ _ _ | forLoop hk _ _ _ _ _ _ _ => exact begins_cons hk rfl _
  | statement _ ih => exact ih.imp hdecl
  | binding hk _ _ | function hk _ _ | base hk _ _ _ _ | derived hk _ _ _ _ _ _ =>
    exact begins_cons hk rfl _
  | routine hn | name hn | names hn => exact ⟨_, _, rfl, decide_eq_true hn⟩
  | endOfChain | link | endOfSuffixes | apply | property | noArguments | arguments | noClause
  | clause | noInitializer | declareFirst | expressionFirst | noParameters | parameters
  | uninitialized | initialized | noDeclarations | declarations | noMethods | methods => trivial

/-! ## Productions that succeed -/

variable {α β : Type}

/-- The production reads `ts` in front of `rest`, with a result and no report. -/
def Parses (p : Parser α) (ts rest : List Token) (a : α) : Prop :=
  ∀ last reports, p ⟨ts ++ rest, last, reports⟩ = .ok a ⟨rest, last, reports⟩

theorem parses_pure (a : α) (rest : List Token) : Parses (pure a) [] rest a :=
  fun _ _ => rfl

theorem Parses.bind {x : Parser α} {f : α → Parser β} {ts us rest : List Token} {a : α} {b : β}
    (hx : Parses x ts (us ++ rest) a) (hf : Parses (f a) us rest b) :
    Parses (x >>= f) (ts ++ us) rest b := by
  intro last reports
  show EStateM.bind x f _ = _
  rw [EStateM.bind, List.append_assoc, hx last reports]
  exact hf last reports

section

variable {ts rest : List Token} {t : Token} {b : β}

theorem parses_acceptIf_some {p : Kind → Bool} {f : Option Token → Parser β} (ht : p t.kind = true)
    (h : Parses (f (some t)) ts rest b) : Parses (acceptIf p >>= f) (t :: ts) rest b := by
  intro last reports
  show EStateM.bind (acceptIf p) f _ = _
  simp only [EStateM.bind, acceptIf, List.cons_append, ht, ↓reduceIte]
  exact h last reports

theorem parses_acceptIf_none {p : Kind → Bool} {f : Option Token → Parser β}
    (hno : Lacks p (ts ++ rest)) (h : Parses (f none) ts rest b) :
    Parses (acceptIf p >>= f) ts rest b := by
  intro last reports
  have e : acceptIf p ⟨ts ++ rest, last, reports⟩ = .ok none ⟨ts ++ rest, last, reports⟩ := by
    unfold acceptIf
    cases hts : ts ++ rest with
    | nil => rfl
    | cons t us =>
      have ht : p t.kind = false := hno t (by rw [hts]; rfl)
      simp only [ht, Bool.false_eq_true, ↓reduceIte]
  show EStateM.bind (acceptIf p) f _ = _
  rw [EStateM.bind, e]
  exact h last reports

theorem parses_acceptAny_some {symbols : List Symbol} {s : Symbol} {f : Option Token → Parser β}
    (hs : s ∈ symbols) (ht : t.Is s) (h : Parses (f (some t)) ts rest b) :
    Parses (acceptAny symbols >>= f) (t :: ts) rest b :=
  parses_acceptIf_some (List.any_eq_true.mpr ⟨s, hs, decide_eq_true ht⟩) h

theorem parses_accept_some {s : Symbol} {f : Option Token → Parser β} (ht : t.Is s)
    (h : Parses (f (some t)) ts rest b) : Parses (accept s >>= f) (t :: ts) rest b :=
  parses_acceptAny_some (List.mem_singleton_self s) ht h

theorem parses_accept_none {s : Symbol} {f : Option Token → Parser β}
    (hno : Lacks (fun k => [s].any fun s => k = .symbol s) (ts ++ rest))
    (h : Parses (f none) ts rest b) : Parses (accept s >>= f) ts rest b :=
  parses_acceptIf_none hno h

theorem parses_expectIf {p : Kind → Bool} {what : String} {f : Token → Parser β}
    (ht : p t.kind = true) (h : Parses (f t) ts rest b) :
    Parses (expectIf p what >>= f) (t :: ts) rest b := by
  have e : Parses (expectIf p what) [t] (ts ++ rest) t :=
    parses_acceptIf_some ht (parses_pure t _)
  exact e.bind h

theorem parses_expect {s : Symbol} {what : String} {f : Token → Parser β} (ht : t.Is s)
    (h : Parses (f t) ts rest b) : Parses (expect s what >>= f) (t :: ts) rest b :=
  parses_expectIf (decide_eq_true ht) h

theorem parses_expectName {what : String} {f : Token → Parser β} (ht : t.IsName)
    (h : Parses (f t) ts rest b) : Parses (expectName what >>= f) (t :: ts) rest b :=
  parses_expectIf (decide_eq_true ht) h

/-- A list that is not full yet takes another item. -/
theorem parses_not_full {γ : Type} {found : List γ} {f : SyntaxFault} {p : Parser β}
    (hlen : found.length < maxArity) (h : Parses p ts rest b) :
    Parses (if isFull found then peek >>= fun t => report t f >>= fun _ => p else p) ts rest b := by
  have hfull : ¬ isFull found = true := by
    rw [isFull_iff]
    exact Nat.not_le_of_lt hlen
  rwa [if_neg hfull]

theorem parses_atAny {symbols : List Symbol} {f : Bool → Parser β} {r : β} {b : Bool}
    (hat : Begins (fun k => (symbols.any fun s => k = .symbol s) == b) (ts ++ rest))
    (h : Parses (f b) ts rest r) : Parses (atAny symbols >>= f) ts rest r := by
  intro last reports
  obtain ⟨t, us, hts, ht⟩ := hat
  have e : atAny symbols ⟨ts ++ rest, last, reports⟩ = .ok b ⟨ts ++ rest, last, reports⟩ := by
    unfold atAny
    rw [hts, ← eq_of_beq ht]
    rfl
  show EStateM.bind (atAny symbols) f _ = _
  rw [EStateM.bind, e]
  exact h last reports

end

/-! ## What goes on with a phrase -/

/-- The kinds of token that go on with an operand above a level. -/
def continues : Nat → Kind → Bool
  | 0, k => k = .symbol .leftParen || k = .symbol .dot
  | i + 1, k => continues i k || (operators (i + 1)).any fun s => k = .symbol s

/-- The kinds of token that go on with an expression. -/
def goesOn (k : Kind) : Bool :=
  continues 6 k || k = .symbol .equal

/-- An operator follows an operand of its own level. -/
theorem continues_operator (i : Nat) : ∀ s ∈ operators (i + 1), continues i (.symbol s) = false := by
  by_cases hi : i < 6
  · revert i
    decide
  · intro s hs
    have hnil : operators (i + 1) = [] := by
      unfold operators
      split <;> first | rfl | omega
    rw [hnil] at hs
    cases hs

theorem lacks_cons {p : Kind → Bool} {t : Token} {s : Symbol} (h : t.Is s)
    (hp : p (.symbol s) = false) (us : List Token) : Lacks p (t :: us) := by
  intro t' ht'
  obtain rfl : t = t' := by simpa using ht'
  rwa [show t.kind = _ from h]

theorem Lacks.imp {p q : Kind → Bool} {ts : List Token} (h : Lacks p ts)
    (hpq : ∀ k, p k = false → q k = false) : Lacks q ts :=
  fun t ht => hpq _ (h t ht)

theorem Lacks.continues {ts : List Token} (h : Lacks goesOn ts) : Lacks (continues 6) ts :=
  h.imp fun _ hk => (Bool.or_eq_false_iff.mp hk).1

theorem lacks_symbol {s : Symbol} {ts : List Token} {p : Kind → Bool} (h : Lacks p ts)
    (hp : p (.symbol s) = true) : Lacks (fun k => [s].any fun s => k = .symbol s) ts := by
  refine h.imp fun k hk => ?_
  simp only [List.any_cons, List.any_nil, Bool.or_false, decide_eq_false_iff_not]
  rintro rfl
  rw [hk] at hp
  cases hp

/-- What the productions do on the tokens of a phrase, with enough fuel. -/
def Complete : Goal → List Token → Prop
  | .expression e, ts => ∀ n rest, 2 * ts.length + 3 ≤ n → Lacks goesOn rest →
    Parses (expression n) ts rest e
  | .operand i e, ts => ∀ n rest, 2 * ts.length + 2 ≤ n → Lacks (continues i) rest →
    Parses (ladder (unary n) n i) ts rest e
  | .chain i left e, ts => ∀ n k rest, 2 * ts.length ≤ n → ts.length < k →
    Lacks (continues i) rest →
    Parses (chain (operation i) (operators i) (ladder (unary n) n (i - 1)) k left) ts rest e
  | .unary e, ts => ∀ n rest, 2 * ts.length + 2 ≤ n → Lacks (continues 0) rest →
    Parses (unary n) ts rest e
  | .primary e, ts => ∀ n rest, 2 * ts.length + 1 ≤ n → Parses (primary (expression n)) ts rest e
  | .suffixes left e, ts => ∀ n k rest, 2 * ts.length + 1 ≤ n → ts.length < k →
    Lacks (continues 0) rest → Parses (suffixes (expression n) k left) ts rest e
  | .arguments es, ts => ∀ n k callee rest rp, 2 * ts.length + 3 ≤ n → ts.length < k →
    rp.Is .rightParen → Parses (call (expression n) k callee) (ts ++ [rp]) rest (.call callee rp es)
  | .items es, ts => ∀ n k (found : List Expr) rest rp, 2 * ts.length + 3 ≤ n → ts.length < k →
    found.length + es.length ≤ maxArity → rp.Is .rightParen →
    Parses (arguments (expression n) k found) ts (rp :: rest) (found.reverse ++ es)
  | .clause e, ts => ∀ n close rest t, 2 * ts.length + 3 ≤ n →
    close ∈ [Symbol.semicolon, .rightParen] → t.Is close →
    Parses (unlessAt close (expression n)) ts (t :: rest) e
  | .parameters ps, ts => ∀ k rest rp, ts.length < k → rp.Is .rightParen →
    Parses (atAny [.rightParen] >>= fun b => if b then pure [] else parameters k []) ts (rp :: rest) ps
  | .names ps, ts => ∀ k (found : List Token) rest rp, ts.length < k →
    found.length + ps.length ≤ maxArity → rp.Is .rightParen →
    Parses (parameters k found) ts (rp :: rest) (found.reverse ++ ps)
  | .binding s, ts => ∀ n rest, 2 * ts.length + 3 ≤ n → Parses (variableDecl (expression n)) ts rest s
  | .initializer s, ts => ∀ n rest, 2 * ts.length + 3 ≤ n →
    Parses (initializer (expression n)) ts rest s
  | .statement d s, ts => ∀ n rest, 2 * ts.length + 4 ≤ n → (d = true → NoElse rest) →
    Parses (statement n) ts rest s
  | .declaration d s, ts => ∀ n rest, 2 * ts.length + 5 ≤ n → (d = true → NoElse rest) →
    Parses (declaration n) ts rest (some s)
  | .declarations l, ts => ∀ n k (found : List Stmt) (stop : Parser Bool)
    (ends : List Token → Bool) rest,
    2 * ts.length + 5 ≤ n → ts.length < k → (∀ c : Cursor, stop c = .ok (ends c.rest) c) →
    (∀ us, Begins startsDeclaration us → ends us = false) → ends rest = true → NoElse rest →
    Parses (declarations stop (declaration n) k found) ts rest (found.reverse ++ l)
  | .routine r, ts => ∀ n k sort rest, 2 * ts.length + 5 ≤ n → ts.length ≤ k →
    Parses (routine (declaration n) sort k) ts rest r
  | .methods ms, ts => ∀ n k (found : List (Routine Stmt)) rest rb, 2 * ts.length + 5 ≤ n →
    ts.length < k → rb.Is .rightBrace →
    Parses (methods (declaration n) k found) ts (rb :: rest) (found.reverse ++ ms)

/-! ## Expressions -/

section

variable {ts us : List Token} {a b e v o : Expr} {i : Nat}

theorem complete_plain (h : Complete (.operand 6 e) ts) : Complete (.expression e) ts := by
  intro n rest hn hrest
  obtain ⟨n, rfl⟩ : ∃ m, n = m + 1 := ⟨n - 1, by omega⟩
  rw [expression_succ, disjunction_eq, ← List.append_nil ts]
  refine Parses.bind (h n rest (by omega) hrest.continues) ?_
  exact parses_acceptIf_none (lacks_symbol hrest rfl) (parses_pure e rest)

/-- A target is followed by `=`, which goes on with no operand. -/
theorem complete_target {target : Expr} {eq : Token} (h : Complete (.operand 6 target) ts)
    (heq : eq.Is .equal) (hv : Complete (.expression v) us)
    (hp : ∀ rest, Parses (match target with
      | .var ref => pure (.assign ref v)
      | .get object name => pure (.set object name v)
      | other => do
        report eq .invalidTarget
        pure other) [] rest e) : Complete (.expression e) (ts ++ eq :: us) := by
  intro n rest hn hrest
  obtain ⟨n, rfl⟩ : ∃ m, n = m + 1 := ⟨n - 1, by omega⟩
  simp only [List.length_append, List.length_cons] at hn
  rw [expression_succ, disjunction_eq]
  refine Parses.bind (h n _ (by omega) (lacks_cons heq rfl _)) (parses_accept_some heq ?_)
  rw [← List.append_nil us]
  exact Parses.bind (hv n rest (by omega) hrest) (hp rest)

theorem complete_level (ha : Complete (.operand i a) ts) (he : Complete (.chain (i + 1) a e) us)
    (hus : ∀ rest, Lacks (continues (i + 1)) rest → Lacks (continues i) (us ++ rest)) :
    Complete (.operand (i + 1) e) (ts ++ us) := by
  intro n rest hn hrest
  simp only [List.length_append] at hn
  exact Parses.bind (ha n _ (by omega) (hus rest hrest)) (he n n rest (by omega) (by omega) hrest)

theorem complete_endOfChain (i : Nat) (e : Expr) : Complete (.chain i e e) [] := by
  intro n k rest _ hk hrest
  obtain ⟨k, rfl⟩ : ∃ m, k = m + 1 := ⟨k - 1, by simp at hk; omega⟩
  refine parses_acceptIf_none (hrest.imp fun kind hkind => ?_) (parses_pure e rest)
  cases i with
  | zero => rfl
  | succ i => exact (Bool.or_eq_false_iff.mp hkind).2

theorem complete_link {op : Token} {s : Symbol} (hop : op.Is s) (hs : s ∈ operators (i + 1))
    (hb : Complete (.operand i b) ts)
    (he : Complete (.chain (i + 1) (operation (i + 1) op a b) e) us)
    (hus : ∀ rest, Lacks (continues (i + 1)) rest → Lacks (continues i) (us ++ rest)) :
    Complete (.chain (i + 1) a e) (op :: (ts ++ us)) := by
  intro n k rest hn hk hrest
  simp only [List.length_cons, List.length_append] at hn hk
  obtain ⟨k, rfl⟩ : ∃ m, k = m + 1 := ⟨k - 1, by omega⟩
  refine parses_acceptAny_some hs hop ?_
  exact Parses.bind (hb n _ (by omega) (hus rest hrest)) (he n k rest (by omega) (by omega) hrest)

theorem Reads.lacks_chain (h : Reads (.chain (i + 1) a e) us) {rest : List Token}
    (hrest : Lacks (continues (i + 1)) rest) : Lacks (continues i) (us ++ rest) := by
  cases h with
  | endOfChain => exact hrest.imp fun _ hk => (Bool.or_eq_false_iff.mp hk).1
  | link hop hs _ _ => exact lacks_cons hop (continues_operator i _ hs) _

theorem complete_sign {op : Token} {s : Symbol} (hop : op.Is s) (hs : s ∈ [.bang, .minus])
    (h : Complete (.unary e) ts) : Complete (.unary (.unary op e)) (op :: ts) := by
  intro n rest hn hrest
  simp only [List.length_cons] at hn
  obtain ⟨n, rfl⟩ : ∃ m, n = m + 1 := ⟨n - 1, by omega⟩
  rw [unary_succ, ← List.append_nil ts]
  exact parses_acceptAny_some hs hop (Parses.bind (h n rest (by omega) hrest) (parses_pure _ rest))

/-- A primary expression begins with no sign. -/
theorem Reads.primary_unsigned (h : Reads (.primary a) ts) (rest : List Token) :
    Lacks (fun k => [Symbol.bang, .minus].any fun s => k = .symbol s) (ts ++ rest) := by
  cases h with
  | @atom t _ ht =>
    intro t' ht'
    obtain rfl : t = t' := by simpa using ht'
    unfold atom? at ht
    split at ht
    all_goals first
      | (rename_i hk; rw [hk]; rfl)
      | cases ht
  | inherited hk _ _ => exact lacks_cons hk rfl _
  | group hlp _ _ => exact lacks_cons hlp rfl _

theorem complete_call (ha : Complete (.primary a) ts) (he : Complete (.suffixes a e) us)
    (hts : ∀ rest, Lacks (fun k => [Symbol.bang, .minus].any fun s => k = .symbol s) (ts ++ rest)) :
    Complete (.unary e) (ts ++ us) := by
  intro n rest hn hrest
  simp only [List.length_append] at hn
  obtain ⟨n, rfl⟩ : ∃ m, n = m + 1 := ⟨n - 1, by omega⟩
  rw [unary_succ]
  refine parses_acceptIf_none ?_ (Parses.bind (ha n _ (by omega)) (he n n rest (by omega) (by omega)
    hrest))
  rw [List.append_assoc]
  exact hts _

theorem complete_endOfSuffixes (e : Expr) : Complete (.suffixes e e) [] := by
  intro n k rest _ hk hrest
  obtain ⟨k, rfl⟩ : ∃ m, k = m + 1 := ⟨k - 1, by simp at hk; omega⟩
  refine parses_acceptIf_none (lacks_symbol hrest rfl) ?_
  exact parses_acceptIf_none (lacks_symbol hrest rfl) (parses_pure e rest)

theorem complete_apply {es : List Expr} {lp rp : Token} (hlp : lp.Is .leftParen)
    (hargs : Complete (.arguments es) ts) (hrp : rp.Is .rightParen)
    (he : Complete (.suffixes (.call a rp es) e) us) :
    Complete (.suffixes a e) (lp :: (ts ++ rp :: us)) := by
  intro n k rest hn hk hrest
  simp only [List.length_cons, List.length_append] at hn hk
  obtain ⟨k, rfl⟩ : ∃ m, k = m + 1 := ⟨k - 1, by omega⟩
  refine parses_accept_some hlp ?_
  rw [List.append_cons ts rp us]
  exact Parses.bind (hargs n k a _ rp (by omega) (by omega) hrp)
    (he n k rest (by omega) (by omega) hrest)

theorem complete_property {dot n : Token} (hdot : dot.Is .dot) (hn : n.IsName)
    (he : Complete (.suffixes (.get a n) e) us) : Complete (.suffixes a e) (dot :: n :: us) := by
  intro m k rest hm hk hrest
  simp only [List.length_cons] at hm hk
  obtain ⟨k, rfl⟩ : ∃ m, k = m + 1 := ⟨k - 1, by omega⟩
  refine parses_accept_none (lacks_cons hdot rfl _) ?_
  refine parses_accept_some hdot (parses_expectName hn ?_)
  exact he m k rest (by omega) (by omega) hrest

/-- An optional part, and the production that follows it either way. -/
theorem parses_ifAt {γ : Type} {rest : List Token} {symbols : List Symbol} {x y : Parser γ}
    {f : γ → Parser β} {r : β}
    (h : Parses ((atAny symbols >>= fun b => if b then x else y) >>= f) ts rest r) :
    Parses (atAny symbols >>= fun b => if b then x >>= f else y >>= f) ts rest r := by
  have e : ((atAny symbols >>= fun b => if b then x else y) >>= f)
      = atAny symbols >>= fun b => if b then x >>= f else y >>= f := by
    rw [bind_assoc]
    exact congrArg (atAny symbols >>= ·) (funext fun b => by cases b <;> rfl)
  rwa [← e]

theorem complete_noArguments : Complete (.arguments []) [] := by
  intro n k callee rest rp _ _ hrp
  refine parses_ifAt (Parses.bind (?_ : Parses _ [] _ _) (parses_expect hrp (parses_pure _ rest)))
  exact parses_atAny (b := true) (begins_cons hrp rfl _) (parses_pure [] _)

theorem complete_arguments {es : List Expr} (h : Complete (.items es) ts)
    (hlen : es.length ≤ maxArity) (hts : Begins starts ts) : Complete (.arguments es) ts := by
  intro n k callee rest rp hn hk hrp
  have hat : Begins (fun k => ([Symbol.rightParen].any fun s => k = .symbol s) == false)
      (ts ++ rp :: rest) := (hts.append _).imp fun k hk => by
    rw [any_eq_false_of (by decide) hk]
    rfl
  refine parses_ifAt (Parses.bind ?_ (parses_expect hrp (parses_pure _ rest)))
  exact parses_atAny hat (h n k [] _ rp hn hk (by simpa using hlen) hrp)

theorem complete_item (h : Complete (.expression e) ts) : Complete (.items [e]) ts := by
  intro n k found rest rp hn hk hlen hrp
  obtain ⟨k, rfl⟩ : ∃ m, k = m + 1 := ⟨k - 1, by omega⟩
  refine parses_not_full hlen ?_
  rw [← List.append_nil ts, ← List.reverse_cons]
  refine Parses.bind (h n _ hn (lacks_cons hrp rfl _)) ?_
  exact parses_accept_none (lacks_cons hrp rfl _) (parses_pure (e :: found).reverse _)

theorem complete_items {es : List Expr} {comma : Token} (h : Complete (.expression e) ts)
    (hcomma : comma.Is .comma) (hes : Complete (.items es) us) :
    Complete (.items (e :: es)) (ts ++ comma :: us) := by
  intro n k found rest rp hn hk hlen hrp
  simp only [List.length_cons, List.length_append] at hn hk hlen
  obtain ⟨k, rfl⟩ : ∃ m, k = m + 1 := ⟨k - 1, by omega⟩
  refine parses_not_full (by omega) ?_
  rw [List.append_cons found.reverse, ← List.reverse_cons]
  refine Parses.bind (h n _ (by omega) (lacks_cons hcomma rfl _)) (parses_accept_some hcomma ?_)
  exact hes n k (e :: found) rest rp (by omega) (by omega) (by simp only [List.length_cons]; omega) hrp

theorem complete_atom {t : Token} (h : atom? t = some e) : Complete (.primary e) [t] := by
  intro n rest _ last reports
  show EStateM.bind acceptAtom _ _ = _
  simp only [EStateM.bind, acceptAtom, List.cons_append, h]
  rfl

theorem parses_not_atom {rest : List Token} {t : Token} {f : Option Expr → Parser β} {r : β}
    (ht : atom? t = none) (h : Parses (f none) (t :: ts) rest r) :
    Parses (acceptAtom >>= f) (t :: ts) rest r := by
  intro last reports
  show EStateM.bind acceptAtom _ _ = _
  simp only [EStateM.bind, acceptAtom, List.cons_append, ht]
  exact h last reports

theorem complete_inherited {k dot n : Token} (hk : k.Is .superWord) (hdot : dot.Is .dot)
    (hn : n.IsName) : Complete (.primary (.inherited ⟨k, none⟩ n)) [k, dot, n] := by
  intro m rest _
  have hatom : atom? k = none := by
    unfold atom?
    rw [show k.kind = _ from hk]
  refine parses_not_atom hatom (parses_accept_some hk ?_)
  exact parses_expect hdot (parses_expectName hn (parses_pure _ rest))

theorem complete_group {lp rp : Token} (hlp : lp.Is .leftParen) (h : Complete (.expression e) ts)
    (hrp : rp.Is .rightParen) : Complete (.primary (.group e)) (lp :: (ts ++ [rp])) := by
  intro n rest hn
  simp only [List.length_cons, List.length_append, List.length_nil] at hn
  have hatom : atom? lp = none := by
    unfold atom?
    rw [show lp.kind = _ from hlp]
  refine parses_not_atom hatom (parses_accept_none (lacks_cons hlp rfl _) ?_)
  refine parses_accept_some hlp (Parses.bind (h n _ (by omega) (lacks_cons hrp rfl _)) ?_)
  exact parses_expect hrp (parses_pure _ rest)

theorem complete_noClause : Complete (.clause none) [] := by
  intro n close rest t _ _ ht
  exact parses_atAny (b := true) (begins_cons ht (by simp) _) (parses_pure none _)

theorem complete_clause (h : Complete (.expression e) ts) (hts : Begins starts ts) :
    Complete (.clause (some e)) ts := by
  intro n close rest t hn hclose ht
  have hstop : ∀ s ∈ [Symbol.semicolon, .rightParen],
      goesOn (.symbol s) = false ∧ starts (.symbol s) = false := by decide
  have hat : Begins (fun k => ([close].any fun s => k = .symbol s) == false) (ts ++ t :: rest) :=
    (hts.append _).imp fun k hk => by
      rw [any_eq_false_of (fun s hs => List.mem_singleton.mp hs ▸ (hstop close hclose).2) hk]
      rfl
  refine parses_atAny hat ?_
  rw [← List.append_nil ts]
  exact Parses.bind (h n _ hn (lacks_cons ht (hstop close hclose).1 _)) (parses_pure (some e) _)

end

/-! ## Statements -/

section

variable {ts us vs ws : List Token} {e c : Expr} {s a : Stmt} {d : Bool}

theorem complete_expressionStatement {semi : Token} (h : Complete (.expression e) ts)
    (hsemi : semi.Is .semicolon) (hts : Begins starts ts) :
    Complete (.statement false (.expression e)) (ts ++ [semi]) := by
  intro n rest hn _
  simp only [List.length_append, List.length_cons, List.length_nil] at hn
  obtain ⟨n, rfl⟩ : ∃ m, n = m + 1 := ⟨n - 1, by omega⟩
  rw [statement_succ]
  refine parses_acceptIf_none (((hts.append _).append _).lacks fun k => any_eq_false_of (by decide)) ?_
  exact Parses.bind (h n _ (by omega) (lacks_cons hsemi rfl _)) (parses_expect hsemi (parses_pure _ rest))

/-- The statement that a symbol opens, after the token `t` of that symbol. -/
def statementAfter (n : Nat) (t : Token) : Symbol → Parser Stmt
  | .forWord => forStatement (expression n) (statement n)
  | .ifWord => ifStatement (expression n) (statement n)
  | .whileWord => whileStatement (expression n) (statement n)
  | .returnWord => returnStatement (expression n) t
  | .leftBrace => do pure (.block (← block (declaration n) n))
  | _ => printStatement (expression n)

theorem complete_opened {t : Token} {sym : Symbol} (ht : t.Is sym) (hsym : sym ∈ statementSymbols)
    (h : ∀ n rest, 2 * ts.length + 5 ≤ n → (d = true → NoElse rest) →
      Parses (statementAfter n t sym) ts rest s) : Complete (.statement d s) (t :: ts) := by
  intro n rest hn hd
  simp only [List.length_cons] at hn
  obtain ⟨n, rfl⟩ : ∃ m, n = m + 1 := ⟨n - 1, by omega⟩
  rw [statement_succ]
  refine parses_acceptAny_some hsym ht ?_
  simp only [show t.kind = _ from ht]
  have h := h n rest (by omega) hd
  cases sym <;> exact h

theorem complete_print {k semi : Token} (hk : k.Is .printWord) (h : Complete (.expression e) ts)
    (hsemi : semi.Is .semicolon) : Complete (.statement false (.print e)) (k :: (ts ++ [semi])) := by
  refine complete_opened hk (by decide) fun n rest hn _ => ?_
  simp only [List.length_append, List.length_cons, List.length_nil] at hn
  exact Parses.bind (h n _ (by omega) (lacks_cons hsemi rfl _)) (parses_expect hsemi (parses_pure _ rest))

theorem complete_leave {v : Option Expr} {k semi : Token} (hk : k.Is .returnWord)
    (h : Complete (.clause v) ts) (hsemi : semi.Is .semicolon) :
    Complete (.statement false (.leave k v)) (k :: (ts ++ [semi])) := by
  refine complete_opened hk (by decide) fun n rest hn _ => ?_
  simp only [List.length_append, List.length_cons, List.length_nil] at hn
  refine Parses.bind (h n .semicolon _ semi (by omega) (by decide) hsemi) ?_
  exact parses_expect hsemi (parses_pure _ rest)

theorem noElse_cons {t : Token} {sym : Symbol} (ht : t.Is sym) (hsym : sym ≠ .elseWord)
    (rest : List Token) : NoElse (t :: rest) := by
  intro t' ht' helse
  obtain rfl : t = t' := by simpa using ht'
  exact hsym (Kind.symbol.inj (ht.symm.trans helse))

theorem closes_eq_false (us : List Token) (h : Begins startsDeclaration us) : closes us = false := by
  obtain ⟨t, us, rfl, ht⟩ := h
  refine decide_eq_false fun hk => ?_
  rw [hk] at ht
  cases ht

/-- The rest of a block, after its opening brace. -/
theorem Complete.parses_block {l : List Stmt} {rb : Token} (h : Complete (.declarations l) ts)
    (hrb : rb.Is .rightBrace) {n k : Nat} (hn : 2 * ts.length + 5 ≤ n) (hk : ts.length < k)
    (rest : List Token) : Parses (block (declaration n) k) (ts ++ [rb]) rest l := by
  refine Parses.bind (h n k [] atBlockEnd closes _ hn hk atBlockEnd_eq closes_eq_false ?_ ?_) ?_
  · exact decide_eq_true hrb
  · exact noElse_cons hrb (by decide) _
  · exact parses_expect hrb (parses_pure l rest)

theorem complete_block {l : List Stmt} {lb rb : Token} (hlb : lb.Is .leftBrace)
    (h : Complete (.declarations l) ts) (hrb : rb.Is .rightBrace) :
    Complete (.statement false (.block l)) (lb :: (ts ++ [rb])) := by
  refine complete_opened hlb (by decide) fun n rest hn _ => ?_
  simp only [List.length_append, List.length_cons, List.length_nil] at hn
  rw [← List.append_nil (ts ++ [rb])]
  exact Parses.bind (h.parses_block hrb (by omega) (by omega) _) (parses_pure _ rest)

/-- A condition in parentheses, in front of what follows. -/
theorem Complete.parses_condition {α : Type} {lp rp : Token} (hlp : lp.Is .leftParen)
    (hc : Complete (.expression c) ts) (hrp : rp.Is .rightParen) {n : Nat}
    (hn : 2 * ts.length + 3 ≤ n) {opening closing : String} {f : Expr → Parser α} {x : α}
    {rest : List Token} (h : Parses (f c) us rest x) :
    Parses (do
      let _ ← expect .leftParen opening
      let c ← expression n
      let _ ← expect .rightParen closing
      f c) (lp :: (ts ++ rp :: us)) rest x :=
  parses_expect hlp (Parses.bind (hc n _ hn (lacks_cons hrp rfl _)) (parses_expect hrp h))

theorem complete_loop {k lp rp : Token} (hk : k.Is .whileWord) (hlp : lp.Is .leftParen)
    (hc : Complete (.expression c) ts) (hrp : rp.Is .rightParen) (hs : Complete (.statement d s) us) :
    Complete (.statement d (.loop c s)) (k :: lp :: (ts ++ rp :: us)) := by
  refine complete_opened hk (by decide) fun n rest hn hd => ?_
  simp only [List.length_append, List.length_cons] at hn
  refine hc.parses_condition hlp hrp (by omega) ?_
  rw [← List.append_nil us]
  exact Parses.bind (hs n _ (by omega) hd) (parses_pure _ rest)

theorem complete_branch {k lp rp : Token} (hk : k.Is .ifWord) (hlp : lp.Is .leftParen)
    (hc : Complete (.expression c) ts) (hrp : rp.Is .rightParen) (hs : Complete (.statement d s) us) :
    Complete (.statement true (.branch c s none)) (k :: lp :: (ts ++ rp :: us)) := by
  refine complete_opened hk (by decide) fun n rest hn hd => ?_
  simp only [List.length_append, List.length_cons] at hn
  refine hc.parses_condition hlp hrp (by omega) ?_
  rw [← List.append_nil us]
  refine Parses.bind (hs n _ (by omega) fun _ => hd rfl) ?_
  refine parses_accept_none ?_ (parses_pure _ rest)
  intro t ht
  simpa [Token.Is] using hd rfl t ht

theorem complete_choice {k lp rp other : Token} (hk : k.Is .ifWord) (hlp : lp.Is .leftParen)
    (hc : Complete (.expression c) ts) (hrp : rp.Is .rightParen)
    (hs : Complete (.statement false s) us) (hother : other.Is .elseWord)
    (ha : Complete (.statement d a) vs) : Complete (.statement d (.branch c s (some a)))
      (k :: lp :: (ts ++ rp :: (us ++ other :: vs))) := by
  refine complete_opened hk (by decide) fun n rest hn hd => ?_
  simp only [List.length_append, List.length_cons] at hn
  refine hc.parses_condition hlp hrp (by omega) ?_
  refine Parses.bind (hs n _ (by omega) fun h => nomatch h) ?_
  refine parses_accept_some hother ?_
  rw [← List.append_nil vs]
  exact Parses.bind (ha n _ (by omega) hd) (parses_pure _ rest)

theorem complete_forLoop {init : Option Stmt} {cond step : Option Expr} {k lp semi rp : Token}
    (hk : k.Is .forWord) (hlp : lp.Is .leftParen) (hi : Complete (.initializer init) ts)
    (hc : Complete (.clause cond) us) (hsemi : semi.Is .semicolon) (he : Complete (.clause step) vs)
    (hrp : rp.Is .rightParen) (hs : Complete (.statement d s) ws) :
    Complete (.statement d (.forLoop init cond step s))
      (k :: lp :: (ts ++ (us ++ semi :: (vs ++ rp :: ws)))) := by
  refine complete_opened hk (by decide) fun n rest hn hd => ?_
  simp only [List.length_append, List.length_cons] at hn
  refine parses_expect hlp (Parses.bind (hi n _ (by omega)) ?_)
  refine Parses.bind (hc n .semicolon _ semi (by omega) (by decide) hsemi) ?_
  refine parses_expect hsemi (Parses.bind (he n .rightParen _ rp (by omega) (by decide) hrp) ?_)
  refine parses_expect hrp ?_
  rw [← List.append_nil ws]
  exact Parses.bind (hs n _ (by omega) hd) (parses_pure _ rest)

theorem complete_noInitializer {semi : Token} (hsemi : semi.Is .semicolon) :
    Complete (.initializer none) [semi] :=
  fun _ rest _ => parses_accept_some hsemi (parses_pure none rest)

theorem complete_declareFirst {k : Token} (hk : k.Is .varWord) (h : Complete (.binding s) ts) :
    Complete (.initializer (some s)) (k :: ts) := by
  intro n rest hn
  simp only [List.length_cons] at hn
  refine parses_accept_none (lacks_cons hk rfl _) ?_
  refine parses_accept_some hk ?_
  rw [← List.append_nil ts]
  exact Parses.bind (h n _ (by omega)) (parses_pure _ rest)

theorem complete_expressionFirst {semi : Token} (h : Complete (.expression e) ts)
    (hsemi : semi.Is .semicolon) (hts : Begins starts ts) :
    Complete (.initializer (some (.expression e))) (ts ++ [semi]) := by
  intro n rest hn
  simp only [List.length_append, List.length_cons, List.length_nil] at hn
  have hlacks : ∀ sym, starts (.symbol sym) = false →
      Lacks (fun k => [sym].any fun s => k = .symbol s) ((ts ++ [semi]) ++ rest) := fun sym hsym =>
    ((hts.append _).append _).lacks fun k =>
      any_eq_false_of fun s hs => (List.mem_singleton.mp hs) ▸ hsym
  have hstmt : Parses (expressionStatement (expression n)) (ts ++ [semi]) rest (.expression e) :=
    Parses.bind (h n _ (by omega) (lacks_cons hsemi rfl _)) (parses_expect hsemi (parses_pure _ rest))
  refine parses_accept_none (hlacks _ rfl) ?_
  refine parses_accept_none (hlacks _ rfl) ?_
  rw [← List.append_nil (ts ++ [semi])]
  exact Parses.bind hstmt (parses_pure _ rest)

/-! ## Declarations -/

theorem complete_noParameters : Complete (.parameters []) [] := by
  intro k rest rp _ hrp
  exact parses_atAny (b := true) (begins_cons hrp rfl _) (parses_pure [] _)

theorem complete_parameters {ps : List Token} (h : Complete (.names ps) ts)
    (hlen : ps.length ≤ maxArity) (hts : Begins (fun k => k = .identifier) ts) :
    Complete (.parameters ps) ts := by
  intro k rest rp hk hrp
  have hat : Begins (fun k => ([Symbol.rightParen].any fun s => k = .symbol s) == false)
      (ts ++ rp :: rest) := (hts.append _).imp fun k hk => by
    rw [of_decide_eq_true hk]
    rfl
  exact parses_atAny hat (h k [] rest rp hk (by simpa using hlen) hrp)

theorem complete_name {p : Token} (hp : p.IsName) : Complete (.names [p]) [p] := by
  intro k found rest rp hk hlen hrp
  obtain ⟨k, rfl⟩ : ∃ m, k = m + 1 := ⟨k - 1, by omega⟩
  refine parses_not_full hlen ?_
  rw [← List.reverse_cons]
  refine parses_expectName hp ?_
  exact parses_accept_none (lacks_cons hrp rfl _) (parses_pure (p :: found).reverse _)

theorem complete_names {p comma : Token} {ps : List Token} (hp : p.IsName)
    (hcomma : comma.Is .comma) (h : Complete (.names ps) ts) :
    Complete (.names (p :: ps)) (p :: comma :: ts) := by
  intro k found rest rp hk hlen hrp
  simp only [List.length_cons] at hk hlen
  obtain ⟨k, rfl⟩ : ∃ m, k = m + 1 := ⟨k - 1, by omega⟩
  refine parses_not_full (by omega) ?_
  rw [List.append_cons found.reverse, ← List.reverse_cons]
  refine parses_expectName hp (parses_accept_some hcomma ?_)
  exact h k (p :: found) rest rp (by omega) (by simp only [List.length_cons]; omega) hrp

theorem complete_uninitialized {n semi : Token} (hn : n.IsName) (hsemi : semi.Is .semicolon) :
    Complete (.binding (.declare n none)) [n, semi] := by
  intro m rest _
  refine parses_expectName hn (parses_accept_none (lacks_cons hsemi rfl _) ?_)
  exact parses_expect hsemi (parses_pure _ rest)

theorem complete_initialized {n eq semi : Token} (hn : n.IsName) (heq : eq.Is .equal)
    (h : Complete (.expression e) ts) (hsemi : semi.Is .semicolon) :
    Complete (.binding (.declare n (some e))) (n :: eq :: (ts ++ [semi])) := by
  intro m rest hm
  simp only [List.length_append, List.length_cons, List.length_nil] at hm
  refine parses_expectName hn (parses_accept_some heq ?_)
  refine Parses.bind (h m _ (by omega) (lacks_cons hsemi rfl _)) ?_
  exact parses_expect hsemi (parses_pure _ rest)

theorem Parses.recover {p : Parser Stmt} {rest : List Token} (h : Parses p ts rest s) :
    Parses (recover p) ts rest (some s) := by
  intro last reports
  simp only [Parser.recover, h last reports]

theorem complete_statement (h : Complete (.statement d s) ts) (hts : Begins startsStatement ts) :
    Complete (.declaration d s) ts := by
  intro n rest hn hd
  obtain ⟨n, rfl⟩ : ∃ m, n = m + 1 := ⟨n - 1, by omega⟩
  rw [declaration_succ]
  refine Parses.recover (parses_acceptIf_none ?_ (h n rest (by omega) hd))
  exact (hts.append _).lacks fun k => any_eq_false_of (by decide)

/-- The declaration that a symbol opens. -/
def declarationAfter (n : Nat) : Symbol → Parser Stmt
  | .classWord => classDecl (declaration n) n
  | .funWord => do pure (.function (← routine (declaration n) "function" n))
  | _ => variableDecl (expression n)

theorem complete_opened_declaration {t : Token} {sym : Symbol} (ht : t.Is sym)
    (hsym : sym ∈ [Symbol.classWord, .funWord, .varWord])
    (h : ∀ n rest, 2 * ts.length + 6 ≤ n → Parses (declarationAfter n sym) ts rest s) :
    Complete (.declaration false s) (t :: ts) := by
  intro n rest hn _
  simp only [List.length_cons] at hn
  obtain ⟨n, rfl⟩ : ∃ m, n = m + 1 := ⟨n - 1, by omega⟩
  rw [declaration_succ]
  refine Parses.recover (parses_acceptAny_some hsym ht ?_)
  simp only [show t.kind = _ from ht]
  have h := h n rest (by omega)
  cases sym <;> exact h

theorem complete_binding {k : Token} (hk : k.Is .varWord) (h : Complete (.binding s) ts) :
    Complete (.declaration false s) (k :: ts) :=
  complete_opened_declaration hk (by decide) fun n rest hn => h n rest (by omega)

theorem complete_function {r : Routine Stmt} {k : Token} (hk : k.Is .funWord)
    (h : Complete (.routine r) ts) : Complete (.declaration false (.function r)) (k :: ts) := by
  refine complete_opened_declaration hk (by decide) fun n rest hn => ?_
  rw [← List.append_nil ts]
  exact Parses.bind (h n n "function" _ (by omega) (by omega)) (parses_pure _ rest)

/-- A class from its opening brace on. -/
theorem Complete.parses_class {ms : List (Routine Stmt)} {name lb rb : Token}
    (hlb : lb.Is .leftBrace) (h : Complete (.methods ms) ts) (hrb : rb.Is .rightBrace)
    (superclass : Option Reference) {n : Nat} (hn : 2 * ts.length + 5 ≤ n) (rest : List Token) :
    Parses (do
      let _ ← expect .leftBrace "'\x7b' before class body"
      let found ← methods (declaration n) n []
      let _ ← expect .rightBrace "'\x7d' after class body"
      pure (Stmt.classDecl name superclass found))
      (lb :: (ts ++ [rb])) rest (.classDecl name superclass ms) := by
  refine parses_expect hlb (Parses.bind (h n n [] _ rb (by omega) (by omega) hrb) ?_)
  exact parses_expect hrb (parses_pure _ rest)

theorem complete_base {ms : List (Routine Stmt)} {k n lb rb : Token} (hk : k.Is .classWord)
    (hn : n.IsName) (hlb : lb.Is .leftBrace) (h : Complete (.methods ms) ts)
    (hrb : rb.Is .rightBrace) :
    Complete (.declaration false (.classDecl n none ms)) (k :: n :: lb :: (ts ++ [rb])) := by
  refine complete_opened_declaration hk (by decide) fun m rest hm => ?_
  simp only [List.length_append, List.length_cons, List.length_nil] at hm
  refine parses_expectName hn (parses_accept_none (lacks_cons hlb rfl _) ?_)
  exact h.parses_class hlb hrb none (by omega) rest

theorem complete_derived {ms : List (Routine Stmt)} {k n lt p lb rb : Token} (hk : k.Is .classWord)
    (hn : n.IsName) (hlt : lt.Is .less) (hp : p.IsName) (hlb : lb.Is .leftBrace)
    (h : Complete (.methods ms) ts) (hrb : rb.Is .rightBrace) :
    Complete (.declaration false (.classDecl n (some ⟨p, none⟩) ms))
      (k :: n :: lt :: p :: lb :: (ts ++ [rb])) := by
  refine complete_opened_declaration hk (by decide) fun m rest hm => ?_
  simp only [List.length_append, List.length_cons, List.length_nil] at hm
  refine parses_expectName hn (parses_accept_some hlt (parses_expectName hp ?_))
  exact h.parses_class hlb hrb (some ⟨p, none⟩) (by omega) rest

theorem complete_noDeclarations : Complete (.declarations []) [] := by
  intro n k found stop ends rest _ hk hstop _ hend _ last reports
  obtain ⟨k, rfl⟩ : ∃ m, k = m + 1 := ⟨k - 1, by simp at hk; omega⟩
  rw [declarations_succ hstop, List.append_nil]
  exact if_pos hend

theorem complete_declarations {l : List Stmt} (hs : Complete (.declaration d s) ts)
    (hl : Complete (.declarations l) us) (hts : Begins startsDeclaration ts)
    (hus : ∀ rest, NoElse rest → NoElse (us ++ rest)) :
    Complete (.declarations (s :: l)) (ts ++ us) := by
  intro n k found stop ends rest hn hk hstop hbegin hend helse last reports
  have hpos := hts.length_pos
  simp only [List.length_append] at hn hk
  obtain ⟨k, rfl⟩ : ∃ m, k = m + 1 := ⟨k - 1, by omega⟩
  have hgo : ends ((ts ++ us) ++ rest) = false := hbegin _ ((hts.append _).append _)
  rw [declarations_succ hstop]
  simp only [hgo, Bool.false_eq_true, ↓reduceIte]
  rw [List.append_cons found.reverse, ← List.reverse_cons]
  refine Parses.bind (hs n _ (by omega) fun _ => hus rest helse) ?_ last reports
  exact hl n k (s :: found) stop ends rest (by omega) (by omega) hstop hbegin hend helse

theorem Reads.noElse {l : List Stmt} (h : Reads (.declarations l) us) {rest : List Token}
    (hrest : NoElse rest) : NoElse (us ++ rest) := by
  cases h with
  | noDeclarations => exact hrest
  | declarations hs _ =>
    obtain ⟨t, ts, rfl, ht⟩ := hs.begins
    intro t' ht' helse
    obtain rfl : t = t' := by simpa using ht'
    rw [show t.kind = _ from helse] at ht
    cases ht

theorem complete_routine {n lp rp lb rb : Token} {ps : List Token} {l : List Stmt}
    (hn : n.IsName) (hlp : lp.Is .leftParen) (hps : Complete (.parameters ps) ts)
    (hrp : rp.Is .rightParen) (hlb : lb.Is .leftBrace) (hl : Complete (.declarations l) us)
    (hrb : rb.Is .rightBrace) :
    Complete (.routine ⟨n, ps, l⟩) (n :: lp :: (ts ++ rp :: lb :: (us ++ [rb]))) := by
  intro m k sort rest hm hk
  simp only [List.length_append, List.length_cons, List.length_nil] at hm hk
  have hbody : Parses (do
      let _ ← expect .rightParen "')' after parameters"
      let _ ← expect .leftBrace ("'\x7b' before " ++ sort ++ " body")
      let body ← block (declaration m) k
      pure (⟨n, ps, body⟩ : Routine Stmt)) (rp :: lb :: (us ++ [rb])) rest ⟨n, ps, l⟩ := by
    refine parses_expect hrp (parses_expect hlb ?_)
    rw [← List.append_nil (us ++ [rb])]
    exact Parses.bind (hl.parses_block hrb (by omega) (by omega) _) (parses_pure _ rest)
  refine parses_expectName hn (parses_expect hlp ?_)
  refine parses_ifAt ?_
  exact Parses.bind (hps k _ rp (by omega) hrp) hbody

theorem complete_noMethods : Complete (.methods []) [] := by
  intro n k found rest rb _ hk hrb last reports
  obtain ⟨k, rfl⟩ : ∃ m, k = m + 1 := ⟨k - 1, by simp at hk; omega⟩
  rw [methods_succ, List.append_nil]
  exact if_pos (decide_eq_true hrb)

theorem complete_methods {r : Routine Stmt} {ms : List (Routine Stmt)} (hr : Complete (.routine r) ts)
    (hms : Complete (.methods ms) us) (hts : Begins (fun k => k = .identifier) ts) :
    Complete (.methods (r :: ms)) (ts ++ us) := by
  intro n k found rest rb hn hk hrb last reports
  have hpos := hts.length_pos
  simp only [List.length_append] at hn hk
  obtain ⟨k, rfl⟩ : ∃ m, k = m + 1 := ⟨k - 1, by omega⟩
  have hgo : closes ((ts ++ us) ++ rb :: rest) = false :=
    closes_eq_false _ (((hts.append _).append _).imp fun kind hkind => by
      rw [of_decide_eq_true hkind]
      rfl)
  rw [methods_succ]
  simp only [hgo, Bool.false_eq_true, ↓reduceIte]
  rw [List.append_cons found.reverse, ← List.reverse_cons]
  refine Parses.bind (hr n k "method" _ (by omega) (by omega)) ?_ last reports
  exact hms n k (r :: found) rest rb (by omega) (by omega) hrb

end

/-- The productions read every phrase that can be read. -/
theorem Reads.complete {goal : Goal} {ts : List Token} (h : Reads goal ts) : Complete goal ts := by
  induction h with
  | plain _ ih => exact complete_plain ih
  | assign _ heq _ ih ihv | set _ heq _ ih ihv =>
    exact complete_target ih heq ihv fun rest => parses_pure _ rest
  | bottom _ ih => exact ih
  | level _ he iha ihe => exact complete_level iha ihe fun _ => he.lacks_chain
  | endOfChain => exact complete_endOfChain _ _
  | link hop hs _ he ihb ihe => exact complete_link hop hs ihb ihe fun _ => he.lacks_chain
  | sign hop hs _ ih => exact complete_sign hop hs ih
  | call ha _ iha ihe => exact complete_call iha ihe ha.primary_unsigned
  | endOfSuffixes => exact complete_endOfSuffixes _
  | apply hlp _ hrp _ ihargs ihe => exact complete_apply hlp ihargs hrp ihe
  | property hdot hn _ ih => exact complete_property hdot hn ih
  | noArguments => exact complete_noArguments
  | arguments h hlen ih => exact complete_arguments ih hlen h.begins
  | item _ ih => exact complete_item ih
  | items _ hcomma _ ih ihes => exact complete_items ih hcomma ihes
  | atom h => exact complete_atom h
  | inherited hk hdot hn => exact complete_inherited hk hdot hn
  | group hlp _ hrp ih => exact complete_group hlp ih hrp
  | noClause => exact complete_noClause
  | clause h ih => exact complete_clause ih h.begins
  | expressionStatement h hsemi ih => exact complete_expressionStatement ih hsemi h.begins
  | print hk _ hsemi ih => exact complete_print hk ih hsemi
  | leave hk _ hsemi ih => exact complete_leave hk ih hsemi
  | block hlb _ hrb ih => exact complete_block hlb ih hrb
  | loop hk hlp _ hrp _ ihc ihs => exact complete_loop hk hlp ihc hrp ihs
  | branch hk hlp _ hrp _ ihc ihs => exact complete_branch hk hlp ihc hrp ihs
  | choice hk hlp _ hrp _ hother _ ihc ihs iha =>
    exact complete_choice hk hlp ihc hrp ihs hother iha
  | forLoop hk hlp _ _ hsemi _ hrp _ ihi ihc ihe ihs =>
    exact complete_forLoop hk hlp ihi ihc hsemi ihe hrp ihs
  | noInitializer hsemi => exact complete_noInitializer hsemi
  | declareFirst hk _ ih => exact complete_declareFirst hk ih
  | expressionFirst h hsemi ih => exact complete_expressionFirst ih hsemi h.begins
  | noParameters => exact complete_noParameters
  | parameters h hlen ih => exact complete_parameters ih hlen h.begins
  | name hp => exact complete_name hp
  | names hp hcomma _ ih => exact complete_names hp hcomma ih
  | uninitialized hn hsemi => exact complete_uninitialized hn hsemi
  | initialized hn heq _ hsemi ih => exact complete_initialized hn heq ih hsemi
  | statement h ih => exact complete_statement ih h.begins
  | binding hk _ ih => exact complete_binding hk ih
  | function hk _ ih => exact complete_function hk ih
  | base hk hn hlb _ hrb ih => exact complete_base hk hn hlb ih hrb
  | derived hk hn hlt hp hlb _ hrb ih => exact complete_derived hk hn hlt hp hlb ih hrb
  | noDeclarations => exact complete_noDeclarations
  | declarations hs hl ihs ihl => exact complete_declarations ihs ihl hs.begins fun _ => hl.noElse
  | routine hn hlp _ hrp hlb _ hrb ihps ihl => exact complete_routine hn hlp ihps hrp hlb ihl hrb
  | noMethods => exact complete_noMethods
  | methods hr _ ihr ihms => exact complete_methods ihr ihms hr.begins

end Parser

open Treewalk.Parser

/-- What the tokens are read as is the program, and there is no diagnostic. -/
theorem Program.ofTokens_of_reads {tokens : List Token} {p : Program}
    (h : Reads (.declarations p) (Program.tokens tokens)) : Program.ofTokens tokens = (p, []) := by
  have hlen : (Program.tokens tokens).length ≤ tokens.length :=
    List.Sublist.length_le (List.takeWhile_sublist _)
  have hp : Parses (program (fuelFor tokens)) (Program.tokens tokens) [] p := by
    refine h.complete (fuelFor tokens) (fuelFor tokens) [] atEnd List.isEmpty [] ?_ ?_ (fun _ => rfl)
      ?_ rfl ?_
    · unfold fuelFor
      omega
    · unfold fuelFor
      omega
    · rintro us ⟨t, us, rfl, _⟩
      rfl
    · intro t ht
      cases ht
  unfold Program.ofTokens
  rw [show Cursor.start tokens = ⟨Program.tokens tokens ++ [], (Cursor.start tokens).last, []⟩ by
    rw [List.append_nil]; rfl, hp]
  rfl

theorem Program.ofTokens_eq_iff {tokens : List Token} {p : Program} :
    Program.ofTokens tokens = (p, []) ↔ Reads (.declarations p) (Program.tokens tokens) :=
  ⟨Program.reads_of_ofTokens, Program.ofTokens_of_reads⟩

theorem Program.ofTokens_append_iff {ts : List Token} {eof : Token} {p : Program}
    (hts : ∀ t ∈ ts, t.kind ≠ .endOfFile) (heof : eof.kind = .endOfFile) :
    Program.ofTokens (ts ++ [eof]) = (p, []) ↔ Reads (.declarations p) ts := by
  rw [Program.ofTokens_eq_iff, Program.tokens_append_end hts heof]

/-- Tokens are read as one program at most. -/
theorem Parser.Reads.unique {ts : List Token} {p q : Program} (hp : Reads (.declarations p) ts)
    (hq : Reads (.declarations q) ts) (hts : ∀ t ∈ ts, t.kind ≠ .endOfFile) : p = q := by
  have hread : Program.ofTokens (ts ++ [.endOfFile 0]) = (p, []) :=
    (Program.ofTokens_append_iff hts rfl).mpr hp
  rw [(Program.ofTokens_append_iff hts rfl).mpr hq] at hread
  exact congrArg Prod.fst hread.symm

end Treewalk
