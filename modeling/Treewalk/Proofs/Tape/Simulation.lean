import Treewalk.Proofs.Tape
import Treewalk.Proofs.Grammar.Sound

/-!
# What is read by position

A tape shows what a cursor holds (`Tape.Shows`): the tokens from its position to the first end
of file are those that the cursor has left, and the looks so far were at tokens up to there and
never from further on. From there on the productions over positions and those over cursors
end alike (`Simulates`), with any two amounts of fuel unless one of them runs out. So whatever
is known about the productions over cursors is known about those over positions, and no look is
ever outside of the tokens.
-/

namespace Treewalk

namespace Tape

/-! ## Positions and cursors -/

/-- The position of the first end of file. -/
def firstEnd (tokens : List Token) : Nat :=
  tokens.findIdx Token.isEnd

/-- There is an end of file, the parser is not past the first one and has not looked past it,
and it has never gone back. -/
structure InBounds (t : Tape) : Prop where
  ends : firstEnd t.tokens < t.tokens.length
  current_le : t.current ≤ firstEnd t.tokens
  index_le : ∀ l ∈ t.looks, l.index ≤ firstEnd t.tokens
  looks_le : ∀ l ∈ t.looks, l.current ≤ t.current
  forward : t.looks.Pairwise fun later earlier => earlier.current ≤ later.current

structure Shows (t : Tape) (c : Cursor) : Prop where
  inBounds : t.InBounds
  rest : (t.tokens.take (firstEnd t.tokens)).drop t.current = c.rest
  last : t.tokens[firstEnd t.tokens]? = some c.last
  reports : t.reports = c.reports

section

variable {t : Tape} {c : Cursor} {token : Token} {rest : List Token}

theorem Shows.length_rest (h : t.Shows c) : c.rest.length = firstEnd t.tokens - t.current := by
  have hends := h.inBounds.ends
  rw [← h.rest, List.length_drop, List.length_take]
  omega

theorem Shows.isEnd_last (h : t.Shows c) : c.last.isEnd = true := by
  obtain ⟨hlt, hlast⟩ := List.getElem?_eq_some_iff.mp h.last
  rw [← hlast]
  exact List.findIdx_getElem

/-- The token in front is one of the tokens before the end. -/
theorem Shows.front (h : t.Shows c) (hrest : c.rest = token :: rest) :
    t.current < firstEnd t.tokens ∧ t.tokens[t.current]? = some token ∧ token.isEnd = false := by
  have hlt : t.current < firstEnd t.tokens := by
    have hlen := h.length_rest
    rw [hrest, List.length_cons] at hlen
    omega
  have hfront : t.tokens[t.current]? = some token := by
    have hget : ((t.tokens.take (firstEnd t.tokens)).drop t.current)[0]? = some token := by
      rw [h.rest, hrest]
      rfl
    rwa [List.getElem?_drop, Nat.add_zero, List.getElem?_take_of_lt hlt] at hget
  refine ⟨hlt, hfront, ?_⟩
  obtain ⟨_, rfl⟩ := List.getElem?_eq_some_iff.mp hfront
  exact List.not_of_lt_findIdx hlt

theorem Shows.peek_eq (h : t.Shows c) : t.tokens[t.current]? = some c.peek := by
  unfold Cursor.peek
  cases hrest : c.rest with
  | nil =>
    have hlen := h.length_rest
    have hle := h.inBounds.current_le
    rw [hrest, List.length_nil] at hlen
    rw [show t.current = firstEnd t.tokens by omega, h.last]
    rfl
  | cons token rest => exact (h.front hrest).2.1

theorem Shows.isEnd_peek (h : t.Shows c) : c.peek.isEnd = c.rest.isEmpty := by
  unfold Cursor.peek
  cases hrest : c.rest with
  | nil => exact h.isEnd_last
  | cons token rest => exact (h.front hrest).2.2

theorem Shows.current_eq {t' : Tape} (h : t.Shows c) (h' : t'.Shows c)
    (htokens : t'.tokens = t.tokens) : t'.current = t.current := by
  have hlen := h.length_rest
  have hle := h.inBounds.current_le
  have hlen' := h'.length_rest
  have hle' := h'.inBounds.current_le
  rw [htokens] at hlen' hle'
  omega

/-- The tape after a look. -/
def looked (t : Tape) (index : Nat) : Tape :=
  { t with looks := ⟨t.current, index⟩ :: t.looks }

theorem Shows.looked (h : t.Shows c) {index : Nat} (hindex : index ≤ firstEnd t.tokens) :
    (t.looked index).Shows c :=
  { inBounds :=
      { ends := h.inBounds.ends
        current_le := h.inBounds.current_le
        index_le := List.forall_mem_cons.mpr ⟨hindex, h.inBounds.index_le⟩
        looks_le := List.forall_mem_cons.mpr ⟨Nat.le_refl _, h.inBounds.looks_le⟩
        forward := List.pairwise_cons.mpr ⟨h.inBounds.looks_le, h.inBounds.forward⟩ }
    rest := h.rest
    last := h.last
    reports := h.reports }

theorem Shows.stepped (h : t.Shows c) (hrest : c.rest = token :: rest) :
    Shows { t with current := t.current + 1 } { c with rest } :=
  { inBounds :=
      { ends := h.inBounds.ends
        current_le := (h.front hrest).1
        index_le := h.inBounds.index_le
        looks_le := fun l hl => Nat.le_succ_of_le (h.inBounds.looks_le l hl)
        forward := h.inBounds.forward }
    rest := by
      show (t.tokens.take (firstEnd t.tokens)).drop (t.current + 1) = rest
      rw [← List.tail_drop, h.rest, hrest, List.tail_cons]
    last := h.last
    reports := h.reports }

/-- What was read last stands right before the position. -/
theorem Shows.passed {t' : Tape} (h : t.Shows c) (hrest : c.rest = token :: rest)
    (h' : t'.Shows { c with rest }) (htokens : t'.tokens = t.tokens) :
    t'.tokens[t'.current - 1]? = some token := by
  rw [htokens, (h.stepped hrest).current_eq h' htokens]
  exact (h.front hrest).2.1

theorem Shows.recorded (h : t.Shows c) (d : Diagnostic) :
    Shows { t with reports := d :: t.reports } (c.record d) :=
  ⟨⟨h.inBounds.ends, h.inBounds.current_le, h.inBounds.index_le, h.inBounds.looks_le,
    h.inBounds.forward⟩, h.rest, h.last, congrArg (d :: ·) h.reports⟩

end

/-! ## Looks and single steps -/

section

variable {α β : Type} {t : Tape} {c c' : Cursor} {token : Token} {rest : List Token}

/-- The reader gives `a` and leaves a tape behind that shows `c`. -/
def Yields (q : Reader α) (t : Tape) (a : α) (c : Cursor) : Prop :=
  ∃ t', q t = .ok a t' ∧ t'.tokens = t.tokens ∧ t'.Shows c

theorem Shows.yields_pure (h : t.Shows c) (a : α) : Yields (pure a) t a c :=
  ⟨t, rfl, rfl, h⟩

theorem Yields.bind {x : Reader α} {f : α → Reader β} {a : α} {b : β} (hx : Yields x t a c)
    (hf : ∀ t', t'.tokens = t.tokens → t'.Shows c → Yields (f a) t' b c') :
    Yields (x >>= f) t b c' := by
  obtain ⟨t₁, hx, htokens, hshows⟩ := hx
  obtain ⟨t₂, hf, htokens', hshows'⟩ := hf t₁ htokens hshows
  refine ⟨t₂, ?_, htokens'.trans htokens, hshows'⟩
  show EStateM.bind x f t = _
  rw [EStateM.bind, hx]
  exact hf

theorem Shows.yields_lookAt (h : t.Shows c) {index : Nat} (hindex : index ≤ firstEnd t.tokens)
    (htoken : t.tokens[index]? = some token) : Yields (lookAt index) t token c := by
  refine ⟨t.looked index, ?_, rfl, h.looked hindex⟩
  unfold lookAt
  rw [htoken]
  rfl

theorem Shows.yields_peek (h : t.Shows c) : Yields peek t c.peek c :=
  h.yields_lookAt h.inBounds.current_le h.peek_eq

theorem Shows.yields_previous (h : t.Shows c) (htoken : t.tokens[t.current - 1]? = some token) :
    Yields previous t token c :=
  h.yields_lookAt (Nat.le_trans (Nat.sub_le _ _) h.inBounds.current_le) htoken

theorem Shows.yields_atEnd (h : t.Shows c) : Yields atEnd t c.rest.isEmpty c :=
  h.yields_peek.bind fun _ _ h' => h.isEnd_peek ▸ h'.yields_pure _

theorem Shows.yields_advance (h : t.Shows c) (hrest : c.rest = token :: rest) :
    Yields advance t token { c with rest } := by
  have hend := h.yields_atEnd
  rw [hrest] at hend
  refine hend.bind fun t₁ _ h₁ => ?_
  have h₂ := h₁.stepped hrest
  exact Yields.bind ⟨_, rfl, rfl, h₂⟩ fun t₃ htokens₃ h₃ =>
    h₃.yields_previous (h₁.passed hrest h₃ htokens₃)

theorem Shows.yields_check (h : t.Shows c) (p : Kind → Bool) :
    Yields (check p) t (c.rest.head?.any fun t => p t.kind) c := by
  refine h.yields_atEnd.bind fun t' _ h' => ?_
  cases hrest : c.rest with
  | nil => exact h'.yields_pure _
  | cons token rest =>
    refine h'.yields_peek.bind fun _ _ h'' => ?_
    rw [Cursor.peek, hrest]
    exact h''.yields_pure _

/-- Recovery goes on to the boundary behind what was read last. -/
theorem Shows.yields_skip {n : Nat} (h : t.Shows c)
    (hprevious : t.tokens[t.current - 1]? = some token) (hn : c.rest.length < n) :
    Yields (skip n) t () { c with rest := Cursor.boundary token c.rest } := by
  induction n generalizing t c token with
  | zero => exact absurd hn (Nat.not_lt_zero _)
  | succ n ih =>
    refine h.yields_atEnd.bind fun t₁ htokens₁ h₁ => ?_
    obtain ⟨rest, last, reports⟩ := c
    cases rest with
    | nil => exact h₁.yields_pure ()
    | cons next rest =>
      rw [← h.current_eq h₁ htokens₁, ← htokens₁] at hprevious
      refine (h₁.yields_previous hprevious).bind fun t₂ htokens₂ h₂ => ?_
      simp only [Cursor.boundary, Bool.or_eq_true, decide_eq_true_eq]
      by_cases hsemi : token.kind = .symbol .semicolon
      · rw [if_pos hsemi, if_pos (.inl hsemi)]
        exact h₂.yields_pure ()
      · rw [if_neg hsemi]
        refine h₂.yields_peek.bind fun t₃ htokens₃ h₃ => ?_
        by_cases hopens : Cursor.opensStatement next = true
        · rw [show Cursor.peek ⟨next :: rest, last, reports⟩ = next from rfl, if_pos hopens,
            if_pos (.inr hopens)]
          exact h₃.yields_pure ()
        · rw [show Cursor.peek ⟨next :: rest, last, reports⟩ = next from rfl, if_neg hopens,
            if_neg (not_or.mpr ⟨hsemi, hopens⟩)]
          exact (h₃.yields_advance rfl).bind fun t₄ htokens₄ h₄ =>
            ih h₄ (h₃.passed rfl h₄ htokens₄) (Nat.lt_of_succ_lt_succ hn)

theorem Shows.yields_synchronize (h : t.Shows c) : Yields synchronize t () c.synchronize := by
  have hends := h.inBounds.ends
  have hlen := h.length_rest
  obtain ⟨rest, last, reports⟩ := c
  cases rest with
  | nil =>
    -- at the end nothing is skipped, though the token before it is looked at
    have hle := h.inBounds.current_le
    obtain ⟨before, hbefore⟩ : ∃ token, t.tokens[t.current - 1]? = some token :=
      ⟨_, List.getElem?_eq_getElem (by omega)⟩
    have hadvance : Yields advance t before ⟨[], last, reports⟩ := by
      refine h.yields_atEnd.bind fun t₁ htokens₁ h₁ => h₁.yields_previous ?_
      rwa [htokens₁, h.current_eq h₁ htokens₁]
    refine Yields.bind hadvance fun t₁ htokens₁ h₁ => ?_
    rw [← htokens₁, ← h.current_eq h₁ htokens₁] at hbefore
    exact h₁.yields_skip hbefore (Nat.zero_lt_of_lt hends)
  | cons token rest =>
    refine Yields.bind (h.yields_advance rfl) fun t₁ htokens₁ h₁ => ?_
    refine h₁.yields_skip (h.passed rfl h₁ htokens₁) ?_
    simp only [List.length_cons] at hlen ⊢
    omega

end

/-! ## Productions that end alike -/

/-- How a production over a cursor and one over positions end: with the same result or the same
fault, what is left being the same, unless one of them runs out of fuel. That over positions may
do so only where it is `short` of fuel. -/
inductive Follows {α : Type} (short : Prop) (tokens : List Token) :
    EStateM.Result Treewalk.Halt Cursor α → EStateM.Result Halt Tape α → Prop
  | ok {a : α} {c : Cursor} {t : Tape} : t.tokens = tokens → t.Shows c →
    Follows short tokens (.ok a c) (.ok a t)
  | fault {d : Diagnostic} {c : Cursor} {t : Tape} : t.tokens = tokens → t.Shows c →
    Follows short tokens (.error (.fault d) c) (.error (.fault d) t)
  | exhausted {c : Cursor} {r : EStateM.Result Halt Tape α} :
    Follows short tokens (.error .exhausted c) r
  | short {r : EStateM.Result Treewalk.Halt Cursor α} {t : Tape} : short →
    Follows short tokens r (.error .exhausted t)

def Simulates {α : Type} (short : Prop) (p : Parser α) (q : Reader α) : Prop :=
  ∀ c t, t.Shows c → Follows short t.tokens (p c) (q t)

section

variable {α β : Type} {short : Prop}

theorem Yields.follows {q : Reader α} {t : Tape} {a : α} {c : Cursor} (h : Yields q t a c) :
    Follows short t.tokens (.ok a c) (q t) := by
  obtain ⟨t', hq, htokens, hshows⟩ := h
  rw [hq]
  exact .ok htokens hshows

theorem simulates_pure (a : α) : Simulates short (pure a) (pure a) :=
  fun _ _ h => .ok rfl h

theorem simulates_exhausted (q : Reader α) : Simulates short Parser.exhausted q :=
  fun _ _ _ => .exhausted

theorem simulates_short (h : short) (p : Parser α) : Simulates short p (halt .exhausted) :=
  fun _ _ _ => .short h

theorem Simulates.bind {x : Parser α} {y : Reader α} {f : α → Parser β} {g : α → Reader β}
    (hx : Simulates short x y) (hf : ∀ a, Simulates short (f a) (g a)) :
    Simulates short (x >>= f) (y >>= g) := by
  intro c t h
  show Follows short t.tokens (EStateM.bind x f c) (EStateM.bind y g t)
  unfold EStateM.bind
  have hxy := hx c t h
  revert hxy
  generalize x c = r
  generalize y t = r'
  intro hxy
  cases hxy with
  | @ok a c₁ t₁ htokens h₁ => exact htokens ▸ hf a c₁ t₁ h₁
  | fault htokens h₁ => exact .fault htokens h₁
  | exhausted => exact .exhausted
  | short hshort => exact .short hshort

/-- A loop simulates another if a round of it does, given that the rounds after it do. Without
fuel both stop. -/
theorem simulates_loop {σ : Type} {p : Nat → σ → Parser α} {q : Nat → σ → Reader α}
    (hp : ∀ a, p 0 a = Parser.exhausted) (hq : ∀ a, q 0 a = halt .exhausted)
    (hround : ∀ n k, (k < n → short) → (∀ a, Simulates short (p n a) (q k a)) →
      ∀ a, Simulates short (p (n + 1) a) (q (k + 1) a))
    {n k : Nat} (hshort : k < n → short) (a : σ) : Simulates short (p n a) (q k a) := by
  induction n generalizing k a with
  | zero =>
    rw [hp]
    exact simulates_exhausted _
  | succ n ih =>
    cases k with
    | zero =>
      rw [hq]
      exact simulates_short (hshort (Nat.succ_pos n)) _
    | succ k =>
      have hshort' : k < n → short := fun h => hshort (Nat.succ_lt_succ h)
      exact hround n k hshort' (fun a => ih hshort' a) a

theorem simulates_peek : Simulates short Parser.peek peek :=
  fun _ _ h => h.yields_peek.follows

theorem simulates_atEnd : Simulates short Parser.atEnd atEnd :=
  fun _ _ h => h.yields_atEnd.follows

theorem simulates_report (token : Token) (fault : SyntaxFault) :
    Simulates short (Parser.report token fault) (report token fault) :=
  fun _ _ h => .ok rfl (h.recorded _)

theorem simulates_fail (fault : SyntaxFault) :
    Simulates short (Parser.fail fault : Parser α) (fail fault) := by
  intro c t h
  obtain ⟨t', hpeek, htokens, h'⟩ := h.yields_peek
  show Follows short t.tokens _ (EStateM.bind peek _ t)
  rw [EStateM.bind, hpeek]
  exact .fault htokens h'

theorem simulates_atAny (symbols : List Symbol) :
    Simulates short (Parser.atAny symbols) (atAny symbols) := by
  intro c t h
  have hcheck := h.yields_check fun k => symbols.any fun s => k = .symbol s
  refine Eq.subst (motive := fun b => Follows short t.tokens (.ok b c) (atAny symbols t)) ?_
    hcheck.follows
  unfold Cursor.peek
  cases hrest : c.rest with
  | nil =>
    have hend : c.last.kind = .endOfFile := by
      have hlast := h.isEnd_last
      unfold Token.isEnd at hlast
      split at hlast
      · assumption
      · cases hlast
    simp [hend]
  | cons token rest => rfl

theorem simulates_acceptIf (p : Kind → Bool) :
    Simulates short (Parser.acceptIf p) (acceptIf p) := by
  intro c t h
  have hcheck := h.yields_check p
  obtain ⟨rest, last, reports⟩ := c
  cases rest with
  | nil => exact (Yields.bind hcheck fun _ _ h' => h'.yields_pure none).follows
  | cons token rest =>
    have hsplit : Parser.acceptIf p ⟨token :: rest, last, reports⟩ =
        if p token.kind then .ok (some token) ⟨rest, last, reports⟩
        else .ok none ⟨token :: rest, last, reports⟩ := rfl
    have hhead : ((token :: rest).head?.any fun t => p t.kind) = p token.kind := rfl
    rw [hsplit]
    rw [hhead] at hcheck
    cases hp : p token.kind with
    | false =>
      rw [hp] at hcheck
      exact (Yields.bind hcheck fun _ _ h' => h'.yields_pure none).follows
    | true =>
      rw [hp] at hcheck
      refine (Yields.bind hcheck fun _ _ h' => ?_).follows
      exact (h'.yields_advance rfl).bind fun _ _ h'' => h''.yields_pure (some token)

theorem simulates_acceptAny (symbols : List Symbol) :
    Simulates short (Parser.acceptAny symbols) (acceptAny symbols) :=
  simulates_acceptIf _

theorem simulates_accept (s : Symbol) : Simulates short (Parser.accept s) (accept s) :=
  simulates_acceptAny [s]

theorem simulates_expectIf (p : Kind → Bool) (what : String) :
    Simulates short (Parser.expectIf p what) (expectIf p what) := by
  refine (simulates_acceptIf p).bind fun o => ?_
  cases o with
  | some token => exact simulates_pure token
  | none => exact simulates_fail _

theorem simulates_expect (s : Symbol) (what : String) :
    Simulates short (Parser.expect s what) (expect s what) :=
  simulates_expectIf _ what

theorem simulates_expectName (what : String) :
    Simulates short (Parser.expectName what) (expectName what) :=
  simulates_expectIf _ what

theorem simulates_acceptAtom : Simulates short Parser.acceptAtom acceptAtom := by
  intro c t h
  have hend := h.yields_atEnd
  obtain ⟨rest, last, reports⟩ := c
  cases rest with
  | nil => exact (Yields.bind hend fun _ _ h' => h'.yields_pure none).follows
  | cons token rest =>
    cases hatom : Parser.atom? token with
    | none =>
      have hnone : Parser.acceptAtom ⟨token :: rest, last, reports⟩ =
          .ok none ⟨token :: rest, last, reports⟩ := by
        unfold Parser.acceptAtom
        dsimp only
        rw [hatom]
      rw [hnone]
      refine (Yields.bind hend fun _ _ h' => h'.yields_peek.bind fun _ _ h'' => ?_).follows
      rw [show Cursor.peek ⟨token :: rest, last, reports⟩ = token from rfl, hatom]
      exact h''.yields_pure none
    | some e =>
      have hsome : Parser.acceptAtom ⟨token :: rest, last, reports⟩ =
          .ok (some e) ⟨rest, last, reports⟩ := by
        unfold Parser.acceptAtom
        dsimp only
        rw [hatom]
      rw [hsome]
      refine (Yields.bind hend fun _ _ h' => h'.yields_peek.bind fun _ _ h'' => ?_).follows
      rw [show Cursor.peek ⟨token :: rest, last, reports⟩ = token from rfl, hatom]
      exact (h''.yields_advance rfl).bind fun _ _ h₃ => h₃.yields_pure (some e)

theorem simulates_recover {p : Parser Stmt} {q : Reader Stmt} (h : Simulates short p q) :
    Simulates short (Parser.recover p) (recover q) := by
  intro c t hshows
  have hpq := h c t hshows
  unfold Parser.recover recover
  revert hpq
  generalize p c = r
  generalize q t = r'
  intro hpq
  cases hpq with
  | ok htokens h' => exact .ok htokens h'
  | @fault d c' t' htokens h' =>
    have hrecord : Yields (record d) t' () (c'.record d) := ⟨_, rfl, rfl, h'.recorded d⟩
    refine htokens ▸ Yields.follows (hrecord.bind fun _ _ h₁ => ?_)
    exact h₁.yields_synchronize.bind fun _ _ h₂ => h₂.yields_pure none
  | exhausted => exact .exhausted
  | short hshort => exact .short hshort

end

/-! ## Expressions -/

section

variable {short : Prop} {n k : Nat} {operand value argument unary' inner : Parser Expr}
  {operand₁ value₁ argument₁ unary₁ inner₁ : Reader Expr}

theorem simulates_chain (node : Token → Expr → Expr → Expr) (symbols : List Symbol)
    (hop : Simulates short operand operand₁) (hshort : k < n → short) (left : Expr) :
    Simulates short (Parser.chain node symbols operand n left)
      (chain node symbols operand₁ k left) := by
  refine simulates_loop (fun _ => rfl) (fun _ => rfl) (fun n k _ ih left => ?_) hshort left
  refine (simulates_acceptAny symbols).bind fun o => ?_
  cases o with
  | none => exact simulates_pure left
  | some op => exact hop.bind fun b => ih _

theorem simulates_ladder (hu : Simulates short unary' unary₁) (hshort : k < n → short) (i : Nat) :
    Simulates short (Parser.ladder unary' n i) (ladder unary₁ k i) := by
  induction i with
  | zero => exact hu
  | succ i ih => exact ih.bind fun a => simulates_chain _ _ ih hshort a

theorem simulates_assignment (hop : Simulates short operand operand₁)
    (hv : Simulates short value value₁) :
    Simulates short (Parser.assignment operand value) (assignment operand₁ value₁) := by
  refine hop.bind fun target => (simulates_accept _).bind fun o => ?_
  cases o with
  | none => exact simulates_pure target
  | some equals =>
    refine hv.bind fun v => ?_
    cases target with
    | var | get => exact simulates_pure _
    | literal | unary | binary | logical | group | assign | call | set | receiver | inherited =>
      exact (simulates_report equals _).bind fun _ => simulates_pure _

theorem simulates_checkRoom {α β : Type} (found : List α) (fault : SyntaxFault) {p : Parser β}
    {q : Reader β} (h : Simulates short p q) :
    Simulates short (if Parser.isFull found then
        Parser.peek >>= fun t => Parser.report t fault >>= fun _ => p else p)
      (checkRoom found fault >>= fun _ => q) := by
  unfold checkRoom
  cases Parser.isFull found with
  | false => exact h
  | true =>
    rw [if_pos rfl, if_pos rfl, bind_assoc]
    exact simulates_peek.bind fun token => (simulates_report token fault).bind fun _ => h

theorem simulates_arguments (ha : Simulates short argument argument₁) (hshort : k < n → short)
    (found : List Expr) :
    Simulates short (Parser.arguments argument n found) (arguments argument₁ k found) := by
  refine simulates_loop (fun _ => rfl) (fun _ => rfl) (fun n k _ ih found => ?_) hshort found
  refine simulates_checkRoom found _ (ha.bind fun e => (simulates_accept _).bind fun o => ?_)
  cases o with
  | some _ => exact ih _
  | none => exact simulates_pure _

theorem simulates_call (ha : Simulates short argument argument₁) (hshort : k < n → short)
    (callee : Expr) :
    Simulates short (Parser.call argument n callee) (call argument₁ k callee) := by
  refine (simulates_atAny _).bind fun b => ?_
  cases b with
  | true => exact (simulates_expect _ _).bind fun _ => simulates_pure _
  | false =>
    exact (simulates_arguments ha hshort []).bind fun _ => (simulates_expect _ _).bind fun _ =>
      simulates_pure _

theorem simulates_suffixes (ha : Simulates short argument argument₁) (hshort : k < n → short)
    (e : Expr) : Simulates short (Parser.suffixes argument n e) (suffixes argument₁ k e) := by
  refine simulates_loop (fun _ => rfl) (fun _ => rfl) (fun n k hshort ih e => ?_) hshort e
  refine (simulates_accept _).bind fun o => ?_
  cases o with
  | some _ => exact (simulates_call ha hshort e).bind fun e' => ih e'
  | none =>
    refine (simulates_accept _).bind fun o => ?_
    cases o with
    | some _ => exact (simulates_expectName _).bind fun name => ih _
    | none => exact simulates_pure e

theorem simulates_primary (hin : Simulates short inner inner₁) :
    Simulates short (Parser.primary inner) (primary inner₁) := by
  refine simulates_acceptAtom.bind fun o => ?_
  cases o with
  | some e => exact simulates_pure e
  | none =>
    refine (simulates_accept _).bind fun o => ?_
    cases o with
    | some keyword =>
      exact (simulates_expect _ _).bind fun _ => (simulates_expectName _).bind fun _ =>
        simulates_pure _
    | none =>
      refine (simulates_accept _).bind fun o => ?_
      cases o with
      | some _ => exact hin.bind fun _ => (simulates_expect _ _).bind fun _ => simulates_pure _
      | none => exact simulates_fail _

theorem simulates_signed (hu : Simulates short unary' unary₁) (hin : Simulates short inner inner₁)
    (hshort : k < n → short) :
    Simulates short (Parser.signed unary' inner n) (signed unary₁ inner₁ k) := by
  refine (simulates_acceptAny _).bind fun o => ?_
  cases o with
  | some op => exact hu.bind fun _ => simulates_pure _
  | none => exact (simulates_primary hin).bind fun e => simulates_suffixes hin hshort e

end

theorem simulates_expressions {short : Prop} {n k : Nat} (hshort : k < n → short) :
    Simulates short (Parser.expression n) (expression k) ∧
      Simulates short (Parser.unary n) (unary k) := by
  induction n generalizing k with
  | zero =>
    rw [Parser.expression, Parser.unary]
    exact ⟨simulates_exhausted _, simulates_exhausted _⟩
  | succ n ih =>
    cases k with
    | zero =>
      rw [expression, unary]
      exact ⟨simulates_short (hshort (Nat.succ_pos n)) _,
        simulates_short (hshort (Nat.succ_pos n)) _⟩
    | succ k =>
      have hshort' : k < n → short := fun h => hshort (Nat.succ_lt_succ h)
      rw [Parser.expression_succ, Parser.unary_succ, Parser.disjunction_eq, expression, unary]
      exact ⟨simulates_assignment (simulates_ladder (ih hshort').2 hshort' 6) (ih hshort').1,
        simulates_signed (ih hshort').2 (ih hshort').1 hshort'⟩

/-! ## Statements -/

section

variable {short : Prop} {n k : Nat} {expr : Parser Expr} {stmt : Parser Stmt}
  {decl : Parser (Option Stmt)} {expr₁ : Reader Expr} {stmt₁ : Reader Stmt}
  {decl₁ : Reader (Option Stmt)}

theorem simulates_declarations {stop : Parser Bool} {stop₁ : Reader Bool}
    (hstop : Simulates short stop stop₁) (hd : Simulates short decl decl₁)
    (hshort : k < n → short) (found : List Stmt) :
    Simulates short (Parser.declarations stop decl n found) (declarations stop₁ decl₁ k found) := by
  refine simulates_loop (fun _ => rfl) (fun _ => rfl) (fun n k _ ih found => ?_) hshort found
  refine hstop.bind fun b => ?_
  cases b with
  | true => exact simulates_pure _
  | false =>
    refine hd.bind fun o => ?_
    cases o with
    | some s => exact ih _
    | none => exact ih _

theorem simulates_atBlockEnd : Simulates short Parser.atBlockEnd atBlockEnd := by
  intro c t h
  rw [Parser.atBlockEnd_eq]
  have hcheck := h.yields_check fun k => [Symbol.rightBrace].any fun s => k = .symbol s
  obtain ⟨rest, last, reports⟩ := c
  cases rest with
  | nil => exact (Yields.bind hcheck fun _ _ h' => h'.yields_atEnd).follows
  | cons token rest =>
    have hhead : ((token :: rest).head?.any fun t => [Symbol.rightBrace].any fun s =>
        decide (t.kind = .symbol s)) = Parser.closes (token :: rest) := by
      simp [Parser.closes]
    rw [hhead] at hcheck
    cases hcloses : Parser.closes (token :: rest) with
    | true =>
      rw [hcloses] at hcheck
      refine (Yields.bind hcheck fun _ _ h' => ?_).follows
      exact h'.yields_pure true
    | false =>
      rw [hcloses] at hcheck
      exact (Yields.bind hcheck fun _ _ h' => h'.yields_atEnd).follows

theorem simulates_block (hd : Simulates short decl decl₁) (hshort : k < n → short) :
    Simulates short (Parser.block decl n) (block decl₁ k) :=
  (simulates_declarations simulates_atBlockEnd hd hshort []).bind fun _ =>
    (simulates_expect _ _).bind fun _ => simulates_pure _

theorem simulates_parameters (hshort : k < n → short) (found : List Token) :
    Simulates short (Parser.parameters n found) (parameters k found) := by
  refine simulates_loop (fun _ => rfl) (fun _ => rfl) (fun n k _ ih found => ?_) hshort found
  refine simulates_checkRoom found _ ((simulates_expectName _).bind fun name =>
    (simulates_accept _).bind fun o => ?_)
  cases o with
  | some _ => exact ih _
  | none => exact simulates_pure _

theorem simulates_routine (hd : Simulates short decl decl₁) (hshort : k < n → short)
    (sort : String) : Simulates short (Parser.routine decl sort n) (routine decl₁ sort k) := by
  refine (simulates_expectName _).bind fun name => (simulates_expect _ _).bind fun _ =>
    (simulates_atAny _).bind fun b => ?_
  have hrest : ∀ params : List Token, Simulates short
      (do
        let _ ← Parser.expect .rightParen "')' after parameters"
        let _ ← Parser.expect .leftBrace ("'\x7b' before " ++ sort ++ " body")
        let body ← Parser.block decl n
        pure (Routine.mk name params body))
      (do
        let _ ← expect .rightParen "')' after parameters"
        let _ ← expect .leftBrace ("'\x7b' before " ++ sort ++ " body")
        let body ← block decl₁ k
        pure (Routine.mk name params body)) := fun params =>
    (simulates_expect _ _).bind fun _ => (simulates_expect _ _).bind fun _ =>
      (simulates_block hd hshort).bind fun _ => simulates_pure _
  cases b with
  | true => exact hrest []
  | false => exact (simulates_parameters hshort []).bind hrest

theorem simulates_methods (hd : Simulates short decl decl₁) (hshort : k < n → short)
    (found : List (Routine Stmt)) :
    Simulates short (Parser.methods decl n found) (methods decl₁ k found) := by
  refine simulates_loop (fun _ => rfl) (fun _ => rfl) (fun n k hshort ih found => ?_) hshort found
  refine simulates_atBlockEnd.bind fun b => ?_
  cases b with
  | true => exact simulates_pure _
  | false => exact (simulates_routine hd hshort _).bind fun r => ih _

theorem simulates_classDecl (hd : Simulates short decl decl₁) (hshort : k < n → short) :
    Simulates short (Parser.classDecl decl n) (classDecl decl₁ k) := by
  refine (simulates_expectName _).bind fun name => (simulates_accept _).bind fun o => ?_
  have hbody : ∀ superclass : Option Reference, Simulates short
      (do
        let _ ← Parser.expect .leftBrace "'\x7b' before class body"
        let found ← Parser.methods decl n []
        let _ ← Parser.expect .rightBrace "'\x7d' after class body"
        pure (Stmt.classDecl name superclass found))
      (do
        let _ ← expect .leftBrace "'\x7b' before class body"
        let found ← methods decl₁ k []
        let _ ← expect .rightBrace "'\x7d' after class body"
        pure (Stmt.classDecl name superclass found)) := fun superclass =>
    (simulates_expect _ _).bind fun _ => (simulates_methods hd hshort []).bind fun _ =>
      (simulates_expect _ _).bind fun _ => simulates_pure _
  cases o with
  | some _ => exact (simulates_expectName _).bind fun _ => hbody _
  | none => exact hbody none

theorem simulates_variableDecl (he : Simulates short expr expr₁) :
    Simulates short (Parser.variableDecl expr) (variableDecl expr₁) := by
  refine (simulates_expectName _).bind fun name => (simulates_accept _).bind fun o => ?_
  cases o with
  | some _ => exact he.bind fun _ => (simulates_expect _ _).bind fun _ => simulates_pure _
  | none => exact (simulates_expect _ _).bind fun _ => simulates_pure _

theorem simulates_expressionStatement (he : Simulates short expr expr₁) :
    Simulates short (Parser.expressionStatement expr) (expressionStatement expr₁) :=
  he.bind fun _ => (simulates_expect _ _).bind fun _ => simulates_pure _

theorem simulates_unlessAt (close : Symbol) (he : Simulates short expr expr₁) :
    Simulates short (Parser.unlessAt close expr) (unlessAt close expr₁) := by
  refine (simulates_atAny _).bind fun b => ?_
  cases b with
  | true => exact simulates_pure none
  | false => exact he.bind fun _ => simulates_pure _

theorem simulates_initializer (he : Simulates short expr expr₁) :
    Simulates short (Parser.initializer expr) (initializer expr₁) := by
  refine (simulates_accept _).bind fun o => ?_
  cases o with
  | some _ => exact simulates_pure none
  | none =>
    refine (simulates_accept _).bind fun o => ?_
    cases o with
    | some _ => exact (simulates_variableDecl he).bind fun _ => simulates_pure _
    | none => exact (simulates_expressionStatement he).bind fun _ => simulates_pure _

theorem simulates_forStatement (he : Simulates short expr expr₁) (hs : Simulates short stmt stmt₁) :
    Simulates short (Parser.forStatement expr stmt) (forStatement expr₁ stmt₁) :=
  (simulates_expect _ _).bind fun _ => (simulates_initializer he).bind fun _ =>
    (simulates_unlessAt _ he).bind fun _ => (simulates_expect _ _).bind fun _ =>
    (simulates_unlessAt _ he).bind fun _ => (simulates_expect _ _).bind fun _ =>
    hs.bind fun _ => simulates_pure _

theorem simulates_ifStatement (he : Simulates short expr expr₁) (hs : Simulates short stmt stmt₁) :
    Simulates short (Parser.ifStatement expr stmt) (ifStatement expr₁ stmt₁) := by
  refine (simulates_expect _ _).bind fun _ => he.bind fun _ => (simulates_expect _ _).bind fun _ =>
    hs.bind fun _ => (simulates_accept _).bind fun o => ?_
  cases o with
  | some _ => exact hs.bind fun _ => simulates_pure _
  | none => exact simulates_pure _

theorem simulates_whileStatement (he : Simulates short expr expr₁)
    (hs : Simulates short stmt stmt₁) :
    Simulates short (Parser.whileStatement expr stmt) (whileStatement expr₁ stmt₁) :=
  (simulates_expect _ _).bind fun _ => he.bind fun _ => (simulates_expect _ _).bind fun _ =>
    hs.bind fun _ => simulates_pure _

theorem simulates_statementOver (he : Simulates short expr expr₁) (hs : Simulates short stmt stmt₁)
    (hd : Simulates short decl decl₁) (hshort : k < n → short) :
    Simulates short (Parser.statementOver expr stmt decl n)
      (statementOver expr₁ stmt₁ decl₁ k) := by
  refine (simulates_acceptAny _).bind fun o => ?_
  cases o with
  | none => exact simulates_expressionStatement he
  | some t =>
    have hprint : Simulates short (Parser.printStatement expr) (printStatement expr₁) :=
      he.bind fun _ => (simulates_expect _ _).bind fun _ => simulates_pure _
    dsimp only
    generalize t.kind = kind
    cases kind with
    | symbol s =>
      cases s with
      | forWord => exact simulates_forStatement he hs
      | ifWord => exact simulates_ifStatement he hs
      | whileWord => exact simulates_whileStatement he hs
      | returnWord =>
        exact (simulates_unlessAt _ he).bind fun _ => (simulates_expect _ _).bind fun _ =>
          simulates_pure _
      | leftBrace => exact (simulates_block hd hshort).bind fun _ => simulates_pure _
      | _ => exact hprint
    | identifier | string | number | endOfFile => exact hprint

theorem simulates_declarationOver (he : Simulates short expr expr₁)
    (hs : Simulates short stmt stmt₁) (hd : Simulates short decl decl₁) (hshort : k < n → short) :
    Simulates short (Parser.declarationOver expr stmt decl n)
      (declarationOver expr₁ stmt₁ decl₁ k) := by
  refine (simulates_acceptAny _).bind fun o => ?_
  cases o with
  | none => exact hs
  | some t =>
    have hvariable := simulates_variableDecl he
    dsimp only
    generalize t.kind = kind
    cases kind with
    | symbol s =>
      cases s with
      | classWord => exact simulates_classDecl hd hshort
      | funWord => exact (simulates_routine hd hshort _).bind fun _ => simulates_pure _
      | _ => exact hvariable
    | identifier | string | number | endOfFile => exact hvariable

end

theorem simulates_statements {short : Prop} {n k : Nat} (hshort : k < n → short) :
    Simulates short (Parser.statement n) (statement k) ∧
      Simulates short (Parser.declaration n) (declaration k) := by
  induction n generalizing k with
  | zero =>
    rw [Parser.statement, Parser.declaration]
    exact ⟨simulates_exhausted _, simulates_exhausted _⟩
  | succ n ih =>
    cases k with
    | zero =>
      rw [statement, declaration]
      exact ⟨simulates_short (hshort (Nat.succ_pos n)) _,
        simulates_short (hshort (Nat.succ_pos n)) _⟩
    | succ k =>
      have hshort' : k < n → short := fun h => hshort (Nat.succ_lt_succ h)
      obtain ⟨hs, hd⟩ := ih hshort'
      have he := (simulates_expressions hshort').1
      rw [Parser.statement_succ, Parser.declaration_succ, statement, declaration]
      exact ⟨simulates_statementOver he hs hd hshort',
        simulates_recover (simulates_declarationOver he hs hd hshort')⟩

theorem simulates_program {short : Prop} {n k : Nat} (hshort : k < n → short) :
    Simulates short (Parser.program n) (program k) :=
  simulates_declarations simulates_atEnd (simulates_statements hshort).2 hshort []

end Tape

end Treewalk
