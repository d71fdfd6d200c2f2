import Treewalk.Proofs.Grammar.Reads
import Treewalk.Proofs.Static

/-!
# What the parser reads

The productions never run out of fuel on lists that are short enough for it, they
read from the front of the cursor, and they only add to its reports. If one adds
none, the tokens it read are read as its result in the sense of `Reads`
(`Sound`). The fuel that a production needs is linear in the number of tokens
left: between two calls of the same production at least one token is read, and
the way there passes at most one other.

`Program.reads_of_ofTokens` is the result for whole programs.
-/

namespace Treewalk

/-- A cursor further on in the same list. -/
structure Cursor.Passes (c c' : Cursor) : Prop where
  last : c'.last = c.last
  rest : c'.rest <:+ c.rest
  reports : AddsStatic c.reports c'.reports

namespace Cursor.Passes

theorem refl (c : Cursor) : c.Passes c :=
  ⟨rfl, List.suffix_refl _, .refl _⟩

theorem trans {c c₁ c₂ : Cursor} (h : c.Passes c₁) (h' : c₁.Passes c₂) : c.Passes c₂ :=
  ⟨h'.last.trans h.last, h'.rest.trans h.rest, h.reports.trans h'.reports⟩

theorem length_le {c c' : Cursor} (h : c.Passes c') : c'.rest.length ≤ c.rest.length :=
  h.rest.length_le

/-- Without a new report at the end there was none in between. -/
theorem reports_eq {c c₁ c₂ : Cursor} (h : c.Passes c₁) (h' : c₁.Passes c₂)
    (he : c₂.reports = c.reports) : c₁.reports = c.reports :=
  h.reports.eq_of_eq h'.reports he

end Cursor.Passes

namespace Parser

variable {α β : Type}

/-- How a production may end that reads at least `used` tokens: with a result that
`P` relates to the tokens read and those that follow, or with a fault. -/
inductive Ended (used : Nat) (P : List Token → List Token → α → Prop) (c : Cursor) :
    EStateM.Result Halt Cursor α → Prop
  | ok {a : α} {c' : Cursor} : c.Passes c' → c'.rest.length + used ≤ c.rest.length →
    (c'.reports = c.reports → ∃ ts, c.rest = ts ++ c'.rest ∧ P ts c'.rest a) →
    Ended used P c (.ok a c')
  | fault {d : Diagnostic} {c' : Cursor} : c.Passes c' → d.isStatic = true →
    Ended used P c (.error (.fault d) c')

/-- A production on cursors with at most `size` tokens left. -/
def Sound (size used : Nat) (P : List Token → List Token → α → Prop) (p : Parser α) : Prop :=
  ∀ c : Cursor, c.rest.length ≤ size → Ended used P c (p c)

section

variable {size used : Nat} {P P' : List Token → List Token → α → Prop}

theorem Ended.imp {c : Cursor} {r : EStateM.Result Halt Cursor α} (h : Ended used P c r)
    {k : Nat} (hk : k ≤ used) (hp : ∀ ts rest a, P ts rest a → P' ts rest a) :
    Ended k P' c r := by
  cases h with
  | ok hpass hlen hP =>
    refine .ok hpass (Nat.le_trans (Nat.add_le_add_left hk _) hlen) fun he => ?_
    obtain ⟨ts, hts, hPts⟩ := hP he
    exact ⟨ts, hts, hp _ _ _ hPts⟩
  | fault hpass hd => exact .fault hpass hd

/-- One token more in front. -/
theorem Ended.cons {rest : List Token} {last : Token} {reports : List Diagnostic}
    {r : EStateM.Result Halt Cursor α} {k : Nat} (t : Token)
    (h : Ended (k - 1) (fun ts rest a => P (t :: ts) rest a) ⟨rest, last, reports⟩ r) :
    Ended k P ⟨t :: rest, last, reports⟩ r := by
  have hstep : Cursor.Passes ⟨t :: rest, last, reports⟩ ⟨rest, last, reports⟩ :=
    ⟨rfl, List.suffix_cons _ _, .refl _⟩
  cases h with
  | fault hpass hd => exact .fault (hstep.trans hpass) hd
  | @ok a c' hpass hlen hP =>
    have hlen' : c'.rest.length + (k - 1) ≤ rest.length := hlen
    refine .ok (hstep.trans hpass) ?_ fun he => ?_
    · simp only [List.length_cons]
      omega
    · obtain ⟨us, hus, hPus⟩ := hP he
      exact ⟨t :: us, congrArg (t :: ·) hus, hPus⟩

theorem Sound.imp {p : Parser α} (h : Sound size used P p) {n k : Nat} (hn : n ≤ size)
    (hk : k ≤ used) (hp : ∀ ts rest a, P ts rest a → P' ts rest a) : Sound n k P' p :=
  fun c hc => (h c (Nat.le_trans hc hn)).imp hk hp

theorem Sound.pure {a : α} (h : ∀ rest, P [] rest a) : Sound size 0 P (pure a : Parser α) :=
  fun c _ => .ok (.refl c) (Nat.le_refl _) fun _ => ⟨[], rfl, h _⟩

theorem sound_fail (f : SyntaxFault) : Sound size used P (fail f : Parser α) :=
  fun c _ => .fault (.refl c) rfl

theorem Ended.bind {c : Cursor} {x : Parser α} {f : α → Parser β} {k : Nat}
    {R : List Token → List Token → β → Prop} (hx : Ended used P c (x c))
    (hf : ∀ a c', c'.rest.length + used ≤ c.rest.length →
      Ended (k - used) (fun ts rest b => ∀ us, P us (ts ++ rest) a → R (us ++ ts) rest b) c' (f a c')) :
    Ended k R c ((x >>= f) c) := by
  show Ended _ _ c (EStateM.bind x f c)
  unfold EStateM.bind
  revert hx
  generalize x c = r
  intro hx
  cases hx with
  | fault hpass hd => exact .fault hpass hd
  | @ok a c₁ hpass hlen hP =>
    have h₂ := hf a c₁ hlen
    revert h₂
    simp only
    generalize f a c₁ = r'
    intro h₂
    cases h₂ with
    | fault hpass' hd => exact .fault (hpass.trans hpass') hd
    | ok hpass' hlen' hQ =>
      refine .ok (hpass.trans hpass') (by omega) fun he => ?_
      have hmid := hpass.reports_eq hpass' he
      obtain ⟨ts₁, hts₁, hP₁⟩ := hP hmid
      obtain ⟨ts₂, hts₂, hR⟩ := hQ (he.trans hmid.symm)
      refine ⟨ts₁ ++ ts₂, by rw [hts₁, hts₂, List.append_assoc], hR ts₁ ?_⟩
      rwa [← hts₂]

/-- One production after another: the second goes on where the first stopped. -/
theorem Sound.bind {x : Parser α} {f : α → Parser β} {k : Nat}
    {R : List Token → List Token → β → Prop} (hx : Sound size used P x)
    (hf : used ≤ size → ∀ a, Sound (size - used) (k - used)
      (fun ts rest b => ∀ us, P us (ts ++ rest) a → R (us ++ ts) rest b) (f a)) :
    Sound size k R (x >>= f) :=
  fun c hc => (hx c hc).bind fun a c' hc' => hf (by omega) a c' (by omega)

end

/-! ## Single tokens -/

/-- The first token of what follows, if any, has a kind that `p` does not hold of. -/
def Lacks (p : Kind → Bool) (ts : List Token) : Prop :=
  ∀ t ∈ ts.head?, p t.kind = false

section

variable {size k : Nat} {R : List Token → List Token → β → Prop}

/-- A token is read if it is there; the production goes on accordingly. -/
theorem sound_acceptIf {p : Kind → Bool} {f : Option Token → Parser β}
    (hsome : 0 < size → ∀ t, p t.kind = true →
      Sound (size - 1) (k - 1) (fun ts rest b => R (t :: ts) rest b) (f (some t)))
    (hnone : Sound size k (fun ts rest b => Lacks p (ts ++ rest) → R ts rest b) (f none)) :
    Sound size k R (acceptIf p >>= f) := by
  rintro ⟨rest, last, reports⟩ hc
  have hskip : Lacks p rest → Ended k R ⟨rest, last, reports⟩ (f none ⟨rest, last, reports⟩) := by
    intro hlacks
    have h := hnone ⟨rest, last, reports⟩ hc
    revert h
    generalize f none ⟨rest, last, reports⟩ = r
    intro h
    cases h with
    | fault hpass hd => exact .fault hpass hd
    | ok hpass hlen hR =>
      refine .ok hpass hlen fun he => ?_
      obtain ⟨ts, hts, hRts⟩ := hR he
      exact ⟨ts, hts, hRts (hts ▸ hlacks)⟩
  cases rest with
  | nil => exact hskip fun t ht => by cases ht
  | cons t rest =>
    have e : (acceptIf p >>= f) ⟨t :: rest, last, reports⟩ =
        if p t.kind then f (some t) ⟨rest, last, reports⟩ else f none ⟨t :: rest, last, reports⟩ := by
      show EStateM.bind (acceptIf p) f _ = _
      simp only [EStateM.bind, acceptIf]
      by_cases h : p t.kind <;> simp only [h, ↓reduceIte, Bool.false_eq_true]
    rw [e]
    split
    · rename_i hp
      have h := hsome (Nat.lt_of_lt_of_le (Nat.succ_pos _) hc) t hp ⟨rest, last, reports⟩
        (Nat.le_sub_of_add_le hc)
      exact h.cons t
    · rename_i hp
      refine hskip fun t' ht' => ?_
      obtain rfl : t = t' := by simpa using ht'
      simpa using hp

theorem sound_acceptAny {symbols : List Symbol} {f : Option Token → Parser β}
    (hsome : 0 < size → ∀ t s, s ∈ symbols → t.Is s →
      Sound (size - 1) (k - 1) (fun ts rest b => R (t :: ts) rest b) (f (some t)))
    (hnone : Sound size k (fun ts rest b =>
      (∀ t ∈ (ts ++ rest).head?, ∀ s ∈ symbols, ¬ t.Is s) → R ts rest b) (f none)) :
    Sound size k R (acceptAny symbols >>= f) := by
  refine sound_acceptIf (fun h0 t ht => ?_) (hnone.imp (Nat.le_refl _) (Nat.le_refl _) ?_)
  · obtain ⟨s, hs, his⟩ : ∃ s ∈ symbols, t.Is s := by simpa [Token.Is] using ht
    exact hsome h0 t s hs his
  · intro ts rest b h hlacks
    refine h fun t ht s hs his => ?_
    have hno := hlacks t ht
    rw [his, List.any_eq_false] at hno
    exact hno s hs (decide_eq_true rfl)

theorem sound_accept {s : Symbol} {f : Option Token → Parser β}
    (hsome : 0 < size → ∀ t, t.Is s →
      Sound (size - 1) (k - 1) (fun ts rest b => R (t :: ts) rest b) (f (some t)))
    (hnone : Sound size k (fun ts rest b =>
      (∀ t ∈ (ts ++ rest).head?, ¬ t.Is s) → R ts rest b) (f none)) :
    Sound size k R (accept s >>= f) := by
  refine sound_acceptAny (fun h0 t s' hs' his => ?_) (hnone.imp (Nat.le_refl _) (Nat.le_refl _) ?_)
  · obtain rfl := List.mem_singleton.mp hs'
    exact hsome h0 t his
  · exact fun ts rest b h hno => h fun t ht => hno t ht s (List.mem_singleton_self s)

theorem expectIf_bind (p : Kind → Bool) (what : String) (f : Token → Parser β) :
    expectIf p what >>= f = acceptIf p >>= fun o => match o with
      | some t => f t
      | none => fail (.expected what) := by
  funext c
  show EStateM.bind (EStateM.bind (acceptIf p) _) f c = EStateM.bind (acceptIf p) _ c
  unfold EStateM.bind
  cases acceptIf p c with
  | error e c => rfl
  | ok o c => cases o <;> rfl

theorem sound_expectIf {p : Kind → Bool} (what : String) {f : Token → Parser β}
    (h : 0 < size → ∀ t, p t.kind = true →
      Sound (size - 1) (k - 1) (fun ts rest b => R (t :: ts) rest b) (f t)) :
    Sound size k R (expectIf p what >>= f) := by
  rw [expectIf_bind]
  exact sound_acceptIf h (sound_fail _)

theorem sound_expect {s : Symbol} (what : String) {f : Token → Parser β}
    (h : 0 < size → ∀ t, t.Is s →
      Sound (size - 1) (k - 1) (fun ts rest b => R (t :: ts) rest b) (f t)) :
    Sound size k R (expect s what >>= f) :=
  sound_expectIf what fun h0 t ht => h h0 t (of_decide_eq_true ht)

theorem sound_expectName (what : String) {f : Token → Parser β}
    (h : 0 < size → ∀ t, t.IsName →
      Sound (size - 1) (k - 1) (fun ts rest b => R (t :: ts) rest b) (f t)) :
    Sound size k R (expectName what >>= f) :=
  sound_expectIf what fun h0 t ht => h h0 t (of_decide_eq_true ht)

end

theorem sound_report {size : Nat} (t : Token) (f : SyntaxFault) :
    Sound size 0 (fun _ _ _ => False) (report t f) := by
  refine fun c _ => .ok ⟨rfl, List.suffix_refl _, .cons rfl _⟩ (Nat.le_refl _) fun h => ?_
  exact absurd (congrArg List.length h) (Nat.succ_ne_self _)

/-! ## Expressions -/

section

variable {size n i : Nat}

theorem sound_chain {operand : Parser Expr}
    (hop : Sound size 1 (fun ts _ e => Reads (.operand i e) ts) operand) (left : Expr)
    {k : Nat} (hk : k ≤ size) (hn : k < n) :
    Sound k 0 (fun ts _ e => Reads (.chain (i + 1) left e) ts)
      (chain (operation (i + 1)) (operators (i + 1)) operand n left) := by
  induction n generalizing k left with
  | zero => exact absurd hn (Nat.not_lt_zero k)
  | succ n ih =>
    refine sound_acceptAny (fun h0 op s hs his => ?_) (.pure fun _ _ => .endOfChain)
    refine Sound.bind (hop.imp (by omega) (Nat.le_refl _) fun _ _ _ h => h) fun _ b => ?_
    refine (ih (operation (i + 1) op left b) (by omega) (by omega)).imp (Nat.le_refl _)
      (Nat.le_refl _) fun ts rest e he us hb => ?_
    exact .link his hs hb he

theorem sound_ladder {unary : Parser Expr}
    (hu : Sound size 1 (fun ts _ e => Reads (.unary e) ts) unary) (hn : size < n) (i : Nat) :
    Sound size 1 (fun ts _ e => Reads (.operand i e) ts) (ladder unary n i) := by
  induction i with
  | zero => exact hu.imp (Nat.le_refl _) (Nat.le_refl _) fun _ _ _ h => .bottom h
  | succ i ih =>
    refine Sound.bind ih fun _ a => ?_
    exact (sound_chain ih a (Nat.sub_le _ _) (by omega)).imp (Nat.le_refl _) (Nat.le_refl _)
      fun _ _ _ he _ ha => .level ha he

/-- A target other than a name or a property is reported. -/
theorem sound_assignment {operand value : Parser Expr}
    (hop : Sound size 1 (fun ts _ e => Reads (.operand 6 e) ts) operand)
    (hv : 2 ≤ size → Sound (size - 2) 1 (fun ts _ e => Reads (.expression e) ts) value) :
    Sound size 1 (fun ts _ e => Reads (.expression e) ts) (assignment operand value) := by
  refine Sound.bind hop fun _ target => ?_
  refine sound_accept (fun _ eq heq => ?_) (.pure fun _ _ ts ht => ?_)
  · refine Sound.bind ((hv (by omega)).imp (by omega) (Nat.le_refl _) fun _ _ _ h => h) fun _ v => ?_
    cases target with
    | var r =>
      refine .pure fun _ us hv ts ht => ?_
      rw [List.append_nil]
      exact .assign ht heq hv
    | get o n =>
      refine .pure fun _ us hv ts ht => ?_
      rw [List.append_nil]
      exact .set ht heq hv
    | literal | unary | binary | logical | group | assign | call | set | receiver | inherited =>
      exact Sound.bind (sound_report _ _) fun _ _ => .pure fun _ _ h => h.elim
  · rw [List.append_nil]
    exact .plain ht

theorem sound_peek {k : Nat} {R : List Token → List Token → β → Prop} {f : Token → Parser β}
    (h : ∀ t, Sound size k R (f t)) : Sound size k R (peek >>= f) :=
  fun c hc => h c.peek c hc

theorem sound_atAny {k : Nat} {R : List Token → List Token → β → Prop} {symbols : List Symbol}
    {f : Bool → Parser β} (h : ∀ b, Sound size k R (f b)) : Sound size k R (atAny symbols >>= f) :=
  fun c hc => h _ c hc

/-- A list with an item too many is reported. -/
theorem sound_full {γ : Type} {k : Nat} {R : List Token → List Token → β → Prop} {found : List γ}
    {f : SyntaxFault} {p : Parser β}
    (h : Sound size k (fun ts rest b => found.length < maxArity → R ts rest b) p) :
    Sound size k R (if isFull found then peek >>= fun t => report t f >>= fun _ => p else p) := by
  split
  · refine sound_peek fun t => Sound.bind (sound_report t f) fun _ _ => ?_
    exact h.imp (Nat.le_refl _) (Nat.le_refl _) fun _ _ _ _ _ hf => hf.elim
  · rename_i hfull
    rw [isFull_iff] at hfull
    exact h.imp (Nat.le_refl _) (Nat.le_refl _) fun _ _ _ hr => hr (Nat.lt_of_not_le hfull)

/-- Arguments after those `found` already. -/
theorem sound_arguments {argument : Parser Expr}
    (ha : Sound size 1 (fun ts _ e => Reads (.expression e) ts) argument) (found : List Expr)
    {k : Nat} (hk : k ≤ size) (hn : k < n) :
    Sound k 1 (fun ts _ es => ∃ es', es = found.reverse ++ es' ∧ Reads (.items es') ts ∧
      found.length + es'.length ≤ maxArity) (arguments argument n found) := by
  induction n generalizing k found with
  | zero => exact absurd hn (Nat.not_lt_zero k)
  | succ n ih =>
    refine sound_full (Sound.bind (ha.imp hk (Nat.le_refl _) fun _ _ _ h => h) fun h1 e => ?_)
    refine sound_accept (fun h2 comma hcomma => ?_) (.pure fun rest _ us hus hlt => ?_)
    · refine (ih (e :: found) (by omega) (by omega)).imp (Nat.le_refl _) (Nat.zero_le _) ?_
      rintro ts rest es ⟨es', rfl, hes', hlen⟩ us hus hlt
      refine ⟨e :: es', by simp, .items hus hcomma hes', ?_⟩
      simp only [List.length_cons] at hlen ⊢
      omega
    · rw [List.append_nil]
      exact ⟨[e], by simp, .item hus, hlt⟩

/-- An optional part, and the production that follows it either way. -/
theorem sound_ite {γ : Type} {k : Nat} {R : List Token → List Token → β → Prop} {x y : Parser γ} {f : γ → Parser β} (b : Bool)
    (h : Sound size k R ((if b then x else y) >>= f)) :
    Sound size k R (if b then x >>= f else y >>= f) := by
  cases b <;> exact h

theorem sound_call {argument : Parser Expr}
    (ha : Sound size 1 (fun ts _ e => Reads (.expression e) ts) argument) (hn : size < n)
    (callee : Expr) :
    Sound size 1 (fun ts _ e => ∃ es rp us, ts = us ++ [rp] ∧ Reads (.arguments es) us ∧
      rp.Is .rightParen ∧ e = .call callee rp es) (call argument n callee) := by
  have hargs : ∀ b : Bool, Sound size 0 (fun ts _ es => Reads (.arguments es) ts)
      (if b then pure [] else arguments argument n []) := by
    rintro (_ | _)
    · refine (sound_arguments ha [] (Nat.le_refl _) hn).imp (Nat.le_refl _) (Nat.zero_le _) ?_
      rintro ts _ es ⟨es', rfl, hes', hlen⟩
      exact .arguments hes' (by simpa using hlen)
    · exact .pure fun _ => .noArguments
  refine sound_atAny fun b => sound_ite b (Sound.bind (hargs b) fun _ es => ?_)
  refine sound_expect _ fun _ rp hrp => .pure fun _ us hus => ?_
  exact ⟨es, rp, us, rfl, hus, hrp, rfl⟩

theorem sound_suffixes {argument : Parser Expr}
    (ha : Sound size 1 (fun ts _ e => Reads (.expression e) ts) argument) (left : Expr)
    {k : Nat} (hk : k ≤ size) (hn : k < n) :
    Sound k 0 (fun ts _ e => Reads (.suffixes left e) ts) (suffixes argument n left) := by
  induction n generalizing k left with
  | zero => exact absurd hn (Nat.not_lt_zero k)
  | succ n ih =>
    refine sound_accept (fun _ lp hlp => ?_) (sound_accept (fun _ dot hdot => ?_)
      (.pure fun _ _ _ => .endOfSuffixes))
    · refine Sound.bind (sound_call (ha.imp (by omega) (Nat.le_refl _) fun _ _ _ h => h) (by omega)
        left) fun _ e => ?_
      refine (ih e (by omega) (by omega)).imp (Nat.le_refl _) (Nat.le_refl _) ?_
      rintro ts _ e' he' _ ⟨es, rp, us, rfl, hus, hrp, rfl⟩
      rw [List.append_assoc]
      exact .apply hlp hus hrp he'
    · refine sound_expectName _ fun _ name hname => ?_
      exact (ih (.get left name) (by omega) (by omega)).imp (Nat.le_refl _) (Nat.le_refl _)
        fun _ _ _ he' _ => .property hdot hname he'

theorem sound_acceptAtom {k : Nat} {R : List Token → List Token → β → Prop}
    {f : Option Expr → Parser β}
    (hsome : 0 < size → ∀ t e, atom? t = some e →
      Sound (size - 1) (k - 1) (fun ts rest b => R (t :: ts) rest b) (f (some e)))
    (hnone : Sound size k R (f none)) : Sound size k R (acceptAtom >>= f) := by
  rintro ⟨rest, last, reports⟩ hc
  cases rest with
  | nil => exact hnone _ hc
  | cons t rest =>
    show Ended k R _ (EStateM.bind acceptAtom f _)
    simp only [EStateM.bind, acceptAtom]
    cases ht : atom? t with
    | none => exact hnone _ hc
    | some e =>
      have h := hsome (Nat.lt_of_lt_of_le (Nat.succ_pos _) hc) t e ht ⟨rest, last, reports⟩
        (Nat.le_sub_of_add_le hc)
      exact h.cons t

theorem sound_primary {inner : Parser Expr}
    (hin : 1 ≤ size → Sound (size - 1) 1 (fun ts _ e => Reads (.expression e) ts) inner) :
    Sound size 1 (fun ts _ e => Reads (.primary e) ts) (primary inner) := by
  refine sound_acceptAtom (fun _ t e ht => .pure fun _ => .atom ht) ?_
  refine sound_accept (fun _ k hk => ?_) (sound_accept (fun _ lp hlp => ?_) (sound_fail _))
  · refine sound_expect _ fun _ dot hdot => sound_expectName _ fun _ n hn => .pure fun _ => ?_
    exact .inherited hk hdot hn
  · refine Sound.bind (hin (by omega)) fun _ e => sound_expect _ fun _ rp hrp => ?_
    exact .pure fun _ us hus _ => .group hlp hus hrp

theorem sound_signed {unary inner : Parser Expr}
    (hu : 1 ≤ size → Sound (size - 1) 1 (fun ts _ e => Reads (.unary e) ts) unary)
    (hin : 1 ≤ size → Sound (size - 1) 1 (fun ts _ e => Reads (.expression e) ts) inner)
    (hn : size ≤ n) :
    Sound size 1 (fun ts _ e => Reads (.unary e) ts) (signed unary inner n) := by
  refine sound_acceptAny (fun _ op s hs his => ?_) ?_
  · refine Sound.bind (hu (by omega)) fun _ e => .pure fun _ us hus => ?_
    rw [List.append_nil]
    exact .sign his hs hus
  · refine Sound.bind (sound_primary hin) fun h1 a => ?_
    exact (sound_suffixes (hin h1) a (Nat.le_refl _) (by omega)).imp (Nat.le_refl _) (Nat.le_refl _)
      fun _ _ _ he _ ha _ => .call ha he

end

theorem expression_succ (n : Nat) :
    expression (n + 1) = assignment (disjunction (unary n) n) (expression n) := by
  rw [expression]
  exact funext fun _ => descend_eq _ _

theorem unary_succ (n : Nat) : unary (n + 1) = signed (unary n) (expression n) n := by
  rw [unary]
  exact funext fun _ => descend_eq _ _

theorem sound_expressions (n : Nat) :
    (∀ size, 2 * size + 2 ≤ n → Sound size 1 (fun ts _ e => Reads (.expression e) ts) (expression n)) ∧
      ∀ size, 2 * size + 1 ≤ n → Sound size 1 (fun ts _ e => Reads (.unary e) ts) (unary n) := by
  induction n with
  | zero => exact ⟨fun _ h => by omega, fun _ h => by omega⟩
  | succ n ih =>
    refine ⟨fun size h => ?_, fun size h => ?_⟩
    · rw [expression_succ, disjunction_eq]
      exact sound_assignment (sound_ladder (ih.2 size (by omega)) (by omega) 6)
        fun _ => ih.1 _ (by omega)
    · rw [unary_succ]
      exact sound_signed (fun _ => ih.2 _ (by omega)) (fun _ => ih.1 _ (by omega)) (by omega)

/-! ## Statements -/

/-- No `else` follows. -/
def NoElse (rest : List Token) : Prop :=
  ∀ t ∈ rest.head?, ¬ t.Is .elseWord

def SoundExpression (size : Nat) (p : Parser Expr) : Prop :=
  Sound size 1 (fun ts _ e => Reads (.expression e) ts) p

/-- What is dangling in the end has no `else` after it. -/
def SoundStatement (size : Nat) (p : Parser Stmt) : Prop :=
  Sound size 1 (fun ts rest s => ∃ d, Reads (.statement d s) ts ∧ (d = true → NoElse rest)) p

/-- A declaration is read only where tokens are left, and then at least one is
read or skipped. -/
def SoundDeclaration (size : Nat) (p : Parser (Option Stmt)) : Prop :=
  ∀ c : Cursor, c.rest ≠ [] → c.rest.length ≤ size →
    Ended 1 (fun ts _ o => ∃ d s, o = some s ∧ Reads (.declaration d s) ts) c (p c)

section

variable {size n : Nat} {expr : Parser Expr} {stmt : Parser Stmt} {decl : Parser (Option Stmt)}

theorem SoundExpression.mono (h : SoundExpression size expr) {k : Nat} (hk : k ≤ size) :
    SoundExpression k expr :=
  h.imp hk (Nat.le_refl _) fun _ _ _ h => h

theorem SoundStatement.mono (h : SoundStatement size stmt) {k : Nat} (hk : k ≤ size) :
    SoundStatement k stmt :=
  h.imp hk (Nat.le_refl _) fun _ _ _ h => h

theorem SoundDeclaration.mono (h : SoundDeclaration size decl) {k : Nat} (hk : k ≤ size) :
    SoundDeclaration k decl :=
  fun c hc hlen => h c hc (Nat.le_trans hlen hk)

theorem declarations_succ {stop : Parser Bool} {ends : List Token → Bool}
    (hstop : ∀ c : Cursor, stop c = .ok (ends c.rest) c) (n : Nat) (found : List Stmt) (c : Cursor) :
    declarations stop decl (n + 1) found c = if ends c.rest then
        (pure found.reverse : Parser (List Stmt)) c
      else (decl >>= fun o => match o with
        | some s => declarations stop decl n (s :: found)
        | none => declarations stop decl n found) c := by
  show EStateM.bind stop _ c = _
  simp only [EStateM.bind, hstop]
  split <;> rfl

theorem sound_declarations {stop : Parser Bool} {ends : List Token → Bool}
    (hstop : ∀ c : Cursor, stop c = .ok (ends c.rest) c) (hends : ends [] = true)
    (hd : SoundDeclaration size decl) (found : List Stmt) {k : Nat} (hk : k ≤ size) (hn : k < n) :
    Sound k 0 (fun ts rest l => ∃ l', l = found.reverse ++ l' ∧ Reads (.declarations l') ts ∧
      ends rest = true) (declarations stop decl n found) := by
  induction n generalizing k found with
  | zero => exact absurd hn (Nat.not_lt_zero k)
  | succ n ih =>
    intro c hc
    rw [declarations_succ hstop]
    split
    · rename_i hend
      exact .ok (.refl c) (Nat.le_refl _) fun _ => ⟨[], rfl, [], by simp, .noDeclarations, hend⟩
    · rename_i hend
      have hne : c.rest ≠ [] := fun h => hend (by rw [h, hends])
      refine Ended.bind (hd c hne (Nat.le_trans hc hk)) fun o c' hlen => ?_
      cases o with
      | none =>
        refine (ih found (k := k - 1) (by omega) (by omega) c' (by omega)).imp (Nat.le_refl _) ?_
        rintro ts rest l _ us ⟨_, _, h, _⟩
        cases h
      | some s =>
        refine (ih (s :: found) (k := k - 1) (by omega) (by omega) c' (by omega)).imp
          (Nat.le_refl _) ?_
        rintro ts rest l ⟨l', rfl, hl', hrest⟩ us ⟨d, s', h, hs⟩
        cases h
        exact ⟨s :: l', by simp, .declarations hs hl', hrest⟩

/-- Nothing follows, or a closing brace. -/
def closes : List Token → Bool
  | [] => true
  | t :: _ => decide (t.kind = .symbol .rightBrace)

theorem atBlockEnd_eq (c : Cursor) : atBlockEnd c = .ok (closes c.rest) c := by
  obtain ⟨rest, last, reports⟩ := c
  cases rest with
  | nil => rfl
  | cons t rest =>
    show EStateM.Result.ok ([Symbol.rightBrace].any fun s => decide (t.kind = .symbol s)) _ = _
    simp only [List.any_cons, List.any_nil, Bool.or_false, closes]

/-- The rest of a block, after its opening brace. -/
theorem sound_block (hd : SoundDeclaration size decl) (hn : size < n) :
    Sound size 1 (fun ts _ l => ∃ us rb, ts = us ++ [rb] ∧ Reads (.declarations l) us ∧
      rb.Is .rightBrace) (block decl n) := by
  refine Sound.bind (sound_declarations atBlockEnd_eq rfl hd [] (Nat.le_refl _) hn) fun _ l => ?_
  refine sound_expect _ fun _ rb hrb => .pure fun _ us hus => ?_
  obtain ⟨l', rfl, hl', _⟩ := hus
  exact ⟨us, rb, rfl, hl', hrb⟩

theorem sound_parameters (found : List Token) {k : Nat} (hn : k < n) :
    Sound k 1 (fun ts _ ps => ∃ ps', ps = found.reverse ++ ps' ∧ Reads (.names ps') ts ∧
      found.length + ps'.length ≤ maxArity) (parameters n found) := by
  induction n generalizing k found with
  | zero => exact absurd hn (Nat.not_lt_zero k)
  | succ n ih =>
    refine sound_full (sound_expectName _ fun h1 p hp => ?_)
    refine sound_accept (fun h2 comma hcomma => ?_) (.pure fun rest _ hlt => ?_)
    · refine (ih (p :: found) (by omega)).imp (Nat.le_refl _) (Nat.zero_le _) ?_
      rintro ts rest ps ⟨ps', rfl, hps', hlen⟩ hlt
      refine ⟨p :: ps', by simp, .names hp hcomma hps', ?_⟩
      simp only [List.length_cons] at hlen ⊢
      omega
    · exact ⟨[p], by simp, .name hp, hlt⟩

theorem sound_routine (hd : SoundDeclaration size decl) (hn : size ≤ n) (sort : String) :
    Sound size 1 (fun ts _ r => Reads (.routine r) ts) (routine decl sort n) := by
  refine sound_expectName _ fun _ name hname => sound_expect _ fun _ lp hlp => ?_
  have hps : ∀ b : Bool, Sound (size - 1 - 1) 0 (fun ts _ ps => Reads (.parameters ps) ts)
      (if b then pure [] else parameters n []) := by
    rintro (_ | _)
    · refine (sound_parameters [] (show size - 1 - 1 < n by omega)).imp (Nat.le_refl _)
        (Nat.zero_le _) ?_
      rintro ts _ ps ⟨ps', rfl, hps', hlen⟩
      exact .parameters hps' (by simpa using hlen)
    · exact .pure fun _ => .noParameters
  refine sound_atAny fun b => sound_ite b (Sound.bind (hps b) fun _ ps => ?_)
  refine sound_expect _ fun _ rp hrp => sound_expect _ fun _ lb hlb => ?_
  refine Sound.bind (sound_block (hd.mono (by omega)) (by omega)) fun _ l => .pure fun _ => ?_
  rintro _ ⟨us, rb, rfl, hl, hrb⟩ ts hts
  rw [List.append_nil]
  exact .routine hname hlp hts hrp hlb hl hrb

theorem methods_succ (n : Nat) (found : List (Routine Stmt)) (c : Cursor) :
    methods decl (n + 1) found c = if closes c.rest then
        (pure found.reverse : Parser (List (Routine Stmt))) c
      else (routine decl "method" n >>= fun r => methods decl n (r :: found)) c := by
  show EStateM.bind atBlockEnd _ c = _
  simp only [EStateM.bind, atBlockEnd_eq]
  split <;> rfl

theorem sound_methods (hd : SoundDeclaration size decl) (found : List (Routine Stmt))
    {k : Nat} (hk : k ≤ size) (hn : k < n) :
    Sound k 0 (fun ts _ ms => ∃ ms', ms = found.reverse ++ ms' ∧ Reads (.methods ms') ts)
      (methods decl n found) := by
  induction n generalizing k found with
  | zero => exact absurd hn (Nat.not_lt_zero k)
  | succ n ih =>
    intro c hc
    rw [methods_succ]
    split
    · exact .ok (.refl c) (Nat.le_refl _) fun _ => ⟨[], rfl, [], by simp, .noMethods⟩
    · rename_i hend
      have hne : 0 < c.rest.length := List.length_pos_iff.mpr fun h => hend (by rw [h]; rfl)
      refine Ended.bind (sound_routine (hd.mono hk) (by omega) "method" c hc) fun r c' hlen => ?_
      refine (ih (r :: found) (k := k - 1) (by omega) (by omega) c' (by omega)).imp (Nat.le_refl _) ?_
      rintro ts rest ms ⟨ms', rfl, hms'⟩ us hr
      exact ⟨r :: ms', by simp, .methods hr hms'⟩

theorem sound_classDecl (hd : SoundDeclaration size decl) (hn : size ≤ n) {k : Token}
    (hk : k.Is .classWord) :
    Sound size 1 (fun ts _ s => Reads (.declaration false s) (k :: ts)) (classDecl decl n) := by
  refine sound_expectName _ fun _ name hname => ?_
  have hbody : ∀ (parent : Option Reference) {m : Nat}, m < size → Sound m 1
      (fun ts _ s => ∃ lb us rb ms, ts = lb :: (us ++ [rb]) ∧ lb.Is .leftBrace ∧
        Reads (.methods ms) us ∧ rb.Is .rightBrace ∧ s = Stmt.classDecl name parent ms)
      (do
        let _ ← expect .leftBrace "'\x7b' before class body"
        let found ← methods decl n []
        let _ ← expect .rightBrace "'\x7d' after class body"
        pure (Stmt.classDecl name parent found)) := by
    intro parent m hm
    refine sound_expect _ fun _ lb hlb => ?_
    refine Sound.bind (sound_methods (hd.mono (by omega)) [] (Nat.le_refl _) (by omega)) fun _ ms => ?_
    refine sound_expect _ fun _ rb hrb => .pure fun _ us => ?_
    rintro ⟨ms', rfl, hms'⟩
    exact ⟨lb, us, rb, _, rfl, hlb, hms', hrb, rfl⟩
  refine sound_accept (fun _ lt hlt => ?_) ?_
  · refine sound_expectName _ fun _ p hp => ?_
    refine (hbody (some ⟨p, none⟩) (by omega)).imp (Nat.le_refl _) (Nat.zero_le _) ?_
    rintro ts rest s ⟨lb, us, rb, ms, rfl, hlb, hms, hrb, rfl⟩
    exact .derived hk hname hlt hp hlb hms hrb
  · refine (hbody none (by omega)).imp (Nat.le_refl _) (Nat.zero_le _) ?_
    rintro ts rest s ⟨lb, us, rb, ms, rfl, hlb, hms, hrb, rfl⟩ _
    exact .base hk hname hlb hms hrb

theorem sound_variableDecl (he : SoundExpression size expr) :
    Sound size 1 (fun ts _ s => Reads (.binding s) ts) (variableDecl expr) := by
  refine sound_expectName _ fun _ name hname => ?_
  refine sound_accept (fun _ eq heq => ?_) ?_
  · refine Sound.bind (he.mono (by omega)) fun _ e => sound_expect _ fun _ semi hsemi => ?_
    exact .pure fun _ us hus => .initialized hname heq hus hsemi
  · refine sound_expect _ fun _ semi hsemi => .pure fun _ _ => ?_
    exact .uninitialized hname hsemi

theorem sound_expressionStatement (he : SoundExpression size expr) :
    Sound size 1 (fun ts _ s => ∃ e us semi, ts = us ++ [semi] ∧ Reads (.expression e) us ∧
      semi.Is .semicolon ∧ s = .expression e) (expressionStatement expr) := by
  refine Sound.bind he fun _ e => sound_expect _ fun _ semi hsemi => .pure fun _ us hus => ?_
  exact ⟨e, us, semi, rfl, hus, hsemi, rfl⟩

theorem sound_unlessAt (he : SoundExpression size expr) (close : Symbol) :
    Sound size 0 (fun ts _ e => Reads (.clause e) ts) (unlessAt close expr) := by
  refine sound_atAny fun b => ?_
  split
  · exact .pure fun _ => .noClause
  · refine Sound.bind he fun _ e => .pure fun _ us hus => ?_
    rw [List.append_nil]
    exact .clause hus

theorem sound_initializer (he : SoundExpression size expr) :
    Sound size 1 (fun ts _ s => Reads (.initializer s) ts) (initializer expr) := by
  refine sound_accept (fun _ semi hsemi => .pure fun _ => .noInitializer hsemi) ?_
  refine sound_accept (fun _ k hk => ?_) ?_
  · refine Sound.bind (sound_variableDecl (he.mono (by omega))) fun _ s => .pure fun _ us hus _ => ?_
    rw [List.append_nil]
    exact .declareFirst hk hus
  · refine Sound.bind (sound_expressionStatement he) fun _ s => .pure fun _ ts hts _ _ => ?_
    obtain ⟨e, us, semi, rfl, hus, hsemi, rfl⟩ := hts
    rw [List.append_nil]
    exact .expressionFirst hus hsemi

theorem sound_forStatement (he : SoundExpression size expr) (hs : SoundStatement size stmt)
    {k : Token} (hk : k.Is .forWord) :
    Sound size 1 (fun ts rest s => ∃ d, Reads (.statement d s) (k :: ts) ∧ (d = true → NoElse rest))
      (forStatement expr stmt) := by
  refine sound_expect _ fun _ lp hlp => ?_
  refine Sound.bind (sound_initializer (he.mono (by omega))) fun _ init => ?_
  refine Sound.bind (sound_unlessAt (he.mono (by omega)) _) fun _ c => ?_
  refine sound_expect _ fun _ semi hsemi => ?_
  refine Sound.bind (sound_unlessAt (he.mono (by omega)) _) fun _ e => ?_
  refine sound_expect _ fun _ rp hrp => ?_
  refine Sound.bind (hs.mono (by omega)) fun _ s => .pure fun rest ws hws => ?_
  obtain ⟨d, hws, helse⟩ := hws
  intro vs hvs us hus ts hts
  rw [List.append_nil]
  exact ⟨d, .forLoop hk hlp hts hus hsemi hvs hrp hws, helse⟩

theorem sound_ifStatement (he : SoundExpression size expr) (hs : SoundStatement size stmt)
    {k : Token} (hk : k.Is .ifWord) :
    Sound size 1 (fun ts rest s => ∃ d, Reads (.statement d s) (k :: ts) ∧ (d = true → NoElse rest))
      (ifStatement expr stmt) := by
  refine sound_expect _ fun _ lp hlp => ?_
  refine Sound.bind (he.mono (by omega)) fun _ c => sound_expect _ fun _ rp hrp => ?_
  refine Sound.bind (hs.mono (by omega)) fun _ s => ?_
  refine sound_accept (fun _ other hother => ?_) (.pure fun rest hno us hus ts hts => ?_)
  · refine Sound.bind (hs.mono (by omega)) fun _ a => .pure fun rest vs hvs us hus ts hts => ?_
    obtain ⟨d, hvs, helse⟩ := hvs
    obtain ⟨d', hus, hclosed⟩ := hus
    -- an `else` follows the consequent, so it is not dangling
    cases d' with
    | true => exact absurd hother (hclosed rfl other rfl)
    | false =>
      rw [List.append_nil]
      exact ⟨d, .choice hk hlp hts hrp hus hother hvs, helse⟩
  · obtain ⟨d, hus, _⟩ := hus
    rw [List.append_nil]
    exact ⟨true, .branch hk hlp hts hrp hus, fun _ => hno⟩

theorem sound_whileStatement (he : SoundExpression size expr) (hs : SoundStatement size stmt)
    {k : Token} (hk : k.Is .whileWord) :
    Sound size 1 (fun ts rest s => ∃ d, Reads (.statement d s) (k :: ts) ∧ (d = true → NoElse rest))
      (whileStatement expr stmt) := by
  refine sound_expect _ fun _ lp hlp => ?_
  refine Sound.bind (he.mono (by omega)) fun _ c => sound_expect _ fun _ rp hrp => ?_
  refine Sound.bind (hs.mono (by omega)) fun _ s => .pure fun rest us hus ts hts => ?_
  obtain ⟨d, hus, helse⟩ := hus
  rw [List.append_nil]
  exact ⟨d, .loop hk hlp hts hrp hus, helse⟩

theorem sound_statementOver (he : SoundExpression size expr)
    (hs : 1 ≤ size → SoundStatement (size - 1) stmt)
    (hd : 1 ≤ size → SoundDeclaration (size - 1) decl) (hn : size ≤ n) :
    SoundStatement size (statementOver expr stmt decl n) := by
  refine sound_acceptAny (fun h1 k s hmem hk => ?_) ?_
  · have he' : SoundExpression (size - 1) expr := he.mono (Nat.sub_le _ _)
    simp only [statementSymbols, List.mem_cons, List.not_mem_nil, or_false] at hmem
    rcases hmem with rfl | rfl | rfl | rfl | rfl | rfl <;> simp only [show k.kind = _ from hk]
    · exact (sound_forStatement he' (hs h1) hk).imp (Nat.le_refl _) (Nat.zero_le _) fun _ _ _ h => h
    · exact (sound_ifStatement he' (hs h1) hk).imp (Nat.le_refl _) (Nat.zero_le _) fun _ _ _ h => h
    · exact (sound_whileStatement he' (hs h1) hk).imp (Nat.le_refl _) (Nat.zero_le _)
        fun _ _ _ h => h
    · refine Sound.bind (sound_unlessAt he' _) fun _ e => sound_expect _ fun _ semi hsemi => ?_
      exact .pure fun _ us hus => ⟨false, .leave hk hus hsemi, fun h => by cases h⟩
    · refine Sound.bind (sound_block (hd h1) (by omega)) fun _ l => .pure fun _ ts hts => ?_
      obtain ⟨us, rb, rfl, hus, hrb⟩ := hts
      rw [List.append_nil]
      exact ⟨false, .block hk hus hrb, fun h => by cases h⟩
    · refine Sound.bind he' fun _ e => sound_expect _ fun _ semi hsemi => ?_
      exact .pure fun _ us hus => ⟨false, .print hk hus hsemi, fun h => by cases h⟩
  · refine (sound_expressionStatement he).imp (Nat.le_refl _) (Nat.le_refl _) ?_
    rintro _ rest _ ⟨e, us, semi, rfl, hus, hsemi, rfl⟩ _
    exact ⟨false, .expressionStatement hus hsemi, fun h => by cases h⟩

theorem sound_declarationOver (he : SoundExpression size expr) (hs : SoundStatement size stmt)
    (hd : 1 ≤ size → SoundDeclaration (size - 1) decl) (hn : size ≤ n) :
    Sound size 1 (fun ts _ s => ∃ d, Reads (.declaration d s) ts)
      (declarationOver expr stmt decl n) := by
  refine sound_acceptAny (fun h1 k s hmem hk => ?_) ?_
  · simp only [List.mem_cons, List.not_mem_nil, or_false] at hmem
    rcases hmem with rfl | rfl | rfl <;> simp only [show k.kind = _ from hk]
    · exact (sound_classDecl (hd h1) (by omega) hk).imp (Nat.le_refl _) (Nat.zero_le _)
        fun _ _ _ h => ⟨false, h⟩
    · refine Sound.bind (sound_routine (hd h1) (by omega) _) fun _ r => .pure fun _ us hus => ?_
      rw [List.append_nil]
      exact ⟨false, .function hk hus⟩
    · exact (sound_variableDecl (he.mono (Nat.sub_le _ _))).imp (Nat.le_refl _) (Nat.zero_le _)
        fun _ _ _ h => ⟨false, .binding hk h⟩
  · exact hs.imp (Nat.le_refl _) (Nat.le_refl _) fun _ _ _ ⟨d, h, _⟩ _ => ⟨d, .statement h⟩

theorem boundary_suffix (previous : Token) (ts : List Token) :
    Cursor.boundary previous ts <:+ ts := by
  induction ts generalizing previous with
  | nil => exact List.suffix_refl _
  | cons t ts ih =>
    rw [Cursor.boundary]
    split
    · exact List.suffix_refl _
    · exact (ih t).trans (List.suffix_cons t ts)

/-- Recovery skips at least the token in front. -/
theorem synchronize_passes (c : Cursor) :
    c.Passes c.synchronize ∧ (c.rest ≠ [] → c.synchronize.rest.length + 1 ≤ c.rest.length) := by
  obtain ⟨rest, last, reports⟩ := c
  cases rest with
  | nil => exact ⟨.refl _, fun h => absurd rfl h⟩
  | cons t rest =>
    have h := boundary_suffix t rest
    exact ⟨⟨rfl, h.trans (List.suffix_cons t rest), .refl _⟩,
      fun _ => Nat.succ_le_succ h.length_le⟩

/-- A fault is reported, so what was skipped need not be read as anything. -/
theorem sound_recover {p : Parser Stmt}
    (hp : Sound size 1 (fun ts _ s => ∃ d, Reads (.declaration d s) ts) p) :
    SoundDeclaration size (recover p) := by
  intro c hne hc
  have h := hp c hc
  unfold recover
  revert h
  generalize p c = r
  intro h
  cases h with
  | ok hpass hlen hread =>
    refine .ok hpass hlen fun he => ?_
    obtain ⟨ts, hts, d, hd⟩ := hread he
    exact ⟨ts, hts, d, _, rfl, hd⟩
  | @fault d c' hpass hd =>
    have hrec : c'.Passes (c'.record d) := ⟨rfl, List.suffix_refl _, .cons hd _⟩
    obtain ⟨hsync, hskip⟩ := synchronize_passes (c'.record d)
    refine .ok ((hpass.trans hrec).trans hsync) ?_ fun he => ?_
    · have hpos := List.length_pos_iff.mpr hne
      have hle := hpass.length_le
      by_cases hend : c'.rest = []
      · have hzero : (c'.record d).synchronize.rest.length ≤ 0 := by
          simpa [Cursor.record, hend] using hsync.length_le
        omega
      · have hlt : (c'.record d).synchronize.rest.length + 1 ≤ c'.rest.length := hskip hend
        omega
    · have hmid := (hpass.trans hrec).reports_eq hsync he
      have hnew : (c'.record d).reports.length = c'.reports.length + 1 := rfl
      have hold := hpass.reports.length_le
      rw [hmid] at hnew
      omega

end

theorem statement_succ (n : Nat) : statement (n + 1) =
    statementOver (expression n) (statement n) (declaration n) n := by
  rw [statement]
  exact funext fun _ => descend_eq _ _

theorem declaration_succ (n : Nat) : declaration (n + 1) =
    recover (declarationOver (expression n) (statement n) (declaration n) n) := by
  rw [declaration]
  exact funext fun _ => descend_eq _ _

/-- Recovery leaves no fault to the outside. -/
theorem recover_ne_fault (p : Parser Stmt) (c c' : Cursor) (d : Diagnostic) :
    recover p c ≠ .error (.fault d) c' := by
  unfold recover
  split <;> simp

theorem declarations_ne_fault {stop : Parser Bool} {ends : List Token → Bool}
    (hstop : ∀ c : Cursor, stop c = .ok (ends c.rest) c) {decl : Parser (Option Stmt)}
    (hdecl : ∀ c c' d, decl c ≠ .error (.fault d) c') (n : Nat) (found : List Stmt)
    (c c' : Cursor) (d : Diagnostic) :
    declarations stop decl n found c ≠ .error (.fault d) c' := by
  induction n generalizing found c with
  | zero => simp [declarations, exhausted]
  | succ n ih =>
    rw [declarations_succ hstop]
    split
    · simp [pure, EStateM.pure]
    · show EStateM.bind decl _ c ≠ _
      unfold EStateM.bind
      cases h : decl c with
      | error e c₁ =>
        intro he
        obtain ⟨rfl, rfl⟩ : e = .fault d ∧ c₁ = c' := by simpa using he
        exact hdecl _ _ _ h
      | ok o c₁ => cases o <;> exact ih _ _

theorem sound_statements (n : Nat) :
    (∀ size, 2 * size + 3 ≤ n → SoundStatement size (statement n)) ∧
      ∀ size, 2 * size + 4 ≤ n → SoundDeclaration size (declaration n) := by
  induction n with
  | zero => exact ⟨fun _ h => by omega, fun _ h => by omega⟩
  | succ n ih =>
    have he : ∀ size, 2 * size + 3 ≤ n + 1 → SoundExpression size (expression n) :=
      fun size h => (sound_expressions n).1 size (by omega)
    refine ⟨fun size h => ?_, fun size h => ?_⟩
    · rw [statement_succ]
      exact sound_statementOver (he size h) (fun _ => ih.1 _ (by omega)) (fun _ => ih.2 _ (by omega))
        (by omega)
    · rw [declaration_succ]
      exact sound_recover (sound_declarationOver (he size (by omega)) (ih.1 _ (by omega))
        (fun _ => ih.2 _ (by omega)) (by omega))

end Parser

open Treewalk.Parser

/-- The tokens in front of the first end of file. -/
def Program.tokens (tokens : List Token) : List Token :=
  tokens.takeWhile fun t => !t.isEnd

theorem Program.tokens_append_end {ts : List Token} {eof : Token}
    (hts : ∀ t ∈ ts, t.kind ≠ .endOfFile) (heof : eof.kind = .endOfFile) :
    Program.tokens (ts ++ [eof]) = ts := by
  have hlast : eof.isEnd = true := by
    unfold Token.isEnd
    rw [heof]
  have hnot : ∀ t ∈ ts, (!t.isEnd) = true := fun t ht => by
    have := hts t ht
    unfold Token.isEnd
    split <;> simp_all
  simp [Program.tokens, List.takeWhile_append_of_pos hnot, hlast]

/-- The productions for a program never fail, and without a report they read all
tokens in front of the end. -/
theorem Parser.program_ok (tokens : List Token) : ∃ p c',
    program (fuelFor tokens) (Cursor.start tokens) = .ok p c' ∧ (Cursor.start tokens).Passes c' ∧
      (c'.reports = [] → Reads (.declarations p) (Program.tokens tokens)) := by
  have hlen : (Cursor.start tokens).rest.length ≤ tokens.length :=
    List.Sublist.length_le (List.takeWhile_sublist _)
  have hend : ∀ c : Cursor, atEnd c = .ok (c.rest.isEmpty) c := fun _ => rfl
  have hs := sound_declarations hend rfl ((sound_statements (fuelFor tokens)).2 tokens.length
    (by unfold fuelFor; omega)) [] (Nat.le_refl _) (show tokens.length < fuelFor tokens by
      unfold fuelFor; omega) (Cursor.start tokens) hlen
  have hne : ∀ d c, declarations atEnd (declaration (fuelFor tokens)) (fuelFor tokens) []
      (Cursor.start tokens) ≠ .error (.fault d) c := fun d c =>
    declarations_ne_fault hend (fun c c' d => by
      rw [show fuelFor tokens = 4 * tokens.length + 7 + 1 from rfl, declaration_succ]
      exact recover_ne_fault _ c c' d) _ _ _ _ _
  unfold program
  revert hs hne
  generalize declarations atEnd _ _ [] (Cursor.start tokens) = r
  intro hs hne
  cases hs with
  | fault _ _ => exact absurd rfl (hne _ _)
  | @ok l c' hpass _ hread =>
    refine ⟨l, c', rfl, hpass, fun hreports => ?_⟩
    obtain ⟨ts, hts, l', hl, hreads, hrest⟩ := hread hreports
    rw [List.isEmpty_iff.mp hrest, List.append_nil] at hts
    rw [show Program.tokens tokens = ts from hts, show l = l' from hl]
    exact hreads

/-- A program without a diagnostic is what its tokens are read as. -/
theorem Program.reads_of_ofTokens {tokens : List Token} {p : Program}
    (h : Program.ofTokens tokens = (p, [])) : Reads (.declarations p) (Program.tokens tokens) := by
  obtain ⟨p', c', hp, _, hread⟩ := program_ok tokens
  rw [Program.ofTokens, hp] at h
  obtain ⟨rfl, hreports⟩ : p' = p ∧ c'.reports = [] := by simpa using h
  exact hread hreports

theorem Program.ofTokens_static (tokens : List Token) :
    ∀ d ∈ (Program.ofTokens tokens).2, d.isStatic = true := by
  obtain ⟨p, c', hp, hpass, _⟩ := program_ok tokens
  obtain ⟨ds, hds, hstatic⟩ := hpass.reports
  rw [show (Cursor.start tokens).reports = [] from rfl, List.append_nil] at hds
  intro d hd
  rw [Program.ofTokens, hp] at hd
  exact hstatic d (hds ▸ List.mem_reverse.mp hd)

end Treewalk
