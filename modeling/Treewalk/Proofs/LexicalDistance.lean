import Treewalk.Proofs.Grammar.Vocabulary
import Treewalk.Proofs.Scoping.Records

/-!
# Recorded distances

The distance that the resolver records for an occurrence is its lexical distance, whether or
not there are faults (`Program.resolve_distances`). What stands in a tree with its distances
is recorded with the scopes that stand around it (`Program.Holds.recorded`), and every
occurrence stands somewhere (`Program.mentions_of_mem_occurrences`).
-/

namespace Treewalk

open Resolver

/-! ## What stands in the tree with its distances -/

section

variable {body : ClassBody} {scopes : List (List String)}

theorem Expr.mem_recordAll {es : List Expr} {a' : Expr} (h : a' ∈ Expr.recordAll body scopes es) :
    ∃ a ∈ es, a' = a.record body scopes := by
  induction es with
  | nil => cases h
  | cons e es ih =>
    rcases List.mem_cons.mp h with rfl | h
    · exact ⟨e, List.mem_cons_self, rfl⟩
    · obtain ⟨a, ha, rfl⟩ := ih h
      exact ⟨a, List.mem_cons_of_mem e ha, rfl⟩

theorem Expr.mem_parts_record {e a' : Expr} (h : a' ∈ (e.record body scopes).parts) :
    ∃ a ∈ e.parts, a' = a.record body scopes := by
  cases e with
  | literal | var | receiver | inherited => cases h
  | unary | group | assign | get =>
    obtain rfl := List.mem_singleton.mp h
    exact ⟨_, List.mem_singleton_self _, rfl⟩
  | binary | logical | set =>
    rcases List.mem_cons.mp h with rfl | h
    · exact ⟨_, List.mem_cons_self, rfl⟩
    · obtain rfl := List.mem_singleton.mp h
      exact ⟨_, List.mem_cons_of_mem _ (List.mem_singleton_self _), rfl⟩
  | call f p args =>
    rcases List.mem_cons.mp h with rfl | h
    · exact ⟨f, List.mem_cons_self, rfl⟩
    · obtain ⟨a, ha, rfl⟩ := Expr.mem_recordAll h
      exact ⟨a, List.mem_cons_of_mem f ha, rfl⟩

theorem Expr.Bare.part {e : Expr} (h : e.Bare) : ∀ a ∈ e.parts, a.Bare := by
  cases h with
  | literal | var | receiver | inherited => exact List.forall_mem_nil _
  | group h | unary _ h | assign _ h | get h => exact List.forall_mem_singleton.mpr h
  | binary _ ha hb | logical ha hb | set ha hb =>
    exact List.forall_mem_cons.mpr ⟨ha, List.forall_mem_singleton.mpr hb⟩
  | call hf hargs => exact List.forall_mem_cons.mpr ⟨hf, hargs⟩

theorem Expr.Has.recorded {e a' : Expr} (he : e.Bare) (h : (e.record body scopes).Has a') :
    ∃ a : Expr, a.Bare ∧ a' = a.record body scopes := by
  generalize hw : e.record body scopes = whole at h
  induction h generalizing e with
  | self => exact ⟨e, he, hw.symm⟩
  | part hmem _ ih =>
    subst hw
    obtain ⟨a, ha, rfl⟩ := Expr.mem_parts_record hmem
    exact ih (he.part a ha) rfl

/-- An occurrence has its distance, unless it is a `this` outside every class. -/
theorem Expr.depth_of_record {e : Expr} (he : e.Bare) {r : Reference}
    (hr : (e.record body scopes).reference? = some r) :
    r.depth = (scopes.findIdx? fun names => decide (r.name.lexeme ∈ names)) ∨
      body = .none ∧ e.record body scopes = .receiver r ∧ r.depth = none ∧ r.name.Is .thisWord := by
  cases he with
  | literal | group | unary | binary | logical | call | get | set => cases hr
  | var | assign | inherited =>
    obtain rfl := Option.some.inj hr
    exact .inl rfl
  | receiver hk =>
    obtain rfl := Option.some.inj hr
    by_cases hbody : body = .none
    · rw [if_pos hbody]
      exact .inr ⟨hbody, by rw [Expr.record, if_pos hbody], rfl, hk⟩
    · rw [if_neg hbody]
      exact .inl rfl

theorem Stmt.declared_record (s : Stmt) : (s.record body scopes).declared = s.declared := by
  rcases s with _ | _ | _ | _ | ⟨_, _, _ | _⟩ | _ | ⟨_, _, _⟩ | _ | ⟨_, _ | _, _⟩ <;> rfl

/-- A list with its distances, cut at a statement. -/
theorem Stmt.recordAll_eq_append {l before' after' : List Stmt} {t' : Stmt}
    (h : Stmt.recordAll body scopes l = before' ++ t' :: after') : ∃ before t after,
      l = before ++ t :: after ∧ Stmt.declaredAll before' = Stmt.declaredAll before ∧
      t' = t.record body (declareIn scopes (Stmt.label (Stmt.declaredAll before))) := by
  induction before' generalizing l scopes with
  | nil =>
    cases l with
    | nil => cases h
    | cons t after =>
      obtain ⟨rfl, -⟩ := List.cons.inj h
      refine ⟨[], t, after, rfl, rfl, ?_⟩
      show _ = t.record body (declareIn scopes [])
      rw [declareIn_nil]
  | cons s' before' ih =>
    cases l with
    | nil => cases h
    | cons s l =>
      obtain ⟨rfl, hrest⟩ := List.cons.inj h
      obtain ⟨before, t, after, rfl, hdeclared, rfl⟩ := ih hrest
      refine ⟨s :: before, t, after, rfl, ?_, ?_⟩
      · show (s.record body scopes).declared ++ Stmt.declaredAll before' = _
        rw [s.declared_record, hdeclared]
        rfl
      · rw [declareIn_append]
        congr 2
        exact List.map_append.symm

theorem Stmt.mem_recordMethods {ms : List (Routine Stmt)} {r' : Routine Stmt}
    (h : r' ∈ Stmt.recordMethods body scopes ms) : ∃ r ∈ ms, r'.params = r.params ∧
      r'.body = Stmt.recordAll body (r.params.map Token.lexeme :: scopes) r.body := by
  induction ms with
  | nil => cases h
  | cons r ms ih =>
    obtain ⟨n, ps, b⟩ := r
    rcases List.mem_cons.mp h with rfl | h
    · exact ⟨_, List.mem_cons_self, rfl, rfl⟩
    · obtain ⟨r, hr, h⟩ := ih h
      exact ⟨r, List.mem_cons_of_mem _ hr, h⟩

end

/-- A statement with the distances of the place where it stands. -/
def Stmt.Recorded (around : List Body) (s' : Stmt) : Prop :=
  ∃ (s : Stmt) (scopes : List (List String)), s.Bare ∧
    s' = s.record (classAround around) scopes ∧
    declareIn scopes (Stmt.label s.declared) = scopesAround around

namespace Stmt.Recorded

variable {around : List Body} {s' : Stmt}

theorem eq_of_quiet {s : Stmt} {scopes : List (List String)}
    (h : declareIn scopes (Stmt.label s.declared) = scopesAround around) (hs : s.declared = []) :
    scopes = scopesAround around := by
  rw [← h, hs]
  exact (declareIn_nil scopes).symm

theorem branch (h : s'.Recorded around) : ∀ t' ∈ s'.branches, t'.Recorded around := by
  obtain ⟨s, scopes, hb, rfl, hscopes⟩ := h
  cases hb with
  | expression | print | declare | block | leave => exact List.forall_mem_nil _
  | @function r =>
    obtain ⟨n, ps, b⟩ := r
    exact List.forall_mem_nil _
  | @classDecl n r ms =>
    cases r <;> exact List.forall_mem_nil _
  | @branch c s a _ hs hq ha hqa =>
    have hs' : (s.record (classAround around) scopes).Recorded around :=
      ⟨s, scopes, hs, rfl, (hq.declareIn scopes).trans (eq_of_quiet hscopes rfl)⟩
    cases a with
    | none => exact List.forall_mem_singleton.mpr hs'
    | some a =>
      exact List.forall_mem_cons.mpr ⟨hs', List.forall_mem_singleton.mpr ⟨a, scopes, ha a rfl, rfl,
        ((hqa a rfl).declareIn scopes).trans (eq_of_quiet hscopes rfl)⟩⟩
  | @loop c s _ hs hq =>
    exact List.forall_mem_singleton.mpr
      ⟨s, scopes, hs, rfl, (hq.declareIn scopes).trans (eq_of_quiet hscopes rfl)⟩

/-- The statements of a body have the distances of its scopes. -/
theorem body (h : s'.Recorded around) : ∀ b' ∈ s'.bodies, ∃ l : List Stmt, (∀ s ∈ l, s.Bare) ∧
    b'.statements = Stmt.recordAll (classAround (b'.opened :: around))
      (scopesAround (b'.opened :: around)) l := by
  have hopened : ∀ b' : Body, scopesAround (b'.opened :: around) =
      b'.params.map Token.lexeme :: (b'.owner.keywords ++ scopesAround around) := by
    intro b'
    rw [← b'.names_opened]
    rfl
  obtain ⟨s, scopes, hb, rfl, hscopes⟩ := h
  cases hb with
  | expression | print | declare | loop | leave => exact List.forall_mem_nil _
  | @branch _ _ a => cases a <;> exact List.forall_mem_nil _
  | @block b hb =>
    refine List.forall_mem_singleton.mpr ⟨b, hb, ?_⟩
    rw [hopened, ← eq_of_quiet hscopes rfl]
    rfl
  | @function r _ _ hb =>
    obtain ⟨n, ps, b⟩ := r
    refine List.forall_mem_singleton.mpr ⟨b, hb, ?_⟩
    rw [hopened, ← hscopes]
    rfl
  | @classDecl n superclass ms _ _ _ hb =>
    cases superclass with
    | none | some =>
      intro b' hb'
      obtain ⟨r', hr', rfl⟩ := List.mem_map.mp hb'
      obtain ⟨r, hr, hps, hbody⟩ := Stmt.mem_recordMethods hr'
      refine ⟨r.body, hb r hr, ?_⟩
      rw [hopened, ← hscopes]
      simp only [hps, hbody]
      rfl

/-- The expressions of a statement have its distances too. -/
theorem expr (h : s'.Recorded around) : ∀ e' ∈ s'.exprs, ∃ e : Expr, e.Bare ∧
    e' = e.record (classAround around) (scopesAround around) := by
  obtain ⟨s, scopes, hb, rfl, hscopes⟩ := h
  cases hb with
  | expression he | print he | loop he =>
    rw [← eq_of_quiet hscopes rfl]
    exact List.forall_mem_singleton.mpr ⟨_, he, rfl⟩
  | @branch _ _ a he =>
    rw [← eq_of_quiet hscopes rfl]
    cases a <;> exact List.forall_mem_singleton.mpr ⟨_, he, rfl⟩
  | @declare n e _ he =>
    rw [← hscopes]
    cases e with
    | none => exact List.forall_mem_nil _
    | some e => exact List.forall_mem_singleton.mpr ⟨e, he e rfl, rfl⟩
  | @leave k e he =>
    rw [← eq_of_quiet hscopes rfl]
    cases e with
    | none => exact List.forall_mem_nil _
    | some e => exact List.forall_mem_singleton.mpr ⟨e, he e rfl, rfl⟩
  | block => exact List.forall_mem_nil _
  | @function r =>
    obtain ⟨n, ps, b⟩ := r
    exact List.forall_mem_nil _
  | @classDecl n r ms =>
    cases r <;> exact List.forall_mem_nil _

end Stmt.Recorded

/-- So have the statements of a list, each after those in front of it. -/
theorem Stmt.recorded_of_recordAll {around : List Body} {l before' after' : List Stmt} {t' : Stmt}
    (hb : ∀ s ∈ l, s.Bare)
    (h : Stmt.recordAll (classAround around) (scopesAround around) l = before' ++ t' :: after') :
    t'.Recorded (extend around (before' ++ [t'])) := by
  obtain ⟨before, t, after, rfl, hdeclared, rfl⟩ := Stmt.recordAll_eq_append h
  refine ⟨t, declareIn (scopesAround around) (Stmt.label (Stmt.declaredAll before)),
    hb t (List.mem_append_right _ List.mem_cons_self), by rw [classAround_extend], ?_⟩
  rw [scopesAround_extend, declareIn_append]
  congr 1
  rw [← hdeclared]
  simp [Stmt.label, Stmt.declaredAll, Stmt.declared_record]

theorem Program.Holds.recorded {p : Program} (hb : ∀ s ∈ p, s.Bare) {around : List Body} {s' : Stmt}
    (h : Program.Holds (Stmt.recordAll .none [] p) around s') : s'.Recorded around := by
  induction h with
  | top hmem =>
    obtain ⟨before, after, hl⟩ := List.append_of_mem hmem
    exact @Stmt.recorded_of_recordAll [] p before after _ hb hl
  | inside _ hmem hl ih =>
    obtain ⟨l, hb, hbody⟩ := ih.body _ hmem
    exact Stmt.recorded_of_recordAll hb (hbody ▸ hl)
  | under _ hmem ih => exact ih.branch _ hmem

theorem Program.HoldsExpr.recorded {p : Program} (hb : ∀ s ∈ p, s.Bare) {around : List Body}
    {e' : Expr} (h : Program.HoldsExpr (Stmt.recordAll .none [] p) around e') :
    ∃ e : Expr, e.Bare ∧ e' = e.record (classAround around) (scopesAround around) := by
  obtain ⟨s, hs, whole, hmem, hhas⟩ := h
  obtain ⟨e, hbare, rfl⟩ := (hs.recorded hb).expr whole hmem
  exact hhas.recorded hbare

/-! ## Names around a node -/

section

variable {V : Vocabulary}

theorem Stmt.Over.body {s : Stmt} (h : s.Over V) :
    ∀ b ∈ s.bodies, (∀ p ∈ b.params, V.Binds p) ∧ ∀ t ∈ b.statements, t.Over V := by
  cases h with
  | expression | print | declare | branch | loop | leave => exact List.forall_mem_nil _
  | block hb => exact List.forall_mem_singleton.mpr ⟨List.forall_mem_nil _, hb⟩
  | function _ hps hb => exact List.forall_mem_singleton.mpr ⟨hps, hb⟩
  | classDecl _ _ _ hps hb =>
    intro b hmem
    obtain ⟨r, hr, rfl⟩ := List.mem_map.mp hmem
    exact ⟨hps r hr, hb r hr⟩

theorem Stmt.Over.under {s : Stmt} (h : s.Over V) : ∀ t ∈ s.branches, t.Over V := by
  cases h with
  | expression | print | declare | block | function | leave | classDecl =>
    exact List.forall_mem_nil _
  | loop _ hs => exact List.forall_mem_singleton.mpr hs
  | branch _ hs ha =>
    exact List.forall_mem_cons.mpr ⟨hs, fun t ht => ha t (Option.mem_toList.mp ht)⟩

theorem Stmt.Over.declared {s : Stmt} (h : s.Over V) : ∀ n ∈ s.declared, V.name n.1.lexeme := by
  cases h with
  | expression | print | block | branch | loop | leave => exact List.forall_mem_nil _
  | declare hn | function hn | classDecl hn => exact List.forall_mem_singleton.mpr hn.name

theorem Stmt.Over.expr {s : Stmt} (h : s.Over V) : ∀ e ∈ s.exprs, e.Over V := by
  cases h with
  | block | function | classDecl => exact List.forall_mem_nil _
  | expression he | print he | branch he | loop he => exact List.forall_mem_singleton.mpr he
  | declare _ he | leave _ he => exact fun e hmem => he e (Option.mem_toList.mp hmem)

theorem Expr.Over.has {e a : Expr} (h : e.Over V) (ha : e.Has a) : a.Over V := by
  induction ha with
  | self => exact h
  | part hmem _ ih =>
    refine ih ?_
    cases h with
    | literal | var | receiver | inherited => cases hmem
    | group h | unary _ h | assign _ h | get h => exact List.mem_singleton.mp hmem ▸ h
    | binary _ ha hb | logical _ ha hb | set ha _ hb =>
      rcases List.mem_cons.mp hmem with rfl | hmem
      · exact ha
      · exact List.mem_singleton.mp hmem ▸ hb
    | call hf _ hargs =>
      rcases List.mem_cons.mp hmem with rfl | hmem
      · exact hf
      · exact hargs _ hmem

/-- All names that are declared around a statement are names of the vocabulary. -/
theorem Program.Holds.over {p : Program} (hp : p.Over V) {around : List Body} {s : Stmt}
    (h : p.Holds around s) : s.Over V ∧ ∀ b ∈ around, ∀ name ∈ b.names, V.name name := by
  induction h with
  | top hmem => exact ⟨hp _ hmem, List.forall_mem_nil _⟩
  | @inside around s t b before after _ hmem hl ih =>
    obtain ⟨hps, hb⟩ := ih.1.body b hmem
    rw [hl] at hb
    refine ⟨hb t (List.mem_append_right _ List.mem_cons_self),
      List.forall_mem_cons.mpr ⟨fun name hname => ?_, ih.2⟩⟩
    rw [Body.names_append, List.mem_append, Body.names_opened] at hname
    rcases hname with hname | hname
    · obtain ⟨p, hp, rfl⟩ := List.mem_map.mp hname
      exact (hps p hp).name
    · obtain ⟨n, hn, rfl⟩ := List.mem_map.mp hname
      obtain ⟨s, hs, hn⟩ := List.mem_flatMap.mp hn
      have hmem : s ∈ before ++ t :: after := by
        rw [List.append_cons]
        exact List.mem_append_left after hs
      exact (hb s hmem).declared n hn
  | under _ hmem ih => exact ⟨ih.1.under _ hmem, ih.2⟩

theorem Program.HoldsExpr.over {p : Program} (hp : p.Over V) {around : List Body} {e : Expr}
    (h : p.HoldsExpr around e) : e.Over V ∧ ∀ b ∈ around, ∀ name ∈ b.names, V.name name := by
  obtain ⟨s, hs, whole, hmem, hhas⟩ := h
  obtain ⟨hsover, hnames⟩ := hs.over hp
  exact ⟨(hsover.expr _ hmem).has hhas, hnames⟩

end

/-- Outside every class, a word that nothing is named by is not found. -/
theorem lexicalDistance_eq_none {around : List Body} (hclass : classAround around = .none)
    {word : String} (h : ∀ b ∈ around, word ∉ b.names) : lexicalDistance around word = none := by
  rw [lexicalDistance, List.findIdx?_eq_none_iff]
  intro names hnames
  obtain ⟨b, hb, hmem⟩ := List.mem_flatMap.mp hnames
  have hplain : b.superclass? = none :=
    Option.not_isSome_iff_eq_none.mp fun h => classAround_ne_none.mpr ⟨b, hb, h⟩ hclass
  rw [Body.scopes, Body.keywords_of_plain hplain, List.mem_singleton] at hmem
  rw [hmem, decide_eq_false_iff_not]
  exact h b hb

theorem spelled_endOfFile (line : Nat) : (Token.endOfFile line).Spelled := by
  constructor
  · intro s h
    cases h
  · intro h
    cases h

theorem Cursor.last_spelled {tokens : List Token} (h : ∀ t ∈ tokens, t.Spelled) :
    (Cursor.start tokens).last.Spelled := by
  unfold Cursor.start
  split
  · next hfind => exact h _ (List.mem_of_find?_eq_some hfind)
  · exact spelled_endOfFile _

theorem scan_spelled (source : String) : ∀ t ∈ (scan source).1, t.Spelled := by
  intro t ht
  rw [scan_fst] at ht
  rcases List.mem_append.mp ht with ht | ht
  · exact ⟨lexeme_of_symbol ht, fun hn _ => lexeme_ne_of_name ht hn⟩
  · obtain rfl := List.mem_singleton.mp ht
    exact spelled_endOfFile _

/-- Tokens are spelled as their kinds say, and no variable is named like a reserved word. -/
def Vocabulary.spelled : Vocabulary := ⟨Token.Spelled, fun name => ¬ Implicit name⟩

theorem Program.over_spelled {tokens : List Token} (hspelled : ∀ t ∈ tokens, t.Spelled)
    {p : Program} (h : Program.ofTokens tokens = (p, [])) : p.resolve.1.Over .spelled := by
  have hread := @Program.ofTokens_over .spelled tokens
    (fun t ht => ⟨hspelled t ht, not_implicit (hspelled t ht)⟩) (Cursor.last_spelled hspelled)
  rw [h] at hread
  exact (Program.resolve_over hread.1).1

/-! ## Every occurrence stands somewhere -/

/-- The occurrence stands in the program with these bodies around it. -/
def Program.Mentions (p : Program) (around : List Body) (r : Reference) : Prop :=
  (∃ n ms, p.Holds around (.classDecl n (some r) ms)) ∨
    ∃ e, p.HoldsExpr around e ∧ e.reference? = some r

section

variable {p : Program} {r : Reference}

theorem Expr.Has.of_parts {P : Expr → Prop} {e a : Expr} (ha : a ∈ e.parts)
    (h : ∃ b, a.Has b ∧ P b) : ∃ b, e.Has b ∧ P b := by
  obtain ⟨b, hb, hP⟩ := h
  exact ⟨b, .part ha hb, hP⟩

mutual

theorem Expr.has_of_collect : ∀ (e : Expr) {found : List Reference}, r ∈ e.collect found →
    r ∈ found ∨ ∃ a, e.Has a ∧ a.reference? = some r
  | .literal _, _, h => .inl h
  | .unary _ e, _, h | .group e, _, h | .get e _, _, h =>
    (e.has_of_collect h).imp_right (Expr.Has.of_parts List.mem_cons_self)
  | .binary _ a b, _, h | .logical _ a b, _, h | .set a _ b, _, h => by
    rcases b.has_of_collect h with h | h
    · exact (a.has_of_collect h).imp_right (Expr.Has.of_parts List.mem_cons_self)
    · exact .inr (Expr.Has.of_parts (List.mem_cons_of_mem _ List.mem_cons_self) h)
  | .var _, _, h | .receiver _, _, h | .inherited _ _, _, h => by
    rcases List.mem_cons.mp h with rfl | h
    · exact .inr ⟨_, .self _, rfl⟩
    · exact .inl h
  | .assign _ e, _, h => by
    rcases e.has_of_collect h with h | h
    · rcases List.mem_cons.mp h with rfl | h
      · exact .inr ⟨_, .self _, rfl⟩
      · exact .inl h
    · exact .inr (Expr.Has.of_parts List.mem_cons_self h)
  | .call f _ args, _, h => by
    rcases Expr.has_of_collectAll args h with h | ⟨a, ha, h⟩
    · exact (f.has_of_collect h).imp_right (Expr.Has.of_parts List.mem_cons_self)
    · exact .inr (Expr.Has.of_parts (List.mem_cons_of_mem _ ha) h)

theorem Expr.has_of_collectAll : ∀ (es : List Expr) {found : List Reference},
    r ∈ Expr.collectAll found es →
    r ∈ found ∨ ∃ e ∈ es, ∃ a, e.Has a ∧ a.reference? = some r
  | [], _, h => .inl h
  | e :: es, _, h => by
    rcases Expr.has_of_collectAll es h with h | ⟨e', he', h⟩
    · exact (e.has_of_collect h).imp_right fun h => ⟨e, List.mem_cons_self, h⟩
    · exact .inr ⟨e', List.mem_cons_of_mem e he', h⟩

end

theorem Program.Holds.mentions {around : List Body} {s : Stmt} (hs : p.Holds around s) {e : Expr}
    (he : e ∈ s.exprs) {found : List Reference} (h : r ∈ e.collect found) :
    r ∈ found ∨ ∃ around, p.Mentions around r :=
  (e.has_of_collect h).imp_right fun ⟨a, ha, hr⟩ => ⟨around, .inr ⟨a, ⟨s, hs, e, he, ha⟩, hr⟩⟩

mutual

theorem Stmt.mentions_of_collect : ∀ (s : Stmt) {around : List Body} {found : List Reference},
    p.Holds around s → r ∈ s.collect found → r ∈ found ∨ ∃ around, p.Mentions around r
  | .expression _, _, _, hs, h | .print _, _, _, hs, h | .declare _ (some _), _, _, hs, h
  | .leave _ (some _), _, _, hs, h => hs.mentions List.mem_cons_self h
  | .declare _ none, _, _, _, h | .leave _ none, _, _, _, h => .inl h
  | .block b, _, _, hs, h =>
    Stmt.mentions_of_collectAll b (hs.body (List.mem_singleton_self _)) h
  | .branch _ s none, _, _, hs, h | .loop _ s, _, _, hs, h => by
    rcases s.mentions_of_collect (hs.under List.mem_cons_self) h with h | h
    · exact hs.mentions List.mem_cons_self h
    · exact .inr h
  | .branch _ s (some a), _, _, hs, h => by
    rcases a.mentions_of_collect (hs.under (List.mem_cons_of_mem _ List.mem_cons_self)) h with h | h
    · rcases s.mentions_of_collect (hs.under List.mem_cons_self) h with h | h
      · exact hs.mentions List.mem_cons_self h
      · exact .inr h
    · exact .inr h
  | .function ⟨_, _, b⟩, _, _, hs, h =>
    Stmt.mentions_of_collectAll b (hs.body (List.mem_singleton_self _)) h
  | .classDecl _ none ms, _, _, hs, h =>
    Stmt.mentions_of_collectMethods ms
      (fun _ hm => ⟨_, hs.body (List.mem_map_of_mem hm)⟩) h
  | .classDecl _ (some _) ms, around, _, hs, h => by
    rcases Stmt.mentions_of_collectMethods ms
      (fun _ hm => ⟨_, hs.body (List.mem_map_of_mem hm)⟩) h with h | h
    · rcases List.mem_cons.mp h with rfl | h
      · exact .inr ⟨around, .inl ⟨_, _, hs⟩⟩
      · exact .inl h
    · exact .inr h

theorem Stmt.mentions_of_collectAll : ∀ (l : List Stmt) {around : List Body}
    {found : List Reference}, p.HoldsAll around l → r ∈ Stmt.collectAll found l →
    r ∈ found ∨ ∃ around, p.Mentions around r
  | [], _, _, _, h => .inl h
  | s :: l, _, _, hl, h => by
    rcases Stmt.mentions_of_collectAll l hl.tail h with h | h
    · exact s.mentions_of_collect hl.head h
    · exact .inr h

theorem Stmt.mentions_of_collectMethods : ∀ (ms : List (Routine Stmt)) {found : List Reference},
    (∀ m ∈ ms, ∃ around, p.HoldsAll around m.body) → r ∈ Stmt.collectMethods found ms →
    r ∈ found ∨ ∃ around, p.Mentions around r
  | [], _, _, h => .inl h
  | ⟨_, _, b⟩ :: ms, _, hms, h => by
    obtain ⟨⟨around, hb⟩, hms⟩ := List.forall_mem_cons.mp hms
    rcases Stmt.mentions_of_collectMethods ms hms h with h | h
    · exact Stmt.mentions_of_collectAll b hb h
    · exact .inr h

end

/-- The occurrences that a walk over the program finds all stand in it. -/
theorem Program.mentions_of_mem_occurrences (h : r ∈ p.occurrences) :
    ∃ around, p.Mentions around r := by
  have hcollect : r ∈ Stmt.collectAll [] p := List.mem_reverse.mp h
  rcases Stmt.mentions_of_collectAll p p.holdsAll_top hcollect with h | h
  · cases h
  · exact h

end

/-! ## Recorded distances are lexical distances -/

theorem Program.Holds.superclass_depth {p : Program} (hb : ∀ s ∈ p, s.Bare) {around : List Body}
    {n : Token} {r : Reference} {ms : List (Routine Stmt)}
    (h : Program.Holds (Stmt.recordAll .none [] p) around (.classDecl n (some r) ms)) :
    r.depth = lexicalDistance around r.name.lexeme := by
  obtain ⟨s, scopes, _, hrecord, hscopes⟩ := h.recorded hb
  rcases s with _ | _ | _ | _ | ⟨_, _, _ | _⟩ | _ | ⟨_, _, _⟩ | _ | ⟨n', _ | r', ms'⟩ <;>
    cases hrecord
  rw [lexicalDistance, ← hscopes]
  rfl

/-- Names of a program are not spelled like `this`, so outside every class no scope has it. -/
theorem Program.HoldsExpr.this_distance {p : Program} (hp : p.Over .spelled) {around : List Body}
    {r : Reference} (h : p.HoldsExpr around (.receiver r)) (hclass : classAround around = .none)
    (hr : r.name.Is .thisWord) : lexicalDistance around r.name.lexeme = none := by
  obtain ⟨hover, hnames⟩ := h.over hp
  cases hover with
  | receiver ht =>
    rw [ht.symbol hr]
    exact lexicalDistance_eq_none hclass fun b hb hn => hnames b hb _ hn (.inl rfl)

/-- The distances that the resolver records, with or without faults. Resolving changes
nothing else, every occurrence stands somewhere, and there it gets the number of scopes
between it and the nearest that declared its name in front of it, or none if there is none.
A `this` outside every class never gets one, which is right as long as names are not spelled
like that word. -/
theorem Program.resolve_distances {tokens : List Token} {p : Program}
    (h : Program.ofTokens tokens = (p, [])) :
    Stmt.eraseAll p.resolve.1 = p ∧
    (∀ r ∈ p.resolve.1.occurrences, ∃ around, p.resolve.1.Mentions around r) ∧
    (∀ around n r ms, p.resolve.1.Holds around (.classDecl n (some r) ms) →
      r.depth = lexicalDistance around r.name.lexeme) ∧
    ∀ around e r, p.resolve.1.HoldsExpr around e → e.reference? = some r →
      (e = .receiver r → classAround around = .none → ∀ t ∈ tokens, t.Spelled) →
      r.depth = lexicalDistance around r.name.lexeme := by
  have hb := Program.bare_of_ofTokens h
  have heq := Program.resolve_eq_record hb
  refine ⟨?_, fun r => Program.mentions_of_mem_occurrences, fun around n r ms hs => ?_, ?_⟩
  · rw [heq]
    exact Stmt.eraseAll_recordAll .none [] hb
  · exact Program.Holds.superclass_depth hb (heq ▸ hs)
  · intro around e r he hr hspelled
    obtain ⟨a, ha, rfl⟩ := Program.HoldsExpr.recorded hb (heq ▸ he)
    rcases Expr.depth_of_record ha hr with hdepth | ⟨hclass, hreceiver, hdepth, hthis⟩
    · exact hdepth
    · have hover := Program.over_spelled (hspelled hreceiver hclass) h
      rw [hdepth, Program.HoldsExpr.this_distance hover (hreceiver ▸ he) hclass hthis]

/-- A variable in its own initializer and a `this` outside every class are reported, and have
their distances nevertheless; a `super` is three scopes inside its own. -/
theorem Program.resolve_distances_of_faulty :
    let tokens := (scan ("\x7b var a = a; fun f(b) \x7b return this; \x7d " ++
      "class B < A \x7b m() \x7b \x7b print super.m + a; \x7d \x7d \x7d \x7d")).1
    let resolved := (Program.ofTokens tokens).1.resolve.1
    ((Program.ofTokens tokens).2 = [] ∧ (Program.ofTokens tokens).1.resolve.2.length = 2 ∧
      resolved.occurrences.map Reference.depth = [some 0, none, none, some 3, some 4]) ∧
      ∀ around e r, resolved.HoldsExpr around e → e.reference? = some r →
        r.depth = lexicalDistance around r.name.lexeme := by
  intro tokens resolved
  have hread : (Program.ofTokens tokens).2 = [] ∧
      (Program.ofTokens tokens).1.resolve.2.length = 2 ∧
      resolved.occurrences.map Reference.depth = [some 0, none, none, some 3, some 4] := by
    decide +kernel
  have hspelled : ∀ t ∈ tokens, t.Spelled := scan_spelled _
  clear_value tokens
  refine ⟨hread, fun around e r he hr => ?_⟩
  exact (Program.resolve_distances (Prod.ext rfl hread.1)).2.2.2 around e r he hr
    fun _ _ => hspelled

end Treewalk
