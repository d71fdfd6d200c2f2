import Treewalk.Proofs.LexicalDistance
import Treewalk.Proofs.StoreGrowth
import Treewalk.Proofs.WellScoped

/-!
# Where `super` stands

In an accepted unit a `super` stands in a method of a class with a superclass, past a number of
blocks and functions. Its distance is theirs, that of the method itself and that of the scope
of `this` (`Accepts.inherited`).
-/

namespace Treewalk

open Resolver

/-! ## What resolved trees come from -/

section

variable {place : Place} {κ κ' : List (Bindings Bool)}

theorem Expr.Scoped.derived_of_has {body : ClassBody} {e e' : Expr} (h : Expr.Scoped body κ e e')
    {k : Reference} {m : Token} (hk : e'.Has (.inherited k m)) : body = .derived := by
  generalize ha : Expr.inherited k m = a at hk
  induction hk generalizing e with
  | self =>
    subst ha
    cases h with | inherited hbody => exact hbody
  | part hmem _ ih =>
    obtain ⟨_, h⟩ := (exists_of_forall₂ h.forall₂_parts).2 _ hmem
    exact ih h ha

theorem Stmt.ScopedAll.origin {l l' : List Stmt} (h : Stmt.ScopedAll place κ l l' κ') :
    ∀ t' ∈ l', ∃ κ₁ t κ₂, Stmt.Scoped place κ₁ t t' κ₂ := by
  induction l' generalizing κ l with
  | nil => exact List.forall_mem_nil _
  | cons s' l' ih =>
    cases h with
    | cons hs hl => exact List.forall_mem_cons.mpr ⟨⟨_, _, _, hs⟩, ih hl⟩

theorem Stmt.ScopedMethods.origin {body : ClassBody} {ms ms' : List (Routine Stmt)}
    (h : Stmt.ScopedMethods body κ ms ms') :
    ∀ r' ∈ ms', ∃ κ₁ b κ₂, Stmt.ScopedAll ⟨true, body⟩ κ₁ b r'.body κ₂ := by
  induction ms' generalizing ms with
  | nil => exact List.forall_mem_nil _
  | cons r' ms' ih =>
    cases h with
    | cons _ hb hms => exact List.forall_mem_cons.mpr ⟨⟨_, _, _, hb⟩, ih hms⟩

theorem Stmt.Scoped.origin_branch {s s' : Stmt} (h : Stmt.Scoped place κ s s' κ') :
    ∀ t' ∈ s'.branches, ∃ κ₁ t κ₂, Stmt.Scoped place κ₁ t t' κ₂ := by
  cases h with
  | expression | print | declare | block | function | leave | base | derived =>
    exact List.forall_mem_nil _
  | branch _ hs | loop _ hs => exact List.forall_mem_singleton.mpr ⟨_, _, _, hs⟩
  | choice _ hs ha =>
    exact List.forall_mem_cons.mpr ⟨⟨_, _, _, hs⟩, List.forall_mem_singleton.mpr ⟨_, _, _, ha⟩⟩

theorem Stmt.Scoped.origin_body {around : List Body} {s s' : Stmt}
    (h : Stmt.Scoped (placeAround around) κ s s' κ') : ∀ b' ∈ s'.bodies,
      ∃ κ₁ l κ₂, Stmt.ScopedAll (placeAround (b'.opened :: around)) κ₁ l b'.statements κ₂ := by
  cases h with
  | expression | print | declare | branch | choice | loop | leave => exact List.forall_mem_nil _
  | block hb => exact List.forall_mem_singleton.mpr ⟨_, _, _, hb⟩
  | function _ _ hb => exact List.forall_mem_singleton.mpr ⟨_, _, _, hb⟩
  | base _ hms | derived _ _ hms =>
    intro b' hb'
    obtain ⟨r', hr', rfl⟩ := List.mem_map.mp hb'
    obtain ⟨κ₁, b, κ₂, hb⟩ := hms.origin r' hr'
    exact ⟨κ₁, b, κ₂, hb⟩

end

/-- Every statement of a resolved program was resolved where it stands. -/
theorem Program.Holds.origin {p p' : Program} (hp : p.Scoped p') {around : List Body} {s' : Stmt}
    (h : p'.Holds around s') : ∃ κ s κ', Stmt.Scoped (placeAround around) κ s s' κ' := by
  induction h with
  | top hmem =>
    have hall : Stmt.ScopedAll (placeAround []) [] p p' [] := hp
    exact hall.origin _ hmem
  | @inside around s' t' b' before after _ hmem hl ih =>
    obtain ⟨κ, s, κ', hs⟩ := ih
    obtain ⟨κ₁, l, κ₂, hb⟩ := hs.origin_body b' hmem
    rw [placeAround_extend]
    exact hb.origin t' (hl ▸ List.mem_append_right _ List.mem_cons_self)
  | under _ hmem ih =>
    obtain ⟨κ, s, κ', hs⟩ := ih
    exact hs.origin_branch _ hmem

theorem Program.HoldsExpr.derived {p p' : Program} (hp : p.Scoped p') {around : List Body}
    {k : Reference} {m : Token} (h : p'.HoldsExpr around (.inherited k m)) :
    classAround around = .derived := by
  obtain ⟨s', hs', whole, hmem, hhas⟩ := h
  obtain ⟨κ, s, κ', hs⟩ := hs'.origin hp
  obtain ⟨κ₁, hexprs⟩ := hs.forall₂_exprs
  obtain ⟨e, he⟩ := (exists_of_forall₂ hexprs).2 whole hmem
  exact he.derived_of_has hhas

/-! ## The distance of `super` -/

theorem Accepts.over {source : String} {read resolved : Program}
    (h : Accepts source read resolved) : resolved.Over .spelled := by
  have hover := Program.over_spelled (scan_spelled source) h.syntactic
  rwa [h.scoping] at hover

theorem Body.owner_of_superclass {b : Body} {r : Reference} (h : b.superclass? = some (some r)) :
    ∃ n ms, b.owner = .method n (some r) ms := by
  obtain ⟨owner, params, statements⟩ := b
  cases owner with
  | block | function => cases h
  | method n superclass ms =>
    obtain rfl : superclass = some r := Option.some.inj h
    exact ⟨n, ms, rfl⟩

theorem lexicalDistance_super {inner outer : List Body} {body : Body} {n : Token} {r : Reference}
    {ms : List (Routine Stmt)} (hinner : ∀ b ∈ inner, b.superclass? = none)
    (hbody : body.owner = .method n (some r) ms)
    (hnames : ∀ b ∈ inner ++ body :: outer, "super" ∉ b.names) :
    lexicalDistance (inner ++ body :: outer) "super" = some (inner.length + 2) := by
  rw [lexicalDistance, scopesAround]
  induction inner with
  | nil =>
    have hsuper : "super" ∉ body.names := hnames body List.mem_cons_self
    simp [Body.scopes, hbody, Owner.keywords, List.findIdx?_cons, hsuper]
  | cons b inner ih =>
    obtain ⟨hb, hinner⟩ := List.forall_mem_cons.mp hinner
    obtain ⟨hsuper, hnames⟩ := List.forall_mem_cons.mp hnames
    rw [List.cons_append, List.flatMap_cons, Body.scopes, Body.keywords_of_plain hb,
      List.singleton_append, List.findIdx?_cons, decide_eq_false hsuper, ih hinner hnames]
    rfl

/-- A `super` of an accepted unit: the method it stands in, and how far out its scope is. -/
theorem Accepts.inherited {source : String} {read resolved : Program}
    (h : Accepts source read resolved) {around : List Body} {k : Reference} {m : Token}
    (he : resolved.HoldsExpr around (.inherited k m)) :
    ∃ inner body outer n r ms, around = inner ++ body :: outer ∧
      (∀ b ∈ inner, b.superclass? = none) ∧ body.owner = .method n (some r) ms ∧
      k.name.lexeme = "super" ∧ k.depth = some (inner.length + 2) := by
  have hb := Program.bare_of_ofTokens h.syntactic
  obtain ⟨hover, hnames⟩ := he.over h.over
  obtain ⟨r, hr⟩ := classAround_eq_derived.mp (he.derived (Program.resolve_eq_iff.mp h.scoping))
  obtain ⟨inner, body, outer, rfl, hbody, hinner⟩ := List.findSome?_eq_some_iff.mp hr
  obtain ⟨n, ms, howner⟩ := Body.owner_of_superclass hbody
  refine ⟨inner, body, outer, n, r, ms, rfl, hinner, howner, ?_⟩
  have heq : resolved = Stmt.recordAll .none [] read := by
    rw [← Program.resolve_eq_record hb, h.scoping]
  obtain ⟨a, ha, harecord⟩ := Program.HoldsExpr.recorded hb (heq ▸ he)
  cases ha with
  | @inherited t m hword =>
    cases harecord
    cases hover with | inherited ht _ =>
    have hlexeme : t.lexeme = "super" := ht.symbol hword
    have hsuper : ∀ b ∈ inner ++ body :: outer, "super" ∉ b.names :=
      fun b hb hmem => hnames b hb _ hmem (.inr rfl)
    refine ⟨hlexeme, ?_⟩
    rw [← lexicalDistance_super hinner howner hsuper, ← hlexeme]
    rfl
  | _ => cases harecord

end Treewalk
