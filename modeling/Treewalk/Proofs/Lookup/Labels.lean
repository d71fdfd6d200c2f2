import Treewalk.Proofs.Renaming.Senses
import Treewalk.Proofs.Scoping.Keywords
import Treewalk.Tree.Occurrences

/-!
# What each scope may bind

The label of a scope has the names that its construct declares anywhere: a block those of its
statements, a routine its parameters too. The scopes of `this` and `super` declare nothing. A
tree is located (`Stmt.Located`) if each declaration is in the label it belongs to, and each
occurrence of a variable can only be meant by the one label at its recorded distance.

In a resolved program that declares each local name at one place, and that records a distance
wherever a local name occurs, the resolver locates every occurrence
(`Stmt.ScopedAll.isLocated`).
-/

namespace Treewalk

open Resolver

/-- The spellings of declared names. -/
def Stmt.label (names : List (Token × Bool)) : List String :=
  names.map fun n => n.1.lexeme

mutual

/-- The names that are declared in scopes inside a statement. -/
def Stmt.inner : Stmt → List String
  | .block b => Stmt.label (Stmt.declaredAll b) ++ Stmt.innerAll b
  | .branch _ s none => s.inner
  | .branch _ s (some a) => s.inner ++ a.inner
  | .loop _ s => s.inner
  | .function r => Stmt.innerRoutine r
  | .classDecl _ _ ms => Stmt.innerMethods ms
  | .expression _ | .print _ | .declare _ _ | .leave _ _ => []

def Stmt.innerAll : List Stmt → List String
  | [] => []
  | s :: l => s.inner ++ Stmt.innerAll l

def Stmt.innerRoutine : Routine Stmt → List String
  | ⟨_, params, body⟩ => Stmt.label (Stmt.declaredIn params body) ++ Stmt.innerAll body

def Stmt.innerMethods : List (Routine Stmt) → List String
  | [] => []
  | r :: ms => Stmt.innerRoutine r ++ Stmt.innerMethods ms

end

/-! ## Located trees -/

/-- In scopes with the labels `κ`, inside globals that may bind `G`, only the scope at the
recorded distance can be meant. -/
structure Reference.Located (G : List String) (κ : List (List String)) (r : Reference) : Prop where
  declared : ¬ Implicit r.name.lexeme
  unique : ∀ i label, κ[i]? = some label → r.name.lexeme ∈ label → r.depth = some i
  global : r.name.lexeme ∈ G → r.depth = none

section

variable (G : List String)

mutual

def Expr.Located (κ : List (List String)) : Expr → Prop
  | .literal _ | .receiver _ | .inherited _ _ => True
  | .unary _ e | .group e | .get e _ => e.Located κ
  | .binary _ a b | .logical _ a b | .set a _ b => a.Located κ ∧ b.Located κ
  | .var r => r.Located G κ
  | .assign r e => r.Located G κ ∧ e.Located κ
  | .call f _ args => f.Located κ ∧ Expr.LocatedAll κ args

def Expr.LocatedAll (κ : List (List String)) : List Expr → Prop
  | [] => True
  | e :: es => e.Located κ ∧ Expr.LocatedAll κ es

end

def Expr.Located? (κ : List (List String)) : Option Expr → Prop
  | none => True
  | some e => e.Located G κ

mutual

def Stmt.Located (κ : List (List String)) : Stmt → Prop
  | .expression e | .print e => e.Located G κ
  | .declare n e => n.lexeme ∈ κ.headD G ∧ Expr.Located? G κ e
  | .block b => Stmt.LocatedAll (Stmt.label (Stmt.declaredAll b) :: κ) b
  | .branch c s none => c.Located G κ ∧ s.Located κ
  | .branch c s (some a) => c.Located G κ ∧ s.Located κ ∧ a.Located κ
  | .loop c s => c.Located G κ ∧ s.Located κ
  | .function r => r.name.lexeme ∈ κ.headD G ∧ Stmt.LocatedRoutine κ r
  | .leave _ e => Expr.Located? G κ e
  | .classDecl n none ms => n.lexeme ∈ κ.headD G ∧ Stmt.LocatedMethods ([] :: κ) ms
  | .classDecl n (some r) ms =>
    n.lexeme ∈ κ.headD G ∧ r.Located G κ ∧ Stmt.LocatedMethods ([] :: [] :: κ) ms

def Stmt.LocatedAll (κ : List (List String)) : List Stmt → Prop
  | [] => True
  | s :: l => s.Located κ ∧ Stmt.LocatedAll κ l

def Stmt.LocatedRoutine (κ : List (List String)) : Routine Stmt → Prop
  | ⟨_, params, body⟩ => Stmt.LocatedAll (Stmt.label (Stmt.declaredIn params body) :: κ) body

def Stmt.LocatedMethods (κ : List (List String)) : List (Routine Stmt) → Prop
  | [] => True
  | r :: ms => Stmt.LocatedRoutine κ r ∧ Stmt.LocatedMethods κ ms

end

end

/-! ## Occurrences

A walk loses nothing of what it found before, and all it finds are tokens of the tree. -/

mutual

theorem Expr.subset_collect : ∀ (found : List Reference) (e : Expr), found ⊆ e.collect found
  | found, .literal _ => List.Subset.refl found
  | found, .unary _ e | found, .group e | found, .get e _ => e.subset_collect found
  | found, .binary _ a b | found, .logical _ a b | found, .set a _ b =>
    List.Subset.trans (a.subset_collect found) (b.subset_collect _)
  | found, .var r | found, .receiver r | found, .inherited r _ => List.subset_cons_self r found
  | found, .assign r e => List.Subset.trans (List.subset_cons_self r found) (e.subset_collect _)
  | found, .call f _ args =>
    List.Subset.trans (f.subset_collect found) (Expr.subset_collectAll _ args)

theorem Expr.subset_collectAll : ∀ (found : List Reference) (es : List Expr),
    found ⊆ Expr.collectAll found es
  | found, [] => List.Subset.refl found
  | found, e :: es =>
    List.Subset.trans (e.subset_collect found) (Expr.subset_collectAll _ es)

end

mutual

theorem Stmt.subset_collect : ∀ (found : List Reference) (s : Stmt), found ⊆ s.collect found
  | found, .expression e | found, .print e | found, .declare _ (some e) | found, .leave _ (some e) =>
    e.subset_collect found
  | found, .declare _ none | found, .leave _ none => List.Subset.refl found
  | found, .block b => Stmt.subset_collectAll found b
  | found, .branch c s none | found, .loop c s =>
    List.Subset.trans (c.subset_collect found) (s.subset_collect _)
  | found, .branch c s (some a) =>
    List.Subset.trans (List.Subset.trans (c.subset_collect found) (s.subset_collect _))
      (a.subset_collect _)
  | found, .function r => Stmt.subset_collectRoutine found r
  | found, .classDecl _ none ms => Stmt.subset_collectMethods found ms
  | found, .classDecl _ (some r) ms =>
    List.Subset.trans (List.subset_cons_self r found) (Stmt.subset_collectMethods _ ms)

theorem Stmt.subset_collectAll : ∀ (found : List Reference) (l : List Stmt),
    found ⊆ Stmt.collectAll found l
  | found, [] => List.Subset.refl found
  | found, s :: l =>
    List.Subset.trans (s.subset_collect found) (Stmt.subset_collectAll _ l)

theorem Stmt.subset_collectRoutine : ∀ (found : List Reference) (r : Routine Stmt),
    found ⊆ Stmt.collectRoutine found r
  | found, ⟨_, _, body⟩ => Stmt.subset_collectAll found body

theorem Stmt.subset_collectMethods : ∀ (found : List Reference) (ms : List (Routine Stmt)),
    found ⊆ Stmt.collectMethods found ms
  | found, [] => List.Subset.refl found
  | found, r :: ms =>
    List.Subset.trans (Stmt.subset_collectRoutine found r) (Stmt.subset_collectMethods _ ms)

end

section

variable {r : Reference}

mutual

theorem Expr.name_mem_tokens : ∀ {found : List Reference} (e : Expr), r ∈ e.collect found →
    r ∈ found ∨ r.name ∈ e.tokens
  | _, .literal _, h => .inl h
  | _, .unary _ e, h | _, .get e _, h => (e.name_mem_tokens h).imp_right (List.mem_cons_of_mem _)
  | _, .group e, h => e.name_mem_tokens h
  | _, .binary _ a b, h | _, .logical _ a b, h | _, .set a _ b, h => by
    rcases b.name_mem_tokens h with h | h
    · exact (a.name_mem_tokens h).imp_right fun h =>
        List.mem_cons_of_mem _ (List.mem_append_left _ h)
    · exact .inr (List.mem_cons_of_mem _ (List.mem_append_right _ h))
  | _, .var _, h | _, .receiver _, h | _, .inherited _ _, h => by
    rcases List.mem_cons.mp h with rfl | h
    · exact .inr List.mem_cons_self
    · exact .inl h
  | _, .assign _ e, h => by
    rcases e.name_mem_tokens h with h | h
    · rcases List.mem_cons.mp h with rfl | h
      · exact .inr List.mem_cons_self
      · exact .inl h
    · exact .inr (List.mem_cons_of_mem _ h)
  | _, .call f _ args, h => by
    rcases Expr.name_mem_tokensAll args h with h | h
    · exact (f.name_mem_tokens h).imp_right fun h =>
        List.mem_cons_of_mem _ (List.mem_append_left _ h)
    · exact .inr (List.mem_cons_of_mem _ (List.mem_append_right _ h))

theorem Expr.name_mem_tokensAll : ∀ {found : List Reference} (es : List Expr),
    r ∈ Expr.collectAll found es → r ∈ found ∨ r.name ∈ Expr.tokensAll es
  | _, [], h => .inl h
  | _, e :: es, h => by
    rcases Expr.name_mem_tokensAll es h with h | h
    · exact (e.name_mem_tokens h).imp_right (List.mem_append_left _)
    · exact .inr (List.mem_append_right _ h)

end

mutual

theorem Stmt.name_mem_tokens : ∀ {found : List Reference} (s : Stmt), r ∈ s.collect found →
    r ∈ found ∨ r.name ∈ s.tokens
  | _, .expression e, h | _, .print e, h => e.name_mem_tokens h
  | _, .declare _ (some e), h | _, .leave _ (some e), h =>
    (e.name_mem_tokens h).imp_right (List.mem_cons_of_mem _)
  | _, .declare _ none, h | _, .leave _ none, h => .inl h
  | _, .block b, h => Stmt.name_mem_tokensAll b h
  | _, .branch c s none, h | _, .loop c s, h => by
    rcases s.name_mem_tokens h with h | h
    · exact (c.name_mem_tokens h).imp_right (List.mem_append_left _)
    · exact .inr (List.mem_append_right _ h)
  | _, .branch c s (some a), h => by
    rcases a.name_mem_tokens h with h | h
    · rcases s.name_mem_tokens h with h | h
      · exact (c.name_mem_tokens h).imp_right (List.mem_append_left _)
      · exact .inr (List.mem_append_right _ (List.mem_append_left _ h))
    · exact .inr (List.mem_append_right _ (List.mem_append_right _ h))
  | _, .function routine, h => Stmt.name_mem_tokensRoutine routine h
  | _, .classDecl _ none ms, h =>
    (Stmt.name_mem_tokensMethods ms h).imp_right (List.mem_cons_of_mem _)
  | _, .classDecl _ (some _) ms, h => by
    rcases Stmt.name_mem_tokensMethods ms h with h | h
    · rcases List.mem_cons.mp h with rfl | h
      · exact .inr (List.mem_cons_of_mem _ List.mem_cons_self)
      · exact .inl h
    · exact .inr (List.mem_cons_of_mem _ (List.mem_cons_of_mem _ h))

theorem Stmt.name_mem_tokensAll : ∀ {found : List Reference} (l : List Stmt),
    r ∈ Stmt.collectAll found l → r ∈ found ∨ r.name ∈ Stmt.tokensAll l
  | _, [], h => .inl h
  | _, s :: l, h => by
    rcases Stmt.name_mem_tokensAll l h with h | h
    · exact (s.name_mem_tokens h).imp_right (List.mem_append_left _)
    · exact .inr (List.mem_append_right _ h)

theorem Stmt.name_mem_tokensRoutine : ∀ {found : List Reference} (routine : Routine Stmt),
    r ∈ Stmt.collectRoutine found routine → r ∈ found ∨ r.name ∈ Stmt.tokensRoutine routine
  | _, ⟨_, _, body⟩, h => (Stmt.name_mem_tokensAll body h).imp_right fun h =>
    List.mem_cons_of_mem _ (List.mem_append_right _ h)

theorem Stmt.name_mem_tokensMethods : ∀ {found : List Reference} (ms : List (Routine Stmt)),
    r ∈ Stmt.collectMethods found ms → r ∈ found ∨ r.name ∈ Stmt.tokensMethods ms
  | _, [], h => .inl h
  | _, routine :: ms, h => by
    rcases Stmt.name_mem_tokensMethods ms h with h | h
    · exact (Stmt.name_mem_tokensRoutine routine h).imp_right (List.mem_append_left _)
    · exact .inr (List.mem_append_right _ h)

end

end

/-! ## Labels around a node -/

/-- Open scopes have declared at most what is in their labels. -/
def Labels (scopes : List (Bindings Bool)) (κ : List (List String)) : Prop :=
  List.Forall₂ (fun names label => ∀ name, names.contains name = true →
    name ∈ label ∨ Implicit name) scopes κ

/-- The labels around a node and the names declared inside it are different names, all of
them among the local names `L` of the program; none of those is a global in `G`. -/
structure Apart (L G : List String) (κ : List (List String)) (inner : List String) : Prop where
  nodup : (κ.flatten ++ inner).Nodup
  subset : κ.flatten ++ inner ⊆ L
  separate : ∀ name ∈ L, name ∉ G

variable {L G : List String} {scopes scopes' : List (Bindings Bool)} {κ : List (List String)}
  {inner inner' : List String}

namespace Apart

theorem sublist (h : Apart L G κ inner) (hs : inner'.Sublist inner) : Apart L G κ inner' :=
  have hs := hs.append_left κ.flatten
  ⟨h.nodup.sublist hs, List.Subset.trans hs.subset h.subset, h.separate⟩

theorem left (h : Apart L G κ (inner ++ inner')) : Apart L G κ inner :=
  h.sublist (List.sublist_append_left _ _)

theorem right (h : Apart L G κ (inner ++ inner')) : Apart L G κ inner' :=
  h.sublist (List.sublist_append_right _ _)

/-- The names of a scope move to the labels when the scope is entered. -/
theorem push {label : List String} (h : Apart L G κ (label ++ inner)) :
    Apart L G (label :: κ) inner := by
  have hperm : (κ.flatten ++ (label ++ inner)).Perm ((label :: κ).flatten ++ inner) := by
    rw [List.flatten_cons, ← List.append_assoc]
    exact List.perm_append_comm.append_right inner
  exact ⟨hperm.nodup_iff.mp h.nodup, List.Subset.trans hperm.symm.subset h.subset, h.separate⟩

theorem push_nil (h : Apart L G κ inner) : Apart L G ([] :: κ) inner :=
  push h

/-- A name is in one label at most. -/
theorem unique (h : Apart L G κ inner) {i j : Nat} {label label' : List String} {name : String}
    (hi : κ[i]? = some label) (hn : name ∈ label) (hj : κ[j]? = some label') (hn' : name ∈ label') :
    i = j := by
  obtain ⟨-, hdisjoint⟩ := List.nodup_flatten.mp (List.nodup_append.mp h.nodup).1
  refine Classical.byContradiction fun hne => ?_
  obtain ⟨hilt, rfl⟩ := List.getElem?_eq_some_iff.mp hi
  obtain ⟨hjlt, rfl⟩ := List.getElem?_eq_some_iff.mp hj
  rcases Nat.lt_or_gt_of_ne hne with hlt | hlt
  · exact List.pairwise_iff_getElem.mp hdisjoint i j hilt hjlt hlt hn hn'
  · exact List.pairwise_iff_getElem.mp hdisjoint j i hjlt hilt hlt hn' hn

theorem mem (h : Apart L G κ inner) {i : Nat} {label : List String} {name : String}
    (hi : κ[i]? = some label) (hn : name ∈ label) : name ∈ L :=
  h.subset (List.mem_append_left _ (List.mem_flatten_of_mem (List.mem_of_getElem? hi) hn))

end Apart

namespace Labels

theorem push (h : Labels scopes κ) (label : List String) : Labels (.empty :: scopes) (label :: κ) :=
  .cons (fun name hn => by simp [Bindings.contains] at hn) h

/-- The scope of `this` or `super` declares nothing. -/
theorem pushImplicit (h : Labels scopes κ) {key : String} (hkey : Implicit key) :
    Labels (Bindings.empty.insert key true :: scopes) ([] :: κ) := by
  refine .cons (fun name hn => .inr ?_) h
  rw [Bindings.contains, Bindings.get?_insert] at hn
  split at hn
  · rename_i heq
    exact heq ▸ hkey
  · cases hn

theorem mark (h : Labels scopes κ) {n : Token} (hn : n.lexeme ∈ κ.headD G) (done : Bool) :
    Labels (mark scopes n done) κ := by
  cases h with
  | nil => exact .nil
  | cons hnames h =>
    refine .cons (fun name hname => ?_) h
    rw [Bindings.contains, Bindings.get?_insert] at hname
    split at hname
    · rename_i heq
      exact .inl (heq ▸ hn)
    · exact hnames name hname

theorem bound (h : Labels scopes κ) {n : Token} (hn : n.lexeme ∈ κ.headD G) :
    Labels (bound scopes n) κ :=
  (h.mark hn false).mark hn true

theorem params {label : List String} (h : Labels scopes (label :: κ)) {ps : List Token}
    (hps : Params scopes ps scopes') (hmem : ∀ p ∈ ps, p.lexeme ∈ label) :
    Labels scopes' (label :: κ) := by
  induction hps with
  | nil => exact h
  | cons _ _ ih =>
    obtain ⟨hp, hrest⟩ := List.forall_mem_cons.mp hmem
    exact ih (h.bound (G := []) hp) hrest

/-- A name that is found at a distance is in the label there. -/
theorem mem_of_located (h : Labels scopes κ) {r : Reference} (hd : r.depth = none) {i : Nat}
    (hi : (located scopes r).depth = some i) :
    ∃ label, κ[i]? = some label ∧ (r.name.lexeme ∈ label ∨ Implicit r.name.lexeme) := by
  obtain ⟨names, hnames, hc⟩ := located_depth hd hi
  obtain ⟨hlt, rfl⟩ := List.getElem?_eq_some_iff.mp hnames
  have hlt' : i < κ.length := h.length_eq ▸ hlt
  exact ⟨κ[i], List.getElem?_eq_getElem hlt', List.Forall₂.get h hlt hlt' _ hc⟩

end Labels

/-! ## Resolved programs -/

/-- What is asked of an occurrence in a program with the local names `L`. -/
structure Reference.Recorded (L : List String) (r : Reference) : Prop where
  spelled : r.name.Spelled
  depth : r.name.lexeme ∈ L → r.depth ≠ none

theorem located_located (hκ : Labels scopes κ) (hapart : Apart L G κ inner)
    {r : Reference} (hname : r.name.IsName) (hd : r.depth = none)
    (hr : (located scopes r).Recorded L) : (located scopes r).Located G κ := by
  have hspelled := hr.spelled
  have hdepth : ∀ i, (located scopes r).depth = some i →
      ∃ label, κ[i]? = some label ∧ r.name.lexeme ∈ label := by
    intro i hi
    rw [located_name] at hspelled
    obtain ⟨label, hlabel, hmem⟩ := hκ.mem_of_located hd hi
    exact ⟨label, hlabel, hmem.resolve_right (not_implicit hspelled hname)⟩
  refine ⟨?_, fun i label hi hmem => ?_, fun hglobal => ?_⟩
  · rw [located_name] at hspelled ⊢
    exact not_implicit hspelled hname
  · cases hj : (located scopes r).depth with
    | none => exact absurd hj (hr.depth (hapart.mem hi hmem))
    | some j =>
      obtain ⟨label', hj', hmem'⟩ := hdepth j hj
      rw [located_name] at hmem
      rw [hapart.unique hi hmem hj' hmem']
  · cases hj : (located scopes r).depth with
    | none => rfl
    | some j =>
      obtain ⟨label, hj', hmem⟩ := hdepth j hj
      rw [located_name] at hglobal
      exact absurd hglobal (hapart.separate _ (hapart.mem hj' hmem))

mutual

theorem Expr.Scoped.isLocated {body : ClassBody} (hκ : Labels scopes κ) (hapart : Apart L G κ inner) :
    ∀ {e e' : Expr} {found : List Reference}, Expr.Scoped body scopes e e' → e.Bare →
    (∀ r ∈ e'.collect found, r.Recorded L) → e'.Located G κ
  | _, _, _, .literal _, _, _ | _, _, _, .receiver _, _, _ | _, _, _, .inherited _, _, _ => trivial
  | _, _, _, .group h, .group hb, hr | _, _, _, .unary h, .unary _ hb, hr
  | _, _, _, .get h, .get hb, hr => h.isLocated hκ hapart hb hr
  | _, .binary _ a b, found, .binary h h', .binary _ hb hb', hr
  | _, .logical _ a b, found, .logical h h', .logical hb hb', hr
  | _, .set a _ b, found, .set h h', .set hb hb', hr =>
    ⟨h.isLocated hκ hapart hb fun r hmem => hr r (b.subset_collect (a.collect found) hmem),
      h'.isLocated hκ hapart hb' hr⟩
  | _, _, _, .var _, .var hn, hr => located_located hκ hapart hn rfl (hr _ List.mem_cons_self)
  | _, .assign _ e, found, .assign h, .assign hn hb, hr =>
    ⟨located_located hκ hapart hn rfl (hr _ (e.subset_collect (_ :: found) List.mem_cons_self)),
      h.isLocated hκ hapart hb hr⟩
  | _, .call f _ args, found, .call h h', .call hb hb', hr =>
    ⟨h.isLocated hκ hapart hb fun r hmem => hr r (Expr.subset_collectAll (f.collect found) args hmem),
      h'.isLocated hκ hapart hb' hr⟩

theorem Expr.ScopedAll.isLocated {body : ClassBody} (hκ : Labels scopes κ)
    (hapart : Apart L G κ inner) : ∀ {es es' : List Expr} {found : List Reference},
    Expr.ScopedAll body scopes es es' → (∀ e ∈ es, e.Bare) →
    (∀ r ∈ Expr.collectAll found es', r.Recorded L) → Expr.LocatedAll G κ es'
  | _, _, _, .nil, _, _ => trivial
  | _, e :: es, found, .cons h h', hb, hr =>
    have hb := List.forall_mem_cons.mp hb
    ⟨h.isLocated hκ hapart hb.1 fun r hmem => hr r (Expr.subset_collectAll (e.collect found) es hmem),
      h'.isLocated hκ hapart hb.2 hr⟩

end

theorem Expr.scoped?_located {body : ClassBody} (hκ : Labels scopes κ) (hapart : Apart L G κ inner)
    {e e' : Option Expr} (h : Option.Rel (Expr.Scoped body scopes) e e') (hb : ∀ x ∈ e, x.Bare)
    (found : List Reference) (hr : ∀ x ∈ e', ∀ r ∈ x.collect found, r.Recorded L) :
    Expr.Located? G κ e' := by
  cases h with
  | none => exact trivial
  | some h => exact h.isLocated hκ hapart (hb _ rfl) (hr _ rfl)

theorem Stmt.mem_label_params {params : List Token} {p : Token} (hp : p ∈ params) (body : List Stmt) :
    p.lexeme ∈ Stmt.label (Stmt.declaredIn params body) := by
  refine List.mem_map.mpr ⟨(p, true), List.mem_append_left _ ?_, rfl⟩
  exact List.mem_map_of_mem hp

theorem Stmt.mem_label_body {body : List Stmt} {n : Token × Bool} (hn : n ∈ Stmt.declaredAll body)
    (params : List Token) : n.1.lexeme ∈ Stmt.label (Stmt.declaredIn params body) :=
  List.mem_map.mpr ⟨n, List.mem_append_right _ hn, rfl⟩

mutual

theorem Stmt.Scoped.isLocated : ∀ {place : Place} {scopes scopes' : List (Bindings Bool)}
    {κ : List (List String)} {s s' : Stmt} {found : List Reference},
    Stmt.Scoped place scopes s s' scopes' → s.Bare → Labels scopes κ → Apart L G κ s'.inner →
    (∀ n ∈ s'.declared, n.1.lexeme ∈ κ.headD G) → (∀ r ∈ s'.collect found, r.Recorded L) →
    s'.Located G κ ∧ Labels scopes' κ
  | _, _, _, _, _, _, _, .expression h, .expression hb, hκ, ha, _, hr
  | _, _, _, _, _, _, _, .print h, .print hb, hκ, ha, _, hr => ⟨h.isLocated hκ ha hb hr, hκ⟩
  | _, _, _, _, _, _, found, .declare _ h, .declare _ hb, hκ, ha, hd, hr => by
    have hn := hd _ List.mem_cons_self
    refine ⟨⟨hn, Expr.scoped?_located (hκ.mark hn false) ha h hb found fun x hx => ?_⟩,
      hκ.bound hn⟩
    cases hx
    exact hr
  | _, _, _, _, _, _, _, .block h, .block hb, hκ, ha, _, hr =>
    ⟨h.isLocated hb (hκ.push _) ha.push (fun _ hn => List.mem_map.mpr ⟨_, hn, rfl⟩) hr, hκ⟩
  | _, _, _, _, _, _, found, .leave _ h, .leave hb, hκ, ha, _, hr => by
    refine ⟨Expr.scoped?_located hκ ha h hb found fun x hx => ?_, hκ⟩
    cases hx
    exact hr
  | _, _, _, _, _, .branch c s none, found, .branch hc h, .branch hcb hb hq _ _, hκ, ha, _, hr
  | _, _, _, _, _, .loop c s, found, .loop hc h, .loop hcb hb hq, hκ, ha, _, hr => by
    have hquiet := h.declared_of_quiet hq
    obtain ⟨hs, hκ'⟩ := h.isLocated hb hκ ha (by rw [hquiet]; exact nofun) hr
    have hr' := fun r hmem => hr r (s.subset_collect (c.collect found) hmem)
    exact ⟨⟨hc.isLocated hκ ha hcb hr', hs⟩, hκ'⟩
  | _, _, _, _, _, .branch c s (some a), found, .choice hc h h', .branch hcb hb hq hb' hq', hκ, ha, _,
      hr => by
    have hquiet := h.declared_of_quiet hq
    have hquiet' := h'.declared_of_quiet (hq' _ rfl)
    have hrs := fun r hmem => hr r (a.subset_collect (s.collect (c.collect found)) hmem)
    have hrc := fun r hmem => hrs r (s.subset_collect (c.collect found) hmem)
    obtain ⟨hs, hκ'⟩ := h.isLocated hb hκ ha.left (by rw [hquiet]; exact nofun) hrs
    obtain ⟨hs', hκ''⟩ := h'.isLocated (hb' _ rfl) hκ' ha.right (by rw [hquiet']; exact nofun) hr
    exact ⟨⟨hc.isLocated hκ ha hcb hrc, hs, hs'⟩, hκ''⟩
  | _, _, _, _, _, .function ⟨_, ps, b⟩, _, .function _ hps h, .function _ _ hb, hκ, ha, hd, hr => by
    have hn := hd _ List.mem_cons_self
    have hκ' := ((hκ.bound hn).push (Stmt.label (Stmt.declaredIn ps b))).params hps
      fun p hp => Stmt.mem_label_params hp b
    exact ⟨⟨hn, h.isLocated hb hκ' ha.push (fun n hn => Stmt.mem_label_body hn ps) hr⟩, hκ.bound hn⟩
  | _, _, _, _, _, _, _, .base _ h, .classDecl _ _ _ hb, hκ, ha, hd, hr => by
    have hn := hd _ List.mem_cons_self
    exact ⟨⟨hn, h.isLocated hb ((hκ.bound hn).pushImplicit (.inl rfl)) ha.push_nil hr⟩, hκ.bound hn⟩
  | _, _, _, _, _, .classDecl _ (some _) ms, found, .derived _ _ h, .classDecl _ hsuper _ hb, hκ, ha,
      hd, hr => by
    have hn := hd _ List.mem_cons_self
    have hκ' := hκ.bound hn
    obtain ⟨hdepth, hname⟩ := hsuper _ rfl
    have hrecorded := hr _ (Stmt.subset_collectMethods (_ :: found) ms List.mem_cons_self)
    exact ⟨⟨hn, located_located hκ' ha hname hdepth hrecorded, h.isLocated hb
      ((hκ'.pushImplicit (.inr rfl)).pushImplicit (.inl rfl)) ha.push_nil.push_nil hr⟩, hκ'⟩

theorem Stmt.ScopedAll.isLocated : ∀ {place : Place} {scopes scopes' : List (Bindings Bool)}
    {κ : List (List String)} {l l' : List Stmt} {found : List Reference},
    Stmt.ScopedAll place scopes l l' scopes' → (∀ s ∈ l, s.Bare) → Labels scopes κ →
    Apart L G κ (Stmt.innerAll l') → (∀ n ∈ Stmt.declaredAll l', n.1.lexeme ∈ κ.headD G) →
    (∀ r ∈ Stmt.collectAll found l', r.Recorded L) → Stmt.LocatedAll G κ l'
  | _, _, _, _, _, _, _, .nil, _, _, _, _, _ => trivial
  | _, _, _, _, _, s :: l, found, .cons h h', hb, hκ, ha, hd, hr => by
    obtain ⟨hbs, hbl⟩ := List.forall_mem_cons.mp hb
    obtain ⟨hs, hκ'⟩ := h.isLocated hbs hκ ha.left (fun n hn => hd n (List.mem_append_left _ hn))
      fun r hmem => hr r (Stmt.subset_collectAll (s.collect found) l hmem)
    exact ⟨hs, h'.isLocated hbl hκ' ha.right (fun n hn => hd n (List.mem_append_right _ hn)) hr⟩

theorem Stmt.ScopedMethods.isLocated : ∀ {body : ClassBody} {scopes : List (Bindings Bool)}
    {κ : List (List String)} {ms ms' : List (Routine Stmt)} {found : List Reference},
    Stmt.ScopedMethods body scopes ms ms' → (∀ m ∈ ms, ∀ s ∈ m.body, s.Bare) → Labels scopes κ →
    Apart L G κ (Stmt.innerMethods ms') → (∀ r ∈ Stmt.collectMethods found ms', r.Recorded L) →
    Stmt.LocatedMethods G κ ms'
  | _, _, _, _, _, _, .nil, _, _, _, _ => trivial
  | _, _, _, _, ⟨_, ps, b⟩ :: ms, found, .cons hps h h', hb, hκ, ha, hr => by
    obtain ⟨hbs, hb⟩ := List.forall_mem_cons.mp hb
    have hκ' := (hκ.push (Stmt.label (Stmt.declaredIn ps b))).params hps
      fun p hp => Stmt.mem_label_params hp b
    exact ⟨h.isLocated hbs hκ' ha.left.push (fun n hn => Stmt.mem_label_body hn ps)
      fun r hmem => hr r (Stmt.subset_collectMethods (Stmt.collectAll found b) ms hmem),
      h'.isLocated hb hκ ha.right hr⟩

end

end Treewalk
