import Treewalk.Proofs.Scoping.Visits
import Treewalk.Proofs.Units

/-!
# Where `this` and `super` are found

No declaration binds `this` or `super`: names are never spelled like reserved words
(`Accepts.spelled`). Inside a class the scope of `this` is therefore found past any
number of blocks and functions, and with a superclass the scope of `super` right
around it (`Placed`).
-/

namespace Treewalk

open Resolver

/-- Symbols are spelled in their one way, and names like no reserved word. -/
structure Token.Spelled (t : Token) : Prop where
  symbol {s : Symbol} : t.Is s → t.lexeme = s.spelling
  name : t.IsName → ∀ s ∈ Symbol.words, t.lexeme ≠ s.spelling

theorem Accepts.spelled {source : String} {read resolved : Program}
    (h : Accepts source read resolved) : ∀ t ∈ Stmt.tokensAll read, t.Spelled := by
  intro t ht
  have hmem : t ∈ tokensIn source := by
    refine h.mem_tokensIn t ?_
    rwa [Stmt.ScopedAll.tokens_eq (Program.resolve_eq_iff.mp h.scoping)]
  exact ⟨lexeme_of_symbol hmem, fun hn _ => lexeme_ne_of_name hmem hn⟩

namespace Resolver

/-- The names that are bound without being declared. -/
def Implicit (name : String) : Prop :=
  name = "this" ∨ name = "super"

theorem not_implicit {t : Token} (h : t.Spelled) (hn : t.IsName) : ¬ Implicit t.lexeme := by
  rintro (heq | heq)
  · exact h.name hn .thisWord (by decide) heq
  · exact h.name hn .superWord (by decide) heq

variable {κ κ' : List (Bindings Bool)} {name : String} {i : Nat}

/-- The name is marked in the open scope at a distance. -/
def Shows (κ : List (Bindings Bool)) (i : Nat) (name : String) : Prop :=
  ∃ names, κ[i]? = some names ∧ names.get? name = some true

/-- The name is marked in the innermost open scope that has it. -/
structure Nearest (κ : List (Bindings Bool)) (i : Nat) (name : String) : Prop where
  distance : distance? κ name = some i
  shows : Shows κ i name

theorem nearest_zero {names : Bindings Bool} (h : names.get? name = some true) :
    Nearest (names :: κ) 0 name := by
  refine ⟨?_, names, rfl, h⟩
  simp [distance?, List.findIdx?_cons, Bindings.contains, h]

theorem Nearest.cons (h : Nearest κ i name) {names : Bindings Bool} (hn : names.get? name = none) :
    Nearest (names :: κ) (i + 1) name := by
  have hc : names.contains name = false := by rw [Bindings.contains, hn]; rfl
  have hd : List.findIdx? (fun scope => scope.contains name) κ = some i := h.distance
  exact ⟨by simp [distance?, List.findIdx?_cons, hc, hd], h.shows⟩

/-- Declaring another name changes nothing. -/
theorem Nearest.mark (h : Nearest κ i name) {t : Token} (hne : t.lexeme ≠ name) (done : Bool) :
    Nearest (mark κ t done) i name := by
  obtain ⟨hd, names, hi, hn⟩ := h
  cases κ with
  | nil => simp at hi
  | cons scope rest =>
    have hget : (scope.insert t.lexeme done).get? name = scope.get? name := by
      rw [Bindings.get?_insert, if_neg hne]
    refine ⟨?_, ?_⟩
    · simpa [Resolver.mark, distance?, List.findIdx?_cons, Bindings.contains, hget] using hd
    · cases i with
      | zero =>
        obtain rfl : scope = names := by simpa using hi
        exact ⟨_, rfl, hget.trans hn⟩
      | succ i => exact ⟨names, hi, hn⟩

/-- Inside a class `this` is found, and `super` one scope further out if there is a
superclass. -/
def Placed : ClassBody → List (Bindings Bool) → Prop
  | .none, _ => True
  | .base, κ => ∃ i, Nearest κ i "this"
  | .derived, κ => ∃ i, Nearest κ i "this" ∧ Nearest κ (i + 1) "super"

theorem placed_base (κ : List (Bindings Bool)) : Placed .base (thisScope :: κ) :=
  ⟨0, nearest_zero (Bindings.get?_insert_self _ _ _)⟩

theorem placed_derived (κ : List (Bindings Bool)) :
    Placed .derived (thisScope :: superScope :: κ) := by
  have hsuper : Nearest (superScope :: κ) 0 "super" :=
    nearest_zero (Bindings.get?_insert_self _ _ _)
  exact ⟨0, nearest_zero (Bindings.get?_insert_self _ _ _), hsuper.cons rfl⟩

namespace Placed

variable {body : ClassBody}

theorem push (h : Placed body κ) : Placed body (.empty :: κ) := by
  cases body with
  | none => trivial
  | base =>
    obtain ⟨i, hi⟩ := h
    exact ⟨i + 1, hi.cons rfl⟩
  | derived =>
    obtain ⟨i, hi, hs⟩ := h
    exact ⟨i + 1, hi.cons rfl, hs.cons rfl⟩

theorem mark (h : Placed body κ) {t : Token} (ht : ¬ Implicit t.lexeme) (done : Bool) :
    Placed body (mark κ t done) := by
  have hthis : t.lexeme ≠ "this" := fun heq => ht (.inl heq)
  have hsuper : t.lexeme ≠ "super" := fun heq => ht (.inr heq)
  cases body with
  | none => trivial
  | base =>
    obtain ⟨i, hi⟩ := h
    exact ⟨i, hi.mark hthis done⟩
  | derived =>
    obtain ⟨i, hi, hs⟩ := h
    exact ⟨i, hi.mark hthis done, hs.mark hsuper done⟩

theorem bound (h : Placed body κ) {t : Token} (ht : ¬ Implicit t.lexeme) :
    Placed body (bound κ t) :=
  (h.mark ht false).mark ht true

theorem params (h : Placed body κ) {ps : List Token} (hps : Params κ ps κ')
    (hn : ∀ p ∈ ps, ¬ Implicit p.lexeme) : Placed body κ' := by
  induction hps with
  | nil => exact h
  | cons _ _ ih =>
    obtain ⟨hp, hn⟩ := List.forall_mem_cons.mp hn
    exact ih (h.bound hp) hn

/-- A `this` that the resolver accepts has the distance of a scope that binds it. -/
theorem receiver (h : Placed body κ) (hb : body ≠ .none) {t : Token} (ht : t.lexeme = "this") :
    ∃ i, (located κ ⟨t, none⟩).depth = some i ∧ Shows κ i "this" := by
  have hnear : ∃ i, Nearest κ i "this" := by
    cases body with
    | none => exact absurd rfl hb
    | base => exact h
    | derived =>
      obtain ⟨i, hi, _⟩ := h
      exact ⟨i, hi⟩
  obtain ⟨i, hi⟩ := hnear
  exact ⟨i, by simp only [located, ht, hi.distance], hi.shows⟩

/-- So has a `super`, and `this` is bound one scope further in. -/
theorem inherited (h : Placed .derived κ) {t : Token} (ht : t.lexeme = "super") :
    ∃ i, (located κ ⟨t, none⟩).depth = some (i + 1) ∧ Shows κ i "this" ∧ Shows κ (i + 1) "super" := by
  obtain ⟨i, hi, hs⟩ := h
  exact ⟨i, by simp only [located, ht, hs.distance], hi.shows, hs.shows⟩

end Placed

end Resolver

end Treewalk
