import Mathlib.Data.List.Forall2
import Treewalk.Machine
import Treewalk.Proofs.Lockstep
import Treewalk.Proofs.Scoping.Visits

/-!
# Chains of scopes

The scopes around a running node form a chain that ends at the globals. A chain
agrees with the scopes that the resolver had open at the node if both are equally
long and each scope of the chain binds what is marked in its counterpart. Scopes
are never unlinked and never lose a name while a program runs (`Scopes.Grows`), so
a chain that agrees goes on to agree.
-/

namespace Treewalk

open Resolver

namespace Scopes

/-- The scopes from `id` outward, up to but not including the globals. -/
inductive Chain (σ : Scopes) : ScopeId → List ScopeId → Prop
  | globals : Chain σ Machine.globals []
  | link {id parent : ScopeId} {rest : List ScopeId} : id ≠ Machine.globals →
    σ.parent? id = some parent → Chain σ parent rest → Chain σ id (id :: rest)

/-- Each scope of a chain binds what is marked in its counterpart. -/
def Binds (σ : Scopes) (chain : List ScopeId) (κ : List (Bindings Bool)) : Prop :=
  List.Forall₂ (fun id names => ∀ name, names.get? name = some true → σ.binds id name = true)
    chain κ

/-- What is said of the scopes of `σ` still holds in `σ'`. -/
structure Grows (σ σ' : Scopes) : Prop where
  next : σ.next ≤ σ'.next
  parent : ∀ id < σ.next, σ'.parent? id = σ.parent? id
  binds : ∀ id name, σ.binds id name = true → σ'.binds id name = true

theorem Grows.refl (σ : Scopes) : σ.Grows σ :=
  ⟨Nat.le_refl _, fun _ _ => rfl, fun _ _ h => h⟩

theorem Grows.trans {σ σ₁ σ₂ : Scopes} (h : σ.Grows σ₁) (h' : σ₁.Grows σ₂) : σ.Grows σ₂ :=
  ⟨Nat.le_trans h.next h'.next,
    fun id hlt => (h'.parent id (Nat.lt_of_lt_of_le hlt h.next)).trans (h.parent id hlt),
    fun id n hn => h'.binds id n (h.binds id n hn)⟩

theorem lt_next_of_parent? {σ : Scopes} {id p : ScopeId} (h : σ.parent? id = some p) :
    id < σ.next := by
  refine Classical.byContradiction fun hlt => ?_
  rw [parent?, Array.getElem?_eq_none (Nat.not_lt.mp hlt)] at h
  cases h

theorem lt_next_of_binds {σ : Scopes} {id : ScopeId} {name : String} (h : σ.binds id name = true) :
    id < σ.next := by
  refine Classical.byContradiction fun hlt => ?_
  rw [binds, value?_of_next_le (Nat.not_lt.mp hlt)] at h
  cases h

/-- The scope that a name is found in binds it. -/
theorem binds_of_target? {σ : Scopes} {s : ScopeId} {d : Option Nat} {name : String}
    {id : ScopeId} (h : σ.target? s d name = some id) : σ.binds id name = true := by
  cases d with
  | some d => exact (Option.filter_eq_some_iff.mp h).2
  | none =>
    have hwithin : ∀ steps s, σ.ownerWithin name steps s = some id → σ.binds id name = true := by
      intro steps
      induction steps with
      | zero => exact fun _ h => by cases h
      | succ steps ih =>
        intro s h
        rw [ownerWithin] at h
        split at h
        · rename_i hb
          cases h
          exact hb
        · obtain ⟨p, _, hp⟩ := Option.bind_eq_some_iff.mp h
          exact ih p hp
    exact hwithin _ _ h

theorem target?_lt_next {σ : Scopes} {s : ScopeId} {d : Option Nat} {name : String}
    {id : ScopeId} (h : σ.target? s d name = some id) : id < σ.next :=
  lt_next_of_binds (binds_of_target? h)

theorem grows_push (σ : Scopes) (parent : Option ScopeId) : σ.Grows (σ.push parent) := by
  refine ⟨by simp, fun id hlt => ?_, fun id name h => by rwa [binds, value?_push]⟩
  rw [parent?_push, if_neg (Nat.ne_of_lt hlt)]

theorem binds_define {σ : Scopes} {id : ScopeId} (h : id < σ.next) (name : String) (v : Value)
    (other : ScopeId) (key : String) : (σ.define id name v).binds other key =
      (decide (id = other ∧ name = key) || σ.binds other key) := by
  rw [binds, value?_define h]
  split
  · rename_i hc
    simp [hc]
  · rename_i hc
    simp [binds, hc]

theorem grows_define {σ : Scopes} {id : ScopeId} (h : id < σ.next) (name : String) (v : Value) :
    σ.Grows (σ.define id name v) := by
  refine ⟨by simp, fun id _ => parent?_define _ _ _ _ id, fun other key hk => ?_⟩
  rw [binds_define h, hk, Bool.or_true]

theorem grows_bindAll {σ : Scopes} {id : ScopeId} (h : id < σ.next) (binds : List (Token × Value)) :
    σ.Grows (σ.bindAll id binds) := by
  induction binds generalizing σ with
  | nil => exact .refl σ
  | cons b binds ih => exact (grows_define h _ _).trans (ih (by rwa [next_define]))

theorem Chain.mono {σ σ' : Scopes} (h : σ.Grows σ') {id : ScopeId} {chain : List ScopeId}
    (hc : σ.Chain id chain) : σ'.Chain id chain := by
  induction hc with
  | globals => exact .globals
  | link hne hp _ ih =>
    exact .link hne ((h.parent _ (lt_next_of_parent? hp)).trans hp) ih

theorem Binds.mono {σ σ' : Scopes} (h : σ.Grows σ') {chain : List ScopeId}
    {κ : List (Bindings Bool)} (hb : σ.Binds chain κ) : σ'.Binds chain κ :=
  List.Forall₂.imp (fun _ _ hid name hn => h.binds _ _ (hid name hn)) hb

/-- The scope at a distance is the one that stands there in the chain. -/
theorem Chain.ancestor? {σ : Scopes} {id : ScopeId} {chain : List ScopeId} (hc : σ.Chain id chain)
    {d : Nat} {a : ScopeId} (h : chain[d]? = some a) : σ.ancestor? id d = some a := by
  induction hc generalizing d with
  | globals => simp at h
  | @link id parent rest _ hp _ ih =>
    cases d with
    | zero => simpa [Scopes.ancestor?] using h
    | succ d =>
      rw [Scopes.ancestor?, hp]
      exact ih (by simpa using h)

/-- The globals are a scope, and the outermost one. -/
structure Rooted (σ : Scopes) : Prop where
  pos : Machine.globals < σ.next
  parent : σ.parent? Machine.globals = none

theorem Rooted.mono {σ σ' : Scopes} (h : σ.Grows σ') (hr : σ.Rooted) : σ'.Rooted :=
  ⟨Nat.lt_of_lt_of_le hr.pos h.next, (h.parent _ hr.pos).trans hr.parent⟩

/-- A name is found among the globals or not at all. -/
theorem Rooted.owner? {σ : Scopes} (h : σ.Rooted) (name : String) :
    σ.owner? Machine.globals name =
      if σ.binds Machine.globals name then some Machine.globals else none := by
  obtain ⟨n, hn⟩ := Nat.exists_eq_succ_of_ne_zero (Nat.ne_of_gt h.pos)
  rw [Scopes.owner?, show σ.all.size = n + 1 from hn, ownerWithin, h.parent]
  rfl

theorem Chain.lt_next {σ : Scopes} {id : ScopeId} {chain : List ScopeId} (hr : σ.Rooted)
    (hc : σ.Chain id chain) : id < σ.next := by
  cases hc with
  | globals => exact hr.pos
  | link _ hp _ => exact lt_next_of_parent? hp

theorem Chain.mem_lt_next {σ : Scopes} {id : ScopeId} {chain : List ScopeId}
    (hc : σ.Chain id chain) : ∀ a ∈ chain, a < σ.next := by
  induction hc with
  | globals => exact fun _ h => nomatch h
  | link _ hp _ ih => exact List.forall_mem_cons.mpr ⟨lt_next_of_parent? hp, ih⟩

theorem Chain.mem_ne_globals {σ : Scopes} {id : ScopeId} {chain : List ScopeId}
    (hc : σ.Chain id chain) : ∀ a ∈ chain, a ≠ Machine.globals := by
  induction hc with
  | globals => exact fun _ h => nomatch h
  | link hne _ _ ih => exact List.forall_mem_cons.mpr ⟨hne, ih⟩

/-- A new scope goes in front of the chain of its parent. -/
theorem Chain.push {σ : Scopes} {id : ScopeId} {chain : List ScopeId} (hr : σ.Rooted)
    (hc : σ.Chain id chain) : (σ.push (some id)).Chain σ.next (σ.next :: chain) := by
  refine .link (Nat.ne_of_gt hr.pos) ?_ (hc.mono (σ.grows_push (some id)))
  rw [parent?_push, if_pos rfl]

/-- A scope that runs: its chain agrees with the open scopes `κ`. -/
structure Stands (σ : Scopes) (κ : List (Bindings Bool)) (id : ScopeId) : Prop where
  rooted : σ.Rooted
  chain : ∃ chain, σ.Chain id chain ∧ σ.Binds chain κ

namespace Stands

variable {σ σ' : Scopes} {κ κ' : List (Bindings Bool)} {id : ScopeId}

theorem mono (h : σ.Grows σ') (hs : σ.Stands κ id) : σ'.Stands κ id := by
  obtain ⟨chain, hc, hb⟩ := hs.chain
  exact ⟨hs.rooted.mono h, chain, hc.mono h, hb.mono h⟩

theorem lt_next (hs : σ.Stands κ id) : id < σ.next := by
  obtain ⟨chain, hc, _⟩ := hs.chain
  exact hc.lt_next hs.rooted

/-- A new scope, inside one that stands. -/
theorem push (hs : σ.Stands κ id) : (σ.push (some id)).Stands (.empty :: κ) σ.next := by
  have hg := σ.grows_push (some id)
  obtain ⟨chain, hc, hb⟩ := hs.chain
  exact ⟨hs.rooted.mono hg, σ.next :: chain, hc.push hs.rooted,
    .cons (fun name h => by simp at h) (hb.mono hg)⟩

/-- What is known of the parent is known one scope further in. -/
theorem under {names : Bindings Bool} {p : ScopeId} (hs : σ.Stands (names :: κ) id)
    (hp : σ.parent? id = some p) (h : σ.Stands κ' p) : σ.Stands (names :: κ') id := by
  obtain ⟨chain, hc, hb⟩ := hs.chain
  obtain ⟨chain', hc', hb'⟩ := h.chain
  cases hb with
  | cons hid _ =>
    cases hc with
    | link hne _ _ => exact ⟨hs.rooted, _, .link hne hp hc', .cons hid hb'⟩

/-- Defining a name lets it be marked in the innermost scope. -/
theorem define_mark (hs : σ.Stands κ id) (name : Token) (v : Value) :
    (σ.define id name.lexeme v).Stands (mark κ name true) id := by
  have hlt := hs.lt_next
  have hg := grows_define hlt name.lexeme v
  obtain ⟨chain, hc, hb⟩ := hs.chain
  refine ⟨hs.rooted.mono hg, chain, hc.mono hg, ?_⟩
  cases hc with
  | globals =>
    cases hb
    exact .nil
  | link _ _ _ =>
    cases hb with
    | cons hid hrest =>
      refine .cons (fun key hk => ?_) (Binds.mono hg hrest)
      rw [binds_define hlt]
      rw [Bindings.get?_insert] at hk
      split at hk
      · rename_i he
        simp [he]
      · rw [hid key hk, Bool.or_true]

/-- Fewer marks in the open scopes are bound all the more. -/
theorem imp (hs : σ.Stands κ id) (h : List.Forall₂ (fun names names' => ∀ name,
    names'.get? name = some true → names.get? name = some true) κ κ') : σ.Stands κ' id := by
  obtain ⟨chain, hc, hb⟩ := hs.chain
  refine ⟨hs.rooted, chain, hc, ?_⟩
  clear hs hc
  induction hb generalizing κ' with
  | nil =>
    cases h
    exact .nil
  | cons hid _ ih =>
    cases h with
    | cons hn hrest => exact .cons (fun name hm => hid name (hn name hm)) (ih hrest)

theorem define (hs : σ.Stands κ id) (name : Token) (v : Value) :
    (σ.define id name.lexeme v).Stands (bound κ name) id := by
  refine (hs.define_mark name v).imp ?_
  cases κ with
  | nil => exact .nil
  | cons scope rest =>
    refine .cons (fun key hk => ?_) (List.forall₂_same.mpr fun _ _ _ h => h)
    rwa [get?_bound] at hk

theorem bindAll (hs : σ.Stands κ id) {ps : List Token} (hps : Params κ ps κ')
    {args : List Value} (hlen : args.length = ps.length) :
    (σ.bindAll id (ps.zip args)).Stands κ' id := by
  induction hps generalizing σ args with
  | nil => exact hs
  | @cons κ _ p rest _ _ ih =>
    cases args with
    | nil => cases hlen
    | cons v args => exact ih (hs.define p v) (Nat.succ.inj hlen)

end Stands

/-- The scope at the distance of a marked name binds it, and is a local one. -/
theorem Stands.ownerAt? {σ : Scopes} {κ : List (Bindings Bool)} {id : ScopeId} (hs : σ.Stands κ id)
    {d : Nat} {names : Bindings Bool} (hd : κ[d]? = some names) {name : String}
    (hm : names.get? name = some true) :
    ∃ a, σ.ownerAt? id d name = some a ∧ σ.binds a name = true ∧ a ≠ Machine.globals := by
  obtain ⟨chain, hc, hb⟩ := hs.chain
  obtain ⟨a, ha, hbound⟩ : ∃ a, chain[d]? = some a ∧ σ.binds a name = true := by
    clear hc hs
    induction hb generalizing d with
    | nil => simp at hd
    | @cons a _ chain κ hid _ ih =>
      cases d with
      | zero =>
        obtain rfl : _ = names := by simpa using hd
        exact ⟨a, rfl, hid _ hm⟩
      | succ d => exact ih (by simpa using hd)
  exact ⟨a, by rw [Scopes.ownerAt?, hc.ancestor? ha, Option.filter_some, if_pos hbound], hbound,
    hc.mem_ne_globals a (List.mem_of_getElem? ha)⟩

/-- A marked name is found at its distance. -/
theorem Stands.getAt {σ : Scopes} {κ : List (Bindings Bool)} {id : ScopeId} (hs : σ.Stands κ id)
    {d : Nat} {names : Bindings Bool} (hd : κ[d]? = some names) {name : Token}
    (hm : names.get? name.lexeme = some true) : ∃ v, σ.getAt id d name = .ok v := by
  obtain ⟨a, ha, hbound, _⟩ := hs.ownerAt? hd hm
  obtain ⟨v, hv⟩ := Option.isSome_iff_exists.mp hbound
  refine ⟨v, ?_⟩
  rw [Scopes.getAt, ha, valueOf]
  simp only [Option.bind_some, hv]

end Scopes

end Treewalk
