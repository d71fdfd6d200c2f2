import Treewalk.Bindings
import Treewalk.Value

/-!
# Chained scopes

A scope binds names to values and may have a parent. Many scopes can share a
parent, so scopes live in one table and are named by their index. A name is
looked up either along the whole chain (`get`, `assign`) or in the one scope at
a given distance (`getAt`, `assignAt`). Assigning never adds a name; `define`
does.
-/

namespace Treewalk

structure Scope where
  names : Bindings Value
  parent : Option ScopeId

/-- All scopes, in the order in which they were made. -/
structure Scopes where
  all : Array Scope

namespace Scopes

def empty : Scopes := ⟨#[]⟩

/-- The index of the next scope. -/
def next (s : Scopes) : ScopeId :=
  s.all.size

/-- Adds a scope without names. -/
def push (s : Scopes) (parent : Option ScopeId) : Scopes :=
  ⟨s.all.push ⟨.empty, parent⟩⟩

/-- The value of a name in one scope. -/
def value? (s : Scopes) (id : ScopeId) (name : String) : Option Value :=
  s.all[id]?.bind fun scope => scope.names.get? name

def binds (s : Scopes) (id : ScopeId) (name : String) : Bool :=
  (s.value? id name).isSome

def parent? (s : Scopes) (id : ScopeId) : Option ScopeId :=
  s.all[id]?.bind Scope.parent

/-- Binds a name in one scope, whether or not it was bound there. -/
def define (s : Scopes) (id : ScopeId) (name : String) (v : Value) : Scopes :=
  ⟨s.all.modify id fun scope => { scope with names := scope.names.insert name v }⟩

/-- Drops the names of a scope and cuts it off from its parent. -/
def clear (s : Scopes) (id : ScopeId) : Scopes :=
  ⟨s.all.modify id fun _ => ⟨.empty, none⟩⟩

/-- The nearest scope that binds `name`, at most `steps` scopes away. -/
def ownerWithin (s : Scopes) (name : String) : Nat → ScopeId → Option ScopeId
  | 0, _ => none
  | steps + 1, id =>
    if s.binds id name then some id
    else (s.parent? id).bind (s.ownerWithin name steps)

/-- The nearest scope on the chain of `id` that binds `name`. A chain has no more
scopes than there are. -/
def owner? (s : Scopes) (id : ScopeId) (name : String) : Option ScopeId :=
  s.ownerWithin name s.all.size id

/-- The scope that many steps out; at distance 0 the scope itself. -/
def ancestor? (s : Scopes) : ScopeId → Nat → Option ScopeId
  | id, 0 => some id
  | id, distance + 1 => (s.parent? id).bind fun p => s.ancestor? p distance

/-- The scope at a distance, if it binds `name`. -/
def ownerAt? (s : Scopes) (id : ScopeId) (distance : Nat) (name : String) : Option ScopeId :=
  (s.ancestor? id distance).filter fun a => s.binds a name

/-! ## What the operations keep -/

@[simp] theorem next_push (s : Scopes) (parent : Option ScopeId) :
    (s.push parent).next = s.next + 1 := by
  simp [next, push]

@[simp] theorem next_define (s : Scopes) (id : ScopeId) (name : String) (v : Value) :
    (s.define id name v).next = s.next := by
  simp [next, define]

theorem value?_of_next_le {s : Scopes} {id : ScopeId} (h : s.next ≤ id) (name : String) :
    s.value? id name = none := by
  simp [value?, Array.getElem?_eq_none h]

/-- A new scope binds nothing, and no other scope changes. -/
@[simp] theorem value?_push (s : Scopes) (parent : Option ScopeId) (id : ScopeId) (name : String) :
    (s.push parent).value? id name = s.value? id name := by
  by_cases h : id = s.next
  · subst h
    rw [value?_of_next_le (Nat.le_refl _)]
    simp [value?, push, next]
  · simp [value?, push, Array.getElem?_push, show ¬ id = s.all.size from h]

theorem parent?_push (s : Scopes) (parent : Option ScopeId) (id : ScopeId) :
    (s.push parent).parent? id = if id = s.next then parent else s.parent? id := by
  by_cases h : id = s.all.size <;> simp [parent?, push, next, Array.getElem?_push, h]

/-- Defining a name changes one binding of one scope. -/
theorem value?_define {s : Scopes} {id : ScopeId} (h : id < s.next) (name : String) (v : Value)
    (other : ScopeId) (key : String) :
    (s.define id name v).value? other key =
      if id = other ∧ name = key then some v else s.value? other key := by
  simp only [value?, define, Array.getElem?_modify]
  by_cases ho : id = other
  · subst ho
    have hs : s.all[id]? = some s.all[id] := Array.getElem?_eq_getElem h
    simp [hs, Bindings.get?_insert]
  · simp [ho]

/-- Defining a name keeps every link. -/
@[simp] theorem parent?_define (s : Scopes) (id : ScopeId) (name : String) (v : Value)
    (other : ScopeId) : (s.define id name v).parent? other = s.parent? other := by
  simp only [parent?, define, Array.getElem?_modify]
  split
  · cases s.all[other]? <;> rfl
  · rfl

/-! ## Looking names up -/

def undefined (name : Token) : Diagnostic :=
  .runtime name (.undefinedVariable name.lexeme)

/-- The value of a name in the scope that was found for it. -/
def valueOf (s : Scopes) (owner : Option ScopeId) (name : Token) : Except Diagnostic Value :=
  match owner.bind fun id => s.value? id name.lexeme with
  | some v => .ok v
  | none => .error (undefined name)

/-- Rebinds a name in the scope that was found for it. -/
def update (s : Scopes) (owner : Option ScopeId) (name : Token) (v : Value) :
    Except Diagnostic Scopes :=
  match owner with
  | some id => .ok (s.define id name.lexeme v)
  | none => .error (undefined name)

def get (s : Scopes) (id : ScopeId) (name : Token) : Except Diagnostic Value :=
  s.valueOf (s.owner? id name.lexeme) name

def assign (s : Scopes) (id : ScopeId) (name : Token) (v : Value) : Except Diagnostic Scopes :=
  s.update (s.owner? id name.lexeme) name v

def getAt (s : Scopes) (id : ScopeId) (distance : Nat) (name : Token) : Except Diagnostic Value :=
  s.valueOf (s.ownerAt? id distance name.lexeme) name

def assignAt (s : Scopes) (id : ScopeId) (distance : Nat) (name : Token) (v : Value) :
    Except Diagnostic Scopes :=
  s.update (s.ownerAt? id distance name.lexeme) name v

end Scopes

end Treewalk
