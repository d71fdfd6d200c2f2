import Treewalk.Proofs.Grammar.Relabel
import Treewalk.Proofs.Renaming.Text
import Treewalk.Proofs.Scoping.Relabel
import Treewalk.Proofs.Units

/-!
# Occurrences by their positions

A token does not say where in its line it stands, so two occurrences of one name can be
equal. To tell them apart the tokens of a unit are numbered: each gets its position among
them in place of its line. An accepted unit is read and resolved as before, and its
program is the numbered one with the lines put back (`Accepts.numbered`). In the numbered
program no token occurs twice (`nodup_lines`).
-/

namespace Treewalk

/-- The tokens, each with its position for a line. -/
def numbered (ts : List Token) : List Token :=
  ts.mapIdx fun i t => { t with line := i }

/-- A numbered token, back on its line. -/
def placed (ts : List Token) (t : Token) : Token :=
  { t with line := (ts[t.line]?.map Token.line).getD 0 }

/-- A numbered token, back on its line and with another spelling at some positions. -/
def respelled (y : String) (at? : Nat → Bool) (ts : List Token) (t : Token) : Token :=
  if at? t.line then { placed ts t with lexeme := y } else placed ts t

/-- The resolved program of a unit, its tokens numbered. -/
def numberedProgram (source : String) : Program :=
  (Program.ofTokens (numbered (tokensIn source) ++ [.endOfFile 0])).1.resolve.1

variable {ts : List Token} {t : Token}

@[simp] theorem kind_placed (ts : List Token) (t : Token) : (placed ts t).kind = t.kind := rfl

@[simp] theorem lexeme_placed (ts : List Token) (t : Token) : (placed ts t).lexeme = t.lexeme := rfl

@[simp] theorem kind_respelled (y : String) (at? : Nat → Bool) (ts : List Token) (t : Token) :
    (respelled y at? ts t).kind = t.kind := by
  unfold respelled
  split <;> rfl

theorem getElem?_numbered (ts : List Token) (i : Nat) :
    (numbered ts)[i]? = ts[i]?.map fun t => { t with line := i } :=
  List.getElem?_mapIdx

theorem map_kind_numbered (ts : List Token) : (numbered ts).map Token.kind = ts.map Token.kind := by
  refine List.ext_getElem? fun i => ?_
  simp only [List.getElem?_map, getElem?_numbered, Option.map_map, Function.comp_def]

theorem nodup_map_line_numbered (ts : List Token) : ((numbered ts).map Token.line).Nodup := by
  have hlines : (numbered ts).map Token.line = List.range ts.length := by
    refine List.ext_getElem? fun i => ?_
    simp only [List.getElem?_map, getElem?_numbered, Option.map_map, Function.comp_def]
    by_cases h : i < ts.length
    · simp [h]
    · simp [h]
  rw [hlines]
  exact List.nodup_range

theorem getElem?_of_mem_numbered (h : t ∈ numbered ts) : ts[t.line]? = some (placed ts t) := by
  obtain ⟨i, hi⟩ := List.mem_iff_getElem?.mp h
  rw [getElem?_numbered] at hi
  obtain ⟨u, hu, rfl⟩ := Option.map_eq_some_iff.mp hi
  simp [placed, hu]

theorem map_placed (ts : List Token) : (numbered ts).map (placed ts) = ts := by
  refine List.ext_getElem? fun i => ?_
  rw [List.getElem?_map, getElem?_numbered]
  cases hu : ts[i]? with
  | none => rfl
  | some u => simp [placed, hu]

theorem getElem?_respell (y : String) (at? : Nat → Bool) (i : Nat) (ts : List Token) (k : Nat) :
    (respell y at? i ts)[k]? =
      ts[k]?.map fun t => if at? (i + k) then { t with lexeme := y } else t := by
  induction ts generalizing i k with
  | nil => rfl
  | cons t ts ih =>
    cases k with
    | zero => simp [respell]
    | succ k => simp [respell, ih, Nat.add_right_comm, Nat.add_assoc]

theorem map_respelled (y : String) (at? : Nat → Bool) (ts : List Token) :
    (numbered ts).map (respelled y at? ts) = respell y at? 0 ts := by
  refine List.ext_getElem? fun i => ?_
  rw [List.getElem?_map, getElem?_numbered, getElem?_respell]
  cases hu : ts[i]? with
  | none => rfl
  | some u => simp [respelled, placed, hu]

theorem kind_ne_of_mem_numbered {source : String} (h : t ∈ numbered (tokensIn source)) :
    t.kind ≠ .endOfFile := by
  have hkind : t.kind ∈ (tokensIn source).map Token.kind := by
    rw [← map_kind_numbered]
    exact List.mem_map_of_mem h
  obtain ⟨u, hu, hk⟩ := List.mem_map.mp hkind
  rw [← hk]
  exact kind_ne_of_mem_tokensIn hu

section

variable {source : String} {read resolved : Program}

/-- An accepted unit can be read with its tokens numbered, and is the numbered program
with the lines put back. -/
theorem Accepts.numbered (h : Accepts source read resolved) : ∃ p : Program,
    Parser.Reads (.declarations p) (numbered (tokensIn source)) ∧
      p.Scoped (numberedProgram source) ∧
      resolved = Stmt.mapAll (placed (tokensIn source)) (numberedProgram source) := by
  obtain ⟨_, hr, hs⟩ := accepts_iff.mp h
  obtain ⟨p, hp⟩ := hr.of_kinds (map_kind_numbered _)
  -- back on their lines the tokens are read as `read`, and in no other way
  have hback := hp.map (kind_placed (tokensIn source))
  rw [map_placed] at hback
  have hsame : read = p.map (Stmt.map (placed (tokensIn source))) :=
    hr.unique hback fun _ => kind_ne_of_mem_tokensIn
  rw [hsame, ← Stmt.mapAll_eq] at hs
  obtain ⟨p', hp', rfl⟩ := Stmt.ScopedAll.of_map (lexeme_placed (tokensIn source)) hs
  have hnumbered : numberedProgram source = p' := by
    rw [numberedProgram, (Program.ofTokens_append_iff (fun _ => kind_ne_of_mem_numbered) rfl).mpr hp,
      Program.resolve_eq_iff.mpr hp']
  rw [hnumbered]
  exact ⟨p, hp, hp', rfl⟩

theorem Accepts.tokens_subperm (h : Accepts source read resolved) :
    (Stmt.tokensAll (numberedProgram source)).Subperm (Treewalk.numbered (tokensIn source)) := by
  obtain ⟨p, hp, hs, _⟩ := h.numbered
  rw [Stmt.ScopedAll.tokens_eq hs]
  exact hp.tokens_subperm

/-- No numbered token occurs twice in a program. -/
theorem Accepts.nodup_lines (h : Accepts source read resolved) :
    ((Stmt.tokensAll (numberedProgram source)).map Token.line).Nodup := by
  obtain ⟨l, hperm, hsub⟩ := h.tokens_subperm
  rw [← (hperm.map Token.line).nodup_iff]
  exact (nodup_map_line_numbered _).sublist (hsub.map Token.line)

end

end Treewalk
