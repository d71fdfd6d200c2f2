import Treewalk.Proofs.Lockstep.Sessions
import Treewalk.Proofs.Renaming.Positions
import Treewalk.Proofs.Renaming.Runs
import Treewalk.Proofs.ScopeAgreement

/-!
# Renaming a local

A variable or parameter of a unit that is not global can be renamed: its declaration and
the occurrences that lead to it get a new name, which the unit does not use yet. The
renamed unit is accepted again, and it runs as the unit does (`Session.run_renameLocal`).

Senses say which tokens are replaced (`Program.selects`); the text is cut in the same
places as before (`scan_renameText`), read as the same tree with other spellings
(`Reads.map`) and resolved to the same distances (`Stmt.ScopedAll.rename`). The two
programs run in step (`Renaming.runs`).
-/

namespace Treewalk

/-- The unit in which the local that `d` declares is renamed to `y`. -/
def renameLocal (d : Token) (y : String) (source : String) : String :=
  renameText y ((numberedProgram source).selects d) source

/-- What is renamed in the unit. -/
def localRenaming (d : Token) (y : String) (source : String) : Renaming where
  old := d.lexeme
  new := y
  occurs t := ∃ i, (numberedProgram source).selects d i = true ∧ (tokensIn source)[i]? = some t

section

variable {source : String} {read resolved : Program} (h : Accepts source read resolved)

include h

theorem Accepts.mem_numbered {t : Token} {r : Sense} {d : Token}
    (ht : (t, r) ∈ Stmt.sensesAll d [] (numberedProgram source)) :
    (tokensIn source)[t.line]? = some (placed (tokensIn source) t) := by
  have hmem : t ∈ Stmt.tokensAll (numberedProgram source) := by
    rw [← Stmt.sensesAll_fst d []]
    exact List.mem_map_of_mem ht
  exact getElem?_of_mem_numbered (h.tokens_subperm.subset hmem)

theorem Accepts.isName_iff {t : Token} {r : Sense} {d : Token}
    (ht : (t, r) ∈ Stmt.sensesAll d [] (numberedProgram source)) :
    t.IsName ↔ Piece.isName t.lexeme.toList = true := by
  have hiff := kind_eq_identifier_iff (List.mem_of_getElem? (h.mem_numbered ht))
  rwa [kind_placed, lexeme_placed] at hiff

theorem Accepts.clear (d : Token) :
    ∀ p ∈ Stmt.sensesAll d [] (numberedProgram source), Sense.Clear d p := by
  obtain ⟨p, hp, hs, _⟩ := h.numbered
  exact Stmt.ScopedAll.clear d hs hp.bare fun hit => nomatch hit

variable {d : Token} (hd : d ∈ Stmt.localsAll (numberedProgram source))

include hd

/-- A local is named by a name. -/
theorem Accepts.isName_local : Piece.isName d.lexeme.toList = true := by
  have hbinder := Stmt.binder_of_mem_localsAll d [] _ hd
  exact (h.isName_iff hbinder).mp (h.clear d _ hbinder).1

/-- Only names are replaced. -/
theorem Accepts.selects_names :
    Piece.Selects ((numberedProgram source).selects d) 0 (tokensIn source) := by
  intro i t hi hat
  rw [Nat.zero_add] at hat
  obtain ⟨u, r, hu, rfl, hlexeme⟩ := Program.exists_of_selects hat
  obtain rfl : placed (tokensIn source) u = t :=
    Option.some.inj ((h.mem_numbered hu).symm.trans hi)
  refine (h.isName_iff hu).mpr ?_
  rw [hlexeme]
  exact h.isName_local hd

variable {y : String} (hy : Piece.isName y.toList = true)

include hy

theorem Accepts.proper : (localRenaming d y source).Proper where
  old_ne_this heq := by
    have hname := h.isName_local hd
    rw [show d.lexeme = "this" from heq] at hname
    exact absurd hname (by decide)
  new_ne_this heq := by
    rw [show y = "this" from heq] at hy
    exact absurd hy (by decide)
  new_ne_super heq := by
    rw [show y = "super" from heq] at hy
    exact absurd hy (by decide)

omit hy

variable (hnew : ∀ t ∈ tokensIn source, t.lexeme ≠ y)

include hnew

/-- Each token is written as its sense asks. -/
theorem Accepts.fits : ∀ p ∈ Stmt.sensesAll d [] (numberedProgram source),
    (localRenaming d y source).Fits (placed (tokensIn source))
      (respelled y ((numberedProgram source).selects d) (tokensIn source)) p := by
  rintro ⟨t, r⟩ ht
  have hselects := Program.selects_iff h.nodup_lines ht
  have hat := h.mem_numbered ht
  have hclear := h.clear d _ ht
  have hkeep : r.renames d t = false → respelled y ((numberedProgram source).selects d)
      (tokensIn source) t = placed (tokensIn source) t := by
    intro hr
    rw [respelled, if_neg (by rw [hselects, hr]; simp)]
  have hother : t.lexeme ≠ d.lexeme → ∀ hit, (localRenaming d y source).Renames hit
      (placed (tokensIn source) t) (placed (tokensIn source) t) := by
    rintro hne (_ | _)
    · exact .apart _
    · exact .other hne (hnew _ (List.mem_of_getElem? hat))
  have hreplaced : r.renames d t = true → t.lexeme = d.lexeme →
      (localRenaming d y source).Renames true (placed (tokensIn source) t)
        (respelled y ((numberedProgram source).selects d) (tokensIn source) t) := by
    intro hr hlexeme
    rw [respelled, if_pos (hselects.mpr hr)]
    exact .replaced hlexeme ⟨t.line, hselects.mpr hr, hat⟩
  cases r with
  | fixed => exact hkeep rfl
  | keyword hit =>
    have hne : t.lexeme ≠ d.lexeme := by
      intro heq
      refine hclear ((h.isName_iff ht).mpr ?_)
      rw [heq]
      exact h.isName_local hd
    exact ⟨hkeep rfl, by rw [hkeep rfl]; exact hother hne hit⟩
  | definition hit =>
    refine ⟨hkeep rfl, ?_⟩
    rw [hkeep rfl]
    cases hit with
    | false => exact .apart _
    | true => exact hother (hclear rfl) true
  | reference hit =>
    cases hit with
    | false =>
      rw [Renaming.Fits, hkeep rfl]
      exact .apart _
    | true =>
      by_cases hlexeme : t.lexeme = d.lexeme
      · exact hreplaced (by simpa [Sense.renames] using hlexeme) hlexeme
      · rw [Renaming.Fits, hkeep (by simpa [Sense.renames] using hlexeme)]
        exact hother hlexeme true
  | binder hit =>
    cases hit with
    | false =>
      rw [Renaming.Fits, hkeep rfl]
      exact .apart _
    | true =>
      by_cases heq : t = d
      · exact hreplaced (by simpa [Sense.renames] using heq) (congrArg Token.lexeme heq)
      · rw [Renaming.Fits, hkeep (by simpa [Sense.renames] using heq)]
        exact hother ((hclear.2 rfl).resolve_left heq) true

include hy

/-- The renamed unit is accepted, as the program with the new name. -/
theorem Accepts.renameLocal : ∃ read', Accepts (renameLocal d y source) read'
    (Stmt.mapAll (respelled y ((numberedProgram source).selects d) (tokensIn source))
      (numberedProgram source)) := by
  obtain ⟨p, hp, hs, _⟩ := h.numbered
  obtain ⟨hlexical, htokens⟩ := scan_renameText hy h.lexical (h.selects_names hd)
  have hread := hp.map (kind_respelled y ((numberedProgram source).selects d) (tokensIn source))
  rw [map_respelled, ← htokens] at hread
  have hwrites : ∀ e ∈ Stmt.sensesAll d [] (numberedProgram source), (localRenaming d y source).Writes
      (respelled y ((numberedProgram source).selects d) (tokensIn source)) e := by
    intro e he
    have hne := hnew _ (List.mem_of_getElem? (h.mem_numbered he))
    exact (h.fits hd hnew e he).writes (lexeme_placed _) hne
  obtain ⟨κ, hκ, hscoped⟩ := Stmt.ScopedAll.rename (h.proper hd hy) hs hp.bare .nil hwrites
  cases hκ
  rw [Stmt.mapAll_eq] at hscoped
  exact ⟨_, accepts_iff.mpr ⟨hlexical, hread, hscoped⟩⟩

end

/-! ## Sessions -/

/-- Sessions with the same output, flags and globals, and with the same reports from
`start` on but for the new name. -/
structure Renaming.Sessions (R : Renaming) (start s s' : Session) : Prop where
  out : s'.machine.out = s.machine.out
  globals : ∀ name, s'.machine.store.scopes.value? Machine.globals name =
    s.machine.store.scopes.value? Machine.globals name
  hadError : s'.hadError = s.hadError
  hadRuntimeError : s'.hadRuntimeError = s.hadRuntimeError
  diagnostics : ∃ ds ds', List.Forall₂ R.Faults ds ds' ∧
    s.diagnostics = (start.reportAll ds).diagnostics ∧
    s'.diagnostics = (start.reportAll ds').diagnostics

namespace Renaming

variable {R : Renaming}

theorem Sessions.refl (s : Session) : R.Sessions s s s :=
  ⟨rfl, fun _ => rfl, rfl, rfl, [], [], .nil, rfl, rfl⟩

theorem Faults.isStatic_eq {d d' : Diagnostic} (h : R.Faults d d') : d'.isStatic = d.isStatic := by
  cases h <;> rfl

theorem sessions_of_runs {hR : R.Proper} {f g : Token → Token} {d : Token} {scope : ScopeId}
    {start s s' : Session} (h : (R.runs hR f g d).Sessions scope start s s') :
    R.Sessions start s s' := by
  obtain ⟨⟨w, hm⟩, herror, hruntime, hds⟩ := h
  obtain ⟨hσ, htables⟩ := hm.store.scopes
  refine ⟨hm.out.symm, fun name => ?_, herror, hruntime, hds⟩
  rw [htables.value, htables.global, key_false, hσ]

end Renaming

/-- In a machine that accepted units led to, the chain of scopes of each function leads
to the globals. -/
theorem Reached.machines_renaming {out : Sink} {clock : Nat → Float} {units : List Program}
    {m : Machine} (h : Reached out clock units m) {R : Renaming} (hR : R.Proper)
    (f g : Token → Token) (d : Token) :
    (R.runs hR f g d).Machines ⟨m.store.scopes, fun _ => false⟩ Machine.globals m m := by
  obtain ⟨w, m', hm, hκ⟩ := h.machines
  obtain rfl : w = m.store.scopes := hm.store.scopes.1.trans hm.store.scopes.2.1
  rw [← hm.scope']
  refine Renaming.machines_refl hκ.rooted (fun id f hf => ?_) (fun id c hc => ?_)
  · have hrel := hm.store.functions id
    rw [show m.store.functions[id]? = some f from hf] at hrel
    generalize m'.store.functions[id]? = f' at hrel
    cases hrel with | some hrel =>
    obtain ⟨hscope, _, κ, hs, _⟩ := hrel
    obtain ⟨chain, hchain, _⟩ := hs.chain
    exact ⟨chain, hscope ▸ hchain⟩
  · have hrel := hm.store.classes id
    rw [show m.store.classes[id]? = some c from hc] at hrel
    generalize m'.store.classes[id]? = c' at hrel
    cases hrel with | some hrel =>
    refine hrel.methods.forall_right (P := fun f => ∃ chain, m.store.scopes.Chain f.scope chain)
      fun _ _ hmethod => ?_
    obtain ⟨hscope, _, κ, hs, _⟩ := hmethod
    obtain ⟨chain, hchain, _⟩ := hs.chain
    exact ⟨chain, hscope ▸ hchain⟩

/-- Renaming a local is invisible. If a variable or parameter of an accepted unit, declared
by `d` below the globals, is renamed to a name that the unit does not use, then the renamed
unit is accepted. From every machine that accepted units led to, both units have the same
outcome, output and flags, and the same diagnostics but for the new name at tokens that
were replaced. -/
theorem Session.run_renameLocal {source : String} {read resolved : Program}
    (h : Accepts source read resolved) {d : Token}
    (hd : d ∈ Stmt.localsAll (numberedProgram source)) {y : String}
    (hy : Piece.isName y.toList = true) (hnew : ∀ t ∈ tokensIn source, t.lexeme ≠ y) :
    (∃ read' resolved', Accepts (renameLocal d y source) read' resolved') ∧
      ∀ {out : Sink} {clock : Nat → Float} {units : List Program} {s : Session},
        Reached out clock units s.machine → ∀ fuel,
        (s.run fuel (renameLocal d y source)).1 = (s.run fuel source).1 ∧
          (localRenaming d y source).Sessions s (s.run fuel source).2
            (s.run fuel (renameLocal d y source)).2 := by
  obtain ⟨read', hrenamed⟩ := h.renameLocal hd hy hnew
  refine ⟨⟨read', _, hrenamed⟩, fun {out clock units s} hs fuel => ?_⟩
  cases hflag : s.hadError with
  | true =>
    rw [run_of_hadError hflag hrenamed, run_of_hadError hflag h]
    exact ⟨rfl, .refl s⟩
  | false =>
    rw [run_of_accepts hflag hrenamed, run_of_accepts hflag h, execute_eq, execute_eq]
    obtain ⟨_, _, _, hresolved⟩ := h.numbered
    have hcode := Renaming.stmts_fits (h.fits hd hnew)
    rw [← hresolved] at hcode
    have hm := hs.machines_renaming (h.proper hd hy) (placed (tokensIn source))
      (respelled y ((numberedProgram source).selects d) (tokensIn source)) d
    have hstands := Tagged.stands_globals ⟨s.machine.store.scopes, fun _ => false⟩
    have hends := Correspondence.interpret_sim (C := Renaming.runs _ (h.proper hd hy) _ _ d) rfl
      hstands hcode fuel _ _ hm
    obtain ⟨houtcome, hsessions⟩ := conclude_ends Renaming.Faults.isStatic_eq hends
    exact ⟨houtcome, Renaming.sessions_of_runs hsessions⟩

/-- The outer variable of a unit that declares the same name in a block inside, behind an
occurrence of the outer one. -/
theorem Session.run_renameLocal_shadowed :
    let source := "\x7b var a; \x7b print a; var a; \x7d print a; \x7d"
    let a : Token := ⟨.identifier, "a", 2⟩
    let s : Session := .start .unlimited .unlimited fun _ => 0
    a ∈ Stmt.localsAll (numberedProgram source) ∧
      renameLocal a "b" source = "\x7b var b; \x7b print b; var a; \x7d print b; \x7d" ∧
      (∃ read resolved, Accepts (renameLocal a "b" source) read resolved) ∧
      (s.run 9 (renameLocal a "b" source)).1 = (s.run 9 source).1 ∧
      (localRenaming a "b" source).Sessions s (s.run 9 source).2
        (s.run 9 (renameLocal a "b" source)).2 := by
  intro source a s
  have haccepts : Accepts source (Program.ofTokens (scan source).1).1
      (Program.ofTokens (scan source).1).1.resolve.1 :=
    accepts_of_faults (by decide +kernel)
  have hlocals : Stmt.localsAll (numberedProgram source) = [a, ⟨.identifier, "a", 9⟩] := by
    decide +kernel
  have ha : a ∈ Stmt.localsAll (numberedProgram source) := hlocals ▸ List.mem_cons_self
  have hfresh : ((tokensIn source).all fun t => t.lexeme != "b") = true := by decide +kernel
  have hnew : ∀ t ∈ tokensIn source, t.lexeme ≠ "b" := fun t ht =>
    bne_iff_ne.mp (List.all_eq_true.mp hfresh t ht)
  obtain ⟨hrenamed, hrun⟩ := run_renameLocal haccepts ha (by decide) hnew
  exact ⟨ha, by decide +kernel, hrenamed, hrun .start 9⟩

end Treewalk
