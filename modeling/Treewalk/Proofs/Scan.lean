import Treewalk.Proofs.Pieces

/-!
# The tokens of a text

The scanner finds a token in each token piece, and an end of file behind the last
(`scan_fst`); it has nothing to report exactly if each piece is a blank, a comment or
a token (`scan_snd_eq_nil_iff`). A name is a word that is not reserved
(`identifier_iff`).

Two texts with a line break between them have the tokens of both, those of the second
moved down (`tokensIn_join`).
-/

namespace Treewalk

/-- The token some lines further down. -/
def Token.down (k : Nat) (t : Token) : Token :=
  { t with line := t.line + k }

namespace Piece

/-- The tokens of pieces that start on `line`. -/
def tokens (line : Nat) : List Piece → List Token
  | [] => []
  | p :: ps =>
    match p.kind with
    | .token kind => ⟨kind, String.ofList p.text, line + p.newlines⟩ :: tokens (line + p.newlines) ps
    | _ => tokens (line + p.newlines) ps

/-- The line that pieces end on is found from one piece to the next. -/
theorem add_newlines (line : Nat) (p : Piece) (ps : List Piece) :
    line + p.newlines + (texts ps).count '\n' = line + (texts (p :: ps)).count '\n' := by
  rw [texts_cons, List.count_append, newlines, Nat.add_assoc]

/-- The scanner has something to report about the piece. -/
def IsFault (p : Piece) : Prop :=
  p.kind = .unexpected ∨ p.kind = .unterminated

end Piece

open Piece

theorem Item.tokens_ofPieces (line : Nat) (found : List Item) (ps : List Piece) :
    (Item.ofPieces line found ps).filterMap Item.token? =
      found.reverse.filterMap Item.token? ++ tokens line ps ++
        [.endOfFile (line + (texts ps).count '\n')] := by
  induction ps generalizing line found with
  | nil => simp [Item.ofPieces, tokens, Item.token?]
  | cons p ps ih =>
    rw [Item.ofPieces, tokens, ← add_newlines]
    unfold Piece.item?
    cases hkind : p.kind <;> simp only [ih] <;> simp [Item.token?, List.filterMap_cons]

theorem Item.faults_ofPieces (line : Nat) (found : List Item) (ps : List Piece) :
    (Item.ofPieces line found ps).filterMap Item.fault? = [] ↔
      found.filterMap Item.fault? = [] ∧ ∀ p ∈ ps, ¬ p.IsFault := by
  induction ps generalizing line found with
  | nil => simp [Item.ofPieces, List.filterMap_cons, Item.fault?, List.filterMap_reverse]
  | cons p ps ih =>
    rw [Item.ofPieces]
    unfold Piece.item?
    cases hkind : p.kind <;> simp only [ih] <;>
      simp [Item.fault?, List.filterMap_cons, IsFault, hkind]

/-- The tokens that are written in a text. -/
def tokensIn (source : String) : List Token :=
  tokens 1 (split source.toList)

/-- How many lines a text has. -/
def linesOf (source : String) : Nat :=
  1 + source.toList.count '\n'

theorem scan_fst (source : String) :
    (scan source).1 = tokensIn source ++ [.endOfFile (linesOf source)] := by
  have h := Item.tokens_ofPieces 1 [] (split source.toList)
  rwa [texts_split] at h

theorem scan_snd_eq_nil_iff {source : String} :
    (scan source).2 = [] ↔ ∀ p ∈ split source.toList, ¬ p.IsFault :=
  (Item.faults_ofPieces 1 [] (split source.toList)).trans (and_iff_right rfl)

/-! ## Names and other kinds -/

namespace Piece

/-- A word that is not reserved. -/
def isName : List Char → Bool
  | [] => false
  | c :: body =>
    startsWord c && body.all inWord && (Symbol.ofWord? (String.ofList (c :: body))).isNone

theorem mem_split {p : Piece} {text : List Char} (h : p ∈ split text) :
    ∃ c rest, p = (first c rest).1 := by
  induction text using split_induction with
  | nil => cases h
  | cons c rest ih =>
    rw [split_cons] at h
    rcases List.mem_cons.mp h with rfl | h
    · exact ⟨c, rest, rfl⟩
    · exact ih h

/-- Only words are names, and no piece is an end of file. -/
theorem Rule.kind {c : Char} {f : List Char → Piece × List Char} (h : Rule c f) (rest : List Char) :
    (startsWord c = true ∧ f = Piece.word c) ∨ startsWord c = false ∧
      (f rest).1.kind ≠ .token .identifier ∧ (f rest).1.kind ≠ .token .endOfFile := by
  cases h with
  | word hc => exact .inl ⟨hc, rfl⟩
  | symbol s hc _ _ => exact .inr ⟨hc, nofun, nofun⟩
  | blank hc _ | unexpected hc _ _ _ => exact .inr ⟨hc, nofun, nofun⟩
  | orEqual short long hc _ _ =>
    refine .inr ⟨hc, ?_⟩
    unfold Piece.orEqual
    split <;> exact ⟨nofun, nofun⟩
  | slash hc _ =>
    refine .inr ⟨hc, ?_⟩
    unfold Piece.slash
    split <;> exact ⟨nofun, nofun⟩
  | string hc _ =>
    refine .inr ⟨hc, ?_⟩
    unfold Piece.string
    simp only
    split <;> exact ⟨nofun, nofun⟩
  | number hc _ =>
    refine .inr ⟨hc, ?_⟩
    by_cases hr : Fraction (rest.dropWhile Char.isDigit)
    · obtain ⟨d, after, hafter, hd⟩ := hr
      rw [number_of_fraction hafter hd]
      exact ⟨nofun, nofun⟩
    · rw [number_of_not_fraction hr]
      exact ⟨nofun, nofun⟩

theorem kind_word (c : Char) (rest : List Char) : (word c rest).1.kind =
    .token (match Symbol.ofWord? (String.ofList (word c rest).1.text) with
      | some s => .symbol s
      | none => .identifier) := rfl

theorem spelling_of_ofWord? {word : String} {s : Symbol} (h : Symbol.ofWord? word = some s) :
    word = s.spelling := by
  rw [Symbol.ofWord?] at h
  exact (eq_of_beq (List.find?_some h :)).symm

/-- A symbol is spelled in one way only. -/
theorem Rule.spelling {c : Char} {f : List Char → Piece × List Char} (h : Rule c f)
    {rest : List Char} {s : Symbol} (hs : (f rest).1.kind = .token (.symbol s)) :
    String.ofList (f rest).1.text = s.spelling := by
  cases h with
  | symbol s' _ hsp _ =>
    cases hs
    exact hsp.symm
  | orEqual short long _ hshort hlong =>
    unfold Piece.orEqual at hs ⊢
    split at hs
    · cases hs
      exact hlong.symm
    · cases hs
      exact hshort.symm
  | slash _ hsp =>
    unfold Piece.slash at hs ⊢
    split at hs
    · cases hs
    · cases hs
      exact hsp.symm
  | word _ =>
    rw [kind_word] at hs
    cases hw : Symbol.ofWord? (String.ofList (Piece.word c rest).1.text) with
    | none =>
      rw [hw] at hs
      cases hs
    | some s' =>
      rw [hw] at hs
      cases hs
      exact spelling_of_ofWord? hw
  | string _ _ =>
    unfold Piece.string at hs
    simp only at hs
    split at hs <;> cases hs
  | number _ _ =>
    by_cases hr : Fraction (rest.dropWhile Char.isDigit)
    · obtain ⟨d, after, hafter, hd⟩ := hr
      rw [number_of_fraction hafter hd] at hs
      cases hs
    · rw [number_of_not_fraction hr] at hs
      cases hs
  | blank _ _ | unexpected _ _ _ _ => cases hs

theorem kind_ne_end {p : Piece} {text : List Char} (h : p ∈ split text) :
    p.kind ≠ .token .endOfFile := by
  obtain ⟨c, rest, rfl⟩ := mem_split h
  rcases (rule_first c).kind rest with ⟨_, hf⟩ | ⟨_, _, hne⟩
  · rw [hf, kind_word]
    split <;> nofun
  · exact hne

/-- A piece is a name exactly if its text is a word that is not reserved. -/
theorem identifier_iff {p : Piece} {text : List Char} (h : p ∈ split text) :
    p.kind = .token .identifier ↔ isName p.text = true := by
  obtain ⟨c, rest, rfl⟩ := mem_split h
  rcases (rule_first c).kind rest with ⟨hc, hf⟩ | ⟨hc, hne, _⟩
  · have hname : isName (word c rest).1.text =
        (Symbol.ofWord? (String.ofList (word c rest).1.text)).isNone := by
      simp [word, isName, hc, List.all_takeWhile]
    rw [hf, kind_word, hname]
    split <;> simp_all
  · obtain ⟨body, htext, -, -⟩ := (rule_first c).isLocal rest
    simp [hne, htext, isName, hc]

/-! ## Tokens of several pieces -/

theorem mem_tokens {t : Token} {line : Nat} {ps : List Piece} (h : t ∈ tokens line ps) :
    ∃ p ∈ ps, p.kind = .token t.kind ∧ t.lexeme = String.ofList p.text := by
  induction ps generalizing line with
  | nil => cases h
  | cons p ps ih =>
    rw [tokens] at h
    split at h
    · rename_i kind hkind
      rcases List.mem_cons.mp h with rfl | h
      · exact ⟨p, List.mem_cons_self .., hkind, rfl⟩
      · obtain ⟨q, hq, hq'⟩ := ih h
        exact ⟨q, List.mem_cons_of_mem _ hq, hq'⟩
    · obtain ⟨q, hq, hq'⟩ := ih h
      exact ⟨q, List.mem_cons_of_mem _ hq, hq'⟩

theorem tokens_append (line : Nat) (ps qs : List Piece) :
    tokens line (ps ++ qs) = tokens line ps ++ tokens (line + (texts ps).count '\n') qs := by
  induction ps generalizing line with
  | nil => simp [tokens]
  | cons p ps ih =>
    rw [List.cons_append, tokens, tokens, ← add_newlines]
    split <;> simp [ih]

theorem tokens_down (line k : Nat) (ps : List Piece) :
    tokens (line + k) ps = (tokens line ps).map (Token.down k) := by
  induction ps generalizing line with
  | nil => rfl
  | cons p ps ih =>
    have hline : line + k + p.newlines = line + p.newlines + k := by omega
    rw [tokens, tokens, hline]
    split <;> simp [ih, Token.down]

end Piece

theorem kind_ne_of_mem_tokensIn {source : String} {t : Token} (h : t ∈ tokensIn source) :
    t.kind ≠ .endOfFile := by
  obtain ⟨p, hp, hkind, _⟩ := mem_tokens h
  intro heq
  exact kind_ne_end hp (by rw [hkind, heq])

/-- Whether a token of a text is a name can be told from its spelling. -/
theorem kind_eq_identifier_iff {source : String} {t : Token} (h : t ∈ tokensIn source) :
    t.kind = .identifier ↔ isName t.lexeme.toList = true := by
  obtain ⟨p, hp, hkind, hlexeme⟩ := mem_tokens h
  rw [hlexeme, String.toList_ofList, ← identifier_iff hp, hkind]
  simp

/-- A symbol of a text is spelled in one way only. -/
theorem lexeme_of_symbol {source : String} {t : Token} (h : t ∈ tokensIn source) {s : Symbol}
    (hs : t.kind = .symbol s) : t.lexeme = s.spelling := by
  obtain ⟨p, hp, hkind, hlexeme⟩ := mem_tokens h
  obtain ⟨c, rest, rfl⟩ := mem_split hp
  rw [hlexeme]
  exact (rule_first c).spelling (by rw [hkind, hs])

/-- A name is not spelled like a reserved word. -/
theorem lexeme_ne_of_name {source : String} {t : Token} (h : t ∈ tokensIn source)
    (ht : t.kind = .identifier) {s : Symbol} (hs : s ∈ Symbol.words) : t.lexeme ≠ s.spelling := by
  intro heq
  have hname := (kind_eq_identifier_iff h).mp ht
  have hfree : Symbol.ofWord? t.lexeme = none := by
    cases hl : t.lexeme.toList with
    | nil => rw [hl] at hname; cases hname
    | cons c body =>
      rw [hl, isName, ← hl, String.ofList_toList] at hname
      simpa using (Bool.and_eq_true_iff.mp hname).2
  exact List.find?_eq_none.mp hfree s hs (by simp [heq])

/-! ## Two texts in one -/

namespace Piece

/-- Anything can end at the end of a line. -/
theorem alike_newline (text : List Char) : Alike [] ('\n' :: text) := by
  refine ⟨fun _ => ?_, fun _ => ?_, fun _ => ?_, fun _ => ?_, fun _ => ?_, ?_⟩
  iterate 5 exact stops_cons.mpr (by decide)
  rintro ⟨d, rest, htext, _⟩
  cases htext

theorem Cut.append {ps qs : List Piece} (hps : Cut ps) (hfault : ∀ p ∈ ps, ¬ p.IsFault)
    (hqs : Cut qs) (h : Alike [] (texts qs)) : Cut (ps ++ qs) := by
  induction ps with
  | nil => exact hqs
  | cons p ps ih =>
    obtain ⟨hp, hps⟩ := hps
    obtain ⟨hpfault, hfault⟩ := List.forall_mem_cons.mp hfault
    refine ⟨hp.of_alike (fun hkind => hpfault (.inr hkind)) ?_, ih hps hfault⟩
    simpa using h.append (texts ps)

theorem split_join {a b : List Char} (h : ∀ p ∈ split a, ¬ p.IsFault) :
    split (a ++ '\n' :: b) = split a ++ ⟨.blank, ['\n']⟩ :: split b := by
  have hblank : Cut (⟨.blank, ['\n']⟩ :: split b) := ⟨⟨'\n', [], rfl, rfl⟩, cut_split b⟩
  have hcut := (cut_split a).append h hblank (alike_newline _)
  have htexts : texts (split a ++ ⟨.blank, ['\n']⟩ :: split b) = a ++ '\n' :: b := by
    simp [texts_split]
  rw [← htexts, split_texts hcut]

end Piece

section

variable {a b : String}

theorem toList_join (a b : String) : (a ++ "\n" ++ b).toList = a.toList ++ '\n' :: b.toList := by
  simp

theorem scan_join_snd (ha : (scan a).2 = []) (hb : (scan b).2 = []) :
    (scan (a ++ "\n" ++ b)).2 = [] := by
  rw [scan_snd_eq_nil_iff] at ha hb ⊢
  rw [toList_join, split_join ha]
  simp only [List.forall_mem_append, List.forall_mem_cons]
  exact ⟨ha, by simp [IsFault], hb⟩

theorem tokensIn_join (ha : (scan a).2 = []) :
    tokensIn (a ++ "\n" ++ b) = tokensIn a ++ (tokensIn b).map (Token.down (linesOf a)) := by
  rw [scan_snd_eq_nil_iff] at ha
  have hline : 1 + a.toList.count '\n' + newlines ⟨.blank, ['\n']⟩ = 1 + linesOf a := by
    simp only [newlines, linesOf, List.count_singleton_self]
    omega
  rw [tokensIn, tokensIn, tokensIn, toList_join, split_join ha, tokens_append, texts_split,
    ← tokens_down, ← hline]
  rfl

end

end Treewalk
