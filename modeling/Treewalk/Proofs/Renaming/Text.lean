import Mathlib.Data.List.Forall2
import Treewalk.Proofs.Scan

/-!
# Writing another name in a text

`Piece.rename` writes a name in place of some of the tokens of a text. If these are
names themselves, the text is cut in the same places again (`split_rename`) and has the
same tokens, on the same lines, but for the spelling of those (`tokens_rename`).
-/

namespace Treewalk

/-- Tokens with another spelling at some positions, counted from `i`. -/
def respell (y : String) (at? : Nat → Bool) (i : Nat) : List Token → List Token
  | [] => []
  | t :: ts => (if at? i then { t with lexeme := y } else t) :: respell y at? (i + 1) ts

namespace Piece

/-- Writes a name in place of the tokens at some positions, counted from `i`. -/
def rename (y : List Char) (at? : Nat → Bool) (i : Nat) : List Piece → List Piece
  | [] => []
  | p :: ps =>
    match p.kind with
    | .token _ =>
      (if at? i then ⟨.token .identifier, y⟩ else p) :: rename y at? (i + 1) ps
    | _ => p :: rename y at? i ps

/-- The same piece, or another name in place of one. -/
def Renamed (y : List Char) (p p' : Piece) : Prop :=
  p' = p ∨ isName p.text = true ∧ p.kind = .token .identifier ∧ p' = ⟨.token .identifier, y⟩

/-! ## Names -/

theorem startsWord_of_isName {c : Char} {text : List Char} (h : isName (c :: text) = true) :
    startsWord c = true := by
  simp only [isName, Bool.and_eq_true] at h
  exact h.1.1

theorem inWord_of_startsWord {c : Char} (h : startsWord c = true) : inWord c = true := by
  simp only [startsWord, inWord, Char.isAlphanum, Bool.or_eq_true] at h ⊢
  rcases h with h | h
  · exact .inl (.inl h)
  · exact .inr h

/-- A name holds no line break. -/
theorem count_newline_of_isName {text : List Char} (h : isName text = true) :
    text.count '\n' = 0 := by
  cases text with
  | nil => rfl
  | cons c body =>
    have hc := inWord_of_startsWord (startsWord_of_isName h)
    simp only [isName, Bool.and_eq_true, List.all_eq_true] at h
    refine List.count_eq_zero.mpr fun hmem => ?_
    have hnot : inWord '\n' = false := by decide
    rcases List.mem_cons.mp hmem with hn | hn
    · rw [← hn, hnot] at hc
      cases hc
    · have := h.1.2 _ hn
      rw [hnot] at this
      cases this

/-- Words are alike to what stands in front of them. -/
theorem alike_word {c c' : Char} {a a' : List Char} (h : startsWord c = true)
    (h' : startsWord c' = true) : Alike (c :: a) (c' :: a') := by
  have hin := inWord_of_startsWord h
  have hne : ∀ d, startsWord d = false → c' ≠ d := by
    rintro d hd rfl
    rw [h'] at hd
    cases hd
  refine ⟨fun hs => ?_, fun _ => ?_, fun _ => ?_, fun _ => ?_, fun hs => ?_, ?_⟩
  · rw [stops_cons, hin] at hs
    cases hs
  · rw [stops_cons]
    cases hd : c'.isDigit with
    | false => rfl
    | true => rw [startsWord_of_isDigit hd] at h'; cases h'
  · exact stops_cons.mpr (beq_eq_false_iff_ne.mpr (hne '=' (by decide)))
  · exact stops_cons.mpr (beq_eq_false_iff_ne.mpr (hne '/' (by decide)))
  · have hnl : c = '\n' := by simpa [stops_cons] using hs
    subst hnl
    exact absurd h (by decide)
  · rintro ⟨d, rest, htext, _⟩
    exact absurd (List.cons.inj htext).1 (hne '.' (by decide))

theorem first_of_startsWord {c : Char} (h : startsWord c = true) : first c = word c := by
  rcases (rule_first c).kind [] with ⟨_, hf⟩ | ⟨hc, _⟩
  · exact hf
  · rw [h] at hc
    cases hc

/-- A name ends in front of what stops a word. -/
theorem ends_name {y after : List Char} (hy : isName y = true) (h : Stops inWord after) :
    Ends ⟨.token .identifier, y⟩ after := by
  cases y with
  | nil => cases hy
  | cons c body =>
    refine ⟨c, body, rfl, ?_⟩
    rw [first_of_startsWord (startsWord_of_isName hy)]
    simp only [isName, Bool.and_eq_true, List.all_eq_true, Option.isNone_iff_eq_none] at hy
    simp only [word, h.takeWhile_append hy.1.2, h.dropWhile_append hy.1.2, hy.2]

/-- What follows a name stops a word. -/
theorem Ends.stops {p : Piece} {after : List Char} (h : Ends p after)
    (hp : isName p.text = true) : Stops inWord after := by
  obtain ⟨c, body, htext, hfirst⟩ := h
  rw [htext] at hp
  rw [first_of_startsWord (startsWord_of_isName hp)] at hfirst
  have hafter : (body ++ after).dropWhile inWord = after := congrArg Prod.snd hfirst
  rw [← hafter]
  exact stops_dropWhile

/-! ## The text cut again -/

theorem Alike.refl (a : List Char) : Alike a a :=
  ⟨id, id, id, id, id, id⟩

/-- Renamed pieces end where the pieces did. -/
theorem cut_renamed {y : List Char} (hy : isName y = true) {ps ps' : List Piece}
    (h : List.Forall₂ (Renamed y) ps ps') (hcut : Cut ps) (hfault : ∀ p ∈ ps, ¬ p.IsFault) :
    Alike (texts ps) (texts ps') ∧ Cut ps' ∧ ∀ p ∈ ps', ¬ p.IsFault := by
  induction h with
  | nil => exact ⟨.refl [], trivial, nofun⟩
  | @cons p p' ps ps' hp _ ih =>
    obtain ⟨hend, hcut⟩ := hcut
    obtain ⟨hpfault, hfault⟩ := List.forall_mem_cons.mp hfault
    obtain ⟨halike, hcut', hfault'⟩ := ih hcut hfault
    rw [List.forall_mem_cons]
    rcases hp with rfl | ⟨hname, _, rfl⟩
    · have hend' := hend.of_alike (fun hk => hpfault (.inr hk)) halike
      exact ⟨halike.append p'.text, ⟨hend', hcut'⟩, hpfault, hfault'⟩
    · have hend' := ends_name hy (halike.word (hend.stops hname))
      refine ⟨?_, ⟨hend', hcut'⟩, by simp [IsFault], hfault'⟩
      obtain ⟨c, body, htext⟩ := List.exists_cons_of_ne_nil (show p.text ≠ [] from fun hnil => by
        rw [hnil] at hname
        cases hname)
      obtain ⟨c', body', rfl⟩ := List.exists_cons_of_ne_nil (show y ≠ [] from fun hnil => by
        rw [hnil] at hy
        cases hy)
      rw [htext] at hname
      simp only [texts_cons, htext, List.cons_append]
      exact alike_word (startsWord_of_isName hname) (startsWord_of_isName hy)

section

variable {y : List Char} {at? : Nat → Bool} {ps : List Piece}

/-- The tokens to be replaced are names. -/
def Selects (at? : Nat → Bool) (i : Nat) (ts : List Token) : Prop :=
  ∀ k t, ts[k]? = some t → at? (i + k) = true → t.kind = .identifier

theorem Selects.tail {i : Nat} {t : Token} {ts : List Token} (h : Selects at? i (t :: ts)) :
    Selects at? (i + 1) ts := by
  intro k u hk hat
  exact h (k + 1) u (by simpa using hk) (by rwa [Nat.add_right_comm] at hat)

theorem tokens_token {p : Piece} {kind : Kind} (h : p.kind = .token kind) (line : Nat)
    (ps : List Piece) : tokens line (p :: ps) =
      ⟨kind, String.ofList p.text, line + p.newlines⟩ :: tokens (line + p.newlines) ps := by
  simp only [tokens, h]

theorem tokens_other {p : Piece} (h : ∀ kind, p.kind ≠ .token kind) (line : Nat)
    (ps : List Piece) : tokens line (p :: ps) = tokens (line + p.newlines) ps := by
  rw [tokens]
  split
  · exact absurd ‹_› (h _)
  · rfl

theorem rename_token {p : Piece} {kind : Kind} (h : p.kind = .token kind) (i : Nat)
    (ps : List Piece) : rename y at? i (p :: ps) =
      (if at? i then ⟨.token .identifier, y⟩ else p) :: rename y at? (i + 1) ps := by
  simp only [rename, h]

theorem rename_other {p : Piece} (h : ∀ kind, p.kind ≠ .token kind) (i : Nat)
    (ps : List Piece) : rename y at? i (p :: ps) = p :: rename y at? i ps := by
  rw [rename]
  split
  · exact absurd ‹_› (h _)
  · rfl

theorem renamed_rename {i line : Nat} (hsel : Selects at? i (tokens line ps))
    (hnames : ∀ p ∈ ps, p.kind = .token .identifier → isName p.text = true) :
    List.Forall₂ (Renamed y) ps (rename y at? i ps) := by
  induction ps generalizing i line with
  | nil => exact .nil
  | cons p ps ih =>
    obtain ⟨hp, hnames⟩ := List.forall_mem_cons.mp hnames
    by_cases h : ∃ kind, p.kind = .token kind
    · obtain ⟨kind, hkind⟩ := h
      rw [tokens_token hkind] at hsel
      rw [rename_token hkind]
      refine .cons ?_ (ih hsel.tail hnames)
      split
      · rename_i hat
        obtain rfl : kind = .identifier := hsel 0 _ rfl hat
        exact .inr ⟨hp hkind, hkind, rfl⟩
      · exact .inl rfl
    · rw [not_exists] at h
      rw [tokens_other h] at hsel
      rw [rename_other h]
      exact .cons (.inl rfl) (ih hsel hnames)

theorem tokens_rename (hy : isName y = true) {i line : Nat} (hsel : Selects at? i (tokens line ps))
    (hnames : ∀ p ∈ ps, p.kind = .token .identifier → isName p.text = true) :
    tokens line (rename y at? i ps) = respell (String.ofList y) at? i (tokens line ps) := by
  induction ps generalizing i line with
  | nil => rfl
  | cons p ps ih =>
    obtain ⟨hp, hnames⟩ := List.forall_mem_cons.mp hnames
    by_cases h : ∃ kind, p.kind = .token kind
    · obtain ⟨kind, hkind⟩ := h
      rw [tokens_token hkind] at hsel ⊢
      rw [rename_token hkind, respell]
      split
      · rename_i hat
        obtain rfl : kind = .identifier := hsel 0 _ rfl hat
        -- neither name ends a line
        have hlines : newlines ⟨.token .identifier, y⟩ = p.newlines :=
          (count_newline_of_isName hy).trans (count_newline_of_isName (hp hkind)).symm
        rw [tokens_token rfl, hlines, ih hsel.tail hnames]
      · rw [tokens_token hkind, ih hsel.tail hnames]
    · rw [not_exists] at h
      rw [tokens_other h] at hsel ⊢
      rw [rename_other h, tokens_other h, ih hsel hnames]

end

end Piece

open Piece

/-- Writes a name in place of the tokens of a text at some positions. -/
def renameText (y : String) (at? : Nat → Bool) (source : String) : String :=
  String.ofList (texts (rename y.toList at? 0 (split source.toList)))

theorem scan_renameText {y : String} (hy : isName y.toList = true) {at? : Nat → Bool}
    {source : String} (hs : (scan source).2 = []) (hsel : Selects at? 0 (tokensIn source)) :
    (scan (renameText y at? source)).2 = [] ∧
      tokensIn (renameText y at? source) = respell y at? 0 (tokensIn source) := by
  rw [scan_snd_eq_nil_iff] at hs
  have hnames : ∀ p ∈ split source.toList, p.kind = .token .identifier → isName p.text = true :=
    fun p hp hk => (identifier_iff hp).mp hk
  have hrenamed := renamed_rename (y := y.toList) hsel hnames
  obtain ⟨-, hcut, hfault⟩ := cut_renamed hy hrenamed (cut_split _) hs
  have hsplit : split (renameText y at? source).toList =
      rename y.toList at? 0 (split source.toList) := by
    rw [renameText, String.toList_ofList]
    exact split_texts hcut
  refine ⟨?_, ?_⟩
  · rw [scan_snd_eq_nil_iff, hsplit]
    exact hfault
  · rw [tokensIn, hsplit, tokens_rename hy hsel hnames, String.ofList_toList]
    rfl

end Treewalk
