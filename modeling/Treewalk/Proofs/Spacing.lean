import Treewalk.Proofs.Munch

/-!
# Writing tokens apart

In front of a blank, and at the end of a text, a token is cut off whatever followed it where
it was found (`ends_of_denotes`): no token goes on with a blank unless it is a string, and a
string is over at its second quote. So the lexemes of a text, written with a blank between any
two, are scanned as the tokens they were, also where the text had faults between them
(`scan_spaced`).
-/

namespace Treewalk

namespace Lexeme

open Piece

variable {w v after : List Char} {kind : Kind}

/-- Only strings have blanks in them. -/
theorem blank_notMem {k : Class} (h : w ∈ k.language) (hk : k ≠ .string) : ' ' ∉ w := by
  have hdigits : ∀ {ds : List Char}, Digits ds → ' ' ∉ ds := fun hds hmem =>
    absurd (hds.2 _ hmem) (by decide)
  intro hmem
  cases k with
  | operator =>
    have htable : ∀ s ∈ Symbol.punctuators, ' ' ∉ s.spelling.toList := by decide
    obtain ⟨s, hs⟩ := h
    obtain ⟨hs, hspelling⟩ := mem_operators.mp hs
    have hno := htable s hs
    rw [hspelling, String.toList_ofList] at hno
    exact hno hmem
  | string => exact hk rfl
  | number =>
    obtain ⟨whole, hwhole, rfl | ⟨fraction, hfraction, rfl⟩⟩ := mem_number.mp h
    · exact hdigits hwhole hmem
    · rcases List.mem_append.mp hmem with hmem | hmem
      · exact hdigits hwhole hmem
      · exact hdigits hfraction ((List.mem_cons.mp hmem).resolve_left (by decide))
  | word =>
    obtain ⟨c, v, hc, hv, rfl⟩ := mem_identifier.mp h
    rcases List.mem_cons.mp hmem with rfl | hmem
    · exact absurd hc (by decide)
    · exact absurd (hv _ hmem) (by decide)

/-- A string that goes on is no string. -/
theorem string_append_notMem (h : w ∈ string) (hv : v ≠ []) : w ++ v ∉ string := by
  intro hlong
  obtain ⟨body, -, rfl⟩ := mem_string.mp h
  obtain ⟨body', hbody', heq⟩ := mem_string.mp hlong
  rw [List.cons_append, List.cons.injEq] at heq
  have hdrop := congrArg List.dropLast heq.2
  rw [List.dropLast_append_of_ne_nil hv, List.dropLast_concat] at hdrop
  exact hbody' (hdrop ▸ by simp)

/-- A token is the longest that a text starts with if a blank or nothing follows. -/
theorem eq_of_starts (hw : w ∈ token) (hv : v ∈ token) (h : v <+: w ++ after)
    (hle : w.length ≤ v.length) (hafter : Stops (· != ' ') after) : v = w := by
  obtain ⟨u, rfl⟩ := List.prefix_of_prefix_length_le (List.prefix_append w after) h hle
  have hu := (List.prefix_append_right_inj w).mp h
  cases u with
  | nil => exact List.append_nil w
  | cons d u =>
    obtain ⟨rest, rfl⟩ := hu
    obtain rfl : d = ' ' := by simpa using stops_cons.mp hafter
    obtain ⟨k, hk⟩ := mem_token.mp hw
    cases w with
    | nil => exact absurd hk (nil_notMem_language k)
    | cons c w =>
      have hlong := mem_language (classOf_of_mem hk) hv
      by_cases hstring : k = .string
      · subst hstring
        exact absurd hlong (string_append_notMem hk (List.cons_ne_nil _ _))
      · exact absurd (by simp) (blank_notMem hlong hstring)

theorem cons_of_denotes (h : Denotes w kind) : ∃ c u, w = c :: u := by
  obtain ⟨k, hk⟩ := mem_token.mp h.mem_token
  cases w with
  | nil => exact absurd hk (nil_notMem_language k)
  | cons c u => exact ⟨c, u, rfl⟩

/-- No comment starts with a token that a blank or nothing follows. -/
theorem comment_not_starts (hw : w ∈ token) (hafter : Stops (· != ' ') after)
    (hv : v ∈ comment) : ¬ v <+: w ++ after := by
  intro h
  obtain ⟨body, -, rfl⟩ := mem_comment.mp hv
  obtain ⟨k, hk⟩ := mem_token.mp hw
  cases w with
  | nil => exact nil_notMem_language k hk
  | cons c w =>
    rw [List.cons_append, List.cons_prefix_cons] at h
    obtain ⟨rfl, h⟩ := h
    have hoperator := mem_language (show classOf '/' = some .operator by decide) hw
    rcases operator_tail hoperator (List.prefix_append w after) with rfl | ⟨rfl, -⟩
    · obtain ⟨rest, hrest⟩ := h
      rw [List.nil_append] at hrest
      exact absurd (stops_cons.mp (hrest ▸ hafter)) (by decide)
    · exact absurd (List.cons_prefix_cons.mp h).1 (by decide)

/-- A token is cut off in front of a blank and at the end of a text. -/
theorem ends_of_denotes (h : Denotes w kind) (hafter : Stops (· != ' ') after) :
    Ends ⟨.token kind, w⟩ after := by
  obtain ⟨c, u, rfl⟩ := cons_of_denotes h
  refine ⟨c, u, rfl, ?_⟩
  have hmunch := munch_first c (u ++ after)
  have htext := text_first c (u ++ after)
  revert hmunch htext
  generalize first c (u ++ after) = cut
  obtain ⟨p, rest⟩ := cut
  rw [← List.cons_append]
  intro hmunch htext
  have hstarts : c :: u <+: c :: u ++ after := List.prefix_append _ _
  have htoken : c :: u ∈ token + blank + comment := .inl (.inl h.mem_token)
  cases hmunch with
  | @token v kind' hdenotes hlongest =>
    obtain rfl := eq_of_starts h.mem_token hdenotes.mem_token ⟨rest, htext⟩
      (hlongest _ h.mem_token hstarts) hafter
    obtain rfl := h.unique hdenotes
    rw [show rest = after from List.append_cancel_left htext]
  | blank hblank =>
    obtain ⟨d, hd, rfl⟩ := hblank
    obtain ⟨rfl, -⟩ := List.cons.inj htext
    have hnone : classOf d = none := by
      simp only [List.mem_cons, List.not_mem_nil, or_false] at hd
      rcases hd with rfl | rfl | rfl | rfl <;> decide
    obtain ⟨k, hk⟩ := mem_token.mp h.mem_token
    simp [classOf_of_mem hk] at hnone
  | comment hcomment heq _ =>
    exact absurd ⟨_, heq.symm⟩ (comment_not_starts h.mem_token hafter hcomment)
  | unexpected hnone | unterminated hnone => exact absurd hstarts (hnone _ htoken)

end Lexeme

/-! ## Lexemes with blanks between them -/

namespace Piece

/-- What the scanner yields for a piece that is a token, but for the line. -/
def content? (p : Piece) : Option (Kind × String) :=
  match p.kind with
  | .token kind => some (kind, String.ofList p.text)
  | _ => none

/-- The piece is a token of the language. -/
def IsToken (p : Piece) : Prop :=
  ∃ kind, p.kind = .token kind ∧ Lexeme.Denotes p.text kind

def space : Piece :=
  ⟨.blank, [' ']⟩

/-- The pieces that are tokens. -/
def tokenPieces (ps : List Piece) : List Piece :=
  ps.filter fun p => p.content?.isSome

theorem isToken_of_mem_tokenPieces {text : List Char} :
    ∀ p ∈ tokenPieces (split text), p.IsToken := by
  intro p hp
  obtain ⟨hsplit, hcontent⟩ := List.mem_filter.mp hp
  obtain ⟨c, rest, rfl⟩ := mem_split hsplit
  have hmunch := Lexeme.munch_first c rest
  revert hmunch hcontent
  generalize (first c rest).1 = p
  intro hcontent hmunch
  cases hmunch with
  | token hdenotes _ => exact ⟨_, rfl, hdenotes⟩
  | blank _ | comment _ _ _ | unexpected _ | unterminated _ => cases hcontent

theorem cut_spaced {ps : List Piece} (h : ∀ p ∈ ps, p.IsToken) : Cut (ps.intersperse space) := by
  have hends : ∀ p ∈ ps, ∀ after, Stops (· != ' ') after → Ends p after := by
    rintro ⟨kind, text⟩ hp after hafter
    obtain ⟨kind, rfl, hdenotes⟩ := h _ hp
    exact Lexeme.ends_of_denotes hdenotes hafter
  clear h
  induction ps with
  | nil => trivial
  | cons p ps ih =>
    obtain ⟨hp, hps⟩ := List.forall_mem_cons.mp hends
    cases ps with
    | nil => exact ⟨hp _ stops_nil, trivial⟩
    | cons q ps =>
      rw [List.intersperse_cons_cons]
      exact ⟨hp _ (stops_cons.mpr (by decide)), ⟨' ', [], rfl, rfl⟩, ih hps⟩

theorem texts_spaced (ps : List Piece) :
    texts (ps.intersperse space) = [' '].intercalate (ps.map text) := by
  induction ps with
  | nil => rfl
  | cons p ps ih =>
    cases ps with
    | nil => simp
    | cons q ps =>
      rw [List.intersperse_cons_cons, texts_cons, texts_cons, ih]
      simp only [List.map_cons, List.intercalate_cons_cons, List.append_assoc, space]

theorem filterMap_content_spaced (ps : List Piece) :
    (ps.intersperse space).filterMap content? = ps.filterMap content? := by
  induction ps with
  | nil => rfl
  | cons p ps ih =>
    cases ps with
    | nil => rfl
    | cons q ps =>
      rw [List.intersperse_cons_cons, List.filterMap_cons, List.filterMap_cons (a := space), ih,
        List.filterMap_cons]
      rfl

theorem map_content_tokens (line : Nat) (ps : List Piece) :
    (tokens line ps).map (fun t => (t.kind, t.lexeme)) = ps.filterMap content? := by
  induction ps generalizing line with
  | nil => rfl
  | cons p ps ih =>
    rw [tokens, List.filterMap_cons, content?]
    cases p.kind <;> simp [ih]

theorem filterMap_content_tokenPieces (ps : List Piece) :
    (tokenPieces ps).filterMap content? = ps.filterMap content? := by
  induction ps with
  | nil => rfl
  | cons p ps ih =>
    rw [tokenPieces, List.filter_cons]
    cases hp : p.content? with
    | none => rw [List.filterMap_cons_none hp]; exact ih
    | some content =>
      rw [List.filterMap_cons_some hp]
      exact (List.filterMap_cons_some hp).trans (congrArg _ ih)

theorem map_toList_tokens (line : Nat) (ps : List Piece) :
    (tokens line ps).map (fun t => t.lexeme.toList) = (tokenPieces ps).map text := by
  induction ps generalizing line with
  | nil => rfl
  | cons p ps ih =>
    rw [tokens, tokenPieces, List.filter_cons, content?]
    cases p.kind <;> simp [ih, tokenPieces]

theorem mem_spaced {p : Piece} {ps : List Piece} (h : p ∈ ps.intersperse space) :
    p = space ∨ p ∈ ps := by
  induction ps with
  | nil => cases h
  | cons q ps ih =>
    cases ps with
    | nil => exact .inr h
    | cons r ps =>
      rw [List.intersperse_cons_cons, List.mem_cons, List.mem_cons] at h
      rcases h with rfl | rfl | h
      · exact .inr (List.mem_cons_self ..)
      · exact .inl rfl
      · exact (ih h).imp_right (List.mem_cons_of_mem q)

theorem IsToken.not_isFault {p : Piece} (h : p.IsToken) : ¬ p.IsFault := by
  obtain ⟨kind, hkind, -⟩ := h
  simp [IsFault, hkind]

end Piece

open Piece

/-- The lexemes of a text with a blank between any two of them. -/
def spaced (source : String) : String :=
  " ".intercalate (((scan source).1.filter fun t => !t.isEnd).map Token.lexeme)

theorem filter_scan_fst (source : String) :
    (scan source).1.filter (fun t => !t.isEnd) = tokensIn source := by
  have hnot : ∀ t ∈ tokensIn source, (!t.isEnd) = true := fun t ht => by
    have hne := kind_ne_of_mem_tokensIn ht
    unfold Token.isEnd
    split <;> simp_all
  rw [scan_fst, List.filter_append, List.filter_eq_self.mpr hnot]
  exact List.append_nil _

theorem toList_spaced (source : String) :
    (spaced source).toList = texts ((tokenPieces (split source.toList)).intersperse space) := by
  have hlexemes : (tokensIn source).map (fun t => t.lexeme.toList) =
      (tokenPieces (split source.toList)).map text := map_toList_tokens 1 _
  rw [spaced, filter_scan_fst, String.toList_intercalate, texts_spaced, ← hlexemes, List.map_map]
  rfl

theorem split_spaced (source : String) :
    split (spaced source).toList = (tokenPieces (split source.toList)).intersperse space := by
  rw [toList_spaced]
  exact split_texts (cut_spaced isToken_of_mem_tokenPieces)

/-- The lexemes of a text, written with blanks between them, are scanned without a fault and
give the kinds, payloads and lexemes that they had in the text, in order. -/
theorem scan_spaced (source : String) :
    (scan (spaced source)).2 = [] ∧
    (scan (spaced source)).1.map (fun t => (t.kind, t.lexeme)) =
      (scan source).1.map fun t => (t.kind, t.lexeme) := by
  constructor
  · rw [scan_snd_eq_nil_iff, split_spaced]
    intro p hp
    rcases mem_spaced hp with rfl | hp
    · simp [IsFault, space]
    · exact (isToken_of_mem_tokenPieces p hp).not_isFault
  · simp only [scan_fst, List.map_append, tokensIn, map_content_tokens, split_spaced,
      filterMap_content_spaced, filterMap_content_tokenPieces, List.map_cons, List.map_nil,
      Token.endOfFile]

/-- What a fault stood between does not become one operator. -/
example : spaced "!€=1.5.x//y\n/\"//\"" = "! = 1.5 . x / \"//\"" := by decide +kernel

end Treewalk
