import Treewalk.Token.Scan

/-!
# Cutting a text again

`Piece.split` cuts a text into pieces that put together give it back, each as long
as what follows allows (`Cut`), and there is only one such way to cut a text
(`split_texts`). Where a piece ends depends on the next few characters alone: if
they are replaced by ones that are no more fit to go on with it (`Alike`), it ends
in the same place (`Ends.of_alike`). Only a string that is never closed is not
bounded in this way.
-/

namespace Treewalk.Piece

/-! ## What the next characters decide -/

/-- The text does not go on with a character that passes the test. -/
def Stops (q : Char → Bool) (text : List Char) : Prop :=
  ∀ c ∈ text.head?, q c = false

/-- The text goes on with a point and a digit. -/
def Fraction (text : List Char) : Prop :=
  ∃ d rest, text = '.' :: d :: rest ∧ d.isDigit = true

/-- Whatever can end in front of `a` can end in front of `a'`. -/
structure Alike (a a' : List Char) : Prop where
  word : Stops inWord a → Stops inWord a'
  digit : Stops Char.isDigit a → Stops Char.isDigit a'
  equal : Stops (· == '=') a → Stops (· == '=') a'
  slash : Stops (· == '/') a → Stops (· == '/') a'
  line : Stops (· != '\n') a → Stops (· != '\n') a'
  fraction : Fraction a' → Fraction a

section

variable {q : Char → Bool} {c : Char} {text a a' body : List Char}

theorem stops_nil : Stops q [] := nofun

theorem stops_cons : Stops q (c :: text) ↔ q c = false := by
  simp [Stops]

theorem Stops.of_head (hs : Stops q a) (h : a'.head? = a.head?) : Stops q a' :=
  fun c hc => hs c (h ▸ hc)

theorem stops_dropWhile : Stops q (text.dropWhile q) := by
  have h := List.head?_dropWhile_not q text
  intro c hc
  rw [Option.mem_def] at hc
  simpa only [hc] using h

theorem Stops.takeWhile_append (h : Stops q a) (hb : ∀ c ∈ body, q c = true) :
    (body ++ a).takeWhile q = body := by
  rw [List.takeWhile_append_of_pos hb]
  cases a with
  | nil => simp
  | cons c a => rw [List.takeWhile_cons_of_neg (by simp [stops_cons.mp h]), List.append_nil]

theorem Stops.dropWhile_append (h : Stops q a) (hb : ∀ c ∈ body, q c = true) :
    (body ++ a).dropWhile q = a := by
  rw [List.dropWhile_append_of_pos hb]
  cases a with
  | nil => rfl
  | cons c a => exact List.dropWhile_cons_of_neg (by simp [stops_cons.mp h])

/-- A longest run is one in front of anything else that stops it. -/
theorem run_append (text : List Char) (h : Stops q a) :
    (text.takeWhile q ++ a).takeWhile q = text.takeWhile q ∧
      (text.takeWhile q ++ a).dropWhile q = a := by
  have hall := List.all_eq_true.mp (List.all_takeWhile (p := q) (l := text))
  exact ⟨h.takeWhile_append hall, h.dropWhile_append hall⟩

theorem stops_beq : Stops (· == c) text ↔ ∀ rest, text ≠ c :: rest := by
  cases text with
  | nil => simp [Stops]
  | cons e text => simp [stops_cons]

theorem Alike.append (h : Alike a a') (u : List Char) : Alike (u ++ a) (u ++ a') := by
  match u with
  | [] => exact h
  | [c] =>
    refine ⟨?_, ?_, ?_, ?_, ?_, ?_⟩
    iterate 5 exact fun hs => hs.of_head rfl
    rintro ⟨d, rest, htext, hd⟩
    obtain ⟨rfl, ha'⟩ := List.cons.inj htext
    -- the digit after the point cannot be new
    by_cases hstops : Stops Char.isDigit a
    · have hnone := h.digit hstops
      rw [show a' = d :: rest from ha', stops_cons] at hnone
      simp [hnone] at hd
    · cases a with
      | nil => exact absurd stops_nil hstops
      | cons e a =>
        rw [stops_cons, Bool.not_eq_false] at hstops
        exact ⟨e, a, rfl, hstops⟩
  | c :: d :: u =>
    refine ⟨?_, ?_, ?_, ?_, ?_, ?_⟩
    iterate 5 exact fun hs => hs.of_head rfl
    rintro ⟨e, rest, htext, he⟩
    simp only [List.cons_append, List.cons.injEq] at htext
    obtain ⟨rfl, rfl, -⟩ := htext
    exact ⟨d, _, rfl, he⟩

end

/-! ## The rules for the first piece -/

/-- The characters that stand between tokens. -/
def blanks : List Char :=
  [' ', '\r', '\t', '\n']

/-- Some punctuator starts with the character. -/
def punctuates (c : Char) : Bool :=
  Symbol.punctuators.any fun s => some c == s.spelling.toList.head?

/-- The ways to cut off a piece that starts with `c`. -/
inductive Rule (c : Char) : (List Char → Piece × List Char) → Prop
  | symbol (s : Symbol) : startsWord c = false → s.spelling = String.ofList [c] →
    (∀ t ∈ Symbol.punctuators, t.spelling ≠ String.ofList [c, '=']) → Rule c (Piece.symbol s [c])
  | orEqual (short long : Symbol) : startsWord c = false → short.spelling = String.ofList [c] →
    long.spelling = String.ofList [c, '='] → Rule c (Piece.orEqual c short long)
  | blank : startsWord c = false → c ∈ blanks → Rule c fun rest => (⟨.blank, [c]⟩, rest)
  | slash : startsWord c = false → Symbol.slash.spelling = String.ofList [c] →
    Rule c (Piece.slash c)
  | string : startsWord c = false → c = '"' → Rule c (Piece.string c)
  | number : startsWord c = false → c.isDigit = true → Rule c (Piece.number c)
  | word : startsWord c = true → Rule c (Piece.word c)
  | unexpected : startsWord c = false → c.isDigit = false → c ∉ '"' :: blanks →
    punctuates c = false → Rule c fun rest => (⟨.unexpected, [c]⟩, rest)

theorem startsWord_of_isDigit {c : Char} (h : c.isDigit = true) : startsWord c = false := by
  simp only [Char.isDigit, Bool.and_eq_true, decide_eq_true_eq, ge_iff_le,
    UInt32.le_iff_toNat_le] at h
  change 48 ≤ c.val.toNat ∧ c.val.toNat ≤ 57 at h
  have hupper : c.isUpper = false := by
    refine decide_eq_false fun hc => ?_
    have hc : 65 ≤ c.val.toNat ∧ c.val.toNat ≤ 90 := hc
    omega
  have hlower : c.isLower = false := by
    refine Bool.and_eq_false_iff.mpr ?_
    rw [decide_eq_false_iff_not, decide_eq_false_iff_not]
    change ¬ 97 ≤ c.val.toNat ∨ ¬ c.val.toNat ≤ 122
    omega
  have hunderscore : c ≠ '_' := by
    rintro rfl
    revert h
    decide
  show (c.isUpper || c.isLower || c == '_') = false
  rw [hupper, hlower, beq_eq_false_iff_ne.mpr hunderscore]
  rfl

theorem rule_first (c : Char) : Rule c (first c) := by
  unfold first
  split
  iterate 10 exact .symbol _ (by decide) (by decide) (by decide)
  iterate 4 exact .orEqual _ _ (by decide) (by decide) (by decide)
  iterate 4 exact .blank (by decide) (by decide)
  · exact .slash (by decide) (by decide)
  · exact .string (by decide) rfl
  · split
    · rename_i h
      exact .number (startsWord_of_isDigit h) h
    · rename_i hdigit
      split
      · rename_i h
        exact .word h
      · rename_i h
        refine .unexpected (by simpa using h) (by simpa using hdigit) ?_ ?_
        · simp_all [blanks]
        · simp_all [punctuates, Symbol.punctuators, Symbol.spelling]

/-! ## Where a piece ends -/

/-- A rule cuts off a piece that starts with `c`, and cuts it off again in front of
any text that is alike what followed. -/
def Local (c : Char) (f : List Char → Piece × List Char) : Prop :=
  ∀ rest, ∃ body, (f rest).1.text = c :: body ∧ rest = body ++ (f rest).2 ∧
    ((f rest).1.kind ≠ .unterminated → ∀ a, Alike (f rest).2 a → f (body ++ a) = ((f rest).1, a))

theorem local_single (c : Char) (kind : PieceKind) : Local c fun rest => (⟨kind, [c]⟩, rest) :=
  fun _ => ⟨[], rfl, rfl, fun _ _ _ => rfl⟩

theorem local_orEqual (c : Char) (short long : Symbol) : Local c (orEqual c short long) := by
  intro rest
  unfold orEqual
  split
  · exact ⟨['='], rfl, rfl, fun _ _ _ => rfl⟩
  · rename_i hne
    refine ⟨[], rfl, rfl, fun _ a ha => ?_⟩
    have hne' := stops_beq.mp (ha.equal (stops_beq.mpr hne))
    rw [List.nil_append]
    split
    · exact absurd rfl (hne' _)
    · rfl

theorem local_slash (c : Char) : Local c (slash c) := by
  intro rest
  unfold slash
  split
  · rename_i rest
    refine ⟨'/' :: rest.takeWhile (· != '\n'), rfl, ?_, fun _ a ha => ?_⟩
    · rw [List.cons_append, List.takeWhile_append_dropWhile]
    · obtain ⟨ht, hd⟩ := run_append rest (ha.line stops_dropWhile)
      rw [List.cons_append]
      simp only [ht, hd]
  · rename_i hne
    refine ⟨[], rfl, rfl, fun _ a ha => ?_⟩
    have hne' := stops_beq.mp (ha.slash (stops_beq.mpr hne))
    rw [List.nil_append]
    split
    · exact absurd rfl (hne' _)
    · rfl

theorem local_string (c : Char) : Local c (string c) := by
  intro rest
  unfold string
  simp only
  have hsplit := List.takeWhile_append_dropWhile (p := (· != '"')) (l := rest)
  split
  · exact ⟨rest, rfl, (List.append_nil rest).symm, fun h => absurd rfl h⟩
  · rename_i quote after hafter
    refine ⟨rest.takeWhile (· != '"') ++ [quote], rfl, ?_, fun _ a _ => ?_⟩
    · rw [List.append_assoc, List.singleton_append, ← hafter, hsplit]
    · -- the quote ends the string whatever follows
      have hquote : Stops (· != '"') (quote :: after) := hafter ▸ stops_dropWhile
      obtain ⟨ht, hd⟩ := run_append rest (a := quote :: a) (hquote.of_head rfl)
      rw [List.append_assoc, List.singleton_append, ht, hd]

theorem local_word (c : Char) : Local c (word c) := by
  intro rest
  refine ⟨rest.takeWhile inWord, rfl, List.takeWhile_append_dropWhile.symm, fun _ a ha => ?_⟩
  obtain ⟨ht, hd⟩ := run_append rest (ha.word stops_dropWhile)
  unfold word
  simp only [ht, hd]

theorem number_of_fraction {c d : Char} {rest after : List Char}
    (h : rest.dropWhile Char.isDigit = '.' :: d :: after) (hd : d.isDigit = true) :
    number c rest = (⟨.token (.number (numeral (c :: rest.takeWhile Char.isDigit)
      (d :: after.takeWhile Char.isDigit))), c :: rest.takeWhile Char.isDigit ++
      '.' :: d :: after.takeWhile Char.isDigit⟩, after.dropWhile Char.isDigit) := by
  unfold number
  simp only [h, hd, ↓reduceIte]

theorem number_of_not_fraction {c : Char} {rest : List Char}
    (h : ¬ Fraction (rest.dropWhile Char.isDigit)) :
    number c rest = (⟨.token (.number (numeral (c :: rest.takeWhile Char.isDigit) [])),
      c :: rest.takeWhile Char.isDigit⟩, rest.dropWhile Char.isDigit) := by
  unfold number
  simp only
  split
  · rename_i d after hafter
    rw [hafter] at h
    rw [if_neg fun hd => h ⟨d, after, rfl, hd⟩, hafter]
  · rfl

theorem local_number (c : Char) : Local c (number c) := by
  intro rest
  have hsplit := List.takeWhile_append_dropWhile (p := Char.isDigit) (l := rest)
  by_cases h : Fraction (rest.dropWhile Char.isDigit)
  · obtain ⟨d, after, hafter, hd⟩ := h
    rw [number_of_fraction hafter hd]
    refine ⟨rest.takeWhile Char.isDigit ++ '.' :: d :: after.takeWhile Char.isDigit, rfl, ?_,
      fun _ a ha => ?_⟩
    · rw [hafter] at hsplit
      simp only [List.append_assoc, List.cons_append, List.takeWhile_append_dropWhile, hsplit]
    · obtain ⟨ht, hd'⟩ := run_append after (ha.digit stops_dropWhile)
      have hpoint : Stops Char.isDigit ('.' :: d :: (after.takeWhile Char.isDigit ++ a)) :=
        stops_cons.mpr (by decide)
      obtain ⟨ht', hd''⟩ := run_append rest hpoint
      simp only [List.append_assoc, List.cons_append]
      rw [number_of_fraction hd'' hd, ht', ht, hd']
      rfl
  · rw [number_of_not_fraction h]
    refine ⟨rest.takeWhile Char.isDigit, rfl, hsplit.symm, fun _ a ha => ?_⟩
    obtain ⟨ht, hd⟩ := run_append rest (ha.digit stops_dropWhile)
    rw [number_of_not_fraction (by rw [hd]; exact fun hf => h (ha.fraction hf)), ht, hd]

theorem Rule.isLocal {c : Char} {f : List Char → Piece × List Char} (h : Rule c f) : Local c f := by
  cases h with
  | symbol s _ _ _ => exact local_single c _
  | orEqual short long _ _ _ => exact local_orEqual c short long
  | blank _ _ => exact local_single c _
  | slash _ _ => exact local_slash c
  | string _ _ => exact local_string c
  | number _ _ => exact local_number c
  | word _ => exact local_word c
  | unexpected _ _ _ _ => exact local_single c _

/-- The piece is cut off in front of `after`. -/
def Ends (p : Piece) (after : List Char) : Prop :=
  ∃ c body, p.text = c :: body ∧ first c (body ++ after) = (p, after)

theorem ends_first (c : Char) (rest : List Char) : Ends (first c rest).1 (first c rest).2 := by
  obtain ⟨body, htext, hrest, _⟩ := (rule_first c).isLocal rest
  exact ⟨c, body, htext, by rw [← hrest]⟩

theorem text_first (c : Char) (rest : List Char) :
    (first c rest).1.text ++ (first c rest).2 = c :: rest := by
  obtain ⟨body, htext, hrest, _⟩ := (rule_first c).isLocal rest
  rw [htext, List.cons_append, ← hrest]

theorem Ends.of_alike {p : Piece} {a a' : List Char} (h : Ends p a) (hp : p.kind ≠ .unterminated)
    (ha : Alike a a') : Ends p a' := by
  obtain ⟨c, body, htext, hfirst⟩ := h
  obtain ⟨body', htext', hrest, hlocal⟩ := (rule_first c).isLocal (body ++ a)
  rw [hfirst] at htext' hlocal
  obtain rfl : body = body' := (List.cons.inj (htext.symm.trans htext')).2
  exact ⟨c, body, htext, hlocal hp a' ha⟩

/-! ## All pieces of a text -/

/-- The pieces put together. -/
def texts (ps : List Piece) : List Char :=
  ps.flatMap text

@[simp] theorem texts_nil : texts [] = [] := rfl

@[simp] theorem texts_cons (p : Piece) (ps : List Piece) : texts (p :: ps) = p.text ++ texts ps :=
  rfl

@[simp] theorem texts_append (ps qs : List Piece) : texts (ps ++ qs) = texts ps ++ texts qs :=
  List.flatMap_append

/-- Each piece is cut off in front of the ones after it. -/
def Cut : List Piece → Prop
  | [] => True
  | p :: ps => Ends p (texts ps) ∧ Cut ps

theorem length_first (c : Char) (rest : List Char) :
    (first c rest).2.length ≤ rest.length := by
  obtain ⟨body, _, hrest, _⟩ := (rule_first c).isLocal rest
  exact (congrArg List.length hrest).symm ▸ List.length_append ▸ Nat.le_add_left _ _

/-- Induction on a text, piece by piece. -/
theorem split_induction {P : List Char → Prop} (nil : P [])
    (cons : ∀ c rest, P (first c rest).2 → P (c :: rest)) (text : List Char) : P text := by
  suffices hacc : ∀ n text, text.length ≤ n → P text from hacc _ text (Nat.le_refl _)
  intro n
  induction n with
  | zero =>
    intro text hn
    rw [List.eq_nil_of_length_eq_zero (Nat.le_zero.mp hn)]
    exact nil
  | succ n ih =>
    intro text hn
    cases text with
    | nil => exact nil
    | cons c rest =>
      have hlen := length_first c rest
      rw [List.length_cons] at hn
      exact cons c rest (ih _ (by omega))

theorem splitFrom_cons (fuel : Nat) (c : Char) (rest : List Char) (found : List Piece) :
    splitFrom (fuel + 1) (c :: rest) found =
      splitFrom fuel (first c rest).2 ((first c rest).1 :: found) := rfl

/-- The fuel and the pieces found before do not matter. -/
theorem splitFrom_eq {fuel : Nat} {text : List Char} (found : List Piece)
    (h : text.length ≤ fuel) : splitFrom fuel text found = found.reverse ++ split text := by
  induction text using split_induction generalizing fuel found with
  | nil => cases fuel <;> simp [splitFrom, split]
  | cons c rest ih =>
    have hlen := length_first c rest
    cases fuel with
    | zero => simp at h
    | succ fuel =>
      rw [split, List.length_cons, splitFrom_cons, splitFrom_cons, ih _ hlen,
        ih _ (Nat.le_trans hlen (Nat.le_of_succ_le_succ h))]
      simp

theorem split_cons (c : Char) (rest : List Char) :
    split (c :: rest) = (first c rest).1 :: split (first c rest).2 := by
  rw [split, List.length_cons, splitFrom_cons, splitFrom_eq _ (length_first c rest)]
  rfl

theorem texts_split (text : List Char) : texts (split text) = text := by
  induction text using split_induction with
  | nil => rfl
  | cons c rest ih => rw [split_cons, texts_cons, ih, text_first]

theorem cut_split (text : List Char) : Cut (split text) := by
  induction text using split_induction with
  | nil => trivial
  | cons c rest ih =>
    rw [split_cons]
    exact ⟨by rw [texts_split]; exact ends_first c rest, ih⟩

/-- There is no other way to cut a text. -/
theorem split_texts {ps : List Piece} (h : Cut ps) : split (texts ps) = ps := by
  induction ps with
  | nil => rfl
  | cons p ps ih =>
    obtain ⟨⟨c, body, htext, hfirst⟩, hps⟩ := h
    rw [texts_cons, htext, List.cons_append, split_cons, hfirst, ih hps]

end Treewalk.Piece
