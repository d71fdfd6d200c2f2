import Treewalk.Proofs.Lexemes

/-!
# The first piece of a text

The first piece of a text is told from the language of tokens alone (`munch_first`): it is a
token if the text starts with one, and then the longest that it starts with; it is a fault
only if the text starts with neither a token nor a blank nor a comment.
-/

namespace Treewalk.Lexeme

open Piece

/-! ## What a text starts with -/

section

variable {c : Char} {w v rest : List Char} {s : Symbol}

theorem cons_of_token (hv : v ∈ token) (h : v <+: c :: rest) : ∃ u, v = c :: u ∧ u <+: rest := by
  cases v with
  | nil =>
    obtain ⟨k, hk⟩ := mem_token.mp hv
    exact absurd hk (nil_notMem_language k)
  | cons d u =>
    obtain ⟨rfl, hu⟩ := List.cons_prefix_cons.mp h
    exact ⟨u, rfl, hu⟩

/-- An operator that a text starts with has one character, or two if the next is `=`. -/
theorem operator_tail (h : c :: w ∈ operator) (hw : w <+: rest) :
    w = [] ∨ w = ['='] ∧ ∃ after, rest = '=' :: after := by
  have htable : ∀ s ∈ Symbol.punctuators,
      s.spelling.toList.tail = [] ∨ s.spelling.toList.tail = ['='] := by decide
  obtain ⟨s, hs⟩ := h
  obtain ⟨hs, hspelling⟩ := mem_operators.mp hs
  have htail := htable s hs
  rw [hspelling, String.toList_ofList, List.tail_cons] at htail
  refine htail.imp_right fun heq => ⟨heq, ?_⟩
  obtain ⟨after, hafter⟩ := hw
  exact ⟨after, by rw [← hafter, heq]; rfl⟩

theorem punctuator_of_tail (h : s.spelling.toList.tail ∈ [[], ['=']]) :
    s ∈ Symbol.punctuators := by
  revert h
  cases s <;> decide

end

/-! ## The first piece -/

/-- The first piece of a text, told from the language of tokens. -/
inductive Munch (text : List Char) : Piece → Prop
  | token {w : List Char} {kind : Kind} : Denotes w kind →
    (∀ v ∈ token, v <+: text → v.length ≤ w.length) → Munch text ⟨.token kind, w⟩
  | blank {w : List Char} : w ∈ blank → Munch text ⟨.blank, w⟩
  | comment {w rest : List Char} : w ∈ comment → text = w ++ rest → Stops (· != '\n') rest →
    Munch text ⟨.comment, w⟩
  | unexpected {c : Char} : (∀ v ∈ Lexeme.token + Lexeme.blank + Lexeme.comment, ¬ v <+: text) →
    Munch text ⟨.unexpected, [c]⟩
  | unterminated : (∀ v ∈ Lexeme.token + Lexeme.blank + Lexeme.comment, ¬ v <+: text) →
    Munch text ⟨.unterminated, text⟩

section

variable {c : Char} {s : Symbol} {rest : List Char}

theorem munch_single (hs : s.spelling = String.ofList [c])
    (hlong : ∀ after, rest = '=' :: after →
      ∀ t ∈ Symbol.punctuators, t.spelling ≠ String.ofList [c, '=']) :
    Munch (c :: rest) ⟨.token (.symbol s), [c]⟩ := by
  have hsymbol := mem_operators.mpr ⟨punctuator_of_tail (by simp [hs]), hs⟩
  refine .token (.operator hsymbol) fun v hv hstarts => ?_
  obtain ⟨u, rfl, hu⟩ := cons_of_token hv hstarts
  have hoperator := mem_language (classOf_operator (head_operator ⟨s, hsymbol⟩)) hv
  rcases operator_tail hoperator hu with rfl | ⟨rfl, after, hafter⟩
  · exact Nat.le_refl _
  · obtain ⟨t, ht⟩ := hoperator
    obtain ⟨ht, hspelling⟩ := mem_operators.mp ht
    exact absurd hspelling (hlong after hafter t ht)

theorem munch_pair (hs : s.spelling = String.ofList [c, '=']) :
    Munch (c :: '=' :: rest) ⟨.token (.symbol s), [c, '=']⟩ := by
  have hsymbol := mem_operators.mpr ⟨punctuator_of_tail (by simp [hs]), hs⟩
  refine .token (.operator hsymbol) fun v hv hstarts => ?_
  obtain ⟨u, rfl, hu⟩ := cons_of_token hv hstarts
  have hoperator := mem_language (classOf_operator (head_operator ⟨s, hsymbol⟩)) hv
  rcases operator_tail hoperator hu with rfl | ⟨rfl, -⟩ <;> simp

theorem munch_orEqual {short long : Symbol} (hshort : short.spelling = String.ofList [c])
    (hlong : long.spelling = String.ofList [c, '=']) (rest : List Char) :
    Munch (c :: rest) (orEqual c short long rest).1 := by
  unfold orEqual
  split
  · exact munch_pair hlong
  · rename_i hne
    exact munch_single hshort fun after hafter => absurd hafter (hne after)

theorem munch_slash (rest : List Char) : Munch ('/' :: rest) (slash '/' rest).1 := by
  unfold slash
  split
  · rename_i rest
    have hbody : '\n' ∉ rest.takeWhile (· != '\n') := fun h => by
      simpa using List.all_eq_true.mp (List.all_takeWhile (p := (· != '\n')) (l := rest)) _ h
    have htext : '/' :: '/' :: rest =
        '/' :: '/' :: rest.takeWhile (· != '\n') ++ rest.dropWhile (· != '\n') := by
      rw [List.cons_append, List.cons_append, List.takeWhile_append_dropWhile]
    exact .comment (mem_comment.mpr ⟨_, hbody, rfl⟩) htext stops_dropWhile
  · exact munch_single rfl fun _ _ => by decide

theorem length_le_takeWhile {q : Char → Bool} {v text : List Char} (hv : ∀ c ∈ v, q c = true)
    (h : v <+: text) : v.length ≤ (text.takeWhile q).length := by
  obtain ⟨after, rfl⟩ := h
  rw [List.takeWhile_append_of_pos hv, List.length_append]
  exact Nat.le_add_right _ _

theorem munch_word (hc : startsWord c = true) (rest : List Char) :
    Munch (c :: rest) (word c rest).1 := by
  have hin := List.all_eq_true.mp (List.all_takeWhile (p := inWord) (l := rest))
  have hword : c :: rest.takeWhile inWord ∈ identifier := mem_identifier.mpr ⟨c, _, hc, hin, rfl⟩
  refine .token ?_ fun v hv hstarts => ?_
  · cases hw : Symbol.ofWord? (String.ofList (c :: rest.takeWhile inWord)) with
    | none =>
      refine .identifier hword fun s hs => ?_
      obtain ⟨hs, hspelling⟩ := mem_reserved.mp hs
      exact List.find?_eq_none.mp hw s hs (beq_iff_eq.mpr hspelling)
    | some s =>
      have hspelling := (spelling_of_ofWord? hw).symm
      exact .reserved (mem_reserved.mpr ⟨List.mem_of_find?_eq_some hw, hspelling⟩)
  · obtain ⟨u, rfl, hu⟩ := cons_of_token hv hstarts
    obtain ⟨_, _, -, hu', heq⟩ := mem_identifier.mp (mem_language (classOf_word hc) hv)
    obtain ⟨rfl, rfl⟩ := List.cons.inj heq
    exact Nat.succ_le_succ (length_le_takeWhile hu' hu)

/-- A numeral with a point has all the digits in front of the point, and the text goes
on with a point and a digit after them. -/
theorem fraction_of_starts {whole fraction text : List Char} (hwhole : Digits whole)
    (hfraction : Digits fraction) (h : whole ++ '.' :: fraction <+: text) :
    whole = text.takeWhile Char.isDigit ∧ ∃ d after,
      text.dropWhile Char.isDigit = '.' :: d :: after ∧ d.isDigit = true ∧
        fraction.length ≤ (d :: after.takeWhile Char.isDigit).length := by
  obtain ⟨tail, rfl⟩ := h
  obtain ⟨hne, hdigits⟩ := hfraction
  obtain ⟨d, fraction, rfl⟩ := List.exists_cons_of_ne_nil hne
  obtain ⟨hd, hfraction⟩ := List.forall_mem_cons.mp hdigits
  have hstops : Stops Char.isDigit ('.' :: d :: (fraction ++ tail)) := stops_cons.mpr (by decide)
  rw [List.append_assoc]
  refine ⟨(hstops.takeWhile_append hwhole.2).symm, d, fraction ++ tail,
    hstops.dropWhile_append hwhole.2, hd, ?_⟩
  exact Nat.succ_le_succ (length_le_takeWhile hfraction (List.prefix_append ..))

/-- A token that begins with a digit is no longer than the digits in front, unless a fraction
follows them, and then than the digits with the fraction. -/
theorem length_le_of_digit (hc : c.isDigit = true) {v : List Char} (hv : v ∈ token)
    (hstarts : v <+: c :: rest) :
    v.length ≤ (c :: rest.takeWhile Char.isDigit).length ∨
    ∃ d after, rest.dropWhile Char.isDigit = '.' :: d :: after ∧ d.isDigit = true ∧
      v.length ≤
        (c :: rest.takeWhile Char.isDigit ++ '.' :: d :: after.takeWhile Char.isDigit).length := by
  rw [← List.takeWhile_cons_of_pos (p := Char.isDigit) hc,
    ← List.dropWhile_cons_of_pos (p := Char.isDigit) (l := rest) hc]
  obtain ⟨u, rfl, -⟩ := cons_of_token hv hstarts
  obtain ⟨whole, hw, heq | ⟨fraction, hf, heq⟩⟩ :=
    mem_number.mp (mem_language (classOf_number hc) hv)
  · exact .inl (length_le_takeWhile (heq ▸ hw.2) hstarts)
  · rw [heq] at hstarts ⊢
    obtain ⟨rfl, d, after, hafter, hd, hle⟩ := fraction_of_starts hw hf hstarts
    refine .inr ⟨d, after, hafter, hd, ?_⟩
    rw [List.length_append, List.length_append]
    exact Nat.add_le_add_left (Nat.succ_le_succ hle) _

theorem munch_number (hc : c.isDigit = true) (rest : List Char) :
    Munch (c :: rest) (Piece.number c rest).1 := by
  have hall : ∀ text : List Char, ∀ d ∈ text.takeWhile Char.isDigit, d.isDigit = true := fun text =>
    List.all_eq_true.mp (List.all_takeWhile (p := Char.isDigit) (l := text))
  have hwhole : Digits (c :: rest.takeWhile Char.isDigit) :=
    ⟨List.cons_ne_nil _ _, List.forall_mem_cons.mpr ⟨hc, hall _⟩⟩
  by_cases h : Fraction (rest.dropWhile Char.isDigit)
  · obtain ⟨d, after, hafter, hd⟩ := h
    rw [number_of_fraction hafter hd]
    have hfraction : Digits (d :: after.takeWhile Char.isDigit) :=
      ⟨List.cons_ne_nil _ _, List.forall_mem_cons.mpr ⟨hd, hall _⟩⟩
    refine .token (denotes_fraction hwhole hfraction) fun v hv hstarts => ?_
    rcases length_le_of_digit hc hv hstarts with hle | ⟨d', after', hafter', -, hle⟩
    · rw [List.length_append]
      exact Nat.le_add_right_of_le hle
    · obtain ⟨rfl, rfl⟩ : d = d' ∧ after = after' := by simpa using hafter.symm.trans hafter'
      exact hle
  · rw [number_of_not_fraction h]
    refine .token (denotes_whole hwhole) fun v hv hstarts => ?_
    rcases length_le_of_digit hc hv hstarts with hle | ⟨d, after, hafter, hd, -⟩
    · exact hle
    · exact absurd ⟨d, after, hafter, hd⟩ h

/-- Nothing that could be read starts a text if no token does. -/
theorem fault_of_token (hblank : c ∉ blanks) (hslash : c ≠ '/')
    (htoken : ∀ u, u <+: rest → c :: u ∉ token) :
    ∀ v ∈ token + blank + comment, ¬ v <+: c :: rest := by
  intro v hv hstarts
  rw [Language.mem_add, Language.mem_add] at hv
  rcases hv with (hv | ⟨d, hd, rfl⟩) | hv
  · obtain ⟨u, rfl, hu⟩ := cons_of_token hv hstarts
    exact htoken u hu hv
  · exact hblank ((List.cons_prefix_cons.mp hstarts).1 ▸ hd)
  · obtain ⟨body, -, rfl⟩ := mem_comment.mp hv
    exact hslash (List.cons_prefix_cons.mp hstarts).1.symm

theorem munch_string (rest : List Char) : Munch ('"' :: rest) (Piece.string '"' rest).1 := by
  -- a string that the text starts with ends at the first quote
  have hquote : ∀ u, u <+: rest → '"' :: u ∈ token → ∃ after,
      u = rest.takeWhile (· != '"') ++ ['"'] ∧ rest.dropWhile (· != '"') = '"' :: after := by
    intro u hu htoken
    obtain ⟨body, hbody, heq⟩ := mem_string.mp (mem_language classOf_string htoken)
    obtain ⟨-, rfl⟩ := List.cons.inj heq
    obtain ⟨after, rfl⟩ := hu
    have hstops : Stops (· != '"') ('"' :: after) := stops_cons.mpr (by decide)
    have hall : ∀ c ∈ body, (c != '"') = true := fun c hc =>
      bne_iff_ne.mpr fun heq => hbody (heq ▸ hc)
    rw [List.append_assoc, List.singleton_append]
    exact ⟨after, by rw [hstops.takeWhile_append hall], hstops.dropWhile_append hall⟩
  unfold Piece.string
  simp only
  split
  · rename_i hnil
    refine .unterminated (fault_of_token (by decide) (by decide) fun u hu htoken => ?_)
    obtain ⟨after, -, hafter⟩ := hquote u hu htoken
    simp [hnil] at hafter
  · rename_i quote after hafter
    have hbody : '"' ∉ rest.takeWhile (· != '"') := fun h => by
      simpa using List.all_eq_true.mp (List.all_takeWhile (p := (· != '"')) (l := rest)) _ h
    have hstops : Stops (· != '"') (quote :: after) := hafter ▸ stops_dropWhile
    obtain rfl : quote = '"' := by simpa using stops_cons.mp hstops
    refine .token (.string (mem_string.mpr ⟨_, hbody, rfl⟩)) fun v hv hstarts => ?_
    obtain ⟨u, rfl, hu⟩ := cons_of_token hv hstarts
    obtain ⟨_, rfl, -⟩ := hquote u hu hv
    exact Nat.le_refl _

theorem munch_unexpected (hword : startsWord c = false) (hdigit : c.isDigit = false)
    (hother : c ∉ '"' :: blanks) (hpunctuates : punctuates c = false) (rest : List Char) :
    Munch (c :: rest) ⟨.unexpected, [c]⟩ := by
  rw [List.mem_cons, not_or] at hother
  obtain ⟨hquote, hblank⟩ := hother
  refine .unexpected (fault_of_token hblank ?_ fun u _ htoken => ?_)
  · rintro rfl
    exact absurd hpunctuates (by decide)
  · obtain ⟨k, hk⟩ := mem_token.mp htoken
    have hnone : classOf c = none := by
      rw [classOf, if_neg (by simp [hpunctuates]), if_neg hquote, if_neg (by simp [hdigit]),
        if_neg (by simp [hword])]
    simp [classOf_of_mem hk] at hnone

theorem munch_rule {f : List Char → Piece × List Char} (h : Rule c f) (rest : List Char) :
    Munch (c :: rest) (f rest).1 := by
  cases h with
  | symbol s _ hs hlong => exact munch_single hs fun _ _ => hlong
  | orEqual short long _ hshort hlong => exact munch_orEqual hshort hlong rest
  | blank _ hc => exact .blank ⟨c, hc, rfl⟩
  | slash _ hs =>
    obtain rfl : '/' = c := by simpa [Symbol.spelling] using congrArg String.toList hs
    exact munch_slash rest
  | string _ hc =>
    subst hc
    exact munch_string rest
  | number _ hc => exact munch_number hc rest
  | word hc => exact munch_word hc rest
  | unexpected hword hdigit hother hpunctuates =>
    exact munch_unexpected hword hdigit hother hpunctuates rest

theorem munch_first (c : Char) (rest : List Char) : Munch (c :: rest) (first c rest).1 :=
  munch_rule (rule_first c) rest

end

end Treewalk.Lexeme
