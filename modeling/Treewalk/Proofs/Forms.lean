import Treewalk.Proofs.Pieces

/-!
# A notation of words and parentheses

A form is a word, or a list of forms in parentheses with a name in front of it that may be
empty: `(call f x)`, `f(x y)`. Blanks stand between the forms of a list. As long as no word is
empty and none holds a blank or a parenthesis, a text that begins with a form begins with no
other one (`Plain.separable`), and a text that is a list of forms is no other list
(`joined_inj`).
-/

namespace Treewalk

open Piece

inductive Form where
  | word (w : List Char)
  | node (name : List Char) (items : List Form)

namespace Form

/-- The character can stand in a word. -/
def plainChar (c : Char) : Bool :=
  !(c == ' ' || c == '\n' || c == '(' || c == ')')

mutual

/-- A form, written out. -/
def text : Form → List Char
  | .word w => w
  | .node name [] => name ++ ['(', ')']
  | .node name (f :: rest) => name ++ '(' :: (f.text ++ (tails ' ' rest ++ [')']))

/-- Each form after a separator. -/
def tails (separator : Char) : List Form → List Char
  | [] => []
  | f :: rest => separator :: (f.text ++ tails separator rest)

end

/-- Forms with a separator between any two of them. -/
def joined (separator : Char) : List Form → List Char
  | [] => []
  | f :: rest => f.text ++ tails separator rest

theorem text_node_append (name : List Char) (items : List Form) (r : List Char) :
    (node name items).text ++ r = name ++ '(' :: (joined ' ' items ++ ')' :: r) := by
  cases items with
  | nil => simp [text, joined]
  | cons f rest => simp [text, joined]

/-- A form whose words can be told from what stands around them. -/
inductive Plain : Form → Prop
  | word {w : List Char} : w ≠ [] → (∀ c ∈ w, plainChar c = true) → Plain (.word w)
  | node {name : List Char} {items : List Form} : (∀ c ∈ name, plainChar c = true) →
    (∀ f ∈ items, Plain f) → Plain (.node name items)

/-- The text does not go on with a word or a list. -/
def Ends (text : List Char) : Prop :=
  Stops (fun c => plainChar c || c == '(') text

/-- No text begins with this form and with another one. -/
def Separable (f : Form) : Prop :=
  ∀ g : Form, g.Plain → ∀ r s, Ends r → Ends s → f.text ++ r = g.text ++ s → f = g ∧ r = s

section

variable {w v r s : List Char}

theorem Ends.stops (h : Ends r) : Stops plainChar r :=
  fun c hc => (Bool.or_eq_false_iff.mp (h c hc)).1

theorem not_ends_paren : ¬ Ends ('(' :: r) := by
  intro h
  exact absurd (stops_cons.mp h) (by decide)

theorem stops_paren : Stops plainChar ('(' :: r) :=
  stops_cons.mpr (by decide)

/-- The word that a text begins with. -/
theorem word_append_inj (hw : ∀ c ∈ w, plainChar c = true) (hv : ∀ c ∈ v, plainChar c = true)
    (hr : Stops plainChar r) (hs : Stops plainChar s) (h : w ++ r = v ++ s) : w = v ∧ r = s := by
  have hwv : w = v := by
    rw [← hr.takeWhile_append hw, h, hs.takeWhile_append hv]
  subst hwv
  exact ⟨rfl, List.append_cancel_left h⟩

/-- A form begins with a character of a word or with a parenthesis. -/
theorem Plain.not_ends {f : Form} (hf : f.Plain) : ¬ Ends (f.text ++ r) := by
  cases hf with
  | @word w hne hw =>
    obtain ⟨c, w, rfl⟩ := List.exists_cons_of_ne_nil hne
    intro h
    have hc := hw c (List.mem_cons_self ..)
    rw [Ends, text, List.cons_append, stops_cons, hc] at h
    cases h
  | @node name items hname _ =>
    rw [text_node_append]
    intro h
    cases name with
    | nil => exact not_ends_paren h
    | cons c name =>
      have hc := hname c (List.mem_cons_self ..)
      rw [Ends, List.cons_append, stops_cons, hc] at h
      cases h

end

section

variable {separator : Char} {l m : List Form} {r s : List Char}

/-- What follows a list of forms: neither more of the last one nor another one. -/
structure Closes (separator : Char) (text : List Char) : Prop where
  ends : Ends text
  stops : Stops (· == separator) text

theorem ends_tails (hsep : Ends [separator]) (hr : Ends r) : Ends (tails separator l ++ r) := by
  cases l with
  | nil => rwa [tails, List.nil_append]
  | cons f l =>
    rw [tails, List.cons_append]
    exact hsep.of_head rfl

theorem tails_inj (hsep : Ends [separator]) (hl : ∀ f ∈ l, f.Separable) (hm : ∀ f ∈ m, f.Plain)
    (hr : Closes separator r) (hs : Closes separator s)
    (h : tails separator l ++ r = tails separator m ++ s) : l = m ∧ r = s := by
  induction l generalizing m with
  | nil =>
    cases m with
    | nil => exact ⟨rfl, h⟩
    | cons g m =>
      rw [tails, List.nil_append, tails, List.cons_append] at h
      exact absurd h (stops_beq.mp hr.stops _)
  | cons f l ih =>
    cases m with
    | nil =>
      rw [tails, tails, List.nil_append, List.cons_append] at h
      exact absurd h.symm (stops_beq.mp hs.stops _)
    | cons g m =>
      obtain ⟨hf, hl'⟩ := List.forall_mem_cons.mp hl
      obtain ⟨hg, hm'⟩ := List.forall_mem_cons.mp hm
      rw [tails, tails, List.cons_append, List.cons_append, List.append_assoc,
        List.append_assoc] at h
      obtain ⟨rfl, hrest⟩ := hf g hg _ _ (ends_tails hsep hr.ends) (ends_tails hsep hs.ends)
        (List.cons.inj h).2
      obtain ⟨rfl, hrs⟩ := ih hl' hm' hrest
      exact ⟨rfl, hrs⟩

theorem joined_inj (hsep : Ends [separator]) (hl : ∀ f ∈ l, f.Plain ∧ f.Separable)
    (hm : ∀ f ∈ m, f.Plain) (hr : Closes separator r) (hs : Closes separator s)
    (h : joined separator l ++ r = joined separator m ++ s) : l = m ∧ r = s := by
  cases l with
  | nil =>
    cases m with
    | nil => exact ⟨rfl, h⟩
    | cons g m =>
      rw [joined, List.nil_append, joined, List.append_assoc] at h
      exact absurd (h ▸ hr.ends) (hm g (List.mem_cons_self ..)).not_ends
  | cons f l =>
    obtain ⟨hf, hl⟩ := List.forall_mem_cons.mp hl
    cases m with
    | nil =>
      rw [joined, joined, List.nil_append, List.append_assoc] at h
      exact absurd (h ▸ hs.ends) hf.1.not_ends
    | cons g m =>
      obtain ⟨hg, hm'⟩ := List.forall_mem_cons.mp hm
      rw [joined, joined, List.append_assoc, List.append_assoc] at h
      obtain ⟨rfl, hrest⟩ := hf.2 g hg _ _ (ends_tails hsep hr.ends) (ends_tails hsep hs.ends) h
      obtain ⟨rfl, hrs⟩ := tails_inj hsep (fun f hf => (hl f hf).2) hm' hr hs hrest
      exact ⟨rfl, hrs⟩

end

theorem closes_paren (r : List Char) : Closes ' ' (')' :: r) :=
  ⟨stops_cons.mpr (by decide), stops_cons.mpr (by decide)⟩

/-- A form is told from every other by the text that begins with it. -/
theorem Plain.separable {f : Form} (hf : f.Plain) : f.Separable := by
  induction hf with
  | @word w hne hw =>
    intro g hg r s hr hs h
    cases hg with
    | word _ hv =>
      obtain ⟨rfl, hrs⟩ := word_append_inj hw hv hr.stops hs.stops h
      exact ⟨rfl, hrs⟩
    | node hname _ =>
      -- a word in front of a parenthesis is the name of a list
      rw [text_node_append] at h
      obtain ⟨rfl, rfl⟩ := word_append_inj hw hname hr.stops stops_paren h
      exact absurd hr not_ends_paren
  | @node name items hname hitems ih =>
    intro g hg r s hr hs h
    rw [text_node_append] at h
    cases hg with
    | word _ hv =>
      obtain ⟨rfl, rfl⟩ := word_append_inj hname hv stops_paren hs.stops h
      exact absurd hs not_ends_paren
    | node hname' hitems' =>
      rw [text_node_append] at h
      obtain ⟨rfl, hrest⟩ := word_append_inj hname hname' stops_paren stops_paren h
      obtain ⟨rfl, hrs⟩ := joined_inj (stops_cons.mpr (by decide))
        (fun f hf => ⟨hitems f hf, ih f hf⟩) hitems' (closes_paren r) (closes_paren s)
        (List.cons.inj hrest).2
      exact ⟨rfl, (List.cons.inj hrs).2⟩

end Form

end Treewalk
