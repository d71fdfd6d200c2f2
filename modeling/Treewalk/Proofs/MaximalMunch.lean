import Treewalk.Proofs.Partition

/-!
# Maximal munch

Of all tokens that the text starts with at some position, the scanner takes the longest, and
it is the kind of token that the language says, with the value of a string or a numeral. It
reports a fault only where nothing can be read.
-/

namespace Treewalk

open Lexeme

/-- The longest text of a language that a text starts with. -/
structure Longest (l : Language Char) (text w : List Char) : Prop where
  mem : w ∈ l
  starts : w <+: text
  length_le : ∀ v ∈ l, v <+: text → v.length ≤ w.length

namespace Span

variable {source : String} {r : Span} {before after : List Char} {p : Piece}

theorem At.longest (h : r.At source before p after) {t : Token}
    (ht : r.item? = some (.token t)) :
    Longest token (r.rest source).toList t.lexeme.toList ∧
      ∀ kind, Denotes t.lexeme.toList kind ↔ kind = t.kind := by
  have hitem := ht.symm.trans h.item_eq
  have hmunch := h.munch
  rw [h.rest_eq, String.toList_ofList]
  generalize htext : p.text ++ after = text at hmunch ⊢
  cases hmunch with
  | token hdenotes hlongest =>
    cases hitem
    rw [String.toList_ofList]
    refine ⟨⟨hdenotes.mem_token, ⟨after, htext⟩, hlongest⟩, fun kind => ⟨?_, ?_⟩⟩
    · exact fun hkind => hkind.unique hdenotes
    · rintro rfl
      exact hdenotes
  | blank _ | comment _ _ _ | unexpected _ | unterminated _ => cases hitem

theorem At.fault (h : r.At source before p after) {d : Diagnostic}
    (hd : r.item? = some (.fault d)) :
    ∀ w ∈ token + blank + comment, ¬ w <+: (r.rest source).toList := by
  have hitem := hd.symm.trans h.item_eq
  have hmunch := h.munch
  rw [h.rest_eq, String.toList_ofList]
  generalize p.text ++ after = text at hmunch ⊢
  cases hmunch with
  | unexpected hnone | unterminated hnone => exact hnone
  | token _ _ | blank _ | comment _ _ _ => cases hitem

end Span

/-- The items of a text are those of its ranges and an end of file. The lexeme of a token is
the longest text of the token language that the text from its range on starts with, and its
kind and payload are those that the language gives to the lexeme and no others. Where a fault
is found the text starts with no token, no blank and no comment. -/
theorem scanner_munches_maximally (source : String) :
    Item.ofText source = (Span.ofText source).filterMap Span.item? ++
      [.token ⟨.endOfFile, "", 1 + source.toList.count '\n'⟩] ∧
    ∀ r ∈ Span.ofText source,
      (∀ t, r.item? = some (.token t) →
        Longest token (r.rest source).toList t.lexeme.toList ∧
          ∀ kind, Denotes t.lexeme.toList kind ↔ kind = t.kind) ∧
      (∀ d, r.item? = some (.fault d) →
        ∀ w ∈ token + blank + comment, ¬ w <+: (r.rest source).toList) := by
  refine ⟨Item.ofText_eq_spans source, fun r hr => ?_⟩
  obtain ⟨before, p, after, h⟩ := Span.exists_at hr
  exact ⟨fun t ht => h.longest ht, fun d hd => h.fault hd⟩

/-- A point belongs to a numeral only if a digit follows. -/
theorem scanner_munches_maximally_numeral :
    let source := "1.5.x"
    let t : Token := ⟨.number 1.5, "1.5", 1⟩
    let r : Span := ⟨0, ⟨3⟩, some (.token t)⟩
    r ∈ Span.ofText source ∧ Longest token (r.rest source).toList t.lexeme.toList ∧
      ∀ kind, Denotes t.lexeme.toList kind ↔ kind = t.kind := by
  intro source t r
  have hmem : r ∈ Span.ofText source := by decide +kernel
  exact ⟨hmem, ((scanner_munches_maximally source).2 r hmem).1 t rfl⟩

end Treewalk
