import Treewalk.Proofs.Munch
import Treewalk.Token.Scanner

/-!
# Scanning by bytes and by characters

The scanner goes over bytes, and the pieces of a text are cut by characters. The two agree: in
front of a character the scanner reads the piece that starts there as one lexeme, and stands in
front of the next character then (`Scanner.turn_eq`).

A character beyond ASCII has several bytes, none of which stands for a character of its own. So
a test that does not tell such characters apart (`Uniform`) holds of a byte if it holds of the
character that the byte belongs to (`ascii_of_mem`), and a run of bytes ends where a character
does (`takeWhile_bytesOf`). The byte zero passes none of the tests that go on at the end of a
text.
-/

namespace Treewalk

/-! ## Bytes of characters -/

/-- The bytes of a text. -/
def bytesOf (text : List Char) : List UInt8 :=
  text.flatMap String.utf8EncodeChar

theorem length_bytesOf (text : List Char) : (bytesOf text).length = String.utf8Len text := by
  induction text with
  | nil => rfl
  | cons c text ih =>
    rw [bytesOf, List.flatMap_cons, List.length_append, String.length_utf8EncodeChar,
      String.utf8Len_cons, ← ih, bytesOf, Nat.add_comm]

@[simp] theorem toNat_ofUInt8 (b : UInt8) : (Char.ofUInt8 b).toNat = b.toNat := by
  simp [Char.toNat, Char.ofUInt8]

theorem ofUInt8_toUInt8 {c : Char} (hc : c.toNat ≤ 127) : Char.ofUInt8 c.toUInt8 = c := by
  have hc : c.val.toNat ≤ 127 := hc
  refine Char.toNat_inj.mp ?_
  rw [toNat_ofUInt8, Char.toUInt8, UInt32.toNat_toUInt8, Nat.mod_eq_of_lt (by omega)]
  rfl

theorem utf8_of_ascii {c : Char} (hc : c.toNat ≤ 127) : String.utf8EncodeChar c = [c.toUInt8] := by
  have hc : c.val.toNat ≤ 127 := hc
  unfold String.utf8EncodeChar
  simp only [hc, ↓reduceIte, List.cons.injEq, and_true]
  rfl

theorem high_of_mem_utf8 {c : Char} (hc : 127 < c.toNat) {b : UInt8}
    (hb : b ∈ String.utf8EncodeChar c) : 127 < b.toNat := by
  have hc : ¬ c.val.toNat ≤ 127 := Nat.not_le.mpr hc
  unfold String.utf8EncodeChar at hb
  simp only [hc, ↓reduceIte] at hb
  repeat' split at hb
  all_goals
    simp only [List.mem_cons, List.not_mem_nil, or_false] at hb
    rcases hb with rfl | rfl | rfl | rfl <;> simp only [UInt8.toNat_ofNat'] <;> omega

/-- The test does not tell characters beyond ASCII apart. -/
def Uniform (q : Char → Bool) : Prop :=
  ∃ answer, ∀ c : Char, 127 < c.toNat → q c = answer

/-! ## Positions between characters -/

section

variable {before text after : List Char}

/-- The position after some characters. -/
def posAfter (chars : List Char) : String.Pos.Raw :=
  (String.ofList chars).rawEndPos

theorem byteIdx_posAfter (chars : List Char) :
    (posAfter chars).byteIdx = String.utf8Len chars := by
  rw [posAfter, String.rawEndPos_ofList]

theorem isValid_posAfter : (posAfter before).IsValid (String.ofList (before ++ after)) :=
  String.Pos.Raw.isValid_iff_exists_append.mpr
    ⟨String.ofList before, String.ofList after, String.ofList_append, rfl⟩

theorem extract_posAfter : String.Pos.Raw.extract (String.ofList (before ++ text ++ after))
    (posAfter before) (posAfter (before ++ text)) = String.ofList text := by
  have h := String.extract_of_valid before text after
  simpa only [posAfter, String.rawEndPos_ofList, String.utf8Len_append] using h

end

namespace Scanner

theorem ascii_of_mem {q : Char → Bool} (hq : Uniform q) {c : Char} {b : UInt8}
    (hb : b ∈ String.utf8EncodeChar c) : ascii q b = q c := by
  by_cases hc : c.toNat ≤ 127
  · rw [utf8_of_ascii hc, List.mem_singleton] at hb
    rw [ascii, hb, ofUInt8_toUInt8 hc]
  · have hc := Nat.lt_of_not_le hc
    have hb := high_of_mem_utf8 hc hb
    rw [← toNat_ofUInt8] at hb
    obtain ⟨answer, hq⟩ := hq
    rw [ascii, hq _ hb, hq c hc]

/-- A run of bytes that pass a test is a run of characters. -/
theorem takeWhile_bytesOf {q : Char → Bool} (hq : Uniform q) (text : List Char) :
    (bytesOf text).takeWhile (ascii q) = bytesOf (text.takeWhile q) := by
  induction text with
  | nil => rfl
  | cons c text ih =>
    have hascii : ∀ b ∈ String.utf8EncodeChar c, ascii q b = q c := fun b => ascii_of_mem hq
    rw [bytesOf, List.flatMap_cons]
    cases hc : q c with
    | true =>
      rw [List.takeWhile_append_of_pos fun b hb => (hascii b hb).trans hc,
        List.takeWhile_cons_of_pos hc]
      exact congrArg _ ih
    | false =>
      obtain ⟨b, bs, hbs⟩ := List.exists_cons_of_ne_nil (String.utf8EncodeChar_ne_nil (c := c))
      rw [hbs] at hascii ⊢
      rw [List.takeWhile_cons_of_neg (by simp [hc]), List.cons_append,
        List.takeWhile_cons_of_neg (by simp [hascii, hc])]
      rfl

/-! ## What is left of the bytes -/

variable {s : Scanner} {b : UInt8} {bs : List UInt8}

/-- The bytes from the one in front on. -/
def rest (s : Scanner) : List UInt8 :=
  s.source.toByteArray.data.toList.drop s.current

theorem byte?_add (s : Scanner) (k : Nat) : s.byte? (s.current + k) = s.rest[k]? := by
  have hsize : s.source.toByteArray.data.toList.length = s.source.utf8ByteSize := by
    rw [Array.length_toList]
    exact String.size_toByteArray
  rw [rest, List.getElem?_drop, byte?]
  split
  · rename_i h
    have hlt : s.current + k < s.source.utf8ByteSize := h
    rw [String.getUTF8Byte_eq_getElem, ByteArray.getElem_eq_getElem_data,
      List.getElem?_eq_getElem (by rw [hsize]; exact hlt), Array.getElem_toList]
  · rename_i h
    exact (List.getElem?_eq_none (by rw [hsize]; exact Nat.le_of_not_lt h)).symm

theorem length_rest (s : Scanner) : s.rest.length = s.size - s.current := by
  rw [rest, List.length_drop, Array.length_toList]
  exact congrArg (· - s.current) String.size_toByteArray

/-- The byte in front, or zero behind the text. -/
theorem front_eq (s : Scanner) : (s.byte? s.current).getD 0 = s.rest.headD 0 := by
  rw [show s.byte? s.current = s.rest[0]? from byte?_add s 0]
  cases s.rest <;> rfl

theorem rest_forward (h : s.rest = b :: bs) (line : Nat) :
    rest { s with current := s.current + 1, line } = bs := by
  show List.drop (s.current + 1) _ = _
  rw [← List.drop_drop]
  exact congrArg (List.drop 1) h

theorem advance_of_rest (h : s.rest = b :: bs) :
    advance s = .ok b { s with current := s.current + 1 } := by
  have hb : s.byte? s.current = some b := by
    rw [show s.byte? s.current = s.rest[0]? from byte?_add s 0, h]
    rfl
  simp only [advance, hb]

/-- A run of bytes is passed, if zero does not belong to it. -/
theorem skipWhile_eq {q : UInt8 → Bool} (hzero : q 0 = false) (s : Scanner) :
    skipWhile q s = .ok () { s with current := s.current + (s.rest.takeWhile q).length } := by
  induction hrest : s.rest generalizing s with
  | nil =>
    rw [skipWhile, if_neg (by simp [front_eq, hrest, hzero])]
    rfl
  | cons b bs ih =>
    rw [skipWhile]
    cases hb : q b with
    | false =>
      rw [if_neg (by simp [front_eq, hrest, hb]), List.takeWhile_cons_of_neg (by simp [hb])]
      rfl
    | true =>
      rw [if_pos (by simp [front_eq, hrest, hb]), List.takeWhile_cons_of_pos hb]
      split
      · rename_i hadvance
        rw [advance_of_rest hrest] at hadvance
        cases hadvance
        rw [ih _ (rest_forward hrest s.line), List.length_cons]
        simp only [Nat.add_assoc, Nat.add_comm 1]
      · rename_i hadvance
        rw [advance_of_rest hrest] at hadvance
        cases hadvance

/-- Up to the quote, with all line breaks counted. -/
theorem skipString_eq (s : Scanner) :
    skipString s = .ok () { s with
      current := s.current + (s.rest.takeWhile (· != '"'.toUInt8)).length
      line := s.line + (s.rest.takeWhile (· != '"'.toUInt8)).count '\n'.toUInt8 } := by
  induction hrest : s.rest generalizing s with
  | nil =>
    have hlength := s.length_rest
    rw [hrest, List.length_nil] at hlength
    rw [skipString, if_neg (by omega)]
    rfl
  | cons b bs ih =>
    have hlength := s.length_rest
    rw [hrest, List.length_cons] at hlength
    rw [skipString]
    by_cases hb : b = '"'.toUInt8
    · rw [if_neg (by simp [front_eq, hrest, hb]), List.takeWhile_cons_of_neg (by simp [hb])]
      rfl
    · rw [if_pos ⟨by omega, by simpa [front_eq, hrest] using hb⟩,
        List.takeWhile_cons_of_pos (by simpa using hb)]
      split
      · rename_i hadvance
        rw [advance_of_rest hrest] at hadvance
        cases hadvance
        rw [ih _ (rest_forward hrest _), List.length_cons, List.count_cons]
        split <;> simp [Nat.add_assoc, Nat.add_comm 1, *]
      · rename_i hadvance
        rw [advance_of_rest hrest] at hadvance
        cases hadvance

/-- Up to the line break, or to the end of the text. -/
theorem skipLine_eq (h : s.current ≤ s.size) :
    skipLine s = .ok () { s with
      current := s.current + (s.rest.takeWhile (· != '\n'.toUInt8)).length } := by
  have hlength := s.length_rest
  have hrun : (s.rest.takeWhile (· != '\n'.toUInt8)).length =
      s.rest.findIdx (· == '\n'.toUInt8) := by
    rw [List.takeWhile_eq_take_findIdx_not, List.length_take_of_le List.findIdx_le_length]
    simp only [bne, Bool.not_not]
  have hbreaks : ∀ k, (s.byte? (s.current + k) == some '\n'.toUInt8) =
      s.rest[k]?.any (· == '\n'.toUInt8) := by
    intro k
    rw [byte?_add]
    cases s.rest[k]? <;> simp
  unfold skipLine
  rw [if_neg (Nat.not_lt.mpr h), hrun]
  simp only [hbreaks]
  split
  · rename_i k hk
    obtain ⟨hbreak, hlt, hbefore⟩ := List.find?_range_eq_some.mp hk
    rw [List.mem_range, ← hlength] at hlt
    suffices hfind : s.rest.findIdx (· == '\n'.toUInt8) = k by rw [hfind]
    refine (List.findIdx_eq hlt).mpr ⟨by simpa [hlt] using hbreak, fun j hj => ?_⟩
    have hj' : j < s.rest.length := Nat.lt_trans hj hlt
    simpa [hj'] using hbefore j hj
  · rename_i hnone
    have hnone := List.find?_range_eq_none.mp hnone
    suffices hfind : s.rest.findIdx (· == '\n'.toUInt8) = s.rest.length by
      rw [hfind, hlength, Nat.add_sub_cancel' h]
    refine List.findIdx_eq_length.mpr fun b hb => ?_
    obtain ⟨k, hk, rfl⟩ := List.getElem_of_mem hb
    simpa [hk] using hnone k (hlength ▸ hk)

/-! ## In front of a character -/

variable {before text after : List Char} {c : Char}

/-- The scanner has `before` behind it and `after` in front. -/
structure Between (s : Scanner) (before after : List Char) : Prop where
  source : s.source = String.ofList (before ++ after)
  current : s.current = String.utf8Len before

theorem Between.rest (h : s.Between before after) : s.rest = bytesOf after := by
  rw [Scanner.rest, h.source, h.current, String.toByteArray_ofList, List.utf8Encode,
    List.toList_data_toByteArray, List.flatMap_append]
  exact List.drop_left' (length_bytesOf before)

theorem Between.size (h : s.Between before after) :
    s.size = s.current + String.utf8Len after := by
  rw [Scanner.size, h.source, h.current, String.utf8ByteSize_ofList, String.utf8Len_append]

/-- What lies between two characters can be cut out. -/
theorem slice_eq (h : s.source = String.ofList (before ++ text ++ after)) {i j : Nat}
    (hi : i = String.utf8Len before) (hj : j = String.utf8Len (before ++ text)) :
    slice i j s = .ok (String.ofList text) s := by
  have hstart : (⟨i⟩ : String.Pos.Raw) = posAfter before := by
    ext
    rw [hi, byteIdx_posAfter]
  have hstop : (⟨j⟩ : String.Pos.Raw) = posAfter (before ++ text) := by
    ext
    rw [hj, byteIdx_posAfter]
  have hle : i ≤ j := by
    rw [hi, hj, String.utf8Len_append]
    exact Nat.le_add_right _ _
  have hvalid : (posAfter before).IsValid (String.ofList (before ++ text ++ after)) :=
    List.append_assoc before text after ▸ isValid_posAfter
  unfold slice
  rw [hstart, hstop, h, if_pos ⟨hle, String.Pos.Raw.isValid_eq_true_iff.mpr hvalid,
    String.Pos.Raw.isValid_eq_true_iff.mpr isValid_posAfter⟩, extract_posAfter]

/-! ## Tests of the byte in front -/

theorem isAlpha_of_high (hc : 127 < c.toNat) : c.isAlpha = false := by
  have hle : ∀ d : Char, d.toNat ≤ 127 → ¬ c.val.toNat ≤ d.val.toNat :=
    fun d hd h => absurd (Nat.le_trans h hd) (Nat.not_le.mpr hc)
  simp only [Char.isAlpha, Char.isUpper, Char.isLower, Bool.or_eq_false_iff, Bool.and_eq_false_iff,
    decide_eq_false_iff_not, UInt32.le_iff_toNat_le, ge_iff_le]
  exact ⟨fun h => hle 'Z' (by decide) h.2, .inr (hle 'z' (by decide))⟩

theorem isDigit_of_high (hc : 127 < c.toNat) : c.isDigit = false := by
  have hle : ¬ c.val.toNat ≤ '9'.val.toNat :=
    fun h => absurd (Nat.le_trans h (by decide)) (Nat.not_le.mpr hc)
  simp only [Char.isDigit, Bool.and_eq_false_iff, decide_eq_false_iff_not, UInt32.le_iff_toNat_le,
    ge_iff_le]
  exact .inr hle

theorem ne_of_high (hc : 127 < c.toNat) {d : Char} (hd : d.toNat ≤ 127) : c ≠ d := by
  rintro rfl
  exact absurd hd (Nat.not_le.mpr hc)

theorem uniform_isDigit : Uniform Char.isDigit :=
  ⟨false, fun _ => isDigit_of_high⟩

theorem uniform_inWord : Uniform Piece.inWord := by
  refine ⟨false, fun c hc => ?_⟩
  have hne : c ≠ '_' := ne_of_high hc (by decide)
  simp [Piece.inWord, Char.isAlphanum, isAlpha_of_high hc, isDigit_of_high hc, hne]

theorem uniform_beq (hc : c.toNat ≤ 127) : Uniform (· == c) :=
  ⟨false, fun _ hd => beq_eq_false_iff_ne.mpr (ne_of_high hd hc)⟩

theorem uniform_bne (hc : c.toNat ≤ 127) : Uniform (· != c) :=
  ⟨true, fun _ hd => bne_iff_ne.mpr (ne_of_high hd hc)⟩

theorem ascii_beq (hc : c.toNat ≤ 127) (b : UInt8) : ascii (· == c) b = (b == c.toUInt8) := by
  rw [ascii, Bool.eq_iff_iff, beq_iff_eq, beq_iff_eq]
  constructor
  · intro h
    rw [← h]
    refine UInt8.toNat_inj.mp ?_
    rw [Char.toUInt8, UInt32.toNat_toUInt8]
    exact (Nat.mod_eq_of_lt b.toNat_lt).symm ▸ (toNat_ofUInt8 b).symm ▸ rfl
  · rintro rfl
    exact ofUInt8_toUInt8 hc

theorem ascii_bne (hc : c.toNat ≤ 127) : ascii (· != c) = (· != c.toUInt8) :=
  funext fun b => congrArg (! ·) (ascii_beq hc b)

theorem count_bytesOf (hc : c.toNat ≤ 127) (text : List Char) :
    (bytesOf text).count c.toUInt8 = text.count c := by
  induction text with
  | nil => rfl
  | cons d text ih =>
    have hbyte : (String.utf8EncodeChar d).count c.toUInt8 = if d == c then 1 else 0 := by
      have hascii : ∀ b ∈ String.utf8EncodeChar d, (b == c.toUInt8) = (d == c) := fun b hb => by
        rw [← ascii_beq hc, ascii_of_mem (uniform_beq hc) hb]
      split
      · rename_i hd
        obtain rfl := beq_iff_eq.mp hd
        simp [utf8_of_ascii hc]
      · rename_i hd
        refine List.count_eq_zero.mpr fun hmem => hd ?_
        rw [← hascii _ hmem, beq_self_eq_true]
    rw [bytesOf, List.flatMap_cons, List.count_append, hbyte, List.count_cons, ← ih, bytesOf,
      Nat.add_comm]

/-- The byte in front passes a test if the character does. Behind the text none does. -/
theorem Between.ascii_front (h : s.Between before after) {q : Char → Bool} (hq : Uniform q)
    (hzero : ascii q 0 = false) :
    ascii q ((s.byte? s.current).getD 0) = after.head?.any q := by
  rw [front_eq, h.rest]
  cases after with
  | nil => exact hzero
  | cons d after =>
    obtain ⟨b, bs, hbs⟩ := List.exists_cons_of_ne_nil (String.utf8EncodeChar_ne_nil (c := d))
    rw [bytesOf, List.flatMap_cons, hbs, List.cons_append]
    exact ascii_of_mem hq (hbs ▸ List.mem_cons_self)

theorem Between.forward (h : s.Between before (c :: after)) (hc : c.toNat ≤ 127) (line : Nat) :
    Between { s with current := s.current + 1, line } (before ++ [c]) after := by
  have hsize : c.utf8Size = 1 := by
    rw [← String.length_utf8EncodeChar, utf8_of_ascii hc, List.length_singleton]
  refine ⟨?_, ?_⟩
  · rw [List.append_assoc]
    exact h.source
  · show s.current + 1 = _
    rw [h.current, String.utf8Len_append, String.utf8Len_cons, hsize]
    rfl

theorem Between.advance_eq (h : s.Between before (c :: after)) (hc : c.toNat ≤ 127) :
    advance s = .ok c.toUInt8 { s with current := s.current + 1 } := by
  have hrest := h.rest
  rw [bytesOf, List.flatMap_cons, utf8_of_ascii hc] at hrest
  exact advance_of_rest hrest

theorem bind_ok {α β : Type} {x : Reader α} {f : α → Reader β} {a : α} {s s' : Scanner}
    (h : x s = .ok a s') : (x >>= f) s = f a s' := by
  show EStateM.bind x f s = _
  rw [EStateM.bind, h]

theorem accept_apply (s : Scanner) (b : UInt8) : accept b s =
    if !decide (s.size ≤ s.current) && (s.byte? s.current).getD 0 == b then
      (do let _ ← advance; pure true : Reader Bool) s
    else .ok false s := by
  simp only [accept, bind, EStateM.bind, atEnd, peek]
  split <;> rfl

theorem Between.accept_eq (h : s.Between before (c :: after)) (hc : c.toNat ≤ 127)
    (hzero : c.toUInt8 ≠ 0) : accept c.toUInt8 s = .ok true { s with current := s.current + 1 } := by
  have hfront := h.ascii_front (uniform_beq hc) (by simpa [ascii_beq hc] using hzero.symm)
  rw [ascii_beq hc] at hfront
  have hlt : ¬ s.size ≤ s.current := by
    have hpos := c.utf8Size_pos
    rw [h.size, String.utf8Len_cons]
    omega
  rw [accept_apply, if_pos (by simp [hfront, hlt]), bind_ok (h.advance_eq hc)]
  rfl

theorem Between.accept_stops (h : s.Between before after) (hc : c.toNat ≤ 127)
    (hzero : c.toUInt8 ≠ 0) (hafter : ∀ rest, after ≠ c :: rest) :
    accept c.toUInt8 s = .ok false s := by
  have hfront := h.ascii_front (uniform_beq hc) (by simpa [ascii_beq hc] using hzero.symm)
  have hnone : after.head?.any (· == c) = false := by
    cases after with
    | nil => rfl
    | cons d after =>
      refine beq_eq_false_iff_ne.mpr ?_
      rintro rfl
      exact hafter after rfl
  rw [ascii_beq hc, hnone] at hfront
  rw [accept_apply, if_neg (by simp [hfront])]

/-! ## Lexemes -/

/-- The lexeme is this text, and it is behind the scanner. -/
def past (s : Scanner) (text : List Char) : Scanner :=
  { s with current := s.start + String.utf8Len text, line := s.line + text.count '\n' }

/-- How reading a lexeme ends, by the kind of piece that it is. -/
def outcome (s : Scanner) : PieceKind → EStateM.Result Halt Scanner Unit
  | .blank | .comment => .ok () s
  | .token kind => .ok () { s with pending := some kind }
  | .unexpected => .error (.fault (.lexical s.line .unexpectedCharacter)) s
  | .unterminated => .error (.fault (.lexical s.line .unterminatedString)) s

/-- The scanner has read the first character of a lexeme. -/
structure Begun (s : Scanner) (before : List Char) (c : Char) (after : List Char) : Prop
    extends s.Between (before ++ [c]) after where
  start : s.start = String.utf8Len before

theorem Begun.source_eq (h : s.Begun before c after) {text rest : List Char}
    (hrest : after = text ++ rest) : s.source = String.ofList (before ++ (c :: text) ++ rest) := by
  rw [h.source, hrest]
  simp

theorem Begun.past_eq (h : s.Begun before c after) (text : List Char) :
    s.past (c :: text) = { s with
      current := s.current + String.utf8Len text
      line := s.line + (c :: text).count '\n' } := by
  have hcurrent : s.start + String.utf8Len (c :: text) = s.current + String.utf8Len text := by
    rw [h.current, h.start, String.utf8Len_append, String.utf8Len_cons, String.utf8Len_cons]
    simp only [String.utf8Len_nil]
    omega
  rw [past, hcurrent]

theorem Begun.past_single (h : s.Begun before c after) (hc : c ≠ '\n') : s.past [c] = s := by
  rw [h.past_eq, List.count_cons_of_ne hc]
  rfl

theorem Between.forwardAll (h : s.Between before (text ++ after)) (line : Nat) :
    Between { s with current := s.current + String.utf8Len text, line } (before ++ text) after := by
  refine ⟨?_, ?_⟩
  · rw [List.append_assoc]
    exact h.source
  · show s.current + _ = _
    rw [h.current, String.utf8Len_append]

/-- No line ends in a run of characters that a line break ends. -/
theorem count_newline_takeWhile {q : Char → Bool} (hq : q '\n' = false) (text : List Char) :
    (text.takeWhile q).count '\n' = 0 := by
  refine List.count_eq_zero.mpr fun hmem => ?_
  exact Bool.false_ne_true (hq.symm.trans (List.mem_takeWhile_imp hmem))

/-- How many bytes a run of characters has. -/
theorem Between.length_run (h : s.Between before after) {q : Char → Bool} (hq : Uniform q) :
    (s.rest.takeWhile (ascii q)).length = String.utf8Len (after.takeWhile q) := by
  rw [h.rest, takeWhile_bytesOf hq, length_bytesOf]

theorem Between.skipWhile_eq (h : s.Between before after) {q : Char → Bool} (hq : Uniform q)
    (hzero : ascii q 0 = false) : skipWhile (ascii q) s =
      .ok () { s with current := s.current + String.utf8Len (after.takeWhile q) } := by
  rw [Scanner.skipWhile_eq hzero, h.length_run hq]

theorem Between.atEnd_eq (h : s.Between before after) :
    atEnd s = .ok after.isEmpty s := by
  rw [atEnd, h.size]
  cases after with
  | nil => simp
  | cons c after =>
    have hpos := c.utf8Size_pos
    rw [String.utf8Len_cons, List.isEmpty_cons, decide_eq_false (by omega)]

section

variable (h : s.Begun before c after)
include h

theorem Begun.orEqual_eq (hc : c ≠ '\n') (short long : Symbol) :
    orEqual short long s = (s.past (Piece.orEqual c short long after).1.text).outcome
      (Piece.orEqual c short long after).1.kind := by
  unfold orEqual Piece.orEqual
  split
  · rw [bind_ok (h.toBetween.accept_eq (by decide) (by decide))]
    show _ = (s.past [c, '=']).outcome _
    rw [h.past_eq, List.count_cons_of_ne hc]
    rfl
  · rename_i hne
    rw [bind_ok (h.toBetween.accept_stops (by decide) (by decide) hne)]
    show _ = (s.past [c]).outcome _
    rw [h.past_single hc]
    rfl

theorem Begun.slash_eq (hc : c ≠ '\n') :
    slash s = (s.past (Piece.slash c after).1.text).outcome (Piece.slash c after).1.kind := by
  unfold slash Piece.slash
  split
  · rename_i rest
    rw [bind_ok (h.toBetween.accept_eq (by decide) (by decide))]
    have hs := h.toBetween.forward (by decide) s.line
    have hcount := count_newline_takeWhile (q := (· != '\n')) (by decide) rest
    show skipLine { s with current := s.current + 1 } = (s.past (c :: '/' :: _)).outcome .comment
    rw [skipLine_eq (hs.size ▸ Nat.le_add_right _ _), ← ascii_bne (by decide),
      hs.length_run (uniform_bne (by decide)), h.past_eq, List.count_cons_of_ne hc,
      List.count_cons_of_ne (by decide), hcount, String.utf8Len_cons, show '/'.utf8Size = 1 from rfl]
    simp only [outcome, Nat.add_assoc, Nat.add_zero, Nat.add_comm 1]
  · rename_i hne
    rw [bind_ok (h.toBetween.accept_stops (by decide) (by decide) hne)]
    show _ = (s.past [c]).outcome _
    rw [h.past_single hc]
    rfl

end

theorem Begun.string_eq (h : s.Begun before '"' after) :
    string s = (s.past (Piece.string '"' after).1.text).outcome (Piece.string '"' after).1.kind := by
  obtain ⟨body, hbody⟩ : ∃ body, after.takeWhile (· != '"') = body := ⟨_, rfl⟩
  have hsplit := List.takeWhile_append_dropWhile (p := (· != '"')) (l := after)
  have hskip : skipString s = .ok () { s with
      current := s.current + String.utf8Len body, line := s.line + body.count '\n' } := by
    rw [skipString_eq, ← ascii_bne (by decide), h.length_run (uniform_bne (by decide)), h.rest,
      takeWhile_bytesOf (uniform_bne (by decide)), count_bytesOf (by decide), hbody]
  have hcount : ∀ tail, ('"' :: (body ++ tail)).count '\n' = body.count '\n' + tail.count '\n' :=
    fun tail => by rw [List.count_cons_of_ne (by decide), List.count_append]
  rw [hbody] at hsplit
  unfold string Piece.string
  simp only [hbody]
  rw [bind_ok hskip]
  split
  · rename_i hdrop
    rw [hdrop, List.append_nil] at hsplit
    subst hsplit
    have hs := (show s.Between (before ++ ['"']) (body ++ []) by
      rw [List.append_nil]; exact h.toBetween).forwardAll (s.line + body.count '\n')
    rw [bind_ok hs.atEnd_eq, h.past_eq, List.count_cons_of_ne (by decide)]
    rfl
  · rename_i quote rest hdrop
    obtain rfl : quote = '"' := by
      have hstops : Piece.Stops (· != '"') (quote :: rest) := hdrop ▸ Piece.stops_dropWhile
      simpa using Piece.stops_cons.mp hstops
    rw [hdrop] at hsplit
    subst hsplit
    have hs := h.toBetween.forwardAll (s.line + body.count '\n')
    have hslice : ∀ s' : Scanner, s'.source = s.source →
        slice (s.start + 1) (s.current + String.utf8Len body) s' = .ok (String.ofList body) s' := by
      intro s' hsource
      have hsource : s'.source = String.ofList (before ++ ['"'] ++ body ++ '"' :: rest) := by
        rw [hsource, h.source, ← List.append_assoc]
      refine slice_eq hsource ?_ ?_
      · rw [h.start, String.utf8Len_append]
        rfl
      · rw [h.current, ← String.utf8Len_append]
    rw [bind_ok hs.atEnd_eq]
    show (advance >>= _ : Reader Unit) _ = _
    rw [bind_ok (hs.advance_eq (by decide)), h.past_eq, hcount, String.utf8Len_append]
    exact (bind_ok (x := get) rfl).trans (bind_ok (hslice _ rfl))

/-- The text of a lexeme can be cut out as soon as it is behind the scanner. -/
theorem Begun.lexeme_eq (h : s.Begun before c after) {text rest : List Char}
    (hafter : after = text ++ rest) : lexeme { s with current := s.current + String.utf8Len text } =
      .ok (String.ofList (c :: text)) { s with current := s.current + String.utf8Len text } := by
  have hstop : s.current + String.utf8Len text = String.utf8Len (before ++ c :: text) := by
    rw [h.current, ← String.utf8Len_append, List.append_assoc]
    rfl
  exact slice_eq (s := { s with current := s.current + _ }) (h.source_eq hafter) h.start hstop

theorem Begun.word_eq (h : s.Begun before c after) (hc : c ≠ '\n') :
    word s = (s.past (Piece.word c after).1.text).outcome (Piece.word c after).1.kind := by
  have hcount := count_newline_takeWhile (q := Piece.inWord) (by decide) after
  have hlexeme := h.lexeme_eq (List.takeWhile_append_dropWhile (p := Piece.inWord)).symm
  unfold word Piece.word
  rw [bind_ok (h.toBetween.skipWhile_eq uniform_inWord (by decide)), bind_ok hlexeme, h.past_eq,
    List.count_cons_of_ne hc, hcount]
  rfl

theorem valueOf_digits {whole : List Char} (hwhole : ∀ d ∈ whole, d.isDigit = true) :
    valueOf whole = Piece.numeral whole [] := by
  have hsplit := Piece.stops_nil.takeWhile_append hwhole
  have hdrop := Piece.stops_nil.dropWhile_append hwhole
  rw [List.append_nil] at hsplit hdrop
  rw [valueOf, hsplit, hdrop]
  rfl

theorem valueOf_fraction {whole fraction : List Char} (hwhole : ∀ d ∈ whole, d.isDigit = true) :
    valueOf (whole ++ '.' :: fraction) = Piece.numeral whole fraction := by
  have hpoint : Piece.Stops Char.isDigit ('.' :: fraction) := Piece.stops_cons.mpr (by decide)
  rw [valueOf, hpoint.takeWhile_append hwhole, hpoint.dropWhile_append hwhole]
  rfl

theorem utf8Len_point (whole fraction : List Char) :
    String.utf8Len (whole ++ '.' :: fraction) =
      String.utf8Len whole + 1 + String.utf8Len fraction := by
  rw [String.utf8Len_append, String.utf8Len_cons, show '.'.utf8Size = 1 from rfl,
    Nat.add_comm _ 1, Nat.add_assoc]

/-- A fraction follows if the two bytes in front are a point and a digit. -/
theorem Between.fraction_iff (h : s.Between before after) :
    ((s.byte? s.current).getD 0 == '.'.toUInt8 &&
      ascii Char.isDigit ((s.byte? (s.current + 1)).getD 0)) = true ↔ Piece.Fraction after := by
  have hpoint := h.ascii_front (uniform_beq (c := '.') (by decide)) (by decide)
  rw [ascii_beq (by decide)] at hpoint
  have hdigit : ∀ text, after = '.' :: text →
      ascii Char.isDigit ((s.byte? (s.current + 1)).getD 0) = text.head?.any Char.isDigit := by
    rintro text rfl
    exact (h.forward (by decide) s.line).ascii_front uniform_isDigit (by decide)
  rw [hpoint, Bool.and_eq_true, Option.any_eq_true]
  constructor
  · rintro ⟨⟨d, hd, hpoint⟩, hnext⟩
    obtain rfl := beq_iff_eq.mp hpoint
    obtain ⟨text, rfl⟩ := List.head?_eq_some_iff.mp hd
    rw [hdigit text rfl, Option.any_eq_true] at hnext
    obtain ⟨d, hd, hnext⟩ := hnext
    obtain ⟨text, rfl⟩ := List.head?_eq_some_iff.mp hd
    exact ⟨d, text, rfl, hnext⟩
  · rintro ⟨d, text, rfl, hd⟩
    rw [hdigit _ rfl]
    exact ⟨⟨'.', rfl, rfl⟩, hd⟩

theorem Begun.number_eq (h : s.Begun before c after) (hc : c.isDigit = true) :
    number s = (s.past (Piece.number c after).1.text).outcome (Piece.number c after).1.kind := by
  have hne : c ≠ '\n' := by
    rintro rfl
    exact absurd hc (by decide)
  have hcount := count_newline_takeWhile (q := Char.isDigit) (by decide)
  have hwhole : ∀ d ∈ c :: after.takeWhile Char.isDigit, d.isDigit = true :=
    List.forall_mem_cons.mpr ⟨hc, fun _ hd => List.mem_takeWhile_imp hd⟩
  have hsplit := List.takeWhile_append_dropWhile (p := Char.isDigit) (l := after)
  have hs := (hsplit.symm ▸ h.toBetween : s.Between _ _).forwardAll s.line
  unfold number
  rw [bind_ok (h.toBetween.skipWhile_eq uniform_isDigit (by decide)), bind_ok (x := peek) rfl,
    bind_ok (x := peekNext) rfl]
  by_cases hfraction : Piece.Fraction (after.dropWhile Char.isDigit)
  · have hif := hs.fraction_iff.mpr hfraction
    obtain ⟨d, text, htail, hd⟩ := hfraction
    rw [Piece.number_of_fraction htail hd]
    rw [htail] at hs hsplit
    have hrest : after = after.takeWhile Char.isDigit ++ '.' :: d :: text.takeWhile Char.isDigit ++
        text.dropWhile Char.isDigit := by
      rw [List.append_assoc, List.cons_append, List.cons_append, List.takeWhile_append_dropWhile,
        hsplit]
    have hlen : s.current + String.utf8Len (after.takeWhile Char.isDigit ++
        '.' :: d :: text.takeWhile Char.isDigit) = s.current +
          String.utf8Len (after.takeWhile Char.isDigit) + 1 +
            String.utf8Len ((d :: text).takeWhile Char.isDigit) := by
      rw [List.takeWhile_cons_of_pos hd, utf8Len_point, Nat.add_assoc, Nat.add_assoc,
        Nat.add_assoc]
    have hbreak : (c :: (after.takeWhile Char.isDigit ++
        '.' :: d :: text.takeWhile Char.isDigit)).count '\n' = 0 := by
      rw [List.count_cons_of_ne hne, List.count_append, List.count_cons_of_ne (by decide),
        ← List.takeWhile_cons_of_pos hd, hcount, hcount]
    have hlexeme := h.lexeme_eq hrest
    have hpast := h.past_eq (after.takeWhile Char.isDigit ++ '.' :: d :: text.takeWhile Char.isDigit)
    rw [hlen] at hlexeme hpast
    rw [hbreak] at hpast
    refine (congrFun (if_pos hif) _).trans ?_
    refine (bind_ok (hs.advance_eq (by decide))).trans ?_
    refine (bind_ok ((hs.forward (by decide) s.line).skipWhile_eq uniform_isDigit
      (by decide))).trans ?_
    refine (bind_ok hlexeme).trans ?_
    rw [String.toList_ofList, ← List.cons_append, valueOf_fraction hwhole]
    exact congrArg (outcome · (.token (.number _))) hpast.symm
  · rw [Piece.number_of_not_fraction hfraction]
    have hif := mt hs.fraction_iff.mp hfraction
    refine (congrFun (if_neg hif) _).trans ?_
    refine (bind_ok (h.lexeme_eq hsplit.symm)).trans ?_
    rw [h.past_eq, List.count_cons_of_ne hne, hcount, String.toList_ofList, valueOf_digits hwhole]
    rfl

theorem unexpected_eq (hsource : s.source = String.ofList (before ++ c :: after))
    (hstart : s.start = String.utf8Len before) (hc : c ≠ '\n') :
    unexpected s = (s.past [c]).outcome .unexpected := by
  have hpos : (⟨s.start⟩ : String.Pos.Raw) = posAfter before := by
    ext
    rw [hstart, byteIdx_posAfter]
  have hget : String.Pos.Raw.get? s.source ⟨s.start⟩ = some c := by
    rw [hsource, hstart]
    exact String.get?_of_valid before (c :: after)
  have hvalid : String.Pos.Raw.isValid s.source ⟨s.start⟩ = true := by
    rw [hpos, hsource]
    exact String.Pos.Raw.isValid_eq_true_iff.mpr isValid_posAfter
  unfold unexpected
  rw [if_pos hvalid, hget, past, List.count_cons_of_ne hc]
  simp [fail, outcome]

theorem first_of_high (hc : 127 < c.toNat) (rest : List Char) :
    Piece.first c rest = (⟨.unexpected, [c]⟩, rest) := by
  unfold Piece.first
  split
  iterate 20 exact absurd hc (by decide)
  rw [if_neg (by simp [isDigit_of_high hc]),
    if_neg (by simp [Piece.startsWord, isAlpha_of_high hc, ne_of_high hc])]

theorem lexemeFrom_of_high (hc : 127 < c.toNat) : lexemeFrom c = unexpected := by
  unfold lexemeFrom
  split
  iterate 20 exact absurd hc (by decide)
  rw [if_neg (by simp [isDigit_of_high hc]),
    if_neg (by simp [Piece.startsWord, isAlpha_of_high hc, ne_of_high hc])]

/-- A lexeme is the piece that starts with its first character. -/
theorem Begun.lexemeFrom_eq (h : s.Begun before c after) :
    lexemeFrom c s = (s.past (Piece.first c after).1.text).outcome (Piece.first c after).1.kind := by
  have hsource : s.source = String.ofList (before ++ c :: after) := by
    rw [h.source, List.append_assoc]
    rfl
  have hpast := h.past_single
  unfold Piece.first
  split
  iterate 10 exact congrArg (outcome · (.token _)) (hpast (by decide)).symm
  iterate 4 exact h.orEqual_eq (by decide) _ _
  iterate 3 exact congrArg (outcome · .blank) (hpast (by decide)).symm
  · rw [h.past_eq]
    rfl
  · exact h.slash_eq (by decide)
  · exact h.string_eq
  · unfold lexemeFrom
    split
    iterate 20 contradiction
    have hc : c ≠ '\n' := by assumption
    split
    · rename_i hdigit
      exact h.number_eq hdigit
    · split
      · exact h.word_eq hc
      · exact unexpected_eq hsource h.start hc

/-- The first byte of a character tells which lexeme it starts. -/
theorem Between.read_eq (h : s.Between before (c :: after)) (hstart : s.start = s.current) :
    (do lexemeFrom (Char.ofUInt8 (← advance)) : Reader Unit) s =
      (s.past (Piece.first c after).1.text).outcome (Piece.first c after).1.kind := by
  by_cases hc : c.toNat ≤ 127
  · have hbegun : Begun { s with current := s.current + 1 } before c after :=
      { h.forward hc s.line with start := hstart.trans h.current }
    rw [bind_ok (h.advance_eq hc), ofUInt8_toUInt8 hc, hbegun.lexemeFrom_eq]
    rfl
  · have hc := Nat.lt_of_not_le hc
    obtain ⟨b, bs, hbs⟩ := List.exists_cons_of_ne_nil (String.utf8EncodeChar_ne_nil (c := c))
    have hrest : s.rest = b :: (bs ++ bytesOf after) := by
      rw [h.rest, bytesOf, List.flatMap_cons, hbs]
      rfl
    have hb : 127 < (Char.ofUInt8 b).toNat := by
      rw [toNat_ofUInt8]
      exact high_of_mem_utf8 hc (hbs ▸ List.mem_cons_self)
    rw [bind_ok (advance_of_rest hrest), lexemeFrom_of_high hb, first_of_high hc]
    exact unexpected_eq (s := { s with current := s.current + 1 }) h.source
      (hstart.trans h.current) (ne_of_high hc (by decide))

/-- In front of a character a turn of the scanner reads the piece that starts with it. -/
theorem Between.turn_eq (h : s.Between before (c :: after)) :
    turn s = .ok ((Piece.first c after).1.item? (s.line + (Piece.first c after).1.newlines))
      { s with
        start := s.current
        current := s.current + String.utf8Len (Piece.first c after).1.text
        line := s.line + (Piece.first c after).1.newlines
        pending := none } := by
  have hread := (show Between { s with start := s.current, pending := none } before (c :: after) from
    ⟨h.source, h.current⟩).read_eq rfl
  have htext := Piece.text_first c after
  generalize Piece.first c after = cut at hread htext ⊢
  obtain ⟨⟨kind, text⟩, rest⟩ := cut
  have hlexeme : ∀ s' : Scanner, s'.source = s.source →
      slice s.current (s.current + String.utf8Len text) s' = .ok (String.ofList text) s' := by
    intro s' hsource
    have hsource : s'.source = String.ofList (before ++ text ++ rest) := by
      rw [hsource, h.source, ← htext, List.append_assoc]
    refine slice_eq hsource h.current ?_
    rw [h.current, String.utf8Len_append]
  unfold turn
  simp only [hread]
  cases kind with
  | blank => rfl
  | comment => rfl
  | unexpected => rfl
  | unterminated => rfl
  | token kind =>
    simp only [outcome, lexeme, past, hlexeme]
    rfl

end Scanner

end Treewalk
