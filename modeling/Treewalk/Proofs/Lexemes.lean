import Treewalk.Proofs.Numerals
import Treewalk.Proofs.Scan

/-!
# The language of tokens

The texts that are tokens, put together from classes of characters (`token`), and the
kind of token that each of them is (`Denotes`). The first character of a token tells what
it can be (`classOf`), so a text is one kind of token at most (`Denotes.unique`).
-/

namespace Treewalk.Lexeme

open Piece
open scoped Computability

/-! ## The language -/

/-- One character that passes the test. -/
def one (p : Char → Prop) : Language Char :=
  {w | ∃ c, p c ∧ w = [c]}

def digit : Language Char :=
  one fun c => '0' ≤ c ∧ c ≤ '9'

def letter : Language Char :=
  one fun c => 'A' ≤ c ∧ c ≤ 'Z' ∨ 'a' ≤ c ∧ c ≤ 'z' ∨ c = '_'

/-- Digits, and maybe a point with more digits. -/
def number : Language Char :=
  digit * digit∗ * (1 + one (· = '.') * (digit * digit∗))

def identifier : Language Char :=
  letter * (letter + digit)∗

/-- Anything but quotes, in quotes. -/
def string : Language Char :=
  one (· = '"') * ((one (· ≠ '"'))∗ * one (· = '"'))

def operators : List (String × Symbol) :=
  [("(", .leftParen), (")", .rightParen), ("\x7b", .leftBrace), ("\x7d", .rightBrace),
    (",", .comma), (".", .dot), ("-", .minus), ("+", .plus), (";", .semicolon), ("/", .slash),
    ("*", .star), ("!", .bang), ("!=", .bangEqual), ("=", .equal), ("==", .equalEqual),
    (">", .greater), (">=", .greaterEqual), ("<", .less), ("<=", .lessEqual)]

def reserved : List (String × Symbol) :=
  [("and", .andWord), ("class", .classWord), ("else", .elseWord), ("false", .falseWord),
    ("fun", .funWord), ("for", .forWord), ("if", .ifWord), ("nil", .nilWord), ("or", .orWord),
    ("print", .printWord), ("return", .returnWord), ("super", .superWord), ("this", .thisWord),
    ("true", .trueWord), ("var", .varWord), ("while", .whileWord)]

def operator : Language Char :=
  {w | ∃ s, (String.ofList w, s) ∈ operators}

/-- The texts that are tokens. -/
def token : Language Char :=
  operator + string + number + identifier

def blank : Language Char :=
  one (· ∈ [' ', '\r', '\t', '\n'])

/-- Two slashes and anything up to the end of the line. -/
def comment : Language Char :=
  one (· = '/') * (one (· = '/') * (one (· ≠ '\n'))∗)

/-- The number that decimal digits denote. -/
def natural (digits : List Char) : Nat :=
  Nat.ofDigits 10 (digits.map fun c => c.toNat - '0'.toNat).reverse

/-- The number that digits with or without a point denote. -/
def value (w : List Char) : ℚ :=
  let fraction := (w.dropWhile (· ≠ '.')).tail
  natural (w.takeWhile (· ≠ '.')) + natural fraction / 10 ^ fraction.length

/-- The kind of token that a text is, with the value of a literal. -/
inductive Denotes : List Char → Kind → Prop
  | operator {w : List Char} {s : Symbol} :
    (String.ofList w, s) ∈ operators → Denotes w (.symbol s)
  | reserved {w : List Char} {s : Symbol} :
    (String.ofList w, s) ∈ reserved → Denotes w (.symbol s)
  | identifier {w : List Char} : w ∈ identifier → (∀ s, (String.ofList w, s) ∉ Lexeme.reserved) →
    Denotes w .identifier
  | string {body : List Char} : '"' :: (body ++ ['"']) ∈ string →
    Denotes ('"' :: (body ++ ['"'])) (.string (String.ofList body))
  | number {w : List Char} {x : Float} : w ∈ number → Decimal.Nearest (value w) x →
    Denotes w (.number x)

/-! ## Membership -/

section

variable {p q : Char → Prop} {c : Char} {w v : List Char} {l : Language Char}

theorem mem_one : w ∈ one p ↔ ∃ c, p c ∧ w = [c] := Iff.rfl

theorem mem_one_mul : w ∈ one p * l ↔ ∃ c v, p c ∧ v ∈ l ∧ w = c :: v := by
  rw [Language.mem_mul]
  constructor
  · rintro ⟨_, ⟨c, hc, rfl⟩, v, hv, rfl⟩
    exact ⟨c, v, hc, hv, rfl⟩
  · rintro ⟨c, v, hc, hv, rfl⟩
    exact ⟨[c], ⟨c, hc, rfl⟩, v, hv, rfl⟩

theorem one_add_one : one p + one q = one fun c => p c ∨ q c := by
  ext w
  simp only [Language.mem_add, mem_one, ← exists_or, or_and_right]

theorem mem_kstar_one : w ∈ (one p)∗ ↔ ∀ c ∈ w, p c := by
  rw [Language.mem_kstar]
  constructor
  · rintro ⟨L, rfl, hL⟩ c hc
    obtain ⟨y, hy, hcy⟩ := List.mem_flatten.mp hc
    obtain ⟨d, hd, rfl⟩ := hL y hy
    rwa [List.mem_singleton.mp hcy]
  · intro h
    refine ⟨w.map fun c => [c], (List.flatMap_singleton' w).symm, ?_⟩
    simpa [mem_one] using h

theorem isDigit_iff : c.isDigit = true ↔ '0' ≤ c ∧ c ≤ '9' := by
  rw [Char.isDigit_iff_toNat]
  exact Iff.rfl

theorem startsWord_iff :
    startsWord c = true ↔ 'A' ≤ c ∧ c ≤ 'Z' ∨ 'a' ≤ c ∧ c ≤ 'z' ∨ c = '_' := by
  simp [startsWord, Char.isAlpha, Char.isUpper, Char.isLower, Char.le_def, or_assoc]

theorem inWord_iff : inWord c = true ↔ startsWord c = true ∨ c.isDigit = true := by
  simp only [inWord, startsWord, Char.isAlphanum, Bool.or_eq_true]
  tauto

end

/-- Decimal digits, at least one of them. -/
def Digits (w : List Char) : Prop :=
  w ≠ [] ∧ ∀ c ∈ w, c.isDigit = true

section

variable {w : List Char} {s : Symbol}

theorem mem_digits : w ∈ digit * digit∗ ↔ Digits w := by
  simp only [digit, mem_one_mul, mem_kstar_one, ← isDigit_iff]
  cases w with
  | nil => simp [Digits]
  | cons c w => simp [Digits]

theorem mem_number : w ∈ number ↔ ∃ whole, Digits whole ∧
    (w = whole ∨ ∃ fraction, Digits fraction ∧ w = whole ++ '.' :: fraction) := by
  rw [number, Language.mem_mul]
  simp only [mem_digits, Language.mem_add, Language.mem_one, mem_one_mul]
  constructor
  · rintro ⟨whole, hwhole, _, rfl | ⟨_, fraction, rfl, hfraction, rfl⟩, rfl⟩
    · exact ⟨whole, hwhole, .inl (List.append_nil whole)⟩
    · exact ⟨whole, hwhole, .inr ⟨fraction, hfraction, rfl⟩⟩
  · rintro ⟨whole, hwhole, rfl | ⟨fraction, hfraction, rfl⟩⟩
    · exact ⟨w, hwhole, [], .inl rfl, List.append_nil w⟩
    · exact ⟨whole, hwhole, _, .inr ⟨'.', fraction, rfl, hfraction, rfl⟩, rfl⟩

theorem mem_identifier : w ∈ identifier ↔ ∃ c v, startsWord c = true ∧
    (∀ d ∈ v, inWord d = true) ∧ w = c :: v := by
  simp only [identifier, letter, digit, one_add_one, mem_one_mul, mem_kstar_one, ← isDigit_iff,
    ← startsWord_iff, ← inWord_iff]

theorem mem_string : w ∈ string ↔ ∃ body, '"' ∉ body ∧ w = '"' :: (body ++ ['"']) := by
  rw [string, mem_one_mul]
  simp only [Language.mem_mul, mem_kstar_one, mem_one]
  constructor
  · rintro ⟨_, _, rfl, ⟨body, hbody, _, ⟨_, rfl, rfl⟩, rfl⟩, rfl⟩
    exact ⟨body, fun h => hbody _ h rfl, rfl⟩
  · rintro ⟨body, hbody, rfl⟩
    exact ⟨'"', _, rfl, ⟨body, fun c hc h => hbody (h ▸ hc), _, ⟨'"', rfl, rfl⟩, rfl⟩, rfl⟩

theorem mem_comment : w ∈ comment ↔ ∃ body, '\n' ∉ body ∧ w = '/' :: '/' :: body := by
  simp only [comment, mem_one_mul, mem_kstar_one]
  constructor
  · rintro ⟨_, _, rfl, ⟨_, body, rfl, hbody, rfl⟩, rfl⟩
    exact ⟨body, fun h => hbody _ h rfl, rfl⟩
  · rintro ⟨body, hbody, rfl⟩
    exact ⟨'/', _, rfl, ⟨'/', body, rfl, fun c hc h => hbody (h ▸ hc), rfl⟩, rfl⟩

theorem mem_table {symbols : List Symbol} {text : String} :
    (text, s) ∈ symbols.map (fun s => (s.spelling, s)) ↔ s ∈ symbols ∧ s.spelling = text := by
  rw [List.mem_map]
  constructor
  · rintro ⟨s', hs', heq⟩
    obtain ⟨rfl, rfl⟩ := Prod.mk.inj heq
    exact ⟨hs', rfl⟩
  · rintro ⟨hs, rfl⟩
    exact ⟨s, hs, rfl⟩

theorem mem_operators {text : String} :
    (text, s) ∈ operators ↔ s ∈ Symbol.punctuators ∧ s.spelling = text := by
  rw [show operators = Symbol.punctuators.map fun s => (s.spelling, s) from rfl, mem_table]

theorem mem_reserved {text : String} :
    (text, s) ∈ reserved ↔ s ∈ Symbol.words ∧ s.spelling = text := by
  rw [show reserved = Symbol.words.map fun s => (s.spelling, s) from rfl, mem_table]

end

/-! ## First characters -/

/-- What a token can be. -/
inductive Class where
  | operator | string | number | word
  deriving DecidableEq

def Class.language : Class → Language Char
  | operator => Lexeme.operator
  | string => Lexeme.string
  | number => Lexeme.number
  | word => identifier

/-- What a token that starts with the character is. -/
def classOf (c : Char) : Option Class :=
  if punctuates c then some .operator
  else if c = '"' then some .string
  else if c.isDigit then some .number
  else if startsWord c then some .word
  else none

section

variable {c : Char} {w : List Char}

theorem head_operator (h : c :: w ∈ operator) : punctuates c = true := by
  obtain ⟨s, hs⟩ := h
  obtain ⟨hs, hspelling⟩ := mem_operators.mp hs
  exact List.any_eq_true.mpr ⟨s, hs, by simp [hspelling]⟩

theorem head_string (h : c :: w ∈ string) : c = '"' := by
  obtain ⟨body, -, heq⟩ := mem_string.mp h
  exact (List.cons.inj heq).1

theorem head_number (h : c :: w ∈ number) : c.isDigit = true := by
  obtain ⟨whole, ⟨hne, hwhole⟩, heq⟩ := mem_number.mp h
  obtain ⟨d, whole, rfl⟩ := List.exists_cons_of_ne_nil hne
  have hd := hwhole d (List.mem_cons_self ..)
  rcases heq with heq | ⟨fraction, -, heq⟩ <;> rwa [(List.cons.inj heq).1]

theorem head_identifier (h : c :: w ∈ identifier) : startsWord c = true := by
  obtain ⟨d, v, hd, -, heq⟩ := mem_identifier.mp h
  rwa [(List.cons.inj heq).1]

theorem classOf_operator (h : punctuates c = true) : classOf c = some .operator :=
  if_pos h

theorem classOf_string : classOf '"' = some .string := by decide

theorem not_punctuates {q : Char → Bool}
    (hq : (Symbol.punctuators.any fun s => s.spelling.toList.head?.any q) = false)
    (h : q c = true) : ¬ punctuates c = true := by
  intro hc
  obtain ⟨s, hs, hc⟩ := List.any_eq_true.mp hc
  have hhead : s.spelling.toList.head? = some c := (eq_of_beq hc).symm
  apply List.any_eq_false.mp hq s hs
  rw [hhead]
  exact h

theorem classOf_number (h : c.isDigit = true) : classOf c = some .number := by
  have hquote : c ≠ '"' := by
    rintro rfl
    exact absurd h (by decide)
  rw [classOf, if_neg (not_punctuates (by decide) h), if_neg hquote, if_pos h]

theorem classOf_word (h : startsWord c = true) : classOf c = some .word := by
  have hquote : c ≠ '"' := by
    rintro rfl
    exact absurd h (by decide)
  have hdigit : ¬ c.isDigit = true := fun hc => by simp [startsWord_of_isDigit hc] at h
  rw [classOf, if_neg (not_punctuates (by decide) h), if_neg hquote, if_neg hdigit, if_pos h]

theorem classOf_of_mem {k : Class} (h : c :: w ∈ k.language) : classOf c = some k := by
  cases k with
  | operator => exact classOf_operator (head_operator h)
  | string => exact head_string h ▸ classOf_string
  | number => exact classOf_number (head_number h)
  | word => exact classOf_word (head_identifier h)

theorem mem_token : w ∈ token ↔ ∃ k : Class, w ∈ k.language := by
  simp only [token, Language.mem_add]
  constructor
  · rintro (((h | h) | h) | h)
    exacts [⟨.operator, h⟩, ⟨.string, h⟩, ⟨.number, h⟩, ⟨.word, h⟩]
  · rintro ⟨k, h⟩
    cases k with
    | operator => exact .inl (.inl (.inl h))
    | string => exact .inl (.inl (.inr h))
    | number => exact .inl (.inr h)
    | word => exact .inr h

theorem nil_notMem_language (k : Class) : [] ∉ k.language := by
  intro h
  cases k with
  | operator =>
    have htable : ∀ s ∈ Symbol.punctuators, s.spelling ≠ String.ofList [] := by decide
    obtain ⟨s, hs⟩ := h
    obtain ⟨hs, hspelling⟩ := mem_operators.mp hs
    exact htable s hs hspelling
  | string =>
    obtain ⟨_, -, heq⟩ := mem_string.mp h
    cases heq
  | number =>
    obtain ⟨whole, hwhole, heq | ⟨_, -, heq⟩⟩ := mem_number.mp h
    · exact hwhole.1 heq.symm
    · simp at heq
  | word =>
    obtain ⟨_, _, -, -, heq⟩ := mem_identifier.mp h
    cases heq

/-- The first character of a token tells what it is. -/
theorem mem_language {k : Class} (hc : classOf c = some k) (h : c :: w ∈ token) :
    c :: w ∈ k.language := by
  obtain ⟨k', h'⟩ := mem_token.mp h
  rwa [Option.some.inj (hc.symm.trans (classOf_of_mem h'))]

/-- No text is a token of two classes. -/
theorem class_unique (k k' : Class) (h : w ∈ k.language) (h' : w ∈ k'.language) : k = k' := by
  cases w with
  | nil => exact absurd h (nil_notMem_language k)
  | cons c w => exact Option.some.inj ((classOf_of_mem h).symm.trans (classOf_of_mem h'))

end

/-! ## Numerals -/

section

variable {whole fraction : List Char}

theorem natural_append (a b : List Char) :
    natural (a ++ b) = natural a * 10 ^ b.length + natural b := by
  simp only [natural, List.map_append, List.reverse_append, Nat.ofDigits_append,
    List.length_reverse, List.length_map]
  ring

theorem natural_eq (ds : List Char) : Piece.natural ds = natural ds := by
  induction ds using List.reverseRecOn with
  | nil => rfl
  | append_singleton ds c ih =>
    rw [natural_append, ← ih]
    simp only [Piece.natural, List.foldl_append, List.foldl_cons, List.foldl_nil]
    simp [natural, Piece.digit, Nat.mul_comm]

theorem value_of_fraction (h : ∀ c ∈ whole, c.isDigit = true) :
    value (whole ++ '.' :: fraction) = natural (whole ++ fraction) / 10 ^ fraction.length := by
  have hne : ∀ c ∈ whole, decide (c ≠ '.') = true := fun c hc =>
    decide_eq_true fun heq => absurd (h c hc) (by rw [heq]; decide)
  have hstops : Stops (fun c => decide (c ≠ '.')) ('.' :: fraction) := stops_cons.mpr (by decide)
  have hpower : (10 ^ fraction.length : ℚ) ≠ 0 := pow_ne_zero _ (by norm_num)
  rw [value, hstops.takeWhile_append hne, hstops.dropWhile_append hne, natural_append]
  push_cast
  rw [List.tail_cons, add_div, mul_div_cancel_right₀ _ hpower]

theorem value_of_not_fraction (h : ∀ c ∈ whole, c.isDigit = true) :
    value whole = natural whole := by
  have hne : ∀ c ∈ whole, decide (c ≠ '.') = true := fun c hc =>
    decide_eq_true fun heq => absurd (h c hc) (by rw [heq]; decide)
  have htake := stops_nil.takeWhile_append hne
  have hdrop := stops_nil.dropWhile_append hne
  rw [List.append_nil] at htake hdrop
  rw [value, htake, hdrop]
  simp [natural]

theorem denotes_fraction (hwhole : Digits whole) (hfraction : Digits fraction) :
    Denotes (whole ++ '.' :: fraction) (.number (numeral whole fraction)) := by
  refine .number (mem_number.mpr ⟨whole, hwhole, .inr ⟨fraction, hfraction, rfl⟩⟩) ?_
  rw [value_of_fraction hwhole.2, numeral, natural_eq]
  exact Decimal.nearest_ofScientific _ _

theorem denotes_whole (hwhole : Digits whole) : Denotes whole (.number (numeral whole [])) := by
  refine .number (mem_number.mpr ⟨whole, hwhole, .inl rfl⟩) ?_
  have h := Decimal.nearest_ofScientific (natural whole) 0
  rw [pow_zero, div_one, ← value_of_not_fraction hwhole.2, ← natural_eq] at h
  rwa [numeral, List.append_nil]

end

/-! ## One kind only -/

theorem spelling_injective {s t : Symbol} (h : s.spelling = t.spelling) : s = t := by
  have htable : ∀ s ∈ Symbol.punctuators ++ Symbol.words,
      ∀ t ∈ Symbol.punctuators ++ Symbol.words, s.spelling = t.spelling → s = t := by
    decide +kernel
  have hall : ∀ s : Symbol, s ∈ Symbol.punctuators ++ Symbol.words := by
    intro s
    cases s <;> decide
  exact htable s (hall s) t (hall t) h

section

variable {w : List Char} {kind kind' : Kind}

theorem identifier_of_reserved {s : Symbol} (h : (String.ofList w, s) ∈ reserved) :
    w ∈ identifier := by
  have htable : ∀ s ∈ Symbol.words, s.spelling.toList.head?.any startsWord = true ∧
      s.spelling.toList.tail.all inWord = true := by decide
  obtain ⟨hs, hspelling⟩ := mem_reserved.mp h
  have hword := htable s hs
  rw [hspelling, String.toList_ofList] at hword
  cases w with
  | nil => cases hword.1
  | cons c v => exact mem_identifier.mpr ⟨c, v, hword.1, List.all_eq_true.mp hword.2, rfl⟩

theorem Denotes.mem_token (h : Denotes w kind) : w ∈ token := by
  rw [Lexeme.mem_token]
  cases h with
  | operator h => exact ⟨.operator, _, h⟩
  | reserved h => exact ⟨.word, identifier_of_reserved h⟩
  | identifier h _ => exact ⟨.word, h⟩
  | string h => exact ⟨.string, h⟩
  | number h _ => exact ⟨.number, h⟩

theorem Denotes.ne_endOfFile (h : Denotes w kind) : kind ≠ .endOfFile := by
  rintro rfl
  cases h

theorem Denotes.eq_quoted {value : String} (h : Denotes w kind) (hkind : kind = .string value) :
    ∃ body, w = '"' :: (body ++ ['"']) ∧ value = String.ofList body := by
  cases h <;> cases hkind
  exact ⟨_, rfl, rfl⟩

/-- A text is one kind of token at most. -/
theorem Denotes.unique (h : Denotes w kind) (h' : Denotes w kind') : kind = kind' := by
  have hsymbol : ∀ {s t : Symbol}, s.spelling = String.ofList w → t.spelling = String.ofList w →
      Kind.symbol s = .symbol t := fun hs ht => by rw [spelling_injective (hs.trans ht.symm)]
  cases h with
  | operator h =>
    have hclass : w ∈ Class.operator.language := ⟨_, h⟩
    cases h' with
    | operator h' => exact hsymbol (mem_operators.mp h).2 (mem_operators.mp h').2
    | reserved h' => cases class_unique .operator .word hclass (identifier_of_reserved h')
    | identifier h' _ => cases class_unique .operator .word hclass h'
    | string h' => cases class_unique .operator .string hclass h'
    | number h' _ => cases class_unique .operator .number hclass h'
  | reserved h =>
    have hclass : w ∈ Class.word.language := identifier_of_reserved h
    cases h' with
    | operator h' => cases class_unique .word .operator hclass ⟨_, h'⟩
    | reserved h' => exact hsymbol (mem_reserved.mp h).2 (mem_reserved.mp h').2
    | identifier _ hfree => exact absurd h (hfree _)
    | string h' => cases class_unique .word .string hclass h'
    | number h' _ => cases class_unique .word .number hclass h'
  | identifier h hfree =>
    have hclass : w ∈ Class.word.language := h
    cases h' with
    | operator h' => cases class_unique .word .operator hclass ⟨_, h'⟩
    | reserved h' => exact absurd h' (hfree _)
    | identifier _ _ => rfl
    | string h' => cases class_unique .word .string hclass h'
    | number h' _ => cases class_unique .word .number hclass h'
  | @string body h =>
    generalize hw : '"' :: (body ++ ['"']) = w at h h'
    have hclass : w ∈ Class.string.language := h
    cases h' with
    | operator h' => cases class_unique .string .operator hclass ⟨_, h'⟩
    | reserved h' => cases class_unique .string .word hclass (identifier_of_reserved h')
    | identifier h' _ => cases class_unique .string .word hclass h'
    | string _ => rw [List.append_cancel_right (List.cons.inj hw).2]
    | number h' _ => cases class_unique .string .number hclass h'
  | number h hx =>
    have hclass : w ∈ Class.number.language := h
    cases h' with
    | operator h' => cases class_unique .number .operator hclass ⟨_, h'⟩
    | reserved h' => cases class_unique .number .word hclass (identifier_of_reserved h')
    | identifier h' _ => cases class_unique .number .word hclass h'
    | string h' => cases class_unique .number .string hclass h'
    | number _ hx' => rw [hx.unique hx']

end

end Treewalk.Lexeme
