import Treewalk.Proofs.Forms.Legible
import Treewalk.Proofs.Grammar.Complete

/-!
# The text of a program determines its tree

Whatever is read from tokens without strings and with finite numerals is legible
(`Parser.Reads.legible`), so the form of each statement is read back as the statement. Since the
text of a program determines the forms of its statements, two programs with one text are the same
but for the lines of their tokens.
-/

namespace Treewalk

open Form Lexeme

/-- Not a string, and not a numeral too large for a finite double. -/
def Kind.isPlain : Kind → Bool
  | .string _ => false
  | .number x => x.isFinite
  | _ => true

/-- The token is spelled as what it is, and its text is plain. -/
structure Token.Plain (t : Token) : Prop where
  genuine : t.Genuine
  isPlain : t.kind.isPlain = true

/-- The text of a finite number that is written somewhere is a numeral, too. -/
theorem denotes_numeral {w : List Char} {x : Float} (h : Denotes w (.number x))
    (hfinite : x.isFinite = true) : Denotes (Literal.text (.number x)).toList (.number x) := by
  cases h with
  | number _ hnearest =>
    cases hnearest with
    | finite size hparts _ _ => exact Decimal.denotes_text hparts
    | infinite hparts _ =>
      have hinfinite : x = Float.ofBits 0x7FF0000000000000 :=
        Decimal.eq_of_toBits ((Decimal.toBits_of_infinite hparts).trans (by decide))
      rw [hinfinite] at hfinite
      exact absurd hfinite (by decide)

namespace Parser

theorem legible_atom {t : Token} {e : Expr} (h : atom? t = some e) (ht : t.Plain) : e.Legible := by
  obtain ⟨hgenuine, hplain⟩ := ht
  unfold atom? at h
  split at h <;> cases h
  · exact .literal (.reserved (by decide)) rfl
  · exact .literal (.reserved (by decide)) rfl
  · exact .literal (.reserved (by decide)) rfl
  · next value hkind =>
    rw [hkind] at hplain
    rw [Token.Genuine, hkind] at hgenuine
    exact .literal (denotes_numeral hgenuine hplain) rfl
  · next value hkind =>
    rw [hkind] at hplain
    cases hplain
  · next hkind => exact .receiver hgenuine hkind
  · next hkind => exact .var hgenuine hkind

def Goal.Legible : Goal → Prop
  | .expression e | .operand _ e | .unary e | .primary e => e.Legible
  | .chain _ a e | .suffixes a e => a.Legible → e.Legible
  | .arguments es | .items es => ∀ e ∈ es, e.Legible
  | .clause e => ∀ x ∈ e, x.Legible
  | .parameters ps | .names ps => ∀ p ∈ ps, p.Genuine ∧ p.IsName
  | .binding s | .statement _ s | .declaration _ s => s.Legible
  | .initializer s => ∀ x ∈ s, x.Legible
  | .declarations l => ∀ s ∈ l, s.Legible
  | .routine r => r.Legible
  | .methods ms => ∀ r ∈ ms, r.Legible

theorem Reads.legible {g : Goal} {ts : List Token} (h : Reads g ts) (hts : ∀ t ∈ ts, t.Plain) :
    g.Legible := by
  induction h with
  | plain _ ih | bottom _ ih | arguments _ _ ih | parameters _ _ ih | statement _ ih => exact ih hts
  | assign _ _ _ ih ihv =>
    obtain ⟨hts, -, hus⟩ := by simpa only [List.forall_mem_append, List.forall_mem_cons] using hts
    exact .assign (ih hts) (ihv hus)
  | set _ _ _ ih ihv =>
    obtain ⟨hts, -, hus⟩ := by simpa only [List.forall_mem_append, List.forall_mem_cons] using hts
    exact .set (ih hts) (ihv hus)
  | level _ _ iha ihe =>
    obtain ⟨hts, hus⟩ := List.forall_mem_append.mp hts
    exact ihe hus (iha hts)
  | endOfChain | endOfSuffixes => exact id
  | link his hs _ _ ihb ihe =>
    obtain ⟨hop, hts, hus⟩ := by simpa only [List.forall_mem_append, List.forall_mem_cons] using hts
    exact fun ha => ihe hus (.operation ha (ihb hts) hop.genuine his hs)
  | sign his hs _ ih =>
    obtain ⟨hop, hts⟩ := List.forall_mem_cons.mp hts
    exact .unary (ih hts) hop.genuine his hs
  | call _ _ iha ihe =>
    obtain ⟨hts, hus⟩ := List.forall_mem_append.mp hts
    exact ihe hus (iha hts)
  | apply _ _ hrp _ ihargs ihe =>
    obtain ⟨-, hts, hparen, hus⟩ := by
      simpa only [List.forall_mem_append, List.forall_mem_cons] using hts
    exact fun ha => ihe hus (.call ha hparen.genuine hrp (ihargs hts))
  | property _ hname _ ih =>
    obtain ⟨-, hn, hus⟩ := by simpa only [List.forall_mem_cons] using hts
    exact fun ha => ih hus (.get ha hn.genuine hname)
  | noArguments | noParameters | noDeclarations | noMethods => exact List.forall_mem_nil _
  | item _ ih => exact List.forall_mem_singleton.mpr (ih hts)
  | items _ _ _ ih ihes =>
    obtain ⟨hts, -, hus⟩ := by simpa only [List.forall_mem_append, List.forall_mem_cons] using hts
    exact List.forall_mem_cons.mpr ⟨ih hts, ihes hus⟩
  | atom h => exact legible_atom h (hts _ (List.mem_cons_self ..))
  | inherited hs _ hname =>
    obtain ⟨hk, -, hn, -⟩ := by simpa only [List.forall_mem_cons] using hts
    exact .inherited hk.genuine hs hn.genuine hname
  | group _ _ _ ih =>
    obtain ⟨-, hts, -⟩ := by simpa only [List.forall_mem_append, List.forall_mem_cons] using hts
    exact .group (ih hts)
  | noClause | noInitializer => exact fun _ h => absurd h (Option.not_mem_none _)
  | clause _ ih => exact fun _ h => Option.some.inj h ▸ ih hts
  | expressionStatement _ _ ih =>
    obtain ⟨hts, -⟩ := List.forall_mem_append.mp hts
    exact .expression (ih hts)
  | print _ _ _ ih =>
    obtain ⟨-, hts, -⟩ := by simpa only [List.forall_mem_append, List.forall_mem_cons] using hts
    exact .print (ih hts)
  | leave hs _ _ ih =>
    obtain ⟨hk, hts, -⟩ := by simpa only [List.forall_mem_append, List.forall_mem_cons] using hts
    exact .leave hk.genuine hs (ih hts)
  | block _ _ _ ih =>
    obtain ⟨-, hts, -⟩ := by simpa only [List.forall_mem_append, List.forall_mem_cons] using hts
    exact .block (ih hts)
  | loop _ _ _ _ _ ihc ihs =>
    obtain ⟨-, -, hts, -, hus⟩ := by
      simpa only [List.forall_mem_append, List.forall_mem_cons] using hts
    exact .loop (ihc hts) (ihs hus)
  | branch _ _ _ _ _ ihc ihs =>
    obtain ⟨-, -, hts, -, hus⟩ := by
      simpa only [List.forall_mem_append, List.forall_mem_cons] using hts
    exact .branch (ihc hts) (ihs hus)
  | choice _ _ _ _ _ _ _ ihc ihs iha =>
    obtain ⟨-, -, hts, -, hus, -, hvs⟩ := by
      simpa only [List.forall_mem_append, List.forall_mem_cons] using hts
    exact .choice (ihc hts) (ihs hus) (iha hvs)
  | forLoop _ _ _ _ _ _ _ _ ihi ihc ihe ihs =>
    obtain ⟨-, -, hts, hus, -, hvs, -, hws⟩ := by
      simpa only [List.forall_mem_append, List.forall_mem_cons] using hts
    exact .forLoop (ihi hts) (ihc hus) (ihe hvs) (ihs hws)
  | declareFirst _ _ ih =>
    obtain ⟨-, hts⟩ := List.forall_mem_cons.mp hts
    exact fun _ h => Option.some.inj h ▸ ih hts
  | expressionFirst _ _ ih =>
    obtain ⟨hts, -⟩ := List.forall_mem_append.mp hts
    exact fun _ h => Option.some.inj h ▸ .expression (ih hts)
  | name hname =>
    obtain ⟨hp, -⟩ := List.forall_mem_cons.mp hts
    exact List.forall_mem_singleton.mpr ⟨hp.genuine, hname⟩
  | names hname _ _ ih =>
    obtain ⟨hp, -, hts⟩ := by simpa only [List.forall_mem_cons] using hts
    exact List.forall_mem_cons.mpr ⟨⟨hp.genuine, hname⟩, ih hts⟩
  | uninitialized hname _ =>
    obtain ⟨hn, -⟩ := List.forall_mem_cons.mp hts
    exact .declare hn.genuine hname fun _ h => absurd h (Option.not_mem_none _)
  | initialized hname _ _ _ ih =>
    obtain ⟨hn, -, hts, -⟩ := by simpa only [List.forall_mem_append, List.forall_mem_cons] using hts
    exact .declare hn.genuine hname fun _ h => Option.some.inj h ▸ ih hts
  | binding _ _ ih =>
    obtain ⟨-, hts⟩ := List.forall_mem_cons.mp hts
    exact ih hts
  | function _ _ ih =>
    obtain ⟨-, hts⟩ := List.forall_mem_cons.mp hts
    exact .function (ih hts)
  | base _ hname _ _ _ ih =>
    obtain ⟨-, hn, -, hts, -⟩ := by
      simpa only [List.forall_mem_append, List.forall_mem_cons] using hts
    exact .base hn.genuine hname (ih hts)
  | derived _ hname _ hparent _ _ _ ih =>
    obtain ⟨-, hn, -, hp, -, hts, -⟩ := by
      simpa only [List.forall_mem_append, List.forall_mem_cons] using hts
    exact .derived hn.genuine hname hp.genuine hparent (ih hts)
  | declarations _ _ ih ihl =>
    obtain ⟨hts, hus⟩ := List.forall_mem_append.mp hts
    exact List.forall_mem_cons.mpr ⟨ih hts, ihl hus⟩
  | routine hname _ _ _ _ _ _ ihps ihl =>
    obtain ⟨hn, -, hts, -, -, hus, -⟩ := by
      simpa only [List.forall_mem_append, List.forall_mem_cons] using hts
    exact ⟨Routine.yields_header hn.genuine hname (ihps hts), ihl hus⟩
  | methods _ _ ih ihms =>
    obtain ⟨hts, hus⟩ := List.forall_mem_append.mp hts
    exact List.forall_mem_cons.mpr ⟨ih hts, ihms hus⟩

end Parser

/-! ## Programs -/

/-- The scanner spells each token as what it is. -/
theorem genuine_of_mem_tokensIn {source : String} {t : Token} (h : t ∈ tokensIn source) :
    t.Genuine := by
  obtain ⟨p, hp, hkind, hlexeme⟩ := Piece.mem_tokens h
  have hmem : p ∈ Piece.tokenPieces (Piece.split source.toList) :=
    List.mem_filter.mpr ⟨hp, by rw [Piece.content?, hkind]; rfl⟩
  obtain ⟨kind, hkind', hdenotes⟩ := Piece.isToken_of_mem_tokenPieces p hmem
  cases hkind.symm.trans hkind'
  rwa [Token.Genuine, hlexeme, String.toList_ofList]

theorem Program.legible {source : String} {p : Program}
    (h : Program.ofTokens (scan source).1 = (p, []))
    (hplain : ∀ t ∈ (scan source).1, t.kind.isPlain = true) : ∀ s ∈ p, s.Legible := by
  rw [scan_fst] at h hplain
  have hreads := (Program.ofTokens_append_iff (fun _ => kind_ne_of_mem_tokensIn) rfl).mp h
  refine hreads.legible fun t ht => ⟨genuine_of_mem_tokensIn ht, ?_⟩
  exact hplain t (List.mem_append_left _ ht)

/-- Legible statements with the same forms are the same statements. -/
theorem Program.eq_of_forms {p q : Program} (hp : ∀ s ∈ p, s.Legible) (hq : ∀ s ∈ q, s.Legible)
    (h : p.map Stmt.form = q.map Stmt.form) :
    p.map (Stmt.map Token.unlined) = q.map (Stmt.map Token.unlined) := by
  have hread : ∀ {p : Program}, (∀ s ∈ p, s.Legible) → (p.map Stmt.form).map Form.read? =
      (p.map (Stmt.map Token.unlined)).map (some ∘ Phrase.stmt) := by
    intro p hp
    rw [List.map_map, List.map_map]
    exact List.map_congr_left fun s hs => (hp s hs).read
  have hinjective : Function.Injective (some ∘ Phrase.stmt) := fun s s' heq => by simpa using heq
  apply List.map_injective_iff.mpr hinjective
  rw [← hread hp, ← hread hq, h]

/-- Two programs with one text are the same program, whatever lines their tokens stand on. -/
theorem Program.text_unambiguous {a b : String} {p q : Program}
    (ha : Program.ofTokens (scan a).1 = (p, [])) (hb : Program.ofTokens (scan b).1 = (q, []))
    (hplaina : ∀ t ∈ (scan a).1, t.kind.isPlain = true)
    (hplainb : ∀ t ∈ (scan b).1, t.kind.isPlain = true) (h : p.text = q.text) :
    p.map (Stmt.map Token.unlined) = q.map (Stmt.map Token.unlined) := by
  have hp := Program.legible ha hplaina
  have hq := Program.legible hb hplainb
  have hplain : ∀ {p : Program}, (∀ s ∈ p, s.Legible) → ∀ f ∈ p.map Stmt.form, f.Plain := by
    intro p hp f hf
    obtain ⟨s, hs, rfl⟩ := List.mem_map.mp hf
    exact (hp s hs).plain
  have htexts : joined '\n' (p.map Stmt.form) ++ [] = joined '\n' (q.map Stmt.form) ++ [] := by
    rw [← Program.toList_text, ← Program.toList_text, h]
  have hcloses : Closes '\n' [] := ⟨Piece.stops_nil, Piece.stops_nil⟩
  obtain ⟨hforms, -⟩ := joined_inj (Piece.stops_cons.mpr (by decide))
    (fun f hf => ⟨hplain hp f hf, (hplain hp f hf).separable⟩) (hplain hq) hcloses hcloses htexts
  exact Program.eq_of_forms hp hq hforms

/-- A loop is written in two ways and a number in two ways; names are those of forms, and a sign
has one operand or two. -/
theorem Program.text_unambiguous_loops :
    let a := "fun call(x) \x7b return -x - 1.50; \x7d for (;call(i);) i.x = (!y);"
    let b := "fun call(x) \x7b\nreturn - x-1.5; \x7d\nwhile (call(i)) i.x = (!y);"
    let p := Program.ofTokens (scan a).1
    let q := Program.ofTokens (scan b).1
    ((p.2 = [] ∧ p.1.length = 2 ∧ ∀ t ∈ (scan a).1, t.kind.isPlain = true) ∧
      (q.2 = [] ∧ ∀ t ∈ (scan b).1, t.kind.isPlain = true) ∧ p.1.text = q.1.text) ∧
      p.1.map (Stmt.map Token.unlined) = q.1.map (Stmt.map Token.unlined) := by
  intro a b p q
  have hread : (p.2 = [] ∧ p.1.length = 2 ∧ ∀ t ∈ (scan a).1, t.kind.isPlain = true) ∧
      (q.2 = [] ∧ ∀ t ∈ (scan b).1, t.kind.isPlain = true) ∧ p.1.text = q.1.text := by
    decide +kernel
  clear_value a b
  exact ⟨hread, Program.text_unambiguous (Prod.ext rfl hread.1.1) (Prod.ext rfl hread.2.1.1)
    hread.1.2.2 hread.2.1.2 hread.2.2⟩

end Treewalk
