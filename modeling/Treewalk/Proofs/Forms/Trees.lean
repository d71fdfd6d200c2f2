import Treewalk.Proofs.Forms
import Treewalk.Tree.Text

/-!
# Trees as forms

The text of a tree is a form, written out (`Stmt.toList_textAt`), and the text of a program is the
forms of its statements on lines of their own (`Program.toList_text`). An operator or the name of
a form is the first word of its list, and only the parameters of a function have a name in front
of their list.
-/

namespace Treewalk

namespace Form

def ofToken (t : Token) : Form :=
  .word t.lexeme.toList

/-- A list that begins with the name of a form or an operator. -/
def headed (head : String) (items : List Form) : Form :=
  .node [] (.word head.toList :: items)

theorem text_headed (head : String) (items : List Form) :
    (headed head items).text = '(' :: (head.toList ++ (tails ' ' items ++ [')'])) := by
  rw [headed, text, text, List.nil_append]

theorem intercalate_text (separator : Char) (l : List Form) :
    [separator].intercalate (l.map text) = joined separator l := by
  have htails : ∀ f l,
      [separator].intercalate ((f :: l).map text) = f.text ++ tails separator l := by
    intro f l
    induction l generalizing f with
    | nil => simp [tails]
    | cons g l ih =>
      rw [List.map_cons, List.map_cons, List.intercalate_cons_cons, ← List.map_cons, ih g, tails]
      simp
  cases l with
  | nil => rfl
  | cons f l => exact htails f l

end Form

open Form

mutual

def Expr.form : Expr → Form
  | .literal value => .word value.text.toList
  | .group inner => headed "group" [inner.form]
  | .unary op operand => headed op.lexeme [operand.form]
  | .binary op left right | .logical op left right => headed op.lexeme [left.form, right.form]
  | .var ref => ofToken ref.name
  | .assign target value => headed "=" [ofToken target.name, value.form]
  | .receiver _ => .word "this".toList
  | .inherited _ method => headed "super" [ofToken method]
  | .call callee _ args => headed "call" (callee.form :: Expr.forms args)
  | .get object name => headed "." [object.form, ofToken name]
  | .set object name value => headed "=" [headed "." [object.form, ofToken name], value.form]

def Expr.forms : List Expr → List Form
  | [] => []
  | e :: rest => e.form :: Expr.forms rest

end

/-- The name and the parameters of a function or method. -/
def Routine.header (name : Token) (params : List Token) : Form :=
  .node name.lexeme.toList (params.map ofToken)

mutual

def Stmt.form : Stmt → Form
  | .expression e => headed ";" [e.form]
  | .print e => headed "print" [e.form]
  | .declare name none => headed "var" [ofToken name]
  | .declare name (some init) => headed "var" [ofToken name, init.form]
  | .block body => headed "block" (Stmt.forms body)
  | .branch condition consequent none => headed "if" [condition.form, consequent.form]
  | .branch condition consequent (some alternative) =>
    headed "if" [condition.form, consequent.form, alternative.form]
  | .loop condition body => headed "while" [condition.form, body.form]
  | .function routine => Stmt.routineForm "fun" routine
  | .leave _ none => headed "return" []
  | .leave _ (some value) => headed "return" [value.form]
  | .classDecl name none methods => headed "class" (ofToken name :: Stmt.methodForms methods)
  | .classDecl name (some superclass) methods =>
    headed "class" (ofToken name :: .word "<".toList :: ofToken superclass.name ::
      Stmt.methodForms methods)

def Stmt.forms : List Stmt → List Form
  | [] => []
  | s :: rest => s.form :: Stmt.forms rest

def Stmt.routineForm (kind : String) : Routine Stmt → Form
  | ⟨name, params, body⟩ => headed kind (Routine.header name params :: Stmt.forms body)

def Stmt.methodForms : List (Routine Stmt) → List Form
  | [] => []
  | m :: rest => Stmt.routineForm "method" m :: Stmt.methodForms rest

end

/-! ## Texts -/

mutual

theorem Expr.toList_textAt : ∀ (level : Nat) (e : Expr), (e.textAt level).toList = e.form.text
  | level, .literal value => by rw [Expr.textAt, Expr.form, Form.text]
  | level, .group e => by
    simp [Expr.textAt, Expr.form, text_headed, tails, e.toList_textAt (level + 1)]
  | level, .unary op e => by
    simp [Expr.textAt, Expr.form, text_headed, tails, e.toList_textAt (level + 1)]
  | level, .binary op a b => by
    simp [Expr.textAt, Expr.form, text_headed, tails, a.toList_textAt (level + 1),
      b.toList_textAt (level + 1)]
  | level, .logical op a b => by
    simp [Expr.textAt, Expr.form, text_headed, tails, a.toList_textAt (level + 1),
      b.toList_textAt (level + 1)]
  | level, .var r => by rw [Expr.textAt, Expr.form, ofToken, Form.text]
  | level, .assign r v => by
    simp [Expr.textAt, Expr.form, text_headed, tails, ofToken, Form.text,
      v.toList_textAt (level + 1)]
  | level, .receiver k => by rw [Expr.textAt, Expr.form, Form.text]
  | level, .inherited k m => by
    simp [Expr.textAt, Expr.form, text_headed, tails, ofToken, Form.text]
  | level, .call f p args => by
    simp [Expr.textAt, Expr.form, text_headed, tails, f.toList_textAt (level + 1),
      Expr.toList_textsAt (level + 1) args]
  | level, .get o n => by
    simp [Expr.textAt, Expr.form, text_headed, tails, ofToken, Form.text,
      o.toList_textAt (level + 1)]
  | level, .set o n v => by
    simp [Expr.textAt, Expr.form, text_headed, tails, ofToken, Form.text,
      o.toList_textAt (level + 1), v.toList_textAt (level + 1)]

theorem Expr.toList_textsAt : ∀ (level : Nat) (es : List Expr),
    (Expr.textsAt level es).toList = tails ' ' (Expr.forms es)
  | level, [] => by simp [Expr.textsAt, Expr.forms, tails]
  | level, e :: es => by
    simp [Expr.textsAt, Expr.forms, tails, e.toList_textAt (level + 1),
      Expr.toList_textsAt level es]

end

theorem Expr.toList_text (e : Expr) : e.text.toList = e.form.text :=
  e.toList_textAt 1

theorem Routine.toList_head (kind : String) (name : Token) (params : List Token) :
    (Routine.head kind name params).toList =
      '(' :: (kind.toList ++ ' ' :: (Routine.header name params).text) := by
  have hparams : (" ".intercalate (params.map Token.lexeme)).toList =
      joined ' ' (params.map ofToken) := by
    rw [String.toList_intercalate, ← intercalate_text, List.map_map, List.map_map]
    rfl
  have htext := text_node_append name.lexeme.toList (params.map ofToken) []
  rw [List.append_nil] at htext
  rw [Routine.head, Routine.header, htext]
  simp [hparams]

mutual

theorem Stmt.toList_textAt : ∀ (level : Nat) (s : Stmt), (s.textAt level).toList = s.form.text
  | level, .expression e => by
    simp [Stmt.textAt, Stmt.form, text_headed, tails, e.toList_text]
  | level, .print e => by
    simp [Stmt.textAt, Stmt.form, text_headed, tails, e.toList_text]
  | level, .declare name none => by
    simp [Stmt.textAt, Stmt.form, text_headed, tails, ofToken, Form.text]
  | level, .declare name (some e) => by
    simp [Stmt.textAt, Stmt.form, text_headed, tails, ofToken, Form.text, e.toList_text]
  | level, .block body => by
    simp [Stmt.textAt, Stmt.form, text_headed, Stmt.toList_textsAt (level + 1) body]
  | level, .branch c s none => by
    simp [Stmt.textAt, Stmt.form, text_headed, tails, c.toList_text, s.toList_textAt (level + 1)]
  | level, .branch c s (some a) => by
    simp [Stmt.textAt, Stmt.form, text_headed, tails, c.toList_text, s.toList_textAt (level + 1),
      a.toList_textAt (level + 1)]
  | level, .loop c s => by
    simp [Stmt.textAt, Stmt.form, text_headed, tails, c.toList_text, s.toList_textAt (level + 1)]
  | level, .function r => by
    rw [Stmt.textAt, Stmt.form, Stmt.toList_routineAt (level + 1) "fun" r]
  | level, .leave k none => by
    simp [Stmt.textAt, Stmt.form, text_headed, tails]
  | level, .leave k (some e) => by
    simp [Stmt.textAt, Stmt.form, text_headed, tails, e.toList_text]
  | level, .classDecl n none ms => by
    simp [Stmt.textAt, Stmt.form, text_headed, tails, ofToken, Form.text,
      Stmt.toList_methodsAt (level + 1) ms]
  | level, .classDecl n (some r) ms => by
    simp [Stmt.textAt, Stmt.form, text_headed, tails, ofToken, Form.text,
      Stmt.toList_methodsAt (level + 1) ms]

theorem Stmt.toList_textsAt : ∀ (level : Nat) (l : List Stmt),
    (Stmt.textsAt level l).toList = tails ' ' (Stmt.forms l)
  | level, [] => by simp [Stmt.textsAt, Stmt.forms, tails]
  | level, s :: l => by
    simp [Stmt.textsAt, Stmt.forms, tails, s.toList_textAt (level + 1),
      Stmt.toList_textsAt level l]

theorem Stmt.toList_routineAt : ∀ (level : Nat) (kind : String) (r : Routine Stmt),
    (Stmt.routineAt level kind r).toList = (Stmt.routineForm kind r).text
  | level, kind, ⟨name, params, body⟩ => by
    simp [Stmt.routineAt, Stmt.routineForm, text_headed, tails, Routine.toList_head,
      Stmt.toList_textsAt level body]

theorem Stmt.toList_methodsAt : ∀ (level : Nat) (ms : List (Routine Stmt)),
    (Stmt.methodsAt level ms).toList = tails ' ' (Stmt.methodForms ms)
  | level, [] => by simp [Stmt.methodsAt, Stmt.methodForms, tails]
  | level, m :: ms => by
    simp [Stmt.methodsAt, Stmt.methodForms, tails, Stmt.toList_routineAt level "method" m,
      Stmt.toList_methodsAt level ms]

end

theorem Program.toList_text (p : Program) : p.text.toList = joined '\n' (p.map Stmt.form) := by
  rw [Program.text, String.toList_intercalate, ← intercalate_text, List.map_map, List.map_map]
  congr 1
  exact List.map_congr_left fun s _ => s.toList_textAt 1

end Treewalk
