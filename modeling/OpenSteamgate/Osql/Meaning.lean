import Mathlib.Data.Nat.Log
import OpenSteamgate.Osql.Where

namespace OpenSteamgate.Osql

open Lexeme

inductive Truth
  | no
  | unknown
  | yes

namespace Truth

def not : Truth → Truth
  | .no => .yes
  | .unknown => .unknown
  | .yes => .no

def and : Truth → Truth → Truth
  | .yes,t => t
  | .no,_ => .no
  | .unknown,.no => .no
  | .unknown,_ => .unknown

def or : Truth → Truth → Truth
  | .no,t => t
  | .yes,_ => .yes
  | .unknown,.yes => .yes
  | .unknown,_ => .unknown

end Truth

@[grind =] def IR.truth {σ τ : Type} (v : IR σ τ → Truth) : IR σ τ → Truth
  | .bin .and left right _ => (left.truth v).and (right.truth v)
  | .bin .or left right _ => (left.truth v).or (right.truth v)
  | .not expr => (expr.truth v).not
  | .like expr pattern escape true => (v (.like expr pattern escape false)).not
  | .inList expr values true => (v (.inList expr values false)).not
  | e => v e

inductive Cond
  | atom (comparison : GoIR)
  | not (c : Cond)
  | and (c d : Cond)
  | or (c d : Cond)

def Cond.value (v : GoIR → Truth) : Cond → Truth
  | .atom comparison => v comparison
  | .not c => (c.value v).not
  | .and c d => (c.value v).and (d.value v)
  | .or c d => (c.value v).or (d.value v)

inductive Connective
  | and
  | or

namespace Connective

def op : Connective → Op
  | .and => .and
  | .or => .or

def word : Connective → String
  | .and => "AND"
  | .or => "OR"

def cond : Connective → Cond → Cond → Cond
  | .and => .and
  | .or => .or

def truth : Connective → Truth → Truth → Truth
  | .and => .and
  | .or => .or

def unit : Connective → Truth
  | .and => .yes
  | .or => .no

def below : Connective → Option Connective
  | .and => none
  | .or => some .and

end Connective

inductive Shape (l : Connective) : Nat → List GoIR → GoIR → Prop
  | leaf (e : GoIR) : Shape l 0 [e] e
  | node {n m : Nat} {es es' : List GoIR} {e e' : GoIR} : Shape l n es e → Shape l m es' e' →
      Shape l (max n m + 1) (es ++ es') (.bin l.op e e' tBool)

section grammar

variable (casing : Casing) (columns : List OsqlColumn)

abbrev Tokens := List (Token Text)

def Word (w : String) (t : Token Text) : Prop := t.kind = .name ∧ casing.toUpper t.value = w.toList

def Literal (c : OsqlColumn) (t : Token Text) (e : GoIR) : Prop :=
  t.kind.literal = true ∧ valueFor t c = .ok e

def OsqlColumn.expr (c : OsqlColumn) : GoIR :=
  .col c.name none (if c.type.abap = .D then tChar 8 else c.type)

def Compares (t : Token Text) (o : Op) : Prop :=
  t.kind = .op ∧ osqlCompare t.value = some o ∨
    t.kind = .name ∧ osqlCompare (casing.toUpper t.value) = some o

inductive Values (c : OsqlColumn) : Tokens → List GoIR → Tokens → Prop
  | last {t close : Token Text} {e : GoIR} {rest : Tokens} : Literal c t e →
      close.kind = .closing → Values c (t :: close :: rest) [e] rest
  | more {t comma : Token Text} {e : GoIR} {es : List GoIR} {ts rest : Tokens} : Literal c t e →
      comma.kind = .comma → Values c ts es rest → Values c (t :: comma :: ts) (e :: es) rest

inductive Escape : Tokens → Option GoIR → Tokens → Prop
  | none (rest : Tokens) : Escape rest none rest
  | some {w t : Token Text} {rest : Tokens} : Word casing "ESCAPE" w → t.kind = .text →
      strlen t.value = 1 → Escape (w :: t :: rest) (some (.lit (.text t.value) tStr)) rest

inductive Negation : Tokens → Bool → Tokens → Prop
  | without (rest : Tokens) : Negation rest false rest
  | with {w : Token Text} {rest : Tokens} : Word casing "NOT" w → Negation (w :: rest) true rest

def Cond.negated (c : Cond) : Bool → Cond
  | true => .not c
  | false => c

inductive Compared (c : OsqlColumn) : Tokens → Cond → GoIR → Tokens → Prop
  | compare {o : Op} {t s : Token Text} {value : GoIR} {rest : Tokens} :
      Compares casing t o → Literal c s value →
      Compared c (t :: s :: rest) (.atom (.bin o c.expr value tBool)) (.bin o c.expr value tBool) rest
  | between {neg : Bool} {start rest : Tokens} {w s a t : Token Text} {low high : GoIR} :
      Negation casing start neg (w :: s :: a :: t :: rest) → Word casing "BETWEEN" w →
      Literal c s low → Word casing "AND" a → Literal c t high →
      Compared c start
        ((Cond.and (.atom (.bin .ge c.expr low tBool)) (.atom (.bin .le c.expr high tBool))).negated neg)
        (if neg then .not (.bin .and (.bin .ge c.expr low tBool) (.bin .le c.expr high tBool) tBool)
          else .bin .and (.bin .ge c.expr low tBool) (.bin .le c.expr high tBool) tBool) rest
  | like {neg : Bool} {start ts rest : Tokens} {w s : Token Text} {escape : Option GoIR} :
      Negation casing start neg (w :: s :: ts) → Word casing "LIKE" w → s.kind = .text →
      Escape casing ts escape rest →
      Compared c start
        ((Cond.atom (.like c.expr (.lit (.text (trimRight s.value)) tStr) escape false)).negated neg)
        (.like c.expr (.lit (.text (trimRight s.value)) tStr) escape neg) rest
  | inList {neg : Bool} {start ts rest : Tokens} {w s : Token Text} {values : List GoIR} :
      Negation casing start neg (w :: s :: ts) → Word casing "IN" w → s.kind = .opening →
      Values c ts values rest →
      Compared c start ((Cond.atom (.inList c.expr values false)).negated neg)
        (.inList c.expr values neg) rest
  | isNull {neg : Bool} {ts rest : Tokens} {w s : Token Text} : Word casing "IS" w →
      Negation casing ts neg (s :: rest) → Word casing "NULL" s →
      Compared c (w :: ts) ((Cond.atom (.isnull c.expr)).negated neg)
        (if neg then .not (.isnull c.expr) else .isnull c.expr) rest

mutual

inductive Parsed : Option Connective → Tokens → Cond → GoIR → Tokens → Prop
  | chain {l : Connective} {n : Nat} {ts us rest : Tokens} {first c : Cond} {es : List GoIR}
      {e tree : GoIR} : Parsed l.below ts first e us → Chain l first [e] us c es rest →
      Shape l n es tree → n ≤ Nat.clog 2 es.length → Parsed (some l) ts c tree rest
  | not {t : Token Text} {ts rest : Tokens} {c : Cond} {e : GoIR} : Word casing "NOT" t →
      Parsed none ts c e rest → Parsed none (t :: ts) (.not c) (.not e) rest
  | paren {t close : Token Text} {ts rest : Tokens} {c : Cond} {e : GoIR} : t.kind = .opening →
      Parsed (some .or) ts c e (close :: rest) → close.kind = .closing → Parsed none (t :: ts) c e rest
  | comparison {t : Token Text} {ts rest : Tokens} {column : OsqlColumn} {c : Cond} {e : GoIR} :
      t.kind = .name → osqlKeyword (casing.toUpper t.value) = false →
      known casing columns (casing.toUpper t.value) = some column →
      Compared casing column ts c e rest → Parsed none (t :: ts) c e rest

inductive Chain : Connective → Cond → List GoIR → Tokens → Cond → List GoIR → Tokens → Prop
  | done {l : Connective} {c : Cond} {es : List GoIR} {rest : Tokens} : Chain l c es rest c es rest
  | more {l : Connective} {ts us rest : Tokens} {w : Token Text} {c d c' : Cond}
      {es es' : List GoIR} {e : GoIR} : Word casing l.word w → Parsed l.below ts d e us →
      Chain l (l.cond c d) (es ++ [e]) us c' es' rest → Chain l c es (w :: ts) c' es' rest

end

end grammar

namespace Truth

theorem and_assoc (s t u : Truth) : (s.and t).and u = s.and (t.and u) := by
  cases s <;> cases t <;> cases u <;> rfl

theorem or_assoc (s t u : Truth) : (s.or t).or u = s.or (t.or u) := by
  cases s <;> cases t <;> cases u <;> rfl

end Truth

namespace Connective

variable (l : Connective) (v : GoIR → Truth)

def total (es : List GoIR) : Truth := es.foldr (fun e t => l.truth (e.truth v) t) l.unit

theorem truth_assoc (s t u : Truth) : l.truth (l.truth s t) u = l.truth s (l.truth t u) := by
  cases l with
  | and => exact Truth.and_assoc s t u
  | or => exact Truth.or_assoc s t u

theorem unit_truth (t : Truth) : l.truth l.unit t = t := by
  cases l <;> rfl

theorem truth_unit (t : Truth) : l.truth t l.unit = t := by
  cases l <;> cases t <;> rfl

theorem total_single (e : GoIR) : l.total v [e] = e.truth v := l.truth_unit _

theorem total_append (es es' : List GoIR) :
    l.total v (es ++ es') = l.truth (l.total v es) (l.total v es') := by
  induction es with
  | nil => exact (l.unit_truth _).symm
  | cons e es ih =>
    change l.truth (e.truth v) (l.total v (es ++ es')) = _
    rw [ih,← truth_assoc]
    rfl

theorem truth_bin (e e' : GoIR) :
    IR.truth v (.bin l.op e e' tBool) = l.truth (e.truth v) (e'.truth v) := by
  cases l <;> rfl

theorem value_cond (c d : Cond) : (l.cond c d).value v = l.truth (c.value v) (d.value v) := by
  cases l <;> rfl

end Connective

variable {l : Connective} {n : Nat} {es : List GoIR} {e : GoIR}

theorem Shape.truth (h : Shape l n es e) (v : GoIR → Truth) : e.truth v = l.total v es := by
  induction h with
  | leaf e => exact (l.total_single v e).symm
  | node _ _ ih ih' => rw [l.truth_bin,l.total_append,ih,ih']

theorem halves_shape (l : Connective) (n : Nat) (first : GoIR) (rest : List GoIR)
    (h : rest.length ≤ n) : ∃ d,d ≤ Nat.clog 2 (rest.length + 1) ∧
      Shape l d (first :: rest) (halves l.op n first rest) := by
  induction n generalizing first rest with
  | zero =>
    rw [List.length_eq_zero_iff.mp (Nat.le_zero.mp h)]
    exact ⟨0,Nat.zero_le _,.leaf first⟩
  | succ n ih =>
    rw [halves]
    split
    · rename_i hdrop
      have hlength := List.drop_eq_nil_iff.mp hdrop
      have hnil : rest = [] := List.length_eq_zero_iff.mp (by omega)
      rw [hnil]
      exact ⟨0,Nat.zero_le _,.leaf first⟩
    · rename_i middle more hdrop
      have hlength : more.length + 1 = rest.length - ((rest.length + 2) / 2 - 1) := by
        rw [← List.length_drop,hdrop,List.length_cons]
      have htake : (rest.take ((rest.length + 2) / 2 - 1)).length = (rest.length + 2) / 2 - 1 := by
        rw [List.length_take]
        omega
      obtain ⟨d,hd,hleft⟩ := ih first (rest.take ((rest.length + 2) / 2 - 1)) (by omega)
      obtain ⟨d',hd',hright⟩ := ih middle more (by omega)
      have hclog : Nat.clog 2 (rest.length + 1) = Nat.clog 2 ((rest.length + 2) / 2) + 1 :=
        Nat.clog_of_two_le (by decide) (by omega)
      have hleft' : d ≤ Nat.clog 2 ((rest.length + 2) / 2) := by
        refine hd.trans (Nat.clog_mono_right 2 ?_)
        omega
      have hright' : d' ≤ Nat.clog 2 ((rest.length + 2) / 2) :=
        hd'.trans (Nat.clog_mono_right 2 (by omega))
      refine ⟨max d d' + 1,by omega,?_⟩
      have hsplit : first :: rest = first :: rest.take ((rest.length + 2) / 2 - 1) ++ (middle :: more) := by
        rw [← hdrop,List.cons_append,List.take_append_drop]
      rw [hsplit]
      exact .node hleft hright

theorem balanced_shape (l : Connective) (first : GoIR) (rest : List GoIR) :
    ∃ d,d ≤ Nat.clog 2 (first :: rest).length ∧
      Shape l d (first :: rest) (balanced l.op first rest) :=
  halves_shape l rest.length first rest le_rfl

end OpenSteamgate.Osql
