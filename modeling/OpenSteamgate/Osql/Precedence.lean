import OpenSteamgate.Library.Outcome
import OpenSteamgate.Osql.Meaning

namespace OpenSteamgate.Osql

open Lexeme

variable {casing : Casing} {columns : List OsqlColumn} {c : OsqlColumn} {l : Connective}
  {level : Option Connective} {ts rest : Tokens} {cond : Cond} {e : GoIR} {es : List GoIR}
  {p : OsqlParser}

section meaning

theorem osqlCompare_atom {s : Text} {o : Op} (h : osqlCompare s = some o) :
    o ≠ .and ∧ o ≠ .or := by
  rw [osqlCompare,Option.map_eq_some_iff] at h
  obtain ⟨entry,hentry,rfl⟩ := h
  have hall : ∀ entry ∈ comparisons,entry.2 ≠ .and ∧ entry.2 ≠ .or := by decide
  exact hall entry (List.mem_of_find?_eq_some hentry)

theorem truth_atom (v : GoIR → Truth) {o : Op} (h : o ≠ .and ∧ o ≠ .or) (a b : GoIR) (t : IRType) :
    IR.truth v (.bin o a b t) = v (.bin o a b t) := by
  cases o with
  | and => exact absurd rfl h.1
  | or => exact absurd rfl h.2
  | _ => rfl

theorem Compared.truth (h : Compared casing c ts cond e rest) (v : GoIR → Truth) :
    e.truth v = cond.value v := by
  cases h with
  | compare hop _ =>
    rcases hop with ⟨_,hop⟩ | ⟨_,hop⟩ <;> exact truth_atom v (osqlCompare_atom hop) _ _ _
  | @between neg => cases neg <;> rfl
  | @like neg => cases neg <;> rfl
  | @inList neg => cases neg <;> rfl
  | @isNull neg => cases neg <;> rfl

mutual

theorem Parsed.truth (v : GoIR → Truth) {level : Option Connective} {ts rest : Tokens} {cond : Cond}
    {e : GoIR} : Parsed casing columns level ts cond e rest → e.truth v = cond.value v
  | .chain (l := l) (e := e) hfirst hchain hshape _ =>
    (hshape.truth v).trans (hchain.truth v ((hfirst.truth v).symm.trans (l.total_single v e).symm)).symm
  | .not _ h => congrArg Truth.not (h.truth v)
  | .paren _ h _ => h.truth v
  | .comparison _ _ _ h => Compared.truth h v

theorem Chain.truth (v : GoIR → Truth) {l : Connective} {ts rest : Tokens} {c cond : Cond}
    {es es' : List GoIR} : Chain casing columns l c es ts cond es' rest →
      c.value v = l.total v es → cond.value v = l.total v es'
  | .done,hread => hread
  | .more _ h hchain,hread => by
    refine hchain.truth v ?_
    rw [l.value_cond,l.total_append,hread,l.total_single,h.truth v]

end

end meaning

section comparisons

theorem expect_reads (kind : Kind) (value : String) (p : OsqlParser) :
    Yields (p.expect casing kind value) fun q => ∃ t,p.list = t :: q.list ∧ t.kind = kind ∧
      (value ≠ "" → casing.toUpper t.value = value.toList) := by
  rw [OsqlParser.expect]
  split
  · exact .error
  · rename_i one rest hlist
    refine .ite (fun _ => .error) fun hone => .ok ⟨one,hlist,?_,fun hvalue => ?_⟩
    · exact not_not.mp fun h => hone (.inl h)
    · exact not_not.mp fun h => hone (.inr ⟨hvalue,h⟩)

theorem word_ne_nil (h : p.word casing ≠ []) :
    ∃ t,p.list = t :: p.take.list ∧ t.kind = .name ∧ casing.toUpper t.value = p.word casing := by
  rw [OsqlParser.word] at h ⊢
  split
  · rename_i t rest hlist
    rw [hlist] at h
    by_cases hname : t.kind = .name
    · refine ⟨t,?_,hname,by rw [if_pos hname]⟩
      rw [OsqlParser.take,hlist]
      rfl
    · exact absurd (if_neg hname) h
  · rename_i hlist
    rw [hlist] at h
    exact absurd rfl h

theorem literal_sound (c : OsqlColumn) (p : OsqlParser) : Yields (p.literal casing columns c) fun r =>
    ∃ t,p.list = t :: r.2.list ∧ Literal c t r.1 := by
  rw [OsqlParser.literal]
  split
  · exact .error
  · rename_i one rest hlist
    refine .ite (fun hone => ?_) fun _ => .ite (fun _ => .ite (fun _ => .error) fun _ => .error)
      fun _ => .error
    cases hvalue : valueFor one c with
    | error e => exact .error
    | ok e => exact .ok ⟨one,hlist,hone,hvalue⟩

theorem expect_sound {w : String} (hw : w ≠ "") (p : OsqlParser) :
    Yields (p.expect casing .name w) fun q => ∃ t,p.list = t :: q.list ∧ Word casing w t :=
  (expect_reads .name w p).mono fun _ ⟨t,hlist,hkind,hvalue⟩ => ⟨t,hlist,hkind,hvalue hw⟩

theorem word_sound {w : String} (hw : w.toList ≠ []) (h : p.word casing = w.toList) :
    ∃ t,p.list = t :: p.take.list ∧ Word casing w t := by
  obtain ⟨t,hlist,hname,hvalue⟩ := word_ne_nil (h ▸ hw)
  exact ⟨t,hlist,hname,hvalue.trans h⟩

theorem between_sound (neg : Bool) {w : Token Text} {start : Tokens}
    (hneg : Negation casing start neg (w :: p.list)) (hw : Word casing "BETWEEN" w) :
    Yields (p.between casing columns c c.expr neg) fun r =>
      ∃ cond,Compared casing c start cond r.1 r.2.list := by
  refine (literal_sound c p).bind fun r ⟨s,hs,hlow⟩ => ?_
  refine (expect_sound (by decide) r.2).bind fun q ⟨a,ha,hand⟩ => ?_
  refine (literal_sound c q).bind fun r' ⟨t,ht,hhigh⟩ => ?_
  rw [hs,ha,ht] at hneg
  exact .ok ⟨_,.between hneg hw hlow hand hhigh⟩

theorem escape_sound (p : OsqlParser) : Yields (p.escape casing) fun r =>
    Escape casing p.list r.1 r.2.list := by
  rw [OsqlParser.escape]
  refine .ite (fun hword => ?_) fun _ => .ok (.none _)
  obtain ⟨w,hlist,hw⟩ := word_sound (by decide) hword
  split
  · exact .error
  · rename_i t rest htake
    refine .ite (fun _ => .error) fun hkind => .ite (fun _ => .error) fun _ => .ok ?_
    rw [not_or,not_not,not_not] at hkind
    rw [hlist,htake]
    exact .some hw hkind.1 hkind.2

theorem like_sound (neg : Bool) {w : Token Text} {start : Tokens}
    (hneg : Negation casing start neg (w :: p.list)) (hw : Word casing "LIKE" w) :
    Yields (p.like casing c c.expr neg) fun r =>
      ∃ cond,Compared casing c start cond r.1 r.2.list := by
  rw [OsqlParser.like]
  split
  · exact .error
  · rename_i s ts hlist
    refine .ite (fun _ => .error) fun hkind => .ite (fun _ => .error) fun _ =>
      .ite (fun _ => .error) fun _ => (escape_sound _).bind fun r hescape =>
        .ite (fun _ => .error) fun _ => ?_
    rw [hlist] at hneg
    exact .ok ⟨_,.like hneg hw (not_not.mp hkind) hescape⟩

theorem moreValues_sound (n : Nat) (p : OsqlParser) :
    Yields (p.moreValues casing columns c n) fun r => ∀ close rest,r.2.list = close :: rest →
      close.kind = .closing → ∀ t e,Literal c t e → Values c (t :: p.list) (e :: r.1) rest := by
  have hlast : ∀ close rest,p.list = close :: rest → close.kind = .closing →
      ∀ t e,Literal c t e → Values c (t :: p.list) [e] rest := fun close rest hlist hclose t e ht => by
    rw [hlist]
    exact .last ht hclose
  induction n generalizing p with
  | zero => exact .ok hlast
  | succ n ih =>
    rw [OsqlParser.moreValues]
    split
    · exact .ok hlast
    · rename_i comma rest hlist
      refine .ite (fun hcomma => ?_) fun _ => .ok hlast
      refine (literal_sound c p.take).bind fun r ⟨s,hs,hvalue⟩ => ?_
      refine (ih r.2 fun close rest hlist hclose t e ht => ?_).bind fun r' hmore => .ok ?_
      · rw [hlist]
        exact .last ht hclose
      · intro close rest' hclose hkind t e ht
        have htake : p.take.list = rest := by rw [OsqlParser.take,hlist]; rfl
        rw [hlist,← htake,hs]
        exact .more ht hcomma (hmore close rest' hclose hkind s r.1 hvalue)

theorem inList_sound (neg : Bool) {w : Token Text} {start : Tokens}
    (hneg : Negation casing start neg (w :: p.list)) (hw : Word casing "IN" w) :
    Yields (p.inList casing columns c c.expr neg) fun r =>
      ∃ cond,Compared casing c start cond r.1 r.2.list := by
  refine (expect_reads .opening "" p).bind fun q ⟨s,hs,hopen,_⟩ => ?_
  refine (literal_sound c q).bind fun r ⟨t,ht,hvalue⟩ => ?_
  refine (moreValues_sound _ r.2).bind fun r' hmore => ?_
  refine (expect_reads .closing "" r'.2).bind fun q' ⟨close,hclose,hkind,_⟩ => ?_
  have hvalues := hmore close q'.list hclose hkind t r.1 hvalue
  rw [hs,ht] at hneg
  exact .ok ⟨_,.inList hneg hw hopen hvalues⟩

theorem isNull_sound {w : Token Text} (hw : Word casing "IS" w) (p : OsqlParser) :
    Yields (p.isNull casing c.expr) fun r => ∃ cond,Compared casing c (w :: p.list) cond r.1 r.2.list := by
  have hnull : ∀ (neg : Bool) (q : OsqlParser),Negation casing p.list neg q.list →
      Yields (q.expect casing .name "NULL" >>= fun q =>
        .ok (if neg then IR.not (.isnull c.expr) else .isnull c.expr,q)) fun r =>
          ∃ cond,Compared casing c (w :: p.list) cond r.1 r.2.list := fun neg q hneg => by
    refine (expect_sound (by decide) q).bind fun q' ⟨s,hs,hnull⟩ => ?_
    rw [hs] at hneg
    exact .ok ⟨_,.isNull hw hneg hnull⟩
  rw [OsqlParser.isNull]
  by_cases hnot : p.word casing = "NOT".toList
  · obtain ⟨t,hlist,ht⟩ := word_sound (by decide) hnot
    simp only [hnot,beq_self_eq_true,if_true]
    refine .ite (fun _ => .error) fun _ => hnull true p.take ?_
    rw [hlist]
    exact .with ht
  · simp only [beq_eq_false_iff_ne.mpr hnot,Bool.false_eq_true,if_false]
    exact .ite (fun _ => .error) fun _ => hnull false p (.without _)

theorem forms_sound (c : OsqlColumn) (neg : Bool) {start : Tokens} (q : OsqlParser)
    (hneg : Negation casing start neg q.list) :
    Yields (if c.type.abap = .X ∧ (q.word casing = "BETWEEN".toList ∨ q.word casing = "IN".toList) then
        refuseWhere .columnType
      else if q.word casing = "BETWEEN".toList then q.take.between casing columns c c.expr neg
      else if q.word casing = "LIKE".toList then q.take.like casing c c.expr neg
      else if q.word casing = "IN".toList then q.take.inList casing columns c c.expr neg
      else if (!neg) = true ∧ q.word casing = "IS".toList then q.take.isNull casing c.expr
      else refuseWhere .malformed) fun r => ∃ cond,Compared casing c start cond r.1 r.2.list := by
  refine .ite (fun _ => .error) fun _ => .ite (fun hword => ?_) fun _ => .ite (fun hword => ?_) fun _ =>
    .ite (fun hword => ?_) fun _ => .ite (fun hword => ?_) fun _ => .error
  · obtain ⟨w,hlist,hw⟩ := word_sound (by decide) hword
    exact between_sound neg (hlist ▸ hneg) hw
  · obtain ⟨w,hlist,hw⟩ := word_sound (by decide) hword
    exact like_sound neg (hlist ▸ hneg) hw
  · obtain ⟨w,hlist,hw⟩ := word_sound (by decide) hword
    exact inList_sound neg (hlist ▸ hneg) hw
  · obtain ⟨w,hlist,hw⟩ := word_sound (by decide) hword.2
    have hfalse : neg = false := by simpa using hword.1
    subst hfalse
    cases hneg
    rw [hlist]
    exact isNull_sound hw q.take

theorem comparison_sound (c : OsqlColumn) (p : OsqlParser) :
    Yields (p.comparison casing columns c) fun r => ∃ cond,Compared casing c p.list cond r.1 r.2.list := by
  have hexpr : IR.col c.name none (if c.type.abap = .D then tChar 8 else c.type) = c.expr := rfl
  rw [OsqlParser.comparison]
  simp only [hexpr]
  split
  · exact .error
  · rename_i op rest hlist
    have htake : p.take.list = rest := by rw [OsqlParser.take,hlist]; rfl
    split
    · rename_i o ho
      have hop : Compares casing op o := by
        by_cases hkind : op.kind = .op
        · exact .inl ⟨hkind,by rwa [if_pos hkind] at ho⟩
        · rw [if_neg hkind] at ho
          by_cases hname : op.kind = .name
          · exact .inr ⟨hname,by rwa [if_pos hname] at ho⟩
          · rw [if_neg hname] at ho
            cases ho
      refine (literal_sound c p.take).bind fun r hr => ?_
      obtain ⟨s,hs,hvalue⟩ := hr
      refine .ok ?_
      rw [hlist,← htake,hs]
      exact ⟨_,.compare hop hvalue⟩
    · by_cases hnot : p.word casing = "NOT".toList
      · obtain ⟨t,hnext,ht⟩ := word_sound (by decide) hnot
        simp only [hnot,beq_self_eq_true,if_true]
        exact forms_sound c true p.take (by rw [hnext]; exact .with ht)
      · simp only [beq_eq_false_iff_ne.mpr hnot,Bool.false_eq_true,if_false]
        exact forms_sound c false p (.without _)

end comparisons

section conditions

def Sound (casing : Casing) (columns : List OsqlColumn) (level : Option Connective) (f : Parse GoIR) :
    Prop :=
  ∀ p,Yields (f p) fun r => ∃ cond,Parsed casing columns level p.list cond r.1 r.2.list

theorem primary_sound {orExpr : Parse GoIR} (hor : Sound casing columns (some .or) orExpr) :
    Sound casing columns none (OsqlParser.primary casing columns orExpr) := by
  intro p
  rw [OsqlParser.primary]
  split
  · exact .error
  · rename_i first rest hlist
    have htake : p.take.list = rest := by rw [OsqlParser.take,hlist]; rfl
    refine .ite (fun hopen => ?_) fun _ => .ite (fun _ => .error) fun _ => .ite (fun _ => .error)
      fun hname => .ite (fun _ => .error) fun _ => .ite (fun _ => .error) fun _ => ?_
    · refine (hor p.take).bind fun r hr => ?_
      obtain ⟨cond,hinner⟩ := hr
      refine (expect_reads .closing "" r.2).bind fun q hq => ?_
      obtain ⟨close,hclose,hkind,_⟩ := hq
      refine .ok ⟨cond,?_⟩
      rw [htake,hclose] at hinner
      rw [hlist]
      exact .paren hopen hinner hkind
    · rw [not_or,not_not,Bool.not_eq_true] at hname
      split
      · exact .error
      · rename_i column hcolumn
        refine (comparison_sound column _).mono fun r hr => ?_
        obtain ⟨cond,hcompared⟩ := hr
        refine ⟨cond,?_⟩
        rw [hlist]
        exact .comparison hname.1 hname.2 hcolumn hcompared

theorem chain_sound {item : Parse GoIR} (hitem : Sound casing columns l.below item) (n : Nat)
    (p : OsqlParser) (c : Cond) (es : List GoIR) :
    Yields (OsqlParser.chain casing l.word item n p) fun r =>
      ∃ cond,Chain casing columns l c es p.list cond (es ++ r.1) r.2.list := by
  have hdone : ∀ (p : OsqlParser) (c : Cond) (es : List GoIR),
      ∃ cond,Chain casing columns l c es p.list cond (es ++ []) p.list :=
    fun p c es => ⟨c,by rw [List.append_nil]; exact .done⟩
  induction n generalizing p c es with
  | zero => exact .ok (hdone p c es)
  | succ n ih =>
    rw [OsqlParser.chain]
    refine .ite (fun hword => ?_) fun _ => .ok (hdone p c es)
    obtain ⟨w,hlist,hw⟩ := word_sound (by cases l <;> decide) hword
    refine (hitem p.take).bind fun r ⟨d,hread⟩ => ?_
    refine (ih r.2 (l.cond c d) (es ++ [r.1])).bind fun r' ⟨cond,hmore⟩ => .ok ⟨cond,?_⟩
    rw [List.append_assoc] at hmore
    rw [hlist]
    exact .more hw hread hmore

theorem level_sound {item : Parse GoIR} (hitem : Sound casing columns l.below item) (p : OsqlParser) :
    Yields (item p >>= fun r => OsqlParser.chain casing l.word item r.2.list.length r.2 >>= fun r' =>
      .ok (balanced l.op r.1 r'.1,r'.2)) fun r =>
        ∃ cond,Parsed casing columns (some l) p.list cond r.1 r.2.list := by
  refine (hitem p).bind fun r ⟨c,hfirst⟩ => ?_
  refine (chain_sound hitem _ r.2 c [r.1]).bind fun r' ⟨cond,hchain⟩ => .ok ?_
  obtain ⟨d,hd,hshape⟩ := balanced_shape l r.1 r'.1
  exact ⟨cond,.chain hfirst hchain hshape hd⟩

theorem andExpr_sound {notExpr : Parse GoIR} (h : Sound casing columns none notExpr) :
    Sound casing columns (some .and) (OsqlParser.andExpr casing notExpr) := fun p =>
  level_sound (l := .and) h p

theorem orExpr_sound {notExpr : Parse GoIR} (h : Sound casing columns none notExpr) :
    Sound casing columns (some .or) (OsqlParser.orExpr casing notExpr) := fun p =>
  level_sound (l := .or) (andExpr_sound h) p

theorem notExpr_sound (depth : Nat) :
    Sound casing columns none (OsqlParser.notExpr casing columns depth) := by
  have hnone : Sound casing columns (some .or) fun _ => refuseWhere .tooDeep := fun _ => .error
  induction depth with
  | zero =>
    intro p
    rw [OsqlParser.notExpr]
    exact .ite (fun _ => .error) fun _ => primary_sound hnone p
  | succ depth ih =>
    intro p
    rw [OsqlParser.notExpr]
    refine .ite (fun hword => ?_) fun _ => primary_sound (orExpr_sound ih) p
    obtain ⟨t,hlist,ht⟩ := word_sound (by decide) hword
    refine (ih p.take).bind fun r ⟨cond,hread⟩ => .ok ⟨.not cond,?_⟩
    rw [hlist]
    exact .not ht hread

theorem predicate_meaning (casing : Casing) (columns : List OsqlColumn) (text : Text) (pred : GoIR)
    (h : osqlWherePredicate casing columns text = .ok (some pred)) :
    ∃ tokens cond,osqlTokens text = .ok tokens ∧
      Parsed casing columns (some .or) tokens cond pred [] ∧
      ∀ v,pred.truth v = cond.value v := by
  have hread : Yields (osqlWherePredicate casing columns text) fun r => ∀ pred,r = some pred →
      ∃ tokens cond,osqlTokens text = .ok tokens ∧
        Parsed casing columns (some .or) tokens cond pred [] := by
    rw [osqlWherePredicate]
    cases htokens : osqlTokens text with
    | error e => exact .error
    | ok tokens =>
      refine .ite (fun _ => .ok fun pred hpred => nomatch hpred) fun _ => ?_
      refine (orExpr_sound (notExpr_sound osqlMaxDepth) {list := tokens}).bind fun r ⟨cond,hparsed⟩ => ?_
      refine .ite (fun _ => .error) fun hlist => .ok fun pred hpred => ?_
      rw [not_not.mp hlist,Option.some.inj hpred] at hparsed
      exact ⟨tokens,cond,rfl,hparsed⟩
  obtain ⟨tokens,cond,htokens,hparsed⟩ := hread _ h pred rfl
  exact ⟨tokens,cond,htokens,hparsed,hparsed.truth⟩

def asciiCasing : Casing := ⟨fun s => s.map Char.toUpper,fun _ _ => rfl⟩

theorem predicate_meaning_mixed : ∃ tokens cond pred,
    osqlTokens "NOT A = 1 OR A = 2 AND A = 3".toList = .ok tokens ∧
      Parsed asciiCasing [⟨['A'],{abap := .I},false⟩] (some .or) tokens cond pred [] ∧
      ∀ v,pred.truth v = cond.value v := by
  have haccepted : ∃ pred,osqlWherePredicate asciiCasing [⟨['A'],{abap := .I},false⟩]
      "NOT A = 1 OR A = 2 AND A = 3".toList = .ok (some pred) := ⟨_,rfl⟩
  obtain ⟨pred,hpred⟩ := haccepted
  obtain ⟨tokens,cond,htokens,hparsed,hvalue⟩ := predicate_meaning asciiCasing _ _ pred hpred
  exact ⟨tokens,cond,pred,htokens,hparsed,hvalue⟩

end conditions

end OpenSteamgate.Osql
