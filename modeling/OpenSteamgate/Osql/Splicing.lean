import Mathlib
import OpenSteamgate.Osql.Precedence
import OpenSteamgate.Osql.Selection
import OpenSteamgate.Osql.Statements

namespace OpenSteamgate.Osql

open Lexeme

variable {casing : Casing} {name : Text} {e pred : GoIR} {params params' : List Param} {sql s s' : Text}
  {vs vs' args : List (Value Text)} {quote : Option Char}

section Placeholders

def quoteStep (quote : Option Char) (c : Char) : Option Char :=
  match quote with
  | some q => if c = q then none else some q
  | none => if c = '"' ∨ c = '\'' then some c else none

def quoteAfter (quote : Option Char) (s : Text) : Option Char := s.foldl quoteStep quote

@[grind =] def holes : Option Char → Text → Nat
  | _,[] => 0
  | quote,c :: cs => holes (quoteStep quote c) cs + if quote = none ∧ c = '?' then 1 else 0

structure Aligned (s : Text) (vs : List (Value Text)) : Prop where
  closed : quoteAfter none s = none
  count : holes none s = vs.length

theorem quoteAfter_append : quoteAfter quote (s ++ s') = quoteAfter (quoteAfter quote s) s' :=
  List.foldl_append

theorem holes_append : holes quote (s ++ s') = holes quote s + holes (quoteAfter quote s) s' := by
  induction s generalizing quote with
  | nil => rw [List.nil_append,holes,Nat.zero_add]; rfl
  | cons c s ih =>
    rw [List.cons_append,holes,holes,ih,quoteAfter,quoteAfter,List.foldl_cons]
    omega

theorem Aligned.append (h : Aligned s vs) (h' : Aligned s' vs') : Aligned (s ++ s') (vs ++ vs') where
  closed := by rw [quoteAfter_append,h.closed,h'.closed]
  count := by rw [holes_append,h.closed,h.count,h'.count,List.length_append]

theorem aligned_nil : Aligned [] [] := ⟨rfl,rfl⟩

theorem aligned_plain (h : ∀ c ∈ s,c ∉ ['"','\'','?']) : Aligned s [] := by
  induction s with
  | nil => exact aligned_nil
  | cons c s ih =>
    obtain ⟨hc,hs⟩ := List.forall_mem_cons.mp h
    have hone : Aligned [c] [] := by
      simp only [List.mem_cons,List.not_mem_nil,or_false,not_or] at hc
      constructor
      · simp [quoteAfter,quoteStep,hc]
      · simp [holes,hc]
    exact hone.append (ih hs)

theorem aligned_quote (id : Text) : Aligned (Osql.quote id) [] := by
  have hinside : quoteAfter (some '"') (id.flatMap fun c => if c = '"' then ['"','"'] else [c]) =
      some '"' ∧ holes (some '"') (id.flatMap fun c => if c = '"' then ['"','"'] else [c]) = 0 := by
    induction id with
    | nil => exact ⟨rfl,rfl⟩
    | cons c id ih =>
      rw [List.flatMap_cons,quoteAfter_append,holes_append]
      by_cases hc : c = '"'
      · rw [if_pos hc]
        exact ⟨ih.1,(Nat.zero_add _).trans ih.2⟩
      · have hstep : quoteAfter (some '"') [c] = some '"' := if_neg hc
        rw [if_neg hc,hstep]
        exact ⟨ih.1,(Nat.zero_add _).trans ih.2⟩
  have hopen : Osql.quote id =
      ['"'] ++ (id.flatMap (fun c => if c = '"' then ['"','"'] else [c]) ++ ['"']) := rfl
  have hquote : quoteAfter none ['"'] = some '"' := rfl
  rw [hopen]
  constructor
  · rw [quoteAfter_append,quoteAfter_append,hquote,hinside.1]
    rfl
  · rw [holes_append,holes_append,hquote,hinside.1,hinside.2]
    rfl

end Placeholders

section Lowering

inductive Ranged (name : Text) (t : IRType) : GoIR → Prop
  | constant (a b : Int) :
      Ranged name t (.bin .eq (.lit (.int a) tInt) (.lit (.int b) tInt) tBool)
  | compare {op : Op} (w : Value Text) : op ≠ .div →
      Ranged name t (.bin op (.col name none t) (.lit w t) tBool)
  | like (pattern : Text) (escape negated : Bool) :
      Ranged name t (.like (.col name none t) (.lit (.text pattern) tStr)
        (if escape then some (.lit (.text ['#']) tStr) else none) negated)
  | not {e : GoIR} : Ranged name t e → Ranged name t (.not e)
  | join {op : Op} {e e' : GoIR} : op ≠ .div → Ranged name t e → Ranged name t e' →
      Ranged name t (.bin op e e' tBool)

structure Made (s : Text) (vs : List (Value Text)) : Prop extends Aligned s vs where
  small : 'r' ∉ s

theorem Made.append (h : Made s vs) (h' : Made s' vs') : Made (s ++ s') (vs ++ vs') where
  toAligned := h.toAligned.append h'.toAligned
  small hmem := (List.mem_append.mp hmem).elim h.small h'.small

theorem Made.around (h : Made s vs) {before after : Text}
    (hbefore : Made before []) (hafter : Made after []) : Made (before ++ s ++ after) vs := by
  have hall := (hbefore.append h).append hafter
  rwa [List.nil_append,List.append_nil] at hall

theorem made_plain (h : ∀ c ∈ s,c ∉ ['"','\'','?','r']) : Made s [] where
  toAligned := aligned_plain fun c hc hmem => h c hc (by
    simp only [List.mem_cons,List.not_mem_nil,or_false] at hmem ⊢
    rcases hmem with hmem | hmem | hmem <;> simp [hmem])
  small hmem := h 'r' hmem (by decide)

theorem not_marked {c : Char} (h : c.isDigit = true) : c ∉ ['"','\'','?','r'] := by
  intro hmem
  have hno : ∀ c ∈ ['"','\'','?','r'],c.isDigit = false := by simp
  exact Bool.false_ne_true ((hno c hmem).symm.trans h)

theorem made_digits (n : Nat) : Made (Nat.toDigits 10 n) [] := by
  refine made_plain fun c hc => not_marked ?_
  exact Nat.isDigit_of_mem_toDigits (by decide) (Nat.le_refl 10) hc

theorem made_format (bits : BitVec 64) : Made (Binary64.format bits) [] := by
  refine made_plain fun c hc => ?_
  rcases Binary64.mem_format hc with hdigit | hmem
  · exact not_marked hdigit
  · have hall : ∀ c ∈ ".-+InfNa".toList,c ∉ ['"','\'','?','r'] := by simp
    exact hall c hmem

theorem made_number {w : Value Text} {s : Text} (h : jsNumber w = some s) : Made s [] := by
  unfold jsNumber at h
  split at h
  · rw [← Option.some.inj h]
    exact made_digits _
  · rw [← Option.some.inj h]
    exact (made_plain (s := ['-']) (by simp)).append (made_digits _)
  · rw [← Option.some.inj h]
    exact made_format _
  · cases h

theorem made_placeholder {n : Nat} {code : Text} (w : Value Text)
    (h : placeholder casing .sqlite n code = .ok s) : Made s [w] := by
  unfold placeholder at h
  simp only at h
  rw [← Except.ok.inj h]
  split
  · exact ⟨⟨rfl,rfl⟩,by decide⟩
  split
  · exact ⟨⟨rfl,rfl⟩,by decide⟩
  · exact ⟨⟨rfl,rfl⟩,by decide⟩

def Lowers (s : Text) (params params' : List Param) : Prop :=
  ∃ new,params' = params ++ new ∧ Made s (new.map Param.value)

theorem lowers_lit {w : Value Text} {t : IRType}
    (h : lower casing .sqlite (.lit w t) params = .ok (s,params')) : Lowers s params params' := by
  rw [lower] at h
  split at h
  · rename_i number hnumber
    obtain ⟨rfl,rfl⟩ := ok_pair h
    exact ⟨[],(List.append_nil _).symm,made_number hnumber⟩
  · obtain ⟨sql,hsql,h⟩ := bind_eq_ok h
    obtain ⟨rfl,rfl⟩ := ok_pair h
    exact ⟨_,rfl,made_placeholder w hsql⟩

theorem lowers_col {t : IRType} (hname : 'r' ∉ name)
    (h : lower casing .sqlite (.col name none t) params = .ok (s,params')) :
    Lowers s params params' := by
  rw [lower] at h
  obtain ⟨rfl,rfl⟩ := ok_pair h
  refine ⟨[],(List.append_nil _).symm,aligned_quote name,?_⟩
  simp only [Osql.quote,List.mem_cons,List.mem_append,List.mem_flatMap,List.cons_append]
  rintro (hmem | ⟨c,hc,hmem⟩ | hmem)
  · cases hmem
  · split at hmem
    · exact absurd hmem (by decide)
    · exact hname (List.mem_singleton.mp hmem ▸ hc)
  · exact absurd hmem (by decide)

theorem Op.made_code (op : Op) : Made (' ' :: op.code ++ [' ']) [] := by
  cases op <;> exact made_plain (by simp [Op.code])

theorem lowers_bin {op : Op} {e' : GoIR} (hop : op ≠ .div)
    (hl : ∀ params params' s,lower casing .sqlite e params = .ok (s,params') → Lowers s params params')
    (hr : ∀ params params' s,lower casing .sqlite e' params = .ok (s,params') →
      Lowers s params params')
    (h : lower casing .sqlite (.bin op e e' tBool) params = .ok (s,params')) :
    Lowers s params params' ∧ ∃ u,s = '(' :: (u ++ [')']) := by
  rw [lower] at h
  obtain ⟨⟨l,params₁⟩,hleft,h⟩ := bind_eq_ok h
  obtain ⟨⟨r,params₂⟩,hright,h⟩ := bind_eq_ok h
  obtain ⟨sql,hsql,h⟩ := bind_eq_ok h
  obtain ⟨rfl,rfl⟩ := ok_pair h
  rw [binText,if_neg hop] at hsql
  obtain rfl := Except.ok.inj hsql
  obtain ⟨new,rfl,hmadel⟩ := hl _ _ _ hleft
  obtain ⟨new',rfl,hmader⟩ := hr _ _ _ hright
  refine ⟨⟨new ++ new',(List.append_assoc _ _ _),?_⟩,l ++ ' ' :: op.code ++ ' ' :: r,by simp⟩
  have hop := (hmadel.append op.made_code).append hmader
  rw [List.append_nil,← List.map_append] at hop
  have hall := hop.around (made_plain (s := ['(']) (by simp)) (made_plain (s := [')']) (by simp))
  simpa using hall

theorem lowers_not
    (he : ∀ params params' s,lower casing .sqlite e params = .ok (s,params') → Lowers s params params')
    (h : lower casing .sqlite (.not e) params = .ok (s,params')) :
    Lowers s params params' ∧ ∃ u,s = '(' :: (u ++ [')']) := by
  rw [lower] at h
  obtain ⟨⟨x,params₁⟩,hx,h⟩ := bind_eq_ok h
  obtain ⟨rfl,rfl⟩ := ok_pair h
  obtain ⟨new,rfl,hmade⟩ := he _ _ _ hx
  refine ⟨⟨new,rfl,?_⟩,"NOT ".toList ++ x,rfl⟩
  exact hmade.around (made_plain (s := "(NOT ".toList) (by simp)) (made_plain (s := [')']) (by simp))

theorem lowers_like {pattern : Text} {t : IRType} {escape negated : Bool} (hname : 'r' ∉ name)
    (h : lower casing .sqlite (.like (.col name none t) (.lit (.text pattern) tStr)
      (if escape then some (.lit (.text ['#']) tStr) else none) negated) params = .ok (s,params')) :
    Lowers s params params' ∧ ∃ u,s = '(' :: (u ++ [')']) := by
  rw [lower] at h
  obtain ⟨⟨x,params₁⟩,hx,h⟩ := bind_eq_ok h
  obtain ⟨⟨p,params₂⟩,hp,h⟩ := bind_eq_ok h
  obtain ⟨⟨esc,params₃⟩,hesc,h⟩ := bind_eq_ok h
  obtain ⟨rfl,rfl⟩ := ok_pair h
  obtain ⟨new,rfl,hcol⟩ := lowers_col hname hx
  obtain ⟨new',rfl,hlit⟩ := lowers_lit hp
  have hword : Made ((if negated then " NOT".toList else []) ++ " LIKE ".toList) [] := by
    cases negated <;> exact made_plain (by simp)
  have hpattern := (hcol.append hword).append hlit
  rw [List.append_nil,← List.map_append] at hpattern
  have htail : ∃ new'',params₃ = params ++ new ++ new' ++ new'' ∧
      Made ((esc.map fun x => " ESCAPE ".toList ++ x).getD []) (new''.map Param.value) := by
    cases escape with
    | false =>
      rw [if_neg Bool.false_ne_true,lowerOption] at hesc
      obtain ⟨rfl,rfl⟩ := ok_pair hesc
      exact ⟨[],(List.append_nil _).symm,made_plain (List.forall_mem_nil _)⟩
    | true =>
      rw [if_pos rfl,lowerOption] at hesc
      obtain ⟨⟨y,params₄⟩,hy,hesc⟩ := bind_eq_ok hesc
      obtain ⟨rfl,rfl⟩ := ok_pair hesc
      obtain ⟨new'',rfl,hmade⟩ := lowers_lit hy
      exact ⟨new'',rfl,(made_plain (s := " ESCAPE ".toList) (by simp)).append hmade⟩
  obtain ⟨new'',rfl,htail⟩ := htail
  have hall := (hpattern.append htail).around (made_plain (s := ['(']) (by simp))
    (made_plain (s := [')']) (by simp))
  rw [← List.map_append] at hall
  refine ⟨⟨new ++ new' ++ new'',by simp only [List.append_assoc],?_⟩,?_⟩
  · rw [likeText,if_neg (by decide)]
    simpa using hall
  · rw [likeText,if_neg (by decide)]
    refine ⟨x ++ (if negated then " NOT".toList else []) ++ " LIKE ".toList ++ p ++
      (esc.map fun x => " ESCAPE ".toList ++ x).getD [],?_⟩
    simp

theorem Ranged.lowers {t : IRType} (h : Ranged name t e) (hname : 'r' ∉ name) :
    ∀ params params' s,lower casing .sqlite e params = .ok (s,params') →
      Lowers s params params' ∧ ∃ u,s = '(' :: (u ++ [')']) := by
  induction h with
  | constant a b =>
    exact fun _ _ _ => lowers_bin (by decide) (fun _ _ _ => lowers_lit) fun _ _ _ => lowers_lit
  | compare w hop =>
    exact fun _ _ _ => lowers_bin hop (fun _ _ _ => lowers_col hname) fun _ _ _ => lowers_lit
  | like pattern escape negated => exact fun _ _ _ => lowers_like hname
  | not _ ih => exact fun _ _ _ => lowers_not fun _ _ _ h => (ih _ _ _ h).1
  | join hop _ _ ihl ihr =>
    exact fun _ _ _ => lowers_bin hop (fun _ _ _ h => (ihl _ _ _ h).1) fun _ _ _ h => (ihr _ _ _ h).1

end Lowering

section Ranges

variable {t : IRType} {kind : Text} {lowLen : Nat} {row : RangeRow} {rows : List RangeRow}

theorem ranged_items {negated : Bool} {items : List CpItem} :
    Ranged name t (itemsCondition (.col name none t) t negated items) := by
  unfold itemsCondition
  split
  · cases negated
    · exact .constant 1 1
    · exact .constant 1 0
  · split
    · cases negated
      · exact .compare _ (by decide)
      · exact .compare _ (by decide)
    · exact .like _ _ _

theorem ranged_row (h : rowCondition (.col name none t) t kind lowLen row = .ok e) :
    Ranged name t e := by
  unfold rowCondition at h
  cases hop : compareOption row.option with
  | some op =>
    rw [hop] at h
    obtain ⟨low,hlow,h⟩ := bind_eq_ok h
    obtain ⟨w,_,rfl⟩ := bound_ok hlow
    obtain rfl := Except.ok.inj h
    refine .compare w ?_
    unfold compareOption at hop
    split_ifs at hop <;> (obtain rfl := Option.some.inj hop; decide)
  | none =>
    rw [hop] at h
    simp only at h
    split at h
    · obtain ⟨low,hlow,h⟩ := bind_eq_ok h
      obtain ⟨high,hhigh,h⟩ := bind_eq_ok h
      obtain ⟨w,_,rfl⟩ := bound_ok hlow
      obtain ⟨u,_,rfl⟩ := bound_ok hhigh
      obtain rfl := Except.ok.inj h
      have hbetween : Ranged name t (.bin .and (.bin .ge (.col name none t) (.lit w t) tBool)
          (.bin .le (.col name none t) (.lit u t) tBool) tBool) :=
        .join (by decide) (.compare w (by decide)) (.compare u (by decide))
      split
      · exact hbetween
      · exact .not hbetween
    · split at h
      · obtain ⟨_,rfl⟩ := patternCondition_ok h
        exact ranged_items
      · cases h

theorem ranged_or {es : List GoIR} (h : ∀ e ∈ es,Ranged name t e) : Ranged name t (irOr es) := by
  cases es with
  | nil => exact .constant 1 0
  | cons e es =>
    obtain ⟨he,hes⟩ := List.forall_mem_cons.mp h
    rw [irOr]
    clear h
    induction es generalizing e with
    | nil => exact he
    | cons e' es ih =>
      obtain ⟨he',hes⟩ := List.forall_mem_cons.mp hes
      exact ih _ (.join (by decide) he he') hes

theorem ranged_rows {es : List GoIR}
    (h : rows.mapM (rowCondition (.col name none t) t kind lowLen) = .ok es) :
    ∀ e ∈ es,Ranged name t e := by
  have hall := mapM_forall₂ h
  clear h
  induction hall with
  | nil => exact fun _ hmem => absurd hmem List.not_mem_nil
  | cons hrow _ ih => exact List.forall_mem_cons.mpr ⟨ranged_row hrow,ih⟩

theorem ranged_predicate {column : Text}
    (h : rangesPredicate casing column t rows kind lowLen = .ok pred) :
    Ranged (casing.toUpper column) t pred := by
  rcases rangesPredicate_ok h with ⟨_,rfl⟩ | ⟨_,_,ies,xes,hies,hxes,rfl⟩
  · exact .constant 1 1
  · have hi := ranged_or (ranged_rows hies)
    have hx := ranged_or (ranged_rows hxes)
    unfold combine
    split
    · exact hi
    · exact .not hx
    · exact .join (by decide) hi (.not hx)

theorem predicate_made {p : HostPred} (hupper : ∀ s,'r' ∉ casing.toUpper s)
    (h : p.predicate casing = .ok (sql,params)) :
    Made sql (params.map Param.value) ∧ ∃ u,sql = '(' :: (u ++ [')']) := by
  unfold HostPred.predicate at h
  split at h
  · cases h
  · rename_i pred hpred
    split at h
    · cases h
    · rename_i r hlower
      obtain rfl := Except.ok.inj h
      obtain ⟨⟨new,hnew,hmade⟩,hparen⟩ := (ranged_predicate hpred).lowers (hupper _) _ _ _ hlower
      rw [List.nil_append] at hnew
      exact ⟨hnew ▸ hmade,hparen⟩

end Ranges

section Markers

def opener : Text := "/*@range:".toList

structure Segment where
  pred : HostPred
  text : Text
  args : List (Value Text)

def marked (gs : List Segment) : Text := gs.flatMap fun g => marker g.pred.id ++ g.text

def Stands : Nat → List Segment → Prop
  | _,[] => True
  | n,g :: gs => g.pred.after = n ∧ Stands (n + g.args.length) gs

@[grind =] def pieces : List Segment → List (Text × List Param) → List (Text × List (Value Text))
  | g :: gs,r :: rs => (r.1,r.2.map Param.value) :: (g.text,g.args) :: pieces gs rs
  | _,_ => []

theorem prefix_before {p a b : Text} {c : Char} (hc : c ∉ p) (h : p <+: a ++ c :: b) : p <+: a := by
  induction a generalizing p with
  | nil =>
    rcases List.prefix_cons_iff.mp h with rfl | ⟨p',rfl,_⟩
    · exact List.nil_prefix
    · exact absurd List.mem_cons_self hc
  | cons x a ih =>
    rcases List.prefix_cons_iff.mp h with rfl | ⟨p',rfl,h'⟩
    · exact List.nil_prefix
    · exact List.cons_prefix_cons.mpr ⟨rfl,ih (List.not_mem_of_not_mem_cons hc) h'⟩

theorem opener_split {a b : Text} {c : Char} (hc : c ∉ opener) (h : opener <:+: a ++ c :: b) :
    opener <:+: a ∨ opener <:+: b := by
  induction a with
  | nil =>
    rcases List.infix_cons_iff.mp h with hprefix | hwithin
    · exact absurd (prefix_before (a := []) hc hprefix) (by decide)
    · exact .inr hwithin
  | cons x a ih =>
    rcases List.infix_cons_iff.mp h with hprefix | hwithin
    · exact .inl (prefix_before (a := x :: a) hc hprefix).isInfix
    · exact (ih hwithin).imp_left fun hwithin => hwithin.trans (List.suffix_cons x a).isInfix

theorem opener_around {a u b : Text} (ha : ¬opener <:+: a) (hu : ¬opener <:+: u)
    (hb : ¬opener <:+: b) : ¬opener <:+: a ++ '(' :: (u ++ [')']) ++ b := by
  intro h
  have hsplit : a ++ '(' :: (u ++ [')']) ++ b = a ++ '(' :: (u ++ ')' :: b) := by simp
  rw [hsplit] at h
  rcases opener_split (by decide) h with h | h
  · exact ha h
  · exact (opener_split (by decide) h).elim hu hb

theorem opener_small {u : Text} (h : 'r' ∉ u) : ¬opener <:+: u :=
  fun hwithin => h (hwithin.subset (by decide))

theorem marker_opener (id : Text) : marker id = opener ++ (id ++ "*/".toList) :=
  List.append_assoc _ _ _

theorem marked_cons (g : Segment) (gs : List Segment) :
    marked (g :: gs) = marker g.pred.id ++ (g.text ++ marked gs) := by
  rw [marked,List.flatMap_cons,List.append_assoc]
  rfl

theorem index_marker {front : Text} (h : ¬opener <:+: front) (id rest : Text) :
    Marked.index (front ++ (marker id ++ rest)) (marker id) = some front.length := by
  refine Marked.index_eq_some.mpr ⟨?_,?_,fun j hj hprefix => h ?_⟩
  · rw [List.length_append,List.length_append]
    omega
  · rw [List.drop_left]
    exact List.prefix_append _ _
  · have hopen : marker id = '/' :: ("*@range:".toList ++ id ++ "*/".toList) := rfl
    have hmarker : opener <+: marker id := by
      rw [marker_opener]
      exact List.prefix_append _ _
    have hopener := hmarker.trans hprefix
    rw [hopen,List.cons_append] at hopener
    exact (Marked.prefix_before_mark (by decide) hj hopener).isInfix.trans
      (List.drop_suffix j front).isInfix

theorem splice_marker {front : Text} (rest : Text) (out : List (Value Text))
    {pending later : List (Value Text)} {next : Nat} {p : HostPred} (hfront : ¬opener <:+: front)
    (hpred : p.predicate casing = .ok (sql,params)) (hafter : p.after = next + pending.length)
    (hnext : next ≤ args.length) (hargs : args.drop next = pending ++ later) :
    splice casing args ⟨front ++ (marker p.id ++ rest),out,next⟩ p =
      .ok ⟨front ++ sql ++ rest,out ++ pending ++ params.map Param.value,p.after⟩ := by
  have hlength := congrArg List.length hargs
  rw [List.length_drop,List.length_append] at hlength
  have hin : next ≤ p.after ∧ p.after ≤ args.length := by omega
  have hslice : (args.take p.after).drop next = pending := by
    rw [List.drop_take,hargs,hafter,Nat.add_sub_cancel_left,List.take_left]
  have hdrop : (front ++ (marker p.id ++ rest)).drop (front.length + (marker p.id).length) = rest := by
    rw [← List.append_assoc,← List.length_append,List.drop_left]
  unfold splice
  simp only [hpred,index_marker hfront,bind,Except.bind,if_pos hin,hslice,hdrop,List.take_left]
  rfl

theorem splice_run {gs : List Segment} {rs : List (Text × List Param)} {front : Text}
    (out pending : List (Value Text)) {next : Nat} (hupper : ∀ s,'r' ∉ casing.toUpper s)
    (hrs : List.Forall₂ (fun g r => g.pred.predicate casing = .ok r) gs rs)
    (hfront : ¬opener <:+: front) (hgs : ∀ g ∈ gs,¬opener <:+: g.text)
    (hstands : Stands (next + pending.length) gs) (hnext : next ≤ args.length)
    (hargs : args.drop next = pending ++ gs.flatMap Segment.args) :
    ∃ s,(gs.map Segment.pred).foldlM (splice casing args) ⟨front ++ marked gs,out,next⟩ = .ok s ∧
      s.text = front ++ (pieces gs rs).flatMap (·.1) ∧
      s.out ++ args.drop s.next = out ++ pending ++ (pieces gs rs).flatMap (·.2) := by
  induction hrs generalizing front out pending next with
  | nil =>
    refine ⟨_,rfl,rfl,?_⟩
    rw [hargs]
    simp [pieces]
  | @cons g r gs rs hpred _ ih =>
    obtain ⟨sql,params⟩ := r
    obtain ⟨hafter,hstands⟩ := hstands
    obtain ⟨hg,hgs⟩ := List.forall_mem_cons.mp hgs
    obtain ⟨hmade,u,hu⟩ := predicate_made hupper hpred
    have hsmall : ¬opener <:+: u := opener_small fun hmem => hmade.small (by
      rw [hu]
      exact List.mem_cons_of_mem _ (List.mem_append_left _ hmem))
    have hfront' : ¬opener <:+: front ++ sql ++ g.text := by
      rw [hu]
      exact opener_around hfront hsmall hg
    have hlength := congrArg List.length hargs
    rw [List.length_drop,List.length_append] at hlength
    have hargs' : args.drop g.pred.after = g.args ++ gs.flatMap Segment.args := by
      rw [hafter,← List.drop_drop,hargs,List.drop_left,List.flatMap_cons]
    have hstep := splice_marker (g.text ++ marked gs) out hfront hpred hafter hnext hargs
    obtain ⟨s,hrun,htext,hout⟩ := ih (out ++ pending ++ params.map Param.value) g.args hfront' hgs
      (hafter ▸ hstands) (by omega) hargs'
    refine ⟨s,?_,?_,?_⟩
    · rw [List.append_assoc (front ++ sql)] at hrun
      rw [List.map_cons,List.foldlM_cons,marked_cons,hstep]
      exact hrun
    · rw [htext]
      simp [pieces]
    · rw [hout]
      simp [pieces]

theorem aligned_pieces {gs : List Segment} {rs : List (Text × List Param)}
    (hupper : ∀ s,'r' ∉ casing.toUpper s)
    (hrs : List.Forall₂ (fun g r => g.pred.predicate casing = .ok r) gs rs)
    (hgs : ∀ g ∈ gs,Aligned g.text g.args) : ∀ piece ∈ pieces gs rs,Aligned piece.1 piece.2 := by
  induction hrs with
  | nil => exact fun _ hmem => absurd hmem List.not_mem_nil
  | @cons g r gs rs hpred _ ih =>
    obtain ⟨hg,hgs⟩ := List.forall_mem_cons.mp hgs
    exact List.forall_mem_cons.mpr ⟨(predicate_made hupper hpred).1.toAligned,
      List.forall_mem_cons.mpr ⟨hg,ih hgs⟩⟩

theorem spliceRanges_pieces (hupper : ∀ s,'r' ∉ casing.toUpper s) {first : Text}
    {firstArgs : List (Value Text)} {gs : List Segment} {rs : List (Text × List Param)}
    (hrs : List.Forall₂ (fun g r => g.pred.predicate casing = .ok r) gs rs)
    (hfirst : ¬opener <:+: first) (hgs : ∀ g ∈ gs,¬opener <:+: g.text)
    (hstands : Stands firstArgs.length gs) :
    spliceRanges casing (first ++ marked gs) (firstArgs ++ gs.flatMap Segment.args)
      (gs.map Segment.pred) = .ok (first ++ (pieces gs rs).flatMap (·.1),
        firstArgs ++ (pieces gs rs).flatMap (·.2)) := by
  have hargs : (firstArgs ++ gs.flatMap Segment.args).drop 0 =
      firstArgs ++ gs.flatMap Segment.args := List.drop_zero
  have hstands' : Stands (0 + firstArgs.length) gs := by rwa [Nat.zero_add]
  obtain ⟨s,hfold,htext,hout⟩ :=
    splice_run [] firstArgs hupper hrs hfirst hgs hstands' (Nat.zero_le _) hargs
  unfold spliceRanges
  rw [hfold]
  exact congrArg Except.ok (Prod.ext htext hout)

def HostPred.Means (casing : Casing) (p : HostPred) (r : Text × List Param) : Prop :=
  ∃ pred, rangesPredicate casing p.column p.type p.rows p.kind p.lowLen = .ok pred ∧
    Faithful casing .sqlite (piecesOf .sqlite pred) r.1 r.2

theorem predicate_means {p : HostPred} {r : Text × List Param} (h : p.predicate casing = .ok r) :
    p.Means casing r := by
  rw [HostPred.predicate] at h
  split at h
  · cases h
  · rename_i pred hpred
    split at h
    · cases h
    · rename_i r' hlower
      obtain rfl := Except.ok.inj h
      exact ⟨pred,hpred,faithful_of_renders (apart_pieces pred) (lower_renders pred [] hlower)⟩

theorem ranges_meaning (casing : Casing) :
    (∀ column t rows kind lowLen pred,
      rangesPredicate casing column t rows kind lowLen = .ok pred →
      (∀ less v,FitsType v t →
        (verdict less v pred = .yes ↔ Selects less v t kind lowLen rows)) ∧
      ∀ rows',rows.Perm rows' → ∃ pred',
        rangesPredicate casing column t rows' kind lowLen = .ok pred' ∧
        ∀ less v,FitsType v t → verdict less v pred' = verdict less v pred) ∧
    (∀ items s,LikeMatches (escapeOf (likePattern items).2) (likePattern items).1 s ↔
      Wildcard.Matches meets items s) ∧
    ((∀ s,'r' ∉ casing.toUpper s) → ∀ first firstArgs gs rs,
      List.Forall₂ (fun g r => g.pred.predicate casing = .ok r) gs rs →
      ¬opener <:+: first → (∀ g ∈ gs,¬opener <:+: g.text) →
      Aligned first firstArgs → (∀ g ∈ gs,Aligned g.text g.args) → Stands firstArgs.length gs →
      spliceRanges casing (first ++ marked gs) (firstArgs ++ gs.flatMap Segment.args)
        (gs.map Segment.pred) = .ok (first ++ (pieces gs rs).flatMap (·.1),
          firstArgs ++ (pieces gs rs).flatMap (·.2)) ∧
      (∀ piece ∈ (first,firstArgs) :: pieces gs rs,Aligned piece.1 piece.2) ∧
      List.Forall₂ (fun g r => g.pred.Means casing r) gs rs) := by
  refine ⟨fun column t rows kind lowLen pred h => ⟨fun less v hv => ?_,fun rows' hperm => ?_⟩,
    fun items s => likeMatches_pattern,
    fun hupper first firstArgs gs rs hrs hfirst hgs haligned htexts hstands => ⟨?_,?_,?_⟩⟩
  · rw [means_ranges h hv,Truth.of_eq_yes]
  · obtain ⟨pred',h'⟩ := rangesPredicate_perm hperm h
    refine ⟨pred',h',fun less v hv => ?_⟩
    rw [means_ranges h hv,means_ranges h' hv,propext (selects_perm hperm)]
  · exact spliceRanges_pieces hupper hrs hfirst hgs hstands
  · exact List.forall_mem_cons.mpr ⟨haligned,aligned_pieces hupper hrs htexts⟩
  · exact hrs.imp fun _ _ => predicate_means

end Markers

section Samples

theorem asciiCasing_small (s : Text) : 'r' ∉ asciiCasing.toUpper s := by
  intro hmem
  obtain ⟨c,_,hc⟩ := List.mem_map.mp hmem
  have hlower := Char.isLower_toUpper_eq_false c
  rw [hc] at hlower
  exact absurd hlower (by decide)

def samplePred : HostPred where
  id := ['x']
  after := 1
  column := ['c']
  type := tChar 4
  kind := []
  lowLen := 4
  rows := [⟨['I'],"CP".toList,.text "a#%*".toList,.null⟩,⟨['E'],"EQ".toList,.text ['b'],.null⟩]

def sampleSegment : Segment := ⟨samplePred," AND B = ?".toList,[.int 2]⟩

def sampleSql : Text := "((\"C\" LIKE ? ESCAPE ?) AND (NOT (\"C\" = ?)))".toList

def sampleParams : List Param :=
  [⟨"p0".toList,.text "a#%%".toList,"STRING".toList,false⟩,
    ⟨"p1".toList,.text ['#'],"STRING".toList,false⟩,⟨"p2".toList,.text ['b'],"C(4)".toList,false⟩]

theorem ranges_meaning_sample :
    spliceRanges asciiCasing ("A = ? AND ".toList ++ marked [sampleSegment]) [.int 1,.int 2]
      [samplePred] = .ok ("A = ? AND ".toList ++ (sampleSql ++ " AND B = ?".toList),
        [.int 1,.text "a#%%".toList,.text ['#'],.text ['b'],.int 2]) := by
  have hpred : samplePred.predicate asciiCasing = .ok (sampleSql,sampleParams) := rfl
  have hsmall : 'r' ∉ "A = ? AND ".toList ∧ 'r' ∉ sampleSegment.text := by
    simp [sampleSegment]
  have hspliced := ((ranges_meaning asciiCasing).2.2 asciiCasing_small "A = ? AND ".toList
    [.int 1] [sampleSegment] [(sampleSql,sampleParams)] (.cons hpred .nil)
    (opener_small hsmall.1) (List.forall_mem_singleton.mpr (opener_small hsmall.2)) ⟨rfl,rfl⟩
    (List.forall_mem_singleton.mpr ⟨rfl,rfl⟩) ⟨rfl,trivial⟩).1
  exact hspliced

end Samples

end OpenSteamgate.Osql
