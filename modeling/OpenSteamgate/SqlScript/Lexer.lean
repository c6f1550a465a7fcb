import Mathlib.Data.List.DropRight
import Mathlib.Data.List.Infix
import OpenSteamgate.Library.Quoted

namespace OpenSteamgate.SqlScript

abbrev Source := List UInt16

def unit (c : Char) : UInt16 := c.toNat.toUInt16

def units (t : String) : Source := t.toList.map unit

inductive TokenKind
  | identifier | quoted | host | temp | string | number | operator | comment
  deriving DecidableEq

structure Token where
  kind : TokenKind
  value : Source
  line : ℕ
  col : ℕ

inductive Message
  | unterminatedComment
  | unterminatedString
  | unterminatedQuoted
  | unexpected (c : UInt16)
  deriving DecidableEq

structure LexError where
  message : Message
  line : ℕ
  col : ℕ
  deriving DecidableEq

def OPERATORS_2 : List Source := ["<=",">=","<>","!=","||",":=","=>"].map units

def OPERATORS_1 : Source := units "=<>+-*/%(),;.[]{}?@&|"

def isDigit (c : UInt16) : Bool := unit '0' ≤ c && c ≤ unit '9'

def isNameChar (c : UInt16) : Bool :=
  (unit 'A' ≤ c && c ≤ unit 'Z') || (unit 'a' ≤ c && c ≤ unit 'z') || isDigit c || c == unit '_' || c == unit '$'

def isBlank (c : UInt16) : Bool := c == unit ' ' || c == unit '\t' || c == unit '\r' || c == unit '\n'

def startsWith (p : UInt16 → Bool) (rest : Source) : Bool := rest.head?.any p

def indexOf (text : Source) : Source → Option ℕ
  | [] => none
  | c :: rest => if text.isPrefixOf (c :: rest) then some 0 else (indexOf text rest).map (· + 1)

def readString : Source → Option (Source × ℕ)
  | [] => none
  | c :: rest =>
    if c = unit '\'' then
      match rest with
      | [] => some ([],1)
      | d :: rest =>
        if d = unit '\'' then (readString rest).map fun r => (unit '\'' :: r.1,r.2 + 2) else some ([],1)
    else (readString rest).map fun r => (c :: r.1,r.2 + 1)

def fraction (rest : Source) : Source :=
  if startsWith (· == unit '.') rest && !startsWith (· == unit '.') (rest.drop 1) then
    rest.take 1 ++ (rest.drop 1).takeWhile isDigit
  else []

def isExponent (c : UInt16) : Bool := c == unit 'e' || c == unit 'E'

def isSign (c : UInt16) : Bool := c == unit '+' || c == unit '-'

def exponent (rest : Source) : Source :=
  if startsWith isExponent rest then
    let k := if startsWith isSign (rest.drop 1) then 2 else 1
    if startsWith isDigit (rest.drop k) then rest.take k ++ (rest.drop k).takeWhile isDigit else []
  else []

def readNumber (rest : Source) : Source :=
  let whole := rest.takeWhile isDigit
  let rest := rest.drop whole.length
  let dotted := fraction rest
  whole ++ dotted ++ exponent (rest.drop dotted.length)

structure Scanned where
  token : Option (TokenKind × Source)
  taken : ℕ

def plain (kind : TokenKind) (value : Source) : Scanned := ⟨some (kind,value),value.length⟩

def scan (before : Option UInt16) (col : ℕ) (c : UInt16) (rest : Source) : Except Message Scanned :=
  if isBlank c then .ok ⟨none,1⟩
  else if c = unit '*' ∧ col = 1 then .ok (plain .comment ((c :: rest).takeWhile (· != unit '\n')))
  else if c = unit '-' ∧ startsWith (· == unit '-') rest then
    .ok (plain .comment ((c :: rest).takeWhile (· != unit '\n')))
  else if c = unit '/' ∧ startsWith (· == unit '*') rest then
    match indexOf (units "*/") (rest.drop 1) with
    | none => .error .unterminatedComment
    | some at_ => .ok (plain .comment ((c :: rest).take (at_ + 4)))
  else if c = unit '\'' then
    match readString rest with
    | none => .error .unterminatedString
    | some r => .ok ⟨some (.string,r.1),r.2 + 1⟩
  else if c = unit '"' then
    match indexOf [unit '"'] rest with
    | none => .error .unterminatedQuoted
    | some close => .ok ⟨some (.quoted,rest.take close),close + 2⟩
  else if c = unit ':' ∧ startsWith isNameChar rest then .ok (plain .host (c :: rest.takeWhile isNameChar))
  else if c = unit '#' ∧ startsWith isNameChar rest then .ok (plain .temp (c :: rest.takeWhile isNameChar))
  else if isDigit c ∨ c = unit '.' ∧ startsWith isDigit rest ∧ before ≠ some (unit '.') then
    .ok (plain .number (readNumber (c :: rest)))
  else if isNameChar c ∧ ¬isDigit c then .ok (plain .identifier ((c :: rest).takeWhile isNameChar))
  else if OPERATORS_2.contains ((c :: rest).take 2) then .ok (plain .operator ((c :: rest).take 2))
  else if OPERATORS_1.contains c ∨ c = unit ':' then .ok (plain .operator [c])
  else .error (.unexpected c)

def advance (at_ : ℕ × ℕ) (text : Source) : ℕ × ℕ :=
  text.foldl (fun p c => if c = unit '\n' then (p.1 + 1,1) else (p.1,p.2 + 1)) at_

def lexFrom (comments : Bool) : ℕ → Option UInt16 → ℕ × ℕ → Source → Option (Except LexError (List Token))
  | 0,_,_,_ => none
  | _ + 1,_,_,[] => some (.ok [])
  | fuel + 1,before,at_,c :: rest =>
    match scan before at_.2 c rest with
    | .error message => some (.error ⟨message,at_.1,at_.2⟩)
    | .ok s =>
      let text := (c :: rest).take s.taken
      let tail := lexFrom comments fuel (text.getLast?.or before) (advance at_ text) ((c :: rest).drop s.taken)
      match s.token with
      | none => tail
      | some (kind,value) =>
        if kind = .comment ∧ comments = false then tail
        else tail.map fun r => r.map fun tokens => ⟨kind,value,at_.1,at_.2⟩ :: tokens

def lex (source : Source) (comments : Bool) : Option (Except LexError (List Token)) :=
  lexFrom comments (source.length + 1) none (1,1) source

example : (lex (units "a:=1..2") false).map (·.map (·.map Token.value)) =
    some (.ok (["a",":=","1",".",".","2"].map units)) := by decide

section spelling

def spell : TokenKind → Source → Source
  | .string,v => Quoted.wrap (unit '\'') v
  | .quoted,v => unit '"' :: (v ++ [unit '"'])
  | _,v => v

def Fraction (f : Source) : Prop := f = [] ∨ ∃ ds, f = unit '.' :: ds ∧ ∀ d ∈ ds, isDigit d = true

def Exponent (e : Source) : Prop :=
  e = [] ∨ ∃ x sign d ds, e = x :: (sign ++ d :: ds) ∧ isExponent x = true ∧
    (sign = [] ∨ ∃ g, sign = [g] ∧ isSign g = true) ∧ ∀ y ∈ d :: ds, isDigit y = true

def Numeral (v : Source) : Prop :=
  ∃ whole f e, v = whole ++ f ++ e ∧ (∀ d ∈ whole, isDigit d = true) ∧ Fraction f ∧ Exponent e ∧
    (whole ≠ [] ∨ ∃ d ds, f = unit '.' :: d :: ds)

def Named (mark : UInt16) (v : Source) : Prop :=
  ∃ c name, v = mark :: c :: name ∧ ∀ d ∈ c :: name, isNameChar d = true

def WellFormed : TokenKind → Source → Prop
  | .identifier,v => ∃ c name, v = c :: name ∧ isDigit c = false ∧ ∀ d ∈ c :: name, isNameChar d = true
  | .quoted,v => unit '"' ∉ v
  | .host,v => Named (unit ':') v
  | .temp,v => Named (unit '#') v
  | .string,_ => True
  | .number,v => Numeral v
  | .operator,v => v ∈ OPERATORS_2 ∨ ∃ c, v = [c] ∧ c ∈ unit ':' :: OPERATORS_1
  | .comment,v => v ≠ []

variable {kind : TokenKind} {value : Source}

theorem spell_ne_nil (h : WellFormed kind value) : spell kind value ≠ [] := by
  cases kind with
  | identifier =>
    obtain ⟨c,name,rfl,-⟩ := h
    exact List.cons_ne_nil _ _
  | quoted => exact List.cons_ne_nil _ _
  | host | temp =>
    obtain ⟨c,name,rfl,-⟩ := h
    exact List.cons_ne_nil _ _
  | string => exact List.cons_ne_nil _ _
  | number =>
    obtain ⟨whole,f,e,rfl,-,-,-,hne⟩ := h
    intro hnil
    obtain ⟨hboth,-⟩ := List.append_eq_nil_iff.mp hnil
    obtain ⟨rfl,rfl⟩ := List.append_eq_nil_iff.mp hboth
    rcases hne with hne | ⟨d,ds,hne⟩
    · exact hne rfl
    · cases hne
  | operator =>
    rcases h with h | ⟨c,rfl,-⟩
    · have hall : OPERATORS_2.all (fun v => !v.isEmpty) = true := by decide
      have hvalue := List.all_eq_true.mp hall value h
      rintro (rfl : value = [])
      cases hvalue
    · exact List.cons_ne_nil _ _
  | comment => exact h

end spelling

section reading

variable {c : UInt16} {rest tail v l : Source} {k n : ℕ} {p : UInt16 → Bool}

theorem startsWith_iff : startsWith p l = true ↔ ∃ c t, l = c :: t ∧ p c = true := by
  cases l with
  | nil => simp [startsWith]
  | cons c t => simp [startsWith]

theorem startsWith_cons (c : UInt16) (t : Source) : startsWith p (c :: t) = p c := rfl

theorem takeWhile_stop {ds r : Source} (h : ∀ d ∈ ds, p d = true) (hr : startsWith p r = false) :
    (ds ++ r).takeWhile p = ds := by
  rw [List.takeWhile_append_of_pos h]
  cases r with
  | nil => simp
  | cons c t => rw [List.takeWhile_cons_of_neg (by rw [startsWith_cons] at hr; simp [hr]),List.append_nil]

theorem readString_spec (rest : Source) : ∀ {v n}, readString rest = some (v,n) →
    ∃ tail, rest = Quoted.double (unit '\'') v ++ unit '\'' :: tail ∧
      n = (Quoted.double (unit '\'') v).length + 1 := by
  fun_induction readString rest with
  | case1 => nofun
  | case2 =>
    intro v n h
    cases h
    exact ⟨[],rfl,rfl⟩
  | case3 rest ih =>
    intro v n h
    obtain ⟨⟨u,m⟩,hread,heq⟩ := Option.map_eq_some_iff.mp h
    cases heq
    obtain ⟨tail,rfl,rfl⟩ := ih hread
    refine ⟨tail,?_,?_⟩
    · rw [Quoted.double_quote]
      rfl
    · rw [Quoted.double_quote]
      rfl
  | case4 d rest hd =>
    intro v n h
    cases h
    exact ⟨d :: rest,rfl,rfl⟩
  | case5 c rest hc ih =>
    intro v n h
    obtain ⟨⟨u,m⟩,hread,heq⟩ := Option.map_eq_some_iff.mp h
    cases heq
    obtain ⟨tail,rfl,rfl⟩ := ih hread
    refine ⟨tail,?_,?_⟩
    · rw [Quoted.double_other hc]
      rfl
    · rw [Quoted.double_other hc]
      rfl

theorem readString_double (v : Source) (htail : startsWith (· == unit '\'') tail = false) :
    readString (Quoted.double (unit '\'') v ++ unit '\'' :: tail) =
      some (v,(Quoted.double (unit '\'') v).length + 1) := by
  induction v with
  | nil =>
    rw [Quoted.double_nil,List.nil_append,readString.eq_def]
    dsimp only
    rw [if_pos rfl]
    cases tail with
    | nil => rfl
    | cons d tail =>
      have hd : d ≠ unit '\'' := by simpa [startsWith_cons] using htail
      dsimp only
      rw [if_neg hd]
      rfl
  | cons c v ih =>
    by_cases hc : c = unit '\''
    · subst hc
      rw [Quoted.double_quote,List.cons_append,List.cons_append,readString.eq_def]
      dsimp only
      rw [if_pos rfl,if_pos rfl,ih]
      rfl
    · rw [Quoted.double_other hc,List.cons_append,readString.eq_def]
      dsimp only
      rw [if_neg hc,ih]
      rfl

theorem indexOf_one (rest : Source) : ∀ {k}, indexOf [c] rest = some k →
    ∃ tail, rest = rest.take k ++ c :: tail ∧ c ∉ rest.take k ∧ (rest.take k).length = k := by
  induction rest with
  | nil => nofun
  | cons d rest ih =>
    intro k h
    rw [indexOf] at h
    by_cases hd : [c].isPrefixOf (d :: rest) = true
    · rw [if_pos hd] at h
      cases h
      have hcd : c = d := by simpa [List.isPrefixOf] using hd
      exact ⟨rest,by rw [hcd]; rfl,List.not_mem_nil,rfl⟩
    · rw [if_neg hd] at h
      obtain ⟨j,hj,rfl⟩ := Option.map_eq_some_iff.mp h
      obtain ⟨tail,hrest,hmem,hlength⟩ := ih hj
      have hcd : c ≠ d := fun heq => hd (by simp [List.isPrefixOf,heq])
      rw [List.take_succ_cons]
      refine ⟨tail,?_,?_,?_⟩
      · rw [List.cons_append,← hrest]
      · exact List.not_mem_cons_of_ne_of_not_mem hcd hmem
      · rw [List.length_cons,hlength]

theorem indexOf_stop (h : c ∉ v) : indexOf [c] (v ++ c :: tail) = some v.length := by
  induction v with
  | nil =>
    rw [List.nil_append,indexOf,if_pos (by simp [List.isPrefixOf])]
    rfl
  | cons d v ih =>
    have hcd : c ≠ d := fun heq => h (heq ▸ List.mem_cons_self)
    have hmem : c ∉ v := fun hmem => h (List.mem_cons_of_mem _ hmem)
    rw [List.cons_append,indexOf,if_neg (by simp [List.isPrefixOf,hcd]),ih hmem]
    rfl

theorem fraction_spec (l : Source) : (∃ tail, l = fraction l ++ tail) ∧ Fraction (fraction l) := by
  unfold fraction
  split
  · rename_i h
    rw [Bool.and_eq_true] at h
    obtain ⟨c,t,rfl,hc⟩ := (startsWith_iff).mp h.1
    obtain rfl := beq_iff_eq.mp hc
    refine ⟨⟨t.dropWhile isDigit,?_⟩,.inr ⟨t.takeWhile isDigit,rfl,fun d hd => List.mem_takeWhile_imp hd⟩⟩
    change unit '.' :: t = unit '.' :: (t.takeWhile isDigit ++ t.dropWhile isDigit)
    rw [List.takeWhile_append_dropWhile]
  · exact ⟨⟨l,rfl⟩,.inl rfl⟩

theorem exponent_spec (l : Source) : (∃ tail, l = exponent l ++ tail) ∧ Exponent (exponent l) := by
  unfold exponent
  split
  · rename_i h
    obtain ⟨x,t,rfl,hx⟩ := (startsWith_iff).mp h
    dsimp only
    have hsign : (if startsWith isSign ((x :: t).drop 1) = true then 2 else 1) = 1 ∨
        (if startsWith isSign ((x :: t).drop 1) = true then 2 else 1) = 2 ∧ ∃ g u, t = g :: u ∧ isSign g = true := by
      split
      · rename_i hstart
        exact .inr ⟨rfl,(startsWith_iff).mp hstart⟩
      · exact .inl rfl
    generalize (if startsWith isSign ((x :: t).drop 1) = true then 2 else 1) = k at hsign ⊢
    split
    · rename_i hdigit
      obtain ⟨d,ds,hdrop,hd⟩ := (startsWith_iff).mp hdigit
      rw [hdrop]
      refine ⟨⟨(d :: ds).dropWhile isDigit,?_⟩,.inr ?_⟩
      · rw [List.append_assoc,List.takeWhile_append_dropWhile,← hdrop,List.take_append_drop]
      · rw [List.takeWhile_cons_of_pos hd]
        have hall : ∀ y ∈ d :: ds.takeWhile isDigit, isDigit y = true := by
          intro y hy
          rcases List.mem_cons.mp hy with rfl | hy
          · exact hd
          · exact List.mem_takeWhile_imp hy
        rcases hsign with rfl | ⟨rfl,g,u,rfl,hg⟩
        · exact ⟨x,[],d,_,rfl,hx,.inl rfl,hall⟩
        · exact ⟨x,[g],d,_,rfl,hx,.inr ⟨g,rfl,hg⟩,hall⟩
    · exact ⟨⟨_,rfl⟩,.inl rfl⟩
  · exact ⟨⟨l,rfl⟩,.inl rfl⟩

theorem drop_takeWhile (l : Source) : l.drop (l.takeWhile p).length = l.dropWhile p := by
  have h := @List.drop_left _ (l.takeWhile p) (l.dropWhile p)
  rwa [List.takeWhile_append_dropWhile] at h

theorem readNumber_spec (h : startsWith isDigit l = true ∨ ∃ d t, l = unit '.' :: d :: t ∧ isDigit d = true) :
    (∃ tail, l = readNumber l ++ tail) ∧ Numeral (readNumber l) := by
  have hl := (List.takeWhile_append_dropWhile (p := isDigit) (l := l)).symm
  have hwhole : ∀ d ∈ l.takeWhile isDigit, isDigit d = true := fun d hd => List.mem_takeWhile_imp hd
  have hstart : l.takeWhile isDigit ≠ [] ∨ ∃ d ds, fraction (l.dropWhile isDigit) = unit '.' :: d :: ds := by
    rcases h with h | ⟨d,t,rfl,hd⟩
    · obtain ⟨c,t,rfl,hc⟩ := (startsWith_iff).mp h
      rw [List.takeWhile_cons_of_pos hc]
      exact .inl (List.cons_ne_nil _ _)
    · have hdot : d ≠ unit '.' := by
        rintro rfl
        exact absurd hd (by decide)
      rw [List.dropWhile_cons_of_neg (by decide)]
      refine .inr ⟨d,t.takeWhile isDigit,?_⟩
      unfold fraction
      rw [if_pos (by simp [startsWith,hdot])]
      change unit '.' :: (d :: t).takeWhile isDigit = _
      rw [List.takeWhile_cons_of_pos hd]
  unfold readNumber
  dsimp only
  rw [drop_takeWhile]
  generalize l.takeWhile isDigit = whole at *
  generalize l.dropWhile isDigit = rest at *
  obtain ⟨⟨t,ht⟩,hf⟩ := fraction_spec rest
  obtain ⟨⟨u,hu⟩,he⟩ := exponent_spec t
  have hdrop : rest.drop (fraction rest).length = t := by
    have h := @List.drop_left _ (fraction rest) t
    rwa [← ht] at h
  rw [hdrop]
  refine ⟨⟨u,?_⟩,whole,fraction rest,exponent t,rfl,hwhole,hf,he,hstart⟩
  rw [List.append_assoc,List.append_assoc,← hu,← ht,← hl]

end reading

section ends

def Ends (r : Source) : Prop := r = [] ∨ ∃ t, r = unit ' ' :: t

variable {c : UInt16} {r v f e : Source} {p : UInt16 → Bool}

theorem Ends.stop (hr : Ends r) (hp : p (unit ' ') = false) : startsWith p r = false := by
  rcases hr with rfl | ⟨t,rfl⟩
  · rfl
  · exact hp

theorem exponent_not_digit (h : isExponent c = true) : isDigit c = false ∧ (c == unit '.') = false := by
  rw [isExponent,Bool.or_eq_true,beq_iff_eq,beq_iff_eq] at h
  rcases h with rfl | rfl
  · decide
  · decide

theorem Exponent.stop (he : Exponent e) (hr : Ends r) (hp : p (unit ' ') = false)
    (hexp : ∀ x, isExponent x = true → p x = false) : startsWith p (e ++ r) = false := by
  rcases he with rfl | ⟨x,sign,d,ds,rfl,hx,-⟩
  · exact hr.stop hp
  · exact hexp x hx

theorem digit_not_dot {d : UInt16} (h : isDigit d = true) : (d == unit '.') = false := by
  refine beq_eq_false_iff_ne.mpr ?_
  rintro rfl
  exact absurd h (by decide)

theorem fraction_append (hf : Fraction f) (hdigit : startsWith isDigit r = false)
    (hdot : startsWith (· == unit '.') r = false) : fraction (f ++ r) = f := by
  unfold fraction
  rcases hf with rfl | ⟨ds,rfl,hds⟩
  · rw [List.nil_append,hdot]
    rfl
  · have hbehind : startsWith (· == unit '.') (ds ++ r) = false := by
      cases ds with
      | nil => exact hdot
      | cons d ds => exact digit_not_dot (hds d List.mem_cons_self)
    rw [List.cons_append]
    change (if true && !startsWith (· == unit '.') (ds ++ r) then unit '.' :: (ds ++ r).takeWhile isDigit else []) = _
    rw [hbehind,takeWhile_stop hds hdigit]
    rfl

theorem exponent_append (he : Exponent e) (hr : Ends r) : exponent (e ++ r) = e := by
  have hdigit : startsWith isDigit r = false := hr.stop (by decide)
  unfold exponent
  rcases he with rfl | ⟨x,sign,d,ds,rfl,hx,hsign,hds⟩
  · rw [List.nil_append,hr.stop (by decide)]
    rfl
  · have hd := hds d List.mem_cons_self
    rw [List.cons_append,startsWith_cons,if_pos hx]
    rcases hsign with rfl | ⟨g,rfl,hg⟩
    · have hnot : isSign d = false := by
        rw [isSign,Bool.or_eq_false_iff,beq_eq_false_iff_ne,beq_eq_false_iff_ne]
        exact ⟨by rintro rfl; exact absurd hd (by decide),by rintro rfl; exact absurd hd (by decide)⟩
      change (let k := if isSign d = true then 2 else 1
        if startsWith isDigit ((x :: (d :: ds ++ r)).drop k) = true then
          (x :: (d :: ds ++ r)).take k ++ ((x :: (d :: ds ++ r)).drop k).takeWhile isDigit else []) = _
      rw [hnot]
      change (if isDigit d = true then [x] ++ (d :: ds ++ r).takeWhile isDigit else []) = _
      rw [if_pos hd,takeWhile_stop hds hdigit]
      rfl
    · change (let k := if isSign g = true then 2 else 1
        if startsWith isDigit ((x :: g :: (d :: ds ++ r)).drop k) = true then
          (x :: g :: (d :: ds ++ r)).take k ++ ((x :: g :: (d :: ds ++ r)).drop k).takeWhile isDigit else []) = _
      rw [if_pos hg]
      change (if isDigit d = true then [x,g] ++ (d :: ds ++ r).takeWhile isDigit else []) = _
      rw [if_pos hd,takeWhile_stop hds hdigit]
      rfl

theorem readNumber_append (h : Numeral v) (hr : Ends r) : readNumber (v ++ r) = v := by
  obtain ⟨whole,f,e,rfl,hwhole,hf,he,-⟩ := h
  have hdigit : startsWith isDigit (e ++ r) = false := he.stop hr (by decide) fun x hx => (exponent_not_digit hx).1
  have hdot : startsWith (· == unit '.') (e ++ r) = false := he.stop hr (by decide) fun x hx => (exponent_not_digit hx).2
  have hstop : startsWith isDigit (f ++ (e ++ r)) = false := by
    rcases hf with rfl | ⟨ds,rfl,-⟩
    · exact hdigit
    · rfl
  have hparts : whole ++ f ++ e ++ r = whole ++ (f ++ (e ++ r)) := by simp
  unfold readNumber
  rw [hparts,takeWhile_stop hwhole hstop]
  dsimp only
  rw [List.drop_left,fraction_append hf hdigit hdot,List.drop_left,exponent_append he hr]

end ends

section scanning

variable {c : UInt16} {rest r value : Source} {kind : TokenKind} {before : Option UInt16} {col : ℕ} {scanned : Scanned}

theorem comment_ne_nil (h : c ≠ unit '\n') : (c :: rest).takeWhile (· != unit '\n') ≠ [] := by
  rw [List.takeWhile_cons_of_pos (by simp [h])]
  exact List.cons_ne_nil _ _

theorem named_takeWhile (mark : UInt16) (h : startsWith isNameChar rest = true) :
    Named mark (mark :: rest.takeWhile isNameChar) := by
  obtain ⟨c,t,rfl,hc⟩ := startsWith_iff.mp h
  refine ⟨c,t.takeWhile isNameChar,by rw [List.takeWhile_cons_of_pos hc],fun d hd => ?_⟩
  rw [← List.takeWhile_cons_of_pos hc] at hd
  exact List.mem_takeWhile_imp hd

theorem scan_spec (h : scan before col c rest = .ok scanned) : scanned = ⟨none,1⟩ ∧ isBlank c = true ∨
    ∃ kind value tail, scanned = ⟨some (kind,value),(spell kind value).length⟩ ∧
      c :: rest = spell kind value ++ tail ∧ WellFormed kind value := by
  unfold scan at h
  by_cases hblank : isBlank c = true
  · rw [if_pos hblank] at h
    exact .inl ⟨(Except.ok.inj h).symm,hblank⟩
  rw [if_neg hblank] at h
  refine .inr ?_
  by_cases hstar : c = unit '*' ∧ col = 1
  · rw [if_pos hstar] at h
    obtain rfl := Except.ok.inj h
    refine ⟨.comment,_,(c :: rest).dropWhile (· != unit '\n'),rfl,
      (@List.takeWhile_append_dropWhile _ (· != unit '\n') (c :: rest)).symm,comment_ne_nil ?_⟩
    rw [hstar.1]
    decide
  rw [if_neg hstar] at h
  by_cases hdash : c = unit '-' ∧ startsWith (· == unit '-') rest = true
  · rw [if_pos hdash] at h
    obtain rfl := Except.ok.inj h
    refine ⟨.comment,_,(c :: rest).dropWhile (· != unit '\n'),rfl,
      (@List.takeWhile_append_dropWhile _ (· != unit '\n') (c :: rest)).symm,comment_ne_nil ?_⟩
    rw [hdash.1]
    decide
  rw [if_neg hdash] at h
  by_cases hslash : c = unit '/' ∧ startsWith (· == unit '*') rest = true
  · rw [if_pos hslash] at h
    split at h
    · cases h
    · obtain rfl := Except.ok.inj h
      exact ⟨.comment,_,_,rfl,(List.take_append_drop ..).symm,List.cons_ne_nil _ _⟩
  rw [if_neg hslash] at h
  by_cases hquote : c = unit '\''
  · rw [if_pos hquote] at h
    split at h
    · cases h
    · rename_i read hread
      obtain ⟨v,n⟩ := read
      obtain rfl := Except.ok.inj h
      obtain ⟨tail,rfl,rfl⟩ := readString_spec rest hread
      refine ⟨.string,v,tail,?_,?_,trivial⟩
      · change (⟨some (.string,v),_⟩ : Scanned) = ⟨some (.string,v),(Quoted.wrap (unit '\'') v).length⟩
        rw [Quoted.wrap,List.length_cons,List.length_append]
        rfl
      · rw [hquote]
        change _ = Quoted.wrap (unit '\'') v ++ tail
        rw [Quoted.wrap,List.cons_append,List.append_assoc]
        rfl
  rw [if_neg hquote] at h
  by_cases hquote : c = unit '"'
  · rw [if_pos hquote] at h
    split at h
    · cases h
    · rename_i close hclose
      obtain rfl := Except.ok.inj h
      obtain ⟨tail,hrest,hmem,hlength⟩ := indexOf_one rest hclose
      refine ⟨.quoted,rest.take close,tail,?_,?_,hmem⟩
      · change (⟨some (.quoted,rest.take close),_⟩ : Scanned) =
          ⟨some (.quoted,rest.take close),(unit '"' :: (rest.take close ++ [unit '"'])).length⟩
        rw [List.length_cons,List.length_append,hlength]
        rfl
      · rw [hquote]
        change _ = unit '"' :: (rest.take close ++ [unit '"']) ++ tail
        rw [List.cons_append,List.append_assoc]
        exact congrArg _ hrest
  rw [if_neg hquote] at h
  by_cases hhost : c = unit ':' ∧ startsWith isNameChar rest = true
  · rw [if_pos hhost] at h
    obtain rfl := Except.ok.inj h
    refine ⟨.host,_,rest.dropWhile isNameChar,rfl,?_,hhost.1 ▸ named_takeWhile _ hhost.2⟩
    change _ = c :: (rest.takeWhile isNameChar ++ rest.dropWhile isNameChar)
    rw [List.takeWhile_append_dropWhile]
  rw [if_neg hhost] at h
  by_cases htemp : c = unit '#' ∧ startsWith isNameChar rest = true
  · rw [if_pos htemp] at h
    obtain rfl := Except.ok.inj h
    refine ⟨.temp,_,rest.dropWhile isNameChar,rfl,?_,htemp.1 ▸ named_takeWhile _ htemp.2⟩
    change _ = c :: (rest.takeWhile isNameChar ++ rest.dropWhile isNameChar)
    rw [List.takeWhile_append_dropWhile]
  rw [if_neg htemp] at h
  by_cases hnumber : isDigit c = true ∨ c = unit '.' ∧ startsWith isDigit rest = true ∧ before ≠ some (unit '.')
  · rw [if_pos hnumber] at h
    obtain rfl := Except.ok.inj h
    have hstart : startsWith isDigit (c :: rest) = true ∨ ∃ d t, c :: rest = unit '.' :: d :: t ∧ isDigit d = true := by
      rcases hnumber with hdigit | ⟨rfl,hrest,-⟩
      · exact .inl hdigit
      · obtain ⟨d,t,rfl,hd⟩ := startsWith_iff.mp hrest
        exact .inr ⟨d,t,rfl,hd⟩
    obtain ⟨⟨tail,htail⟩,hform⟩ := readNumber_spec hstart
    exact ⟨.number,_,tail,rfl,htail,hform⟩
  rw [if_neg hnumber] at h
  by_cases hname : isNameChar c = true ∧ ¬isDigit c = true
  · rw [if_pos hname] at h
    obtain rfl := Except.ok.inj h
    refine ⟨.identifier,_,_,rfl,(List.takeWhile_append_dropWhile ..).symm,c,rest.takeWhile isNameChar,
      List.takeWhile_cons_of_pos hname.1,by simpa using hname.2,fun d hd => ?_⟩
    rw [← List.takeWhile_cons_of_pos hname.1] at hd
    exact List.mem_takeWhile_imp hd
  rw [if_neg hname] at h
  by_cases htwo : OPERATORS_2.contains ((c :: rest).take 2) = true
  · rw [if_pos htwo] at h
    obtain rfl := Except.ok.inj h
    exact ⟨.operator,_,_,rfl,(List.take_append_drop ..).symm,.inl (List.contains_iff_mem.mp htwo)⟩
  rw [if_neg htwo] at h
  by_cases hone : OPERATORS_1.contains c = true ∨ c = unit ':'
  · rw [if_pos hone] at h
    obtain rfl := Except.ok.inj h
    refine ⟨.operator,_,rest,rfl,rfl,.inr ⟨c,rfl,?_⟩⟩
    rcases hone with hone | rfl
    · exact List.mem_cons_of_mem _ (List.contains_iff_mem.mp hone)
    · exact List.mem_cons_self
  rw [if_neg hone] at h
  cases h

theorem scan_taken (h : scan before col c rest = .ok scanned) :
    ∃ text tail, c :: rest = text ++ tail ∧ text ≠ [] ∧ scanned.taken = text.length := by
  rcases scan_spec h with ⟨rfl,-⟩ | ⟨kind,value,tail,rfl,htail,hform⟩
  · exact ⟨[c],rest,rfl,List.cons_ne_nil _ _,rfl⟩
  · exact ⟨_,tail,htail,spell_ne_nil hform,rfl⟩

theorem digit_name (h : isDigit c = true) : isNameChar c = true := by
  rw [isNameChar,h]
  simp

theorem name_plain (h : isNameChar c = true) : isBlank c = false ∧ c ≠ unit '*' ∧ c ≠ unit '-' ∧ c ≠ unit '/' ∧
    c ≠ unit '\'' ∧ c ≠ unit '"' ∧ c ≠ unit ':' ∧ c ≠ unit '#' ∧ c ≠ unit '.' := by
  refine ⟨?_,?_,?_,?_,?_,?_,?_,?_,?_⟩
  · by_contra hblank
    rw [Bool.not_eq_false,isBlank,Bool.or_eq_true,Bool.or_eq_true,Bool.or_eq_true,beq_iff_eq,beq_iff_eq,beq_iff_eq,
      beq_iff_eq] at hblank
    rcases hblank with ((rfl | rfl) | rfl) | rfl <;> exact absurd h (by decide)
  all_goals
    rintro rfl
    exact absurd h (by decide)

theorem scan_name (hc : isNameChar c = true) : scan before col c rest =
    if isDigit c then .ok (plain .number (readNumber (c :: rest)))
    else .ok (plain .identifier ((c :: rest).takeWhile isNameChar)) := by
  obtain ⟨hblank,hstar,hdash,hslash,hquote,hdouble,hcolon,hhash,hdot⟩ := name_plain hc
  unfold scan
  rw [if_neg (by simp [hblank]),if_neg fun h => hstar h.1,if_neg fun h => hdash h.1,if_neg fun h => hslash h.1,
    if_neg hquote,if_neg hdouble,if_neg fun h => hcolon h.1,if_neg fun h => hhash h.1]
  by_cases hdigit : isDigit c = true
  · rw [if_pos (.inl hdigit),if_pos hdigit]
  · rw [if_neg fun h => h.elim hdigit fun h => hdot h.1,if_pos ⟨hc,hdigit⟩,if_neg hdigit]

def operates (c : UInt16) : Bool :=
  !isBlank c && c != unit '\'' && c != unit '"' && c != unit '#' && !isNameChar c

theorem scan_operator (hc : operates c = true) (hstar : ¬(c = unit '*' ∧ col = 1))
    (hdash : startsWith (· == unit '-') rest = false) (hslash : startsWith (· == unit '*') rest = false)
    (hname : startsWith isNameChar rest = false) (hdigit : startsWith isDigit rest = false) :
    scan before col c rest =
      if OPERATORS_2.contains ((c :: rest).take 2) then .ok (plain .operator ((c :: rest).take 2))
      else if OPERATORS_1.contains c ∨ c = unit ':' then .ok (plain .operator [c])
      else .error (.unexpected c) := by
  simp only [operates,Bool.and_eq_true,Bool.not_eq_true',bne_iff_ne] at hc
  obtain ⟨⟨⟨⟨hblank,hquote⟩,hdouble⟩,hhash⟩,hnot⟩ := hc
  have hnodigit : isDigit c = false := by
    by_contra h
    rw [digit_name (by simpa using h)] at hnot
    cases hnot
  unfold scan
  rw [if_neg (by simp [hblank]),if_neg hstar,if_neg (by simp [hdash]),if_neg (by simp [hslash]),if_neg hquote,
    if_neg hdouble,if_neg (by simp [hname]),if_neg fun h => hhash h.1,if_neg (by simp [hnodigit,hdigit]),
    if_neg (by simp [hnot])]

theorem operators_1 {c : UInt16} (hc : c ∈ unit ':' :: OPERATORS_1) : operates c = true ∧
    OPERATORS_2.contains [c] = false ∧ OPERATORS_2.contains [c,unit ' '] = false := by
  have hall : (unit ':' :: OPERATORS_1).all (fun c => operates c && !OPERATORS_2.contains [c] &&
    !OPERATORS_2.contains [c,unit ' ']) = true := by decide
  have h := List.all_eq_true.mp hall c hc
  rw [Bool.and_eq_true,Bool.and_eq_true,Bool.not_eq_true',Bool.not_eq_true'] at h
  exact ⟨h.1.1,h.1.2,h.2⟩

theorem operators_2 {v : Source} (hv : v ∈ OPERATORS_2) : v.length = 2 ∧ operates (v.getD 0 0) = true ∧
    v.getD 0 0 ≠ unit '*' ∧ v.getD 1 0 ≠ unit '-' ∧ v.getD 1 0 ≠ unit '*' ∧ isNameChar (v.getD 1 0) = false := by
  have hall : OPERATORS_2.all (fun v => v.length == 2 && operates (v.getD 0 0) && v.getD 0 0 != unit '*' &&
    v.getD 1 0 != unit '-' && v.getD 1 0 != unit '*' && !isNameChar (v.getD 1 0)) = true := by decide
  have h := List.all_eq_true.mp hall v hv
  simp only [Bool.and_eq_true,Bool.not_eq_true',beq_iff_eq,bne_iff_ne] at h
  exact ⟨h.1.1.1.1.1,h.1.1.1.1.2,h.1.1.1.2,h.1.1.2,h.1.2,h.2⟩

theorem scan_spell (hform : WellFormed kind value) (hkind : kind ≠ .comment) (hcol : col ≠ 1) (hr : Ends r) :
    ∃ c rest, spell kind value = c :: rest ∧ scan (some (unit ' ')) col c (rest ++ r) =
      .ok ⟨some (kind,value),(spell kind value).length⟩ := by
  have hname : startsWith isNameChar r = false := hr.stop (by decide)
  cases kind with
  | comment => exact absurd rfl hkind
  | string =>
    refine ⟨unit '\'',_,rfl,?_⟩
    have hread := readString_double value (hr.stop (by decide) : startsWith (· == unit '\'') r = false)
    unfold scan
    rw [if_neg (by decide),if_neg fun h => hcol h.2,if_neg fun h => absurd h.1 (by decide),
      if_neg fun h => absurd h.1 (by decide),if_pos rfl,List.append_assoc,List.singleton_append,hread]
    change Except.ok (⟨some (.string,value),_⟩ : Scanned) =
      .ok ⟨some (.string,value),(Quoted.wrap (unit '\'') value).length⟩
    rw [Quoted.wrap,List.length_cons,List.length_append]
    rfl
  | quoted =>
    refine ⟨unit '"',_,rfl,?_⟩
    have hread := @indexOf_stop (unit '"') r value hform
    unfold scan
    rw [if_neg (by decide),if_neg fun h => hcol h.2,if_neg fun h => absurd h.1 (by decide),
      if_neg fun h => absurd h.1 (by decide),if_neg (by decide),if_pos rfl,List.append_assoc,List.singleton_append,hread]
    change Except.ok (⟨some (.quoted,(value ++ unit '"' :: r).take value.length),_⟩ : Scanned) =
      .ok ⟨some (.quoted,value),(unit '"' :: (value ++ [unit '"'])).length⟩
    rw [List.take_left,List.length_cons,List.length_append]
    rfl
  | host =>
    obtain ⟨c,name,rfl,hall⟩ := hform
    refine ⟨unit ':',c :: name,rfl,?_⟩
    unfold scan
    rw [if_neg (by decide),if_neg fun h => hcol h.2,if_neg fun h => absurd h.1 (by decide),
      if_neg fun h => absurd h.1 (by decide),if_neg (by decide),if_neg (by decide),
      if_pos ⟨rfl,hall c List.mem_cons_self⟩,takeWhile_stop hall hname]
    rfl
  | temp =>
    obtain ⟨c,name,rfl,hall⟩ := hform
    refine ⟨unit '#',c :: name,rfl,?_⟩
    unfold scan
    rw [if_neg (by decide),if_neg fun h => hcol h.2,if_neg fun h => absurd h.1 (by decide),
      if_neg fun h => absurd h.1 (by decide),if_neg (by decide),if_neg (by decide),if_neg fun h => absurd h.1 (by decide),
      if_pos ⟨rfl,hall c List.mem_cons_self⟩,takeWhile_stop hall hname]
    rfl
  | identifier =>
    obtain ⟨c,name,rfl,hdigit,hall⟩ := hform
    refine ⟨c,name,rfl,?_⟩
    rw [scan_name (hall c List.mem_cons_self),if_neg (by simp [hdigit]),← List.cons_append,takeWhile_stop hall hname]
    rfl
  | number =>
    have hread := readNumber_append hform hr
    obtain ⟨c,rest,hv⟩ := List.exists_cons_of_ne_nil (@spell_ne_nil .number value hform)
    obtain rfl : value = c :: rest := hv
    refine ⟨c,rest,rfl,?_⟩
    by_cases hdigit : isDigit c = true
    · rw [scan_name (digit_name hdigit),if_pos hdigit,← List.cons_append,hread]
      rfl
    · obtain ⟨whole,f,e,heq,hwhole,hfrac,-,hne⟩ := hform
      have hnil : whole = [] := by
        cases whole with
        | nil => rfl
        | cons d whole =>
          obtain rfl : c = d := (List.cons.inj heq).1
          exact absurd (hwhole c List.mem_cons_self) hdigit
      rcases hne with hne | ⟨d,ds,rfl⟩
      · exact absurd hnil hne
      · subst hnil
        have hdot : c = unit '.' := (List.cons.inj heq).1
        have hrest : startsWith isDigit (rest ++ r) = true := by
          rw [(List.cons.inj heq).2]
          rcases hfrac with hfrac | ⟨es,hfrac,hes⟩
          · cases hfrac
          · cases hfrac
            exact hes d List.mem_cons_self
        subst hdot
        unfold scan
        rw [if_neg (by decide),if_neg fun h => hcol h.2,if_neg fun h => absurd h.1 (by decide),
          if_neg fun h => absurd h.1 (by decide),if_neg (by decide),if_neg (by decide),
          if_neg fun h => absurd h.1 (by decide),if_neg fun h => absurd h.1 (by decide),
          if_pos (.inr ⟨rfl,hrest,by decide⟩),← List.cons_append,hread]
        rfl
  | operator =>
    have hdigit : startsWith isDigit r = false := hr.stop (by decide)
    have hdash : startsWith (· == unit '-') r = false := hr.stop (by decide)
    have hslash : startsWith (· == unit '*') r = false := hr.stop (by decide)
    rcases hform with hform | ⟨c,rfl,hc⟩
    · obtain ⟨hlength,hoperates,hstar,hdash',hslash',hname'⟩ := operators_2 hform
      obtain ⟨a,b,rfl⟩ := List.length_eq_two.mp hlength
      change operates a = true at hoperates
      change a ≠ _ at hstar
      change b ≠ _ at hdash' hslash'
      change isNameChar b = false at hname'
      refine ⟨a,[b],rfl,?_⟩
      have hdigit' : isDigit b = false := by
        by_contra hb
        rw [digit_name (by simpa using hb)] at hname'
        cases hname'
      have hbehind : ∀ p : UInt16 → Bool, p b = false → startsWith p (b :: r) = false := fun p hp => hp
      rw [List.singleton_append,scan_operator hoperates (fun h => hstar h.1)
        (hbehind _ (beq_eq_false_iff_ne.mpr hdash')) (hbehind _ (beq_eq_false_iff_ne.mpr hslash')) (hbehind _ hname')
        (hbehind _ hdigit')]
      exact if_pos (List.contains_iff_mem.mpr hform)
    · obtain ⟨hoperates,hone,htwo⟩ := operators_1 hc
      refine ⟨c,[],rfl,?_⟩
      have hnot : OPERATORS_2.contains ((c :: ([] ++ r)).take 2) = false := by
        rcases hr with rfl | ⟨t,rfl⟩
        · exact hone
        · exact htwo
      have hmem : OPERATORS_1.contains c = true ∨ c = unit ':' :=
        (List.mem_cons.mp hc).symm.imp List.contains_iff_mem.mpr id
      rw [List.nil_append] at hnot ⊢
      rw [scan_operator hoperates (fun h => hcol h.2) hdash hslash hname hdigit,hnot,if_neg Bool.false_ne_true,
        if_pos hmem]
      rfl

end scanning

section loop

variable {c : UInt16} {rest front source : Source} {fuel : ℕ} {before : Option UInt16} {at_ : ℕ × ℕ} {comments : Bool}
  {tokens : List Token}

def place (front : Source) : ℕ × ℕ :=
  (1 + front.count (unit '\n'),1 + (front.rtakeWhile (· != unit '\n')).length)

theorem advance_append (at_ : ℕ × ℕ) (s t : Source) : advance at_ (s ++ t) = advance (advance at_ s) t :=
  List.foldl_append

theorem place_concat (front : Source) (c : UInt16) : place (front ++ [c]) = advance (place front) [c] := by
  by_cases hc : c = unit '\n'
  · subst hc
    rw [place,List.rtakeWhile_concat_neg _ _ _ (by decide),List.count_append,List.count_singleton_self]
    rfl
  · rw [place,List.rtakeWhile_concat_pos _ _ _ (by simp [hc]),List.count_append,List.count_singleton,
      List.length_append,List.length_singleton]
    change _ = if c = unit '\n' then _ else _
    rw [if_neg hc,if_neg (by simpa using hc)]
    rfl

theorem place_append (front text : Source) : place (front ++ text) = advance (place front) text := by
  induction text generalizing front with
  | nil => rw [List.append_nil]; rfl
  | cons c text ih =>
    have h := ih (front ++ [c])
    rw [List.append_assoc,List.singleton_append] at h
    rw [h,place_concat,← advance_append]
    rfl

theorem advance_col (h : 1 ≤ at_.2) (text : Source) : 1 ≤ (advance at_ text).2 := by
  induction text generalizing at_ with
  | nil => exact h
  | cons c text ih =>
    refine @ih (if c = unit '\n' then (at_.1 + 1,1) else (at_.1,at_.2 + 1)) ?_
    split
    · exact le_rfl
    · exact Nat.le_add_left 1 _

inductive Laid : Source → Source → List Token → Prop
  | done (front gap : Source) (hgap : ∀ c ∈ gap, isBlank c = true) : Laid front gap []
  | token (front gap : Source) (kind : TokenKind) (value rest : Source) (tokens : List Token)
      (hgap : ∀ c ∈ gap, isBlank c = true) (hform : WellFormed kind value)
      (hrest : Laid (front ++ gap ++ spell kind value) rest tokens) :
    Laid front (gap ++ spell kind value ++ rest)
      (⟨kind,value,(place (front ++ gap)).1,(place (front ++ gap)).2⟩ :: tokens)

theorem Laid.blank (h : Laid (front ++ [c]) rest tokens) (hc : isBlank c = true) : Laid front (c :: rest) tokens := by
  generalize hfront : front ++ [c] = whole at h
  have hcons : ∀ gap : Source, (∀ d ∈ gap, isBlank d = true) → ∀ d ∈ c :: gap, isBlank d = true := by
    intro gap hgap d hd
    rcases List.mem_cons.mp hd with rfl | hd
    · exact hc
    · exact hgap d hd
  cases h with
  | done _ _ hgap => exact .done front (c :: rest) (hcons rest hgap)
  | token front' gap kind value rest tokens hgap hform hrest =>
    subst hfront
    have hplace : front ++ [c] ++ gap = front ++ (c :: gap) := by simp
    rw [hplace] at hrest ⊢
    exact .token front (c :: gap) kind value rest tokens (hcons gap hgap) hform hrest

theorem lexFrom_cons (hscan : scan before at_.2 c rest = .ok scanned) {text tail : Source}
    (htext : c :: rest = text ++ tail) (htaken : scanned.taken = text.length) :
    lexFrom comments (fuel + 1) before at_ (c :: rest) =
      match scanned.token with
      | none => lexFrom comments fuel (text.getLast?.or before) (advance at_ text) tail
      | some (kind,value) =>
        if kind = .comment ∧ comments = false then
          lexFrom comments fuel (text.getLast?.or before) (advance at_ text) tail
        else (lexFrom comments fuel (text.getLast?.or before) (advance at_ text) tail).map fun r =>
          r.map fun tokens => ⟨kind,value,at_.1,at_.2⟩ :: tokens := by
  rw [lexFrom,hscan]
  dsimp only
  rw [htaken,htext,List.take_left,List.drop_left]

theorem lexFrom_error {message : Message} (hscan : scan before at_.2 c rest = .error message) :
    lexFrom comments (fuel + 1) before at_ (c :: rest) = some (.error ⟨message,at_.1,at_.2⟩) := by
  rw [lexFrom,hscan]

theorem lexFrom_ends (comments : Bool) : ∀ (fuel : ℕ) (before : Option UInt16) (at_ : ℕ × ℕ) (rest : Source),
    rest.length < fuel → (lexFrom comments fuel before at_ rest).isSome = true := by
  intro fuel
  induction fuel with
  | zero => nofun
  | succ fuel ih =>
    intro before at_ rest hfuel
    cases rest with
    | nil => rfl
    | cons c rest =>
      cases hscan : scan before at_.2 c rest with
      | error message =>
        rw [lexFrom_error hscan]
        rfl
      | ok scanned =>
        obtain ⟨text,tail,htext,hne,htaken⟩ := scan_taken hscan
        have hlength : tail.length < fuel := by
          have := congrArg List.length htext
          rw [List.length_append] at this
          have := List.length_pos_iff_ne_nil.mpr hne
          omega
        have htail := ih (text.getLast?.or before) (advance at_ text) tail hlength
        rw [lexFrom_cons hscan htext htaken]
        cases scanned.token with
        | none => exact htail
        | some token =>
          dsimp only
          split
          · exact htail
          · rw [Option.isSome_map]
            exact htail

theorem lexFrom_filter : ∀ (fuel : ℕ) (before : Option UInt16) (at_ : ℕ × ℕ) (rest : Source),
    lexFrom false fuel before at_ rest =
      (lexFrom true fuel before at_ rest).map fun r => r.map (·.filter (·.kind ≠ .comment)) := by
  intro fuel
  induction fuel with
  | zero => intro before at_ rest; rfl
  | succ fuel ih =>
    intro before at_ rest
    cases rest with
    | nil => rfl
    | cons c rest =>
      cases hscan : scan before at_.2 c rest with
      | error message => rw [lexFrom_error hscan,lexFrom_error hscan]; rfl
      | ok scanned =>
        obtain ⟨text,tail,htext,-,htaken⟩ := scan_taken hscan
        rw [lexFrom_cons hscan htext htaken,lexFrom_cons hscan htext htaken]
        cases scanned.token with
        | none => exact ih _ _ _
        | some token =>
          have htail := ih (text.getLast?.or before) (advance at_ text) tail
          have hnot : ¬(token.1 = .comment ∧ true = false) := fun h => Bool.noConfusion h.2
          dsimp only
          rw [if_neg hnot,htail]
          generalize lexFrom true fuel (text.getLast?.or before) (advance at_ text) tail = behind
          by_cases hkind : token.1 = .comment
          · rw [if_pos ⟨hkind,rfl⟩]
            cases behind with
            | none => rfl
            | some r =>
              cases r with
              | error e => rfl
              | ok tokens =>
                exact congrArg (fun l => some (Except.ok l)) (List.filter_cons_of_neg (by simp [hkind])).symm
          · rw [if_neg fun h => hkind h.1]
            cases behind with
            | none => rfl
            | some r =>
              cases r with
              | error e => rfl
              | ok tokens =>
                exact congrArg (fun l => some (Except.ok l)) (List.filter_cons_of_pos (by simp [hkind])).symm

theorem lexFrom_laid : ∀ (fuel : ℕ) (before : Option UInt16) (front rest : Source) (tokens : List Token),
    lexFrom true fuel before (place front) rest = some (.ok tokens) → Laid front rest tokens := by
  intro fuel
  induction fuel with
  | zero => nofun
  | succ fuel ih =>
    intro before front rest tokens h
    cases rest with
    | nil =>
      cases h
      exact .done front [] fun c hc => absurd hc List.not_mem_nil
    | cons c rest =>
      cases hscan : scan before (place front).2 c rest with
      | error message =>
        rw [lexFrom_error hscan] at h
        cases h
      | ok scanned =>
        rcases scan_spec hscan with ⟨rfl,hc⟩ | ⟨kind,value,tail,rfl,htext,hform⟩
        · rw [lexFrom_cons hscan (show c :: rest = [c] ++ rest from rfl) rfl,← place_append] at h
          exact (ih _ _ _ _ h).blank hc
        · rw [lexFrom_cons hscan htext rfl,← place_append] at h
          dsimp only at h
          rw [if_neg fun h : kind = .comment ∧ true = false => Bool.noConfusion h.2] at h
          obtain ⟨r,hr,hmap⟩ := Option.map_eq_some_iff.mp h
          cases r with
          | error e => cases hmap
          | ok behind =>
            obtain rfl := Except.ok.inj hmap
            rw [htext]
            have hlaid := ih _ _ _ _ hr
            have h := Laid.token front [] kind value tail behind (fun c hc => absurd hc List.not_mem_nil) hform
            rw [List.append_nil,List.nil_append] at h
            exact h hlaid

theorem Laid.wellFormed (h : Laid front rest tokens) : ∀ t ∈ tokens, WellFormed t.kind t.value := by
  induction h with
  | done => nofun
  | token front gap kind value rest tokens hgap hform hrest ih =>
    intro t ht
    rcases List.mem_cons.mp ht with rfl | ht
    · exact hform
    · exact ih t ht

def printed (tokens : List Token) : Source := tokens.flatMap fun t => unit ' ' :: spell t.kind t.value

def bare (t : Token) : TokenKind × Source := (t.kind,t.value)

theorem printed_ends (tokens : List Token) : Ends (printed tokens) := by
  cases tokens with
  | nil => exact .inl rfl
  | cons t tokens => exact .inr ⟨_,rfl⟩

theorem lexFrom_printed (tokens : List Token) (hform : ∀ t ∈ tokens, t.kind ≠ .comment ∧ WellFormed t.kind t.value) :
    ∀ (fuel : ℕ) (before : Option UInt16) (at_ : ℕ × ℕ), (printed tokens).length < fuel → 1 ≤ at_.2 →
      ∃ again, lexFrom comments fuel before at_ (printed tokens) = some (.ok again) ∧
        again.map bare = tokens.map bare := by
  induction tokens with
  | nil =>
    intro fuel before at_ hfuel _
    obtain ⟨fuel,rfl⟩ := Nat.exists_eq_succ_of_ne_zero (Nat.ne_of_gt (Nat.lt_of_le_of_lt (Nat.zero_le _) hfuel))
    exact ⟨[],rfl,rfl⟩
  | cons t tokens ih =>
    intro fuel before at_ hfuel hcol
    obtain ⟨hkind,ht⟩ := hform t List.mem_cons_self
    have hprinted : printed (t :: tokens) = unit ' ' :: (spell t.kind t.value ++ printed tokens) := rfl
    have hlength := List.length_pos_iff_ne_nil.mpr (spell_ne_nil ht)
    rw [hprinted,List.length_cons,List.length_append] at hfuel
    obtain ⟨n,rfl⟩ : ∃ n, fuel = n + 1 + 1 := ⟨fuel - 2,by omega⟩
    have hblank : scan before at_.2 (unit ' ') (spell t.kind t.value ++ printed tokens) = .ok ⟨none,1⟩ := if_pos rfl
    have hcol' : (advance at_ [unit ' ']).2 ≠ 1 := by
      change at_.2 + 1 ≠ 1
      omega
    obtain ⟨c,rest,hspell,hscan⟩ := scan_spell ht hkind hcol' (printed_ends tokens)
    have htext : c :: (rest ++ printed tokens) = spell t.kind t.value ++ printed tokens := by
      rw [hspell]
      rfl
    obtain ⟨again,hagain,hbare⟩ := ih (fun u hu => hform u (List.mem_cons_of_mem _ hu)) n
      ((spell t.kind t.value).getLast?.or (some (unit ' '))) (advance (advance at_ [unit ' ']) (spell t.kind t.value))
      (by omega) (advance_col (advance_col hcol _) _)
    rw [hprinted,lexFrom_cons hblank (show unit ' ' :: (spell t.kind t.value ++ printed tokens) =
      [unit ' '] ++ (spell t.kind t.value ++ printed tokens) from rfl) rfl]
    dsimp only
    rw [← htext]
    change ∃ again, lexFrom comments (n + 1) (some (unit ' ')) (advance at_ [unit ' ']) (c :: (rest ++ printed tokens)) = _ ∧ _
    rw [lexFrom_cons hscan htext rfl]
    dsimp only
    rw [if_neg fun h => hkind h.1,hagain]
    exact ⟨_,rfl,congrArg (List.cons _) hbare⟩

theorem lex_string (text : Source) (comments : Bool) :
    lex (Quoted.wrap (unit '\'') text) comments = some (.ok [⟨.string,text,1,1⟩]) := by
  have hread := readString_double text (show startsWith (· == unit '\'') [] = false from rfl)
  have hscan : scan none 1 (unit '\'') (Quoted.double (unit '\'') text ++ [unit '\'']) =
      .ok ⟨some (.string,text),(Quoted.double (unit '\'') text).length + 1 + 1⟩ := by
    unfold scan
    rw [if_neg (by decide),if_neg fun h => absurd h.1 (by decide),if_neg fun h => absurd h.1 (by decide),
      if_neg fun h => absurd h.1 (by decide),if_pos rfl,hread]
  have htaken : (Quoted.double (unit '\'') text).length + 1 + 1 = (Quoted.wrap (unit '\'') text).length := by
    rw [Quoted.wrap,List.length_cons,List.length_append]
    rfl
  unfold lex
  change lexFrom comments ((Quoted.double (unit '\'') text ++ [unit '\'']).length + 1 + 1) none (1,1)
    (unit '\'' :: (Quoted.double (unit '\'') text ++ [unit '\''])) = _
  rw [lexFrom_cons hscan (List.append_nil _).symm htaken]
  dsimp only
  rw [if_neg fun h => by cases h.1]
  rfl

theorem lexer_lossless :
    (∀ (source : Source) (comments : Bool), (lex source comments).isSome = true) ∧
    (∀ (source : Source) (tokens : List Token), lex source true = some (.ok tokens) →
      Laid [] source tokens ∧
      lex source false = some (.ok (tokens.filter (·.kind ≠ .comment))) ∧
      ∀ comments, ∃ again, lex (printed (tokens.filter (·.kind ≠ .comment))) comments = some (.ok again) ∧
        again.map bare = (tokens.filter (·.kind ≠ .comment)).map bare) ∧
    ∀ (text : Source) (comments : Bool),
      lex (Quoted.wrap (unit '\'') text) comments = some (.ok [⟨.string,text,1,1⟩]) := by
  refine ⟨fun source comments => lexFrom_ends comments _ _ _ _ (Nat.lt_succ_self _),fun source tokens h => ?_,lex_string⟩
  have hlaid := lexFrom_laid (source.length + 1) none [] source tokens h
  refine ⟨hlaid,?_,fun comments => ?_⟩
  · have hfilter := lexFrom_filter (source.length + 1) none (1,1) source
    rw [show lexFrom true (source.length + 1) none (1,1) source = some (.ok tokens) from h] at hfilter
    exact hfilter
  · refine lexFrom_printed _ (fun t ht => ?_) _ _ _ (Nat.lt_succ_self _) le_rfl
    obtain ⟨hmem,hkind⟩ := List.mem_filter.mp ht
    exact ⟨of_decide_eq_true hkind,hlaid.wellFormed t hmem⟩

end loop

end OpenSteamgate.SqlScript
