import Mathlib.Data.List.TakeWhile
import OpenSteamgate.Gateway.Sentences

namespace OpenSteamgate.Gateway.Filter

variable {case : Case} {set : EntitySet} {nodes : List Node} {c d : Condition}
  {cs rest : List Char} {ts us : List Token}

structure Case.Ascii (case : Case) : Prop where
  upper : ∀ c : Char, c.toNat < 128 →
    case.upper (String.singleton c) = String.singleton c.toUpper
  lower : ∀ s : String, (∀ c ∈ s.toList, c.toNat < 128) →
    case.lower s = String.ofList (s.toList.map Char.toLower)

section Print

def double (value : List Char) : List Char :=
  value.flatMap fun c => if c = '\'' then ['\'','\''] else [c]

def literal (value : String) : List Char := '\'' :: (double value.toList ++ ['\''])

def grouped (inner : Bool) (cs : List Char) : List Char :=
  if inner then '(' :: (cs ++ [')']) else cs

def printAt : Level → Condition → List Char
  | _,.cmp property op value => property.toList ++ ' ' :: (op.toList ++ ' ' :: literal value)
  | _,.fn property name value =>
    if name = "substringof" then
      name.toList ++ '(' :: (literal value ++ ',' :: (property.toList ++ [')']))
    else name.toList ++ '(' :: (property.toList ++ ',' :: (literal value ++ [')']))
  | _,.not c => "not".toList ++ ' ' :: printAt .unary c
  | level,.or l r =>
    grouped (level ≠ .or) (printAt .or l ++ ' ' :: ("or".toList ++ ' ' :: printAt .and r))
  | level,.and l r =>
    grouped (level = .unary) (printAt .and l ++ ' ' :: ("and".toList ++ ' ' :: printAt .unary r))

def print (c : Condition) : String := String.ofList (printAt .or c)

def Word (case : Case) (name : String) : Prop :=
  ∃ c cs, name.toList = c :: cs ∧ (letter case c ∨ c = '_' ∨ c = '$') ∧
    ∀ d ∈ cs, identChar case d

def Property (case : Case) (set : EntitySet) (name : String) : Prop :=
  Word case name ∧ name ∈ set.properties ∧
    ∀ p ∈ set.properties, case.upper p = case.upper name → p = name

def Condition.Printable (case : Case) (set : EntitySet) : Condition → Prop
  | .cmp property op _ => Property case set property ∧ case.lower property ≠ "not" ∧
      comparison op
  | .fn property name _ => Property case set property ∧
      name ∈ ["startswith","endswith","substringof"]
  | .not c => c.Printable case set
  | .or l r => l.Printable case set ∧ r.Printable case set
  | .and l r => l.Printable case set ∧ r.Printable case set

end Print

section Words

theorem letter_ascii (hcase : case.Ascii) {c : Char} (h : c.toNat < 128) :
    letter case c = decide (c.toUpper ∈ "ABCDEFGHIJKLMNOPQRSTUVWXYZ".toList) := by
  rw [letter,hcase.upper c h,String.toList_singleton]
  simp

theorem not_letter (hcase : case.Ascii) :
    ∀ c ∈ " (),'-0123456789".toList, letter case c = false := by
  intro c hc
  have hascii : ∀ c ∈ " (),'-0123456789".toList, c.toNat < 128 ∧
      c.toUpper ∉ "ABCDEFGHIJKLMNOPQRSTUVWXYZ".toList := by simp
  rw [letter_ascii hcase (hascii c hc).1]
  exact decide_eq_false (hascii c hc).2

def breaks : List Char := [' ','(',')',',']

def Break (rest : List Char) : Prop := ∀ c ∈ rest.head?, c ∈ breaks

def Scans (case : Case) (cs : List Char) (ts : List Token) : Prop :=
  ∀ rest, Break rest → ∀ len us, (∀ n, Yields (tokenizeFrom case len n rest) us) →
    ∀ n, Yields (tokenizeFrom case len n (cs ++ rest)) (ts ++ us)

theorem Yields.map {α β : Type} {x : Except Raise α} {a : α} (f : α → β) (h : Yields x a) :
    Yields (x.map f) (f a) := by
  rcases h with rfl | rfl
  · exact yields_ok _
  · exact yields_fuel _

theorem scans_blank (h : Scans case cs ts) : Scans case (' ' :: cs) ts := by
  intro rest hrest len us hus n
  cases n with
  | zero => exact yields_fuel _
  | succ n => exact h rest hrest len us hus n

theorem scans_open (h : Scans case cs ts) : Scans case ('(' :: cs) (⟨.lparen,""⟩ :: ts) := by
  intro rest hrest len us hus n
  cases n with
  | zero => exact yields_fuel _
  | succ n => exact (h rest hrest len us hus n).map _

theorem scans_comma (h : Scans case cs ts) : Scans case (',' :: cs) (⟨.comma,""⟩ :: ts) := by
  intro rest hrest len us hus n
  cases n with
  | zero => exact yields_fuel _
  | succ n => exact (h rest hrest len us hus n).map _

theorem scans_close : Scans case [')'] [⟨.rparen,""⟩] := by
  intro rest hrest len us hus n
  cases n with
  | zero => exact yields_fuel _
  | succ n => exact (hus n).map _

theorem Scans.append {c : Char} (ha : Scans case cs ts) (hb : Scans case (c :: rest) us)
    (hc : c ∈ breaks) : Scans case (cs ++ c :: rest) (ts ++ us) := by
  intro after hafter len vs hvs n
  rw [List.append_assoc,List.append_assoc]
  refine ha _ ?_ len _ (hb after hafter len vs hvs) n
  intro d hd
  obtain rfl := Option.some.inj hd
  exact hc

theorem quoted_double (value : List Char) (hrest : Break rest) :
    quoted (double value ++ '\'' :: rest) = (value,rest) := by
  induction value with
  | nil =>
    cases rest with
    | nil => rfl
    | cons d ds =>
      have hd : d ≠ '\'' := fun h => absurd (hrest d rfl) (by rw [h]; decide)
      change quoted ('\'' :: d :: ds) = _
      rw [quoted]
      · simp
      · exact fun _ h => hd (List.cons.inj h).1
  | cons c cs ih =>
    by_cases hc : c = '\''
    · subst hc
      change quoted ('\'' :: '\'' :: (double cs ++ '\'' :: rest)) = _
      rw [quoted,ih]
    · have hdouble : double (c :: cs) = c :: double cs := by
        rw [double,List.flatMap_cons,if_neg hc]
        rfl
      rw [hdouble,List.cons_append,quoted,ih]
      · exact fun h _ => hc h
      · exact fun _ h _ => hc h
      · exact hc

theorem scans_literal (value : String) :
    Scans case (literal value) [⟨.string,value⟩] := by
  intro rest hrest len us hus n
  cases n with
  | zero => exact yields_fuel _
  | succ n =>
    have hquoted : quoted (double value.toList ++ ['\''] ++ rest) = (value.toList,rest) := by
      rw [List.append_assoc]
      exact quoted_double _ hrest
    rw [literal,List.cons_append,tokenizeFrom]
    simp only [hquoted,String.ofList_toList,Char.reduceEq,if_false,if_true]
    exact (hus n).map _

theorem breaks_ident (hcase : case.Ascii) : ∀ c ∈ breaks,identChar case c = false := by
  intro c hc
  have hletter : letter case c = false := by
    have hsub : ∀ c ∈ breaks, c ∈ " (),'-0123456789".toList := by simp [breaks]
    exact not_letter hcase c (hsub c hc)
  have hother : ∀ c ∈ breaks,
      (digit c || c == '_' || c == '.' || c == '/' || c == '$') = false := by
    simp [breaks,digit]
  rw [identChar,hletter,Bool.false_or]
  exact hother c hc

theorem takeWhile_ident (hcase : case.Ascii) (hcs : ∀ c ∈ cs,identChar case c) (hrest : Break rest) :
    (cs ++ rest).takeWhile (identChar case) = cs ∧ (cs ++ rest).dropWhile (identChar case) = rest := by
  rw [List.takeWhile_append_of_pos hcs,List.dropWhile_append_of_pos hcs]
  cases rest with
  | nil => simp
  | cons d ds =>
    have hd : identChar case d = false := breaks_ident hcase d (hrest d rfl)
    simp [hd]

theorem identToken_break (hrest : Break rest) (name : List Char) :
    identToken case name rest = (⟨.ident,String.ofList name⟩,rest) := by
  unfold identToken
  split
  · exact absurd (hrest '\'' rfl) (by decide)
  · rfl

theorem scans_word (hcase : case.Ascii) {name : String} (h : Word case name) :
    Scans case name.toList [⟨.ident,name⟩] := by
  obtain ⟨c,cs,hname,hc,hcs⟩ := h
  intro rest hrest len us hus n
  rw [hname]
  cases n with
  | zero => exact yields_fuel _
  | succ n =>
    have hother : ∀ d ∈ " (),'-0123456789".toList, c ≠ d := by
      rintro d hd rfl
      have hnot : ∀ c ∈ " (),'-0123456789".toList, ¬(c = '_' ∨ c = '$') := by simp
      exact hnot c hd (hc.resolve_left (by rw [not_letter hcase c hd]; exact nofun))
    have hdigit : ¬(digit c || c == '-') = true := by
      intro h
      have hmem : c ∈ " (),'-0123456789".toList := by
        rw [Bool.or_eq_true,digit,decide_eq_true_eq,beq_iff_eq] at h
        rcases h with h | rfl
        · have hsub : ∀ d ∈ ['0','1','2','3','4','5','6','7','8','9'],
              d ∈ " (),'-0123456789".toList := by simp
          exact hsub c h
        · simp
      exact hother c hmem rfl
    have hfirst : (letter case c || c == '_' || c == '$') = true := by
      simpa [or_assoc] using hc
    obtain ⟨htake,hdrop⟩ := takeWhile_ident hcase hcs hrest
    rw [List.cons_append,tokenizeFrom]
    simp only [if_neg (hother ' ' (by decide)),if_neg (hother '(' (by decide)),
      if_neg (hother ')' (by decide)),if_neg (hother ',' (by decide)),
      if_neg (hother '\'' (by decide)),if_neg hdigit,if_pos hfirst,htake,hdrop,
      identToken_break hrest]
    rw [← hname,String.ofList_toList]
    exact (hus n).map _

theorem word_lower (hcase : case.Ascii) {c : Char} {cs : List Char} {name : String}
    (hname : name.toList = c :: cs)
    (hletters : ∀ d ∈ c :: cs, d ∈ "abcdefghijklmnopqrstuvwxyz".toList) : Word case name := by
  have hletter (d : Char) (hd : d ∈ c :: cs) : letter case d = true := by
    have hall : ∀ d ∈ "abcdefghijklmnopqrstuvwxyz".toList, d.toNat < 128 ∧
        d.toUpper ∈ "ABCDEFGHIJKLMNOPQRSTUVWXYZ".toList := by simp
    obtain ⟨hascii,hupper⟩ := hall d (hletters d hd)
    rw [letter_ascii hcase hascii]
    exact decide_eq_true hupper
  refine ⟨c,cs,hname,.inl (hletter c List.mem_cons_self),fun d hd => ?_⟩
  rw [identChar,hletter d (List.mem_cons_of_mem _ hd)]
  rfl

theorem lower_letters (hcase : case.Ascii) {name : String}
    (hletters : ∀ d ∈ name.toList, d ∈ "abcdefghijklmnopqrstuvwxyz".toList) :
    case.lower name = name := by
  have hall : ∀ d ∈ "abcdefghijklmnopqrstuvwxyz".toList, d.toNat < 128 ∧ d.toLower = d := by
    simp
  rw [hcase.lower name fun d hd => (hall d (hletters d hd)).1]
  rw [List.map_congr_left fun d hd => (hall d (hletters d hd)).2]
  simp

end Words

section RoundTrip

@[grind =] def tokensAt : Level → Condition → List Token
  | _,.cmp property op value => [⟨.ident,property⟩,⟨.ident,op⟩,⟨.string,value⟩]
  | _,.fn property name value =>
    if name = "substringof" then
      [⟨.ident,name⟩,⟨.lparen,""⟩,⟨.string,value⟩,⟨.comma,""⟩,⟨.ident,property⟩,⟨.rparen,""⟩]
    else [⟨.ident,name⟩,⟨.lparen,""⟩,⟨.ident,property⟩,⟨.comma,""⟩,⟨.string,value⟩,⟨.rparen,""⟩]
  | _,.not c => ⟨.ident,"not"⟩ :: tokensAt .unary c
  | level,.or l r =>
    let ts := tokensAt .or l ++ ⟨.ident,"or"⟩ :: tokensAt .and r
    if level ≠ .or then ⟨.lparen,""⟩ :: ts ++ [⟨.rparen,""⟩] else ts
  | level,.and l r =>
    let ts := tokensAt .and l ++ ⟨.ident,"and"⟩ :: tokensAt .unary r
    if level = .unary then ⟨.lparen,""⟩ :: ts ++ [⟨.rparen,""⟩] else ts

theorem scans_grouped (inner : Bool) (h : Scans case cs ts) :
    Scans case (grouped inner cs) (if inner then ⟨.lparen,""⟩ :: ts ++ [⟨.rparen,""⟩] else ts) := by
  cases inner with
  | false => exact h
  | true => exact scans_open (h.append scans_close (by decide))

def keywords : List String :=
  ["or","and","not","eq","ne","gt","ge","lt","le","startswith","endswith","substringof"]

theorem scans_keyword (hcase : case.Ascii) (word : String)
    (hword : word ∈ keywords) : Scans case word.toList [⟨.ident,word⟩] ∧ case.lower word = word := by
  have hall : ∀ word ∈ keywords, word.toList ≠ [] ∧
      ∀ d ∈ word.toList, d ∈ "abcdefghijklmnopqrstuvwxyz".toList := by simp [keywords]
  obtain ⟨hne,hletters⟩ := hall word hword
  obtain ⟨c,cs,hname⟩ := List.exists_cons_of_ne_nil hne
  exact ⟨scans_word hcase (word_lower hcase hname (hname ▸ hletters)),lower_letters hcase hletters⟩

theorem scans_print (hcase : case.Ascii) (level : Level) (h : c.Printable case set) :
    Scans case (printAt level c) (tokensAt level c) := by
  induction c generalizing level with
  | cmp property op value =>
    obtain ⟨⟨hproperty,_⟩,_,hop⟩ := h
    have hop : Scans case op.toList [⟨.ident,op⟩] := by
      have hwords : ∀ op ∈ ["eq","ne","gt","ge","lt","le"], op ∈ keywords := by decide
      exact (scans_keyword hcase op (hwords op (of_decide_eq_true hop))).1
    have hvalue := hop.append (scans_blank (scans_literal value)) (by decide)
    exact (scans_word hcase hproperty).append (scans_blank hvalue) (by decide)
  | fn property name value =>
    obtain ⟨⟨hproperty,_⟩,hname⟩ := h
    have hwords : ∀ name ∈ ["startswith","endswith","substringof"], name ∈ keywords := by decide
    have hname := (scans_keyword hcase name (hwords name hname)).1
    have hproperty := scans_word hcase hproperty
    rw [printAt,tokensAt]
    split
    · have hlast := hproperty.append scans_close (by decide)
      have hargs := (scans_literal value).append (scans_comma hlast) (by decide)
      exact hname.append (scans_open hargs) (by decide)
    · have hliteral : Scans case (literal value) [⟨.string,value⟩] := scans_literal value
      have hlast := hliteral.append scans_close (by decide)
      have hargs := hproperty.append (scans_comma hlast) (by decide)
      exact hname.append (scans_open hargs) (by decide)
  | not c ih =>
    have hnot := (scans_keyword hcase "not" (by decide)).1
    exact hnot.append (scans_blank (ih .unary h)) (by decide)
  | or l r ihl ihr =>
    have hor := (scans_keyword hcase "or" (by decide)).1
    have hright := hor.append (scans_blank (ihr .and h.2)) (by decide)
    have hboth := (ihl .or h.1).append (scans_blank hright) (by decide)
    have hgrouped := scans_grouped (level ≠ .or) hboth
    rw [printAt,tokensAt]
    simpa using hgrouped
  | and l r ihl ihr =>
    have hand := (scans_keyword hcase "and" (by decide)).1
    have hright := hand.append (scans_blank (ihr .unary h.2)) (by decide)
    have hboth := (ihl .and h.1).append (scans_blank hright) (by decide)
    have hgrouped := scans_grouped (level = .unary) hboth
    rw [printAt,tokensAt]
    simpa using hgrouped

theorem findProperty_self {name : String} (h : Property case set name) :
    findProperty case set name = .ok name := by
  obtain ⟨_,hmem,hunique⟩ := h
  rw [findProperty]
  cases hfind : set.properties.find? fun p => case.upper p == case.upper name with
  | none =>
    have := List.find?_eq_none.mp hfind name hmem
    exact (this (beq_self_eq_true _)).elim
  | some p =>
    have hp := List.find?_some hfind
    rw [hunique p (List.mem_of_find?_eq_some hfind) (beq_iff_eq.mp hp)]

theorem Sentence.at_or {level : Level} (h : Sentence case set level c ts) :
    Sentence case set .or c ts := by
  cases level with
  | or => exact h
  | and => exact .conjunction h
  | unary => exact .conjunction (.operand h)

theorem Sentence.of_unary (level : Level) (h : Sentence case set .unary c ts) :
    Sentence case set level c ts := by
  cases level with
  | or => exact .conjunction (.operand h)
  | and => exact .operand h
  | unary => exact h

theorem keyword_word (hcase : case.Ascii) (word : String)
    (hword : word ∈ keywords) : keyword case ⟨.ident,word⟩ word = true :=
  keyword_iff.mpr ⟨rfl,(scans_keyword hcase word hword).2⟩

theorem sentence_print (hcase : case.Ascii) (level : Level) (h : c.Printable case set) :
    Sentence case set level c (tokensAt level c) := by
  induction c generalizing level with
  | cmp property op value =>
    obtain ⟨hproperty,hnot,hop⟩ := h
    have hlower : case.lower op = op := by
      have hwords : ∀ op ∈ ["eq","ne","gt","ge","lt","le"], op ∈ keywords := by decide
      exact (scans_keyword hcase op (hwords op (of_decide_eq_true hop))).2
    have hcomparison : comparison (case.lower op) = true := by rw [hlower]; exact hop
    have hatom := @Atom.comparison case set ⟨.ident,property⟩ ⟨.ident,op⟩ ⟨.string,value⟩ property
      value rfl (fun h => hnot (keyword_iff.mp h).2) (findProperty_self hproperty) rfl
      hcomparison rfl
    rw [hlower] at hatom
    exact .of_unary level (.atom hatom)
  | fn property name value =>
    obtain ⟨hproperty,hname⟩ := h
    have hwords : ∀ name ∈ ["startswith","endswith","substringof"], name ∈ keywords := by decide
    have hlower := (scans_keyword hcase name (hwords name hname)).2
    refine .of_unary level (.atom ?_)
    rw [tokensAt]
    split
    · rename_i hcontained
      subst hcontained
      exact .contained rfl hlower rfl rfl rfl (findProperty_self hproperty) rfl
    · rename_i hcontained
      have haffix : case.lower name = "startswith" ∨ case.lower name = "endswith" := by
        rw [hlower]
        simp only [List.mem_cons,List.not_mem_nil,or_false] at hname
        rcases hname with hname | hname | hname
        · exact .inl hname
        · exact .inr hname
        · exact (hcontained hname).elim
      have hatom := @Atom.affix case set ⟨.ident,name⟩ ⟨.lparen,""⟩ ⟨.ident,property⟩
        ⟨.comma,""⟩ ⟨.string,value⟩ ⟨.rparen,""⟩ property value rfl haffix rfl
        (findProperty_self hproperty) rfl rfl rfl
      rw [hlower] at hatom
      exact hatom
  | not c ih =>
    exact .of_unary level (.not (keyword_word hcase "not" (by decide)) (ih .unary h))
  | or l r ihl ihr =>
    have hor := Sentence.or (ihl .or h.1) (keyword_word hcase "or" (by decide))
      (ihr .and h.2)
    rw [tokensAt]
    split
    · exact .of_unary level (.group rfl hor rfl)
    · rename_i hlevel
      rw [not_not.mp hlevel]
      exact hor
  | and l r ihl ihr =>
    have hand := Sentence.and (ihl .and h.1) (keyword_word hcase "and" (by decide))
      (ihr .unary h.2)
    rw [tokensAt]
    split
    · exact .of_unary level (.group rfl hand.at_or rfl)
    · rename_i hlevel
      cases level with
      | or => exact .conjunction hand
      | and => exact hand
      | unary => exact (hlevel rfl).elim

theorem tokenize_print (hcase : case.Ascii) (h : c.Printable case set) :
    tokenize case (print c) = .ok (tokensAt .or c) := by
  refine Yields.eq_ok ?_ (tokenize_lasts _)
  have hscan := scans_print hcase .or h [] nofun (print c).toList.length [] fun n => by
    cases n with
    | zero => exact yields_ok _
    | succ n => exact yields_ok _
  rw [List.append_nil,List.append_nil] at hscan
  rw [tokenize,print,String.toList_ofList] at *
  exact hscan _

theorem parse_print (hcase : case.Ascii) (h : c.Printable case set) :
    ∃ nodes,tokenize case (print c) >>= parseTree case set = .ok nodes ∧
      ∀ d,Represents nodes nodes.length d ↔ d = c := by
  obtain ⟨nodes,hparse,hc⟩ := parseTree_complete (sentence_print hcase .or h)
  refine ⟨nodes,bind_ok (tokenize_print hcase h) hparse,fun d => ⟨fun hd => hd.unique hc,?_⟩⟩
  rintro rfl
  exact hc

end RoundTrip

section Unclosed

def Unclosed (cs : List Char) : Prop := cs.count '\'' % 2 = 1

def Closes (cs ds : List Char) : Prop :=
  cs = [] ∧ ds = [] ∨ Unclosed cs ∧ ds = cs ++ ['\'']

theorem quoted_closes (cs : List Char) (h : cs.count '\'' % 2 = 0) :
    (quoted (cs ++ ['\''])).1 = (quoted cs).1 ∧ Closes (quoted cs).2 (quoted (cs ++ ['\''])).2 := by
  induction cs using quoted.induct with
  | case1 => exact ⟨rfl,.inl ⟨rfl,rfl⟩⟩
  | case2 => exact absurd h (by decide)
  | case3 cs ih =>
    have heven : cs.count '\'' % 2 = 0 := by
      rw [List.count_cons_self,List.count_cons_self] at h
      omega
    obtain ⟨hvalue,hcloses⟩ := ih heven
    simp only [List.cons_append,quoted]
    exact ⟨by rw [hvalue],hcloses⟩
  | case4 cs hnil hnext =>
    have hodd : Unclosed cs := by
      rw [List.count_cons_self] at h
      rw [Unclosed]
      omega
    cases cs with
    | nil => exact (hnil rfl).elim
    | cons d ds =>
      have hd : d ≠ '\'' := fun hd => hnext ds (by rw [hd])
      have hquoted (rest : List Char) : quoted ('\'' :: d :: rest) = ([],d :: rest) := by
        rw [quoted]
        · rintro ⟨⟩
        · exact fun _ heq => hd (List.cons.inj heq).1
      simp only [List.cons_append]
      rw [hquoted,hquoted]
      exact ⟨rfl,.inr ⟨hodd,rfl⟩⟩
  | case5 c cs hlast hpair hclose ih =>
    have hc : c ≠ '\'' := hclose
    have heven : cs.count '\'' % 2 = 0 := by
      rwa [List.count_cons_of_ne hc] at h
    have hquoted (rest : List Char) : quoted (c :: rest) = (c :: (quoted rest).1,(quoted rest).2) := by
      rw [quoted]
      · exact fun h _ => hc h
      · exact fun _ h _ => hc h
      · exact hc
    obtain ⟨hvalue,hcloses⟩ := ih heven
    rw [List.cons_append,hquoted,hquoted]
    exact ⟨by rw [hvalue],hcloses⟩

theorem unclosed_cons {c : Char} (hc : c ≠ '\'') : Unclosed (c :: cs) ↔ Unclosed cs := by
  rw [Unclosed,Unclosed,List.count_cons_of_ne hc]

theorem unclosed_quote : Unclosed ('\'' :: cs) ↔ cs.count '\'' % 2 = 0 := by
  rw [Unclosed,List.count_cons_self]
  omega

theorem unclosed_dropWhile {p : Char → Bool} (hp : p '\'' = false) :
    Unclosed (cs.dropWhile p) ↔ Unclosed cs := by
  induction cs with
  | nil => rfl
  | cons c cs ih =>
    rw [List.dropWhile_cons]
    split
    · rename_i hc
      have hne : c ≠ '\'' := fun h => by rw [h,hp] at hc; exact nomatch hc
      rw [ih,unclosed_cons hne]
    · rfl

theorem takeWhile_quote {p : Char → Bool} (hp : p '\'' = false) (cs : List Char) :
    (cs ++ ['\'']).takeWhile p = cs.takeWhile p := by
  induction cs with
  | nil => simp [hp]
  | cons c cs ih =>
    rw [List.cons_append,List.takeWhile_cons,List.takeWhile_cons,ih]

theorem dropWhile_quote {p : Char → Bool} (hp : p '\'' = false) (cs : List Char) :
    (cs ++ ['\'']).dropWhile p = cs.dropWhile p ++ ['\''] := by
  induction cs with
  | nil => simp [hp]
  | cons c cs ih =>
    rw [List.cons_append,List.dropWhile_cons,List.dropWhile_cons,ih]
    split <;> rfl

theorem unclosed_typed (cs : List Char) (h : cs.count '\'' % 2 = 0) :
    Closes ((cs.dropWhile (· ≠ '\'')).drop 1) (((cs ++ ['\'']).dropWhile (· ≠ '\'')).drop 1) := by
  have hp : decide ('\'' ≠ '\'') = false := by decide
  rw [dropWhile_quote hp]
  cases hdrop : cs.dropWhile (· ≠ '\'') with
  | nil => exact .inl ⟨rfl,rfl⟩
  | cons d ds =>
    have hd : d = '\'' := by
      have hhead := List.head?_dropWhile_not (· ≠ '\'') cs
      rw [hdrop] at hhead
      simpa using hhead
    subst hd
    refine .inr ⟨?_,rfl⟩
    have hrest : ¬Unclosed ('\'' :: ds) := by
      rw [← hdrop,unclosed_dropWhile hp,Unclosed,h]
      decide
    rw [unclosed_quote] at hrest
    rw [Unclosed,List.drop_one,List.tail_cons]
    omega

theorem identToken_closes (name : List Char) (h : Unclosed rest) :
    (identToken case name (rest ++ ['\''])).1 = (identToken case name rest).1 ∧
      Closes (identToken case name rest).2 (identToken case name (rest ++ ['\''])).2 := by
  cases rest with
  | nil => exact nomatch (show 0 % 2 = 1 from h)
  | cons d ds =>
    by_cases hd : d = '\''
    · subst hd
      refine ⟨?_,unclosed_typed ds ((unclosed_quote).mp h)⟩
      have htake := takeWhile_quote (p := (· ≠ '\'')) (by decide) ds
      simp only [identToken,List.cons_append,htake]
    · have hident (cs : List Char) :
          identToken case name (d :: cs) = (⟨.ident,String.ofList name⟩,d :: cs) := by
        unfold identToken
        split
        · rename_i heq
          exact (hd (List.cons.inj heq).1).elim
        · rfl
      rw [List.cons_append,hident,hident]
      exact ⟨rfl,.inr ⟨h,rfl⟩⟩

theorem map_token {x y : Except Raise (List Token)} {t u : Token} (h : u = t) (hxy : y = x) :
    y.map (u :: ·) = x.map (t :: ·) := by
  rw [h,hxy]

theorem tokenizeFrom_nil (len n : Nat) : tokenizeFrom case len n [] = .ok [] := by
  cases n <;> rfl

theorem tokenizeFrom_unclosed (hcase : case.Ascii) (len : Nat) (n m : Nat) (cs : List Char)
    (h : Unclosed cs) (hn : cs.length ≤ n) (hm : cs.length < m) :
    tokenizeFrom case (len + 1) m (cs ++ ['\'']) = tokenizeFrom case len n cs := by
  induction n generalizing m cs with
  | zero =>
    obtain rfl := List.length_eq_zero_iff.mp (Nat.le_zero.mp hn)
    exact nomatch (show 0 % 2 = 1 from h)
  | succ n ih =>
    have hident : identChar case '\'' = false := by
      have hletter := not_letter hcase '\'' (by decide)
      rw [identChar,hletter]
      decide
    have hnumber : numberChar '\'' = false := by decide
    cases cs with
    | nil => exact nomatch (show 0 % 2 = 1 from h)
    | cons c cs =>
      obtain ⟨m,rfl⟩ := Nat.exists_eq_add_one.mpr (Nat.zero_lt_of_lt hm)
      have hcs : cs.length ≤ n := Nat.le_of_succ_le_succ hn
      have hms : cs.length < m := Nat.lt_of_succ_lt_succ hm
      have hrest {ds es : List Char} (hle : ds.length ≤ cs.length) (hcloses : Closes ds es) :
          tokenizeFrom case (len + 1) m es = tokenizeFrom case len n ds := by
        rcases hcloses with ⟨rfl,rfl⟩ | ⟨hds,rfl⟩
        · rw [tokenizeFrom_nil,tokenizeFrom_nil]
        · exact ih m ds hds (hle.trans hcs) (Nat.lt_of_le_of_lt hle hms)
      have hdrop {p : Char → Bool} (hp : p '\'' = false) (hc : c ≠ '\'') :
          Closes (cs.dropWhile p) ((cs ++ ['\'']).dropWhile p) :=
        .inr ⟨(unclosed_dropWhile hp).mpr ((unclosed_cons hc).mp h),dropWhile_quote hp cs⟩
      rw [List.cons_append,tokenizeFrom,tokenizeFrom]
      simp only
      by_cases hquote : c = '\''
      · subst hquote
        obtain ⟨hvalue,hcloses⟩ := quoted_closes cs ((unclosed_quote).mp h)
        simp only [Char.reduceEq,if_false,if_true,hvalue]
        exact map_token rfl (hrest (quoted_length cs) hcloses)
      · have hsame := hrest (Nat.le_refl _) (.inr ⟨(unclosed_cons hquote).mp h,rfl⟩)
        rw [takeWhile_quote hnumber,takeWhile_quote hident]
        split
        · exact hsame
        split
        · exact map_token rfl hsame
        split
        · exact map_token rfl hsame
        split
        · exact map_token rfl hsame
        split
        · exact map_token rfl (hrest (List.dropWhile_sublist _).length_le (hdrop hnumber hquote))
        split
        · rw [dropWhile_quote hident]
          have hodd : Unclosed (cs.dropWhile (identChar case)) :=
            (unclosed_dropWhile hident).mpr ((unclosed_cons hquote).mp h)
          obtain ⟨htoken,hcloses⟩ := @identToken_closes case _
            (c :: cs.takeWhile (identChar case)) hodd
          refine map_token htoken (hrest ?_ hcloses)
          exact (identToken_length _ _).trans (List.dropWhile_sublist _).length_le
        · rw [List.length_append]
          simp

theorem tokenize_unclosed (hcase : case.Ascii) (filter : String) (h : Unclosed filter.toList) :
    tokenize case (filter ++ "'") = tokenize case filter := by
  have hlist : (filter ++ "'").toList = filter.toList ++ ['\''] := String.toList_append
  have hlength : (filter ++ "'").toList.length = filter.toList.length + 1 := by
    rw [hlist,List.length_append]
    rfl
  rw [tokenize,tokenize,hlength,hlist]
  exact tokenizeFrom_unclosed hcase _ _ _ _ h (Nat.le_refl _) (Nat.lt_succ_self _)

theorem identToken_kind (name rest : List Char) : (identToken case name rest).1.kind ≠ .done := by
  unfold identToken
  split
  · exact nofun
  · exact nofun

theorem tokenizeFrom_kind (len n : Nat) (cs : List Char) (ts : List Token)
    (h : tokenizeFrom case len n cs = .ok ts) : ∀ t ∈ ts,t.kind ≠ .done := by
  induction n generalizing cs ts with
  | zero =>
    cases cs with
    | nil =>
      obtain rfl := Except.ok.inj h
      exact List.forall_mem_nil _
    | cons c cs => cases h
  | succ n ih =>
    cases cs with
    | nil =>
      obtain rfl := Except.ok.inj h
      exact List.forall_mem_nil _
    | cons c cs =>
      have htoken {t : Token} {rest : List Char} (ht : t.kind ≠ .done)
          (h : (tokenizeFrom case len n rest).map (t :: ·) = .ok ts) :
          ∀ t ∈ ts,t.kind ≠ .done := by
        obtain ⟨us,hus,rfl⟩ := map_eq_ok h
        exact List.forall_mem_cons.mpr ⟨ht,ih rest us hus⟩
      rw [tokenizeFrom] at h
      simp only at h
      split at h
      · exact ih cs ts h
      split at h
      · refine htoken ?_ h
        rintro ⟨⟩
      split at h
      · refine htoken ?_ h
        rintro ⟨⟩
      split at h
      · refine htoken ?_ h
        rintro ⟨⟩
      split at h
      · refine htoken ?_ h
        rintro ⟨⟩
      split at h
      · refine htoken ?_ h
        rintro ⟨⟩
      split at h
      · exact htoken (identToken_kind _ _) h
      · cases h

theorem tokenize_kind {filter : String} (h : tokenize case filter = .ok ts) :
    ∀ t ∈ ts,t.kind ≠ .done :=
  tokenizeFrom_kind _ _ _ _ h

end Unclosed

def Raise.status : Raise → Nat
  | .badFilter _ => 400
  | .propertyNotFound _ => 400
  | .fuel => 0

def Rejected {α : Type} (x : Except Raise α) : Prop := ∃ e, x = .error e ∧ e.status = 400

def Filters (case : Case) (set : EntitySet) (filter : String) : Prop :=
  ∃ tokens c, tokenize case filter = .ok tokens ∧ Sentence case set .or c tokens

theorem rejected_iff {α : Type} {x : Except Raise α} (h : Lasts x) :
    Rejected x ↔ ∀ a,x ≠ .ok a := by
  cases x with
  | ok a =>
    constructor
    · rintro ⟨_,he,_⟩
      exact nomatch he
    · exact fun h => (h a rfl).elim
  | error e =>
    refine ⟨fun _ => nofun,fun _ => ⟨e,rfl,?_⟩⟩
    cases e with
    | badFilter _ => rfl
    | propertyNotFound _ => rfl
    | fuel => exact (h rfl).elim

theorem rejected_iff_filters (filter : String) :
    Rejected (tokenize case filter >>= parseTree case set) ↔ ¬Filters case set filter := by
  have hlasts : Lasts (tokenize case filter >>= parseTree case set) :=
    lasts_bind (tokenize_lasts _) fun tokens _ => parseTree_lasts tokens
  rw [rejected_iff hlasts]
  constructor
  · rintro h ⟨tokens,c,htokens,hc⟩
    obtain ⟨nodes,hnodes,_⟩ := parseTree_complete hc
    exact h nodes (bind_ok htokens hnodes)
  · intro h nodes hnodes
    obtain ⟨tokens,htokens,hnodes⟩ := bind_eq_ok hnodes
    obtain ⟨c,hc⟩ := parseTree_sentence (tokenize_kind htokens) hnodes
    exact h ⟨tokens,c,htokens,hc⟩

theorem filter_round_trip (case : Case) (set : EntitySet) (hcase : case.Ascii) :
    (∀ c : Condition, c.Printable case set →
      ∃ nodes, tokenize case (print c) >>= parseTree case set = .ok nodes ∧
        ∀ d, Represents nodes nodes.length d ↔ d = c) ∧
    (∀ filter nodes, tokenize case filter >>= parseTree case set = .ok nodes →
      ∃ c, ∀ d, Represents nodes nodes.length d ↔ d = c) ∧
    ∀ filter, (Unclosed filter.toList → Rejected (tokenize case filter >>= parseTree case set)) ↔
      ¬(Unclosed filter.toList ∧ Filters case set (filter ++ "'")) := by
  refine ⟨fun c hc => parse_print hcase hc,fun filter nodes h => ?_,fun filter => ?_⟩
  · obtain ⟨tokens,_,hnodes⟩ := bind_eq_ok h
    obtain ⟨c,hc⟩ := parseTree_represents hnodes
    refine ⟨c,fun d => ⟨fun hd => hd.unique hc,?_⟩⟩
    rintro rfl
    exact hc
  · rw [rejected_iff_filters,not_and]
    refine forall_congr' fun hopen => not_congr ?_
    rw [Filters,Filters,tokenize_unclosed hcase filter hopen]

theorem ascii_latin : latin.Ascii where
  upper c _ := by
    change String.ofList ((String.singleton c).toList.map Char.toUpper) = _
    rw [String.toList_singleton]
    rfl
  lower _ _ := rfl

theorem filter_round_trip_latin :
    ∃ nodes, tokenize latin "not P eq 'it''s' and P eq ' '" >>= parseTree latin items = .ok nodes ∧
      ∀ d, Represents nodes nodes.length d ↔
        d = .and (.not (.cmp "P" "eq" "it's")) (.cmp "P" "eq" " ") := by
  have hword : Word latin "P" := ⟨'P',[],rfl,.inl (by decide),nofun⟩
  have hproperty : Property latin items "P" := by
    refine ⟨hword,List.mem_singleton_self _,fun p hp _ => List.mem_singleton.mp hp⟩
  have hcmp (value : String) : (Condition.cmp "P" "eq" value).Printable latin items :=
    ⟨hproperty,by decide,by decide⟩
  exact (filter_round_trip latin items ascii_latin).1
    (.and (.not (.cmp "P" "eq" "it's")) (.cmp "P" "eq" " ")) ⟨hcmp "it's",hcmp " "⟩

def openNodes : List Node := [{kind := .cmp,property := "P",op := "eq",value := "x"}]

theorem unclosed_accepted :
    tokenize latin "P eq 'x" >>= parseTree latin items = .ok openNodes ∧
    ¬(Unclosed "P eq 'x".toList →
      Rejected (tokenize latin "P eq 'x" >>= parseTree latin items)) := by
  have htokens : tokenize latin "P eq 'x" =
      .ok [⟨.ident,"P"⟩,⟨.ident,"eq"⟩,⟨.string,"x"⟩] := rfl
  have hnodes := bind_ok (f := parseTree latin items) htokens (y := .ok openNodes) rfl
  refine ⟨hnodes,fun h => ?_⟩
  obtain ⟨e,he,_⟩ := h (by rw [Unclosed]; decide)
  exact nomatch hnodes.symm.trans he

end OpenSteamgate.Gateway.Filter
