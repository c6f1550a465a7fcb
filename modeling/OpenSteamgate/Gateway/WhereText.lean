import OpenSteamgate.Gateway.Entities
import OpenSteamgate.Library.Wildcard

namespace OpenSteamgate.Gateway.WhereText

open Wildcard

inductive Sign
  | i
  | e
  deriving DecidableEq

-- the options of a row; `other` is what no filter builds
inductive Opt
  | eq | ne | gt | ge | lt | le | bt | nb | cp | np | other

structure SelectOption where
  sign : Sign
  option : Opt
  low : Text
  high : Text := []

structure Filter where
  property : Text
  selectOptions : List SelectOption

section code

def sql_literal (iv_value : Text) : Text := Quoted.wrap '\'' iv_value

structure Pattern where
  pattern : Text := []
  hash : Bool := false
  escape : Bool := false

-- one turn of the DO over LOW
def Pattern.turn (p : Pattern) (c : Char) : Pattern :=
  if p.hash then
    if c = '%' ∨ c = '_' ∨ c = '#' then {pattern := p.pattern ++ ['#',c],hash := false,escape := true}
    else {p with pattern := p.pattern ++ [c],hash := false}
  else if c = '#' then {p with hash := true}
  else if c = '*' then {p with pattern := p.pattern ++ ['%']}
  else if c = '+' then {p with pattern := p.pattern ++ ['_']}
  else if c = '%' ∨ c = '_' then {p with pattern := p.pattern ++ ['#',c],escape := true}
  else {p with pattern := p.pattern ++ [c]}

def pattern (low : Text) : Pattern := low.foldl Pattern.turn {}

def like (iv_field low lv_like : Text) : Text :=
  let p := pattern low
  let clause := iv_field ++ " ".toList ++ lv_like ++ " ".toList ++ sql_literal p.pattern
  if p.escape then clause ++ " ESCAPE '#'".toList else clause

def compared (iv_field : Text) (operator : String) (low : Text) : Text :=
  iv_field ++ " ".toList ++ operator.toList ++ " ".toList ++ sql_literal low

def clause (iv_field : Text) (o : SelectOption) : Text :=
  match o.option with
  | .eq | .other => compared iv_field "=" o.low
  | .ne => compared iv_field "<>" o.low
  | .gt => compared iv_field ">" o.low
  | .ge => compared iv_field ">=" o.low
  | .lt => compared iv_field "<" o.low
  | .le => compared iv_field "<=" o.low
  | .bt => iv_field ++ " BETWEEN ".toList ++ sql_literal o.low ++ " AND ".toList ++ sql_literal o.high
  | .nb => iv_field ++ " NOT BETWEEN ".toList ++ sql_literal o.low ++ " AND ".toList ++ sql_literal o.high
  | .cp => like iv_field o.low "LIKE".toList
  | .np => like iv_field o.low "NOT LIKE".toList

def where_for_option (iv_field : Text) (o : SelectOption) : Text :=
  if o.sign = .e then "NOT ( ".toList ++ clause iv_field o ++ " )".toList else clause iv_field o

-- a clause behind the ones before it
def joined (separator acc text : Text) : Text := if acc = [] then text else acc ++ separator ++ text

def grouped (iv_field : Text) (acc : Text × Text) (o : SelectOption) : Text × Text :=
  if o.sign = .e then (acc.1,joined " AND ".toList acc.2 (where_for_option iv_field o))
  else (joined " OR ".toList acc.1 (where_for_option iv_field o),acc.2)

def group (iv_field : Text) (options : List SelectOption) : Text :=
  let r := options.foldl (grouped iv_field) ([],[])
  if r.1 ≠ [] ∧ r.2 ≠ [] then "( ".toList ++ r.1 ++ " ) AND ".toList ++ r.2
  else if r.1 ≠ [] then r.1
  else r.2

variable (toUpper : Text → Text)

-- `fieldname` by the property's name
def field (properties : List (Text × Text)) (f : Filter) : Text :=
  match properties.find? fun p => p.1 = f.property with
  | some p => p.2
  | none => toUpper f.property

def added (properties : List (Text × Text)) (acc : Text) (f : Filter) : Text :=
  let lv_group := group (field toUpper properties f) f.selectOptions
  if lv_group = [] then acc
  else joined " AND ".toList acc ("( ".toList ++ lv_group ++ " )".toList)

def get_osql_where_clause (properties : List (Text × Text)) (mt_filter : List Filter) : Text :=
  mt_filter.foldl (added toUpper properties) []

end code

section tokens

inductive Token
  | word (w : Text)
  | quoted (s : Text)
  | opens
  | closes

def Token.spelling : Token → Text
  | .word w => w
  | .quoted s => Quoted.wrap '\'' s
  | .opens => ['(']
  | .closes => [')']

def render (ts : List Token) : Text := [' '].intercalate (ts.map Token.spelling)

-- where a reader of the text stands; a quote it has just seen may be the first of two
inductive Scan
  | outside
  | word (w : Text)
  | quoted (s : Text)
  | quote (s : Text)

def Scan.done : Scan → List Token
  | .word w => [.word w]
  | .quote s => [.quoted s]
  | _ => []

@[grind =] def scan : Scan → Text → Option (List Token)
  | .quoted _,[] => none
  | st,[] => some st.done
  | .quoted s,c :: cs => if c = '\'' then scan (.quote s) cs else scan (.quoted (s ++ [c])) cs
  | .word w,c :: cs =>
    if c = ' ' then (scan .outside cs).map (.word w :: ·)
    else if c = '(' then (scan .outside cs).map ([.word w,.opens] ++ ·)
    else if c = ')' then (scan .outside cs).map ([.word w,.closes] ++ ·)
    else if c = '\'' then (scan (.quoted []) cs).map (.word w :: ·)
    else scan (.word (w ++ [c])) cs
  | st,c :: cs =>
    if c = ' ' then (scan .outside cs).map (st.done ++ ·)
    else if c = '(' then (scan .outside cs).map (st.done ++ [.opens] ++ ·)
    else if c = ')' then (scan .outside cs).map (st.done ++ [.closes] ++ ·)
    else if c = '\'' then
      match st with
      | .quote s => scan (.quoted (s ++ ['\''])) cs
      | _ => scan (.quoted []) cs
    else (scan (.word [c]) cs).map (st.done ++ ·)

def plain (c : Char) : Bool := c ≠ ' ' && c ≠ '(' && c ≠ ')' && c ≠ '\''

def Token.proper : Token → Prop
  | .word w => w ≠ [] ∧ w.all plain = true
  | _ => True

variable {rest : Text} {ts : List Token} {t : Token}

theorem plain_iff {c : Char} : plain c = true ↔ c ≠ ' ' ∧ c ≠ '(' ∧ c ≠ ')' ∧ c ≠ '\'' := by
  simp [plain,and_assoc]

theorem scan_word (w v : Text) (h : v.all plain = true) :
    scan (.word w) (v ++ rest) = scan (.word (w ++ v)) rest := by
  induction v generalizing w with
  | nil => simp
  | cons c v ih =>
    obtain ⟨hc,hv⟩ := Bool.and_eq_true_iff.mp (List.all_cons ▸ h)
    obtain ⟨hblank,hopen,hclose,hquote⟩ := (plain_iff).mp hc
    rw [List.cons_append,scan,if_neg hblank,if_neg hopen,if_neg hclose,if_neg hquote,ih (w ++ [c]) hv]
    simp

theorem scan_quoted (s v : Text) :
    scan (.quoted s) (Quoted.double '\'' v ++ '\'' :: rest) = scan (.quote (s ++ v)) rest := by
  induction v generalizing s with
  | nil => simp [scan]
  | cons c v ih =>
    by_cases hc : c = '\''
    · subst hc
      rw [Quoted.double_quote,List.cons_append,List.cons_append,scan,if_pos rfl]
      change scan (.quoted (s ++ ['\''])) _ = _
      rw [ih]
      simp
    · rw [Quoted.double_other hc,List.cons_append,scan,if_neg hc,ih]
      simp

theorem scan_outside_word {w : Text} (hne : w ≠ []) (h : w.all plain = true) :
    scan .outside (w ++ rest) = scan (.word w) rest := by
  obtain ⟨c,v,rfl⟩ := List.exists_cons_of_ne_nil hne
  obtain ⟨hc,hv⟩ := Bool.and_eq_true_iff.mp (List.all_cons ▸ h)
  obtain ⟨hblank,hopen,hclose,hquote⟩ := (plain_iff).mp hc
  rw [List.cons_append,scan,if_neg hblank,if_neg hopen,if_neg hclose,if_neg hquote,scan_word [c] v hv]
  · simp [Scan.done]
  all_goals nofun

theorem scan_last (h : t.proper) : scan .outside t.spelling = some [t] := by
  cases t with
  | word w =>
    have hscan : scan .outside (w ++ []) = scan (.word w) [] := scan_outside_word h.1 h.2
    rw [List.append_nil] at hscan
    rw [Token.spelling,hscan]
    rfl
  | quoted s =>
    rw [Token.spelling,Quoted.wrap]
    change scan (.quoted []) (Quoted.double '\'' s ++ '\'' :: []) = _
    rw [scan_quoted]
    rfl
  | opens => rfl
  | closes => rfl

theorem scan_next (h : t.proper) (rest : Text) :
    scan .outside (t.spelling ++ ' ' :: rest) = (scan .outside rest).map (t :: ·) := by
  cases t with
  | word w =>
    rw [Token.spelling,scan_outside_word h.1 h.2]
    rfl
  | quoted s =>
    rw [Token.spelling,Quoted.wrap,List.cons_append,List.append_assoc]
    change scan (.quoted []) (Quoted.double '\'' s ++ '\'' :: ' ' :: rest) = _
    rw [scan_quoted]
    rfl
  | opens =>
    change Option.map _ (Option.map _ (scan .outside rest)) = _
    rw [Option.map_map]
    rfl
  | closes =>
    change Option.map _ (Option.map _ (scan .outside rest)) = _
    rw [Option.map_map]
    rfl

theorem scan_render (h : ∀ t ∈ ts,t.proper) : scan .outside (render ts) = some ts := by
  induction ts with
  | nil => rfl
  | cons t ts ih =>
    have ht := h t (List.mem_cons_self ..)
    cases ts with
    | nil => simpa [render] using scan_last ht
    | cons u us =>
      have hrest := ih fun v hv => h v (List.mem_cons_of_mem _ hv)
      change scan .outside (t.spelling ++ ' ' :: render (u :: us)) = _
      rw [scan_next ht,hrest]
      rfl

end tokens

section rendering

variable {ts us : List Token} {f : Text} {o : SelectOption}

theorem render_cons (t : Token) (h : ts ≠ []) : render (t :: ts) = t.spelling ++ ' ' :: render ts := by
  obtain ⟨u,us,rfl⟩ := List.exists_cons_of_ne_nil h
  rfl

theorem render_append (h : ts ≠ []) (hu : us ≠ []) : render (ts ++ us) = render ts ++ ' ' :: render us := by
  induction ts with
  | nil => exact absurd rfl h
  | cons t ts ih =>
    cases ts with
    | nil => rw [List.singleton_append,render_cons t hu]; simp [render]
    | cons u vs =>
      rw [List.cons_append,render_cons t (by simp),ih (by simp),render_cons t (by simp)]
      simp

theorem render_ne_nil (h : ts ≠ []) (hproper : ∀ t ∈ ts,t.proper) : render ts ≠ [] := by
  intro hnil
  have hscan := scan_render hproper
  rw [hnil] at hscan
  exact h (Option.some.inj hscan).symm

def word (w : String) : Token := .word w.toList

def comparedTokens (f : Text) (operator : String) (low : Text) : List Token :=
  [.word f,word operator,.quoted low]

def patternTokens (low : Text) : List Token :=
  .quoted (pattern low).pattern :: if (pattern low).escape then [word "ESCAPE",.quoted ['#']] else []

def likeTokens (f low : Text) (negated : List Token) : List Token :=
  .word f :: (negated ++ word "LIKE" :: patternTokens low)

def clauseTokens (f : Text) (o : SelectOption) : List Token :=
  match o.option with
  | .eq | .other => comparedTokens f "=" o.low
  | .ne => comparedTokens f "<>" o.low
  | .gt => comparedTokens f ">" o.low
  | .ge => comparedTokens f ">=" o.low
  | .lt => comparedTokens f "<" o.low
  | .le => comparedTokens f "<=" o.low
  | .bt => [.word f,word "BETWEEN",.quoted o.low,word "AND",.quoted o.high]
  | .nb => [.word f,word "NOT",word "BETWEEN",.quoted o.low,word "AND",.quoted o.high]
  | .cp => likeTokens f o.low []
  | .np => likeTokens f o.low [word "NOT"]

def optionTokens (f : Text) (o : SelectOption) : List Token :=
  if o.sign = .e then [word "NOT",.opens] ++ clauseTokens f o ++ [.closes] else clauseTokens f o

theorem compared_render (f : Text) (operator : String) (low : Text) :
    compared f operator low = render (comparedTokens f operator low) := by
  simp [compared,comparedTokens,render,Token.spelling,sql_literal,word,List.intercalate]

theorem render_single (t : Token) : render [t] = t.spelling := by
  simp [render]

theorem patternTokens_ne_nil (low : Text) : patternTokens low ≠ [] := List.cons_ne_nil _ _

theorem like_render (f low lv_like : Text) :
    like f low lv_like = f ++ ' ' :: (lv_like ++ ' ' :: render (patternTokens low)) := by
  have hescape : " ESCAPE '#'".toList = ' ' :: render [word "ESCAPE",.quoted ['#']] := by decide
  have hblank : " ".toList = [' '] := rfl
  unfold like patternTokens
  cases he : (pattern low).escape with
  | true =>
    simp only [he,↓reduceIte]
    rw [render_cons _ (by simp),← hescape,hblank]
    simp only [Token.spelling,sql_literal,List.append_assoc,List.cons_append,List.nil_append]
  | false =>
    simp only [he,Bool.false_eq_true,↓reduceIte]
    rw [render_single,hblank]
    simp only [Token.spelling,sql_literal,List.append_assoc,List.cons_append,List.nil_append]

theorem likeTokens_render (f low : Text) : like f low "LIKE".toList = render (likeTokens f low []) ∧
    like f low "NOT LIKE".toList = render (likeTokens f low [word "NOT"]) := by
  have hnot : "NOT LIKE".toList = "NOT".toList ++ ' ' :: "LIKE".toList := by decide
  have hlike := render_cons (word "LIKE") (patternTokens_ne_nil low)
  rw [like_render,like_render,hnot,likeTokens,likeTokens,List.nil_append,List.singleton_append,
    render_cons (.word f) (List.cons_ne_nil _ _),render_cons (.word f) (List.cons_ne_nil _ _),
    render_cons (word "NOT") (List.cons_ne_nil _ _),hlike]
  refine ⟨rfl,?_⟩
  rw [List.append_assoc]
  rfl

theorem clause_render (f : Text) (o : SelectOption) : clause f o = render (clauseTokens f o) := by
  unfold clause clauseTokens
  cases o.option with
  | eq | ne | gt | ge | lt | le | other => exact compared_render ..
  | bt | nb => simp [render,Token.spelling,sql_literal,word,List.intercalate]
  | cp => exact (likeTokens_render f o.low).1
  | np => exact (likeTokens_render f o.low).2

theorem clauseTokens_ne_nil (f : Text) (o : SelectOption) : clauseTokens f o ≠ [] := by
  unfold clauseTokens
  cases o.option <;> simp [comparedTokens,likeTokens]

theorem option_render (f : Text) (o : SelectOption) : where_for_option f o = render (optionTokens f o) := by
  rw [where_for_option,optionTokens]
  split
  · rw [render_append (by simp) (by simp),render_append (by simp) (clauseTokens_ne_nil f o),clause_render]
    simp [render,Token.spelling,word,List.intercalate]
  · exact clause_render f o

theorem word_proper {w : String} (h : w ∈ ["=","<>",">",">=","<","<=","BETWEEN","AND","OR","NOT","LIKE","ESCAPE"]) :
    (word w).proper := by
  simp only [List.mem_cons,List.not_mem_nil,or_false] at h
  rcases h with rfl | rfl | rfl | rfl | rfl | rfl | rfl | rfl | rfl | rfl | rfl | rfl <;>
    exact ⟨by decide,by decide⟩

theorem clauseTokens_proper (h : (Token.word f).proper) (o : SelectOption) :
    ∀ t ∈ clauseTokens f o,t.proper := by
  have hlike : ∀ negated : List Token,(∀ t ∈ negated,t.proper) → ∀ t ∈ likeTokens f o.low negated,t.proper := by
    intro negated hneg t ht
    simp only [likeTokens,patternTokens,List.mem_append,List.mem_cons] at ht
    rcases ht with rfl | ht | rfl | rfl | ht
    · exact h
    · exact hneg t ht
    · exact word_proper (by simp)
    · trivial
    · cases he : (pattern o.low).escape with
      | false => simp [he] at ht
      | true =>
        simp only [he,↓reduceIte,List.mem_cons,List.not_mem_nil,or_false] at ht
        rcases ht with rfl | rfl
        · exact word_proper (by simp)
        · trivial
  have hcompared : ∀ w,w ∈ ["=","<>",">",">=","<","<="] → ∀ t ∈ comparedTokens f w o.low,t.proper := by
    intro w hw t ht
    simp only [comparedTokens,List.mem_cons,List.not_mem_nil,or_false] at ht
    rcases ht with rfl | rfl | rfl
    · exact h
    · exact word_proper (by simp only [List.mem_cons,List.not_mem_nil,or_false] at hw ⊢; tauto)
    · trivial
  unfold clauseTokens
  cases o.option with
  | eq | ne | gt | ge | lt | le | other => exact hcompared _ (by simp)
  | bt =>
    intro t ht
    simp only [List.mem_cons,List.not_mem_nil,or_false] at ht
    rcases ht with rfl | rfl | rfl | rfl | rfl
    · exact h
    · exact word_proper (by simp)
    · trivial
    · exact word_proper (by simp)
    · trivial
  | nb =>
    intro t ht
    simp only [List.mem_cons,List.not_mem_nil,or_false] at ht
    rcases ht with rfl | rfl | rfl | rfl | rfl | rfl
    · exact h
    · exact word_proper (by simp)
    · exact word_proper (by simp)
    · trivial
    · exact word_proper (by simp)
    · trivial
  | cp => exact hlike [] nofun
  | np =>
    refine hlike [word "NOT"] fun t ht => ?_
    obtain rfl := List.mem_singleton.mp ht
    exact word_proper (by simp)

theorem optionTokens_proper (h : (Token.word f).proper) (o : SelectOption) :
    ∀ t ∈ optionTokens f o,t.proper := by
  intro t ht
  rw [optionTokens] at ht
  split at ht
  · simp only [List.mem_append,List.mem_cons,List.not_mem_nil,or_false] at ht
    rcases ht with ((rfl | rfl) | ht) | rfl
    · exact word_proper (by simp)
    · trivial
    · exact clauseTokens_proper h o t ht
    · trivial
  · exact clauseTokens_proper h o t ht

end rendering

section reading

inductive Comparison
  | eq | ne | gt | ge | lt | le

inductive Cond
  | compare (f : Text) (c : Comparison) (literal : Text)
  | between (f low high : Text)
  | like (f pattern : Text) (escape : Option Char)
  | not (c : Cond)
  | and (c d : Cond)
  | or (c d : Cond)

def comparisonOf (w : Text) : Option Comparison :=
  if w = "=".toList then some .eq else if w = "<>".toList then some .ne
  else if w = ">".toList then some .gt else if w = ">=".toList then some .ge
  else if w = "<".toList then some .lt else if w = "<=".toList then some .le else none

-- the ESCAPE behind the pattern of a LIKE
def escaped : List Token → Option Char × List Token
  | .word w :: .quoted [c] :: rest => if w = "ESCAPE".toList then (some c,rest) else (none,.word w :: .quoted [c] :: rest)
  | rest => (none,rest)

def ranged (f w literal : Text) (rest : List Token) : Option (Cond × List Token) :=
  if w = "LIKE".toList then some (.like f literal (escaped rest).1,(escaped rest).2)
  else if w = "BETWEEN".toList then
    match rest with
    | .word a :: .quoted high :: rest => if a = "AND".toList then some (.between f literal high,rest) else none
    | _ => none
  else none

@[grind =] def condition (f : Text) : List Token → Option (Cond × List Token)
  | .word w :: .quoted literal :: rest =>
    match comparisonOf w with
    | some c => some (.compare f c literal,rest)
    | none => ranged f w literal rest
  | .word n :: .word w :: .quoted literal :: rest =>
    if n = "NOT".toList then (ranged f w literal rest).map fun r => (r.1.not,r.2) else none
  | _ => none

inductive Level
  | not | and | or

def Level.below : Level → Level
  | .or => .and
  | _ => .not

def Level.word : Level → Text
  | .or => "OR".toList
  | _ => "AND".toList

def Level.join : Level → Cond → Cond → Cond
  | .or => .or
  | _ => .and

@[grind =] def read : Nat → Level → List Token → Option (Cond × List Token)
  | 0,_,_ => none
  | n + 1,.not,.opens :: ts =>
    match read n .or ts with
    | some (c,.closes :: rest) => some (c,rest)
    | _ => none
  | n + 1,.not,.word w :: ts =>
    if w = "NOT".toList then (read n .not ts).map fun r => (r.1.not,r.2) else condition w ts
  | _ + 1,.not,_ => none
  | n + 1,l,ts =>
    match read n l.below ts with
    | some (c,.word w :: rest) =>
      if w = l.word then (read n l rest).map fun r => (l.join c r.1,r.2) else some (c,.word w :: rest)
    | r => r

def Reads (l : Level) (ts : List Token) (c : Cond) (rest : List Token) : Prop :=
  ∃ n,∀ m,n ≤ m → read m l ts = some (c,rest)

def Ends (rest : List Token) : Prop := rest = [] ∨ ∃ r,rest = .closes :: r

def Stops (l : Level) (rest : List Token) : Prop := Ends rest ∨ ∃ r,rest = .word l.word :: r

variable {l : Level} {ts us rest : List Token} {c d : Cond} {f : Text}

theorem Reads.step {l' : Level} {ts' : List Token} {x : Cond × List Token} (h : Reads l' ts' c rest)
    (hstep : ∀ n,read n l' ts' = some (c,rest) → read (n + 1) l ts = some x) : Reads l ts x.1 x.2 := by
  obtain ⟨n,hn⟩ := h
  refine ⟨n + 1,fun m hm => ?_⟩
  obtain ⟨k,rfl⟩ := Nat.exists_eq_add_of_le' hm
  exact hstep _ (hn _ (Nat.le_add_left ..))

theorem Reads.atom (hf : f ≠ "NOT".toList) (h : condition f ts = some (c,rest)) :
    Reads .not (.word f :: ts) c rest := by
  refine ⟨1,fun m hm => ?_⟩
  obtain ⟨k,rfl⟩ := Nat.exists_eq_add_of_le' hm
  rw [read,if_neg hf,h]

theorem Reads.negation (h : Reads .not ts c rest) : Reads .not (word "NOT" :: ts) c.not rest :=
  h.step (x := (c.not,rest)) fun n hn => by
    rw [WhereText.word,read,if_pos rfl,hn]
    rfl

theorem Reads.parens (h : Reads .or ts c (.closes :: rest)) : Reads .not (.opens :: ts) c rest :=
  h.step (x := (c,rest)) fun n hn => by rw [read,hn]

theorem Level.words : Level.word .or ≠ Level.word .and := by decide

theorem read_chain (hl : l ≠ .not) (n : Nat) (ts : List Token) : read (n + 1) l ts =
    match read n l.below ts with
    | some (c,.word w :: rest) =>
      if w = l.word then (read n l rest).map fun r => (l.join c r.1,r.2) else some (c,.word w :: rest)
    | r => r := by
  cases l with
  | not => exact absurd rfl hl
  | and =>
    rw [read]
    all_goals nofun
  | or =>
    rw [read]
    all_goals nofun

theorem Reads.last (hl : l ≠ .not) (h : Reads l.below ts c rest)
    (hrest : ∀ r,rest ≠ .word l.word :: r) : Reads l ts c rest := by
  refine h.step (x := (c,rest)) fun n hn => ?_
  rw [read_chain hl,hn]
  cases rest with
  | nil => rfl
  | cons t r =>
    cases t with
    | word w =>
      have hw : w ≠ l.word := by
        rintro rfl
        exact hrest r rfl
      exact if_neg hw
    | quoted | opens | closes => rfl

theorem Reads.more (hl : l ≠ .not) {us : List Token} (h : Reads l.below ts c (.word l.word :: us))
    (h' : Reads l us d rest) : Reads l ts (l.join c d) rest := by
  obtain ⟨n,hn⟩ := h
  obtain ⟨n',hn'⟩ := h'
  refine ⟨max n n' + 1,fun m hm => ?_⟩
  obtain ⟨k,rfl⟩ := Nat.exists_eq_add_of_le' hm
  have hfirst := hn (k + max n n') (by omega)
  have hrest := hn' (k + max n n') (by omega)
  rw [← Nat.add_assoc,read_chain hl,hfirst]
  simp only [↓reduceIte]
  rw [hrest]
  rfl

-- the conditions of a chain, the first one apart
def Level.chain (l : Level) : Cond → List Cond → Cond
  | c,[] => c
  | c,d :: ds => l.join c (l.chain d ds)

theorem Reads.chain (hl : l ≠ .not) {parts : List (List Token × Cond)} (x : List Token × Cond)
    (h : ∀ y ∈ x :: parts,∀ rest,Stops l rest → Reads l.below (y.1 ++ rest) y.2 rest) (hrest : Ends rest) :
    Reads l ([.word l.word].intercalate ((x :: parts).map Prod.fst) ++ rest)
      (l.chain x.2 (parts.map Prod.snd)) rest := by
  induction parts generalizing x with
  | nil =>
    have hx := h x (List.mem_cons_self ..) rest (.inl hrest)
    simp only [List.map_cons,List.map_nil,List.intercalate_singleton]
    refine hx.last hl fun r hr => ?_
    rcases hrest with rfl | ⟨r',rfl⟩ <;> cases hr
  | cons y ys ih =>
    have hx := h x (List.mem_cons_self ..)
    have hys := ih y fun z hz => h z (List.mem_cons_of_mem _ hz)
    have hsplit : [Token.word l.word].intercalate ((x :: y :: ys).map Prod.fst) ++ rest =
        x.1 ++ .word l.word :: ([Token.word l.word].intercalate ((y :: ys).map Prod.fst) ++ rest) := by
      simp [List.intercalate]
    rw [hsplit]
    exact (hx _ (.inr ⟨_,rfl⟩)).more hl hys

end reading

section meaning

def Comparison.holds : Comparison → Ordering → Prop
  | .eq,o => o = .eq
  | .ne,o => o ≠ .eq
  | .gt,o => o = .gt
  | .ge,o => o ≠ .lt
  | .lt,o => o = .lt
  | .le,o => o ≠ .gt

-- an item without a character stands for any one
def meets (item : Option Char) (c : Char) : Prop := ∀ d ∈ item,d = c

@[grind =] def likeItems (escape : Option Char) : Bool → Text → List (Item (Option Char))
  | _,[] => []
  | true,c :: cs => .one (some c) :: likeItems escape false cs
  | false,c :: cs =>
    if escape = some c then likeItems escape true cs
    else if c = '%' then .run :: likeItems escape false cs
    else if c = '_' then .one none :: likeItems escape false cs
    else .one (some c) :: likeItems escape false cs

@[grind =] def lowItems : Bool → Text → List (Item (Option Char))
  | _,[] => []
  | true,c :: cs => .one (some c) :: lowItems false cs
  | false,c :: cs =>
    if c = '#' then lowItems true cs
    else if c = '*' then .run :: lowItems false cs
    else if c = '+' then .one none :: lowItems false cs
    else .one (some c) :: lowItems false cs

variable (order : Text → Text → Ordering) (row : Text → Text)

def Cond.holds : Cond → Prop
  | .compare f c literal => c.holds (order (row f) literal)
  | .between f low high => order (row f) low ≠ .lt ∧ order (row f) high ≠ .gt
  | .like f pattern escape => Matches meets (likeItems escape false pattern) (row f)
  | .not c => ¬c.holds
  | .and c d => c.holds ∧ d.holds
  | .or c d => c.holds ∨ d.holds

def SelectOption.accepts (o : SelectOption) (v : Text) : Prop :=
  match o.option with
  | .eq | .other => order v o.low = .eq
  | .ne => order v o.low ≠ .eq
  | .gt => order v o.low = .gt
  | .ge => order v o.low ≠ .lt
  | .lt => order v o.low = .lt
  | .le => order v o.low ≠ .gt
  | .bt => order v o.low ≠ .lt ∧ order v o.high ≠ .gt
  | .nb => ¬(order v o.low ≠ .lt ∧ order v o.high ≠ .gt)
  | .cp => Matches meets (lowItems false o.low) v
  | .np => ¬Matches meets (lowItems false o.low) v

def Admits (options : List SelectOption) (v : Text) : Prop :=
  ((∀ o ∈ options,o.sign ≠ .i) ∨ ∃ o ∈ options,o.sign = .i ∧ o.accepts order v) ∧
    ∀ o ∈ options,o.sign = .e → ¬o.accepts order v

end meaning

section clauses

variable {order : Text → Text → Ordering} {row : Text → Text} {f : Text} {o : SelectOption}
  {l : Level} {rest : List Token}

theorem turn_items (cs : Text) (p : Pattern) : ∃ q,(cs.foldl Pattern.turn p).pattern = p.pattern ++ q ∧
    likeItems (some '#') false q = lowItems p.hash cs ∧
    ((cs.foldl Pattern.turn p).escape = false → p.escape = false ∧
      likeItems none false q = lowItems p.hash cs) := by
  induction cs generalizing p with
  | nil =>
    refine ⟨[],by simp,?_,fun h => ⟨h,?_⟩⟩ <;> cases p.hash <;> rfl
  | cons c cs ih =>
    obtain ⟨q,hq,hescaped,hplain⟩ := ih (p.turn c)
    rw [List.foldl_cons]
    cases hhash : p.hash with
    | true =>
      by_cases hc : c = '%' ∨ c = '_' ∨ c = '#'
      · have hturn : p.turn c = {pattern := p.pattern ++ ['#',c],hash := false,escape := true} := by
          rw [Pattern.turn,if_pos hhash,if_pos hc]
        rw [hturn] at hq hescaped hplain ⊢
        refine ⟨'#' :: c :: q,by rw [hq]; simp,?_,fun h => absurd (hplain h).1 nofun⟩
        rw [likeItems,if_pos rfl,likeItems,lowItems,hescaped]
      · have hturn : p.turn c = {p with pattern := p.pattern ++ [c],hash := false} := by
          rw [Pattern.turn,if_pos hhash,if_neg hc]
        rw [hturn] at hq hescaped hplain ⊢
        obtain ⟨hpercent,hline,hhash'⟩ : c ≠ '%' ∧ c ≠ '_' ∧ c ≠ '#' := by
          simpa only [not_or] using hc
        refine ⟨c :: q,by rw [hq]; simp,?_,fun h => ⟨(hplain h).1,?_⟩⟩
        · rw [likeItems,if_neg (by simpa using Ne.symm hhash'),if_neg hpercent,if_neg hline,lowItems,hescaped]
        · rw [likeItems,if_neg nofun,if_neg hpercent,if_neg hline,lowItems,(hplain h).2]
    | false =>
      have hno : ¬p.hash = true := by simp [hhash]
      by_cases hc : c = '#'
      · have hturn : p.turn c = {p with hash := true} := by
          rw [Pattern.turn,if_neg hno,if_pos hc]
        rw [hturn] at hq hescaped hplain ⊢
        rw [lowItems,if_pos hc]
        exact ⟨q,hq,hescaped,hplain⟩
      · by_cases hstar : c = '*'
        · subst hstar
          have hturn : p.turn '*' = {p with pattern := p.pattern ++ ['%']} := by
            rw [Pattern.turn,if_neg hno,if_neg hc,if_pos rfl]
          rw [hturn] at hq hescaped hplain ⊢
          simp only [hhash] at hq hescaped hplain ⊢
          refine ⟨'%' :: q,by rw [hq]; simp,?_,fun h => ⟨(hplain h).1,?_⟩⟩
          · rw [likeItems,if_neg (by decide),if_pos rfl,hescaped]
            rfl
          · rw [likeItems,if_neg nofun,if_pos rfl,(hplain h).2]
            rfl
        · by_cases hplus : c = '+'
          · subst hplus
            have hturn : p.turn '+' = {p with pattern := p.pattern ++ ['_']} := by
              rw [Pattern.turn,if_neg hno,if_neg hc,if_neg hstar,if_pos rfl]
            rw [hturn] at hq hescaped hplain ⊢
            simp only [hhash] at hq hescaped hplain ⊢
            refine ⟨'_' :: q,by rw [hq]; simp,?_,fun h => ⟨(hplain h).1,?_⟩⟩
            · rw [likeItems,if_neg (by decide),if_neg (by decide),if_pos rfl,hescaped]
              rfl
            · rw [likeItems,if_neg nofun,if_neg (by decide),if_pos rfl,(hplain h).2]
              rfl
          · have hlow : lowItems false (c :: cs) = .one (some c) :: lowItems false cs := by
              rw [lowItems,if_neg hc,if_neg hstar,if_neg hplus]
            by_cases hspecial : c = '%' ∨ c = '_'
            · have hturn : p.turn c = {p with pattern := p.pattern ++ ['#',c],escape := true} := by
                rw [Pattern.turn,if_neg hno,if_neg hc,if_neg hstar,if_neg hplus,if_pos hspecial]
              rw [hturn] at hq hescaped hplain ⊢
              simp only [hhash] at hescaped
              refine ⟨'#' :: c :: q,by rw [hq]; simp,?_,fun h => absurd (hplain h).1 nofun⟩
              rw [likeItems,if_pos rfl,likeItems,hlow,hescaped]
            · have hturn : p.turn c = {p with pattern := p.pattern ++ [c]} := by
                rw [Pattern.turn,if_neg hno,if_neg hc,if_neg hstar,if_neg hplus,if_neg hspecial]
              rw [hturn] at hq hescaped hplain ⊢
              simp only [hhash] at hq hescaped hplain ⊢
              obtain ⟨hpercent,hline⟩ := not_or.mp hspecial
              refine ⟨c :: q,by rw [hq]; simp,?_,fun h => ⟨(hplain h).1,?_⟩⟩
              · rw [likeItems,if_neg (by simpa using Ne.symm hc),if_neg hpercent,if_neg hline,hlow,hescaped]
              · rw [likeItems,if_neg nofun,if_neg hpercent,if_neg hline,hlow,(hplain h).2]

theorem pattern_items (low : Text) :
    likeItems (if (pattern low).escape then some '#' else none) false (pattern low).pattern =
      lowItems false low := by
  obtain ⟨q,hq,hescaped,hplain⟩ := turn_items low {}
  change (pattern low).pattern = [] ++ q at hq
  rw [hq,List.nil_append]
  cases he : (pattern low).escape with
  | true => exact hescaped
  | false => exact (hplain he).2

def clauseCond (f : Text) (o : SelectOption) : Cond :=
  match o.option with
  | .eq | .other => .compare f .eq o.low
  | .ne => .compare f .ne o.low
  | .gt => .compare f .gt o.low
  | .ge => .compare f .ge o.low
  | .lt => .compare f .lt o.low
  | .le => .compare f .le o.low
  | .bt => .between f o.low o.high
  | .nb => .not (.between f o.low o.high)
  | .cp => .like f (pattern o.low).pattern (if (pattern o.low).escape then some '#' else none)
  | .np => .not (.like f (pattern o.low).pattern (if (pattern o.low).escape then some '#' else none))

def optionCond (f : Text) (o : SelectOption) : Cond :=
  if o.sign = .e then .not (clauseCond f o) else clauseCond f o

theorem clause_holds : (clauseCond f o).holds order row ↔ o.accepts order (row f) := by
  unfold clauseCond SelectOption.accepts
  cases o.option with
  | eq | ne | gt | ge | lt | le | bt | nb | other => exact Iff.rfl
  | cp => rw [Cond.holds,pattern_items]
  | np => rw [Cond.holds,Cond.holds,pattern_items]

theorem escaped_pattern (low : Text) (h : Stops l rest) :
    escaped ((if (pattern low).escape then [word "ESCAPE",.quoted ['#']] else []) ++ rest) =
      (if (pattern low).escape then some '#' else none,rest) := by
  cases (pattern low).escape with
  | true => rfl
  | false =>
    simp only [Bool.false_eq_true,↓reduceIte,List.nil_append]
    rcases h with (rfl | ⟨r,rfl⟩) | ⟨r,rfl⟩
    · rfl
    · rfl
    · have hword : l.word ≠ "ESCAPE".toList := by cases l <;> decide
      rw [escaped.eq_def]
      split
      · rename_i heq
        obtain ⟨hw,-⟩ := List.cons.inj heq
        obtain rfl := Token.word.inj hw
        rw [if_neg hword]
        rw [heq]
      · rfl

theorem clause_reads (hf : f ≠ "NOT".toList) (o : SelectOption) (h : Stops l rest) :
    Reads .not (clauseTokens f o ++ rest) (clauseCond f o) rest := by
  have hesc := escaped_pattern o.low h
  unfold clauseTokens clauseCond
  cases o.option with
  | eq | ne | gt | ge | lt | le | bt | nb | other => exact Reads.atom hf rfl
  | cp =>
    refine Reads.atom hf ?_
    change some (Cond.like f (pattern o.low).pattern (escaped (_ ++ rest)).1,(escaped (_ ++ rest)).2) = _
    rw [hesc]
  | np =>
    refine Reads.atom hf ?_
    change some (Cond.not (.like f (pattern o.low).pattern (escaped (_ ++ rest)).1),(escaped (_ ++ rest)).2) = _
    rw [hesc]

theorem option_reads (hf : f ≠ "NOT".toList) (o : SelectOption) (h : Stops l rest) :
    Reads .not (optionTokens f o ++ rest) (optionCond f o) rest := by
  rw [optionTokens,optionCond]
  split
  · have hclause : Reads .not (clauseTokens f o ++ .closes :: rest) (clauseCond f o) (.closes :: rest) :=
      clause_reads (l := .and) hf o (.inl (.inr ⟨rest,rfl⟩))
    have hinner : Reads .or (clauseTokens f o ++ .closes :: rest) (clauseCond f o) (.closes :: rest) :=
      Reads.last (l := .or) nofun (Reads.last (l := .and) nofun hclause nofun) nofun
    have htokens : [word "NOT",.opens] ++ clauseTokens f o ++ [.closes] ++ rest =
        word "NOT" :: .opens :: (clauseTokens f o ++ .closes :: rest) := by simp
    rw [htokens]
    exact hinner.parens.negation
  · exact clause_reads hf o h

end clauses

section groups

variable {order : Text → Text → Ordering} {row : Text → Text} {f : Text} {os : List SelectOption}
  {l : Level} {rest : List Token} {w : Text}

def fits (f : Text) : Prop := (Token.word f).proper ∧ f ≠ "NOT".toList

def included (os : List SelectOption) : List SelectOption := os.filter fun o => o.sign ≠ .e

def excluded (os : List SelectOption) : List SelectOption := os.filter fun o => o.sign = .e

def chained (w : Text) (tss : List (List Token)) : List Token := [.word w].intercalate tss

theorem chained_cons (ts : List Token) (tss : List (List Token)) :
    chained w (ts :: tss) = ts ++ tss.flatMap (.word w :: ·) := by
  induction tss generalizing ts with
  | nil => simp [chained]
  | cons us tss ih =>
    have hnext : chained w (ts :: us :: tss) = ts ++ .word w :: chained w (us :: tss) := by
      simp [chained,List.intercalate]
    rw [hnext,ih]
    simp

theorem chained_proper (hw : (Token.word w).proper) {tss : List (List Token)}
    (h : ∀ ts ∈ tss,∀ t ∈ ts,t.proper) : ∀ t ∈ chained w tss,t.proper := by
  cases tss with
  | nil => nofun
  | cons ts tss =>
    intro t ht
    rw [chained_cons,List.mem_append] at ht
    rcases ht with ht | ht
    · exact h ts (List.mem_cons_self ..) t ht
    · obtain ⟨us,hus,ht⟩ := List.mem_flatMap.mp ht
      rcases List.mem_cons.mp ht with rfl | ht
      · exact hw
      · exact h us (List.mem_cons_of_mem _ hus) t ht

-- what is joined clause by clause is what is rendered as a chain
theorem joined_render (hw : (Token.word w).proper) {tss : List (List Token)}
    (h : ∀ ts ∈ tss,ts ≠ [] ∧ ∀ t ∈ ts,t.proper) :
    (tss.map render).foldl (joined (' ' :: (w ++ [' ']))) [] = render (chained w tss) := by
  have hfrom : ∀ (us : List Token) (tss : List (List Token)),us ≠ [] → (∀ t ∈ us,t.proper) →
      (∀ ts ∈ tss,ts ≠ [] ∧ ∀ t ∈ ts,t.proper) →
      (tss.map render).foldl (joined (' ' :: (w ++ [' ']))) (render us) =
        render (us ++ tss.flatMap (.word w :: ·)) := by
    intro us tss
    induction tss generalizing us with
    | nil => intro _ _ _; simp
    | cons ts tss ih =>
      intro hne hus hall
      obtain ⟨hts,hproper⟩ := hall ts (List.mem_cons_self ..)
      have hone : joined (' ' :: (w ++ [' '])) (render us) (render ts) = render (us ++ .word w :: ts) := by
        rw [joined,if_neg (render_ne_nil hne hus),render_append hne (List.cons_ne_nil _ _),render_cons _ hts]
        simp [Token.spelling]
      rw [List.map_cons,List.foldl_cons,hone,
        ih _ (by simp) (fun t ht => ?_) fun vs hvs => hall vs (List.mem_cons_of_mem _ hvs)]
      · simp
      · rcases List.mem_append.mp ht with ht | ht
        · exact hus t ht
        · rcases List.mem_cons.mp ht with rfl | ht
          · exact hw
          · exact hproper t ht
  cases tss with
  | nil => rfl
  | cons ts tss =>
    obtain ⟨hts,hproper⟩ := h ts (List.mem_cons_self ..)
    rw [List.map_cons,List.foldl_cons,joined,if_pos rfl,chained_cons]
    exact hfrom ts tss hts hproper fun us hus => h us (List.mem_cons_of_mem _ hus)

def includeTokens (f : Text) (os : List SelectOption) : List Token :=
  chained "OR".toList ((included os).map (optionTokens f))

def excludeTokens (f : Text) (os : List SelectOption) : List Token :=
  chained "AND".toList ((excluded os).map (optionTokens f))

def groupTokens (f : Text) (os : List SelectOption) : List Token :=
  if included os ≠ [] ∧ excluded os ≠ [] then
    .opens :: includeTokens f os ++ [.closes,word "AND"] ++ excludeTokens f os
  else includeTokens f os ++ excludeTokens f os

theorem grouped_split (f : Text) (os : List SelectOption) (acc : Text × Text) :
    os.foldl (grouped f) acc = (((included os).map (where_for_option f)).foldl (joined " OR ".toList) acc.1,
      ((excluded os).map (where_for_option f)).foldl (joined " AND ".toList) acc.2) := by
  induction os generalizing acc with
  | nil => rfl
  | cons o os ih =>
    rw [List.foldl_cons,ih,grouped]
    by_cases ho : o.sign = .e
    · simp [included,excluded,ho]
    · simp [included,excluded,ho]

theorem optionTokens_ne_nil (f : Text) (o : SelectOption) : optionTokens f o ≠ [] := by
  rw [optionTokens]
  split
  · simp
  · exact clauseTokens_ne_nil f o

theorem options_render (hf : (Token.word f).proper) (hw : (Token.word w).proper) (os : List SelectOption) :
    (os.map (where_for_option f)).foldl (joined (' ' :: (w ++ [' ']))) [] =
      render (chained w (os.map (optionTokens f))) := by
  rw [← joined_render hw fun ts hts => ?_,List.map_map]
  · refine congrArg (List.foldl _ []) (List.map_congr_left fun o _ => option_render f o)
  · obtain ⟨o,-,rfl⟩ := List.mem_map.mp hts
    exact ⟨optionTokens_ne_nil f o,optionTokens_proper hf o⟩

theorem options_proper (hf : (Token.word f).proper) (hw : (Token.word w).proper) (os : List SelectOption) :
    ∀ t ∈ chained w (os.map (optionTokens f)),t.proper := by
  refine chained_proper hw fun ts hts => ?_
  obtain ⟨o,-,rfl⟩ := List.mem_map.mp hts
  exact optionTokens_proper hf o

theorem chained_ne_nil {tss : List (List Token)} (h : tss ≠ []) (hne : ∀ ts ∈ tss,ts ≠ []) :
    chained w tss ≠ [] := by
  obtain ⟨ts,tss,rfl⟩ := List.exists_cons_of_ne_nil h
  rw [chained_cons]
  simp [hne ts (List.mem_cons_self ..)]

theorem options_ne_nil (h : os ≠ []) : chained w (os.map (optionTokens f)) ≠ [] := by
  refine chained_ne_nil (by simpa using h) fun ts hts => ?_
  obtain ⟨o,-,rfl⟩ := List.mem_map.mp hts
  exact optionTokens_ne_nil f o

theorem or_proper : (Token.word "OR".toList).proper := word_proper (by simp)

theorem and_proper : (Token.word "AND".toList).proper := word_proper (by simp)

theorem group_proper (hf : (Token.word f).proper) (os : List SelectOption) :
    ∀ t ∈ groupTokens f os,t.proper := by
  have hi := options_proper hf or_proper (included os)
  have he := options_proper hf and_proper (excluded os)
  intro t ht
  rw [groupTokens] at ht
  split at ht
  · simp only [List.mem_append,List.mem_cons,List.not_mem_nil,or_false] at ht
    rcases ht with ((rfl | ht) | rfl | rfl) | ht
    · trivial
    · exact hi t ht
    · trivial
    · exact and_proper
    · exact he t ht
  · rcases List.mem_append.mp ht with ht | ht
    · exact hi t ht
    · exact he t ht

theorem group_render (hf : (Token.word f).proper) (os : List SelectOption) :
    group f os = render (groupTokens f os) := by
  have hor : " OR ".toList = ' ' :: ("OR".toList ++ [' ']) := by decide
  have hand : " AND ".toList = ' ' :: ("AND".toList ++ [' ']) := by decide
  have hi := options_render hf or_proper (included os)
  have he := options_render hf and_proper (excluded os)
  have hempty : ∀ {w : Text},(Token.word w).proper → ∀ os' : List SelectOption,
      render (chained w (os'.map (optionTokens f))) ≠ [] ↔ os' ≠ [] := by
    intro w hw os'
    constructor
    · rintro h rfl
      exact h rfl
    · intro h
      exact render_ne_nil (options_ne_nil h) (options_proper hf hw os')
  rw [group,grouped_split,hor,hand,hi,he,groupTokens]
  simp only [hempty or_proper,hempty and_proper]
  split
  · rename_i h
    have hine : includeTokens f os ≠ [] := options_ne_nil h.1
    have hene : excludeTokens f os ≠ [] := options_ne_nil h.2
    have hbetween : " ) AND ".toList = ' ' :: (render [.closes,word "AND"] ++ [' ']) := by decide
    change "( ".toList ++ render (includeTokens f os) ++ " ) AND ".toList ++ render (excludeTokens f os) = _
    rw [render_append (by simp) hene,render_append (by simp) (by simp),render_cons _ hine,hbetween]
    simp [Token.spelling]
  · rename_i h
    by_cases hin : included os = []
    · rw [if_neg (by simp [hin])]
      simp [includeTokens,excludeTokens,hin,chained]
    · have hex : excluded os = [] := by
        by_contra hex
        exact h ⟨hin,hex⟩
      rw [if_pos hin]
      simp [includeTokens,excludeTokens,hex,chained]

def groupCond (f : Text) (os : List SelectOption) : Option Cond :=
  match included os,excluded os with
  | [],[] => none
  | i :: is,[] => some (Level.or.chain (optionCond f i) (is.map (optionCond f)))
  | [],e :: es => some (Level.and.chain (optionCond f e) (es.map (optionCond f)))
  | i :: is,es =>
    some (Level.and.chain (Level.or.chain (optionCond f i) (is.map (optionCond f))) (es.map (optionCond f)))

theorem options_read (hf : f ≠ "NOT".toList) (hl : l ≠ .not) (o : SelectOption) (os : List SelectOption)
    (hrest : Ends rest) : Reads l (chained l.word ((o :: os).map (optionTokens f)) ++ rest)
      (l.chain (optionCond f o) (os.map (optionCond f))) rest := by
  have hitem : ∀ (o : SelectOption) (rest : List Token),Stops l rest →
      Reads l.below (optionTokens f o ++ rest) (optionCond f o) rest := by
    intro o rest hstops
    have hread := option_reads hf o hstops
    cases l with
    | not => exact absurd rfl hl
    | and => exact hread
    | or =>
      refine hread.last nofun fun r hr => ?_
      rcases hstops with (rfl | ⟨r',rfl⟩) | ⟨r',rfl⟩
      · cases hr
      · cases hr
      · exact Level.words (Token.word.inj (List.cons.inj hr).1)
  have hpart : ∀ y ∈ (optionTokens f o,optionCond f o) :: os.map (fun o => (optionTokens f o,optionCond f o)),
      ∀ rest,Stops l rest → Reads l.below (y.1 ++ rest) y.2 rest := by
    intro y hy rest hstops
    rcases List.mem_cons.mp hy with rfl | hy
    · exact hitem o rest hstops
    · obtain ⟨o',-,rfl⟩ := List.mem_map.mp hy
      exact hitem o' rest hstops
  have hchain := Reads.chain hl _ hpart hrest
  rw [List.map_cons,List.map_map,List.map_map] at hchain
  exact hchain

theorem Reads.lift (h : Reads .and us c rest) (hrest : Ends rest) : Reads .or us c rest := by
  refine h.last nofun fun r hr => ?_
  rcases hrest with rfl | ⟨r',rfl⟩ <;> cases hr

theorem group_reads (hf : f ≠ "NOT".toList) (os : List SelectOption) (hrest : Ends rest) :
    ∀ c,groupCond f os = some c → Reads .or (groupTokens f os ++ rest) c rest := by
  intro c hc
  rw [groupCond] at hc
  unfold groupTokens includeTokens excludeTokens
  cases hi : included os with
  | nil =>
    cases he : excluded os with
    | nil => rw [hi,he] at hc; cases hc
    | cons e es =>
      rw [hi,he] at hc
      obtain rfl := Option.some.inj hc
      exact (options_read (l := .and) hf nofun e es hrest).lift hrest
  | cons i is =>
    cases he : excluded os with
    | nil =>
      rw [hi,he] at hc
      obtain rfl := Option.some.inj hc
      rw [if_neg (by simp),List.map_nil]
      have hnil : chained "AND".toList [] = [] := rfl
      rw [hnil,List.append_nil]
      exact options_read (l := .or) hf nofun i is hrest
    | cons e es =>
      rw [hi,he] at hc
      obtain rfl := Option.some.inj hc
      rw [if_pos (by simp)]
      have hfirst : ∀ rest,Reads .not (.opens :: chained "OR".toList ((i :: is).map (optionTokens f)) ++
          [.closes] ++ rest) (Level.or.chain (optionCond f i) (is.map (optionCond f))) rest := by
        intro rest
        have hends : Ends (.closes :: rest) := .inr ⟨rest,rfl⟩
        have hinner := options_read (l := .or) hf nofun i is hends
        have hclosed : .opens :: chained "OR".toList ((i :: is).map (optionTokens f)) ++ [.closes] ++ rest =
            .opens :: (chained "OR".toList ((i :: is).map (optionTokens f)) ++ .closes :: rest) := by simp
        rw [hclosed]
        exact hinner.parens
      have hlater := options_read (l := .and) hf nofun e es hrest
      have hboth := (hfirst (word "AND" :: _)).more (l := .and) nofun hlater
      have htokens : .opens :: chained "OR".toList ((i :: is).map (optionTokens f)) ++ [.closes,word "AND"] ++
          chained "AND".toList ((e :: es).map (optionTokens f)) ++ rest =
          .opens :: chained "OR".toList ((i :: is).map (optionTokens f)) ++ [.closes] ++
            (word "AND" :: (chained "AND".toList ((e :: es).map (optionTokens f)) ++ rest)) := by simp
      rw [htokens]
      exact hboth.lift hrest

theorem chain_or_holds (c : Cond) (ds : List Cond) : (Level.or.chain c ds).holds order row ↔
    ∃ d ∈ c :: ds,d.holds order row := by
  induction ds generalizing c with
  | nil => simp [Level.chain]
  | cons d ds ih =>
    change c.holds order row ∨ (Level.or.chain d ds).holds order row ↔ _
    rw [ih]
    simp

theorem chain_and_holds (c : Cond) (ds : List Cond) : (Level.and.chain c ds).holds order row ↔
    ∀ d ∈ c :: ds,d.holds order row := by
  induction ds generalizing c with
  | nil => simp [Level.chain]
  | cons d ds ih =>
    change c.holds order row ∧ (Level.and.chain d ds).holds order row ↔ _
    rw [ih]
    simp

theorem included_holds {i : SelectOption} {is : List SelectOption} (h : included os = i :: is) :
    (Level.or.chain (optionCond f i) (is.map (optionCond f))).holds order row ↔
      ∃ o ∈ os,o.sign = .i ∧ o.accepts order (row f) := by
  have hcond : ∀ o ∈ included os,((optionCond f o).holds order row ↔ o.accepts order (row f)) := by
    intro o ho
    have hsign : ¬o.sign = .e := by simpa using (List.mem_filter.mp ho).2
    rw [optionCond,if_neg hsign,clause_holds]
  have hmem : ∀ o,o ∈ i :: is ↔ o ∈ os ∧ o.sign = .i := by
    intro o
    rw [← h,included,List.mem_filter]
    cases o.sign <;> simp
  rw [chain_or_holds,← List.map_cons]
  simp only [List.mem_map,exists_exists_and_eq_and]
  constructor
  · rintro ⟨o,ho,hholds⟩
    obtain ⟨hin,hsign⟩ := (hmem o).mp ho
    exact ⟨o,hin,hsign,(hcond o (h ▸ ho)).mp hholds⟩
  · rintro ⟨o,hin,hsign,hacc⟩
    have ho := (hmem o).mpr ⟨hin,hsign⟩
    exact ⟨o,ho,(hcond o (h ▸ ho)).mpr hacc⟩

theorem excluded_holds : (∀ d ∈ (excluded os).map (optionCond f),d.holds order row) ↔
    ∀ o ∈ os,o.sign = .e → ¬o.accepts order (row f) := by
  have hcond : ∀ o : SelectOption,o.sign = .e →
      ((optionCond f o).holds order row ↔ ¬o.accepts order (row f)) := by
    intro o ho
    rw [optionCond,if_pos ho,Cond.holds,clause_holds]
  constructor
  · intro h o ho hsign
    have hin : o ∈ excluded os := List.mem_filter.mpr ⟨ho,by simpa using hsign⟩
    exact (hcond o hsign).mp (h _ (List.mem_map_of_mem hin))
  · intro h d hd
    obtain ⟨o,ho,rfl⟩ := List.mem_map.mp hd
    obtain ⟨hin,hsign⟩ := List.mem_filter.mp ho
    exact (hcond o (by simpa using hsign)).mpr (h o hin (by simpa using hsign))

theorem included_none (h : included os = []) : ∀ o ∈ os,o.sign ≠ .i := by
  intro o ho hsign
  have hin : o ∈ included os := List.mem_filter.mpr ⟨ho,by simp [hsign]⟩
  rw [h] at hin
  cases hin

theorem group_holds (c : Cond) (h : groupCond f os = some c) :
    c.holds order row ↔ Admits order os (row f) := by
  rw [groupCond] at h
  rw [Admits]
  cases hi : included os with
  | nil =>
    have hno := included_none hi
    cases he : excluded os with
    | nil => rw [hi,he] at h; cases h
    | cons e es =>
      rw [hi,he] at h
      obtain rfl := Option.some.inj h
      rw [chain_and_holds,← List.map_cons,← he,excluded_holds]
      exact ⟨fun hx => ⟨.inl hno,hx⟩,fun hx => hx.2⟩
  | cons i is =>
    have hsome : ¬∀ o ∈ os,o.sign ≠ .i := by
      intro hno
      have hin : i ∈ included os := hi ▸ List.mem_cons_self ..
      obtain ⟨hmem,hsign⟩ := List.mem_filter.mp hin
      have hnot := hno i hmem
      cases hs : i.sign <;> simp [hs] at hsign hnot
    have hfirst : (Level.or.chain (optionCond f i) (is.map (optionCond f))).holds order row ↔
        ∃ o ∈ os,o.sign = .i ∧ o.accepts order (row f) := included_holds hi
    cases he : excluded os with
    | nil =>
      rw [hi,he] at h
      obtain rfl := Option.some.inj h
      have hlater : (∀ d ∈ (excluded os).map (optionCond f),d.holds order row) ↔
          ∀ o ∈ os,o.sign = .e → ¬o.accepts order (row f) := excluded_holds
      rw [he] at hlater
      rw [hfirst]
      exact ⟨fun hx => ⟨.inr hx,hlater.mp nofun⟩,fun hx => hx.1.resolve_left hsome⟩
    | cons e es =>
      rw [hi,he] at h
      obtain rfl := Option.some.inj h
      rw [chain_and_holds,List.forall_mem_cons,hfirst,← he,excluded_holds]
      exact and_congr_left' ⟨.inr,fun hx => hx.resolve_left hsome⟩

theorem admits_none (h : groupCond f os = none) (v : Text) : Admits order os v := by
  rw [groupCond] at h
  cases hi : included os with
  | nil =>
    cases he : excluded os with
    | nil =>
      refine ⟨.inl (included_none hi),fun o ho hsign => ?_⟩
      have hin : o ∈ excluded os := List.mem_filter.mpr ⟨ho,by simpa using hsign⟩
      rw [he] at hin
      cases hin
    | cons e es => rw [hi,he] at h; cases h
  | cons i is =>
    cases he : excluded os <;> rw [hi,he] at h <;> cases h

theorem groupTokens_none : groupCond f os = none ↔ groupTokens f os = [] := by
  rw [groupCond,groupTokens]
  cases hi : included os with
  | nil =>
    cases he : excluded os with
    | nil => simp [includeTokens,excludeTokens,hi,he,chained]
    | cons e es =>
      have hne : excludeTokens f os ≠ [] := options_ne_nil (by simp [he])
      simp [hne]
  | cons i is =>
    have hne : includeTokens f os ≠ [] := options_ne_nil (by simp [hi])
    cases he : excluded os <;> simp [hne]

end groups

section filters

variable {order : Text → Text → Ordering} {row : Text → Text} {toUpper : Text → Text}
  {properties : List (Text × Text)}

-- the filters that restrict something, each with its tokens and its condition
def filterParts (toUpper : Text → Text) (properties : List (Text × Text)) (filters : List Filter) :
    List (List Token × Cond) :=
  filters.filterMap fun x =>
    (groupCond (field toUpper properties x) x.selectOptions).map fun c =>
      (.opens :: groupTokens (field toUpper properties x) x.selectOptions ++ [.closes],c)

def condOf (toUpper : Text → Text) (properties : List (Text × Text)) (filters : List Filter) : Option Cond :=
  match (filterParts toUpper properties filters).map Prod.snd with
  | [] => none
  | c :: cs => some (Level.and.chain c cs)

theorem added_parts {x : Filter} (hx : (Token.word (field toUpper properties x)).proper) (acc : Text) :
    added toUpper properties acc x = ((filterParts toUpper properties [x]).map fun y => render y.1).foldl
      (joined " AND ".toList) acc := by
  rw [added,group_render hx]
  cases hc : groupCond (field toUpper properties x) x.selectOptions with
  | none =>
    rw [(groupTokens_none).mp hc]
    simp [filterParts,hc,render]
  | some c =>
    have hne : groupTokens (field toUpper properties x) x.selectOptions ≠ [] := by
      intro hnil
      rw [(groupTokens_none).mpr hnil] at hc
      cases hc
    have htext : render (.opens :: groupTokens (field toUpper properties x) x.selectOptions ++ [.closes]) =
        "( ".toList ++ render (groupTokens (field toUpper properties x) x.selectOptions) ++ " )".toList := by
      rw [List.cons_append,render_cons _ (by simp),render_append hne (by simp)]
      simp [render,Token.spelling]
    simp only [filterParts,List.filterMap_cons,List.filterMap_nil,hc,Option.map_some,List.map_cons,
      List.map_nil,List.foldl_cons,List.foldl_nil]
    rw [if_neg (render_ne_nil hne (group_proper hx _)),htext]

theorem parts_proper {filters : List Filter} (h : ∀ x ∈ filters,fits (field toUpper properties x)) :
    ∀ y ∈ filterParts toUpper properties filters,y.1 ≠ [] ∧ ∀ t ∈ y.1,t.proper := by
  intro y hy
  obtain ⟨x,hx,hy⟩ := List.mem_filterMap.mp hy
  obtain ⟨c,-,rfl⟩ := Option.map_eq_some_iff.mp hy
  refine ⟨by simp,fun t ht => ?_⟩
  simp only [List.cons_append,List.mem_cons,List.mem_append,List.not_mem_nil,or_false] at ht
  rcases ht with rfl | ht | rfl
  · trivial
  · exact group_proper (h x hx).1 _ t ht
  · trivial

theorem clause_text {filters : List Filter} (h : ∀ x ∈ filters,fits (field toUpper properties x)) :
    get_osql_where_clause toUpper properties filters =
      render (chained "AND".toList ((filterParts toUpper properties filters).map Prod.fst)) := by
  have hand : " AND ".toList = ' ' :: ("AND".toList ++ [' ']) := by decide
  have hfold : ∀ (acc : Text) (xs : List Filter),(∀ x ∈ xs,fits (field toUpper properties x)) →
      xs.foldl (added toUpper properties) acc =
        ((filterParts toUpper properties xs).map fun y => render y.1).foldl (joined " AND ".toList) acc := by
    intro acc xs
    induction xs generalizing acc with
    | nil => intro _; rfl
    | cons x xs ih =>
      intro hxs
      have hsplit : filterParts toUpper properties (x :: xs) =
          filterParts toUpper properties [x] ++ filterParts toUpper properties xs :=
        List.filterMap_append (l := [x])
      rw [List.foldl_cons,added_parts (hxs x (List.mem_cons_self ..)).1,
        ih _ fun y hy => hxs y (List.mem_cons_of_mem _ hy),hsplit,List.map_append,List.foldl_append]
  have hparts : ∀ ts ∈ (filterParts toUpper properties filters).map Prod.fst,ts ≠ [] ∧ ∀ t ∈ ts,t.proper := by
    intro ts hts
    obtain ⟨y,hy,rfl⟩ := List.mem_map.mp hts
    exact parts_proper h y hy
  have hjoined := joined_render and_proper hparts
  rw [get_osql_where_clause,hfold [] filters h,hand,← hjoined,List.map_map]
  rfl

theorem parts_read {filters : List Filter} (h : ∀ x ∈ filters,fits (field toUpper properties x)) {c : Cond}
    (hc : condOf toUpper properties filters = some c) :
    Reads .or (chained "AND".toList ((filterParts toUpper properties filters).map Prod.fst)) c [] := by
  have hpart : ∀ y ∈ filterParts toUpper properties filters,∀ rest,Reads .not (y.1 ++ rest) y.2 rest := by
    intro y hy rest
    obtain ⟨x,hx,hy⟩ := List.mem_filterMap.mp hy
    obtain ⟨d,hd,rfl⟩ := Option.map_eq_some_iff.mp hy
    have hends : Ends (.closes :: rest) := .inr ⟨rest,rfl⟩
    have hread := (group_reads (h x hx).2 x.selectOptions hends d hd).parens
    simpa using hread
  rw [condOf] at hc
  cases hparts : filterParts toUpper properties filters with
  | nil => rw [hparts] at hc; cases hc
  | cons y ys =>
    rw [hparts] at hc
    obtain rfl := Option.some.inj hc
    have hchain := Reads.chain (l := .and) nofun y
      (fun z (hz : z ∈ y :: ys) rest _ => hpart z (hparts ▸ hz) rest) (.inl rfl)
    rw [List.append_nil] at hchain
    exact hchain.lift (.inl rfl)

theorem parts_hold (filters : List Filter) :
    (∀ y ∈ filterParts toUpper properties filters,y.2.holds order row) ↔
      ∀ x ∈ filters,Admits order x.selectOptions (row (field toUpper properties x)) := by
  constructor
  · intro h x hx
    cases hc : groupCond (field toUpper properties x) x.selectOptions with
    | none => exact admits_none hc _
    | some c =>
      have hpart : (.opens :: groupTokens (field toUpper properties x) x.selectOptions ++ [.closes],c) ∈
          filterParts toUpper properties filters := by
        refine List.mem_filterMap.mpr ⟨x,hx,?_⟩
        rw [hc]
        rfl
      exact (group_holds c hc).mp (h _ hpart)
  · intro h y hy
    obtain ⟨x,hx,hy⟩ := List.mem_filterMap.mp hy
    obtain ⟨c,hc,rfl⟩ := Option.map_eq_some_iff.mp hy
    exact (group_holds c hc).mpr (h x hx)

-- a table without its texts, and a condition without its literals
def SelectOption.blank (o : SelectOption) : SelectOption := {o with low := [],high := []}

def Filter.blank (x : Filter) : Filter := {x with selectOptions := x.selectOptions.map SelectOption.blank}

def Cond.blank : Cond → Cond
  | .compare f c _ => .compare f c []
  | .between f _ _ => .between f [] []
  | .like f _ _ => .like f [] none
  | .not c => .not c.blank
  | .and c d => .and c.blank d.blank
  | .or c d => .or c.blank d.blank

theorem option_blank (f : Text) (o : SelectOption) : optionCond f o.blank = (optionCond f o).blank := by
  obtain ⟨sign,option,low,high⟩ := o
  cases sign <;> cases option <;> rfl

theorem chain_blank (l : Level) (c : Cond) (cs : List Cond) :
    (l.chain c cs).blank = l.chain c.blank (cs.map Cond.blank) := by
  induction cs generalizing c with
  | nil => rfl
  | cons d ds ih =>
    rw [List.map_cons,Level.chain,Level.chain,← ih]
    cases l <;> rfl

theorem options_blank (f : Text) (os : List SelectOption) :
    (os.map SelectOption.blank).map (optionCond f) = (os.map (optionCond f)).map Cond.blank := by
  rw [List.map_map,List.map_map]
  exact List.map_congr_left fun o _ => option_blank f o

theorem group_blank (f : Text) (os : List SelectOption) :
    groupCond f (os.map SelectOption.blank) = (groupCond f os).map Cond.blank := by
  have hi : included (os.map SelectOption.blank) = (included os).map SelectOption.blank := List.filter_map
  have he : excluded (os.map SelectOption.blank) = (excluded os).map SelectOption.blank := List.filter_map
  rw [groupCond,groupCond,hi,he]
  cases included os with
  | nil =>
    cases excluded os with
    | nil => rfl
    | cons e es => simp only [List.map_nil,List.map_cons,Option.map_some,chain_blank,option_blank,options_blank]
  | cons i is =>
    cases excluded os with
    | nil => simp only [List.map_nil,List.map_cons,Option.map_some,chain_blank,option_blank,options_blank]
    | cons e es => simp only [List.map_cons,Option.map_some,chain_blank,option_blank,options_blank]

theorem condOf_blank (filters : List Filter) : condOf toUpper properties (filters.map Filter.blank) =
    (condOf toUpper properties filters).map Cond.blank := by
  have hparts : (filterParts toUpper properties (filters.map Filter.blank)).map Prod.snd =
      ((filterParts toUpper properties filters).map Prod.snd).map Cond.blank := by
    induction filters with
    | nil => rfl
    | cons x xs ih =>
      have hgroup : groupCond (field toUpper properties x.blank) x.blank.selectOptions =
          (groupCond (field toUpper properties x) x.selectOptions).map Cond.blank := group_blank ..
      simp only [filterParts,List.map_cons,List.filterMap_cons] at ih ⊢
      rw [hgroup]
      cases groupCond (field toUpper properties x) x.selectOptions with
      | none => exact ih
      | some c => simp only [Option.map_some,List.map_cons,ih]
  rw [condOf,condOf,hparts]
  cases (filterParts toUpper properties filters).map Prod.snd with
  | nil => rfl
  | cons c cs => simp only [List.map_cons,Option.map_some,chain_blank]

end filters

theorem clause_means (toUpper : Text → Text) (properties : List (Text × Text)) (filters : List Filter)
    (hfields : ∀ x ∈ filters,fits (field toUpper properties x)) :
    (get_osql_where_clause toUpper properties filters = [] ∧
      ∀ (order : Text → Text → Ordering) (row : Text → Text),∀ x ∈ filters,
        Admits order x.selectOptions (row (field toUpper properties x))) ∨
    ∃ tokens c,scan .outside (get_osql_where_clause toUpper properties filters) = some tokens ∧
      Reads .or tokens c [] ∧
      condOf toUpper properties (filters.map Filter.blank) = some c.blank ∧
      ∀ (order : Text → Text → Ordering) (row : Text → Text),c.holds order row ↔
        ∀ x ∈ filters,Admits order x.selectOptions (row (field toUpper properties x)) := by
  cases hc : condOf toUpper properties filters with
  | none =>
    have hparts : filterParts toUpper properties filters = [] := by
      rw [condOf] at hc
      cases h : filterParts toUpper properties filters with
      | nil => rfl
      | cons y ys => rw [h] at hc; cases hc
    refine .inl ⟨?_,fun order row => (parts_hold filters).mp ?_⟩
    · rw [clause_text hfields,hparts]
      rfl
    · rw [hparts]
      nofun
  | some c =>
    refine .inr ⟨_,c,?_,parts_read hfields hc,?_,fun order row => ?_⟩
    · rw [clause_text hfields]
      refine scan_render (chained_proper and_proper fun ts hts => ?_)
      obtain ⟨y,hy,rfl⟩ := List.mem_map.mp hts
      exact (parts_proper hfields y hy).2
    · rw [condOf_blank,hc]
      rfl
    · rw [← parts_hold]
      rw [condOf] at hc
      cases hparts : filterParts toUpper properties filters with
      | nil => rw [hparts] at hc; cases hc
      | cons y ys =>
        rw [hparts] at hc
        obtain rfl := Option.some.inj hc
        rw [chain_and_holds,← List.map_cons,List.forall_mem_map]

theorem clause_means_quoted : ∃ tokens c,
    scan .outside (get_osql_where_clause id [] [⟨['A'],[⟨.i,.eq,"o'b".toList,[]⟩,⟨.e,.cp,"%*".toList,[]⟩]⟩]) =
      some tokens ∧ Reads .or tokens c [] := by
  rcases clause_means id [] [⟨['A'],[⟨.i,.eq,"o'b".toList,[]⟩,⟨.e,.cp,"%*".toList,[]⟩]⟩]
    (by
      intro x hx
      obtain rfl := List.mem_singleton.mp hx
      exact ⟨⟨by decide,by decide⟩,by decide⟩) with ⟨h,-⟩ | ⟨tokens,c,hscan,hread,-⟩
  · exact absurd h (by decide)
  · exact ⟨tokens,c,hscan,hread⟩

end OpenSteamgate.Gateway.WhereText
