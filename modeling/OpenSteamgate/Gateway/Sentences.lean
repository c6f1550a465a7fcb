import OpenSteamgate.Gateway.Parsing

namespace OpenSteamgate.Gateway.Filter

variable {case : Case} {set : EntitySet} {nodes : List Node} {tokens : List Token}
  {c d : Condition} {s s' : Parser} {n id : Nat}

inductive Level
  | or
  | and
  | unary
  deriving DecidableEq

inductive Atom (case : Case) (set : EntitySet) : Condition → List Token → Prop
  | comparison {name op literal : Token} {property value : String} : name.kind = .ident →
      ¬keyword case name "not" → findProperty case set name.value = .ok property →
      op.kind = .ident → comparison (case.lower op.value) →
      literalValue case literal = .ok value →
      Atom case set (.cmp property (case.lower op.value) value) [name,op,literal]
  | affix {function paren name comma literal close : Token} {property value : String} :
      function.kind = .ident →
      case.lower function.value = "startswith" ∨ case.lower function.value = "endswith" →
      paren.kind = .lparen → findProperty case set name.value = .ok property →
      comma.kind = .comma → literalValue case literal = .ok value → close.kind = .rparen →
      Atom case set (.fn property (case.lower function.value) value)
        [function,paren,name,comma,literal,close]
  | contained {function paren literal comma name close : Token} {property value : String} :
      function.kind = .ident → case.lower function.value = "substringof" →
      paren.kind = .lparen → literalValue case literal = .ok value → comma.kind = .comma →
      findProperty case set name.value = .ok property → close.kind = .rparen →
      Atom case set (.fn property "substringof" value)
        [function,paren,literal,comma,name,close]
  | folded {function paren name close op literal : Token} {property value : String} :
      function.kind = .ident → case.lower function.value = "tolower" ∨
        case.lower function.value = "toupper" ∨ case.lower function.value = "trim" →
      paren.kind = .lparen → close.kind = .rparen →
      findProperty case set name.value = .ok property → literalValue case literal = .ok value →
      Atom case set (.cmp property (case.lower op.value) value)
        [function,paren,name,close,op,literal]

inductive Sentence (case : Case) (set : EntitySet) : Level → Condition → List Token → Prop
  | conjunction {c : Condition} {ts : List Token} : Sentence case set .and c ts →
      Sentence case set .or c ts
  | or {l r : Condition} {t : Token} {ts us : List Token} : Sentence case set .or l ts →
      keyword case t "or" → Sentence case set .and r us →
      Sentence case set .or (.or l r) (ts ++ t :: us)
  | operand {c : Condition} {ts : List Token} : Sentence case set .unary c ts →
      Sentence case set .and c ts
  | and {l r : Condition} {t : Token} {ts us : List Token} : Sentence case set .and l ts →
      keyword case t "and" → Sentence case set .unary r us →
      Sentence case set .and (.and l r) (ts ++ t :: us)
  | not {c : Condition} {t : Token} {ts : List Token} : keyword case t "not" →
      Sentence case set .unary c ts → Sentence case set .unary (.not c) (t :: ts)
  | group {c : Condition} {t u : Token} {ts : List Token} : t.kind = .lparen →
      Sentence case set .or c ts → u.kind = .rparen →
      Sentence case set .unary c (t :: ts ++ [u])
  | atom {c : Condition} {ts : List Token} : Atom case set c ts →
      Sentence case set .unary c ts

section Soundness

def Derived (case : Case) (set : EntitySet) (level : Level) (s s' : Parser) : Prop :=
  ∃ c ts, s.tokens = ts ++ s'.tokens ∧ Sentence case set level c ts

theorem tokens_take (h : s.tokens ≠ []) : s.tokens = s.peek :: s.take.2.tokens := by
  change s.tokens = s.tokens.headD _ :: s.tokens.tail
  cases ht : s.tokens with
  | nil => exact (h ht).elim
  | cons t ts => rfl

theorem tokens_behind (h : s.take.2.tokens ≠ []) : s.tokens ≠ [] := by
  intro hnil
  refine h ?_
  change s.tokens.tail = []
  rw [hnil]
  rfl

theorem tokens_peek (h : s.peek.kind ≠ .done) : s.tokens ≠ [] := by
  intro hnil
  rw [Parser.peek,hnil] at h
  exact h rfl

theorem keyword_iff {t : Token} {word : String} :
    keyword case t word = true ↔ t.kind = .ident ∧ case.lower t.value = word := by
  rw [keyword,Bool.and_eq_true,beq_iff_eq,beq_iff_eq]

theorem keyword_cons {word : String} (h : keyword case s.peek word = true) :
    s.tokens = s.peek :: s.take.2.tokens :=
  tokens_take (tokens_peek fun hdone => nomatch ((keyword_iff).mp h).1.symm.trans hdone)

theorem expect_kind {kind : Kind} (h : expect s kind = .ok s') : s.peek.kind = kind := by
  simp only [expect] at h
  split at h
  · assumption
  · cases h

theorem literal_tokens {value : String} (h : literalValue case s.peek = .ok value) :
    s.tokens ≠ [] := by
  refine tokens_peek fun hdone => ?_
  rw [literalValue,hdone] at h
  cases h

theorem parseComparison_atom {t : Token} {r : Nat × Parser} (hkind : t.kind = .ident)
    (hnot : ¬keyword case t "not" = true) (h : parseComparison case set s t.value = .ok r) :
    ∃ c ts,s.tokens = ts ++ r.2.tokens ∧ Atom case set c (t :: ts) := by
  obtain ⟨property,hproperty,h⟩ := bind_eq_ok h
  simp only at h
  split at h
  · exact nomatch h
  · rename_i hop
    obtain ⟨hop,hcomparison⟩ := not_or.mp hop
    obtain ⟨value,hvalue,h⟩ := bind_eq_ok h
    obtain rfl := Except.ok.inj h
    have hliteral := literal_tokens hvalue
    refine ⟨_,[s.peek,s.take.2.peek],?_,.comparison hkind hnot hproperty (not_not.mp hop) ?_ hvalue⟩
    · rw [tokens_take (tokens_behind hliteral),tokens_take hliteral]
      rfl
    · change comparison (case.lower s.take.1.value) = true
      simpa using hcomparison

theorem parseFunction_atom {t u : Token} {r : Nat × Parser} (hkind : t.kind = .ident)
    (hu : u.kind = .lparen) (h : parseFunction case set s (case.lower t.value) = .ok r) :
    ∃ c ts,s.tokens = ts ++ r.2.tokens ∧ Atom case set c (t :: u :: ts) := by
  have hfour (h : s.take.2.take.2.take.2.tokens ≠ []) : s.tokens =
      [s.peek,s.take.2.peek,s.take.2.take.2.peek,s.take.2.take.2.take.2.peek] ++
        s.take.2.take.2.take.2.take.2.tokens := by
    rw [tokens_take (tokens_behind (tokens_behind (tokens_behind h))),
      tokens_take (tokens_behind (tokens_behind h)),tokens_take (tokens_behind h),tokens_take h]
    rfl
  simp only [parseFunction] at h
  split at h
  · rename_i hname
    obtain ⟨property,hproperty,h⟩ := bind_eq_ok h
    obtain ⟨s₁,h₁,h⟩ := bind_eq_ok h
    obtain ⟨value,hvalue,h⟩ := bind_eq_ok h
    obtain ⟨s₂,h₂,h⟩ := bind_eq_ok h
    have hcomma := expect_kind h₁
    have hclose := expect_kind h₂
    obtain rfl := expect_ok h₁
    obtain rfl := expect_ok h₂
    obtain rfl := Except.ok.inj h
    refine ⟨_,_,hfour (tokens_peek ?_),.affix hkind hname hu hproperty hcomma hvalue hclose⟩
    intro hdone
    exact absurd (hclose.symm.trans hdone) (by decide)
  split at h
  · rename_i hname
    obtain ⟨value,hvalue,h⟩ := bind_eq_ok h
    obtain ⟨s₁,h₁,h⟩ := bind_eq_ok h
    obtain ⟨property,hproperty,h⟩ := bind_eq_ok h
    obtain ⟨s₂,h₂,h⟩ := bind_eq_ok h
    have hcomma := expect_kind h₁
    have hclose := expect_kind h₂
    obtain rfl := expect_ok h₁
    obtain rfl := expect_ok h₂
    obtain rfl := Except.ok.inj h
    refine ⟨_,_,hfour (tokens_peek ?_),.contained hkind hname hu hvalue hcomma hproperty hclose⟩
    intro hdone
    exact absurd (hclose.symm.trans hdone) (by decide)
  split at h
  · rename_i hname
    obtain ⟨s₁,h₁,h⟩ := bind_eq_ok h
    obtain ⟨property,hproperty,h⟩ := bind_eq_ok h
    obtain ⟨value,hvalue,h⟩ := bind_eq_ok h
    have hclose := expect_kind h₁
    obtain rfl := expect_ok h₁
    obtain rfl := Except.ok.inj h
    exact ⟨_,_,hfour (literal_tokens hvalue),.folded hkind hname hu hclose hproperty hvalue⟩
  · cases h

structure Derives (case : Case) (set : EntitySet) (n : Nat) : Prop where
  or : ∀ s r, parseOr case set n s = .ok r → Derived case set .or s r.2
  orLoop : ∀ t id s r, Derived case set .or t s → orLoop case set n id s = .ok r →
    Derived case set .or t r.2
  and : ∀ s r, parseAnd case set n s = .ok r → Derived case set .and s r.2
  andLoop : ∀ t id s r, Derived case set .and t s → andLoop case set n id s = .ok r →
    Derived case set .and t r.2
  unary : ∀ s r, parseUnary case set n s = .ok r → Derived case set .unary s r.2
  primary : ∀ s r, ¬keyword case s.peek "not" = true → parsePrimary case set n s = .ok r →
    Derived case set .unary s r.2

theorem derives (case : Case) (set : EntitySet) (n : Nat) : Derives case set n := by
  induction n with
  | zero => exact ⟨nofun,nofun,nofun,nofun,nofun,nofun⟩
  | succ n ih =>
    constructor
    · intro s r h
      rw [parseOr] at h
      obtain ⟨⟨id,t⟩,hand,h⟩ := bind_eq_ok h
      obtain ⟨c,ts,htokens,hc⟩ := ih.and s _ hand
      exact ih.orLoop s id t r ⟨c,ts,htokens,.conjunction hc⟩ h
    · intro t id s r hderived h
      rw [Filter.orLoop] at h
      split at h
      · exact Except.ok.inj h ▸ hderived
      · rename_i hor
        have hor : keyword case s.peek "or" = true := by simpa using hor
        obtain ⟨⟨right,u⟩,hand,h⟩ := bind_eq_ok h
        obtain ⟨c,ts,htokens,hc⟩ := hderived
        obtain ⟨d,us,hrest,hd⟩ := ih.and _ _ hand
        refine ih.orLoop t _ _ r ⟨_,ts ++ s.peek :: us,?_,.or hc hor hd⟩ h
        rw [htokens,keyword_cons hor,hrest]
        simp
    · intro s r h
      rw [parseAnd] at h
      obtain ⟨⟨id,t⟩,hunary,h⟩ := bind_eq_ok h
      obtain ⟨c,ts,htokens,hc⟩ := ih.unary s _ hunary
      exact ih.andLoop s id t r ⟨c,ts,htokens,.operand hc⟩ h
    · intro t id s r hderived h
      rw [Filter.andLoop] at h
      split at h
      · exact Except.ok.inj h ▸ hderived
      · rename_i hand
        have hand : keyword case s.peek "and" = true := by simpa using hand
        obtain ⟨⟨right,u⟩,hunary,h⟩ := bind_eq_ok h
        obtain ⟨c,ts,htokens,hc⟩ := hderived
        obtain ⟨d,us,hrest,hd⟩ := ih.unary _ _ hunary
        refine ih.andLoop t _ _ r ⟨_,ts ++ s.peek :: us,?_,.and hc hand hd⟩ h
        rw [htokens,keyword_cons hand,hrest]
        simp
    · intro s r h
      rw [parseUnary] at h
      split at h
      · rename_i hnot
        obtain ⟨⟨left,u⟩,hunary,h⟩ := bind_eq_ok h
        obtain rfl := Except.ok.inj h
        obtain ⟨c,ts,hrest,hc⟩ := ih.unary _ _ hunary
        refine ⟨_,s.peek :: ts,?_,.not hnot hc⟩
        rw [keyword_cons hnot,hrest]
        rfl
      · exact ih.primary s r ‹_› h
    · intro s r hnot h
      rw [parsePrimary] at h
      simp only at h
      split at h
      · rename_i hparen
        obtain ⟨⟨id,t⟩,hor,h⟩ := bind_eq_ok h
        obtain ⟨u,hexpect,h⟩ := bind_eq_ok h
        have hclose := expect_kind hexpect
        obtain rfl := expect_ok hexpect
        obtain rfl := Except.ok.inj h
        obtain ⟨c,ts,hrest,hc⟩ := ih.or _ _ hor
        refine ⟨c,s.peek :: ts ++ [t.peek],?_,.group hparen hc hclose⟩
        have hopen : s.tokens ≠ [] :=
          tokens_peek fun hdone => absurd (hparen.symm.trans hdone) (by decide)
        have hend : t.tokens ≠ [] := tokens_peek fun hdone => absurd (hclose.symm.trans hdone) (by decide)
        rw [tokens_take hopen,hrest,tokens_take hend]
        simp
      · split at h
        · cases h
        · rename_i hident
          have hident : s.peek.kind = .ident := not_not.mp hident
          have hname : s.tokens ≠ [] := tokens_peek fun hdone => absurd (hident.symm.trans hdone) (by decide)
          split at h
          · rename_i hparen
            obtain ⟨c,ts,hrest,hc⟩ := parseFunction_atom hident hparen h
            refine ⟨c,_,?_,.atom hc⟩
            have hopen : s.take.2.tokens ≠ [] :=
              tokens_peek fun hdone => absurd (hparen.symm.trans hdone) (by decide)
            rw [tokens_take hname,tokens_take hopen,hrest]
            rfl
          · obtain ⟨c,ts,hrest,hc⟩ := parseComparison_atom hident hnot h
            refine ⟨c,_,?_,.atom hc⟩
            rw [tokens_take hname,hrest]
            rfl

end Soundness

section Completeness

def Yields {α : Type} (x : Except Raise α) (a : α) : Prop := x = .ok a ∨ x = .error .fuel

theorem yields_ok {α : Type} (a : α) : Yields (.ok a) a := .inl rfl

theorem yields_fuel {α : Type} (a : α) : Yields (.error .fuel) a := .inr rfl

theorem Yields.bind {α β : Type} {x : Except Raise α} {f : α → Except Raise β} {a : α} {b : β}
    (hx : Yields x a) (hf : Yields (f a) b) : Yields (x >>= f) b := by
  rcases hx with rfl | rfl
  · exact hf
  · exact yields_fuel b

theorem Yields.eq_ok {α : Type} {x : Except Raise α} {a : α} (h : Yields x a) (hx : Lasts x) :
    x = .ok a :=
  h.resolve_right hx

def Completes (case : Case) (set : EntitySet) : Level → Condition → List Token → Prop
  | .unary,c,ts => ∀ nodes rest, ∃ more, Represents (nodes ++ more) (nodes ++ more).length c ∧
      ∀ n, Yields (parseUnary case set n ⟨ts ++ rest,nodes⟩)
        ((nodes ++ more).length,⟨rest,nodes ++ more⟩)
  | .and,c,ts => ∀ nodes rest, ∃ more, Represents (nodes ++ more) (nodes ++ more).length c ∧
      ∀ r, (∀ n, Yields (andLoop case set n (nodes ++ more).length ⟨rest,nodes ++ more⟩) r) →
      ∀ n, Yields (parseAnd case set n ⟨ts ++ rest,nodes⟩) r
  | .or,c,ts => ∀ nodes rest, ¬keyword case (rest.headD ⟨.done,""⟩) "and" = true →
      ∃ more, Represents (nodes ++ more) (nodes ++ more).length c ∧
      ∀ r, (∀ n, Yields (orLoop case set n (nodes ++ more).length ⟨rest,nodes ++ more⟩) r) →
      ∀ n, Yields (parseOr case set n ⟨ts ++ rest,nodes⟩) r

theorem expect_cons {t : Token} {kind : Kind} {rest : List Token} (h : t.kind = kind) :
    expect ⟨t :: rest,nodes⟩ kind = .ok ⟨rest,nodes⟩ := by
  rw [expect]
  exact if_pos h

theorem keyword_other {t : Token} {word other : String} (h : keyword case t word = true)
    (hne : word ≠ other) : ¬keyword case t other = true := by
  intro h'
  exact hne ((keyword_iff.mp h).2.symm.trans (keyword_iff.mp h').2)

theorem Atom.ne_nil {ts : List Token} (h : Atom case set c ts) :
    ∃ t us, ts = t :: us ∧ t.kind = .ident ∧ ¬keyword case t "not" = true := by
  cases h with
  | comparison hkind hnot => exact ⟨_,_,rfl,hkind,hnot⟩
  | affix hkind hname =>
    refine ⟨_,_,rfl,hkind,fun h => ?_⟩
    rw [(keyword_iff.mp h).2] at hname
    exact absurd hname (by decide)
  | contained hkind hname =>
    refine ⟨_,_,rfl,hkind,fun h => ?_⟩
    rw [(keyword_iff.mp h).2] at hname
    exact absurd hname (by decide)
  | folded hkind hname =>
    refine ⟨_,_,rfl,hkind,fun h => ?_⟩
    rw [(keyword_iff.mp h).2] at hname
    exact absurd hname (by decide)

theorem parsePrimary_function {function paren : Token} {ts : List Token} {nodes : List Node} {n : Nat}
    (hkind : function.kind = .ident) (hparen : paren.kind = .lparen) :
    parsePrimary case set (n + 1) ⟨function :: paren :: ts,nodes⟩ =
      parseFunction case set ⟨ts,nodes⟩ (case.lower function.value) := by
  have hfunction : function.kind ≠ .lparen := by rw [hkind]; decide
  rw [parsePrimary]
  change (if function.kind = .lparen then _ else if function.kind ≠ .ident then _
    else if paren.kind = .lparen then _ else _) = _
  rw [if_neg hfunction,if_neg (not_not.mpr hkind),if_pos hparen]
  rfl

theorem Atom.leaf {ts : List Token} (h : Atom case set c ts) (rest : List Token) :
    ∃ node : Node,(∀ nodes,Represents (nodes ++ [node]) (nodes.length + 1) c) ∧
      ∀ nodes n,parsePrimary case set (n + 1) ⟨ts ++ rest,nodes⟩ =
        .ok (nodes.length + 1,⟨rest,nodes ++ [node]⟩) := by
  cases h with
  | @comparison name op literal property value hkind hnot hproperty hop hcomparison hvalue =>
    refine ⟨{kind := .cmp,property,op := case.lower op.value,value},
      fun nodes => .cmp (nodeAt_last nodes _) rfl,fun nodes n => ?_⟩
    have hname : name.kind ≠ .lparen := by rw [hkind]; decide
    have hafter : op.kind ≠ .lparen := by rw [hop]; decide
    rw [parsePrimary]
    change (if name.kind = .lparen then _ else if name.kind ≠ .ident then _
      else if op.kind = .lparen then _ else _) = _
    rw [if_neg hname,if_neg (not_not.mpr hkind),if_neg hafter]
    refine bind_ok hproperty ?_
    change (if op.kind ≠ .ident ∨ (!Filter.comparison (case.lower op.value)) = true then _ else _) = _
    rw [if_neg (by rw [hcomparison]; simp [hop])]
    exact bind_ok hvalue rfl
  | @affix function paren name comma literal close property value hkind hname hparen hproperty
      hcomma hvalue hclose =>
    refine ⟨{kind := .fn,property,op := case.lower function.value,value},
      fun nodes => .fn (nodeAt_last nodes _) rfl,fun nodes n => ?_⟩
    refine (parsePrimary_function hkind hparen).trans ?_
    rw [parseFunction,if_pos hname]
    refine bind_ok hproperty (bind_ok (expect_cons hcomma) ?_)
    exact bind_ok hvalue (bind_ok (expect_cons hclose) rfl)
  | @contained function paren literal comma name close property value hkind hname hparen hvalue
      hcomma hproperty hclose =>
    refine ⟨{kind := .fn,property,op := "substringof",value},
      fun nodes => .fn (nodeAt_last nodes _) rfl,fun nodes n => ?_⟩
    refine (parsePrimary_function hkind hparen).trans ?_
    rw [hname]
    refine bind_ok hvalue (bind_ok (expect_cons hcomma) ?_)
    exact bind_ok hproperty (bind_ok (expect_cons hclose) rfl)
  | @folded function paren name close op literal property value hkind hname hparen hclose
      hproperty hvalue =>
    refine ⟨{kind := .cmp,property,op := case.lower op.value,value},
      fun nodes => .cmp (nodeAt_last nodes _) rfl,fun nodes n => ?_⟩
    refine (parsePrimary_function hkind hparen).trans ?_
    have haffix : ¬(case.lower function.value = "startswith" ∨
        case.lower function.value = "endswith") := by
      rcases hname with hname | hname | hname <;> rw [hname] <;> decide
    have hcontained : case.lower function.value ≠ "substringof" := by
      rcases hname with hname | hname | hname <;> rw [hname] <;> decide
    rw [parseFunction,if_neg haffix,if_neg hcontained,if_pos hname]
    exact bind_ok (expect_cons hclose) (bind_ok hproperty (bind_ok hvalue rfl))

theorem parseUnary_primary {n : Nat} {r : Nat × Parser} (h : ¬keyword case s.peek "not" = true)
    (hr : ∀ n,Yields (parsePrimary case set n s) r) : Yields (parseUnary case set n s) r := by
  cases n with
  | zero => exact yields_fuel _
  | succ n =>
    rw [parseUnary,if_neg h]
    exact hr n

theorem orLoop_ends {n : Nat} (h : ¬keyword case s.peek "or" = true) :
    Yields (orLoop case set n id s) (id,s) := by
  cases n with
  | zero => exact yields_fuel _
  | succ n =>
    rw [orLoop,if_pos (by simpa using h)]
    exact yields_ok _

theorem andLoop_ends {n : Nat} (h : ¬keyword case s.peek "and" = true) :
    Yields (andLoop case set n id s) (id,s) := by
  cases n with
  | zero => exact yields_fuel _
  | succ n =>
    rw [andLoop,if_pos (by simpa using h)]
    exact yields_ok _

theorem Atom.completes {ts : List Token} (h : Atom case set c ts) :
    Completes case set .unary c ts := by
  intro nodes rest
  obtain ⟨node,hrepresents,hparse⟩ := h.leaf rest
  have hlength : (nodes ++ [node]).length = nodes.length + 1 := List.length_append
  refine ⟨[node],hlength ▸ hrepresents nodes,fun n => parseUnary_primary ?_ fun n => ?_⟩
  · obtain ⟨t,us,rfl,_,hnot⟩ := h.ne_nil
    exact hnot
  · cases n with
    | zero => exact yields_fuel _
    | succ n =>
      rw [hparse nodes n,hlength]
      exact yields_ok _

theorem Represents.join_nodes {kind : NodeKind} {l r : Condition} {more : List Node}
    (hkind : kind = .or ∨ kind = .and) (hl : Represents nodes nodes.length l)
    (hr : Represents (nodes ++ more) (nodes ++ more).length r) :
    Represents (nodes ++ more ++ [{kind,left := nodes.length,right := (nodes ++ more).length}])
      ((nodes ++ more).length + 1) (if kind = .or then .or l r else .and l r) := by
  have hat := nodeAt_last (nodes ++ more)
    {kind,left := nodes.length,right := (nodes ++ more).length}
  have hleft : nodes.length < (nodes ++ more).length + 1 := by
    rw [List.length_append]
    omega
  rcases hkind with rfl | rfl
  · exact .or hat rfl hleft (Nat.lt_succ_self _) hl.append.append hr.append
  · exact .and hat rfl hleft (Nat.lt_succ_self _) hl.append.append hr.append

theorem length_snoc {α : Type} (xs : List α) (x : α) : (xs ++ [x]).length = xs.length + 1 :=
  List.length_append

theorem append_nodes (nodes more more' : List Node) (node : Node) :
    nodes ++ (more ++ more' ++ [node]) = nodes ++ more ++ more' ++ [node] := by
  simp only [List.append_assoc]

theorem orLoop_continues {t : Token} {r u : Nat × Parser} (ht : keyword case t "or" = true)
    (hand : ∀ n,Yields (parseAnd case set n ⟨tokens,nodes⟩) r)
    (hloop : ∀ n,Yields (orLoop case set n (r.2.addNode {kind := .or,left := id,right := r.1}).1
      (r.2.addNode {kind := .or,left := id,right := r.1}).2) u) :
    Yields (orLoop case set n id ⟨t :: tokens,nodes⟩) u := by
  cases n with
  | zero => exact yields_fuel _
  | succ n =>
    have hpeek : keyword case (Parser.mk (t :: tokens) nodes).peek "or" = true := ht
    rw [orLoop,if_neg (by rw [hpeek]; decide)]
    exact (hand n).bind (hloop n)

theorem andLoop_continues {t : Token} {r u : Nat × Parser} (ht : keyword case t "and" = true)
    (hunary : ∀ n,Yields (parseUnary case set n ⟨tokens,nodes⟩) r)
    (hloop : ∀ n,Yields (andLoop case set n (r.2.addNode {kind := .and,left := id,right := r.1}).1
      (r.2.addNode {kind := .and,left := id,right := r.1}).2) u) :
    Yields (andLoop case set n id ⟨t :: tokens,nodes⟩) u := by
  cases n with
  | zero => exact yields_fuel _
  | succ n =>
    have hpeek : keyword case (Parser.mk (t :: tokens) nodes).peek "and" = true := ht
    rw [andLoop,if_neg (by rw [hpeek]; decide)]
    exact (hunary n).bind (hloop n)

theorem completes_or {l r : Condition} {t : Token} {ts us : List Token}
    (hl : Completes case set .or l ts) (ht : keyword case t "or" = true)
    (hr : Completes case set .and r us) : Completes case set .or (.or l r) (ts ++ t :: us) := by
  intro nodes rest hrest
  obtain ⟨more,hleft,hparse⟩ := hl nodes (t :: us ++ rest) (keyword_other ht (by decide))
  obtain ⟨more',hright,hand⟩ := hr (nodes ++ more) rest
  refine ⟨more ++ more' ++
    [{kind := .or,left := (nodes ++ more).length,right := (nodes ++ more ++ more').length}],?_⟩
  rw [append_nodes,length_snoc]
  refine ⟨hleft.join_nodes (.inl rfl) hright,fun a hloop n => ?_⟩
  rw [List.append_assoc]
  refine hparse a (fun m => ?_) n
  exact orLoop_continues ht (hand _ fun k => andLoop_ends hrest) hloop

theorem completes_and {l r : Condition} {t : Token} {ts us : List Token}
    (hl : Completes case set .and l ts) (ht : keyword case t "and" = true)
    (hr : Completes case set .unary r us) : Completes case set .and (.and l r) (ts ++ t :: us) := by
  intro nodes rest
  obtain ⟨more,hleft,hparse⟩ := hl nodes (t :: us ++ rest)
  obtain ⟨more',hright,hunary⟩ := hr (nodes ++ more) rest
  refine ⟨more ++ more' ++
    [{kind := .and,left := (nodes ++ more).length,right := (nodes ++ more ++ more').length}],?_⟩
  rw [append_nodes,length_snoc]
  refine ⟨hleft.join_nodes (.inr rfl) hright,fun a hloop n => ?_⟩
  rw [List.append_assoc]
  refine hparse a (fun m => ?_) n
  exact andLoop_continues ht hunary hloop

theorem completes_conjunction {ts : List Token} (h : Completes case set .and c ts) :
    Completes case set .or c ts := by
  intro nodes rest hrest
  obtain ⟨more,hrepresents,hparse⟩ := h nodes rest
  refine ⟨more,hrepresents,fun a hloop n => ?_⟩
  cases n with
  | zero => exact yields_fuel _
  | succ n =>
    rw [parseOr]
    exact (hparse _ (fun k => andLoop_ends hrest) n).bind (hloop n)

theorem completes_operand {ts : List Token} (h : Completes case set .unary c ts) :
    Completes case set .and c ts := by
  intro nodes rest
  obtain ⟨more,hrepresents,hparse⟩ := h nodes rest
  refine ⟨more,hrepresents,fun a hloop n => ?_⟩
  cases n with
  | zero => exact yields_fuel _
  | succ n =>
    rw [parseAnd]
    exact (hparse n).bind (hloop n)

theorem completes_not {t : Token} {ts : List Token} (ht : keyword case t "not" = true)
    (h : Completes case set .unary c ts) : Completes case set .unary (.not c) (t :: ts) := by
  intro nodes rest
  obtain ⟨more,hrepresents,hparse⟩ := h nodes rest
  refine ⟨more ++ [{kind := .not,left := (nodes ++ more).length}],?_⟩
  rw [← List.append_assoc,length_snoc]
  have hat := nodeAt_last (nodes ++ more) {kind := .not,left := (nodes ++ more).length}
  refine ⟨.not hat rfl (Nat.lt_succ_self _) hrepresents.append,fun n => ?_⟩
  cases n with
  | zero => exact yields_fuel _
  | succ n =>
    have hpeek : keyword case (Parser.mk (t :: ts ++ rest) nodes).peek "not" = true := ht
    rw [parseUnary,if_pos hpeek]
    exact (hparse n).bind (yields_ok _)

theorem completes_group {t u : Token} {ts : List Token} (ht : t.kind = .lparen)
    (h : Completes case set .or c ts) (hu : u.kind = .rparen) :
    Completes case set .unary c (t :: ts ++ [u]) := by
  intro nodes rest
  have hother (word : String) : ¬keyword case u word = true :=
    fun h => nomatch hu.symm.trans (keyword_iff.mp h).1
  obtain ⟨more,hrepresents,hparse⟩ := h nodes (u :: rest) (hother "and")
  refine ⟨more,hrepresents,fun n => parseUnary_primary ?_ fun n => ?_⟩
  · exact fun h => nomatch ht.symm.trans (keyword_iff.mp h).1
  · cases n with
    | zero => exact yields_fuel _
    | succ n =>
      have hor := hparse _ (fun k => orLoop_ends (hother "or")) n
      rw [parsePrimary,List.append_assoc]
      change Yields (if t.kind = .lparen then _ else _) _
      rw [if_pos ht]
      exact hor.bind (Yields.bind (.inl (expect_cons hu)) (yields_ok _))

theorem Sentence.completes {level : Level} {ts : List Token} (h : Sentence case set level c ts) :
    Completes case set level c ts := by
  induction h with
  | conjunction _ ih => exact completes_conjunction ih
  | or _ ht _ ihl ihr => exact completes_or ihl ht ihr
  | operand _ ih => exact completes_operand ih
  | and _ ht _ ihl ihr => exact completes_and ihl ht ihr
  | not ht _ ih => exact completes_not ht ih
  | group ht _ hu ih => exact completes_group ht ih hu
  | atom h => exact h.completes

theorem parseTree_complete (h : Sentence case set .or c tokens) :
    ∃ nodes,parseTree case set tokens = .ok nodes ∧ Represents nodes nodes.length c := by
  obtain ⟨more,hrepresents,hparse⟩ := h.completes [] [] nofun
  rw [List.append_nil] at hparse
  have hor := hparse _ (fun n => orLoop_ends nofun) (4 * tokens.length + 4)
  have hlasts := (enough case set _).or ⟨tokens,[]⟩ (Nat.le_refl _)
  exact ⟨_,bind_ok (hor.eq_ok hlasts) rfl,hrepresents⟩

theorem parseTree_sentence (hreal : ∀ t ∈ tokens,t.kind ≠ .done)
    (h : parseTree case set tokens = .ok nodes) : ∃ c,Sentence case set .or c tokens := by
  obtain ⟨⟨id,s⟩,hor,h⟩ := bind_eq_ok h
  obtain ⟨c,ts,htokens,hc⟩ := (derives case set _).or _ _ hor
  simp only at h htokens
  split at h
  · exact nomatch h
  · rename_i hdone
    have hnil : s.tokens = [] := by
      by_contra hne
      refine hreal s.peek ?_ (not_not.mp hdone)
      rw [htokens,tokens_take hne]
      exact List.mem_append_right _ List.mem_cons_self
    rw [hnil,List.append_nil] at htokens
    exact ⟨c,htokens ▸ hc⟩

end Completeness

end OpenSteamgate.Gateway.Filter
