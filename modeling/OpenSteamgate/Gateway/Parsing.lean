import Mathlib.Data.Nat.Basic
import OpenSteamgate.Library.Outcome
import OpenSteamgate.Gateway.Ranges

namespace OpenSteamgate.Gateway.Filter

variable {case : Case} {set : EntitySet} {nodes more : List Node} {c : Condition} {id : Nat}
  {s s' : Parser}

theorem nodeAt_append {node : Node} (h : nodeAt nodes id = some node) :
    nodeAt (nodes ++ more) id = some node := by
  rw [nodeAt] at h ⊢
  split at h
  · cases h
  · rw [if_neg ‹_›,List.getElem?_append_left]
    · exact h
    · exact (List.getElem?_eq_some_iff.mp h).1

theorem Represents.append (h : Represents nodes id c) : Represents (nodes ++ more) id c := by
  induction h with
  | cmp hat hkind => exact .cmp (nodeAt_append hat) hkind
  | fn hat hkind => exact .fn (nodeAt_append hat) hkind
  | not hat hkind hlt _ ih => exact .not (nodeAt_append hat) hkind hlt ih
  | or hat hkind hl hr _ _ ihl ihr => exact .or (nodeAt_append hat) hkind hl hr ihl ihr
  | and hat hkind hl hr _ _ ihl ihr => exact .and (nodeAt_append hat) hkind hl hr ihl ihr

theorem nodeAt_last (nodes : List Node) (node : Node) :
    nodeAt (nodes ++ [node]) (nodes.length + 1) = some node := by
  rw [nodeAt,if_neg (Nat.succ_ne_zero _)]
  exact List.getElem?_concat_length

structure Reads (s : Parser) (id : Nat) (s' : Parser) : Prop where
  nodes : s.nodes <+: s'.nodes
  last : id = s'.nodes.length
  tree : ∃ c, Represents s'.nodes id c
  tokens : s'.tokens.length < s.tokens.length

theorem take_nodes (s : Parser) : s.take.2.nodes = s.nodes := rfl

theorem take_tokens (s : Parser) : s.take.2.tokens.length ≤ s.tokens.length := by
  change s.tokens.tail.length ≤ _
  rw [List.length_tail]
  exact Nat.sub_le _ _

theorem take_tokens_lt (h : s.peek.kind ≠ .done) : s.take.2.tokens.length < s.tokens.length := by
  change s.tokens.tail.length < _
  cases ht : s.tokens with
  | nil =>
    rw [Parser.peek,ht] at h
    exact (h rfl).elim
  | cons t ts => exact Nat.lt_succ_self _

theorem take_four (s : Parser) :
    s.take.2.take.2.take.2.take.2.tokens.length ≤ s.tokens.length :=
  Nat.le_trans (take_tokens _) (Nat.le_trans (take_tokens _)
    (Nat.le_trans (take_tokens _) (take_tokens s)))

theorem addNode_last (s : Parser) (node : Node) :
    (s.addNode node).1 = (s.addNode node).2.nodes.length := by
  change s.nodes.length + 1 = (s.nodes ++ [node]).length
  rw [List.length_append]
  rfl

theorem expect_ok {kind : Kind} (h : expect s kind = .ok s') : s' = s.take.2 := by
  simp only [expect] at h
  split at h
  · exact (Except.ok.inj h).symm
  · exact nomatch h

def Leaf (s : Parser) (r : Nat × Parser) : Prop :=
  ∃ (node : Node) (t : Parser), (node.kind = .cmp ∨ node.kind = .fn) ∧ t.nodes = s.nodes ∧
    t.tokens.length ≤ s.tokens.length ∧ r = t.addNode node

theorem parseComparison_leaf {name : String} {r : Nat × Parser}
    (h : parseComparison case set s name = .ok r) : Leaf s r := by
  obtain ⟨property,_,h⟩ := bind_eq_ok h
  simp only at h
  split at h
  · exact nomatch h
  · obtain ⟨value,_,h⟩ := bind_eq_ok h
    refine ⟨_,s.take.2.take.2,?_,rfl,?_,(Except.ok.inj h).symm⟩
    · exact .inl rfl
    · exact Nat.le_trans (take_tokens _) (take_tokens s)

theorem parseFunction_leaf {name : String} {r : Nat × Parser}
    (h : parseFunction case set s name = .ok r) : Leaf s r := by
  simp only [parseFunction] at h
  split at h
  · obtain ⟨property,_,h⟩ := bind_eq_ok h
    obtain ⟨s₁,h₁,h⟩ := bind_eq_ok h
    obtain ⟨value,_,h⟩ := bind_eq_ok h
    obtain ⟨s₂,h₂,h⟩ := bind_eq_ok h
    obtain rfl := expect_ok h₁
    obtain rfl := expect_ok h₂
    refine ⟨_,_,?_,?_,?_,(Except.ok.inj h).symm⟩
    · exact .inr rfl
    · rfl
    · exact take_four s
  split at h
  · obtain ⟨value,_,h⟩ := bind_eq_ok h
    obtain ⟨s₁,h₁,h⟩ := bind_eq_ok h
    obtain ⟨property,_,h⟩ := bind_eq_ok h
    obtain ⟨s₂,h₂,h⟩ := bind_eq_ok h
    obtain rfl := expect_ok h₁
    obtain rfl := expect_ok h₂
    refine ⟨_,_,?_,?_,?_,(Except.ok.inj h).symm⟩
    · exact .inr rfl
    · rfl
    · exact take_four s
  split at h
  · obtain ⟨s₁,h₁,h⟩ := bind_eq_ok h
    obtain ⟨property,_,h⟩ := bind_eq_ok h
    obtain ⟨value,_,h⟩ := bind_eq_ok h
    obtain rfl := expect_ok h₁
    refine ⟨_,_,?_,?_,?_,(Except.ok.inj h).symm⟩
    · exact .inl rfl
    · rfl
    · exact take_four s
  · exact nomatch h

theorem Leaf.reads {t : Parser} {r : Nat × Parser} (h : Leaf t r) (hnodes : t.nodes = s.nodes)
    (htokens : t.tokens.length < s.tokens.length) : Reads s r.1 r.2 := by
  obtain ⟨node,u,hkind,hu,hlen,rfl⟩ := h
  have hat : nodeAt (u.addNode node).2.nodes (u.addNode node).1 = some node :=
    nodeAt_last u.nodes node
  refine ⟨⟨[node],?_⟩,?_,?_,Nat.lt_of_le_of_lt hlen htokens⟩
  · rw [← hnodes,← hu]
    rfl
  · exact addNode_last u node
  · rcases hkind with hkind | hkind
    · exact ⟨_,.cmp hat hkind⟩
    · exact ⟨_,.fn hat hkind⟩

structure Sound (case : Case) (set : EntitySet) (n : Nat) : Prop where
  or : ∀ s r, parseOr case set n s = .ok r → Reads s r.1 r.2
  orLoop : ∀ t id s r, Reads t id s → orLoop case set n id s = .ok r → Reads t r.1 r.2
  and : ∀ s r, parseAnd case set n s = .ok r → Reads s r.1 r.2
  andLoop : ∀ t id s r, Reads t id s → andLoop case set n id s = .ok r → Reads t r.1 r.2
  unary : ∀ s r, parseUnary case set n s = .ok r → Reads s r.1 r.2
  primary : ∀ s r, parsePrimary case set n s = .ok r → Reads s r.1 r.2

theorem Reads.join {t u : Parser} {kind : NodeKind} {right : Nat} (hkind : kind = .or ∨ kind = .and)
    (hl : Reads t id s) (hr : Reads s.take.2 right u) :
    Reads t (u.addNode {kind,left := id,right}).1 (u.addNode {kind,left := id,right}).2 := by
  obtain ⟨lc,hlc⟩ := hl.tree
  obtain ⟨rc,hrc⟩ := hr.tree
  obtain ⟨more,hmore⟩ := hr.nodes
  rw [take_nodes] at hmore
  have hat := nodeAt_last u.nodes {kind,left := id,right}
  have hlid : id < u.nodes.length + 1 := by
    rw [hl.last,← hmore,List.length_append]
    omega
  have hrid : right < u.nodes.length + 1 := by
    rw [hr.last]
    exact Nat.lt_succ_self _
  have hlc : Represents (u.nodes ++ [{kind,left := id,right}]) id lc := by
    rw [← hmore]
    exact hlc.append.append
  refine ⟨(hl.nodes.trans ⟨more,hmore⟩).trans (List.prefix_append _ _),addNode_last u _,?_,?_⟩
  · rcases hkind with rfl | rfl
    · exact ⟨_,.or hat rfl hlid hrid hlc hrc.append⟩
    · exact ⟨_,.and hat rfl hlid hrid hlc hrc.append⟩
  · exact Nat.lt_trans hr.tokens (Nat.lt_of_le_of_lt (take_tokens s) hl.tokens)

theorem Reads.negate {u : Parser} {left : Nat} (h : Reads s.take.2 left u) :
    Reads s (u.addNode {kind := .not,left}).1 (u.addNode {kind := .not,left}).2 := by
  obtain ⟨c,hc⟩ := h.tree
  have hlid : left < u.nodes.length + 1 := by
    rw [h.last]
    exact Nat.lt_succ_self _
  exact ⟨h.nodes.trans (List.prefix_append _ _),addNode_last u _,
    ⟨_,.not (nodeAt_last u.nodes _) rfl hlid hc.append⟩,Nat.lt_of_lt_of_le h.tokens (take_tokens s)⟩

theorem Reads.widen {t : Parser} (h : Reads t id s') (hnodes : t.nodes = s.nodes)
    (htokens : t.tokens.length ≤ s.tokens.length) : Reads s id s' :=
  ⟨hnodes ▸ h.nodes,h.last,h.tree,Nat.lt_of_lt_of_le h.tokens htokens⟩

theorem sound (case : Case) (set : EntitySet) (n : Nat) : Sound case set n := by
  induction n with
  | zero => exact ⟨nofun,nofun,nofun,nofun,nofun,nofun⟩
  | succ n ih =>
    constructor
    · intro s r h
      rw [parseOr] at h
      obtain ⟨⟨id,t⟩,hand,h⟩ := bind_eq_ok h
      exact ih.orLoop s id t r (ih.and s _ hand) h
    · intro t id s r hreads h
      rw [Filter.orLoop] at h
      split at h
      · exact Except.ok.inj h ▸ hreads
      · obtain ⟨⟨right,u⟩,hand,h⟩ := bind_eq_ok h
        exact ih.orLoop t _ _ r (hreads.join (.inl rfl) (ih.and _ _ hand)) h
    · intro s r h
      rw [parseAnd] at h
      obtain ⟨⟨id,t⟩,hunary,h⟩ := bind_eq_ok h
      exact ih.andLoop s id t r (ih.unary s _ hunary) h
    · intro t id s r hreads h
      rw [Filter.andLoop] at h
      split at h
      · exact Except.ok.inj h ▸ hreads
      · obtain ⟨⟨right,u⟩,hunary,h⟩ := bind_eq_ok h
        exact ih.andLoop t _ _ r (hreads.join (.inr rfl) (ih.unary _ _ hunary)) h
    · intro s r h
      rw [parseUnary] at h
      split at h
      · obtain ⟨⟨left,u⟩,hunary,h⟩ := bind_eq_ok h
        exact Except.ok.inj h ▸ (ih.unary _ _ hunary).negate
      · exact ih.primary s r h
    · intro s r h
      rw [parsePrimary] at h
      simp only at h
      split at h
      · obtain ⟨⟨id,t⟩,hor,h⟩ := bind_eq_ok h
        obtain ⟨u,hexpect,h⟩ := bind_eq_ok h
        obtain rfl := expect_ok hexpect
        have hreads := (ih.or _ _ hor).widen (s := s) rfl (take_tokens s)
        obtain rfl := Except.ok.inj h
        exact ⟨hreads.nodes,hreads.last,hreads.tree,Nat.lt_of_le_of_lt (take_tokens t) hreads.tokens⟩
      · split at h
        · exact nomatch h
        · rename_i hident
          have hlt : s.take.2.tokens.length < s.tokens.length :=
            take_tokens_lt fun hdone => hident (by rw [Parser.take,hdone]; decide)
          split at h
          · exact (parseFunction_leaf h).reads (take_nodes _)
              (Nat.lt_of_le_of_lt (take_tokens _) hlt)
          · exact (parseComparison_leaf h).reads (take_nodes _) hlt

theorem parseTree_represents {tokens : List Token} (h : parseTree case set tokens = .ok nodes) :
    ∃ c,Represents nodes nodes.length c := by
  obtain ⟨⟨id,s⟩,hor,h⟩ := bind_eq_ok h
  simp only at h
  split at h
  · exact nomatch h
  · obtain rfl := Except.ok.inj h
    have hreads := (sound case set _).or _ _ hor
    exact hreads.last ▸ hreads.tree

def Lasts {α : Type} (x : Except Raise α) : Prop := x ≠ .error .fuel

theorem lasts_ok {α : Type} (a : α) : Lasts (.ok a) := nofun

theorem lasts_fail {α : Type} (message : String) : Lasts (fail message : Except Raise α) := nofun

theorem lasts_bind {α β : Type} {x : Except Raise α} {f : α → Except Raise β} (hx : Lasts x)
    (hf : ∀ a,x = .ok a → Lasts (f a)) : Lasts (x >>= f) := by
  cases x with
  | error e => exact fun h => hx (congrArg Except.error (Except.error.inj h))
  | ok a => exact hf a rfl

theorem lasts_literalValue (t : Token) : Lasts (literalValue case t) := by
  rw [literalValue]
  split
  · exact lasts_ok _
  · exact lasts_ok _
  · split_ifs
    · exact lasts_ok _
    · exact lasts_ok _
    · exact lasts_ok _
    · exact lasts_fail _
  · simp only
    split_ifs
    · exact lasts_ok _
    · exact lasts_ok _
    · exact lasts_ok _
  · exact lasts_fail _

theorem lasts_findProperty (name : String) : Lasts (findProperty case set name) := by
  rw [findProperty]
  split
  · exact lasts_ok _
  · exact nofun

theorem lasts_expect (s : Parser) (kind : Kind) : Lasts (expect s kind) := by
  simp only [expect]
  split
  · exact lasts_ok _
  · exact lasts_fail _

theorem lasts_parseFunction (s : Parser) (name : String) :
    Lasts (parseFunction case set s name) := by
  simp only [parseFunction]
  split_ifs
  · refine lasts_bind (lasts_findProperty _) fun _ _ => ?_
    refine lasts_bind (lasts_expect _ _) fun _ _ => ?_
    refine lasts_bind (lasts_literalValue _) fun _ _ => ?_
    exact lasts_bind (lasts_expect _ _) fun _ _ => lasts_ok _
  · refine lasts_bind (lasts_literalValue _) fun _ _ => ?_
    refine lasts_bind (lasts_expect _ _) fun _ _ => ?_
    refine lasts_bind (lasts_findProperty _) fun _ _ => ?_
    exact lasts_bind (lasts_expect _ _) fun _ _ => lasts_ok _
  · refine lasts_bind (lasts_expect _ _) fun _ _ => ?_
    refine lasts_bind (lasts_findProperty _) fun _ _ => ?_
    exact lasts_bind (lasts_literalValue _) fun _ _ => lasts_ok _
  · exact lasts_fail _

theorem lasts_parseComparison (s : Parser) (name : String) :
    Lasts (parseComparison case set s name) := by
  refine lasts_bind (lasts_findProperty _) fun _ _ => ?_
  simp only
  split
  · exact lasts_fail _
  · exact lasts_bind (lasts_literalValue _) fun _ _ => lasts_ok _

theorem keyword_peek {word : String} (h : ¬(!keyword case s.peek word) = true) :
    s.take.2.tokens.length < s.tokens.length := by
  refine take_tokens_lt fun hdone => h ?_
  rw [keyword,hdone]
  rfl

structure Enough (case : Case) (set : EntitySet) (n : Nat) : Prop where
  or : ∀ s, 4 * s.tokens.length + 4 ≤ n → Lasts (parseOr case set n s)
  orLoop : ∀ id s, 4 * s.tokens.length + 4 ≤ n → Lasts (orLoop case set n id s)
  and : ∀ s, 4 * s.tokens.length + 3 ≤ n → Lasts (parseAnd case set n s)
  andLoop : ∀ id s, 4 * s.tokens.length + 3 ≤ n → Lasts (andLoop case set n id s)
  unary : ∀ s, 4 * s.tokens.length + 2 ≤ n → Lasts (parseUnary case set n s)
  primary : ∀ s, 4 * s.tokens.length + 1 ≤ n → Lasts (parsePrimary case set n s)

theorem enough (case : Case) (set : EntitySet) (n : Nat) : Enough case set n := by
  have hsound := sound case set
  induction n with
  | zero =>
    exact ⟨fun _ h => by omega,fun _ _ h => by omega,fun _ h => by omega,fun _ _ h => by omega,
      fun _ h => by omega,fun _ h => by omega⟩
  | succ n ih =>
    constructor
    · intro s hn
      rw [parseOr]
      refine lasts_bind (ih.and s (by omega)) fun r hr => ih.orLoop _ _ ?_
      have := ((hsound n).and s r hr).tokens
      omega
    · intro id s hn
      rw [Filter.orLoop]
      split
      · exact lasts_ok _
      · have htake := keyword_peek ‹_›
        refine lasts_bind (ih.and _ (by omega)) fun r hr => ih.orLoop _ _ ?_
        have := ((hsound n).and _ r hr).tokens
        change 4 * r.2.tokens.length + 4 ≤ n
        omega
    · intro s hn
      rw [parseAnd]
      refine lasts_bind (ih.unary s (by omega)) fun r hr => ih.andLoop _ _ ?_
      have := ((hsound n).unary s r hr).tokens
      omega
    · intro id s hn
      rw [Filter.andLoop]
      split
      · exact lasts_ok _
      · have htake := keyword_peek ‹_›
        refine lasts_bind (ih.unary _ (by omega)) fun r hr => ih.andLoop _ _ ?_
        have := ((hsound n).unary _ r hr).tokens
        change 4 * r.2.tokens.length + 3 ≤ n
        omega
    · intro s hn
      rw [parseUnary]
      split
      · rename_i hnot
        have hkeyword : ¬(!keyword case s.peek "not") = true := by rw [hnot]; decide
        have htake := keyword_peek hkeyword
        exact lasts_bind (ih.unary _ (by omega)) fun _ _ => lasts_ok _
      · exact ih.primary s (by omega)
    · intro s hn
      rw [parsePrimary]
      simp only
      split
      · rename_i hparen
        have htake : s.take.2.tokens.length < s.tokens.length :=
          take_tokens_lt fun hdone => by rw [Parser.take,hdone] at hparen; exact nomatch hparen
        refine lasts_bind (ih.or _ (by omega)) fun _ _ => ?_
        exact lasts_bind (lasts_expect _ _) fun _ _ => lasts_ok _
      · split
        · exact lasts_fail _
        · split
          · exact lasts_parseFunction _ _
          · exact lasts_parseComparison _ _

theorem parseTree_lasts (tokens : List Token) : Lasts (parseTree case set tokens) := by
  refine lasts_bind ((enough case set _).or _ (Nat.le_refl _)) fun _ _ => ?_
  simp only
  split
  · exact lasts_fail _
  · exact lasts_ok _

theorem quoted_length (cs : List Char) : (quoted cs).2.length ≤ cs.length := by
  induction cs using quoted.induct with
  | case1 => exact Nat.le_refl _
  | case2 => exact Nat.zero_le _
  | case3 cs ih =>
    rw [quoted]
    exact Nat.le_trans ih (Nat.le_add_right _ 2)
  | case4 cs h h' =>
    rw [quoted]
    · exact Nat.le_succ _
    · exact h
    · exact h'
  | case5 c cs h1 h2 h3 ih =>
    rw [quoted]
    · exact Nat.le_trans ih (Nat.le_succ _)
    · exact h1
    · exact h2
    · exact h3

theorem identToken_length (name rest : List Char) :
    (identToken case name rest).2.length ≤ rest.length := by
  unfold identToken
  split
  · rename_i cs
    have := (List.dropWhile_sublist (l := cs) fun c => decide (c ≠ '\'')).length_le
    rw [List.length_drop,List.length_cons]
    omega
  · exact Nat.le_refl _

theorem lasts_map {α β : Type} {x : Except Raise α} {f : α → β} (h : Lasts x) :
    Lasts (x.map f) := by
  cases x with
  | error e => exact fun he => h (congrArg Except.error (Except.error.inj he))
  | ok a => exact nofun

theorem tokenizeFrom_lasts (len n : Nat) (cs : List Char) (hn : cs.length ≤ n) :
    Lasts (tokenizeFrom case len n cs) := by
  induction n generalizing cs with
  | zero =>
    obtain rfl := List.length_eq_zero_iff.mp (Nat.le_zero.mp hn)
    exact lasts_ok _
  | succ n ih =>
    cases cs with
    | nil => exact lasts_ok _
    | cons c cs =>
      have hcs : cs.length ≤ n := Nat.le_of_succ_le_succ hn
      have hdrop (p : Char → Bool) : (cs.dropWhile p).length ≤ n :=
        Nat.le_trans (List.dropWhile_sublist p).length_le hcs
      rw [tokenizeFrom]
      simp only
      split
      · exact ih cs hcs
      split
      · exact lasts_map (ih cs hcs)
      split
      · exact lasts_map (ih cs hcs)
      split
      · exact lasts_map (ih cs hcs)
      split
      · exact lasts_map (ih _ (Nat.le_trans (quoted_length cs) hcs))
      split
      · exact lasts_map (ih _ (hdrop _))
      split
      · exact lasts_map (ih _ (Nat.le_trans (identToken_length _ _) (hdrop _)))
      · exact lasts_fail _

theorem tokenize_lasts (filter : String) : Lasts (tokenize case filter) :=
  tokenizeFrom_lasts _ _ _ (Nat.le_refl _)

theorem filter_exact (case : Case) (set : EntitySet) (filter : String) (nodes : List Node)
    (h : tokenize case filter >>= parseTree case set = .ok nodes) :
    ∃ c, Represents nodes nodes.length c ∧ (c.Apart →
      ∀ groups, toGroups nodes nodes.length nodes.length = some groups →
      ∀ (D : Domain) (assign : ∀ p, D.Value p), D.holds assign c ↔ D.within assign groups) := by
  obtain ⟨tokens,_,hnodes⟩ := bind_eq_ok h
  obtain ⟨c,hc⟩ := parseTree_represents hnodes
  refine ⟨c,hc,fun hapart groups hgroups D assign => groupsOf_within ?_ hapart D assign⟩
  rwa [toGroups_eq hc (Nat.le_refl _)] at hgroups

section Samples

def latin : Case where
  lower s := String.ofList (s.toList.map Char.toLower)
  upper s := String.ofList (s.toList.map Char.toUpper)

def items : EntitySet := ⟨"Item",["P"]⟩

def digits : Domain where
  Value _ := Nat
  order _ := inferInstanceAs (LinearOrder Nat)
  literal _ s := if s = "1" then 1 else if s = "3" then 3 else if s = "5" then 5 else 0
  text _ n := if n = 1 then "1" else if n = 3 then "3" else if n = 5 then "5" else ""

def fives (p : String) : digits.Value p := (5 : Nat)

theorem bind_ok {α β : Type} {x : Except Raise α} {f : α → Except Raise β} {a : α}
    {y : Except Raise β} (hx : x = .ok a) (hf : f a = y) : x >>= f = y := by
  rw [hx]
  exact hf

def boundedTokens : List Token :=
  [⟨.ident,"P"⟩,⟨.ident,"ge"⟩,⟨.number,"1"⟩,⟨.ident,"and"⟩,⟨.ident,"P"⟩,⟨.ident,"le"⟩,⟨.number,"3"⟩]

def boundedNodes : List Node :=
  [{kind := .cmp,property := "P",op := "ge",value := "1"},
    {kind := .cmp,property := "P",op := "le",value := "3"},{kind := .and,left := 1,right := 2}]

def boundedGroups : List Group := [⟨"P",[⟨.I,.BT,"1","3"⟩]⟩]

set_option maxRecDepth 10000 in
theorem filter_exact_sample : toGroups boundedNodes boundedNodes.length boundedNodes.length =
      some boundedGroups ∧ ¬digits.within fives boundedGroups := by
  have htokens : tokenize latin "P ge 1 and P le 3" = .ok boundedTokens := rfl
  have hnodes : parseTree latin items boundedTokens = .ok boundedNodes := rfl
  obtain ⟨c,hc,hexact⟩ := filter_exact latin items "P ge 1 and P le 3" boundedNodes (bind_ok htokens hnodes)
  have hge : nodeAt boundedNodes 1 = some {kind := .cmp,property := "P",op := "ge",value := "1"} := rfl
  have hle : nodeAt boundedNodes 2 = some {kind := .cmp,property := "P",op := "le",value := "3"} := rfl
  have hand : nodeAt boundedNodes 3 = some {kind := .and,left := 1,right := 2} := rfl
  obtain rfl := hc.unique (.and hand rfl (by decide) (by decide) (.cmp hge rfl) (.cmp hle rfl))
  have hgroups : toGroups boundedNodes boundedNodes.length boundedNodes.length = some boundedGroups := rfl
  refine ⟨hgroups,fun hwithin => ?_⟩
  have hle : (5 : Nat) ≤ 3 :=
    ((hexact ⟨trivial,trivial,fun p _ _ => ⟨id,id⟩⟩ _ hgroups digits fives).mpr hwithin).2
  omega

def foldedTokens : List Token :=
  [⟨.lparen,""⟩,⟨.ident,"P"⟩,⟨.ident,"ge"⟩,⟨.number,"1"⟩,⟨.ident,"or"⟩,⟨.ident,"P"⟩,⟨.ident,"eq"⟩,
    ⟨.number,"5"⟩,⟨.rparen,""⟩,⟨.ident,"and"⟩,⟨.ident,"P"⟩,⟨.ident,"le"⟩,⟨.number,"3"⟩]

def foldedNodes : List Node :=
  [{kind := .cmp,property := "P",op := "ge",value := "1"},
    {kind := .cmp,property := "P",op := "eq",value := "5"},
    {kind := .or,left := 1,right := 2},
    {kind := .cmp,property := "P",op := "le",value := "3"},
    {kind := .and,left := 3,right := 4}]

def foldedCondition : Condition :=
  .and (.or (.cmp "P" "ge" "1") (.cmp "P" "eq" "5")) (.cmp "P" "le" "3")

def foldedGroups : List Group :=
  [⟨"P",[⟨.I,.BT,"1","3"⟩,⟨.I,.EQ,"5",""⟩]⟩]

set_option maxRecDepth 10000 in
theorem or_folded :
    tokenize latin "(P ge 1 or P eq 5) and P le 3" = .ok foldedTokens ∧
    parseTree latin items foldedTokens = .ok foldedNodes ∧
    Represents foldedNodes foldedNodes.length foldedCondition ∧
    toGroups foldedNodes foldedNodes.length foldedNodes.length = some foldedGroups ∧
    ¬digits.holds fives foldedCondition ∧ digits.within fives foldedGroups := by
  refine ⟨rfl,rfl,?_,rfl,?_,?_⟩
  · have hge : nodeAt foldedNodes 1 = some {kind := .cmp,property := "P",op := "ge",value := "1"} :=
      rfl
    have heq : nodeAt foldedNodes 2 = some {kind := .cmp,property := "P",op := "eq",value := "5"} :=
      rfl
    have hor : nodeAt foldedNodes 3 = some {kind := .or,left := 1,right := 2} := rfl
    have hle : nodeAt foldedNodes 4 = some {kind := .cmp,property := "P",op := "le",value := "3"} :=
      rfl
    have hand : nodeAt foldedNodes 5 = some {kind := .and,left := 3,right := 4} := rfl
    exact .and hand rfl (by decide) (by decide)
      (.or hor rfl (by decide) (by decide) (.cmp hge rfl) (.cmp heq rfl)) (.cmp hle rfl)
  · rintro ⟨_,hle⟩
    have hle : (5 : Nat) ≤ 3 := hle
    omega
  · refine List.forall_mem_singleton.mpr ⟨.inl ⟨⟨.I,.EQ,"5",""⟩,?_,rfl,rfl⟩,fun o ho hE => ?_⟩
    · exact List.mem_cons_of_mem _ (List.mem_singleton_self _)
    · rcases List.mem_cons.mp ho with rfl | ho
      · exact nomatch hE
      · rw [List.mem_singleton.mp ho] at hE
        exact nomatch hE

end Samples

end OpenSteamgate.Gateway.Filter
