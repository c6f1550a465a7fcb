import Mathlib.Data.List.Pairwise

namespace OpenSteamgate.Sxml.Pull

abbrev Text := List Char

structure Binding where
  depth : Nat
  pfx : Text
  nsuri : Text
  previous : Text := []
  hadPrevious : Bool := false

structure Element where
  name : Text
  localName : Text
  pfx : Text
  nsuri : Text
  hasChild : Bool := false
  children : Nat := 0
  deriving DecidableEq

structure Attribute where
  name : Text
  pfx : Text
  nsuri : Text
  value : Text

inductive Kind
  | open
  | close
  | value
  | final

structure Item where
  kind : Kind
  name : Text := []
  pfx : Text := []
  nsuri : Text := []
  value : Text := []
  attrs : List Attribute := []

inductive TagEnd
  | open
  | empty
  | broken
  deriving DecidableEq

structure Tag where
  name : Text
  attrs : List (Text × Text)
  ending : TagEnd

inductive Construct
  | skipped
  | cdata (s : Text)
  | chars (s : Text)
  | start (tag : Tag)
  | stop (name : Text)
  | broken

abbrev Current := Text → Option Text

namespace Current

variable (c : Current) (p : Text)

def delete : Current := fun q => if q = p then none else c q

def insert (uri : Text) : Current := fun q => if q = p ∧ c q = none then some uri else c q

end Current

structure State where
  rest : List Construct
  elements : List Element := []
  rootChildren : Nat := 0
  bindings : List Binding := []
  current : Current := fun _ => none
  pendingClose : Bool := false
  keepWhitespace : Bool := false
  done : Bool := false

def xmlPrefix : Text := ['x','m','l']

def xmlns : Text := ['x','m','l','n','s']

def getNsuriByPrefix (c : Current) (p : Text) : Text :=
  if p = xmlPrefix then "http://www.w3.org/XML/1998/namespace".toList else (c p).getD []

def restore (depth : Nat) : List Binding → Current → List Binding × Current
  | [],c => ([],c)
  | b :: bs,c =>
    if b.depth ≠ depth then (b :: bs,c)
    else
      let c := c.delete b.pfx
      restore depth bs (if b.hadPrevious then c.insert b.pfx b.previous else c)

def declares (name : Text) : Option Text :=
  if name = xmlns then some []
  else if name.take 6 = xmlns ++ [':'] then some (name.drop 6)
  else none

def declare (depth : Nat) (p uri : Text) (bs : List Binding) (c : Current) :
    List Binding × Current :=
  match c p with
  | some previous =>
    (⟨depth,p,uri,previous,true⟩ :: bs,(c.delete p).insert p uri)
  | none => (⟨depth,p,uri,[],false⟩ :: bs,c.insert p uri)

def readAttributes (depth : Nat) : List (Text × Text) → List Binding → Current →
    List Binding × Current × List (Text × Text)
  | [],bs,c => (bs,c,[])
  | (name,value) :: attrs,bs,c =>
    match declares name with
    | some p =>
      let r := declare depth p value bs c
      readAttributes depth attrs r.1 r.2
    | none =>
      let r := readAttributes depth attrs bs c
      (r.1,r.2.1,(name,value) :: r.2.2)

def splitName (name : Text) : Text × Text :=
  let p := name.takeWhile (· ≠ ':')
  let l := (name.dropWhile (· ≠ ':')).drop 1
  if l = [] then ([],name) else (p,l)

def resolve (c : Current) : List (Text × Text) → Option (List Attribute)
  | [] => some []
  | (name,value) :: attrs =>
    let (p,l) := splitName name
    if p = [] then (resolve c attrs).map (⟨l,p,[],value⟩ :: ·)
    else
      let uri := getNsuriByPrefix c p
      if uri = [] then none else (resolve c attrs).map (⟨l,p,uri,value⟩ :: ·)

def adopt : List Element → List Element
  | [] => []
  | parent :: outer => {parent with hasChild := true,children := parent.children + 1} :: outer

def openElement (s : State) (tag : Tag) : State × Option Item :=
  let depth := s.elements.length + 1
  let (bindings,current,attrs) := readAttributes depth tag.attrs s.bindings s.current
  let s := {s with bindings := bindings,current := current}
  match tag.ending with
  | .broken => (s,none)
  | ending =>
    let s := {s with pendingClose := s.pendingClose || ending == .empty}
    let (p,l) := splitName tag.name
    let uri := getNsuriByPrefix s.current p
    if p ≠ [] ∧ uri = [] then (s,none)
    else
      let s := {s with
        elements := ⟨tag.name,l,p,uri,false,0⟩ :: adopt s.elements
        rootChildren := if s.elements = [] then s.rootChildren + 1 else s.rootChildren}
      match resolve s.current attrs with
      | none => (s,none)
      | some attributes => (s,some {kind := .open,name := l,pfx := p,nsuri := uri,attrs := attributes})

def closeElement (s : State) : State × Option Item :=
  match s.elements with
  | [] => (s,none)
  | e :: outer =>
    let (bindings,current) := restore (outer.length + 1) s.bindings s.current
    ({s with elements := outer,bindings := bindings,current := current,done := s.done || outer == []},
      some {kind := .close,name := e.localName,pfx := e.pfx,nsuri := e.nsuri})

inductive Found
  | open (tag : Tag)
  | close
  | item (item : Item)
  | raised

def blank (s : Text) : Bool := s.all fun c => c ∈ [' ','\t','\n','\r']

def dropped (s : State) (stop : Bool) (text : Text) : Bool :=
  !s.keepWhitespace && blank text && (!stop || (s.elements.head?.map Element.hasChild).getD false)

def scan (s : State) : List Construct → Text → State × Found
  | [],_ =>
    if s.elements ≠ [] then ({s with rest := []},.raised)
    else ({s with rest := [],done := true},.item {kind := .final})
  | .skipped :: rest,text => scan s rest text
  | .cdata t :: rest,text =>
    if s.elements = [] then ({s with rest := rest},.item {kind := .value,value := text ++ t})
    else scan s rest (text ++ t)
  | .chars t :: rest,text =>
    if s.elements = [] then scan s rest text
    else if rest = [] then ({s with rest := []},.raised)
    else scan s rest (text ++ t)
  | .start tag :: rest,text =>
    if s.elements ≠ [] ∧ text ≠ [] ∧ dropped s false text = false then
      ({s with rest := .start tag :: rest},.item {kind := .value,value := text})
    else ({s with rest := rest},.open tag)
  | .stop name :: rest,text =>
    if s.elements ≠ [] ∧ text ≠ [] ∧ dropped s true text = false then
      ({s with rest := .stop name :: rest},.item {kind := .value,value := text})
    else
      match s.elements with
      | [] => ({s with rest := rest},.raised)
      | e :: _ => ({s with rest := rest},if e.name = name then .close else .raised)
  | .broken :: rest,_ => ({s with rest := rest},.raised)

def found (s : State) : State × Found :=
  if s.done then (s,.item {kind := .final})
  else if s.pendingClose then ({s with pendingClose := false},.close)
  else scan s s.rest []

def next (s : State) : State × Option Item :=
  match found s with
  | (s,.open tag) => openElement s tag
  | (s,.close) => closeElement s
  | (s,.item item) => (s,some item)
  | (s,.raised) => (s,none)

abbrev Scope := List (Text × Text)

def Tag.scope (tag : Tag) : Scope :=
  tag.attrs.filterMap fun a => (declares a.1).map fun p => (p,a.2)

def nearest (scopes : List Scope) : Current := fun p =>
  ((scopes.map List.reverse).flatten.find? fun d => d.1 = p).map Prod.snd

@[grind =] def declareAll (depth : Nat) : Scope → List Binding → Current → List Binding × Current
  | [],bs,c => (bs,c)
  | d :: ds,bs,c => declareAll depth ds (declare depth d.1 d.2 bs c).1 (declare depth d.1 d.2 bs c).2

@[grind =] def inside : List Scope → List Binding × Current
  | [] => ([],fun _ => none)
  | scope :: scopes => declareAll (scopes.length + 1) scope (inside scopes).1 (inside scopes).2

section bindings

variable {depth : Nat} {p uri : Text} {bs : List Binding} {c : Current}

theorem declare_current : (declare depth p uri bs c).2 = fun q => if q = p then some uri else c q := by
  unfold declare
  funext q
  cases hp : c p with
  | none =>
    by_cases hq : q = p
    · simp [Current.insert,hq,hp]
    · simp [Current.insert,hq]
  | some previous =>
    by_cases hq : q = p
    · simp [Current.insert,Current.delete,hq]
    · simp [Current.insert,Current.delete,hq]

theorem restore_declare :
    restore depth (declare depth p uri bs c).1 (declare depth p uri bs c).2 = restore depth bs c := by
  have hcurrent := @declare_current depth p uri bs c
  unfold declare at hcurrent ⊢
  cases hp : c p with
  | none =>
    rw [hp] at hcurrent
    dsimp only at hcurrent ⊢
    rw [hcurrent,restore,if_neg (by simp)]
    refine congrArg (restore depth bs) ?_
    funext q
    by_cases hq : q = p
    · simp [Current.delete,hq,hp]
    · simp [Current.delete,hq]
  | some previous =>
    rw [hp] at hcurrent
    dsimp only at hcurrent ⊢
    rw [hcurrent,restore,if_neg (by simp)]
    refine congrArg (restore depth bs) ?_
    funext q
    by_cases hq : q = p
    · simp [Current.delete,Current.insert,hq,hp]
    · simp [Current.delete,Current.insert,hq]

theorem restore_declareAll (scope : Scope) :
    restore depth (declareAll depth scope bs c).1 (declareAll depth scope bs c).2 =
      restore depth bs c := by
  induction scope generalizing bs c with
  | nil => rfl
  | cons d ds ih =>
    rw [declareAll,ih]
    exact restore_declare

theorem restore_other (h : ∀ b ∈ bs,b.depth ≠ depth) : restore depth bs c = (bs,c) := by
  cases bs with
  | nil => rfl
  | cons b bs => rw [restore,if_pos (h b List.mem_cons_self)]

theorem declareAll_bindings (scope : Scope) :
    ∃ new,(declareAll depth scope bs c).1 = new ++ bs ∧ ∀ b ∈ new,b.depth = depth := by
  induction scope generalizing bs c with
  | nil => exact ⟨[],rfl,by simp⟩
  | cons d ds ih =>
    obtain ⟨new,hnew,hdepth⟩ := @ih (declare depth d.1 d.2 bs c).1
      (declare depth d.1 d.2 bs c).2
    obtain ⟨b,hb,hbdepth⟩ : ∃ b,(declare depth d.1 d.2 bs c).1 = b :: bs ∧ b.depth = depth := by
      unfold declare
      split
      · exact ⟨_,rfl,rfl⟩
      · exact ⟨_,rfl,rfl⟩
    refine ⟨new ++ [b],?_,?_⟩
    · rw [declareAll,hnew,hb,List.append_assoc,List.singleton_append]
    · intro x hx
      rcases List.mem_append.mp hx with hx | hx
      · exact hdepth x hx
      · rw [List.mem_singleton.mp hx,hbdepth]

theorem declareAll_current (scope : Scope) (q : Text) : (declareAll depth scope bs c).2 q =
    ((scope.reverse.find? fun d => d.1 = q).map Prod.snd).or (c q) := by
  induction scope generalizing bs c with
  | nil => rfl
  | cons d ds ih =>
    rw [declareAll,ih,declare_current,List.reverse_cons,List.find?_append]
    cases ds.reverse.find? fun d => d.1 = q with
    | some d' => rfl
    | none =>
      by_cases hd : d.1 = q
      · simp [hd]
      · simp [hd,Ne.symm hd]

end bindings

section scoping

variable {scopes : List Scope}

theorem inside_depths (scopes : List Scope) :
    ((inside scopes).1.Pairwise fun a b => b.depth ≤ a.depth) ∧
      ∀ b ∈ (inside scopes).1,b.depth ≤ scopes.length := by
  induction scopes with
  | nil => exact ⟨.nil,by simp [inside]⟩
  | cons scope scopes ih =>
    obtain ⟨new,hnew,hdepth⟩ := @declareAll_bindings (scopes.length + 1)
      (inside scopes).1 (inside scopes).2 scope
    rw [inside,hnew]
    constructor
    · refine List.pairwise_append.mpr ⟨?_,ih.1,?_⟩
      · refine List.pairwise_of_forall_mem_list fun a ha b hb => ?_
        have := hdepth a ha
        have := hdepth b hb
        omega
      · intro a ha b hb
        have := ih.2 b hb
        have := hdepth a ha
        omega
    · intro b hb
      rw [List.length_cons]
      rcases List.mem_append.mp hb with hb | hb
      · have := hdepth b hb
        omega
      · have := ih.2 b hb
        omega

theorem inside_current (scopes : List Scope) : (inside scopes).2 = nearest scopes := by
  induction scopes with
  | nil => rfl
  | cons scope scopes ih =>
    funext q
    rw [inside,declareAll_current,ih]
    unfold nearest
    rw [List.map_cons,List.flatten_cons,List.find?_append]
    cases scope.reverse.find? fun d => d.1 = q with
    | some d => rfl
    | none => rfl

theorem restore_inside (scope : Scope) (scopes : List Scope) :
    restore (scopes.length + 1) (inside (scope :: scopes)).1 (inside (scope :: scopes)).2 =
      inside scopes := by
  rw [inside,restore_declareAll]
  refine restore_other fun b hb => ?_
  have := (inside_depths scopes).2 b hb
  omega

end scoping

section runs

variable {s : State} {tag : Tag} {item : Item}

theorem scan_same (rest : List Construct) (text : Text) :
    (scan s rest text).1.elements = s.elements ∧ (scan s rest text).1.bindings = s.bindings ∧
      (scan s rest text).1.current = s.current := by
  induction rest generalizing text with
  | nil =>
    unfold scan
    split
    · exact ⟨rfl,rfl,rfl⟩
    · exact ⟨rfl,rfl,rfl⟩
  | cons construct rest ih =>
    cases construct with
    | skipped => exact ih text
    | cdata t =>
      unfold scan
      split
      · exact ⟨rfl,rfl,rfl⟩
      · exact ih (text ++ t)
    | chars t =>
      unfold scan
      split
      · exact ih text
      · split
        · exact ⟨rfl,rfl,rfl⟩
        · exact ih (text ++ t)
    | start tag =>
      unfold scan
      split
      · exact ⟨rfl,rfl,rfl⟩
      · exact ⟨rfl,rfl,rfl⟩
    | stop name =>
      unfold scan
      split
      · exact ⟨rfl,rfl,rfl⟩
      · split
        · exact ⟨rfl,rfl,rfl⟩
        · exact ⟨rfl,rfl,rfl⟩
    | broken => exact ⟨rfl,rfl,rfl⟩

theorem found_same : (found s).1.elements = s.elements ∧ (found s).1.bindings = s.bindings ∧
    (found s).1.current = s.current := by
  unfold found
  split
  · exact ⟨rfl,rfl,rfl⟩
  · split
    · exact ⟨rfl,rfl,rfl⟩
    · exact scan_same s.rest []

theorem readAttributes_eq {depth : Nat} {bs : List Binding} {c : Current}
    (attrs : List (Text × Text)) (name : Text) (ending : TagEnd) :
    ((readAttributes depth attrs bs c).1,(readAttributes depth attrs bs c).2.1) =
      declareAll depth (Tag.scope ⟨name,attrs,ending⟩) bs c := by
  induction attrs generalizing bs c with
  | nil => rfl
  | cons a attrs ih =>
    obtain ⟨attr,value⟩ := a
    unfold Tag.scope at ih ⊢
    rw [readAttributes,List.filterMap_cons]
    cases declares attr with
    | none => exact ih
    | some p => exact ih

theorem openElement_some (h : (openElement s tag).2 = some item) :
    (openElement s tag).1.elements.length = s.elements.length + 1 ∧
      ((openElement s tag).1.bindings,(openElement s tag).1.current) =
        declareAll (s.elements.length + 1) tag.scope s.bindings s.current := by
  have hadopt : (adopt s.elements).length = s.elements.length := by
    cases s.elements with
    | nil => rfl
    | cons _ _ => rfl
  have hread := @readAttributes_eq (s.elements.length + 1) s.bindings s.current
    tag.attrs tag.name tag.ending
  unfold openElement at h ⊢
  dsimp only at h ⊢
  split at h
  · cases h
  · split at h
    · cases h
    · rename_i hprefix
      rw [if_neg hprefix]
      split at h
      · cases h
      · exact ⟨congrArg (· + 1) hadopt,hread⟩

theorem closeElement_cons {e : Element} {outer : List Element} (h : s.elements = e :: outer) :
    (closeElement s).1.elements = outer ∧ ((closeElement s).1.bindings,(closeElement s).1.current) =
        restore (outer.length + 1) s.bindings s.current := by
  unfold closeElement
  rw [h]
  exact ⟨rfl,rfl⟩

structure Opened where
  scope : Scope
  before : Current

def follow (s : State) : Found → List Opened → List Opened
  | .open tag,os => ⟨tag.scope,s.current⟩ :: os
  | .close,os => os.tail
  | .item _,os => os
  | .raised,os => os

inductive Reaches (doc : List Construct) : State → List Opened → Prop
  | start : Reaches doc {rest := doc} []
  | option {s os} (h : Reaches doc s os) (keep : Bool) :
      Reaches doc {s with keepWhitespace := keep} os
  | next {s os item} (h : Reaches doc s os) (hitem : (next s).2 = some item) :
      Reaches doc (next s).1 (follow s (found s).2 os)

def Nested : List Opened → Prop
  | [] => True
  | o :: os => o.before = nearest (os.map Opened.scope) ∧ Nested os

structure Scoped (s : State) (os : List Opened) : Prop where
  elements : s.elements.length = os.length
  prefixes : (s.bindings,s.current) = inside (os.map Opened.scope)
  nested : Nested os

variable {os : List Opened}

theorem Scoped.current (h : Scoped s os) : s.current = nearest (os.map Opened.scope) :=
  (congrArg Prod.snd h.prefixes).trans (inside_current _)

theorem Scoped.close (h : Scoped s os) (hitem : (closeElement s).2 = some item) :
    ∃ o outer,os = o :: outer ∧ Scoped (closeElement s).1 outer := by
  cases hs : s.elements with
  | nil =>
    unfold closeElement at hitem
    rw [hs] at hitem
    cases hitem
  | cons e elements =>
    obtain ⟨helements,hprefixes⟩ := closeElement_cons hs
    have hlength := h.elements
    rw [hs] at hlength
    cases os with
    | nil => cases hlength
    | cons o outer =>
      have houter : elements.length = (outer.map Opened.scope).length := by
        rw [List.length_map]
        exact Nat.succ.inj hlength
      have hs1 : s.bindings = (inside ((o :: outer).map Opened.scope)).1 :=
        congrArg Prod.fst h.prefixes
      have hs2 : s.current = (inside ((o :: outer).map Opened.scope)).2 :=
        congrArg Prod.snd h.prefixes
      refine ⟨o,outer,rfl,?_,?_,h.nested.2⟩
      · rw [helements,houter,List.length_map]
      · rw [hprefixes,hs1,hs2,houter]
        exact restore_inside o.scope (outer.map Opened.scope)

theorem Scoped.open (h : Scoped s os) (hitem : (openElement s tag).2 = some item) :
    Scoped (openElement s tag).1 (⟨tag.scope,s.current⟩ :: os) := by
  obtain ⟨helements,hprefixes⟩ := openElement_some hitem
  have hs1 : s.bindings = (inside (os.map Opened.scope)).1 := congrArg Prod.fst h.prefixes
  have hs2 : s.current = (inside (os.map Opened.scope)).2 := congrArg Prod.snd h.prefixes
  refine ⟨?_,?_,h.current,h.nested⟩
  · rw [helements,h.elements]
    rfl
  · rw [hprefixes,h.elements,hs1,hs2,← List.length_map Opened.scope]
    rfl

theorem Scoped.found (h : Scoped s os) : Scoped (found s).1 os := by
  obtain ⟨helements,hbindings,hcurrent⟩ := found_same (s := s)
  refine ⟨?_,?_,h.nested⟩
  · rw [helements,h.elements]
  · rw [hbindings,hcurrent,h.prefixes]

theorem next_open (h : (found s).2 = .open tag) : next s = openElement (found s).1 tag := by
  unfold next
  rw [show found s = ((found s).1,.open tag) from Prod.ext rfl h]

theorem next_close (h : (found s).2 = .close) : next s = closeElement (found s).1 := by
  unfold next
  rw [show found s = ((found s).1,.close) from Prod.ext rfl h]

theorem next_item (h : (found s).2 = .item item) : next s = ((found s).1,some item) := by
  unfold next
  rw [show found s = ((found s).1,.item item) from Prod.ext rfl h]

theorem next_raised (h : (found s).2 = .raised) : next s = ((found s).1,none) := by
  unfold next
  rw [show found s = ((found s).1,.raised) from Prod.ext rfl h]

theorem Scoped.next (h : Scoped s os) (hitem : (next s).2 = some item) :
    Scoped (next s).1 (follow s (Pull.found s).2 os) := by
  rcases hfound : (Pull.found s).2 with tag | _ | i | _
  · rw [next_open hfound] at hitem ⊢
    have hopened := h.found.open hitem
    rw [(found_same).2.2] at hopened
    exact hopened
  · rw [next_close hfound] at hitem ⊢
    obtain ⟨o,outer,hos,hclosed⟩ := h.found.close hitem
    rw [hos]
    exact hclosed
  · rw [next_item hfound]
    exact h.found
  · rw [next_raised hfound] at hitem
    cases hitem

theorem Reaches.scoped {doc : List Construct} (h : Reaches doc s os) : Scoped s os := by
  induction h with
  | start => exact ⟨rfl,rfl,trivial⟩
  | option _ keep ih => exact ⟨ih.elements,ih.prefixes,ih.nested⟩
  | next _ hitem ih => exact ih.next hitem

theorem namespaces_scoped {doc : List Construct} (h : Reaches doc s os) :
    s.elements.length = os.length ∧ s.current = nearest (os.map Opened.scope) ∧
      (s.bindings.reverse.Pairwise fun a b => a.depth ≤ b.depth) ∧
      (∀ b ∈ s.bindings, b.depth ≤ s.elements.length) ∧
      (∀ item, (found s).2 = .close → (next s).2 = some item → ∃ o outer, os = o :: outer ∧
        Reaches doc (next s).1 outer ∧ (next s).1.current = o.before) ∧
      (s.elements = [] → s.current = fun _ => none) := by
  have hscoped := h.scoped
  have hbindings : s.bindings = (inside (os.map Opened.scope)).1 :=
    congrArg Prod.fst hscoped.prefixes
  obtain ⟨hsorted,hdepth⟩ := inside_depths (os.map Opened.scope)
  refine ⟨hscoped.elements,hscoped.current,?_,?_,?_,?_⟩
  · rw [hbindings]
    exact List.pairwise_reverse.mpr hsorted
  · intro b hb
    rw [hbindings] at hb
    have := hdepth b hb
    rw [List.length_map] at this
    rw [hscoped.elements]
    exact this
  · intro item hclose hitem
    have hreaches := Reaches.next h hitem
    have hafter := hreaches.scoped
    rw [hclose] at hreaches hafter
    rw [next_close hclose] at hitem
    obtain ⟨o,outer,hos,-⟩ := hscoped.found.close hitem
    rw [hos] at hscoped hreaches hafter
    refine ⟨o,outer,hos,hreaches,?_⟩
    rw [hafter.current]
    exact hscoped.nested.1.symm
  · intro hs
    have hlength := hscoped.elements
    rw [hs] at hlength
    rw [hscoped.current,List.length_eq_zero_iff.mp hlength.symm]
    rfl

def declaresP (uri : Text) : List (Text × Text) := [(xmlns ++ [':','p'],uri)]

def redeclared : List Construct :=
  [.start ⟨['a'],declaresP ['u'],.open⟩,.start ⟨['b'],declaresP ['v'],.empty⟩,.stop ['a']]

theorem namespaces_scoped_redeclared : ∃ s o outer, Reaches redeclared s (o :: outer) ∧
    s.current ['p'] = some ['v'] ∧ (next s).1.current = o.before ∧ o.before ['p'] = some ['u'] := by
  have hstart : Reaches redeclared {rest := redeclared} [] := .start
  have h := Reaches.next (Reaches.next hstart rfl) rfl
  obtain ⟨-,hcurrent,-,-,hclose,-⟩ := namespaces_scoped h
  obtain ⟨o,outer,hos,-,hbefore⟩ := hclose _ rfl rfl
  cases hos
  exact ⟨_,_,_,h,congrFun hcurrent ['p'],hbefore,rfl⟩

theorem broken_tag_kept : ¬∀ (doc : List Construct) (s : State) (os : List Opened),
    Reaches doc s os → ∀ b ∈ (next s).1.bindings, b.depth ≤ (next s).1.elements.length := by
  intro h
  have hdepth := h [.start ⟨['a'],declaresP ['u'],.broken⟩] _ _ .start _ List.mem_cons_self
  exact absurd hdepth (by decide)

end runs

end OpenSteamgate.Sxml.Pull
