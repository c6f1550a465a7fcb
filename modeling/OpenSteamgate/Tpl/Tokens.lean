import Mathlib.Data.List.Pairwise
import Mathlib.Data.List.DropRight
import OpenSteamgate.Library.Marked

namespace OpenSteamgate.Tpl

abbrev Source := List Char

inductive Kind
  | static
  | var
  | raw
  | opening
  | inverted
  | close
  | comment
  | part
  deriving DecidableEq

structure Token where
  kind : Kind
  name : Source := []
  start : ℕ
  stop : ℕ
  close : ℕ := 0
  indent : Source := []
  standalone : Bool := false
  deriving DecidableEq

structure Range where
  start : ℕ
  stop : ℕ

inductive TplError
  | notClosed (line : ℕ)
  | invalidName (line : ℕ) (tag : Source)
  | withoutOpen (line : ℕ) (name : Source)
  | closeFor (line : ℕ) (name opened : Source)
  | sectionNotClosed (line : ℕ) (name : Source)
  | fuel
  deriving DecidableEq

def find (source sub : Source) (off : ℕ) : Option ℕ :=
  (Marked.index (source.drop off) sub).map (· + off)

def lineOf (source : Source) (off : ℕ) : ℕ := (source.take off).count '\n' + 1

def isSpace (c : Char) : Bool := c == ' ' || c == '\t' || c == '\n' || c == '\r'

def trim (t : Source) : Source := (t.dropWhile isSpace).rdropWhile isSpace

def splitWords (t : Source) : List Source :=
  ((t.map fun c => if c = '\t' then ' ' else c).splitOn ' ').filter (· ≠ [])

def kindOf : Char → Option Kind
  | '#' => some .opening
  | '^' => some .inverted
  | '/' => some .close
  | '!' => some .comment
  | '>' => some .part
  | '&' => some .raw
  | _ => none

def tagKind (triple : Bool) (tag : Source) : Kind × Source :=
  match triple,tag with
  | false,c :: rest =>
    match kindOf c with
    | some kind => (kind,trim rest)
    | none => (.var,c :: rest)
  | true,tag => (.raw,tag)
  | false,[] => (.static,[])

def tagBase (kind : Kind) (tag : Source) : Source :=
  if kind = .var ∨ kind = .raw then
    if '|' ∈ tag then trim (tag.takeWhile (· ≠ '|')) else tag
  else if kind = .part then (splitWords tag).headD tag
  else tag

def tagAt (source : Source) (opened : ℕ) : Except TplError Token :=
  let triple := ['{','{','{'].isPrefixOf (source.drop opened)
  let mark := if triple then ['}','}','}'] else ['}','}']
  match find source mark opened with
  | none => .error (.notClosed (lineOf source opened))
  | some closed =>
    let tag := (source.drop (opened + mark.length)).take (closed - opened - mark.length)
    let r := tagKind triple (trim tag)
    let base := tagBase r.1 r.2
    if r.1 ≠ .comment ∧ (base = [] ∨ base.any isSpace = true) then
      .error (.invalidName (lineOf source opened) r.2)
    else .ok {kind := r.1,name := r.2,start := opened,stop := closed + mark.length}

def tagsFrom (source : Source) : ℕ → ℕ → Except TplError (List Token)
  | 0,_ => .error .fuel
  | fuel + 1,pos =>
    match find source ['{','{'] pos with
    | none => .ok []
    | some opened => do
      let tag ← tagAt source opened
      let tags ← tagsFrom source fuel tag.stop
      .ok (tag :: tags)

def tags (source : Source) : Except TplError (List Token) := tagsFrom source (source.length + 1) 0

def lineStart (source : Source) : ℕ → ℕ
  | 0 => 0
  | k + 1 => if source[k]? = some '\n' then k + 1 else lineStart source k

def lineEnd (source : Source) (off : ℕ) : ℕ := (find source ['\n'] off).getD source.length

def isBlank (t : Source) : Bool := t.all fun c => c == ' ' || c == '\t'

def slice (source : Source) (start stop : ℕ) : Source := (source.drop start).take (stop - start)

def behind (source : Source) (stop : ℕ) : Source :=
  let le := lineEnd source stop
  let after := slice source stop le
  if le < source.length ∧ after.getLast? = some '\r' then after.dropLast else after

def mark (source : Source) (others : List Token) (t : Token) : Token × Option Range :=
  let ls := lineStart source t.start
  let le := lineEnd source t.stop
  if t.kind = .var ∨ t.kind = .raw then (t,none)
  else if isBlank (slice source ls t.start) = false ∨ isBlank (behind source t.stop) = false then
    (t,none)
  else if others.any fun o => o.start < le && ls < o.stop then (t,none)
  else
    ({t with
      standalone := true
      indent := if t.kind = .part then slice source ls t.start else t.indent},
      some ⟨ls,if le < source.length then le + 1 else source.length⟩)

def marked (source : Source) (ts : List Token) : List (Token × Option Range) :=
  ts.zipIdx.map fun t => mark source (ts.eraseIdx t.2) t.1

def static (start stop : ℕ) : Token := {kind := .static,start := start,stop := stop}

@[grind =] def pieces (start stop : ℕ) : List Range → ℕ → List Token
  | [],p => if p < stop then [static p stop] else []
  | c :: cs,p =>
    if start < c.stop ∧ c.start < stop then
      (if p < c.start then [static p c.start] else []) ++
        pieces start stop cs (if p < c.stop then c.stop else p)
    else pieces start stop cs p

def moved (p : ℕ) : List Range → ℕ
  | [] => p
  | c :: cs => if c.start < p ∧ p < c.stop then moved c.stop cs else moved p cs

def woven (cuts : List Range) (len : ℕ) : List Token → ℕ → List Token
  | [],prev => pieces prev len cuts prev
  | t :: ts,prev => pieces prev t.start cuts prev ++ t :: woven cuts len ts (moved t.stop cuts)

def markStandalone (source : Source) (ts : List Token) : List Token :=
  let ms := marked source ts
  woven (ms.filterMap Prod.snd) source.length (ms.map Prod.fst) 0

def tokenize (source : Source) : Except TplError (List Token) :=
  (tags source).map (markStandalone source)

def Token.Has (t : Token) (i : ℕ) : Prop := t.start ≤ i ∧ i < t.stop

def Range.Has (c : Range) (i : ℕ) : Prop := c.start ≤ i ∧ i < c.stop

def Token.Before (t o : Token) : Prop := t.stop ≤ o.start

def Range.Before (c d : Range) : Prop := c.stop ≤ d.start

section weaving

variable {start stop p len i : ℕ} {cuts : List Range} {ts : List Token}

structure Cuts (cuts : List Range) : Prop where
  sorted : cuts.Pairwise Range.Before
  nonempty : ∀ c ∈ cuts, c.start < c.stop

theorem Cuts.tail {c : Range} (h : Cuts (c :: cuts)) : Cuts cuts :=
  ⟨h.sorted.of_cons,fun d hd => h.nonempty d (List.mem_cons_of_mem _ hd)⟩

theorem Cuts.head {c : Range} (h : Cuts (c :: cuts)) {d : Range} (hd : d ∈ cuts) :
    c.stop ≤ d.start := List.rel_of_pairwise_cons h.sorted hd

theorem pieces_bounds (hp : start ≤ p) {t : Token} (ht : t ∈ pieces start stop cuts p) :
    t.kind = .static ∧ p ≤ t.start ∧ t.start < t.stop ∧ t.stop ≤ stop := by
  induction cuts generalizing p with
  | nil =>
    rw [pieces] at ht
    split at ht
    · rw [List.mem_singleton.mp ht]
      exact ⟨rfl,Nat.le_refl p,‹_›,Nat.le_refl stop⟩
    · cases ht
  | cons c cs ih =>
    rw [pieces] at ht
    split at ht
    · next hc =>
      rcases List.mem_append.mp ht with ht | ht
      · split at ht
        · rw [List.mem_singleton.mp ht]
          exact ⟨rfl,Nat.le_refl p,‹_›,Nat.le_of_lt hc.2⟩
        · cases ht
      · have hnext : p ≤ if p < c.stop then c.stop else p := by
          split
          · omega
          · exact Nat.le_refl p
        obtain ⟨hkind,hstart,hrest⟩ := ih (Nat.le_trans hp hnext) ht
        exact ⟨hkind,Nat.le_trans hnext hstart,hrest⟩
    · exact ih hp ht

theorem pieces_sorted (h : Cuts cuts) (hp : start ≤ p) :
    (pieces start stop cuts p).Pairwise Token.Before := by
  induction cuts generalizing p with
  | nil =>
    rw [pieces]
    split
    · exact List.pairwise_singleton _ _
    · exact .nil
  | cons c cs ih =>
    have hc := h.nonempty c List.mem_cons_self
    rw [pieces]
    split
    · have hnext : p ≤ if p < c.stop then c.stop else p := by
        split
        · omega
        · exact Nat.le_refl p
      refine List.pairwise_append.mpr ⟨?_,ih h.tail (Nat.le_trans hp hnext),?_⟩
      · split
        · exact List.pairwise_singleton _ _
        · exact .nil
      · intro t ht o ho
        have hbounds := (pieces_bounds (Nat.le_trans hp hnext) ho).2.1
        split at ht
        · rw [List.mem_singleton.mp ht]
          rw [if_pos (by omega)] at hbounds
          exact Nat.le_trans (Nat.le_of_lt hc) hbounds
        · cases ht
    · exact ih h.tail hp

theorem pieces_has (h : Cuts cuts) (hp : start ≤ p) :
    (∃ t ∈ pieces start stop cuts p,t.Has i) ↔ p ≤ i ∧ i < stop ∧ ∀ c ∈ cuts,¬c.Has i := by
  induction cuts generalizing p with
  | nil =>
    rw [pieces]
    split
    · simp [Token.Has,static]
    · simp
      omega
  | cons c cs ih =>
    have hc := h.nonempty c List.mem_cons_self
    rw [pieces]
    split
    · next hrelevant =>
      have hnext : p ≤ if p < c.stop then c.stop else p := by
        split
        · omega
        · exact Nat.le_refl p
      have hrest := ih h.tail (Nat.le_trans hp hnext)
      simp only [List.mem_append,or_and_right,exists_or,hrest,List.forall_mem_cons]
      have hlater : i < c.stop → ∀ d ∈ cs,¬d.Has i := by
        intro hi d hd hhas
        have := h.head hd
        have := hhas.1
        omega
      have hfirst : (∃ t ∈ (if p < c.start then [static p c.start] else []),t.Has i) ↔
          p ≤ i ∧ i < c.start := by
        split
        · simp [Token.Has,static]
        · simp
          omega
      rw [hfirst]
      constructor
      · rintro (⟨hi,hi'⟩ | ⟨hi,hi',hno⟩)
        · exact ⟨hi,by omega,fun hhas => by have := hhas.1; omega,hlater (by omega)⟩
        · refine ⟨by omega,hi',fun hhas => ?_,hno⟩
          have := hhas.2
          split at hi
          · omega
          · omega
      · rintro ⟨hi,hi',hnot,hno⟩
        by_cases hbefore : i < c.start
        · exact .inl ⟨hi,hbefore⟩
        · refine .inr ⟨?_,hi',hno⟩
          have hstop : c.stop ≤ i := Nat.not_lt.mp fun hlt => hnot ⟨by omega,hlt⟩
          split
          · exact hstop
          · exact hi
    · next hirrelevant =>
      rw [ih h.tail hp,List.forall_mem_cons]
      constructor
      · rintro ⟨hi,hi',hno⟩
        refine ⟨hi,hi',fun hhas => hirrelevant ⟨?_,?_⟩,hno⟩
        · have := hhas.2
          omega
        · have := hhas.1
          omega
      · rintro ⟨hi,hi',-,hno⟩
        exact ⟨hi,hi',hno⟩

theorem moved_self (h : ∀ c ∈ cuts,p ≤ c.start) : moved p cuts = p := by
  induction cuts with
  | nil => rfl
  | cons c cs ih =>
    have hc := h c List.mem_cons_self
    rw [moved,if_neg (by omega),ih fun d hd => h d (List.mem_cons_of_mem _ hd)]

theorem moved_spec (h : Cuts cuts) : p ≤ moved p cuts ∧
    (moved p cuts = p ∨ ∃ c ∈ cuts,c.start < p ∧ p < c.stop ∧ moved p cuts = c.stop) ∧
    ∀ c ∈ cuts,c.start < moved p cuts → c.stop ≤ moved p cuts := by
  induction cuts with
  | nil => exact ⟨Nat.le_refl p,.inl rfl,by simp⟩
  | cons c cs ih =>
    obtain ⟨hle,hcase,hout⟩ := ih h.tail
    have hc := h.nonempty c List.mem_cons_self
    rw [moved]
    split
    · next hin =>
      rw [moved_self fun d hd => h.head hd]
      refine ⟨by omega,.inr ⟨c,List.mem_cons_self,hin.1,hin.2,rfl⟩,?_⟩
      intro d hd hlt
      rcases List.mem_cons.mp hd with rfl | hd
      · exact Nat.le_refl _
      · have := h.head hd
        omega
    · next hnot =>
      refine ⟨hle,?_,?_⟩
      · rcases hcase with hsame | ⟨d,hd,hrest⟩
        · exact .inl hsame
        · exact .inr ⟨d,List.mem_cons_of_mem _ hd,hrest⟩
      · intro d hd hlt
        rcases List.mem_cons.mp hd with rfl | hd
        · by_cases hp : d.start < p
          · omega
          · rw [moved_self fun e he => by have := h.head he; omega] at hlt ⊢
            omega
        · exact hout d hd hlt

structure Laid (cuts : List Range) (ts : List Token) : Prop where
  sorted : ts.Pairwise Token.Before
  nonempty : ∀ t ∈ ts, t.start < t.stop
  kinds : ∀ t ∈ ts, t.kind ≠ .static
  apart : ∀ t ∈ ts, ∀ c ∈ cuts,
    c.start ≤ t.start ∧ t.stop ≤ c.stop ∨ t.stop ≤ c.start ∨ c.stop ≤ t.start
  alone : ts.Pairwise fun t o => ∀ c ∈ cuts, c.start ≤ t.start → t.stop ≤ c.stop → c.stop ≤ o.start

theorem Laid.tail {t : Token} (h : Laid cuts (t :: ts)) : Laid cuts ts where
  sorted := h.sorted.of_cons
  nonempty o ho := h.nonempty o (List.mem_cons_of_mem _ ho)
  kinds o ho := h.kinds o (List.mem_cons_of_mem _ ho)
  apart o ho := h.apart o (List.mem_cons_of_mem _ ho)
  alone := h.alone.of_cons

theorem Laid.moved {t o : Token} (hcuts : Cuts cuts) (h : Laid cuts (t :: ts)) (ho : o ∈ ts) :
    moved t.stop cuts ≤ o.start := by
  have hbefore : t.stop ≤ o.start := List.rel_of_pairwise_cons h.sorted ho
  rcases (moved_spec hcuts).2.1 with hsame | ⟨c,hc,hstart,hstop,hmoved⟩
  · rw [hsame]
    exact hbefore
  · rw [hmoved]
    rcases h.apart t List.mem_cons_self c hc with hin | hout | hout
    · exact List.rel_of_pairwise_cons h.alone ho c hc hin.1 hin.2
    · omega
    · have := h.nonempty t List.mem_cons_self
      omega

variable {prev : ℕ}

theorem woven_bounds (hcuts : Cuts cuts) (h : Laid cuts ts) (hprev : ∀ t ∈ ts,prev ≤ t.start)
    (hlen : ∀ t ∈ ts,t.stop ≤ len) {t : Token} (ht : t ∈ woven cuts len ts prev) :
    prev ≤ t.start ∧ t.start < t.stop ∧ t.stop ≤ len := by
  induction ts generalizing prev with
  | nil => exact (pieces_bounds (Nat.le_refl prev) ht).2
  | cons o ts ih =>
    have ho := h.nonempty o List.mem_cons_self
    have hstart := hprev o List.mem_cons_self
    have hstop := hlen o List.mem_cons_self
    rw [woven] at ht
    rcases List.mem_append.mp ht with ht | ht
    · obtain ⟨-,hp,hlt,hle⟩ := pieces_bounds (Nat.le_refl prev) ht
      exact ⟨hp,hlt,by omega⟩
    · rcases List.mem_cons.mp ht with rfl | ht
      · exact ⟨hstart,ho,hstop⟩
      · have hmoved := (moved_spec hcuts (p := o.stop)).1
        obtain ⟨hp,hrest⟩ := ih h.tail (fun t ht => h.moved hcuts ht)
          (fun t ht => hlen t (List.mem_cons_of_mem _ ht)) ht
        exact ⟨by omega,hrest⟩

theorem woven_sorted (hcuts : Cuts cuts) (h : Laid cuts ts) (hprev : ∀ t ∈ ts,prev ≤ t.start)
    (hlen : ∀ t ∈ ts,t.stop ≤ len) : (woven cuts len ts prev).Pairwise Token.Before := by
  induction ts generalizing prev with
  | nil => exact pieces_sorted hcuts (Nat.le_refl prev)
  | cons t ts ih =>
    have ht := h.nonempty t List.mem_cons_self
    have hmoved := (moved_spec hcuts (p := t.stop)).1
    have hnext : ∀ o ∈ ts,moved t.stop cuts ≤ o.start := fun o ho => h.moved hcuts ho
    have hlen' : ∀ o ∈ ts,o.stop ≤ len := fun o ho => hlen o (List.mem_cons_of_mem _ ho)
    have hafter {o : Token} (ho : o ∈ woven cuts len ts (moved t.stop cuts)) : t.stop ≤ o.start :=
      Nat.le_trans hmoved (woven_bounds hcuts h.tail hnext hlen' ho).1
    rw [woven]
    refine List.pairwise_append.mpr ⟨pieces_sorted hcuts (Nat.le_refl prev),?_,?_⟩
    · exact List.pairwise_cons.mpr ⟨fun o ho => hafter ho,ih h.tail hnext hlen'⟩
    · intro o ho o' ho'
      have hstop := (pieces_bounds (Nat.le_refl prev) ho).2.2.2
      rcases List.mem_cons.mp ho' with rfl | ho'
      · exact hstop
      · have := hafter ho'
        unfold Token.Before
        omega

theorem woven_tags (h : ∀ t ∈ ts,t.kind ≠ .static) :
    (woven cuts len ts prev).filter (fun t => decide (t.kind ≠ .static)) = ts := by
  have hpieces (start stop : ℕ) :
      (pieces start stop cuts start).filter (fun t => decide (t.kind ≠ .static)) = [] := by
    refine List.filter_eq_nil_iff.mpr fun t ht => ?_
    simp [(pieces_bounds (Nat.le_refl start) ht).1]
  induction ts generalizing prev with
  | nil => exact hpieces prev len
  | cons t ts ih =>
    rw [woven,List.filter_append,hpieces,List.nil_append,List.filter_cons_of_pos
      (by simpa using h t List.mem_cons_self),ih fun o ho => h o (List.mem_cons_of_mem _ ho)]

theorem woven_static (hcuts : Cuts cuts) (h : Laid cuts ts) (hprev : ∀ t ∈ ts,prev ≤ t.start)
    (hlen : ∀ t ∈ ts,t.stop ≤ len) (hp : prev ≤ i) (hi : i < len) :
    (∃ t ∈ woven cuts len ts prev,t.kind = .static ∧ t.Has i) ↔
      (∀ t ∈ ts,¬t.Has i) ∧ ∀ c ∈ cuts,¬c.Has i := by
  have hstatic (start stop : ℕ) :
      (∃ t ∈ pieces start stop cuts start,t.kind = .static ∧ t.Has i) ↔
        start ≤ i ∧ i < stop ∧ ∀ c ∈ cuts,¬c.Has i := by
    rw [← pieces_has hcuts (Nat.le_refl start)]
    constructor
    · rintro ⟨t,ht,-,hhas⟩
      exact ⟨t,ht,hhas⟩
    · rintro ⟨t,ht,hhas⟩
      exact ⟨t,ht,(pieces_bounds (Nat.le_refl start) ht).1,hhas⟩
  induction ts generalizing prev with
  | nil =>
    rw [woven,hstatic]
    simp [hp,hi]
  | cons t ts ih =>
    have ht := h.nonempty t List.mem_cons_self
    have hkind := h.kinds t List.mem_cons_self
    obtain ⟨hmoved,hcase,-⟩ := moved_spec hcuts (p := t.stop)
    have hnext : ∀ o ∈ ts,moved t.stop cuts ≤ o.start := fun o ho => h.moved hcuts ho
    have hlen' : ∀ o ∈ ts,o.stop ≤ len := fun o ho => hlen o (List.mem_cons_of_mem _ ho)
    rw [woven,List.forall_mem_cons]
    constructor
    · rintro ⟨o,ho,hostatic,hhas⟩
      rcases List.mem_append.mp ho with ho | ho
      · obtain ⟨-,hlt,hno⟩ := (hstatic prev t.start).mp ⟨o,ho,hostatic,hhas⟩
        refine ⟨⟨fun hin => ?_,fun o' ho' hin => ?_⟩,hno⟩
        · have := hin.1
          omega
        · have := hnext o' ho'
          have := hin.1
          omega
      · rcases List.mem_cons.mp ho with rfl | ho
        · exact absurd hostatic hkind
        · have hbound := (woven_bounds hcuts h.tail hnext hlen' ho).1
          have hfrom := hhas.1
          obtain ⟨hno,hnocut⟩ := (ih h.tail hnext hlen' (by omega)).mp ⟨o,ho,hostatic,hhas⟩
          refine ⟨⟨fun hin => ?_,hno⟩,hnocut⟩
          have := hin.2
          omega
    · rintro ⟨⟨hnot,hno⟩,hnocut⟩
      by_cases hbefore : i < t.start
      · obtain ⟨o,ho,hrest⟩ := (hstatic prev t.start).mpr ⟨hp,hbefore,hnocut⟩
        exact ⟨o,List.mem_append_left _ ho,hrest⟩
      · have hafter : t.stop ≤ i := Nat.not_lt.mp fun hlt => hnot ⟨by omega,hlt⟩
        have hfrom : moved t.stop cuts ≤ i := by
          rcases hcase with hsame | ⟨c,hc,hstart,hstop,hmoves⟩
          · omega
          · rw [hmoves]
            exact Nat.not_lt.mp fun hlt => hnocut c hc ⟨by omega,hlt⟩
        obtain ⟨o,ho,hrest⟩ := (ih h.tail hnext hlen' hfrom).mpr ⟨hno,hnocut⟩
        exact ⟨o,List.mem_append_right _ (List.mem_cons_of_mem _ ho),hrest⟩

end weaving

section lines

variable {source sub : Source} {off n e : ℕ} {c : Char}

theorem stands_iff : [c] <+: source.drop n ↔ source[n]? = some c := by
  rw [← List.head?_drop]
  cases source.drop n with
  | nil => simp
  | cons d l => simp [eq_comm]

theorem find_some (hsub : 0 < sub.length) (h : find source sub off = some n) :
    off ≤ n ∧ n + sub.length ≤ source.length ∧ sub <+: source.drop n ∧
      ∀ k,off ≤ k → k < n → ¬sub <+: source.drop k := by
  unfold find at h
  obtain ⟨i,hi,rfl⟩ := Option.map_eq_some_iff.mp h
  obtain ⟨hlength,hthere,hleast⟩ := Marked.index_eq_some.mp hi
  rw [List.length_drop] at hlength
  rw [List.drop_drop,Nat.add_comm] at hthere
  refine ⟨Nat.le_add_left off i,by omega,hthere,fun k hk hlt => ?_⟩
  have hearlier := hleast (k - off) (by omega)
  rwa [List.drop_drop,Nat.add_sub_cancel' hk] at hearlier

theorem find_none (h : find source sub off = none) (hoff : off ≤ n)
    (hn : n + sub.length ≤ source.length) : ¬sub <+: source.drop n := by
  unfold find at h
  have hnone := Marked.index_eq_none.mp (Option.map_eq_none_iff.mp h) (n - off)
    (by rw [List.length_drop]; omega)
  rwa [List.drop_drop,Nat.add_sub_cancel' hoff] at hnone

theorem lineEnd_spec (h : off ≤ source.length) : off ≤ lineEnd source off ∧
    lineEnd source off ≤ source.length ∧ (∀ k,off ≤ k → k < lineEnd source off → source[k]? ≠ some '\n') ∧
    (lineEnd source off = source.length ∨ source[lineEnd source off]? = some '\n') := by
  unfold lineEnd
  cases hfind : find source ['\n'] off with
  | none =>
    refine ⟨h,Nat.le_refl _,fun k hk hlt hline => ?_,.inl rfl⟩
    exact find_none hfind hk (Nat.succ_le_of_lt hlt) ((stands_iff).mpr hline)
  | some n =>
    obtain ⟨hoff,hn,hthere,hleast⟩ := find_some (by simp) hfind
    rw [List.length_singleton] at hn
    refine ⟨hoff,Nat.le_of_succ_le hn,fun k hk hlt hline => ?_,.inr ((stands_iff).mp hthere)⟩
    exact hleast k hk hlt ((stands_iff).mpr hline)

theorem lineEnd_eq (hoff : off ≤ e) (he : e ≤ source.length)
    (hno : ∀ k,off ≤ k → k < e → source[k]? ≠ some '\n')
    (hend : e = source.length ∨ source[e]? = some '\n') : lineEnd source off = e := by
  obtain ⟨hle,hlen,hnone,hline⟩ := lineEnd_spec (Nat.le_trans hoff he)
  rcases Nat.lt_trichotomy (lineEnd source off) e with hlt | heq | hgt
  · rcases hline with hline | hline
    · omega
    · exact absurd hline (hno _ hle hlt)
  · exact heq
  · rcases hend with hend | hend
    · omega
    · exact absurd hend (hnone e hoff hgt)

theorem lineStart_spec (source : Source) (k : ℕ) : lineStart source k ≤ k ∧
    (∀ j,lineStart source k ≤ j → j < k → source[j]? ≠ some '\n') ∧
    (lineStart source k = 0 ∨ ∃ j,lineStart source k = j + 1 ∧ source[j]? = some '\n') := by
  induction k with
  | zero => exact ⟨Nat.le_refl 0,fun j _ hj => absurd hj (Nat.not_lt_zero j),.inl rfl⟩
  | succ k ih =>
    rw [lineStart]
    split
    · next hline => exact ⟨Nat.le_refl _,fun j hj hlt => by omega,.inr ⟨k,rfl,hline⟩⟩
    · next hline =>
      obtain ⟨hle,hno,hstart⟩ := ih
      refine ⟨Nat.le_succ_of_le hle,fun j hj hlt => ?_,hstart⟩
      rcases Nat.lt_succ_iff_lt_or_eq.mp hlt with hlt | rfl
      · exact hno j hj hlt
      · exact hline

theorem lineStart_eq {s k : ℕ} (hs : s ≤ k) (hno : ∀ j,s ≤ j → j < k → source[j]? ≠ some '\n')
    (hstart : s = 0 ∨ ∃ j,s = j + 1 ∧ source[j]? = some '\n') : lineStart source k = s := by
  obtain ⟨hle,hnone,hline⟩ := lineStart_spec source k
  rcases Nat.lt_trichotomy (lineStart source k) s with hlt | heq | hgt
  · rcases hstart with hstart | ⟨j,rfl,hj⟩
    · omega
    · exact absurd hj (hnone j (by omega) (by omega))
  · exact heq
  · rcases hline with hline | ⟨j,hj,hline⟩
    · omega
    · exact absurd hline (hno j (by omega) (by omega))

def BlankOn (source : Source) (start stop : ℕ) : Prop :=
  ∀ k, start ≤ k → k < stop → source[k]? = some ' ' ∨ source[k]? = some '\t'

variable {start stop : ℕ}

theorem getElem?_slice (k : ℕ) : (slice source start stop)[k]? =
    if k < stop - start then source[start + k]? else none := by
  rw [slice,List.getElem?_take]
  split
  · rw [List.getElem?_drop]
  · rfl

theorem isBlank_slice (h : stop ≤ source.length) :
    isBlank (slice source start stop) = true ↔ BlankOn source start stop := by
  rw [isBlank,List.all_eq_true]
  constructor
  · intro hall k hk hlt
    have hget : source[k]? = some source[k] := List.getElem?_eq_getElem (by omega)
    have hmem : source[k] ∈ slice source start stop := by
      refine List.mem_iff_getElem?.mpr ⟨k - start,?_⟩
      rw [getElem?_slice,if_pos (by omega),Nat.add_sub_cancel' hk,hget]
    have hblank := hall _ hmem
    rw [Bool.or_eq_true,beq_iff_eq,beq_iff_eq] at hblank
    rw [hget]
    simpa using hblank
  · intro hblank d hd
    obtain ⟨k,hk⟩ := List.mem_iff_getElem?.mp hd
    rw [getElem?_slice] at hk
    split at hk
    · have hat := hblank (start + k) (by omega) (by omega)
      rw [hk] at hat
      simpa using hat
    · cases hk

theorem BlankOn.no {c : Char} (h : BlankOn source start stop) (hspace : c ≠ ' ') (htab : c ≠ '\t')
    (k : ℕ) (hk : start ≤ k) (hlt : k < stop) : source[k]? ≠ some c := by
  intro hc
  rcases h k hk hlt with h | h
  · rw [hc] at h
    exact hspace (Option.some.inj h)
  · rw [hc] at h
    exact htab (Option.some.inj h)

theorem length_slice (h : stop ≤ source.length) : (slice source start stop).length = stop - start := by
  rw [slice,List.length_take,List.length_drop]
  omega

theorem dropLast_slice (h : stop ≤ source.length) :
    (slice source start stop).dropLast = slice source start (stop - 1) := by
  rw [List.dropLast_eq_take,length_slice h,slice,slice,List.take_take]
  congr 1
  omega

theorem getLast?_slice (h : stop ≤ source.length) (hlt : start < stop) :
    (slice source start stop).getLast? = source[stop - 1]? := by
  rw [List.getLast?_eq_getElem?,length_slice h,getElem?_slice,if_pos (by omega)]
  congr 1
  omega

def EndsAt (source : Source) (e stop : ℕ) : Prop :=
  e = source.length ∧ stop = e ∨ source[e]? = some '\n' ∧ stop = e + 1 ∨
    source[e]? = some '\r' ∧ source[e + 1]? = some '\n' ∧ stop = e + 2

def cutEnd (source : Source) (off : ℕ) : ℕ :=
  if lineEnd source off < source.length then lineEnd source off + 1 else source.length

theorem lineEnd_le_cutEnd (h : off ≤ source.length) : lineEnd source off ≤ cutEnd source off := by
  have := (lineEnd_spec h).2.1
  unfold cutEnd
  split
  · omega
  · omega

theorem behind_blank (h : off ≤ source.length) : isBlank (behind source off) = true ∧
    stop = cutEnd source off ↔ ∃ e,off ≤ e ∧ BlankOn source off e ∧ EndsAt source e stop := by
  obtain ⟨hle,hlen,hno,hline⟩ := lineEnd_spec h
  unfold behind cutEnd
  dsimp only
  constructor
  · rintro ⟨hblank,rfl⟩
    split at hblank
    · next hcr =>
      have hlt : off < lineEnd source off := by
        refine Nat.lt_of_le_of_ne hle fun heq => ?_
        rw [← heq,slice,Nat.sub_self,List.take_zero] at hcr
        cases hcr.2
      rw [dropLast_slice hlen,isBlank_slice (by omega)] at hblank
      rw [getLast?_slice hlen hlt] at hcr
      refine ⟨lineEnd source off - 1,by omega,hblank,.inr (.inr ⟨hcr.2,?_,?_⟩)⟩
      · rw [Nat.sub_add_cancel (by omega)]
        exact hline.resolve_left (by omega)
      · rw [if_pos hcr.1]
        omega
    · rw [isBlank_slice hlen] at hblank
      refine ⟨lineEnd source off,hle,hblank,?_⟩
      by_cases hlt : lineEnd source off < source.length
      · exact .inr (.inl ⟨hline.resolve_left (by omega),if_pos hlt⟩)
      · refine .inl ⟨by omega,?_⟩
        rw [if_neg hlt]
        omega
  · rintro ⟨e,he,hblank,hends⟩
    have hnoline := hblank.no (c := '\n') (by decide) (by decide)
    rcases hends with ⟨hend,rfl⟩ | ⟨hlf,rfl⟩ | ⟨hcr,hlf,rfl⟩
    · have heq := lineEnd_eq he (Nat.le_of_eq hend) hnoline (.inl hend)
      rw [heq,if_neg fun hboth => by omega,isBlank_slice (Nat.le_of_eq hend),if_neg (by omega)]
      exact ⟨hblank,hend⟩
    · have hlt := (List.getElem?_eq_some_iff.mp hlf).1
      have heq := lineEnd_eq he (Nat.le_of_lt hlt) hnoline (.inr hlf)
      rw [heq,if_pos hlt,if_neg,isBlank_slice (Nat.le_of_lt hlt)]
      · exact ⟨hblank,rfl⟩
      · rintro ⟨-,hlast⟩
        by_cases hempty : off = e
        · rw [hempty,slice,Nat.sub_self,List.take_zero] at hlast
          cases hlast
        · rw [getLast?_slice (Nat.le_of_lt hlt) (by omega)] at hlast
          exact hblank.no (c := '\r') (by decide) (by decide) (e - 1) (by omega) (by omega) hlast
    · have hlt := (List.getElem?_eq_some_iff.mp hlf).1
      have heq : lineEnd source off = e + 1 := by
        refine lineEnd_eq (by omega) (Nat.le_of_lt hlt) (fun k hk hke => ?_) (.inr hlf)
        rcases Nat.lt_succ_iff_lt_or_eq.mp hke with hke | rfl
        · exact hnoline k hk hke
        · rw [hcr]
          simp
      rw [heq,if_pos hlt,if_pos,dropLast_slice (Nat.le_of_lt hlt),Nat.add_sub_cancel,isBlank_slice (by omega)]
      · exact ⟨hblank,rfl⟩
      · rw [getLast?_slice (Nat.le_of_lt hlt) (by omega)]
        exact ⟨hlt,hcr⟩

end lines

end OpenSteamgate.Tpl
