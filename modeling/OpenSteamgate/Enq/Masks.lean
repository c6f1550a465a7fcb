import OpenSteamgate.Enq.Equivalence

namespace OpenSteamgate.Enq.Masks

-- a character of a Go string: a scalar value, or the three bytes of a lone half of a pair
inductive Letter
  | char (c : Char)
  | half (k : Fin 2048)
  deriving DecidableEq

def blank : Letter := .char ' '

structure Field where
  value : List Letter
  generic : Bool
  length : Nat

section code

-- []rune of the string: each byte of a half is read as U+FFFD
def Letter.runes : Letter → List Char
  | .char c => [c]
  | .half _ => ['\ufffd','\ufffd','\ufffd']

def runes (v : List Letter) : List Char := v.flatMap Letter.runes

def Field.text (f : Field) : List Letter :=
  if f.generic then List.replicate f.length (.char '\uffff')
  else
    let rs := runes f.value
    let v := if 0 < f.length ∧ f.length < rs.length then (rs.take f.length).map .char else f.value
    let n := (runes v).length
    if n < f.length then v ++ List.replicate (f.length - n) blank else v

def garg (client : List Letter) (fields : List Field) : List Letter :=
  (client ++ fields.flatMap Field.text).rdropWhile (· == blank)

def collide (a b : List Letter) : Bool :=
  let ra := runes a
  let rb := runes b
  (List.range (max ra.length rb.length)).all fun i =>
    let x := ra.getD i ' '
    let y := rb.getD i ' '
    !(x != y && x != '\uffff' && y != '\uffff')

end code

variable {f g : Field} {a b : List Field} {u u' v v' : List Char} {xs ys : List Letter}

def Field.key (f : Field) : List Letter :=
  f.value.take f.length ++ List.replicate (f.length - f.value.length) blank

def Field.seen (f : Field) : List Char := (runes f.key).take f.length

def Field.Literal (f g : Field) : Prop := f.generic = false ∧ g.generic = false

section texts

theorem runes_append (xs ys : List Letter) : runes (xs ++ ys) = runes xs ++ runes ys := List.flatMap_append

theorem runes_chars (cs : List Char) : runes (cs.map .char) = cs := by
  rw [runes,List.flatMap_map]
  exact List.flatMap_singleton' cs

theorem runes_blanks (n : Nat) : runes (List.replicate n blank) = List.replicate n ' ' := by
  rw [blank,← List.map_replicate]
  exact runes_chars _

theorem letter_pos (x : Letter) : 1 ≤ x.runes.length := by
  cases x with
  | char c => exact Nat.le_refl 1
  | half k => exact Nat.succ_le_succ (Nat.zero_le 2)

theorem runes_take (xs : List Letter) (n : Nat) : (runes xs).take n = (runes (xs.take n)).take n := by
  induction xs generalizing n with
  | nil => rw [List.take_nil]
  | cons x xs ih =>
    cases n with
    | zero => rfl
    | succ n =>
      have hx := letter_pos x
      change (x.runes ++ runes xs).take (n + 1) = (x.runes ++ runes (xs.take n)).take (n + 1)
      rw [List.take_append,List.take_append]
      congr 1
      have hle : n + 1 - x.runes.length ≤ n := by omega
      have hn := congrArg (List.take (n + 1 - x.runes.length)) (ih n)
      rwa [List.take_take,List.take_take,Nat.min_eq_left hle] at hn

theorem length_runes (xs : List Letter) : xs.length ≤ (runes xs).length := by
  induction xs with
  | nil => exact Nat.le_refl 0
  | cons x xs ih =>
    have hx := letter_pos x
    change xs.length + 1 ≤ (x.runes ++ runes xs).length
    rw [List.length_append]
    omega

theorem key_length (f : Field) : f.key.length = f.length := by
  rw [Field.key,List.length_append,List.length_take,List.length_replicate]
  omega

theorem seen_length (f : Field) : f.seen.length = f.length := by
  have hkey := length_runes f.key
  rw [key_length] at hkey
  rw [Field.seen,List.length_take]
  omega

theorem text_generic (hf : f.generic = true) : runes f.text = List.replicate f.length '\uffff' := by
  rw [Field.text,hf,if_pos rfl,← List.map_replicate]
  exact runes_chars _

theorem text_literal (hf : f.generic = false) (hlen : 1 ≤ f.length) : runes f.text = f.seen := by
  have hkey : f.seen = (runes f.value ++ List.replicate (f.length - f.value.length) ' ').take f.length := by
    rw [Field.seen,Field.key,runes_append,runes_blanks]
    rcases Nat.lt_or_ge f.length f.value.length with hlong | hshort
    · rw [Nat.sub_eq_zero_of_le hlong.le,List.replicate_zero,List.append_nil,List.append_nil,← runes_take]
    · rw [List.take_of_length_le hshort]
  have hvalue := length_runes f.value
  rw [Field.text,hf,if_neg Bool.false_ne_true,hkey]
  dsimp only
  rcases Nat.lt_or_ge f.length (runes f.value).length with hlong | hshort
  · have hcut : 0 < f.length ∧ f.length < (runes f.value).length := ⟨hlen,hlong⟩
    rw [if_pos hcut,runes_chars,List.length_take_of_le hlong.le,if_neg (Nat.lt_irrefl _),runes_chars,
      List.take_append_of_le_length hlong.le]
  · have hwhole : ¬(0 < f.length ∧ f.length < (runes f.value).length) := fun h => Nat.not_lt.mpr hshort h.2
    rw [if_neg hwhole,List.take_append,List.take_of_length_le hshort,
      List.take_replicate,Nat.min_eq_left (by omega)]
    split
    · rw [runes_append,runes_blanks]
    · rw [Nat.sub_eq_zero_of_le (by omega),List.replicate_zero,List.append_nil]

theorem text_length (hlen : 1 ≤ f.length) : (runes f.text).length = f.length := by
  cases hf : f.generic with
  | false => rw [text_literal hf hlen,seen_length]
  | true => rw [text_generic hf,List.length_replicate]

theorem runes_plain (h : .char '\uffff' ∉ xs) : '\uffff' ∉ runes xs := by
  intro hmem
  obtain ⟨x,hx,hc⟩ := List.mem_flatMap.mp hmem
  cases x with
  | char c => exact h (List.mem_singleton.mp hc ▸ hx)
  | half k => exact absurd hc (by simp [Letter.runes])

theorem seen_plain (h : .char '\uffff' ∉ f.value) : '\uffff' ∉ f.seen := by
  intro hmem
  refine runes_plain (fun hkey => ?_) (List.mem_of_mem_take hmem)
  rcases List.mem_append.mp hkey with hkey | hkey
  · exact h (List.mem_of_mem_take hkey)
  · exact absurd (List.eq_of_mem_replicate hkey) (by decide)

theorem getD_trim (xs : List Letter) (i : Nat) :
    (runes (xs.rdropWhile (· == blank))).getD i ' ' = (runes xs).getD i ' ' := by
  have hblank : xs.rtakeWhile (· == blank) = List.replicate (xs.rtakeWhile (· == blank)).length blank :=
    List.eq_replicate_iff.mpr ⟨rfl,fun x hx => by simpa using List.mem_rtakeWhile_imp hx⟩
  have hsplit : xs.rdropWhile (· == blank) ++ xs.rtakeWhile (· == blank) = xs :=
    List.rdropWhile_append_rtakeWhile
  rw [hblank] at hsplit
  conv_rhs => rw [← hsplit]
  rw [runes_append,runes_blanks,getD_append_blanks]

end texts

section matching

def Matches (u v : List Char) : Prop :=
  ∀ i,u.getD i ' ' = v.getD i ' ' ∨ u.getD i ' ' = '\uffff' ∨ v.getD i ' ' = '\uffff'

theorem matches_refl (u : List Char) : Matches u u := fun _ => .inl rfl

theorem matches_append (hlen : u.length = u'.length) :
    Matches (u ++ v) (u' ++ v') ↔ Matches u u' ∧ Matches v v' := by
  constructor
  · intro h
    refine ⟨fun i => ?_,fun i => ?_⟩
    · rcases Nat.lt_or_ge i u.length with hi | hi
      · have hat := h i
        rwa [List.getD_append _ _ _ _ hi,List.getD_append _ _ _ _ (hlen ▸ hi)] at hat
      · rw [List.getD_eq_default _ _ hi,List.getD_eq_default _ _ (hlen ▸ hi)]
        exact .inl rfl
    · have hat := h (u.length + i)
      rwa [List.getD_append_right _ _ _ _ (Nat.le_add_right _ _),
        List.getD_append_right _ _ _ _ (hlen ▸ Nat.le_add_right _ _),Nat.add_sub_cancel_left,← hlen,
        Nat.add_sub_cancel_left] at hat
  · rintro ⟨hfirst,hrest⟩ i
    rcases Nat.lt_or_ge i u.length with hi | hi
    · rw [List.getD_append _ _ _ _ hi,List.getD_append _ _ _ _ (hlen ▸ hi)]
      exact hfirst i
    · rw [List.getD_append_right _ _ _ _ hi,List.getD_append_right _ _ _ _ (hlen ▸ hi),← hlen]
      exact hrest (i - u.length)

theorem getD_plain (hu : '\uffff' ∉ u) (i : Nat) : u.getD i ' ' ≠ '\uffff' := by
  intro heq
  rcases Nat.lt_or_ge i u.length with hi | hi
  · rw [List.getD_eq_getElem _ _ hi] at heq
    exact hu (heq ▸ List.getElem_mem hi)
  · rw [List.getD_eq_default _ _ hi] at heq
    exact absurd heq (by decide)

theorem collide_matches (xs ys : List Letter) : collide xs ys = true ↔ Matches (runes xs) (runes ys) := by
  have hloop := collide_iff (String.ofList (runes xs)) (String.ofList (runes ys))
  simp only [Enq.collide,String.toList_ofList] at hloop
  exact hloop

theorem getD_generic (hf : f.generic = true) {i : Nat} (hi : i < f.length) :
    (runes f.text).getD i ' ' = '\uffff' := by
  rw [text_generic hf,List.getD_eq_getElem _ _ (by rwa [List.length_replicate]),List.getElem_replicate]

theorem matches_text (hlen : f.length = g.length) (hpos : 1 ≤ f.length)
    (hf : .char '\uffff' ∉ f.value) (hg : .char '\uffff' ∉ g.value) :
    Matches (runes f.text) (runes g.text) ↔ (f.Literal g → f.seen = g.seen) := by
  have hpos' : 1 ≤ g.length := hlen ▸ hpos
  have houtside : ∀ {i},f.length ≤ i → (runes f.text).getD i ' ' = (runes g.text).getD i ' ' := by
    intro i hi
    rw [List.getD_eq_default _ _ ((text_length hpos).trans_le hi),
      List.getD_eq_default _ _ ((text_length hpos').trans_le (hlen ▸ hi))]
  cases hfg : f.generic with
  | true =>
    refine iff_of_true (fun i => ?_) fun hlit => absurd (hfg.symm.trans hlit.1) (by decide)
    rcases Nat.lt_or_ge i f.length with hi | hi
    · exact .inr (.inl (getD_generic hfg hi))
    · exact .inl (houtside hi)
  | false =>
    cases hgg : g.generic with
    | true =>
      refine iff_of_true (fun i => ?_) fun hlit => absurd (hgg.symm.trans hlit.2) (by decide)
      rcases Nat.lt_or_ge i f.length with hi | hi
      · exact .inr (.inr (getD_generic hgg (hlen ▸ hi)))
      · exact .inl (houtside hi)
    | false =>
      rw [text_literal hfg hpos,text_literal hgg hpos']
      constructor
      · intro h _
        refine List.ext_getElem (by rw [seen_length,seen_length,hlen]) fun i hi hi' => ?_
        have hat := h i
        rw [or_iff_left (not_or_intro (getD_plain (seen_plain hf) i) (getD_plain (seen_plain hg) i))] at hat
        rwa [List.getD_eq_getElem _ _ hi,List.getD_eq_getElem _ _ hi'] at hat
      · intro h
        exact h ⟨hfg,hgg⟩ ▸ matches_refl _

theorem matches_fields (hlen : a.map Field.length = b.map Field.length) (hpos : ∀ f ∈ a,1 ≤ f.length)
    (ha : ∀ f ∈ a,.char '\uffff' ∉ f.value) (hb : ∀ f ∈ b,.char '\uffff' ∉ f.value) :
    Matches (runes (a.flatMap Field.text)) (runes (b.flatMap Field.text)) ↔
      List.Forall₂ (fun f g : Field => f.Literal g → f.seen = g.seen) a b := by
  induction a generalizing b with
  | nil =>
    obtain rfl := List.map_eq_nil_iff.mp hlen.symm
    exact iff_of_true (matches_refl _) .nil
  | cons f a ih =>
    cases b with
    | nil => cases hlen
    | cons g b =>
      obtain ⟨hfg,hrest⟩ := List.cons.inj hlen
      have hf := hpos f (List.mem_cons_self ..)
      rw [List.flatMap_cons,List.flatMap_cons,runes_append,runes_append,List.forall₂_cons,
        matches_append (by rw [text_length hf,text_length (hfg ▸ hf),hfg]),
        matches_text hfg hf (ha f (List.mem_cons_self ..)) (hb g (List.mem_cons_self ..)),
        ih hrest (fun e he => hpos e (List.mem_cons_of_mem _ he))
          (fun e he => ha e (List.mem_cons_of_mem _ he)) fun e he => hb e (List.mem_cons_of_mem _ he)]

theorem getD_garg (client : List Letter) (fields : List Field) (i : Nat) :
    (runes (garg client fields)).getD i ' ' = (runes client ++ runes (fields.flatMap Field.text)).getD i ' ' := by
  rw [garg,getD_trim,runes_append]

theorem collide_garg (client : List Letter) : collide (garg client a) (garg client b) = true ↔
    Matches (runes (a.flatMap Field.text)) (runes (b.flatMap Field.text)) := by
  rw [collide_matches]
  unfold Matches
  simp only [getD_garg]
  exact (matches_append rfl).trans (and_iff_right (matches_refl _))

end matching

section keys

-- the two lists at one position
def At (a b : List Field) (f g : Field) : Prop := ∃ i : Nat,a[i]? = some f ∧ b[i]? = some g

theorem forall₂_at {R : Field → Field → Prop} (hlen : a.map Field.length = b.map Field.length) :
    List.Forall₂ R a b ↔ ∀ f g,At a b f g → R f g := by
  have hsame : a.length = b.length := by
    have h := congrArg List.length hlen
    rwa [List.length_map,List.length_map] at h
  rw [List.forall₂_iff_get]
  constructor
  · rintro ⟨-,hall⟩ f g ⟨i,hf,hg⟩
    obtain ⟨hi,rfl⟩ := List.getElem?_eq_some_iff.mp hf
    obtain ⟨hi',rfl⟩ := List.getElem?_eq_some_iff.mp hg
    exact hall i hi hi'
  · exact fun hall => ⟨hsame,fun i hi hi' =>
      hall _ _ ⟨i,List.getElem?_eq_getElem hi,List.getElem?_eq_getElem hi'⟩⟩

theorem seen_of_key (hlen : f.length = g.length) (h : f.key = g.key) : f.seen = g.seen := by
  rw [Field.seen,Field.seen,h,hlen]

theorem at_length (hlen : a.map Field.length = b.map Field.length) (h : At a b f g) : f.length = g.length := by
  obtain ⟨i,hf,hg⟩ := h
  have hat := congrArg (·[i]?) hlen
  simpa [hf,hg] using hat

def Field.padded (n : Nat) (f : Field) : Field := {f with value := f.value ++ List.replicate n blank}

theorem runes_padded (n : Nat) (hpos : 1 ≤ f.length) : runes (f.padded n).text = runes f.text := by
  have hkey : (f.padded n).key = f.key := by
    change (f.value ++ List.replicate n blank).take f.length ++
      List.replicate (f.length - (f.value ++ List.replicate n blank).length) blank = _
    rw [Field.key,List.length_append,List.length_replicate,List.take_append,List.take_replicate,
      List.append_assoc,List.replicate_append_replicate]
    congr 2
    omega
  cases hf : f.generic with
  | true => rw [text_generic hf,text_generic (f := f.padded n) hf]; rfl
  | false => rw [text_literal hf hpos,text_literal (f := f.padded n) hf hpos,Field.seen,hkey]; rfl

theorem collide_congr {client : List Letter} (h : ∀ i,(runes (client ++ a.flatMap Field.text)).getD i ' ' =
    (runes (client ++ b.flatMap Field.text)).getD i ' ') (x : List Letter) :
    collide (garg client a) x = collide (garg client b) x := by
  rw [Bool.eq_iff_iff,collide_matches,collide_matches]
  unfold Matches
  simp only [runes_append] at h
  simp only [getD_garg,h]

-- a lone half is read as three U+FFFD: the lists must not differ in such letters alone
def Told (a b : List Field) : Prop := (∃ f g,At a b f g ∧ f.Literal g ∧ f.key ≠ g.key) →
  ∃ f g,At a b f g ∧ f.Literal g ∧ f.seen ≠ g.seen

theorem collide_shares (client : List Letter) (a b : List Field)
    (hlen : a.map Field.length = b.map Field.length) (hpos : ∀ f ∈ a,1 ≤ f.length)
    (ha : ∀ f ∈ a,.char '\uffff' ∉ f.value) (hb : ∀ f ∈ b,.char '\uffff' ∉ f.value) :
    ((collide (garg client a) (garg client b) = true ↔
      ∀ f g,At a b f g → f.generic = true ∨ g.generic = true ∨ f.key = g.key) ↔ Told a b) ∧
    (∀ n x,collide (garg client (a.map (Field.padded n))) x = collide (garg client a) x) ∧
    ∀ (blanks : List Field) (x : List Letter),(∀ f ∈ blanks,1 ≤ f.length ∧ f.generic = false ∧
      ∀ c ∈ f.value,c = blank) → collide (garg client (a ++ blanks)) x = collide (garg client a) x := by
  refine ⟨?_,fun n => ?_,fun blanks x hblanks => ?_⟩
  · rw [collide_garg,matches_fields hlen hpos ha hb,forall₂_at hlen]
    have hshares : (∀ f g,At a b f g → f.generic = true ∨ g.generic = true ∨ f.key = g.key) ↔
        ∀ f g,At a b f g → f.Literal g → f.key = g.key := by
      refine forall₂_congr fun f g => imp_congr_right fun _ => ?_
      cases hf : f.generic <;> cases hg : g.generic <;> simp [Field.Literal,hf,hg]
    rw [hshares]
    -- equal keys are read alike, so only one direction can fail
    have hsound : (∀ f g,At a b f g → f.Literal g → f.key = g.key) →
        ∀ f g,At a b f g → f.Literal g → f.seen = g.seen := fun hall f g hat hlit =>
      seen_of_key (at_length hlen hat) (hall f g hat hlit)
    constructor
    · rintro hiff ⟨f,g,hat,hlit,hne⟩
      by_contra hnone
      refine hne (hiff.mp (fun f g hat hlit => ?_) f g hat hlit)
      by_contra hseen
      exact hnone ⟨f,g,hat,hlit,hseen⟩
    · intro htold
      refine ⟨fun hseen f g hat hlit => ?_,hsound⟩
      by_contra hne
      obtain ⟨f',g',hat',hlit',hdiffer⟩ := htold ⟨f,g,hat,hlit,hne⟩
      exact hdiffer (hseen f' g' hat' hlit')
  · refine collide_congr fun i => ?_
    have hsame : runes ((a.map (Field.padded n)).flatMap Field.text) = runes (a.flatMap Field.text) := by
      rw [List.flatMap_map,runes,runes,List.flatMap_assoc,List.flatMap_assoc]
      exact List.flatMap_congr fun f hf => runes_padded n (hpos f hf)
    rw [runes_append,runes_append,hsame]
  · have hruns : ∀ {fs : List Field},(∀ f ∈ fs,1 ≤ f.length ∧ f.generic = false ∧
        ∀ c ∈ f.value,c = blank) → ∃ n,runes (fs.flatMap Field.text) = List.replicate n ' ' := by
      intro fs hfs
      refine ⟨_,List.eq_replicate_of_mem fun c hc => ?_⟩
      obtain ⟨x,hx,hc⟩ := List.mem_flatMap.mp hc
      obtain ⟨f,hf,hx⟩ := List.mem_flatMap.mp hx
      obtain ⟨hlen,hliteral,hvalue⟩ := hfs f hf
      have hread : c ∈ runes f.text := List.mem_flatMap.mpr ⟨x,hx,hc⟩
      rw [text_literal hliteral hlen] at hread
      obtain ⟨y,hy,hc⟩ := List.mem_flatMap.mp (List.mem_of_mem_take hread)
      have hy : y = blank := by
        rcases List.mem_append.mp hy with hy | hy
        · exact hvalue y (List.mem_of_mem_take hy)
        · exact List.eq_of_mem_replicate hy
      subst hy
      exact List.mem_singleton.mp hc
    obtain ⟨n,hn⟩ := hruns hblanks
    refine collide_congr (fun i => ?_) x
    rw [List.flatMap_append,← List.append_assoc,runes_append,hn]
    exact getD_append_blanks _ n i

theorem collide_shares_client : collide
    (garg [] [⟨[.char 'A',.half 0],false,3⟩,⟨[],true,3⟩]) (garg [] [⟨[.char 'B',.half 0],false,3⟩,⟨[],false,3⟩]) =
      false := by
  have hshares := collide_shares [] [⟨[.char 'A',.half 0],false,3⟩,⟨[],true,3⟩]
    [⟨[.char 'B',.half 0],false,3⟩,⟨[],false,3⟩] rfl (by decide) (by decide) (by decide)
  have htold : Told [⟨[.char 'A',.half 0],false,3⟩,⟨[],true,3⟩] [⟨[.char 'B',.half 0],false,3⟩,⟨[],false,3⟩] :=
    fun _ => ⟨⟨[.char 'A',.half 0],false,3⟩,⟨[.char 'B',.half 0],false,3⟩,⟨0,rfl,rfl⟩,⟨rfl,rfl⟩,by decide⟩
  refine Bool.eq_false_iff.mpr fun hcollide => ?_
  exact absurd ((hshares.1.mpr htold).mp hcollide _ _ ⟨0,rfl,rfl⟩) (by decide)

-- two halves that differ are read alike
theorem halves_collide : collide (garg [] [⟨[.half 0],false,3⟩]) (garg [] [⟨[.half 1],false,3⟩]) = true ∧
    Field.key ⟨[.half 0],false,3⟩ ≠ Field.key ⟨[.half 1],false,3⟩ := by decide

end keys

section scalars

def letters (s : String) : List Letter := s.toList.map .char

def ofField (f : Enq.Field) : Field := ⟨letters f.value,f.generic,f.length⟩

theorem text_letters (f : Enq.Field) : (ofField f).text = f.runes.map .char := by
  unfold Field.text Enq.Field.runes ofField letters
  simp only [runes_chars]
  cases f.generic with
  | true => rw [if_pos rfl,if_pos rfl,List.map_replicate]
  | false =>
    rw [if_neg Bool.false_ne_true,if_neg Bool.false_ne_true]
    split
    · rw [runes_chars]
      split
      · rw [List.map_append,List.map_replicate]
        rfl
      · rfl
    · rw [runes_chars]
      split
      · rw [List.map_append,List.map_replicate]
        rfl
      · rfl

theorem garg_letters (client : String) (fields : List Enq.Field) :
    garg (letters client) (fields.map ofField) = letters (Enq.garg client fields) := by
  have hfields : (fields.map ofField).flatMap Field.text = (fields.flatMap Enq.Field.runes).map .char := by
    rw [List.flatMap_map,List.map_flatMap]
    exact List.flatMap_congr fun f _ => text_letters f
  have hblank : ((· == blank) ∘ Letter.char) = (· == ' ') := by
    funext c
    rw [Function.comp_apply,Bool.eq_iff_iff,beq_iff_eq,beq_iff_eq,blank,Letter.char.injEq]
  rw [garg,hfields,Enq.garg,letters,letters,String.toList_ofList,← List.map_append,List.rdropWhile,List.rdropWhile,
    ← List.map_reverse,List.dropWhile_map,hblank,List.map_reverse]

theorem collide_letters (s t : String) : collide (letters s) (letters t) = Enq.collide s t := by
  unfold collide Enq.collide letters
  rw [runes_chars,runes_chars]

end scalars

end OpenSteamgate.Enq.Masks
