import OpenSteamgate.Library.Outcome
import OpenSteamgate.Protocols.Tunnel

namespace OpenSteamgate.Protocols.Tunnel

open Marked Wtf8

variable {s t u v a pre post rest name text : JsString} {c : UInt16} {point : Nat}

def NoEntity (s : JsString) : Prop := ∀ t,t <:+ s → entity t = none

theorem noEntity_cons : NoEntity (c :: s) ↔ entity (c :: s) = none ∧ NoEntity s := by
  constructor
  · intro h
    exact ⟨h _ (List.suffix_refl _),fun t ht => h t (ht.trans (List.suffix_cons c s))⟩
  · rintro ⟨hhead,htail⟩ t ht
    rcases List.suffix_cons_iff.mp ht with rfl | ht
    · exact hhead
    · exact htail t ht

theorem noEntity_nil : NoEntity [] := fun t ht => by
  rw [List.suffix_nil.mp ht]
  rfl

theorem entity_other (h : c ≠ 38) : entity (c :: s) = none := by
  rw [entity.eq_def]
  split
  · rename_i hc
    exact absurd (List.cons.inj hc).1 h
  · rfl

theorem noEntity_unmarked (h : 38 ∉ s) : NoEntity s := by
  induction s with
  | nil => exact noEntity_nil
  | cons c s ih =>
    have hc : c ≠ 38 := fun hc => h (hc ▸ List.mem_cons_self ..)
    exact (noEntity_cons).mpr ⟨entity_other hc,ih fun hs => h (List.mem_cons_of_mem c hs)⟩

theorem xmlUnescape_nil : xmlUnescape [] = .ok [] := by rw [xmlUnescape]

theorem xmlUnescape_none (h : entity (c :: s) = none) :
    xmlUnescape (c :: s) = (xmlUnescape s).map (c :: ·) := by
  rw [xmlUnescape]
  split
  · rename_i hsome
    cases h.symm.trans hsome
  · cases xmlUnescape s with
    | error e => rfl
    | ok t => rfl

theorem xmlUnescape_some (h : entity (c :: s) = some (point,rest)) : xmlUnescape (c :: s) =
    if isPoint point then (xmlUnescape rest).map (unitsOf point ++ ·)
    else .error .invalidReference := by
  rw [xmlUnescape]
  split
  · rename_i p after hsome
    obtain ⟨rfl,rfl⟩ := Prod.mk.inj (Option.some.inj (h.symm.trans hsome))
    by_cases hp : isPoint point
    · rw [if_pos hp,if_pos hp]
      cases xmlUnescape rest with
      | error e => rfl
      | ok t => rfl
    · rw [if_neg hp,if_neg hp]
  · rename_i hnone
    cases h.symm.trans hnone

theorem xmlUnescape_cases (h : xmlUnescape s = .ok t) :
    NoEntity s ∧ t = s ∨ t.length < s.length := by
  induction hn : s.length using Nat.strong_induction_on generalizing s t with
  | _ n ih =>
    subst hn
    cases s with
    | nil =>
      rw [xmlUnescape_nil] at h
      exact .inl ⟨noEntity_nil,(Except.ok.inj h).symm⟩
    | cons c s =>
      cases hentity : entity (c :: s) with
      | none =>
        rw [xmlUnescape_none hentity] at h
        obtain ⟨tail,htail,rfl⟩ := map_eq_ok h
        rcases ih s.length (Nat.lt_succ_self _) htail rfl with ⟨hno,rfl⟩ | hlt
        · exact .inl ⟨(noEntity_cons).mpr ⟨hentity,hno⟩,rfl⟩
        · exact .inr (Nat.succ_lt_succ hlt)
      | some r =>
        obtain ⟨point,rest⟩ := r
        have hlength := entity_length hentity
        rw [xmlUnescape_some hentity] at h
        split at h
        · obtain ⟨tail,htail,rfl⟩ := map_eq_ok h
          have hunits : (unitsOf point).length ≤ 2 := by
            rw [unitsOf_length]
            split
            · exact Nat.le_succ 1
            · exact Nat.le_refl 2
          have htail : tail.length ≤ rest.length := by
            rcases ih rest.length (by omega) htail rfl with ⟨_,rfl⟩ | hlt
            · exact Nat.le_refl _
            · exact hlt.le
          refine .inr ?_
          rw [List.length_append]
          omega
        · exact nomatch h

theorem xmlUnescape_length (h : xmlUnescape s = .ok t) : t.length ≤ s.length := by
  rcases xmlUnescape_cases h with ⟨_,rfl⟩ | hlt
  · exact Nat.le_refl _
  · exact hlt.le

theorem xmlUnescape_self (h : NoEntity s) : xmlUnescape s = .ok s := by
  induction s with
  | nil => exact xmlUnescape_nil
  | cons c s ih =>
    obtain ⟨hhead,htail⟩ := (noEntity_cons).mp h
    rw [xmlUnescape_none hhead,ih htail]
    rfl

theorem xmlUnescape_iff : xmlUnescape s = .ok s ↔ NoEntity s := by
  refine ⟨fun h => ?_,xmlUnescape_self⟩
  rcases xmlUnescape_cases h with ⟨hno,_⟩ | hlt
  · exact hno
  · exact absurd hlt (Nat.lt_irrefl _)

theorem xmlUnescape_append (h : 38 ∉ a) (s : JsString) :
    xmlUnescape (a ++ s) = (xmlUnescape s).map (a ++ ·) := by
  induction a with
  | nil =>
    cases hs : xmlUnescape s with
    | error e => exact hs
    | ok t => exact hs
  | cons c a ih =>
    have hc : c ≠ 38 := fun hc => h (hc ▸ List.mem_cons_self ..)
    rw [List.cons_append,xmlUnescape_none (entity_other hc),ih fun ha => h (List.mem_cons_of_mem c ha)]
    cases xmlUnescape s with
    | error e => rfl
    | ok t => rfl

theorem entity_amp (s : JsString) : entity (js "&amp;" ++ s) = some (38,s) := rfl

theorem entity_lt (s : JsString) : entity (js "&lt;" ++ s) = some (60,s) := rfl

theorem entity_gt (s : JsString) : entity (js "&gt;" ++ s) = some (62,s) := rfl

theorem xmlUnescape_escape (s t : JsString) :
    xmlUnescape (xmlEscape s ++ t) = (xmlUnescape t).map (s ++ ·) := by
  induction s with
  | nil =>
    cases ht : xmlUnescape t with
    | error e => exact ht
    | ok t => exact ht
  | cons c s ih =>
    have hcons : xmlEscape (c :: s) = (if c = 38 then js "&amp;" else if c = 60 then js "&lt;"
        else if c = 62 then js "&gt;" else [c]) ++ xmlEscape s := rfl
    have hstep : xmlUnescape (xmlEscape (c :: s) ++ t) =
        (xmlUnescape (xmlEscape s ++ t)).map (c :: ·) := by
      rw [hcons,List.append_assoc]
      split
      · rename_i hc
        subst hc
        exact (xmlUnescape_some (entity_amp _)).trans (if_pos (by decide))
      split
      · rename_i hc
        subst hc
        exact (xmlUnescape_some (entity_lt _)).trans (if_pos (by decide))
      split
      · rename_i hc
        subst hc
        exact (xmlUnescape_some (entity_gt _)).trans (if_pos (by decide))
      · rename_i hamp _ _
        exact xmlUnescape_none (entity_other hamp)
    rw [hstep,ih]
    cases xmlUnescape t with
    | error e => rfl
    | ok t => rfl

def Name (s : JsString) : Prop := 60 ∉ s ∧ 62 ∉ s

instance : DecidablePred Name := fun s => inferInstanceAs (Decidable (60 ∉ s ∧ 62 ∉ s))

theorem Name.tail (h : Name name) : 60 ∉ name ++ [62] := by
  intro hmem
  rcases List.mem_append.mp hmem with hmem | hmem
  · exact h.1 hmem
  · exact absurd (List.mem_singleton.mp hmem) (by decide)

theorem Name.closing (h : Name name) : Name (47 :: name) := by
  constructor
  · intro hmem
    rcases List.mem_cons.mp hmem with hmem | hmem
    · exact absurd hmem (by decide)
    · exact h.1 hmem
  · intro hmem
    rcases List.mem_cons.mp hmem with hmem | hmem
    · exact absurd hmem (by decide)
    · exact h.2 hmem

def inside (name rest : JsString) : Except TunnelError JsString :=
  match index rest (closing name) with
  | none => .error (.malformed name)
  | some stop =>
    if (index rest (tag name)).any (· < stop) then .error (.malformed name)
    else xmlUnescape (rest.take stop)

theorem index_tag (hname : Name name) (hpre : index pre (tag name) = none) (rest : JsString) :
    index (pre ++ (tag name ++ rest)) (tag name) = some pre.length := by
  have hmark := index_append_mark hname.tail hpre ((name ++ [62]) ++ rest)
  have hself := index_self (tag name) rest
  rw [← List.cons_append] at hmark
  exact hmark.trans (congrArg (Option.map _) hself)

theorem element_eq (hname : Name name) (hpre : index pre (tag name) = none) (rest : JsString)
    (required : Bool) :
    element (pre ++ (tag name ++ rest)) name required = inside name rest := by
  have hstart : indexFrom (pre ++ (tag name ++ rest)) (tag name) 0 = some pre.length := by
    rw [indexFrom,List.drop_zero,index_tag hname hpre]
    exact congrArg some (Nat.zero_add _)
  have hdrop : (pre ++ (tag name ++ rest)).drop (pre.length + (tag name).length) = rest := by
    rw [← List.append_assoc,← List.length_append,List.drop_left]
  rw [element,hstart,inside]
  change (match indexFrom _ _ (pre.length + (tag name).length) with | none => _ | some stop => _) = _
  rw [indexFrom,indexFrom,hdrop]
  cases hstop : index rest (closing name) with
  | none => rfl
  | some stop =>
    have hslice : slice (pre ++ (tag name ++ rest)) (pre.length + (tag name).length)
        (pre.length + (tag name).length + stop) = rest.take stop := by
      rw [slice,hdrop,Nat.add_sub_cancel_left]
    have hany : ((index rest (tag name)).map (pre.length + (tag name).length + ·)).any
        (· < pre.length + (tag name).length + stop) = (index rest (tag name)).any (· < stop) := by
      cases index rest (tag name) with
      | none => rfl
      | some i => simp
    change (if _ then _ else xmlUnescape (slice _ _ _)) = _
    rw [hslice,hany]

theorem inside_length (h : inside name rest = .ok t) : t.length ≤ rest.length := by
  rw [inside] at h
  split at h
  · cases h
  split at h
  · cases h
  · refine (xmlUnescape_length h).trans ?_
    rw [List.length_take]
    exact Nat.min_le_right _ _

structure Clean (name u : JsString) : Prop where
  opened : index u (tag name) = none
  closed : index u (closing name) = none
  plain : NoEntity u

theorem inside_eq (hname : Name name) (hopen : index u (tag name) = none)
    (hclose : index u (closing name) = none) (post : JsString) :
    inside name (u ++ (closing name ++ post)) = xmlUnescape u := by
  have hstop := index_tag hname.closing hclose post
  have hlater : index (u ++ (closing name ++ post)) (tag name) =
      (index (closing name ++ post) (tag name)).map (u.length + ·) :=
    index_append_mark hname.tail hopen _
  rw [inside,show index (u ++ (closing name ++ post)) (closing name) = some u.length from hstop,hlater]
  change (if ((index _ _).map _).any _ then _ else _) = _
  rw [if_neg,List.take_left]
  cases index (closing name ++ post) (tag name) with
  | none => simp
  | some i => simp

theorem inside_iff (hname : Name name) (u post : JsString) :
    inside name (u ++ (closing name ++ post)) = .ok u ↔ Clean name u := by
  constructor
  · intro h
    cases hclose : index u (closing name) with
    | some i =>
      have hlt := index_lt (List.cons_ne_nil 60 _) hclose
      rw [inside,index_append_some hclose] at h
      change (if _ then _ else _) = _ at h
      split at h
      · exact nomatch h
      · have hle := xmlUnescape_length h
        rw [List.length_take] at hle
        omega
    | none =>
      cases hopen : index u (tag name) with
      | none =>
        rw [inside_eq hname hopen hclose] at h
        exact ⟨hopen,hclose,(xmlUnescape_iff).mp h⟩
      | some i =>
        have hlt := index_lt (List.cons_ne_nil 60 _) hopen
        rw [inside,show index (u ++ (closing name ++ post)) (closing name) = some u.length from
          index_tag hname.closing hclose post,index_append_some hopen] at h
        change (if decide (i < u.length) = true then _ else _) = _ at h
        rw [if_pos (decide_eq_true hlt)] at h
        exact nomatch h
  · rintro ⟨hopen,hclose,hplain⟩
    rw [inside_eq hname hopen hclose,xmlUnescape_self hplain]

theorem clean_plain (hmark : 60 ∉ u) (hplain : 38 ∉ u) : Clean name u :=
  ⟨index_unmarked hmark,index_unmarked hmark,noEntity_unmarked hplain⟩

def spell (pieces : List (JsString × JsString)) : JsString :=
  pieces.flatMap fun piece => tag piece.1 ++ piece.2

variable {pieces : List (JsString × JsString)}

theorem spell_cons (piece : JsString × JsString) (pieces : List (JsString × JsString)) :
    spell (piece :: pieces) = tag piece.1 ++ piece.2 ++ spell pieces := rfl

theorem spell_append (left right : List (JsString × JsString)) :
    spell (left ++ right) = spell left ++ spell right := List.flatMap_append

def Spelled (pieces : List (JsString × JsString)) : Prop :=
  ∀ piece ∈ pieces,Name piece.1 ∧ 60 ∉ piece.2

theorem tag_begins (hname : Name name) (hother : Name t) (h : tag name <+: tag t ++ u) :
    name = t := by
  have htail : name ++ [62] <+: t ++ 62 :: u := by
    have := (List.cons_prefix_cons.mp h).2
    rwa [List.append_eq,List.append_assoc] at this
  clear h
  induction name generalizing t with
  | nil =>
    cases t with
    | nil => rfl
    | cons x t =>
      have hx := (List.cons_prefix_cons.mp htail).1
      exact absurd (hx ▸ List.mem_cons_self ..) hother.2
  | cons y name ih =>
    cases t with
    | nil =>
      have hy := (List.cons_prefix_cons.mp htail).1
      exact absurd (hy ▸ List.mem_cons_self ..) hname.2
    | cons x t =>
      obtain ⟨hxy,hrest⟩ := List.cons_prefix_cons.mp htail
      have hn : Name name := ⟨fun h => hname.1 (.tail _ h),fun h => hname.2 (.tail _ h)⟩
      have ht : Name t := ⟨fun h => hother.1 (.tail _ h),fun h => hother.2 (.tail _ h)⟩
      rw [hxy,ih hn ht hrest]

theorem index_piece (hname : Name name) (ht : Name t) (hu : 60 ∉ u) (hne : name ≠ t)
    (v : JsString) :
    index (tag t ++ u ++ v) (tag name) = (index v (tag name)).map ((tag t ++ u).length + ·) := by
  refine index_shift (fun j hj hpre => ?_) (List.cons_ne_nil 60 _)
  cases j with
  | zero =>
    rw [List.drop_zero,List.append_assoc] at hpre
    exact hne (tag_begins hname ht hpre)
  | succ j =>
    have hmem : 60 ∈ (tag t ++ u).drop (j + 1) := by
      rw [List.drop_append_of_le_length hj.le] at hpre
      cases hdrop : (tag t ++ u).drop (j + 1) with
      | nil =>
        have := congrArg List.length hdrop
        rw [List.length_drop,List.length_nil] at this
        omega
      | cons x xs =>
        rw [hdrop] at hpre
        rw [(List.cons_prefix_cons.mp hpre).1]
        exact List.mem_cons_self ..
    have hmem : 60 ∈ t ++ [62] ++ u := List.mem_of_mem_drop (i := j) hmem
    rcases List.mem_append.mp hmem with hmem | hmem
    · exact ht.tail hmem
    · exact hu hmem

theorem index_spell (hname : Name name) (h : Spelled pieces)
    (habsent : name ∉ pieces.map Prod.fst) (v : JsString) :
    index (spell pieces ++ v) (tag name) =
      (index v (tag name)).map ((spell pieces).length + ·) := by
  induction pieces with
  | nil =>
    change index v (tag name) = (index v (tag name)).map (0 + ·)
    cases index v (tag name) with
    | none => rfl
    | some i => exact congrArg some (Nat.zero_add i).symm
  | cons piece pieces ih =>
    obtain ⟨⟨hfirst,htext⟩,hrest⟩ := List.forall_mem_cons.mp h
    rw [List.map_cons,List.mem_cons,not_or] at habsent
    rw [spell_cons,List.append_assoc,index_piece hname hfirst htext habsent.1,
      ih hrest habsent.2,Option.map_map]
    congr 1
    funext i
    simp only [Function.comp_apply,List.length_append]
    omega

theorem index_spell_none (name : JsString) (hname : Name name) (h : Spelled pieces)
    (habsent : name ∉ pieces.map Prod.fst) : index (spell pieces) (tag name) = none := by
  have hspell := index_spell hname h habsent []
  rw [List.append_nil] at hspell
  exact hspell.trans (congrArg (Option.map _) (index_unmarked List.not_mem_nil))

end OpenSteamgate.Protocols.Tunnel
