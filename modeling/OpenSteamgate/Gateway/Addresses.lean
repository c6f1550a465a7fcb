import Mathlib.Data.List.Forall2
import OpenSteamgate.Gateway.Url

namespace OpenSteamgate.Gateway.Url

open Quoted

inductive Unescaped : Text → Text → Prop
  | nil : Unescaped [] []
  | copy {xs ys : Text} (c : Char) : Unescaped xs ys → Unescaped (c :: xs) (c :: ys)
  | escapes {xs ys : Text} (escape decoded : Text) : escape.head? = some '%' → '\'' ∉ escape →
      decoded.length < escape.length → Unescaped xs ys → Unescaped (escape ++ xs) (decoded ++ ys)

structure Decodes (unescape : Unescape) : Prop where
  plain : ∀ text,'%' ∉ text → unescape text = some text
  escapes : ∀ text decoded,unescape text = some decoded → Unescaped text decoded

variable {xs ys : Text} {quote : Bool} {f : Field} {t : EdmType} {p : Property} {ps : List Property}
  {row : Text → Option Field} {set : EntitySet} {unescape : Unescape}

section escapes

theorem unescaped_cons {c : Char} (hc : c ≠ '%') (h : Unescaped (c :: xs) ys) :
    ∃ zs,ys = c :: zs ∧ Unescaped xs zs := by
  generalize htext : c :: xs = text at h
  cases h with
  | nil => cases htext
  | copy d h =>
    obtain ⟨rfl,rfl⟩ := List.cons.inj htext
    exact ⟨_,rfl,h⟩
  | escapes escape decoded hhead =>
    cases escape with
    | nil => cases hhead
    | cons d escape =>
      obtain ⟨rfl,-⟩ := List.cons.inj htext
      exact absurd (Option.some.inj hhead) hc

theorem unescaped_nil (h : Unescaped [] ys) : ys = [] := by
  generalize htext : [] = text at h
  cases h with
  | nil => rfl
  | copy => cases htext
  | escapes escape decoded hhead =>
    cases escape with
    | nil => cases hhead
    | cons => cases htext

theorem unescaped_append {xs₁ xs₂ : Text} (h : Unescaped (xs₁ ++ '\'' :: xs₂) ys) :
    ∃ ys₁ ys₂,ys = ys₁ ++ '\'' :: ys₂ ∧ Unescaped xs₁ ys₁ ∧ Unescaped xs₂ ys₂ := by
  generalize htext : xs₁ ++ '\'' :: xs₂ = text at h
  induction h generalizing xs₁ with
  | nil => exact absurd htext (by simp)
  | copy c h ih =>
    cases xs₁ with
    | nil =>
      obtain ⟨rfl,rfl⟩ := List.cons.inj htext
      exact ⟨[],_,rfl,.nil,h⟩
    | cons d xs₁ =>
      obtain ⟨rfl,htail⟩ := List.cons.inj htext
      obtain ⟨ys₁,ys₂,rfl,h₁,h₂⟩ := ih htail
      exact ⟨d :: ys₁,ys₂,rfl,.copy d h₁,h₂⟩
  | escapes escape decoded hhead hquote hlength h ih =>
    rcases List.append_eq_append_iff.mp htext with ⟨zs,hescape,hrest⟩ | ⟨zs,hxs,hrest⟩
    · cases zs with
      | nil =>
        rw [List.append_nil] at hescape
        obtain ⟨ys₁,ys₂,rfl,h₁,h₂⟩ := @ih [] hrest
        refine ⟨decoded ++ ys₁,ys₂,(List.append_assoc ..).symm,?_,h₂⟩
        rw [← hescape,← List.append_nil escape]
        exact .escapes escape decoded hhead hquote hlength h₁
      | cons d zs =>
        obtain ⟨rfl,-⟩ := List.cons.inj hrest
        rw [hescape] at hquote
        exact absurd (List.mem_append_right _ (List.mem_cons_self ..)) hquote
    · obtain ⟨ys₁,ys₂,rfl,h₁,h₂⟩ := ih hrest.symm
      refine ⟨decoded ++ ys₁,ys₂,(List.append_assoc ..).symm,?_,h₂⟩
      rw [hxs]
      exact .escapes escape decoded hhead hquote hlength h₁

theorem halve_unescaped (h : Unescaped (double '\'' xs) ys) :
    (halve '\'' ys).length ≤ xs.length ∧ ((halve '\'' ys).length = xs.length → ys = double '\'' xs) := by
  induction hn : xs.length using Nat.strong_induction_on generalizing xs ys with
  | _ n ih =>
    subst hn
    generalize htext : double '\'' xs = text at h
    cases h with
    | nil => exact ⟨Nat.zero_le _,fun _ => rfl⟩
    | @copy rest zs c h =>
      cases xs with
      | nil => cases htext
      | cons d xs =>
        by_cases hd : d = '\''
        · subst hd
          rw [double_quote] at htext
          obtain ⟨rfl,rfl⟩ := List.cons.inj htext
          obtain ⟨zs,rfl,hrest⟩ := unescaped_cons (by decide) h
          obtain ⟨hle,heq⟩ := ih _ (Nat.lt_succ_self xs.length) hrest rfl
          rw [halve_quotes,List.length_cons,List.length_cons]
          refine ⟨Nat.succ_le_succ hle,fun hlength => ?_⟩
          rw [heq (Nat.succ.inj hlength)]
        · rw [double_other hd] at htext
          obtain ⟨rfl,rfl⟩ := List.cons.inj htext
          obtain ⟨hle,heq⟩ := ih _ (Nat.lt_succ_self xs.length) h rfl
          rw [halve_other hd,List.length_cons,List.length_cons]
          refine ⟨Nat.succ_le_succ hle,fun hlength => ?_⟩
          rw [heq (Nat.succ.inj hlength)]
    | @escapes rest us escape decoded hhead hquote hlength h =>
      obtain ⟨zs,rfl,rfl⟩ := double_eq_append hquote htext
      have hshort : zs.length < (escape ++ zs).length := by
        rw [List.length_append]
        omega
      have hle := (ih _ hshort h rfl).1
      have happend : (halve '\'' (decoded ++ us)).length ≤ _ := halve_append decoded
      rw [List.length_append]
      constructor
      · omega
      · intro heq
        omega

theorem unquote_wrap (xs : Text) : unquote (wrap '\'' xs) = xs := by
  have hends : (wrap '\'' xs).getLast? = some '\'' := by
    rw [wrap,← List.cons_append,List.getLast?_concat]
  have hlength : 2 ≤ (wrap '\'' xs).length := by
    rw [wrap,List.length_cons,List.length_append]
    exact Nat.succ_le_succ (Nat.le_add_left _ _)
  rw [unquote,if_pos ⟨hlength,rfl,hends⟩,wrap,List.drop_succ_cons,List.drop_zero,List.dropLast_concat,
    halve_double]

theorem unquote_unescaped (h : Unescaped (wrap '\'' xs) ys) (hread : unquote ys = xs) :
    ys = wrap '\'' xs := by
  obtain ⟨zs,rfl,htail⟩ := unescaped_cons (by decide) h
  obtain ⟨us,vs,rfl,hus,hvs⟩ := unescaped_append htail
  rw [unescaped_nil hvs] at hread ⊢
  have hends : ('\'' :: (us ++ ['\''])).getLast? = some '\'' := by
    rw [← List.cons_append,List.getLast?_concat]
  have hlength : 2 ≤ ('\'' :: (us ++ ['\''])).length := by
    rw [List.length_cons,List.length_append]
    exact Nat.succ_le_succ (Nat.le_add_left _ _)
  rw [unquote,if_pos ⟨hlength,rfl,hends⟩,List.drop_succ_cons,List.drop_zero,List.dropLast_concat] at hread
  rw [(halve_unescaped hus).2 (congrArg List.length hread)]
  rfl

end escapes

section scanning

theorem scanKeys_eq : scanKeys quote xs = cut '\'' ')' quote xs := by
  induction quote,xs using scanKeys.induct with
  | case1 => rfl
  | case2 cs ih =>
    rw [scanKeys,ih,cut,if_pos rfl,Bool.not_true,cut,if_pos rfl,Option.map_map]
    rfl
  | case3 quote cs hne ih =>
    rw [scanKeys,if_pos rfl,ih,cut,if_pos rfl]
    exact hne
  | case4 quote c cs hne hc hstop =>
    rw [scanKeys,if_neg hc,if_pos hstop,cut,if_neg hc,if_pos hstop]
    exact hne
  | case5 quote c cs hne hc hstop ih =>
    rw [scanKeys,if_neg hc,if_neg hstop,cut,if_neg hc,if_neg hstop,ih]
    exact hne

theorem splitKeys_eq : splitKeys quote xs =
    if toggled '\'' quote xs then none else some (parts '\'' ',' quote xs) := by
  induction quote,xs using splitKeys.induct with
  | case1 => rfl
  | case2 => rfl
  | case3 cs ih =>
    rw [splitKeys,ih,parts,if_pos rfl,Bool.not_true,parts,if_pos rfl,List.modifyHead_modifyHead]
    change _ = if toggled '\'' true cs then _ else _
    split <;> rfl
  | case4 quote cs hne ih =>
    rw [splitKeys,if_pos rfl,ih,parts,if_pos rfl]
    · change _ = if toggled '\'' (!quote) cs then _ else _
      split <;> rfl
    · exact hne
  | case5 quote c cs hne hc hstop ih =>
    rw [splitKeys,if_neg hc,if_pos hstop,ih,parts,if_neg hc,if_pos hstop,toggled,toggled,
      List.foldl_cons,if_neg hc]
    · split <;> rfl
    · exact hne
  | case6 quote c cs hne hc hstop ih =>
    rw [splitKeys,if_neg hc,if_neg hstop,ih,parts,if_neg hc,if_neg hstop,toggled,toggled,
      List.foldl_cons,if_neg hc]
    · split <;> rfl
    · exact hne

theorem splitName_eq : splitName quote xs = (cut '\'' '=' quote xs).map fun r => (r.1,r.2.drop 1) := by
  induction xs generalizing quote with
  | nil => rfl
  | cons c cs ih =>
    rw [splitName,cut]
    split
    · rw [ih,Option.map_map,Option.map_map]
      rfl
    · split
      · rfl
      · rw [ih,Option.map_map,Option.map_map]
        rfl

end scanning

section literals

def Plain (text : Text) : Prop := text ≠ [] ∧ ∀ c ∈ text,c ∉ "'\"(),=%/? ".toList

def Fits (f : Field) : EdmType → Prop
  | .int16 | .int32 | .byte => ∃ n,f = .int n
  | .decimal => ∃ n decimals,f = .packed n decimals
  | .boolean | .dateTime | .time | .string | .other => True

def keyText (f : Field) : EdmType → Text
  | .int16 | .int32 | .byte | .decimal => f.template
  | .boolean => if f.isInitial then "false".toList else "true".toList
  | .dateTime | .time | .string | .other => f.move

theorem digit_plain {c : Char} (h : c.isDigit = true) : c ∉ "'\"(),=%/? ".toList := by
  intro hc
  have hno : ∀ c ∈ "'\"(),=%/? ".toList,c.isDigit = false := by simp
  exact Bool.false_ne_true ((hno c hc).symm.trans h)

theorem digits_plain (n : Nat) : Plain (Nat.toDigits 10 n) :=
  ⟨Nat.toDigits_ne_nil,fun _ hc =>
    digit_plain (Nat.isDigit_of_mem_toDigits (by decide) (Nat.le_refl 10) hc)⟩

theorem plain_append (hx : ∀ c ∈ xs,c ∉ "'\"(),=%/? ".toList) (hy : Plain ys) : Plain (xs ++ ys) := by
  refine ⟨fun hnil => hy.1 (List.append_eq_nil_iff.mp hnil).2,fun c hc => ?_⟩
  rcases List.mem_append.mp hc with hc | hc
  · exact hx c hc
  · exact hy.2 c hc

theorem sign_plain (n : Int) : ∀ c ∈ sign n,c ∉ "'\"(),=%/? ".toList := by
  rw [sign]
  split
  · simp
  · exact List.forall_mem_nil _

theorem point_plain (n decimals : Nat) : Plain (point n decimals) := by
  have hmem : ∀ c ∈ (Nat.toDigits 10 n).leftpad (decimals + 1) '0',c ∉ "'\"(),=%/? ".toList := by
    intro c hc
    rw [List.leftpad] at hc
    rcases List.mem_append.mp hc with hc | hc
    · rw [(List.mem_replicate.mp hc).2]
      decide
    · exact (digits_plain n).2 c hc
  rw [point]
  split
  · refine ⟨fun hnil => ?_,hmem⟩
    rw [List.leftpad] at hnil
    exact (digits_plain n).1 (List.append_eq_nil_iff.mp hnil).2
  · refine plain_append (fun c hc => hmem c (List.mem_of_mem_take hc)) ⟨List.cons_ne_nil _ _,?_⟩
    intro c hc
    rcases List.mem_cons.mp hc with rfl | hc
    · decide
    · exact hmem c (List.mem_of_mem_drop hc)

theorem plain_filter {d : Char} (h : Plain xs) (hd : d ∈ "'\"(),=%/? ".toList) :
    xs.filter (· ≠ d) = xs := by
  refine List.filter_eq_self.mpr fun c hc => decide_eq_true ?_
  rintro rfl
  exact h.2 c hc hd

theorem int_plain (n : Int) : Plain (Field.int n).template := by
  rw [Field.template,intText_sign]
  exact plain_append (sign_plain n) (digits_plain _)

theorem packed_plain (n : Int) (decimals : Nat) : Plain (Field.packed n decimals).template :=
  plain_append (sign_plain n) (point_plain _ _)

theorem integerText_int (n : Int) : integerText (.int n) = (Field.int n).template := by
  have hplain := int_plain n
  rw [integerText,condenseNoGaps,plain_filter hplain (by decide)]
  exact if_neg hplain.1

theorem literal_cases (h : Fits f t) : Plain (keyText f t) ∧ keyLiteral f t = keyText f t ∨
    keyLiteral f t = wrap '\'' (keyText f t) := by
  cases t with
  | int16 | int32 | byte =>
    obtain ⟨n,rfl⟩ := h
    refine .inl ⟨int_plain n,?_⟩
    change (integerText (.int n)).filter (· ≠ '"') = _
    rw [integerText_int]
    exact plain_filter (int_plain n) (by decide)
  | decimal =>
    obtain ⟨n,decimals,rfl⟩ := h
    have hplain := packed_plain n decimals
    refine .inl ⟨hplain,?_⟩
    change ('"' :: condenseNoGaps (Field.packed n decimals).template ++ ['"']).filter (· ≠ '"') = _
    rw [condenseNoGaps,plain_filter hplain (by decide),List.filter_append,
      List.filter_cons_of_neg (by decide),plain_filter hplain (by decide)]
    exact List.append_nil _
  | boolean =>
    refine .inl ?_
    rw [keyText,keyLiteral,booleanText]
    cases f.isInitial with
    | true => exact ⟨⟨by decide,by simp⟩,by decide⟩
    | false => exact ⟨⟨by decide,by simp⟩,by decide⟩
  | dateTime | time | string | other => exact .inr rfl

end literals

section predicates

def Closed (stop : Char) (text : Text) : Prop :=
  Quiet '\'' stop false text ∧ toggled '\'' false text = false

theorem closed_plain {stop : Char} (h : Plain xs) (hstop : stop ∈ "'\"(),=%/? ".toList) : Closed stop xs :=
  quiet_plain (fun hc => h.2 _ hc (by decide)) fun hc => h.2 _ hc hstop

theorem closed_append {stop : Char} (hx : Closed stop xs) (hy : Closed stop ys) : Closed stop (xs ++ ys) := by
  refine ⟨quiet_append.mpr ⟨hx.1,?_⟩,?_⟩
  · rw [hx.2]
    exact hy.1
  · rw [toggled_append,hx.2,hy.2]

theorem closed_cons {stop c : Char} (hc : c ≠ '\'') (hstop : c ≠ stop) (h : Closed stop xs) :
    Closed stop (c :: xs) := by
  refine @closed_append [c] _ _ (quiet_plain ?_ ?_) h
  · exact fun hmem => hc (List.mem_singleton.mp hmem).symm
  · exact fun hmem => hstop (List.mem_singleton.mp hmem).symm

theorem literal_closed {stop : Char} (h : Fits f t) (hstop : stop ∈ "'\"(),=%/? ".toList) :
    Closed stop (keyLiteral f t) := by
  rcases literal_cases h with ⟨hplain,heq⟩ | heq
  · rw [heq]
    exact closed_plain hplain hstop
  · rw [heq]
    exact quiet_wrap _

def Trimmed (text : Text) : Prop := text ≠ [] ∧ text.head? ≠ some ' ' ∧ text.getLast? ≠ some ' '

theorem trimmed_blankless (hne : xs ≠ []) (h : ' ' ∉ xs) : Trimmed xs :=
  ⟨hne,fun hhead => h (List.mem_of_mem_head? hhead),fun hlast => h (List.mem_of_mem_getLast? hlast)⟩

theorem trimmed_plain (h : Plain xs) : Trimmed xs :=
  trimmed_blankless h.1 fun hc => h.2 _ hc (by decide)

theorem trimmed_enclosed : Trimmed ('\'' :: (xs ++ ['\''])) := by
  refine ⟨List.cons_ne_nil _ _,nofun,?_⟩
  rw [← List.cons_append,List.getLast?_concat]
  exact nofun

theorem literal_trimmed (h : Fits f t) : Trimmed (keyLiteral f t) := by
  rcases literal_cases h with ⟨hplain,heq⟩ | heq
  · rw [heq]
    exact trimmed_plain hplain
  · rw [heq,wrap]
    exact trimmed_enclosed

theorem trimmed_assigned (hx : Trimmed xs) (hy : Trimmed ys) : Trimmed (xs ++ '=' :: ys) := by
  refine ⟨fun h => hx.1 (List.append_eq_nil_iff.mp h).1,?_,?_⟩
  · rw [List.head?_append_of_ne_nil _ hx.1]
    exact hx.2.1
  · rw [List.getLast?_append_of_ne_nil _ (List.cons_ne_nil _ _),List.getLast?_cons]
    rw [List.getLast?_eq_some_getLast hy.1,Option.getD_some]
    have hlast := hy.2.2
    rwa [List.getLast?_eq_some_getLast hy.1] at hlast

theorem trimmed_self (h : Trimmed xs) :
    xs.dropWhile (· = ' ') = xs ∧ xs.rdropWhile (· = ' ') = xs := by
  obtain ⟨hne,hhead,hlast⟩ := h
  have hdrop : xs.dropWhile (· = ' ') = xs := by
    cases xs with
    | nil => rfl
    | cons c cs => exact List.dropWhile_cons_of_neg (by simpa using fun hc : c = ' ' => hhead (by rw [hc]; rfl))
  refine ⟨hdrop,List.rdropWhile_eq_self_iff.mpr fun hnil hblank => ?_⟩
  rw [List.getLast?_eq_some_getLast hnil] at hlast
  exact hlast (congrArg some (of_decide_eq_true hblank))

theorem trim_self (h : Trimmed xs) : trim xs = xs := by
  obtain ⟨hfront,hback⟩ := trimmed_self h
  rw [trim,hfront,hback,Nat.sub_self]
  rfl

theorem squeeze_self (h : ' ' ∉ xs) : squeeze xs = xs := by
  induction xs with
  | nil => rfl
  | cons c cs ih =>
    have hc := List.ne_of_not_mem_cons h
    rw [squeeze,ih (List.not_mem_of_not_mem_cons h)]
    exact fun cs hcs => absurd hcs.symm hc

theorem condense_blankless (hne : xs ≠ []) (h : ' ' ∉ xs) : condense xs = xs := by
  obtain ⟨hfront,hback⟩ := trimmed_self (trimmed_blankless hne h)
  rw [condense,hfront,hback,squeeze_self h]

theorem condense_plain (h : Plain xs) : condense xs = xs :=
  condense_blankless h.1 fun hc => h.2 _ hc (by decide)

def joined (x : Text) (xs : List Text) : Text := x ++ xs.flatMap (',' :: ·)

theorem joined_cons (x y : Text) (zs : List Text) : joined x (y :: zs) = x ++ ',' :: joined y zs := rfl

theorem joined_closed {x : Text} {zs : List Text} (h : ∀ z ∈ x :: zs,Closed ')' z) :
    Closed ')' (joined x zs) := by
  induction zs generalizing x with
  | nil =>
    rw [joined,List.flatMap_nil,List.append_nil]
    exact h x (List.mem_cons_self ..)
  | cons y zs ih =>
    rw [joined_cons]
    refine closed_append (h x (List.mem_cons_self ..)) (closed_cons (by decide) (by decide) ?_)
    exact ih fun z hz => h z (List.mem_cons_of_mem _ hz)

theorem splitKeys_joined {x : Text} {zs : List Text} (h : ∀ z ∈ x :: zs,Closed ',' z) :
    splitKeys false (joined x zs) = some (x :: zs) := by
  have hboth : toggled '\'' false (joined x zs) = false ∧
      parts '\'' ',' false (joined x zs) = x :: zs := by
    induction zs generalizing x with
    | nil =>
      obtain ⟨hquiet,hclosed⟩ := h x (List.mem_cons_self ..)
      rw [joined,List.flatMap_nil,List.append_nil]
      exact ⟨hclosed,parts_last hquiet⟩
    | cons y zs ih =>
      obtain ⟨hquiet,hclosed⟩ := h x (List.mem_cons_self ..)
      obtain ⟨htoggled,hparts⟩ := ih fun z hz => h z (List.mem_cons_of_mem _ hz)
      rw [joined_cons,parts_stop (by decide) hquiet hclosed,hparts,toggled_append,hclosed]
      exact ⟨htoggled,rfl⟩
  rw [splitKeys_eq,hboth.1,hboth.2]
  rfl

end predicates

section writing

def fieldOf (row : Text → Option Field) (p : Property) : Field := (row p.fieldname).getD (.character [])

def literalOf (row : Text → Option Field) (p : Property) : Text := keyLiteral (fieldOf row p) p.edmType

def textOf (row : Text → Option Field) (p : Property) : Text := keyText (fieldOf row p) p.edmType

def rowKeys (row : Text → Option Field) (set : EntitySet) : List (Text × Text) :=
  set.keys.map fun p => (p.name,textOf row p)

def IsRow (row : Text → Option Field) (set : EntitySet) : Prop :=
  ∀ p ∈ set.keys,(row p.fieldname).isSome = true ∧ Fits (fieldOf row p) p.edmType

structure WellNamed (set : EntitySet) : Prop where
  name : Plain set.name
  keys : set.keys ≠ []
  names : ∀ p ∈ set.keys,Plain p.name
  nodup : (set.keys.map (·.name)).Nodup

def partOf (row : Text → Option Field) (single : Bool) (p : Property) : Text :=
  if single then literalOf row p else p.name ++ '=' :: literalOf row p

theorem row_field (h : (row p.fieldname).isSome = true) : row p.fieldname = some (fieldOf row p) := by
  obtain ⟨f,hf⟩ := Option.isSome_iff_exists.mp h
  rw [fieldOf,hf]
  rfl

theorem addLiteral_some (h : (row p.fieldname).isSome = true) (keys : Nat) (text : Text) :
    addLiteral row keys text p = if keys = 1 then literalOf row p
      else if text = [] then p.name ++ '=' :: literalOf row p
      else text ++ ',' :: (p.name ++ '=' :: literalOf row p) := by
  rw [addLiteral,row_field h]
  rfl

theorem foldl_addLiteral {keys : Nat} {text : Text} (hkeys : keys ≠ 1) (htext : text ≠ [])
    (hrow : ∀ p ∈ ps,(row p.fieldname).isSome = true) :
    ps.foldl (addLiteral row keys) text = joined text (ps.map (partOf row false)) := by
  induction ps generalizing text with
  | nil => exact (List.append_nil text).symm
  | cons p ps ih =>
    rw [List.foldl_cons,addLiteral_some (hrow p (List.mem_cons_self ..)),if_neg hkeys,if_neg htext,
      ih ?_ fun q hq => hrow q (List.mem_cons_of_mem _ hq)]
    · rw [List.map_cons,joined_cons,joined,joined,List.append_assoc]
      rfl
    · exact fun hnil => htext (List.append_eq_nil_iff.mp hnil).1

theorem keyPredicate_joined (hkeys : set.keys = p :: ps) (hrow : IsRow row set) :
    keyPredicate row set = joined (partOf row (set.keys.length = 1) p)
      (ps.map (partOf row (set.keys.length = 1))) := by
  have hp := (hrow p (by rw [hkeys]; exact List.mem_cons_self ..)).1
  have hps : ∀ q ∈ ps,(row q.fieldname).isSome = true := fun q hq =>
    (hrow q (by rw [hkeys]; exact List.mem_cons_of_mem _ hq)).1
  rw [keyPredicate,hkeys,List.foldl_cons,addLiteral_some hp]
  cases ps with
  | nil => exact (List.append_nil _).symm
  | cons q qs =>
    have hmany : (p :: q :: qs).length ≠ 1 := by simp
    rw [if_neg hmany,if_pos rfl,foldl_addLiteral hmany (by simp) hps,decide_eq_false hmany]
    rfl

theorem part_closed {stop : Char} {single : Bool} (hstop : stop ∈ "'\"(),=%/? ".toList) (hne : stop ≠ '=')
    (hname : Plain p.name) (h : Fits (fieldOf row p) p.edmType) : Closed stop (partOf row single p) := by
  have hliteral : Closed stop (literalOf row p) := literal_closed h hstop
  cases single with
  | true => exact hliteral
  | false => exact closed_append (closed_plain hname hstop) (closed_cons (by decide) (Ne.symm hne) hliteral)

theorem part_trimmed {single : Bool} (hname : Plain p.name) (h : Fits (fieldOf row p) p.edmType) :
    Trimmed (partOf row single p) := by
  cases single with
  | true => exact literal_trimmed h
  | false => exact trimmed_assigned (trimmed_plain hname) (literal_trimmed h)

end writing

section reading

theorem findService_root {service : Text} (hservice : Plain service) (rest : Text) :
    findService (root ++ (service ++ '/' :: rest)) = some (service,'/' :: rest) := by
  have hchars : ∀ c ∈ service,decide (c ≠ '/' ∧ c ≠ '?') = true := by
    intro c hc
    have hno := hservice.2 c hc
    refine decide_eq_true ⟨?_,?_⟩
    · rintro rfl
      exact hno (by decide)
    · rintro rfl
      exact hno (by decide)
  have hat : serviceAt (root ++ (service ++ '/' :: rest)) = some (service,'/' :: rest) := by
    rw [serviceAt,if_pos (List.isPrefixOf_iff_prefix.mpr (List.prefix_append _ _)),List.drop_left]
    dsimp only
    rw [List.takeWhile_append_of_pos hchars,List.dropWhile_append_of_pos hchars,
      List.takeWhile_cons_of_neg (by decide),List.dropWhile_cons_of_neg (by decide),List.append_nil,
      if_neg hservice.1]
  have hcons : root ++ (service ++ '/' :: rest) =
      '/' :: ("sap/opu/odata/sap/".toList ++ (service ++ '/' :: rest)) := rfl
  rw [hcons] at hat ⊢
  rw [findService,hat]

theorem segment_scan {name : Text} (hname : ∀ c ∈ name,nameChar c = true) (text : Text) :
    segment (name ++ '(' :: text) = keyed name (scanKeys false text) := by
  rw [segment,List.takeWhile_append_of_pos hname,List.dropWhile_append_of_pos hname,
    List.takeWhile_cons_of_neg (by decide),List.dropWhile_cons_of_neg (by decide),List.append_nil]
  rfl

theorem segment_closed {name keys : Text} (hname : ∀ c ∈ name,nameChar c = true)
    (hkeys : Closed ')' keys) (rest : Text) :
    segment (name ++ '(' :: (keys ++ ')' :: rest)) = keyed name (some (keys,')' :: rest)) := by
  rw [segment_scan hname,scanKeys_eq]
  exact congrArg (keyed name) (cut_stop (by decide) hkeys.1 hkeys.2 rest)

theorem segment_keys {name keys : Text} (hname : Plain name) (hkeys : Closed ')' keys) (hne : keys ≠ [])
    (rest : Text) : segment (name ++ '(' :: (keys ++ ')' :: rest)) = (name,keys,rest) := by
  have hchars : ∀ c ∈ name,nameChar c = true := by
    intro c hc
    have hno := hname.2 c hc
    rw [nameChar,Bool.and_eq_true,Bool.and_eq_true]
    refine ⟨⟨decide_eq_true ?_,decide_eq_true ?_⟩,decide_eq_true ?_⟩ <;> rintro rfl <;>
      exact hno (by decide)
  rw [segment_closed hchars hkeys]
  exact if_neg hne

theorem isFixed_paren {name text : Text} (htext : '(' ∈ text) (hname : '(' ∉ name ++ ['/']) :
    isFixed name text = false := by
  rw [isFixed,Bool.or_eq_false_iff,beq_eq_false_iff_ne,beq_eq_false_iff_ne]
  refine ⟨?_,?_⟩
  · rintro rfl
    exact hname (List.mem_append_left _ htext)
  · rintro rfl
    exact hname htext

theorem navigation_nil (r : Request) : navigation r [] = (r,[]) := rfl

def entityPath (service name predicate : Text) : Text :=
  root ++ (service ++ '/' :: (name ++ '(' :: (predicate ++ [')'])))

theorem parse_entity {service name keys : Text} (hdecodes : Decodes unescape) (hservice : Plain service)
    (hname : Plain name) (hkeys : Closed ')' keys) (hne : keys ≠ []) (options : List (Text × Text)) :
    parse unescape (entityPath service name keys) options =
      .ok {service,entitySet := name,keyString := keys,options} := by
  have hplain : ∀ {text : Text},Plain text → unescape text = some text := fun htext =>
    hdecodes.plain _ fun hc => htext.2 _ hc (by decide)
  have hservice' : unescaped unescape service = .ok service := by rw [unescaped,hplain hservice]
  have hname' : unescaped unescape name = .ok name := by rw [unescaped,hplain hname]
  have hempty : unescaped unescape [] = .ok [] := by
    rw [unescaped,hdecodes.plain _ List.not_mem_nil]
  have hparen : '(' ∈ '/' :: (name ++ '(' :: (keys ++ [')'])) :=
    List.mem_cons_of_mem _ (List.mem_append_right _ (List.mem_cons_self ..))
  have hresource : ∀ r : Request,r.navProp = [] → resource unescape r
      ('/' :: (name ++ '(' :: (keys ++ [')']))) =
      .ok {r with entitySet := name,keyString := keys,navProp := []} := by
    intro r hnav
    rw [resource,List.drop_succ_cons,List.drop_zero,segment_keys hname hkeys hne []]
    simp only [navigation_nil,hnav]
    rw [if_neg fun h => h.elim hname.1 fun h => h rfl,hname',hempty]
    rfl
  rw [parse,entityPath,findService_root hservice]
  simp only [hservice',isFixed_paren hparen (by decide : '(' ∉ [] ++ ['/']),
    isFixed_paren hparen (by decide : '(' ∉ "/$metadata".toList ++ ['/']),
    isFixed_paren hparen (by decide : '(' ∉ "/$batch".toList ++ ['/'])]
  exact hresource _ rfl

def readKey (unescape : Unescape) (row : Text → Option Field) (p : Property) : Option (Text × Text) :=
  (unescape (literalOf row p)).map fun text => (p.name,unquote text)

theorem keyOf_part {keyString : Text} {names : List Text} {single : Bool} (hname : Plain p.name)
    (h : Fits (fieldOf row p) p.edmType) (hsingle : single = true → names = [p.name]) :
    keyOf keyString names (partOf row single p) = .ok (p.name,literalOf row p) := by
  have hliteral : Closed '=' (literalOf row p) := literal_closed h (by decide)
  cases single with
  | true =>
    have hsplit : splitName false (partOf row true p) = none := by
      rw [splitName_eq]
      exact congrArg _ (cut_none hliteral.1)
    rw [hsingle rfl,keyOf,trim_self (part_trimmed hname h),hsplit]
    rfl
  | false =>
    have hclosed : Closed '=' p.name := closed_plain hname (by decide)
    have hsplit : splitName false (partOf row false p) = some (p.name,literalOf row p) := by
      rw [splitName_eq]
      exact congrArg _ (cut_stop (by decide) hclosed.1 hclosed.2 _)
    unfold keyOf
    rw [trim_self (part_trimmed hname h)]
    simp only [hsplit]
    have hvalue : trim (literalOf row p) = literalOf row p := trim_self (literal_trimmed h)
    rw [condense_plain hname,hvalue]

theorem addKey_part {keyString : Text} {names : List Text} {single : Bool} {tab : List (Text × Text)}
    (hdecodes : Decodes unescape) (hname : Plain p.name) (h : Fits (fieldOf row p) p.edmType)
    (hsingle : single = true → names = [p.name]) (hnew : p.name ∉ tab.map (·.1)) :
    addKey unescape keyString names tab (partOf row single p) =
      (readKey unescape row p).elim (.error .unescape) fun key => .ok (tab ++ [key]) := by
  have hplain : unescaped unescape p.name = .ok p.name := by
    rw [unescaped,hdecodes.plain _ fun hc => hname.2 _ hc (by decide)]
  have hboth : ¬(p.name = [] ∨ literalOf row p = []) :=
    fun hor => hor.elim hname.1 (literal_trimmed h).1
  rw [addKey,keyOf_part hname h hsingle,readKey]
  simp only [bind,Except.bind]
  rw [if_neg hboth,hplain,unescaped]
  cases unescape (literalOf row p) with
  | none => rfl
  | some text => exact if_neg hnew

theorem foldl_addKey {keyString : Text} {names : List Text} {single : Bool} {tab : List (Text × Text)}
    (hdecodes : Decodes unescape) (hnames : ∀ p ∈ ps,Plain p.name)
    (hfits : ∀ p ∈ ps,Fits (fieldOf row p) p.edmType)
    (hsingle : single = true → ∀ p ∈ ps,names = [p.name]) (hnodup : (ps.map (·.name)).Nodup)
    (hnew : ∀ p ∈ ps,p.name ∉ tab.map (·.1)) :
    (ps.map (partOf row single)).foldlM (addKey unescape keyString names) tab =
      (ps.mapM (readKey unescape row)).elim (.error .unescape) fun keys => .ok (tab ++ keys) := by
  induction ps generalizing tab with
  | nil => exact congrArg Except.ok (List.append_nil tab).symm
  | cons p ps ih =>
    have hp := List.mem_cons_self (a := p) (l := ps)
    rw [List.map_cons,List.foldlM_cons,addKey_part hdecodes (hnames p hp) (hfits p hp)
      (fun hs => hsingle hs p hp) (hnew p hp),List.mapM_cons]
    cases hread : readKey unescape row p with
    | none => rfl
    | some key =>
      obtain ⟨text,-,rfl⟩ := Option.map_eq_some_iff.mp hread
      have hlater : ∀ q ∈ ps,q.name ∉ (tab ++ [(p.name,unquote text)]).map (·.1) := by
        intro q hq hmem
        rw [List.map_append] at hmem
        rcases List.mem_append.mp hmem with hmem | hmem
        · exact hnew q (List.mem_cons_of_mem _ hq) hmem
        · have hne := (List.nodup_cons.mp hnodup).1
          rw [← List.mem_singleton.mp hmem] at hne
          exact hne (List.mem_map_of_mem hq)
      have hrest := ih (fun q hq => hnames q (List.mem_cons_of_mem _ hq))
        (fun q hq => hfits q (List.mem_cons_of_mem _ hq))
        (fun hs q hq => hsingle hs q (List.mem_cons_of_mem _ hq)) (List.nodup_cons.mp hnodup).2 hlater
      refine hrest.trans ?_
      cases ps.mapM (readKey unescape row) with
      | none => rfl
      | some keys => exact congrArg Except.ok (List.append_assoc ..)

theorem mapM_readKey {keys : List (Text × Text)} : ps.mapM (readKey unescape row) = some keys ↔
    List.Forall₂ (fun p key => readKey unescape row p = some key) ps keys := by
  induction ps generalizing keys with
  | nil =>
    rw [List.mapM_nil,List.forall₂_nil_left_iff]
    exact ⟨fun h => (Option.some.inj h).symm,fun h => congrArg some h.symm⟩
  | cons p ps ih =>
    rw [List.mapM_cons,List.forall₂_cons_left_iff]
    constructor
    · intro h
      obtain ⟨key,hkey,hrest⟩ := Option.bind_eq_some_iff.mp h
      obtain ⟨keys',hkeys,hall⟩ := Option.bind_eq_some_iff.mp hrest
      exact ⟨key,keys',hkey,ih.mp hkeys,(Option.some.inj hall).symm⟩
    · rintro ⟨key,keys',hkey,hkeys,rfl⟩
      rw [hkey,ih.mpr hkeys]
      rfl

theorem forall₂_names {keys : List (Text × Text)}
    (h : List.Forall₂ (fun p key => readKey unescape row p = some key) ps keys) :
    keys.map (·.1) = ps.map (·.name) := by
  induction h with
  | nil => rfl
  | cons hkey _ ih =>
    obtain ⟨text,-,rfl⟩ := Option.map_eq_some_iff.mp hkey
    rw [List.map_cons,List.map_cons,ih]

theorem readKey_iff (hdecodes : Decodes unescape) (h : Fits (fieldOf row p) p.edmType) :
    readKey unescape row p = some (p.name,textOf row p) ↔
      unescape (literalOf row p) = some (literalOf row p) := by
  have hunquote : unquote (literalOf row p) = textOf row p := by
    rcases literal_cases h with ⟨hplain,heq⟩ | heq
    · change unquote (keyLiteral (fieldOf row p) p.edmType) = _
      rw [heq,unquote,if_neg]
      · rfl
      · exact fun hquoted => hplain.2 '\'' (List.mem_of_mem_head? hquoted.2.1) (by decide)
    · change unquote (keyLiteral (fieldOf row p) p.edmType) = _
      rw [heq,unquote_wrap]
      rfl
  constructor
  · intro hread
    obtain ⟨text,htext,hkey⟩ := Option.map_eq_some_iff.mp hread
    have hvalue : unquote text = textOf row p := congrArg Prod.snd hkey
    rcases literal_cases h with ⟨hplain,heq⟩ | heq
    · have hliteral : literalOf row p = keyText (fieldOf row p) p.edmType := heq
      rw [hliteral]
      exact hdecodes.plain _ fun hc => hplain.2 _ hc (by decide)
    · have hliteral : literalOf row p = wrap '\'' (textOf row p) := heq
      rw [htext]
      rw [hliteral] at htext ⊢
      rw [unquote_unescaped (hdecodes.escapes _ _ htext) hvalue]
  · intro hself
    rw [readKey,hself,Option.map_some,hunquote]

end reading

section addresses

def Addressed (unescape : Unescape) (service : Text) (set : EntitySet) (row : Text → Option Field) : Prop :=
  ∃ request,parse unescape (entityPath service set.name (keyPredicate row set)) [] = .ok request ∧
    request.service = service ∧ request.entitySet = set.name ∧ request.navProp = [] ∧
    request.navKeyString = [] ∧ request.isServiceRoot = false ∧ request.isMetadata = false ∧
    request.isBatch = false ∧ request.isCount = false ∧ request.isValue = false ∧
    parseKeys unescape request.keyString (set.keys.map (·.name)) = .ok (rowKeys row set)

theorem predicate_parts (stop : Char) (hstop : stop ∈ "'\"(),=%/? ".toList) (hne : stop ≠ '=')
    (hset : WellNamed set) (hrow : IsRow row set) :
    ∃ x xs,set.keys.map (partOf row (set.keys.length = 1)) = x :: xs ∧ keyPredicate row set = joined x xs ∧
      ∀ z ∈ x :: xs,Closed stop z ∧ Trimmed z := by
  obtain ⟨p,ps,hkeys⟩ := List.exists_cons_of_ne_nil hset.keys
  have hall : ∀ z ∈ set.keys.map (partOf row (set.keys.length = 1)),Closed stop z ∧ Trimmed z := by
    intro z hz
    obtain ⟨p,hp,rfl⟩ := List.mem_map.mp hz
    exact ⟨part_closed hstop hne (hset.names p hp) (hrow p hp).2,
      part_trimmed (hset.names p hp) (hrow p hp).2⟩
  have hparts := congrArg (List.map (partOf row (set.keys.length = 1))) hkeys
  exact ⟨_,_,hparts,keyPredicate_joined hkeys hrow,fun z hz => hall z (by rw [hparts]; exact hz)⟩

theorem predicate_closed (hset : WellNamed set) (hrow : IsRow row set) :
    Closed ')' (keyPredicate row set) ∧ keyPredicate row set ≠ [] := by
  obtain ⟨x,xs,-,heq,hall⟩ := predicate_parts ')' (by decide) (by decide) hset hrow
  rw [heq]
  refine ⟨joined_closed fun z hz => (hall z hz).1,fun hnil => ?_⟩
  exact (hall x (List.mem_cons_self ..)).2.1 (List.append_eq_nil_iff.mp hnil).1

theorem parseKeys_predicate (hdecodes : Decodes unescape) (hset : WellNamed set) (hrow : IsRow row set) :
    parseKeys unescape (keyPredicate row set) (set.keys.map (·.name)) =
      (set.keys.mapM (readKey unescape row)).elim (.error .unescape) .ok := by
  obtain ⟨x,xs,hparts,heq,hall⟩ := predicate_parts ',' (by decide) (by decide) hset hrow
  have hlast : (x :: xs).getLast? ≠ some [] :=
    fun hnil => (hall [] (List.mem_of_mem_getLast? hnil)).2.1 rfl
  have hsingle : decide (set.keys.length = 1) = true → ∀ p ∈ set.keys,set.keys.map (·.name) = [p.name] := by
    intro hone p hp
    obtain ⟨q,hq⟩ := List.length_eq_one_iff.mp (of_decide_eq_true hone)
    rw [hq] at hp ⊢
    rw [List.mem_singleton.mp hp]
    rfl
  have hfold := @foldl_addKey _ row unescape (keyPredicate row set) _ _ [] hdecodes hset.names (fun p hp => (hrow p hp).2) hsingle hset.nodup
    fun _ _ => List.not_mem_nil
  rw [hparts] at hfold
  rw [parseKeys,if_neg (predicate_closed hset hrow).2]
  have hsplit : splitKeys false (keyPredicate row set) = some (x :: xs) := by
    rw [heq]
    exact splitKeys_joined fun z hz => (hall z hz).1
  simp only [hsplit]
  rw [if_neg hlast,hfold]
  cases hread : set.keys.mapM (readKey unescape row) with
  | none => rfl
  | some keys =>
    have hnames := forall₂_names ((mapM_readKey).mp hread)
    have hlength : keys.length = set.keys.length := by
      have := congrArg List.length hnames
      rwa [List.length_map,List.length_map] at this
    change checked _ ([] ++ keys) = .ok keys
    rw [List.nil_append,checked,if_neg,if_neg]
    · rintro ⟨name,hname,hno⟩
      rw [hnames] at hno
      exact hno hname
    · rw [List.length_map,hlength]
      exact fun hne => hne rfl

theorem addressed_keys (hdecodes : Decodes unescape) {service : Text} (hservice : Plain service)
    (hset : WellNamed set) (hrow : IsRow row set) : Addressed unescape service set row ↔
      set.keys.mapM (readKey unescape row) = some (rowKeys row set) := by
  obtain ⟨hclosed,hne⟩ := predicate_closed hset hrow
  have hparse := parse_entity hdecodes hservice hset.name hclosed hne []
  have hkeys := parseKeys_predicate hdecodes hset hrow
  constructor
  · rintro ⟨request,hrequest,-,-,-,-,-,-,-,-,-,hread⟩
    obtain rfl := Except.ok.inj (hparse.symm.trans hrequest)
    rw [hkeys] at hread
    cases hmap : set.keys.mapM (readKey unescape row) with
    | none =>
      rw [hmap] at hread
      cases hread
    | some keys =>
      rw [hmap] at hread
      exact congrArg some (Except.ok.inj hread)
  · intro hread
    refine ⟨_,hparse,rfl,rfl,rfl,rfl,rfl,rfl,rfl,rfl,rfl,?_⟩
    exact hkeys.trans (by rw [hread]; rfl)

theorem unescaped_self (xs : Text) : Unescaped xs xs := by
  induction xs with
  | nil => exact .nil
  | cons c xs ih => exact .copy c ih

theorem decodes_some : Decodes some := by
  refine ⟨fun _ _ => rfl,fun text decoded h => ?_⟩
  obtain rfl := Option.some.inj h
  exact unescaped_self text

theorem readKeys_iff (hdecodes : Decodes unescape) (hrow : IsRow row set) :
    set.keys.mapM (readKey unescape row) = some (rowKeys row set) ↔
      ∀ p ∈ set.keys,unescape (literalOf row p) = some (literalOf row p) := by
  rw [mapM_readKey,rowKeys,List.forall₂_map_right_iff,List.forall₂_same]
  exact forall₂_congr fun p hp => readKey_iff hdecodes (hrow p hp).2

theorem rowKeys_of_predicate (hset : WellNamed set) {row' : Text → Option Field} (hrow : IsRow row set)
    (hrow' : IsRow row' set) (h : keyPredicate row set = keyPredicate row' set) :
    rowKeys row set = rowKeys row' set := by
  have hread := parseKeys_predicate decodes_some hset hrow
  have hread' := parseKeys_predicate decodes_some hset hrow'
  rw [(readKeys_iff decodes_some hrow).mpr fun _ _ => rfl] at hread
  rw [(readKeys_iff decodes_some hrow').mpr fun _ _ => rfl] at hread'
  rw [h] at hread
  exact Except.ok.inj (hread.symm.trans hread')

theorem addressed_iff (hdecodes : Decodes unescape) {service : Text} (hservice : Plain service)
    (hset : WellNamed set) (hrow : IsRow row set) :
    (Addressed unescape service set row ↔
      ∀ p ∈ set.keys,unescape (literalOf row p) = some (literalOf row p)) ∧
    ∀ row',IsRow row' set → entityPath service set.name (keyPredicate row set) =
      entityPath service set.name (keyPredicate row' set) → rowKeys row set = rowKeys row' set := by
  refine ⟨(addressed_keys hdecodes hservice hset hrow).trans (readKeys_iff hdecodes hrow),
    fun row' hrow' hpath => rowKeys_of_predicate hset hrow hrow' ?_⟩
  have hservice' := List.append_cancel_left (List.append_cancel_left hpath)
  have hname := List.append_cancel_left (List.cons.inj hservice').2
  exact List.append_cancel_right (List.cons.inj hname).2

def hexDigit (c : Char) : Option Nat :=
  if c ∈ "0123456789".toList then some (c.toNat - 48)
  else if c ∈ "ABCDEF".toList then some (c.toNat - 55)
  else if c ∈ "abcdef".toList then some (c.toNat - 87)
  else none

def escapedByte (a b : Char) : Option Char :=
  (hexDigit a).bind fun x => (hexDigit b).bind fun y =>
    if x < 8 then some (Char.ofNat (16 * x + y)) else none

@[grind =] def unescapeAscii : Unescape
  | [] => some []
  | '%' :: a :: b :: cs => (escapedByte a b).bind fun c => (unescapeAscii cs).map (c :: ·)
  | '%' :: _ => none
  | c :: cs => (unescapeAscii cs).map (c :: ·)

theorem escapedByte_quote {a b c : Char} (h : escapedByte a b = some c) : '\'' ∉ ['%',a,b] := by
  have hquote : hexDigit '\'' = none := by decide
  obtain ⟨x,hx,h⟩ := Option.bind_eq_some_iff.mp h
  obtain ⟨y,hy,-⟩ := Option.bind_eq_some_iff.mp h
  intro hmem
  rcases List.mem_cons.mp hmem with hmem | hmem
  · cases hmem
  · rcases List.mem_cons.mp hmem with rfl | hmem
    · rw [hquote] at hx
      cases hx
    · rw [← List.mem_singleton.mp hmem,hquote] at hy
      cases hy

theorem decodes_ascii : Decodes unescapeAscii := by
  refine ⟨fun text => ?_,fun text => ?_⟩
  · induction text using unescapeAscii.induct with
    | case1 => exact fun _ => rfl
    | case2 | case3 => exact fun h => absurd (List.mem_cons_self ..) h
    | case4 c cs hfirst hsecond ih =>
      intro h
      rw [unescapeAscii,ih (List.not_mem_of_not_mem_cons h)]
      · rfl
      · assumption
      · assumption
  · induction text using unescapeAscii.induct with
    | case1 =>
      rintro _ ⟨⟩
      exact .nil
    | case2 a b cs ih =>
      intro decoded h
      rw [unescapeAscii] at h
      obtain ⟨c,hc,h⟩ := Option.bind_eq_some_iff.mp h
      obtain ⟨rest,hrest,rfl⟩ := Option.map_eq_some_iff.mp h
      exact .escapes ['%',a,b] [c] rfl (escapedByte_quote hc) (by simp) (ih rest hrest)
    | case3 cs hno =>
      intro decoded h
      rw [unescapeAscii] at h
      · cases h
      · assumption
    | case4 c cs hfirst hsecond ih =>
      intro decoded h
      rw [unescapeAscii] at h
      · obtain ⟨rest,hrest,rfl⟩ := Option.map_eq_some_iff.mp h
        exact .copy c (ih rest hrest)
      · assumption
      · assumption

def percentSet : EntitySet where
  name := "Set".toList
  entityType := "Type".toList
  properties := [{name := "Id".toList,fieldname := "ID".toList,edmType := .string,isKey := true}]

theorem percentSet_named : WellNamed percentSet where
  name := ⟨by decide,by simp [percentSet]⟩
  keys := by rintro ⟨⟩
  names := by
    intro p hp
    obtain rfl := List.mem_singleton.mp hp
    exact ⟨by decide,by simp⟩
  nodup := by decide

theorem character_row (text : Text) : IsRow (fun _ => some (.character text)) percentSet := by
  intro p hp
  obtain rfl := List.mem_singleton.mp hp
  exact ⟨rfl,trivial⟩

theorem percent_lost : Decodes unescapeAscii ∧ WellNamed percentSet ∧
    IsRow (fun _ => some (.character "%41".toList)) percentSet ∧
    parseKeys unescapeAscii (keyPredicate (fun _ => some (.character "%41".toList)) percentSet)
      ["Id".toList] = .ok [("Id".toList,"A".toList)] ∧
    ¬Addressed unescapeAscii "S".toList percentSet fun _ => some (.character "%41".toList) := by
  refine ⟨decodes_ascii,percentSet_named,character_row _,rfl,?_⟩
  rintro ⟨request,hparse,-,-,-,-,-,-,-,-,-,hkeys⟩
  obtain rfl := Except.ok.inj hparse
  cases hkeys

theorem plain_addressed : Addressed unescapeAscii "S".toList percentSet fun _ =>
    some (.character "a'b(c),d=/e".toList) := by
  refine (addressed_iff decodes_ascii ⟨by decide,by simp⟩ percentSet_named (character_row _)).1.mpr ?_
  intro p hp
  obtain rfl := List.mem_singleton.mp hp
  decide

end addresses

end OpenSteamgate.Gateway.Url
