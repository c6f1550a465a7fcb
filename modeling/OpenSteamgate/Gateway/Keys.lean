import Mathlib.Data.List.Perm.Subperm
import OpenSteamgate.Gateway.Addresses

namespace OpenSteamgate.Gateway.Url

open Quoted

variable {xs ys rest : Text} {quote : Bool} {stop : Char} {unescape : Unescape}
  {name value text part : Text} {names parts : List Text} {pairs : List (Text × Text)}

section Writing

def ByteEscape (b : UInt8) (text : Text) : Prop :=
  ∃ x y,text = ['%',x,y] ∧ hexDigit x = some (b.toNat / 16) ∧ hexDigit y = some (b.toNat % 16)

def CharEscape (c : Char) (text : Text) : Prop :=
  ∃ escapes,List.Forall₂ ByteEscape (String.utf8EncodeChar c) escapes ∧ text = escapes.flatten

inductive Encoded : Text → Text → Prop
  | nil : Encoded [] []
  | raw {c : Char} {value text : Text} : c ≠ '\'' → c ≠ '%' → Encoded value text →
      Encoded (c :: value) (c :: text)
  | escaped {c : Char} {value escape text : Text} : c ≠ '\'' → CharEscape c escape →
      Encoded value text → Encoded (c :: value) (escape ++ text)
  | quotes {value text : Text} : Encoded value text →
      Encoded ('\'' :: value) ('\'' :: '\'' :: text)
  | quotesEscaped {value text : Text} : Encoded value text →
      Encoded ('\'' :: value) ("%27%27".toList ++ text)

def KeyName (name : Text) : Prop := name ≠ [] ∧ ∀ c ∈ name,c ∉ " ,='()/%".toList

def Written (pair : Text × Text) (part : Text) : Prop :=
  KeyName pair.1 ∧ ∃ text,Encoded pair.2 text ∧ part = pair.1 ++ '=' :: '\'' :: (text ++ ['\''])

def predicateOf : List Text → Text
  | [] => []
  | x :: xs => joined x xs

structure DecodesUri (unescape : Unescape) : Prop where
  nil : unescape [] = some []
  copy : ∀ c xs,c ≠ '%' → unescape (c :: xs) = (unescape xs).map (c :: ·)
  escape : ∀ c text xs,CharEscape c text →
    unescape (text ++ xs) = (unescape xs).map (c :: ·)

end Writing

section Scanning

theorem hexDigit_plain {c : Char} {n : Nat} (h : hexDigit c = some n) : c ≠ '\'' := by
  rintro rfl
  exact nomatch h

theorem charEscape_quote {c : Char} {escape : Text} (h : CharEscape c escape) : '\'' ∉ escape := by
  obtain ⟨escapes,hescapes,rfl⟩ := h
  rw [List.mem_flatten]
  rintro ⟨escape,hmem,hquote⟩
  generalize String.utf8EncodeChar c = bytes at hescapes
  induction hescapes with
  | nil => exact nomatch hmem
  | cons hbyte _ ih =>
    rcases List.mem_cons.mp hmem with rfl | hmem
    · obtain ⟨x,y,rfl,hx,hy⟩ := hbyte
      simp only [List.mem_cons,List.not_mem_nil,or_false] at hquote
      rcases hquote with hquote | rfl | rfl
      · exact nomatch hquote
      · exact hexDigit_plain hx rfl
      · exact hexDigit_plain hy rfl
    · exact ih hmem

theorem quiet_inside (h : '\'' ∉ xs) :
    Quiet '\'' stop true xs ∧ toggled '\'' true xs = true := by
  induction xs with
  | nil => exact ⟨trivial,rfl⟩
  | cons c cs ih =>
    have hc := Ne.symm (List.ne_of_not_mem_cons h)
    obtain ⟨hquiet,htoggled⟩ := ih (List.not_mem_of_not_mem_cons h)
    rw [Quiet,if_neg hc,toggled,List.foldl_cons,if_neg hc]
    exact ⟨⟨fun _ => rfl,hquiet⟩,htoggled⟩

theorem encoded_quiet (h : Encoded value text) :
    Quiet '\'' stop true text ∧ toggled '\'' true text = true := by
  have happend {escape text : Text} (hescape : '\'' ∉ escape)
      (h : Quiet '\'' stop true text ∧ toggled '\'' true text = true) :
      Quiet '\'' stop true (escape ++ text) ∧ toggled '\'' true (escape ++ text) = true := by
    obtain ⟨hquiet,htoggled⟩ := @quiet_inside _ stop hescape
    rw [quiet_append,toggled_append,htoggled]
    exact ⟨⟨hquiet,h.1⟩,h.2⟩
  induction h with
  | nil => exact ⟨trivial,rfl⟩
  | @raw c value text hc _ _ ih =>
    exact @happend [c] _ (fun hmem => hc (List.mem_singleton.mp hmem).symm) ih
  | escaped _ hescape _ ih => exact happend (charEscape_quote hescape) ih
  | quotes _ ih =>
    rw [Quiet,if_pos rfl,Quiet,if_pos rfl,toggled,List.foldl_cons,List.foldl_cons,if_pos rfl,if_pos rfl]
    exact ih
  | quotesEscaped _ ih => exact happend (by decide) ih

theorem enclosed_closed (h : Encoded value text) : Closed stop ('\'' :: (text ++ ['\''])) := by
  obtain ⟨hquiet,htoggled⟩ := @encoded_quiet stop _ _ h
  refine ⟨?_,?_⟩
  · rw [Quiet,if_pos rfl,quiet_append]
    refine ⟨hquiet,?_⟩
    rw [Bool.not_false,htoggled,Quiet,if_pos rfl]
    trivial
  · rw [toggled,List.foldl_cons,if_pos rfl]
    change toggled '\'' true (text ++ ['\'']) = false
    rw [toggled_append,htoggled]
    rfl

theorem keyName_closed (h : KeyName name) (hstop : stop ∈ " ,='()/%".toList) : Closed stop name :=
  quiet_plain (fun hc => h.2 _ hc (by decide)) fun hc => h.2 _ hc hstop

theorem written_closed {pair : Text × Text} (hstop : stop ∈ [',',')'])
    (h : Written pair part) : Closed stop part := by
  have hlist : stop ∈ " ,='()/%".toList ∧ '=' ≠ stop := by
    simp only [List.mem_cons,List.not_mem_nil,or_false] at hstop
    rcases hstop with rfl | rfl <;> simp
  obtain ⟨hname,text,htext,rfl⟩ := h
  exact closed_append (keyName_closed hname hlist.1)
    (closed_cons (by decide) hlist.2 (enclosed_closed htext))

end Scanning

section Reading

theorem keyName_trimmed (h : KeyName name) : Trimmed name :=
  trimmed_blankless h.1 fun hc => h.2 _ hc (by decide)

theorem condense_name (h : KeyName name) : condense name = name :=
  condense_blankless h.1 fun hc => h.2 _ hc (by decide)

theorem keyOf_written {keyString : Text} (hname : KeyName name) (text : Text) :
    keyOf keyString names (name ++ '=' :: '\'' :: (text ++ ['\''])) =
      .ok (name,'\'' :: (text ++ ['\''])) := by
  have hclosed : Closed '=' name := keyName_closed hname (by decide)
  have hsplit : splitName false (name ++ '=' :: '\'' :: (text ++ ['\''])) =
      some (name,'\'' :: (text ++ ['\''])) := by
    rw [splitName_eq]
    exact congrArg _ (cut_stop (by decide) hclosed.1 hclosed.2 _)
  unfold keyOf
  rw [trim_self (trimmed_assigned (keyName_trimmed hname) trimmed_enclosed)]
  simp only [hsplit]
  rw [condense_name hname,trim_self trimmed_enclosed]

theorem unescape_plain (h : DecodesUri unescape) (hxs : '%' ∉ xs) : unescape xs = some xs := by
  induction xs with
  | nil => exact h.nil
  | cons c cs ih =>
    have hc := Ne.symm (List.ne_of_not_mem_cons hxs)
    rw [h.copy c cs hc,ih (List.not_mem_of_not_mem_cons hxs)]
    rfl

theorem quote_escape : CharEscape '\'' "%27".toList := by
  refine ⟨[['%','2','7']],.cons ⟨'2','7',rfl,?_,?_⟩ .nil,rfl⟩
  · decide
  · decide

theorem unescape_encoded (h : DecodesUri unescape) (htext : Encoded value text) (rest : Text) :
    unescape (text ++ rest) = (unescape rest).map (double '\'' value ++ ·) := by
  have hmap (pre post : Text) :
      ((unescape rest).map (post ++ ·)).map (pre ++ ·) = (unescape rest).map (pre ++ post ++ ·) := by
    rw [Option.map_map]
    refine congrArg (fun f => (unescape rest).map f) (funext fun xs => ?_)
    exact (List.append_assoc pre post xs).symm
  induction htext with
  | nil =>
    rw [List.nil_append]
    cases unescape rest <;> rfl
  | @raw c value text hc hpercent _ ih =>
    rw [List.cons_append,h.copy c _ hpercent,ih,double_other hc]
    exact hmap [c] _
  | @escaped c value escape text hc hescape _ ih =>
    rw [List.append_assoc,h.escape c escape _ hescape,ih,double_other hc]
    exact hmap [c] _
  | @quotes value text _ ih =>
    rw [List.cons_append,List.cons_append,h.copy _ _ (by decide),h.copy _ _ (by decide),ih,
      double_quote,Option.map_map]
    exact hmap ['\'','\''] _
  | @quotesEscaped value text _ ih =>
    have htwo : "%27%27".toList ++ text ++ rest = "%27".toList ++ ("%27".toList ++ (text ++ rest)) :=
      rfl
    rw [htwo,h.escape _ _ _ quote_escape,h.escape _ _ _ quote_escape,ih,double_quote,Option.map_map]
    exact hmap ['\'','\''] _

theorem unescape_enclosed (h : DecodesUri unescape) (htext : Encoded value text) :
    unescape ('\'' :: (text ++ ['\''])) = some (wrap '\'' value) := by
  rw [h.copy _ _ (by decide),unescape_encoded h htext,h.copy _ _ (by decide),h.nil]
  rfl

theorem addKey_written (h : DecodesUri unescape) {keyString : Text} {tab : List (Text × Text)}
    {pair : Text × Text} (hpart : Written pair part) :
    addKey unescape keyString names tab part =
      if pair.1 ∈ tab.map (·.1) then .error (badKey "Duplicate key property".toList)
      else .ok (tab ++ [pair]) := by
  obtain ⟨hname,text,htext,rfl⟩ := hpart
  have hne : ¬(pair.1 = [] ∨ '\'' :: (text ++ ['\'']) = []) :=
    fun hor => hor.elim hname.1 (List.cons_ne_nil _ _)
  have hplain : unescaped unescape pair.1 = .ok pair.1 := by
    rw [unescaped,unescape_plain h fun hc => hname.2 _ hc (by decide)]
  have hvalue : unescaped unescape ('\'' :: (text ++ ['\''])) = .ok (wrap '\'' pair.2) := by
    rw [unescaped,unescape_enclosed h htext]
  rw [addKey,keyOf_written hname]
  simp only [bind,Except.bind]
  rw [if_neg hne,hplain,hvalue]
  simp only [unquote_wrap]

theorem foldl_written (h : DecodesUri unescape) {keyString : Text} {tab : List (Text × Text)}
    (hparts : List.Forall₂ Written pairs parts) (htab : (tab.map (·.1)).Nodup) :
    parts.foldlM (addKey unescape keyString names) tab =
      if ((tab ++ pairs).map (·.1)).Nodup then .ok (tab ++ pairs)
      else .error (badKey "Duplicate key property".toList) := by
  induction hparts generalizing tab with
  | nil =>
    rw [List.append_nil,if_pos htab]
    rfl
  | @cons pair part pairs parts hpart _ ih =>
    rw [List.foldlM_cons,addKey_written h hpart]
    by_cases hmem : pair.1 ∈ tab.map (·.1)
    · rw [if_pos hmem,if_neg]
      · rfl
      · rw [List.map_append,List.map_cons]
        intro hnodup
        exact (List.nodup_append.mp hnodup).2.2 _ hmem _ List.mem_cons_self rfl
    · rw [if_neg hmem]
      have htab' : ((tab ++ [pair]).map (·.1)).Nodup := by
        rw [List.map_append]
        refine List.nodup_append.mpr ⟨htab,List.nodup_cons.mpr ⟨List.not_mem_nil,List.nodup_nil⟩,?_⟩
        rintro name hname _ hpair rfl
        rw [List.mem_singleton.mp hpair] at hname
        exact hmem hname
      have hrest := ih htab'
      rw [List.append_assoc,List.singleton_append] at hrest
      exact hrest

end Reading

section Predicates

def Refused {α : Type} (x : Except Raise α) : Prop :=
  ∃ code message,x = .error (.stg 400 code message)

theorem written_ne_nil {pair : Text × Text} (h : Written pair part) : part ≠ [] := by
  obtain ⟨hname,text,_,rfl⟩ := h
  exact fun hnil => hname.1 (List.append_eq_nil_iff.mp hnil).1

theorem forall₂_right {P : Text → Prop} (h : List.Forall₂ Written pairs parts)
    (hP : ∀ pair part,Written pair part → P part) : ∀ part ∈ parts,P part := by
  induction h with
  | nil => exact fun _ hmem => absurd hmem List.not_mem_nil
  | cons hpart _ ih => exact List.forall_mem_cons.mpr ⟨hP _ _ hpart,ih⟩

theorem checked_perm {tab : List (Text × Text)} (h : (tab.map (·.1)).Perm names) :
    checked names tab = .ok tab := by
  have hlength := h.length_eq
  rw [List.length_map] at hlength
  rw [checked,if_neg (not_not.mpr hlength),if_neg]
  rintro ⟨name,hname,hno⟩
  exact hno (h.mem_iff.mpr hname)

theorem checked_other {tab : List (Text × Text)} (hnames : names.Nodup)
    (h : ¬(tab.map (·.1)).Perm names) : Refused (checked names tab) := by
  rw [checked]
  split
  · exact ⟨_,_,rfl⟩
  · rename_i hlength
    split
    · exact ⟨_,_,rfl⟩
    · rename_i hall
      have hsubset : names ⊆ tab.map (·.1) := by
        intro name hname
        by_contra hno
        exact hall ⟨name,hname,hno⟩
      have hsubperm := List.subperm_of_subset hnames hsubset
      refine (h (hsubperm.perm_of_length_le ?_).symm).elim
      rw [List.length_map]
      exact (not_not.mp hlength).le

theorem parseKeys_written (h : DecodesUri unescape) (hparts : List.Forall₂ Written pairs parts)
    (hne : pairs ≠ []) : parseKeys unescape (predicateOf parts) names =
      if (pairs.map (·.1)).Nodup then checked names pairs
      else .error (badKey "Duplicate key property".toList) := by
  have hclosed := forall₂_right hparts fun pair part => @written_closed ',' part pair (by decide)
  have hnonempty := forall₂_right hparts fun _ _ => written_ne_nil
  have hfold := @foldl_written _ names _ _ h (predicateOf parts) [] hparts List.nodup_nil
  cases hparts with
  | nil => exact (hne rfl).elim
  | @cons pair part pairs parts hpart hparts =>
    have hstring : predicateOf (part :: parts) ≠ [] := fun hnil =>
      written_ne_nil hpart (List.append_eq_nil_iff.mp hnil).1
    have hsplit : splitKeys false (predicateOf (part :: parts)) = some (part :: parts) :=
      splitKeys_joined hclosed
    have hlast : (part :: parts).getLast? ≠ some [] := fun hnil =>
      hnonempty [] (List.mem_of_mem_getLast? hnil) rfl
    rw [parseKeys,if_neg hstring]
    simp only [hsplit]
    rw [if_neg hlast,hfold,List.nil_append]
    split
    · rfl
    · rfl

theorem toggled_count (quote : Bool) (xs : Text) :
    toggled '\'' quote xs = (quote ^^ decide (xs.count '\'' % 2 = 1)) := by
  induction xs generalizing quote with
  | nil => simp [toggled]
  | cons c cs ih =>
    rw [toggled,List.foldl_cons]
    change toggled '\'' _ cs = _
    rw [ih]
    by_cases hc : c = '\''
    · rw [if_pos hc,hc,List.count_cons_self]
      rcases Nat.mod_two_eq_zero_or_one (cs.count '\'') with hmod | hmod
      · have hsucc : (cs.count '\'' + 1) % 2 = 1 := by omega
        simp [hmod,hsucc]
      · have hsucc : (cs.count '\'' + 1) % 2 = 0 := by omega
        simp [hmod,hsucc]
    · rw [if_neg hc,List.count_cons_of_ne hc]

def Unbalanced (text : Text) : Prop := text.count '\'' % 2 = 1

theorem toggled_unbalanced (h : Unbalanced text) : toggled '\'' false text = true := by
  have hodd : decide (text.count '\'' % 2 = 1) = true := decide_eq_true h
  rw [toggled_count,hodd]
  rfl

theorem parseKeys_unbalanced (h : Unbalanced text) : Refused (parseKeys unescape text names) := by
  have hne : text ≠ [] := by
    rintro rfl
    exact nomatch (show 0 % 2 = 1 from h)
  rw [parseKeys,if_neg hne,splitKeys_eq,toggled_unbalanced h]
  exact ⟨_,_,rfl⟩

theorem resource_unbalanced (h : Unbalanced text) (hquiet : Quiet '\'' ')' false text)
    (hrest : '\'' ∉ rest) (hname : ∀ c ∈ name,nameChar c = true) (r : Request) :
    Refused (resource unescape r ('/' :: (name ++ '(' :: (text ++ ')' :: rest)))) := by
  have hscan : scanKeys false (text ++ ')' :: rest) = none := by
    rw [scanKeys_eq]
    refine cut_none (quiet_append.mpr ⟨hquiet,?_⟩)
    rw [toggled_unbalanced h]
    exact (quiet_inside fun hmem => hrest (List.mem_of_ne_of_mem (by decide) hmem)).1
  have hsegment : segment (name ++ '(' :: (text ++ ')' :: rest)) = ([],[],[]) := by
    rw [segment_scan hname,hscan]
    rfl
  rw [resource,List.drop_succ_cons,List.drop_zero,hsegment]
  exact ⟨_,_,if_pos (.inl rfl)⟩

theorem predicate_closing (hparts : List.Forall₂ Written pairs parts) :
    Closed ')' (predicateOf parts) := by
  have hclosed := forall₂_right hparts fun pair part => @written_closed ')' part pair (by decide)
  cases parts with
  | nil => exact ⟨trivial,rfl⟩
  | cons x xs => exact joined_closed hclosed

theorem predicate_nil (hparts : List.Forall₂ Written pairs parts) :
    predicateOf parts = [] ↔ pairs = [] := by
  cases hparts with
  | nil => exact ⟨fun _ => rfl,fun _ => rfl⟩
  | cons hpart _ =>
    constructor
    · exact fun hnil => absurd (List.append_eq_nil_iff.mp hnil).1 (written_ne_nil hpart)
    · exact nofun

theorem resource_empty (hname : ∀ c ∈ name,nameChar c = true) (r : Request) (rest : Text) :
    Refused (resource unescape r ('/' :: (name ++ '(' :: ')' :: rest))) := by
  have hsegment := @segment_closed name [] hname ⟨trivial,rfl⟩ rest
  rw [List.nil_append] at hsegment
  rw [resource,List.drop_succ_cons,List.drop_zero,hsegment]
  exact ⟨_,_,if_pos (.inl rfl)⟩

theorem predicate_round_trip (unescape : Unescape) (h : DecodesUri unescape) (names : List Text)
    (hnames : names.Nodup) (pairs : List (Text × Text)) (parts : List Text)
    (hparts : List.Forall₂ Written pairs parts) :
    (∀ set rest,(∀ c ∈ set,nameChar c = true) →
      (segment (set ++ '(' :: (predicateOf parts ++ ')' :: rest))).2.1 = predicateOf parts ∧
      (pairs ≠ [] → segment (set ++ '(' :: (predicateOf parts ++ ')' :: rest)) =
        (set,predicateOf parts,rest))) ∧
    ((pairs.map (·.1)).Perm names → parseKeys unescape (predicateOf parts) names = .ok pairs) ∧
    (¬(pairs.map (·.1)).Perm names →
      if pairs = [] then ∀ set rest r,(∀ c ∈ set,nameChar c = true) → Refused (resource unescape r
        ('/' :: (set ++ '(' :: (predicateOf parts ++ ')' :: rest))))
      else Refused (parseKeys unescape (predicateOf parts) names)) ∧
    ∀ text,Unbalanced text → Refused (parseKeys unescape text names) ∧
      ∀ set rest r,(∀ c ∈ set,nameChar c = true) → Quiet '\'' ')' false text → '\'' ∉ rest →
        Refused (resource unescape r ('/' :: (set ++ '(' :: (text ++ ')' :: rest)))) := by
  refine ⟨fun set rest hset => ?_,fun hperm => ?_,fun hother => ?_,fun text htext =>
    ⟨parseKeys_unbalanced htext,fun set rest r hset hquiet hrest =>
      resource_unbalanced htext hquiet hrest hset r⟩⟩
  · rw [segment_closed hset (predicate_closing hparts),keyed]
    refine ⟨?_,fun hne => if_neg (mt (predicate_nil hparts).mp hne)⟩
    split
    · rename_i hnil
      exact hnil.symm
    · rfl
  · by_cases hne : pairs = []
    · rw [(predicate_nil hparts).mpr hne,hne]
      rfl
    · rw [parseKeys_written h hparts hne,if_pos (hperm.nodup_iff.mpr hnames),checked_perm hperm]
  · split
    · rename_i hnil
      intro set rest r hset
      rw [(predicate_nil hparts).mpr hnil]
      exact resource_empty hset r rest
    · rename_i hne
      rw [parseKeys_written h hparts hne]
      split
      · exact checked_other hnames hother
      · exact ⟨_,_,rfl⟩

end Predicates

section Samples

def escapedBytes : Text → List UInt8
  | '%' :: x :: y :: cs =>
    match hexDigit x,hexDigit y with
    | some a,some b => UInt8.ofNat (16 * a + b) :: escapedBytes cs
    | _,_ => []
  | _ => []

@[grind =] def unescapeUtf8 : Nat → Unescape
  | _,[] => some []
  | 0,_ => none
  | n + 1,c :: cs =>
    if c ≠ '%' then (unescapeUtf8 n cs).map (c :: ·)
    else match (escapedBytes (c :: cs)).toByteArray.utf8DecodeChar? 0 with
      | some d => (unescapeUtf8 n ((c :: cs).drop (3 * d.utf8Size))).map (d :: ·)
      | none => none

def unescapeUri (text : Text) : Option Text := unescapeUtf8 text.length text

theorem escapedBytes_cons {x y : Char} {a b : Nat} (hx : hexDigit x = some a)
    (hy : hexDigit y = some b) (cs : Text) :
    escapedBytes ('%' :: x :: y :: cs) = UInt8.ofNat (16 * a + b) :: escapedBytes cs := by
  rw [escapedBytes]
  simp only [hx,hy]

theorem escapedBytes_append {bytes : List UInt8} {escapes : List Text}
    (h : List.Forall₂ ByteEscape bytes escapes) (xs : Text) :
    escapedBytes (escapes.flatten ++ xs) = bytes ++ escapedBytes xs ∧
      escapes.flatten.length = 3 * bytes.length := by
  induction h with
  | nil => exact ⟨rfl,rfl⟩
  | @cons b escape bytes escapes hbyte _ ih =>
    obtain ⟨x,y,rfl,hx,hy⟩ := hbyte
    have hb : UInt8.ofNat (16 * (b.toNat / 16) + b.toNat % 16) = b := by
      rw [Nat.div_add_mod]
      exact UInt8.ofNat_toNat
    constructor
    · rw [List.flatten_cons,List.append_assoc]
      have hfirst := escapedBytes_cons hx hy (escapes.flatten ++ xs)
      rw [hb,ih.1] at hfirst
      exact hfirst
    · rw [List.flatten_cons,List.length_append,ih.2,List.length_cons,List.length_cons]
      simp
      omega

theorem unescapeUtf8_enough (n m : Nat) (xs : Text) (hn : xs.length ≤ n) (hm : xs.length ≤ m) :
    unescapeUtf8 n xs = unescapeUtf8 m xs := by
  induction n generalizing m xs with
  | zero =>
    obtain rfl := List.length_eq_zero_iff.mp (Nat.le_zero.mp hn)
    cases m <;> rfl
  | succ n ih =>
    cases xs with
    | nil => cases m <;> rfl
    | cons c cs =>
      obtain ⟨m,rfl⟩ := Nat.exists_eq_add_one.mpr (Nat.lt_of_lt_of_le (Nat.zero_lt_succ _) hm)
      have hn' : cs.length ≤ n := Nat.le_of_succ_le_succ hn
      have hm' : cs.length ≤ m := Nat.le_of_succ_le_succ hm
      rw [unescapeUtf8,unescapeUtf8]
      split
      · rw [ih m cs hn' hm']
      · split
        · rename_i d _
          have hsize : 0 < d.utf8Size := d.utf8Size_pos
          rw [ih m]
          · rw [List.length_drop,List.length_cons]
            omega
          · rw [List.length_drop,List.length_cons]
            omega
        · rfl

theorem charEscape_cons {c : Char} {escape : Text} (h : CharEscape c escape) :
    ∃ cs,escape = '%' :: cs ∧ escape.length = 3 * c.utf8Size ∧
      ∀ xs,escapedBytes (escape ++ xs) = String.utf8EncodeChar c ++ escapedBytes xs := by
  obtain ⟨escapes,hescapes,rfl⟩ := h
  have happend := escapedBytes_append hescapes
  have hlength : escapes.flatten.length = 3 * c.utf8Size := by
    rw [(happend []).2,String.length_utf8EncodeChar]
  cases escapes with
  | nil =>
    have hsize := c.utf8Size_pos
    rw [List.flatten_nil,List.length_nil] at hlength
    omega
  | cons escape escapes =>
    obtain ⟨b,bytes,hbyte,_,_⟩ := List.forall₂_cons_right_iff.mp hescapes
    obtain ⟨x,y,rfl,_,_⟩ := hbyte
    exact ⟨_,rfl,hlength,fun xs => (happend xs).1⟩

theorem decodes_uri : DecodesUri unescapeUri where
  nil := rfl
  copy c xs hc := by
    rw [unescapeUri,List.length_cons,unescapeUtf8,if_pos hc]
    rfl
  escape c text xs h := by
    obtain ⟨cs,hcs,hlength,hbytes⟩ := charEscape_cons h
    have hsize := c.utf8Size_pos
    have hdecode : (escapedBytes ('%' :: (cs ++ xs))).toByteArray.utf8DecodeChar? 0 = some c := by
      have hall := hbytes xs
      rw [hcs,List.cons_append] at hall
      rw [hall,List.toByteArray_append]
      exact ByteArray.utf8DecodeChar?_utf8EncodeChar_append
    have hdrop : ('%' :: (cs ++ xs)).drop (3 * c.utf8Size) = xs := by
      rw [← List.cons_append,← hcs,← hlength,List.drop_left]
    rw [unescapeUri,hcs,List.cons_append,List.length_cons,unescapeUtf8,if_neg (not_not.mpr rfl),hdecode]
    simp only [hdrop]
    rw [unescapeUtf8_enough _ xs.length xs _ (Nat.le_refl _)]
    · rfl
    · rw [List.length_append]
      exact Nat.le_add_left _ _

theorem predicate_round_trip_two :
    parseKeys unescapeUri "B='a,''=)/',A='%2541%27%27'".toList ["A".toList,"B".toList] =
      .ok [("B".toList,"a,'=)/".toList),("A".toList,"%41'".toList)] := by
  have hB : Written ("B".toList,"a,'=)/".toList) "B='a,''=)/'".toList := by
    refine ⟨⟨by simp,by simp⟩,"a,''=)/".toList,?_,rfl⟩
    refine .raw (by decide) (by decide) (.raw (by decide) (by decide) (.quotes ?_))
    exact .raw (by decide) (by decide) (.raw (by decide) (by decide)
      (.raw (by decide) (by decide) .nil))
  have hpercent : CharEscape '%' "%25".toList :=
    ⟨[['%','2','5']],.cons ⟨'2','5',rfl,by decide,by decide⟩ .nil,rfl⟩
  have hA : Written ("A".toList,"%41'".toList) "A='%2541%27%27'".toList := by
    refine ⟨⟨by simp,by simp⟩,"%2541%27%27".toList,?_,rfl⟩
    refine .escaped (by decide) hpercent ?_
    exact .raw (by decide) (by decide) (.raw (by decide) (by decide) (.quotesEscaped .nil))
  exact (predicate_round_trip unescapeUri decodes_uri ["A".toList,"B".toList] (by decide) _ _
    (.cons hB (.cons hA .nil))).2.1 (by decide)

end Samples

end OpenSteamgate.Gateway.Url
