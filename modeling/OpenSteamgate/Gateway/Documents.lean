import OpenSteamgate.Library.Outcome
import OpenSteamgate.Gateway.Json

namespace OpenSteamgate.Gateway.Json

open JsonText

variable {xs ys : Text} {f : Field} {t : EdmType}

section escaping

@[grind =] def Escapable : Text → Prop
  | '\r' :: '\n' :: cs => Escapable cs
  | c :: cs => (' ' ≤ c ∨ c = '\n' ∨ c = '\t') ∧ Escapable cs
  | [] => True

def pass (c d : Char) (text : Text) : Text := text.flatMap fun e => if e = c then ['\\',d] else [e]

theorem escape_passes (xs : Text) : escape xs =
    pass '\t' 't' (pass '\n' 'n' (escapeBreaks (pass '"' '"' (pass '\\' '\\' xs)))) := rfl

theorem pass_cons {c d e : Char} (h : e ≠ c) (xs : Text) : pass c d (e :: xs) = e :: pass c d xs := by
  rw [pass,List.flatMap_cons,if_neg h]
  rfl

theorem pass_hit (c d : Char) (xs : Text) : pass c d (c :: xs) = '\\' :: d :: pass c d xs := by
  rw [pass,List.flatMap_cons,if_pos rfl]
  rfl

theorem pass_head {c d : Char} (h : xs.head? ≠ some '\n') :
    (pass c d xs).head? ≠ some '\n' := by
  cases xs with
  | nil => exact h
  | cons e xs =>
    by_cases he : e = c
    · rw [he,pass_hit]
      rintro ⟨⟩
    · rw [pass_cons he]
      exact h

theorem escapeBreaks_cons {c : Char} (h : c = '\r' → xs.head? ≠ some '\n') :
    escapeBreaks (c :: xs) = c :: escapeBreaks xs := by
  rw [escapeBreaks]
  rintro cs rfl rfl
  exact h rfl rfl

theorem escape_break (xs : Text) :
    escape ('\r' :: '\n' :: xs) = '\\' :: 'r' :: '\\' :: 'n' :: escape xs := by
  rw [escape_passes,pass_cons (by decide),pass_cons (by decide),pass_cons (by decide),
    pass_cons (by decide),escapeBreaks]
  iterate 4 rw [pass_cons (by decide)]
  iterate 4 rw [pass_cons (by decide)]
  rfl

theorem escapable_of (h : ∀ c ∈ xs,' ' ≤ c) : Escapable xs := by
  induction xs using Escapable.induct with
  | case1 cs ih => exact absurd (h '\r' (List.mem_cons_self ..)) (by decide)
  | case2 c cs hbreak ih =>
    rw [Escapable]
    · exact ⟨.inl (h c (List.mem_cons_self ..)),ih fun d hd => h d (List.mem_cons_of_mem _ hd)⟩
    · exact hbreak
  | case3 => exact trivial

theorem ordinary_literal (h : xs.all (' ' ≤ ·) = true) : ∀ c ∈ xs,' ' ≤ c := fun c hc =>
  of_decide_eq_true (List.all_eq_true.mp h c hc)

def escaped (c : Char) : Text :=
  if c = '\\' then ['\\','\\'] else if c = '"' then ['\\','"'] else if c = '\n' then ['\\','n']
  else if c = '\t' then ['\\','t'] else [c]

theorem escape_cons {c : Char} (h : c = '\r' → xs.head? ≠ some '\n') :
    escape (c :: xs) = escaped c ++ escape xs := by
  by_cases h1 : c = '\\'
  · rw [h1,escape_passes,pass_hit,pass_cons (by decide),pass_cons (by decide),
      escapeBreaks_cons (by rintro ⟨⟩),escapeBreaks_cons (by rintro ⟨⟩)]
    iterate 2 rw [pass_cons (by decide)]
    iterate 2 rw [pass_cons (by decide)]
    rfl
  by_cases h2 : c = '"'
  · rw [h2,escape_passes,pass_cons (by decide),pass_hit,
      escapeBreaks_cons (by rintro ⟨⟩),escapeBreaks_cons (by rintro ⟨⟩)]
    iterate 2 rw [pass_cons (by decide)]
    iterate 2 rw [pass_cons (by decide)]
    rfl
  have hbreak : c = '\r' → (pass '"' '"' (pass '\\' '\\' xs)).head? ≠ some '\n' := fun hc =>
    pass_head (pass_head (h hc))
  rw [escape_passes,pass_cons h1,pass_cons h2,escapeBreaks_cons hbreak,escaped,if_neg h1,if_neg h2]
  by_cases h3 : c = '\n'
  · rw [h3,pass_hit,pass_cons (by decide),pass_cons (by decide)]
    rfl
  rw [pass_cons h3,if_neg h3]
  by_cases h4 : c = '\t'
  · rw [h4,pass_hit]
    rfl
  rw [pass_cons h4,if_neg h4]
  rfl

theorem escaped_cases (c : Char) :
    (∃ e,escaped c = ['\\',e] ∧ simpleEscape e = some c ∧ (' ' ≤ c ∨ c = '\n' ∨ c = '\t')) ∨
      escaped c = [c] ∧ c ≠ '\\' ∧ c ≠ '"' ∧ c ≠ '\n' ∧ c ≠ '\t' := by
  by_cases h1 : c = '\\'
  · exact .inl ⟨'\\',by subst h1; decide⟩
  by_cases h2 : c = '"'
  · exact .inl ⟨'"',by subst h2; decide⟩
  by_cases h3 : c = '\n'
  · exact .inl ⟨'n',by subst h3; decide⟩
  by_cases h4 : c = '\t'
  · exact .inl ⟨'t',by subst h4; decide⟩
  · exact .inr ⟨by rw [escaped,if_neg h1,if_neg h2,if_neg h3,if_neg h4],h1,h2,h3,h4⟩

theorem unbroken {c : Char} {cs : Text} (h : ∀ ds,c = '\r' → cs = '\n' :: ds → False) (hc : c = '\r') :
    cs.head? ≠ some '\n' := fun hhead => by
  cases cs with
  | nil => cases hhead
  | cons d cs => exact h cs hc (congrArg (· :: cs) (Option.some.inj hhead))

theorem escape_body (h : Escapable xs) : Body (escape xs) xs := by
  induction xs using Escapable.induct with
  | case1 cs ih =>
    rw [escape_break]
    rw [Escapable] at h
    exact .escape 'r' '\r' rfl (.escape 'n' '\n' rfl (ih h))
  | case2 c cs hbreak ih =>
    rw [Escapable] at h
    · rw [escape_cons (unbroken hbreak)]
      rcases escaped_cases c with ⟨e,he,hsimple,-⟩ | ⟨he,h1,h2,h3,h4⟩
      · rw [he]
        exact .escape e c hsimple (ih h.2)
      · have hc : ' ' ≤ c := h.1.resolve_right fun hor => hor.elim h3 h4
        rw [he]
        refine .plain c ?_ (ih h.2)
        rw [plain,decide_eq_true hc,decide_eq_true h2,decide_eq_true h1]
        rfl
    · exact hbreak
  | case3 => exact .nil

end escaping

section values

def dateText (f : Field) : Text :=
  match dateMs f with
  | .ok ms => ms
  | .error _ => []

def valueText (f : Field) : EdmType → Text
  | .int16 | .int32 | .byte => integerText f
  | .boolean => booleanText f
  | .decimal => decimalText f
  | .dateTime =>
    if f.isInitial then "null".toList
    else '"' :: ("\\/Date(".toList ++ dateText f ++ ")\\/".toList ++ ['"'])
  | .time => '"' :: (timeText f ++ ['"'])
  | .string | .other => '"' :: (escape f.move ++ ['"'])

theorem value_returned {text : Text} (h : value f t = .ok text) : text = valueText f t := by
  cases t with
  | dateTime =>
    rw [value] at h
    rw [valueText,dateText]
    split at h
    · rename_i hinitial
      rw [if_pos hinitial]
      exact (Except.ok.inj h).symm
    · rename_i hinitial
      obtain ⟨ms,hms,h⟩ := bind_eq_ok h
      rw [if_neg hinitial,hms]
      exact (Except.ok.inj h).symm
  | _ => exact (Except.ok.inj h).symm

def valueTree (f : Field) : EdmType → JsonText.Value
  | .int16 | .int32 | .byte => .number f.template
  | .boolean => .bool (!f.isInitial)
  | .decimal => .string f.template
  | .dateTime =>
    if f.isInitial then .null else .string ("/Date(".toList ++ dateText f ++ ")/".toList)
  | .time => .string (timeText f)
  | .string | .other => .string f.move

def Typed (f : Field) : EdmType → Prop
  | .int16 | .int32 | .byte => ∃ n,f = .int n
  | .decimal => ∃ n decimals,f = .packed n decimals
  | .time => ∃ ds,f = .time ds ∧ ∀ c ∈ ds,c.isDigit = true
  | .boolean | .dateTime | .string | .other => True

def AllPlain (text : Text) : Prop := ∀ c ∈ text,JsonText.plain c = true

theorem allPlain_of (h : xs.all JsonText.plain = true) : AllPlain xs := List.all_eq_true.mp h

theorem allPlain_append : AllPlain (xs ++ ys) ↔ AllPlain xs ∧ AllPlain ys := List.forall_mem_append

theorem digit_allPlain (h : ∀ c ∈ xs,c.isDigit = true) : AllPlain xs := by
  intro c hc
  have hdigit := h c hc
  rw [Char.isDigit,Bool.and_eq_true,decide_eq_true_iff,decide_eq_true_iff] at hdigit
  have hle : ' ' ≤ c := Char.le_def.mpr (UInt32.le_trans (by decide) hdigit.1)
  rw [JsonText.plain,decide_eq_true hle,decide_eq_true,decide_eq_true]
  · rfl
  · rintro rfl
    exact absurd hdigit.2 (by decide)
  · rintro rfl
    exact absurd hdigit.1 (by decide)

theorem digits_digit (n : Nat) : ∀ c ∈ Nat.toDigits 10 n,c.isDigit = true := fun _ hc =>
  Nat.isDigit_of_mem_toDigits (by decide) (Nat.le_refl 10) hc

theorem sign_allPlain (n : Int) : AllPlain (sign n) := by
  rw [sign]
  split
  · exact allPlain_of rfl
  · exact List.forall_mem_nil _

theorem leftpad_digit (n k : Nat) : ∀ c ∈ (Nat.toDigits 10 n).leftpad k '0',c.isDigit = true := by
  intro c hc
  rw [List.leftpad] at hc
  rcases List.mem_append.mp hc with hc | hc
  · rw [(List.mem_replicate.mp hc).2]
    rfl
  · exact digits_digit n c hc

theorem point_allPlain (n decimals : Nat) : AllPlain (point n decimals) := by
  have hall := leftpad_digit n (decimals + 1)
  rw [point]
  split
  · exact digit_allPlain hall
  · refine (allPlain_append).mpr ⟨digit_allPlain fun c hc => hall c (List.mem_of_mem_take hc),?_⟩
    refine List.forall_mem_cons.mpr ⟨by decide,?_⟩
    exact digit_allPlain fun c hc => hall c (List.mem_of_mem_drop hc)

theorem head_digits {n : Nat} (h : 0 < n) : (Nat.toDigits 10 n).head? ≠ some '0' := by
  induction n using Nat.strongRecOn with
  | _ n ih =>
    by_cases hn : n < 10
    · rw [Nat.toDigits_of_lt_base hn]
      have hall : ∀ k < 10,0 < k → [Nat.digitChar k].head? ≠ some '0' := by decide
      exact hall n hn h
    · rw [Nat.toDigits_of_base_le (by decide) (Nat.le_of_not_lt hn),
        List.head?_append_of_ne_nil _ Nat.toDigits_ne_nil]
      exact ih (n / 10) (by omega) (by omega)

theorem int_number (n : Int) : Number (Field.int n).template := by
  refine ⟨sign n,Nat.toDigits 10 n.natAbs,[],[],by simp [Field.template,intText_sign],?_,
    ⟨Nat.toDigits_ne_nil,digits_digit _⟩,fun hzero => ?_,.inl rfl,.inl rfl⟩
  · rw [sign]
    split
    · exact .inr rfl
    · exact .inl rfl
  · by_cases hn : n.natAbs = 0
    · rw [hn]
      rfl
    · exact absurd hzero (head_digits (Nat.pos_of_ne_zero hn))

theorem condense_self (h : ' ' ∉ xs) : condenseNoGaps xs = xs := by
  refine List.filter_eq_self.mpr fun c hc => decide_eq_true ?_
  rintro rfl
  exact h hc

theorem digit_noBlank (h : ∀ c ∈ xs,c.isDigit = true) : ' ' ∉ xs := fun hc =>
  absurd (h ' ' hc) (by decide)

theorem sign_noBlank (n : Int) : ' ' ∉ sign n := by
  rw [sign]
  split <;> decide

theorem int_noBlank (n : Int) : ' ' ∉ (Field.int n).template := by
  intro hc
  rw [Field.template,intText_sign] at hc
  rcases List.mem_append.mp hc with hc | hc
  · exact sign_noBlank n hc
  · exact digit_noBlank (digits_digit _) hc

theorem packed_noBlank (n : Int) (decimals : Nat) : ' ' ∉ (Field.packed n decimals).template := by
  have hall := leftpad_digit n.natAbs (decimals + 1)
  intro hc
  rcases List.mem_append.mp hc with hc | hc
  · exact sign_noBlank n hc
  · rw [point] at hc
    split at hc
    · exact digit_noBlank hall hc
    · rcases List.mem_append.mp hc with hc | hc
      · exact digit_noBlank hall (List.mem_of_mem_take hc)
      · rcases List.mem_cons.mp hc with hc | hc
        · cases hc
        · exact digit_noBlank hall (List.mem_of_mem_drop hc)

theorem epoch_allPlain {date time ms : Text} (h : epochMs date time = .ok ms) : AllPlain ms := by
  obtain ⟨_,-,h⟩ := bind_eq_ok h
  obtain ⟨_,-,h⟩ := bind_eq_ok h
  obtain ⟨_,-,h⟩ := bind_eq_ok h
  obtain ⟨_,-,h⟩ := bind_eq_ok h
  obtain ⟨_,-,h⟩ := bind_eq_ok h
  rw [← Except.ok.inj h,intText_sign]
  exact (allPlain_append).mpr ⟨sign_allPlain _,digit_allPlain (digits_digit _)⟩

theorem dateMs_allPlain {ms : Text} (h : dateMs f = .ok ms) : AllPlain ms := by
  unfold dateMs at h
  split at h
  · exact epoch_allPlain h
  · dsimp only at h
    split at h
    · cases h
    · exact epoch_allPlain h

theorem dateText_allPlain (f : Field) : AllPlain (dateText f) := by
  unfold dateText
  split
  · rename_i hms
    exact dateMs_allPlain hms
  · exact List.forall_mem_nil _

theorem timeText_allPlain (h : ∀ c ∈ xs,c.isDigit = true) : AllPlain (timeText (.time xs)) := by
  have hall := digit_allPlain h
  rw [timeText]
  split
  · have hpart : ∀ k,AllPlain (((Field.time xs).move.drop k).take 2) := fun k c hc =>
      hall c (List.mem_of_mem_drop (List.mem_of_mem_take hc))
    simp only [allPlain_append]
    refine ⟨⟨⟨⟨?_,hpart 0⟩,List.forall_mem_cons.mpr ⟨by decide,hpart 2⟩⟩,
      List.forall_mem_cons.mpr ⟨by decide,hpart 4⟩⟩,?_⟩
    · exact allPlain_of rfl
    · exact allPlain_of rfl
  · exact allPlain_of rfl

theorem value_reads (h : Typed f t) (hclean : t = .string ∨ t = .other → Escapable f.move) :
    Reads (valueText f t) (valueTree f t) := by
  cases t with
  | int16 | int32 | byte =>
    obtain ⟨n,rfl⟩ := h
    have hne : ¬(Field.int n).template = [] := by
      rw [Field.template,intText_sign]
      exact List.append_ne_nil_of_right_ne_nil _ Nat.toDigits_ne_nil
    rw [valueText,integerText,condense_self (int_noBlank n)]
    rw [if_neg hne]
    exact .number (int_number n)
  | boolean =>
    rw [valueText,booleanText,valueTree]
    cases f.isInitial with
    | true => exact .no
    | false => exact .yes
  | decimal =>
    obtain ⟨n,decimals,rfl⟩ := h
    rw [valueText,decimalText,condense_self (packed_noBlank n decimals)]
    exact .string (body_self ((allPlain_append).mpr ⟨sign_allPlain n,point_allPlain _ _⟩))
  | dateTime =>
    rw [valueText,valueTree]
    split
    · exact .null
    · have hopen : Body "\\/Date(".toList "/Date(".toList :=
        .escape '/' '/' rfl (body_literal rfl)
      have hclose : Body ")\\/".toList ")/".toList := .plain ')' rfl (.escape '/' '/' rfl .nil)
      exact .string (body_append (body_append hopen (body_self (dateText_allPlain f))) hclose)
  | time =>
    obtain ⟨ds,rfl,hds⟩ := h
    exact .string (body_self (timeText_allPlain hds))
  | string => exact .string (escape_body (hclean (.inl rfl)))
  | other => exact .string (escape_body (hclean (.inr rfl)))

end values

section feeds

variable {texts : List Text} {rows : List (Text × JsonText.Value)} {inlinecount : Text}

def resultsTree (trees : List JsonText.Value) : Text × JsonText.Value := ("results".toList,.array trees)

def feedTree (trees : List JsonText.Value) (inlinecount : Text) : JsonText.Value :=
  .object [("d".toList,.object (resultsTree trees ::
    if inlinecount = [] then [] else [("__count".toList,.string inlinecount)]))]

def listed : List Text → Text
  | [] => []
  | x :: xs => x ++ xs.flatMap (',' :: ·)

theorem foldl_rows {text : Text} (htext : text ≠ []) :
    texts.foldl (fun rows row => if rows = [] then row else rows ++ ',' :: row) text =
      text ++ texts.flatMap (',' :: ·) := by
  induction texts generalizing text with
  | nil => exact (List.append_nil text).symm
  | cons x xs ih =>
    rw [List.foldl_cons,if_neg htext,ih,List.append_assoc]
    · rfl
    · exact fun hnil => htext (List.append_eq_nil_iff.mp hnil).1

theorem foldl_listed (h : ∀ x ∈ texts,x ≠ []) :
    texts.foldl (fun rows row => if rows = [] then row else rows ++ ',' :: row) [] = listed texts := by
  cases texts with
  | nil => rfl
  | cons x xs =>
    rw [List.foldl_cons,if_pos rfl,foldl_rows (h x (List.mem_cons_self ..))]
    rfl

def results (texts : List Text) : Text := JsonText.member "results".toList ('[' :: (listed texts ++ [']']))

theorem feedOf_eq (h : ∀ x ∈ texts,x ≠ []) : feedOf texts inlinecount =
    braced (member "d" (braced (results texts ++ if inlinecount = [] then [] else
      ',' :: member "__count" (quoted inlinecount)))) := by
  rw [feedOf,foldl_listed h]
  split
  · simp [braced,member,JsonText.member,results]
  · simp [braced,member,JsonText.member,results]

theorem nested_table (h : ∀ x ∈ texts,x ≠ []) :
    ((feedOf texts []).drop 5).take ((feedOf texts []).length - 6) = braced (results texts) := by
  have htext : feedOf texts [] = ['{','"','d','"',':'] ++ (braced (results texts) ++ ['}']) := by
    rw [feedOf_eq h]
    simp [braced,member,JsonText.member]
  rw [htext]
  change (braced (results texts) ++ ['}']).take _ = _
  rw [List.take_left']
  simp only [List.length_append,List.length_cons,List.length_nil]
  omega

theorem listed_reads (h : ∀ x ∈ rows,Reads x.1 x.2) :
    Reads ('[' :: (listed (rows.map (·.1)) ++ [']'])) (.array (rows.map (·.2))) := by
  cases rows with
  | nil => exact .nothing blank_nil
  | cons x xs =>
    have hrest := elements_flat (h x (List.mem_cons_self ..)) fun y hy => h y (List.mem_cons_of_mem _ hy)
    rw [List.map_cons,listed,List.flatMap_map]
    exact .array hrest

theorem results_reads (h : ∀ x ∈ rows,Reads x.1 x.2) :
    Reads (braced (results (rows.map (·.1)))) (.object [resultsTree (rows.map (·.2))]) :=
  .object (members_one (body_literal rfl) (document_of (listed_reads h)))

theorem feedOf_reads (h : ∀ x ∈ rows,Reads x.1 x.2) (hne : ∀ x ∈ rows,x.1 ≠ []) (hcount : AllPlain inlinecount) :
    Reads (feedOf (rows.map (·.1)) inlinecount) (feedTree (rows.map (·.2)) inlinecount) := by
  have hall : ∀ x ∈ rows.map (·.1),x ≠ [] := by
    intro x hx
    obtain ⟨y,hy,rfl⟩ := List.mem_map.mp hx
    exact hne y hy
  rw [feedOf_eq hall]
  refine .object (members_one (body_literal rfl) (document_of ?_))
  split
  · rw [List.append_nil]
    exact results_reads h
  · exact .object (members_more (body_literal rfl) (document_of (listed_reads h))
      (members_one (body_literal rfl) (document_of (.string (body_self hcount)))))

end feeds

section returned

variable {R : Type} (service : Service) (inner : R → EntitySet → Except Raised Text)
  (innerText : R → EntitySet → Text)

def nestedText (row : Record R) (nav : Nav) : Text :=
  match nest service row nav with
  | .nothing => []
  | .table rows target =>
    let text := feedOf (rows.map (innerText · target)) []
    (text.drop 5).take (text.length - 6)
  | .structured row target => innerText row target

def linkText (row : Record R) (set : EntitySet) (navJson : List (Text × Text)) (nav : Nav) : Text :=
  match navJson.lookup nav.name with
  | some json => json
  | none =>
    let text := nestedText service innerText row nav
    if text = [] then deferred (uri service row set) nav else text

def entityText (row : Record R) (set : EntitySet) (navJson : List (Text × Text)) : Text :=
  document service row set (((row.fields set).map fun x => (x.1.name,valueText x.2 x.1.edmType)) ++
    set.navs.map fun nav => (nav.name,linkText service innerText row set navJson nav))

def deepText : (n : Nat) → Deep n → EntitySet → Text
  | 0,row,_ => row.elim
  | n + 1,row,set => entityText service (deepText n) row set []

-- what `entity` and `feed` return where no value raises
def rowText {n : Nat} (row : Row n) (set : EntitySet) (navJson : List (Text × Text)) : Text :=
  entityText service (deepText service n) row set navJson

def feedText {n : Nat} (rows : List (Row n)) (set : EntitySet) (inlinecount : Text) : Text :=
  feedOf (rows.map fun row => rowText service row set []) inlinecount

variable {service : Service} {inner : R → EntitySet → Except Raised Text} {innerText : R → EntitySet → Text}
  {row : Record R} {set : EntitySet} {navJson : List (Text × Text)} {nav : Nav} {text : Text}

theorem mapM_returned {α β ε : Type} {f : α → Except ε β} {g : α → β} (h : ∀ x y,f x = .ok y → y = g x)
    {xs : List α} {ys : List β} (hys : xs.mapM f = .ok ys) : ys = xs.map g := by
  induction xs generalizing ys with
  | nil => exact (Except.ok.inj hys).symm
  | cons x xs ih =>
    rw [List.mapM_cons] at hys
    obtain ⟨y,hy,hys⟩ := bind_eq_ok hys
    obtain ⟨rest,hrest,hys⟩ := bind_eq_ok hys
    rw [← Except.ok.inj hys,h x y hy,ih hrest]
    rfl

theorem nested_returned (hinner : ∀ r target text,inner r target = .ok text → text = innerText r target)
    (h : nested service inner row nav = .ok text) : text = nestedText service innerText row nav := by
  unfold nested at h
  unfold nestedText
  cases hnest : nest service row nav with
  | nothing =>
    rw [hnest] at h
    exact (Except.ok.inj h).symm
  | table rows target =>
    rw [hnest] at h
    obtain ⟨texts,htexts,h⟩ := bind_eq_ok h
    rw [← Except.ok.inj h,mapM_returned (fun r text => hinner r target text) htexts]
  | structured r target =>
    rw [hnest] at h
    exact hinner r target text h

theorem navText_returned (hinner : ∀ r target text,inner r target = .ok text → text = innerText r target)
    (h : navText service inner row set navJson nav = .ok text) :
    text = linkText service innerText row set navJson nav := by
  unfold navText at h
  unfold linkText
  cases hlookup : navJson.lookup nav.name with
  | some json =>
    rw [hlookup] at h
    exact (Except.ok.inj h).symm
  | none =>
    rw [hlookup] at h
    obtain ⟨nestedJson,hnested,h⟩ := bind_eq_ok h
    rw [← Except.ok.inj h,nested_returned hinner hnested]

theorem entityWith_returned (hinner : ∀ r target text,inner r target = .ok text → text = innerText r target)
    (h : entityWith service inner row set navJson = .ok text) :
    text = entityText service innerText row set navJson := by
  obtain ⟨fields,hfields,h⟩ := bind_eq_ok h
  obtain ⟨navs,hnavs,h⟩ := bind_eq_ok h
  have hvalues : fields = (row.fields set).map fun x => (x.1.name,valueText x.2 x.1.edmType) :=
    mapM_returned (fun x y hy => by
      obtain ⟨text,htext,hy⟩ := bind_eq_ok hy
      rw [← Except.ok.inj hy,value_returned htext]) hfields
  have hlinks : navs = set.navs.map fun nav => (nav.name,linkText service innerText row set navJson nav) :=
    mapM_returned (fun nav y hy => by
      obtain ⟨text,htext,hy⟩ := bind_eq_ok hy
      rw [← Except.ok.inj hy,navText_returned hinner htext]) hnavs
  rw [← Except.ok.inj h,hvalues,hlinks]
  rfl

theorem deepEntity_returned (n : Nat) (row : Deep n) (set : EntitySet) (text : Text)
    (h : deepEntity service n row set = .ok text) : text = deepText service n row set := by
  induction n generalizing set text with
  | zero => exact row.elim
  | succ n ih => exact entityWith_returned (fun r target text => ih r target text) h

theorem entity_returned {n : Nat} {row : Row n} (h : entity service row set navJson = .ok text) :
    text = rowText service row set navJson :=
  entityWith_returned (fun r target text => deepEntity_returned n r target text) h

theorem feed_returned {n : Nat} {rows : List (Row n)} {inlinecount : Text}
    (h : feed service rows set inlinecount = .ok text) : text = feedText service rows set inlinecount := by
  obtain ⟨texts,htexts,h⟩ := bind_eq_ok h
  rw [← Except.ok.inj h,mapM_returned (fun row text htext => entity_returned htext) htexts]
  rfl

end returned

section entities

variable {R : Type} (service : Service) (tree : R → EntitySet → JsonText.Value)

def nestTree (row : Record R) (nav : Nav) : Option JsonText.Value :=
  match nest service row nav with
  | .nothing => none
  | .table rows target => some (.object [resultsTree (rows.map (tree · target))])
  | .structured row target => some (tree row target)

def deferredTree (uri : Text) (nav : Nav) : JsonText.Value :=
  .object [("__deferred".toList,.object [("uri".toList,.string (uri ++ '/' :: nav.name))])]

def navTree (row : Record R) (set : EntitySet) (inlined : List (Text × Text × JsonText.Value)) (nav : Nav) :
    JsonText.Value :=
  match inlined.lookup nav.name with
  | some json => json.2
  | none => (nestTree service tree row nav).getD (deferredTree (uri service row set) nav)

def mediaTree (set : EntitySet) (uri : Text) : List (Text × JsonText.Value) :=
  if set.isMedia then [("media_src".toList,.string (uri ++ "/$value".toList)),
    ("edit_media".toList,.string (uri ++ "/$value".toList))] else []

def entityTree (row : Record R) (set : EntitySet) (inlined : List (Text × Text × JsonText.Value)) :
    JsonText.Value :=
  .object (("__metadata".toList,.object (("id".toList,.string (uri service row set)) ::
      ("uri".toList,.string (uri service row set)) ::
      ("type".toList,.string (service.nameSpace ++ '.' :: set.entityType)) ::
      mediaTree set (uri service row set))) ::
    (((row.fields set).map fun x => (x.1.name,valueTree x.2 x.1.edmType)) ++
      set.navs.map fun nav => (nav.name,navTree service tree row set inlined nav)))

def deepTree : (n : Nat) → Deep n → EntitySet → JsonText.Value
  | 0,row,_ => row.elim
  | n + 1,row,set => entityTree service (deepTree n) row set []

def EachNested (ok : R → EntitySet → Prop) (row : Record R) (nav : Nav) : Prop :=
  match nest service row nav with
  | .nothing => True
  | .table rows target => ∀ row ∈ rows,ok row target
  | .structured row target => ok row target

structure Shaped (ok : R → EntitySet → Prop) (row : Record R) (set : EntitySet) : Prop where
  entityType : AllPlain set.entityType
  properties : ∀ p ∈ set.properties,AllPlain p.name
  navs : ∀ nav ∈ set.navs,AllPlain nav.name
  typed : ∀ p ∈ set.properties,∀ f,row.field p.fieldname = some f → Typed f p.edmType
  nested : ∀ nav ∈ set.navs,EachNested service ok row nav

structure Clean (ok : R → EntitySet → Prop) (row : Record R) (set : EntitySet)
    (inlined : List (Text × Text × JsonText.Value)) : Prop where
  uri : Escapable (uri service row set)
  texts : ∀ p ∈ set.properties,∀ f,row.field p.fieldname = some f →
    p.edmType = .string ∨ p.edmType = .other → Escapable f.move
  links : ∀ nav ∈ set.navs,inlined.lookup nav.name = none → nest service row nav = .nothing →
    AllPlain (Json.uri service row set)
  nested : ∀ nav ∈ set.navs,inlined.lookup nav.name = none → EachNested service ok row nav

def DeepShaped : (n : Nat) → Deep n → EntitySet → Prop
  | 0,_,_ => True
  | n + 1,row,set => Shaped service (DeepShaped n) row set

def DeepClean : (n : Nat) → Deep n → EntitySet → Prop
  | 0,_,_ => True
  | n + 1,row,set => Clean service (DeepClean n) row set []

variable {service : Service} {tree : R → EntitySet → JsonText.Value} {inner : R → EntitySet → Text}
  {row : Record R} {set : EntitySet} {inlined : List (Text × Text × JsonText.Value)} {nav : Nav}
  {shaped clean : R → EntitySet → Prop}

theorem lookup_texts (name : Text) :
    (inlined.map fun x => (x.1,x.2.1)).lookup name = (inlined.lookup name).map (·.1) := by
  induction inlined with
  | nil => rfl
  | cons x xs ih =>
    rw [List.map_cons,List.lookup_cons,List.lookup_cons]
    split
    · rfl
    · exact ih

theorem nested_reads (hinner : ∀ r target,shaped r target → clean r target →
    inner r target ≠ [] ∧ Reads (inner r target) (tree r target))
    (hshaped : EachNested service shaped row nav) (hclean : EachNested service clean row nav) :
    (nest service row nav = .nothing ∧ nestedText service inner row nav = []) ∨
      ∃ v,nestTree service tree row nav = some v ∧ nestedText service inner row nav ≠ [] ∧
        Reads (nestedText service inner row nav) v := by
  rw [EachNested] at hshaped hclean
  rw [nestTree,nestedText]
  cases hnest : nest service row nav with
  | nothing => exact .inl ⟨rfl,rfl⟩
  | structured r target =>
    rw [hnest] at hshaped hclean
    obtain ⟨hne,hreads⟩ := hinner r target hshaped hclean
    exact .inr ⟨_,rfl,hne,hreads⟩
  | table rows target =>
    rw [hnest] at hshaped hclean
    have hall : ∀ x ∈ rows.map fun r => (inner r target,tree r target),x.1 ≠ [] ∧ Reads x.1 x.2 := by
      intro x hx
      obtain ⟨r,hr,rfl⟩ := List.mem_map.mp hx
      exact hinner r target (hshaped r hr) (hclean r hr)
    have hne : ∀ x ∈ rows.map (inner · target),x ≠ [] := by
      intro x hx
      obtain ⟨r,hr,rfl⟩ := List.mem_map.mp hx
      exact (hinner r target (hshaped r hr) (hclean r hr)).1
    have hresults := results_reads fun x hx => (hall x hx).2
    rw [List.map_map,List.map_map] at hresults
    refine .inr ⟨_,rfl,?_,?_⟩
    · dsimp only
      rw [nested_table hne]
      exact List.cons_ne_nil _ _
    · dsimp only
      rw [nested_table hne]
      exact hresults

theorem deferred_reads (huri : AllPlain xs) (hnav : AllPlain nav.name) :
    Reads (deferred xs nav) (deferredTree xs nav) := by
  have hlink : AllPlain (xs ++ '/' :: nav.name) :=
    allPlain_append.mpr ⟨huri,List.forall_mem_cons.mpr ⟨rfl,hnav⟩⟩
  exact .object (members_one (body_literal rfl) (document_of (.object (members_one
    (body_literal rfl) (document_of (.string (body_self hlink)))))))

theorem navText_reads (hinner : ∀ r target,shaped r target → clean r target →
    inner r target ≠ [] ∧ Reads (inner r target) (tree r target))
    (hshaped : Shaped service shaped row set) (hclean : Clean service clean row set inlined)
    (hinlined : ∀ x ∈ inlined,Document x.2.1 x.2.2) (hnav : nav ∈ set.navs) :
    Document (linkText service inner row set (inlined.map fun x => (x.1,x.2.1)) nav)
      (navTree service tree row set inlined nav) := by
  rw [linkText,navTree,lookup_texts]
  cases hlookup : inlined.lookup nav.name with
  | some json =>
    obtain ⟨l₁,l₂,hsplit,-⟩ := List.lookup_eq_some_iff.mp hlookup
    exact hinlined (nav.name,json) (by rw [hsplit]; exact List.mem_append_right _ (List.mem_cons_self ..))
  | none =>
    rcases nested_reads hinner (hshaped.nested nav hnav) (hclean.nested nav hnav hlookup) with
      ⟨hnothing,htext⟩ | ⟨v,htree,hne,hreads⟩
    · have htree : nestTree service tree row nav = none := by rw [nestTree,hnothing]
      have hlink := deferred_reads (hclean.links nav hnav hlookup hnothing) (hshaped.navs nav hnav)
      simp only [Option.map_none,htext,htree,if_true,Option.getD_none]
      exact document_of hlink
    · simp only [Option.map_none,htree,if_neg hne,Option.getD_some]
      exact document_of hreads

theorem media_members (huri : Escapable xs) : ∃ ms : List (Text × Text × JsonText.Value),
    (media set (escape xs) = ms.flatMap fun x => ',' :: JsonText.member x.1 x.2.1) ∧
    mediaTree set xs = ms.map (fun x => (x.1,x.2.2)) ∧ ∀ x ∈ ms,Body x.1 x.1 ∧ Document x.2.1 x.2.2 := by
  have hvalue : Document (quoted (escape xs ++ "/$value".toList)) (.string (xs ++ "/$value".toList)) :=
    document_of (.string (body_append (escape_body huri) (body_literal rfl)))
  have hsrc : Body "media_src".toList "media_src".toList := body_literal rfl
  have hedit : Body "edit_media".toList "edit_media".toList := body_literal rfl
  rw [media,mediaTree]
  cases set.isMedia with
  | false => exact ⟨[],rfl,rfl,List.forall_mem_nil _⟩
  | true =>
    refine ⟨[("media_src".toList,quoted (escape xs ++ "/$value".toList),.string (xs ++ "/$value".toList)),
      ("edit_media".toList,quoted (escape xs ++ "/$value".toList),.string (xs ++ "/$value".toList))],
      ?_,rfl,?_⟩
    · simp [member]
    · intro x hx
      rcases List.mem_cons.mp hx with rfl | hx
      · exact ⟨hsrc,hvalue⟩
      · obtain rfl := List.mem_singleton.mp hx
        exact ⟨hedit,hvalue⟩

theorem uri_members (huri : Escapable xs) (htype : AllPlain ys) :
    Reads (braced (member "id" (quoted (escape xs)) ++ ',' :: member "uri" (quoted (escape xs)) ++
        ',' :: member "type" (quoted ys) ++ media set (escape xs)))
      (.object (("id".toList,.string xs) :: ("uri".toList,.string xs) :: ("type".toList,.string ys) ::
        mediaTree set xs)) := by
  have hbody : Document (quoted (escape xs)) (.string xs) := document_of (.string (escape_body huri))
  have hid : Body "id".toList "id".toList := body_literal rfl
  have hname : Body "uri".toList "uri".toList := body_literal rfl
  have htypeName : Body "type".toList "type".toList := body_literal rfl
  obtain ⟨ms,htext,htree,hall⟩ : ∃ ms,_ ∧ mediaTree set xs = _ ∧ _ := media_members huri
  let others : List (Text × Text × JsonText.Value) := ("uri".toList,quoted (escape xs),.string xs) ::
    ("type".toList,quoted ys,.string ys) :: ms
  have hmembers := @members_flat _ _ _ _ others hid hbody ?_
  · rw [htext,htree]
    refine .object ?_
    simpa [member,others,List.append_assoc] using hmembers
  · intro x hx
    rcases List.mem_cons.mp hx with rfl | hx
    · exact ⟨hname,hbody⟩
    · rcases List.mem_cons.mp hx with rfl | hx
      · exact ⟨htypeName,document_of (.string (body_self htype))⟩
      · exact hall x hx

theorem mem_fields {x : Property × Field} :
    x ∈ row.fields set ↔ x.1 ∈ set.properties ∧ row.field x.1.fieldname = some x.2 := by
  obtain ⟨p,f⟩ := x
  simp [Record.fields]

theorem entityText_reads (hspace : AllPlain service.nameSpace) (hinner : ∀ r target,shaped r target →
    clean r target → inner r target ≠ [] ∧ Reads (inner r target) (tree r target))
    (hshaped : Shaped service shaped row set) (hclean : Clean service clean row set inlined)
    (hinlined : ∀ x ∈ inlined,Document x.2.1 x.2.2) :
    Reads (entityText service inner row set (inlined.map fun x => (x.1,x.2.1)))
      (entityTree service tree row set inlined) := by
  have htype : AllPlain (service.nameSpace ++ '.' :: set.entityType) :=
    allPlain_append.mpr ⟨hspace,List.forall_mem_cons.mpr ⟨rfl,hshaped.entityType⟩⟩
  have hmeta := @uri_members _ _ set hclean.uri htype
  let fields : List (Text × Text × JsonText.Value) := (row.fields set).map fun x =>
    (x.1.name,valueText x.2 x.1.edmType,valueTree x.2 x.1.edmType)
  let links : List (Text × Text × JsonText.Value) := set.navs.map fun nav =>
    (nav.name,linkText service inner row set (inlined.map fun x => (x.1,x.2.1)) nav,
      navTree service tree row set inlined nav)
  have hmembers := @members_flat _ "__metadata".toList _ _ (fields ++ links) (body_literal rfl)
    (document_of hmeta) ?_
  · rw [entityText,entityTree,document,List.flatMap_append]
    refine .object ?_
    rw [List.flatMap_append,List.map_append,List.map_map,List.map_map] at hmembers
    simp only [fields,links,List.flatMap_map] at hmembers ⊢
    exact hmembers
  · intro x hx
    rcases List.mem_append.mp hx with hx | hx
    · obtain ⟨⟨p,f⟩,hfield,rfl⟩ := List.mem_map.mp hx
      obtain ⟨hp,hf⟩ := mem_fields.mp hfield
      exact ⟨body_self (hshaped.properties p hp),
        document_of (value_reads (hshaped.typed p hp f hf) (hclean.texts p hp f hf))⟩
    · obtain ⟨nav,hnav,rfl⟩ := List.mem_map.mp hx
      exact ⟨body_self (hshaped.navs nav hnav),navText_reads hinner hshaped hclean hinlined hnav⟩

theorem entityText_ne (service : Service) (inner : R → EntitySet → Text) (row : Record R) (set : EntitySet)
    (navJson : List (Text × Text)) : entityText service inner row set navJson ≠ [] := by
  rw [entityText,document,braced]
  exact List.cons_ne_nil _ _

theorem deepText_reads (hspace : AllPlain service.nameSpace) (n : Nat) (row : Deep n) (set : EntitySet)
    (hshaped : DeepShaped service n row set) (hclean : DeepClean service n row set) :
    deepText service n row set ≠ [] ∧ Reads (deepText service n row set) (deepTree service n row set) := by
  induction n generalizing set with
  | zero => exact row.elim
  | succ n ih =>
    rw [deepText,deepTree]
    have hreads := @entityText_reads _ _ _ _ _ _ [] _ _ hspace (fun r target => ih r target) hshaped hclean
      (List.forall_mem_nil _)
    exact ⟨entityText_ne service (deepText service n) row set [],hreads⟩

end entities

end OpenSteamgate.Gateway.Json
