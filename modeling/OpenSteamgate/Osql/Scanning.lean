import OpenSteamgate.Osql.Pieces

namespace OpenSteamgate.Osql

open Lexeme

inductive Mark
  | ident (name : Text)
  | string (s : Text)
  | hole (number : Option Nat)

@[grind =] def quoted (q : Char) : Text → Text × Text
  | [] => ([],[])
  | [c] => if c = q then ([],[]) else ([c],[])
  | c :: d :: cs =>
    if c = q then
      if d = q then (q :: (quoted q cs).1,(quoted q cs).2) else ([],d :: cs)
    else (c :: (quoted q (d :: cs)).1,(quoted q (d :: cs)).2)

theorem length_quoted (q : Char) (s : Text) : (quoted q s).2.length ≤ s.length := by
  fun_induction quoted q s with
  | case1 => simp
  | case2 => simp
  | case3 => simp
  | case4 cs ih =>
    simp only [List.length_cons]
    omega
  | case5 => simp
  | case6 c d cs hc ih =>
    simp only [List.length_cons] at *
    omega

def digits (s : Text) : Text := s.takeWhile fun c => isDigit c.toNat

def pastDigits (s : Text) : Text := s.dropWhile fun c => isDigit c.toNat

theorem length_pastDigits (s : Text) : (pastDigits s).length ≤ s.length :=
  (List.dropWhile_suffix _).length_le

def numberOf (s : Text) : Option Nat := if s = [] then none else some (Nat.ofDigitChars 10 s 0)

def scan : Text → List Mark
  | [] => []
  | c :: s =>
    if c = '"' then .ident (quoted '"' s).1 :: scan (quoted '"' s).2
    else if c = '\'' then .string (quoted '\'' s).1 :: scan (quoted '\'' s).2
    else if c = '?' ∨ c = '$' then .hole (numberOf (digits s)) :: scan (pastDigits s)
    else scan s
  termination_by s => s.length
  decreasing_by
    · exact Nat.lt_succ_of_le (length_quoted '"' s)
    · exact Nat.lt_succ_of_le (length_quoted '\'' s)
    · exact Nat.lt_succ_of_le (length_pastDigits s)
    · exact Nat.lt_succ_self s.length

def plainChar (c : Char) : Bool := c != '"' && c != '\'' && c != '?' && c != '$'

def Plain (s : Text) : Prop := s.all plainChar = true

instance (s : Text) : Decidable (Plain s) := inferInstanceAs (Decidable (s.all plainChar = true))

def Stops (s : Text) : Prop := ∀ c ∈ s.head?, c ≠ '"' ∧ c ≠ '\'' ∧ isDigit c.toNat = false

theorem scan_plain {s rest : Text} (h : Plain s) : scan (s ++ rest) = scan rest := by
  induction s with
  | nil => rfl
  | cons c s ih =>
    rw [Plain,List.all_cons,Bool.and_eq_true] at h
    have hc := h.1
    simp only [plainChar,Bool.and_eq_true,bne_iff_ne] at hc
    rw [List.cons_append,scan,if_neg hc.1.1.1,if_neg hc.1.1.2,if_neg (by simp [hc.1.2,hc.2])]
    exact ih h.2

theorem quoted_double {name rest : Text} (h : Stops rest) :
    quoted '"' ((name.flatMap fun c => if c = '"' then ['"','"'] else [c]) ++ '"' :: rest) =
      (name,rest) := by
  induction name with
  | nil =>
    cases rest with
    | nil => rfl
    | cons d rest =>
      have hd := (h d rfl).1
      rw [List.flatMap_nil,List.nil_append,quoted,if_pos rfl,if_neg hd]
  | cons c name ih =>
    rw [List.flatMap_cons]
    by_cases hc : c = '"'
    · rw [if_pos hc,List.append_assoc]
      change quoted '"' ('"' :: '"' :: (_ ++ '"' :: rest)) = _
      rw [quoted,if_pos rfl,if_pos rfl,ih,hc]
    · rw [if_neg hc,List.append_assoc]
      change quoted '"' (c :: (_ ++ '"' :: rest)) = _
      generalize hmore : _ ++ '"' :: rest = more at ih
      cases more with
      | nil => simp at hmore
      | cons d more => rw [quoted,if_neg hc,ih]

theorem scan_quote {name rest : Text} (h : Stops rest) :
    scan (quote name ++ rest) = .ident name :: scan rest := by
  rw [quote]
  simp only [List.cons_append,List.append_assoc,List.nil_append]
  rw [scan,if_pos rfl,quoted_double h]

theorem scan_empty {rest : Text} (h : Stops rest) :
    scan ('\'' :: '\'' :: rest) = .string [] :: scan rest := by
  rw [scan,if_neg (by decide),if_pos rfl]
  cases rest with
  | nil => rfl
  | cons d rest => rw [quoted,if_pos rfl,if_neg (h d rfl).2.1]

theorem digits_stop {rest : Text} (h : Stops rest) : digits rest = [] ∧ pastDigits rest = rest := by
  cases rest with
  | nil => exact ⟨rfl,rfl⟩
  | cons d rest =>
    have hd := (h d rfl).2.2
    constructor
    · simp [digits,hd]
    · simp [pastDigits,hd]

theorem scan_mark {rest : Text} (h : Stops rest) : scan ('?' :: rest) = .hole none :: scan rest := by
  obtain ⟨hdigits,hpast⟩ := digits_stop h
  rw [scan,if_neg (by decide),if_neg (by decide),if_pos (.inl rfl),hdigits,hpast]
  rfl

theorem isDigit_toDigits (n : Nat) : ∀ c ∈ Nat.toDigits 10 n, isDigit c.toNat = true := by
  intro c hc
  have hdigit : c.isDigit = true := Nat.isDigit_of_mem_toDigits (by decide) (Nat.le_refl 10) hc
  rw [Char.isDigit,Bool.and_eq_true,decide_eq_true_iff,decide_eq_true_iff] at hdigit
  rw [isDigit,Bool.and_eq_true,decide_eq_true_iff,decide_eq_true_iff]
  exact hdigit

theorem plainChar_digit {c : Char} (h : isDigit c.toNat = true) : plainChar c = true := by
  rw [isDigit,Bool.and_eq_true,decide_eq_true_iff,decide_eq_true_iff] at h
  have hne (d : Char) (hd : d.toNat < 48) : (c != d) = true := by
    rw [bne_iff_ne]
    rintro rfl
    omega
  simp only [plainChar,hne '"' (by decide),hne '\'' (by decide),hne '$' (by decide),Bool.and_true,
    Bool.true_and,bne_iff_ne]
  rintro rfl
  exact absurd h.2 (by decide)

theorem plain_append {s t : Text} : Plain (s ++ t) ↔ Plain s ∧ Plain t := by
  simp only [Plain,List.all_append,Bool.and_eq_true]

theorem plain_cons {c : Char} {s : Text} : Plain (c :: s) ↔ plainChar c = true ∧ Plain s := by
  simp only [Plain,List.all_cons,Bool.and_eq_true]

theorem plain_digits {s : Text} (h : ∀ c ∈ s, isDigit c.toNat = true) : Plain s :=
  List.all_eq_true.mpr fun c hc => plainChar_digit (h c hc)

theorem plain_many {s : Text} : Plain (many isDigit s).1 :=
  plain_digits fun _ hc => List.mem_takeWhile_imp (p := fun c => isDigit (Coded.code c)) hc

theorem plain_of_many {s : Text} (h : Plain (many isDigit s).2) : Plain s := by
  have hs : (many isDigit s).1 ++ (many isDigit s).2 = s := List.takeWhile_append_dropWhile
  rw [← hs]
  exact (plain_append).mpr ⟨plain_many,h⟩

theorem plain_seamPacked {code : Text} (h : seamPacked code = true) : Plain code.tail := by
  unfold seamPacked at h
  split at h
  · next s =>
    dsimp only at h
    split at h
    · next t ht =>
      have hdec := (of_decide_eq_true h).2.2
      have htail : Plain t := plain_of_many (hdec ▸ (by decide : Plain [')']))
      exact (plain_cons).mpr ⟨rfl,plain_of_many (ht ▸ (plain_cons).mpr ⟨rfl,htail⟩)⟩
    · cases h
  · cases h

theorem plain_seamLength {letter : Char} {code k : Text} (h : seamLength letter code = some k) :
    Plain code.tail := by
  unfold seamLength at h
  split at h
  · dsimp only at h
    split at h
    · next hs => exact (plain_cons).mpr ⟨rfl,plain_of_many (hs.2.2 ▸ (by decide : Plain [')']))⟩
    · cases h
  · cases h

theorem plain_postgresType {code pg : Text} (h : postgresType code = .ok pg) : Plain pg := by
  unfold postgresType at h
  split at h
  · cases h
    decide
  split at h
  · cases h
    decide
  split at h
  · next hpacked =>
    cases h
    exact (plain_append).mpr ⟨by decide,plain_seamPacked hpacked⟩
  split at h
  · next hlength =>
    cases h
    obtain ⟨k,hk⟩ := Option.isSome_iff_exists.mp hlength
    exact (plain_append).mpr ⟨by decide,plain_seamLength hk⟩
  split at h
  · cases h
    decide
  split at h
  · cases h
    exact (plain_append).mpr
      ⟨(plain_append).mpr ⟨by decide,plain_digits (isDigit_toDigits _)⟩,by decide⟩
  · cases h

theorem scan_numbered {n : Nat} {rest : Text} (h : Stops rest) :
    scan ('$' :: (Nat.toDigits 10 n ++ rest)) = .hole (some n) :: scan rest := by
  obtain ⟨hdigits,hpast⟩ := digits_stop h
  have hall := isDigit_toDigits n
  have htake : digits (Nat.toDigits 10 n ++ rest) = Nat.toDigits 10 n := by
    rw [digits,List.takeWhile_append_of_pos hall]
    exact (congrArg (Nat.toDigits 10 n ++ ·) hdigits).trans (List.append_nil _)
  have hdrop : pastDigits (Nat.toDigits 10 n ++ rest) = rest := by
    rw [pastDigits,List.dropWhile_append_of_pos hall]
    exact hpast
  have hnumber : numberOf (Nat.toDigits 10 n) = some n := by
    have hne : Nat.toDigits 10 n ≠ [] := Nat.toDigits_ne_nil
    rw [numberOf,if_neg hne,Nat.ofDigitChars_ten_toDigits]
  rw [scan,if_neg (by decide),if_neg (by decide),if_pos (.inr rfl),htake,hdrop,hnumber]

def Dialect.number (dialect : Dialect) (n : Nat) : Option Nat :=
  if dialect = .postgres then some n else none

theorem scan_around (before : Text) {after : Text} (rest : Text) (hb : Plain before) (ha : Plain after)
    (hstop : Stops (after ++ rest)) :
    scan (before ++ '?' :: (after ++ rest)) = .hole none :: scan rest := by
  rw [scan_plain hb,scan_mark hstop,scan_plain ha]

theorem scan_placeholder {n : Nat} {code s rest : Text}
    (h : placeholder casing dialect n code = .ok s) (hrest : Stops rest) :
    scan (s ++ rest) = .hole (dialect.number n) :: scan rest := by
  have hbare : scan (['?'] ++ rest) = .hole none :: scan rest := scan_mark hrest
  have hcast (t : Text) (ht : Plain t) :
      scan (("CAST(? AS DECIMAL".toList ++ t ++ [')']) ++ rest) = .hole none :: scan rest := by
    have hafter : Plain (" AS DECIMAL".toList ++ (t ++ [')'])) :=
      (plain_append).mpr ⟨by decide,(plain_append).mpr ⟨ht,by decide⟩⟩
    have hall := scan_around "CAST(".toList rest (by decide) hafter (by
      rintro c ⟨⟩
      decide)
    simpa using hall
  have hword (t : Text) (ht : Plain t) (hhead : Stops (t ++ rest)) :
      scan (("CAST(?".toList ++ t) ++ rest) = .hole none :: scan rest := by
    have hall := scan_around "CAST(".toList rest (by decide) ht hhead
    simpa using hall
  unfold placeholder at h
  cases dialect with
  | sqlite =>
    dsimp only at h
    rw [← Except.ok.inj h]
    split
    · exact hword " AS INTEGER)".toList (by decide) (by rintro c ⟨⟩; decide)
    split
    · exact hword " AS NUMERIC)".toList (by decide) (by rintro c ⟨⟩; decide)
    · exact hbare
  | duckdb =>
    dsimp only at h
    rw [← Except.ok.inj h]
    split
    · next hp => exact hcast _ (plain_seamPacked hp)
    · exact hbare
  | postgres =>
    obtain ⟨pg,hpg,hret⟩ := bind_eq_ok h
    cases hret
    have hstop : Stops ("::".toList ++ pg ++ rest) := by
      rintro c ⟨⟩
      decide
    have hplain : Plain ("::".toList ++ pg) := (plain_append).mpr ⟨by decide,plain_postgresType hpg⟩
    have hall := scan_numbered (n := n) hstop
    rw [scan_plain hplain] at hall
    simpa [Dialect.number] using hall
  | hana =>
    dsimp only at h
    rw [← Except.ok.inj h]
    split
    · exact hword " AS INTEGER)".toList (by decide) (by rintro c ⟨⟩; decide)
    split
    · exact hword " AS DOUBLE)".toList (by decide) (by rintro c ⟨⟩; decide)
    split
    · next hp => exact hcast _ (plain_seamPacked hp)
    · exact hbare

end OpenSteamgate.Osql
