import Mathlib.Data.List.DropRight
import Mathlib.Data.Rat.Cast.Order
import Mathlib.Tactic.Linarith
import Mathlib.Tactic.FieldSimp
import Mathlib.Tactic.Ring
import Mathlib.Algebra.Order.Field.Power

namespace Decimal

variable {t u ip fp : List Char} {neg : Bool} {k n : ℕ}

def numeral (t : List Char) : ℕ := Nat.ofDigitChars 10 t 0

def Digits (t : List Char) : Prop := ∀ c ∈ t, c.isDigit = true

theorem digits_append : Digits (t ++ u) ↔ Digits t ∧ Digits u := by
  simp only [Digits,List.mem_append]
  exact ⟨fun h => ⟨fun c hc => h c (.inl hc),fun c hc => h c (.inr hc)⟩,
    fun h c hc => hc.elim (h.1 c) (h.2 c)⟩

theorem digits_zeros (k : ℕ) : Digits (List.replicate k '0') := by
  intro c hc
  rw [List.eq_of_mem_replicate hc]
  rfl

theorem digits_decimal (n : ℕ) : Digits (Nat.toDigits 10 n) :=
  fun _ hc => Nat.isDigit_of_mem_toDigits (by decide) (by decide) hc

theorem Digits.not_mem {c : Char} (h : Digits t) (hc : c.isDigit = false) : c ∉ t := by
  intro hmem
  rw [h c hmem] at hc
  exact Bool.noConfusion hc

theorem numeral_append (t u : List Char) :
    numeral (t ++ u) = numeral t * 10 ^ u.length + numeral u := by
  rw [numeral,Nat.ofDigitChars_append,Nat.ofDigitChars_eq_ofDigitChars_zero,mul_comm]
  rfl

theorem numeral_zeros (k : ℕ) : numeral (List.replicate k '0') = 0 := by
  rw [numeral,Nat.ofDigitChars_replicate_zero,Nat.mul_zero]

@[simp]
theorem numeral_decimal (n : ℕ) : numeral (Nat.toDigits 10 n) = n := Nat.ofDigitChars_ten_toDigits

theorem decimal_lt (n : ℕ) : n < 10 ^ (Nat.toDigits 10 n).length :=
  (Nat.length_toDigits_le_iff (by decide) Nat.length_toDigits_pos).mp le_rfl

theorem decimal_le (hn : n ≠ 0) : 10 ^ ((Nat.toDigits 10 n).length - 1) ≤ n := by
  have hpos : 0 < (Nat.toDigits 10 n).length := Nat.length_toDigits_pos
  rcases Nat.eq_zero_or_pos ((Nat.toDigits 10 n).length - 1) with h | h
  · rw [h,pow_zero]
    omega
  · have hshort : ¬(Nat.toDigits 10 n).length ≤ (Nat.toDigits 10 n).length - 1 := by omega
    rw [Nat.length_toDigits_le_iff (by decide) h] at hshort
    omega

def pad (k : ℕ) (t : List Char) : List Char :=
  if t.length ≤ k then List.replicate (k - t.length + 1) '0' ++ t else t

theorem numeral_pad (k : ℕ) (t : List Char) : numeral (pad k t) = numeral t := by
  rw [pad]
  split
  · rw [numeral_append,numeral_zeros,Nat.zero_mul,Nat.zero_add]
  · rfl

theorem digits_pad (h : Digits t) : Digits (pad k t) := by
  rw [pad]
  split
  · exact (digits_append).mpr ⟨digits_zeros _,h⟩
  · exact h

theorem length_pad (k : ℕ) (t : List Char) : k < (pad k t).length := by
  rw [pad]
  split
  · rw [List.length_append,List.length_replicate]
    omega
  · omega

theorem pad_split (k n : ℕ) :
    let t := pad k (Nat.toDigits 10 n)
    let ip := t.take (t.length - k)
    let fp := t.drop (t.length - k)
    Digits ip ∧ ip ≠ [] ∧ Digits fp ∧ fp.length = k ∧ numeral (ip ++ fp) = n := by
  intro t ip fp
  have hlen : k < t.length := length_pad k _
  have hdigits : Digits (ip ++ fp) := by
    rw [List.take_append_drop]
    exact digits_pad (digits_decimal n)
  rw [digits_append] at hdigits
  refine ⟨hdigits.1,?_,hdigits.2,?_,?_⟩
  · rw [← List.length_pos_iff_ne_nil,List.length_take]
    omega
  · rw [List.length_drop]
    omega
  · rw [List.take_append_drop,numeral_pad,numeral_decimal]

def sign (neg : Bool) : List Char := if neg then ['-'] else []

def signed (neg : Bool) (q : ℚ) : ℚ := if neg then -q else q

def amount (neg : Bool) (ip fp : List Char) : ℚ :=
  signed neg (numeral (ip ++ fp) : ℚ) / 10 ^ fp.length

theorem amount_neg (neg : Bool) (ip fp : List Char) : amount (!neg) ip fp = -amount neg ip fp := by
  cases neg <;> simp [amount,signed,neg_div]

theorem amount_zeros (neg : Bool) (ip fp : List Char) (j : ℕ) :
    amount neg ip (fp ++ List.replicate j '0') = amount neg ip fp := by
  have hpow : (10 : ℚ) ^ j ≠ 0 := by positivity
  rw [amount,amount,← List.append_assoc,numeral_append,numeral_zeros,List.length_append,
    List.length_replicate,Nat.add_zero,pow_add]
  cases neg <;> simp only [signed] <;> push_cast <;> field_simp

theorem rdrop_zeros (t : List Char) :
    ∃ j,t = t.rdropWhile (· == '0') ++ List.replicate j '0' := by
  refine ⟨(t.rtakeWhile (· == '0')).length,?_⟩
  have hzeros : t.rtakeWhile (· == '0') = List.replicate (t.rtakeWhile (· == '0')).length '0' :=
    List.eq_replicate_iff.mpr ⟨rfl,fun c hc => by simpa using List.mem_rtakeWhile_imp hc⟩
  rw [← hzeros,List.rdropWhile_append_rtakeWhile]

end Decimal

namespace Decimal

variable {t u : List Char} {k n m : ℕ}

def fixed (k n : ℕ) : List Char := List.replicate (k - (Nat.toDigits 10 n).length) '0' ++ Nat.toDigits 10 n

theorem numeral_fixed (k n : ℕ) : numeral (fixed k n) = n := by
  rw [fixed,numeral_append,numeral_zeros,numeral_decimal,Nat.zero_mul,Nat.zero_add]

theorem digits_fixed (k n : ℕ) : Digits (fixed k n) := (digits_append).mpr ⟨digits_zeros _,digits_decimal n⟩

theorem length_fixed (hk : 0 < k) (h : n < 10 ^ k) : (fixed k n).length = k := by
  have hle : (Nat.toDigits 10 n).length ≤ k := (Nat.length_toDigits_le_iff (by decide) hk).mpr h
  rw [fixed,List.length_append,List.length_replicate]
  omega

theorem numeral_cons (c : Char) (t : List Char) :
    numeral (c :: t) = (c.toNat - '0'.toNat) * 10 ^ t.length + numeral t := by
  have hone : numeral [c] = c.toNat - '0'.toNat := by
    rw [numeral,Nat.ofDigitChars_cons,Nat.ofDigitChars_nil,Nat.mul_zero,Nat.zero_add]
  rw [← List.singleton_append,numeral_append,hone]

theorem isDigit_iff (c : Char) : c.isDigit = true ↔ 48 ≤ c.toNat ∧ c.toNat ≤ 57 := by
  unfold Char.isDigit Char.toNat
  rw [Bool.and_eq_true,decide_eq_true_eq,decide_eq_true_eq]
  exact Iff.rfl

theorem Digits.tail {c : Char} (h : Digits (c :: t)) : Digits t := fun d hd => h d (List.mem_cons_of_mem _ hd)

theorem Digits.head {c : Char} (h : Digits (c :: t)) : 48 ≤ c.toNat ∧ c.toNat ≤ 57 :=
  (isDigit_iff c).mp (h c List.mem_cons_self)

theorem numeral_lt (h : Digits t) : numeral t < 10 ^ t.length := by
  induction t with
  | nil => exact Nat.one_pos
  | cons c t ih =>
    have htail := ih h.tail
    have hhead : c.toNat - '0'.toNat ≤ 9 := by
      have := h.head
      change c.toNat - 48 ≤ 9
      omega
    have hmul := Nat.mul_le_mul_right (10 ^ t.length) hhead
    rw [numeral_cons,List.length_cons,Nat.pow_succ]
    omega

theorem lt_iff_numeral (ht : Digits t) (hu : Digits u) (hlength : t.length = u.length) :
    t < u ↔ numeral t < numeral u := by
  induction t generalizing u with
  | nil =>
    rw [List.length_nil] at hlength
    rw [List.eq_nil_of_length_eq_zero hlength.symm]
    exact iff_of_false (List.lt_irrefl _) (Nat.lt_irrefl _)
  | cons c t ih =>
    cases u with
    | nil => cases hlength
    | cons d u =>
      have hlength : t.length = u.length := Nat.succ.inj hlength
      have htail := ih ht.tail hu.tail hlength
      have hc := ht.head
      have hd := hu.head
      have hlow := numeral_lt ht.tail
      have hhigh := numeral_lt hu.tail
      have hzero : '0'.toNat = 48 := rfl
      rw [List.cons_lt_cons_iff,htail,numeral_cons,numeral_cons,hlength,hzero]
      rw [hlength] at hlow
      have hlt : c < d ↔ c.toNat < d.toNat := Iff.rfl
      have heq : c = d ↔ c.toNat = d.toNat := ⟨fun h => h ▸ rfl,Char.toNat_inj.mp⟩
      rw [hlt,heq]
      rcases Nat.lt_trichotomy c.toNat d.toNat with hcd | hcd | hcd
      · have hmul : (c.toNat - 48 + 1) * 10 ^ u.length ≤ (d.toNat - 48) * 10 ^ u.length :=
          Nat.mul_le_mul_right _ (by omega)
        rw [Nat.add_mul,Nat.one_mul] at hmul
        exact iff_of_true (.inl hcd) (by omega)
      · rw [hcd]
        omega
      · have hmul : (d.toNat - 48 + 1) * 10 ^ u.length ≤ (c.toNat - 48) * 10 ^ u.length :=
          Nat.mul_le_mul_right _ (by omega)
        rw [Nat.add_mul,Nat.one_mul] at hmul
        exact iff_of_false (by omega) (by omega)

theorem numeral_inj (ht : Digits t) (hu : Digits u) (hlength : t.length = u.length)
    (h : numeral t = numeral u) : t = u := by
  induction t generalizing u with
  | nil => exact (List.eq_nil_of_length_eq_zero hlength.symm).symm
  | cons c t ih =>
    cases u with
    | nil => cases hlength
    | cons d u =>
      have htails : t.length = u.length := Nat.succ.inj hlength
      have hnot : ¬c :: t < d :: u := fun hlt =>
        Nat.ne_of_lt ((lt_iff_numeral ht hu hlength).mp hlt) h
      have hnot' : ¬d :: u < c :: t := fun hlt =>
        Nat.ne_of_lt ((lt_iff_numeral hu ht hlength.symm).mp hlt) h.symm
      have hhead : c = d := by
        rcases Nat.lt_trichotomy c.toNat d.toNat with hcd | hcd | hcd
        · exact (hnot (List.cons_lt_cons_iff.mpr (.inl hcd))).elim
        · exact Char.toNat_inj.mp hcd
        · exact (hnot' (List.cons_lt_cons_iff.mpr (.inl hcd))).elim
      subst hhead
      rw [numeral_cons,numeral_cons,htails] at h
      rw [ih ht.tail hu.tail htails (Nat.add_left_cancel h)]

def intText (v : ℤ) : List Char :=
  if v < 0 then '-' :: Nat.toDigits 10 v.natAbs else Nat.toDigits 10 v.natAbs

def digitsOnly (t : List Char) : Option ℤ :=
  if t ≠ [] ∧ t.all Char.isDigit then some (numeral t) else none

def setString : List Char → Option ℤ
  | '-' :: t => (digitsOnly t).map (- ·)
  | '+' :: t => digitsOnly t
  | t => digitsOnly t

def atoi (t : List Char) : Option ℤ := (setString t).filter fun x => -2 ^ 63 ≤ x ∧ x < 2 ^ 63

theorem digitsOnly_digits (h : Digits t) (hne : t ≠ []) : digitsOnly t = some (numeral t : ℤ) := by
  rw [digitsOnly,if_pos ⟨hne,List.all_eq_true.mpr h⟩]

theorem setString_digits (h : Digits t) (hne : t ≠ []) : setString t = some (numeral t : ℤ) := by
  rw [setString.eq_def]
  split
  · exact absurd (h '-' (by simp)) (by decide)
  · exact absurd (h '+' (by simp)) (by decide)
  · exact digitsOnly_digits h hne

end Decimal
