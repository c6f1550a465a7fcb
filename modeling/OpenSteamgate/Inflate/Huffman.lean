import OpenSteamgate.Library.CanonicalCode

namespace OpenSteamgate.Inflate

open Bits CanonicalCode

def inflWindow : Nat := 32768

def inflFastBits : Nat := 9

def inflMaxBits : Nat := 15

def countLengths (lengths : List Nat) : List Nat :=
  lengths.foldl (fun count l => if 0 < l then count.set l (count.getD l 0 + 1) else count)
    (List.replicate 16 0)

def leftOver (count : List Nat) : Option Nat :=
  (List.range' 1 inflMaxBits).foldlM (fun left l =>
    if left * 2 < count.getD l 0 then none else some (left * 2 - count.getD l 0)) 1

def offsets (count : List Nat) : List Nat :=
  (List.range' 1 14).foldl (fun offs l => offs.set (l + 1) (offs.getD l 0 + count.getD l 0))
    (List.replicate 16 0)

def sortSymbols : List Nat → Nat → List Nat → List Nat → List Nat
  | [], _, _, symbol => symbol
  | l :: lengths, sym, offs, symbol =>
      if 0 < l then
        sortSymbols lengths (sym + 1) (offs.set l (offs.getD l 0 + 1)) (symbol.set (offs.getD l 0) sym)
      else sortSymbols lengths (sym + 1) offs symbol

def reverseCode (l code : Nat) : Nat :=
  (List.range l).foldl (fun rev b => rev ||| ((code >>> b) &&& 1) <<< (l - 1 - b)) 0

def mark (fast : List Nat) (l rev e : Nat) : List Nat :=
  (List.range' rev ((2 ^ inflFastBits - rev + (2 ^ l - 1)) / 2 ^ l) (2 ^ l)).foldl
    (fun fast j => fast.set j e) fast

structure Filling where
  fast : List Nat
  code : Nat
  idx : Nat

def Filling.add (symbol : List Nat) (l : Nat) (f : Filling) : Filling :=
  ⟨mark f.fast l (reverseCode l f.code) (symbol.getD f.idx 0 <<< 4 ||| l),f.code + 1,f.idx + 1⟩

def Filling.level (count symbol : List Nat) (f : Filling) (l : Nat) : Filling :=
  let f := (Filling.add symbol l)^[count.getD l 0] f
  { f with code := f.code <<< 1 }

def fastTable (count symbol : List Nat) : List Nat :=
  ((List.range' 1 inflFastBits).foldl (Filling.level count symbol)
    ⟨List.replicate (2 ^ inflFastBits) 0,0,0⟩).fast

def readCode (count symbol : List Nat) : Reader Bool String Nat := fun bits =>
  match locate (fun l => count.getD l 0) inflMaxBits bits with
  | .more => .more
  | .fail _ => .fail "invalid Huffman code"
  | .ok (i,rest) => .ok (symbol.getD i 0,rest)

def FastSound (count symbol fast : List Nat) : Prop :=
  ∀ bits, fast.getD (val (bits.take inflFastBits)) 0 ≠ 0 →
    0 < fast.getD (val (bits.take inflFastBits)) 0 % 16 ∧
    (fast.getD (val (bits.take inflFastBits)) 0 % 16 ≤ bits.length →
      readCode count symbol bits = .ok (fast.getD (val (bits.take inflFastBits)) 0 / 16,
        bits.drop (fast.getD (val (bits.take inflFastBits)) 0 % 16)))

structure Huff where
  count : List Nat
  symbol : List Nat
  fast : List Nat
  sound : FastSound count symbol fast

theorem getD_set {α : Type} (l : List α) (i j : Nat) (a d : α) :
    (l.set i a).getD j d = if i = j ∧ i < l.length then a else l.getD j d := by
  simp only [List.getD_eq_getElem?_getD,List.getElem?_set]
  by_cases hij : i = j
  · subst hij
    by_cases hi : i < l.length
    · simp [hi]
    · simp [hi]
  · simp [hij]

theorem getD_replicate (n j : Nat) : (List.replicate n 0).getD j 0 = 0 := by
  rw [List.getD_eq_getElem?_getD,List.getElem?_replicate]
  split_ifs <;> rfl

theorem getD_count (lengths : List Nat) (hmax : ∀ l ∈ lengths,l ≤ inflMaxBits) {l : Nat}
    (hl : 0 < l) : (countLengths lengths).getD l 0 = lengths.count l := by
  have hgen : ∀ (lengths count : List Nat),(∀ l ∈ lengths,l ≤ inflMaxBits) → count.length = 16 →
      (lengths.foldl (fun count l => if 0 < l then count.set l (count.getD l 0 + 1) else count)
        count).getD l 0 = count.getD l 0 + lengths.count l := by
    intro lengths
    induction lengths with
    | nil =>
      intros
      simp
    | cons x lengths ih =>
      intro count hmax hlen
      rw [List.forall_mem_cons] at hmax
      rw [List.foldl_cons,List.count_cons]
      have hx := hmax.1
      simp only [inflMaxBits] at hx
      by_cases hpos : 0 < x
      · rw [if_pos hpos,ih _ hmax.2 (by simpa using hlen),getD_set]
        by_cases he : x = l
        · subst he
          rw [if_pos ⟨rfl,by omega⟩]
          simp
          omega
        · rw [if_neg fun hc => he hc.1]
          simp [he]
      · rw [if_neg hpos,ih _ hmax.2 hlen,beq_false_of_ne (by omega)]
        simp
  rw [countLengths,hgen lengths _ hmax (by simp),getD_replicate,Nat.zero_add]


theorem leftOver_used {count : List Nat} {left : Nat} (h : leftOver count = some left) :
    left + used (fun l => count.getD l 0) inflMaxBits = 2 ^ inflMaxBits := by
  have hgen : ∀ n start left left' : Nat,
      left + used (fun l => count.getD l 0) start = 2 ^ start →
      (List.range' (start + 1) n).foldlM (fun left l =>
        if left * 2 < count.getD l 0 then none else some (left * 2 - count.getD l 0)) left = some left' →
      left' + used (fun l => count.getD l 0) (start + n) = 2 ^ (start + n) := by
    intro n
    induction n with
    | zero =>
      intro start left left' hu he
      cases he
      exact hu
    | succ n ih =>
      intro start left left' hu he
      rw [List.range'_succ,List.foldlM_cons] at he
      split_ifs at he with hlt
      · cases he
      · rw [← Nat.add_assoc,Nat.add_right_comm]
        refine ih (start + 1) _ left' ?_ he
        rw [used,Nat.pow_succ]
        omega
  have := hgen 15 0 1 left (by simp [used]) h
  simpa [inflMaxBits] using this

theorem leftOver_fits {count : List Nat} {left : Nat} (h : leftOver count = some left) :
    Fits (fun l => count.getD l 0) inflMaxBits :=
  fits_of_used (by have := leftOver_used h; omega)

theorem leftOver_of_fits {count : List Nat} (h : Fits (fun l => count.getD l 0) inflMaxBits) :
    leftOver count = some (2 ^ inflMaxBits - used (fun l => count.getD l 0) inflMaxBits) := by
  have hgen : ∀ n start left : Nat,start + n ≤ 15 → left + used (fun l => count.getD l 0) start = 2 ^ start →
      ∃ left',(List.range' (start + 1) n).foldlM (fun left l =>
        if left * 2 < count.getD l 0 then none else some (left * 2 - count.getD l 0)) left =
          some left' := by
    intro n
    induction n with
    | zero => exact fun start left _ _ => ⟨left,rfl⟩
    | succ n ih =>
      intro start left hn hu
      have hfit := h (start + 1) (by simp only [inflMaxBits]; omega)
      rw [used,Nat.pow_succ] at hfit
      rw [List.range'_succ,List.foldlM_cons,if_neg (by omega)]
      exact ih (start + 1) _ (by omega) (by rw [used,Nat.pow_succ]; omega)
  obtain ⟨left,hl⟩ := hgen 15 0 1 (by omega) (by simp [used])
  have hl' : leftOver count = some left := hl
  have := leftOver_used hl'
  rw [hl',Option.some.injEq]
  omega

theorem reverseCode_eq (l code : Nat) : reverseCode l code = val (msb l code) := by
  have hgen : ∀ n l,n ≤ l → (List.range n).foldl
      (fun rev b => rev ||| ((code >>> b) &&& 1) <<< (l - 1 - b)) 0 =
        val (msb n code) <<< (l - n) := by
    intro n
    induction n with
    | zero =>
      intro l _
      simp [msb,val]
    | succ n ih =>
      intro l hl
      have hbit : code >>> n &&& 1 = (code.testBit n).toNat := by
        rw [Nat.testBit,Nat.and_comm]
        rcases Nat.mod_two_eq_zero_or_one (code >>> n) with h | h <;>
          simp [Nat.one_and_eq_mod_two,h]
      rw [List.range_succ,List.foldl_append,List.foldl_cons,List.foldl_nil,ih l (by omega),hbit,msb,val]
      have hs : l - n = l - (n + 1) + 1 := by omega
      have hs' : l - 1 - n = l - (n + 1) := by omega
      have hor := or_shiftLeft (m := 1) (Bool.toNat_lt (code.testBit n)) (val (msb n code))
      rw [hs,hs',Nat.shiftLeft_succ_inside,← Nat.shiftLeft_or_distrib,Nat.or_comm]
      rw [Nat.shiftLeft_eq,Nat.pow_one,Nat.mul_comm] at hor
      rw [hor]
  have h := hgen l l (le_refl l)
  rwa [Nat.sub_self,Nat.shiftLeft_zero] at h

def FastCell (count symbol : List Nat) (fast : List Nat) : Prop :=
  ∀ j, fast.getD j 0 ≠ 0 → ∃ l i, l < inflFastBits ∧ i < count.getD (l + 1) 0 ∧
    j % 2 ^ (l + 1) = val (msb (l + 1) (2 * used (fun l => count.getD l 0) l + i)) ∧
    fast.getD j 0 = symbol.getD (upTo (fun l => count.getD l 0) l + i) 0 <<< 4 ||| (l + 1)

theorem mark_getD (fast : List Nat) (l rev e j : Nat) :
    (mark fast l rev e).getD j 0 = fast.getD j 0 ∨
      (∃ m,j = rev + 2 ^ l * m) ∧ (mark fast l rev e).getD j 0 = e := by
  have hgen : ∀ (js fast : List Nat),(js.foldl (fun fast j => fast.set j e) fast).getD j 0 =
      fast.getD j 0 ∨ j ∈ js ∧ (js.foldl (fun fast j => fast.set j e) fast).getD j 0 = e := by
    intro js
    induction js with
    | nil => exact fun _ => .inl rfl
    | cons j' js ih =>
      intro fast
      rw [List.foldl_cons]
      rcases ih (fast.set j' e) with he | ⟨hj,he⟩
      · rw [he,getD_set]
        split_ifs with hset
        · exact .inr ⟨hset.1 ▸ List.mem_cons_self ..,rfl⟩
        · exact .inl rfl
      · exact .inr ⟨List.mem_cons_of_mem _ hj,he⟩
  rcases hgen (List.range' rev ((2 ^ inflFastBits - rev + (2 ^ l - 1)) / 2 ^ l) (2 ^ l)) fast
    with he | ⟨hj,he⟩
  · exact .inl he
  · rw [List.mem_range'] at hj
    obtain ⟨m,-,hm⟩ := hj
    exact .inr ⟨⟨m,hm⟩,he⟩

theorem level_cells {count symbol : List Nat} {f : Filling} {l : Nat} (hl : l < inflFastBits)
    (hf : FastCell count symbol f.fast) (hcode : f.code = 2 * used (fun l => count.getD l 0) l)
    (hidx : f.idx = upTo (fun l => count.getD l 0) l) :
    FastCell count symbol (f.level count symbol (l + 1)).fast ∧
      (f.level count symbol (l + 1)).code = 2 * used (fun l => count.getD l 0) (l + 1) ∧
      (f.level count symbol (l + 1)).idx = upTo (fun l => count.getD l 0) (l + 1) := by
  have hgen : ∀ i,i ≤ count.getD (l + 1) 0 → FastCell count symbol ((Filling.add symbol (l + 1))^[i] f).fast ∧
        ((Filling.add symbol (l + 1))^[i] f).code = 2 * used (fun l => count.getD l 0) l + i ∧
        ((Filling.add symbol (l + 1))^[i] f).idx = upTo (fun l => count.getD l 0) l + i := by
    intro i
    induction i with
    | zero => exact fun _ => ⟨hf,hcode,hidx⟩
    | succ i ih =>
      intro hi
      obtain ⟨hcells,hc,hx⟩ := ih (by omega)
      rw [Function.iterate_succ_apply']
      refine ⟨fun j hj => ?_,by rw [Filling.add,hc]; rfl,by rw [Filling.add,hx]; rfl⟩
      simp only [Filling.add] at hj ⊢
      rcases mark_getD ((Filling.add symbol (l + 1))^[i] f).fast (l + 1)
        (reverseCode (l + 1) ((Filling.add symbol (l + 1))^[i] f).code)
        (symbol.getD ((Filling.add symbol (l + 1))^[i] f).idx 0 <<< 4 ||| (l + 1)) j
        with he | ⟨⟨m,hm⟩,he⟩
      · rw [he] at hj ⊢
        exact hcells j hj
      · refine ⟨l,i,hl,hi,?_,by rw [he,hx]⟩
        have hlt := val_lt (msb (l + 1) (2 * used (fun l => count.getD l 0) l + i))
        rw [length_msb] at hlt
        rw [hm,hc,reverseCode_eq,Nat.add_mul_mod_self_left,Nat.mod_eq_of_lt hlt]
  obtain ⟨hcells,hc,hx⟩ := hgen _ (le_refl _)
  refine ⟨hcells,?_,hx⟩
  simp only [Filling.level,hc,Nat.shiftLeft_eq]
  rw [used]
  ring

theorem fastTable_cells (count symbol : List Nat) :
    FastCell count symbol (fastTable count symbol) := by
  have hgen : ∀ n start f,start + n ≤ inflFastBits → FastCell count symbol f.fast →
      f.code = 2 * used (fun l => count.getD l 0) start → f.idx = upTo (fun l => count.getD l 0) start →
      FastCell count symbol
        ((List.range' (start + 1) n).foldl (Filling.level count symbol) f).fast := by
    intro n
    induction n with
    | zero => exact fun _ _ _ hf _ _ => hf
    | succ n ih =>
      intro start f hn hf hc hx
      simp only [inflFastBits] at hn
      obtain ⟨hf',hc',hx'⟩ := level_cells (by simp only [inflFastBits]; omega) hf hc hx
      exact ih (start + 1) _ (by simp only [inflFastBits]; omega) hf' hc' hx'
  refine hgen inflFastBits 0 _ (le_refl _) (fun j hj => ?_) rfl rfl
  rw [getD_replicate] at hj
  exact (hj rfl).elim

theorem entry_split (sym : Nat) {l : Nat} (hl : l < 16) :
    (sym <<< 4 ||| l) / 16 = sym ∧ (sym <<< 4 ||| l) % 16 = l := by
  rw [Nat.or_comm,or_shiftLeft (m := 4) hl]
  omega

theorem FastCell.sound {count symbol fast : List Nat} (hf : FastCell count symbol fast)
    (hfits : Fits (fun l => count.getD l 0) inflMaxBits) : FastSound count symbol fast := by
  intro bits hne
  obtain ⟨l,i,hl,hi,hj,he⟩ := hf _ hne
  simp only [inflFastBits] at hl
  obtain ⟨hsym,hlen⟩ := entry_split (symbol.getD (upTo (fun l => count.getD l 0) l + i) 0)
    (l := l + 1) (by omega)
  rw [he,hsym,hlen]
  refine ⟨Nat.succ_pos l,fun hbits => ?_⟩
  have htake : (bits.take inflFastBits).take (l + 1) = bits.take (l + 1) := by
    rw [List.take_take,Nat.min_eq_left (by simp only [inflFastBits]; omega)]
  have hlenTake : (bits.take (l + 1)).length = l + 1 := by
    rw [List.length_take]
    omega
  have hval : val (bits.take (l + 1)) =
      val (msb (l + 1) (2 * used (fun l => count.getD l 0) l + i)) := by
    have hsplit := List.take_append_drop (l + 1) (bits.take inflFastBits)
    rw [htake] at hsplit
    have hlt := val_lt (bits.take (l + 1))
    rw [hlenTake] at hlt
    rw [← hj,← hsplit,val_append,hlenTake,Nat.add_mul_mod_self_left,Nat.mod_eq_of_lt hlt]
  have hword : bits.take (l + 1) = msb (l + 1) (2 * used (fun l => count.getD l 0) l + i) := by
    rw [← lsb_val (bits.take (l + 1)),hval,hlenTake]
    conv_rhs => rw [← lsb_val (msb (l + 1) (2 * used (fun l => count.getD l 0) l + i)),length_msb]
  have hfit := hfits (l + 1) (by simp only [inflMaxBits]; omega)
  have hloc : locate (fun l => count.getD l 0) inflMaxBits
      (msb (l + 1) (2 * used (fun l => count.getD l 0) l + i) ++ bits.drop (l + 1)) = _ :=
    locate_codeword hi hfit (by simp only [inflMaxBits]; omega) _
  rw [← hword,List.take_append_drop] at hloc
  simp only [readCode,hloc]

def tableOf (lengths : List Nat) {left : Nat} (h : leftOver (countLengths lengths) = some left) :
    Huff where
  count := countLengths lengths
  symbol := sortSymbols lengths 0 (offsets (countLengths lengths)) (List.replicate lengths.length 0)
  fast := fastTable (countLengths lengths)
    (sortSymbols lengths 0 (offsets (countLengths lengths)) (List.replicate lengths.length 0))
  sound := (fastTable_cells _ _).sound (leftOver_fits h)

def inflBuild (lengths : List Nat) : Except String (Huff × Nat) :=
  match h : leftOver (countLengths lengths) with
  | none => .error "over-subscribed Huffman code lengths"
  | some left => .ok (tableOf lengths h,left)

theorem inflBuild_eq {lengths : List Nat} {left : Nat}
    (h : leftOver (countLengths lengths) = some left) :
    inflBuild lengths = .ok (tableOf lengths h,left) := by
  unfold inflBuild
  split
  · next hnone => rw [h] at hnone; cases hnone
  · next left' hsome =>
    rw [h,Option.some.injEq] at hsome
    subst hsome
    rfl

theorem offsets_getD (count : List Nat) {l : Nat} (hl : l < inflMaxBits) :
    (offsets count).getD (l + 1) 0 = upTo (fun l => count.getD l 0) l := by
  have hgen : ∀ n start (offs : List Nat),start + n ≤ 14 → offs.length = 16 →
      (∀ l ≤ start,offs.getD (l + 1) 0 = upTo (fun l => count.getD l 0) l) →
      ∀ l ≤ start + n,((List.range' (start + 1) n).foldl
        (fun offs l => offs.set (l + 1) (offs.getD l 0 + count.getD l 0)) offs).getD (l + 1) 0 =
          upTo (fun l => count.getD l 0) l := by
    intro n
    induction n with
    | zero => exact fun _ _ _ _ hoffs => hoffs
    | succ n ih =>
      intro start offs hn hlen hoffs
      rw [List.range'_succ,List.foldl_cons,← Nat.add_assoc,Nat.add_right_comm]
      refine ih (start + 1) _ (by omega) (by simpa using hlen) fun l hl => ?_
      rw [getD_set]
      by_cases he : l = start + 1
      · subst he
        rw [if_pos ⟨rfl,by omega⟩,hoffs start (le_refl _),upTo]
      · rw [if_neg fun hc => he (by omega)]
        exact hoffs l (by omega)
  simp only [inflMaxBits] at hl
  refine hgen 14 0 _ (by omega) (by simp) (fun l hl => ?_) l (by omega)
  rw [Nat.le_zero.mp hl,getD_replicate]
  rfl

theorem sortSymbols_getD {lengths : List Nat} (hmax : ∀ l ∈ lengths,l ≤ inflMaxBits) {sym : Nat}
    (hpos : 0 < lengths.getD sym 0) :
    (sortSymbols lengths 0 (offsets (countLengths lengths))
      (List.replicate lengths.length 0)).getD (place lengths sym) 0 = sym := by
  have hgen : ∀ (rest pre offs symbol : List Nat),lengths = pre ++ rest → offs.length = 16 →
      symbol.length = lengths.length →
      (∀ l,l < inflMaxBits → offs.getD (l + 1) 0 = upTo lengths.count l + pre.count (l + 1)) →
      (∀ s,s < pre.length → 0 < lengths.getD s 0 → symbol.getD (place lengths s) 0 = s) →
      ∀ s,0 < lengths.getD s 0 →
        (sortSymbols rest pre.length offs symbol).getD (place lengths s) 0 = s := by
    intro rest
    induction rest with
    | nil =>
      intro pre offs symbol he _ _ _ hsym s hs
      refine hsym s ?_ hs
      rw [List.append_nil] at he
      by_contra hlen
      rw [List.getD_eq_default _ _ (he ▸ not_lt.mp hlen)] at hs
      exact absurd hs (lt_irrefl 0)
    | cons x rest ih =>
      intro pre offs symbol he hofflen hsymlen hoffs hsym
      have he' : lengths = pre ++ [x] ++ rest := by rw [he,List.append_assoc]; rfl
      have hx : lengths.getD pre.length 0 = x := by
        rw [he,List.getD_append_right _ _ _ _ (le_refl _),Nat.sub_self]
        rfl
      have hprelen : (pre ++ [x]).length = pre.length + 1 := by simp
      rw [sortSymbols]
      by_cases hxpos : 0 < x
      · obtain ⟨l,rfl⟩ := Nat.exists_eq_succ_of_ne_zero hxpos.ne'
        have hl : l < inflMaxBits := hmax (l + 1) (by simp [he])
        have hplace : offs.getD (l + 1) 0 = place lengths pre.length := by
          have htake : lengths.take pre.length = pre := by rw [he,List.take_left' rfl]
          simp only [place,hx,htake,hoffs l hl]
        have hroom : place lengths pre.length < symbol.length := by
          have hlt := (place_lt hx).2
          have hle := upTo_le_length (l + 1) lengths
          omega
        rw [if_pos hxpos,← hprelen]
        refine ih (pre ++ [l + 1]) _ _ he' (by simpa using hofflen) (by simpa using hsymlen) ?_ ?_
        · intro l' hl'
          rw [getD_set,List.count_append,List.count_singleton]
          by_cases hll : l = l'
          · subst hll
            rw [if_pos ⟨rfl,by simp only [inflMaxBits] at hl; omega⟩,hoffs l hl]
            simp [Nat.add_assoc]
          · rw [if_neg fun hc => hll (by omega),hoffs l' hl']
            simp [hll]
        · intro s hs hspos
          rw [getD_set,hplace]
          by_cases hss : s = pre.length
          · subst hss
            rw [if_pos ⟨rfl,hroom⟩]
          · rw [if_neg fun hc => hss (place_injective (by rw [hx]; omega) hspos hc.1).symm]
            rw [hprelen] at hs
            exact hsym s (by omega) hspos
      · rw [if_neg hxpos,← hprelen]
        refine ih (pre ++ [x]) _ _ he' hofflen hsymlen ?_ ?_
        · intro l' hl'
          rw [hoffs l' hl',List.count_append,List.count_singleton]
          have hne : x ≠ l' + 1 := by omega
          simp [hne]
        · intro s hs hspos
          refine hsym s ?_ hspos
          by_contra hge
          rw [hprelen] at hs
          have hss : s = pre.length := by omega
          rw [hss,hx] at hspos
          exact hxpos hspos
  refine hgen lengths [] _ _ rfl ?_ (by simp) ?_ (by simp) sym hpos
  · simp only [offsets]
    generalize List.range' 1 14 = ls
    have hlen : ∀ (ls offs : List Nat),(ls.foldl (fun offs l => offs.set (l + 1)
        (offs.getD l 0 + (countLengths lengths).getD l 0)) offs).length = offs.length := by
      intro ls
      induction ls with
      | nil => exact fun _ => rfl
      | cons l ls ih => exact fun offs => (ih _).trans (List.length_set ..)
    exact hlen ls _
  · intro l hl
    rw [offsets_getD _ hl,List.count_nil,Nat.add_zero]
    have hcount : ∀ l,0 < l → l ≤ inflMaxBits → (countLengths lengths).getD l 0 = lengths.count l :=
      fun l' h0 _ => getD_count lengths hmax h0
    exact upTo_congr hcount hl.le

theorem inflBuild_ok {lengths : List Nat} (hmax : ∀ l ∈ lengths,l ≤ inflMaxBits)
    (hkraft : kraft inflMaxBits lengths ≤ 2 ^ inflMaxBits) :
    ∃ h,inflBuild lengths = .ok (h,2 ^ inflMaxBits - kraft inflMaxBits lengths) ∧
      ∀ sym,0 < lengths.getD sym 0 → ∀ rest,
        readCode h.count h.symbol (codeword lengths sym ++ rest) = .ok (sym,rest) := by
  have hcount : ∀ l,0 < l → l ≤ inflMaxBits → (countLengths lengths).getD l 0 = lengths.count l :=
    fun l h0 _ => getD_count lengths hmax h0
  have hused := used_congr hcount (le_refl inflMaxBits)
  rw [used_eq_kraft] at hused
  have hfits : Fits (fun l => (countLengths lengths).getD l 0) inflMaxBits :=
    fits_of_used (hused ▸ hkraft)
  have hleft := leftOver_of_fits hfits
  rw [hused] at hleft
  have hfits' : Fits lengths.count inflMaxBits := fun l hl => used_congr hcount hl ▸ hfits l hl
  refine ⟨tableOf lengths hleft,inflBuild_eq hleft,fun sym hpos rest => ?_⟩
  have hs : sym < lengths.length := by
    by_contra hs
    rw [List.getD_eq_default _ _ (not_lt.mp hs)] at hpos
    exact absurd hpos (lt_irrefl 0)
  have hle : lengths.getD sym 0 ≤ inflMaxBits := by
    rw [List.getD_eq_getElem _ _ hs]
    exact hmax _ (List.getElem_mem hs)
  have hloc := locate_sym hfits' hpos hle rest
  rw [← locate_congr hcount] at hloc
  simp only [readCode,tableOf,hloc,sortSymbols_getD hmax hpos]

end OpenSteamgate.Inflate
