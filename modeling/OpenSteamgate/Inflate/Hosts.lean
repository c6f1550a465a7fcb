import OpenSteamgate.Inflate.Abap
import OpenSteamgate.Inflate.Refinement
import Mathlib.Data.List.AList

namespace OpenSteamgate.Inflate

open Bits CanonicalCode BitFeed

namespace Abap

structure SameHuff (h : Inflate.Huff) (g : Huff) : Prop where
  count : h.count = 0 :: g.count
  symbol : h.symbol = g.symbol

theorem countLengths_same (lengths : List Nat) :
    Inflate.countLengths lengths = 0 :: countLengths lengths := by
  have hgen : ∀ (lengths count : List Nat),
      lengths.foldl (fun count l => if 0 < l then count.set l (count.getD l 0 + 1) else count)
        (0 :: count) = 0 :: lengths.foldl (fun count len => if 0 < len then
          count.set (len - 1) (count.getD (len - 1) 0 + 1) else count) count := by
    intro lengths
    induction lengths with
    | nil => exact fun _ => rfl
    | cons l lengths ih =>
      intro count
      rw [List.foldl_cons,List.foldl_cons]
      cases l with
      | zero => exact ih count
      | succ l =>
        rw [if_pos (Nat.succ_pos l),if_pos (Nat.succ_pos l),List.set_cons_succ,List.getD_cons_succ]
        exact ih _
  exact hgen lengths (List.replicate 15 0)

theorem length_countLengths (lengths : List Nat) : (countLengths lengths).length = 15 := by
  unfold countLengths
  generalize hcount : List.replicate 15 0 = count
  have hlen : count.length = 15 := by rw [← hcount,List.length_replicate]
  clear hcount
  induction lengths generalizing count with
  | nil => exact hlen
  | cons l lengths ih =>
    rw [List.foldl_cons]
    refine ih _ ?_
    split_ifs
    · rw [List.length_set,hlen]
    · exact hlen

theorem leftOver_same {count : List Nat} (hlen : count.length = 15) :
    Inflate.leftOver (0 :: count) = leftOver count := by
  have hmap : (List.range' 1 inflMaxBits).map (fun l => (0 :: count).getD l 0) = count := by
    refine List.ext_getElem (by simp [inflMaxBits,hlen]) fun i h₁ h₂ => ?_
    rw [List.getElem_map,List.getElem_range',Nat.one_mul,Nat.add_comm,List.getD_cons_succ,
      List.getD_eq_getElem _ _ h₂]
  rw [leftOver]
  conv_rhs => rw [← hmap,List.foldlM_map]
  rfl

theorem offsets_getD (counts : List Nat) (off : Nat) {l : Nat} (hl : l < counts.length) :
    (offsets counts off).getD l 0 = off + upTo (fun l => (0 :: counts).getD l 0) l := by
  induction counts generalizing off l with
  | nil => simp at hl
  | cons count counts ih =>
    cases l with
    | zero => rfl
    | succ l =>
      rw [offsets,List.getD_cons_succ,ih _ (by simpa using hl)]
      have hshift : ∀ l,upTo (fun l => (0 :: count :: counts).getD l 0) (l + 1) =
          count + upTo (fun l => (0 :: counts).getD l 0) l := by
        intro l
        induction l with
        | zero => exact Nat.add_comm 0 count
        | succ l ih =>
          rw [upTo,ih,upTo,List.getD_cons_succ,List.getD_cons_succ,List.getD_cons_succ,Nat.add_assoc]
      rw [hshift]
      omega

theorem length_offsets (counts : List Nat) (off : Nat) :
    (offsets counts off).length = counts.length := by
  induction counts generalizing off with
  | nil => rfl
  | cons count counts ih => rw [offsets,List.length_cons,List.length_cons,ih]

theorem offsets_same {count : List Nat} (hlen : count.length = 15) :
    Inflate.offsets (0 :: count) = 0 :: offsets count 0 := by
  have hgo : (Inflate.offsets (0 :: count)).length = 16 := by
    unfold Inflate.offsets
    generalize List.range' 1 14 = ls
    generalize hoffs : List.replicate 16 0 = offs
    have h16 : offs.length = 16 := by rw [← hoffs,List.length_replicate]
    clear hoffs
    induction ls generalizing offs with
    | nil => exact h16
    | cons l ls ih => exact ih _ (by rw [List.length_set,h16])
  have hzero : (Inflate.offsets (0 :: count)).getD 0 0 = 0 := by
    unfold Inflate.offsets
    generalize List.range' 1 14 = ls
    generalize hoffs : List.replicate 16 0 = offs
    have h0 : offs.getD 0 0 = 0 := by rw [← hoffs]; rfl
    clear hoffs
    induction ls generalizing offs with
    | nil => exact h0
    | cons l ls ih => exact ih _ (by rw [getD_set,if_neg (by omega),h0])
  refine List.ext_getElem (by rw [hgo,List.length_cons,length_offsets,hlen]) fun i h₁ h₂ => ?_
  rw [← List.getD_eq_getElem _ 0 h₁,← List.getD_eq_getElem _ 0 h₂]
  cases i with
  | zero => exact hzero
  | succ i =>
    rw [hgo] at h₁
    rw [Inflate.offsets_getD _ (by simp only [inflMaxBits]; omega),List.getD_cons_succ,
      offsets_getD _ _ (by omega),Nat.zero_add]

theorem sortSymbols_same (lengths : List Nat) (symbol : Nat) (offs symbols : List Nat) :
    Inflate.sortSymbols lengths symbol (0 :: offs) symbols =
      sortSymbols lengths symbol offs symbols := by
  induction lengths generalizing symbol offs symbols with
  | nil => rfl
  | cons l lengths ih =>
    rw [Inflate.sortSymbols,sortSymbols]
    cases l with
    | zero => exact ih _ _ _
    | succ l =>
      rw [if_pos (Nat.succ_pos l),if_pos (Nat.succ_pos l),List.set_cons_succ,List.getD_cons_succ]
      exact ih _ _ _

theorem single_same (lengths : List Nat) : inflSingle lengths = single lengths := by
  have hall : (lengths.all fun l => l == 0 || l == 1) = (lengths.filter (0 < ·)).all (· == 1) := by
    rw [List.all_filter]
    congr 1
    funext l
    match l with
    | 0 => rfl
    | 1 => rfl
    | l + 2 => rfl
  simp only [inflSingle,single,hall,List.countP_eq_length_filter]

inductive SameBuild : Except String (Inflate.Huff × Nat) → Except String (Huff × Nat) → Prop
  | fail (e : String) : e ≠ "" → SameBuild (.error e) (.error e)
  | ok (h : Inflate.Huff) (g : Huff) (left : Nat) : SameHuff h g →
      SameBuild (.ok (h,left)) (.ok (g,left))

theorem build_same (lengths : List Nat) : SameBuild (inflBuild lengths) (build lengths) := by
  have hlen := length_countLengths lengths
  have hcount := countLengths_same lengths
  have hleft : Inflate.leftOver (Inflate.countLengths lengths) = leftOver (countLengths lengths) := by
    rw [hcount,leftOver_same hlen]
  cases hl : leftOver (countLengths lengths) with
  | none =>
    have hgo : inflBuild lengths = .error "over-subscribed Huffman code lengths" := by
      unfold inflBuild
      split
      · rfl
      · next left hsome => rw [hleft,hl] at hsome; cases hsome
    rw [hgo]
    simp only [build,hl]
    exact .fail _ (by decide)
  | some left =>
    rw [inflBuild_eq (hleft.trans hl)]
    simp only [build,hl]
    refine .ok _ _ left ⟨hcount,?_⟩
    simp only [tableOf]
    rw [hcount,offsets_same hlen,sortSymbols_same]

theorem fixed_same {lengths : List Nat} (hok : (build lengths).isOk = true) :
    SameHuff (Inflate.built lengths) (fixed lengths) := by
  have h := build_same lengths
  simp only [Inflate.built,fixed]
  generalize inflBuild lengths = r at h ⊢
  generalize build lengths = r' at h hok ⊢
  cases h with
  | fail e _ => cases hok
  | ok h g left hs => exact hs

theorem fixedLen_same : SameHuff inflFixedLen gsFixedLen := by
  have he : fixedLengths =
      List.replicate 144 8 ++ List.replicate 112 9 ++ List.replicate 24 7 ++ List.replicate 8 8 := by
    decide +kernel
  rw [inflFixedLen,he]
  exact fixed_same (by decide +kernel)

theorem fixedDist_same : SameHuff inflFixedDist gsFixedDist := fixed_same (by decide +kernel)

structure SameControl (c : Inflate.Control) (d : Control) : Prop where
  state : c.state = d.state
  final : c.final = d.final
  storedLeft : c.storedLeft = d.storedLeft
  len : d.state = .symbols → SameHuff c.lens d.len
  dist : d.state = .symbols → SameHuff c.dist d.dist

theorem SameControl.other {c : Inflate.Control} {d : Control} (state : c.state = d.state)
    (final : c.final = d.final) (storedLeft : c.storedLeft = d.storedLeft)
    (hs : d.state ≠ .symbols) : SameControl c d :=
  ⟨state,final,storedLeft,fun h => absurd h hs,fun h => absurd h hs⟩

namespace Decoder

def window : Window Decoder Bool Decoder where
  unit := 8
  good y := y.bitbuf < 2 ^ y.bitcnt ∧ y.pos ≤ y.inlen ∧ y.inlen = y.input.length
  view y := lsb y.bitcnt y.bitbuf ++ ofBytes (y.input.drop y.pos)
  ahead y := y.bitcnt
  rest y := { y with pos := 0, bitbuf := 0, bitcnt := 0 }

theorem pow2_getD {n : Nat} (h : n < 25) : gtPow2.getD n 0 = 2 ^ n := by
  rw [gtPow2,List.getD_eq_getElem _ _ (by simpa using h),List.getElem_map,List.getElem_range]

theorem length_view {y : Decoder} (hy : window.good y) :
    (window.view y).length = y.bitcnt + 8 * (y.inlen - y.pos) := by
  simp [window,hy.2.2]

theorem refill_spec {n : Nat} (hn : n ≤ 16) (k : Nat) {y : Decoder} (hy : window.good y)
    (hk : y.inlen ≤ y.pos + k) (hcnt : y.bitcnt < n + 8) :
    window.rest (refill n k y) = window.rest y ∧ window.good (refill n k y) ∧
      window.view (refill n k y) = window.view y ∧ (refill n k y).bitcnt < n + 8 ∧
      ((refill n k y).bitcnt < n → (refill n k y).pos = y.inlen) := by
  induction k generalizing y with
  | zero => exact ⟨rfl,hy,rfl,hcnt,fun _ => le_antisymm hy.2.1 hk⟩
  | succ k ih =>
    rw [refill]
    by_cases hlt : y.bitcnt < n
    · rw [if_pos hlt]
      by_cases hend : y.inlen ≤ y.pos
      · rw [if_pos hend]
        exact ⟨rfl,hy,rfl,hcnt,fun _ => le_antisymm hy.2.1 hend⟩
      · rw [if_neg hend]
        obtain ⟨hbuf,hle,hlen⟩ := hy
        have hpos : y.pos < y.input.length := hlen ▸ not_le.mp hend
        have hsplit : ofBytes (y.input.drop y.pos) =
            lsb 8 (y.input.getD y.pos 0).toNat ++ ofBytes (y.input.drop (y.pos + 1)) := by
          rw [List.drop_eq_getElem_cons hpos,ofBytes_cons,List.getD_eq_getElem _ _ hpos]
        have hor : y.bitbuf + (y.input.getD y.pos 0).toNat * gtPow2.getD y.bitcnt 0 =
            y.bitbuf ||| ((y.input.getD y.pos 0).toNat <<< y.bitcnt) := by
          rw [pow2_getD (by omega),or_shiftLeft hbuf,Nat.mul_comm]
        have hbyte : (y.input.getD y.pos 0).toNat < 2 ^ 8 := UInt8.toNat_lt _
        rw [hor]
        obtain ⟨hr,hg,hv,hc,hp⟩ := ih
          (y := { y with
            bitbuf := y.bitbuf ||| ((y.input.getD y.pos 0).toNat <<< y.bitcnt)
            bitcnt := y.bitcnt + 8
            pos := y.pos + 1 })
          ⟨or_shiftLeft_lt hbuf hbyte,not_le.mp hend,hlen⟩ (by simp only; omega)
          (by simp only; omega)
        refine ⟨hr,hg,hv.trans ?_,hc,hp⟩
        simp only [window,lsb_or_shiftLeft hbuf,hsplit,List.append_assoc]
    · rw [if_neg hlt]
      exact ⟨rfl,hy,rfl,hcnt,fun h => absurd h hlt⟩

theorem inlen_of_rest {y y' : Decoder} (h : window.rest y' = window.rest y) : y'.inlen = y.inlen := by
  have hlen := congrArg Decoder.inlen h
  exact hlen

theorem shift_spec {y : Decoder} {n : Nat} (hn : n < 25) (hy : window.good y) (hle : n ≤ y.bitcnt) :
    window.good (y.shift n) ∧ window.view (y.shift n) = (window.view y).drop n := by
  refine ⟨⟨?_,hy.2⟩,?_⟩
  · simp only [shift,pow2_getD hn]
    rw [Nat.div_lt_iff_lt_mul (Nat.two_pow_pos n),← Nat.pow_add,Nat.sub_add_cancel hle]
    exact hy.1
  · simp only [window,shift,pow2_getD hn]
    rw [List.drop_append_of_le_length (by rwa [length_lsb]),lsb_drop hle]

end Decoder

open Abap

structure Feeding (z₀ : Inflater) (y₀ : Decoder) (n : Nat) (z : Inflater) (y : Decoder) : Prop where
  rest : Inflater.window.rest z = Inflater.window.rest z₀
  rest' : Decoder.window.rest y = Decoder.window.rest y₀
  good : Inflater.window.good z
  good' : Decoder.window.good y
  view : Inflater.window.view z = Decoder.window.view y
  held : n ≤ z.bitcnt
  held' : n ≤ y.bitcnt
  short : y.bitcnt < n + 8

def Reason (e : String) : Prop := e ≠ ""

instance (e : String) : Decidable (Reason e) := inferInstanceAs (Decidable (e ≠ ""))

def Idle (z₀ : Inflater) (y₀ : Decoder) (z : Inflater) (y : Decoder) : Prop :=
  Inflater.window.rest z = Inflater.window.rest z₀ ∧ Decoder.window.rest y = Decoder.window.rest y₀

abbrev Locked (z₀ : Inflater) (y₀ : Decoder) {α γ : Type} (m : Inflate.Decoding α) (d : Decoding γ)
    (R : α → γ → Prop) : Prop :=
  Lockstep Reason (Idle z₀ y₀) (Feeding z₀ y₀ 0) m d fun a c z y => R a c ∧ Feeding z₀ y₀ 0 z y

section Programs

variable {z₀ : Inflater} {y₀ : Decoder}

theorem need_lock {k n : Nat} (hk : k ≤ n) (hn : n ≤ 16) :
    Lockstep Reason (Idle z₀ y₀) (Feeding z₀ y₀ k) (need n : Inflate.Decoding Unit) (need n)
      fun _ _ => Feeding z₀ y₀ n := by
  intro z y h
  have hshort := h.short
  obtain ⟨hr,hg,hv,hp⟩ := Inflater.fill_spec n z h.good
  obtain ⟨hr',hg',hv',hc',hp'⟩ := Decoder.refill_spec hn (y.inlen - y.pos) h.good' (by omega) (by omega)
  have hin : (z.fill n).input = z.input := Inflater.input_of_rest hr
  have hin' : (Decoder.refill n (y.inlen - y.pos) y).inlen = y.inlen := Decoder.inlen_of_rest hr'
  have hlen := congrArg List.length (hv.trans (h.view.trans hv'.symm))
  rw [Inflater.length_view,Decoder.length_view hg',hin,hin'] at hlen
  change Meets Reason _ _ (if (z.fill n).bitcnt < n then .ok (none,z.fill n) else .ok (some (),z.fill n))
    (if (Decoder.refill n (y.inlen - y.pos) y).bitcnt < n then _ else _)
  by_cases hlt : (z.fill n).bitcnt < n
  · have hend := hp hlt
    rw [if_pos hlt,if_pos (by omega)]
    exact .more _ _ ⟨hr.trans h.rest,hr'.trans h.rest'⟩
  · rw [if_neg hlt,if_neg (fun hlt' => by have := hp' hlt'; omega)]
    refine .ok _ _ _ _ ⟨hr.trans h.rest,hr'.trans h.rest',hg,hg',hv.trans (h.view.trans hv'.symm),
      by omega,?_,hc'⟩
    by_contra hlt'
    have := hp' (by omega)
    omega

theorem bits_lock {k n : Nat} (hk : k ≤ n) (hn : k ≤ 16) :
    Lockstep Reason (Idle z₀ y₀) (Feeding z₀ y₀ n) (bits k : Inflate.Decoding Nat) (bits k)
      fun a c z y => a = c ∧ a < 2 ^ k ∧ Feeding z₀ y₀ (n - k) z y := by
  intro z y h
  have hheld := h.held
  have hheld' := h.held'
  have hshort := h.short
  obtain ⟨hg,hv⟩ := Inflater.shift_spec h.good (hk.trans hheld)
  obtain ⟨hg',hv'⟩ := Decoder.shift_spec (by omega) h.good' (hk.trans hheld')
  have hlow : z.low k = val ((Inflater.window.view z).take k) :=
    Inflater.low_view h.good (.inl (hk.trans hheld))
  have hlow' : y.bitbuf % Abap.gtPow2.getD k 0 = val ((Decoder.window.view y).take k) := by
    rw [Decoder.pow2_getD (by omega)]
    simp only [Decoder.window]
    rw [List.take_append_of_le_length (by rw [length_lsb]; omega),lsb_take (by omega),val_lsb]
  have hlt : z.low k < 2 ^ k := by
    rw [Inflater.low_eq]
    exact Nat.mod_lt _ (Nat.two_pow_pos k)
  refine .ok (z.low k) (y.bitbuf % Abap.gtPow2.getD k 0) (z.shift k) (y.shift k)
    ⟨by rw [hlow,hlow',h.view],hlt,h.rest,h.rest',hg,hg',by rw [hv,hv',h.view],?_,?_,?_⟩
  · exact Nat.sub_le_sub_right hheld k
  · exact Nat.sub_le_sub_right hheld' k
  · change y.bitcnt - k < n - k + 8
    omega

theorem align_lock : Lockstep Reason (Idle z₀ y₀) (Feeding z₀ y₀ 0) (BitSource.align : Inflate.Decoding Unit)
    Decoder.align fun _ _ => Feeding z₀ y₀ 0 := by
  intro z y h
  have hshort := h.short
  obtain ⟨hg,hv⟩ := Inflater.shift_spec h.good (Nat.mod_le z.bitcnt 8)
  obtain ⟨hg',hv'⟩ := Decoder.shift_spec (n := y.bitcnt % 8) (by omega) h.good' (Nat.mod_le y.bitcnt 8)
  have hmod : z.bitcnt % 8 = y.bitcnt % 8 := by
    have hlen := congrArg List.length h.view
    rw [Inflater.length_view,Decoder.length_view h.good'] at hlen
    omega
  refine .ok () () (z.shift (z.bitcnt % 8)) (y.shift (y.bitcnt % 8)) ⟨h.rest,h.rest',hg,hg',?_,
    Nat.zero_le _,Nat.zero_le _,?_⟩
  · rw [hv,hv',h.view,hmod]
  · change y.bitcnt - y.bitcnt % 8 < 8
    omega

theorem walk_lock {h : Inflate.Huff} {g : Huff} (hs : SameHuff h g) (k len : Nat) (hlen : 0 < len)
    (code first index : Nat) :
    Locked z₀ y₀ (Inflate.walk h k len (2 * code) first index) (walk g k len (2 * code) first index) Eq := by
  induction k generalizing len code first index with
  | zero => exact .fail (by decide)
  | succ k ih =>
    refine .bind (need_lock (Nat.zero_le 1) (by omega)) fun _ _ =>
      .bind_same (bits_lock (le_refl 1) (by omega)) fun bit => ?_
    rintro z y ⟨hbit,hf⟩
    have hor : 2 * code ||| bit = 2 * code + bit := by
      have := or_shiftLeft (m := 1) hbit code
      rw [Nat.or_comm,Nat.shiftLeft_eq,Nat.pow_one,Nat.mul_comm] at this
      omega
    have hcount : h.count.getD len 0 = g.count.getD (len - 1) 0 := by
      obtain ⟨l,rfl⟩ := Nat.exists_eq_succ_of_ne_zero hlen.ne'
      rw [hs.count]
      rfl
    have hcode : (2 * code + bit) * 2 = 2 * (2 * code + bit) := Nat.mul_comm _ _
    simp only [hor,hcount,Nat.shiftLeft_eq,Nat.pow_one,hs.symbol,hcode]
    split_ifs
    · exact .ok _ _ z y ⟨rfl,hf⟩
    · exact ih (len + 1) (Nat.succ_pos len) _ _ _ z y hf

theorem decode_lock {h : Inflate.Huff} {g : Huff} (hs : SameHuff h g) :
    Locked z₀ y₀ (BitSource.decode h) (decode g) Eq := by
  intro z y hf
  have hfast := (Inflater.decode_reads h 0).agrees z hf.good (Nat.zero_le _)
  have hslow := (Inflater.walk_reads h inflMaxBits 1 0 0 0).agrees z hf.good (Nat.zero_le _)
  have hwalk := walk_lock hs inflMaxBits 1 Nat.one_pos 0 0 0 z y hf
  rw [Inflater.walk_readCode] at hslow
  change Meets Reason _ _ _ ((walk g inflMaxBits 1 (2 * 0) 0 0 : Decoding Nat) y)
  generalize (BitSource.decode h : Reading Nat) (Inflater.window.view z) = o at hfast hslow
  generalize (BitSource.decode h : Inflate.Decoding Nat) z = r at hfast ⊢
  generalize (Inflate.walk h inflMaxBits 1 0 0 0 : Inflate.Decoding Nat) z = r' at hslow hwalk
  generalize (walk g inflMaxBits 1 (2 * 0) 0 0 : Decoding Nat) y = r'' at hwalk ⊢
  cases hfast with
  | more z' hr =>
    cases hslow
    cases hwalk with
    | more _ y' hidle => exact .more z' y' ⟨hr.trans hf.rest,hidle.2⟩
  | fail e =>
    cases hslow
    cases hwalk with
    | fail _ he => exact .fail e he
  | ok a z' hr hg _ =>
    generalize hview : Inflater.window.view z' = v at hslow
    cases hslow with
    | ok _ z'' hr' hg' _ =>
      cases hwalk with
      | ok _ c _ y' hq =>
        obtain ⟨rfl,hf'⟩ := hq
        exact .ok _ _ z' y' ⟨rfl,hr.trans hf.rest,hf'.rest',hg,hf'.good',hview.trans hf'.view,
          Nat.zero_le _,hf'.held',hf'.short⟩

def Commits (f : Inflate.Control → Inflate.Control) (g : Control → Control) : Prop :=
  ∀ c d, SameControl c d → SameControl (f c) (g d)

theorem commits_codes {hl hd : Inflate.Huff} {gl gd : Huff} (hsl : SameHuff hl gl)
    (hsd : SameHuff hd gd) (final : Bool) :
    Commits (fun c => { c with final := final,lens := hl,dist := hd,state := .symbols })
      (fun d => { d with final := final,len := gl,dist := gd,state := .symbols }) :=
  fun _ _ hc => ⟨rfl,rfl,hc.storedLeft,fun _ => hsl,fun _ => hsd⟩

theorem corrupt_lock {α γ : Type} (P : Inflater → Decoder → Prop) {e : String} (he : Reason e)
    (Q : α → γ → Inflater → Decoder → Prop) :
    Lockstep Reason (Idle z₀ y₀) P (corrupt e : Inflate.Decoding α) (corrupt e) Q := .fail he

theorem bits_done {n : Nat} (hn : n ≤ 16) :
    Lockstep Reason (Idle z₀ y₀) (Feeding z₀ y₀ n) (bits n : Inflate.Decoding Nat) (bits n)
      fun a c z y => a = c ∧ Feeding z₀ y₀ 0 z y := by
  have h := @bits_lock z₀ y₀ n n (le_refl n) hn
  rw [Nat.sub_self] at h
  exact h.weaken (fun _ _ hp => hp) fun a c z y hq => ⟨hq.1,hq.2.2⟩

theorem header_lock : Locked z₀ y₀ Inflate.stepHeader stepHeader Commits := by
  refine .bind (need_lock (Nat.zero_le 3) (by omega)) fun _ _ => .bind_same
    ((bits_lock (by omega) (by omega)).weaken (fun _ _ hp => hp) fun _ _ _ _ hq => ⟨hq.1,hq.2.2⟩)
    fun final => .bind_same (bits_done (by omega)) fun kind => ?_
  match kind with
  | 0 => exact .pure fun z y hf =>
      ⟨fun c d hc => .other rfl rfl hc.storedLeft (by simp),hf⟩
  | 1 => exact .pure fun z y hf => ⟨commits_codes fixedLen_same fixedDist_same _,hf⟩
  | 2 => exact .pure fun z y hf =>
      ⟨fun c d hc => .other rfl rfl hc.storedLeft (by simp),hf⟩
  | kind + 3 => exact corrupt_lock _ (by decide) _

theorem storedLen_lock : Locked z₀ y₀ Inflate.stepStoredLen stepStoredLen Commits := by
  refine .bind align_lock fun _ _ => .bind (need_lock (Nat.zero_le 16) (le_refl 16)) fun _ _ =>
    .bind_same (bits_done (le_refl 16)) fun len => .bind (need_lock (Nat.zero_le 16) (le_refl 16))
      fun _ _ => .bind_same (bits_done (le_refl 16)) fun nlen => ?_
  split_ifs
  · exact corrupt_lock _ (by decide) _
  · exact .pure fun z y hf => ⟨fun c d hc => .other rfl hc.final rfl (by simp),hf⟩

theorem codes_lock (order codes : List Nat) :
    Locked z₀ y₀ (Inflate.readCodes order codes) (readCodes order codes) Eq := by
  induction order generalizing codes with
  | nil => exact .pure fun z y hf => ⟨rfl,hf⟩
  | cons index order ih =>
    exact .bind (need_lock (Nat.zero_le 3) (by omega)) fun _ _ =>
      .bind_same (bits_done (by omega)) fun len => ih _

theorem built_lock (lengths : List Nat) : Locked z₀ y₀ (Inflate.build lengths) (built lengths)
    fun h g => SameHuff h.1 g.1 ∧ h.2 = g.2 := by
  have h := build_same lengths
  unfold Inflate.build built
  generalize inflBuild lengths = r at h ⊢
  generalize Abap.build lengths = r' at h ⊢
  cases h with
  | fail e he => exact corrupt_lock _ he _
  | ok h g left hs => exact .pure fun z y hf => ⟨⟨hs,rfl⟩,hf⟩

theorem repeat_lock (lengths : List Nat) {symbol : Nat} :
    Locked z₀ y₀ (Inflate.readRepeat lengths symbol) (readRepeat lengths symbol) Eq := by
  have hrun : ∀ (n prev base : Nat),n ≤ 16 → Locked z₀ y₀ (do need n; let k ← bits n; pure (prev,base + k))
      (do need n; let k ← bits n; pure (prev,base + k)) Eq := fun n prev base hn =>
    .bind (need_lock (Nat.zero_le n) hn) fun _ _ => .bind_same (bits_done hn) fun k =>
      .pure fun z y hf => ⟨rfl,hf⟩
  unfold Inflate.readRepeat readRepeat
  split
  · rw [if_pos rfl]
    cases lengths.getLast? with
    | none => exact corrupt_lock _ (by decide) _
    | some prev => exact hrun 2 prev 3 (by omega)
  · rw [if_neg (by omega),if_pos rfl]
    exact hrun 3 0 3 (by omega)
  · next h16 h17 =>
    rw [if_neg h16,if_neg h17]
    exact hrun 7 0 11 (by omega)

theorem lengths_lock {h : Inflate.Huff} {g : Huff} (hs : SameHuff h g) (total k : Nat)
    (lengths : List Nat) :
    Locked z₀ y₀ (Inflate.readLengths h total k lengths) (readLengths g total k lengths) Eq := by
  induction k generalizing lengths with
  | zero => exact .pure fun z y hf => ⟨rfl,hf⟩
  | succ k ih =>
    rw [Inflate.readLengths,readLengths]
    split_ifs
    · exact .pure fun z y hf => ⟨rfl,hf⟩
    · refine .bind_same (decode_lock hs) fun symbol => ?_
      split_ifs
      · exact ih _
      · refine .bind_same (repeat_lock lengths) fun run => ?_
        split_ifs
        · exact corrupt_lock _ (by decide) _
        · exact ih _

theorem any_used (lengths : List Nat) :
    lengths.any (0 < ·) = true ↔ 0 < (lengths.filter (0 < ·)).length := by
  rw [List.length_pos_iff_exists_mem,List.any_eq_true]
  simp only [List.mem_filter]

theorem buildTables_lock (nlen : Nat) (lengths : List Nat) :
    Locked z₀ y₀ (Inflate.buildTables nlen lengths) (buildTables nlen lengths) Commits := by
  unfold Inflate.buildTables buildTables
  split_ifs
  · exact corrupt_lock _ (by decide) _
  · refine .bind (built_lock _) ?_
    rintro ⟨hl,left⟩ ⟨gl,left'⟩ z y ⟨⟨hsl,hleft⟩,hf⟩
    simp only at hsl hleft
    subst hleft
    revert z y
    change Lockstep Reason _ (Feeding z₀ y₀ 0) _ _ _
    simp only [single_same]
    split_ifs
    · exact corrupt_lock _ (by decide) _
    · refine .bind (built_lock _) ?_
      rintro ⟨hd,left'⟩ ⟨gd,left''⟩ z y ⟨⟨hsd,hleft⟩,hf⟩
      simp only at hsd hleft
      subst hleft
      simp only [any_used]
      split_ifs
      · exact corrupt_lock (Feeding z₀ y₀ 0) (by decide) _ z y hf
      · exact .ok _ _ z y ⟨fun c d hc => ⟨rfl,hc.final,hc.storedLeft,fun _ => hsl,fun _ => hsd⟩,hf⟩

theorem table_lock : Locked z₀ y₀ Inflate.stepTable stepTable Commits := by
  have hbits : ∀ k n : Nat,k ≤ n → k ≤ 16 → Lockstep Reason (Idle z₀ y₀) (Feeding z₀ y₀ n)
      (bits k : Inflate.Decoding Nat) (bits k) fun a c z y => a = c ∧ Feeding z₀ y₀ (n - k) z y :=
    fun k n hk hn => (bits_lock hk hn).weaken (fun _ _ hp => hp) fun _ _ _ _ hq => ⟨hq.1,hq.2.2⟩
  unfold Inflate.stepTable stepTable
  refine .bind (need_lock (Nat.zero_le 14) (by omega)) fun _ _ => .bind_same
    (hbits 5 14 (by omega) (by omega)) fun nlen => .bind_same (hbits 5 9 (by omega) (by omega))
      fun ndist => .bind_same (hbits 4 4 (by omega) (by omega)) fun ncode => ?_
  split
  · exact corrupt_lock _ (by decide) _
  · refine .bind_same (codes_lock _ _) fun codes => .bind (built_lock _) ?_
    rintro ⟨hc,left⟩ ⟨gc,left'⟩ z y ⟨⟨hs,hleft⟩,hf⟩
    simp only at hs hleft
    subst hleft
    simp only
    split_ifs
    · exact corrupt_lock (Feeding z₀ y₀ 0) (by decide) _ z y hf
    · exact Lockstep.bind_same (lengths_lock hs _ _ _) (fun lengths => buildTables_lock _ _) z y hf

theorem symbol_lock {h hd : Inflate.Huff} {g gd : Huff} (hs : SameHuff h g) (hsd : SameHuff hd gd) :
    Lockstep Reason (Idle z₀ y₀) (Feeding z₀ y₀ 0) (Inflate.stepSymbol h hd : Inflate.Decoding Symbol)
      (stepSymbol g gd) fun a c z y =>
        a = c ∧ (∀ length distance,a = .copy length distance → 0 < distance) ∧
          Feeding z₀ y₀ 0 z y := by
  have hextra : ∀ i,inflLenExtra.getD i 0 ≤ 16 ∧ inflDistExtra.getD i 0 ≤ 16 := by
    intro i
    by_cases hi : i < 30
    · exact (by decide : ∀ i < 30,inflLenExtra.getD i 0 ≤ 16 ∧ inflDistExtra.getD i 0 ≤ 16) i hi
    · rw [List.getD_eq_default _ _ (by simp [inflLenExtra]; omega),
        List.getD_eq_default _ _ (by simp [inflDistExtra]; omega)]
      exact ⟨Nat.zero_le _,Nat.zero_le _⟩
  have hbase : ∀ i < 30,0 < inflDistBase.getD i 0 := by decide
  unfold Inflate.stepSymbol stepSymbol
  refine .bind_same (decode_lock hs) fun symbol => ?_
  dsimp only
  split_ifs
  · exact .pure fun z y hf => ⟨rfl,fun _ _ he => (by cases he),hf⟩
  · exact .pure fun z y hf => ⟨rfl,fun _ _ he => (by cases he),hf⟩
  · exact corrupt_lock _ (by decide) _
  · refine .bind (need_lock (Nat.zero_le _) (hextra _).1) fun _ _ =>
      .bind_same (bits_done (hextra _).1) fun extra => .bind_same (decode_lock hsd) fun symbol => ?_
    split_ifs with h30
    · exact corrupt_lock _ (by decide) _
    · refine .bind (need_lock (Nat.zero_le _) (hextra _).2) fun _ _ =>
        .bind_same (bits_done (hextra _).2) fun extra => .pure fun z y hf => ⟨rfl,?_,hf⟩
      rintro length distance ⟨⟩
      exact Nat.add_pos_left (hbase _ (not_le.mp h30)) _

end Programs

theorem copyBack_add (hist : List UInt8) (start m n : Nat) :
    Inflater.copyBack hist start (m + n) =
      Inflater.copyBack (Inflater.copyBack hist start m) (start + m) n := by
  simp only [Inflater.copyBack,List.range_add,List.foldl_append,List.foldl_map,Nat.add_assoc]

theorem copyBack_take {hist : List UInt8} {start n : Nat} (h : start + n ≤ hist.length) :
    Inflater.copyBack hist start n = hist ++ (hist.drop start).take n := by
  induction n with
  | zero => simp [Inflater.copyBack]
  | succ n ih =>
    have hlt : start + n < hist.length := by omega
    have hlast : n < (hist.drop start).length := by
      rw [List.length_drop]
      omega
    have hone : ∀ l : List UInt8,Inflater.copyBack l (start + n) 1 = l ++ [l.getD (start + n) 0] :=
      fun _ => rfl
    rw [copyBack_add,ih (by omega),hone,List.getD_append _ _ _ _ hlt,List.take_succ_eq_append_getElem hlast,
      List.getElem_drop,List.append_assoc,List.getD_eq_getElem _ _ hlt]

theorem repeatPiece_copies {piece : List UInt8} (hpiece : 0 < piece.length) (k : Nat) {left : Nat}
    {hist : List UInt8} (hleft : left ≤ k) (hlast : piece <:+ hist) :
    (Decoder.repeatPiece piece k left hist).1 ++ piece.take (Decoder.repeatPiece piece k left hist).2 =
      Inflater.copyBack hist (hist.length - piece.length) left := by
  induction k generalizing left hist with
  | zero =>
    rw [Nat.le_zero.mp hleft]
    exact List.append_nil hist
  | succ k ih =>
    have hle := hlast.length_le
    have hdrop : hist.drop (hist.length - piece.length) = piece := by
      obtain ⟨pre,rfl⟩ := hlast
      rw [List.length_append,Nat.add_sub_cancel,List.drop_left' rfl]
    rw [Decoder.repeatPiece]
    by_cases hp : piece.length ≤ left
    · obtain ⟨rest,rfl⟩ := Nat.exists_eq_add_of_le hp
      have hpiece' : Inflater.copyBack hist (hist.length - piece.length) piece.length =
          hist ++ piece := by
        rw [copyBack_take (by omega),hdrop,List.take_length]
      rw [if_pos hp,ih (by omega) (List.suffix_append hist piece),copyBack_add,hpiece',
        List.length_append,Nat.add_sub_cancel,Nat.add_sub_cancel_left,Nat.sub_add_cancel hle]
    · rw [if_neg hp,copyBack_take (by omega),hdrop]

theorem copy_same {hist : List UInt8} {length distance : Nat} (hpos : 0 < distance)
    (hle : distance ≤ hist.length) :
    Decoder.copy hist length distance =
      .ok (Inflater.copyBack hist (hist.length - distance) length) := by
  simp only [Decoder.copy,if_neg (not_lt.mpr hle)]
  split_ifs with hlen hleft
  · rw [copyBack_take (by omega)]
  all_goals
    have htake : (hist.drop (hist.length - distance)).take distance =
        hist.drop (hist.length - distance) :=
      List.take_of_length_le (by rw [List.length_drop]; omega)
    have hplen : (hist.drop (hist.length - distance)).length = distance := by
      rw [List.length_drop]
      omega
    have hpos : 0 < (hist.drop (hist.length - distance)).length := by omega
    have hcopies := repeatPiece_copies hpos length (le_refl length) (List.drop_suffix _ hist)
    rw [htake] at hleft ⊢
    rw [hplen] at hcopies
    rw [← hcopies]
  rw [Nat.le_zero.mp (not_lt.mp hleft),List.take_zero,List.append_nil]

end Abap

end OpenSteamgate.Inflate
