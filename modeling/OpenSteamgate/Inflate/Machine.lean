import OpenSteamgate.Inflate.Reading
import Mathlib.Logic.Relation

namespace OpenSteamgate.Inflate

open Bits BitFeed Relation

def storedByte {m : Type → Type} [BitFeed m] : m Nat := do
  need 8
  bits 8

theorem storedByte_reads :
    Reads Inflater.window 0 0 1 (storedByte : Decoding Nat) (storedByte : Reading Nat) :=
  .bind_later (Inflater.need_reads 0 8) fun _ => Inflater.bits_reads (n := 8) (k := 8) (le_refl 8)
    (by omega)

theorem copyBack_append (old hist : List UInt8) (start length : Nat) :
    Inflater.copyBack (old ++ hist) (old.length + start) length =
      old ++ Inflater.copyBack hist start length := by
  unfold Inflater.copyBack
  generalize List.range length = is
  induction is generalizing hist with
  | nil => rfl
  | cons i is ih =>
    rw [List.foldl_cons,List.foldl_cons,List.append_assoc,Nat.add_assoc,
      List.getD_append_right _ _ _ _ (Nat.le_add_right _ _),Nat.add_sub_cancel_left]
    exact ih _

theorem copyBack_extends (hist : List UInt8) (start length : Nat) :
    hist <+: Inflater.copyBack hist start length := by
  unfold Inflater.copyBack
  generalize List.range length = is
  induction is generalizing hist with
  | nil => exact List.prefix_rfl
  | cons i is ih => exact (List.prefix_append _ _).trans (ih _)

structure Machine where
  control : Control
  out : List UInt8
  bits : List Bool

namespace Machine

def start (bits : List Bool) : Machine := ⟨{},[],bits⟩

def extend (a : Machine) (ext : List Bool) : Machine := { a with bits := a.bits ++ ext }

def endBlock (a : Machine) : Machine :=
  if a.control.final = false then { a with control := { a.control with state := .header } }
  else
    { a with
      control := { a.control with state := .done }
      bits := a.bits.drop (a.bits.length % 8) }

def emit (a : Machine) : Symbol → Outcome String Machine
  | .literal b => .ok { a with out := a.out ++ [b] }
  | .endOfBlock => .ok a.endBlock
  | .copy length distance =>
      if a.out.length < distance then .fail "invalid distance too far back"
      else .ok { a with out := Inflater.copyBack a.out (a.out.length - distance) length }

def store (a : Machine) (b : Nat) : Outcome String Machine :=
  .ok { a with
    control := { a.control with storedLeft := a.control.storedLeft - 1 }
    out := a.out ++ [UInt8.ofNat b] }

def update (a : Machine) (f : Control → Control) : Outcome String Machine :=
  .ok { a with control := f a.control }

def after {α : Type} (a : Machine) (p : Reading α) (f : Machine → α → Outcome String Machine) :
    Outcome String Machine :=
  match p a.bits with
  | .more => .more
  | .fail e => .fail e
  | .ok (x,rest) => f { a with bits := rest } x

def next (a : Machine) : Outcome String Machine :=
  match a.control.state with
  | .header => a.after stepHeader update
  | .storedLen => a.after stepStoredLen update
  | .stored => if a.control.storedLeft = 0 then .ok a.endBlock else a.after storedByte store
  | .table => a.after stepTable update
  | .symbols => a.after (stepSymbol a.control.lens a.control.dist) emit
  | .done => .more

def Next (a b : Machine) : Prop := a.next = .ok b

def weight (a : Machine) : Nat := 2 * a.bits.length + if a.control.state = .stored then 1 else 0

variable {a b c : Machine} {ext : List Bool}

theorem next_unique : Relator.RightUnique Next := by
  intro a b c hb hc
  have h := hb.symm.trans hc
  cases h
  rfl

theorem after_ok {α : Type} {p : Reading α} {f : Machine → α → Outcome String Machine} {x : α}
    {rest : List Bool} (h : p a.bits = .ok (x,rest)) : a.after p f = f { a with bits := rest } x := by
  simp only [after,h]

theorem after_cases {α : Type} {p : Reading α} {f : Machine → α → Outcome String Machine}
    (h : a.after p f = .ok b) :
    ∃ x rest,p a.bits = .ok (x,rest) ∧ f { a with bits := rest } x = .ok b := by
  cases hp : p a.bits with
  | more => simp only [after,hp] at h; cases h
  | fail e => simp only [after,hp] at h; cases h
  | ok x => exact ⟨x.1,x.2,rfl,by simpa only [after,hp] using h⟩

theorem endBlock_extend (a : Machine) (hext : 8 ∣ ext.length) :
    (a.extend ext).endBlock = a.endBlock.extend ext := by
  obtain ⟨m,hm⟩ := hext
  by_cases hf : a.control.final = false
  · rw [endBlock,endBlock,if_pos hf]
    exact if_pos hf
  · have hd : (a.bits ++ ext).drop ((a.bits ++ ext).length % 8) =
        a.bits.drop (a.bits.length % 8) ++ ext := by
      rw [List.length_append,hm,Nat.add_mul_mod_self_left,List.drop_append_of_le_length (Nat.mod_le _ _)]
    rw [endBlock,endBlock,if_neg hf]
    refine (if_neg hf).trans ?_
    simp only [extend,hd]

theorem emit_extend (a : Machine) (sym : Symbol) (hext : 8 ∣ ext.length) :
    (a.extend ext).emit sym = (a.emit sym).map (·.extend ext) := by
  cases sym with
  | literal b => rfl
  | endOfBlock => exact congrArg Outcome.ok (endBlock_extend a hext)
  | copy length distance =>
    by_cases hd : a.out.length < distance
    · rw [emit,emit,if_pos hd]
      exact if_pos hd
    · rw [emit,emit,if_neg hd]
      exact if_neg hd

theorem after_extend {α : Type} {p : Reading α} {f : Machine → α → Outcome String Machine}
    (hp : Steady 8 p) (hf : ∀ a x,f (extend a ext) x = (f a x).map (·.extend ext))
    (hext : 8 ∣ ext.length) (h : a.after p f ≠ .more) :
    (a.extend ext).after p f = (a.after p f).map (·.extend ext) := by
  obtain ⟨hok,hfail⟩ := hp a.bits ext hext
  simp only [after] at h ⊢
  cases hr : p a.bits with
  | more =>
    rw [hr] at h
    exact (h rfl).elim
  | fail e =>
    simp only [extend,hfail e hr]
    rfl
  | ok x =>
    obtain ⟨x,rest⟩ := x
    simp only [extend,hok x rest hr]
    exact hf { a with bits := rest } x

theorem next_extend (hext : 8 ∣ ext.length) (h : a.next ≠ .more) :
    (a.extend ext).next = a.next.map (·.extend ext) := by
  have hc : (a.extend ext).control = a.control := rfl
  simp only [next,hc] at h ⊢
  cases hs : a.control.state with
  | header =>
    rw [hs] at h
    exact after_extend Inflater.header_reads.steady (fun _ _ => rfl) hext h
  | storedLen =>
    rw [hs] at h
    exact after_extend Inflater.storedLen_reads.steady (fun _ _ => rfl) hext h
  | stored =>
    rw [hs] at h
    simp only at h ⊢
    split_ifs at h ⊢
    · exact congrArg Outcome.ok (endBlock_extend a hext)
    · exact after_extend (storedByte_reads).steady (fun _ _ => rfl) hext h
  | table =>
    rw [hs] at h
    exact after_extend Inflater.table_reads.steady (fun _ _ => rfl) hext h
  | symbols =>
    rw [hs] at h
    exact after_extend (Inflater.symbol_reads _ _).steady (fun a sym => emit_extend a sym hext) hext h
  | done =>
    rw [hs] at h
    exact (h rfl).elim

theorem endBlock_weight (a : Machine) : a.endBlock.weight ≤ 2 * a.bits.length := by
  simp only [endBlock]
  split_ifs
  · simp [weight]
  · simp [weight]

theorem endBlock_out (a : Machine) : a.endBlock.out = a.out := by
  simp only [endBlock]
  split_ifs <;> rfl

theorem next_step (h : Next a b) : b.weight < a.weight ∧ a.out <+: b.out := by
  have hread : ∀ {α : Type} {p : Reading α} {m : Decoding α}
      {f : Machine → α → Outcome String Machine},Reads Inflater.window 0 0 1 m p →
      a.after p f = .ok b → (∀ a' x,f a' x = .ok b → b.weight ≤ 2 * a'.bits.length + 1 ∧
        a'.out <+: b.out) → b.weight < a.weight ∧ a.out <+: b.out := by
    intro α p m f hp ha hf
    obtain ⟨x,rest,hr,hx⟩ := after_cases ha
    have hlen := hp.takes _ _ _ hr
    obtain ⟨hw,ho⟩ := hf _ x hx
    refine ⟨?_,ho⟩
    simp only [weight] at hw ⊢
    omega
  have hone : ∀ c : Machine,c.weight ≤ 2 * c.bits.length + 1 := by
    intro c
    simp only [weight]
    split_ifs <;> omega
  have hupdate : ∀ (a' : Machine) (f : Control → Control),a'.update f = .ok b →
      b.weight ≤ 2 * a'.bits.length + 1 ∧ a'.out <+: b.out := by
    rintro a' f ⟨⟩
    exact ⟨hone _,List.prefix_rfl⟩
  simp only [Next,next] at h
  cases hs : a.control.state with
  | header => exact hread Inflater.header_reads (by simpa only [hs] using h) hupdate
  | storedLen => exact hread Inflater.storedLen_reads (by simpa only [hs] using h) hupdate
  | stored =>
    simp only [hs] at h
    split_ifs at h
    · cases h
      refine ⟨(endBlock_weight a).trans_lt ?_,⟨[],by rw [endBlock_out,List.append_nil]⟩⟩
      simp [weight,hs]
    · refine hread storedByte_reads h ?_
      rintro a' x ⟨⟩
      exact ⟨hone _,List.prefix_append _ _⟩
  | table => exact hread Inflater.table_reads (by simpa only [hs] using h) hupdate
  | symbols =>
    refine hread (Inflater.symbol_reads _ _) (by simpa only [hs] using h) ?_
    intro a' sym he
    cases sym with
    | literal x =>
      cases he
      exact ⟨hone _,List.prefix_append _ _⟩
    | endOfBlock =>
      cases he
      exact ⟨(endBlock_weight a').trans (Nat.le_succ _),⟨[],by rw [endBlock_out,List.append_nil]⟩⟩
    | copy length distance =>
      simp only [emit] at he
      split_ifs at he
      cases he
      exact ⟨hone _,copyBack_extends _ _ _⟩
  | done =>
    rw [hs] at h
    cases h

def Aligned (a : Machine) : Prop := a.control.state = .stored → a.bits.length % 8 = 0

theorem need_ensures (n : Nat) (P : List Bool → Prop) :
    Ensures P (need n : Reading Unit) fun _ rest => P rest := by
  intro bs x rest hbs h
  change (if bs.length < n then Outcome.more else .ok ((),bs)) = _ at h
  split_ifs at h
  cases h
  exact hbs

theorem bits_ensures (n : Nat) (P : List Bool → Prop) : Ensures P (BitFeed.bits n : Reading Nat)
    fun x rest => x < 2 ^ n ∧ ∃ bs,P bs ∧ bs.length = rest.length + n := by
  intro bs x rest hbs h
  change (if bs.length < n then Outcome.more else .ok (val (bs.take n),bs.drop n)) = _ at h
  split_ifs at h with hn
  cases h
  refine ⟨?_,bs,hbs,?_⟩
  · have := val_lt (bs.take n)
    rwa [List.length_take,Nat.min_eq_left (not_lt.mp hn)] at this
  · rw [List.length_drop]
    omega

theorem header_ensures : Ensures (fun _ => True) (stepHeader : Reading (Control → Control))
    fun f _ => ∀ c,(f c).state ≠ .stored ∧ (f c).state ≠ .done := by
  refine .bind (.any _) fun _ => .bind (.any _) fun final => .bind (.any _) fun kind => ?_
  split
  · exact .pure fun _ _ _ => by simp
  · exact .pure fun _ _ _ => by simp
  · exact .pure fun _ _ _ => by simp
  · exact .fail _

theorem table_ensures : Ensures (fun _ => True) (stepTable : Reading (Control → Control))
    fun f _ => ∀ c,(f c).state ≠ .stored ∧ (f c).state ≠ .done := by
  refine .bind (.any _) fun _ => .bind (.any _) fun nlen => .bind (.any _) fun ndist =>
    .bind (.any _) fun ncode => ?_
  split
  · exact .fail _
  · refine .bind (.any _) fun codes => .bind (.any _) fun hc => ?_
    split
    · exact .fail _
    · refine .bind (.any _) fun lengths => ?_
      unfold buildTables
      split
      · exact .fail _
      · refine .bind (.any _) fun hl => ?_
        split
        · exact .fail _
        · refine .bind (.any _) fun hd => ?_
          split
          · exact .fail _
          · exact .pure fun _ _ _ => by simp

theorem storedLen_ensures : Ensures (fun _ => True) (stepStoredLen : Reading (Control → Control))
    fun f rest => rest.length % 8 = 0 ∧ ∀ c,(f c).state ≠ .done := by
  have halign : Ensures (fun _ => True) (BitSource.align : Reading Unit)
      fun _ rest => rest.length % 8 = 0 := by
    intro bs x rest _ h
    change Outcome.ok ((),bs.drop (bs.length % 8)) = _ at h
    cases h
    rw [List.length_drop]
    omega
  have hbits : Ensures (fun rest => rest.length % 8 = 0) (BitFeed.bits 16 : Reading Nat)
      fun _ rest => rest.length % 8 = 0 := by
    intro bs x rest hbs h
    obtain ⟨-,bs',hbs',hlen⟩ := bits_ensures 16 (fun bs => bs.length % 8 = 0) bs x rest hbs h
    omega
  refine .bind halign fun _ => .bind (need_ensures 16 _) fun _ => .bind hbits fun n =>
    .bind (need_ensures 16 _) fun _ => .bind hbits fun complement => ?_
  split_ifs
  · exact .fail _
  · exact .pure fun _ h => ⟨h,fun _ => by simp⟩

theorem distance_bound {sym extra : Nat} (hsym : sym < 30)
    (hextra : extra < 2 ^ inflDistExtra.getD sym 0) :
    inflDistBase.getD sym 0 + extra ≤ inflWindow := by
  have hall : ∀ s < 30,inflDistBase.getD s 0 + 2 ^ inflDistExtra.getD s 0 ≤ inflWindow + 1 := by
    decide
  have := hall sym hsym
  omega

theorem symbol_ensures (lens dist : Huff) :
    Ensures (fun _ => True) (stepSymbol lens dist : Reading Symbol) fun sym _ =>
      ∀ length distance,sym = .copy length distance → distance ≤ inflWindow := by
  refine .bind (.any _) fun sym => ?_
  dsimp only
  split_ifs
  · exact .pure fun _ _ _ _ h => by cases h
  · exact .pure fun _ _ _ _ h => by cases h
  · exact .fail _
  · refine .bind (.any _) fun _ => .bind (.any _) fun extra => .bind (.any _) fun sym => ?_
    split_ifs with hsym
    · exact .fail _
    · refine .bind (.any _) fun _ => .bind (bits_ensures _ _) fun extra => .pure ?_
      rintro bs ⟨hextra,-⟩ length distance h
      cases h
      exact distance_bound (not_le.mp hsym) hextra

theorem aligned_of_ne (h : a.control.state ≠ .stored) : a.Aligned := fun hs => (h hs).elim

theorem endBlock_aligned (a : Machine) : a.endBlock.Aligned := by
  refine aligned_of_ne ?_
  rw [endBlock]
  split_ifs <;> simp

theorem next_aligned (h : Next a b) (ha : a.Aligned) : b.Aligned := by
  simp only [Next,next] at h
  cases hs : a.control.state with
  | header =>
    simp only [hs] at h
    obtain ⟨f,rest,hr,hx⟩ := after_cases h
    cases hx
    exact aligned_of_ne (header_ensures _ f rest trivial hr _).1
  | storedLen =>
    simp only [hs] at h
    obtain ⟨f,rest,hr,hx⟩ := after_cases h
    cases hx
    exact fun _ => (storedLen_ensures _ f rest trivial hr).1
  | stored =>
    simp only [hs] at h
    split_ifs at h
    · cases h
      exact endBlock_aligned a
    · obtain ⟨x,rest,hr,hx⟩ := after_cases h
      cases hx
      intro _
      have hlen : Ensures (fun bs => bs.length = a.bits.length) (storedByte : Reading Nat)
          fun _ rest => rest.length + 8 = a.bits.length :=
        .bind (need_ensures 8 _) fun _ bs x rest hbs h => by
          obtain ⟨-,bs',hbs',hlen⟩ :=
            bits_ensures 8 (fun bs => bs.length = a.bits.length) bs x rest hbs h
          omega
      have h8 := hlen _ x rest rfl hr
      have := ha hs
      simp only
      omega
  | table =>
    simp only [hs] at h
    obtain ⟨f,rest,hr,hx⟩ := after_cases h
    cases hx
    exact aligned_of_ne (table_ensures _ f rest trivial hr _).1
  | symbols =>
    simp only [hs] at h
    obtain ⟨sym,rest,-,hx⟩ := after_cases h
    cases sym with
    | literal x =>
      cases hx
      exact aligned_of_ne (by simp [hs])
    | endOfBlock =>
      cases hx
      exact endBlock_aligned _
    | copy length distance =>
      simp only [emit] at hx
      split_ifs at hx
      cases hx
      exact aligned_of_ne (by simp [hs])
  | done =>
    simp only [hs] at h
    cases h

def Stuck (a : Machine) : Prop := ∀ b, ¬Next a b

theorem reach_extend (hext : 8 ∣ ext.length) (h : ReflTransGen Next a b) :
    ReflTransGen Next (a.extend ext) (b.extend ext) := by
  induction h with
  | refl => exact .refl
  | tail _ hn ih =>
    refine ih.tail ?_
    simp only [Next] at hn ⊢
    rw [next_extend hext (by rw [hn]; exact fun hc => by cases hc),hn]
    rfl

theorem reach_out (h : ReflTransGen Next a b) : a.out <+: b.out := by
  induction h with
  | refl => exact List.prefix_rfl
  | tail _ hn ih => exact ih.trans (next_step hn).2

theorem reach_aligned (h : ReflTransGen Next a b) (ha : a.Aligned) : b.Aligned := by
  induction h with
  | refl => exact ha
  | tail _ hn ih => exact next_aligned hn ih

theorem reach_stuck (hb : ReflTransGen Next a b) (hc : ReflTransGen Next a c) (hs : b.Stuck) :
    ReflTransGen Next c b := by
  rcases ReflTransGen.total_of_right_unique next_unique hb hc with h | h
  · rcases ReflTransGen.cases_head h with rfl | ⟨d,hd,-⟩
    · exact .refl
    · exact (hs d hd).elim
  · exact h

end Machine

end OpenSteamgate.Inflate
